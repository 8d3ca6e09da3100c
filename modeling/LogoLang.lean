import LogoLang.Main
import LogoLang.Host.Stock
import LogoLang.Token.Cursor
import LogoLang.Proofs.Token.Splitting
import LogoLang.Proofs.Token.Normal
import LogoLang.Proofs.Expr.Precedence
import LogoLang.Proofs.Expr.Shunting
import LogoLang.Proofs.Expr.Stability
import LogoLang.Proofs.Scope.History
import LogoLang.Proofs.Program.RoundTrip
import LogoLang.Proofs.Program.Writing
import LogoLang.Proofs.Program.Deletion
import LogoLang.Proofs.Program.Preorder
import LogoLang.Proofs.Program.Boundary
import LogoLang.Proofs.Program.Refusal
import LogoLang.Proofs.Program.Replacement
import LogoLang.Proofs.Program.Traversal
import LogoLang.Proofs.Machine.Refinement
import LogoLang.Proofs.Machine.Dispatch
import LogoLang.Proofs.Machine.Arity
import LogoLang.Proofs.Machine.Likeness
import LogoLang.Proofs.Machine.Provenance
import LogoLang.Proofs.Machine.Learning
import LogoLang.Proofs.Machine.Lifecycle
import LogoLang.Proofs.Machine.Budget
import LogoLang.Proofs.Machine.Parameters
import LogoLang.Proofs.Machine.Trampoline
import LogoLang.Proofs.Workspace.Origin
import LogoLang.Proofs.Workspace.Pieces
import LogoLang.Proofs.Workspace.Stepping
import LogoLang.Proofs.Command.Agreement
import LogoLang.Proofs.Machine.Arithmetic
import LogoLang.Proofs.Machine.Unrolling
import LogoLang.Proofs.Machine.Parentheses
