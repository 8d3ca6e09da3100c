import LogoLang.CoreWord
import LogoLang.Host
import LogoLang.Signature

/-!
Words and the registry that holds them by name: core words, host words, and procedures that a
program has defined. A later word takes the place of an earlier one of the same name.
-/

set_option autoImplicit false

namespace LogoLang

inductive Word where
  | core (w : CoreWord)
  | host (arity : Nat) (variadic : Bool) (act : Host.Action)
  | defined (params : List String) (body : List Expr)

namespace Word

def signature : Word → Signature
  | .core w => .primitive w.arity w.isVariadic
  | .host arity variadic _ => .primitive arity variadic
  | .defined params _ => .defined params

def isDefined : Word → Bool
  | .defined _ _ => true
  | _ => false

def isPlain : Word → Bool
  | .host _ _ _ => false
  | _ => true

/-- Some number of arguments is right for a variadic word, the declared number for any other. -/
def takes (w : Word) (n : Nat) : Bool :=
  w.signature.isVariadic || n == w.signature.arity

end Word

abbrev Registry := Table Word

namespace Registry

def core : Registry := ⟨CoreWord.all.map fun w => (w.name, .core w)⟩

def signatures (r : Registry) : Table Signature := r.map Word.signature

def definedNames (r : Registry) : List String :=
  (r.sorted.filter fun e => e.2.isDefined).map Prod.fst

end Registry

end LogoLang
