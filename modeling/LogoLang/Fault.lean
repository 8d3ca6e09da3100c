import LogoLang.Text.Lines
import LogoLang.Token
import LogoLang.Value

/-!
What can go wrong: a text that is no program, a name that nothing bears, and a failure while a
program runs. Each fault knows the place it concerns, as far as there is one, and is reported with
the source line of that place.
-/

set_option autoImplicit false

namespace LogoLang

inductive GrammarFault where
  | unexpected (text : String)
  | missingArguments
  | noMoreTokens
  | missingParen
  | missingBracket
  | missingName
  | missingEnd
  | invalidNumber (text : String)
  | stated (message : String)
  deriving DecidableEq, Repr

def GrammarFault.message : GrammarFault → String
  | .unexpected text => "unexpected '" ++ text ++ "'"
  | .missingArguments => "missing argument(s)"
  | .noMoreTokens => "no more token"
  | .missingParen => "missing ')'"
  | .missingBracket => "missing ']'"
  | .missingName => "missing procedure name"
  | .missingEnd => "missing 'end'"
  | .invalidNumber text => "invalid number '" ++ text ++ "'"
  | .stated message => message

inductive RunFault where
  | overflow
  | divisionByZero
  | expectsNumber (word : String) (got : Value.Kind)
  | expectsTruth (word : String) (got : Value.Kind)
  | expectsList (word : String) (got : Value.Kind)
  | expectsArguments (word : String) (expected got : Nat)
  | noValue (arg : Expr)
  | budgetExhausted
  | stated (message : String)
  deriving DecidableEq, Repr

def RunFault.message : RunFault → String
  | .overflow => "integer overflow"
  | .divisionByZero => "division by zero"
  | .expectsNumber word got => word ++ " expects a number, got " ++ got.name
  | .expectsTruth word got => word ++ " expects true or false, got " ++ got.name
  | .expectsList word got => word ++ " expects a list, got " ++ got.name
  | .expectsArguments word expected got =>
    word ++ " expects " ++ Text.natText expected ++ " argument(s), got " ++ Text.natText got
  | .noValue arg => arg.text .standard ++ " has no value"
  | .budgetExhausted => "step budget exhausted"
  | .stated message => message

inductive Fault where
  | grammar (cause : GrammarFault) (token : Option Token)
  /-- No word or variable bears the name. -/
  | unknown (name : String) (line : Option Nat)
  | run (cause : RunFault) (site : Option Expr)
  deriving DecidableEq, Repr

namespace Fault

def kindName : Fault → String
  | .grammar _ _ => "SyntaxError"
  | .unknown _ _ => "NameError"
  | .run _ _ => "RuntimeError"

def message : Fault → String
  | .grammar cause _ => "SyntaxError: " ++ cause.message
  | .unknown name _ => "NameError: " ++ name
  | .run cause _ => "RuntimeError: '" ++ cause.message ++ "'"

def line? : Fault → Option Nat
  | .grammar _ token => token.map Token.line
  | .unknown _ line => line
  | .run _ site => site.bind Expr.line?

/-- The message, then the source line of the place if it is known and exists. -/
def report (source : String) (f : Fault) : List String :=
  let quoted := f.line?.bind fun n => (Text.lines source)[n]?.map fun text =>
    "  Line " ++ Text.natText (n + 1) ++ ": " ++ text
  f.message :: quoted.toList

end Fault

end LogoLang
