import LogoLang.Text.Decimal

/-!
Tokens: the classified pieces of a source text, each with the line it stands on, counted from 0.
-/

set_option autoImplicit false

namespace LogoLang

/-- What a token can be. A quoted word keeps its quote and a reference its colon. -/
inductive Token.Kind where
  | openBracket | closeBracket | openParen | closeParen
  | quoted | reference | operator | number | opening | closing | word
  deriving DecidableEq, Repr

namespace Token.Kind

def all : List Kind :=
  [.openBracket, .closeBracket, .openParen, .closeParen, .quoted, .reference, .operator, .number,
    .opening, .closing, .word]

def name : Kind → String
  | .openBracket => "BRACKET-OPEN"
  | .closeBracket => "BRACKET-CLOSE"
  | .openParen => "PAREN-OPEN"
  | .closeParen => "PAREN-CLOSE"
  | .quoted => "SYMBOL"
  | .reference => "VARIABLE"
  | .operator => "INFIX-OP"
  | .number => "NUMBER"
  | .opening => "PROC-TO"
  | .closing => "PROC-END"
  | .word => "WORD"

def ofName? (s : String) : Option Kind := all.find? fun k => k.name = s

/-- A token of this kind ends the construct around it. -/
def isCloser : Kind → Bool
  | .closeBracket | .closeParen | .closing => true
  | _ => false

@[simp] theorem ofName?_name (k : Kind) : ofName? k.name = some k := by
  cases k <;> decide

end Token.Kind

structure Token where
  kind : Token.Kind
  text : String
  line : Nat
  deriving DecidableEq, Repr

def Token.dump (t : Token) : String :=
  "[" ++ Text.natText t.line ++ "] " ++ t.kind.name ++ ": " ++ t.text

end LogoLang
