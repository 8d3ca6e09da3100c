/-!
The operators written between their operands, how tightly each binds, and the word each stands for.
-/

set_option autoImplicit false

namespace LogoLang

inductive Operator where
  | less | greater | equal | add | subtract | multiply | divide
  deriving DecidableEq, Repr

namespace Operator

def all : List Operator := [.less, .greater, .equal, .add, .subtract, .multiply, .divide]

def sign : Operator → Char
  | .less => '<'
  | .greater => '>'
  | .equal => '='
  | .add => '+'
  | .subtract => '-'
  | .multiply => '*'
  | .divide => '/'

def symbol (op : Operator) : String := String.singleton op.sign

/-- An operator of higher priority binds more tightly. -/
def priority : Operator → Nat
  | .less | .greater | .equal => 1
  | .add | .subtract => 2
  | .multiply | .divide => 3

def word : Operator → String
  | .less => "lt"
  | .greater => "gt"
  | .equal => "eq"
  | .add => "add"
  | .subtract => "minus"
  | .multiply => "multiple"
  | .divide => "divide"

def ofSymbol? (s : String) : Option Operator := all.find? fun op => op.symbol = s

def isSign (c : Char) : Bool := all.any fun op => op.sign = c

@[simp] theorem ofSymbol?_symbol (op : Operator) : ofSymbol? op.symbol = some op := by
  cases op <;> decide

end Operator

end LogoLang
