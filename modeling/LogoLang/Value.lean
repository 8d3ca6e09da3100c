import LogoLang.Expr.Printer

/-!
Values. A list keeps its items as they are written, so that it can be run as a block of code.
-/

set_option autoImplicit false

namespace LogoLang

inductive Value where
  /-- No value: what a definition or a command gives. -/
  | void
  /-- The value of a hole. -/
  | nil
  | number (n : Int64)
  | word (text : String)
  | list (items : List Expr) (line : Nat)
  deriving DecidableEq, Repr, Inhabited

inductive Value.Kind where
  | nothing | nil | number | word | list
  deriving DecidableEq, Repr

def Value.Kind.name : Value.Kind → String
  | .nothing => "nothing"
  | .nil => "nil"
  | .number => "number"
  | .word => "word"
  | .list => "list"

namespace Value

def kind : Value → Kind
  | .void => .nothing
  | .nil => .nil
  | .number _ => .number
  | .word _ => .word
  | .list _ _ => .list

def isVoid : Value → Bool
  | .void => true
  | _ => false

def ofBool (b : Bool) : Value := .word (if b then "true" else "false")

def toBool? : Value → Option Bool
  | .word text =>
    if text = "true" then some true else if text = "false" then some false else none
  | _ => none

def toNumber? : Value → Option Int64
  | .number n => some n
  | _ => none

def toItems? : Value → Option (List Expr)
  | .list items _ => some items
  | _ => none

/-- Equality within the language, where the lines in a list do not count. -/
def equals : Value → Value → Bool
  | .void, .void => true
  | .nil, .nil => true
  | .number m, .number n => decide (m = n)
  | .word s, .word t => decide (s = t)
  | .list xs _, .list ys _ => Expr.alikeList xs ys
  | _, _ => false

/-- The literal that has this value, on the given line unless it is a list, which has its own. -/
def toExpr? (line : Nat) : Value → Option Expr
  | .void => none
  | .nil => some .nil
  | .number n => some (.number n line)
  | .word text => some (.word text line)
  | .list items own => some (.list items own)

def text : Value → String
  | .void => ""
  | .nil => ""
  | .number n => Text.intText n.toInt
  | .word text => text
  | .list items line => (Expr.list items line).text .standard

@[simp] theorem toBool?_ofBool (b : Bool) : (ofBool b).toBool? = some b := by
  cases b <;> rfl

end Value

end LogoLang
