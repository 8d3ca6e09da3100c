import LogoLang.Expr
import LogoLang.Keywords

/-!
Expressions as source text. Only the parentheses that keep the tree are written: those of groups,
those of an operand whose operator binds too loosely, and those of a call that would take a
following operator for part of its last argument.
-/

set_option autoImplicit false

namespace LogoLang

namespace Expr

def priority? : Expr → Option Nat
  | .binary op _ _ _ => some op.priority
  | _ => none

def looseLeft (op : Operator) (e : Expr) : Bool :=
  e.priority?.any fun p => decide (p < op.priority)

def looseRight (op : Operator) (e : Expr) : Bool :=
  e.priority?.any fun p => decide (p ≤ op.priority)

def parens (s : String) : String := "(" ++ s ++ ")"

/-- A numeral has no sign, so a negative number is written as a difference. The least one has no
magnitude in range and takes two subtractions. -/
def numberText (n : Int64) : String :=
  if 0 ≤ n.toInt then Text.intText n.toInt
  else if n = Int64.minValue then
    parens ("0 - " ++ Text.intText Int64.maxValue.toInt ++ " - 1")
  else parens ("0 - " ++ Text.intText (-n.toInt))

mutual
/-- The text of an expression. Nothing but a closer or another expression follows it if `last`
holds, an operator may follow otherwise. -/
def render (kw : Keywords) (last : Bool) : Expr → String
  | .nil => ""
  | .number n _ => numberText n
  | .word text _ => "\"" ++ text
  | .var name _ => ":" ++ name
  | .list items _ => "[" ++ renderItems kw items ++ "]"
  | .define name params body _ =>
    kw.openingWord ++ " " ++ name ++ String.join (params.map (" :" ++ ·)) ++ "\n" ++
      renderBody kw body ++ kw.closingWord
  | .call name args _ =>
    let text := name ++ renderArgs kw args
    if args.isEmpty || last then text else parens text
  | .binary op left right _ =>
    (if left.looseLeft op then parens (render kw true left) else render kw false left) ++
      " " ++ op.symbol ++ " " ++
      (if right.looseRight op then parens (render kw true right) else render kw last right)
  | .group inner _ => parens (render kw true inner)
def renderItems (kw : Keywords) : List Expr → String
  | [] => ""
  | [e] => render kw true e
  | e :: es => render kw true e ++ " " ++ renderItems kw es
def renderArgs (kw : Keywords) : List Expr → String
  | [] => ""
  | e :: es => " " ++ render kw true e ++ renderArgs kw es
def renderBody (kw : Keywords) : List Expr → String
  | [] => ""
  | e :: es => "  " ++ render kw true e ++ "\n" ++ renderBody kw es
end

def text (kw : Keywords) (e : Expr) : String := render kw true e

end Expr

def Program.text (kw : Keywords) (p : Program) : String :=
  String.join (p.map fun e => e.text kw ++ "\n")

end LogoLang
