import LogoLang.Expr

/-!
Outlines: a tree as a list of its nodes, parents before children, each with its depth and a
description that does not mention what is below it.
-/

set_option autoImplicit false

namespace LogoLang

namespace Expr

def kindName : Expr → String
  | .nil => "NIL"
  | .number _ _ => "NUMBER"
  | .word _ _ => "WORD"
  | .var _ _ => "VARIABLE"
  | .list _ _ => "LIST"
  | .define _ _ _ _ => "TO"
  | .call _ _ _ => "APPLY"
  | .binary _ _ _ _ => "INFIX"
  | .group _ _ => "PAREN"

def details : Expr → String
  | .number n _ => " " ++ Text.intText n.toInt
  | .word text _ => " \"" ++ text
  | .var name _ => " :" ++ name
  | .define name params _ _ => " " ++ name ++ String.join (params.map (" :" ++ ·))
  | .call name args _ => " " ++ name ++ "/" ++ Text.natText args.length
  | .binary op _ _ _ => " " ++ op.symbol
  | _ => ""

def describe (e : Expr) : String := e.kindName ++ e.details

structure Entry where
  depth : Nat
  description : String
  line : Option Nat
  deriving DecidableEq, Repr

mutual
def outlineAt (depth : Nat) : Expr → List Entry
  | e@(.list items _) => ⟨depth, e.describe, e.line?⟩ :: outlineList (depth + 1) items
  | e@(.define _ _ body _) => ⟨depth, e.describe, e.line?⟩ :: outlineList (depth + 1) body
  | e@(.call _ args _) => ⟨depth, e.describe, e.line?⟩ :: outlineList (depth + 1) args
  | e@(.binary _ left right _) =>
    ⟨depth, e.describe, e.line?⟩ :: (outlineAt (depth + 1) left ++ outlineAt (depth + 1) right)
  | e@(.group inner _) => ⟨depth, e.describe, e.line?⟩ :: outlineAt (depth + 1) inner
  | e => [⟨depth, e.describe, e.line?⟩]
def outlineList (depth : Nat) : List Expr → List Entry
  | [] => []
  | e :: es => outlineAt depth e ++ outlineList depth es
end

def outline (e : Expr) : List Entry := outlineAt 0 e

end Expr

def Program.outline (p : Program) : List Expr.Entry := Expr.outlineList 0 p

end LogoLang
