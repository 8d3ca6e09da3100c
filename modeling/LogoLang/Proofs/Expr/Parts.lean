import LogoLang.Proofs.Expr.Order

/-!
An expression as what it says, token by token and from left to right. A part keeps what the reader
has made of its token, and the line if a node of the tree has it. Main statement: regrouping moves
parentheses that nobody has written, and no part.
-/

set_option autoImplicit false

namespace LogoLang

/-- What a token says. Closers, and the name and parameters in a header, are on no line, since no
node is there. A hole says nothing that a token could say. -/
inductive Part where
  | hole
  | openBracket (line : Nat)
  | closeBracket
  | openParen (line : Nat)
  | closeParen
  | opening (line : Nat)
  | name (name : String)
  | param (name : String)
  | closing
  | number (value : Int64) (line : Nat)
  | quoted (text : String) (line : Nat)
  | reference (name : String) (line : Nat)
  | word (name : String) (line : Nat)
  | operator (op : Operator) (line : Nat)
  deriving DecidableEq, Repr

namespace Expr

mutual
def parts : Expr → List Part
  | .nil => [.hole]
  | .number n line => [.number n line]
  | .word text line => [.quoted text line]
  | .var name line => [.reference name line]
  | .list items line => .openBracket line :: (partsList items ++ [.closeBracket])
  | .define name params body line =>
    .opening line :: .name name :: (params.map .param ++ (partsList body ++ [.closing]))
  | .call name args line => .word name line :: partsList args
  | .binary op left right line => parts left ++ .operator op line :: parts right
  | .group inner line => .openParen line :: (parts inner ++ [.closeParen])
def partsList : List Expr → List Part
  | [] => []
  | e :: es => parts e ++ partsList es
end

theorem partsList_eq_flatMap (es : List Expr) : partsList es = es.flatMap parts := by
  induction es with
  | nil => rfl
  | cons e es ih => simp [partsList, ih]

@[simp] theorem partsList_append (as bs : List Expr) :
    partsList (as ++ bs) = partsList as ++ partsList bs := by
  simp [partsList_eq_flatMap]

theorem inOrder_parts : InOrder parts Part.operator := by
  refine ⟨fun _ _ _ _ => rfl, fun f e ho h => ?_⟩
  have hmap : (e.children.map f).flatMap parts = e.children.flatMap parts := by
    simpa only [List.flatMap_map] using List.flatMap_congr h
  cases e with
  | binary op left right line => cases ho
  | list | define | call =>
    simp only [children] at hmap
    simp only [withChildren, children, parts, partsList_eq_flatMap, hmap]
  | group inner line =>
    have hi := h inner (by simp [children])
    exact congrArg (fun ps => Part.openParen line :: (ps ++ [.closeParen])) hi
  | nil | number | word | var => rfl

theorem parts_regroup (e : Expr) : e.regroup.parts = e.parts := view_regroup inOrder_parts e

end Expr

end LogoLang
