import LogoLang.Proofs.Expr.Nodes
import LogoLang.Proofs.Expr.Precedence

/-!
The order of a tree. A view in order says of an operation what its left operand says, then the
operator, then what its right operand says. Main statement: regrouping changes no such view; so the
operands and operators of a tree stay what they are and where they stand, and so does what is inside
the operands.
-/

set_option autoImplicit false

namespace LogoLang.Expr

/-- The view lists a tree from left to right, and sees of any other node than an operation no more
of the trees below it than their views. -/
structure InOrder {α : Type} (view : Expr → List α) (sign : Operator → Nat → α) : Prop where
  binary : ∀ op left right line,
    view (.binary op left right line) = view left ++ sign op line :: view right
  operand : ∀ (f : Expr → Expr) e, e.operator? = none → (∀ c ∈ e.children, view (f c) = view c) →
    view (e.withChildren (e.children.map f)) = view e

theorem regroup_operand {e : Expr} (h : e.operator? = none) :
    e.regroup = e.withChildren (e.children.map regroup) := by
  cases e with
  | binary op left right line => cases h
  | list items line => exact congrArg (Expr.list · line) (regroupList_eq_map items)
  | define name params body line =>
    exact congrArg (Expr.define name params · line) (regroupList_eq_map body)
  | call name args line => exact congrArg (Expr.call name · line) (regroupList_eq_map args)
  | group | nil | number | word | var => rfl

section

variable {α : Type} {view : Expr → List α} {sign : Operator → Nat → α}

/-- The operators that wait stand before all of the expression. -/
theorem view_closeAll (h : InOrder view sign) (ws : List Waiting) {vs : List α} {a b : Expr}
    (hab : view a = view b ++ vs) : view (closeAll ws a) = view (closeAll ws b) ++ vs := by
  induction ws generalizing a b with
  | nil => exact hab
  | cons w ws ih => exact ih (by simp [Waiting.close, h.binary, hab])

theorem view_closeAll_congr (h : InOrder view sign) (ws : List Waiting) {a b : Expr}
    (hab : view a = view b) : view (closeAll ws a) = view (closeAll ws b) := by
  simpa using view_closeAll h ws (hab.trans (List.append_nil _).symm)

theorem view_regroupAfter (h : InOrder view sign) (ws : List Waiting) (e : Expr) :
    view (regroupAfter ws e) = view (closeAll ws e) := by
  induction e using childrenInduction generalizing ws with
  | node e ih =>
    cases ho : e.operator? with
    | none =>
      rw [regroupAfter_operand ws ho]
      refine view_closeAll_congr h ws ?_
      rw [regroup_operand ho]
      exact h.operand regroup e ho fun c hc => ih c hc []
    | some op =>
      obtain ⟨left, right, line, rfl⟩ := exists_binary ho
      have hl : view (regroupAfter [] left) = view left := ih left (by simp [children]) []
      -- The waiting operators make the same of the left operand, before it and the operator close
      -- some of them and afterwards.
      have hc := view_closeAll h (closeTight op.priority ws (regroupAfter [] left)).1
        (h.binary op (closeTight op.priority ws (regroupAfter [] left)).2 right line)
      have hp : view (.binary op left right line) =
          view (regroupAfter [] left) ++ sign op line :: view right := by rw [h.binary, hl]
      rw [closeAll_closeTight] at hc
      rw [regroupAfter, ih right (by simp [children]), view_closeAll h ws hp, ← hc]
      rfl

theorem view_regroup (h : InOrder view sign) (e : Expr) : view e.regroup = view e :=
  view_regroupAfter h [] e

end

/-- What stands in an expression: operators and operands, one after the other. What is below an
operand stands in it, not beside it. -/
inductive Piece where
  | operator (op : Operator) (line : Nat)
  | hole
  | number (value : Int64) (line : Nat)
  | word (text : String) (line : Nat)
  | var (name : String) (line : Nat)
  | list (items : List (List Piece)) (line : Nat)
  | define (name : String) (params : List String) (body : List (List Piece)) (line : Nat)
  | call (name : String) (args : List (List Piece)) (line : Nat)
  | group (inner : List Piece) (line : Nat)

mutual
def pieces : Expr → List Piece
  | .nil => [.hole]
  | .number n line => [.number n line]
  | .word text line => [.word text line]
  | .var name line => [.var name line]
  | .list items line => [.list (piecesList items) line]
  | .define name params body line => [.define name params (piecesList body) line]
  | .call name args line => [.call name (piecesList args) line]
  | .binary op left right line => pieces left ++ .operator op line :: pieces right
  | .group inner line => [.group (pieces inner) line]
def piecesList : List Expr → List (List Piece)
  | [] => []
  | e :: es => pieces e :: piecesList es
end

theorem piecesList_eq_map (es : List Expr) : piecesList es = es.map pieces := by
  induction es with
  | nil => rfl
  | cons e es ih => simp [piecesList, ih]

theorem inOrder_pieces : InOrder pieces Piece.operator := by
  refine ⟨fun _ _ _ _ => rfl, fun f e ho h => ?_⟩
  have hmap : (e.children.map f).map pieces = e.children.map pieces := by
    simpa only [List.map_map, List.map_inj_left, Function.comp_apply] using h
  cases e with
  | binary op left right line => cases ho
  | list | define | call =>
    simp only [children] at hmap
    simp only [withChildren, children, pieces, piecesList_eq_map, hmap]
  | group inner line =>
    exact congrArg (fun ps => [Piece.group ps line]) (h inner (by simp [children]))
  | nil | number | word | var => rfl

theorem pieces_regroup (e : Expr) : e.regroup.pieces = e.pieces := view_regroup inOrder_pieces e

end LogoLang.Expr
