import LogoLang.Expr

/-!
Grouping of operator chains. A chain is read with every operator taking all that follows it as its
right operand; here it is regrouped so that operators of higher priority bind more tightly and
those of equal priority group to the left.
-/

set_option autoImplicit false

namespace LogoLang.Expr

/-- An operator that has its left operand and waits for its right one. -/
structure Waiting where
  left : Expr
  op : Operator
  line : Nat
  deriving Repr

def Waiting.close (w : Waiting) (right : Expr) : Expr := .binary w.op w.left right w.line

/-- Before an operator of the given priority, every waiting operator that binds at least as tightly
takes its right operand. The innermost one stands first. -/
def closeTight (priority : Nat) : List Waiting → Expr → List Waiting × Expr
  | [], e => ([], e)
  | w :: ws, e =>
    if priority ≤ w.op.priority then closeTight priority ws (w.close e) else (w :: ws, e)

def closeAll (ws : List Waiting) (e : Expr) : Expr := ws.foldl (fun right w => w.close right) e

mutual
/-- Regroups a chain whose earlier operators are waiting. A left operand is no part of the chain
and is regrouped on its own. -/
def regroupAfter (ws : List Waiting) : Expr → Expr
  | .binary op left right line =>
    let (ws, e) := closeTight op.priority ws (regroupAfter [] left)
    regroupAfter (⟨e, op, line⟩ :: ws) right
  | .list items line => closeAll ws (.list (regroupList items) line)
  | .define name params body line => closeAll ws (.define name params (regroupList body) line)
  | .call name args line => closeAll ws (.call name (regroupList args) line)
  | .group inner line => closeAll ws (.group (regroupAfter [] inner) line)
  | e => closeAll ws e
def regroupList : List Expr → List Expr
  | [] => []
  | e :: es => regroupAfter [] e :: regroupList es
end

def regroup (e : Expr) : Expr := regroupAfter [] e

theorem regroupList_eq_map (es : List Expr) : regroupList es = es.map regroup := by
  induction es with
  | nil => rfl
  | cons e es ih => simp [regroupList, regroup, ih]

theorem length_regroupList (es : List Expr) : (regroupList es).length = es.length := by
  simp [regroupList_eq_map]

theorem closeTight_of_lt {priority : Nat} {ws : List Waiting} (e : Expr)
    (h : ∀ w ∈ ws.head?, w.op.priority < priority) : closeTight priority ws e = (ws, e) := by
  cases ws with
  | nil => rfl
  | cons w ws =>
    have hw : ¬ priority ≤ w.op.priority := by
      have := h w (by simp)
      omega
    simp only [closeTight, hw, if_false]

theorem closeTight_of_le {priority : Nat} {w : Waiting} (ws : List Waiting) (e : Expr)
    (h : priority ≤ w.op.priority) :
    closeTight priority (w :: ws) e = closeTight priority ws (w.close e) := by
  simp only [closeTight, h, if_true]

theorem priority_lt_of_closeTight (priority : Nat) (ws : List Waiting) (e : Expr) :
    ∀ w ∈ (closeTight priority ws e).1.head?, w.op.priority < priority := by
  fun_induction closeTight priority ws e with
  | case1 e => simp
  | case2 w ws e hp ih => exact ih
  | case3 w ws e hp =>
    rintro v ⟨⟩
    exact Nat.lt_of_not_le hp

theorem closeAll_closeTight (priority : Nat) (ws : List Waiting) (e : Expr) :
    closeAll (closeTight priority ws e).1 (closeTight priority ws e).2 = closeAll ws e := by
  fun_induction closeTight priority ws e with
  | case1 e => rfl
  | case2 w ws e hp ih => exact ih
  | case3 w ws e hp => rfl

end LogoLang.Expr
