import LogoLang.Proofs.Expr.Order
import Mathlib.Logic.Relation

/-!
Regrouping with two stacks, one of operators and one of operands. An operator goes onto its stack
once those that bind at least as tightly have left it, and one that leaves it takes the two operands
on top of the other stack. If they were not there, nothing would be said of it, and operands would
be lost. Main statement: for every tree they are there, the loop ends with one operand, which is the
regrouped tree, and this one has the same operands and operators in the same order.
-/

set_option autoImplicit false

namespace LogoLang.Expr

/-- The operands of the chain that follows the right operands: what its operators have to their left
and what stands at its end. -/
def spineOperands : Expr → List Expr
  | .binary _ left right _ => left :: right.spineOperands
  | e => [e]

def spineSigns : Expr → List (Operator × Nat)
  | .binary op _ right line => (op, line) :: right.spineSigns
  | _ => []

/-- A moment of the loop. What came last stands first on the stacks. -/
structure Shunting where
  output : List Expr
  pending : List (Operator × Nat)
  /-- The operators that have not come yet, each with the operand after it. -/
  rest : List Link

namespace Shunting

def links (signs : List (Operator × Nat)) (operands : List Expr) : List Link :=
  signs.zipWith (fun sign e => ⟨sign.1, sign.2, e⟩) operands

def start : List Expr → List (Operator × Nat) → Shunting
  | [], _ => ⟨[], [], []⟩
  | e :: es, signs => ⟨[e], [], links signs es⟩

def ofSpine (e : Expr) : Shunting := start (e.spineOperands.map regroup) e.spineSigns

/-- The last operator takes the last two operands. If there are too few of them, they are gone, and
the operator with them. -/
def reduce (s : Shunting) : Shunting :=
  match s.pending, s.output with
  | [], _ => s
  | sign :: pending, right :: left :: output =>
    ⟨.binary sign.1 left right sign.2 :: output, pending, s.rest⟩
  | _ :: pending, _ => ⟨[], pending, s.rest⟩

/-- The loop reduces next: the last operator binds at least as tightly as the one that comes, or
none comes any more. -/
def reduces (s : Shunting) : Bool :=
  match s.rest with
  | [] => !s.pending.isEmpty
  | l :: _ => s.pending.head?.any fun sign => decide (l.op.priority ≤ sign.1.priority)

def next? (s : Shunting) : Option Shunting :=
  if s.reduces then some s.reduce
  else
    match s.rest with
    | [] => none
    | l :: rest => some ⟨l.operand :: s.output, (l.op, l.line) :: s.pending, rest⟩

def Reaches : Shunting → Shunting → Prop := Relation.ReflTransGen fun s t => s.next? = some t

def size (s : Shunting) : Nat := s.pending.length + 2 * s.rest.length

theorem pending_of_reduces {s : Shunting} (h : s.reduces = true) :
    ∃ sign pending, s.pending = sign :: pending := by
  obtain ⟨output, pending, rest⟩ := s
  cases pending with
  | nil => cases rest <;> simp [reduces] at h
  | cons sign pending => exact ⟨sign, pending, rfl⟩

/-- All that the loop can do next. -/
theorem next?_eq_some {s t : Shunting} (h : s.next? = some t) :
    (s.reduces = true ∧ t = s.reduce) ∨
    (s.reduces = false ∧ ∃ l rest, s.rest = l :: rest ∧
      t = ⟨l.operand :: s.output, (l.op, l.line) :: s.pending, rest⟩) := by
  obtain ⟨output, pending, rest⟩ := s
  simp only [next?] at h
  split at h
  · rename_i hr
    exact .inl ⟨hr, by simpa using h.symm⟩
  · rename_i hr
    cases rest with
    | nil => cases h
    | cons l rest => exact .inr ⟨by simpa using hr, l, rest, rfl, by simpa using h.symm⟩

theorem next?_eq_none {s : Shunting} (h : s.next? = none) : s.pending = [] ∧ s.rest = [] := by
  obtain ⟨output, pending, rest⟩ := s
  simp only [next?] at h
  split at h
  · cases h
  · rename_i hr
    cases rest with
    | nil => simpa [reduces] using hr
    | cons l rest => cases h

theorem size_lt_of_next? {s t : Shunting} (h : s.next? = some t) : t.size < s.size := by
  rcases next?_eq_some h with ⟨hr, rfl⟩ | ⟨-, l, rest, hl, rfl⟩
  · obtain ⟨sign, pending, hp⟩ := pending_of_reduces hr
    have hs : s.reduce.pending = pending ∧ s.reduce.rest = s.rest := by
      rw [reduce, hp]
      split <;> simp_all
    simp [size, hs, hp]
  · simp only [size, hl, List.length_cons]
    omega

def finish (s : Shunting) : Shunting :=
  match _h : s.next? with
  | none => s
  | some t => t.finish
termination_by s.size
decreasing_by exact size_lt_of_next? _h

theorem finish_of_none {s : Shunting} (h : s.next? = none) : s.finish = s := by
  rw [finish]
  split
  · rfl
  · rename_i hn
    rw [h] at hn
    cases hn

theorem finish_of_some {s t : Shunting} (h : s.next? = some t) : s.finish = t.finish := by
  rw [finish]
  split
  · rename_i hn
    rw [h] at hn
    cases hn
  · rename_i hn
    rw [h] at hn
    cases hn
    rfl

/-- The stacks of operators that wait with their left operands, and of an operand that waits for
its operator. -/
def lay (ws : List Waiting) (e : Expr) (rest : List Link) : Shunting :=
  ⟨e :: ws.map Waiting.left, ws.map fun w => (w.op, w.line), rest⟩

def closeAlong (ws : List Waiting) (e : Expr) : List Link → Expr
  | [] => closeAll ws e
  | l :: ls =>
    let (ws, e) := closeTight l.op.priority ws e
    closeAlong (⟨e, l.op, l.line⟩ :: ws) l.operand ls

/-- The stacks fit together, and the loop will end with `t`. -/
def Leads (t : Expr) (s : Shunting) : Prop :=
  ∃ ws e rest, s = lay ws e rest ∧ closeAlong ws e rest = t

theorem Leads.next {t : Expr} {s s' : Shunting} (h : Leads t s) (hs : s.next? = some s') :
    Leads t s' := by
  obtain ⟨ws, e, rest, rfl, rfl⟩ := h
  rcases next?_eq_some hs with ⟨hr, rfl⟩ | ⟨hr, l, ls, hl, rfl⟩
  · cases ws with
    | nil => cases rest <;> simp [reduces, lay] at hr
    | cons w ws =>
      refine ⟨ws, w.close e, rest, rfl, ?_⟩
      cases rest with
      | nil => rfl
      | cons l ls =>
        have hle : l.op.priority ≤ w.op.priority := by simpa [reduces, lay] using hr
        simp only [closeAlong, closeTight_of_le ws e hle]
  · obtain rfl : rest = l :: ls := hl
    refine ⟨⟨e, l.op, l.line⟩ :: ws, l.operand, ls, rfl, ?_⟩
    have hlt : ∀ w ∈ ws.head?, w.op.priority < l.op.priority := by
      intro w hw
      have hw : ws.head? = some w := hw
      simpa [reduces, lay, hw] using hr
    simp only [closeAlong, closeTight_of_lt e hlt]

theorem Leads.ready {t : Expr} {s : Shunting} (h : Leads t s) (hr : s.reduces = true) :
    ∃ sign pending right left output,
      s.pending = sign :: pending ∧ s.output = right :: left :: output := by
  obtain ⟨ws, e, rest, rfl, rfl⟩ := h
  cases ws with
  | nil => cases rest <;> simp [reduces, lay] at hr
  | cons w ws => exact ⟨_, _, _, _, _, rfl, rfl⟩

theorem Leads.done {t : Expr} {s : Shunting} (h : Leads t s) (hs : s.next? = none) :
    s = ⟨[t], [], []⟩ := by
  obtain ⟨ws, e, rest, rfl, rfl⟩ := h
  obtain ⟨hp, rfl⟩ := next?_eq_none hs
  obtain rfl : ws = [] := List.map_eq_nil_iff.1 hp
  rfl

theorem Leads.reaches {t : Expr} {s s' : Shunting} (h : Leads t s) (hs : s.Reaches s') :
    Leads t s' := by
  induction hs with
  | refl => exact h
  | tail _ hn ih => exact ih.next hn

theorem Leads.finish {t : Expr} {s : Shunting} (h : Leads t s) : s.finish = ⟨[t], [], []⟩ := by
  induction s using Shunting.finish.induct with
  | case1 s hn => rw [finish_of_none hn, h.done hn]
  | case2 s s' hn ih => rw [finish_of_some hn, ih (h.next hn)]

theorem spineOperands_eq_cons (e : Expr) : ∃ x xs, e.spineOperands = x :: xs := by
  cases e <;> exact ⟨_, _, rfl⟩

theorem regroupAfter_eq_closeAlong {e x : Expr} {xs : List Expr} (ws : List Waiting)
    (h : e.spineOperands = x :: xs) :
    regroupAfter ws e = closeAlong ws x.regroup (links e.spineSigns (xs.map regroup)) := by
  induction e using spineOperands.induct generalizing ws x xs with
  | case1 op left right line ih =>
    obtain ⟨y, ys, hy⟩ := spineOperands_eq_cons right
    obtain ⟨rfl, rfl⟩ : left = x ∧ y :: ys = xs := by simpa [spineOperands, hy] using h
    exact ih _ hy
  | case2 e hn =>
    have ho := operator?_of_ne_binary hn
    obtain ⟨rfl, rfl⟩ : e = x ∧ [] = xs := by
      cases e with
      | binary op left right line => cases ho
      | _ => simpa [spineOperands] using h
    rw [regroupAfter_operand ws ho]
    simp [links, closeAlong]

theorem leads_ofSpine (e : Expr) : Leads e.regroup (ofSpine e) := by
  obtain ⟨x, xs, hx⟩ := spineOperands_eq_cons e
  refine ⟨[], x.regroup, links e.spineSigns (xs.map regroup), ?_, ?_⟩
  · simp [ofSpine, hx, start, lay]
  · exact (regroupAfter_eq_closeAlong [] hx).symm

end Shunting

/-- In whatever tree, and wherever the loop for its chain has come, there are an operator and two
operands when it reduces. The loop ends with the regrouped tree as its only operand and with no
operator. Read from left to right, this tree has the operands and operators that the tree had, each
on its line, and so have lists, bodies, arguments and parentheses in it. -/
theorem regroup_loses_nothing (e : Expr) :
    (∀ s, (Shunting.ofSpine e).Reaches s → s.reduces = true →
      ∃ sign pending right left output,
        s.pending = sign :: pending ∧ s.output = right :: left :: output) ∧
    (Shunting.ofSpine e).finish = ⟨[e.regroup], [], []⟩ ∧
    e.regroup.pieces = e.pieces := by
  have h := Shunting.leads_ofSpine e
  exact ⟨fun s hs hr => (h.reaches hs).ready hr, h.finish, pieces_regroup e⟩

def lopsided : Expr :=
  .binary .multiply (.binary .add .nil (.number 1 0) 0) (.binary .less (.number 2 1) .nil 2) 1

theorem regroup_loses_nothing_lopsided :
    (∃ s, (Shunting.ofSpine lopsided).Reaches s ∧ s.reduces = true ∧
      s.pending = [(.multiply, 1)] ∧
      s.output = [.number 2 1, .binary .add .nil (.number 1 0) 0]) ∧
    (Shunting.ofSpine lopsided).finish =
      ⟨[.binary .less
        (.binary .multiply (.binary .add .nil (.number 1 0) 0) (.number 2 1) 1) .nil 2], [], []⟩ := by
  have hstep : (Shunting.ofSpine lopsided).next? =
      some ⟨[.number 2 1, .binary .add .nil (.number 1 0) 0], [(.multiply, 1)],
        [⟨.less, 2, .nil⟩]⟩ := rfl
  exact ⟨⟨_, .single hstep, rfl, rfl, rfl⟩, (regroup_loses_nothing lopsided).2.1⟩

end LogoLang.Expr
