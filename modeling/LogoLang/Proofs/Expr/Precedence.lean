import LogoLang.Expr.Regroup

/-!
Chains of operators by precedence climbing. A chain is a first operand and further ones, each after
its operator. Climbing goes through it from left to right: an operator that binds tightly enough
takes as its right operand all that binds more tightly than itself. Main statement: regrouping makes
of a chain what climbing makes of it, and this is the only tree over the chain in which operators
bind more tightly the further down they stand, those of one tier grouping to the left.
-/

set_option autoImplicit false

namespace LogoLang

def Operator.tiers : List (List Operator) :=
  [[.equal, .less, .greater], [.add, .subtract], [.multiply, .divide]]

def Operator.tier (op : Operator) : Nat := tiers.findIdx fun ops => ops.contains op

theorem Operator.priority_eq_tier (op : Operator) : op.priority = op.tier + 1 := by
  cases op <;> rfl

namespace Expr

structure Link where
  op : Operator
  line : Nat
  operand : Expr
  deriving DecidableEq

/-- The chain as it is read: every operator takes all that follows it. -/
def leaning (first : Expr) : List Link → Expr
  | [] => first
  | l :: ls => .binary l.op first (leaning l.operand ls) l.line

/-- Takes the operators of a tier from `least` on, one after the other. The right operand of each is
what climbing makes of the operand after it, from the next tier on. Gives the tree and the rest of
the chain. -/
def climbFrom (least : Nat) (left : Expr) :
    (links : List Link) → Expr × { rest : List Link // rest.length ≤ links.length }
  | [] => (left, ⟨[], Nat.le_refl _⟩)
  | l :: ls =>
    if least ≤ l.op.tier then
      let right := climbFrom (l.op.tier + 1) l.operand ls
      let whole := climbFrom least (.binary l.op left right.1 l.line) right.2.1
      (whole.1, ⟨whole.2.1, Nat.le_trans whole.2.2 (Nat.le_succ_of_le right.2.2)⟩)
    else (left, ⟨l :: ls, Nat.le_refl _⟩)
termination_by links => links.length
decreasing_by
  · exact Nat.lt_succ_self _
  · exact Nat.lt_succ_of_le right.2.2

def climb (first : Expr) (links : List Link) : Expr := (climbFrom 0 first links).1

def operator? : Expr → Option Operator
  | .binary op _ _ _ => some op
  | _ => none

def firstOperand : Expr → Expr
  | .binary _ left _ _ => left.firstOperand
  | e => e

def links : Expr → List Link
  | .binary op left right line => left.links ++ ⟨op, line, right.firstOperand⟩ :: right.links
  | _ => []

/-- An operator to the left of another one binds at least as tightly as that one, an operator to the
right of it more tightly. -/
def Grouped : Expr → Prop
  | .binary op left right _ => (∀ q ∈ left.operator?, op.tier ≤ q.tier) ∧
    (∀ q ∈ right.operator?, op.tier < q.tier) ∧ left.Grouped ∧ right.Grouped
  | _ => True

theorem firstOperand_of_operand {e : Expr} (h : e.operator? = none) : e.firstOperand = e := by
  cases e with
  | binary op left right line => cases h
  | _ => rfl

theorem operator?_of_ne_binary {e : Expr}
    (h : ∀ op left right line, e = .binary op left right line → False) : e.operator? = none := by
  cases e with
  | binary op left right line => exact (h op left right line rfl).elim
  | _ => rfl

theorem exists_binary {e : Expr} {op : Operator} (h : e.operator? = some op) :
    ∃ left right line, e = .binary op left right line := by
  cases e <;> cases h
  exact ⟨_, _, _, rfl⟩

theorem links_of_operand {e : Expr} (h : e.operator? = none) : e.links = [] := by
  cases e with
  | binary op left right line => cases h
  | _ => rfl

theorem grouped_of_operand {e : Expr} (h : e.operator? = none) : e.Grouped := by
  cases e with
  | binary op left right line => cases h
  | _ => trivial

theorem operator?_regroup {e : Expr} (h : e.operator? = none) : e.regroup.operator? = none := by
  cases e with
  | binary op left right line => cases h
  | _ => rfl

theorem regroupAfter_operand (ws : List Waiting) {e : Expr} (h : e.operator? = none) :
    regroupAfter ws e = closeAll ws e.regroup := by
  cases e with
  | binary op left right line => cases h
  | _ => rfl

theorem tier_lt_of_closeTight (op : Operator) (ws : List Waiting) (e : Expr) :
    ∀ w ∈ (closeTight op.priority ws e).1.head?, w.op.tier < op.tier := by
  intro w hw
  have hp := priority_lt_of_closeTight op.priority ws e w hw
  simp only [Operator.priority_eq_tier] at hp
  omega

theorem tier_le_of_closeTight {op : Operator} (ws : List Waiting) {e : Expr}
    (h : ∀ q ∈ e.operator?, op.tier ≤ q.tier) :
    ∀ q ∈ (closeTight op.priority ws e).2.operator?, op.tier ≤ q.tier := by
  fun_induction closeTight op.priority ws e with
  | case1 e => exact h
  | case2 w ws e hp ih =>
    refine ih ?_
    simp only [Operator.priority_eq_tier] at hp
    simp only [Waiting.close, operator?, Option.mem_def, Option.some.injEq, forall_eq']
    omega
  | case3 w ws e hp => exact h

theorem sequence_closeAll (ws : List Waiting) (ls : List Link) {a b : Expr}
    (hf : a.firstOperand = b.firstOperand) (hl : a.links = b.links ++ ls) :
    (closeAll ws a).firstOperand = (closeAll ws b).firstOperand ∧
      (closeAll ws a).links = (closeAll ws b).links ++ ls := by
  induction ws generalizing a b with
  | nil => exact ⟨hf, hl⟩
  | cons w ws ih => exact ih rfl (by simp [Waiting.close, links, hf, hl])

def Link.regroup (l : Link) : Link := { l with operand := l.operand.regroup }

theorem sequence_regroupAfter {first : Expr} {ls : List Link} (ws : List Waiting)
    (hf : first.operator? = none) (hl : ∀ l ∈ ls, l.operand.operator? = none) :
    (regroupAfter ws (leaning first ls)).firstOperand =
        (closeAll ws first.regroup).firstOperand ∧
      (regroupAfter ws (leaning first ls)).links =
        (closeAll ws first.regroup).links ++ ls.map Link.regroup := by
  induction ls generalizing first ws with
  | nil => simp [leaning, regroupAfter_operand ws hf]
  | cons l ls ih =>
    obtain ⟨ho, hls⟩ := List.forall_mem_cons.1 hl
    simp only [leaning, regroupAfter]
    obtain ⟨hfirst, hlinks⟩ := ih (⟨_, l.op, l.line⟩ :: _) ho hls
    rw [hfirst, hlinks]
    -- The new operand stands right after what the waiting operators make of all before it.
    have ho' := operator?_regroup ho
    have hs := sequence_closeAll (closeTight l.op.priority ws first.regroup).1 [l.regroup]
      (a := .binary l.op (closeTight l.op.priority ws first.regroup).2 l.operand.regroup l.line)
      (b := (closeTight l.op.priority ws first.regroup).2) rfl
      (by simp [links, firstOperand_of_operand ho', links_of_operand ho', Link.regroup])
    rw [closeAll_closeTight] at hs
    refine ⟨hs.1, ?_⟩
    calc
      _ = ((closeAll ws first.regroup).links ++ [l.regroup]) ++ ls.map Link.regroup :=
        congrArg (· ++ ls.map Link.regroup) hs.2
      _ = (closeAll ws first.regroup).links ++ (l :: ls).map Link.regroup := by simp

theorem grouped_of_closeAll (ws : List Waiting) {e : Expr} (h : (closeAll ws e).Grouped) :
    e.Grouped := by
  induction ws generalizing e with
  | nil => exact h
  | cons w ws ih => exact (ih h : (w.close e).Grouped).2.2.2

theorem grouped_closeAll {ws : List Waiting} {d e : Expr} (h : (closeAll ws e).Grouped)
    (hd : d.Grouped) (hw : ∀ w ∈ ws.head?, ∀ q ∈ d.operator?, w.op.tier < q.tier) :
    (closeAll ws d).Grouped := by
  induction ws generalizing d e with
  | nil => exact hd
  | cons w ws ih =>
    have hc : (w.close e).Grouped := grouped_of_closeAll ws h
    refine ih h ⟨hc.1, hw w rfl, hc.2.2.1, hd⟩ ?_
    rintro v hv q ⟨⟩
    obtain ⟨vs, rfl⟩ : ∃ vs, ws = v :: vs := List.head?_eq_some_iff.1 hv
    have hv : (v.close (w.close e)).Grouped := grouped_of_closeAll vs h
    exact hv.2.1 _ rfl

theorem grouped_regroupAfter {first : Expr} {ls : List Link} (ws : List Waiting)
    (hf : first.operator? = none) (hl : ∀ l ∈ ls, l.operand.operator? = none)
    (hw : (closeAll ws first.regroup).Grouped) : (regroupAfter ws (leaning first ls)).Grouped := by
  induction ls generalizing first ws with
  | nil => simpa only [leaning, regroupAfter_operand ws hf] using hw
  | cons l ls ih =>
    obtain ⟨ho, hls⟩ := List.forall_mem_cons.1 hl
    simp only [leaning, regroupAfter]
    refine ih (_ :: _) ho hls ?_
    have ho' := operator?_regroup ho
    have hf' := operator?_regroup hf
    have hfree : ∀ q ∈ first.regroup.operator?, l.op.tier ≤ q.tier := by simp [hf']
    have ht := tier_le_of_closeTight ws hfree
    have hlt := tier_lt_of_closeTight l.op ws first.regroup
    rw [← closeAll_closeTight l.op.priority] at hw
    refine grouped_closeAll (d := .binary _ _ _ _) hw
      ⟨ht, by simp [ho'], grouped_of_closeAll _ hw, grouped_of_operand ho'⟩ ?_
    rintro w hm q ⟨⟩
    exact hlt w hm

def Climbs (least : Nat) (left : Expr) (ls : List Link) (e : Expr) (rest : List Link) : Prop :=
  (climbFrom least left ls).1 = e ∧ (climbFrom least left ls).2.1 = rest

theorem Climbs.stop {least : Nat} {ls : List Link} (left : Expr)
    (h : ∀ l ∈ ls.head?, l.op.tier < least) : Climbs least left ls left ls := by
  cases ls with
  | nil =>
    rw [Climbs, climbFrom]
    exact ⟨rfl, rfl⟩
  | cons l ls =>
    have hl : ¬ least ≤ l.op.tier := Nat.not_le.2 (h l rfl)
    simp [Climbs, climbFrom, hl]

theorem Climbs.take {least : Nat} {left right e : Expr} {l : Link} {ls rest rest' : List Link}
    (h : least ≤ l.op.tier) (hr : Climbs (l.op.tier + 1) l.operand ls right rest)
    (he : Climbs least (.binary l.op left right l.line) rest e rest') :
    Climbs least left (l :: ls) e rest' := by
  obtain ⟨rfl, rfl⟩ := hr
  rw [Climbs, climbFrom]
  rw [Climbs] at he
  simpa only [h, if_true] using he

/-- Climbing finds a grouped tree in its chain, and goes on after it. -/
theorem climbs_links {t e : Expr} {least : Nat} {ls rest : List Link} (ht : t.Grouped)
    (hleast : ∀ q ∈ t.operator?, least ≤ q.tier)
    (hls : ∀ l ∈ ls.head?, ∀ q ∈ t.operator?, l.op.tier ≤ q.tier) (he : Climbs least t ls e rest) :
    Climbs least t.firstOperand (t.links ++ ls) e rest := by
  induction t using links.induct generalizing e least ls rest with
  | case1 op left right line ihl ihr =>
    obtain ⟨hl, hr, hgl, hgr⟩ := ht
    have hop : least ≤ op.tier := hleast op rfl
    have hnext : ∀ l ∈ ls.head?, l.op.tier ≤ op.tier := fun l hm => hls l hm op rfl
    have hright : Climbs (op.tier + 1) right.firstOperand (right.links ++ ls) right ls :=
      ihr hgr hr (fun l hm q hq => Nat.le_trans (hnext l hm) (Nat.le_of_lt (hr q hq)))
        (.stop right fun l hm => Nat.lt_succ_of_le (hnext l hm))
    have hleft : Climbs least left (⟨op, line, right.firstOperand⟩ :: (right.links ++ ls)) e rest :=
      .take hop hright he
    have hall := ihl hgl (fun q hq => Nat.le_trans hop (hl q hq))
      (by rintro l ⟨⟩ q hq; exact hl q hq) hleft
    simpa [links, firstOperand] using hall
  | case2 t hn =>
    have ho : t.operator? = none := operator?_of_ne_binary hn
    rwa [firstOperand_of_operand ho, links_of_operand ho]

theorem climb_links {t : Expr} (ht : t.Grouped) : climb t.firstOperand t.links = t := by
  have hstop : Climbs 0 t [] t [] := .stop t (by simp)
  have h := climbs_links ht (by simp) (by simp) hstop
  rw [List.append_nil] at h
  exact h.1

/-- A chain of operands that are no operations is regrouped into the tree that precedence climbing
makes of it, with the operands regrouped in themselves. It is the only grouped tree with these
operands and operators, each on its line, in this order. -/
theorem regroup_eq_climb (first : Expr) (ls : List Link) (hf : first.operator? = none)
    (hl : ∀ l ∈ ls, l.operand.operator? = none) :
    (leaning first ls).regroup = climb first.regroup (ls.map Link.regroup) ∧
    ∀ t : Expr, t = (leaning first ls).regroup ↔
      t.Grouped ∧ t.firstOperand = first.regroup ∧ t.links = ls.map Link.regroup := by
  have hf' := operator?_regroup hf
  have hg : (leaning first ls).regroup.Grouped :=
    grouped_regroupAfter [] hf hl (grouped_of_operand hf')
  obtain ⟨hfirst, hlinks⟩ := sequence_regroupAfter [] hf hl
  have hfirst : (leaning first ls).regroup.firstOperand = first.regroup :=
    hfirst.trans (firstOperand_of_operand hf')
  have hlinks : (leaning first ls).regroup.links = ls.map Link.regroup :=
    hlinks.trans (by simp [closeAll, links_of_operand hf'])
  -- Climbing finds every grouped tree, hence this one and no other in its chain.
  have hclimb : (leaning first ls).regroup = climb first.regroup (ls.map Link.regroup) := by
    rw [← hfirst, ← hlinks, climb_links hg]
  refine ⟨hclimb, fun t => ⟨?_, ?_⟩⟩
  · rintro rfl
    exact ⟨hg, hfirst, hlinks⟩
  · rintro ⟨ht, htf, htl⟩
    rw [hclimb, ← htf, ← htl, climb_links ht]

def mixedLinks : List Link :=
  [⟨.subtract, 1, .number 2 1⟩, ⟨.multiply, 2, .number 3 2⟩,
   ⟨.add, 3, .call "f" [leaning (.number 4 3) [⟨.multiply, 3, .number 5 3⟩,
     ⟨.subtract, 4, .number 6 4⟩]] 3⟩,
   ⟨.less, 5, .number 7 5⟩]

def mixedTree : Expr :=
  .binary .less
    (.binary .add
      (.binary .subtract (.number 1 0) (.binary .multiply (.number 2 1) (.number 3 2) 2) 1)
      (.call "f" [.binary .subtract (.binary .multiply (.number 4 3) (.number 5 3) 3)
        (.number 6 4) 4] 3) 3)
    (.number 7 5) 5

theorem regroup_eq_climb_mixed :
    (Expr.number 1 0).operator? = none ∧ (∀ l ∈ mixedLinks, l.operand.operator? = none) ∧
    (leaning (.number 1 0) mixedLinks).regroup = mixedTree ∧
    climb (.number 1 0) (mixedLinks.map Link.regroup) = mixedTree := by
  have hl : ∀ l ∈ mixedLinks, l.operand.operator? = none := by simp [mixedLinks, operator?]
  obtain ⟨hclimb, hunique⟩ := regroup_eq_climb (.number 1 0) mixedLinks rfl hl
  have htree : mixedTree = (leaning (.number 1 0) mixedLinks).regroup :=
    (hunique mixedTree).2 ⟨by simp [mixedTree, Grouped, operator?]; decide, by decide, by decide⟩
  exact ⟨rfl, hl, htree.symm, hclimb.symm.trans htree.symm⟩

end Expr

end LogoLang
