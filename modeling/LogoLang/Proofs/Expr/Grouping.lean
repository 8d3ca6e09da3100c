import LogoLang.Proofs.Expr.Lexemes

/-!
Regrouped chains need no further parentheses. The reader leaves a chain leaning to the right, with
left operands that nothing can be added to; regrouping keeps the waiting operators in the order of
their priorities. Main statement: what regrouping makes of such a tree is printed bare.
-/

set_option autoImplicit false

namespace LogoLang.Expr

/-- No operator that follows can become a part of the expression. -/
def isOperand : Expr → Bool
  | .binary _ _ _ _ => false
  | .call _ args _ => args.isEmpty
  | _ => true

mutual
/-- The tree is as the reader leaves it, before regrouping. -/
def Raw : Expr → Prop
  | .number n _ => 0 ≤ n.toInt
  | .list items _ => RawList items
  | .define _ _ body _ => RawList body
  | .call _ args _ => RawList args
  | .binary _ left right _ => left.isOperand = true ∧ Raw left ∧ Raw right
  | .group inner _ => Raw inner
  | _ => True
def RawList : List Expr → Prop
  | [] => True
  | e :: es => Raw e ∧ RawList es
end

theorem rawList_iff (es : List Expr) : RawList es ↔ ∀ e ∈ es, Raw e := by
  induction es with
  | nil => simp [RawList]
  | cons e es ih => simp [RawList, ih]

/-- The waiting operators bind the more tightly the further inside they stand, and their left
operands are printed bare. -/
def Waits : List Waiting → Prop
  | [] => True
  | w :: ws => looseLeft w.op w.left = false ∧ Bare false w.left ∧
      (∀ v ∈ ws.head?, v.op.priority < w.op.priority) ∧ Waits ws

theorem looseRight_close {w : Waiting} {op : Operator} (e : Expr)
    (h : op.priority < w.op.priority) : looseRight op (w.close e) = false := by
  simp [looseRight, priority?, Waiting.close, h]

theorem bare_close {last : Bool} {w : Waiting} {ws : List Waiting} {e : Expr}
    (hw : Waits (w :: ws)) (he : Bare last e) (hr : looseRight w.op e = false) :
    Bare last (w.close e) := by
  simp only [Waiting.close, Bare]
  exact ⟨hw.1, hr, hw.2.1, he⟩

theorem bare_closeAll {ws : List Waiting} {e : Expr} (hw : Waits ws) (he : Bare true e)
    (hr : ∀ w ∈ ws.head?, looseRight w.op e = false) : Bare true (closeAll ws e) := by
  induction ws generalizing e with
  | nil => exact he
  | cons w ws ih =>
    have hc := bare_close hw he (hr w (by simp))
    exact ih hw.2.2.2 hc fun v hv => looseRight_close e (hw.2.2.1 v hv)

theorem closeTight_waits {ws : List Waiting} {e : Expr} (priority : Nat) (hw : Waits ws)
    (he : Bare false e) (hr : ∀ w ∈ ws.head?, looseRight w.op e = false)
    (hp : ∀ p ∈ e.priority?, priority ≤ p) :
    Waits (closeTight priority ws e).1 ∧ Bare false (closeTight priority ws e).2 ∧
      ∀ p ∈ (closeTight priority ws e).2.priority?, priority ≤ p := by
  induction ws generalizing e with
  | nil => exact ⟨trivial, he, hp⟩
  | cons w ws ih =>
    by_cases h : priority ≤ w.op.priority
    · have hc := bare_close hw he (hr w (by simp))
      simp only [closeTight, h, if_true]
      refine ih hw.2.2.2 hc (fun v hv => looseRight_close e (hw.2.2.1 v hv)) ?_
      intro p hpr
      simp only [Waiting.close, priority?, Option.mem_def, Option.some.injEq] at hpr
      omega
    · simp only [closeTight, h, if_false]
      exact ⟨hw, he, hp⟩

theorem priority?_regroupAfter_nil {e : Expr} (h : e.priority? = none) :
    (regroupAfter [] e).priority? = none := by
  cases e with
  | binary op left right line => cases h
  | _ => rfl

theorem looseLeft_eq_false {op : Operator} {e : Expr} (h : ∀ p ∈ e.priority?, op.priority ≤ p) :
    looseLeft op e = false := by
  cases hp : e.priority? with
  | none => simp [looseLeft, hp]
  | some p => simpa [looseLeft, hp] using h p (by simp [hp])

theorem looseRight_of_priority?_eq_none {op : Operator} {e : Expr} (h : e.priority? = none) :
    looseRight op e = false := by
  simp [looseRight, h]

theorem priority?_of_isOperand {e : Expr} (h : e.isOperand = true) : e.priority? = none := by
  cases e with
  | binary op left right line => cases h
  | _ => rfl

mutual
theorem bare_regroupAfter : ∀ (ws : List Waiting) (e : Expr), Raw e → Waits ws →
    Bare true (regroupAfter ws e)
  | ws, .binary op left right line, hr, hw => by
    obtain ⟨ho, hl, hright⟩ := hr
    have hp := priority?_of_isOperand ho
    have hpl := priority?_regroupAfter_nil hp
    have hc := closeTight_waits op.priority hw (bare_operand left hl ho)
      (fun w _ => looseRight_of_priority?_eq_none hpl) (by simp [hpl])
    simp only [regroupAfter]
    exact bare_regroupAfter _ right hright
      ⟨looseLeft_eq_false hc.2.2, hc.2.1, priority_lt_of_closeTight _ _ _, hc.1⟩
  | ws, .nil, _, hw => bare_closeAll hw trivial (by simp [looseRight, priority?])
  | ws, .number n line, hr, hw => bare_closeAll hw hr (by simp [looseRight, priority?])
  | ws, .word text line, _, hw => bare_closeAll hw trivial (by simp [looseRight, priority?])
  | ws, .var name line, _, hw => bare_closeAll hw trivial (by simp [looseRight, priority?])
  | ws, .list items line, hr, hw =>
    bare_closeAll hw (bare_regroupList items hr) (by simp [looseRight, priority?])
  | ws, .define name params body line, hr, hw =>
    bare_closeAll hw (bare_regroupList body hr) (by simp [looseRight, priority?])
  | ws, .call name args line, hr, hw =>
    bare_closeAll hw ⟨by simp, bare_regroupList args hr⟩ (by simp [looseRight, priority?])
  | ws, .group inner line, hr, hw =>
    bare_closeAll hw (bare_regroupAfter [] inner hr trivial) (by simp [looseRight, priority?])
theorem bare_operand : ∀ e : Expr, Raw e → e.isOperand = true → Bare false (regroupAfter [] e)
  | .nil, _, _ => trivial
  | .number _ _, hr, _ => hr
  | .word _ _, _, _ => trivial
  | .var _ _, _, _ => trivial
  | .list items _, hr, _ => bare_regroupList items hr
  | .define _ _ body _, hr, _ => bare_regroupList body hr
  | .call _ [] _, _, _ => ⟨rfl, trivial⟩
  | .group inner _, hr, _ => bare_regroupAfter [] inner hr trivial
theorem bare_regroupList : ∀ es : List Expr, RawList es → BareList (regroupList es)
  | [], _ => trivial
  | e :: es, hr => ⟨bare_regroupAfter [] e hr.1 trivial, bare_regroupList es hr.2⟩
end

theorem bare_regroup {e : Expr} (h : Raw e) : Bare true e.regroup :=
  bare_regroupAfter [] e h trivial

end LogoLang.Expr
