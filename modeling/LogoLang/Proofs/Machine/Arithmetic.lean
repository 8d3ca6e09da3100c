import LogoLang.Proofs.Text.Decimal
import LogoLang.Proofs.Machine.Dispatch

/-!
Arithmetic. A formula is made of numbers with the four operators of arithmetic and parentheses, and
has a value among all integers unless it divides by zero. Main statement: a run of a formula gives
this value if that of every operation in it fits a word, and stops at the first operation otherwise.
-/

set_option autoImplicit false

namespace LogoLang

namespace Operator

def isArithmetic : Operator → Bool
  | .add | .subtract | .multiply | .divide => true
  | .less | .greater | .equal => false

def core : Operator → CoreWord
  | .less => .less
  | .greater => .greater
  | .equal => .equal
  | .add => .add
  | .subtract => .subtract
  | .multiply => .multiply
  | .divide => .divide

def onIntegers? : Operator → Int → Int → Option Int
  | .add, a, b => some (a + b)
  | .subtract, a, b => some (a - b)
  | .multiply, a, b => some (a * b)
  | .divide, a, b => if b = 0 then none else some (a.tdiv b)
  | .less, _, _ | .greater, _, _ | .equal, _, _ => none

end Operator

namespace Expr

inductive Formula : Expr → Prop where
  | number {n : Int64} {line : Nat} : Formula (.number n line)
  | binary {op : Operator} {left right : Expr} {line : Nat} (ho : op.isArithmetic = true)
    (hl : Formula left) (hr : Formula right) : Formula (.binary op left right line)
  | group {inner : Expr} {line : Nat} (hi : Formula inner) : Formula (.group inner line)

def exactValue? : Expr → Option Int
  | .number n _ => some n.toInt
  | .binary op left right _ =>
    left.exactValue?.bind fun a => right.exactValue?.bind fun b => op.onIntegers? a b
  | .group inner _ => inner.exactValue?
  | _ => none

/-- The operations of a formula, from left to right, each one after those in its operands. -/
def operations : Expr → List Expr
  | .binary op left right line =>
    left.operations ++ right.operations ++ [.binary op left right line]
  | .group inner _ => inner.operations
  | _ => []

def Fits (e : Expr) : Prop :=
  ∃ n, e.exactValue? = some n ∧ Int64.minValue.toInt ≤ n ∧ n ≤ Int64.maxValue.toInt

inductive Offends : Expr → RunFault → Prop where
  | divisionByZero {left right : Expr} {line : Nat} {a : Int} (hl : left.exactValue? = some a)
    (hr : right.exactValue? = some 0) : Offends (.binary .divide left right line) .divisionByZero
  | overflow {op : Operator} {left right : Expr} {line : Nat} {n : Int}
    (hn : (Expr.binary op left right line).exactValue? = some n)
    (ho : n < Int64.minValue.toInt ∨ Int64.maxValue.toInt < n) :
    Offends (.binary op left right line) .overflow

theorem Offends.not_fits {e : Expr} {cause : RunFault} (h : e.Offends cause) : ¬ e.Fits := by
  rintro ⟨n, hn, hmin, hmax⟩
  cases h with
  | divisionByZero hl hr => simp [exactValue?, Operator.onIntegers?, hl, hr] at hn
  | overflow hm ho =>
    cases hn.symm.trans hm
    omega

end Expr

namespace CoreWord

theorem fitted_of_le {n : Int} (hmin : Int64.minValue.toInt ≤ n) (hmax : n ≤ Int64.maxValue.toInt) :
    ∃ v, fitted n = .ok (.number v) ∧ v.toInt = n := by
  have hf : Text.fit? n = some (Int64.ofInt n) := if_pos ⟨hmin, hmax⟩
  exact ⟨_, by rw [fitted, hf], Text.fit?_eq_some hf⟩

theorem fitted_of_lt {n : Int} (h : n < Int64.minValue.toInt ∨ Int64.maxValue.toInt < n) :
    fitted n = .error .overflow := by
  have hf : Text.fit? n = none := if_neg (by omega)
  rw [fitted, hf]

variable {op : Operator} {a b : Int64} {n : Int}

theorem act_of_onIntegers (h : op.onIntegers? a.toInt b.toInt = some n) (line : Nat)
    (scope : Scopes.Handle) :
    op.core.act line scope [.number a, .number b] = Reply.value <$> fitted n := by
  cases op with
  | add | subtract | multiply =>
    cases h
    rfl
  | divide =>
    simp only [Operator.onIntegers?] at h
    split at h
    · cases h
    · rename_i hb
      cases h
      have hb' : b ≠ 0 := fun h => hb (by rw [h]; rfl)
      simp only [Operator.core, act, number, Value.toNumber?, bind, Except.bind, quotient,
        if_neg hb']
  | less | greater | equal => cases h

theorem act_of_onIntegers_none (ho : op.isArithmetic = true)
    (h : op.onIntegers? a.toInt b.toInt = none) :
    op = .divide ∧ b.toInt = 0 ∧ ∀ line scope,
      op.core.act line scope [.number a, .number b] = .error .divisionByZero := by
  cases op with
  | add | subtract | multiply => cases h
  | divide =>
    simp only [Operator.onIntegers?] at h
    split at h
    · rename_i hb
      have hb' : b = 0 := Int64.toInt_inj.1 (hb.trans rfl)
      refine ⟨rfl, hb, fun line scope => ?_⟩
      simp only [Operator.core, act, number, Value.toNumber?, bind, Except.bind, quotient,
        if_pos hb']
      rfl
    · cases h
  | less | greater | equal => cases ho

end CoreWord

open Direct

def World.Reckons (w : World) : Prop :=
  ∀ op : Operator, w.words.get? op.word = some (.core op.core)

namespace World.Reckons

theorem core : ({} : World).Reckons := by
  intro op
  cases op <;> rfl

theorem accepts {w : World} (hw : w.Reckons) (op : Operator) (left right : Expr) (line : Nat)
    (a b : Int64) :
    w.Accepts (.binary op left right line) [.number a, .number b] (.core op.core) :=
  ⟨hw op, by simp, by cases op <;> rfl⟩

end World.Reckons

inductive Direct.Reckoned (w : World) (h : Scopes.Handle) (e : Expr) : Prop where
  | exact {v : Int64} (hd : Dispatches w h (.expr e) e.operations w (.ok (.number v)))
    (hv : e.exactValue? = some v.toInt) (hf : ∀ d ∈ e.operations, d.Fits)
  | fault {before after : List Expr} {d : Expr} {cause : RunFault}
    (hd : Dispatches w h (.expr e) (before ++ [d]) w (.error (.run cause (some d))))
    (he : e.operations = before ++ d :: after) (hf : ∀ c ∈ before, c.Fits)
    (ho : d.Offends cause)

namespace Direct

variable {w : World} {h : Scopes.Handle} {op : Operator} {left right : Expr} {line : Nat}
  {a b : Int64}

theorem reckoned_operation (hw : w.Reckons) (ho : op.isArithmetic = true)
    (hl : Dispatches w h (.expr left) left.operations w (.ok (.number a)))
    (hr : Dispatches w h (.expr right) right.operations w (.ok (.number b)))
    (ha : left.exactValue? = some a.toInt) (hb : right.exactValue? = some b.toInt)
    (hf : ∀ d ∈ left.operations ++ right.operations, d.Fits) :
    Reckoned w h (.binary op left right line) := by
  have hc := hw.accepts op left right line a b
  have hargs : Dispatches w h (.items (Expr.binary op left right line).operands)
      (left.operations ++ right.operations) w (.ok [.number a, .number b]) := by
    have hs := Dispatches.cons hl (.cons hr .none)
    rw [List.append_nil] at hs
    exact hs
  have hx : (Expr.binary op left right line).exactValue? = op.onIntegers? a.toInt b.toInt := by
    simp [Expr.exactValue?, ha, hb]
  have fails {cause : RunFault}
      (hk : op.core.act ((Expr.binary op left right line).line?.getD 0) h
        [.number a, .number b] = .error cause)
      (hd : (Expr.binary op left right line).Offends cause) :
      Reckoned w h (.binary op left right line) :=
    .fault (.call trivial hargs (.failed hc hk)) rfl hf hd
  cases hn : op.onIntegers? a.toInt b.toInt with
  | none =>
    obtain ⟨rfl, hz, hk⟩ := CoreWord.act_of_onIntegers_none ho hn
    exact fails (hk _ _) (.divisionByZero ha (hz ▸ hb))
  | some n =>
    have hk := CoreWord.act_of_onIntegers hn ((Expr.binary op left right line).line?.getD 0) h
    by_cases hin : Int64.minValue.toInt ≤ n ∧ n ≤ Int64.maxValue.toInt
    · obtain ⟨v, hv, rfl⟩ := CoreWord.fitted_of_le hin.1 hin.2
      rw [hv] at hk
      refine .exact (.call trivial hargs (.value hc hk)) (hx.trans hn) ?_
      exact List.forall_mem_append.2
        ⟨hf, List.forall_mem_singleton.2 ⟨_, hx.trans hn, hin⟩⟩
    · have hout : n < Int64.minValue.toInt ∨ Int64.maxValue.toInt < n := by omega
      rw [CoreWord.fitted_of_lt hout] at hk
      exact fails hk (.overflow (hx.trans hn) hout)

/-- The operands of an operation are evaluated from left to right up to the first fault. -/
theorem reckoned (hw : w.Reckons) {e : Expr} (he : e.Formula) : Reckoned w h e := by
  induction he with
  | number => exact .exact .number rfl (by simp [Expr.operations])
  | group _ ih =>
    cases ih with
    | exact hd hv hf => exact .exact (.group hd) hv hf
    | fault hd he hf ho => exact .fault (.group hd) he hf ho
  | @binary op left right line ho _ _ ihl ihr =>
    cases ihl with
    | @fault before after d cause hd he hf hx =>
      have hops : (Expr.binary op left right line).operations =
          before ++ d :: (after ++ (right.operations ++ [.binary op left right line])) := by
        simp [Expr.operations, he]
      exact .fault (.argument trivial (.stop hd)) hops hf hx
    | exact hl ha hfl =>
      cases ihr with
      | @fault before after d cause hd he hf hx =>
        have hargs : Dispatches w h (.items [left, right])
            (left.operations ++ (before ++ [d])) w (.error (.run cause (some d))) :=
          .cons hl (.stop hd)
        rw [← List.append_assoc] at hargs
        have hops : (Expr.binary op left right line).operations =
            (left.operations ++ before) ++ d :: (after ++ [.binary op left right line]) := by
          simp [Expr.operations, he]
        exact .fault (.argument trivial hargs) hops (List.forall_mem_append.2 ⟨hfl, hf⟩) hx
      | exact hr hb hfr =>
        exact reckoned_operation hw ho hl hr ha hb (List.forall_mem_append.2 ⟨hfl, hfr⟩)

end Direct

namespace Machine

/-- A formula as the only expression of a program. The session completes just if the value of every
operation fits a word; it has the exact value then and has made one step for each operation. If not,
it fails at the first operation whose value does not fit, after the steps up to it. -/
theorem formula_is_exact_or_fails (e : Expr) (he : e.Formula) (n : Nat)
    (hn : e.operations.length ≤ n) :
    ((∃ v, ((({} : Machine).start [e]).advance n).session = .completed (.number v)) ↔
      ∀ d ∈ e.operations, d.Fits) ∧
    (∀ v, ((({} : Machine).start [e]).advance n).session = .completed (.number v) →
      e.exactValue? = some v.toInt ∧
      ((({} : Machine).start [e]).advance n).steps = e.operations.length) ∧
    ((¬ ∀ d ∈ e.operations, d.Fits) → ∃ before d after cause,
      e.operations = before ++ d :: after ∧ (∀ c ∈ before, c.Fits) ∧ d.Offends cause ∧
      ((({} : Machine).start [e]).advance n).session = .errored (.run cause (some d)) ∧
      ((({} : Machine).start [e]).advance n).steps = before.length + 1) := by
  cases reckoned (w := ({} : Machine).world) (h := Scopes.globals) World.Reckons.core he with
  | exact hd hv hf =>
    obtain ⟨-, -, hs, hk⟩ := observed_of_dispatches (.last hd) hn
    refine ⟨iff_of_true ⟨_, hs⟩ hf, fun u hu => ?_, fun hnf => absurd hf hnf⟩
    cases hs.symm.trans hu
    exact ⟨hv, hk⟩
  | @fault before after d cause hd hops hf ho =>
    have hlen : (before ++ [d]).length ≤ n := by
      rw [hops] at hn
      simp only [List.length_append, List.length_cons, List.length_nil] at hn ⊢
      omega
    obtain ⟨-, -, hs, hk⟩ := observed_of_dispatches (.last hd) hlen
    have hnot : ¬ ∀ d ∈ e.operations, d.Fits :=
      fun hall => ho.not_fits (hall d (by simp [hops]))
    have hfail (v : Int64) :
        ((({} : Machine).start [e]).advance n).session ≠ .completed (.number v) := by
      rw [hs]
      exact fun h => nomatch h
    refine ⟨iff_of_false (fun ⟨v, hv⟩ => hfail v hv) hnot, fun v hv => absurd hv (hfail v),
      fun _ => ⟨before, d, after, cause, hops, hf, ho, hs, ?_⟩⟩
    simpa using hk

/-- The quotient does not fit a word. The division by zero after it is not reached. -/
def overshooting : Expr :=
  .binary .add
    (.group (.binary .divide
      (.binary .subtract (.number (-9223372036854775807) 0) (.number 1 0) 0)
      (.number (-1) 0) 0) 0)
    (.binary .divide (.number 1 1) (.number 0 1) 1) 0

theorem formula_is_exact_or_fails_overshooting :
    overshooting.Formula ∧ overshooting.operations.length ≤ 4 ∧
      (¬ ∀ d ∈ overshooting.operations, d.Fits) ∧
      (∃ before d after cause, overshooting.operations = before ++ d :: after ∧
        (∀ c ∈ before, c.Fits) ∧ d.Offends cause ∧
        ((({} : Machine).start [overshooting]).advance 4).session =
          .errored (.run cause (some d)) ∧
        ((({} : Machine).start [overshooting]).advance 4).steps = before.length + 1) ∧
      ((({} : Machine).start [overshooting]).advance 4).steps = 2 ∧
      ((({} : Machine).start [overshooting]).advance 4).fault?.map Fault.message =
        some "RuntimeError: 'integer overflow'" := by
  have he : overshooting.Formula :=
    .binary rfl (.group (.binary rfl (.binary rfl .number .number) .number))
      (.binary rfl .number .number)
  have hn : overshooting.operations.length ≤ 4 := by decide
  have hnot : ¬ ∀ d ∈ overshooting.operations, d.Fits := by
    intro hall
    obtain ⟨n, hn, -, hmax⟩ := hall
      (.binary .divide (.binary .subtract (.number (-9223372036854775807) 0) (.number 1 0) 0)
        (.number (-1) 0) 0) (by simp [overshooting, Expr.operations])
    cases hn
    exact absurd hmax (by decide)
  exact ⟨he, hn, hnot, (formula_is_exact_or_fails overshooting he 4 hn).2.2 hnot,
    by decide +kernel, by decide +kernel⟩

end Machine

end LogoLang
