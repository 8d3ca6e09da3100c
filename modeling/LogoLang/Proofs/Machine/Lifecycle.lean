import LogoLang.Proofs.Machine.Provenance
import Mathlib.Data.Nat.Find

/-!
The life of a session. A machine can be asked to start a program, to step, to run and to forget, in
any order. Main statements: a session that ends does so after a first number of steps, which are
counted; and after any operations the session, the current expression and the count of steps fit
together, in particular the current expression is the owner of the step that waits, or that failed.
-/

set_option autoImplicit false

namespace LogoLang

theorem World.all_true (w : World) : w.All fun _ => True := by
  refine ⟨fun _ _ _ _ _ _ _ _ => trivial, fun h name v _ => ?_⟩
  cases v with
  | list items line => exact fun _ _ _ _ => trivial
  | _ => trivial

namespace Machine

variable {m : Machine} {current : Option Expr} {steps : Nat} {x : World × Outcome} {f : Fault}
  {q : Pending}

theorem steps_stopped (current : Option Expr) (steps : Nat) (x : World × Outcome) :
    (stopped current steps x).steps = steps := by
  obtain ⟨w, p | v | f⟩ := x <;> rfl

theorem current_stopped (h : (stopped current steps x).session = .errored f) :
    (stopped current steps x).current = current := by
  obtain ⟨w, p | v | g⟩ := x
  · cases h
  · cases h
  · rfl

theorem exists_pending (h : m.isPending = true) : ∃ q, m.session = .pending q := by
  obtain ⟨w, _ | q | v | f, current, steps⟩ := m
  · cases h
  · exact ⟨q, rfl⟩
  · cases h
  · cases h

theorem step_of_pending (h : m.session = .pending q) :
    m.step = stopped m.current (m.steps + 1) (q.proceed m.world) := by
  obtain ⟨w, s, current, steps⟩ := m
  cases h
  rfl

theorem steps_step (h : m.isPending = true) : m.step.steps = m.steps + 1 := by
  obtain ⟨q, hq⟩ := exists_pending h
  rw [step_of_pending hq, steps_stopped]

theorem current_step (hm : m.isPending = true) (hf : m.step.session = .errored f) :
    m.step.current = m.current := by
  obtain ⟨q, hq⟩ := exists_pending hm
  rw [step_of_pending hq] at hf ⊢
  exact current_stopped hf

section Runs

theorem advance_succ (n : Nat) (m : Machine) : m.advance (n + 1) = (m.advance n).step := by
  rw [advance_add]
  cases h : (m.advance n).isPending with
  | true => simp [advance, h]
  | false => rw [advance_eq_self 1 h, step_eq_self h]

theorem steps_advance {k : Nat} (h : ∀ j < k, (m.advance j).isPending = true) :
    (m.advance k).steps = m.steps + k := by
  induction k with
  | zero => rfl
  | succ k ih =>
    rw [advance_succ, steps_step (h k (by omega)), ih fun j hj => h j (by omega)]
    omega

/-- A session that has ended waited up to some number of steps, and has been at rest since. -/
theorem exists_end {n : Nat} (h : (m.advance n).isPending = false) :
    ∃ k ≤ n, (∀ j < k, (m.advance j).isPending = true) ∧
      (m.advance k).isPending = false ∧ ∀ j, k ≤ j → m.advance j = m.advance k := by
  have hex : ∃ k, (m.advance k).isPending = false := ⟨n, h⟩
  refine ⟨Nat.find hex, Nat.find_le h, fun j hj => ?_, Nat.find_spec hex, fun j hj => ?_⟩
  · simpa using Nat.find_min hex hj
  · obtain ⟨i, rfl⟩ := Nat.exists_eq_add_of_le hj
    rw [advance_add, advance_eq_self i (Nat.find_spec hex)]

theorem isPending_of_le {j n : Nat} (hn : (m.advance n).isPending = true) (hj : j ≤ n) :
    (m.advance j).isPending = true := by
  by_contra h
  obtain ⟨i, rfl⟩ := Nat.exists_eq_add_of_le hj
  rw [Bool.not_eq_true] at h
  rw [advance_add, advance_eq_self i h, h] at hn
  cases hn

theorem exists_failing_step {n : Nat} (hm : m.isPending = true)
    (hf : (m.advance n).session = .errored f) :
    ∃ k, (m.advance k).isPending = true ∧ m.advance n = (m.advance k).step := by
  obtain ⟨k, hk, hwait, hend, hrest⟩ := exists_end (m := m) (n := n) (by rw [isPending, hf])
  cases k with
  | zero => cases hm.symm.trans hend
  | succ k => exact ⟨k, hwait k (by omega), by rw [hrest n hk, advance_succ]⟩

theorem exhaust_eq_self (h : m.isPending = false) : m.exhaust = m := by
  obtain ⟨w, s, current, steps⟩ := m
  cases s <;> first | rfl | cases h

theorem exhaust_of_isPending (h : m.isPending = true) :
    m.exhaust = { m with session := .errored (.run .budgetExhausted m.current) } := by
  obtain ⟨q, hq⟩ := exists_pending h
  simp [exhaust, hq]

theorem current_exhaust (m : Machine) : m.exhaust.current = m.current := by
  unfold exhaust
  split <;> rfl

theorem session_exhaust (h : m.isPending = true) :
    m.exhaust.session = .errored (.run .budgetExhausted m.current) := by
  rw [exhaust_of_isPending h]

theorem exists_failing_run {limit : Nat} {budget : Option Nat} (hm : m.isPending = true)
    (hf : (m.run limit budget).session = .errored f) :
    ∃ k, (m.advance k).isPending = true ∧ (m.run limit budget = (m.advance k).step ∨
      m.run limit budget = (m.advance k).exhaust ∧
        ∃ b, budget = some b ∧ b ≤ (m.advance k).steps) := by
  cases budget with
  | none =>
    obtain ⟨k, hk, hs⟩ := exists_failing_step hm hf
    exact ⟨k, hk, .inl hs⟩
  | some b =>
    have hr : m.run limit (some b) = (m.advance (b - m.steps)).exhaust := rfl
    cases hp : (m.advance (b - m.steps)).isPending with
    | true =>
      -- A session that still waits has made all the steps that were left to it.
      have hs := steps_advance fun j hj => isPending_of_le hp (Nat.le_of_lt hj)
      exact ⟨_, hp, .inr ⟨hr, b, rfl, by omega⟩⟩
    | false =>
      rw [exhaust_eq_self hp] at hr
      rw [hr] at hf ⊢
      obtain ⟨k, hk, hs⟩ := exists_failing_step hm hf
      exact ⟨k, hk, .inl hs⟩

theorem run_eq_self (h : m.isPending = false) (limit : Nat) (budget : Option Nat) :
    m.run limit budget = m := by
  cases budget with
  | none => exact advance_eq_self limit h
  | some b => rw [run, runWithin, advance_eq_self _ h, exhaust_eq_self h]

end Runs

/-- What can be asked of a machine. A run without a budget has a limit to its steps. -/
inductive Operation where
  | start (p : Program)
  | step
  | run (limit : Nat) (budget : Option Nat)
  | reset

def perform (m : Machine) : Operation → Machine
  | .start p => m.start p
  | .step => m.step
  | .run limit budget => m.run limit budget
  | .reset => m.reset

def performAll (m : Machine) (ops : List Operation) : Machine := ops.foldl perform m

/-- The session, the current expression and the count of steps fit together. -/
def Coherent (m : Machine) : Prop :=
  match m.session with
  | .idle => m.current = none ∧ m.steps = 0
  | .pending q => m.current = some q.owner ∧ q.owner.Applies
  | .completed _ => m.current = none
  | .errored _ => ∀ c, m.current = some c → c.Applies

/-- What the next operation does to the current expression and the count of steps. -/
structure Lawful (m : Machine) : Prop where
  start : ∀ p, (m.start p).steps = 0 ∧
    ∀ f, (m.start p).session = .errored f → (m.start p).current = none
  step : ∀ q, m.session = .pending q → m.step.steps = m.steps + 1 ∧
    ∀ f, m.step.session = .errored f → m.step.current = some q.owner
  rest : m.isPending = false → m.step = m ∧ ∀ limit budget, m.run limit budget = m
  /-- A run fails by one of its steps, or where it has used up its budget. -/
  run : ∀ limit budget f, m.isPending = true → (m.run limit budget).session = .errored f →
    ∃ k q, (m.advance k).session = .pending q ∧
      (m.run limit budget).current = some q.owner ∧
      (m.run limit budget = (m.advance k).step ∨
        m.run limit budget = (m.advance k).exhaust ∧
          f = .run .budgetExhausted (some q.owner) ∧
          ∃ b, budget = some b ∧ b ≤ (m.advance k).steps)

/-- The machine has just been made or reset, or is at a stop. -/
def Orderly (m : Machine) : Prop :=
  m.world.Plain ∧ (m = { world := m.world } ∨ m.All fun _ => True)

section Operations

theorem Orderly.start (h : m.Orderly) (p : Program) : (m.start p).Orderly :=
  ⟨plain_start h.1 p, .inr <| all_advance_start (fun _ _ => trivial) h.1 (World.all_true _)
    (fun _ _ _ _ => trivial) 0⟩

theorem Orderly.advance (h : m.Orderly) (n : Nat) : (m.advance n).Orderly := by
  refine ⟨plain_advance h.1 n, ?_⟩
  rcases h.2 with hi | ha
  · refine .inl ?_
    rw [advance_eq_self n (by rw [hi]; rfl)]
    exact hi
  · exact .inr (ha.advance (fun _ _ => trivial) n)

theorem Orderly.exhaust (h : m.Orderly) : m.exhaust.Orderly := by
  cases hp : m.isPending with
  | false => rwa [exhaust_eq_self hp]
  | true =>
    rcases h.2 with hi | ⟨current, steps, w, o, hw, hall, ho, hc, rfl⟩
    · rw [hi] at hp
      cases hp
    · cases ho with
      | waiting hcall hs =>
        refine ⟨hw, .inr ⟨_, steps, w, .failed _, hw, hall, .failed _, ?_, rfl⟩⟩
        rintro c ⟨⟩
        exact ⟨hcall.applies, hcall.all⟩
      | done hv => cases hp
      | failed x => cases hp

theorem Orderly.perform (h : m.Orderly) (op : Operation) : (m.perform op).Orderly := by
  cases op with
  | start p => exact h.start p
  | step =>
    have hs : m.perform .step = m.advance 1 := (advance_succ 0 m).symm
    rw [hs]
    exact h.advance 1
  | run limit budget =>
    cases budget with
    | none => exact h.advance limit
    | some b => exact (h.advance (b - m.steps)).exhaust
  | reset => exact ⟨World.Plain.core, .inl rfl⟩

theorem Orderly.performAll (h : m.Orderly) (ops : List Operation) : (m.performAll ops).Orderly := by
  induction ops generalizing m with
  | nil => exact h
  | cons op ops ih => exact ih (h.perform op)

theorem Orderly.coherent (h : m.Orderly) : m.Coherent := by
  rcases h.2 with hi | ⟨current, steps, w, o, -, -, ho, hc, rfl⟩
  · rw [hi]
    exact ⟨rfl, rfl⟩
  · cases ho with
    | waiting hcall hs => exact ⟨rfl, hcall.applies⟩
    | done hv => exact rfl
    | failed x => exact fun c hcurrent => (hc c hcurrent).1

theorem Coherent.owner (h : m.Coherent) (hq : m.session = .pending q) :
    m.current = some q.owner ∧ q.owner.Applies := by
  rwa [Coherent, hq] at h

theorem Orderly.lawful (h : m.Orderly) : m.Lawful where
  start p := ⟨steps_stopped .., fun f hf => current_stopped hf⟩
  step q hq := by
    have hp : m.isPending = true := by rw [isPending, hq]
    refine ⟨steps_step hp, fun f hf => ?_⟩
    rw [current_step hp hf, (h.coherent.owner hq).1]
  rest hp := ⟨step_eq_self hp, run_eq_self hp⟩
  run limit budget f hp hf := by
    obtain ⟨k, hk, hend⟩ := exists_failing_run hp hf
    obtain ⟨q, hq⟩ := exists_pending hk
    have hc : (m.advance k).current = some q.owner := ((h.advance k).coherent.owner hq).1
    rcases hend with hs | ⟨he, hb⟩
    · refine ⟨k, q, hq, ?_, .inl hs⟩
      rw [hs] at hf ⊢
      rw [current_step hk hf, hc]
    · refine ⟨k, q, hq, ?_, .inr ⟨he, ?_, hb⟩⟩
      · rw [he, current_exhaust, hc]
      · rw [he, session_exhaust hk, hc] at hf
        cases hf
        rfl

end Operations

/-- A machine without host words is asked for any operations, in any order. Then its session, its
current expression and its steps fit together, and every further operation keeps to the laws: a
failure concerns the expression that waited before, and a machine at rest does not step. -/
theorem sessions_are_coherent (w : World) (hw : w.Plain) (ops : List Operation) :
    (performAll { world := w } ops).Coherent ∧ (performAll { world := w } ops).Lawful := by
  have h : (performAll { world := w } ops).Orderly := Orderly.performAll ⟨hw, .inl rfl⟩ ops
  exact ⟨h.coherent, h.lawful⟩

def restless : List Operation :=
  [.start [.call "print" [.binary .divide (.number 1 0) (.number 0 0) 0] 0], .step, .step, .reset,
    .start [.define "spin" [] [.call "spin" [] 0] 0, .call "spin" [] 1], .step]

theorem sessions_are_coherent_restless :
    ({} : World).Plain ∧ (performAll {} restless).Coherent ∧
    (performAll {} restless).isPending = true ∧
    ∃ k q, ((performAll {} restless).advance k).session = .pending q ∧
      ((performAll {} restless).run 0 (some 3)).current = some q.owner ∧
      ((performAll {} restless).run 0 (some 3)).current = some (.call "spin" [] 0) ∧
      ((performAll {} restless).run 0 (some 3)).steps = 3 := by
  obtain ⟨hc, hl⟩ := sessions_are_coherent {} World.Plain.core restless
  have hp : (performAll {} restless).isPending = true := by decide +kernel
  have hf : ((performAll {} restless).run 0 (some 3)).session =
      .errored (.run .budgetExhausted (some (.call "spin" [] 0))) := by
    decide +kernel
  obtain ⟨k, q, hq, ho, -⟩ := hl.run 0 (some 3) _ hp hf
  exact ⟨World.Plain.core, hc, hp, k, q, hq, ho, by decide +kernel, by decide +kernel⟩

end Machine

end LogoLang
