import LogoLang.Proofs.Machine.Lifecycle
import Mathlib.Logic.Function.Iterate

/-!
Budgets. A run is a loop that looks at the budget before every step. Main statement: a budget that
is enough changes nothing, and one that is not cuts the session off after the steps it allows, with
the world as these steps have left it.
-/

set_option autoImplicit false

namespace LogoLang.Machine

/-- Runs a machine as long as it waits. If there is a budget and the steps done have used it up,
the session fails there; otherwise a step is made. -/
inductive Runs (budget : Option Nat) : Machine → Machine → Prop where
  | rest {m : Machine} (h : m.isPending = false) : Runs budget m m
  | cut {m : Machine} {b : Nat} (h : m.isPending = true) (hb : budget = some b)
    (hs : b ≤ m.steps) :
    Runs budget m { m with session := .errored (.run .budgetExhausted m.current) }
  | step {m m' : Machine} (h : m.isPending = true) (hb : ∀ b, budget = some b → m.steps < b)
    (hr : Runs budget m.step m') : Runs budget m m'

/-- What a machine can come to. Its world may be changed from outside at any time. -/
inductive Reached : Machine → Prop where
  | fresh (w : World) : Reached { world := w }
  | perform {m : Machine} (op : Operation) (h : Reached m) : Reached (m.perform op)
  | world {m : Machine} (w : World) (h : Reached m) : Reached { m with world := w }

structure EndsAfter (m : Machine) (k : Nat) : Prop where
  waits : ∀ j < k, (step^[j] m).isPending = true
  ends : (step^[k] m).isPending = false

variable {m m' : Machine}

section Loop

theorem runWithin_of_le {b : Nat} (h : m.isPending = true) (hs : b ≤ m.steps) :
    m.runWithin b = { m with session := .errored (.run .budgetExhausted m.current) } := by
  rw [runWithin, Nat.sub_eq_zero_of_le hs, advance, exhaust_of_isPending h]

theorem runWithin_of_lt {b : Nat} (h : m.isPending = true) (hs : m.steps < b) :
    m.runWithin b = m.step.runWithin b := by
  obtain ⟨k, rfl⟩ := Nat.exists_eq_add_of_lt hs
  have hk : m.steps + k + 1 - m.steps = k + 1 := by omega
  have hk' : m.steps + k + 1 - m.step.steps = k := by rw [steps_step h]; omega
  rw [runWithin, runWithin, hk, hk', advance, if_pos h]

theorem runs_runWithin_of_rest {b : Nat} (h : m.isPending = false) :
    Runs (some b) m (m.runWithin b) := by
  have hr : m.runWithin b = m := run_eq_self h 0 (some b)
  rw [hr]
  exact .rest h

theorem runs_runWithin (b : Nat) (m : Machine) : Runs (some b) m (m.runWithin b) := by
  -- Every step takes one off the steps that are left, which are all that the cut depends on.
  induction hn : b - m.steps generalizing m with
  | zero =>
    cases h : m.isPending with
    | true =>
      rw [runWithin_of_le h (by omega)]
      exact .cut h rfl (by omega)
    | false => exact runs_runWithin_of_rest h
  | succ n ih =>
    cases h : m.isPending with
    | true =>
      have hlt : m.steps < b := by omega
      have hrest : b - m.step.steps = n := by rw [steps_step h]; omega
      rw [runWithin_of_lt h hlt]
      exact .step h (fun _ hb => by cases hb; exact hlt) (ih m.step hrest)
    | false => exact runs_runWithin_of_rest h

theorem runs_some_iff {b : Nat} : Runs (some b) m m' ↔ m.runWithin b = m' := by
  constructor
  · intro h
    induction h with
    | rest h => exact run_eq_self h 0 (some b)
    | cut h hb hs =>
      cases hb
      exact runWithin_of_le h hs
    | step h hb _ ih => rw [runWithin_of_lt h (hb b rfl), ih]
  · rintro rfl
    exact runs_runWithin b m

theorem runs_none_iff :
    Runs none m m' ↔ m'.isPending = false ∧ ∃ k, m.advance k = m' := by
  constructor
  · intro h
    induction h with
    | rest h => exact ⟨h, 0, rfl⟩
    | cut h hb hs => cases hb
    | @step m _ h _ _ ih =>
      obtain ⟨hend, k, rfl⟩ := ih
      exact ⟨hend, k + 1, by rw [advance, if_pos h]⟩
  · rintro ⟨hend, k, rfl⟩
    induction k generalizing m with
    | zero => exact .rest hend
    | succ k ih =>
      cases h : m.isPending with
      | true =>
        rw [advance, if_pos h] at hend ⊢
        exact .step h (by simp) (ih hend)
      | false =>
        rw [advance_eq_self _ h]
        exact .rest h

end Loop

theorem iterate_step (k : Nat) (m : Machine) : step^[k] m = m.advance k := by
  induction k with
  | zero => rfl
  | succ k ih => rw [Function.iterate_succ_apply', ih, advance_succ]

namespace EndsAfter

variable {k : Nat}

theorem isPending_advance (h : m.EndsAfter k) {j : Nat} (hj : j < k) :
    (m.advance j).isPending = true := by
  rw [← iterate_step]
  exact h.waits j hj

theorem isPending_end (h : m.EndsAfter k) : (m.advance k).isPending = false := by
  rw [← iterate_step]
  exact h.ends

theorem advance_eq (h : m.EndsAfter k) {n : Nat} (hn : k ≤ n) : m.advance n = m.advance k := by
  obtain ⟨i, rfl⟩ := Nat.exists_eq_add_of_le hn
  rw [advance_add, advance_eq_self i h.isPending_end]

theorem runs_iff (h : m.EndsAfter k) : Runs none m m' ↔ m' = step^[k] m := by
  rw [runs_none_iff, iterate_step]
  constructor
  · rintro ⟨hend, n, rfl⟩
    rcases Nat.lt_or_ge n k with hn | hn
    · cases hend.symm.trans (h.isPending_advance hn)
    · exact h.advance_eq hn
  · rintro rfl
    exact ⟨h.isPending_end, k, rfl⟩

theorem runWithin_eq (h : m.EndsAfter k) {b : Nat} (hb : m.steps + k ≤ b) :
    m.runWithin b = step^[k] m := by
  rw [runWithin, h.advance_eq (by omega), exhaust_eq_self h.isPending_end, iterate_step]

end EndsAfter

theorem exists_endsAfter {n : Nat} (h : (m.advance n).isPending = false) :
    ∃ k ≤ n, m.EndsAfter k := by
  obtain ⟨k, hk, hwait, hend, -⟩ := exists_end h
  simp only [← iterate_step] at hwait hend
  exact ⟨k, hk, hwait, hend⟩

/-- A step that waits is that of the current expression. -/
def Tracks (m : Machine) : Prop := ∀ q, m.session = .pending q → m.current = some q.owner

theorem tracks_stopped (current : Option Expr) (steps : Nat) (x : World × Outcome) :
    (stopped current steps x).Tracks := by
  obtain ⟨w, p | v | f⟩ := x <;> rintro q ⟨⟩
  rfl

theorem Tracks.step (h : m.Tracks) : m.step.Tracks := by
  obtain ⟨w, _ | q | v | f, current, steps⟩ := m
  · exact h
  · exact tracks_stopped _ _ _
  · exact h
  · exact h

theorem Tracks.advance (h : m.Tracks) (n : Nat) : (m.advance n).Tracks := by
  induction n with
  | zero => exact h
  | succ n ih =>
    rw [advance_succ]
    exact ih.step

theorem Tracks.exhaust (h : m.Tracks) : m.exhaust.Tracks := by
  obtain ⟨w, _ | q | v | f, current, steps⟩ := m
  · exact h
  · rintro q ⟨⟩
  · exact h
  · exact h

theorem Reached.tracks (h : Reached m) : m.Tracks := by
  induction h with
  | fresh w => rintro q ⟨⟩
  | @perform m op _ ih =>
    cases op with
    | start p => exact tracks_stopped _ _ _
    | step => exact ih.step
    | run limit budget =>
      cases budget with
      | none => exact ih.advance limit
      | some b => exact (ih.advance _).exhaust
    | reset => rintro q ⟨⟩
  | world w _ ih => exact ih

/-- A session waits, whatever has led to it, and is run within a budget, in which the steps it has
done count. If it ends by as many steps as are left, or by fewer, it comes to just the machine that
it comes to without a budget. Otherwise, and also if it never ends, it makes as many steps as are
left, none if the budget has been used up before; it still waits then, and fails on account of the
expression that waits, with nothing else changed. -/
theorem budget_suffices_or_cuts_off (m : Machine) (h : Reached m) (hp : m.isPending = true)
    (max : Nat) :
    (∀ m', Runs (some max) m m' ↔ m.runWithin max = m') ∧
    (∀ k, m.EndsAfter k → m.steps + k ≤ max →
      m.runWithin max = step^[k] m ∧ ∀ m', Runs none m m' ↔ m' = step^[k] m) ∧
    ((∀ k, m.EndsAfter k → max < m.steps + k) →
      (∀ j ≤ max - m.steps, (step^[j] m).isPending = true) ∧
      (step^[max - m.steps] m).steps = m.steps + (max - m.steps) ∧
      ∃ q, (step^[max - m.steps] m).session = .pending q ∧
        m.runWithin max = { step^[max - m.steps] m with
          session := .errored (.run .budgetExhausted (some q.owner)) }) := by
  refine ⟨fun m' => runs_some_iff, fun k hk hle => ⟨hk.runWithin_eq hle, fun m' =>
    hk.runs_iff⟩, fun hnone => ?_⟩
  have hwaits : (m.advance (max - m.steps)).isPending = true := by
    by_contra hrest
    rw [Bool.not_eq_true] at hrest
    obtain ⟨k, hk, hend⟩ := exists_endsAfter hrest
    have hlt := hnone k hend
    -- There are steps left, since the machine itself waits.
    cases k with
    | zero => cases hp.symm.trans hend.ends
    | succ k => omega
  have hall (j : Nat) (hj : j ≤ max - m.steps) : (m.advance j).isPending = true :=
    isPending_of_le hwaits hj
  obtain ⟨q, hq⟩ := exists_pending hwaits
  have hcurrent := h.tracks.advance (max - m.steps) q hq
  simp only [iterate_step]
  refine ⟨hall, steps_advance fun j hj => hall j (by omega), q, hq, ?_⟩
  rw [runWithin, exhaust_of_isPending hwaits, hcurrent]

def halfway : Machine :=
  performAll {} [.start [.call "print" [.number 1 0] 0, .call "print" [.number 2 1] 1], .step]

theorem budget_suffices_or_cuts_off_halfway :
    Reached halfway ∧ halfway.isPending = true ∧
    halfway.runWithin 2 = step^[1] halfway ∧ Runs none halfway (step^[1] halfway) ∧
    (halfway.runWithin 1).session =
      .errored (.run .budgetExhausted (some (.call "print" [.number 2 1] 1))) ∧
    (halfway.runWithin 1).world.output = "1\n" := by
  have hreached : Reached halfway := .perform .step (.perform (.start _) (.fresh {}))
  have hp : halfway.isPending = true := by decide +kernel
  have hend : halfway.EndsAfter 1 := by
    refine ⟨fun j hj => ?_, by decide +kernel⟩
    obtain rfl : j = 0 := by omega
    exact hp
  have hcurrent : halfway.current = some (.call "print" [.number 2 1] 1) := by decide +kernel
  have hsteps : halfway.steps = 1 := by decide +kernel
  obtain ⟨-, henough, -⟩ := budget_suffices_or_cuts_off halfway hreached hp 2
  obtain ⟨heq, hruns⟩ := henough 1 hend (by rw [hsteps])
  obtain ⟨-, -, hshort⟩ := budget_suffices_or_cuts_off halfway hreached hp 1
  obtain ⟨-, -, q, hq, hcut⟩ := hshort (fun k hk => by
    cases k with
    | zero => cases hp.symm.trans hk.ends
    | succ k => omega)
  rw [hsteps] at hq hcut
  have howner := (hreached.tracks q hq).symm.trans hcurrent
  refine ⟨hreached, hp, heq, (hruns _).mpr rfl, ?_, ?_⟩
  · rw [hcut, howner]
  · rw [hcut]
    show halfway.world.output = "1\n"
    decide +kernel

end LogoLang.Machine
