import LogoLang.Proofs.Machine.Dispatch
import LogoLang.Proofs.Machine.Lifecycle
import LogoLang.Workspace
import Mathlib.Logic.Function.Iterate

/-!
Sessions of a workspace, run at once or step by step. Both ways log a fault where the session comes
to it, so that a workspace depends on its machine alone. Main statement: the two ways come to the
same workspace, whose log has the report of the fault once, if there is one.
-/

set_option autoImplicit false

namespace LogoLang.Workspace

/-- The workspace when its machine has come to `m`. A fault is logged. -/
def arrived (ws : Workspace) (m : Machine) : Workspace := logSession { ws with machine := m }

variable {ws : Workspace} {m : Machine}

theorem arrived_of_pending (h : m.isPending = true) : ws.arrived m = { ws with machine := m } := by
  obtain ⟨q, hq⟩ := Machine.exists_pending h
  simp [arrived, logSession, Machine.fault?, hq]

@[simp] theorem machine_arrived (ws : Workspace) (m : Machine) : (ws.arrived m).machine = m := by
  simp only [arrived, logSession, logFault]
  split <;> rfl

@[simp] theorem log_arrived (ws : Workspace) (m : Machine) :
    (ws.arrived m).log = ws.log ++ ((m.fault?.map (Fault.report ws.source)).getD []) := by
  simp only [arrived, logSession, logFault]
  split <;> simp_all

theorem start_eq (ws : Workspace) (p : Program) :
    ws.start p = ws.arrived (ws.machine.start p) := rfl

theorem runProgram_eq (limit : Nat) (ws : Workspace) (p : Program) :
    ws.runProgram limit p =
      (ws.arrived ((ws.machine.start p).run limit ws.options.maxSteps),
        ((ws.machine.start p).run limit ws.options.maxSteps).value?) := by
  simp only [runProgram, arrived]
  generalize (ws.machine.start p).run limit ws.options.maxSteps = m
  obtain ⟨w, _ | q | v | f, current, steps⟩ := m <;> rfl

theorem step_arrived (ws : Workspace) (m : Machine) : (ws.arrived m).step = ws.arrived m.step := by
  cases h : m.isPending with
  | true =>
    rw [arrived_of_pending h, step, if_pos h]
    rfl
  | false => simp [step, h, Machine.step_eq_self h]

theorem iterate_step_arrived (ws : Workspace) (m : Machine) (n : Nat) :
    step^[n] (ws.arrived m) = ws.arrived (m.advance n) := by
  induction n with
  | zero => rfl
  | succ n ih => rw [Function.iterate_succ_apply', ih, step_arrived, Machine.advance_succ]

def endLines (source : String) : Except Fault Value → List String
  | .ok _ => []
  | .error f => f.report source

/-- A workspace without a budget runs a program to an end. Stepping through the same program takes
some number of steps, of which each but the last leaves the session waiting and nothing logged. Then
it has come to the workspace, the log included, that the run comes to, has logged the report of the
fault once or nothing, and does not change any more. -/
theorem stepping_ends_as_running (ws : Workspace) (hb : ws.options.maxSteps = none) (p : Program)
    (n : Nat) (hend : (ws.runProgram n p).1.machine.isPending = false) :
    ∃ k r, k ≤ n ∧
      (∀ j < k, (step^[j] (ws.start p)).machine.isPending = true ∧
        (step^[j] (ws.start p)).log = ws.log) ∧
      (step^[k] (ws.start p)).machine.session = Machine.ended r ∧
      (step^[k] (ws.start p)).machine.steps = k ∧
      (step^[k] (ws.start p)).log = ws.log ++ endLines ws.source r ∧
      (∀ limit, k ≤ limit → ws.runProgram limit p = (step^[k] (ws.start p), r.toOption)) ∧
      ∀ j, k ≤ j → step^[j] (ws.start p) = step^[k] (ws.start p) := by
  have hrun (limit : Nat) : ws.runProgram limit p =
      (ws.arrived ((ws.machine.start p).advance limit),
        ((ws.machine.start p).advance limit).value?) := by
    rw [runProgram_eq, hb, Machine.run]
  simp only [hrun, start_eq, iterate_step_arrived, machine_arrived, log_arrived] at hend ⊢
  obtain ⟨k, hk, hwait, hstop, hrest⟩ := Machine.exists_end hend
  obtain ⟨r, hr⟩ : ∃ r, ((ws.machine.start p).advance k).session = Machine.ended r :=
    Machine.ended_of_not_isPending none 0 _ k hstop
  refine ⟨k, r, hk, fun j hj => ⟨hwait j hj, ?_⟩, hr, ?_, ?_, fun limit hl => ?_, fun j hj => ?_⟩
  · obtain ⟨q, hq⟩ := Machine.exists_pending (hwait j hj)
    simp [Machine.fault?, hq]
  · rw [Machine.steps_advance hwait, Machine.start, Machine.steps_stopped, Nat.zero_add]
  · cases r <;> simp [Machine.fault?, hr, Machine.ended, endLines]
  · rw [hrest limit hl]
    cases r <;> simp [Machine.value?, hr, Machine.ended, Except.toOption]
  · rw [hrest j hj]

def crossed : Workspace := { source := "print 7\nprint 1 / 0", log := #["earlier"] }

def crossedProgram : Program :=
  [.call "print" [.number 7 0] 0,
   .call "print" [.binary .divide (.number 1 1) (.number 0 1) 1] 1]

theorem stepping_ends_as_running_crossed :
    crossed.options.maxSteps = none ∧
    (crossed.runProgram 9 crossedProgram).1.machine.isPending = false ∧
    crossed.runProgram 9 crossedProgram = (step^[2] (crossed.start crossedProgram), none) ∧
    (step^[1] (crossed.start crossedProgram)).log = #["earlier"] ∧
    (step^[2] (crossed.start crossedProgram)).log =
      #["earlier", "RuntimeError: 'division by zero'", "  Line 2: print 1 / 0"] ∧
    step^[7] (crossed.start crossedProgram) = step^[2] (crossed.start crossedProgram) := by
  have hend : (crossed.runProgram 9 crossedProgram).1.machine.isPending = false := by decide +kernel
  obtain ⟨k, r, hk, hwait, -, hsteps, -, hrun, hrest⟩ :=
    stepping_ends_as_running crossed rfl crossedProgram 9 hend
  obtain ⟨hws : _ = step^[k] _, -⟩ := Prod.ext_iff.1 (hrun 9 hk)
  obtain rfl : k = 2 := by
    rw [← hsteps, ← hws]
    decide +kernel
  refine ⟨rfl, hend, Prod.ext hws (by decide +kernel), (hwait 1 (by decide)).2, ?_,
    hrest 7 (by decide)⟩
  rw [← hws]
  decide +kernel

end LogoLang.Workspace
