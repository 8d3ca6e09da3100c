import LogoLang.Command
import LogoLang.Proofs.Workspace.Stepping
import Mathlib.Data.List.ReduceOption

/-!
The commands that run a file. One runs the program within its budget, the other steps through it and
watches the budget itself. Main statement: they print the same and end with the same code, and where
a text is no program, or a program fails by itself, they report the same.
-/

set_option autoImplicit false

namespace LogoLang

theorem Machine.run_eq_exhaust {m : Machine} (hm : m.steps = 0) (limit : Nat) (budget : Option Nat)
    (h : budget = none → (m.advance limit).isPending = false) :
    m.run limit budget = (m.advance (budget.getD limit)).exhaust := by
  cases budget with
  | none => exact (exhaust_eq_self (h rfl)).symm
  | some b => rw [run, runWithin, hm, Nat.sub_zero, Option.getD_some]

theorem Machine.isPending_of_fault? {m : Machine} {f : Fault} (h : m.fault? = some f) :
    m.isPending = false := by
  obtain ⟨w, _ | q | v | g, current, steps⟩ := m
  · rfl
  · cases h
  · rfl
  · rfl

theorem Workspace.trace_arrived (ws : Workspace) (m : Machine) (seen : Array Expr) (n : Nat) :
    (ws.arrived m).trace seen n =
      (seen ++ (m.observed n).reduceOption, ws.arrived (m.advance n)) := by
  induction n generalizing seen m with
  | zero => simp [trace, Machine.observed, Machine.advance]
  | succ n ih =>
    cases h : m.isPending with
    | false => simp [trace, Machine.observed, Machine.advance, h]
    | true =>
      cases hc : m.current <;>
        simp [trace, Machine.observed, Machine.advance, h, hc, step_arrived, ih]

namespace Command

def shownLines (options : Options) (m : Machine) (n : Nat) : List String :=
  if options.trace then traceLines options.keywords (m.observed n).reduceOption.toArray else []

section Answers

variable (limit : Nat) (ws : Workspace)

def afterRun : Machine := (ws.machine.start ws.program).run limit ws.options.maxSteps

def afterSteps : Machine :=
  (ws.machine.start ws.program).advance (ws.options.maxSteps.getD limit)

theorem answerRun_eq :
    answerRun limit ws =
      { out := (afterRun limit ws).world.output
        err := Response.ofLines (ws.arrived (afterRun limit ws)).log.toList
        code := if (afterRun limit ws).value?.isSome then 0 else 1 } := by
  simp only [answerRun, Workspace.runLoaded, Workspace.runProgram_eq, Workspace.machine_arrived]
  rfl

theorem traced_eq :
    ws.startLoaded.trace #[] (ws.options.maxSteps.getD limit) =
      (((ws.machine.start ws.program).observed
          (ws.options.maxSteps.getD limit)).reduceOption.toArray,
        ws.arrived (afterSteps limit ws)) := by
  rw [Workspace.startLoaded, Workspace.start_eq, Workspace.trace_arrived]
  simp [afterSteps]

theorem out_answerStep : (answerStep limit ws).out = (afterSteps limit ws).world.output := by
  simp only [answerStep, traced_eq, Workspace.machine_arrived]

theorem code_answerStep :
    (answerStep limit ws).code =
      if (afterSteps limit ws).isPending && ws.options.maxSteps.isSome ||
        (afterSteps limit ws).fault?.isSome then 1 else 0 := by
  simp only [answerStep, traced_eq, Workspace.machine_arrived]
  split
  · rename_i h
    simp [h]
  · split <;> simp_all

theorem err_answerStep {f : Fault} (h : (afterSteps limit ws).fault? = some f) :
    (answerStep limit ws).err =
      Response.ofLines (shownLines ws.options (ws.machine.start ws.program)
        (ws.options.maxSteps.getD limit) ++ (ws.arrived (afterSteps limit ws)).log.toList) := by
  simp only [answerStep, traced_eq, Workspace.machine_arrived]
  simp [Machine.isPending_of_fault? h, h, shownLines]

def EndsWithin : Prop :=
  ws.options.maxSteps = none →
    ((ws.machine.start ws.program).advance limit).isPending = false

variable {limit ws}

/-- Both machines stop at the same place. If the session still waits there, its budget is used up,
which only the `run` command takes for a fault. -/
theorem afterRun_eq (h : EndsWithin limit ws) :
    afterRun limit ws = (afterSteps limit ws).exhaust :=
  Machine.run_eq_exhaust (Machine.steps_stopped ..) limit _ h

theorem isSome_maxSteps (h : EndsWithin limit ws)
    (hp : (afterSteps limit ws).isPending = true) : ws.options.maxSteps.isSome = true := by
  cases hb : ws.options.maxSteps with
  | some b => rfl
  | none =>
    rw [afterSteps, hb, Option.getD_none, h hb] at hp
    cases hp

theorem out_and_code_agree (h : EndsWithin limit ws) :
    (answerRun limit ws).out = (answerStep limit ws).out ∧
      (answerRun limit ws).code = (answerStep limit ws).code := by
  rw [answerRun_eq, out_answerStep, code_answerStep, afterRun_eq h]
  cases hp : (afterSteps limit ws).isPending with
  | true =>
    obtain ⟨q, hq⟩ := Machine.exists_pending hp
    simp [Machine.exhaust, hq, Machine.value?, isSome_maxSteps h hp]
  | false =>
    rw [Machine.exhaust_eq_self hp]
    obtain ⟨r, hr⟩ : ∃ r, (afterSteps limit ws).session = Machine.ended r :=
      Machine.ended_of_not_isPending none 0 _ _ hp
    cases r <;> simp [Machine.value?, Machine.fault?, hr, Machine.ended]

theorem reports_agree (h : EndsWithin limit ws) {f : Fault}
    (hf : (afterRun limit ws).fault? = some f) (hne : ∀ site, f ≠ .run .budgetExhausted site) :
    (answerRun limit ws).err = Response.ofLines (ws.log.toList ++ f.report ws.source) ∧
      (answerStep limit ws).err = Response.ofLines (shownLines ws.options
        (ws.machine.start ws.program) (ws.options.maxSteps.getD limit) ++
          (ws.log.toList ++ f.report ws.source)) := by
  have hp : (afterSteps limit ws).isPending = false := by
    by_contra hp
    rw [Bool.not_eq_false] at hp
    rw [afterRun_eq h, Machine.fault?, Machine.session_exhaust hp] at hf
    cases hf
    exact hne _ rfl
  have hsame : afterRun limit ws = afterSteps limit ws := by
    rw [afterRun_eq h, Machine.exhaust_eq_self hp]
  rw [answerRun_eq, err_answerStep limit ws (hsame ▸ hf), ← hsame]
  simp [Workspace.log_arrived, hf]

theorem endsWithin_of_le {n : Nat} (h : EndsWithin n ws) (hn : n ≤ limit) :
    EndsWithin limit ws := by
  intro hb
  by_contra hp
  rw [Bool.not_eq_false] at hp
  cases (Machine.isPending_of_le hp hn).symm.trans (h hb)

end Answers

end Command

def Response.ofArgs (limit : Nat) (contents : String → Except ReadFault String)
    (args : List String) : Response :=
  (Request.ofArgs args).answer limit contents

section Files

variable {contents : String → Except ReadFault String} {args : List String}
  {path source : String} {options : Options}

theorem Response.ofArgs_file (limit : Nat) (name : String) {c : Command}
    (hname : Command.ofName? name = some c)
    (hpath : args.find? (fun arg => !Options.isFlag arg) = some path)
    (hoptions : Options.ofArgs args = .ok options) (hcontents : contents path = .ok source) :
    Response.ofArgs limit contents (name :: args) = c.answer limit path options source := by
  simp [ofArgs, Request.ofArgs, hname, hpath, hoptions, Request.answer, hcontents]

theorem Workspace.reload_fields {ws : Workspace} {fault : Option Fault}
    (h : Workspace.reload { options := options } source = (ws, fault)) :
    ws.options = options ∧ ws.source = source ∧ ws.log = #[] := by
  simp only [reload, load] at h
  split at h <;> cases h <;> exact ⟨rfl, rfl, rfl⟩

end Files

namespace Command

/-- A file is run, and stepped through, with the same options, and its program comes to an end or
has a budget. Then, unless runs are cut off too soon, the two commands print the same and exit with
the same code. They report the same if the text is no program. They also do if the program fails
with a fault other than the lack of budget, but the `step` command shows its steps before, if it is
asked to. -/
theorem run_agrees_with_step (args : List String) (path : String) (options : Options)
    (contents : String → Except ReadFault String) (source : String)
    (hpath : args.find? (fun arg => !Options.isFlag arg) = some path)
    (hoptions : Options.ofArgs args = .ok options) (hcontents : contents path = .ok source)
    (ws : Workspace) (fault : Option Fault)
    (hload : Workspace.reload { options := options } source = (ws, fault))
    (hend : fault = none → options.maxSteps = none →
      ∃ n, (ws.runLoaded n).1.machine.isPending = false) :
    ∃ n, ∀ limit, n ≤ limit →
      (Response.ofArgs limit contents ("run" :: args)).out =
        (Response.ofArgs limit contents ("step" :: args)).out ∧
      (Response.ofArgs limit contents ("run" :: args)).code =
        (Response.ofArgs limit contents ("step" :: args)).code ∧
      (∀ f, fault = some f →
        (Response.ofArgs limit contents ("run" :: args)).err = Response.ofLines (f.report source) ∧
        (Response.ofArgs limit contents ("step" :: args)).err =
          Response.ofLines (f.report source)) ∧
      ∀ f, fault = none → (ws.runLoaded limit).1.machine.fault? = some f →
        (∀ site, f ≠ .run .budgetExhausted site) →
        (Response.ofArgs limit contents ("run" :: args)).err = Response.ofLines (f.report source) ∧
        (Response.ofArgs limit contents ("step" :: args)).err = Response.ofLines
          (shownLines options (ws.machine.start ws.program) (options.maxSteps.getD limit) ++
            f.report source) := by
  have hrun (limit : Nat) := Response.ofArgs_file limit "run" rfl hpath hoptions hcontents
  have hstep (limit : Nat) := Response.ofArgs_file limit "step" rfl hpath hoptions hcontents
  simp only [hrun, hstep, answer, hload]
  cases fault with
  | some f =>
    refine ⟨0, fun limit _ => ⟨rfl, rfl, ?_, by simp⟩⟩
    rintro f ⟨⟩
    exact ⟨rfl, rfl⟩
  | none =>
    obtain ⟨rfl, rfl, hlog⟩ := Workspace.reload_fields hload
    have hloaded (n : Nat) : (ws.runLoaded n).1.machine = afterRun n ws := by
      rw [Workspace.runLoaded, Workspace.runProgram_eq, Workspace.machine_arrived, afterRun]
    obtain ⟨n, hn⟩ : ∃ n, EndsWithin n ws := by
      cases hb : ws.options.maxSteps with
      | some b => exact ⟨0, fun h => by cases hb.symm.trans h⟩
      | none =>
        obtain ⟨n, hn⟩ := hend rfl hb
        rw [hloaded, afterRun, hb] at hn
        exact ⟨n, fun _ => hn⟩
    refine ⟨n, fun limit hl => ?_⟩
    have he := endsWithin_of_le hn hl
    obtain ⟨hout, hcode⟩ := out_and_code_agree he
    refine ⟨hout, hcode, by simp, fun f _ hf hne => ?_⟩
    rw [hloaded] at hf
    simpa [hlog] using reports_agree he hf hne

def walkText : String := "print 7\nprint 1 / 0"

def walkArgs : List String := ["--trace", "walk.logo", "--max-steps=9"]

def walkOptions : Options := { maxSteps := some 9, trace := true }

def walked : Workspace := (Workspace.reload { options := walkOptions } walkText).1

theorem run_agrees_with_step_walk :
    walkArgs.find? (fun arg => !Options.isFlag arg) = some "walk.logo" ∧
    Options.ofArgs walkArgs = .ok walkOptions ∧
    Workspace.reload { options := walkOptions } walkText = (walked, none) ∧
    ∃ n, (Response.ofArgs n (fun _ => .ok walkText) ("run" :: walkArgs)).out =
        (Response.ofArgs n (fun _ => .ok walkText) ("step" :: walkArgs)).out ∧
      (Response.ofArgs n (fun _ => .ok walkText) ("run" :: walkArgs)).code =
        (Response.ofArgs n (fun _ => .ok walkText) ("step" :: walkArgs)).code ∧
      (Response.ofArgs n (fun _ => .ok walkText) ("run" :: walkArgs)).err = Response.ofLines
        ["RuntimeError: 'division by zero'", "  Line 2: print 1 / 0"] ∧
      (Response.ofArgs n (fun _ => .ok walkText) ("step" :: walkArgs)).err = Response.ofLines
        ["[1] line 1: print 7", "[2] line 2: 1 / 0", "RuntimeError: 'division by zero'",
          "  Line 2: print 1 / 0"] := by
  have hpath : walkArgs.find? (fun arg => !Options.isFlag arg) = some "walk.logo" := by
    decide +kernel
  have hoptions : Options.ofArgs walkArgs = .ok walkOptions := by decide +kernel
  have hload : Workspace.reload { options := walkOptions } walkText = (walked, none) :=
    Prod.ext rfl (by decide +kernel)
  obtain ⟨n, hn⟩ := run_agrees_with_step walkArgs "walk.logo" walkOptions
    (fun _ => .ok walkText) walkText hpath hoptions rfl walked none hload
    fun _ hb => by cases hb
  obtain ⟨hout, hcode, -, herr⟩ := hn n (Nat.le_refl n)
  have hbudget : walked.options.maxSteps = some 9 := by decide +kernel
  have hf : (walked.runLoaded n).1.machine.fault? = some (.run .divisionByZero
      (some (.binary .divide (.number 1 1) (.number 0 1) 1))) := by
    rw [Workspace.runLoaded, Workspace.runProgram_eq, Workspace.machine_arrived, hbudget,
      Machine.run]
    decide +kernel
  obtain ⟨hrun, hstep⟩ := herr _ rfl hf (by simp)
  have hr : Fault.report walkText (.run .divisionByZero
      (some (.binary .divide (.number 1 1) (.number 0 1) 1))) =
      ["RuntimeError: 'division by zero'", "  Line 2: print 1 / 0"] := by decide +kernel
  have hs : shownLines walkOptions (walked.machine.start walked.program) 9 =
      ["[1] line 1: print 7", "[2] line 2: 1 / 0"] := by decide +kernel
  rw [hr] at hrun hstep
  refine ⟨hpath, hoptions, hload, n, hout, hcode, hrun, hstep.trans ?_⟩
  rw [walkOptions, Option.getD_some, ← walkOptions, hs]
  rfl

end Command

end LogoLang
