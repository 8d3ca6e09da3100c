import LogoLang.Proofs.Machine.Definitions
import LogoLang.Proofs.Machine.Sequence
import LogoLang.Proofs.Token.Seam
import LogoLang.Proofs.Workspace.Origin

/-!
A text that is run in pieces. The second piece is read with the words that the machine has after the
first one, and run in the world that the first one leaves. Main statement: if the definitions of the
first piece stand at its top, this comes to what the whole text comes to.
-/

set_option autoImplicit false

namespace LogoLang

/-- Both sessions have ended, with values that the language takes for equal or with faults of one
kind and message. -/
def Session.EndsAs : Session → Session → Prop
  | .completed u, .completed v => u.equals v = true
  | .errored f, .errored g => f.kindName = g.kindName ∧ f.message = g.message
  | _, _ => False

theorem Session.endsAs_of_mapLines {r : Except Fault Value} {s : Session} {f : Nat → Nat}
    (h : s.mapLines f = (Machine.ended r).mapLines f) : s.EndsAs (Machine.ended r) := by
  cases r with
  | ok v =>
    cases s with
    | completed u =>
      simp only [Session.mapLines, Machine.ended, Session.completed.injEq] at h
      rw [Machine.ended, EndsAs, ← Value.equals_mapLines f, h, Value.equals_self]
    | _ => cases h
  | error x =>
    cases s with
    | errored y =>
      simp only [Session.mapLines, Machine.ended, Session.errored.injEq] at h
      refine ⟨?_, ?_⟩
      · cases x <;> cases y <;> first | rfl | cases h
      · rw [← Fault.message_mapLines f, h, Fault.message_mapLines]
    | _ => cases h

/-- The third machine has come, in one session, to what the first two have come to in two sessions,
one after the other. -/
structure Machine.Joins (first second whole : Machine) : Prop where
  output : ∃ printed, second.world.output = first.world.output ++ printed ∧
    whole.world.output = first.world.output ++ printed
  session : whole.session.EndsAs second.session
  steps : whole.steps = first.steps + second.steps
  words : whole.world.words.map (Word.mapLines fun _ => 0) =
    second.world.words.map (Word.mapLines fun _ => 0)

theorem Machine.joins_append {m : Machine} {p q : Program} {n k l : Nat} {v : Value}
    (hm : m.world.Plain) (hp : ((m.start p).advance n).session = .completed v) (hne : q ≠ [])
    (hq : ((((m.start p).advance n).start q).advance k).isPending = false)
    (hl : ((m.start p).advance n).steps +
      ((((m.start p).advance n).start q).advance k).steps ≤ l) (f : Nat → Nat) :
    Joins ((m.start p).advance n) ((((m.start p).advance n).start q).advance k)
      ((m.start (p ++ q.map (Expr.mapLines f))).advance l) := by
  have hm₁ : ((m.start p).advance n).world.Plain := plain_advance (plain_start hm p) n
  have hf : (q.map (Expr.mapLines f)).map Expr.unlined = q.map Expr.unlined := by
    simp [Function.comp_def]
  have ha := advance_start_alike hm₁ hf k
  have hsteps := congrArg Machine.steps ha
  simp only [Machine.mapLines] at hsteps
  have hend := congrArg isPending ha
  rw [isPending_mapLines, isPending_mapLines, hq] at hend
  obtain ⟨hw, hs, hc⟩ := advance_start_append hm hp (by simpa using hne) hend (hsteps ▸ hl)
  have hworld := congrArg Machine.world ha
  have hsession := congrArg Machine.session ha
  simp only [Machine.mapLines, ← hw, ← hs] at hworld hsession
  have houtput := congrArg World.output hworld
  simp only [World.mapLines] at houtput
  obtain ⟨printed, ho⟩ := output_advance_start hm₁ hq
  obtain ⟨r, hr⟩ : ∃ r, ((((m.start p).advance n).start q).advance k).session = ended r :=
    ended_of_not_isPending none 0 _ k hq
  refine ⟨⟨printed, ho, houtput.trans ho⟩, ?_, hc.trans (by rw [hsteps]),
    congrArg World.words hworld⟩
  rw [hr] at hsession ⊢
  exact Session.endsAs_of_mapLines hsession

namespace Workspace

variable {limit : Nat} {ws ws' : Workspace} {source : String}

theorem run_eq_some {v : Value} (h : ws.run limit source = (ws', some v)) :
    ∃ p, Program.read ws.machine.world.vocabulary (ws.tokenize source) = .ok p ∧
      ws'.options = ws.options ∧ ws'.program = p.program ∧
      ws'.machine = (ws.machine.start p.program).run limit ws.options.maxSteps ∧
      ws'.machine.session = .completed v := by
  simp only [run, load, read] at h
  cases hr : Program.read ws.machine.world.vocabulary (ws.tokenize source) with
  | error f =>
    rw [World.vocabulary] at hr
    simp [hr, Except.map] at h
  | ok p =>
    rw [World.vocabulary] at hr
    simp only [hr, Except.map, runLoaded, runProgram] at h
    generalize hm : (ws.machine.start p.program).run limit ws.options.maxSteps = m at h
    obtain ⟨w, _ | q | u | f, current, steps⟩ := m
    · simp [Machine.value?] at h
    · simp [Machine.value?] at h
    · simp only [Machine.value?, Prod.mk.injEq, Option.some.injEq] at h
      obtain ⟨rfl, rfl⟩ := h
      exact ⟨p, rfl, rfl, rfl, hm.symm, rfl⟩
    · simp [Machine.value?] at h

theorem run_of_read (limit : Nat) {p : Program} (h : ws.read (ws.tokenize source) = .ok p) :
    ∃ words, Program.read ws.machine.world.vocabulary (ws.tokenize source) = .ok ⟨p, words⟩ ∧
      (ws.run limit source).1.machine =
        (ws.machine.start p).run limit ws.options.maxSteps := by
  cases hr : Program.read ws.machine.world.vocabulary (ws.tokenize source) with
  | error f =>
    rw [World.vocabulary] at hr
    simp [read, hr, Except.map] at h
  | ok q =>
    rw [run_of_ok hr]
    rw [World.vocabulary] at hr
    simp only [read, hr, Except.map, Except.ok.injEq] at h
    subst h
    exact ⟨_, rfl, rfl⟩

/-- A text is run on a fresh machine without a budget and completes, and its definitions stand at
the top. Then another text that can be read after it, and whose run ends, can be joined to it by a
newline: the two are run as one text with the same output, the same end, as many steps, and the same
words up to lines. -/
theorem run_append_newline (options : Options) (ho : options.maxSteps = none) (silent : Bool)
    (a b : String) (n k l : Nat) (first : Workspace) (v : Value)
    (ha : (fresh options silent).run n a = (first, some v)) (ht : first.program.TopDefinitions)
    (hne : first.tokenize b ≠ []) (p : Program) (hb : first.read (first.tokenize b) = .ok p)
    (hend : (first.run k b).1.machine.isPending = false)
    (hl : first.machine.steps + (first.run k b).1.machine.steps ≤ l) :
    first.machine.Joins (first.run k b).1.machine
      ((fresh options silent).run l (a ++ "\n" ++ b)).1.machine := by
  obtain ⟨pa, hra, hopt, hprog, hm, hs⟩ := run_eq_some ha
  obtain ⟨words, hrb, hsecond⟩ := run_of_read k hb
  have hbudget : (fresh options silent).options.maxSteps = none := ho
  rw [hopt, hbudget, Machine.run] at hsecond
  rw [hbudget, Machine.run] at hm
  rw [hm] at hs
  rw [hsecond, hm] at hend hl
  -- The reader of the whole text comes to the second piece with the words of the machine.
  have hplain : (fresh options silent).machine.world.Plain := World.Plain.core
  obtain ⟨calls, hd, -⟩ := Machine.dispatches_of_completed hplain hs
  have hwords : pa.words.Agrees first.machine.world.vocabulary := by
    rw [hm]
    exact agrees_of_program hd.evaluates (hprog ▸ ht) (Program.legible_read hra)
      (World.All.fresh rfl rfl) fun _ => rfl
  obtain ⟨words', hr, -⟩ := Program.read_append hra hrb hne hwords
    (· + (a.toList.count '\n' + 1))
  have htokens : (fresh options silent).tokenize (a ++ "\n" ++ b) =
      (fresh options silent).tokenize a ++
        (first.tokenize b).map (Token.mapLine (· + (a.toList.count '\n' + 1))) := by
    simp only [tokenize, hopt]
    exact Token.tokenize_append_newline ..
  rw [← htokens] at hr
  rw [run_of_ok hr, hbudget, hsecond, hm]
  exact Machine.joins_append hplain hs (Program.read_ne_nil hrb hne) hend hl _

/-- Takes the core word `list` for a procedure without parameters. -/
def countText : String := "to two\n 1 + 1\nend\nprint two\nto list\n 7\nend"

/-- Can be read with that procedure only, defines `two` anew, and fails. -/
def recountText : String := "to two\n (list)\nend\nprint two / 0"

def counted : Workspace := ((fresh {} false).run 9 countText).1

def countProgram : Program :=
  [.define "two" [] [.binary .add (.number 1 1) (.number 1 1) 1] 0,
   .call "print" [.call "two" [] 3] 3,
   .define "list" [] [.number 7 5] 4]

def recountProgram : Program :=
  [.define "two" [] [.group (.call "list" [] 1) 1] 0,
   .call "print" [.binary .divide (.call "two" [] 3) (.number 0 3) 3] 3]

theorem topDefinitions_count : countProgram.TopDefinitions := by
  simp [Program.TopDefinitions, countProgram, Expr.children, Expr.NoDefinition,
    Expr.all_iff (e := .number _ _), Expr.all_iff (e := .call _ _ _),
    Expr.all_iff (e := .binary _ _ _ _)]

theorem run_append_newline_recount :
    (fresh {} false).run 9 countText = (counted, some .void) ∧
    counted.program.TopDefinitions ∧ counted.tokenize recountText ≠ [] ∧
    (∃ p, counted.read (counted.tokenize recountText) = .ok p) ∧
    (counted.run 9 recountText).1.machine.isPending = false ∧
    counted.machine.Joins (counted.run 9 recountText).1.machine
      ((fresh {} false).run 12 (countText ++ "\n" ++ recountText)).1.machine := by
  have ha : (fresh {} false).run 9 countText = (counted, some .void) :=
    Prod.ext rfl (by decide +kernel)
  have hc : (counted.program, counted.machine.steps) = (countProgram, 3) := by decide +kernel
  obtain ⟨hp, hs⟩ := Prod.mk.inj hc
  have ht : counted.program.TopDefinitions := hp ▸ topDefinitions_count
  have hne : counted.tokenize recountText ≠ [] := by decide +kernel
  have hb : counted.read (counted.tokenize recountText) = .ok recountProgram := by decide +kernel
  have hr : ((counted.run 9 recountText).1.machine.isPending,
      (counted.run 9 recountText).1.machine.steps) = (false, 3) := by decide +kernel
  obtain ⟨hend, hk⟩ := Prod.mk.inj hr
  have hl : counted.machine.steps + (counted.run 9 recountText).1.machine.steps ≤ 12 := by omega
  exact ⟨ha, ht, hne, ⟨_, hb⟩, hend, run_append_newline {} rfl false countText recountText 9 9 12
    counted .void ha ht hne _ hb hend hl⟩

end Workspace

end LogoLang
