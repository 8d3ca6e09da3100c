import LogoLang.Proofs.Machine.Lines
import LogoLang.Workspace
import Mathlib.Data.Nat.Pairing

/-!
Where the lines of a report come from. A chronicle runs the same texts as a workspace, but its lines
are places: they tell the run in which a line was read as well. Main statement: a report quotes a
line of the text that was run last, under the number that the line has in the text it was read from;
so it quotes the right text just if the two texts agree in that line.
-/

set_option autoImplicit false

namespace LogoLang

/-- A line of the text of some run. -/
def place (run line : Nat) : Nat := Nat.pair run line

def Place.run (x : Nat) : Nat := x.unpair.1

def Place.line (x : Nat) : Nat := x.unpair.2

structure Chronicle where
  options : Options := {}
  machine : Machine := {}
  /-- The texts of the runs, in order. -/
  sources : List String := []

namespace Chronicle

/-- The program of the next run, with places for lines. -/
def enter (c : Chronicle) (p : Program) : Program :=
  p.map (Expr.mapLines (place c.sources.length))

/-- Loads a text and runs it. A fault has a place for its line. -/
def run (limit : Nat) (c : Chronicle) (source : String) : Chronicle × Option Fault :=
  match Program.read { known := c.machine.world.words.signatures }
      (Token.tokenize c.options.keywords source) with
  | .error f =>
    ({ c with sources := c.sources ++ [source] }, some (f.mapLines (place c.sources.length)))
  | .ok p =>
    let m := (c.machine.start (c.enter p.program)).run limit c.options.maxSteps
    ({ c with machine := m, sources := c.sources ++ [source] }, m.fault?)

def runs (c : Chronicle) (history : List (Nat × String)) : Chronicle :=
  history.foldl (fun c h => (c.run h.1 h.2).1) c

end Chronicle

namespace Workspace

def runs (ws : Workspace) (history : List (Nat × String)) : Workspace :=
  history.foldl (fun ws h => (ws.run h.1 h.2).1) ws

theorem run_of_error {limit : Nat} {ws : Workspace} {source : String} {f : Fault}
    (h : Program.read { known := ws.machine.world.words.signatures }
      (Token.tokenize ws.options.keywords source) = .error f) :
    (ws.run limit source).1 =
      { ws with source := source, program := [], log := ws.log ++ f.report source } := by
  simp [run, load, read, tokenize, h, Except.map, logFault]

theorem run_of_ok {limit : Nat} {ws : Workspace} {source : String} {p : Program.Reading}
    (h : Program.read { known := ws.machine.world.words.signatures }
      (Token.tokenize ws.options.keywords source) = .ok p) :
    (ws.run limit source).1 =
      { ws with
        source := source
        program := p.program
        machine := (ws.machine.start p.program).run limit ws.options.maxSteps
        log := ws.log ++ ((((ws.machine.start p.program).run limit
          ws.options.maxSteps).fault?.map (Fault.report source)).getD []) } := by
  simp only [run, load, read, tokenize, h, Except.map, runLoaded, runProgram]
  generalize (ws.machine.start p.program).run limit ws.options.maxSteps = m
  obtain ⟨w, _ | q | v | f, current, steps⟩ := m <;>
    simp [Machine.value?, Machine.fault?, logSession, logFault]

end Workspace

namespace Place

theorem line_place (run line : Nat) : Place.line (place run line) = line := by
  simp [Place.line, place]

theorem run_place (run line : Nat) : Place.run (place run line) = run := by
  simp [Place.run, place]

theorem line_comp_place (run : Nat) : Place.line ∘ place run = id :=
  funext fun line => line_place run line

def within (count x : Nat) : Nat := if Place.run x < count then x else 0

theorem within_zero (count : Nat) : within count 0 = 0 := by
  unfold within
  split <;> rfl

theorem within_comp_place {count run : Nat} (h : run < count) :
    within count ∘ place run = place run := by
  funext line
  simp [within, run_place, h]

theorem run_lt {count x : Nat} (hc : 0 < count) (h : within count x = x) : Place.run x < count := by
  unfold within at h
  split at h
  · assumption
  · subst h
    exact hc

end Place

namespace Chronicle

/-- The chronicle tells of a workspace: without the runs its machine is that of the workspace, and
all its places are in runs that it knows. -/
structure Follows (c : Chronicle) (ws : Workspace) : Prop where
  options : ws.options = c.options
  machine : ws.machine = c.machine.mapLines Place.line
  plain : c.machine.world.Plain
  placed : ∀ count, c.sources.length ≤ count →
    c.machine.mapLines (Place.within count) = c.machine

theorem enter_line (c : Chronicle) (p : Program) :
    (c.enter p).map (Expr.mapLines Place.line) = p := by
  have h : Expr.mapLines Place.line ∘ Expr.mapLines (place c.sources.length) = id := by
    funext e
    rw [Function.comp_apply, Expr.mapLines_mapLines, Place.line_comp_place, Expr.mapLines_id, id]
  rw [enter, List.map_map, h, List.map_id]

theorem enter_within (c : Chronicle) (p : Program) {count : Nat} (h : c.sources.length < count) :
    (c.enter p).map (Expr.mapLines (Place.within count)) = c.enter p := by
  have hc : Expr.mapLines (Place.within count) ∘ Expr.mapLines (place c.sources.length) =
      Expr.mapLines (place c.sources.length) := by
    funext e
    rw [Function.comp_apply, Expr.mapLines_mapLines, Place.within_comp_place h]
  rw [enter, List.map_map, hc]

theorem run_enter {c : Chronicle} (hc : c.machine.world.Plain) (g : Nat → Nat) (h0 : g 0 = 0)
    (limit : Nat) (p : Program) :
    ((c.machine.mapLines g).start ((c.enter p).map (Expr.mapLines g))).run limit
        c.options.maxSteps =
      ((c.machine.start (c.enter p)).run limit c.options.maxSteps).mapLines g := by
  rw [Machine.start_mapLines, Machine.run_mapLines g h0 limit _ (Machine.plain_start hc _)]

/-- What a run logs, and that the chronicle goes on telling of the workspace. -/
theorem Follows.run {c : Chronicle} {ws : Workspace} (h : c.Follows ws) (limit : Nat)
    (source : String) :
    (c.run limit source).1.Follows (ws.run limit source).1 ∧
      (ws.run limit source).1.log = ws.log ++
        ((c.run limit source).2.map fun f => (f.mapLines Place.line).report source).getD [] := by
  have hw : ws.machine.world.words.signatures = c.machine.world.words.signatures := by
    rw [h.machine]
    exact World.signatures_mapLines Place.line c.machine.world
  cases hr : Program.read { known := c.machine.world.words.signatures }
      (Token.tokenize c.options.keywords source) with
  | error f =>
    have hr' := hr
    rw [← hw, ← h.options] at hr'
    have hf := Fault.mapLines_cancel _ (Place.line_comp_place c.sources.length) f
    simp only [Workspace.run_of_error hr', Chronicle.run, hr, Option.map_some, Option.getD_some, hf,
      and_true]
    refine ⟨h.options, h.machine, h.plain, fun count hc => h.placed count ?_⟩
    simp only [List.length_append] at hc
    omega
  | ok p =>
    have hr' := hr
    rw [← hw, ← h.options] at hr'
    have hm := run_enter h.plain Place.line rfl limit p.program
    rw [enter_line, ← h.machine] at hm
    simp only [Workspace.run_of_ok hr', Chronicle.run, hr, h.options, hm, Machine.fault?_mapLines]
    refine ⟨⟨rfl, rfl, ?_, ?_⟩, ?_⟩
    · exact Machine.plain_run (Machine.plain_start h.plain _) _ _
    · intro count hc
      have hl : c.sources.length < count := by
        simp only [List.length_append, List.length_singleton] at hc
        omega
      have hp := run_enter h.plain _ (Place.within_zero count) limit p.program
      rw [enter_within c _ hl, h.placed count (by omega)] at hp
      exact hp.symm
    · rw [Option.map_map]
      rfl

theorem Follows.runs {c : Chronicle} {ws : Workspace} (h : c.Follows ws)
    (history : List (Nat × String)) : (c.runs history).Follows (ws.runs history) := by
  induction history generalizing c ws with
  | nil => exact h
  | cons r rs ih => exact ih (h.run r.1 r.2).1

theorem sources_run (limit : Nat) (c : Chronicle) (source : String) :
    (c.run limit source).1.sources = c.sources ++ [source] := by
  unfold Chronicle.run
  split <;> rfl

theorem sources_runs (c : Chronicle) (history : List (Nat × String)) :
    (c.runs history).sources = c.sources ++ history.map Prod.snd := by
  induction history generalizing c with
  | nil => simp [Chronicle.runs]
  | cons r rs ih =>
    have h := ih (c.run r.1 r.2).1
    rw [sources_run, List.append_assoc] at h
    exact h

theorem Follows.run_lt {c : Chronicle} {ws : Workspace} (h : c.Follows ws) {limit : Nat}
    {source : String} {f : Fault} (hf : (c.run limit source).2 = some f) {x : Nat}
    (hx : f.line? = some x) : Place.run x < (c.sources ++ [source]).length := by
  have hp := (h.run limit source).1.placed (c.sources ++ [source]).length
    (by rw [sources_run])
  unfold Chronicle.run at hf hp
  split at hf
  · cases hf
    rw [Fault.line?_mapLines, Option.map_eq_some_iff] at hx
    obtain ⟨n, -, rfl⟩ := hx
    simp [Place.run_place]
  · rename_i p hr
    simp only [hr] at hf hp
    have hl := congrArg Machine.fault? hp
    rw [Machine.fault?_mapLines, hf, Option.map_some, Option.some.injEq] at hl
    have hn := congrArg Fault.line? hl
    rw [Fault.line?_mapLines, hx, Option.map_some, Option.some.injEq] at hn
    exact Place.run_lt (by simp) hn

def fresh (options : Options) (silent : Bool) : Chronicle :=
  { options := options, machine := { world := { silent := silent } } }

def after (options : Options) (silent : Bool) (history : List (Nat × String)) : Chronicle :=
  (fresh options silent).runs history

end Chronicle

namespace Workspace

def fresh (options : Options) (silent : Bool) : Workspace :=
  { options := options, machine := { world := { silent := silent } } }

def after (options : Options) (silent : Bool) (history : List (Nat × String)) : Workspace :=
  (fresh options silent).runs history

end Workspace

theorem Chronicle.follows_after (options : Options) (silent : Bool)
    (history : List (Nat × String)) :
    (Chronicle.after options silent history).Follows (Workspace.after options silent history) := by
  have hm : ∀ g, (fresh options silent).machine.mapLines g = (fresh options silent).machine := by
    intro g
    have hs : Scopes.single.mapLines g = Scopes.single := by
      simp [Scopes.mapLines, Scopes.single, Scope.mapLines, Table.map, Table.empty]
    simp only [fresh, Machine.mapLines, World.mapLines, hs]
    rfl
  exact Chronicle.Follows.runs ⟨rfl, (hm _).symm, World.Plain.core, fun _ _ => hm _⟩ history

theorem Fault.report_eq_iff {f : Fault} {n : Nat} (hn : f.line? = some n) (s t : String) :
    f.report s = f.report t ↔ (Text.lines s)[n]? = (Text.lines t)[n]? := by
  simp only [report, hn, Option.bind_some, List.cons.injEq, true_and]
  constructor
  · intro h
    have hi : Function.Injective fun text : String =>
        "  Line " ++ Text.natText (n + 1) ++ ": " ++ text := by
      intro a b hab
      simpa using hab
    apply Option.map_injective hi
    simpa using congrArg List.head? h
  · intro h
    rw [h]

namespace Workspace

/-- A run logs a fault with a line of the text that is run, where the chronicle knows the run from
whose text the place of the fault was read. That text would be quoted just if the two agree in that
line, which they do if it was read in this run. -/
theorem report_quotes_origin_iff (options : Options) (silent : Bool)
    (history : List (Nat × String)) (limit : Nat) (source : String) :
    ((after options silent history).run limit source).1.log =
      (after options silent history).log ++
        ((((Chronicle.after options silent history).run limit source).2.map fun f =>
          (f.mapLines Place.line).report source).getD []) ∧
    ∀ f x, ((Chronicle.after options silent history).run limit source).2 = some f →
      f.line? = some x →
      ∃ origin, (history.map Prod.snd ++ [source])[Place.run x]? = some origin ∧
        ((f.mapLines Place.line).report source = (f.mapLines Place.line).report origin ↔
          (Text.lines source)[Place.line x]? = (Text.lines origin)[Place.line x]?) ∧
        (Place.run x = history.length → origin = source) := by
  have h := Chronicle.follows_after options silent history
  refine ⟨(h.run limit source).2, fun f x hf hx => ?_⟩
  have hs : (Chronicle.after options silent history).sources = history.map Prod.snd :=
    Chronicle.sources_runs (Chronicle.fresh options silent) history
  have hlt := h.run_lt hf hx
  rw [hs] at hlt
  refine ⟨_, List.getElem?_eq_getElem hlt, ?_, ?_⟩
  · exact Fault.report_eq_iff (by rw [Fault.line?_mapLines, hx, Option.map_some]) _ _
  · intro hr
    simp [hr]

def brokenText : String := "to foo\n print 1 / 0\nend"

def callText : String := "\nfoo"

/-- The procedure was read in the first run, its fault is quoted from the second one. -/
theorem report_quotes_other_text :
    (∃ f, ((Chronicle.after {} false [(9, brokenText)]).run 9 callText).2 = some f ∧
      f.line? = some (place 0 1)) ∧
    ((after {} false [(9, brokenText)]).run 9 callText).1.log =
      #["RuntimeError: 'division by zero'", "  Line 2: foo"] ∧
    (Text.lines brokenText)[1]? = some " print 1 / 0" := by
  refine ⟨⟨.run .divisionByZero (some (.binary .divide (.number 1 (place 0 1))
    (.number 0 (place 0 1)) (place 0 1))), ?_, rfl⟩, ?_, ?_⟩
  · decide +kernel
  · decide +kernel
  · decide +kernel

end Workspace

end LogoLang
