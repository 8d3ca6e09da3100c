import LogoLang.Proofs.Machine.Direct

/-!
The machine against evaluation by recursion. A session that goes on to its end shows an expression
before each of its steps. Main statements: without host words it shows just the calls that
evaluation by recursion lists and comes to the same end; so a session ends, in a world and with a
value or a fault, just when evaluation by recursion does.
-/

set_option autoImplicit false

namespace LogoLang

open Direct

/-- The session goes on from a stop to an end, and shows these expressions before its steps. -/
inductive Shows : World × Outcome → List Expr → World → Except Fault Value → Prop where
  | done {w : World} {v : Value} : Shows (w, .done v) [] w (.ok v)
  | failed {w : World} {f : Fault} : Shows (w, .failed f) [] w (.error f)
  | step {w w' : World} {p : Pending} {cs : List Expr} {r : Except Fault Value}
    (h : Shows (p.proceed w) cs w' r) : Shows (w, .waiting p) (p.owner :: cs) w' r

theorem Shows.unique {x : World × Outcome} {cs ds : List Expr} {w w' : World}
    {q r : Except Fault Value} (h : Shows x cs w q) (h' : Shows x ds w' r) :
    cs = ds ∧ w = w' ∧ q = r := by
  induction h generalizing ds with
  | done =>
    cases h'
    exact ⟨rfl, rfl, rfl⟩
  | failed =>
    cases h'
    exact ⟨rfl, rfl, rfl⟩
  | step _ ih =>
    cases h' with
    | step h' =>
      obtain ⟨rfl, hw, hr⟩ := ih h'
      exact ⟨rfl, hw, hr⟩

section Completeness

/-- What frames make of a result, and what the machine shows meanwhile. -/
def Follows (stack : List Frame) (w : World) :
    Except Fault Value → List Expr → World → Except Fault Value → Prop
  | .ok v, cs, w', r => Shows (w.settle (.give v) stack) cs w' r
  | .error f, cs, w', r => cs = [] ∧ w' = w ∧ r = .error f

def Gathers (c : Expr) (h : Scopes.Handle) (done : Array Value) (stack : List Frame) (w : World) :
    Except Fault (List Value) → List Expr → World → Except Fault Value → Prop
  | .ok vs, cs, w', r => Shows (w, .waiting ⟨c, .apply (done.toList ++ vs) h, stack⟩) cs w' r
  | .error f, cs, w', r => cs = [] ∧ w' = w ∧ r = .error f

/-- The machine comes from a job to its result and shows the calls of the job on the way, whatever
it has to do and to show afterwards. -/
def Direct.Job.Shown {α : Type} (w : World) (h : Scopes.Handle) :
    Job α → List Expr → World → Except Fault α → Prop
  | .expr e, calls, w₁, q => ∀ ⦃stack cs w' r⦄, Follows stack w₁ q cs w' r →
    Shows (w.settle (.eval e h) stack) (calls ++ cs) w' r
  | .items es, calls, w₁, q => ∀ ⦃c done stack cs w' r⦄, Gathers c h done stack w₁ q cs w' r →
    Shows (w.evalArgs c done es h stack).settle (calls ++ cs) w' r
  | .block es, calls, w₁, q => ∀ ⦃stack cs w' r⦄, Follows stack w₁ q cs w' r →
    Shows (w.settle (.run es h) stack) (calls ++ cs) w' r
  | .apply c vs, calls, w₁, q => ∀ ⦃stack cs w' r⦄, Follows stack w₁ q cs w' r →
    Shows (w, .waiting ⟨c, .apply vs h, stack⟩) (calls ++ cs) w' r
  | .loop n es, calls, w₁, q => ∀ ⦃v stack cs w' r⦄, Follows stack w₁ q cs w' r →
    Shows (w.settle (.give v) (.loop n es h :: stack)) (calls ++ cs) w' r

variable {w w₁ w₂ : World} {h : Scopes.Handle} {as bs : List Expr}

theorem Follows.failed {w w' : World} {stack : List Frame} {f : Fault} {cs : List Expr}
    {r : Except Fault Value} (hk : Follows stack w (.error f) cs w' r) :
    Shows (w, .failed f) cs w' r := by
  obtain ⟨rfl, rfl, rfl⟩ := hk
  exact .failed

theorem shown_call {c : Expr} {vs : List Value} {q : Except Fault Value} (hc : c.Applies)
    (ha : (Job.items c.operands).Shown w h as w₁ (.ok vs))
    (hw : (Job.apply c vs).Shown w₁ h bs w₂ q) : (Job.expr c).Shown w h (as ++ bs) w₂ q := by
  intro stack cs w' r hk
  rw [World.settle_eq, World.move, World.moveEval_applies hc, List.append_assoc]
  refine ha ?_
  simp only [Gathers, List.nil_append]
  exact hw hk

theorem shown_cons {e : Expr} {es : List Expr} {v : Value} {q : Except Fault (List Value)}
    (he : (Job.expr e).Shown w h as w₁ (.ok v)) (hs : (Job.items es).Shown w₁ h bs w₂ q) :
    (Job.items (e :: es)).Shown w h (as ++ bs) w₂ (q.map (v :: ·)) := by
  intro c done stack cs w' r hk
  rw [List.append_assoc]
  refine he ?_
  simp only [Follows]
  rw [World.settle_eq]
  refine hs ?_
  cases q with
  | error f => exact hk
  | ok vs => simpa [Gathers, Except.map] using hk

theorem shown_drop {e e' : Expr} {es : List Expr} {v : Value} {q : Except Fault Value}
    (he : (Job.expr e).Shown w h as w₁ (.ok v))
    (hs : (Job.block (e' :: es)).Shown w₁ h bs w₂ q) :
    (Job.block (e :: e' :: es)).Shown w h (as ++ bs) w₂ q := by
  intro stack cs w' r hk
  rw [World.settle_eq, List.append_assoc]
  refine he ?_
  simp only [Follows]
  rw [World.settle_eq]
  exact hs hk

theorem shown_again {n : Nat} {es : List Expr} {v : Value} {q : Except Fault Value}
    (hb : (Job.block es).Shown w h as w₁ (.ok v)) (hn : (Job.loop n es).Shown w₁ h bs w₂ q) :
    (Job.loop (n + 1) es).Shown w h (as ++ bs) w₂ q := by
  intro u stack cs w' r hk
  rw [World.settle_eq, List.append_assoc]
  exact hb (hn hk)

theorem Direct.Dispatches.shown {α : Type} {j : Job α} {q : Except Fault α}
    (hj : Dispatches w h j as w₁ q) : j.Shown w h as w₁ q := by
  induction hj with
  | nil | number | word | list | define | empty =>
    intro stack cs w' r hk
    rw [World.settle_eq]
    exact hk
  | var hv =>
    intro stack cs w' r hk
    rw [World.settle_eq]
    simp only [World.move, World.moveEval, hv]
    exact hk
  | unbound hv =>
    intro stack cs w' r hk
    rw [World.settle_eq]
    simp only [World.move, World.moveEval, hv]
    exact hk.failed
  | call hc _ _ iha ihw => exact shown_call hc iha ihw
  | cons _ _ ihe ihs => exact shown_cons ihe ihs
  | drop _ _ ihe ihs => exact shown_drop ihe ihs
  | again _ _ ihb ihn => exact shown_again ihb ihn
  | argument hc _ iha =>
    intro stack cs w' r hk
    rw [World.settle_eq, World.move, World.moveEval_applies hc]
    exact iha hk
  | none =>
    intro c done stack cs w' r hk
    simp only [Gathers, List.append_nil] at hk
    exact hk
  | stop _ ihe => exact fun c done stack cs w' r hk => ihe hk
  | group _ ih | last _ ih | broken _ ih =>
    intro stack cs w' r hk
    rw [World.settle_eq]
    exact ih hk
  | halted _ ih =>
    intro v stack cs w' r hk
    rw [World.settle_eq]
    exact ih hk
  | zero =>
    intro v stack cs w' r hk
    rw [World.settle_eq]
    exact hk
  | refused hf =>
    intro stack cs w' r hk
    refine .step ?_
    rw [Pending.proceed_refused hf]
    exact hk.failed
  | failed hw hk =>
    intro stack cs w' r hc
    refine .step ?_
    rw [Pending.proceed_failed hw hk]
    exact hc.failed
  | value hw hk | say hw hk =>
    intro stack cs w' r hc
    refine .step ?_
    rw [Pending.proceed_core hw hk]
    exact hc
  | run hw hk _ ih | loop hw hk _ ih =>
    intro stack cs w' r hc
    refine .step ?_
    rw [Pending.proceed_core hw hk]
    exact ih hc
  | enter hw _ ih =>
    intro stack cs w' r hc
    refine .step ?_
    rw [Pending.proceed_defined hw]
    exact ih hc

end Completeness

theorem Direct.Dispatches.shows {w w' : World} {h : Scopes.Handle} {es calls : List Expr}
    {r : Except Fault Value} (hd : Dispatches w h (.block es) calls w' r) :
    Shows (w.settle (.run es h) []) calls w' r := by
  have hk : Follows [] w' r [] w' r := by
    cases r with
    | error f => exact ⟨rfl, rfl, rfl⟩
    | ok v =>
      simp only [Follows]
      rw [World.settle_eq]
      exact .done
  simpa using hd.shown hk

section Soundness

/-- The rest of a call: the arguments that are left, then the word. -/
inductive Calls (w : World) (h : Scopes.Handle) (c : Expr) (done : List Value)
    (todo : List Expr) : World → Except Fault Value → Prop where
  | applied {w₁ w' : World} {vs : List Value} {r : Except Fault Value}
    (ha : Evaluates w h (.items todo) w₁ (.ok vs))
    (hw : Evaluates w₁ h (.apply c (done ++ vs)) w' r) : Calls w h c done todo w' r
  | stopped {w' : World} {f : Fault} (ha : Evaluates w h (.items todo) w' (.error f)) :
    Calls w h c done todo w' (.error f)

/-- What evaluation by recursion makes of a value in the place of a frame. -/
def Frame.Takes (w : World) (v : Value) : Frame → World → Except Fault Value → Prop
  | .args c done todo h, w', r => Calls w h c (done.push v).toList todo w' r
  | .block es h, w', r => Evaluates w h (.block es) w' r
  | .loop n es h, w', r => Evaluates w h (.loop n es) w' r

/-- The frames of a stack take values one after the other, and none takes a fault. -/
inductive Unwinds :
    List Frame → World → Except Fault Value → World → Except Fault Value → Prop where
  | nil {w : World} {r : Except Fault Value} : Unwinds [] w r w r
  | error {stack : List Frame} {w : World} {f : Fault} : Unwinds stack w (.error f) w (.error f)
  | cons {frame : Frame} {stack : List Frame} {w w₁ w' : World} {v : Value}
    {q r : Except Fault Value} (hf : frame.Takes w v w₁ q) (hs : Unwinds stack w₁ q w' r) :
    Unwinds (frame :: stack) w (.ok v) w' r

def Task.Gives (w : World) : Task → World → Except Fault Value → Prop
  | .eval e h, w', r => Evaluates w h (.expr e) w' r
  | .run es h, w', r => Evaluates w h (.block es) w' r
  | .give v, w', r => w' = w ∧ r = .ok v

def Task.Solved (w' : World) (r : Except Fault Value) (w : World) (t : Task)
    (stack : List Frame) : Prop :=
  ∃ w₁ q, t.Gives w w₁ q ∧ Unwinds stack w₁ q w' r

def Outcome.Solved (w' : World) (r : Except Fault Value) (w : World) : Outcome → Prop
  | .waiting ⟨c, .apply vs h, stack⟩ =>
    ∃ w₁ q, Evaluates w h (.apply c vs) w₁ q ∧ Unwinds stack w₁ q w' r
  | .waiting ⟨_, .give v, stack⟩ => Unwinds stack w (.ok v) w' r
  | .done v => w' = w ∧ r = .ok v
  | .failed f => w' = w ∧ r = .error f

variable {w w' : World} {h : Scopes.Handle} {stack : List Frame} {r : Except Fault Value}

theorem Calls.cons {w₁ : World} {c : Expr} {done : List Value} {e : Expr} {es : List Expr}
    {v : Value} (he : Evaluates w h (.expr e) w₁ (.ok v))
    (hs : Calls w₁ h c (done ++ [v]) es w' r) : Calls w h c done (e :: es) w' r := by
  cases hs with
  | applied ha hw =>
    rw [List.append_assoc] at hw
    exact .applied (.cons he ha) hw
  | stopped ha => exact .stopped (.cons he ha)

theorem solved_evalArgs {c : Expr} {done : Array Value} {todo : List Expr}
    (hm : (w.evalArgs c done todo h stack).Leads (Task.Solved w' r) (Outcome.Solved w' r)) :
    ∃ w₁ q, Calls w h c done.toList todo w₁ q ∧ Unwinds stack w₁ q w' r := by
  cases todo with
  | nil =>
    obtain ⟨w₁, q, hw, hs⟩ := hm
    exact ⟨w₁, q, .applied .none (by rwa [List.append_nil]), hs⟩
  | cons e es =>
    obtain ⟨w₁, q, he, hs⟩ := hm
    cases hs with
    | error => exact ⟨_, _, .stopped (.stop he), .error⟩
    | cons hf hs =>
      simp only [Frame.Takes, Array.toList_push] at hf
      exact ⟨_, _, .cons he hf, hs⟩

theorem Calls.evaluates {c : Expr} (hc : c.Applies) (hs : Calls w h c [] c.operands w' r) :
    Evaluates w h (.expr c) w' r := by
  cases hs with
  | applied ha hw => exact .call hc ha hw
  | stopped ha => exact .argument hc ha

theorem solved_moveEval {e : Expr}
    (hm : (w.moveEval e h stack).Leads (Task.Solved w' r) (Outcome.Solved w' r)) :
    Task.Solved w' r w (.eval e h) stack := by
  have applied (hc : e.Applies) : Task.Solved w' r w (.eval e h) stack := by
    rw [World.moveEval_applies hc] at hm
    obtain ⟨w₁, q, hs, hu⟩ := solved_evalArgs hm
    exact ⟨w₁, q, hs.evaluates hc, hu⟩
  cases e with
  | call name args line => exact applied trivial
  | binary op left right line => exact applied trivial
  | var name line =>
    simp only [World.moveEval] at hm
    split at hm
    · rename_i v hv
      obtain ⟨w₁, q, ⟨rfl, rfl⟩, hu⟩ := hm
      exact ⟨_, _, .var hv, hu⟩
    · rename_i hv
      obtain ⟨rfl, rfl⟩ := hm
      exact ⟨_, _, .unbound hv, .error⟩
  | group inner line =>
    obtain ⟨w₁, q, he, hu⟩ := hm
    exact ⟨w₁, q, .group he, hu⟩
  | nil =>
    obtain ⟨w₁, q, ⟨rfl, rfl⟩, hu⟩ := hm
    exact ⟨_, _, .nil, hu⟩
  | number n line =>
    obtain ⟨w₁, q, ⟨rfl, rfl⟩, hu⟩ := hm
    exact ⟨_, _, .number, hu⟩
  | word text line =>
    obtain ⟨w₁, q, ⟨rfl, rfl⟩, hu⟩ := hm
    exact ⟨_, _, .word, hu⟩
  | list items line =>
    obtain ⟨w₁, q, ⟨rfl, rfl⟩, hu⟩ := hm
    exact ⟨_, _, .list, hu⟩
  | define name params body line =>
    obtain ⟨w₁, q, ⟨rfl, rfl⟩, hu⟩ := hm
    exact ⟨_, _, .define, hu⟩

theorem solved_moveRun {es : List Expr}
    (hm : (w.moveRun es h stack).Leads (Task.Solved w' r) (Outcome.Solved w' r)) :
    Task.Solved w' r w (.run es h) stack := by
  match es with
  | [] =>
    obtain ⟨w₁, q, ⟨rfl, rfl⟩, hu⟩ := hm
    exact ⟨_, _, .empty, hu⟩
  | [e] =>
    obtain ⟨w₁, q, he, hu⟩ := hm
    exact ⟨w₁, q, .last he, hu⟩
  | e :: e' :: es =>
    obtain ⟨w₁, q, he, hu⟩ := hm
    cases hu with
    | error => exact ⟨_, _, .broken he, .error⟩
    | cons hf hs => exact ⟨_, _, .drop he hf, hs⟩

theorem solved_moveGive {v : Value}
    (hm : (w.moveGive v stack).Leads (Task.Solved w' r) (Outcome.Solved w' r)) :
    Task.Solved w' r w (.give v) stack := by
  refine ⟨w, .ok v, ⟨rfl, rfl⟩, ?_⟩
  match stack with
  | [] =>
    obtain ⟨rfl, rfl⟩ := hm
    exact .nil
  | .args c done todo h :: stack =>
    obtain ⟨w₁, q, hs, hu⟩ := solved_evalArgs hm
    exact .cons hs hu
  | .block es h :: stack =>
    obtain ⟨w₁, q, hs, hu⟩ := hm
    exact .cons hs hu
  | .loop 0 es h :: stack =>
    obtain ⟨w₁, q, ⟨rfl, rfl⟩, hu⟩ := hm
    exact .cons .zero hu
  | .loop (n + 1) es h :: stack =>
    obtain ⟨w₁, q, hb, hu⟩ := hm
    cases hu with
    | error => exact .cons (.halted hb) .error
    | cons hf hs => exact .cons (.again hb hf) hs

theorem solved_settle {t : Task}
    (ho : (w.settle t stack).2.Solved w' r (w.settle t stack).1) : Task.Solved w' r w t stack := by
  -- From the stop back to the task, move by move.
  refine World.settle_reflects ?_ w t stack ho
  intro w t stack hm
  cases t with
  | eval e h => exact solved_moveEval hm
  | run es h => exact solved_moveRun hm
  | give v => exact solved_moveGive hm

theorem solved_apply (hw : w.Plain) {c : Expr} {vs : List Value}
    (ho : Outcome.Solved w' r ((Pending.mk c (.apply vs h) stack).proceed w).1
      ((Pending.mk c (.apply vs h) stack).proceed w).2) :
    Outcome.Solved w' r w (.waiting ⟨c, .apply vs h, stack⟩) := by
  have hp := Pending.performs_proceed hw c vs h stack
  generalize (Pending.mk c (.apply vs h) stack).proceed w = x at hp ho
  cases hp with
  | refused hf =>
    obtain ⟨rfl, rfl⟩ := ho
    exact ⟨_, _, .refused hf, .error⟩
  | failed ha hk =>
    obtain ⟨rfl, rfl⟩ := ho
    exact ⟨_, _, .failed ha hk, .error⟩
  | value ha hk =>
    obtain ⟨w₁, q, ⟨rfl, rfl⟩, hu⟩ := solved_settle ho
    exact ⟨_, _, .value ha hk, hu⟩
  | say ha hk =>
    obtain ⟨w₁, q, ⟨rfl, rfl⟩, hu⟩ := solved_settle ho
    exact ⟨_, _, .say ha hk, hu⟩
  | run ha hk =>
    obtain ⟨w₁, q, hb, hu⟩ := solved_settle ho
    exact ⟨w₁, q, .run ha hk hb, hu⟩
  | loop ha hk =>
    obtain ⟨w₁, q, ⟨rfl, rfl⟩, hu⟩ := solved_settle ho
    cases hu with
    | cons hf hs => exact ⟨_, _, .loop ha hk hf, hs⟩
  | enter ha =>
    obtain ⟨w₁, q, hb, hu⟩ := solved_settle ho
    exact ⟨w₁, q, .enter ha hb, hu⟩

theorem solved_proceed (hw : w.Plain) {p : Pending}
    (ho : Outcome.Solved w' r (p.proceed w).1 (p.proceed w).2) :
    Outcome.Solved w' r w (.waiting p) := by
  obtain ⟨c, resume, stack⟩ := p
  cases resume with
  | apply vs h => exact solved_apply hw ho
  | give v =>
    obtain ⟨w₁, q, ⟨rfl, rfl⟩, hu⟩ := solved_settle ho
    exact hu

theorem Shows.solved {x : World × Outcome} {cs : List Expr} (hx : x.1.Plain)
    (hs : Shows x cs w' r) : Outcome.Solved w' r x.1 x.2 := by
  induction hs with
  | done => exact ⟨rfl, rfl⟩
  | failed => exact ⟨rfl, rfl⟩
  | step _ ih => exact solved_proceed hx (ih (hx.proceed _))

theorem Shows.evaluates {es cs : List Expr} (hw : w.Plain)
    (hs : Shows (w.settle (.run es h) []) cs w' r) : Evaluates w h (.block es) w' r := by
  obtain ⟨w₁, q, hb, hu⟩ := solved_settle (hs.solved (hw.settle _ _))
  cases hu <;> exact hb

/-- A program shows the calls of evaluation by recursion and comes to the same end. -/
theorem shows_iff_dispatches {es cs : List Expr} (hw : w.Plain) :
    Shows (w.settle (.run es h) []) cs w' r ↔ Dispatches w h (.block es) cs w' r := by
  refine ⟨fun hs => ?_, Dispatches.shows⟩
  -- The list is found by evaluation, and a session shows no other one.
  obtain ⟨calls, hd⟩ := (hs.evaluates hw).dispatches
  obtain ⟨rfl, -⟩ := hs.unique hd.shows
  exact hd

end Soundness

namespace Machine

def ended : Except Fault Value → Session
  | .ok v => .completed v
  | .error f => .errored f

/-- The expressions that are current before each of the next steps, of which there are at most
`n`. -/
def observed : Nat → Machine → List (Option Expr)
  | 0, _ => []
  | n + 1, m => if m.isPending then m.current :: observed n m.step else []

theorem isPending_advance {x : World × Outcome} {calls : List Expr} {w' : World}
    {r : Except Fault Value} (h : Shows x calls w' r) (current : Option Expr) (steps n : Nat) :
    ((stopped current steps x).advance n).isPending = decide (n < calls.length) := by
  induction h generalizing current steps n with
  | done =>
    rw [advance_eq_self n rfl]
    simp [stopped, isPending]
  | failed =>
    rw [advance_eq_self n rfl]
    simp [stopped, isPending]
  | @step w w' p cs r h ih =>
    cases n with
    | zero => simp [advance, stopped, isPending]
    | succ n =>
      refine (ih (some p.owner) (steps + 1) n).trans ?_
      simp

theorem observed_of_shows {x : World × Outcome} {calls : List Expr} {w' : World}
    {r : Except Fault Value} (h : Shows x calls w' r) (current : Option Expr) (steps : Nat)
    {n : Nat} (hn : calls.length ≤ n) :
    (stopped current steps x).observed n = calls.map some ∧
      ((stopped current steps x).advance n).world = w' ∧
      ((stopped current steps x).advance n).session = ended r ∧
      ((stopped current steps x).advance n).steps = steps + calls.length := by
  induction h generalizing current steps n with
  | done =>
    rw [advance_eq_self n rfl]
    cases n <;> exact ⟨rfl, rfl, rfl, rfl⟩
  | failed =>
    rw [advance_eq_self n rfl]
    cases n <;> exact ⟨rfl, rfl, rfl, rfl⟩
  | @step w w' p cs r h ih =>
    simp only [List.length_cons] at hn ⊢
    obtain ⟨n, rfl⟩ : ∃ k, n = k + 1 := ⟨n - 1, by omega⟩
    obtain ⟨ho, hw, hs, hc⟩ := ih (some p.owner) (steps + 1) (n := n) (by omega)
    refine ⟨congrArg (some p.owner :: ·) ho, hw, hs, hc.trans ?_⟩
    omega

theorem shows_of_ended {x : World × Outcome} {w' : World} {r : Except Fault Value}
    (current : Option Expr) (steps : Nat) (hw : (stopped current steps x).world = w')
    (hs : (stopped current steps x).session = ended r) : Shows x [] w' r := by
  obtain ⟨w, p | v | f⟩ := x
  · cases r <;> cases hs
  · cases r <;> cases hs
    cases hw
    exact .done
  · cases r <;> cases hs
    cases hw
    exact .failed

theorem exists_shows {x : World × Outcome} {r : Except Fault Value} (current : Option Expr)
    (steps : Nat) {n : Nat} (hs : ((stopped current steps x).advance n).session = ended r) :
    ∃ cs, Shows x cs ((stopped current steps x).advance n).world r := by
  induction n generalizing x current steps with
  | zero => exact ⟨[], shows_of_ended current steps rfl hs⟩
  | succ n ih =>
    obtain ⟨w, p | v | f⟩ := x
    · obtain ⟨cs, h⟩ := ih (some p.owner) (steps + 1) hs
      exact ⟨p.owner :: cs, .step h⟩
    · exact ⟨[], shows_of_ended current steps rfl hs⟩
    · exact ⟨[], shows_of_ended current steps rfl hs⟩

/-- A program that is run without a budget ends, in a world and with a value or a fault, just when
evaluation by recursion in the global scope does. -/
theorem run_ends_iff_evaluates (m : Machine) (hm : m.world.Plain) (p : Program) (w' : World)
    (r : Except Fault Value) :
    (∃ limit, ((m.start p).run limit none).world = w' ∧
      ((m.start p).run limit none).session = ended r) ↔
    Evaluates m.world Scopes.globals (.block p) w' r := by
  constructor
  · rintro ⟨limit, rfl, hs⟩
    obtain ⟨cs, h⟩ := exists_shows none 0 hs
    exact h.evaluates hm
  · intro he
    obtain ⟨calls, hd⟩ := he.dispatches
    obtain ⟨-, hw, hs, -⟩ := observed_of_shows hd.shows none 0 (Nat.le_refl calls.length)
    exact ⟨calls.length, hw, hs⟩

/-- A loop whose body calls a procedure and then gives it another body. -/
def shifting : Program :=
  [.define "f" [] [.call "print" [.number 1 1] 1] 0,
   .call "repeat"
    [.number 2 3,
     .list
      [.call "f" [] 3,
       .define "f" [] [.call "print" [.binary .add (.number 1 4) (.number 1 4) 4] 4] 4] 3] 3,
   .call "print" [.call "f" [] 6] 6]

theorem run_ends_iff_evaluates_shifting :
    ({} : Machine).world.Plain ∧
    ∃ w', Evaluates ({} : Machine).world Scopes.globals (.block shifting) w'
        (.error (.run (.noValue (.call "f" [] 6)) (some (.call "f" [] 6)))) ∧
      w'.output = "1\n2\n2\n" := by
  refine ⟨World.Plain.core, ((({} : Machine).start shifting).run 20 none).world, ?_, ?_⟩
  · refine (run_ends_iff_evaluates {} World.Plain.core shifting _ _).1 ⟨20, rfl, ?_⟩
    decide +kernel
  · decide +kernel

end Machine

end LogoLang
