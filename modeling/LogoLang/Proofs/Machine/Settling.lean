import LogoLang.Machine
import LogoLang.Proofs.Machine.Application

/-!
Moves, stops and steps of a machine. Main statements: a property that every move keeps holds where
evaluation stops, and two evaluations that moves keep related stop in related ways; a step does one
of four things with a waiting word that is no host word; and a property of stops that every step
keeps holds throughout a session.
-/

set_option autoImplicit false

namespace LogoLang

def Move.settle : Move → World × Outcome
  | .next w t stack => w.settle t stack
  | .stop w o => (w, o)

def Move.Leads (P : World → Task → List Frame → Prop) (Q : World → Outcome → Prop) : Move → Prop
  | .next w t stack => P w t stack
  | .stop w o => Q w o

namespace World

theorem settle_eq (w : World) (t : Task) (stack : List Frame) :
    w.settle t stack = (w.move t stack).settle := by
  rw [settle]
  split <;> rename_i hm <;> rw [hm, Move.settle]

variable {P : World → Task → List Frame → Prop} {Q : World → Outcome → Prop}

theorem moveEval_applies {c : Expr} (hc : c.Applies) (w : World) (scope : Scopes.Handle)
    (stack : List Frame) : w.moveEval c scope stack = w.evalArgs c #[] c.operands scope stack := by
  cases c with
  | call name args line => rfl
  | binary op left right line => rfl
  | _ => exact hc.elim

theorem evalArgs_world (w : World) (call : Expr) (done : Array Value) (todo : List Expr)
    (scope : Scopes.Handle) (stack : List Frame) :
    (w.evalArgs call done todo scope stack).Leads (fun w' _ _ => w' = w) (fun w' _ => w' = w) := by
  cases todo <;> rfl

/-- A move changes the world only by a definition. -/
theorem move_world (w : World) (t : Task) (stack : List Frame) :
    (∃ name params body line scope, t = .eval (.define name params body line) scope ∧
      w.move t stack = .next (w.learn name params body) (.give .void) stack) ∨
    (w.move t stack).Leads (fun w' _ _ => w' = w) (fun w' _ => w' = w) := by
  cases t with
  | eval e scope =>
    cases e with
    | define name params body line => exact .inl ⟨name, params, body, line, scope, rfl, rfl⟩
    | var name line =>
      refine .inr ?_
      simp only [move, moveEval]
      split <;> rfl
    | call name args line => exact .inr (evalArgs_world ..)
    | binary op left right line => exact .inr (evalArgs_world w _ _ [left, right] scope stack)
    | nil | number | word | list | group => exact .inr rfl
  | run items scope => rcases items with _ | ⟨e, _ | ⟨e', es⟩⟩ <;> exact .inr rfl
  | give v =>
    cases stack with
    | nil => exact .inr rfl
    | cons f stack =>
      cases f with
      | args call done todo scope => exact .inr (evalArgs_world ..)
      | block items scope => exact .inr rfl
      | loop count items scope => cases count <;> exact .inr rfl

/-- What moves keep holds at the stop. -/
theorem settle_keeps (hm : ∀ w t stack, P w t stack → (w.move t stack).Leads P Q) (w : World)
    (t : Task) (stack : List Frame) (h : P w t stack) :
    Q (w.settle t stack).1 (w.settle t stack).2 := by
  induction w, t, stack using settle.induct with
  | case1 w t stack w' t' stack' hn ih =>
    have hp := hm w t stack h
    rw [hn] at hp
    rw [settle_eq, hn]
    exact ih hp
  | case2 w t stack w' o hs =>
    have hq := hm w t stack h
    rw [hs] at hq
    rw [settle_eq, hs]
    exact hq

theorem settle_keeps_world {P : World → Prop}
    (hl : ∀ w name params body, P w → P (w.learn name params body)) {w : World} (h : P w)
    (t : Task) (stack : List Frame) : P (w.settle t stack).1 := by
  refine settle_keeps (P := fun w _ _ => P w) (Q := fun w _ => P w) ?_ w t stack h
  intro w t stack hw
  rcases move_world w t stack with ⟨name, params, body, line, scope, rfl, hm⟩ | hm
  · rw [hm]
    exact hl _ _ _ _ hw
  · cases hn : w.move t stack with
    | next w' t' stack' =>
      rw [hn] at hm
      exact hm ▸ hw
    | stop w' o =>
      rw [hn] at hm
      exact hm ▸ hw

/-- What moves carry back from where they lead holds at the start. -/
theorem settle_reflects (hm : ∀ w t stack, (w.move t stack).Leads P Q → P w t stack) (w : World)
    (t : Task) (stack : List Frame) (h : Q (w.settle t stack).1 (w.settle t stack).2) :
    P w t stack := by
  induction w, t, stack using settle.induct with
  | case1 w t stack w' t' stack' hn ih =>
    apply hm
    rw [hn]
    rw [settle_eq, hn] at h
    exact ih h
  | case2 w t stack w' o hs =>
    apply hm
    rw [hs]
    rw [settle_eq, hs] at h
    exact h

end World

section Simulation

variable {R : World → Task → List Frame → World → Task → List Frame → Prop}
  {Q : World × Outcome → World × Outcome → Prop}

inductive Move.Both (R : World → Task → List Frame → World → Task → List Frame → Prop)
    (Q : World × Outcome → World × Outcome → Prop) : Move → Move → Prop where
  | next {w w' : World} {t t' : Task} {stack stack' : List Frame}
    (h : R w t stack w' t' stack') : Both R Q (.next w t stack) (.next w' t' stack')
  | stop {w w' : World} {o o' : Outcome} (h : Q (w, o) (w', o')) :
    Both R Q (.stop w o) (.stop w' o')

/-- How two evaluations that are related go on: both move, or one of them does, or it is known
already how they stop. -/
inductive Simulates (R : World → Task → List Frame → World → Task → List Frame → Prop)
    (Q : World × Outcome → World × Outcome → Prop) (w : World) (t : Task) (stack : List Frame)
    (w' : World) (t' : Task) (stack' : List Frame) : Prop where
  | both (h : (w.move t stack).Both R Q (w'.move t' stack'))
  | first {w₁ : World} {t₁ : Task} {stack₁ : List Frame}
    (hm : w.move t stack = .next w₁ t₁ stack₁) (h : R w₁ t₁ stack₁ w' t' stack')
  | second {w₁ : World} {t₁ : Task} {stack₁ : List Frame}
    (hm : w'.move t' stack' = .next w₁ t₁ stack₁) (h : R w t stack w₁ t₁ stack₁)
  | known (h : Q (w.settle t stack) (w'.settle t' stack'))

/-- Evaluations that stay related stop in related ways. -/
theorem settle_relates
    (hr : ∀ w t stack w' t' stack', R w t stack w' t' stack' →
      Simulates R Q w t stack w' t' stack')
    {w w' : World} {t t' : Task} {stack stack' : List Frame} (h : R w t stack w' t' stack') :
    Q (w.settle t stack) (w'.settle t' stack') := by
  -- Each move of either side makes what both have left to do lighter.
  generalize hn : (t.weight + stackWeight stack) + (t'.weight + stackWeight stack') = n
  induction n using Nat.strongRecOn generalizing w w' t t' stack stack' with
  | _ n ih =>
    have hb := World.move_below w t stack
    have hb' := World.move_below w' t' stack'
    cases hr w t stack w' t' stack' h with
    | known hq => exact hq
    | @first w₁ t₁ stack₁ hm h₁ =>
      rw [hm] at hb
      rw [World.settle_eq w, hm]
      exact ih _ (by simp only [Move.Below] at hb; omega) h₁ rfl
    | @second w₁ t₁ stack₁ hm h₁ =>
      rw [hm] at hb'
      rw [World.settle_eq w', hm]
      exact ih _ (by simp only [Move.Below] at hb'; omega) h₁ rfl
    | both hboth =>
      rw [World.settle_eq w, World.settle_eq w']
      generalize w.move t stack = move at hb hboth ⊢
      generalize w'.move t' stack' = move' at hb' hboth ⊢
      cases hboth with
      | next h₁ => exact ih _ (by simp only [Move.Below] at hb hb'; omega) h₁ rfl
      | stop hq => exact hq

end Simulation

/-- The world in which the body of a procedure runs: a new child of the global scope binds the
parameters. -/
def World.entered (w : World) (params : List String) (args : List Value) : World :=
  { w with
    scopes := (w.scopes.addChild Scopes.globals).defineAll w.scopes.next (params.zip args) }

@[simp] theorem World.words_print (w : World) (line : String) :
    (w.print line).words = w.words := by
  unfold World.print
  split <;> rfl

@[simp] theorem World.scopes_print (w : World) (line : String) :
    (w.print line).scopes = w.scopes := by
  unfold World.print
  split <;> rfl

namespace Pending

variable {w : World} {call : Expr} {args : List Value} {scope : Scopes.Handle}
  {stack : List Frame}

theorem proceed_refused {f : Fault} (h : w.Refuses call args f) :
    (Pending.mk call (.apply args scope) stack).proceed w = (w, .failed f) := by
  simp only [proceed, h.apply_eq]

theorem proceed_failed {k : CoreWord} {cause : RunFault} (h : w.Accepts call args (.core k))
    (hk : k.act (call.line?.getD 0) scope args = .error cause) :
    (Pending.mk call (.apply args scope) stack).proceed w =
      (w, .failed (.run cause (some call))) := by
  simp only [proceed, h.apply_eq, World.applyWord, hk, Except.map, Except.mapError]

theorem proceed_core {k : CoreWord} {r : Reply} (h : w.Accepts call args (.core k))
    (hk : k.act (call.line?.getD 0) scope args = .ok r) :
    (Pending.mk call (.apply args scope) stack).proceed w = w.comply call stack r := by
  have hr := CoreWord.act_replies h.counted hk
  simp only [proceed, h.apply_eq, World.applyWord, hk, Except.map, Except.mapError]
  cases hr <;> rfl

theorem proceed_defined {params : List String} {body : List Expr}
    (h : w.Accepts call args (.defined params body)) :
    (Pending.mk call (.apply args scope) stack).proceed w =
      (w.entered params args).settle (.run body w.scopes.next) stack := by
  simp only [proceed, h.apply_eq, World.applyWord, Except.mapError]
  rfl

end Pending

def World.Plain (w : World) : Prop :=
  ∀ name word, w.words.get? name = some word → word.isPlain = true

inductive Performs (w : World) (call : Expr) (args : List Value) (scope : Scopes.Handle)
    (stack : List Frame) : World × Outcome → Prop where
  | refused {f : Fault} (hf : w.Refuses call args f) :
    Performs w call args scope stack (w, .failed f)
  | failed {k : CoreWord} {cause : RunFault} (hw : w.Accepts call args (.core k))
    (hk : k.act (call.line?.getD 0) scope args = .error cause) :
    Performs w call args scope stack (w, .failed (.run cause (some call)))
  | value {k : CoreWord} {v : Value} (hw : w.Accepts call args (.core k))
    (hk : k.act (call.line?.getD 0) scope args = .ok (.value v)) :
    Performs w call args scope stack (w.settle (.give v) stack)
  | say {k : CoreWord} {text : String} (hw : w.Accepts call args (.core k))
    (hk : k.act (call.line?.getD 0) scope args = .ok (.say text)) :
    Performs w call args scope stack ((w.print text).settle (.give .void) stack)
  | run {k : CoreWord} {items : List Expr} {own : Nat} (hw : w.Accepts call args (.core k))
    (hk : k.act (call.line?.getD 0) scope args = .ok (.run items scope))
    (hi : .list items own ∈ args) :
    Performs w call args scope stack (w.settle (.run items scope) stack)
  | loop {k : CoreWord} {n : Nat} {items : List Expr} {own : Nat}
    (hw : w.Accepts call args (.core k))
    (hk : k.act (call.line?.getD 0) scope args = .ok (.loop n items scope))
    (hi : .list items own ∈ args) :
    Performs w call args scope stack (w.settle (.give .void) (.loop n items scope :: stack))
  | enter {params : List String} {body : List Expr}
    (hw : w.Accepts call args (.defined params body)) :
    Performs w call args scope stack
      ((w.entered params args).settle (.run body w.scopes.next) stack)

theorem Pending.performs_proceed {w : World} (hw : w.Plain) (call : Expr) (args : List Value)
    (scope : Scopes.Handle) (stack : List Frame) :
    Performs w call args scope stack ((Pending.mk call (.apply args scope) stack).proceed w) := by
  rcases w.refuses_or_accepts call args with ⟨f, hf⟩ | ⟨word, ha⟩
  · rw [proceed_refused hf]
    exact .refused hf
  cases word with
  | host arity variadic act => cases hw _ _ ha.known
  | defined params body =>
    rw [proceed_defined ha]
    exact .enter ha
  | core k =>
    cases hk : k.act (call.line?.getD 0) scope args with
    | error cause =>
      rw [proceed_failed ha hk]
      exact .failed ha hk
    | ok reply =>
      rw [proceed_core ha hk]
      cases CoreWord.act_replies ha.counted hk with
      | void | number | word | list => exact .value ha hk
      | say text => exact .say ha hk
      | run own hi => exact .run ha hk hi
      | loop own count hi => exact .loop ha hk hi

namespace World.Plain

variable {w : World}

theorem core : ({} : World).Plain := by
  intro name word h
  obtain ⟨k, rfl, -⟩ := Registry.get?_core h
  rfl

theorem learn (hw : w.Plain) (name : String) (params : List String) (body : List Expr) :
    (w.learn name params body).Plain := by
  intro other word
  simp only [World.learn, Table.get?_insert]
  split
  · rintro ⟨⟩
    rfl
  · exact hw other word

theorem settle (hw : w.Plain) (t : Task) (stack : List Frame) : (w.settle t stack).1.Plain :=
  settle_keeps_world (fun _ name params body hw => hw.learn name params body) hw t stack

theorem print (hw : w.Plain) (line : String) : (w.print line).Plain := by
  simpa only [World.Plain, words_print] using hw

theorem entered (hw : w.Plain) (params : List String) (args : List Value) :
    (w.entered params args).Plain := hw

theorem proceed (hw : w.Plain) (p : Pending) : (p.proceed w).1.Plain := by
  obtain ⟨call, resume, stack⟩ := p
  cases resume with
  | give v => exact hw.settle _ _
  | apply args scope =>
    have hp := Pending.performs_proceed hw call args scope stack
    generalize (Pending.mk call (.apply args scope) stack).proceed w = x at hp ⊢
    cases hp with
    | refused hf => exact hw
    | failed ha hk => exact hw
    | value ha hk => exact hw.settle _ _
    | say ha hk => exact (hw.print _).settle _ _
    | run ha hk hi => exact hw.settle _ _
    | loop ha hk hi => exact hw.settle _ _
    | enter ha => exact (hw.entered _ _).settle _ _

end World.Plain

namespace Machine

variable {Q : World → Outcome → Prop}

def StopsWith (Q : World → Outcome → Prop) (m : Machine) : Prop :=
  ∃ current steps w o, Q w o ∧ m = stopped current steps (w, o)

theorem advance_keeps (hq : ∀ w p, Q w (.waiting p) → Q (p.proceed w).1 (p.proceed w).2) (n : Nat)
    {m : Machine} (h : m.StopsWith Q) : (m.advance n).StopsWith Q := by
  induction n generalizing m with
  | zero => exact h
  | succ n ih =>
    obtain ⟨current, steps, w, o, ho, rfl⟩ := h
    cases o with
    | waiting p => exact ih ⟨some p.owner, steps + 1, _, _, hq w p ho, rfl⟩
    | done v =>
      rw [advance_eq_self _ rfl]
      exact ⟨current, steps, w, _, ho, rfl⟩
    | failed f =>
      rw [advance_eq_self _ rfl]
      exact ⟨current, steps, w, _, ho, rfl⟩

theorem world_stopped (current : Option Expr) (steps : Nat) (x : World × Outcome) :
    (stopped current steps x).world = x.1 := by
  obtain ⟨w, p | v | x⟩ := x <;> rfl

theorem plain_start {m : Machine} (hm : m.world.Plain) (p : Program) :
    (m.start p).world.Plain := by
  rw [start, world_stopped]
  exact hm.settle _ _

theorem plain_step {m : Machine} (hm : m.world.Plain) : m.step.world.Plain := by
  obtain ⟨w, _ | p | v | x, current, steps⟩ := m
  · exact hm
  · rw [step, world_stopped]
    exact World.Plain.proceed hm p
  · exact hm
  · exact hm

theorem plain_advance {m : Machine} (hm : m.world.Plain) (n : Nat) :
    (m.advance n).world.Plain := by
  induction n generalizing m with
  | zero => exact hm
  | succ n ih =>
    simp only [advance]
    split
    · exact ih (plain_step hm)
    · exact hm

theorem plain_run {m : Machine} (hm : m.world.Plain) (limit : Nat) (budget : Option Nat) :
    (m.run limit budget).world.Plain := by
  cases budget with
  | none => exact plain_advance hm limit
  | some n =>
    have h := plain_advance hm (n - m.steps)
    simp only [run, runWithin, exhaust]
    split <;> exact h

end Machine

end LogoLang
