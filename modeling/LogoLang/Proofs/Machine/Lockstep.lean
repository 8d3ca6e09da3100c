import LogoLang.Proofs.Machine.Lines
import LogoLang.Proofs.Machine.Scoping

/-!
Two machines in step. A session sees the words and the global bindings of its machine and nothing
else: not the order of the words, not the scopes that earlier sessions have left in the store, and
not what they have printed. Main statement: sessions of one program on two machines with the same
words and global bindings go the same way, up to the handles of the scopes.
-/

set_option autoImplicit false

namespace LogoLang

def World.Printed (start : World) (text : String) (w : World) : Prop :=
  w.silent = start.silent ∧ w.output = start.output ++ if start.silent then "" else text

theorem World.Printed.print {start w : World} {text : String} (h : start.Printed text w)
    (line : String) : start.Printed (text ++ line ++ "\n") (w.print line) := by
  obtain ⟨hs, ho⟩ := h
  cases hb : start.silent with
  | true =>
    rw [hb] at hs
    simpa [Printed, World.print, hs, hb] using ho
  | false =>
    rw [hb] at hs
    simp [Printed, World.print, hs, hb, ho, String.append_assoc]

/-- The worlds have the same words and the same global bindings. -/
structure World.Agrees (s₁ s₂ : World) : Prop where
  words : ∀ name, s₁.words.get? name = s₂.words.get? name
  rooted₁ : s₁.scopes.Rooted
  rooted₂ : s₂.scopes.Rooted
  globals : ∀ name, s₁.scopes.own? Scopes.globals name = s₂.scopes.own? Scopes.globals name

/-- The worlds have come from two others by the same definitions, calls and prints. -/
structure World.InStep (s₁ s₂ w₁ w₂ : World) : Prop where
  words : ∀ name, w₁.words.get? name = w₂.words.get? name
  scopes : ∃ calls, w₁.scopes = s₁.scopes.after calls ∧ w₂.scopes = s₂.scopes.after calls
  printed : ∃ text, s₁.Printed text w₁ ∧ s₂.Printed text w₂

/-- The handles stand for the global scope, or for the scope of the same call. -/
inductive SameScope (s₁ s₂ : World) : Scopes.Handle → Scopes.Handle → Prop where
  | globals : SameScope s₁ s₂ Scopes.globals Scopes.globals
  | call (i : Nat) : SameScope s₁ s₂ (s₁.scopes.next + i) (s₂.scopes.next + i)

inductive Task.InStep (s₁ s₂ : World) : Task → Task → Prop where
  | eval {h₁ h₂ : Scopes.Handle} (e : Expr) (h : SameScope s₁ s₂ h₁ h₂) :
    InStep s₁ s₂ (.eval e h₁) (.eval e h₂)
  | run {h₁ h₂ : Scopes.Handle} (items : List Expr) (h : SameScope s₁ s₂ h₁ h₂) :
    InStep s₁ s₂ (.run items h₁) (.run items h₂)
  | give (v : Value) : InStep s₁ s₂ (.give v) (.give v)

inductive Frame.InStep (s₁ s₂ : World) : Frame → Frame → Prop where
  | args {h₁ h₂ : Scopes.Handle} (call : Expr) (done : Array Value) (todo : List Expr)
    (h : SameScope s₁ s₂ h₁ h₂) : InStep s₁ s₂ (.args call done todo h₁) (.args call done todo h₂)
  | block {h₁ h₂ : Scopes.Handle} (items : List Expr) (h : SameScope s₁ s₂ h₁ h₂) :
    InStep s₁ s₂ (.block items h₁) (.block items h₂)
  | loop {h₁ h₂ : Scopes.Handle} (n : Nat) (items : List Expr) (h : SameScope s₁ s₂ h₁ h₂) :
    InStep s₁ s₂ (.loop n items h₁) (.loop n items h₂)

inductive Outcome.InStep (s₁ s₂ : World) : Outcome → Outcome → Prop where
  | waiting {h₁ h₂ : Scopes.Handle} {stack₁ stack₂ : List Frame} (call : Expr)
    (args : List Value) (h : SameScope s₁ s₂ h₁ h₂)
    (hs : List.Forall₂ (Frame.InStep s₁ s₂) stack₁ stack₂) :
    InStep s₁ s₂ (.waiting ⟨call, .apply args h₁, stack₁⟩) (.waiting ⟨call, .apply args h₂, stack₂⟩)
  | done (v : Value) : InStep s₁ s₂ (.done v) (.done v)
  | failed (x : Fault) : InStep s₁ s₂ (.failed x) (.failed x)

inductive Move.InStep (s₁ s₂ : World) : Move → Move → Prop where
  | next {w₁ w₂ : World} {t₁ t₂ : Task} {stack₁ stack₂ : List Frame} (hw : s₁.InStep s₂ w₁ w₂)
    (ht : t₁.InStep s₁ s₂ t₂) (hs : List.Forall₂ (Frame.InStep s₁ s₂) stack₁ stack₂) :
    InStep s₁ s₂ (.next w₁ t₁ stack₁) (.next w₂ t₂ stack₂)
  | stop {w₁ w₂ : World} {o₁ o₂ : Outcome} (hw : s₁.InStep s₂ w₁ w₂)
    (ho : o₁.InStep s₁ s₂ o₂) : InStep s₁ s₂ (.stop w₁ o₁) (.stop w₂ o₂)

def Reply.inScope (h : Scopes.Handle) : Reply → Reply
  | .run items _ => .run items h
  | .twice items _ => .twice items h
  | .loop n items _ => .loop n items h
  | r => r

theorem Reply.inScope_value (h : Scopes.Handle) (x : Except RunFault Value) :
    Reply.inScope h <$> Reply.value <$> x = Reply.value <$> x := by
  cases x <;> rfl

/-- A core word does not look into the scope it is called in. -/
theorem CoreWord.act_inScope (w : CoreWord) (line : Nat) (h h' : Scopes.Handle)
    (args : List Value) : w.act line h' args = Reply.inScope h' <$> w.act line h args := by
  unfold act
  split <;> simp only [map_bind, map_pure, Except.map_error, Reply.inScope_value,
    apply_ite (Reply.inScope h')] <;> rfl

variable {s₁ s₂ w₁ w₂ : World}

namespace World.InStep

theorem start (h : s₁.Agrees s₂) : s₁.InStep s₂ s₁ s₂ :=
  ⟨h.words, ⟨[], by simp⟩, ⟨"", by simp [Printed]⟩⟩

theorem learn (h : s₁.InStep s₂ w₁ w₂) (name : String) (params : List String)
    (body : List Expr) : s₁.InStep s₂ (w₁.learn name params body) (w₂.learn name params body) :=
  ⟨fun other => by simp only [World.learn, Table.get?_insert, h.words], h.scopes, h.printed⟩

theorem print (h : s₁.InStep s₂ w₁ w₂) (line : String) :
    s₁.InStep s₂ (w₁.print line) (w₂.print line) := by
  obtain ⟨text, h₁, h₂⟩ := h.printed
  exact ⟨by simpa using h.words, by simpa using h.scopes, ⟨_, h₁.print line, h₂.print line⟩⟩

theorem entered (h : s₁.InStep s₂ w₁ w₂) (params : List String) (args : List Value) :
    s₁.InStep s₂ (w₁.entered params args) (w₂.entered params args) := by
  obtain ⟨calls, h₁, h₂⟩ := h.scopes
  exact ⟨h.words, ⟨_, scopes_entered h₁ 0 params args 0, scopes_entered h₂ 0 params args 0⟩,
    h.printed⟩

theorem next (h : s₁.InStep s₂ w₁ w₂) : SameScope s₁ s₂ w₁.scopes.next w₂.scopes.next := by
  obtain ⟨calls, h₁, h₂⟩ := h.scopes
  rw [h₁, h₂, Scopes.next_after, Scopes.next_after]
  exact .call calls.length

theorem lookup (hs : s₁.Agrees s₂) (h : s₁.InStep s₂ w₁ w₂) {h₁ h₂ : Scopes.Handle}
    (hh : SameScope s₁ s₂ h₁ h₂) (name : String) :
    w₁.scopes.lookup h₁ name = w₂.scopes.lookup h₂ name := by
  obtain ⟨calls, hw₁, hw₂⟩ := h.scopes
  rw [hw₁, hw₂]
  cases hh with
  | globals =>
    rw [Scopes.lookup_after_globals hs.rooted₁, Scopes.lookup_after_globals hs.rooted₂, hs.globals]
  | call i =>
    simp only [Scopes.lookup_after_add hs.rooted₁, Scopes.lookup_after_add hs.rooted₂, hs.globals]

theorem own? (hs : s₁.Agrees s₂) (h : s₁.InStep s₂ w₁ w₂) {h₁ h₂ : Scopes.Handle}
    (hh : SameScope s₁ s₂ h₁ h₂) (name : String) :
    w₁.scopes.own? h₁ name = w₂.scopes.own? h₂ name := by
  obtain ⟨calls, hw₁, hw₂⟩ := h.scopes
  rw [hw₁, hw₂]
  cases hh with
  | globals =>
    rw [Scopes.own?_after_of_lt hs.rooted₁, Scopes.own?_after_of_lt hs.rooted₂, hs.globals]
  | call i => simp only [Scopes.own?, Scopes.getElem?_after_add]

theorem refuses (h : s₁.InStep s₂ w₁ w₂) {call : Expr} {args : List Value} {x : Fault}
    (hx : w₁.Refuses call args x) : w₂.Refuses call args x := by
  cases hx with
  | unknown hw => exact .unknown ((h.words _).symm.trans hw)
  | noValue hw ha hb he => exact .noValue ((h.words _).symm.trans hw) ha hb he
  | miscounted hw hv ht => exact .miscounted ((h.words _).symm.trans hw) hv ht

theorem accepts (h : s₁.InStep s₂ w₁ w₂) {call : Expr} {args : List Value} {word : Word}
    (ha : w₁.Accepts call args word) : w₂.Accepts call args word :=
  ⟨(h.words _).symm.trans ha.known, ha.valued, ha.counted⟩

end World.InStep

section

variable {h₁ h₂ : Scopes.Handle} {stack₁ stack₂ : List Frame}

theorem inStep_evalArgs (hw : s₁.InStep s₂ w₁ w₂) (call : Expr) (done : Array Value)
    (todo : List Expr) (hh : SameScope s₁ s₂ h₁ h₂)
    (hs : List.Forall₂ (Frame.InStep s₁ s₂) stack₁ stack₂) :
    (w₁.evalArgs call done todo h₁ stack₁).InStep s₁ s₂
      (w₂.evalArgs call done todo h₂ stack₂) := by
  cases todo with
  | nil => exact .stop hw (.waiting call done.toList hh hs)
  | cons e es => exact .next hw (.eval e hh) (.cons (.args call done es hh) hs)

theorem inStep_moveEval (ha : s₁.Agrees s₂) (hw : s₁.InStep s₂ w₁ w₂) (e : Expr)
    (hh : SameScope s₁ s₂ h₁ h₂) (hs : List.Forall₂ (Frame.InStep s₁ s₂) stack₁ stack₂) :
    (w₁.moveEval e h₁ stack₁).InStep s₁ s₂ (w₂.moveEval e h₂ stack₂) := by
  cases e with
  | call name args line => exact inStep_evalArgs hw _ #[] args hh hs
  | binary op left right line => exact inStep_evalArgs hw _ #[] [left, right] hh hs
  | group inner line => exact .next hw (.eval inner hh) hs
  | define name params body line => exact .next (hw.learn name params body) (.give .void) hs
  | var name line =>
    simp only [World.moveEval, hw.lookup ha hh name]
    split
    · exact .next hw (.give _) hs
    · exact .stop hw (.failed _)
  | nil | number | word | list => exact .next hw (.give _) hs

theorem inStep_moveRun (hw : s₁.InStep s₂ w₁ w₂) (items : List Expr)
    (hh : SameScope s₁ s₂ h₁ h₂) (hs : List.Forall₂ (Frame.InStep s₁ s₂) stack₁ stack₂) :
    (w₁.moveRun items h₁ stack₁).InStep s₁ s₂ (w₂.moveRun items h₂ stack₂) := by
  rcases items with _ | ⟨e, _ | ⟨e', es⟩⟩
  · exact .next hw (.give .void) hs
  · exact .next hw (.eval e hh) hs
  · exact .next hw (.eval e hh) (.cons (.block (e' :: es) hh) hs)

theorem inStep_moveGive (hw : s₁.InStep s₂ w₁ w₂) (v : Value)
    (hs : List.Forall₂ (Frame.InStep s₁ s₂) stack₁ stack₂) :
    (w₁.moveGive v stack₁).InStep s₁ s₂ (w₂.moveGive v stack₂) := by
  cases hs with
  | nil => exact .stop hw (.done v)
  | cons hf hs =>
    cases hf with
    | args call done todo hh => exact inStep_evalArgs hw call (done.push v) todo hh hs
    | block items hh => exact .next hw (.run items hh) hs
    | loop n items hh =>
      cases n with
      | zero => exact .next hw (.give .void) hs
      | succ n => exact .next hw (.run items hh) (.cons (.loop n items hh) hs)

theorem inStep_move (ha : s₁.Agrees s₂) (hw : s₁.InStep s₂ w₁ w₂) {t₁ t₂ : Task}
    (ht : t₁.InStep s₁ s₂ t₂) (hs : List.Forall₂ (Frame.InStep s₁ s₂) stack₁ stack₂) :
    (w₁.move t₁ stack₁).InStep s₁ s₂ (w₂.move t₂ stack₂) := by
  cases ht with
  | eval e hh => exact inStep_moveEval ha hw e hh hs
  | run items hh => exact inStep_moveRun hw items hh hs
  | give v => exact inStep_moveGive hw v hs

end

def Abreast (s₁ s₂ : World) (x₁ x₂ : World × Outcome) : Prop :=
  s₁.InStep s₂ x₁.1 x₂.1 ∧ x₁.2.InStep s₁ s₂ x₂.2

theorem inStep_settle (ha : s₁.Agrees s₂) (hw : s₁.InStep s₂ w₁ w₂) {t₁ t₂ : Task}
    (ht : t₁.InStep s₁ s₂ t₂) {stack₁ stack₂ : List Frame}
    (hs : List.Forall₂ (Frame.InStep s₁ s₂) stack₁ stack₂) :
    Abreast s₁ s₂ (w₁.settle t₁ stack₁) (w₂.settle t₂ stack₂) := by
  refine settle_relates (Q := Abreast s₁ s₂)
    (R := fun w₁ t₁ stack₁ w₂ t₂ stack₂ => s₁.InStep s₂ w₁ w₂ ∧ t₁.InStep s₁ s₂ t₂ ∧
      List.Forall₂ (Frame.InStep s₁ s₂) stack₁ stack₂) ?_ ⟨hw, ht, hs⟩
  rintro w₁ t₁ stack₁ w₂ t₂ stack₂ ⟨hw, ht, hs⟩
  have hm := inStep_move ha hw ht hs
  refine .both ?_
  generalize w₁.move t₁ stack₁ = move₁, w₂.move t₂ stack₂ = move₂ at hm ⊢
  cases hm with
  | next hw' ht' hs' => exact .next ⟨hw', ht', hs'⟩
  | stop hw' ho' => exact .stop ⟨hw', ho'⟩

theorem inStep_proceed (ha : s₁.Agrees s₂) (hw : s₁.InStep s₂ w₁ w₂) (hp : w₁.Plain)
    {h₁ h₂ : Scopes.Handle} {stack₁ stack₂ : List Frame} (call : Expr) (args : List Value)
    (hh : SameScope s₁ s₂ h₁ h₂) (hs : List.Forall₂ (Frame.InStep s₁ s₂) stack₁ stack₂) :
    Abreast s₁ s₂ ((Pending.mk call (.apply args h₁) stack₁).proceed w₁)
      ((Pending.mk call (.apply args h₂) stack₂).proceed w₂) := by
  have reply {k : CoreWord} {r : Reply} (hk : k.act (call.line?.getD 0) h₁ args = .ok r) :
      k.act (call.line?.getD 0) h₂ args = .ok (r.inScope h₂) := by
    rw [k.act_inScope _ h₁ h₂, hk]
    rfl
  have hx := Pending.performs_proceed hp call args h₁ stack₁
  generalize (Pending.mk call (.apply args h₁) stack₁).proceed w₁ = x at hx ⊢
  cases hx with
  | refused hf =>
    rw [Pending.proceed_refused (hw.refuses hf)]
    exact ⟨hw, .failed _⟩
  | @failed k cause hc hk =>
    have hk' : k.act (call.line?.getD 0) h₂ args = .error cause := by
      rw [k.act_inScope _ h₁ h₂, hk]
      rfl
    rw [Pending.proceed_failed (hw.accepts hc) hk']
    exact ⟨hw, .failed _⟩
  | value hc hk =>
    rw [Pending.proceed_core (hw.accepts hc) (reply hk)]
    exact inStep_settle ha hw (.give _) hs
  | say hc hk =>
    rw [Pending.proceed_core (hw.accepts hc) (reply hk)]
    exact inStep_settle ha (hw.print _) (.give _) hs
  | run hc hk =>
    rw [Pending.proceed_core (hw.accepts hc) (reply hk)]
    exact inStep_settle ha hw (.run _ hh) hs
  | loop hc hk =>
    rw [Pending.proceed_core (hw.accepts hc) (reply hk)]
    exact inStep_settle ha hw (.give _) (.cons (.loop _ _ hh) hs)
  | enter hc =>
    rw [Pending.proceed_defined (hw.accepts hc)]
    exact inStep_settle ha (hw.entered _ _) (.run _ hw.next) hs

namespace Machine

/-- The machines have come to stops in step, after as many steps and at the same expression. -/
def InStep (s₁ s₂ : World) (m₁ m₂ : Machine) : Prop :=
  ∃ current steps x₁ x₂, Abreast s₁ s₂ x₁ x₂ ∧ x₁.1.Plain ∧ m₁ = stopped current steps x₁ ∧
    m₂ = stopped current steps x₂

theorem InStep.world {m₁ m₂ : Machine} (h : m₁.InStep s₁ s₂ m₂) :
    s₁.InStep s₂ m₁.world m₂.world := by
  obtain ⟨current, steps, x₁, x₂, ⟨hw, -⟩, -, rfl, rfl⟩ := h
  rwa [world_stopped, world_stopped]

theorem InStep.observed {m₁ m₂ : Machine} (h : m₁.InStep s₁ s₂ m₂) :
    m₁.stateName = m₂.stateName ∧ m₁.steps = m₂.steps ∧ m₁.value? = m₂.value? ∧
      m₁.current = m₂.current ∧ m₁.fault? = m₂.fault? := by
  obtain ⟨current, steps, ⟨w₁, o₁⟩, ⟨w₂, o₂⟩, ⟨-, ho⟩, -, rfl, rfl⟩ := h
  cases ho <;> exact ⟨rfl, rfl, rfl, rfl, rfl⟩

theorem InStep.advance (ha : s₁.Agrees s₂) (n : Nat) {m₁ m₂ : Machine} (h : m₁.InStep s₁ s₂ m₂) :
    (m₁.advance n).InStep s₁ s₂ (m₂.advance n) := by
  induction n generalizing m₁ m₂ with
  | zero => exact h
  | succ n ih =>
    obtain ⟨current, steps, ⟨w₁, o₁⟩, ⟨w₂, o₂⟩, ⟨hw, ho⟩, hp, rfl, rfl⟩ := h
    cases ho with
    | waiting call args hh hs =>
      exact ih ⟨some call, steps + 1, _, _, inStep_proceed ha hw hp call args hh hs,
        hp.proceed _, rfl, rfl⟩
    | done v => exact ⟨current, steps, _, _, ⟨hw, .done v⟩, hp, rfl, rfl⟩
    | failed x => exact ⟨current, steps, _, _, ⟨hw, .failed x⟩, hp, rfl, rfl⟩

/-- Sessions of one program go the same way on machines with the same words and global bindings. -/
theorem inStep_advance_start {m₁ m₂ : Machine} (ha : m₁.world.Agrees m₂.world)
    (hp : m₁.world.Plain) (p : Program) (n : Nat) :
    ((m₁.start p).advance n).InStep m₁.world m₂.world ((m₂.start p).advance n) := by
  refine InStep.advance ha n ⟨none, 0, _, _, ?_, hp.settle _ _, rfl, rfl⟩
  exact inStep_settle ha (.start ha) (.run p .globals) .nil

end Machine

end LogoLang
