import LogoLang.Proofs.Machine.Code
import LogoLang.Proofs.Machine.Lockstep

/-!
Where code comes from. Lists are code and data at once, and words build lists, but no word builds
anything other than literals. Main statement: every call, operation, definition, reference and
parenthesis that a session ever holds, its line included, was there at the start: in the program, in
a procedure or in a list that was bound globally.
-/

set_option autoImplicit false

namespace LogoLang

variable {P : Expr → Prop}

theorem Expr.not_isLiteral_of_applies {c : Expr} (h : c.Applies) : ¬ c.IsLiteral := by
  cases c with
  | call | binary => exact id
  | _ => exact h.elim

inductive Outcome.All (P : Expr → Prop) : Outcome → Prop where
  | waiting {call : Expr} {args : List Value} {scope : Scopes.Handle} {stack : List Frame}
    (hc : call.Collects P args []) (hs : ∀ f ∈ stack, f.All P) :
    All P (.waiting ⟨call, .apply args scope, stack⟩)
  | done {v : Value} (hv : v.All P) : All P (.done v)
  | failed (x : Fault) : All P (.failed x)

theorem above_nil_iff {stack : List Frame} : Above P [] stack ↔ ∀ f ∈ stack, f.All P := by
  simp [Above]

theorem Keeps.all {w : World} {o : Outcome} (h : Keeps P [] w o) : w.All P ∧ o.All P := by
  cases h with
  | waiting hw hc hs => exact ⟨hw, .waiting hc (above_nil_iff.1 hs)⟩
  | done hw hv => exact ⟨hw, .done hv⟩
  | unbound hw hv => exact ⟨hw, .failed _⟩

theorem all_settle {w : World} {t : Task} {stack : List Frame} (h : Holds P [] w t stack) :
    (w.settle t stack).1.All P ∧ (w.settle t stack).2.All P := by
  refine World.settle_keeps (P := Holds P []) (Q := fun w o => w.All P ∧ o.All P) ?_ w t stack h
  intro w t stack h
  by_cases hend : ∃ v, t = .give v ∧ stack = []
  · obtain ⟨v, rfl, rfl⟩ := hend
    exact ⟨h.world, .done h.task⟩
  · have hm := holds_move h fun v hv hs => hend ⟨v, hv, hs⟩
    cases hn : w.move t stack with
    | next w' t' stack' => rwa [hn] at hm
    | stop w' o =>
      rw [hn] at hm
      exact hm.all

theorem all_proceed (hl : ∀ e : Expr, e.IsLiteral → P e) {w : World} (hp : w.Plain)
    (hw : w.All P) {q : Pending} (hq : (Outcome.waiting q).All P) :
    (q.proceed w).1.All P ∧ (q.proceed w).2.All P := by
  cases hq with
  | waiting hc hs =>
    rcases holds_proceed hl hp hw hc (above_nil_iff.2 hs) with
      ⟨x, hx, -⟩ | ⟨w', t, stack', hx, -, hh⟩
    · rw [hx]
      exact ⟨hw, .failed x⟩
    · rw [hx]
      exact all_settle hh

def Frame.values : Frame → List Value
  | .args _ done _ _ => done.toList
  | _ => []

def Pending.values (q : Pending) : List Value :=
  match q.resume with
  | .apply args _ => args ++ q.stack.flatMap Frame.values
  | .give v => v :: q.stack.flatMap Frame.values

theorem Frame.All.values {f : Frame} (h : f.All P) : ∀ v ∈ f.values, v.All P := by
  cases f with
  | args call done todo scope =>
    exact fun v hv => (h .void trivial).values v (List.mem_append_left _ hv)
  | block | loop => simp [Frame.values]

theorem Outcome.All.values {q : Pending} (h : (Outcome.waiting q).All P) :
    ∀ v ∈ q.values, v.All P := by
  cases h with
  | waiting hc hs =>
    intro v hv
    rcases List.mem_append.1 hv with hv | hv
    · exact hc.values v hv
    · obtain ⟨f, hf, hv⟩ := List.mem_flatMap.1 hv
      exact (hs f hf).values v hv

theorem Frame.InStep.values {s₁ s₂ : World} {f₁ f₂ : Frame} (h : f₁.InStep s₁ s₂ f₂) :
    f₁.values = f₂.values := by
  cases h <;> rfl

theorem flatMap_values {s₁ s₂ : World} {stack₁ stack₂ : List Frame}
    (h : List.Forall₂ (Frame.InStep s₁ s₂) stack₁ stack₂) :
    stack₁.flatMap Frame.values = stack₂.flatMap Frame.values := by
  induction h with
  | nil => rfl
  | cons hf hs ih => rw [List.flatMap_cons, List.flatMap_cons, hf.values, ih]

def Scopes.root (s : Scopes) : Scopes := ⟨s.cells[globals]?.toList.toArray⟩

theorem Scopes.getElem?_root (s : Scopes) (h : Handle) :
    s.root.cells[h]? = if h = globals then s.cells[globals]? else none := by
  rw [root]
  cases s.cells[globals]? with
  | none => simp
  | some c => cases h <;> simp [globals]

theorem Scopes.own?_root (s : Scopes) (h : Handle) (name : String) :
    s.root.own? h name = if h = globals then s.own? globals name else none := by
  simp only [own?, getElem?_root]
  split <;> rfl

theorem Scopes.rooted_root {s : Scopes} (hs : s.Rooted) : s.root.Rooted := by
  obtain ⟨c, hc⟩ : ∃ c, s.cells[globals]? = some c := ⟨_, Array.getElem?_eq_getElem hs⟩
  rw [Rooted, root, hc]
  exact Nat.zero_lt_one

namespace Machine

def All (P : Expr → Prop) (m : Machine) : Prop :=
  ∃ current steps w o, w.Plain ∧ w.All P ∧ o.All P ∧
    (∀ c, current = some c → c.Applies ∧ c.All P) ∧ m = stopped current steps (w, o)

theorem All.advance (hl : ∀ e : Expr, e.IsLiteral → P e) (n : Nat) {m : Machine}
    (h : m.All P) : (m.advance n).All P := by
  induction n generalizing m with
  | zero => exact h
  | succ n ih =>
    obtain ⟨current, steps, w, o, hp, hw, ho, hc, rfl⟩ := h
    cases o with
    | waiting q =>
      obtain ⟨hw', ho'⟩ := all_proceed hl hp hw ho
      refine ih ⟨some q.owner, steps + 1, _, _, hp.proceed q, hw', ho', ?_, rfl⟩
      cases ho with
      | waiting hcall hs =>
        rintro c ⟨⟩
        exact ⟨hcall.applies, hcall.all⟩
    | done v =>
      rw [advance_eq_self _ rfl]
      exact ⟨current, steps, w, _, hp, hw, ho, hc, rfl⟩
    | failed x =>
      rw [advance_eq_self _ rfl]
      exact ⟨current, steps, w, _, hp, hw, ho, hc, rfl⟩

theorem all_advance_start (hl : ∀ e : Expr, e.IsLiteral → P e) {m : Machine}
    (hp : m.world.Plain) (hw : m.world.All P) {p : Program} (hc : ∀ e ∈ p, e.All P) (n : Nat) :
    ((m.start p).advance n).All P := by
  have hs : Holds P [] m.world (.run p Scopes.globals) [] :=
    ⟨hw, hc, above_nil_iff.2 (by simp)⟩
  obtain ⟨hw', ho⟩ := all_settle hs
  exact All.advance hl n ⟨none, 0, _, _, hp.settle _ _, hw', ho, by simp, rfl⟩

theorem All.current {m : Machine} (h : m.All P) {c : Expr} (hc : m.current = some c) :
    c.Applies ∧ c.All P := by
  obtain ⟨current, steps, w, o, -, -, ho, hcurrent, rfl⟩ := h
  cases ho with
  | waiting hcall hs =>
    cases hc
    exact ⟨hcall.applies, hcall.all⟩
  | done hv => cases hc
  | failed x => exact hcurrent c hc

theorem All.world {m : Machine} (h : m.All P) : m.world.All P := by
  obtain ⟨current, steps, w, o, -, hw, -, -, rfl⟩ := h
  rwa [world_stopped]

theorem All.value {m : Machine} (h : m.All P) {v : Value} (hv : m.value? = some v) : v.All P := by
  obtain ⟨current, steps, w, o, -, -, ho, -, rfl⟩ := h
  cases ho with
  | done hv' =>
    cases hv
    exact hv'
  | waiting | failed => cases hv

theorem All.arguments {m : Machine} (h : m.All P) {q : Pending} (hq : m.session = .pending q) :
    ∀ v ∈ q.values, v.All P := by
  obtain ⟨current, steps, w, o, -, -, ho, -, rfl⟩ := h
  cases o with
  | waiting q' =>
    cases hq
    exact ho.values
  | done | failed => cases hq

theorem InStep.arguments {s₁ s₂ : World} {m₁ m₂ : Machine} (h : m₁.InStep s₁ s₂ m₂)
    {q₁ : Pending} (hq : m₁.session = .pending q₁) :
    ∃ q₂, m₂.session = .pending q₂ ∧ q₁.values = q₂.values := by
  obtain ⟨current, steps, ⟨w₁, o₁⟩, ⟨w₂, o₂⟩, ⟨-, ho⟩, -, rfl, rfl⟩ := h
  cases ho with
  | waiting call args hh hs =>
    cases hq
    exact ⟨_, rfl, congrArg (args ++ ·) (flatMap_values hs)⟩
  | done | failed => cases hq

/-- The machine without the scopes that no session to come can see. -/
def tidied (m : Machine) : Machine := { m with world.scopes := m.world.scopes.root }

theorem agrees_tidied {m : Machine} (hs : m.world.scopes.Rooted) :
    m.world.Agrees m.tidied.world :=
  ⟨fun _ => rfl, hs, Scopes.rooted_root hs,
    fun name => (Scopes.own?_root m.world.scopes Scopes.globals name).symm⟩

/-- The node stands in the program, in the body of a procedure, or in a list that is bound
globally. -/
inductive Original (m : Machine) (p : Program) (d : Expr) : Prop where
  | program {e : Expr} (he : e ∈ p) (hd : d.Within e)
  | body {name : String} {params : List String} {body : List Expr} {e : Expr}
    (hw : m.world.words.get? name = some (.defined params body)) (he : e ∈ body) (hd : d.Within e)
  | value {name : String} {items : List Expr} {line : Nat} {e : Expr}
    (hv : m.global? name = some (.list items line)) (he : e ∈ items) (hd : d.Within e)

def Genuine (m : Machine) (p : Program) (d : Expr) : Prop := d.IsLiteral ∨ m.Original p d

theorem genuine_tidied (m : Machine) (p : Program) : m.tidied.world.All (m.Genuine p) := by
  refine ⟨fun name params body hw e he d hd => .inr (.body hw he hd), fun h name v hv => ?_⟩
  have hv' : (if h = Scopes.globals then m.world.scopes.own? Scopes.globals name else none) =
      some v := (Scopes.own?_root ..).symm.trans hv
  rw [Option.ite_none_right_eq_some] at hv'
  have hg : m.global? name = some v := (Scopes.lookup_globals ..).trans hv'.2
  cases v with
  | list items line => exact fun e he d hd => .inr (.value hg he hd)
  | void | nil | number | word => trivial

/-- A machine without host words runs a program. Wherever it has come, the current expression is a
call or an operation that was there at the start, and every node of the procedures, of the global
bindings, of the bindings in scopes of this session, of the arguments that wait and of the result is
a literal or was there at the start. -/
theorem code_is_original (m : Machine) (hm : m.world.Plain) (hs : m.world.scopes.Rooted)
    (p : Program) (n : Nat) :
    (∀ c, ((m.start p).advance n).current = some c → c.Applies ∧ m.Original p c) ∧
    (∀ name params body, ((m.start p).advance n).world.words.get? name =
      some (.defined params body) → ∀ e ∈ body, e.All (m.Genuine p)) ∧
    (∀ h, h = Scopes.globals ∨ m.world.scopes.next ≤ h → ∀ name v,
      ((m.start p).advance n).world.scopes.own? h name = some v → v.All (m.Genuine p)) ∧
    (∀ q, ((m.start p).advance n).session = .pending q → ∀ v ∈ q.values,
      v.All (m.Genuine p)) ∧
    ∀ v, ((m.start p).advance n).value? = some v → v.All (m.Genuine p) := by
  -- A tidied machine runs in step, and all scopes that it ever has are those of this session.
  have ha := agrees_tidied hs
  have hstep := inStep_advance_start ha hm p n
  have hall : ((m.tidied.start p).advance n).All (m.Genuine p) :=
    all_advance_start (fun e he => .inl he) (m := m.tidied) hm (genuine_tidied m p)
      (fun e he d hd => .inr (.program he hd)) n
  obtain ⟨-, -, hvalue, hcurrent, -⟩ := hstep.observed
  refine ⟨fun c hc => ?_, fun name params body hb => ?_, fun h hh name v hv => ?_,
    fun q hq => ?_, fun v hv => hall.value (hvalue ▸ hv)⟩
  · obtain ⟨hc', hc''⟩ := hall.current (hcurrent ▸ hc)
    exact ⟨hc', (hc'' c .self).resolve_left (Expr.not_isLiteral_of_applies hc')⟩
  · exact hall.world.bodies name params body ((hstep.world.words name).symm.trans hb)
  · obtain ⟨h₀, hsame⟩ : ∃ h₀, SameScope m.world m.tidied.world h h₀ := by
      rcases hh with rfl | hh
      · exact ⟨_, .globals⟩
      · obtain ⟨i, rfl⟩ := Nat.exists_eq_add_of_le hh
        exact ⟨_, .call i⟩
    exact hall.world.values h₀ name v ((hstep.world.own? ha hsame name).symm.trans hv)
  · obtain ⟨q₀, hq₀, hvalues⟩ := hstep.arguments hq
    rw [hvalues]
    exact hall.arguments hq₀

def carrying : Machine :=
  ({ world := ({} : World).learn "go" ["b"]
      [.call "if" [.binary .less (.number 1 2) (.number 2 2) 2, .var "b" 2] 2] } : Machine).setGlobal "job" (.list [.call "print" [.number 5 40] 40] 40)

theorem code_is_original_carrying :
    carrying.world.Plain ∧ carrying.world.scopes.Rooted ∧
    ((carrying.start [.call "go" [.var "job" 7] 7]).advance 3).current =
      some (.call "print" [.number 5 40] 40) ∧
    carrying.Original [.call "go" [.var "job" 7] 7] (.call "print" [.number 5 40] 40) ∧
    ((carrying.start [.call "go" [.var "job" 7] 7]).advance 3).world.scopes.own? 1 "b" =
      some (.list [.call "print" [.number 5 40] 40] 40) := by
  have hm : carrying.world.Plain := World.Plain.core.learn _ _ _
  have hs : carrying.world.scopes.Rooted := by
    rw [Scopes.Rooted]
    decide
  have hc : ((carrying.start [.call "go" [.var "job" 7] 7]).advance 3).current =
      some (.call "print" [.number 5 40] 40) := by decide +kernel
  have ho := code_is_original carrying hm hs [.call "go" [.var "job" 7] 7] 3
  exact ⟨hm, hs, hc, (ho.1 _ hc).2, by decide +kernel⟩

end Machine

end LogoLang
