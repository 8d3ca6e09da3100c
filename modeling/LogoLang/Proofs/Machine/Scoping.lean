import LogoLang.Proofs.Machine.Settling

/-!
Scopes at run time. Every call of a procedure makes a scope of its own below the global one, and no
scope changes once it is made. Main statement: wherever a session has come, a reference stands for
an argument of the innermost call in progress, else for a global binding, else for nothing; calls
around that one have no part in it.
-/

set_option autoImplicit false

namespace LogoLang

structure Activation where
  /-- The scope that is made for it. -/
  scope : Scopes.Handle
  params : List String
  args : List Value
  /-- The number of frames that wait for its value. -/
  depth : Nat

namespace Activation

/-- The argument of the last parameter of that name. -/
def arg? (c : Activation) (name : String) : Option Value :=
  (c.params.zip c.args).reverse.lookup name

def cell (c : Activation) : Scope :=
  { parent := some Scopes.globals, bindings := Table.ofList (c.params.zip c.args) }

end Activation

namespace Scopes

def Rooted (s : Scopes) : Prop := globals < s.next

def after (s : Scopes) (calls : List Activation) : Scopes :=
  ⟨(s.cells.toList ++ calls.map Activation.cell).toArray⟩

theorem define_push (cells : Array Scope) (c : Scope) (name : String) (v : Value) :
    (Scopes.mk (cells.push c)).define cells.size name v =
      ⟨cells.push { c with bindings := c.bindings.insert name v }⟩ := by
  simp only [define, Scopes.mk.injEq]
  ext i
  · simp
  · rename_i h₁ h₂
    simp only [Array.size_push] at h₂
    simp only [Array.getElem_modify, Array.getElem_push]
    split <;> split <;> first | rfl | omega

theorem defineAll_push (cells : Array Scope) (parent : Option Handle) (t : Table Value)
    (bindings : List (String × Value)) :
    (Scopes.mk (cells.push ⟨parent, t⟩)).defineAll cells.size bindings =
      ⟨cells.push ⟨parent, bindings.foldl (fun t b => t.insert b.1 b.2) t⟩⟩ := by
  induction bindings generalizing t with
  | nil => rfl
  | cons b bs ih =>
    have hd := define_push cells ⟨parent, t⟩ b.1 b.2
    rw [defineAll, List.foldl_cons, hd, List.foldl_cons]
    exact ih (t.insert b.1 b.2)

variable {s : Scopes} {calls : List Activation}

@[simp] theorem after_nil (s : Scopes) : s.after [] = s := by
  simp [after]

theorem next_after (s : Scopes) (calls : List Activation) :
    (s.after calls).next = s.next + calls.length := by
  simp [after, next]

theorem after_concat (s : Scopes) (calls : List Activation) (c : Activation) :
    s.after (calls ++ [c]) = ⟨(s.after calls).cells.push c.cell⟩ := by
  simp [after]

theorem getElem?_after_of_lt {h : Handle} (hh : h < s.next) :
    (s.after calls).cells[h]? = s.cells[h]? := by
  simp only [next] at hh
  simp [after, List.getElem?_append, hh]

theorem getElem?_after_add (s : Scopes) (calls : List Activation) (i : Nat) :
    (s.after calls).cells[s.next + i]? = (calls[i]?).map Activation.cell := by
  have hl : s.cells.toList.length ≤ s.next + i := Nat.le_add_right ..
  simp only [after, List.getElem?_toArray, List.getElem?_append_right hl, List.getElem?_map]
  simp [next]

theorem own?_after_of_lt {h : Handle} (hh : h < s.next) (name : String) :
    (s.after calls).own? h name = s.own? h name := by
  simp only [own?, getElem?_after_of_lt hh]

theorem own?_after_add {i : Nat} {c : Activation} (hc : calls[i]? = some c) (name : String) :
    (s.after calls).own? (s.next + i) name = c.arg? name := by
  simp only [own?, getElem?_after_add, hc, Option.map_some, Option.bind_some, Activation.cell,
    Table.get?_ofList, Activation.arg?]

theorem parent?_after_add {i : Nat} {c : Activation} (hc : calls[i]? = some c) :
    (s.after calls).parent? (s.next + i) = some globals := by
  simp only [parent?, getElem?_after_add, hc, Option.map_some, Option.bind_some, Activation.cell]

theorem lookup_globals (s : Scopes) (name : String) :
    s.lookup globals name = s.own? globals name := by
  rw [lookup]
  cases s.own? globals name with
  | some v => rfl
  | none =>
    cases s.parent? globals with
    | none => rfl
    | some p => simp [globals]

theorem lookup_of_parent {h : Handle} (hp : s.parent? h = some globals) (hh : globals < h)
    (name : String) : s.lookup h name = (s.own? h name).or (s.own? globals name) := by
  rw [lookup]
  cases s.own? h name with
  | some v => rfl
  | none => simp [hp, hh, lookup_globals]

theorem lookup_after_globals (hs : s.Rooted) (name : String) :
    (s.after calls).lookup globals name = s.own? globals name :=
  (lookup_globals _ name).trans (own?_after_of_lt hs name)

theorem lookup_after_add (hs : s.Rooted) (i : Nat) (name : String) :
    (s.after calls).lookup (s.next + i) name =
      calls[i]?.bind fun c => (c.arg? name).or (s.own? globals name) := by
  cases hc : calls[i]? with
  | none =>
    have ho : (s.after calls).cells[s.next + i]? = none := by rw [getElem?_after_add, hc]; rfl
    rw [lookup]
    simp [own?, parent?, ho]
  | some c =>
    have hlt : globals < s.next + i := Nat.lt_of_lt_of_le hs (Nat.le_add_right ..)
    rw [lookup_of_parent (parent?_after_add hc) hlt, own?_after_add hc, own?_after_of_lt hs]
    rfl

end Scopes

theorem World.scopes_entered {w : World} {s : Scopes} {calls : List Activation}
    (hs : w.scopes = s.after calls) (h : Scopes.Handle) (params : List String) (args : List Value)
    (depth : Nat) :
    (w.entered params args).scopes = s.after (calls ++ [⟨h, params, args, depth⟩]) := by
  rw [Scopes.after_concat, ← hs]
  exact Scopes.defineAll_push w.scopes.cells _ .empty _

def Frame.scope : Frame → Scopes.Handle
  | .args _ _ _ h | .block _ h | .loop _ _ h => h

def Task.scope? : Task → Option Scopes.Handle
  | .eval _ h | .run _ h => some h
  | .give _ => none

/-- The scopes that a waiting word and what is left to do after it refer to. -/
def Pending.scopes (p : Pending) : List Scopes.Handle :=
  match p.resume with
  | .apply _ h => h :: p.stack.map Frame.scope
  | .give _ => p.stack.map Frame.scope

/-- What a step goes on with after it has applied a word that is no host word, and the call of a
procedure that it has made, if any. -/
inductive Resumes (w : World) (call : Expr) (args : List Value) (scope : Scopes.Handle)
    (stack : List Frame) : Option Activation → World → Task → List Frame → Prop where
  | value {k : CoreWord} {v : Value} (hw : w.Accepts call args (.core k))
    (hk : k.act (call.line?.getD 0) scope args = .ok (.value v)) :
    Resumes w call args scope stack none w (.give v) stack
  | say {k : CoreWord} {text : String} (hw : w.Accepts call args (.core k))
    (hk : k.act (call.line?.getD 0) scope args = .ok (.say text)) :
    Resumes w call args scope stack none (w.print text) (.give .void) stack
  | run {k : CoreWord} {items : List Expr} (hw : w.Accepts call args (.core k))
    (hk : k.act (call.line?.getD 0) scope args = .ok (.run items scope)) :
    Resumes w call args scope stack none w (.run items scope) stack
  | loop {k : CoreWord} {n : Nat} {items : List Expr} (hw : w.Accepts call args (.core k))
    (hk : k.act (call.line?.getD 0) scope args = .ok (.loop n items scope)) :
    Resumes w call args scope stack none w (.give .void) (.loop n items scope :: stack)
  | enter {params : List String} {body : List Expr}
    (hw : w.Accepts call args (.defined params body)) :
    Resumes w call args scope stack (some ⟨w.scopes.next, params, args, stack.length⟩)
      (w.entered params args) (.run body w.scopes.next) stack

theorem Pending.failed_or_resumes {w : World} (hw : w.Plain) (call : Expr) (args : List Value)
    (scope : Scopes.Handle) (stack : List Frame) :
    (∃ f, (Pending.mk call (.apply args scope) stack).proceed w = (w, .failed f)) ∨
    ∃ made w' t stack', Resumes w call args scope stack made w' t stack' ∧
      (Pending.mk call (.apply args scope) stack).proceed w = w'.settle t stack' := by
  have hx := Pending.performs_proceed hw call args scope stack
  generalize (Pending.mk call (.apply args scope) stack).proceed w = x at hx ⊢
  cases hx with
  | refused hf => exact .inl ⟨_, rfl⟩
  | failed ha hk => exact .inl ⟨_, rfl⟩
  | value ha hk => exact .inr ⟨_, _, _, _, .value ha hk, rfl⟩
  | say ha hk => exact .inr ⟨_, _, _, _, .say ha hk, rfl⟩
  | run ha hk => exact .inr ⟨_, _, _, _, .run ha hk, rfl⟩
  | loop ha hk => exact .inr ⟨_, _, _, _, .loop ha hk, rfl⟩
  | enter ha => exact .inr ⟨_, _, _, _, .enter ha, rfl⟩

/-- The calls that are still in progress when a task is taken up, of those that were before: a call
is over once its value is given to the frames that were there when it was made. -/
def Task.ongoing (stack : List Frame) (active : List Activation) : Task → List Activation
  | .give _ => active.dropWhile fun c => decide (stack.length ≤ c.depth)
  | _ => active

/-- A moment of a session: the steps that are done, the calls that have been made in order, those in
progress with the innermost one first, and what the next move is made from. -/
inductive Moment (m : Machine) (p : Program) :
    Nat → List Activation → List Activation → World → Task → List Frame → Prop where
  | start : Moment m p 0 [] [] m.world (.run p Scopes.globals) []
  | move {n : Nat} {made active : List Activation} {w w' : World} {t t' : Task}
    {stack stack' : List Frame} (h : Moment m p n made active w t stack)
    (hm : w.move t stack = .next w' t' stack') :
    Moment m p n made (t.ongoing stack active) w' t' stack'
  | step {n : Nat} {made active : List Activation} {w w₁ w' : World} {t t' : Task}
    {stack below stack' : List Frame} {call : Expr} {args : List Value} {scope : Scopes.Handle}
    {new : Option Activation} (h : Moment m p n made active w t stack)
    (hm : w.move t stack = .stop w₁ (.waiting ⟨call, .apply args scope, below⟩))
    (hr : Resumes w₁ call args scope below new w' t' stack') :
    Moment m p (n + 1) (made ++ new.toList) (new.toList ++ t.ongoing stack active) w' t' stack'

namespace Activation

def current : List Activation → Scopes.Handle
  | [] => Scopes.globals
  | c :: _ => c.scope

/-- The frames above those that a call has found belong to it, up to the next call. -/
inductive Covers : List Activation → List Frame → Prop where
  | top {stack : List Frame} (h : ∀ f ∈ stack, f.scope = Scopes.globals) : Covers [] stack
  | call {c : Activation} {active : List Activation} (inner : List Frame) {below : List Frame}
    (hd : c.depth = below.length) (hi : ∀ f ∈ inner, f.scope = c.scope)
    (hb : Covers active below) : Covers (c :: active) (inner ++ below)

variable {active : List Activation} {f : Frame} {stack : List Frame}

theorem Covers.push (h : Covers active stack) (hf : f.scope = current active) :
    Covers active (f :: stack) := by
  cases h with
  | top h => exact .top (List.forall_mem_cons.2 ⟨hf, h⟩)
  | call inner hd hi hb => exact .call (f :: inner) hd (List.forall_mem_cons.2 ⟨hf, hi⟩) hb

theorem Covers.pop (h : Covers active (f :: stack)) (v : Value) :
    Covers (Task.ongoing (f :: stack) active (.give v)) stack ∧
      f.scope = current (Task.ongoing (f :: stack) active (.give v)) := by
  generalize hs : f :: stack = frames at h ⊢
  induction h with
  | top h =>
    subst hs
    obtain ⟨hf, h⟩ := List.forall_mem_cons.1 h
    exact ⟨.top h, hf⟩
  | @call c active inner below hd hi hb ih =>
    cases inner with
    | nil =>
      -- No frame of the call is left, so it is over.
      have ho : Task.ongoing ([] ++ below) (c :: active) (.give v) =
          Task.ongoing below active (.give v) := by
        simp [Task.ongoing, hd]
      rw [ho]
      exact ih hs
    | cons g inner =>
      have ho : Task.ongoing (g :: inner ++ below) (c :: active) (.give v) = c :: active := by
        simp only [Task.ongoing, List.length_append, List.length_cons]
        rw [List.dropWhile_cons_of_neg]
        simp only [decide_eq_true_eq]
        omega
      obtain ⟨rfl, rfl⟩ := List.cons.inj hs
      obtain ⟨hf, hi⟩ := List.forall_mem_cons.1 hi
      rw [ho]
      exact ⟨.call inner hd hi hb, hf⟩

theorem Covers.scope_mem (h : Covers active stack) :
    ∀ f ∈ stack, f.scope = Scopes.globals ∨ ∃ c ∈ active, f.scope = c.scope := by
  induction h with
  | top h => exact fun f hf => .inl (h f hf)
  | call inner hd hi hb ih =>
    intro f hf
    rcases List.mem_append.1 hf with hf | hf
    · exact .inr ⟨_, by simp, hi f hf⟩
    · rcases ih f hf with h | ⟨c, hc, h⟩
      · exact .inl h
      · exact .inr ⟨c, by simp [hc], h⟩

theorem current_mem (active : List Activation) :
    current active = Scopes.globals ∨ ∃ c ∈ active, current active = c.scope := by
  cases active with
  | nil => exact .inl rfl
  | cons c active => exact .inr ⟨c, by simp, rfl⟩

end Activation

open Activation

/-- A task is done in the scope of the innermost call, and the frames in those of their calls. -/
structure Task.Placed (active : List Activation) (t : Task) (stack : List Frame) : Prop where
  covers : Covers active stack
  scope : ∀ h, t.scope? = some h → h = current active

def Outcome.Placed (active : List Activation) : Outcome → Prop
  | .waiting ⟨_, .apply _ scope, stack⟩ => Covers active stack ∧ scope = current active
  | .waiting _ => False
  | _ => True

theorem Outcome.Placed.scope_mem {active : List Activation} {q : Pending}
    (h : Outcome.Placed active (.waiting q)) :
    ∀ k ∈ q.scopes, k = Scopes.globals ∨ ∃ c ∈ active, k = c.scope := by
  obtain ⟨call, resume, stack⟩ := q
  cases resume with
  | give v => exact h.elim
  | apply args scope =>
    obtain ⟨hc, rfl⟩ := h
    simp only [Pending.scopes, List.forall_mem_cons, List.forall_mem_map]
    exact ⟨current_mem active, hc.scope_mem⟩

section

variable {active : List Activation} {stack : List Frame} {w : World}

theorem placed_give (hc : Covers active stack) (v : Value) :
    Task.Placed active (.give v) stack := ⟨hc, by simp [Task.scope?]⟩

theorem placed_eval (hc : Covers active stack) (e : Expr) :
    Task.Placed active (.eval e (current active)) stack := ⟨hc, by simp [Task.scope?]⟩

theorem placed_run (hc : Covers active stack) (items : List Expr) :
    Task.Placed active (.run items (current active)) stack := ⟨hc, by simp [Task.scope?]⟩

theorem placed_evalArgs (hc : Covers active stack) (call : Expr) (done : Array Value)
    (todo : List Expr) :
    (w.evalArgs call done todo (current active) stack).Leads
      (fun _ t stack => t.Placed active stack) (fun _ o => o.Placed active) := by
  cases todo with
  | nil => exact ⟨hc, rfl⟩
  | cons e es => exact placed_eval (hc.push rfl) e

theorem placed_moveEval (hc : Covers active stack) (e : Expr) :
    (w.moveEval e (current active) stack).Leads
      (fun _ t stack => t.Placed active stack) (fun _ o => o.Placed active) := by
  cases e with
  | call name args line => exact placed_evalArgs hc _ _ _
  | binary op left right line => exact placed_evalArgs hc _ _ [left, right]
  | group inner line => exact placed_eval hc inner
  | var name line =>
    simp only [World.moveEval]
    split
    · exact placed_give hc _
    · trivial
  | nil | number | word | list | define => exact placed_give hc _

theorem placed_moveRun (hc : Covers active stack) (items : List Expr) :
    (w.moveRun items (current active) stack).Leads
      (fun _ t stack => t.Placed active stack) (fun _ o => o.Placed active) := by
  rcases items with _ | ⟨e, _ | ⟨e', es⟩⟩
  · exact placed_give hc _
  · exact placed_eval hc e
  · exact placed_eval (hc.push rfl) e

theorem placed_moveGive {f : Frame} (hc : Covers active stack) (hf : f.scope = current active)
    (v : Value) :
    (w.moveGive v (f :: stack)).Leads
      (fun _ t stack => t.Placed active stack) (fun _ o => o.Placed active) := by
  match f with
  | .args call done todo scope =>
    cases hf
    exact placed_evalArgs hc _ _ _
  | .block items scope =>
    cases hf
    exact placed_run hc items
  | .loop 0 items scope => exact placed_give hc _
  | .loop (n + 1) items scope =>
    cases hf
    exact placed_run (hc.push rfl) items

theorem placed_move {t : Task} (h : t.Placed active stack) :
    (w.move t stack).Leads (fun _ t' stack' => t'.Placed (t.ongoing stack active) stack')
      (fun _ o => o.Placed (t.ongoing stack active)) := by
  cases t with
  | eval e scope =>
    cases h.scope scope rfl
    exact placed_moveEval h.covers e
  | run items scope =>
    cases h.scope scope rfl
    exact placed_moveRun h.covers items
  | give v =>
    cases stack with
    | nil => trivial
    | cons f stack =>
      obtain ⟨hc, hf⟩ := h.covers.pop v
      exact placed_moveGive hc hf v

theorem placed_resumes {call : Expr} {args : List Value} {scope : Scopes.Handle}
    {new : Option Activation} {w' : World} {t : Task} {stack' : List Frame}
    (ho : Outcome.Placed active (.waiting ⟨call, .apply args scope, stack⟩))
    (hr : Resumes w call args scope stack new w' t stack') :
    t.Placed (new.toList ++ active) stack' := by
  obtain ⟨hc, rfl⟩ := ho
  cases hr with
  | value | say => exact placed_give hc _
  | run => exact placed_run hc _
  | loop => exact placed_give (hc.push rfl) _
  | enter => exact placed_run (.call [] rfl (by simp) hc) _

end

/-- The store holds, after the scopes it had at the start, one for every call. -/
structure Scoped (s : Scopes) (made active : List Activation) (w : World) : Prop where
  store : w.scopes = s.after made
  numbered : ∀ (i : Nat) c, made[i]? = some c → c.scope = s.next + i
  active : ∀ c ∈ active, c ∈ made

namespace Scoped

variable {s : Scopes} {made active : List Activation} {w : World}

theorem ongoing (h : Scoped s made active w) (t : Task) (stack : List Frame) :
    Scoped s made (t.ongoing stack active) w := by
  refine ⟨h.store, h.numbered, fun c hc => h.active c ?_⟩
  cases t with
  | give v => exact (List.dropWhile_sublist _).subset hc
  | eval | run => exact hc

theorem of_scopes {w' : World} (h : Scoped s made active w) (hw : w'.scopes = w.scopes) :
    Scoped s made active w' := ⟨hw.trans h.store, h.numbered, h.active⟩

/-- The store gets a scope when a procedure is called, and at no other time. -/
theorem resumes {call : Expr} {args : List Value} {scope : Scopes.Handle} {stack : List Frame}
    {new : Option Activation} {w' : World} {t : Task} {stack' : List Frame}
    (h : Scoped s made active w) (hr : Resumes w call args scope stack new w' t stack') :
    Scoped s (made ++ new.toList) (new.toList ++ active) w' := by
  cases hr with
  | say => simpa using h.of_scopes (World.scopes_print ..)
  | value | run | loop => simpa using h
  | enter =>
    refine ⟨World.scopes_entered h.store .., fun i c hc => ?_, fun c hc => ?_⟩
    · rw [List.getElem?_append] at hc
      split at hc
      · exact h.numbered i c hc
      · rename_i hi
        simp only [Option.toList_some, List.getElem?_singleton,
          Option.ite_none_right_eq_some, Option.some.injEq] at hc
        obtain ⟨hi', rfl⟩ := hc
        have hn : made.length = i := by omega
        rw [h.store, Scopes.next_after, hn]
    · rcases List.mem_append.1 hc with hc | hc
      · exact List.mem_append.2 (.inr hc)
      · exact List.mem_append.2 (.inl (h.active c hc))

theorem globals (h : Scoped s made active w) (hs : s.Rooted) (name : String) :
    w.scopes.own? Scopes.globals name = s.own? Scopes.globals name := by
  rw [h.store]
  exact Scopes.own?_after_of_lt hs name

theorem child (h : Scoped s made active w) {c : Activation} (hc : c ∈ made) :
    w.scopes.parent? c.scope = some Scopes.globals ∧
      ∀ name, w.scopes.own? c.scope name = c.arg? name := by
  obtain ⟨i, hi⟩ := List.mem_iff_getElem?.1 hc
  rw [h.store, h.numbered i c hi]
  exact ⟨Scopes.parent?_after_add hi, Scopes.own?_after_add hi⟩

theorem lookup (h : Scoped s made active w) (hs : s.Rooted) (name : String) :
    w.scopes.lookup (current active) name =
      (active.head?.bind fun c => c.arg? name).or (s.own? Scopes.globals name) := by
  rw [h.store]
  cases active with
  | nil => exact Scopes.lookup_after_globals hs name
  | cons c active =>
    obtain ⟨i, hi⟩ := List.mem_iff_getElem?.1 (h.active c (by simp))
    rw [current, h.numbered i c hi, Scopes.lookup_after_add hs, hi]
    rfl

theorem nodup (h : Scoped s made active w) : (made.map Activation.scope).Nodup := by
  have hn : made.map Activation.scope = (List.range made.length).map (s.next + ·) := by
    refine List.ext_getElem? fun i => ?_
    rw [List.getElem?_map, List.getElem?_map]
    by_cases hi : i < made.length
    · have hc := List.getElem?_eq_getElem hi
      simp [hi, h.numbered i _ hc]
    · simp [hi]
  rw [hn]
  exact List.Pairwise.map _ (fun i j hij => by simpa using hij) List.nodup_range

end Scoped

namespace Moment

variable {m : Machine} {p : Program} {n : Nat} {made active : List Activation} {w : World}
  {t : Task} {stack : List Frame}

theorem placed (h : Moment m p n made active w t stack) : t.Placed active stack := by
  induction h with
  | start => exact placed_run (.top (by simp)) p
  | @move _ _ _ w _ t _ stack _ h hm ih =>
    have hp := placed_move (w := w) ih
    rw [hm] at hp
    exact hp
  | @step _ _ _ w _ _ t _ stack _ _ _ _ _ _ h hm hr ih =>
    have hp := placed_move (w := w) ih
    rw [hm] at hp
    exact placed_resumes hp hr

theorem scopes_of_move {w' : World} (w : World) (t : Task) (stack : List Frame)
    (hm : (∃ t' stack', w.move t stack = .next w' t' stack') ∨ ∃ o, w.move t stack = .stop w' o) :
    w'.scopes = w.scopes := by
  rcases World.move_world w t stack with ⟨name, params, body, line, scope, -, hl⟩ | hl
  · rcases hm with ⟨t', stack', hm⟩ | ⟨o, hm⟩
    · rw [hl] at hm
      cases hm
      rfl
    · rw [hl] at hm
      cases hm
  · rcases hm with ⟨t', stack', hm⟩ | ⟨o, hm⟩
    · rw [hm] at hl
      exact congrArg World.scopes hl
    · rw [hm] at hl
      exact congrArg World.scopes hl

theorem scoping (h : Moment m p n made active w t stack) :
    Scoped m.world.scopes made active w := by
  induction h with
  | start => exact ⟨by simp, by simp, by simp⟩
  | move h hm ih => exact (ih.ongoing _ _).of_scopes (scopes_of_move _ _ _ (.inl ⟨_, _, hm⟩))
  | step h hm hr ih =>
    exact ((ih.ongoing _ _).of_scopes (scopes_of_move _ _ _ (.inr ⟨_, hm⟩))).resumes hr

theorem stops (h : Moment m p n made active w t stack) :
    ∃ active' w' t' stack', Moment m p n made active' w' t' stack' ∧
      w'.move t' stack' = .stop (w.settle t stack).1 (w.settle t stack).2 := by
  induction w, t, stack using World.settle.induct generalizing active with
  | case1 w t stack w' t' stack' hn ih =>
    rw [World.settle_eq, hn]
    exact ih (h.move hn)
  | case2 w t stack w' o hs =>
    rw [World.settle_eq, hs]
    exact ⟨_, _, _, _, h, hs⟩

theorem outcome_of_pending {current : Option Expr} {steps : Nat} {x : World × Outcome} {q : Pending}
    (h : (Machine.stopped current steps x).session = .pending q) : x.2 = .waiting q := by
  obtain ⟨w, q' | v | f⟩ := x <;> cases h
  rfl

theorem exists_stop (hm : m.world.Plain) (p : Program) (n : Nat) :
    ∃ k made active w t stack o, Moment m p k made active w t stack ∧
      w.move t stack = .stop ((m.start p).advance n).world o ∧
      ∀ q, ((m.start p).advance n).session = .pending q → k = n ∧ o = .waiting q := by
  induction n with
  | zero =>
    obtain ⟨active, w, t, stack, h, hs⟩ := (Moment.start (m := m) (p := p)).stops
    rw [← Machine.world_stopped none 0] at hs
    exact ⟨0, [], active, w, t, stack, _, h, hs, fun q hq => ⟨rfl, outcome_of_pending hq⟩⟩
  | succ n ih =>
    obtain ⟨k, made, active, w, t, stack, o, h, hs, hq⟩ := ih
    have hplain := Machine.plain_advance (Machine.plain_start hm p) n
    rw [Machine.advance_add]
    generalize (m.start p).advance n = x at *
    obtain ⟨w₁, s, current, steps⟩ := x
    cases s with
    | pending q =>
      obtain ⟨rfl, rfl⟩ := hq q rfl
      obtain ⟨call, resume, below⟩ := q
      have hp := placed_move (w := w) h.placed
      rw [hs] at hp
      cases resume with
      | give v => exact hp.elim
      | apply args scope =>
        simp only [Machine.advance, Machine.isPending, if_true, Machine.step,
          Machine.world_stopped]
        rcases Pending.failed_or_resumes hplain call args scope below with
          ⟨f, hx⟩ | ⟨made', w', t', stack', hr, hx⟩
        · rw [hx]
          exact ⟨_, _, _, _, _, _, _, h, hs, fun q hq => by cases hq⟩
        · obtain ⟨active', w'', t'', stack'', h', hs'⟩ := (h.step hs hr).stops
          rw [hx]
          exact ⟨_, _, _, _, _, _, _, h', hs', fun q hq => ⟨rfl, outcome_of_pending hq⟩⟩
    | idle | completed | errored =>
      exact ⟨k, made, active, w, t, stack, o, h, hs, fun q hq => by cases hq⟩

/-- A reference stands for an argument of the innermost call in progress, else for what the name was
bound to at the start. -/
theorem move_var (hs : m.world.scopes.Rooted) {name : String} {line : Nat} {h : Scopes.Handle}
    (hv : Moment m p n made active w (.eval (.var name line) h) stack) :
    w.move (.eval (.var name line) h) stack =
      match (active.head?.bind fun c => c.arg? name).or (m.global? name) with
      | some v => .next w (.give v) stack
      | none => .stop w (.failed (.unknown name (some line))) := by
  cases hv.placed.scope h rfl
  have hl := hv.scoping.lookup hs name
  rw [← Scopes.lookup_globals m.world.scopes name] at hl
  rw [Machine.global?, ← hl]
  rfl

end Moment

namespace Machine

/-- A machine without host words runs a program. Whatever step it has come to, the global scope is
as it was at the start, and a waiting word and all that is left to do refer to no other scopes than
that one and those of calls in progress. At every moment each call that has been made has a scope of
its own, a child of the global one, which binds the parameters and nothing else; and a reference
stands for the argument of the last parameter of that name of the innermost call in progress, else
for the global binding, else for nothing. -/
theorem references_are_local_or_global (m : Machine) (hm : m.world.Plain)
    (hs : m.world.scopes.Rooted) (p : Program) (n : Nat) :
    (∀ name, ((m.start p).advance n).world.scopes.own? Scopes.globals name =
      m.world.scopes.own? Scopes.globals name) ∧
    (∀ q, ((m.start p).advance n).session = .pending q →
      ∃ made active w t stack, Moment m p n made active w t stack ∧
        w.move t stack = .stop ((m.start p).advance n).world (.waiting q) ∧
        ∀ h ∈ q.scopes, h = Scopes.globals ∨ ∃ c ∈ t.ongoing stack active, c ∈ made ∧
          h = c.scope ∧
          ((m.start p).advance n).world.scopes.parent? h = some Scopes.globals ∧
          ∀ name, ((m.start p).advance n).world.scopes.own? h name = c.arg? name) ∧
    ∀ made active w t stack, Moment m p n made active w t stack →
      (∀ name, w.scopes.own? Scopes.globals name = m.world.scopes.own? Scopes.globals name) ∧
      (made.map Activation.scope).Nodup ∧ (∀ c ∈ active, c ∈ made) ∧
      (∀ c ∈ made, w.scopes.parent? c.scope = some Scopes.globals ∧
        ∀ name, w.scopes.own? c.scope name = c.arg? name) ∧
      ∀ name line h, t = .eval (.var name line) h →
        w.move t stack =
          match (active.head?.bind fun c => c.arg? name).or (m.global? name) with
          | some v => .next w (.give v) stack
          | none => .stop w (.failed (.unknown name (some line))) := by
  obtain ⟨k, made, active, w, t, stack, o, hk, hmove, hq⟩ := Moment.exists_stop hm p n
  have hw := (hk.scoping.ongoing t stack).of_scopes
    (Moment.scopes_of_move w t stack (.inr ⟨o, hmove⟩))
  refine ⟨hw.globals hs, fun q hpq => ?_, fun made active w t stack h => ?_⟩
  · obtain ⟨rfl, rfl⟩ := hq q hpq
    refine ⟨made, active, w, t, stack, hk, hmove, fun h hh => ?_⟩
    have hp := placed_move (w := w) hk.placed
    rw [hmove] at hp
    rcases hp.scope_mem h hh with h | ⟨c, hc, rfl⟩
    · exact .inl h
    · exact .inr ⟨c, hc, hw.active c hc, rfl, hw.child (hw.active c hc)⟩
  · refine ⟨h.scoping.globals hs, h.scoping.nodup, h.scoping.active, fun c => h.scoping.child, ?_⟩
    rintro name line h' rfl
    exact h.move_var hs

def shadowing : Program :=
  [.define "inner" [] [.call "print" [.var "x" 1] 1] 0,
   .define "outer" ["x", "x"]
    [.call "if" [.binary .less (.number 1 4) (.number 2 4) 4,
      .list [.call "print" [.var "x" 5] 5] 4] 4,
     .call "inner" [] 6] 3,
   .call "outer" [.number 1 8, .number 2 8] 8]

theorem references_are_local_or_global_shadowing :
    ({} : Machine).world.Plain ∧ ({} : Machine).world.scopes.Rooted ∧
    (∃ q made active w t stack c,
      ((({} : Machine).start shadowing).advance 3).session = .pending q ∧ q.scopes = [1, 1] ∧
      Moment {} shadowing 3 made active w t stack ∧ c ∈ made ∧ c.scope = 1 ∧
      c.arg? "x" = some (.number 2)) ∧
    ((({} : Machine).start shadowing).advance 5).fault? = some (.unknown "x" (some 1)) := by
  have hs : ({} : Machine).world.scopes.Rooted := Nat.zero_lt_one
  have hscopes : ((({} : Machine).start shadowing).advance 3).session.casesOn []
      Pending.scopes (fun _ => []) (fun _ => []) = [1, 1] := by decide +kernel
  have hx : ((({} : Machine).start shadowing).advance 3).world.scopes.own? 1 "x" =
      some (.number 2) := by decide +kernel
  have hm := (references_are_local_or_global {} .core hs shadowing 3).2.1
  refine ⟨.core, hs, ?_, by decide +kernel⟩
  generalize (({} : Machine).start shadowing).advance 3 = x at *
  cases hq : x.session with
  | pending q =>
    simp only [hq] at hscopes
    obtain ⟨made, active, w, t, stack, hk, -, hq'⟩ := hm q hq
    rcases hq' 1 (by simp [hscopes]) with h | ⟨c, -, hc, hc1, -, ho⟩
    · cases h
    · exact ⟨q, made, active, w, t, stack, c, rfl, hscopes, hk, hc, hc1.symm, by rw [← ho, hx]⟩
  | idle | completed | errored => simp [hq] at hscopes

end Machine

end LogoLang
