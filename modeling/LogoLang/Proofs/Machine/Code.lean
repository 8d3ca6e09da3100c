import LogoLang.Proofs.Expr.Nodes
import LogoLang.Proofs.Machine.Settling

/-!
The code that a machine holds: in its procedures, in the lists that are values, and in what it has
still to do. Main statement: moves and steps make no new calls, operations, definitions, variables
or parentheses, so a property of all nodes of the code stays a property of all nodes.
-/

set_option autoImplicit false

namespace LogoLang

def Expr.IsLiteral : Expr → Prop
  | .nil | .number _ _ | .word _ _ | .list _ _ => True
  | _ => False

variable {P : Expr → Prop}

def Value.All (P : Expr → Prop) : Value → Prop
  | .list items _ => ∀ e ∈ items, e.All P
  | _ => True

theorem Value.All.imp {Q : Expr → Prop} {v : Value} (h : v.All P) (hpq : ∀ d, P d → Q d) :
    v.All Q := by
  cases v with
  | list items line => exact fun e he => (h e he).imp hpq
  | _ => trivial

theorem Expr.children_of_applies {c : Expr} (hc : c.Applies) : c.children = c.operands := by
  cases c with
  | call name args line => rfl
  | binary op left right line => rfl
  | _ => exact hc.elim

theorem Expr.All.operands {c : Expr} (h : c.All P) (hc : c.Applies) :
    ∀ d ∈ c.operands, d.All P := by
  rw [← Expr.children_of_applies hc]
  exact fun d hd => h.child hd

theorem Value.toExpr?_all (hl : ∀ e : Expr, e.IsLiteral → P e) {v : Value} (hv : v.All P)
    {line : Nat} {e : Expr} (he : v.toExpr? line = some e) : e.All P := by
  cases v with
  | void => cases he
  | list items own =>
    cases he
    exact Expr.all_iff.2 ⟨hl _ trivial, hv⟩
  | nil | number | word =>
    cases he
    exact Expr.all_iff.2 ⟨hl _ trivial, by simp [Expr.children]⟩

theorem CoreWord.listOf_all (hl : ∀ e : Expr, e.IsLiteral → P e) {args : List Value}
    (ha : ∀ v ∈ args, v.All P) (line : Nat) : (listOf line args).All P := by
  intro e he
  obtain ⟨v, hv, he⟩ := List.mem_filterMap.1 he
  exact Value.toExpr?_all hl (ha v hv) he

namespace Scopes

def All (P : Expr → Prop) (s : Scopes) : Prop :=
  ∀ h name v, s.own? h name = some v → v.All P

theorem lookup_all {s : Scopes} (hs : s.All P) {h : Handle} {name : String} {v : Value}
    (hv : s.lookup h name = some v) : v.All P := by
  fun_induction lookup s h name with
  | case1 h u hu =>
    cases hv
    exact hs _ _ _ hu
  | case2 => cases hv
  | case3 h _ p hp hlt ih => exact ih hv
  | case4 => cases hv

theorem All.define {s : Scopes} (hs : s.All P) {v : Value} (hv : v.All P) (h : Handle)
    (name : String) : (s.define h name v).All P := by
  intro k other u hu
  by_cases hh : h < s.next
  · rw [own?_define s h k name other v hh] at hu
    split at hu
    · cases hu
      exact hv
    · exact hs _ _ _ hu
  · have hn : s.define h name v = s := by
      have hc : ¬ h < s.cells.size := hh
      simp [Scopes.define, Array.modify, Array.modifyM, hc]
    rw [hn] at hu
    exact hs _ _ _ hu

theorem All.defineAll {s : Scopes} (hs : s.All P) (h : Handle) {bindings : List (String × Value)}
    (hb : ∀ b ∈ bindings, b.2.All P) : (s.defineAll h bindings).All P := by
  induction bindings generalizing s with
  | nil => exact hs
  | cons b bs ih =>
    obtain ⟨hv, hbs⟩ := List.forall_mem_cons.1 hb
    exact ih (hs.define hv h b.1) hbs

end Scopes

structure World.All (P : Expr → Prop) (w : World) : Prop where
  bodies : ∀ name params body, w.words.get? name = some (.defined params body) →
    ∀ e ∈ body, e.All P
  values : w.scopes.All P

theorem World.All.imp {Q : Expr → Prop} {w : World} (h : w.All P) (hpq : ∀ d, P d → Q d) :
    w.All Q :=
  ⟨fun name params body hb e he => (h.bodies name params body hb e he).imp hpq,
    fun k name v hv => (h.values k name v hv).imp hpq⟩

/-- A call whose arguments are partly evaluated. -/
structure Expr.Collects (P : Expr → Prop) (call : Expr) (done : List Value) (todo : List Expr) :
    Prop where
  applies : call.Applies
  all : call.All P
  values : ∀ v ∈ done, v.All P
  rest : ∀ e ∈ todo, e.All P
  count : done.length + todo.length = call.operands.length

def Task.All (P : Expr → Prop) : Task → Prop
  | .eval e _ => e.All P
  | .run items _ => ∀ e ∈ items, e.All P
  | .give v => v.All P

/-- The value that a call waits for is one of its arguments, too. -/
def Frame.All (P : Expr → Prop) : Frame → Prop
  | .args call done todo _ => ∀ v : Value, v.All P → call.Collects P (done.toList ++ [v]) todo
  | .block items _ | .loop _ items _ => ∀ e ∈ items, e.All P

/-- The frames above a part of the stack that is left alone. -/
def Above (P : Expr → Prop) (tail stack : List Frame) : Prop :=
  ∃ inner, stack = inner ++ tail ∧ ∀ f ∈ inner, f.All P

/-- The code of a machine that is evaluating. -/
structure Holds (P : Expr → Prop) (tail : List Frame) (w : World) (t : Task)
    (stack : List Frame) : Prop where
  world : w.All P
  task : t.All P
  stack : Above P tail stack

inductive Keeps (P : Expr → Prop) (tail : List Frame) (w : World) : Outcome → Prop where
  | waiting {call : Expr} {args : List Value} {scope : Scopes.Handle} {stack : List Frame}
    (hw : w.All P) (hc : call.Collects P args []) (hs : Above P tail stack) :
    Keeps P tail w (.waiting ⟨call, .apply args scope, stack⟩)
  | done {v : Value} (hw : w.All P) (hv : v.All P) : Keeps P tail w (.done v)
  | unbound {name : String} {line : Nat} (hw : w.All P) (hv : P (.var name line)) :
    Keeps P tail w (.failed (.unknown name (some line)))

inductive Fails (w : World) (call : Expr) (args : List Value) : Fault → Prop where
  | refused {f : Fault} (hf : w.Refuses call args f) : Fails w call args f
  | failed {k : CoreWord} {scope : Scopes.Handle} {cause : RunFault}
    (hw : w.Accepts call args (.core k))
    (hk : k.act (call.line?.getD 0) scope args = .error cause) :
    Fails w call args (.run cause (some call))

theorem Above.cons {tail stack : List Frame} (h : Above P tail stack) {f : Frame} (hf : f.All P) :
    Above P tail (f :: stack) := by
  obtain ⟨inner, rfl, hi⟩ := h
  exact ⟨f :: inner, rfl, List.forall_mem_cons.2 ⟨hf, hi⟩⟩

theorem World.All.fresh {w : World} (hw : w.words = Registry.core)
    (hs : w.scopes = Scopes.single) : w.All P := by
  refine ⟨fun name params body h => ?_, fun h name v hv => ?_⟩
  · rw [hw] at h
    obtain ⟨k, hk, -⟩ := Registry.get?_core h
    cases hk
  · rw [hs] at hv
    cases h <;> simp [Scopes.own?, Scopes.single] at hv

theorem World.All.learn {w : World} (hw : w.All P) {body : List Expr}
    (hb : ∀ e ∈ body, e.All P) (name : String) (params : List String) :
    (w.learn name params body).All P := by
  refine ⟨?_, hw.values⟩
  intro other params' body' h
  simp only [World.learn, Table.get?_insert] at h
  split at h
  · cases h
    exact hb
  · exact hw.bodies _ _ _ h

theorem World.All.print {w : World} (hw : w.All P) (line : String) : (w.print line).All P :=
  ⟨by simpa only [World.words_print] using hw.bodies, by simpa using hw.values⟩

theorem World.All.entered {w : World} (hw : w.All P) (params : List String) {args : List Value}
    (ha : ∀ v ∈ args, v.All P) : (w.entered params args).All P := by
  refine ⟨hw.bodies, Scopes.All.defineAll ?_ _ ?_⟩
  · intro h name v hv
    rw [Scopes.own?_addChild] at hv
    exact hw.values _ _ _ hv
  · intro b hb
    exact ha _ (List.of_mem_zip hb).2

variable {tail : List Frame} {w : World}

theorem holds_evalArgs {call : Expr} {done : Array Value} {todo : List Expr} {stack : List Frame}
    (hw : w.All P) (hc : call.Collects P done.toList todo) (hs : Above P tail stack)
    (scope : Scopes.Handle) :
    (w.evalArgs call done todo scope stack).Leads (Holds P tail) (Keeps P tail) := by
  cases todo with
  | nil => exact .waiting hw hc hs
  | cons e es =>
    obtain ⟨he, hes⟩ := List.forall_mem_cons.1 hc.rest
    refine ⟨hw, he, hs.cons fun v hv => ⟨hc.applies, hc.all, ?_, hes, ?_⟩⟩
    · intro u hu
      rcases List.mem_append.1 hu with hu | hu
      · exact hc.values u hu
      · rw [List.mem_singleton.1 hu]
        exact hv
    · have hn := hc.count
      simp only [List.length_append, List.length_cons, List.length_nil] at hn ⊢
      omega

theorem holds_moveEval {e : Expr} {scope : Scopes.Handle} {stack : List Frame}
    (h : Holds P tail w (.eval e scope) stack) :
    (w.moveEval e scope stack).Leads (Holds P tail) (Keeps P tail) := by
  have applied (hc : e.Applies) :
      (w.moveEval e scope stack).Leads (Holds P tail) (Keeps P tail) := by
    rw [World.moveEval_applies hc]
    have hr : ∀ d ∈ e.operands, d.All P := Expr.All.operands h.task hc
    exact holds_evalArgs h.world ⟨hc, h.task, by simp, hr, by simp⟩ h.stack scope
  cases e with
  | nil | number | word => exact ⟨h.world, trivial, h.stack⟩
  | list items line => exact ⟨h.world, fun d hd => Expr.All.child h.task hd, h.stack⟩
  | define name params body line =>
    exact ⟨h.world.learn (fun d hd => Expr.All.child h.task hd) name params, trivial, h.stack⟩
  | var name line =>
    simp only [World.moveEval]
    split
    · rename_i v hv
      exact ⟨h.world, Scopes.lookup_all h.world.values hv, h.stack⟩
    · exact .unbound h.world (Expr.all_iff.1 h.task).1
  | group inner line => exact ⟨h.world, Expr.All.child h.task (by simp [Expr.children]), h.stack⟩
  | call name args line => exact applied trivial
  | binary op left right line => exact applied trivial

theorem holds_moveRun {items : List Expr} {scope : Scopes.Handle} {stack : List Frame}
    (h : Holds P tail w (.run items scope) stack) :
    (w.moveRun items scope stack).Leads (Holds P tail) (Keeps P tail) := by
  match items with
  | [] => exact ⟨h.world, trivial, h.stack⟩
  | [e] => exact ⟨h.world, h.task e (by simp), h.stack⟩
  | e :: e' :: es =>
    obtain ⟨he, hes⟩ := List.forall_mem_cons.1 h.task
    exact ⟨h.world, he, h.stack.cons hes⟩

theorem holds_moveGive {v : Value} {f : Frame} {stack : List Frame} (hw : w.All P)
    (hv : v.All P) (hf : f.All P) (hs : Above P tail stack) :
    (w.moveGive v (f :: stack)).Leads (Holds P tail) (Keeps P tail) := by
  match f with
  | .args call done todo scope =>
    exact holds_evalArgs hw (by simpa only [Array.toList_push] using hf v hv) hs scope
  | .block items scope => exact ⟨hw, hf, hs⟩
  | .loop 0 items scope => exact ⟨hw, trivial, hs⟩
  | .loop (n + 1) items scope => exact ⟨hw, hf, hs.cons hf⟩

/-- A move keeps the code, unless it gives a value to the tail. -/
theorem holds_move {t : Task} {stack : List Frame} (h : Holds P tail w t stack)
    (ht : ∀ v, t = .give v → stack ≠ tail) :
    (w.move t stack).Leads (Holds P tail) (Keeps P tail) := by
  cases t with
  | eval e scope => exact holds_moveEval h
  | run items scope => exact holds_moveRun h
  | give v =>
    obtain ⟨inner, rfl, hi⟩ := h.stack
    cases inner with
    | nil => exact absurd rfl (ht v rfl)
    | cons f inner =>
      obtain ⟨hf, hi⟩ := List.forall_mem_cons.1 hi
      exact holds_moveGive h.world h.task hf ⟨inner, rfl, hi⟩

/-- A step fails, or goes on with the same words and nothing but code that was there. -/
theorem holds_proceed (hl : ∀ e : Expr, e.IsLiteral → P e) (hp : w.Plain) {call : Expr}
    {args : List Value} {scope : Scopes.Handle} {stack : List Frame} (hw : w.All P)
    (hc : call.Collects P args []) (hs : Above P tail stack) :
    (∃ f, (Pending.mk call (.apply args scope) stack).proceed w = (w, .failed f) ∧
      Fails w call args f) ∨
    ∃ w' t stack', (Pending.mk call (.apply args scope) stack).proceed w = w'.settle t stack' ∧
      w'.words = w.words ∧ Holds P tail w' t stack' := by
  have hx := Pending.performs_proceed hp call args scope stack
  generalize (Pending.mk call (.apply args scope) stack).proceed w = x at hx ⊢
  cases hx with
  | refused hf => exact .inl ⟨_, rfl, .refused hf⟩
  | failed ha hk => exact .inl ⟨_, rfl, .failed ha hk⟩
  | @value k v ha hk =>
    refine .inr ⟨w, .give v, stack, rfl, rfl, hw, ?_, hs⟩
    cases CoreWord.act_replies ha.counted hk with
    | void | number | word => trivial
    | list => exact CoreWord.listOf_all hl hc.values _
  | say ha hk => exact .inr ⟨_, _, _, rfl, World.words_print .., hw.print _, trivial, hs⟩
  | run ha hk hi => exact .inr ⟨_, _, _, rfl, rfl, hw, hc.values _ hi, hs⟩
  | loop ha hk hi => exact .inr ⟨_, _, _, rfl, rfl, hw, trivial, hs.cons (hc.values _ hi)⟩
  | enter ha =>
    exact .inr ⟨_, _, _, rfl, rfl, hw.entered _ hc.values, hw.bodies _ _ _ ha.known, hs⟩

end LogoLang
