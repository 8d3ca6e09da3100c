import LogoLang.Proofs.Machine.Lines

/-!
Parentheses in running code. They can be taken off everywhere but within lists, whose items are data
that a program can print and compare. Main statement: a program without its parentheses runs like
the program with them, step by step.
-/

set_option autoImplicit false

namespace LogoLang

namespace Expr

mutual
/-- The expression without parentheses, those within lists apart. -/
def ungroup : Expr → Expr
  | .define name params body line => .define name params (ungroupList body) line
  | .call name args line => .call name (ungroupList args) line
  | .binary op left right line => .binary op left.ungroup right.ungroup line
  | .group inner _ => inner.ungroup
  | e => e
def ungroupList : List Expr → List Expr
  | [] => []
  | e :: es => e.ungroup :: ungroupList es
end

theorem ungroupList_eq_map (es : List Expr) : ungroupList es = es.map ungroup := by
  induction es with
  | nil => rfl
  | cons e es ih => rw [ungroupList, ih, List.map_cons]

mutual
theorem ungroup_ungroup : ∀ e : Expr, e.ungroup.ungroup = e.ungroup
  | .nil | .number _ _ | .word _ _ | .var _ _ | .list _ _ => rfl
  | .define _ _ body _ => by simp only [ungroup, ungroupList_ungroupList body]
  | .call _ args _ => by simp only [ungroup, ungroupList_ungroupList args]
  | .binary _ left right _ => by simp only [ungroup, ungroup_ungroup left, ungroup_ungroup right]
  | .group inner _ => by simp only [ungroup, ungroup_ungroup inner]
theorem ungroupList_ungroupList : ∀ es : List Expr,
    ungroupList (ungroupList es) = ungroupList es
  | [] => rfl
  | e :: es => by simp only [ungroupList, ungroup_ungroup e, ungroupList_ungroupList es]
end

def SameCode (d e : Expr) : Prop := d.ungroup = e.ungroup

structure SameCall (c d : Expr) : Prop where
  applies : c.Applies
  applies' : d.Applies
  code : c.SameCode d

/-- The same code without parentheses in front: parentheses can differ further down only. -/
inductive SameNode : Expr → Expr → Prop where
  | same (e : Expr) : SameNode e e
  | define (name : String) (params : List String) (line : Nat) {body body' : List Expr}
    (hb : body.map ungroup = body'.map ungroup) :
    SameNode (.define name params body line) (.define name params body' line)
  | call {c d : Expr} (h : c.SameCall d) : SameNode c d

theorem SameNode.of_eq {d e : Expr} (h : d = e) : SameNode d e := h ▸ .same d

theorem SameCode.node {d e : Expr} (h : d.SameCode e) :
    (∃ inner line, d = .group inner line) ∨ (∃ inner line, e = .group inner line) ∨
      SameNode d e := by
  cases d with
  | group inner line => exact .inl ⟨inner, line, rfl⟩
  | nil | number | word | var | list =>
    cases e with
    | group inner line => exact .inr (.inl ⟨inner, line, rfl⟩)
    | nil | number | word | var | list => exact .inr (.inr (.of_eq h))
    | define | call | binary => cases h
  | define name params body line =>
    cases e with
    | group inner line => exact .inr (.inl ⟨inner, line, rfl⟩)
    | define name' params' body' line' =>
      simp only [SameCode, ungroup, ungroupList_eq_map, Expr.define.injEq] at h
      obtain ⟨rfl, rfl, hb, rfl⟩ := h
      exact .inr (.inr (.define name params line hb))
    | _ => cases h
  | call | binary =>
    cases e with
    | group inner line => exact .inr (.inl ⟨inner, line, rfl⟩)
    | call | binary => exact .inr (.inr (.call ⟨trivial, trivial, h⟩))
    | _ => cases h

section Applied

variable {c d : Expr}

theorem callee_ungroup (h : c.Applies) : c.ungroup.callee = c.callee := by
  cases c with
  | call | binary => rfl
  | _ => exact h.elim

theorem line?_ungroup (h : c.Applies) : c.ungroup.line? = c.line? := by
  cases c with
  | call | binary => rfl
  | _ => exact h.elim

theorem operands_ungroup (h : c.Applies) : c.ungroup.operands = c.operands.map ungroup := by
  cases c with
  | call name args line => exact ungroupList_eq_map args
  | binary => rfl
  | _ => exact h.elim

namespace SameCall

theorem refl (h : c.Applies) : c.SameCall c := ⟨h, h, rfl⟩

theorem callee (h : c.SameCall d) : c.callee = d.callee := by
  rw [← callee_ungroup h.applies, h.code, callee_ungroup h.applies']

theorem line (h : c.SameCall d) : c.line? = d.line? := by
  rw [← line?_ungroup h.applies, h.code, line?_ungroup h.applies']

theorem operands (h : c.SameCall d) : c.operands.map ungroup = d.operands.map ungroup := by
  rw [← operands_ungroup h.applies, h.code, operands_ungroup h.applies']

theorem operand (h : c.SameCall d) (i : Nat) :
    (c.operands[i]?.getD c).ungroup = (d.operands[i]?.getD d).ungroup := by
  have hi : c.operands[i]?.map ungroup = d.operands[i]?.map ungroup := by
    rw [← List.getElem?_map, ← List.getElem?_map, h.operands]
  rw [← Option.getD_map ungroup, ← Option.getD_map ungroup, hi, h.code]

end SameCall

end Applied

end Expr

def Word.ungroup : Word → Word
  | .defined params body => .defined params (body.map Expr.ungroup)
  | word => word

theorem Word.takes_ungroup (word : Word) (n : Nat) : word.ungroup.takes n = word.takes n := by
  cases word <;> rfl

theorem Word.arity_ungroup (word : Word) : word.ungroup.signature.arity = word.signature.arity := by
  cases word <;> rfl

def RunFault.ungroup : RunFault → RunFault
  | .noValue arg => .noValue arg.ungroup
  | cause => cause

def Fault.ungroup : Fault → Fault
  | .run cause site => .run cause.ungroup (site.map Expr.ungroup)
  | f => f

theorem Fault.kindName_ungroup (f : Fault) : f.ungroup.kindName = f.kindName := by
  cases f <;> rfl

/-- The worlds are the same but for parentheses in the bodies of procedures. -/
structure World.SameCode (w w' : World) : Prop where
  words : ∀ name, (w.words.get? name).map Word.ungroup = (w'.words.get? name).map Word.ungroup
  scopes : w.scopes = w'.scopes
  output : w.output = w'.output
  silent : w.silent = w'.silent

namespace World.SameCode

variable {w w' : World}

theorem refl (w : World) : w.SameCode w := ⟨fun _ => rfl, rfl, rfl, rfl⟩

theorem learn (h : w.SameCode w') (name : String) (params : List String) {body body' : List Expr}
    (hb : body.map Expr.ungroup = body'.map Expr.ungroup) :
    (w.learn name params body).SameCode (w'.learn name params body') := by
  refine ⟨fun other => ?_, h.scopes, h.output, h.silent⟩
  simp only [World.learn, Table.get?_insert]
  split
  · simp only [Option.map_some, Word.ungroup, hb]
  · exact h.words other

theorem print (h : w.SameCode w') (line : String) : (w.print line).SameCode (w'.print line) := by
  simp only [World.print, h.silent]
  split
  · exact h
  · exact ⟨h.words, h.scopes, congrArg (· ++ line ++ "\n") h.output, rfl⟩

theorem entered (h : w.SameCode w') (params : List String) (args : List Value) :
    (w.entered params args).SameCode (w'.entered params args) := by
  refine ⟨h.words, ?_, h.output, h.silent⟩
  simp only [World.entered, h.scopes]

theorem get? (h : w.SameCode w') {name : String} {word : Word}
    (hw : w.words.get? name = some word) :
    ∃ word', w'.words.get? name = some word' ∧ word.ungroup = word'.ungroup := by
  have hn := h.words name
  rw [hw, Option.map_some, eq_comm, Option.map_eq_some_iff] at hn
  obtain ⟨word', hw', he⟩ := hn
  exact ⟨word', hw', he.symm⟩

variable {c d : Expr} {args : List Value}

theorem accepts (h : w.SameCode w') (hc : c.SameCall d) {word : Word}
    (ha : w.Accepts c args word) :
    ∃ word', w'.Accepts d args word' ∧ word.ungroup = word'.ungroup := by
  obtain ⟨word', hw', he⟩ := h.get? (hc.callee ▸ ha.known)
  refine ⟨word', ⟨hw', ha.valued, ?_⟩, he⟩
  rw [← word'.takes_ungroup, ← he, word.takes_ungroup]
  exact ha.counted

theorem accepts_core (h : w.SameCode w') (hc : c.SameCall d) {k : CoreWord}
    (ha : w.Accepts c args (.core k)) : w'.Accepts d args (.core k) := by
  obtain ⟨word', ha', he⟩ := h.accepts hc ha
  cases word' with
  | core k' =>
    cases he
    exact ha'
  | host | defined => cases he

theorem accepts_defined (h : w.SameCode w') (hc : c.SameCall d) {params : List String}
    {body : List Expr} (ha : w.Accepts c args (.defined params body)) :
    ∃ body', w'.Accepts d args (.defined params body') ∧
      body.map Expr.ungroup = body'.map Expr.ungroup := by
  obtain ⟨word', ha', he⟩ := h.accepts hc ha
  cases word' with
  | defined params' body' =>
    simp only [Word.ungroup, Word.defined.injEq] at he
    obtain ⟨rfl, hb⟩ := he
    exact ⟨body', ha', hb⟩
  | core | host => cases he

theorem refuses (h : w.SameCode w') (hc : c.SameCall d) {f : Fault} (hf : w.Refuses c args f) :
    ∃ f', w'.Refuses d args f' ∧ f.ungroup = f'.ungroup := by
  cases hf with
  | unknown hw =>
    have hn := h.words c.callee
    rw [hw, Option.map_none, eq_comm, Option.map_eq_none_iff, hc.callee] at hn
    refine ⟨_, .unknown hn, ?_⟩
    rw [hc.callee, hc.line]
  | @noValue word before after arg hw ha hb he =>
    obtain ⟨word', hw', -⟩ := h.get? (hc.callee ▸ hw)
    refine ⟨_, .noValue hw' ha hb rfl, ?_⟩
    simp only [Fault.ungroup, RunFault.ungroup, Option.map_some, ← he, hc.operand]
  | @miscounted word hw hv ht =>
    obtain ⟨word', hw', he⟩ := h.get? (hc.callee ▸ hw)
    have ht' : word'.takes args.length = false := by
      rw [← word'.takes_ungroup, ← he, word.takes_ungroup]
      exact ht
    refine ⟨_, .miscounted hw' hv ht', ?_⟩
    simp only [Fault.ungroup, RunFault.ungroup, Option.map_some, hc.callee, ← word.arity_ungroup,
      ← word'.arity_ungroup, he, show c.ungroup = d.ungroup from hc.code]

end World.SameCode

inductive Task.SameCode : Task → Task → Prop where
  | eval {d e : Expr} (h : d.SameCode e) (g : Scopes.Handle) : SameCode (.eval d g) (.eval e g)
  | run {ds es : List Expr} (h : ds.map Expr.ungroup = es.map Expr.ungroup) (g : Scopes.Handle) :
    SameCode (.run ds g) (.run es g)
  | give (v : Value) : SameCode (.give v) (.give v)

inductive Frame.SameCode : Frame → Frame → Prop where
  | args {c d : Expr} {todo todo' : List Expr} (hc : c.SameCall d) (done : Array Value)
    (ht : todo.map Expr.ungroup = todo'.map Expr.ungroup) (g : Scopes.Handle) :
    SameCode (.args c done todo g) (.args d done todo' g)
  | block {ds es : List Expr} (h : ds.map Expr.ungroup = es.map Expr.ungroup)
    (g : Scopes.Handle) : SameCode (.block ds g) (.block es g)
  | loop (n : Nat) {ds es : List Expr} (h : ds.map Expr.ungroup = es.map Expr.ungroup)
    (g : Scopes.Handle) : SameCode (.loop n ds g) (.loop n es g)

structure EvaluatesSame (w : World) (t : Task) (stack : List Frame) (w' : World) (t' : Task)
    (stack' : List Frame) : Prop where
  world : w.SameCode w'
  task : t.SameCode t'
  stack : List.Forall₂ Frame.SameCode stack stack'

/-- Both evaluations have stopped, at the same code or with the same value. -/
inductive StopsSame : World × Outcome → World × Outcome → Prop where
  | waiting {w w' : World} {c d : Expr} {stack stack' : List Frame} (hw : w.SameCode w')
    (hc : c.SameCall d) (args : List Value) (g : Scopes.Handle)
    (hs : List.Forall₂ Frame.SameCode stack stack') :
    StopsSame (w, .waiting ⟨c, .apply args g, stack⟩) (w', .waiting ⟨d, .apply args g, stack'⟩)
  | done {w w' : World} (hw : w.SameCode w') (v : Value) : StopsSame (w, .done v) (w', .done v)
  | failed {w w' : World} (hw : w.SameCode w') {f f' : Fault} (hf : f.ungroup = f'.ungroup) :
    StopsSame (w, .failed f) (w', .failed f')

section Moves

variable {w w' : World} {stack stack' : List Frame}

theorem same_evalArgs (hw : w.SameCode w') {c d : Expr} (hc : c.SameCall d) (done : Array Value)
    {todo todo' : List Expr} (ht : todo.map Expr.ungroup = todo'.map Expr.ungroup)
    (g : Scopes.Handle) (hs : List.Forall₂ Frame.SameCode stack stack') :
    (w.evalArgs c done todo g stack).Both EvaluatesSame StopsSame
      (w'.evalArgs d done todo' g stack') := by
  cases todo with
  | nil =>
    cases todo' with
    | nil => exact .stop (.waiting hw hc done.toList g hs)
    | cons => cases ht
  | cons e es =>
    cases todo' with
    | nil => cases ht
    | cons e' es' =>
      obtain ⟨he, hes⟩ := List.cons.inj ht
      exact .next ⟨hw, .eval he g, .cons (.args hc done hes g) hs⟩

theorem same_node (hw : w.SameCode w') {d e : Expr} (h : d.SameNode e) (g : Scopes.Handle)
    (hs : List.Forall₂ Frame.SameCode stack stack') :
    (w.moveEval d g stack).Both EvaluatesSame StopsSame (w'.moveEval e g stack') := by
  have applied {c d : Expr} (hc : c.SameCall d) :
      (w.moveEval c g stack).Both EvaluatesSame StopsSame (w'.moveEval d g stack') := by
    rw [World.moveEval_applies hc.applies, World.moveEval_applies hc.applies']
    exact same_evalArgs hw hc #[] hc.operands g hs
  cases h with
  | call hc => exact applied hc
  | define name params line hb => exact .next ⟨hw.learn name params hb, .give .void, hs⟩
  | same =>
    cases d with
    | call | binary => exact applied (.refl trivial)
    | group inner line => exact .next ⟨hw, .eval rfl g, hs⟩
    | define name params body line => exact .next ⟨hw.learn name params rfl, .give .void, hs⟩
    | nil | number | word | list => exact .next ⟨hw, .give _, hs⟩
    | var name line =>
      simp only [World.moveEval, hw.scopes]
      split
      · exact .next ⟨hw, .give _, hs⟩
      · exact .stop (.failed hw rfl)

theorem same_moveRun (hw : w.SameCode w') {ds es : List Expr}
    (h : ds.map Expr.ungroup = es.map Expr.ungroup) (g : Scopes.Handle)
    (hs : List.Forall₂ Frame.SameCode stack stack') :
    (w.moveRun ds g stack).Both EvaluatesSame StopsSame (w'.moveRun es g stack') := by
  match ds, es with
  | [], [] => exact .next ⟨hw, .give .void, hs⟩
  | [d], [e] => exact .next ⟨hw, .eval (List.cons.inj h).1 g, hs⟩
  | d :: d' :: ds, e :: e' :: es =>
    obtain ⟨he, hes⟩ := List.cons.inj h
    exact .next ⟨hw, .eval he g, .cons (.block hes g) hs⟩
  | [], _ :: _ | _ :: _, [] | [_], _ :: _ :: _ | _ :: _ :: _, [_] => simp at h

theorem same_moveGive (hw : w.SameCode w') (v : Value)
    (hs : List.Forall₂ Frame.SameCode stack stack') :
    (w.moveGive v stack).Both EvaluatesSame StopsSame (w'.moveGive v stack') := by
  cases hs with
  | nil => exact .stop (.done hw v)
  | cons hf hs =>
    cases hf with
    | args hc done ht g => exact same_evalArgs hw hc (done.push v) ht g hs
    | block h g => exact .next ⟨hw, .run h g, hs⟩
    | loop n h g =>
      cases n with
      | zero => exact .next ⟨hw, .give .void, hs⟩
      | succ n => exact .next ⟨hw, .run h g, .cons (.loop n h g) hs⟩

theorem same_eval (hw : w.SameCode w') {d e : Expr} (h : d.SameCode e) (g : Scopes.Handle)
    (hs : List.Forall₂ Frame.SameCode stack stack') :
    Simulates EvaluatesSame StopsSame w (.eval d g) stack w' (.eval e g) stack' := by
  rcases h.node with ⟨inner, line, rfl⟩ | ⟨inner, line, rfl⟩ | hn
  · have hi : inner.SameCode e := h
    exact .first rfl ⟨hw, .eval hi g, hs⟩
  · have hi : d.SameCode inner := h
    exact .second rfl ⟨hw, .eval hi g, hs⟩
  · exact .both (same_node hw hn g hs)

theorem stopsSame_settle {t t' : Task} (h : EvaluatesSame w t stack w' t' stack') :
    StopsSame (w.settle t stack) (w'.settle t' stack') := by
  refine settle_relates ?_ h
  rintro w t stack w' t' stack' ⟨hw, ht, hs⟩
  cases ht with
  | eval h g => exact same_eval hw h g hs
  | run h g => exact .both (same_moveRun hw h g hs)
  | give v => exact .both (same_moveGive hw v hs)

theorem stopsSame_proceed (hw : w.SameCode w') (hp : w.Plain) {c d : Expr} (hc : c.SameCall d)
    (args : List Value) (g : Scopes.Handle) (hs : List.Forall₂ Frame.SameCode stack stack') :
    StopsSame ((Pending.mk c (.apply args g) stack).proceed w)
      ((Pending.mk d (.apply args g) stack').proceed w') := by
  have hx := Pending.performs_proceed hp c args g stack
  generalize (Pending.mk c (.apply args g) stack).proceed w = x at hx ⊢
  cases hx with
  | refused hf =>
    obtain ⟨f', hf', he⟩ := hw.refuses hc hf
    rw [Pending.proceed_refused hf']
    exact .failed hw he
  | failed ha hk =>
    rw [Pending.proceed_failed (hw.accepts_core hc ha) (hc.line ▸ hk)]
    exact .failed hw (congrArg (Fault.run _ ∘ some) hc.code)
  | value ha hk =>
    rw [Pending.proceed_core (hw.accepts_core hc ha) (hc.line ▸ hk)]
    exact stopsSame_settle ⟨hw, .give _, hs⟩
  | say ha hk =>
    rw [Pending.proceed_core (hw.accepts_core hc ha) (hc.line ▸ hk)]
    exact stopsSame_settle ⟨hw.print _, .give .void, hs⟩
  | run ha hk =>
    rw [Pending.proceed_core (hw.accepts_core hc ha) (hc.line ▸ hk)]
    exact stopsSame_settle ⟨hw, .run rfl g, hs⟩
  | loop ha hk =>
    rw [Pending.proceed_core (hw.accepts_core hc ha) (hc.line ▸ hk)]
    exact stopsSame_settle ⟨hw, .give .void, .cons (.loop _ rfl g) hs⟩
  | enter ha =>
    obtain ⟨body', ha', hb⟩ := hw.accepts_defined hc ha
    rw [Pending.proceed_defined ha', ← hw.scopes]
    exact stopsSame_settle ⟨hw.entered _ _, .run hb _, hs⟩

end Moves

namespace Machine

/-- The machines are at the same point of the same code, with the same bindings and values. -/
structure SameRun (m m' : Machine) : Prop where
  words : ∀ name, (m.world.words.get? name).map Word.ungroup =
    (m'.world.words.get? name).map Word.ungroup
  scopes : m.world.scopes = m'.world.scopes
  output : m.world.output = m'.world.output
  state : m.stateName = m'.stateName
  steps : m.steps = m'.steps
  value : Option.Rel (fun u v => u.equals v = true) m.value? m'.value?
  current : m.current.map Expr.ungroup = m'.current.map Expr.ungroup
  fault : m.fault?.map Fault.ungroup = m'.fault?.map Fault.ungroup
  kind : m.fault?.map Fault.kindName = m'.fault?.map Fault.kindName

variable {x y : World × Outcome} {current current' : Option Expr}

theorem sameRun_stopped (h : StopsSame x y)
    (hc : current.map Expr.ungroup = current'.map Expr.ungroup) (steps : Nat) :
    (stopped current steps x).SameRun (stopped current' steps y) := by
  cases h with
  | waiting hw hcall args g hs =>
    exact ⟨hw.words, hw.scopes, hw.output, rfl, rfl, .none, congrArg some hcall.code, rfl, rfl⟩
  | done hw v =>
    exact ⟨hw.words, hw.scopes, hw.output, rfl, rfl, .some v.equals_self, rfl, rfl, rfl⟩
  | @failed w w' hw f f' hf =>
    have hk : f.kindName = f'.kindName := by
      rw [← f.kindName_ungroup, hf, f'.kindName_ungroup]
    exact ⟨hw.words, hw.scopes, hw.output, rfl, rfl, .none, hc, congrArg some hf, congrArg some hk⟩

theorem sameRun_exhaust (h : StopsSame x y)
    (hc : current.map Expr.ungroup = current'.map Expr.ungroup) (steps : Nat) :
    (stopped current steps x).exhaust.SameRun (stopped current' steps y).exhaust := by
  cases h with
  | waiting hw hcall args g hs =>
    exact ⟨hw.words, hw.scopes, hw.output, rfl, rfl, .none, congrArg some hcall.code,
      congrArg (some ∘ Fault.run .budgetExhausted ∘ some) hcall.code, rfl⟩
  | done hw v => exact sameRun_stopped (.done hw v) hc steps
  | failed hw hf => exact sameRun_stopped (.failed hw hf) hc steps

def AtSame (m m' : Machine) : Prop :=
  ∃ current current' steps x y, StopsSame x y ∧ x.1.Plain ∧
    current.map Expr.ungroup = current'.map Expr.ungroup ∧ m = stopped current steps x ∧
    m' = stopped current' steps y

theorem AtSame.advance {m m' : Machine} (h : m.AtSame m') (n : Nat) :
    (m.advance n).AtSame (m'.advance n) := by
  induction n generalizing m m' with
  | zero => exact h
  | succ n ih =>
    obtain ⟨current, current', steps, x, y, hx, hp, hc, rfl, rfl⟩ := h
    cases hx with
    | @waiting w w' c d stack stack' hw hcall args g hs =>
      exact ih ⟨some c, some d, steps + 1, _, _, stopsSame_proceed hw hp hcall args g hs,
        hp.proceed _, congrArg some hcall.code, rfl, rfl⟩
    | done hw v => exact ⟨current, current', steps, _, _, .done hw v, hp, hc, rfl, rfl⟩
    | failed hw hf => exact ⟨current, current', steps, _, _, .failed hw hf, hp, hc, rfl, rfl⟩

theorem AtSame.sameRun {m m' : Machine} (h : m.AtSame m') : m.SameRun m' := by
  obtain ⟨current, current', steps, x, y, hx, -, hc, rfl, rfl⟩ := h
  exact sameRun_stopped hx hc steps

theorem AtSame.exhaust {m m' : Machine} (h : m.AtSame m') : m.exhaust.SameRun m'.exhaust := by
  obtain ⟨current, current', steps, x, y, hx, -, hc, rfl, rfl⟩ := h
  exact sameRun_exhaust hx hc steps

theorem atSame_start {m : Machine} (hm : m.world.Plain) (p : Program) :
    (m.start p).AtSame (m.start (p.map Expr.ungroup)) := by
  have hp : p.map Expr.ungroup = (p.map Expr.ungroup).map Expr.ungroup := by
    simp only [List.map_map, Function.comp_def, Expr.ungroup_ungroup]
  exact ⟨none, none, 0, _, _, stopsSame_settle ⟨.refl m.world, .run hp Scopes.globals, .nil⟩,
    hm.settle _ _, rfl, rfl, rfl⟩

/-- A program and the program without its parentheses, those within lists apart, on one machine
without host words: with or without a budget, and however long they are run, they are at the same
point of the same code. -/
theorem parentheses_are_transparent (m : Machine) (hm : m.world.Plain) (p : Program) (limit : Nat)
    (budget : Option Nat) :
    ((m.start p).run limit budget).SameRun
      ((m.start (p.map Expr.ungroup)).run limit budget) := by
  have h := atSame_start hm p
  cases budget with
  | none => exact (h.advance limit).sameRun
  | some b =>
    have hs : (m.start (p.map Expr.ungroup)).steps = (m.start p).steps := h.sameRun.steps.symm
    simp only [run, runWithin, hs]
    exact (h.advance _).exhaust

def wrapped : Program :=
  [.group (.define "f" ["x"]
    [.group (.call "print" [.group (.binary .add (.var "x" 1) (.number 1 1) 1) 1] 1) 1] 0) 0,
   .call "f" [.group (.group (.number 3 2) 2) 2] 2,
   .call "print" [.list [.group (.number 1 3) 3] 3] 3,
   .call "print" [.group (.call "f" [.number 4 4] 4) 4] 4]

theorem parentheses_are_transparent_wrapped :
    ({} : Machine).world.Plain ∧
      ((({} : Machine).start wrapped).run 20 none).SameRun
        ((({} : Machine).start (wrapped.map Expr.ungroup)).run 20 none) ∧
      ((({} : Machine).start wrapped).run 20 none).world.output = "4\n[(1)]\n5\n" ∧
      ((({} : Machine).start wrapped).run 20 none).fault?.map Fault.message =
        some "RuntimeError: '(f 4) has no value'" :=
  ⟨World.Plain.core, parentheses_are_transparent {} World.Plain.core wrapped 20 none,
    by decide +kernel, by decide +kernel⟩

end Machine

end LogoLang
