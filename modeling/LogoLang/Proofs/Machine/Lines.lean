import LogoLang.Proofs.Expr.Lines
import LogoLang.Proofs.Machine.Settling

/-!
Lines do not matter to a run. They can be changed throughout a machine: in its procedures, in its
values and in what it has still to do. Main statement: a session of a machine without host words
goes along with any change of lines.
-/

set_option autoImplicit false

namespace LogoLang

variable (f : Nat → Nat)

namespace Expr

@[simp] theorem line?_mapLines (e : Expr) : (e.mapLines f).line? = e.line?.map f := by
  cases e <;> rfl

@[simp] theorem callee_mapLines (e : Expr) : (e.mapLines f).callee = e.callee := by
  cases e <;> rfl

@[simp] theorem operands_mapLines (e : Expr) :
    (e.mapLines f).operands = e.operands.map (mapLines f) := by
  cases e <;> simp [mapLines, operands, mapLinesList_eq_map]

theorem applies_mapLines {e : Expr} : (e.mapLines f).Applies ↔ e.Applies := by
  cases e <;> rfl

mutual
theorem mapLines_mapLines (f g : Nat → Nat) : ∀ e : Expr,
    (e.mapLines g).mapLines f = e.mapLines (f ∘ g)
  | .nil | .number _ _ | .word _ _ | .var _ _ => rfl
  | .list items _ => by simp [mapLines, mapLinesList_mapLinesList f g items]
  | .define _ _ body _ => by simp [mapLines, mapLinesList_mapLinesList f g body]
  | .call _ args _ => by simp [mapLines, mapLinesList_mapLinesList f g args]
  | .binary _ left right _ => by
    simp [mapLines, mapLines_mapLines f g left, mapLines_mapLines f g right]
  | .group inner _ => by simp [mapLines, mapLines_mapLines f g inner]
theorem mapLinesList_mapLinesList (f g : Nat → Nat) : ∀ es : List Expr,
    mapLinesList f (mapLinesList g es) = mapLinesList (f ∘ g) es
  | [] => rfl
  | e :: es => by
    simp [mapLinesList, mapLines_mapLines f g e, mapLinesList_mapLinesList f g es]
end

mutual
theorem mapLines_id : ∀ e : Expr, e.mapLines id = e
  | .nil | .number _ _ | .word _ _ | .var _ _ => rfl
  | .list items _ => by simp [mapLines, mapLinesList_id items]
  | .define _ _ body _ => by simp [mapLines, mapLinesList_id body]
  | .call _ args _ => by simp [mapLines, mapLinesList_id args]
  | .binary _ left right _ => by simp [mapLines, mapLines_id left, mapLines_id right]
  | .group inner _ => by simp [mapLines, mapLines_id inner]
theorem mapLinesList_id : ∀ es : List Expr, mapLinesList id es = es
  | [] => rfl
  | e :: es => by simp [mapLinesList, mapLines_id e, mapLinesList_id es]
end

@[simp] theorem unlined_mapLines (e : Expr) : (e.mapLines f).unlined = e.unlined :=
  mapLines_mapLines (fun _ => 0) f e

theorem alikeList_mapLines (as bs : List Expr) :
    alikeList (as.map (mapLines f)) (bs.map (mapLines f)) = alikeList as bs := by
  rw [Bool.eq_iff_iff, alikeList_iff, alikeList_iff]
  simp [Function.comp_def]

end Expr

namespace Value

def mapLines : Value → Value
  | .list items line => .list (items.map (Expr.mapLines f)) (f line)
  | v => v

@[simp] theorem mapLines_list (items : List Expr) (line : Nat) :
    (Value.list items line).mapLines f = .list (items.map (Expr.mapLines f)) (f line) := rfl

@[simp] theorem isVoid_mapLines (v : Value) : (v.mapLines f).isVoid = v.isVoid := by
  cases v <;> rfl

@[simp] theorem kind_mapLines (v : Value) : (v.mapLines f).kind = v.kind := by
  cases v <;> rfl

@[simp] theorem toNumber?_mapLines (v : Value) : (v.mapLines f).toNumber? = v.toNumber? := by
  cases v <;> rfl

@[simp] theorem toBool?_mapLines (v : Value) : (v.mapLines f).toBool? = v.toBool? := by
  cases v <;> rfl

@[simp] theorem toItems?_mapLines (v : Value) :
    (v.mapLines f).toItems? = v.toItems?.map (List.map (Expr.mapLines f)) := by
  cases v <;> rfl

theorem equals_self (v : Value) : v.equals v = true := by
  cases v with
  | list items line => exact (Expr.alikeList_iff items items).2 rfl
  | _ => simp [equals]

@[simp] theorem equals_mapLines (u v : Value) :
    (u.mapLines f).equals (v.mapLines f) = u.equals v := by
  cases u <;> cases v <;> simp [mapLines, equals, Expr.alikeList_mapLines]

@[simp] theorem text_mapLines (v : Value) : (v.mapLines f).text = v.text := by
  cases v with
  | list items line =>
    have h := Expr.render_mapLines .standard f true (.list items line)
    simpa only [mapLines, text, Expr.text, Expr.mapLines, Expr.mapLinesList_eq_map] using h
  | _ => rfl

theorem toExpr?_mapLines (v : Value) (line : Nat) :
    (v.mapLines f).toExpr? (f line) = (v.toExpr? line).map (Expr.mapLines f) := by
  cases v <;> simp [mapLines, toExpr?, Expr.mapLines, Expr.mapLinesList_eq_map]

end Value

def RunFault.mapLines : RunFault → RunFault
  | .noValue arg => .noValue (arg.mapLines f)
  | cause => cause

theorem RunFault.OfValues.mapLines_eq {cause : RunFault} (h : cause.OfValues) :
    cause.mapLines f = cause := by
  cases cause with
  | noValue => exact h.elim
  | _ => rfl

def Fault.mapLines : Fault → Fault
  | .grammar cause token => .grammar cause (token.map fun t => { t with line := f t.line })
  | .unknown name line => .unknown name (line.map f)
  | .run cause site => .run (cause.mapLines f) (site.map (Expr.mapLines f))

@[simp] theorem Fault.line?_mapLines (x : Fault) : (x.mapLines f).line? = x.line?.map f := by
  cases x with
  | grammar cause token => cases token <;> rfl
  | unknown name line => rfl
  | run cause site => cases site <;> simp [mapLines, line?]

theorem Fault.mapLines_cancel {g : Nat → Nat} (h : f ∘ g = id) (x : Fault) :
    (x.mapLines g).mapLines f = x := by
  have hn : ∀ n, f (g n) = n := congrFun h
  have he : ∀ e : Expr, (e.mapLines g).mapLines f = e := fun e => by
    rw [Expr.mapLines_mapLines, h, Expr.mapLines_id]
  cases x with
  | grammar cause token => cases token <;> simp [mapLines, hn]
  | unknown name line => cases line <;> simp [mapLines, hn]
  | run cause site =>
    have hc : (cause.mapLines g).mapLines f = cause := by
      cases cause <;> simp [RunFault.mapLines, he]
    cases site <;> simp [mapLines, hc, he]

theorem RunFault.message_mapLines (cause : RunFault) :
    (cause.mapLines f).message = cause.message := by
  cases cause with
  | noValue arg => simp [mapLines, message, Expr.text, Expr.render_mapLines]
  | _ => rfl

@[simp] theorem Fault.message_mapLines (x : Fault) : (x.mapLines f).message = x.message := by
  cases x with
  | grammar cause token => rfl
  | unknown name line => rfl
  | run cause site => simp [mapLines, message, RunFault.message_mapLines]

def Reply.mapLines : Reply → Reply
  | .value v => .value (v.mapLines f)
  | .say line => .say line
  | .run items h => .run (items.map (Expr.mapLines f)) h
  | .twice items h => .twice (items.map (Expr.mapLines f)) h
  | .loop n items h => .loop n (items.map (Expr.mapLines f)) h
  | .finish v => .finish (v.mapLines f)
  | .hold v => .hold (v.mapLines f)

namespace CoreWord

@[simp] theorem number_mapLines (w : CoreWord) (v : Value) :
    w.number (v.mapLines f) = w.number v := by
  simp [number]

@[simp] theorem truth_mapLines (w : CoreWord) (v : Value) :
    w.truth (v.mapLines f) = w.truth v := by
  simp [truth]

@[simp] theorem block_mapLines (w : CoreWord) (v : Value) :
    w.block (v.mapLines f) = List.map (Expr.mapLines f) <$> w.block v := by
  cases v <;> rfl

theorem total_mapLines (start : Int64) (args : List Value) :
    total start (args.map (Value.mapLines f)) = total start args := by
  induction args generalizing start with
  | nil => rfl
  | cons v vs ih => simp only [List.map_cons, total, number_mapLines, ih]

theorem listOf_mapLines (line : Nat) (args : List Value) :
    listOf (f line) (args.map (Value.mapLines f)) = (listOf line args).mapLines f := by
  simp only [listOf, Value.mapLines_list, List.filterMap_map, List.map_filterMap, Function.comp_def,
    Value.toExpr?_mapLines]

theorem numeric_mapLines {x : Except RunFault Value}
    (h : Gives RunFault.OfValues (fun v => ∃ m, v = .number m) x) :
    Reply.mapLines f <$> Reply.value <$> x = Reply.value <$> x := by
  cases x with
  | error cause => rfl
  | ok v =>
    obtain ⟨m, rfl⟩ := h
    rfl

theorem act_mapLines {w : CoreWord} {args : List Value}
    (hn : (Word.core w).takes args.length = true) (line : Nat) (scope : Scopes.Handle) :
    w.act (f line) scope (args.map (Value.mapLines f)) =
      Reply.mapLines f <$> w.act line scope args := by
  simp only [Word.takes, Word.signature, Signature.isVariadic, Signature.arity, Bool.or_eq_true,
    beq_iff_eq] at hn
  have two (hv : w.isVariadic = false) (ha : w.arity = 2) : ∃ a b, args = [a, b] := by
    simpa [hv, ha, List.length_eq_two] using hn
  cases w with
  | add | subtract | multiply =>
    obtain ⟨a, b, rfl⟩ := two rfl rfl
    simp only [act, List.map_cons, List.map_nil, number_mapLines, map_bind,
      numeric_mapLines f (fitted_gives _)]
  | divide =>
    obtain ⟨a, b, rfl⟩ := two rfl rfl
    simp only [act, List.map_cons, List.map_nil, number_mapLines, map_bind,
      numeric_mapLines f (quotient_gives _ _)]
  | less | greater =>
    obtain ⟨a, b, rfl⟩ := two rfl rfl
    simp only [act, List.map_cons, List.map_nil, number_mapLines, map_bind]
    rfl
  | equal =>
    obtain ⟨a, b, rfl⟩ := two rfl rfl
    simp only [act, List.map_cons, List.map_nil, Value.equals_mapLines]
    rfl
  | sum =>
    simp only [act, total_mapLines]
    exact (numeric_mapLines f (total_gives 0 args)).symm
  | list =>
    simp only [act, listOf_mapLines]
    rfl
  | loop =>
    obtain ⟨a, b, rfl⟩ := two rfl rfl
    simp only [act, List.map_cons, List.map_nil, number_mapLines, block_mapLines, map_bind,
      bind_map_left]
    rfl
  | when =>
    obtain ⟨a, b, rfl⟩ := two rfl rfl
    simp only [act, List.map_cons, List.map_nil, truth_mapLines, block_mapLines, map_bind,
      bind_map_left]
    congr
    funext holds
    cases holds <;> rfl
  | choose =>
    obtain ⟨a, b, c, rfl⟩ := List.length_eq_three.1 (hn.resolve_left (by decide))
    simp only [act, List.map_cons, List.map_nil, truth_mapLines, block_mapLines, map_bind,
      bind_map_left]
    congr
    funext holds
    cases holds <;> rfl
  | print =>
    obtain ⟨a, rfl⟩ := List.length_eq_one_iff.1 (hn.resolve_left (by decide))
    simp only [act, List.map_cons, List.map_nil, Value.text_mapLines]
    rfl

end CoreWord

def Word.mapLines : Word → Word
  | .defined params body => .defined params (body.map (Expr.mapLines f))
  | word => word

@[simp] theorem Word.signature_mapLines (word : Word) :
    (word.mapLines f).signature = word.signature := by
  cases word <;> rfl

@[simp] theorem Word.takes_mapLines (word : Word) (n : Nat) :
    (word.mapLines f).takes n = word.takes n := by
  simp only [takes, signature_mapLines]

def Scope.mapLines (c : Scope) : Scope := { c with bindings := c.bindings.map (Value.mapLines f) }

namespace Scopes

def mapLines (s : Scopes) : Scopes := ⟨s.cells.map (Scope.mapLines f)⟩

@[simp] theorem next_mapLines (s : Scopes) : (s.mapLines f).next = s.next := by
  simp [mapLines, next]

@[simp] theorem own?_mapLines (s : Scopes) (h : Handle) (name : String) :
    (s.mapLines f).own? h name = (s.own? h name).map (Value.mapLines f) := by
  simp only [own?, mapLines, Array.getElem?_map]
  cases s.cells[h]? <;> simp [Scope.mapLines]

@[simp] theorem parent?_mapLines (s : Scopes) (h : Handle) :
    (s.mapLines f).parent? h = s.parent? h := by
  simp only [parent?, mapLines, Array.getElem?_map]
  cases s.cells[h]? <;> rfl

@[simp] theorem lookup_mapLines (s : Scopes) (h : Handle) (name : String) :
    (s.mapLines f).lookup h name = (s.lookup h name).map (Value.mapLines f) := by
  fun_induction lookup s h name with
  | case1 h v hv =>
    rw [lookup]
    simp [hv]
  | case2 h hv hp =>
    rw [lookup]
    simp [hv, hp]
  | case3 h hv p hp hlt ih =>
    rw [lookup]
    simp [hv, hp, hlt, ih]
  | case4 h hv p hp hlt =>
    rw [lookup]
    simp [hv, hp, hlt]

theorem addChild_mapLines (s : Scopes) (parent : Handle) :
    (s.addChild parent).mapLines f = (s.mapLines f).addChild parent := by
  simp only [addChild, mapLines, Array.map_push]
  rfl

theorem define_mapLines (s : Scopes) (h : Handle) (name : String) (v : Value) :
    (s.define h name v).mapLines f = (s.mapLines f).define h name (v.mapLines f) := by
  simp only [define, mapLines, Scopes.mk.injEq]
  ext i
  · simp
  · simp only [Array.getElem_map, Array.getElem_modify]
    split
    · simp [Scope.mapLines, Table.map_insert]
    · rfl

theorem defineAll_mapLines (s : Scopes) (h : Handle) (bindings : List (String × Value)) :
    (s.defineAll h bindings).mapLines f =
      (s.mapLines f).defineAll h (bindings.map fun b => (b.1, b.2.mapLines f)) := by
  induction bindings generalizing s with
  | nil => rfl
  | cons b bs ih =>
    have h := ih (s.define h b.1 b.2)
    rw [define_mapLines] at h
    exact h

end Scopes

namespace World

def mapLines (w : World) : World :=
  { w with words := w.words.map (Word.mapLines f), scopes := w.scopes.mapLines f }

@[simp] theorem get?_mapLines (w : World) (name : String) :
    (w.mapLines f).words.get? name = (w.words.get? name).map (Word.mapLines f) :=
  Table.get?_map _ _ _

@[simp] theorem scopes_mapLines (w : World) : (w.mapLines f).scopes = w.scopes.mapLines f := rfl

theorem signatures_mapLines (w : World) :
    Registry.signatures (w.mapLines f).words = w.words.signatures := by
  simp [Registry.signatures, Table.map, mapLines, Function.comp_def]

theorem Plain.mapLines {w : World} (hw : w.Plain) : (w.mapLines f).Plain := by
  intro name word h
  rw [get?_mapLines, Option.map_eq_some_iff] at h
  obtain ⟨word', h, rfl⟩ := h
  have hp := hw name word' h
  cases word' with
  | host => cases hp
  | core | defined => rfl

theorem learn_mapLines (w : World) (name : String) (params : List String) (body : List Expr) :
    (w.learn name params body).mapLines f =
      (w.mapLines f).learn name params (body.map (Expr.mapLines f)) := by
  simp only [learn, mapLines, Table.map_insert, Word.mapLines]

theorem print_mapLines (w : World) (line : String) :
    (w.print line).mapLines f = (w.mapLines f).print line := by
  unfold print
  split
  · rename_i h
    simp [mapLines, h]
  · rename_i h
    simp [mapLines, h]

theorem entered_mapLines (w : World) (params : List String) (args : List Value) :
    (w.entered params args).mapLines f =
      (w.mapLines f).entered params (args.map (Value.mapLines f)) := by
  simp only [entered, mapLines, Scopes.defineAll_mapLines, Scopes.addChild_mapLines,
    Scopes.next_mapLines, World.mk.injEq, true_and, and_true]
  congr 1
  simp [List.zip_map_right]

end World

def Task.mapLines : Task → Task
  | .eval e h => .eval (e.mapLines f) h
  | .run items h => .run (items.map (Expr.mapLines f)) h
  | .give v => .give (v.mapLines f)

def Frame.mapLines : Frame → Frame
  | .args call done todo h =>
    .args (call.mapLines f) (done.map (Value.mapLines f)) (todo.map (Expr.mapLines f)) h
  | .block items h => .block (items.map (Expr.mapLines f)) h
  | .loop n items h => .loop n (items.map (Expr.mapLines f)) h

def Resume.mapLines : Resume → Resume
  | .apply args h => .apply (args.map (Value.mapLines f)) h
  | .give v => .give (v.mapLines f)

def Pending.mapLines (p : Pending) : Pending :=
  ⟨p.owner.mapLines f, p.resume.mapLines f, p.stack.map (Frame.mapLines f)⟩

def Outcome.mapLines : Outcome → Outcome
  | .waiting p => .waiting (p.mapLines f)
  | .done v => .done (v.mapLines f)
  | .failed x => .failed (x.mapLines f)

def Move.mapLines : Move → Move
  | .next w t stack => .next (w.mapLines f) (t.mapLines f) (stack.map (Frame.mapLines f))
  | .stop w o => .stop (w.mapLines f) (o.mapLines f)

def relined (x : World × Outcome) : World × Outcome := (x.1.mapLines f, x.2.mapLines f)

namespace World

theorem evalArgs_mapLines (w : World) (call : Expr) (done : Array Value) (todo : List Expr)
    (h : Scopes.Handle) (stack : List Frame) :
    (w.mapLines f).evalArgs (call.mapLines f) (done.map (Value.mapLines f))
        (todo.map (Expr.mapLines f)) h (stack.map (Frame.mapLines f)) =
      (w.evalArgs call done todo h stack).mapLines f := by
  cases todo with
  | nil =>
    simp only [List.map_nil, evalArgs, Move.mapLines, Outcome.mapLines, Pending.mapLines,
      Resume.mapLines, Array.toList_map]
  | cons e es => rfl

theorem moveEval_mapLines (w : World) (e : Expr) (h : Scopes.Handle) (stack : List Frame) :
    (w.mapLines f).moveEval (e.mapLines f) h (stack.map (Frame.mapLines f)) =
      (w.moveEval e h stack).mapLines f := by
  have applied (hc : e.Applies) : (w.mapLines f).moveEval (e.mapLines f) h
      (stack.map (Frame.mapLines f)) = (w.moveEval e h stack).mapLines f := by
    rw [moveEval_applies hc, moveEval_applies ((Expr.applies_mapLines f).2 hc),
      Expr.operands_mapLines]
    simpa using evalArgs_mapLines f w e #[] e.operands h stack
  cases e with
  | call name args line => exact applied trivial
  | binary op left right line => exact applied trivial
  | var name line =>
    simp only [Expr.mapLines, moveEval, scopes_mapLines, Scopes.lookup_mapLines]
    cases w.scopes.lookup h name <;> rfl
  | list items line =>
    simp only [Expr.mapLines, moveEval, Move.mapLines, Task.mapLines, Value.mapLines_list,
      Expr.mapLinesList_eq_map]
  | define name params body line =>
    simp only [Expr.mapLines, moveEval, Move.mapLines, learn_mapLines, Expr.mapLinesList_eq_map]
    rfl
  | _ => rfl

theorem moveRun_mapLines (w : World) (items : List Expr) (h : Scopes.Handle)
    (stack : List Frame) :
    (w.mapLines f).moveRun (items.map (Expr.mapLines f)) h (stack.map (Frame.mapLines f)) =
      (w.moveRun items h stack).mapLines f := by
  rcases items with _ | ⟨e, _ | ⟨e', es⟩⟩ <;> rfl

theorem moveGive_mapLines (w : World) (v : Value) (stack : List Frame) :
    (w.mapLines f).moveGive (v.mapLines f) (stack.map (Frame.mapLines f)) =
      (w.moveGive v stack).mapLines f := by
  match stack with
  | .args call done todo h :: stack =>
    have ha := evalArgs_mapLines f w call (done.push v) todo h stack
    rw [Array.map_push] at ha
    exact ha
  | [] | .block _ _ :: _ | .loop 0 _ _ :: _ | .loop (_ + 1) _ _ :: _ => rfl

theorem move_mapLines (w : World) (t : Task) (stack : List Frame) :
    (w.mapLines f).move (t.mapLines f) (stack.map (Frame.mapLines f)) =
      (w.move t stack).mapLines f := by
  cases t with
  | eval e h => exact moveEval_mapLines f w e h stack
  | run items h => exact moveRun_mapLines f w items h stack
  | give v => exact moveGive_mapLines f w v stack

theorem settle_mapLines (w : World) (t : Task) (stack : List Frame) :
    (w.mapLines f).settle (t.mapLines f) (stack.map (Frame.mapLines f)) =
      relined f (w.settle t stack) := by
  induction w, t, stack using settle.induct with
  | case1 w t stack w' t' stack' hn ih =>
    rw [settle_eq, move_mapLines, settle_eq w, hn]
    exact ih
  | case2 w t stack w' o hs =>
    rw [settle_eq, move_mapLines, settle_eq w, hs]
    rfl

theorem void_mem_mapLines {args : List Value} :
    .void ∈ args.map (Value.mapLines f) ↔ .void ∈ args := by
  rw [List.mem_map]
  constructor
  · rintro ⟨v, hv, he⟩
    cases v with
    | void => exact hv
    | _ => cases he
  · exact fun h => ⟨.void, h, rfl⟩

theorem Refuses.mapLines {w : World} {call : Expr} {args : List Value} {x : Fault}
    (h : w.Refuses call args x) :
    (w.mapLines f).Refuses (call.mapLines f) (args.map (Value.mapLines f)) (x.mapLines f) := by
  have known {word : Option Word} (hw : w.words.get? call.callee = word) :
      (w.mapLines f).words.get? (call.mapLines f).callee = word.map (Word.mapLines f) := by
    simp [hw]
  cases h with
  | unknown hw =>
    have hr : (w.mapLines f).Refuses (call.mapLines f) (args.map (Value.mapLines f)) _ :=
      .unknown (known hw)
    rw [Expr.callee_mapLines, Expr.line?_mapLines] at hr
    exact hr
  | @noValue word before after arg hw ha hb he =>
    have ha' : args.map (Value.mapLines f) =
        before.map (Value.mapLines f) ++ .void :: after.map (Value.mapLines f) := by
      rw [ha, List.map_append]
      rfl
    have he' : (call.mapLines f).operands[(before.map (Value.mapLines f)).length]?.getD
        (call.mapLines f) = arg.mapLines f := by
      simp [← he, Option.getD_map]
    exact .noValue (known hw) ha' (by rwa [void_mem_mapLines]) he'
  | miscounted hw hv ht =>
    have hr : (w.mapLines f).Refuses (call.mapLines f) (args.map (Value.mapLines f)) _ :=
      .miscounted (known hw) (by rwa [void_mem_mapLines])
        (by rwa [Word.takes_mapLines, List.length_map])
    rw [Expr.callee_mapLines, Word.signature_mapLines, List.length_map] at hr
    exact hr

theorem Accepts.mapLines {w : World} {call : Expr} {args : List Value} {word : Word}
    (h : w.Accepts call args word) :
    (w.mapLines f).Accepts (call.mapLines f) (args.map (Value.mapLines f)) (word.mapLines f) :=
  ⟨by simp [h.known], by simpa only [void_mem_mapLines] using h.valued, by simpa using h.counted⟩

end World

theorem Pending.proceed_mapLines (h0 : f 0 = 0) {w : World} (hw : w.Plain) (p : Pending) :
    (p.mapLines f).proceed (w.mapLines f) = relined f (p.proceed w) := by
  obtain ⟨call, resume, stack⟩ := p
  cases resume with
  | give v => exact World.settle_mapLines f w (.give v) stack
  | apply args scope =>
    have hl : (call.mapLines f).line?.getD 0 = f (call.line?.getD 0) := by
      cases h : call.line? <;> simp [h, h0]
    have act {k : CoreWord} (ha : w.Accepts call args (.core k)) :
        k.act ((call.mapLines f).line?.getD 0) scope (args.map (Value.mapLines f)) =
          (k.act (call.line?.getD 0) scope args).map (Reply.mapLines f) := by
      rw [hl]
      exact CoreWord.act_mapLines f ha.counted _ scope
    have hx := Pending.performs_proceed hw call args scope stack
    generalize (Pending.mk call (.apply args scope) stack).proceed w = x at hx ⊢
    cases hx with
    | refused hf => exact proceed_refused (hf.mapLines f)
    | failed ha hk =>
      have hc := (CoreWord.act_ofValues ha.counted hk).mapLines_eq f
      refine (proceed_failed (ha.mapLines f) (by rw [act ha, hk]; rfl)).trans ?_
      simp only [relined, Outcome.mapLines, Fault.mapLines, hc, Option.map_some]
    | value ha hk =>
      refine (proceed_core (ha.mapLines f) (by rw [act ha, hk]; rfl)).trans ?_
      exact World.settle_mapLines f w (.give _) stack
    | say ha hk =>
      refine (proceed_core (ha.mapLines f) (by rw [act ha, hk]; rfl)).trans ?_
      rw [← World.settle_mapLines, World.print_mapLines]
      rfl
    | run ha hk =>
      refine (proceed_core (ha.mapLines f) (by rw [act ha, hk]; rfl)).trans ?_
      exact World.settle_mapLines f w (.run _ _) stack
    | loop ha hk =>
      refine (proceed_core (ha.mapLines f) (by rw [act ha, hk]; rfl)).trans ?_
      exact World.settle_mapLines f w (.give .void) (.loop _ _ _ :: stack)
    | @enter params body ha =>
      refine (proceed_defined (ha.mapLines f)).trans ?_
      rw [← World.settle_mapLines, World.entered_mapLines, World.scopes_mapLines,
        Scopes.next_mapLines]
      rfl

def Session.mapLines : Session → Session
  | .idle => .idle
  | .pending p => .pending (p.mapLines f)
  | .completed v => .completed (v.mapLines f)
  | .errored x => .errored (x.mapLines f)

namespace Machine

def mapLines (m : Machine) : Machine :=
  ⟨m.world.mapLines f, m.session.mapLines f, m.current.map (Expr.mapLines f), m.steps⟩

theorem stopped_relined (current : Option Expr) (steps : Nat) (x : World × Outcome) :
    stopped (current.map (Expr.mapLines f)) steps (relined f x) =
      (stopped current steps x).mapLines f := by
  obtain ⟨w, p | v | x⟩ := x <;> rfl

theorem isPending_mapLines (m : Machine) : (m.mapLines f).isPending = m.isPending := by
  obtain ⟨w, _ | p | v | x, current, steps⟩ := m <;> rfl

theorem start_mapLines (m : Machine) (p : Program) :
    (m.mapLines f).start (p.map (Expr.mapLines f)) = (m.start p).mapLines f := by
  have h := World.settle_mapLines f m.world (.run p Scopes.globals) []
  exact (congrArg (stopped none 0) h).trans (stopped_relined f none 0 _)

theorem step_mapLines (h0 : f 0 = 0) {m : Machine} (hm : m.world.Plain) :
    (m.mapLines f).step = m.step.mapLines f := by
  obtain ⟨w, _ | p | v | x, current, steps⟩ := m
  · rfl
  · have h := Pending.proceed_mapLines f h0 hm p
    exact (congrArg (stopped _ (steps + 1)) h).trans (stopped_relined f current (steps + 1) _)
  · rfl
  · rfl

theorem advance_mapLines (h0 : f 0 = 0) (n : Nat) {m : Machine} (hm : m.world.Plain) :
    (m.mapLines f).advance n = (m.advance n).mapLines f := by
  induction n generalizing m with
  | zero => rfl
  | succ n ih =>
    simp only [advance, isPending_mapLines, step_mapLines f h0 hm]
    split
    · exact ih (plain_step hm)
    · rfl

theorem exhaust_mapLines (m : Machine) : (m.mapLines f).exhaust = m.exhaust.mapLines f := by
  obtain ⟨w, _ | p | v | x, current, steps⟩ := m <;> rfl

theorem run_mapLines (h0 : f 0 = 0) (limit : Nat) (budget : Option Nat) {m : Machine}
    (hm : m.world.Plain) : (m.mapLines f).run limit budget = (m.run limit budget).mapLines f := by
  cases budget with
  | none => exact advance_mapLines f h0 limit hm
  | some n =>
    simp only [run, runWithin]
    rw [← exhaust_mapLines, ← advance_mapLines f h0 _ hm]
    rfl

theorem unlined_advance_start {m : Machine} (hm : m.world.Plain) (p : Program) (n : Nat) :
    ((m.start p).advance n).mapLines (fun _ => 0) =
      ((m.mapLines fun _ => 0).start (p.map Expr.unlined)).advance n := by
  rw [← advance_mapLines _ rfl n (plain_start hm p), ← start_mapLines]
  rfl

theorem advance_start_alike {m : Machine} (hm : m.world.Plain) {p q : Program}
    (h : p.map Expr.unlined = q.map Expr.unlined) (n : Nat) :
    ((m.start p).advance n).mapLines (fun _ => 0) =
      ((m.start q).advance n).mapLines fun _ => 0 := by
  rw [unlined_advance_start hm, unlined_advance_start hm, h]

theorem fault?_mapLines (m : Machine) :
    (m.mapLines f).fault? = m.fault?.map (Fault.mapLines f) := by
  obtain ⟨w, _ | p | v | x, current, steps⟩ := m <;> rfl

end Machine

end LogoLang
