import LogoLang.Proofs.Program.Feeding
import Mathlib.Data.List.DropRight

/-!
Legible programs. Some trees have a text that says something else: a hole has none, a body that
starts with a reference adds a parameter to its header, and a variadic word that starts an operation
in parentheses takes the operator for its first argument. A check goes through a tree in the order
of its text and refuses these, and all calls that the vocabulary does not admit. Main statement:
every program that has been read passes, and ends the check with the vocabulary of the reader.
-/

set_option autoImplicit false

namespace LogoLang

/-- The word can be called with so many arguments, possibly directly in parentheses. -/
def Vocabulary.admits (v : Vocabulary) (grouped : Bool) (name : String) (count : Nat) : Bool :=
  match v.get? name with
  | some s => s.arity == count || (grouped && s.isVariadic)
  | none => false

theorem Vocabulary.admits_iff {v : Vocabulary} {grouped : Bool} {name : String} {count : Nat} :
    v.admits grouped name count = true ↔
      ∃ s, v.get? name = some s ∧ (s.arity = count ∨ grouped = true ∧ s.isVariadic = true) := by
  unfold admits
  cases v.get? name <;> simp

namespace Expr

/-- What the text of an expression starts with, as far as it matters to what stands before. -/
inductive Opening where
  | word (name : String)
  | reference
  | other
  deriving DecidableEq, Repr

def opening : Expr → Opening
  | .call name _ _ => .word name
  | .var _ _ => .reference
  | .binary _ left _ _ => left.opening
  | _ => .other

def isOperation : Expr → Bool
  | .binary _ _ _ _ => true
  | _ => false

/-- The items can follow a header without becoming a part of it. -/
def closesHeader (body : List Expr) : Bool :=
  !body.head?.any fun e => e.opening = .reference

def isUnmarked (name : String) : Bool := Reader.dropMarks ':' name == name

end Expr

/-- Directly in parentheses the word takes all arguments up to the closing one. -/
def Vocabulary.spreads (v : Vocabulary) : Expr.Opening → Bool
  | .word name => (v.get? name).any Signature.isVariadic
  | _ => false

namespace Expr

mutual
/-- The vocabulary after an expression, if its text says what the tree says. -/
def legible (v : Vocabulary) (grouped : Bool) : Expr → Option Vocabulary
  | .nil => none
  | .number _ _ | .word _ _ | .var _ _ => some v
  | .list items _ => legibleList v items
  | .define name params body _ =>
    if params.all isUnmarked && closesHeader body then legibleList (v.define name params) body
    else none
  | .call name args _ => if v.admits grouped name args.length then legibleList v args else none
  | .binary _ left right _ => (left.legible v false).bind fun v => right.legible v false
  | .group inner _ =>
    if inner.isOperation && v.spreads inner.opening then none else inner.legible v true
def legibleList (v : Vocabulary) : List Expr → Option Vocabulary
  | [] => some v
  | e :: es => (e.legible v false).bind fun v => legibleList v es
end

theorem legibleList_append (v : Vocabulary) (es ds : List Expr) :
    legibleList v (es ++ ds) = (legibleList v es).bind fun v => legibleList v ds := by
  induction es generalizing v with
  | nil => rfl
  | cons e es ih =>
    simp only [List.cons_append, legibleList, Option.bind_assoc]
    exact congrArg _ (funext ih)

theorem legibleList_push (v : Vocabulary) (es : Array Expr) (e : Expr) :
    legibleList v (es.push e).toList =
      (legibleList v es.toList).bind fun v => e.legible v false := by
  simp [legibleList_append, legibleList]

theorem legible_grouped {v v' : Vocabulary} {e : Expr} (h : e.legible v false = some v') :
    e.legible v true = some v' := by
  cases e with
  | call name args line =>
    simp only [legible, Option.ite_none_right_eq_some] at h ⊢
    refine ⟨?_, h.2⟩
    have ha := h.1
    unfold Vocabulary.admits at ha ⊢
    split at ha <;> simp_all
  | _ => exact h

theorem closesHeader_push (es : Array Expr) (e : Expr) :
    closesHeader (es.push e).toList =
      (closesHeader es.toList && (!es.isEmpty || decide (e.opening ≠ .reference))) := by
  obtain ⟨es⟩ := es
  cases es <;> simp [closesHeader]

section Regroup

/-- What a chain starts with: the left operand of the operator that has waited longest. -/
def waitingOpening (ws : List Waiting) (e : Expr) : Opening :=
  ((ws.getLast?.map Waiting.left).getD e).opening

theorem waitingOpening_cons (w : Waiting) (ws : List Waiting) (e : Expr) :
    waitingOpening (w :: ws) e = waitingOpening ws w.left := by
  simp only [waitingOpening, List.getLast?_cons]
  cases ws.getLast? <;> rfl

theorem waitingOpening_congr (ws : List Waiting) {e d : Expr} (h : e.opening = d.opening) :
    waitingOpening ws e = waitingOpening ws d := by
  unfold waitingOpening
  cases ws.getLast? with
  | none => exact h
  | some w => rfl

theorem opening_closeAll (ws : List Waiting) (e : Expr) :
    (closeAll ws e).opening = waitingOpening ws e := by
  induction ws generalizing e with
  | nil => rfl
  | cons w ws ih =>
    rw [waitingOpening_cons]
    exact (ih (w.close e)).trans (waitingOpening_congr ws rfl)

theorem opening_closeTight (priority : Nat) (ws : List Waiting) (e : Expr) :
    waitingOpening (closeTight priority ws e).1 (closeTight priority ws e).2 =
      waitingOpening ws e := by
  rw [← opening_closeAll, closeAll_closeTight, opening_closeAll]

theorem opening_regroupAfter : ∀ (ws : List Waiting) (e : Expr),
    (regroupAfter ws e).opening = waitingOpening ws e
  | ws, .binary op left right line => by
    have hl : (regroupAfter [] left).opening = left.opening := opening_regroupAfter [] left
    simp only [regroupAfter, opening_regroupAfter _ right, waitingOpening_cons, opening_closeTight]
    exact waitingOpening_congr ws hl
  | ws, .nil | ws, .number _ _ | ws, .word _ _ | ws, .var _ _ => opening_closeAll ws _
  | ws, .list _ _ | ws, .define _ _ _ _ | ws, .call _ _ _ | ws, .group _ _ =>
    (opening_closeAll ws _).trans (waitingOpening_congr ws rfl)

theorem isOperation_closeAll (ws : List Waiting) (e : Expr) :
    (closeAll ws e).isOperation = (e.isOperation || !ws.isEmpty) := by
  induction ws generalizing e with
  | nil => simp [closeAll]
  | cons w ws ih =>
    have h : (closeAll (w :: ws) e).isOperation = ((w.close e).isOperation || !ws.isEmpty) :=
      ih (w.close e)
    simpa [Waiting.close, isOperation.eq_1] using h

theorem isOperation_regroupAfter : ∀ (ws : List Waiting) (e : Expr),
    (regroupAfter ws e).isOperation = (e.isOperation || !ws.isEmpty)
  | ws, .binary op left right line => by
    have h := isOperation_regroupAfter
      (⟨(closeTight op.priority ws (regroupAfter [] left)).2, op, line⟩ ::
        (closeTight op.priority ws (regroupAfter [] left)).1) right
    simpa [regroupAfter, isOperation.eq_1] using h
  | ws, .nil | ws, .number _ _ | ws, .word _ _ | ws, .var _ _ | ws, .list _ _
  | ws, .define _ _ _ _ | ws, .call _ _ _ | ws, .group _ _ => isOperation_closeAll ws _

theorem closesHeader_regroupList (es : List Expr) :
    closesHeader (regroupList es) = closesHeader es := by
  cases es with
  | nil => rfl
  | cons e es => simp [closesHeader, regroupList, opening_regroupAfter, waitingOpening]

def legibleWaiting (v : Vocabulary) : List Waiting → Option Vocabulary
  | [] => some v
  | w :: ws => (legibleWaiting v ws).bind fun v => w.left.legible v false

theorem legible_closeAll (v : Vocabulary) (grouped : Bool) (ws : List Waiting) (e : Expr) :
    (closeAll ws e).legible v grouped =
      (legibleWaiting v ws).bind fun v => e.legible v (grouped && ws.isEmpty) := by
  induction ws generalizing e with
  | nil => simp [closeAll, legibleWaiting]
  | cons w ws ih =>
    have h := ih (w.close e)
    simp only [closeAll, Waiting.close, legible, List.foldl_cons] at h ⊢
    simp [h, legibleWaiting, Option.bind_assoc]

theorem legible_closeTight (v : Vocabulary) (priority : Nat) (ws : List Waiting) (e : Expr) :
    ((legibleWaiting v (closeTight priority ws e).1).bind fun v =>
        (closeTight priority ws e).2.legible v false) =
      (legibleWaiting v ws).bind fun v => e.legible v false := by
  have h := congrArg (legible v false) (closeAll_closeTight priority ws e)
  simpa only [legible_closeAll, Bool.false_and] using h

mutual
theorem legible_regroupAfter (v : Vocabulary) (grouped : Bool) (ws : List Waiting) :
    ∀ e : Expr, (regroupAfter ws e).legible v grouped =
      (legibleWaiting v ws).bind fun v => e.legible v (grouped && ws.isEmpty)
  | .binary op left right line => by
    have hc := legible_closeTight v op.priority ws (regroupAfter [] left)
    simp only [legible_regroupAfter _ false [] left, legibleWaiting, Option.bind_some] at hc
    simp only [regroupAfter, legible_regroupAfter v grouped _ right, legibleWaiting, legible,
      List.isEmpty_cons, Bool.and_false, hc, Option.bind_assoc, Bool.false_and]
  | .list items line => by
    simp only [regroupAfter, legible_closeAll, legible, legibleList_regroupList]
  | .define name params body line => by
    simp only [regroupAfter, legible_closeAll, legible, legibleList_regroupList,
      closesHeader_regroupList]
  | .call name args line => by
    simp only [regroupAfter, legible_closeAll, legible, legibleList_regroupList, length_regroupList]
  | .group inner line => by
    have ho : (regroupAfter [] inner).isOperation = inner.isOperation := by
      simp [isOperation_regroupAfter]
    have hn : (regroupAfter [] inner).opening = inner.opening := opening_regroupAfter [] inner
    simp only [regroupAfter, legible_closeAll, legible, legible_regroupAfter _ true [] inner,
      legibleWaiting, Option.bind_some, List.isEmpty_nil, Bool.and_true, ho, hn]
  | .nil => by simp only [regroupAfter, legible_closeAll]
  | .number n line => by simp only [regroupAfter, legible_closeAll]
  | .word text line => by simp only [regroupAfter, legible_closeAll]
  | .var name line => by simp only [regroupAfter, legible_closeAll]
theorem legibleList_regroupList (v : Vocabulary) :
    ∀ es : List Expr, legibleList v (regroupList es) = legibleList v es
  | [] => rfl
  | e :: es => by
    simp only [regroupList, legibleList, legible_regroupAfter v false [] e, legibleWaiting,
      Option.bind_some, Bool.false_and]
    exact congrArg _ (funext fun v => legibleList_regroupList v es)
end

theorem legible_regroup (v : Vocabulary) (e : Expr) :
    e.regroup.legible v false = e.legible v false := by
  simp [regroup, legible_regroupAfter, legibleWaiting]

end Regroup

end Expr

namespace Reader

open LogoLang.Expr (Opening legibleList)

def Frame.allows (v : Vocabulary) : Frame → Opening → Bool
  | .group _, o => !v.spreads o
  | .body _ _ _ items, o => !items.isEmpty || decide (o ≠ .reference)
  | _, _ => true

def allowed (v : Vocabulary) : List Frame → Opening → Bool
  | [], _ => true
  | f :: _, o => f.allows v o

@[simp] theorem allowed_other (v : Vocabulary) (st : List Frame) :
    allowed v st .other = true := by
  cases st with
  | nil => rfl
  | cons f st => cases f <;> simp [allowed, Frame.allows, Vocabulary.spreads]

def Frame.opening : Frame → Opening
  | .args word _ _ => .word word.text
  | .operand left _ _ => left.opening
  | _ => .other

/-- An open construct. The word of an open call is checked for all the arguments it will have. -/
def Frame.legible (v : Vocabulary) : Frame → Option Vocabulary
  | .list _ items => legibleList v items.toList
  | .body _ name params items =>
    if params.all Expr.isUnmarked && Expr.closesHeader items.toList then
      legibleList (v.define name params) items.toList
    else none
  | .group _ => some v
  | .spread _ word given =>
    if (v.get? word.text).any Signature.isVariadic then legibleList v given.toList else none
  | .args word further done =>
    if v.admits false word.text (done.size + 1 + further) then legibleList v done.toList else none
  | .operand left _ _ => left.legible v false

def guarded (v : Vocabulary) (st : List Frame) (o : Opening) (checked : Option Vocabulary) :
    Option Vocabulary :=
  if allowed v st o then checked else none

theorem guarded_cons (v : Vocabulary) (f : Frame) (st : List Frame) (o : Opening)
    (x : Option Vocabulary) : guarded v (f :: st) o x = if f.allows v o then x else none := rfl

theorem guarded_bind (v : Vocabulary) (st : List Frame) (o : Opening) (x : Option Vocabulary)
    (k : Vocabulary → Option Vocabulary) :
    (guarded v st o x).bind k = guarded v st o (x.bind k) := by
  unfold guarded
  split <;> rfl

@[simp] theorem guarded_other (v : Vocabulary) (st : List Frame) (x : Option Vocabulary) :
    guarded v st .other x = x := by
  simp [guarded]

theorem guarded_eq_some {v v' : Vocabulary} {st : List Frame} {o : Opening}
    {x : Option Vocabulary} :
    guarded v st o x = some v' ↔ allowed v st o = true ∧ x = some v' := by
  simp [guarded]

def legibleStack (v : Vocabulary) : List Frame → Option Vocabulary
  | [] => some v
  | f :: st => (legibleStack v st).bind fun v => guarded v st f.opening (f.legible v)

def Place.legible (v : Vocabulary) (st : List Frame) : Place → Option Vocabulary
  | .after e => guarded v st e.opening (e.legible v false)
  | .params _ _ ps => if ps.toList.all Expr.isUnmarked then some v else none
  | _ => some v

def Home.legible (v : Vocabulary) : Home → Option Vocabulary
  | .item st => legibleStack v st
  | .group opener inner st => (legibleStack v st).bind fun v =>
    guarded v (.group opener :: st) inner.opening (inner.legible v false)
  | .top e => e.legible v false

theorem legible_settle (v : Vocabulary) (st : List Frame) (e : Expr) :
    (settle st e).legible v =
      (legibleStack v st).bind fun v => guarded v st e.opening (e.legible v false) := by
  -- Calls and operators that end with the expression hand it on as a larger one.
  fun_induction settle st e with
  | case1 e => rfl
  | case2 opener items st e =>
    simp only [Home.legible, legibleStack, Frame.opening, guarded_other, Frame.legible,
      Expr.legibleList_push, Option.bind_assoc, guarded_cons, Frame.allows, if_true]
  | case3 opener name params items st e =>
    simp only [Home.legible, legibleStack, Frame.opening, guarded_other, Frame.legible,
      Expr.legibleList_push, Option.bind_assoc, Expr.closesHeader_push, guarded_cons, Frame.allows]
    congr
    funext v
    rcases Bool.eq_false_or_eq_true (!items.isEmpty || decide (e.opening ≠ .reference))
      with ha | ha
    · simp only [ha, Bool.and_true, if_true]
      split <;> rfl
    · simp only [ha, Bool.and_false, Bool.false_eq_true, if_false, Option.bind_fun_none]
  | case4 opener st e =>
    simp only [Home.legible, legibleStack, Frame.opening, guarded_other, Frame.legible,
      Option.bind_some, Option.bind_assoc]
  | case5 opener word args st e =>
    simp only [Home.legible, legibleStack, Frame.opening, guarded_other, Frame.legible,
      Expr.legibleList_push, Option.bind_assoc, guarded_cons, Frame.allows, if_true]
    congr
    funext v
    split <;> rfl
  | case6 word done st e ih =>
    rw [ih]
    simp only [legibleStack, Frame.opening, Frame.legible, Expr.legible, Expr.opening,
      Expr.legibleList_push, Option.bind_assoc, guarded_bind, guarded_cons, Frame.allows, if_true,
      Array.length_toList, Array.size_push, Nat.add_zero]
    congr
    funext v
    split <;> rfl
  | case7 word n done st e =>
    have hn : done.size + 1 + 1 + n = done.size + 1 + (n + 1) := by omega
    simp only [Home.legible, legibleStack, Frame.opening, Frame.legible, Expr.legibleList_push,
      Option.bind_assoc, guarded_bind, guarded_cons, Frame.allows, if_true, Array.size_push, hn]
    congr
    funext v
    split <;> rfl
  | case8 left op sign st e ih =>
    rw [ih]
    simp only [legibleStack, Frame.opening, Frame.legible, Expr.legible, Expr.opening,
      Option.bind_assoc, guarded_bind, guarded_cons, Frame.allows, if_true]

theorem settle_item_allowed {stack st : List Frame} {e : Expr} (h : settle stack e = .item st)
    (v : Vocabulary) : allowed v st .reference = true := by
  fun_induction settle stack e with
  | case1 => cases h
  | case2 => cases h; rfl
  | case3 => cases h; simp [allowed, Frame.allows]
  | case4 => cases h
  | case5 => cases h; rfl
  | case6 word done st e ih => exact ih h
  | case7 => cases h; rfl
  | case8 left op sign st e ih => exact ih h

/-- The constructs that are complete or open, without the expression that has just ended. -/
def legibleOpen (v : Vocabulary) (r : Reader) : Option Vocabulary :=
  (legibleList v r.program.toList).bind fun v => legibleStack v r.stack

/-- What has been read so far is legible and leads to the words of the reader, and where an
expression can start, a reference can. -/
structure Legible (v : Vocabulary) (r : Reader) : Prop where
  read : ((r.legibleOpen v).bind fun v => r.place.legible v r.stack) = some r.words
  start : r.place = .start → allowed r.words r.stack .reference = true

variable {v : Vocabulary} {r r' : Reader}

theorem legibleOpen_opened {f : Frame} :
    (r.opened f).legibleOpen v =
      (r.legibleOpen v).bind fun v => guarded v r.stack f.opening (f.legible v) := by
  simp only [legibleOpen, opened, legibleStack, Option.bind_assoc]

theorem Legible.opened (hr : r.legibleOpen v = some r.words) {f : Frame}
    (ha : allowed r.words r.stack f.opening = true) (hf : f.legible r.words = some r.words)
    (hs : f.allows r.words .reference = true) : (r.opened f).Legible v := by
  refine ⟨?_, fun _ => hs⟩
  rw [legibleOpen_opened, hr, Option.bind_some, guarded_eq_some.2 ⟨ha, hf⟩]
  rfl

theorem Legible.ended (hr : r.legibleOpen v = some r.words) {e : Expr}
    (ha : allowed r.words r.stack e.opening = true) (he : e.legible r.words false = some r.words) :
    (r.ended r.stack e).Legible v := by
  refine ⟨?_, fun h => by cases h⟩
  simp only [legibleOpen] at hr
  simp only [legibleOpen, Reader.ended, hr, Option.bind_some, Place.legible]
  exact guarded_eq_some.2 ⟨ha, he⟩

theorem Legible.closed (hr : r.legibleOpen v = some r.words) {f : Frame} {st : List Frame}
    (hst : r.stack = f :: st) {e : Expr} (ho : e.opening = .other)
    (he : ∀ v v', f.legible v = some v' → e.legible v false = some v') :
    (r.ended st e).Legible v := by
  refine ⟨?_, fun h => by cases h⟩
  simp only [legibleOpen, hst, legibleStack, ← Option.bind_assoc, Option.bind_eq_some_iff] at hr
  obtain ⟨v', hv, hf⟩ := hr
  simp only [legibleOpen, Reader.ended, Place.legible, ho, guarded_other, Option.bind_eq_some_iff]
  exact ⟨v', hv, he v' _ (guarded_eq_some.1 hf).2⟩

theorem allowed_word {t : Token} {s : Signature} (hs : r.words.get? t.text = some s)
    (hv : ¬ r.Spreads s) : allowed r.words r.stack (.word t.text) = true := by
  cases hst : r.stack with
  | nil => rfl
  | cons f st =>
    cases f with
    | group opener =>
      have hn : s.isVariadic = false := by
        cases h : s.isVariadic with
        | false => rfl
        | true => exact absurd ⟨opener, st, hst, h⟩ hv
      simp [allowed, Frame.allows, Vocabulary.spreads, hs, hn]
    | _ => simp [allowed, Frame.allows]

theorem legible_starts {t : Token} (h : Starts r t r') (hr : r.legibleOpen v = some r.words)
    (hk : t.kind = .reference → allowed r.words r.stack .reference = true) : r'.Legible v := by
  cases h with
  | paren => exact .opened hr (allowed_other ..) rfl rfl
  | bracket => exact .opened hr (allowed_other ..) rfl rfl
  | header =>
    refine ⟨?_, fun h => by cases h⟩
    simp only [legibleOpen] at hr
    simp only [legibleOpen, hr, Option.bind_some, Place.legible]
  | number => exact .ended hr (allowed_other ..) rfl
  | reference ht => exact .ended hr (hk ht) rfl
  | quoted => exact .ended hr (allowed_other ..) rfl
  | spread ht hs hst hv =>
    simp only [legibleOpen, hst, legibleStack, Frame.opening, guarded_other, Frame.legible,
      Option.bind_fun_some] at hr
    refine ⟨?_, fun _ => rfl⟩
    simp [legibleOpen, hr, legibleStack, Frame.opening, Frame.legible, hs, hv, Place.legible,
      legibleList, ← Option.bind_assoc]
  | constant ht hs hv ha =>
    exact .ended hr (allowed_word hs hv)
      (by simp [Expr.legible, legibleList, Vocabulary.admits, hs, ha])
  | call ht hs hv ha =>
    exact .opened hr (allowed_word hs hv)
      (by simp [Frame.legible, legibleList, Vocabulary.admits, hs, ha]; omega) rfl
  | closeList ht hst => exact .closed hr hst rfl fun v v' hf => hf
  | closeBody ht hst => exact .closed hr hst rfl fun v v' hf => hf
  | closeSpread ht hst =>
    refine .closed hr hst rfl fun v v' hf => ?_
    simp only [Frame.legible, Option.ite_none_right_eq_some, Option.any_eq_true] at hf
    obtain ⟨⟨s, hs, hv⟩, hf⟩ := hf
    simp [Expr.legible, Expr.isOperation, Vocabulary.admits, hs, hv, hf]

theorem Legible.settled (hr : r.Legible v) {e : Expr} (hp : r.place = .after e) {home : Home}
    (hs : settle r.stack e = home) :
    ((legibleList v r.program.toList).bind fun v => home.legible v) = some r.words := by
  subst hs
  have h := hr.read
  simp only [legible_settle]
  simpa only [legibleOpen, hp, Place.legible, Option.bind_assoc] using h

theorem Legible.before (hr : r.Legible v) (hp : ∀ v, r.place.legible v r.stack = some v) :
    r.legibleOpen v = some r.words := by
  have h := hr.read
  simpa only [hp, Option.bind_fun_some] using h

theorem isUnmarked_dropMarks (s : String) : Expr.isUnmarked (dropMarks ':' s) = true := by
  simp only [Expr.isUnmarked, dropMarks, String.toList_ofList, List.dropWhile_idempotent,
    beq_iff_eq]

theorem legible_feeds {t : Token} (h : Feeds r t r') (hr : r.Legible v) : r'.Legible v := by
  cases h with
  | start hp h =>
    exact legible_starts h (hr.before (by simp [hp, Place.legible])) fun _ => hr.start hp
  | name hp hk =>
    have hb := hr.before (by simp [hp, Place.legible])
    simp only [legibleOpen] at hb
    refine ⟨?_, fun h => by cases h⟩
    simp [legibleOpen, hb, Place.legible]
  | param hp hk =>
    refine ⟨?_, fun h => by cases h⟩
    have h := hr.read
    simpa [legibleOpen, hp, Place.legible, isUnmarked_dropMarks] using h
  | @body opener name params _ hp hk h =>
    have hb := hr.read
    simp only [hp, Place.legible, Option.bind_eq_some_iff, Option.ite_none_right_eq_some] at hb
    obtain ⟨v', hv, hu, hw⟩ := hb
    cases hw
    refine legible_starts h ?_ fun ht => absurd ht hk
    rw [enterBody, legibleOpen_opened]
    change ((r.legibleOpen v).bind fun v =>
      guarded v r.stack .other (Frame.legible v (.body opener name params.toList #[]))) = _
    rw [hv]
    simp only [Option.bind_some, guarded_other, Frame.legible, hu]
    rfl
  | operator hp hk ho =>
    have h := hr.read
    simp only [hp, Place.legible] at h
    refine ⟨?_, fun _ => rfl⟩
    rw [legibleOpen_opened]
    simpa only [Frame.opening, Frame.legible, opened, Place.legible, Option.bind_fun_some] using h
  | item hp hk hs h => exact legible_starts h (hr.settled hp hs) fun _ => settle_item_allowed hs _
  | top hp hk hs h =>
    refine legible_starts h ?_ fun _ => rfl
    simp only [legibleOpen, pushTop, Expr.legibleList_push, Expr.legible_regroup, legibleStack,
      Option.bind_fun_some]
    exact hr.settled hp hs
  | @group e inner opener st hp hk hs =>
    have hg := hr.settled hp hs
    simp only [Home.legible, ← Option.bind_assoc, Option.bind_eq_some_iff, guarded_eq_some] at hg
    obtain ⟨v', ⟨v₁, hv₁, hv'⟩, ha, hi⟩ := hg
    have hsp : v'.spreads inner.opening = false := by simpa [allowed, Frame.allows] using ha
    refine ⟨?_, fun h => by cases h⟩
    simp only [legibleOpen, Reader.ended, Place.legible, Expr.opening, guarded_other, Expr.legible,
      Option.bind_eq_some_iff]
    exact ⟨v', ⟨v₁, hv₁, hv'⟩, by simp [hsp, Expr.legible_grouped hi]⟩

theorem legible_feedAll {ts : List Token} (h : r.feedAll ts = .ok r') (hr : r.Legible v) :
    r'.Legible v := by
  induction ts generalizing r with
  | nil =>
    cases h
    exact hr
  | cons t ts ih =>
    obtain ⟨r₁, hf, h⟩ := feedAll_cons_eq_ok_iff.1 h
    exact ih h (legible_feeds hf hr)

theorem legible_finishes (h : Finishes r r') (hr : r.Legible v) :
    legibleList v r'.program.toList = some r'.words := by
  cases h with
  | start hp hst =>
    have h := hr.read
    simpa only [legibleOpen, hp, hst, Place.legible, legibleStack, Option.bind_fun_some] using h
  | top hp hs =>
    simp only [pushTop, Expr.legibleList_push, Expr.legible_regroup]
    exact hr.settled hp hs

end Reader

theorem Program.legible_read {v : Vocabulary} {ts : List Token} {p : Program.Reading}
    (h : Program.read v ts = .ok p) : Expr.legibleList v p.program = some p.words := by
  obtain ⟨r, r', hf, he, rfl⟩ := Reader.read_eq_ok_iff.1 h
  exact Reader.legible_finishes he (Reader.legible_feedAll hf ⟨rfl, fun _ => rfl⟩)

end LogoLang
