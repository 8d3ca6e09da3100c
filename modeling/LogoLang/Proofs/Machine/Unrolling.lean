import LogoLang.Proofs.Machine.Sequence

/-!
Loops and their unrolling. A loop runs its block once for each pass and drops the values; the
unrolled block has as many copies of the items and is run a single time. Main statement: the loop
word does what the unrolled block does, call by call, and gives no value.
-/

set_option autoImplicit false

namespace LogoLang

def copies (n : Nat) (items : List Expr) : List Expr := (List.replicate n items).flatten

theorem copies_succ (n : Nat) (items : List Expr) :
    copies (n + 1) items = items ++ copies n items := by
  rw [copies, List.replicate_succ, List.flatten_cons, copies]

namespace Direct

/-- One job, then another one if the first has not failed. The value of the first is dropped. -/
inductive InTurn (w : World) (h : Scopes.Handle) (j k : Job Value) :
    List Expr → World → Except Fault Value → Prop where
  | both {as bs : List Expr} {w₁ w' : World} {v : Value} {r : Except Fault Value}
    (hj : Dispatches w h j as w₁ (.ok v)) (hk : Dispatches w₁ h k bs w' r) :
    InTurn w h j k (as ++ bs) w' r
  | failed {as : List Expr} {w' : World} {f : Fault} (hj : Dispatches w h j as w' (.error f)) :
    InTurn w h j k as w' (.error f)

/-- What the evaluation of a block, of a loop, or of a call that starts a loop is made of. -/
def Job.Consists {α : Type} (w : World) (h : Scopes.Handle) :
    Job α → List Expr → World → Except Fault α → Prop
  | .block [], cs, w', r => cs = [] ∧ w' = w ∧ r = .ok .void
  | .block [e], cs, w', r => Dispatches w h (.expr e) cs w' r
  | .block (e :: e' :: es), cs, w', r => InTurn w h (.expr e) (.block (e' :: es)) cs w' r
  | .loop 0 _, cs, w', r => cs = [] ∧ w' = w ∧ r = .ok .void
  | .loop (n + 1) es, cs, w', r => InTurn w h (.block es) (.loop n es) cs w' r
  | .apply c vs, cs, w', r => ∀ n es, w.Accepts c vs (.core .loop) →
    CoreWord.loop.act (c.line?.getD 0) h vs = .ok (.loop n es h) →
    ∃ ds, cs = c :: ds ∧ Dispatches w h (.loop n es) ds w' r
  | _, _, _, _ => True

variable {w w' : World} {h : Scopes.Handle}

-- The type of a job's result is an index, so an evaluation is taken apart for all jobs at once.
theorem Dispatches.consists {α : Type} {j : Job α} {cs : List Expr} {r : Except Fault α}
    (hd : Dispatches w h j cs w' r) : j.Consists w h cs w' r := by
  have known {w : World} {c : Expr} {vs : List Value} {word : Word}
      (ha : w.Accepts c vs (.core .loop)) (hw : w.Accepts c vs word) : word = .core .loop :=
    Option.some.inj (hw.known.symm.trans ha.known)
  cases hd with
  | empty | zero => exact ⟨rfl, rfl, rfl⟩
  | last he => exact he
  | drop he hs => exact .both he hs
  | broken he => exact .failed he
  | again hb hn => exact .both hb hn
  | halted hb => exact .failed hb
  | refused hf =>
    intro n es ha hk
    have hx := (hf.apply_eq h).symm.trans (ha.apply_eq h)
    simp [World.applyWord, hk, Except.map, Except.mapError] at hx
  | failed hw hk' | value hw hk' | say hw hk' | run hw hk' =>
    intro n es ha hk
    cases known ha hw
    cases hk.symm.trans hk'
  | loop hw hk' hl =>
    intro n es ha hk
    cases known ha hw
    cases hk.symm.trans hk'
    exact ⟨_, rfl, hl⟩
  | enter hw =>
    intro n es ha
    cases known ha hw
  | _ => trivial

variable {e : Expr} {es ds cs : List Expr} {r : Except Fault Value}

theorem dispatches_single_iff :
    Dispatches w h (.block [e]) cs w' r ↔ Dispatches w h (.expr e) cs w' r :=
  ⟨Dispatches.consists, .last⟩

theorem dispatches_cons_iff (hne : es ≠ []) :
    Dispatches w h (.block (e :: es)) cs w' r ↔ InTurn w h (.expr e) (.block es) cs w' r := by
  obtain ⟨e', es, rfl⟩ := List.exists_cons_of_ne_nil hne
  refine ⟨Dispatches.consists, ?_⟩
  rintro (⟨he, hs⟩ | he)
  · exact .drop he hs
  · exact .broken he

theorem dispatches_append_iff (hne : ds ≠ []) :
    Dispatches w h (.block (es ++ ds)) cs w' r ↔
      InTurn w h (.block es) (.block ds) cs w' r := by
  induction es generalizing w cs r with
  | nil =>
    constructor
    · exact fun hd => .both .empty hd
    · rintro (⟨hb, hd⟩ | hb)
      · obtain ⟨rfl, rfl, -⟩ := hb.consists
        exact hd
      · cases hb.consists.2.2
  | cons e es ih =>
    rw [List.cons_append, dispatches_cons_iff (by simp [hne])]
    cases es with
    | nil =>
      constructor
      · rintro (⟨he, hs⟩ | he)
        · exact .both (.last he) hs
        · exact .failed (.last he)
      · rintro (⟨hb, hd⟩ | hb)
        · exact .both (dispatches_single_iff.1 hb) hd
        · exact .failed (dispatches_single_iff.1 hb)
    | cons e' es =>
      constructor
      · rintro (⟨he, hs⟩ | he)
        · rcases ih.1 hs with ⟨hb, hd⟩ | hb
          · rw [← List.append_assoc]
            exact .both (.drop he hb) hd
          · exact .failed (.drop he hb)
        · exact .failed (.broken he)
      · rintro (⟨hb, hd⟩ | hb)
        · rcases hb.consists with ⟨he, hs⟩ | he
          rw [List.append_assoc]
          exact .both he (ih.2 (.both hs hd))
        · rcases hb.consists with ⟨he, hs⟩ | he
          · exact .both he (ih.2 (.failed hs))
          · exact .failed he

theorem dispatches_loop_succ_iff {n : Nat} :
    Dispatches w h (.loop (n + 1) es) cs w' r ↔ InTurn w h (.block es) (.loop n es) cs w' r := by
  refine ⟨Dispatches.consists, ?_⟩
  rintro (⟨hb, hn⟩ | hb)
  · exact .again hb hn
  · exact .halted hb

/-- The passes of a loop are the unrolled block, whose value is dropped. -/
theorem dispatches_loop_iff {n : Nat} :
    Dispatches w h (.loop n es) cs w' r ↔
      ∃ q, Dispatches w h (.block (copies n es)) cs w' q ∧ r = q.map fun _ => .void := by
  induction n generalizing w cs r with
  | zero =>
    constructor
    · intro hd
      obtain ⟨rfl, rfl, rfl⟩ := hd.consists
      exact ⟨_, .empty, rfl⟩
    · rintro ⟨q, hq, rfl⟩
      obtain ⟨rfl, rfl, rfl⟩ := hq.consists
      exact .zero
  | succ n ih =>
    rw [dispatches_loop_succ_iff, copies_succ]
    by_cases hne : copies n es = []
    · -- Nothing is left of the unrolled block after the first copy, which gives the value then.
      rw [hne, List.append_nil]
      rw [hne] at ih
      constructor
      · rintro (⟨hb, hn⟩ | hb)
        · obtain ⟨q, hq, rfl⟩ := ih.1 hn
          obtain ⟨rfl, rfl, rfl⟩ := hq.consists
          rw [List.append_nil]
          exact ⟨_, hb, rfl⟩
        · exact ⟨_, hb, rfl⟩
      · rintro ⟨f | v, hq, rfl⟩
        · exact .failed hq
        · have hr := InTurn.both hq (ih.2 ⟨.ok .void, .empty, rfl⟩)
          rwa [List.append_nil] at hr
    · constructor
      · rintro (⟨hb, hn⟩ | hb)
        · obtain ⟨q, hq, rfl⟩ := ih.1 hn
          exact ⟨q, hb.append hne hq, rfl⟩
        · exact ⟨_, (dispatches_append_iff hne).2 (.failed hb), rfl⟩
      · rintro ⟨q, hq, rfl⟩
        rcases (dispatches_append_iff hne).1 hq with ⟨hb, hd⟩ | hb
        · exact .both hb (ih.2 ⟨q, hd, rfl⟩)
        · exact .failed hb

theorem dispatches_apply_loop_iff {c : Expr} {vs : List Value} {n : Nat}
    (ha : w.Accepts c vs (.core .loop))
    (hk : CoreWord.loop.act (c.line?.getD 0) h vs = .ok (.loop n es h)) :
    Dispatches w h (.apply c vs) cs w' r ↔
      ∃ ds, cs = c :: ds ∧ Dispatches w h (.loop n es) ds w' r := by
  refine ⟨fun hd => hd.consists n es ha hk, ?_⟩
  rintro ⟨ds, rfl, hl⟩
  exact .loop ha hk hl

end Direct

section Lockstep

variable (h : Scopes.Handle) (items : List Expr)

/-- Frames that end in a loop, and the same frames with what is left of the unrolled block in its
place. Where the last item of a copy is under way, the block has no frame of its own. -/
inductive Unrolls : List Frame → List Frame → Prop where
  | last {n : Nat} (hn : copies n items = []) : Unrolls [.loop n items h] []
  | more {n : Nat} (hn : copies n items ≠ []) :
    Unrolls [.loop n items h] [.block (copies n items) h]
  | rest {n : Nat} {e : Expr} {es : List Expr} :
    Unrolls [.block (e :: es) h, .loop n items h] [.block (e :: es ++ copies n items) h]
  | cons {f : Frame} {stack stack' : List Frame} (hs : Unrolls stack stack') :
    Unrolls (f :: stack) (f :: stack')

/-- What the loop does next, and what the unrolled block does next. -/
inductive KeepsPace : World → Task → List Frame → World → Task → List Frame → Prop where
  | same {w : World} {t : Task} {stack stack' : List Frame} (hs : Unrolls h items stack stack') :
    KeepsPace w t stack w t stack'
  | copy {w : World} {n : Nat} {e : Expr} {es : List Expr} :
    KeepsPace w (.run (e :: es) h) [.loop n items h] w (.run (e :: es ++ copies n items) h) []

/-- Both wait before the same call or have the same fault, or the block has a value and the loop
has none. -/
inductive StopsAlike : World × Outcome → World × Outcome → Prop where
  | waiting {w : World} {call : Expr} {args : List Value} {g : Scopes.Handle}
    {stack stack' : List Frame} (hs : Unrolls h items stack stack') :
    StopsAlike (w, .waiting ⟨call, .apply args g, stack⟩)
      (w, .waiting ⟨call, .apply args g, stack'⟩)
  | done {w : World} {v : Value} : StopsAlike (w, .done .void) (w, .done v)
  | failed {w : World} {f : Fault} : StopsAlike (w, .failed f) (w, .failed f)

variable {h items} {w : World} {stack stack' : List Frame}

theorem both_evalArgs (hs : Unrolls h items stack stack') (call : Expr) (done : Array Value)
    (todo : List Expr) (g : Scopes.Handle) :
    (w.evalArgs call done todo g stack).Both (KeepsPace h items) (StopsAlike h items)
      (w.evalArgs call done todo g stack') := by
  cases todo with
  | nil => exact .stop (.waiting hs)
  | cons e es => exact .next (.same (.cons hs))

theorem both_moveEval (hs : Unrolls h items stack stack') (e : Expr) (g : Scopes.Handle) :
    (w.moveEval e g stack).Both (KeepsPace h items) (StopsAlike h items)
      (w.moveEval e g stack') := by
  cases e with
  | var name line =>
    simp only [World.moveEval]
    split
    · exact .next (.same hs)
    · exact .stop .failed
  | call name args line => exact both_evalArgs hs _ #[] args g
  | binary op left right line => exact both_evalArgs hs _ #[] [left, right] g
  | nil | number | word | list | define | group => exact .next (.same hs)

theorem both_moveRun (hs : Unrolls h items stack stack') (es : List Expr) (g : Scopes.Handle) :
    (w.moveRun es g stack).Both (KeepsPace h items) (StopsAlike h items)
      (w.moveRun es g stack') := by
  rcases es with _ | ⟨e, _ | ⟨e', es⟩⟩
  · exact .next (.same hs)
  · exact .next (.same hs)
  · exact .next (.same (.cons hs))

/-- The first item of a copy is the first of what is left of the block. -/
theorem both_copy (n : Nat) (e : Expr) (es : List Expr) :
    (w.moveRun (e :: es) h [.loop n items h]).Both (KeepsPace h items) (StopsAlike h items)
      (w.moveRun (e :: es ++ copies n items) h []) := by
  cases es with
  | cons e' es => exact .next (.same .rest)
  | nil =>
    by_cases hn : copies n items = []
    · rw [hn]
      exact .next (.same (.last hn))
    · obtain ⟨d, ds, hd⟩ := List.exists_cons_of_ne_nil hn
      have hs : Unrolls h items [.loop n items h] [.block (copies n items) h] := .more hn
      rw [hd] at hs ⊢
      exact .next (.same hs)

theorem settle_idle {n : Nat} (hn : copies n items = []) (v : Value) :
    w.settle (.give v) [.loop n items h] = (w, .done .void) := by
  induction n generalizing v with
  | zero =>
    rw [World.settle_eq, World.move, World.moveGive, Move.settle, World.settle_eq]
    rfl
  | succ n ih =>
    rw [copies_succ, List.append_eq_nil_iff] at hn
    obtain ⟨rfl, hn⟩ := hn
    rw [World.settle_eq, World.move, World.moveGive, Move.settle, World.settle_eq]
    exact ih hn .void

theorem simulates_give (hs : Unrolls h items stack stack') (v : Value) :
    Simulates (KeepsPace h items) (StopsAlike h items) w (.give v) stack w (.give v) stack' := by
  cases hs with
  | last hn =>
    refine .known ?_
    rw [settle_idle hn, World.settle_eq]
    exact .done
  | @more n hn =>
    cases n with
    | zero => exact absurd rfl hn
    | succ n =>
      rw [copies_succ] at hn ⊢
      cases items with
      | nil => exact absurd (by simp [copies]) hn
      | cons e es => exact .both (.next .copy)
  | rest => exact .both (.next .copy)
  | @cons f stack stack' hs =>
    refine .both ?_
    match f with
    | .args call done todo g => exact both_evalArgs hs call (done.push v) todo g
    | .block es g => exact .next (.same hs)
    | .loop 0 es g => exact .next (.same hs)
    | .loop (n + 1) es g => exact .next (.same (.cons hs))

theorem stopsAlike_settle {w' : World} {t t' : Task}
    (hk : KeepsPace h items w t stack w' t' stack') :
    StopsAlike h items (w.settle t stack) (w'.settle t' stack') := by
  refine settle_relates ?_ hk
  intro w t stack w' t' stack' hk
  cases hk with
  | same hs =>
    cases t with
    | eval e g => exact .both (both_moveEval hs e g)
    | run es g => exact .both (both_moveRun hs es g)
    | give v => exact simulates_give hs v
  | copy => exact .both (both_copy _ _ _)

theorem stopsAlike_proceed (hp : w.Plain) (hs : Unrolls h items stack stack') (call : Expr)
    (args : List Value) (g : Scopes.Handle) :
    StopsAlike h items ((Pending.mk call (.apply args g) stack).proceed w)
      ((Pending.mk call (.apply args g) stack').proceed w) := by
  have hx := Pending.performs_proceed hp call args g stack
  generalize (Pending.mk call (.apply args g) stack).proceed w = x at hx ⊢
  cases hx with
  | refused hf =>
    rw [Pending.proceed_refused hf]
    exact .failed
  | failed ha hk =>
    rw [Pending.proceed_failed ha hk]
    exact .failed
  | value ha hk | say ha hk | run ha hk =>
    rw [Pending.proceed_core ha hk]
    exact stopsAlike_settle (.same hs)
  | loop ha hk =>
    rw [Pending.proceed_core ha hk]
    exact stopsAlike_settle (.same (.cons hs))
  | enter ha =>
    rw [Pending.proceed_defined ha]
    exact stopsAlike_settle (.same hs)

theorem stopsAlike_start (w : World) (n : Nat) :
    StopsAlike h items (w.settle (.give .void) [.loop n items h])
      (w.settle (.run (copies n items) h) []) := by
  by_cases hn : copies n items = []
  · rw [settle_idle hn, hn, World.settle_eq, World.move, World.moveRun, Move.settle,
      World.settle_eq]
    exact .done
  · have hs : StopsAlike h items (w.settle (.give .void) [.loop n items h])
        (w.settle (.give .void) [.block (copies n items) h]) :=
      stopsAlike_settle (.same (.more hn))
    rwa [World.settle_eq w (.give .void) [.block _ _]] at hs

end Lockstep

namespace Machine

def beforeApply (w : World) (c : Expr) (args : List Value) (h : Scopes.Handle) : Machine :=
  { world := w, session := .pending ⟨c, .apply args h, []⟩, current := some c }

def entering (w : World) (es : List Expr) (h : Scopes.Handle) : Machine :=
  stopped none 0 (w.settle (.run es h) [])

/-- The first machine has come to the same world as the second, and waits, fails or completes with
it, though without a value. -/
structure Alongside (m m' : Machine) : Prop where
  world : m.world = m'.world
  pending : m.isPending = m'.isPending
  fault : m.fault? = m'.fault?
  value : m.value? = m'.value?.map fun _ => .void

theorem alongside_advance {h : Scopes.Handle} {items : List Expr} {x y : World × Outcome}
    (hx : StopsAlike h items x y) (hp : x.1.Plain) (current current' : Option Expr)
    (steps steps' k : Nat) :
    (stopped current steps x).observed k = (stopped current' steps' y).observed k ∧
      ((stopped current steps x).advance k).Alongside ((stopped current' steps' y).advance k) := by
  induction k generalizing x y current current' steps steps' with
  | zero => cases hx <;> exact ⟨rfl, rfl, rfl, rfl, rfl⟩
  | succ k ih =>
    cases hx with
    | @waiting w call args g stack stack' hs =>
      obtain ⟨ho, ha⟩ := ih (stopsAlike_proceed hp hs call args g)
        (World.Plain.proceed hp ⟨call, .apply args g, stack⟩) (some call) (some call) (steps + 1)
        (steps' + 1)
      exact ⟨congrArg (some call :: ·) ho, ha⟩
    | done => exact ⟨rfl, rfl, rfl, rfl, rfl⟩
    | failed => exact ⟨rfl, rfl, rfl, rfl, rfl⟩

/-- The loop word on a count and a block, where it is still the core word, against one block of as
many copies of the items; a negative count stands for none. By evaluation, the call comes to a world
and a result just if the unrolled block does, with the same calls after its own and without a value.
By steps, which need not end, both show the same calls and are alongside at all times. -/
theorem loop_is_unrolled (w : World) (hw : w.Plain)
    (hl : w.words.get? CoreWord.loop.name = some (.core .loop)) (c : Expr)
    (hc : c.callee = CoreWord.loop.name) (h : Scopes.Handle) (n : Int64) (items : List Expr)
    (own : Nat) :
    (∀ cs w' r, Direct.Dispatches w h (.apply c [.number n, .list items own]) cs w' r ↔
      ∃ ds q, cs = c :: ds ∧
        Direct.Dispatches w h (.block (copies n.toInt.toNat items)) ds w' q ∧
        r = q.map fun _ => .void) ∧
    ∀ k, (beforeApply w c [.number n, .list items own] h).step.observed k =
        (entering w (copies n.toInt.toNat items) h).observed k ∧
      ((beforeApply w c [.number n, .list items own] h).step.advance k).Alongside
        ((entering w (copies n.toInt.toNat items) h).advance k) := by
  have ha : w.Accepts c [.number n, .list items own] (.core .loop) :=
    ⟨hc ▸ hl, by simp, rfl⟩
  have hk : CoreWord.loop.act (c.line?.getD 0) h [.number n, .list items own] =
      .ok (.loop n.toInt.toNat items h) := rfl
  constructor
  · intro cs w' r
    rw [Direct.dispatches_apply_loop_iff ha hk]
    simp only [Direct.dispatches_loop_iff]
    constructor
    · rintro ⟨ds, hcs, q, hq, hr⟩
      exact ⟨ds, q, hcs, hq, hr⟩
    · rintro ⟨ds, q, hcs, hq, hr⟩
      exact ⟨ds, hcs, q, hq, hr⟩
  · intro k
    have hstep : (beforeApply w c [.number n, .list items own] h).step =
        stopped (some c) 1 (w.settle (.give .void) [.loop n.toInt.toNat items h]) := by
      rw [beforeApply, step, Pending.proceed_core ha hk]
      rfl
    rw [hstep]
    exact alongside_advance (stopsAlike_start w _) (hw.settle _ _) (some c) none 1 0 k

/-- A block that calls a procedure and gives it another body for the passes to come. -/
def relearning : List Expr :=
  [.call "f" [] 1,
   .define "f" [] [.call "repeat" [.number 2 2, .list [.call "print" [.number 2 2] 2] 2] 2] 2]

theorem loop_is_unrolled_relearning :
    ∃ w : World, w.Plain ∧ w.words.get? CoreWord.loop.name = some (.core .loop) ∧
      (Expr.call "repeat" [] 3).callee = CoreWord.loop.name ∧
      (∀ k, (beforeApply w (.call "repeat" [] 3) [.number 2, .list relearning 3]
            0).step.observed k =
          (entering w (copies (2 : Int64).toInt.toNat relearning) 0).observed k ∧
        ((beforeApply w (.call "repeat" [] 3) [.number 2, .list relearning 3] 0).step.advance
          k).Alongside ((entering w (copies (2 : Int64).toInt.toNat relearning) 0).advance k)) ∧
      ((entering w (copies (2 : Int64).toInt.toNat relearning) 0).advance 9).world.output =
        "1\n2\n2\n" := by
  let w : World := ({} : World).learn "f" [] [.call "print" [.number 1 0] 0]
  have hw : w.Plain := World.Plain.core.learn _ _ _
  have hl : w.words.get? CoreWord.loop.name = some (.core .loop) := by rfl
  exact ⟨w, hw, hl, rfl, (loop_is_unrolled w hw hl (.call "repeat" [] 3) rfl 0 2 relearning 3).2,
    by decide +kernel⟩

end Machine

end LogoLang
