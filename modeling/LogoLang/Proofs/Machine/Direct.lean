import LogoLang.Proofs.Machine.Settling

/-!
Evaluation by recursion on the code, as a relation between a world, what is evaluated in it, the
world afterwards, and a value or a fault. Nothing waits here and there is no stack: a part is
evaluated as a whole before the next one is looked at. A second relation lists in order the calls
whose words are applied: the word of a call is applied after its arguments have been evaluated and
before the body or block that it runs. Main statement: the list adds nothing to evaluation and
leaves nothing out.
-/

set_option autoImplicit false

namespace LogoLang

namespace Direct

/-- Something to evaluate, and what it evaluates to. -/
inductive Job : Type → Type where
  | expr (e : Expr) : Job Value
  /-- Some expressions, from left to right. -/
  | items (es : List Expr) : Job (List Value)
  /-- Some expressions as code: the value is that of the last one. -/
  | block (es : List Expr) : Job Value
  /-- The word of a call, on arguments that are evaluated. -/
  | apply (call : Expr) (args : List Value) : Job Value
  /-- A block, a number of times. -/
  | loop (count : Nat) (es : List Expr) : Job Value

inductive Evaluates :
    {α : Type} → World → Scopes.Handle → Job α → World → Except Fault α → Prop where
  | nil {w : World} {h : Scopes.Handle} : Evaluates w h (.expr .nil) w (.ok .nil)
  | number {w : World} {h : Scopes.Handle} {n : Int64} {line : Nat} :
    Evaluates w h (.expr (.number n line)) w (.ok (.number n))
  | word {w : World} {h : Scopes.Handle} {text : String} {line : Nat} :
    Evaluates w h (.expr (.word text line)) w (.ok (.word text))
  | list {w : World} {h : Scopes.Handle} {es : List Expr} {line : Nat} :
    Evaluates w h (.expr (.list es line)) w (.ok (.list es line))
  | var {w : World} {h : Scopes.Handle} {name : String} {line : Nat} {v : Value}
    (hv : w.scopes.lookup h name = some v) : Evaluates w h (.expr (.var name line)) w (.ok v)
  | unbound {w : World} {h : Scopes.Handle} {name : String} {line : Nat}
    (hv : w.scopes.lookup h name = none) :
    Evaluates w h (.expr (.var name line)) w (.error (.unknown name (some line)))
  | define {w : World} {h : Scopes.Handle} {name : String} {params : List String}
    {body : List Expr} {line : Nat} :
    Evaluates w h (.expr (.define name params body line)) (w.learn name params body) (.ok .void)
  | group {w w' : World} {h : Scopes.Handle} {e : Expr} {line : Nat} {r : Except Fault Value}
    (he : Evaluates w h (.expr e) w' r) : Evaluates w h (.expr (.group e line)) w' r
  | call {w w₁ w' : World} {h : Scopes.Handle} {c : Expr} {vs : List Value}
    {r : Except Fault Value} (hc : c.Applies) (ha : Evaluates w h (.items c.operands) w₁ (.ok vs))
    (hw : Evaluates w₁ h (.apply c vs) w' r) : Evaluates w h (.expr c) w' r
  | argument {w w' : World} {h : Scopes.Handle} {c : Expr} {f : Fault} (hc : c.Applies)
    (ha : Evaluates w h (.items c.operands) w' (.error f)) :
    Evaluates w h (.expr c) w' (.error f)
  -- A sequence stops at the first fault in it.
  | none {w : World} {h : Scopes.Handle} : Evaluates w h (.items []) w (.ok [])
  | cons {w w₁ w' : World} {h : Scopes.Handle} {e : Expr} {es : List Expr} {v : Value}
    {r : Except Fault (List Value)} (he : Evaluates w h (.expr e) w₁ (.ok v))
    (hs : Evaluates w₁ h (.items es) w' r) : Evaluates w h (.items (e :: es)) w' (r.map (v :: ·))
  | stop {w w' : World} {h : Scopes.Handle} {e : Expr} {es : List Expr} {f : Fault}
    (he : Evaluates w h (.expr e) w' (.error f)) :
    Evaluates w h (.items (e :: es)) w' (.error f)
  | empty {w : World} {h : Scopes.Handle} : Evaluates w h (.block []) w (.ok .void)
  | last {w w' : World} {h : Scopes.Handle} {e : Expr} {r : Except Fault Value}
    (he : Evaluates w h (.expr e) w' r) : Evaluates w h (.block [e]) w' r
  | drop {w w₁ w' : World} {h : Scopes.Handle} {e e' : Expr} {es : List Expr} {v : Value}
    {r : Except Fault Value} (he : Evaluates w h (.expr e) w₁ (.ok v))
    (hs : Evaluates w₁ h (.block (e' :: es)) w' r) : Evaluates w h (.block (e :: e' :: es)) w' r
  | broken {w w' : World} {h : Scopes.Handle} {e e' : Expr} {es : List Expr} {f : Fault}
    (he : Evaluates w h (.expr e) w' (.error f)) :
    Evaluates w h (.block (e :: e' :: es)) w' (.error f)
  -- The word is looked up in the world that the arguments have left.
  | refused {w : World} {h : Scopes.Handle} {c : Expr} {vs : List Value} {f : Fault}
    (hf : w.Refuses c vs f) : Evaluates w h (.apply c vs) w (.error f)
  | failed {w : World} {h : Scopes.Handle} {c : Expr} {vs : List Value} {k : CoreWord}
    {cause : RunFault} (hw : w.Accepts c vs (.core k))
    (hk : k.act (c.line?.getD 0) h vs = .error cause) :
    Evaluates w h (.apply c vs) w (.error (.run cause (some c)))
  | value {w : World} {h : Scopes.Handle} {c : Expr} {vs : List Value} {k : CoreWord} {v : Value}
    (hw : w.Accepts c vs (.core k)) (hk : k.act (c.line?.getD 0) h vs = .ok (.value v)) :
    Evaluates w h (.apply c vs) w (.ok v)
  | say {w : World} {h : Scopes.Handle} {c : Expr} {vs : List Value} {k : CoreWord}
    {text : String} (hw : w.Accepts c vs (.core k))
    (hk : k.act (c.line?.getD 0) h vs = .ok (.say text)) :
    Evaluates w h (.apply c vs) (w.print text) (.ok .void)
  | run {w w' : World} {h g : Scopes.Handle} {c : Expr} {vs : List Value} {k : CoreWord}
    {es : List Expr} {r : Except Fault Value} (hw : w.Accepts c vs (.core k))
    (hk : k.act (c.line?.getD 0) h vs = .ok (.run es g)) (hb : Evaluates w g (.block es) w' r) :
    Evaluates w h (.apply c vs) w' r
  | loop {w w' : World} {h g : Scopes.Handle} {c : Expr} {vs : List Value} {k : CoreWord}
    {n : Nat} {es : List Expr} {r : Except Fault Value} (hw : w.Accepts c vs (.core k))
    (hk : k.act (c.line?.getD 0) h vs = .ok (.loop n es g))
    (hl : Evaluates w g (.loop n es) w' r) : Evaluates w h (.apply c vs) w' r
  | enter {w w' : World} {h : Scopes.Handle} {c : Expr} {vs : List Value} {params : List String}
    {body : List Expr} {r : Except Fault Value} (hw : w.Accepts c vs (.defined params body))
    (hb : Evaluates (w.entered params vs) w.scopes.next (.block body) w' r) :
    Evaluates w h (.apply c vs) w' r
  | zero {w : World} {h : Scopes.Handle} {es : List Expr} :
    Evaluates w h (.loop 0 es) w (.ok .void)
  | again {w w₁ w' : World} {h : Scopes.Handle} {n : Nat} {es : List Expr} {v : Value}
    {r : Except Fault Value} (hb : Evaluates w h (.block es) w₁ (.ok v))
    (hn : Evaluates w₁ h (.loop n es) w' r) : Evaluates w h (.loop (n + 1) es) w' r
  | halted {w w' : World} {h : Scopes.Handle} {n : Nat} {es : List Expr} {f : Fault}
    (hb : Evaluates w h (.block es) w' (.error f)) :
    Evaluates w h (.loop (n + 1) es) w' (.error f)

/-- Evaluation by recursion with the calls and operations whose words it applies, in order. A call
that fails counts. -/
inductive Dispatches : {α : Type} → World → Scopes.Handle → Job α → List Expr → World →
    Except Fault α → Prop where
  -- Values, references and definitions apply no word.
  | nil {w : World} {h : Scopes.Handle} : Dispatches w h (.expr .nil) [] w (.ok .nil)
  | number {w : World} {h : Scopes.Handle} {n : Int64} {line : Nat} :
    Dispatches w h (.expr (.number n line)) [] w (.ok (.number n))
  | word {w : World} {h : Scopes.Handle} {text : String} {line : Nat} :
    Dispatches w h (.expr (.word text line)) [] w (.ok (.word text))
  | list {w : World} {h : Scopes.Handle} {es : List Expr} {line : Nat} :
    Dispatches w h (.expr (.list es line)) [] w (.ok (.list es line))
  | var {w : World} {h : Scopes.Handle} {name : String} {line : Nat} {v : Value}
    (hv : w.scopes.lookup h name = some v) : Dispatches w h (.expr (.var name line)) [] w (.ok v)
  | unbound {w : World} {h : Scopes.Handle} {name : String} {line : Nat}
    (hv : w.scopes.lookup h name = none) :
    Dispatches w h (.expr (.var name line)) [] w (.error (.unknown name (some line)))
  | define {w : World} {h : Scopes.Handle} {name : String} {params : List String}
    {body : List Expr} {line : Nat} :
    Dispatches w h (.expr (.define name params body line)) [] (w.learn name params body)
      (.ok .void)
  | group {w w' : World} {h : Scopes.Handle} {e : Expr} {line : Nat} {cs : List Expr}
    {r : Except Fault Value} (he : Dispatches w h (.expr e) cs w' r) :
    Dispatches w h (.expr (.group e line)) cs w' r
  | call {w w₁ w' : World} {h : Scopes.Handle} {c : Expr} {as bs : List Expr} {vs : List Value}
    {r : Except Fault Value} (hc : c.Applies)
    (ha : Dispatches w h (.items c.operands) as w₁ (.ok vs))
    (hw : Dispatches w₁ h (.apply c vs) bs w' r) : Dispatches w h (.expr c) (as ++ bs) w' r
  | argument {w w' : World} {h : Scopes.Handle} {c : Expr} {as : List Expr} {f : Fault}
    (hc : c.Applies) (ha : Dispatches w h (.items c.operands) as w' (.error f)) :
    Dispatches w h (.expr c) as w' (.error f)
  | none {w : World} {h : Scopes.Handle} : Dispatches w h (.items []) [] w (.ok [])
  | cons {w w₁ w' : World} {h : Scopes.Handle} {e : Expr} {es as bs : List Expr} {v : Value}
    {r : Except Fault (List Value)} (he : Dispatches w h (.expr e) as w₁ (.ok v))
    (hs : Dispatches w₁ h (.items es) bs w' r) :
    Dispatches w h (.items (e :: es)) (as ++ bs) w' (r.map (v :: ·))
  | stop {w w' : World} {h : Scopes.Handle} {e : Expr} {es as : List Expr} {f : Fault}
    (he : Dispatches w h (.expr e) as w' (.error f)) :
    Dispatches w h (.items (e :: es)) as w' (.error f)
  | empty {w : World} {h : Scopes.Handle} : Dispatches w h (.block []) [] w (.ok .void)
  | last {w w' : World} {h : Scopes.Handle} {e : Expr} {cs : List Expr} {r : Except Fault Value}
    (he : Dispatches w h (.expr e) cs w' r) : Dispatches w h (.block [e]) cs w' r
  | drop {w w₁ w' : World} {h : Scopes.Handle} {e e' : Expr} {es as bs : List Expr} {v : Value}
    {r : Except Fault Value} (he : Dispatches w h (.expr e) as w₁ (.ok v))
    (hs : Dispatches w₁ h (.block (e' :: es)) bs w' r) :
    Dispatches w h (.block (e :: e' :: es)) (as ++ bs) w' r
  | broken {w w' : World} {h : Scopes.Handle} {e e' : Expr} {es as : List Expr} {f : Fault}
    (he : Dispatches w h (.expr e) as w' (.error f)) :
    Dispatches w h (.block (e :: e' :: es)) as w' (.error f)
  -- The call comes before all that its word runs.
  | refused {w : World} {h : Scopes.Handle} {c : Expr} {vs : List Value} {f : Fault}
    (hf : w.Refuses c vs f) : Dispatches w h (.apply c vs) [c] w (.error f)
  | failed {w : World} {h : Scopes.Handle} {c : Expr} {vs : List Value} {k : CoreWord}
    {cause : RunFault} (hw : w.Accepts c vs (.core k))
    (hk : k.act (c.line?.getD 0) h vs = .error cause) :
    Dispatches w h (.apply c vs) [c] w (.error (.run cause (some c)))
  | value {w : World} {h : Scopes.Handle} {c : Expr} {vs : List Value} {k : CoreWord} {v : Value}
    (hw : w.Accepts c vs (.core k)) (hk : k.act (c.line?.getD 0) h vs = .ok (.value v)) :
    Dispatches w h (.apply c vs) [c] w (.ok v)
  | say {w : World} {h : Scopes.Handle} {c : Expr} {vs : List Value} {k : CoreWord}
    {text : String} (hw : w.Accepts c vs (.core k))
    (hk : k.act (c.line?.getD 0) h vs = .ok (.say text)) :
    Dispatches w h (.apply c vs) [c] (w.print text) (.ok .void)
  | run {w w' : World} {h g : Scopes.Handle} {c : Expr} {vs : List Value} {k : CoreWord}
    {es cs : List Expr} {r : Except Fault Value} (hw : w.Accepts c vs (.core k))
    (hk : k.act (c.line?.getD 0) h vs = .ok (.run es g))
    (hb : Dispatches w g (.block es) cs w' r) : Dispatches w h (.apply c vs) (c :: cs) w' r
  | loop {w w' : World} {h g : Scopes.Handle} {c : Expr} {vs : List Value} {k : CoreWord}
    {n : Nat} {es cs : List Expr} {r : Except Fault Value} (hw : w.Accepts c vs (.core k))
    (hk : k.act (c.line?.getD 0) h vs = .ok (.loop n es g))
    (hl : Dispatches w g (.loop n es) cs w' r) : Dispatches w h (.apply c vs) (c :: cs) w' r
  | enter {w w' : World} {h : Scopes.Handle} {c : Expr} {vs : List Value} {params : List String}
    {body cs : List Expr} {r : Except Fault Value} (hw : w.Accepts c vs (.defined params body))
    (hb : Dispatches (w.entered params vs) w.scopes.next (.block body) cs w' r) :
    Dispatches w h (.apply c vs) (c :: cs) w' r
  | zero {w : World} {h : Scopes.Handle} {es : List Expr} :
    Dispatches w h (.loop 0 es) [] w (.ok .void)
  | again {w w₁ w' : World} {h : Scopes.Handle} {n : Nat} {es as bs : List Expr} {v : Value}
    {r : Except Fault Value} (hb : Dispatches w h (.block es) as w₁ (.ok v))
    (hn : Dispatches w₁ h (.loop n es) bs w' r) :
    Dispatches w h (.loop (n + 1) es) (as ++ bs) w' r
  | halted {w w' : World} {h : Scopes.Handle} {n : Nat} {es as : List Expr} {f : Fault}
    (hb : Dispatches w h (.block es) as w' (.error f)) :
    Dispatches w h (.loop (n + 1) es) as w' (.error f)

def Job.OfCall {α : Type} : Job α → Prop
  | .apply c _ => c.Applies
  | _ => True

variable {α : Type} {w w' : World} {h : Scopes.Handle} {j : Job α} {r : Except Fault α}

theorem Dispatches.evaluates {calls : List Expr} (hd : Dispatches w h j calls w' r) :
    Evaluates w h j w' r := by
  induction hd with
  | nil => exact .nil
  | number => exact .number
  | word => exact .word
  | list => exact .list
  | var hv => exact .var hv
  | unbound hv => exact .unbound hv
  | define => exact .define
  | group _ ih => exact .group ih
  | call hc _ _ iha ihw => exact .call hc iha ihw
  | argument hc _ iha => exact .argument hc iha
  | none => exact .none
  | cons _ _ ihe ihs => exact .cons ihe ihs
  | stop _ ihe => exact .stop ihe
  | empty => exact .empty
  | last _ ih => exact .last ih
  | drop _ _ ihe ihs => exact .drop ihe ihs
  | broken _ ihe => exact .broken ihe
  | refused hf => exact .refused hf
  | failed hw hk => exact .failed hw hk
  | value hw hk => exact .value hw hk
  | say hw hk => exact .say hw hk
  | run hw hk _ ih => exact .run hw hk ih
  | loop hw hk _ ih => exact .loop hw hk ih
  | enter hw _ ih => exact .enter hw ih
  | zero => exact .zero
  | again _ _ ihb ihn => exact .again ihb ihn
  | halted _ ih => exact .halted ih

theorem Evaluates.dispatches (he : Evaluates w h j w' r) :
    ∃ calls, Dispatches w h j calls w' r := by
  induction he with
  | nil => exact ⟨_, .nil⟩
  | number => exact ⟨_, .number⟩
  | word => exact ⟨_, .word⟩
  | list => exact ⟨_, .list⟩
  | var hv => exact ⟨_, .var hv⟩
  | unbound hv => exact ⟨_, .unbound hv⟩
  | define => exact ⟨_, .define⟩
  | group _ ih => exact ⟨_, .group ih.choose_spec⟩
  | call hc _ _ iha ihw => exact ⟨_, .call hc iha.choose_spec ihw.choose_spec⟩
  | argument hc _ iha => exact ⟨_, .argument hc iha.choose_spec⟩
  | none => exact ⟨_, .none⟩
  | cons _ _ ihe ihs => exact ⟨_, .cons ihe.choose_spec ihs.choose_spec⟩
  | stop _ ihe => exact ⟨_, .stop ihe.choose_spec⟩
  | empty => exact ⟨_, .empty⟩
  | last _ ih => exact ⟨_, .last ih.choose_spec⟩
  | drop _ _ ihe ihs => exact ⟨_, .drop ihe.choose_spec ihs.choose_spec⟩
  | broken _ ihe => exact ⟨_, .broken ihe.choose_spec⟩
  | refused hf => exact ⟨_, .refused hf⟩
  | failed hw hk => exact ⟨_, .failed hw hk⟩
  | value hw hk => exact ⟨_, .value hw hk⟩
  | say hw hk => exact ⟨_, .say hw hk⟩
  | run hw hk _ ih => exact ⟨_, .run hw hk ih.choose_spec⟩
  | loop hw hk _ ih => exact ⟨_, .loop hw hk ih.choose_spec⟩
  | enter hw _ ih => exact ⟨_, .enter hw ih.choose_spec⟩
  | zero => exact ⟨_, .zero⟩
  | again _ _ ihb ihn => exact ⟨_, .again ihb.choose_spec ihn.choose_spec⟩
  | halted _ ih => exact ⟨_, .halted ih.choose_spec⟩

/-- The list adds nothing to evaluation by recursion and leaves nothing out. -/
theorem evaluates_iff_dispatches :
    Evaluates w h j w' r ↔ ∃ calls, Dispatches w h j calls w' r :=
  ⟨Evaluates.dispatches, fun ⟨_, hd⟩ => hd.evaluates⟩

theorem Dispatches.applies {calls : List Expr} (hd : Dispatches w h j calls w' r)
    (hj : j.OfCall) : ∀ c ∈ calls, c.Applies := by
  induction hd with
  | nil | number | word | list | var | unbound | define | none | empty | zero => simp
  | group _ ih | stop _ ih | last _ ih | broken _ ih | halted _ ih => exact ih trivial
  | argument _ _ ih => exact ih trivial
  | call hc _ _ iha ihw => exact List.forall_mem_append.2 ⟨iha trivial, ihw hc⟩
  | cons _ _ ihe ihs | drop _ _ ihe ihs | again _ _ ihe ihs =>
    exact List.forall_mem_append.2 ⟨ihe trivial, ihs trivial⟩
  | refused | failed | value | say => exact List.forall_mem_singleton.2 hj
  | run _ _ _ ih | loop _ _ _ ih | enter _ _ ih => exact List.forall_mem_cons.2 ⟨hj, ih trivial⟩

end Direct

end LogoLang
