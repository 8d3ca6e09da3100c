import LogoLang.Machine.World
import Mathlib.Data.List.Basic

/-!
What the application of a word can come to, said once. Main statements: a core word replies only in
the ways listed here, with blocks that are among its arguments; and a call is either refused, for
one of three reasons in a fixed order, or accepted.
-/

set_option autoImplicit false

namespace LogoLang

/-- What a computation fails with is of one kind, what it returns is of another. -/
def Gives {ε α : Type} (E : ε → Prop) (P : α → Prop) : Except ε α → Prop
  | .error e => E e
  | .ok a => P a

namespace Gives

variable {ε α β : Type} {E : ε → Prop} {P : α → Prop} {Q : β → Prop}

theorem bind {x : Except ε α} {f : α → Except ε β} (hx : Gives E P x)
    (hf : ∀ a, P a → Gives E Q (f a)) : Gives E Q (x >>= f) := by
  cases x with
  | error e => exact hx
  | ok a => exact hf a hx

theorem map {x : Except ε α} {f : α → β} (hx : Gives E P x) (hf : ∀ a, P a → Q (f a)) :
    Gives E Q (f <$> x) := by
  cases x with
  | error e => exact hx
  | ok a => exact hf a hx

end Gives

def RunFault.OfValues : RunFault → Prop
  | .overflow | .divisionByZero | .expectsNumber _ _ | .expectsTruth _ _ | .expectsList _ _ => True
  | _ => False

namespace CoreWord

inductive Replies (line : Nat) (scope : Scopes.Handle) (args : List Value) : Reply → Prop where
  | void : Replies line scope args (.value .void)
  | number (n : Int64) : Replies line scope args (.value (.number n))
  | word (text : String) : Replies line scope args (.value (.word text))
  | list : Replies line scope args (.value (listOf line args))
  | say (text : String) : Replies line scope args (.say text)
  | run {items : List Expr} (own : Nat) (h : .list items own ∈ args) :
    Replies line scope args (.run items scope)
  | loop {items : List Expr} (own count : Nat) (h : .list items own ∈ args) :
    Replies line scope args (.loop count items scope)

theorem number_gives (w : CoreWord) (v : Value) :
    Gives RunFault.OfValues (fun _ => True) (w.number v) := by
  unfold number
  split <;> trivial

theorem truth_gives (w : CoreWord) (v : Value) :
    Gives RunFault.OfValues (fun _ => True) (w.truth v) := by
  unfold truth
  split <;> trivial

theorem block_gives (w : CoreWord) (v : Value) :
    Gives RunFault.OfValues (fun items => ∃ own, v = .list items own) (w.block v) := by
  cases v with
  | list items own => exact ⟨own, rfl⟩
  | _ => trivial

theorem fitted_gives (n : Int) :
    Gives RunFault.OfValues (fun v => ∃ m, v = .number m) (fitted n) := by
  unfold fitted
  split
  · exact ⟨_, rfl⟩
  · trivial

theorem quotient_gives (a b : Int64) :
    Gives RunFault.OfValues (fun v => ∃ m, v = .number m) (quotient a b) := by
  unfold quotient
  split
  · trivial
  · exact fitted_gives _

theorem total_gives (start : Int64) (args : List Value) :
    Gives RunFault.OfValues (fun v => ∃ m, v = .number m) (total start args) := by
  induction args generalizing start with
  | nil => exact ⟨start, rfl⟩
  | cons v vs ih =>
    refine (number_gives .sum v).bind fun n _ => ?_
    split
    · exact ih _
    · trivial

variable {line : Nat} {scope : Scopes.Handle} {args : List Value}

theorem numeric_gives {x : Except RunFault Value}
    (h : Gives RunFault.OfValues (fun v => ∃ m, v = .number m) x) :
    Gives RunFault.OfValues (Replies line scope args) (.value <$> x) :=
  h.map fun _ ⟨m, hv⟩ => hv ▸ .number m

theorem numbers_gives (w : CoreWord) (a b : Value) {f : Int64 → Int64 → Except RunFault Reply}
    (hf : ∀ m n, Gives RunFault.OfValues (Replies line scope args) (f m n)) :
    Gives RunFault.OfValues (Replies line scope args) (do
      let m ← number w a
      let n ← number w b
      f m n) :=
  (number_gives w a).bind fun m _ => (number_gives w b).bind fun n _ => hf m n

/-- With the right number of arguments a core word gives one of the replies, or has a fault to
find with a value. -/
theorem act_gives {w : CoreWord} {args : List Value} (hn : (Word.core w).takes args.length = true)
    (line : Nat) (scope : Scopes.Handle) :
    Gives RunFault.OfValues (Replies line scope args) (w.act line scope args) := by
  unfold act
  split
  · exact numbers_gives _ _ _ fun m n => numeric_gives (fitted_gives _)
  · exact numbers_gives _ _ _ fun m n => numeric_gives (fitted_gives _)
  · exact numbers_gives _ _ _ fun m n => numeric_gives (fitted_gives _)
  · exact numbers_gives _ _ _ fun m n => numeric_gives (quotient_gives _ _)
  · exact numbers_gives _ _ _ fun m n => .word _
  · exact numbers_gives _ _ _ fun m n => .word _
  · exact .word _
  · exact numeric_gives (total_gives 0 args)
  · exact .list
  · rename_i n b
    refine (number_gives _ n).bind fun count _ => (block_gives _ b).bind fun items hb => ?_
    obtain ⟨own, rfl⟩ := hb
    exact .loop own _ (by simp)
  · rename_i c b
    refine (truth_gives _ c).bind fun holds _ => (block_gives _ b).bind fun items hb => ?_
    obtain ⟨own, rfl⟩ := hb
    cases holds with
    | false => exact .void
    | true => exact .run own (by simp)
  · rename_i c a b
    refine (truth_gives _ c).bind fun holds _ => (block_gives _ a).bind fun yes ha =>
      (block_gives _ b).bind fun no hb => ?_
    obtain ⟨i, rfl⟩ := ha
    obtain ⟨j, rfl⟩ := hb
    cases holds with
    | false => exact .run j (by simp)
    | true => exact .run i (by simp)
  · exact .say _
  · -- As many arguments as the word takes are a list of one of the lengths listed above.
    exfalso
    cases w <;> simp_all [Word.takes, Word.signature, Signature.isVariadic, Signature.arity,
      isVariadic, arity, List.length_eq_two, List.length_eq_three, List.length_eq_one_iff]

theorem lookup_names {name : String} {word : Word} {ks : List CoreWord}
    (h : (ks.map fun k => (k.name, Word.core k)).lookup name = some word) :
    ∃ k ∈ ks, word = .core k ∧ k.name = name := by
  induction ks with
  | nil => cases h
  | cons k ks ih =>
    simp only [List.map_cons, List.lookup_cons] at h
    split at h
    · rename_i he
      cases h
      exact ⟨k, by simp, rfl, (eq_of_beq he).symm⟩
    · obtain ⟨k', hk, he⟩ := ih h
      exact ⟨k', by simp [hk], he⟩

theorem act_replies {w : CoreWord} {args : List Value}
    (hn : (Word.core w).takes args.length = true) {line : Nat} {scope : Scopes.Handle} {r : Reply}
    (hk : w.act line scope args = .ok r) : Replies line scope args r := by
  have h := act_gives hn line scope
  rw [hk] at h
  exact h

theorem act_ofValues {w : CoreWord} {args : List Value}
    (hn : (Word.core w).takes args.length = true) {line : Nat} {scope : Scopes.Handle}
    {cause : RunFault} (hk : w.act line scope args = .error cause) : cause.OfValues := by
  have h := act_gives hn line scope
  rw [hk] at h
  exact h

end CoreWord

theorem Registry.get?_core {name : String} {word : Word}
    (h : Registry.core.get? name = some word) : ∃ k : CoreWord, word = .core k ∧ k.name = name := by
  obtain ⟨k, -, hk⟩ := CoreWord.lookup_names h
  exact ⟨k, hk⟩

def Expr.Applies : Expr → Prop
  | .call _ _ _ | .binary _ _ _ _ => True
  | _ => False

namespace World

/-- Why a call is not carried out: its word does not exist, else an argument has no value, else
their number is wrong. -/
inductive Refuses (w : World) (call : Expr) (args : List Value) : Fault → Prop where
  | unknown (hw : w.words.get? call.callee = none) :
    Refuses w call args (.unknown call.callee call.line?)
  | noValue {word : Word} {before after : List Value} {arg : Expr}
    (hw : w.words.get? call.callee = some word) (ha : args = before ++ .void :: after)
    (hb : .void ∉ before) (he : call.operands[before.length]?.getD call = arg) :
    Refuses w call args (.run (.noValue arg) (some arg))
  | miscounted {word : Word} (hw : w.words.get? call.callee = some word) (hv : .void ∉ args)
    (ht : word.takes args.length = false) :
    Refuses w call args
      (.run (.expectsArguments call.callee word.signature.arity args.length) (some call))

structure Accepts (w : World) (call : Expr) (args : List Value) (word : Word) : Prop where
  known : w.words.get? call.callee = some word
  valued : .void ∉ args
  counted : word.takes args.length = true

theorem isVoid_eq_true {v : Value} : v.isVoid = true ↔ v = .void := by
  cases v <;> simp [Value.isVoid]

theorem voidArg?_eq_none_iff {call : Expr} {args : List Value} :
    voidArg? call args = none ↔ .void ∉ args := by
  simp only [voidArg?, Option.map_eq_none_iff, List.findIdx?_eq_none_iff, ← Bool.not_eq_true,
    isVoid_eq_true]
  exact ⟨fun h hv => h _ hv rfl, fun h v hv e => h (e ▸ hv)⟩

theorem voidArg?_split {call : Expr} {before after : List Value} (hb : .void ∉ before) :
    voidArg? call (before ++ .void :: after) =
      some (call.operands[before.length]?.getD call) := by
  have hn : before.findIdx? Value.isVoid = none := by
    rw [List.findIdx?_eq_none_iff]
    intro v hv
    rw [← Bool.not_eq_true, isVoid_eq_true]
    rintro rfl
    exact hb hv
  simp [voidArg?, List.findIdx?_append, hn, List.findIdx?_cons, Value.isVoid]

variable {w : World} {call : Expr} {args : List Value}

theorem Refuses.apply_eq {f : Fault} (h : w.Refuses call args f) (scope : Scopes.Handle) :
    w.apply call args scope = .error f := by
  cases h with
  | unknown hw => simp only [apply, hw]
  | noValue hw ha hb he => simp only [apply, hw, ha, voidArg?_split hb, he]
  | miscounted hw hv ht => simp [apply, hw, voidArg?_eq_none_iff.2 hv, ht]

theorem Accepts.apply_eq {word : Word} (h : w.Accepts call args word) (scope : Scopes.Handle) :
    w.apply call args scope =
      (w.applyWord call args scope word).mapError fun cause => .run cause (some call) := by
  simp only [apply, h.known, voidArg?_eq_none_iff.2 h.valued, h.counted, if_true]

theorem refuses_or_accepts (w : World) (call : Expr) (args : List Value) :
    (∃ f, w.Refuses call args f) ∨ ∃ word, w.Accepts call args word := by
  cases hw : w.words.get? call.callee with
  | none => exact .inl ⟨_, .unknown hw⟩
  | some word =>
    by_cases hv : .void ∈ args
    · obtain ⟨before, after, ha, hb⟩ := List.eq_append_cons_of_mem hv
      exact .inl ⟨_, .noValue hw ha hb rfl⟩
    · cases ht : word.takes args.length with
      | false => exact .inl ⟨_, .miscounted hw hv ht⟩
      | true => exact .inr ⟨word, hw, hv, ht⟩

end World

end LogoLang
