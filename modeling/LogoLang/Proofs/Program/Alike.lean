import LogoLang.Proofs.Program.Echo

/-!
Readers that are alike differ in lines, and in the spelling of tokens that have been taken for the
same. Main statement: alike readers stay alike when one is fed a token and the other its echo, so a
program is read again, alike, from its echoes.
-/

set_option autoImplicit false

namespace LogoLang.Reader

open Token

def SameItems (as bs : Array Expr) : Prop :=
  as.toList.map Expr.unlined = bs.toList.map Expr.unlined

theorem SameItems.push {as bs : Array Expr} {a b : Expr} (h : SameItems as bs)
    (he : a.unlined = b.unlined) : SameItems (as.push a) (bs.push b) := by
  simp only [SameItems, Array.toList_push, List.map_append, List.map_cons, List.map_nil, he] at h ⊢
  rw [h]

inductive Frame.Alike : Frame → Frame → Prop where
  | list {t t' : Token} {as bs : Array Expr} (h : SameItems as bs) :
    Alike (.list t as) (.list t' bs)
  | body {t t' : Token} {f : String} {ps : List String} {as bs : Array Expr}
    (h : SameItems as bs) : Alike (.body t f ps as) (.body t' f ps bs)
  | group {t t' : Token} : Alike (.group t) (.group t')
  | spread {t t' w w' : Token} {as bs : Array Expr} (hw : w.text = w'.text)
    (h : SameItems as bs) : Alike (.spread t w as) (.spread t' w' bs)
  | args {w w' : Token} {n : Nat} {as bs : Array Expr} (hw : w.text = w'.text)
    (h : SameItems as bs) : Alike (.args w n as) (.args w' n bs)
  | operand {a b : Expr} {op : Operator} {t t' : Token} (h : a.unlined = b.unlined) :
    Alike (.operand a op t) (.operand b op t')

inductive StackAlike : List Frame → List Frame → Prop where
  | nil : StackAlike [] []
  | cons {f g : Frame} {st st' : List Frame} (h : f.Alike g) (hst : StackAlike st st') :
    StackAlike (f :: st) (g :: st')

inductive Place.Alike : Place → Place → Prop where
  | start : Alike .start .start
  | name {t t' : Token} : Alike (.name t) (.name t')
  | params {t t' : Token} {f : String} {ps : Array String} :
    Alike (.params t f ps) (.params t' f ps)
  | after {a b : Expr} (h : a.unlined = b.unlined) : Alike (.after a) (.after b)

inductive Home.Alike : Home → Home → Prop where
  | item {st st' : List Frame} (h : StackAlike st st') : Alike (.item st) (.item st')
  | group {t t' : Token} {a b : Expr} {st st' : List Frame} (he : a.unlined = b.unlined)
    (h : StackAlike st st') : Alike (.group t a st) (.group t' b st')
  | top {a b : Expr} (h : a.unlined = b.unlined) : Alike (.top a) (.top b)

structure Alike (r r' : Reader) : Prop where
  words : r.words = r'.words
  program : SameItems r.program r'.program
  stack : StackAlike r.stack r'.stack
  place : r.place.Alike r'.place

theorem settle_alike {stack stack' : List Frame} {e e' : Expr} (h : StackAlike stack stack')
    (he : e.unlined = e'.unlined) : (settle stack e).Alike (settle stack' e') := by
  induction h generalizing e e' with
  | nil => exact .top he
  | cons hf hst ih =>
    cases hf with
    | list h => exact .item (.cons (.list (h.push he)) hst)
    | body h => exact .item (.cons (.body (h.push he)) hst)
    | group => exact .group he hst
    | spread hw h => exact .item (.cons (.spread hw (h.push he)) hst)
    | @args w w' n as bs hw h =>
      cases n with
      | zero =>
        refine ih ?_
        have hp : (as.push e).toList.map Expr.unlined = _ := h.push he
        rw [Expr.unlined_call, Expr.unlined_call, hw, hp]
      | succ n => exact .item (.cons (.args hw (h.push he)) hst)
    | operand h =>
      refine ih ?_
      rw [Expr.unlined_binary, Expr.unlined_binary, h, he]

theorem StackAlike.symm {st st' : List Frame} (h : StackAlike st st') : StackAlike st' st := by
  induction h with
  | nil => exact .nil
  | cons hf hst ih =>
    refine .cons ?_ ih
    cases hf with
    | list h => exact .list h.symm
    | body h => exact .body h.symm
    | group => exact .group
    | spread hw h => exact .spread hw.symm h.symm
    | args hw h => exact .args hw.symm h.symm
    | operand h => exact .operand h.symm

theorem StackAlike.of_eq_cons {stack stack' st : List Frame} {f : Frame}
    (h : StackAlike stack stack') (hst : stack = f :: st) :
    ∃ g st', stack' = g :: st' ∧ f.Alike g ∧ StackAlike st st' := by
  subst hst
  cases h with
  | cons hf hst => exact ⟨_, _, rfl, hf, hst⟩

theorem StackAlike.spreads {r r' : Reader} (h : StackAlike r.stack r'.stack) {s : Signature}
    (hs : r'.Spreads s) : r.Spreads s := by
  obtain ⟨opener, st, hst, hv⟩ := hs
  obtain ⟨g, st', hst', hf, -⟩ := h.symm.of_eq_cons hst
  cases hf with
  | group => exact ⟨_, _, hst', hv⟩

theorem Alike.pushTop {r r' : Reader} {e e' : Expr} (ha : r.Alike r')
    (he : e.unlined = e'.unlined) : (r.pushTop e).Alike (r'.pushTop e') :=
  ⟨ha.words, ha.program.push (Expr.unlined_regroup he), .nil, .start⟩

theorem starts_alike (kw : Keywords) {r r' r₁ : Reader} {t t' : Token} (h : Starts r t r₁)
    (ha : r.Alike r') (ht : t'.lexeme = echo kw .start t) :
    ∃ r₁', Starts r' t' r₁' ∧ r₁.Alike r₁' := by
  have hw := ha.words
  have hst := ha.stack
  have hkind : t'.kind = (echo kw .start t).1 := congrArg Prod.fst ht
  have htext : t'.text = (echo kw .start t).2 := congrArg Prod.snd ht
  cases h with
  | paren hk =>
    simp only [echo, hk] at hkind
    exact ⟨_, .paren hkind, hw, ha.program, .cons .group hst, .start⟩
  | bracket hk =>
    simp only [echo, hk] at hkind
    exact ⟨_, .bracket hkind, hw, ha.program, .cons (.list rfl) hst, .start⟩
  | header hk =>
    simp only [echo, hk] at hkind
    exact ⟨_, .header hkind, hw, ha.program, hst, .name⟩
  | @number n hk hn =>
    simp only [echo, hk, hn, Option.map_some, Option.getD_some] at hkind htext
    have hn' : Text.readInt64? t'.text = some n := by rw [htext, Text.readInt64?_intText]
    exact ⟨_, .number hkind hn', hw, ha.program, hst, .after rfl⟩
  | reference hk =>
    simp only [echo, hk] at hkind htext
    refine ⟨_, .reference hkind, hw, ha.program, hst, .after ?_⟩
    rw [htext]
    exact congrArg (fun x => Expr.var x 0) (dropMark_mark ':' _).symm
  | quoted hk =>
    simp only [echo, hk] at hkind htext
    refine ⟨_, .quoted hkind, hw, ha.program, hst, .after ?_⟩
    rw [htext]
    exact congrArg (fun x => Expr.word x 0) (dropMark_mark '"' _).symm
  | @spread s opener st hk hs hst' hv =>
    simp only [echo, hk] at hkind htext
    obtain ⟨g, st', hr, hf, hst₁⟩ := hst.of_eq_cons hst'
    cases hf with
    | group =>
      refine ⟨_, .spread hkind ?_ hr hv, hw, ha.program, .cons (.spread htext.symm rfl) hst₁,
        .start⟩
      rw [← hw, htext, hs]
  | constant hk hs hv har =>
    simp only [echo, hk] at hkind htext
    refine ⟨_, .constant hkind ?_ (fun hv' => hv (hst.spreads hv')) har, hw, ha.program, hst,
      .after ?_⟩
    · rw [← hw, htext, hs]
    · rw [htext]
      rfl
  | call hk hs hv har =>
    simp only [echo, hk] at hkind htext
    refine ⟨_, .call hkind ?_ (fun hv' => hv (hst.spreads hv')) har, hw, ha.program,
      .cons (.args htext.symm rfl) hst, .start⟩
    rw [← hw, htext, hs]
  | closeList hk hst' =>
    simp only [echo, hk] at hkind
    obtain ⟨g, st', hr, hf, hst₁⟩ := hst.of_eq_cons hst'
    cases hf with
    | list hi =>
      refine ⟨_, .closeList hkind hr, hw, ha.program, hst₁, .after ?_⟩
      rw [Expr.unlined_list, Expr.unlined_list, hi]
  | closeBody hk hst' =>
    simp only [echo, hk] at hkind
    obtain ⟨g, st', hr, hf, hst₁⟩ := hst.of_eq_cons hst'
    cases hf with
    | body hi =>
      refine ⟨_, .closeBody hkind hr, hw, ha.program, hst₁, .after ?_⟩
      rw [Expr.unlined_define, Expr.unlined_define, hi]
  | closeSpread hk hst' =>
    simp only [echo, hk] at hkind
    obtain ⟨g, st', hr, hf, hst₁⟩ := hst.of_eq_cons hst'
    cases hf with
    | spread hwt hi =>
      refine ⟨_, .closeSpread hkind hr, hw, ha.program, hst₁, .after ?_⟩
      rw [Expr.unlined_group, Expr.unlined_group, Expr.unlined_call, Expr.unlined_call, hi, hwt]

theorem Place.Alike.of_eq_after {p q : Place} {e : Expr} (h : p.Alike q) (hp : p = .after e) :
    ∃ e', q = .after e' ∧ e.unlined = e'.unlined := by
  subst hp
  cases h with
  | after he => exact ⟨_, rfl, he⟩

theorem Alike.settled {r r' : Reader} {e : Expr} {home : Home} (ha : r.Alike r')
    (hp : r.place = .after e) (hs : settle r.stack e = home) :
    ∃ e' home', r'.place = .after e' ∧ settle r'.stack e' = home' ∧ home.Alike home' := by
  obtain ⟨e', hq, he⟩ := ha.place.of_eq_after hp
  exact ⟨e', _, hq, rfl, hs ▸ settle_alike ha.stack he⟩

theorem feeds_alike (kw : Keywords) {r r' r₁ : Reader} {t t' : Token} (h : Feeds r t r₁)
    (ha : r.Alike r') (ht : t'.lexeme = echo kw r.place t) :
    ∃ r₁', Feeds r' t' r₁' ∧ r₁.Alike r₁' := by
  have hplace := ha.place
  have hkind : t'.kind = t.kind := (congrArg Prod.fst ht).trans (echo_fst kw r.place t)
  have htext : t'.text = (echo kw r.place t).2 := congrArg Prod.snd ht
  cases h with
  | start hp h =>
    rw [hp] at hplace ht
    generalize hq : r'.place = q at hplace
    cases hplace
    obtain ⟨r₁', hs, ha'⟩ := starts_alike kw h ha ht
    exact ⟨r₁', .start hq hs, ha'⟩
  | name hp hk =>
    rw [hp] at hplace
    generalize hq : r'.place = q at hplace
    cases hplace
    refine ⟨_, .name hq (hkind.trans hk), ha.words, ha.program, ha.stack, ?_⟩
    simp only [echo, hk] at htext
    rw [htext]
    exact .params
  | param hp hk =>
    rw [hp] at hplace
    generalize hq : r'.place = q at hplace
    cases hplace
    refine ⟨_, .param hq (hkind.trans hk), ha.words, ha.program, ha.stack, ?_⟩
    simp only [hp, echo, hk] at htext
    have hd : dropMarks ':' t'.text = dropMarks ':' t.text := by
      rw [htext]
      exact dropMarks_mark ':' t.text
    rw [hd]
    exact .params
  | @body opener name params _ hp hk h =>
    rw [echo_of_ne_reference kw r.place .start hk] at ht
    rw [hp] at hplace
    generalize hq : r'.place = q at hplace
    cases hplace with
    | @params _ opener' =>
      have hb : (r.enterBody opener name params).Alike (r'.enterBody opener' name params) :=
        ⟨by simp [enterBody, opened, ha.words], ha.program, .cons (.body rfl) ha.stack, .start⟩
      obtain ⟨r₁', hs, ha'⟩ := starts_alike kw h hb ht
      exact ⟨r₁', .body hq (hkind ▸ hk) hs, ha'⟩
  | operator hp hk ho =>
    obtain ⟨e', hq, he⟩ := hplace.of_eq_after hp
    simp only [echo, hk] at htext
    exact ⟨_, .operator hq (hkind.trans hk) (htext ▸ ho), ha.words, ha.program,
      .cons (.operand he) ha.stack, .start⟩
  | @item e st _ hp hk hs h =>
    obtain ⟨e', home, hq, hs', hh⟩ := ha.settled hp hs
    cases hh with
    | @item _ st' hst =>
      have ha₁ : Alike { r with stack := st, place := .start }
          { r' with stack := st', place := .start } := ⟨ha.words, ha.program, hst, .start⟩
      rw [hp, echo_after] at ht
      obtain ⟨r₁', hs₁, ha'⟩ := starts_alike kw h ha₁ ht
      exact ⟨r₁', .item hq (hkind ▸ hk) hs' hs₁, ha'⟩
  | top hp hk hs h =>
    obtain ⟨e', home, hq, hs', hh⟩ := ha.settled hp hs
    cases hh with
    | top ht' =>
      rw [hp, echo_after] at ht
      obtain ⟨r₁', hs₁, ha'⟩ := starts_alike kw h (ha.pushTop ht') ht
      exact ⟨r₁', .top hq (hkind ▸ hk) hs' hs₁, ha'⟩
  | group hp hk hs =>
    obtain ⟨e', home, hq, hs', hh⟩ := ha.settled hp hs
    cases hh with
    | group hi hst =>
      refine ⟨_, .group hq (hkind.trans hk) hs', ha.words, ha.program, hst, .after ?_⟩
      rw [Expr.unlined_group, Expr.unlined_group, hi]

theorem feedAll_alike (kw : Keywords) {r r' r₁ : Reader} {ts ts' : List Token}
    (h : r.feedAll ts = .ok r₁) (ha : r.Alike r') (ht : ts'.map lexeme = echoes kw r ts) :
    ∃ r₁', r'.feedAll ts' = .ok r₁' ∧ r₁.Alike r₁' := by
  induction ts generalizing r r' ts' with
  | nil =>
    cases h
    simp only [echoes, List.map_eq_nil_iff] at ht
    subst ht
    exact ⟨r', rfl, ha⟩
  | cons t ts ih =>
    obtain ⟨r₂, hf, hts⟩ := feedAll_cons_eq_ok_iff.mp h
    rw [echoes_cons kw hf] at ht
    obtain ⟨t', ts', rfl, ht', hts'⟩ := List.map_eq_cons_iff.mp ht
    obtain ⟨r₂', hf', ha'⟩ := feeds_alike kw hf ha ht'
    obtain ⟨r₁', hts₁, ha₁⟩ := ih hts ha' hts'
    exact ⟨r₁', feedAll_cons_eq_ok_iff.mpr ⟨r₂', hf', hts₁⟩, ha₁⟩

theorem finishes_alike {r r' r₁ : Reader} (h : Finishes r r₁) (ha : r.Alike r') :
    ∃ r₁', Finishes r' r₁' ∧ r₁.Alike r₁' := by
  have hplace := ha.place
  cases h with
  | start hp hst =>
    have hs := ha.stack
    rw [hp] at hplace
    rw [hst] at hs
    generalize hq : r'.place = q at hplace
    generalize hst' : r'.stack = st at hs
    cases hplace
    cases hs
    exact ⟨r', .start hq hst', ha⟩
  | top hp hs =>
    obtain ⟨e', home, hq, hs', hh⟩ := ha.settled hp hs
    cases hh with
    | top ht' => exact ⟨_, .top hq hs', ha.pushTop ht'⟩

/-- Tokens that say what the tokens of a program said are a program alike. -/
theorem read_of_echoes (kw : Keywords) {words : Vocabulary} {ts ts' : List Token}
    {p : Program.Reading} (h : Program.read words ts = .ok p)
    (ht : ts'.map lexeme = echoes kw { words := words } ts) :
    ∃ p', Program.read words ts' = .ok p' ∧ Expr.alikeList p.program p'.program = true ∧
      p'.words = p.words := by
  obtain ⟨r, r₁, hr, hf, rfl⟩ := read_eq_ok_iff.mp h
  have h₀ : Alike { words := words } { words := words } := ⟨rfl, rfl, .nil, .start⟩
  obtain ⟨r', hr', ha⟩ := feedAll_alike kw hr h₀ ht
  obtain ⟨r₁', hf', ha'⟩ := finishes_alike hf ha
  exact ⟨_, read_eq_ok_iff.mpr ⟨r', r₁', hr', hf', rfl⟩,
    (Expr.alikeList_iff _ _).mpr ha'.program, ha'.words.symm⟩

end LogoLang.Reader
