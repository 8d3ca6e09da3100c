import LogoLang.Proofs.Expr.Chain
import LogoLang.Proofs.Program.Alike
import LogoLang.Proofs.Program.Legible

/-!
Reading a tree from its own tokens. The reader takes each operator for the last one of its chain, so
after the tokens of a tree some constructs are still open that end together with it. Main statement:
a program that is printed bare is read again from its text just if it is legible.
-/

set_option autoImplicit false

namespace LogoLang

open Token

namespace Expr

mutual
/-- The tokens a tree is written with, each on the line that the tree has for it. -/
def tokens (kw : Keywords) : Expr → List Token
  | .nil => []
  | .number n line => [⟨.number, Text.intText n.toInt, line⟩]
  | .word text line => [⟨.quoted, "\"" ++ text, line⟩]
  | .var name line => [⟨.reference, ":" ++ name, line⟩]
  | .list items line =>
    ⟨.openBracket, "[", line⟩ :: (tokensList kw items ++ [⟨.closeBracket, "]", line⟩])
  | .define name params body line =>
    ⟨.opening, kw.openingWord, line⟩ :: ⟨.word, name, line⟩ ::
      (params.map (fun p => ⟨.reference, ":" ++ p, line⟩) ++
        (tokensList kw body ++ [⟨.closing, kw.closingWord, line⟩]))
  | .call name args line => ⟨.word, name, line⟩ :: tokensList kw args
  | .binary op left right line =>
    tokens kw left ++ ⟨.operator, op.symbol, line⟩ :: tokens kw right
  | .group inner line =>
    ⟨.openParen, "(", line⟩ :: (tokens kw inner ++ [⟨.closeParen, ")", line⟩])
def tokensList (kw : Keywords) : List Expr → List Token
  | [] => []
  | e :: es => tokens kw e ++ tokensList kw es
end

mutual
theorem map_lexeme_tokens (kw : Keywords) : ∀ e : Expr, (e.tokens kw).map lexeme = e.lexemes kw
  | .nil | .number _ _ | .word _ _ | .var _ _ => rfl
  | .list items _ => by simp [tokens, lexemes, lexeme, map_lexeme_tokensList kw items]
  | .define _ _ body _ => by
    simp [tokens, lexemes, lexeme, map_lexeme_tokensList kw body, Function.comp_def]
  | .call _ args _ => by simp [tokens, lexemes, lexeme, map_lexeme_tokensList kw args]
  | .binary _ left right _ => by
    simp [tokens, lexemes, lexeme, map_lexeme_tokens kw left, map_lexeme_tokens kw right]
  | .group inner _ => by simp [tokens, lexemes, lexeme, map_lexeme_tokens kw inner]
theorem map_lexeme_tokensList (kw : Keywords) : ∀ es : List Expr,
    (tokensList kw es).map lexeme = lexemesList kw es
  | [] => rfl
  | e :: es => by
    simp [tokensList, lexemesList, map_lexeme_tokens kw e, map_lexeme_tokensList kw es]
end

theorem tokens_eq_cons (kw : Keywords) : ∀ {v v' : Vocabulary} {grouped : Bool} {e : Expr},
    e.legible v grouped = some v' → ∃ t ts, e.tokens kw = t :: ts ∧ t.kind ≠ .operator ∧
      (t.kind = .reference → e.opening = .reference)
  | _, _, _, .nil, h => by cases h
  | _, _, _, .number _ _, _ | _, _, _, .word _ _, _ | _, _, _, .var _ _, _
  | _, _, _, .list _ _, _ | _, _, _, .define _ _ _ _, _ | _, _, _, .call _ _ _, _
  | _, _, _, .group _ _, _ => ⟨_, _, rfl, by simp, by simp [opening]⟩
  | _, _, _, .binary _ left _ _, h => by
    simp only [legible, Option.bind_eq_some_iff] at h
    obtain ⟨v₁, hl, -⟩ := h
    obtain ⟨t, ts, ht, hk, hr⟩ := tokens_eq_cons kw hl
    exact ⟨t, _, by rw [tokens, ht]; rfl, hk, hr⟩

theorem tokensList_eq_cons (kw : Keywords) {v v' : Vocabulary} {e : Expr} {es : List Expr}
    (h : legibleList v (e :: es) = some v') : ∃ t ts, tokensList kw (e :: es) = t :: ts ∧
      t.kind ≠ .operator ∧ (t.kind = .reference → e.opening = .reference) := by
  simp only [legibleList, Option.bind_eq_some_iff] at h
  obtain ⟨v₁, he, -⟩ := h
  obtain ⟨t, ts, ht, hk, hr⟩ := tokens_eq_cons kw he
  exact ⟨t, _, by rw [tokensList, ht]; rfl, hk, hr⟩

theorem tokensList_append_cons (kw : Keywords) {v v' : Vocabulary} {es : List Expr} {c : Token}
    (rest : List Token) (h : legibleList v es = some v') (hc : c.kind ≠ .operator) :
    ∃ t ts, tokensList kw es ++ c :: rest = t :: ts ∧ t.kind ≠ .operator ∧
      (t.kind = .reference → closesHeader es = true → c.kind = .reference) := by
  cases es with
  | nil => exact ⟨c, rest, rfl, hc, fun h _ => h⟩
  | cons e es =>
    obtain ⟨t, ts, ht, hk, hr⟩ := tokensList_eq_cons kw h
    refine ⟨t, _, by rw [ht]; rfl, hk, fun h hh => ?_⟩
    simp [closesHeader, hr h] at hh

theorem legible_of_not_spreads {v : Vocabulary} {e : Expr} (h : v.spreads e.opening = false) :
    e.legible v true = e.legible v false := by
  cases e with
  | call name args line =>
    have ha : v.admits true name args.length = v.admits false name args.length := by
      simp only [opening, Vocabulary.spreads] at h
      unfold Vocabulary.admits
      cases hs : v.get? name <;> simp_all
    simp only [legible, ha]
  | _ => rfl

end Expr

theorem Vocabulary.admits_false_iff {v : Vocabulary} {name : String} {n : Nat} :
    v.admits false name n = true ↔ ∃ s, v.get? name = some s ∧ s.arity = n := by
  simp [admits_iff]

namespace Reader

open LogoLang.Expr (tokens tokensList legibleList chain chainThen chainList Bare BareList Opening)

/-- The constructs end with the expression `e`, and make `d` of it. -/
inductive Closes : List Frame → Expr → Expr → Prop where
  | nil {e : Expr} : Closes [] e e
  | operand {left e d : Expr} {op : Operator} {sign : Token} {fs : List Frame}
    (h : Closes fs (.binary op left e sign.line) d) : Closes (.operand left op sign :: fs) e d
  | args {word : Token} {done : Array Expr} {e d : Expr} {fs : List Frame}
    (h : Closes fs (.call word.text (done.push e).toList word.line) d) :
    Closes (.args word 0 done :: fs) e d

theorem Closes.settle_append {fs : List Frame} {e d : Expr} (h : Closes fs e d) (st : List Frame) :
    settle (fs ++ st) e = settle st d := by
  induction h with
  | nil => rfl
  | operand h ih => exact ih
  | args h ih => exact ih

theorem Closes.append {fs gs : List Frame} {e d c : Expr} (h : Closes fs e d)
    (h' : Closes gs d c) : Closes (fs ++ gs) e c := by
  induction h with
  | nil => exact h'
  | operand h ih => exact .operand (ih h')
  | args h ih => exact .args (ih h')

section Seams

variable {r : Reader} {t : Token} {ts : List Token}

theorem feedAll_item {x : Expr} {st : List Frame} (hp : r.place = .after x)
    (hs : settle r.stack x = .item st) (hk : t.kind ≠ .operator) :
    r.feedAll (t :: ts) = feedAll { r with stack := st, place := .start } (t :: ts) := by
  simp only [feedAll, feed, hp, hk, if_false, leave, hs]

theorem feedAll_top {x e : Expr} (hp : r.place = .after x) (hs : settle r.stack x = .top e)
    (hk : t.kind ≠ .operator) : r.feedAll (t :: ts) = (r.pushTop e).feedAll (t :: ts) := by
  simp only [feedAll, feed, hp, hk, if_false, leave, hs]
  rfl

theorem feedAll_body {opener : Token} {name : String} {params : Array String}
    (hp : r.place = .params opener name params) (hk : t.kind ≠ .reference) :
    r.feedAll (t :: ts) = (r.enterBody opener name params).feedAll (t :: ts) := by
  simp only [feedAll, feed, hp, hk, if_false]
  rfl

theorem feedAll_params (ps : List String) {opener : Token} {name : String} {qs : Array String}
    (hp : r.place = .params opener name qs) (hu : ps.all Expr.isUnmarked = true) (line : Nat) :
    r.feedAll (ps.map (fun p => ⟨.reference, ":" ++ p, line⟩) ++ ts) =
      feedAll { r with place := .params opener name (qs ++ ps.toArray) } ts := by
  induction ps generalizing r qs with
  | nil =>
    simp only [List.map_nil, List.nil_append, Array.append_empty]
    rw [← hp]
  | cons p ps ih =>
    simp only [List.all_cons, Bool.and_eq_true] at hu
    have hd : dropMarks ':' (":" ++ p) = p := by
      have h := hu.1
      simp only [Expr.isUnmarked, beq_iff_eq] at h
      have hm := dropMarks_mark ':' p
      rwa [h] at hm
    simp only [List.map_cons, List.cons_append, feedAll, feed, hp, if_true, hd]
    rw [ih rfl hu.2]
    simp

end Seams

/-- A word at the start of the innermost construct is not taken for a variadic call. -/
def Plain (r : Reader) (o : Opening) : Prop :=
  ∀ opener st, r.stack = .group opener :: st → r.words.spreads o = false

theorem Plain.not_spreads {r : Reader} {name : String} (h : r.Plain (.word name)) {s : Signature}
    (hs : r.words.get? name = some s) : ¬ r.Spreads s := by
  rintro ⟨opener, st, hst, hv⟩
  have hn := h opener st hst
  simp [Vocabulary.spreads, hs, hv] at hn

/-- The reader takes the tokens for `e` up to the last operand, and has the words `v` then. The
constructs that have opened since end with that operand, or with what an operator makes of it. -/
def Rereads (last : Bool) (r : Reader) (v : Vocabulary) (ts : List Token) (e : Expr) : Prop :=
  ∃ fs x, r.feedAll ts = .ok { r with words := v, stack := fs ++ r.stack, place := .after x } ∧
    ∀ k, (last = true → k = id) → Closes fs (k x) (chainThen k e)

theorem Rereads.closes {last : Bool} {r : Reader} {v : Vocabulary} {ts : List Token} {e : Expr}
    (h : Rereads last r v ts e) :
    ∃ fs x, r.feedAll ts = .ok { r with words := v, stack := fs ++ r.stack, place := .after x } ∧
      Closes fs x e.chain := by
  obtain ⟨fs, x, hx, hk⟩ := h
  exact ⟨fs, x, hx, hk id fun _ => rfl⟩

def Gathers (f : Array Expr → Frame) : Prop :=
  (∀ items st e, settle (f items :: st) e = .item (f (items.push e) :: st)) ∧
    ∀ items opener, f items ≠ .group opener

theorem gathers_list (opener : Token) : Gathers (.list opener) := ⟨fun _ _ _ => rfl, by simp⟩

theorem gathers_body (opener : Token) (name : String) (params : List String) :
    Gathers (.body opener name params) := ⟨fun _ _ _ => rfl, by simp⟩

theorem gathers_spread (opener word : Token) : Gathers (.spread opener word) :=
  ⟨fun _ _ _ => rfl, by simp⟩

theorem rereads_ended {r : Reader} {v : Vocabulary} {ts : List Token} {e x : Expr}
    (hc : ∀ k, chainThen k e = k x)
    (h : r.feedAll ts = .ok { r with words := v, place := .after x }) (last : Bool) :
    Rereads last r v ts e :=
  ⟨[], x, h, fun k _ => hc k ▸ .nil⟩

theorem feedAll_token {r r' : Reader} {t : Token} (hp : r.place = .start) (h : Starts r t r') :
    r.feedAll [t] = .ok r' :=
  feedAll_cons_eq_ok_iff.2 ⟨r', .start hp h, rfl⟩

theorem Rereads.binary {last : Bool} {r : Reader} {v v' : Vocabulary} {ts us : List Token}
    {op : Operator} {left right : Expr} {line : Nat} (hl : Rereads false r v ts left)
    (hr : ∀ r' : Reader, r'.words = v → r'.place = .start → (∀ o, r'.Plain o) →
      Rereads last r' v' us right) :
    Rereads last r v' (ts ++ ⟨.operator, op.symbol, line⟩ :: us) (.binary op left right line) := by
  obtain ⟨fs, x, hx, hk⟩ := hl
  let sign : Token := ⟨.operator, op.symbol, line⟩
  let r' : Reader := { r with words := v, stack := .operand x op sign :: (fs ++ r.stack) }
  obtain ⟨gs, y, hy, hk'⟩ := hr { r' with place := .start } rfl rfl
    (fun o opener st h => by cases h)
  refine ⟨gs ++ .operand x op sign :: fs, y, ?_, fun k hkl => ?_⟩
  · rw [feedAll_append, hx]
    refine feedAll_cons_eq_ok_iff.2 ⟨_, .operator rfl rfl (Operator.ofSymbol?_symbol op), ?_⟩
    refine hy.trans ?_
    simp [r']
  · have hl := hk (fun x => .binary op x (chainThen k right) line) (by simp)
    exact (hk' k hkl).append (.operand hl)

mutual
theorem rereads_tokens (kw : Keywords) : ∀ {last : Bool} (e : Expr) {r : Reader} {v : Vocabulary},
    Bare last e → e.legible r.words false = some v → r.place = .start → r.Plain e.opening →
    Rereads last r v (e.tokens kw) e
  | _, .nil, _, _, _, hl, _, _ => by cases hl
  | last, .number n line, r, _, _, hl, hp, _ => by
    cases hl
    refine rereads_ended (fun _ => rfl) ?_ last
    exact feedAll_token hp (.number rfl (Text.readInt64?_intText n))
  | last, .word text line, r, _, _, hl, hp, _ => by
    cases hl
    have hd : dropMark '"' ("\"" ++ text) = text := dropMark_mark '"' text
    refine rereads_ended (fun _ => rfl) ?_ last
    rw [Expr.tokens, feedAll_token hp (.quoted rfl), ended, hd]
  | last, .var name line, r, _, _, hl, hp, _ => by
    cases hl
    have hd : dropMark ':' (":" ++ name) = name := dropMark_mark ':' name
    refine rereads_ended (fun _ => rfl) ?_ last
    rw [Expr.tokens, feedAll_token hp (.reference rfl), ended, hd]
  | last, .list items line, r, v, hb, hl, hp, _ => by
    refine rereads_ended (fun _ => rfl) ?_ last
    refine feedAll_cons_eq_ok_iff.2 ⟨_, .start hp (.bracket rfl), ?_⟩
    refine Eq.trans (feedAll_items kw items (gathers_list _) hb hl rfl rfl (by simp)) ?_
    refine Eq.trans (feedAll_token rfl (.closeList rfl rfl)) ?_
    simp [ended, opened]
  | last, .define name params body line, r, v, hb, hl, hp, _ => by
    simp only [Expr.legible, Option.ite_none_right_eq_some, Bool.and_eq_true] at hl
    obtain ⟨⟨hu, hh⟩, hl⟩ := hl
    refine rereads_ended (fun _ => rfl) ?_ last
    refine feedAll_cons_eq_ok_iff.2 ⟨_, .start hp (.header rfl), ?_⟩
    refine feedAll_cons_eq_ok_iff.2 ⟨_, .name rfl rfl, ?_⟩
    refine Eq.trans (feedAll_params params rfl hu line) ?_
    obtain ⟨t, ts, ht, -, hk⟩ :=
      Expr.tokensList_append_cons kw (c := ⟨.closing, kw.closingWord, line⟩) [] hl (by simp)
    rw [ht]
    refine Eq.trans (feedAll_body rfl fun h => absurd (hk h hh) (by simp)) ?_
    rw [← ht]
    have hl : legibleList (r.words.define name (#[] ++ params.toArray).toList) body = some v := by
      simpa using hl
    refine Eq.trans (feedAll_items kw body (gathers_body _ _ _) hb hl rfl rfl (by simp)) ?_
    refine Eq.trans (feedAll_token rfl (.closeBody rfl rfl)) ?_
    simp [ended, opened, enterBody]
  | last, .call name [] line, r, v, hb, hl, hp, hg => by
    simp only [Expr.legible, Option.ite_none_right_eq_some] at hl
    obtain ⟨s, hs, ha⟩ := Vocabulary.admits_false_iff.1 hl.1
    cases hl.2
    refine rereads_ended (fun _ => rfl) ?_ last
    exact feedAll_token hp (.constant rfl hs (hg.not_spreads hs) ha)
  | last, .call name (a :: as) line, r, v, hb, hl, hp, hg => by
    simp only [Expr.legible, Option.ite_none_right_eq_some] at hl
    obtain ⟨s, hs, ha⟩ := Vocabulary.admits_false_iff.1 hl.1
    obtain ⟨fs, x, hx, hc⟩ := rereads_args kw (a :: as)
      (r := r.opened (.args ⟨.word, name, line⟩ as.length #[])) rfl hb.2 hl.2 rfl rfl
    refine ⟨fs, x, ?_, fun k hk => ?_⟩
    · exact feedAll_cons_eq_ok_iff.2 ⟨_, .start hp (.call rfl hs (hg.not_spreads hs) ha), hx⟩
    · have hlast : last = true := by simpa using hb.1
      rw [hk hlast]
      exact hc
  | last, .binary op left right line, r, v, hb, hl, hp, hg => by
    simp only [Expr.legible, Option.bind_eq_some_iff] at hl
    obtain ⟨v₁, hl, hr⟩ := hl
    refine (rereads_tokens kw left hb.2.2.1 hl hp hg).binary fun r' hw hp' hg' => ?_
    exact rereads_tokens kw right hb.2.2.2 (hw ▸ hr) hp' (hg' _)
  | last, .group inner line, r, v, hb, hl, hp, hg => by
    simp only [Expr.legible, Option.ite_none_left_eq_some, Bool.and_eq_true, not_and,
      Bool.not_eq_true] at hl
    obtain ⟨ho, hl⟩ := hl
    refine rereads_ended (fun _ => rfl) ?_ last
    refine feedAll_cons_eq_ok_iff.2 ⟨_, .start hp (.paren rfl), ?_⟩
    cases hsp : r.words.spreads inner.opening with
    | false =>
      rw [Expr.legible_of_not_spreads hsp] at hl
      have hg : (r.opened (.group ⟨.openParen, "(", line⟩)).Plain inner.opening := fun _ _ _ => hsp
      obtain ⟨fs, x, hx, hc⟩ := (rereads_tokens kw inner (r := r.opened _) hb hl rfl hg).closes
      rw [feedAll_append, hx]
      refine feedAll_cons_eq_ok_iff.2 ⟨_, .group rfl rfl (hc.settle_append _), ?_⟩
      rfl
    | true =>
      cases inner with
      | call name args line' =>
        simp only [Expr.legible, Option.ite_none_right_eq_some] at hl
        simp only [Expr.opening, Vocabulary.spreads, Option.any_eq_true] at hsp
        obtain ⟨s, hs, hv⟩ := hsp
        refine feedAll_cons_eq_ok_iff.2 ⟨_, .start rfl (.spread rfl hs rfl hv), ?_⟩
        refine Eq.trans (feedAll_items kw args (gathers_spread _ _) hb.2 hl.2 rfl rfl (by simp)) ?_
        refine Eq.trans (feedAll_token rfl (.closeSpread rfl rfl)) ?_
        simp [ended, opened]
        rfl
      | binary => exact absurd (ho rfl) (by simp [hsp])
      | _ => simp [Expr.opening, Vocabulary.spreads] at hsp
theorem rereads_args (kw : Keywords) : ∀ (as : List Expr) {r : Reader} {v : Vocabulary}
    {word : Token} {n : Nat} {done : Array Expr} {st : List Frame}, as.length = n + 1 →
    BareList as → legibleList r.words as = some v → r.place = .start →
    r.stack = .args word n done :: st →
    ∃ fs x, r.feedAll (tokensList kw as) =
        .ok { r with words := v, stack := fs ++ st, place := .after x } ∧
      Closes fs x (.call word.text (done.toList ++ chainList as) word.line)
  | [], _, _, _, _, _, _, hn, _, _, _, _ => by cases hn
  | [a], r, v, word, n, done, st, hn, hb, hl, hp, hst => by
    obtain rfl : n = 0 := by simpa using hn.symm
    simp only [legibleList, Option.bind_fun_some] at hl
    have hg : r.Plain a.opening := by
      intro opener st' h
      rw [hst] at h
      cases h
    obtain ⟨fs, x, hx, hc⟩ := (rereads_tokens kw a hb.1 hl hp hg).closes
    refine ⟨fs ++ [.args word 0 done], x, ?_, hc.append (.args ?_)⟩
    · simpa [tokensList, hst] using hx
    · simpa [Expr.chainList_eq_map] using Closes.nil
  | a :: b :: as, r, v, word, n, done, st, hn, hb, hl, hp, hst => by
    obtain ⟨n, rfl⟩ : ∃ m, n = m + 1 := ⟨as.length, by simpa using hn.symm⟩
    rw [legibleList, Option.bind_eq_some_iff] at hl
    obtain ⟨v₁, ha, hl⟩ := hl
    have hg : r.Plain a.opening := by
      intro opener st' h
      rw [hst] at h
      cases h
    obtain ⟨fs, x, hx, hc⟩ := (rereads_tokens kw a hb.1 ha hp hg).closes
    have hs : settle (fs ++ r.stack) x = .item (.args word n (done.push a.chain) :: st) := by
      rw [hc.settle_append, hst]
      rfl
    obtain ⟨gs, y, hy, hd⟩ := rereads_args kw (b :: as)
      (r := { r with
        words := v₁, stack := .args word n (done.push a.chain) :: st, place := .start })
      (by simpa using hn) hb.2 hl rfl rfl
    refine ⟨gs, y, ?_, ?_⟩
    · obtain ⟨t, ts, ht, hk, -⟩ := Expr.tokensList_eq_cons kw hl
      rw [tokensList, feedAll_append, hx, ht]
      refine Eq.trans (feedAll_item rfl hs hk) ?_
      rw [← ht]
      exact hy
    · simpa [Expr.chainList_eq_map] using hd
theorem feedAll_items (kw : Keywords) : ∀ (es : List Expr) {f : Array Expr → Frame}
    {items : Array Expr} {r : Reader} {v : Vocabulary} {st : List Frame} {c : Token}
    {rest : List Token}, Gathers f → BareList es → legibleList r.words es = some v →
    r.place = .start → r.stack = f items :: st → c.kind ≠ .operator →
    r.feedAll (tokensList kw es ++ c :: rest) =
      feedAll { r with words := v, stack := f (items ++ (chainList es).toArray) :: st } (c :: rest)
  | [], _, _, r, _, _, _, _, _, _, hl, _, hst, _ => by
    cases hl
    simp [tokensList, chainList, ← hst]
  | e :: es, f, items, r, v, st, c, rest, hf, hb, hl, hp, hst, hc => by
    simp only [legibleList, Option.bind_eq_some_iff] at hl
    obtain ⟨v₁, he, hes⟩ := hl
    have hg : r.Plain e.opening := by
      intro opener st' h
      rw [hst, List.cons.injEq] at h
      exact absurd h.1 (hf.2 items opener)
    obtain ⟨fs, x, hx, hk⟩ := (rereads_tokens kw e hb.1 he hp hg).closes
    have hs : settle (fs ++ r.stack) x = .item (f (items.push e.chain) :: st) := by
      rw [hk.settle_append, hst]
      exact hf.1 items st e.chain
    obtain ⟨t, ts, ht, hto, -⟩ := Expr.tokensList_append_cons kw rest hes hc
    rw [tokensList, List.append_assoc, feedAll_append, hx, ht]
    refine Eq.trans (feedAll_item rfl hs hto) ?_
    rw [← ht]
    refine Eq.trans (feedAll_items kw es hf hb.2 hes rfl rfl hc) ?_
    simp [Expr.chainList_eq_map, hp]
end

theorem feedAll_program (kw : Keywords) {p : Program} (hb : ∀ e ∈ p, Bare true e) {r : Reader}
    {v : Vocabulary} (hl : legibleList r.words p = some v) (hp : r.place = .start)
    (hst : r.stack = []) :
    ∃ r₁ r₂, r.feedAll (tokensList kw p) = .ok r₁ ∧ Finishes r₁ r₂ ∧
      r₂.program.toList = r.program.toList ++ p ∧ r₂.words = v := by
  induction p generalizing r with
  | nil =>
    cases hl
    exact ⟨r, r, rfl, .start hp hst, by simp, rfl⟩
  | cons e es ih =>
    have he : e.chain.regroup = e := Expr.regroup_chain (hb e (by simp))
    obtain ⟨v₁, hle, hles⟩ := Option.bind_eq_some_iff.1 hl
    have hg : r.Plain e.opening := by
      intro opener st h
      rw [hst] at h
      cases h
    obtain ⟨fs, x, hx, hc⟩ := (rereads_tokens kw e (hb e (by simp)) hle hp hg).closes
    have hs : settle (fs ++ r.stack) x = .top e.chain := by
      rw [hc.settle_append, hst]
      rfl
    obtain ⟨r₁, r₂, hf, hr, hpr, hw⟩ := ih (fun e he => hb e (by simp [he])) (r := Reader.pushTop
      { r with words := v₁, stack := fs ++ r.stack, place := .after x } e.chain) hles rfl rfl
    cases es with
    | nil =>
      cases hles
      have ht : tokensList kw [e] = e.tokens kw := by simp [tokensList]
      exact ⟨_, _, ht ▸ hx, .top rfl hs, by simp [pushTop, he], rfl⟩
    | cons d ds =>
      obtain ⟨t, ts, ht, hk, -⟩ := Expr.tokensList_eq_cons kw hles
      refine ⟨r₁, r₂, ?_, hr, ?_, hw⟩
      · rw [tokensList, feedAll_append, hx, ht]
        refine Eq.trans (feedAll_top rfl hs hk) ?_
        rw [← ht]
        exact hf
      · simpa [pushTop, he] using hpr

end Reader

namespace Expr

@[simp] theorem opening_mapLines (f : Nat → Nat) : ∀ e : Expr, (e.mapLines f).opening = e.opening
  | .binary _ left _ _ => opening_mapLines f left
  | .nil | .number _ _ | .word _ _ | .var _ _ | .list _ _ | .define _ _ _ _ | .call _ _ _
  | .group _ _ => rfl

@[simp] theorem isOperation_mapLines (f : Nat → Nat) (e : Expr) :
    (e.mapLines f).isOperation = e.isOperation := by
  cases e <;> rfl

mutual
theorem legible_mapLines (f : Nat → Nat) (v : Vocabulary) (grouped : Bool) : ∀ e : Expr,
    (e.mapLines f).legible v grouped = e.legible v grouped
  | .nil | .number _ _ | .word _ _ | .var _ _ => rfl
  | .list items _ => legibleList_mapLines f v items
  | .define name params body _ => by
    have hc : closesHeader (mapLinesList f body) = closesHeader body := by
      cases body <;> simp [mapLinesList, closesHeader]
    simp only [mapLines, legible, hc, legibleList_mapLines f _ body]
  | .call name args _ => by
    have hn : (mapLinesList f args).length = args.length := by simp [mapLinesList_eq_map]
    simp only [mapLines, legible, hn, legibleList_mapLines f v args]
  | .binary _ left right _ => by
    simp only [mapLines, legible, legible_mapLines f v false left]
    exact congrArg _ (funext fun v => legible_mapLines f v false right)
  | .group inner _ => by
    simp only [mapLines, legible, isOperation_mapLines, opening_mapLines,
      legible_mapLines f v true inner]
theorem legibleList_mapLines (f : Nat → Nat) (v : Vocabulary) : ∀ es : List Expr,
    legibleList v (mapLinesList f es) = legibleList v es
  | [] => rfl
  | e :: es => by
    simp only [mapLinesList, legibleList, legible_mapLines f v false e]
    exact congrArg _ (funext fun v => legibleList_mapLines f v es)
end

theorem legibleList_of_alikeList {es ds : List Expr} (h : alikeList es ds = true)
    (v : Vocabulary) : legibleList v es = legibleList v ds := by
  have h := (alikeList_iff_mapLinesList es ds).1 h
  rw [← legibleList_mapLines (fun _ => 0) v es, h, legibleList_mapLines]

end Expr

namespace Program

open LogoLang.Expr (Bare legibleList lexemesList tokensList)

variable {p : Program} {v v' : Vocabulary}

theorem read_tokens (kw : Keywords) (hb : ∀ e ∈ p, Bare true e) (hl : legibleList v p = some v') :
    Program.read v (tokensList kw p) = .ok ⟨p, v'⟩ := by
  obtain ⟨r₁, r₂, hf, hr, hp, rfl⟩ :=
    Reader.feedAll_program kw hb (r := { words := v }) hl rfl rfl
  refine Reader.read_eq_ok_iff.2 ⟨r₁, r₂, hf, hr, ?_⟩
  rw [hp]
  rfl

/-- Tokens that say what a legible program says are read to a program alike. -/
theorem read_of_lexemes (kw : Keywords) (hb : ∀ e ∈ p, Bare true e)
    (hl : legibleList v p = some v') {ts : List Token} (ht : ts.map lexeme = lexemesList kw p) :
    ∃ p', Program.read v ts = .ok p' ∧ Expr.alikeList p p'.program = true ∧ p'.words = v' := by
  have h := read_tokens kw hb hl
  exact Reader.read_of_echoes kw h (ht.trans (Reader.read_lexemes kw h))

/-- The text of a program is read to the program, up to lines, just if it is legible. -/
theorem read_text_iff_legible (kw : Keywords) (hb : ∀ e ∈ p, Bare true e)
    (hs : ∀ l ∈ lexemesList kw p, l.Stable kw) :
    (∃ p', Program.read v (tokenize kw (p.text kw)) = .ok p' ∧
      Expr.alikeList p p'.program = true) ↔ (legibleList v p).isSome = true := by
  constructor
  · rintro ⟨p', hr, ha⟩
    rw [Expr.legibleList_of_alikeList ha, legible_read hr]
    rfl
  · intro hl
    obtain ⟨v', hl⟩ := Option.isSome_iff_exists.1 hl
    obtain ⟨p', hr, ha, -⟩ := read_of_lexemes kw hb hl (Expr.spells_programText kw hb hs).lexemes_eq
    exact ⟨p', hr, ha⟩

end Program

end LogoLang
