import LogoLang.Program.Reader

/-!
What the reader does with a token that it accepts, said once. Main statement: feeding a token
succeeds just in the ways listed here.
-/

set_option autoImplicit false

namespace LogoLang.Reader

def Spreads (r : Reader) (s : Signature) : Prop :=
  ∃ opener st, r.stack = .group opener :: st ∧ s.isVariadic = true

/-- The ways to accept a token where an expression can start. -/
inductive Starts (r : Reader) (t : Token) : Reader → Prop where
  | paren (hk : t.kind = .openParen) : Starts r t (r.opened (.group t))
  | bracket (hk : t.kind = .openBracket) : Starts r t (r.opened (.list t #[]))
  | header (hk : t.kind = .opening) : Starts r t { r with place := .name t }
  | number {n : Int64} (hk : t.kind = .number) (hn : Text.readInt64? t.text = some n) :
    Starts r t (r.ended r.stack (.number n t.line))
  | reference (hk : t.kind = .reference) :
    Starts r t (r.ended r.stack (.var (dropMark ':' t.text) t.line))
  | quoted (hk : t.kind = .quoted) :
    Starts r t (r.ended r.stack (.word (dropMark '"' t.text) t.line))
  | spread {s : Signature} {opener : Token} {st : List Frame} (hk : t.kind = .word)
    (hs : r.words.get? t.text = some s) (hst : r.stack = .group opener :: st)
    (hv : s.isVariadic = true) :
    Starts r t { r with stack := .spread opener t #[] :: st, place := .start }
  | constant {s : Signature} (hk : t.kind = .word) (hs : r.words.get? t.text = some s)
    (hv : ¬ r.Spreads s) (ha : s.arity = 0) :
    Starts r t (r.ended r.stack (.call t.text [] t.line))
  | call {s : Signature} {n : Nat} (hk : t.kind = .word) (hs : r.words.get? t.text = some s)
    (hv : ¬ r.Spreads s) (ha : s.arity = n + 1) :
    Starts r t (r.opened (.args t n #[]))
  | closeList {opener : Token} {items : Array Expr} {st : List Frame}
    (hk : t.kind = .closeBracket) (hst : r.stack = .list opener items :: st) :
    Starts r t (r.ended st (.list items.toList opener.line))
  | closeBody {opener : Token} {name : String} {params : List String} {items : Array Expr}
    {st : List Frame} (hk : t.kind = .closing)
    (hst : r.stack = .body opener name params items :: st) :
    Starts r t (r.ended st (.define name params items.toList opener.line))
  | closeSpread {opener word : Token} {args : Array Expr} {st : List Frame}
    (hk : t.kind = .closeParen) (hst : r.stack = .spread opener word args :: st) :
    Starts r t (r.ended st (.group (.call word.text args.toList word.line) opener.line))

theorem close_eq_ok {r r' : Reader} {t : Token} (h : r.close t = .ok r') : Starts r t r' := by
  unfold close at h
  split at h
  · rename_i hkind hst
    cases h
    exact .closeList hkind hst
  · rename_i hkind hst
    cases h
    exact .closeBody hkind hst
  · rename_i hkind hst
    cases h
    exact .closeSpread hkind hst
  · cases h
  · cases h

theorem call_eq_ok {r r' : Reader} {t : Token} (h : r.call t = .ok r') (hk : t.kind = .word) :
    Starts r t r' := by
  unfold call at h
  split at h
  · cases h
  · rename_i s hs
    split at h
    · rename_i hst hv
      cases h
      exact .spread hk hs hst hv
    · rename_i hn
      have hv : ¬ r.Spreads s := by
        rintro ⟨opener, st, hst, hv⟩
        exact hn opener st hst hv
      split at h
      · rename_i ha
        cases h
        exact .constant hk hs hv ha
      · rename_i n ha
        cases h
        exact .call hk hs hv ha

theorem start_eq_ok {r r' : Reader} {t : Token} (h : r.start t = .ok r') : Starts r t r' := by
  unfold start at h
  split at h
  · rename_i hk
    cases h
    exact .paren hk
  · rename_i hk
    cases h
    exact .bracket hk
  · rename_i hk
    cases h
    exact .header hk
  · rename_i hk
    split at h
    · rename_i n hn
      cases h
      exact .number hk hn
    · cases h
  · rename_i hk
    cases h
    exact .reference hk
  · rename_i hk
    cases h
    exact .quoted hk
  · rename_i hk
    exact call_eq_ok h hk
  · cases h
  · exact close_eq_ok h
  · exact close_eq_ok h
  · exact close_eq_ok h

theorem start_of_starts {r r' : Reader} {t : Token} (h : Starts r t r') : r.start t = .ok r' := by
  cases h with
  | paren hk => simp [start, hk]
  | bracket hk => simp [start, hk]
  | header hk => simp [start, hk]
  | number hk hn => simp [start, hk, hn]
  | reference hk => simp [start, hk]
  | quoted hk => simp [start, hk]
  | spread hk hs hst hv => simp [start, hk, call, hs, hst, hv]
  | constant hk hs hv ha =>
    simp only [start, hk, call, hs]
    split
    · rename_i hst hv'
      exact absurd ⟨_, _, hst, hv'⟩ hv
    · simp [ha]
  | call hk hs hv ha =>
    simp only [start, hk, call, hs]
    split
    · rename_i hst hv'
      exact absurd ⟨_, _, hst, hv'⟩ hv
    · simp [ha]
  | closeList hk hst => simp [start, hk, close, hst]
  | closeBody hk hst => simp [start, hk, close, hst]
  | closeSpread hk hst => simp [start, hk, close, hst]

inductive Feeds (r : Reader) (t : Token) : Reader → Prop where
  | start {r' : Reader} (hp : r.place = .start) (h : Starts r t r') : Feeds r t r'
  | name {opener : Token} (hp : r.place = .name opener) (hk : t.kind = .word) :
    Feeds r t { r with place := .params opener t.text #[] }
  | param {opener : Token} {name : String} {params : Array String}
    (hp : r.place = .params opener name params) (hk : t.kind = .reference) :
    Feeds r t { r with place := .params opener name (params.push (dropMarks ':' t.text)) }
  | body {opener : Token} {name : String} {params : Array String} {r' : Reader}
    (hp : r.place = .params opener name params) (hk : t.kind ≠ .reference)
    (h : Starts (r.enterBody opener name params) t r') : Feeds r t r'
  | operator {e : Expr} {op : Operator} (hp : r.place = .after e) (hk : t.kind = .operator)
    (ho : Operator.ofSymbol? t.text = some op) : Feeds r t (r.opened (.operand e op t))
  | item {e : Expr} {st : List Frame} {r' : Reader} (hp : r.place = .after e)
    (hk : t.kind ≠ .operator) (hs : settle r.stack e = .item st)
    (h : Starts { r with stack := st, place := .start } t r') : Feeds r t r'
  | top {e e' : Expr} {r' : Reader} (hp : r.place = .after e) (hk : t.kind ≠ .operator)
    (hs : settle r.stack e = .top e') (h : Starts (r.pushTop e') t r') : Feeds r t r'
  | group {e inner : Expr} {opener : Token} {st : List Frame} (hp : r.place = .after e)
    (hk : t.kind = .closeParen) (hs : settle r.stack e = .group opener inner st) :
    Feeds r t (r.ended st (.group inner opener.line))

theorem feed_eq_ok {r r' : Reader} {t : Token} (h : r.feed t = .ok r') : Feeds r t r' := by
  unfold feed at h
  split at h
  · rename_i hp
    exact .start hp (start_eq_ok h)
  · rename_i hp
    split at h
    · rename_i hk
      cases h
      exact .name hp hk
    · cases h
  · rename_i hp
    split at h
    · rename_i hk
      cases h
      exact .param hp hk
    · rename_i hk
      exact .body hp hk (start_eq_ok h)
  · rename_i e hp
    split at h
    · rename_i hk
      unfold operate at h
      split at h
      · rename_i op ho
        cases h
        exact .operator hp hk ho
      · cases h
    · rename_i hk
      unfold leave at h
      split at h
      · rename_i st hs
        exact .item hp hk hs (start_eq_ok h)
      · rename_i e' hs
        exact .top hp hk hs (start_eq_ok h)
      · rename_i opener inner st hs
        split at h
        · rename_i hc
          cases h
          exact .group hp hc hs
        · cases h

theorem feed_of_feeds {r r' : Reader} {t : Token} (h : Feeds r t r') : r.feed t = .ok r' := by
  cases h with
  | start hp h => simp [feed, hp, start_of_starts h]
  | name hp hk => simp [feed, hp, hk]
  | param hp hk => simp [feed, hp, hk]
  | body hp hk h => simp [feed, hp, hk, start_of_starts h]
  | operator hp hk ho => simp [feed, hp, hk, operate, ho]
  | item hp hk hs h => simp [feed, hp, hk, leave, hs, start_of_starts h]
  | top hp hk hs h => simp [feed, hp, hk, leave, hs, start_of_starts h]
  | group hp hk hs => simp [feed, hp, hk, leave, hs]

theorem feed_eq_ok_iff {r r' : Reader} {t : Token} : r.feed t = .ok r' ↔ Feeds r t r' :=
  ⟨feed_eq_ok, feed_of_feeds⟩

theorem feedAll_cons_eq_ok_iff {r r' : Reader} {t : Token} {ts : List Token} :
    r.feedAll (t :: ts) = .ok r' ↔ ∃ r₁, Feeds r t r₁ ∧ r₁.feedAll ts = .ok r' := by
  simp only [feedAll, ← feed_eq_ok_iff]
  cases r.feed t with
  | ok r₁ => simp
  | error f => simp

inductive Finishes (r : Reader) : Reader → Prop where
  | start (hp : r.place = .start) (hst : r.stack = []) : Finishes r r
  | top {e e' : Expr} (hp : r.place = .after e) (hs : settle r.stack e = .top e') :
    Finishes r (r.pushTop e')

theorem settle_item_ne_nil {stack st : List Frame} {e : Expr} (h : settle stack e = .item st) :
    st ≠ [] := by
  fun_induction settle stack e with
  | case1 => cases h
  | case2 => cases h; simp
  | case3 => cases h; simp
  | case4 => cases h
  | case5 => cases h; simp
  | case6 e word done st ih => exact ih h
  | case7 => cases h; simp
  | case8 e left op sign st ih => exact ih h

theorem finishAt_eq_ok {r r' : Reader} (h : r.finishAt = .ok r') : r.stack = [] ∧ r' = r := by
  unfold finishAt at h
  split at h
  · rename_i hst
    cases h
    exact ⟨hst, rfl⟩
  all_goals cases h

theorem finish_eq_ok {r r' : Reader} (h : r.finish = .ok r') : Finishes r r' := by
  unfold finish at h
  split at h
  · rename_i hp
    obtain ⟨hst, rfl⟩ := finishAt_eq_ok h
    exact .start hp hst
  · cases h
  · cases h
  · rename_i e hp
    split at h
    · rename_i st hs
      exact absurd (finishAt_eq_ok h).1 (settle_item_ne_nil hs)
    · rename_i e' hs
      cases h
      exact .top hp hs
    · cases h

theorem finish_of_finishes {r r' : Reader} (h : Finishes r r') : r.finish = .ok r' := by
  cases h with
  | start hp hst => simp [finish, hp, finishAt, hst]
  | top hp hs => simp [finish, hp, hs]

/-- A list of tokens is a program just if it can be fed to its end and ends well. -/
theorem read_eq_ok_iff {words : Vocabulary} {ts : List Token} {p : Program.Reading} :
    Program.read words ts = .ok p ↔ ∃ r r', feedAll { words := words } ts = .ok r ∧
      Finishes r r' ∧ p = ⟨r'.program.toList, r'.words⟩ := by
  unfold Program.read
  cases hf : feedAll { words := words } ts with
  | error f => simp
  | ok r =>
    cases he : r.finish with
    | error f =>
      simp only [he, reduceCtorEq, Except.ok.injEq, false_iff, not_exists, not_and]
      rintro r₁ r' rfl h
      rw [finish_of_finishes h] at he
      cases he
    | ok r₁ =>
      simp only [he, Except.ok.injEq]
      constructor
      · rintro rfl
        exact ⟨r, r₁, rfl, finish_eq_ok he, rfl⟩
      · rintro ⟨_, r', rfl, h, rfl⟩
        rw [finish_of_finishes h] at he
        cases he
        rfl

end LogoLang.Reader
