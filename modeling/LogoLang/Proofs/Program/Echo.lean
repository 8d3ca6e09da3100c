import LogoLang.Proofs.Expr.Lexemes
import LogoLang.Proofs.Program.Readback
import LogoLang.Proofs.Text.Decimal
import Mathlib.Data.List.DropRight

/-!
The parts of a program that has been read, as they are spelled. Main statements: every token that is
accepted adds one lexeme at the end, its echo, which says what the reader took the token for, and
the echoes of a text that has been split are split off again as they are.
-/

set_option autoImplicit false

namespace LogoLang.Reader

open Token
open LogoLang.Expr (lexemesList)

/-- What a token is taken for, if it is accepted. A parameter loses all its colons, a reference
elsewhere only one. -/
def echo (kw : Keywords) (place : Place) (t : Token) : Lexeme :=
  match t.kind with
  | .openBracket => (.openBracket, "[")
  | .closeBracket => (.closeBracket, "]")
  | .openParen => (.openParen, "(")
  | .closeParen => (.closeParen, ")")
  | .opening => (.opening, kw.openingWord)
  | .closing => (.closing, kw.closingWord)
  | .number => (.number, ((Text.readInt64? t.text).map fun n => Text.intText n.toInt).getD t.text)
  | .quoted => (.quoted, "\"" ++ dropMark '"' t.text)
  | .reference =>
    match place with
    | .params _ _ _ => (.reference, ":" ++ dropMarks ':' t.text)
    | _ => (.reference, ":" ++ dropMark ':' t.text)
  | .operator => (.operator, t.text)
  | .word => (.word, t.text)

theorem echo_fst (kw : Keywords) (place : Place) (t : Token) : (echo kw place t).1 = t.kind := by
  unfold echo
  split
  all_goals first
    | exact Eq.symm ‹_›
    | split <;> exact Eq.symm ‹_›

theorem echo_of_ne_reference (kw : Keywords) (p q : Place) {t : Token} (h : t.kind ≠ .reference) :
    echo kw p t = echo kw q t := by
  unfold echo
  split <;> first | rfl | contradiction

theorem echo_after (kw : Keywords) (e : Expr) (t : Token) :
    echo kw (.after e) t = echo kw .start t := by
  unfold echo
  split <;> rfl

theorem symbol_of_ofSymbol? {s : String} {op : Operator} (h : Operator.ofSymbol? s = some op) :
    op.symbol = s := by
  simpa using List.find?_some h

/-- An echo is how the reader would write what it took the token for. -/
theorem lexeme?_taken (kw : Keywords) {place : Place} {t : Token} (h : taken place t ≠ .hole) :
    (taken place t).lexeme? kw = some (echo kw place t) := by
  revert h
  cases hk : t.kind with
  | number => cases hn : Text.readInt64? t.text <;> simp [taken, echo, hk, hn, Part.lexeme?]
  | reference | word => cases place <;> simp [taken, echo, hk, Part.lexeme?]
  | operator =>
    cases ho : Operator.ofSymbol? t.text with
    | none => simp [taken, hk, ho]
    | some op => simp [taken, echo, hk, ho, Part.lexeme?, symbol_of_ofSymbol? ho]
  | _ => simp [taken, echo, hk, Part.lexeme?]

/-- The echoes of some tokens, up to the first that is not accepted. -/
def echoes (kw : Keywords) : Reader → List Token → List Lexeme
  | _, [] => []
  | r, t :: ts =>
    match r.feed t with
    | .ok r' => echo kw r.place t :: echoes kw r' ts
    | .error _ => []

theorem echoes_cons (kw : Keywords) {r r' : Reader} {t : Token} (h : Feeds r t r')
    (ts : List Token) : echoes kw r (t :: ts) = echo kw r.place t :: echoes kw r' ts := by
  simp [echoes, feed_of_feeds h]

theorem feedAll_lexemes (kw : Keywords) {r r' : Reader} {ts : List Token}
    (h : r.feedAll ts = .ok r') :
    r'.parts.filterMap (Part.lexeme? kw) =
      r.parts.filterMap (Part.lexeme? kw) ++ echoes kw r ts := by
  induction ts generalizing r with
  | nil =>
    cases h
    simp [echoes]
  | cons t ts ih =>
    obtain ⟨r₁, ht, hts⟩ := feedAll_cons_eq_ok_iff.mp h
    have hl := lexeme?_taken kw (taken_feeds ht)
    rw [ih hts, parts_feeds ht, echoes_cons kw ht, List.filterMap_append,
      List.filterMap_cons_some hl, List.append_assoc]
    rfl

theorem read_lexemes (kw : Keywords) {words : Vocabulary} {ts : List Token} {p : Program.Reading}
    (h : Program.read words ts = .ok p) :
    lexemesList kw p.program = echoes kw { words := words } ts := by
  obtain ⟨r, r', hr, hf, rfl⟩ := read_eq_ok_iff.mp h
  rw [Expr.lexemesList_eq_parts, parts_finishes hf, feedAll_lexemes kw hr]
  rfl

theorem mark_dropMark {c : Char} {cs : List Char} {s : String} (h : s = String.ofList (c :: cs)) :
    String.singleton c ++ dropMark c s = s := by
  apply String.toList_injective
  simp [h, dropMark]

theorem dropMark_mark (c : Char) (s : String) : dropMark c (String.singleton c ++ s) = s := by
  simp [dropMark]

theorem dropMarks_mark (c : Char) (s : String) :
    dropMarks c (String.singleton c ++ dropMarks c s) = dropMarks c s := by
  apply String.toList_injective
  simp only [dropMarks, String.toList_ofList, String.toList_append, String.toList_singleton,
    List.cons_append, List.nil_append, List.dropWhile_cons, beq_self_eq_true, if_true]
  exact List.dropWhile_idempotent _ _

theorem stable_parameter {kw : Keywords} {cs : List Char} {s : String}
    (h : s = String.ofList (':' :: cs)) (hd : ∀ d ∈ cs, endsRun false d = false) :
    Lexeme.Stable kw (.reference, ":" ++ dropMarks ':' s) := by
  have he : ":" ++ dropMarks ':' s = String.ofList (':' :: cs.dropWhile fun d => d == ':') := by
    apply String.toList_injective
    simp [h, dropMarks]
  rw [he]
  exact stable_reference kw fun d hm => hd d ((List.dropWhile_sublist _).subset hm)

theorem stable_numeral {kw : Keywords} {s : String} (hne : s.toList ≠ [])
    (h : isNumeral s.toList = true) :
    Lexeme.Stable kw
      (.number, ((Text.readInt64? s).map fun n => Text.intText n.toInt).getD s) := by
  obtain ⟨hd, hf⟩ := isNumeral_iff.mp h
  cases hr : Text.readInt64? s with
  | none => simpa using stable_number kw hne h
  | some n =>
    have hn := Text.toInt_of_readInt64?_digits hd hr
    have ht : Text.intText n.toInt = Text.natText (Text.digitsValue s.toList) := by
      simp [Text.intText, hn]
    have hs : isNumeral (Text.natText (Text.digitsValue s.toList)).toList = true := by
      refine isNumeral_iff.mpr ⟨fun d => Text.isDigit_of_mem_natText, ?_⟩
      rwa [Text.digitsValue_natText]
    simpa [ht] using stable_number kw (Text.toList_natText_ne_nil _) hs

theorem stable_echo {kw : Keywords} {t : Token} (h : t.lexeme.Shape kw)
    (ho : Lexeme.Stable kw (.opening, kw.openingWord))
    (hc : Lexeme.Stable kw (.closing, kw.closingWord)) (place : Place) :
    (echo kw place t).Stable kw := by
  have hchar : ∀ {c : Char} {k : Kind}, Kind.ofChar? c = some k →
      Lexeme.Stable kw (k, String.singleton c) := fun hk => (Lexeme.Shape.char hk).stable
  have hself : ∀ k, t.kind = k → Lexeme.Stable kw (k, t.text) := by
    rintro _ rfl
    exact h.stable
  unfold echo
  split
  · exact hchar (c := '[') (by decide)
  · exact hchar (c := ']') (by decide)
  · exact hchar (c := '(') (by decide)
  · exact hchar (c := ')') (by decide)
  · exact ho
  · exact hc
  · rename_i hk
    exact stable_numeral (h.of_number hk).1 (h.of_number hk).2
  · rename_i hk
    obtain ⟨cs, hcs⟩ := h.of_quoted hk
    have hs := hself _ hk
    have hm : "\"" ++ dropMark '"' t.text = t.text := mark_dropMark hcs
    rwa [hm]
  · rename_i hk
    obtain ⟨cs, hcs, hd⟩ := h.of_reference hk
    split
    · exact stable_parameter hcs hd
    · have hs := hself _ hk
      have hm : ":" ++ dropMark ':' t.text = t.text := mark_dropMark hcs
      rwa [hm]
  · rename_i hk
    exact hself _ hk
  · rename_i hk
    exact hself _ hk

theorem stable_echoes {kw : Keywords} {ts : List Token} (h : ∀ t ∈ ts, t.lexeme.Shape kw)
    (ho : Lexeme.Stable kw (.opening, kw.openingWord))
    (hc : Lexeme.Stable kw (.closing, kw.closingWord)) (r : Reader) :
    ∀ l ∈ echoes kw r ts, l.Stable kw := by
  induction ts generalizing r with
  | nil => simp [echoes]
  | cons t ts ih =>
    intro l hl
    simp only [echoes] at hl
    split at hl
    · rcases List.mem_cons.mp hl with rfl | hl
      · exact stable_echo (h t (by simp)) ho hc r.place
      · exact ih (fun t ht => h t (by simp [ht])) _ l hl
    · cases hl

end LogoLang.Reader
