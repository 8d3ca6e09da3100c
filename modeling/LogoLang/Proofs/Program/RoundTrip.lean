import LogoLang.Proofs.Expr.Grouping
import LogoLang.Proofs.Program.Alike
import LogoLang.Word

/-!
Writing a program and reading it again. What is read from a source is printed without further
parentheses, so its text is split into the echoes of the tokens it was read from. Main statement:
reading the text of a program that has been read gives the same program up to lines, and the same
text again.
-/

set_option autoImplicit false

namespace LogoLang.Reader

open Token

def RawItems (es : Array Expr) : Prop := ∀ e ∈ es.toList, e.Raw

theorem RawItems.push {es : Array Expr} {e : Expr} (h : RawItems es) (he : e.Raw) :
    RawItems (es.push e) := by
  intro d hd
  simp only [Array.toList_push, List.mem_append, List.mem_singleton] at hd
  rcases hd with hd | rfl
  · exact h d hd
  · exact he

theorem RawItems.list {es : Array Expr} (h : RawItems es) : Expr.RawList es.toList :=
  (Expr.rawList_iff es.toList).mpr h

def Frame.Raw : Frame → Prop
  | .list _ es | .body _ _ _ es | .spread _ _ es | .args _ _ es => RawItems es
  | .group _ => True
  | .operand left _ _ => left.isOperand = true ∧ left.Raw

def Place.Raw : Place → Prop
  | .after e => e.isOperand = true ∧ e.Raw
  | _ => True

def Home.Raw : Home → Prop
  | .item st => ∀ f ∈ st, f.Raw
  | .group _ inner st => inner.Raw ∧ ∀ f ∈ st, f.Raw
  | .top e => e.Raw

/-- Everything read so far is as the grammar leaves it, and top-level expressions are regrouped. -/
structure Raw (r : Reader) : Prop where
  program : ∀ e ∈ r.program.toList, e.Bare true
  stack : ∀ f ∈ r.stack, f.Raw
  place : r.place.Raw

theorem settle_raw {stack : List Frame} {e : Expr} {home : Home} (h : settle stack e = home)
    (hst : ∀ f ∈ stack, f.Raw) (he : e.Raw) : home.Raw := by
  subst h
  fun_induction settle stack e with
  | case1 => exact he
  | case4 opener st e => exact ⟨he, (List.forall_mem_cons.mp hst).2⟩
  | case6 word done st e ih =>
    obtain ⟨hd, hst⟩ := List.forall_mem_cons.mp hst
    exact ih hst (RawItems.push hd he).list
  | case8 left op sign st e ih =>
    obtain ⟨hl, hst⟩ := List.forall_mem_cons.mp hst
    exact ih hst ⟨hl.1, hl.2, he⟩
  | _ =>
    obtain ⟨hi, hst⟩ := List.forall_mem_cons.mp hst
    exact List.forall_mem_cons.mpr ⟨RawItems.push hi he, hst⟩

def Unsigned (t : Token) : Prop :=
  t.kind = .number → ∀ n, Text.readInt64? t.text = some n → 0 ≤ n.toInt

theorem unsigned_of_shape {kw : Keywords} {t : Token} (h : t.lexeme.Shape kw) : Unsigned t := by
  intro hk n hn
  have hd := (isNumeral_iff.mp (h.of_number hk).2).1
  rw [Text.toInt_of_readInt64?_digits hd hn]
  exact Int.natCast_nonneg _

theorem Raw.opened {r : Reader} (h : r.Raw) {f : Frame} (hf : f.Raw) : (r.opened f).Raw := by
  exact ⟨h.program, List.forall_mem_cons.mpr ⟨hf, h.stack⟩, trivial⟩

theorem rawItems_empty : RawItems #[] := by simp [RawItems]

theorem starts_raw {r r' : Reader} {t : Token} (h : Starts r t r') (hr : r.Raw)
    (ht : Unsigned t) : r'.Raw := by
  have htail : ∀ {f : Frame} {st : List Frame}, r.stack = f :: st → f.Raw ∧ ∀ g ∈ st, g.Raw := by
    intro f st hst
    have hs := hr.stack
    rw [hst] at hs
    exact List.forall_mem_cons.mp hs
  cases h with
  | paren hk => exact hr.opened trivial
  | bracket hk => exact hr.opened rawItems_empty
  | header hk => exact ⟨hr.program, hr.stack, trivial⟩
  | number hk hn => exact ⟨hr.program, hr.stack, rfl, ht hk _ hn⟩
  | reference hk => exact ⟨hr.program, hr.stack, rfl, trivial⟩
  | quoted hk => exact ⟨hr.program, hr.stack, rfl, trivial⟩
  | spread hk hs hst hv =>
    exact ⟨hr.program, List.forall_mem_cons.mpr ⟨rawItems_empty, (htail hst).2⟩, trivial⟩
  | constant hk hs hv ha => exact ⟨hr.program, hr.stack, rfl, trivial⟩
  | call hk hs hv ha => exact hr.opened rawItems_empty
  | closeList hk hst => exact ⟨hr.program, (htail hst).2, rfl, RawItems.list (htail hst).1⟩
  | closeBody hk hst => exact ⟨hr.program, (htail hst).2, rfl, RawItems.list (htail hst).1⟩
  | closeSpread hk hst => exact ⟨hr.program, (htail hst).2, rfl, RawItems.list (htail hst).1⟩

theorem Raw.pushTop {r : Reader} (h : r.Raw) {e : Expr} (he : e.Raw) : (r.pushTop e).Raw := by
  refine ⟨?_, by simp [Reader.pushTop], trivial⟩
  intro d hd
  simp only [Reader.pushTop, Array.toList_push, List.mem_append, List.mem_singleton] at hd
  rcases hd with hd | rfl
  · exact h.program d hd
  · exact Expr.bare_regroup he

theorem Raw.place_after {r : Reader} (h : r.Raw) {e : Expr} (hp : r.place = .after e) :
    e.isOperand = true ∧ e.Raw := by
  have hr := h.place
  rw [hp] at hr
  exact hr

theorem feeds_raw {r r' : Reader} {t : Token} (h : Feeds r t r') (hr : r.Raw)
    (ht : Unsigned t) : r'.Raw := by
  cases h with
  | start hp h => exact starts_raw h hr ht
  | name hp hk => exact ⟨hr.program, hr.stack, trivial⟩
  | param hp hk => exact ⟨hr.program, hr.stack, trivial⟩
  | body hp hk h =>
    have hb : ∀ words, Raw { r with words := words } := fun _ => ⟨hr.program, hr.stack, hr.place⟩
    exact starts_raw h ((hb _).opened rawItems_empty) ht
  | operator hp hk ho => exact hr.opened (hr.place_after hp)
  | item hp hk hs h =>
    have hst := settle_raw hs hr.stack (hr.place_after hp).2
    exact starts_raw h ⟨hr.program, hst, trivial⟩ ht
  | top hp hk hs h =>
    have he := settle_raw hs hr.stack (hr.place_after hp).2
    exact starts_raw h (hr.pushTop he) ht
  | group hp hk hs =>
    have hg := settle_raw hs hr.stack (hr.place_after hp).2
    exact ⟨hr.program, hg.2, rfl, hg.1⟩

theorem feedAll_raw {r r' : Reader} {ts : List Token} (h : r.feedAll ts = .ok r') (hr : r.Raw)
    (ht : ∀ t ∈ ts, Unsigned t) : r'.Raw := by
  induction ts generalizing r with
  | nil =>
    cases h
    exact hr
  | cons t ts ih =>
    obtain ⟨r₁, hf, hts⟩ := feedAll_cons_eq_ok_iff.mp h
    exact ih hts (feeds_raw hf hr (ht t (by simp))) fun u hu => ht u (by simp [hu])

theorem read_bare {words : Vocabulary} {ts : List Token} {p : Program.Reading}
    (h : Program.read words ts = .ok p) (ht : ∀ t ∈ ts, Unsigned t) :
    ∀ e ∈ p.program, e.Bare true := by
  obtain ⟨r, r', hr, hf, rfl⟩ := read_eq_ok_iff.mp h
  have h₀ : Raw { words := words } := ⟨by simp, by simp, trivial⟩
  have hraw := feedAll_raw hr h₀ ht
  cases hf with
  | start hp hst => exact hraw.program
  | top hp hs =>
    exact (hraw.pushTop (settle_raw hs hraw.stack (hraw.place_after hp).2)).program

end LogoLang.Reader

namespace LogoLang.Program

open Token Reader

theorem stable_of_tokenize {kw : Keywords} {k : Kind} {w : String}
    (h : (tokenize kw w).map lexeme = [(k, w)]) : Lexeme.Stable kw (k, w) := by
  obtain ⟨t, ht, he⟩ := List.mem_map.mp (show (k, w) ∈ (tokenize kw w).map lexeme by simp [h])
  rw [← he]
  exact stable_of_mem_lex ht

theorem tokenize_text {kw : Keywords} {words : Vocabulary} {source : String} {p : Program.Reading}
    (ho : Lexeme.Stable kw (.opening, kw.openingWord))
    (hc : Lexeme.Stable kw (.closing, kw.closingWord))
    (h : Program.read words (tokenize kw source) = .ok p) :
    (tokenize kw (p.program.text kw)).map lexeme =
      echoes kw { words := words } (tokenize kw source) := by
  have hshape : ∀ t ∈ tokenize kw source, t.lexeme.Shape kw := fun t ht => shape_of_mem_lex ht
  have hbare := read_bare h fun t ht => unsigned_of_shape (hshape t ht)
  have hlex := read_lexemes kw h
  have hstable := stable_echoes hshape ho hc { words := words }
  rw [← hlex] at hstable ⊢
  exact (Expr.spells_programText kw hbare hstable).lexemes_eq

/-- Writing a program that was read from a source, and reading the text with the same words, gives
the program again up to lines. Writing that one gives the same text. -/
theorem read_text_read (kw : Keywords) (words : Vocabulary) (source : String)
    (p : Program.Reading)
    (hopening : (tokenize kw kw.openingWord).map lexeme = [(.opening, kw.openingWord)])
    (hclosing : (tokenize kw kw.closingWord).map lexeme = [(.closing, kw.closingWord)])
    (h : Program.read words (tokenize kw source) = .ok p) :
    ∃ p', Program.read words (tokenize kw (p.program.text kw)) = .ok p' ∧
      Expr.alikeList p.program p'.program = true ∧
      p'.program.text kw = p.program.text kw ∧ p'.words = p.words := by
  have ht := tokenize_text (stable_of_tokenize hopening) (stable_of_tokenize hclosing) h
  obtain ⟨p', hp', ha, hw⟩ := read_of_echoes kw h ht
  exact ⟨p', hp', ha, (Expr.programText_eq_of_alikeList kw ha).symm, hw⟩

def spinKeywords : Keywords := .localized (some "POUR") (some "fin")

def spinSource : String :=
  "pour Spin ::n ; turns\n repeat 03 [print (sum :n 1 2) * :n - 4]\nend spin 5"

def spinProgram : Program :=
  [.define "spin" ["n"]
    [.call "repeat"
      [.number 3 1,
       .list
        [.call "print"
          [.binary .subtract
            (.binary .multiply (.group (.call "sum" [.var "n" 1, .number 1 1, .number 2 1] 1) 1)
              (.var "n" 1) 1)
            (.number 4 1) 1] 1] 1] 1] 0,
   .call "spin" [.number 5 2] 2]

theorem read_text_read_spin :
    (tokenize spinKeywords spinKeywords.openingWord).map lexeme =
        [(.opening, spinKeywords.openingWord)] ∧
      (tokenize spinKeywords spinKeywords.closingWord).map lexeme =
        [(.closing, spinKeywords.closingWord)] ∧
      ∃ p p', Program.read ⟨Registry.core.signatures, .empty⟩ (tokenize spinKeywords spinSource) =
          .ok p ∧
        Program.read ⟨Registry.core.signatures, .empty⟩
          (tokenize spinKeywords (p.program.text spinKeywords)) = .ok p' ∧
        Expr.alikeList p.program p'.program = true ∧
        p'.program.text spinKeywords = p.program.text spinKeywords ∧ p'.words = p.words := by
  have ho : (tokenize spinKeywords spinKeywords.openingWord).map lexeme =
      [(.opening, spinKeywords.openingWord)] := by decide +kernel
  have hc : (tokenize spinKeywords spinKeywords.closingWord).map lexeme =
      [(.closing, spinKeywords.closingWord)] := by decide +kernel
  have hp : Program.read ⟨Registry.core.signatures, .empty⟩ (tokenize spinKeywords spinSource) =
      .ok ⟨spinProgram, Registry.core.signatures, ⟨[("spin", .defined ["n"])]⟩⟩ := by
    decide +kernel
  obtain ⟨p', hp', ha, ht, hw⟩ := read_text_read spinKeywords _ spinSource _ ho hc hp
  exact ⟨ho, hc, _, p', hp, hp', ha, ht, hw⟩

end LogoLang.Program
