import LogoLang.Proofs.Text.Lowercase
import LogoLang.Token.Lexer
import Mathlib.Tactic.SplitIfs

/-!
Lexemes: tokens without their lines. A text spells some lexemes if it is split into them wherever a
break follows it. Main statement: every token is spelled by its own text.
-/

set_option autoImplicit false

namespace LogoLang.Token

abbrev Lexeme := Kind × String

def lexeme (t : Token) : Lexeme := (t.kind, t.text)

def lexemes (kw : Keywords) (cs : List Char) : List Lexeme := (lex kw 0 cs).map lexeme

/-- The text is empty or starts with a character that belongs to no run. -/
def Breaks (cs : List Char) : Prop := ∀ c ∈ cs.head?, isDelimiter c = true

def Spells (kw : Keywords) (cs : List Char) (ls : List Lexeme) : Prop :=
  ∀ rest, Breaks rest → lexemes kw (cs ++ rest) = ls ++ lexemes kw rest

def Lexeme.Stable (kw : Keywords) (l : Lexeme) : Prop := Spells kw l.2.toList [l]

@[simp] theorem breaks_nil : Breaks [] := by simp [Breaks]

theorem breaks_cons {c : Char} {cs : List Char} (h : isDelimiter c = true) : Breaks (c :: cs) := by
  simpa [Breaks] using h

theorem endsRun_of_isDelimiter {c : Char} (quoted : Bool) (h : isDelimiter c = true) :
    endsRun quoted c = true := by
  simp [endsRun, h]

def runEnds : List Char := [' ', '\t', '\n', '\r', '[', ']', '(', ')', ';'] ++
  Operator.all.map Operator.sign

theorem mem_runEnds {quoted : Bool} {c : Char} (h : endsRun quoted c = true) : c ∈ runEnds := by
  simp only [endsRun, isDelimiter, isBlank, Operator.isSign, Bool.or_eq_true, Bool.and_eq_true,
    beq_iff_eq, List.any_eq_true, decide_eq_true_eq] at h
  simp only [runEnds, List.mem_append, List.mem_cons, List.not_mem_nil, or_false, List.mem_map]
  rcases h with h | ⟨-, h⟩
  · exact .inl (by simpa only [or_assoc] using h)
  · exact .inr h

theorem lt_of_endsRun {quoted : Bool} {c : Char} (h : endsRun quoted c = true) :
    c.toNat < 0x61 := by
  have hall : ∀ c ∈ runEnds, c.toNat < 0x61 := by
    simp [runEnds, Operator.all, Operator.sign]
  exact hall c (mem_runEnds h)

theorem endsRun_false_eq (c : Char) :
    endsRun false c = (isBlank c || c == ';' || (Kind.ofChar? c).isSome) := by
  simp only [endsRun, isDelimiter, Kind.ofChar?]
  by_cases h₁ : c = '[' <;> by_cases h₂ : c = ']' <;> by_cases h₃ : c = '(' <;>
    by_cases h₄ : c = ')' <;> cases hs : Operator.isSign c <;> cases hb : isBlank c <;>
    cases h₅ : c == ';' <;> simp_all

theorem lexeme_ofRun (kw : Keywords) (i j : Nat) (run : List Char) :
    (ofRun kw i run).lexeme = (ofRun kw j run).lexeme := by
  simp only [ofRun]
  split_ifs <;> rfl

theorem ofRun_eq (kw : Keywords) (line : Nat) (run : List Char) :
    ofRun kw line run = ⟨(ofRun kw 0 run).lexeme.1, (ofRun kw 0 run).lexeme.2, line⟩ := by
  simp only [ofRun]
  split_ifs <;> rfl

/-- The lexemes of a text do not depend on the line it starts on. -/
theorem map_lexeme_lex (kw : Keywords) (line : Nat) (cs : List Char) :
    (lex kw line cs).map lexeme = lexemes kw cs := by
  have h : ∀ i j, (lex kw i cs).map lexeme = (lex kw j cs).map lexeme := by
    intro i j
    fun_induction lex kw i cs generalizing j with
    | case1 => simp [lex]
    | case2 line cs ih => simp [lex, ih (j + 1)]
    | case3 line c cs hn hb ih => simp [lex, hn, hb, ih j]
    | case4 line cs hn hb ih => simp [lex, hn, hb, ih j]
    | case5 line c cs hn hb hc k hk ih => simp [lex, hn, hb, hc, hk, ih j, lexeme]
    | case6 line c cs hn hb hc hk more ih =>
      have hr := lexeme_ofRun kw line j (c :: cs.takeWhile more)
      rw [lex.eq_def kw j]
      simp [hn, hb, hc, hk, ih j, hr, more]
  exact h line 0

@[simp] theorem lexemes_nil (kw : Keywords) : lexemes kw [] = [] := by simp [lexemes, lex]

theorem lex_blank (kw : Keywords) (line : Nat) {c : Char} (cs : List Char)
    (h : isBlank c = true) : lex kw line (c :: cs) = lex kw (line + [c].count '\n') cs := by
  rw [lex.eq_def]
  by_cases hn : c = '\n' <;> simp [hn, h]

theorem lexemes_blank (kw : Keywords) {c : Char} (cs : List Char) (h : isBlank c = true) :
    lexemes kw (c :: cs) = lexemes kw cs := by
  rw [lexemes, lex_blank kw 0 cs h, map_lexeme_lex]

theorem lex_comment (kw : Keywords) (line : Nat) (cs : List Char) :
    lex kw line (';' :: cs) = lex kw line (cs.dropWhile fun d => d != '\n') := by
  rw [lex.eq_def]
  simp [isBlank]

theorem lex_char (kw : Keywords) (line : Nat) {c : Char} {k : Kind} (cs : List Char)
    (h : Kind.ofChar? c = some k) :
    lex kw line (c :: cs) = ⟨k, String.singleton c, line⟩ :: lex kw line cs := by
  have hb : isBlank c = false := by
    cases hb : isBlank c with
    | false => rfl
    | true =>
      simp only [isBlank, Bool.or_eq_true, beq_iff_eq] at hb
      rcases hb with ((rfl | rfl) | rfl) | rfl <;> cases h
  have hn : c ≠ '\n' := by rintro rfl; cases h
  have hc : c ≠ ';' := by rintro rfl; cases h
  rw [lex.eq_def]
  simp [hn, hb, hc, h]

theorem lexemes_char (kw : Keywords) {c : Char} {k : Kind} (cs : List Char)
    (h : Kind.ofChar? c = some k) :
    lexemes kw (c :: cs) = (k, String.singleton c) :: lexemes kw cs := by
  rw [lexemes, lex_char kw 0 cs h]
  rfl

/-- A run: its first character tells where it has to end. -/
def IsRun : List Char → Prop
  | [] => False
  | c :: cs => endsRun false c = false ∧ ∀ d ∈ cs, endsRun (c == '"') d = false

/-- A run is split off up to the first character that ends it. -/
theorem lex_run (kw : Keywords) (line : Nat) {run rest : List Char} (hr : IsRun run)
    (he : ∀ d ∈ rest.head?, endsRun (run.head? == some '"') d = true) :
    lex kw line (run ++ rest) = ofRun kw line run :: lex kw line rest := by
  cases run with
  | nil => cases hr
  | cons c cs =>
    have hc := hr.1
    rw [endsRun_false_eq] at hc
    simp only [Bool.or_eq_false_iff, beq_eq_false_iff_ne, Option.isSome_eq_false_iff,
      Option.isNone_iff_eq_none] at hc
    obtain ⟨⟨hb, hs⟩, hk⟩ := hc
    have hn : c ≠ '\n' := by rintro rfl; cases hb
    have hmore : ∀ d ∈ cs, (!endsRun (c == '"') d) = true := by
      intro d hd
      simp [hr.2 d hd]
    have hrest : rest.takeWhile (fun d => !endsRun (c == '"') d) = [] ∧
        rest.dropWhile (fun d => !endsRun (c == '"') d) = rest := by
      cases rest with
      | nil => simp
      | cons d ds =>
        have hd : endsRun (c == '"') d = true := he d (by simp)
        simp [hd]
    rw [List.cons_append, lex.eq_def]
    simp only [hn, hb, hs, hk, if_false, Bool.false_eq_true,
      List.takeWhile_append_of_pos hmore, List.dropWhile_append_of_pos hmore, hrest,
      List.append_nil]

theorem lexemes_run (kw : Keywords) {run rest : List Char} (hr : IsRun run) (h : Breaks rest) :
    lexemes kw (run ++ rest) = (ofRun kw 0 run).lexeme :: lexemes kw rest := by
  rw [lexemes, lex_run kw 0 hr fun d hd => endsRun_of_isDelimiter _ (h d hd)]
  rfl

/-- The kind of a run that is neither quoted, nor a reference, nor a number. -/
def wordKind (kw : Keywords) (word : String) : Kind :=
  if kw.opens word then .opening else if kw.closes word then .closing else .word

theorem lexeme_ofRun_word (kw : Keywords) {line : Nat} {run : List Char}
    (hq : run.head? ≠ some '"') (hr : run.head? ≠ some ':') (hn : isNumeral run = false) :
    (ofRun kw line run).lexeme =
      (wordKind kw (Text.lowercase (String.ofList run)), Text.lowercase (String.ofList run)) := by
  simp only [ofRun, wordKind, hq, hr, hn]
  split_ifs <;> first | rfl | contradiction

inductive Lexeme.Shape (kw : Keywords) : Lexeme → Prop where
  | char {c : Char} {k : Kind} : Kind.ofChar? c = some k → Shape kw (k, String.singleton c)
  | quoted {cs : List Char} : (∀ d ∈ cs, isDelimiter d = false) →
      Shape kw (.quoted, String.ofList ('"' :: cs))
  | reference {cs : List Char} : (∀ d ∈ cs, endsRun false d = false) →
      Shape kw (.reference, String.ofList (':' :: cs))
  | number {cs : List Char} : cs ≠ [] → isNumeral cs = true → Shape kw (.number, String.ofList cs)
  | word {run : List Char} : run ≠ [] → (∀ d ∈ run, endsRun false d = false) →
      run.head? ≠ some '"' → run.head? ≠ some ':' → isNumeral run = false →
      Shape kw (wordKind kw (Text.lowercase (String.ofList run)),
        Text.lowercase (String.ofList run))

theorem IsRun.shape (kw : Keywords) (line : Nat) {run : List Char} (h : IsRun run) :
    Lexeme.Shape kw (ofRun kw line run).lexeme := by
  cases run with
  | nil => cases h
  | cons c cs =>
    by_cases hq : c = '"'
    · subst hq
      have hd : ∀ d ∈ cs, isDelimiter d = false := by
        intro d hd
        have he := h.2 d hd
        simpa [endsRun] using he
      have he : (ofRun kw line ('"' :: cs)).lexeme = (.quoted, String.ofList ('"' :: cs)) := by
        simp [ofRun, lexeme]
      exact he ▸ .quoted hd
    · have hd : ∀ d ∈ cs, endsRun false d = false := by
        intro d hd
        have he := h.2 d hd
        rwa [beq_eq_false_iff_ne.mpr hq] at he
      by_cases hr : c = ':'
      · subst hr
        have he : (ofRun kw line (':' :: cs)).lexeme = (.reference, String.ofList (':' :: cs)) := by
          simp [ofRun, lexeme]
        exact he ▸ .reference hd
      · have hq' : (c :: cs).head? ≠ some '"' := by simpa using hq
        have hr' : (c :: cs).head? ≠ some ':' := by simpa using hr
        cases hn : isNumeral (c :: cs) with
        | true =>
          have he : (ofRun kw line (c :: cs)).lexeme = (.number, String.ofList (c :: cs)) := by
            simp [ofRun, lexeme, hq, hr, hn]
          exact he ▸ .number (by simp) hn
        | false =>
          rw [lexeme_ofRun_word kw hq' hr' hn]
          refine .word (by simp) ?_ hq' hr' hn
          intro d hm
          rcases List.mem_cons.mp hm with rfl | hm
          · exact h.1
          · exact hd d hm

theorem shape_of_mem_lex {kw : Keywords} {line : Nat} {cs : List Char} {t : Token}
    (h : t ∈ lex kw line cs) : Lexeme.Shape kw t.lexeme := by
  fun_induction lex kw line cs with
  | case1 => cases h
  | case2 line cs ih => exact ih h
  | case3 line c cs hn hb ih => exact ih h
  | case4 line cs hn hb ih => exact ih h
  | case5 line c cs hn hb hc k hk ih =>
    rcases List.mem_cons.mp h with rfl | h
    · exact .char hk
    · exact ih h
  | case6 line c cs hn hb hc hk more ih =>
    rcases List.mem_cons.mp h with rfl | h
    · refine IsRun.shape kw line ⟨?_, ?_⟩
      · rw [endsRun_false_eq]
        simp [hb, hc, hk]
      · intro d hd
        have hm := List.all_eq_true.mp List.all_takeWhile d hd
        simpa [more] using hm
    · exact ih h

theorem stable_of_isRun {kw : Keywords} {l : Lexeme} (hr : IsRun l.2.toList)
    (h : (ofRun kw 0 l.2.toList).lexeme = l) : l.Stable kw := by
  intro rest hb
  rw [lexemes_run kw hr hb, h]
  rfl

theorem stable_quoted (kw : Keywords) {cs : List Char} (h : ∀ d ∈ cs, isDelimiter d = false) :
    Lexeme.Stable kw (.quoted, String.ofList ('"' :: cs)) := by
  apply stable_of_isRun
  · rw [String.toList_ofList]
    exact ⟨by decide, fun d hd => by simp [endsRun, h d hd]⟩
  · simp [ofRun, lexeme]

theorem stable_reference (kw : Keywords) {cs : List Char} (h : ∀ d ∈ cs, endsRun false d = false) :
    Lexeme.Stable kw (.reference, String.ofList (':' :: cs)) := by
  apply stable_of_isRun
  · rw [String.toList_ofList]
    exact ⟨by decide, h⟩
  · simp [ofRun, lexeme]

theorem endsRun_of_isDigit {c : Char} (h : c.isDigit = true) : endsRun false c = false := by
  have hall : ∀ c ∈ runEnds, c.isDigit = false := by
    simp [runEnds, Operator.all, Operator.sign]
  cases he : endsRun false c with
  | false => rfl
  | true => exact absurd h (by simp [hall c (mem_runEnds he)])

theorem isNumeral_iff {cs : List Char} :
    isNumeral cs = true ↔
      (∀ d ∈ cs, d.isDigit = true) ∧ (Text.fit? (Text.digitsValue cs)).isSome = true := by
  simp [isNumeral]

theorem stable_number (kw : Keywords) {cs : List Char} (hne : cs ≠ []) (h : isNumeral cs = true) :
    Lexeme.Stable kw (.number, String.ofList cs) := by
  have hd := (isNumeral_iff.mp h).1
  cases cs with
  | nil => exact absurd rfl hne
  | cons c cs =>
    have hc := endsRun_of_isDigit (hd c (by simp))
    have hq : c ≠ '"' := by rintro rfl; exact absurd (hd '"' (by simp)) (by decide)
    have hr : c ≠ ':' := by rintro rfl; exact absurd (hd ':' (by simp)) (by decide)
    apply stable_of_isRun
    · rw [String.toList_ofList]
      refine ⟨hc, fun d hm => ?_⟩
      rw [beq_eq_false_iff_ne.mpr hq]
      exact endsRun_of_isDigit (hd d (by simp [hm]))
    · simp [ofRun, lexeme, hq, hr, h]

theorem stable_word (kw : Keywords) {run : List Char} (hne : run ≠ [])
    (h : ∀ d ∈ run, endsRun false d = false) (hq : run.head? ≠ some '"')
    (hr : run.head? ≠ some ':') (hn : isNumeral run = false) :
    Lexeme.Stable kw (wordKind kw (Text.lowercase (String.ofList run)),
      Text.lowercase (String.ofList run)) := by
  have hlow : (Text.lowercase (String.ofList run)).toList = Text.lowercaseAfter [] run := by
    simp [Text.lowercase]
  have hq' : (Text.lowercaseAfter [] run).head? ≠ some '"' :=
    fun hh => hq (Text.head?_of_head?_lowercaseAfter hh (by decide))
  have hr' : (Text.lowercaseAfter [] run).head? ≠ some ':' :=
    fun hh => hr (Text.head?_of_head?_lowercaseAfter hh (by decide))
  have hall : ∀ d ∈ Text.lowercaseAfter [] run, endsRun false d = false := by
    intro d hd
    cases he : endsRun false d with
    | false => rfl
    | true =>
      have hf := h d (Text.mem_of_mem_lowercaseAfter hd (lt_of_endsRun he))
      exact (hf.symm.trans he).symm
  have hn' : isNumeral (Text.lowercaseAfter [] run) = false := by
    cases he : isNumeral (Text.lowercaseAfter [] run) with
    | false => rfl
    | true =>
      have hd : ∀ d ∈ Text.lowercaseAfter [] run, d.toNat < 0x61 := by
        intro d hd
        have h9 := (Char.isDigit_iff_toNat.mp ((isNumeral_iff.mp he).1 d hd)).2
        exact Nat.lt_of_le_of_lt h9 (by decide)
      rw [Text.lowercaseAfter_eq_self hd, hn] at he
      cases he
  apply stable_of_isRun
  · rw [hlow]
    cases hl : Text.lowercaseAfter [] run with
    | nil => exact absurd hl (Text.lowercaseAfter_ne_nil hne)
    | cons c cs =>
      rw [hl] at hq' hall
      have hcq : c ≠ '"' := by simpa using hq'
      refine ⟨hall c (by simp), fun d hd => ?_⟩
      rw [beq_eq_false_iff_ne.mpr hcq]
      exact hall d (by simp [hd])
  · show (ofRun kw 0 (Text.lowercase (String.ofList run)).toList).lexeme = _
    rw [hlow, lexeme_ofRun_word kw hq' hr' hn', ← hlow, String.ofList_toList,
      Text.lowercase_lowercase]

theorem Lexeme.Shape.stable {kw : Keywords} {l : Lexeme} (h : l.Shape kw) : l.Stable kw := by
  cases h with
  | char hk =>
    intro rest _
    simpa using lexemes_char kw rest hk
  | quoted hd => exact stable_quoted kw hd
  | reference hd => exact stable_reference kw hd
  | number hne hn => exact stable_number kw hne hn
  | word hne hd hq hr hn => exact stable_word kw hne hd hq hr hn

theorem stable_of_mem_lex {kw : Keywords} {line : Nat} {cs : List Char} {t : Token}
    (h : t ∈ lex kw line cs) : t.lexeme.Stable kw :=
  (shape_of_mem_lex h).stable

theorem mem_of_ofChar?_eq {c : Char} {k k' : Kind} (h : Kind.ofChar? c = some k) (hk : k = k') :
    k' ∈ [Kind.openBracket, .closeBracket, .openParen, .closeParen, .operator] := by
  subst hk
  unfold Kind.ofChar? at h
  split_ifs at h <;> cases h <;> decide

theorem mem_of_wordKind_eq {kw : Keywords} {word : String} {k : Kind} (h : wordKind kw word = k) :
    k ∈ [Kind.opening, .closing, .word] := by
  subst h
  unfold wordKind
  split_ifs <;> decide

namespace Lexeme.Shape

variable {kw : Keywords} {l : Lexeme}

theorem of_quoted (h : l.Shape kw) (hk : l.1 = .quoted) :
    ∃ cs, l.2 = String.ofList ('"' :: cs) := by
  cases h with
  | char hc => exact absurd (mem_of_ofChar?_eq hc hk) (by decide)
  | quoted hd => exact ⟨_, rfl⟩
  | word => exact absurd (mem_of_wordKind_eq hk) (by decide)
  | _ => cases hk

theorem of_reference (h : l.Shape kw) (hk : l.1 = .reference) :
    ∃ cs, l.2 = String.ofList (':' :: cs) ∧ ∀ d ∈ cs, endsRun false d = false := by
  cases h with
  | char hc => exact absurd (mem_of_ofChar?_eq hc hk) (by decide)
  | reference hd => exact ⟨_, rfl, hd⟩
  | word => exact absurd (mem_of_wordKind_eq hk) (by decide)
  | _ => cases hk

theorem of_number (h : l.Shape kw) (hk : l.1 = .number) :
    l.2.toList ≠ [] ∧ isNumeral l.2.toList = true := by
  cases h with
  | char hc => exact absurd (mem_of_ofChar?_eq hc hk) (by decide)
  | number hne hn => simpa using ⟨hne, hn⟩
  | word => exact absurd (mem_of_wordKind_eq hk) (by decide)
  | _ => cases hk

end Lexeme.Shape

namespace Spells

variable {kw : Keywords} {cs ds : List Char} {ls ms : List Lexeme}

theorem nil : Spells kw [] [] := fun _ _ => rfl

theorem append (h : Spells kw cs ls) (h' : Spells kw ds ms) (hb : Breaks ds) :
    Spells kw (cs ++ ds) (ls ++ ms) := by
  intro rest hrest
  have hbreak : Breaks (ds ++ rest) := by
    cases ds with
    | nil => exact hrest
    | cons d ds => exact breaks_cons (hb d (by simp))
  rw [List.append_assoc, h (ds ++ rest) hbreak, h' rest hrest, List.append_assoc]

theorem blank {c : Char} (hc : isBlank c = true) (h : Spells kw cs ls) :
    Spells kw (c :: cs) ls := by
  intro rest hrest
  rw [List.cons_append, lexemes_blank kw _ hc, h rest hrest]

theorem char {c : Char} {k : Kind} (hc : Kind.ofChar? c = some k) (h : Spells kw cs ls) :
    Spells kw (c :: cs) ((k, String.singleton c) :: ls) := by
  intro rest hrest
  rw [List.cons_append, lexemes_char kw _ hc, h rest hrest]
  rfl

theorem lexemes_eq (h : Spells kw cs ls) : lexemes kw cs = ls := by
  have h' := h [] breaks_nil
  simpa using h'

end Spells

end LogoLang.Token
