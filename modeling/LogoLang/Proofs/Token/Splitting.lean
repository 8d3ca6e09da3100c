import LogoLang.Proofs.Token.Lexeme

/-!
How a text is split. A cut of a text is a list of lexemes with what stands between them, and every
character is in one of these. What makes a cut the right one is said for each lexeme by itself, from
the characters around it. Main statement: the tokens of a text are those of the right cut, each on
the line that the newlines before it come to.
-/

set_option autoImplicit false

namespace LogoLang.Token

def blanks : List Char := [' ', '\t', '\n', '\r']

def delimiters : List Char := blanks ++ ['[', ']', '(', ')', ';']

def signs : List Char := ['+', '-', '*', '/', '=', '<', '>']

/-- What stands between lexemes, before `rest`: blanks, and comments, each of which reaches to the
next newline or to the end of the text. -/
inductive Gap (rest : List Char) : List Char → Prop where
  | nil : Gap rest []
  | blank {c : Char} {gap : List Char} (hc : c ∈ blanks) (hg : Gap rest gap) : Gap rest (c :: gap)
  | comment {cs gap : List Char} (hcs : '\n' ∉ cs) (he : ∀ c ∈ (gap ++ rest).head?, c = '\n')
    (hg : Gap rest gap) : Gap rest (';' :: (cs ++ gap))

/-- A run holds no character of `ends` behind its first, and goes on until one comes. -/
structure Reaches (ends cs rest : List Char) : Prop where
  within : ∀ c ∈ cs, c ∉ ends
  upTo : ∀ c ∈ rest.head?, c ∈ ends

def Numeral (run : List Char) : Prop :=
  (∀ c ∈ run, c.isDigit = true) ∧ (Text.digitsValue run : Int) ≤ Int64.maxValue.toInt

/-- The lexeme that some characters make before `rest`. -/
inductive Makes (kw : Keywords) (rest : List Char) : List Char → Lexeme → Prop where
  | openBracket : Makes kw rest ['['] (.openBracket, "[")
  | closeBracket : Makes kw rest [']'] (.closeBracket, "]")
  | openParen : Makes kw rest ['('] (.openParen, "(")
  | closeParen : Makes kw rest [')'] (.closeParen, ")")
  | operator {c : Char} (hc : c ∈ signs) : Makes kw rest [c] (.operator, String.ofList [c])
  | quoted {cs : List Char} (h : Reaches delimiters cs rest) :
    Makes kw rest ('"' :: cs) (.quoted, String.ofList ('"' :: cs))
  | reference {cs : List Char} (h : Reaches (delimiters ++ signs) cs rest) :
    Makes kw rest (':' :: cs) (.reference, String.ofList (':' :: cs))
  | number {c : Char} {cs : List Char} (h : Reaches (delimiters ++ signs) cs rest)
    (hn : Numeral (c :: cs)) : Makes kw rest (c :: cs) (.number, String.ofList (c :: cs))
  | word {c : Char} {cs : List Char} (hc : c ∉ '"' :: ':' :: (delimiters ++ signs))
    (h : Reaches (delimiters ++ signs) cs rest) (hn : ¬ Numeral (c :: cs)) :
    Makes kw rest (c :: cs) (wordKind kw (Text.lowercase (String.ofList (c :: cs))),
      Text.lowercase (String.ofList (c :: cs)))

/-- The characters of a lexeme, and those between it and the one before. -/
structure Piece where
  gap : List Char
  run : List Char

def Piece.text (p : Piece) : List Char := p.gap ++ p.run

structure Cut where
  pieces : List Piece
  last : List Char

namespace Cut

def text (c : Cut) : List Char := c.pieces.flatMap Piece.text ++ c.last

/-- The tokens are those of the cut, in a text whose first character stands on the given line. -/
structure Yields (kw : Keywords) (line : Nat) (c : Cut) (ts : List Token) : Prop where
  count : c.pieces.length = ts.length
  last : Gap [] c.last
  piece : ∀ before p after t, c.pieces = before ++ p :: after → ts[before.length]? = some t →
    Gap (p.run ++ text ⟨after, c.last⟩) p.gap ∧
    Makes kw (text ⟨after, c.last⟩) p.run t.lexeme ∧
    t.line = line + (before.flatMap Piece.text ++ p.gap).count '\n'

end Cut

section Characters

theorem isBlank_iff {c : Char} : isBlank c = true ↔ c ∈ blanks := by
  simp [isBlank, blanks, or_assoc]

theorem isDelimiter_iff {c : Char} : isDelimiter c = true ↔ c ∈ delimiters := by
  simp [isDelimiter, isBlank, delimiters, blanks, or_assoc]

theorem isSign_iff {c : Char} : Operator.isSign c = true ↔ c ∈ signs := by
  simp [Operator.isSign, Operator.all, Operator.sign, signs]
  grind

theorem endsRun_iff {quoted : Bool} {c : Char} :
    endsRun quoted c = true ↔ c ∈ if quoted then delimiters else delimiters ++ signs := by
  cases quoted <;> simp [endsRun, isDelimiter_iff, isSign_iff]

theorem endsRun_eq_false_iff {quoted : Bool} {c : Char} :
    endsRun quoted c = false ↔ c ∉ if quoted then delimiters else delimiters ++ signs := by
  rw [← Bool.not_eq_true, endsRun_iff]

theorem isSome_fit?_iff (n : Nat) :
    (Text.fit? n).isSome = true ↔ (n : Int) ≤ Int64.maxValue.toInt := by
  have hmin : Int64.minValue.toInt ≤ 0 := by decide
  unfold Text.fit?
  split <;> simp <;> omega

theorem isNumeral_iff_numeral {run : List Char} : isNumeral run = true ↔ Numeral run := by
  rw [isNumeral_iff, isSome_fit?_iff, Numeral]

end Characters

theorem dropWhile_newline {cs rest : List Char} (hcs : '\n' ∉ cs)
    (he : ∀ c ∈ rest.head?, c = '\n') :
    (cs ++ rest).dropWhile (fun d => d != '\n') = rest := by
  have hall : ∀ c ∈ cs, (c != '\n') = true := by
    intro c hc
    simp only [bne_iff_ne]
    rintro rfl
    exact hcs hc
  rw [List.dropWhile_append_of_pos hall]
  cases rest with
  | nil => rfl
  | cons c rest => simp [he c (by simp)]

theorem head_dropWhile {p : Char → Bool} {cs : List Char} :
    ∀ c ∈ (cs.dropWhile p).head?, p c = false := by
  intro c hc
  have h := List.head?_dropWhile_not p cs
  rwa [Option.mem_def.mp hc] at h

namespace Gap

variable {rest x g : List Char}

theorem append (hx : Gap (g ++ rest) x) (hg : Gap rest g) : Gap rest (x ++ g) := by
  induction hx with
  | nil => exact hg
  | blank hc _ ih => exact .blank hc ih
  | comment hcs he _ ih =>
    rw [List.cons_append, List.append_assoc]
    exact .comment hcs (by simpa using he) ih

theorem newline_not_mem_comment {cs : List Char} :
    '\n' ∉ ';' :: cs.takeWhile fun d => d != '\n' := by
  intro hmem
  rcases List.mem_cons.mp hmem with h | hmem
  · cases h
  · exact absurd (List.all_eq_true.mp List.all_takeWhile _ hmem) (by simp)

theorem comment_takeWhile {cs : List Char} (h : cs.dropWhile (fun d => d != '\n') = rest) :
    Gap rest (';' :: cs.takeWhile fun d => d != '\n') := by
  have hcs := List.not_mem_of_not_mem_cons (@newline_not_mem_comment cs)
  have hgap : Gap rest (';' :: ((cs.takeWhile fun d => d != '\n') ++ [])) := by
    refine .comment hcs ?_ .nil
    subst h
    intro c hc
    simpa using head_dropWhile c hc
  rwa [List.append_nil] at hgap

theorem lex_eq (kw : Keywords) (line : Nat) (hg : Gap rest g) :
    lex kw line (g ++ rest) = lex kw (line + g.count '\n') rest := by
  induction hg generalizing line with
  | nil => rfl
  | @blank c gap hc _ ih =>
    have hcount : (c :: gap).count '\n' = [c].count '\n' + gap.count '\n' := by
      rw [← List.count_append, List.singleton_append]
    rw [List.cons_append, lex_blank kw line _ (isBlank_iff.mpr hc), ih, hcount, Nat.add_assoc]
  | @comment cs gap hcs he _ ih =>
    have hcount : (';' :: (cs ++ gap)).count '\n' = gap.count '\n' := by
      simp [List.count_eq_zero.mpr hcs]
    rw [hcount, ← ih line, List.cons_append, List.append_assoc, lex_comment,
      dropWhile_newline hcs he]

end Gap

section Runs

variable {kw : Keywords} {c : Char} {cs rest : List Char}

theorem reaches_iff {quoted : Bool} :
    Reaches (if quoted then delimiters else delimiters ++ signs) cs rest ↔
      (∀ d ∈ cs, endsRun quoted d = false) ∧ ∀ d ∈ rest.head?, endsRun quoted d = true := by
  simp only [endsRun_eq_false_iff, endsRun_iff]
  exact ⟨fun ⟨hw, hu⟩ => ⟨hw, hu⟩, fun ⟨hw, hu⟩ => ⟨hw, hu⟩⟩

theorem ofChar?_eq_operator (hc : c ∈ signs) : Kind.ofChar? c = some .operator := by
  simp only [signs, List.mem_cons, List.not_mem_nil, or_false] at hc
  rcases hc with rfl | rfl | rfl | rfl | rfl | rfl | rfl <;> decide

theorem reaches_start_iff :
    Reaches (if c = '"' then delimiters else delimiters ++ signs) cs rest ↔
      (∀ d ∈ cs, endsRun (c == '"') d = false) ∧
        ∀ d ∈ rest.head?, endsRun (c == '"') d = true := by
  simpa only [beq_iff_eq] using @reaches_iff cs rest (c == '"')

theorem reaches_takeWhile (c : Char) (cs : List Char) :
    Reaches (if c = '"' then delimiters else delimiters ++ signs)
      (cs.takeWhile fun d => !endsRun (c == '"') d)
      (cs.dropWhile fun d => !endsRun (c == '"') d) := by
  refine reaches_start_iff.mpr ⟨fun d hd => ?_, fun d hd => ?_⟩
  · simpa using List.all_eq_true.mp List.all_takeWhile d hd
  · simpa using head_dropWhile d hd

theorem makes_of_ofChar? {k : Kind} (h : Kind.ofChar? c = some k) :
    Makes kw rest [c] (k, String.singleton c) := by
  unfold Kind.ofChar? at h
  split_ifs at h with h₁ h₂ h₃ h₄ h₅
  · cases h; subst h₁; exact .openBracket
  · cases h; subst h₂; exact .closeBracket
  · cases h; subst h₃; exact .openParen
  · cases h; subst h₄; exact .closeParen
  · cases h; exact .operator (isSign_iff.mp h₅)

theorem makes_of_reaches (line : Nat) (hc : endsRun false c = false)
    (h : Reaches (if c = '"' then delimiters else delimiters ++ signs) cs rest) :
    Makes kw rest (c :: cs) (ofRun kw line (c :: cs)).lexeme := by
  by_cases hq : c = '"'
  · subst hq
    have he : (ofRun kw line ('"' :: cs)).lexeme = (.quoted, String.ofList ('"' :: cs)) := by
      simp [ofRun, lexeme]
    exact he ▸ .quoted h
  · rw [if_neg hq] at h
    by_cases hr : c = ':'
    · subst hr
      have he : (ofRun kw line (':' :: cs)).lexeme = (.reference, String.ofList (':' :: cs)) := by
        simp [ofRun, lexeme]
      exact he ▸ .reference h
    · cases hn : isNumeral (c :: cs) with
      | true =>
        have he : (ofRun kw line (c :: cs)).lexeme = (.number, String.ofList (c :: cs)) := by
          simp [ofRun, lexeme, hq, hr, hn]
        exact he ▸ .number h (isNumeral_iff_numeral.mp hn)
      | false =>
        rw [lexeme_ofRun_word kw (by simpa using hq) (by simpa using hr) hn]
        have hw : ¬ Numeral (c :: cs) := by
          rw [← isNumeral_iff_numeral, hn]
          exact Bool.false_ne_true
        have hne : c ∉ delimiters ++ signs := endsRun_eq_false_iff.mp hc
        exact .word (by simp [hq, hr, hne]) h hw

theorem Makes.inv {run : List Char} {l : Lexeme} (h : Makes kw rest run l) :
    (∃ c k, run = [c] ∧ Kind.ofChar? c = some k ∧ l = (k, String.singleton c)) ∨
    (∃ c cs, run = c :: cs ∧ endsRun false c = false ∧
      Reaches (if c = '"' then delimiters else delimiters ++ signs) cs rest ∧
      l = (ofRun kw 0 run).lexeme) := by
  cases h with
  | openBracket => exact .inl ⟨'[', _, rfl, rfl, rfl⟩
  | closeBracket => exact .inl ⟨']', _, rfl, rfl, rfl⟩
  | openParen => exact .inl ⟨'(', _, rfl, rfl, rfl⟩
  | closeParen => exact .inl ⟨')', _, rfl, rfl, rfl⟩
  | operator hc => exact .inl ⟨_, _, rfl, ofChar?_eq_operator hc, rfl⟩
  | quoted h => exact .inr ⟨_, _, rfl, by decide, h, by simp [ofRun, lexeme]⟩
  | reference h => exact .inr ⟨_, _, rfl, by decide, h, by simp [ofRun, lexeme]⟩
  | @number c cs h hn =>
    have hd := hn.1 c (by simp)
    have hq : c ≠ '"' := by rintro rfl; exact absurd hd (by decide)
    have hr : c ≠ ':' := by rintro rfl; exact absurd hd (by decide)
    refine .inr ⟨_, _, rfl, endsRun_of_isDigit hd, by rwa [if_neg hq], ?_⟩
    simp [ofRun, lexeme, hq, hr, isNumeral_iff_numeral.mpr hn]
  | @word c cs hc h hn =>
    simp only [List.mem_cons, not_or] at hc
    obtain ⟨hq, hr, hne⟩ := hc
    refine .inr ⟨_, _, rfl, endsRun_eq_false_iff.mpr hne, by rwa [if_neg hq], ?_⟩
    rw [← isNumeral_iff_numeral, Bool.not_eq_true] at hn
    rw [lexeme_ofRun_word kw (by simpa using hq) (by simpa using hr) hn]

theorem Makes.lex_eq {run : List Char} {l : Lexeme} (line : Nat) (h : Makes kw rest run l) :
    lex kw line (run ++ rest) = ⟨l.1, l.2, line⟩ :: lex kw line rest := by
  obtain ⟨c, k, rfl, hk, rfl⟩ | ⟨c, cs, rfl, hc, hr, rfl⟩ := h.inv
  · exact lex_char kw line rest hk
  · obtain ⟨hcs, he⟩ := reaches_start_iff.mp hr
    have hrun : IsRun (c :: cs) := ⟨hc, hcs⟩
    rw [lex_run kw line hrun he, ofRun_eq]

theorem Makes.count_newline {run : List Char} {l : Lexeme} (h : Makes kw rest run l) :
    run.count '\n' = 0 := by
  rw [List.count_eq_zero]
  obtain ⟨c, k, rfl, hk, -⟩ | ⟨c, cs, rfl, hc, hr, -⟩ := h.inv
  · rw [List.mem_singleton]
    rintro rfl
    cases hk
  · intro hmem
    rcases List.mem_cons.mp hmem with rfl | hmem
    · cases hc
    · exact hr.within _ hmem (by split_ifs <;> decide)

end Runs

namespace Cut

variable {kw : Keywords} {line : Nat} {p : Piece} {ps : List Piece} {last : List Char}
  {t : Token} {ts : List Token}

theorem text_cons : text ⟨p :: ps, last⟩ = p.gap ++ (p.run ++ text ⟨ps, last⟩) := by
  simp [text, Piece.text]

theorem yields_nil : Yields kw line ⟨[], last⟩ [] ↔ Gap [] last := by
  refine ⟨fun h => h.last, fun h => ⟨rfl, h, ?_⟩⟩
  intro before p after t hp
  simp at hp

theorem yields_cons :
    Yields kw line ⟨p :: ps, last⟩ (t :: ts) ↔
      Gap (p.run ++ text ⟨ps, last⟩) p.gap ∧ Makes kw (text ⟨ps, last⟩) p.run t.lexeme ∧
      t.line = line + p.gap.count '\n' ∧ Yields kw t.line ⟨ps, last⟩ ts := by
  constructor
  · rintro ⟨hcount, hlast, hpiece⟩
    obtain ⟨hg, hm, hl⟩ := hpiece [] p ps t rfl rfl
    refine ⟨hg, hm, by simpa using hl, by simpa using hcount, hlast, ?_⟩
    intro before p' after t' hp ht
    obtain ⟨hg', hm', hl'⟩ :=
      hpiece (p :: before) p' after t' (congrArg (p :: ·) hp) (by simpa using ht)
    refine ⟨hg', hm', ?_⟩
    rw [hl', hl]
    simp [Piece.text, hm.count_newline]
    omega
  · rintro ⟨hg, hm, hl, hcount, hlast, hpiece⟩
    refine ⟨by simpa using hcount, hlast, ?_⟩
    intro before p' after t' hp ht
    cases before with
    | nil =>
      cases hp
      cases ht
      exact ⟨hg, hm, by simpa using hl⟩
    | cons q before =>
      cases hp
      obtain ⟨hg', hm', hl'⟩ := hpiece before p' after t' rfl (by simpa using ht)
      refine ⟨hg', hm', ?_⟩
      rw [hl', hl]
      simp [Piece.text, hm.count_newline]
      omega

/-- Only one list of tokens is right for a cut: the one the text is split into. -/
theorem Yields.lex_eq {c : Cut} (h : c.Yields kw line ts) : lex kw line c.text = ts := by
  obtain ⟨ps, last⟩ := c
  induction ps generalizing line ts with
  | nil =>
    obtain rfl : ts = [] := List.eq_nil_of_length_eq_zero h.count.symm
    have hgap := yields_nil.mp h
    have heq := hgap.lex_eq kw line
    rw [List.append_nil] at heq
    simpa [text, lex] using heq
  | cons p ps ih =>
    cases ts with
    | nil => cases h.count
    | cons t ts =>
      obtain ⟨hg, hm, hl, hrest⟩ := yields_cons.mp h
      rw [text_cons, hg.lex_eq, ← hl, hm.lex_eq, ih hrest]
      rfl

/-- A cut of what follows some characters, these put into the gap that comes first. -/
def delay (x : List Char) : Cut → Cut
  | ⟨[], last⟩ => ⟨[], x ++ last⟩
  | ⟨p :: ps, last⟩ => ⟨⟨x ++ p.gap, p.run⟩ :: ps, last⟩

theorem text_delay (x : List Char) (c : Cut) : (c.delay x).text = x ++ c.text := by
  obtain ⟨_ | ⟨p, ps⟩, last⟩ := c <;> simp [delay, text, Piece.text]

theorem Yields.delay {c : Cut} {x : List Char} (hx : Gap c.text x)
    (h : c.Yields kw (line + x.count '\n') ts) : (c.delay x).Yields kw line ts := by
  obtain ⟨_ | ⟨p, ps⟩, last⟩ := c
  · obtain rfl : ts = [] := List.eq_nil_of_length_eq_zero h.count.symm
    rw [yields_nil] at h
    refine yields_nil.mpr (.append ?_ h)
    simpa [text] using hx
  · cases ts with
    | nil => cases h.count
    | cons t ts =>
      obtain ⟨hg, hm, hl, hrest⟩ := yields_cons.mp h
      rw [text_cons] at hx
      refine yields_cons.mpr ⟨hx.append hg, hm, ?_, hrest⟩
      rw [hl, List.count_append, Nat.add_assoc]

theorem exists_yields (kw : Keywords) (line : Nat) (cs : List Char) :
    ∃ c : Cut, c.text = cs ∧ c.Yields kw line (lex kw line cs) := by
  -- What is dropped goes into the gap that comes next, a token makes a piece of its own.
  fun_induction lex kw line cs with
  | case1 line => exact ⟨⟨[], []⟩, rfl, yields_nil.mpr .nil⟩
  | case2 line cs ih =>
    obtain ⟨cut, rfl, hcut⟩ := ih
    exact ⟨cut.delay ['\n'], text_delay _ cut, hcut.delay (.blank (by decide) .nil)⟩
  | case3 line c cs hn hb ih =>
    obtain ⟨cut, rfl, hcut⟩ := ih
    refine ⟨cut.delay [c], text_delay _ cut, Yields.delay (.blank (isBlank_iff.mp hb) .nil) ?_⟩
    rwa [List.count_eq_zero.mpr (by simpa using Ne.symm hn)]
  | case4 line cs hn hb ih =>
    obtain ⟨cut, ht, hcut⟩ := ih
    refine ⟨cut.delay (';' :: cs.takeWhile fun d => d != '\n'), ?_, ?_⟩
    · rw [text_delay, ht, List.cons_append, List.takeWhile_append_dropWhile]
    · apply Yields.delay (.comment_takeWhile ht.symm)
      rwa [List.count_eq_zero.mpr Gap.newline_not_mem_comment]
  | case5 line c cs hn hb hc k hk ih =>
    obtain ⟨cut, rfl, hcut⟩ := ih
    refine ⟨⟨⟨[], [c]⟩ :: cut.pieces, cut.last⟩, text_cons, ?_⟩
    exact yields_cons.mpr ⟨.nil, makes_of_ofChar? hk, rfl, hcut⟩
  | case6 line c cs hn hb hc hk more ih =>
    obtain ⟨cut, ht, hcut⟩ := ih
    have hstart : endsRun false c = false := by
      rw [endsRun_false_eq]
      simp [hb, hc, hk]
    have hreach := ht ▸ reaches_takeWhile c cs
    refine ⟨⟨⟨[], c :: cs.takeWhile more⟩ :: cut.pieces, cut.last⟩, ?_, yields_cons.mpr ?_⟩
    · rw [text_cons, ht, List.nil_append, List.cons_append, List.takeWhile_append_dropWhile]
    · refine ⟨.nil, makes_of_reaches line hstart hreach, ?_, ?_⟩
      · rw [ofRun_eq]; rfl
      · rwa [ofRun_eq]

end Cut

/-- Main statement. A text has the given tokens if there is a cut of it that is right for them: no
other tokens are possible, and some always are. -/
theorem tokenize_eq_iff (kw : Keywords) (source : String) (ts : List Token) :
    tokenize kw source = ts ↔ ∃ c : Cut, c.text = source.toList ∧ c.Yields kw 0 ts := by
  constructor
  · rintro rfl
    exact Cut.exists_yields kw 0 source.toList
  · rintro ⟨c, hc, h⟩
    rw [tokenize, ← hc, h.lex_eq]

example : tokenize .standard "To ; first\r\n\"a+b:c" =
    [⟨.opening, "to", 0⟩, ⟨.quoted, "\"a+b:c", 1⟩] := by decide +kernel

end LogoLang.Token
