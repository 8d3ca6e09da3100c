import LogoLang.Token.Lexer

/-!
Texts put together. No token, blank or comment goes past the end of a line. Main statement: the
tokens of two texts with a newline between them are those of the first, then those of the second on
later lines.
-/

set_option autoImplicit false

namespace LogoLang.Token

def mapLine (f : Nat → Nat) (t : Token) : Token := { t with line := f t.line }

theorem ofRun_mapLine (kw : Keywords) (f : Nat → Nat) (line : Nat) (run : List Char) :
    (ofRun kw line run).mapLine f = ofRun kw (f line) run := by
  simp only [ofRun]
  repeat' split
  all_goals rfl

theorem lex_add (kw : Keywords) (line k : Nat) (cs : List Char) :
    lex kw (line + k) cs = (lex kw line cs).map (mapLine (· + k)) := by
  fun_induction lex kw line cs with
  | case1 => simp [lex]
  | case2 line cs ih =>
    rw [← ih, lex, if_pos rfl]
    congr 1
    omega
  | case3 line c cs hn hb ih => simp [lex, hn, hb, ih]
  | case4 line cs hn hb ih => simp [lex, hb, ih]
  | case5 line c cs hn hb hc kind hk ih => simp [lex, hn, hb, hc, hk, ih, mapLine]
  | case6 line c cs hn hb hc hk more ih =>
    rw [lex.eq_def]
    simp [hn, hb, hc, hk, ih, ofRun_mapLine, more]

theorem takeWhile_append_break {p : Char → Bool} {c : Char} (h : p c = false) (as bs : List Char) :
    (as ++ c :: bs).takeWhile p = as.takeWhile p ∧
      (as ++ c :: bs).dropWhile p = as.dropWhile p ++ c :: bs := by
  induction as with
  | nil => simp [h]
  | cons a as ih =>
    cases ha : p a with
    | true => simp [ha, ih]
    | false => simp [ha]

theorem count_dropWhile {p : Char → Bool} {c : Char} (h : p c = false) (cs : List Char) :
    (cs.dropWhile p).count c = cs.count c := by
  induction cs with
  | nil => rfl
  | cons d ds ih =>
    cases hd : p d with
    | true =>
      have hne : d ≠ c := by
        rintro rfl
        simp [h] at hd
      simp [hd, ih, hne]
    | false => simp [hd]

theorem lex_append_newline (kw : Keywords) (line : Nat) (as bs : List Char) :
    lex kw line (as ++ '\n' :: bs) =
      lex kw line as ++ lex kw (line + (as.count '\n' + 1)) bs := by
  fun_induction lex kw line as with
  | case1 line => simp [lex]
  | case2 line cs ih =>
    rw [List.cons_append, lex, if_pos rfl, ih, List.count_cons_self]
    congr 2
    omega
  | case3 line c cs hn hb ih =>
    simp [lex, hn, hb, ih]
  | case4 line cs hn hb ih =>
    have ht := takeWhile_append_break (p := fun d => d != '\n') (c := '\n') (by simp) cs bs
    have hc := count_dropWhile (p := fun d => d != '\n') (c := '\n') (by simp) cs
    simp [lex, hb, ht, ih, hc]
  | case5 line c cs hn hb hc kind hk ih =>
    simp [lex, hn, hb, hc, hk, ih]
  | case6 line c cs hn hb hc hk more ih =>
    have hm : more '\n' = false := by simp [more, endsRun, isDelimiter, isBlank]
    have ht := takeWhile_append_break hm cs bs
    have hcount := count_dropWhile hm cs
    rw [hcount] at ih
    rw [List.cons_append, lex.eq_def]
    simp only [hn, hb, hc, hk, if_false, Bool.false_eq_true]
    change ofRun kw line (c :: (cs ++ '\n' :: bs).takeWhile more) ::
      lex kw line ((cs ++ '\n' :: bs).dropWhile more) = _
    rw [ht.1, ht.2, ih, List.count_cons_of_ne hn]
    rfl

theorem tokenize_append_newline (kw : Keywords) (a b : String) :
    tokenize kw (a ++ "\n" ++ b) =
      tokenize kw a ++ (tokenize kw b).map (mapLine (· + (a.toList.count '\n' + 1))) := by
  have h := lex_append_newline kw 0 a.toList b.toList
  rw [lex_add] at h
  simpa [tokenize] using h

theorem line_ofRun (kw : Keywords) (line : Nat) (run : List Char) :
    (ofRun kw line run).line = line :=
  (congrArg Token.line (ofRun_mapLine kw (fun _ => line) line run)).symm

/-- No token stands further down than the text has newlines. -/
theorem line_le_of_mem_lex {kw : Keywords} {line : Nat} {cs : List Char} {t : Token}
    (h : t ∈ lex kw line cs) : t.line ≤ line + cs.count '\n' := by
  fun_induction lex kw line cs with
  | case1 => cases h
  | case2 line cs ih =>
    rw [List.count_cons_self]
    have hle := ih h
    omega
  | case3 line c cs hn hb ih =>
    rw [List.count_cons_of_ne hn]
    exact ih h
  | case4 line cs hn hb ih =>
    have hc := count_dropWhile (p := fun d => d != '\n') (c := '\n') (by simp) cs
    rw [List.count_cons_of_ne hn, ← hc]
    exact ih h
  | case5 line c cs hn hb hc kind hk ih =>
    rw [List.count_cons_of_ne hn]
    rcases List.mem_cons.1 h with rfl | h
    · exact Nat.le_add_right line _
    · exact ih h
  | case6 line c cs hn hb hc hk more ih =>
    have hm : more '\n' = false := by simp [more, endsRun, isDelimiter, isBlank]
    rw [List.count_cons_of_ne hn, ← count_dropWhile hm cs]
    rcases List.mem_cons.1 h with rfl | h
    · rw [line_ofRun]
      exact Nat.le_add_right line _
    · exact ih h

/-- Main statement. Whatever the first text ends in, be it a word, a lone quote or colon, a comment
or a carriage return, the newline ends it: the second text is read as it is read alone, on later
lines. As long as 32 bits can count the lines, they can hold the line of every token. -/
theorem tokens_part_at_newline (kw : Keywords) (a b : String)
    (h : a.toList.count '\n' + b.toList.count '\n' < UInt32.size - 1) :
    tokenize kw (a ++ "\n" ++ b) =
      tokenize kw a ++ (tokenize kw b).map (mapLine (· + (1 + a.toList.count '\n'))) ∧
    ∀ t ∈ tokenize kw (a ++ "\n" ++ b), t.line < UInt32.size := by
  constructor
  · rw [tokenize_append_newline, Nat.add_comm 1]
  · intro t ht
    have hline := line_le_of_mem_lex ht
    simp only [String.toList_append, List.count_append] at hline
    have hone : "\n".toList.count '\n' = 1 := rfl
    omega

/-- A lone quote at the end of a text quotes nothing of the next one. -/
theorem tokens_part_at_newline_lone :
    "; one\r\nprint \"".toList.count '\n' + ":\n; two".toList.count '\n' < UInt32.size - 1 ∧
    tokenize .standard ("; one\r\nprint \"" ++ "\n" ++ ":\n; two") =
      [⟨.word, "print", 1⟩, ⟨.quoted, "\"", 1⟩, ⟨.reference, ":", 2⟩] := by
  have h : "; one\r\nprint \"".toList.count '\n' + ":\n; two".toList.count '\n' <
      UInt32.size - 1 := by
    decide
  refine ⟨h, (tokens_part_at_newline .standard _ _ h).1.trans ?_⟩
  decide +kernel

end LogoLang.Token
