import LogoLang.Proofs.Token.Lexeme
import LogoLang.Proofs.Token.Seam

/-!
Normal texts. The texts of some tokens, with a space after each but the last, are a text on one
line. Main statement: it is split into these tokens again, so it is the same text for all texts
with the same lexemes, and for no other.
-/

set_option autoImplicit false

namespace LogoLang.Token

/-- The text of the tokens, one space apart: without comments, without further blanks, and with
words and keywords in lower case. -/
def normal (kw : Keywords) (source : String) : String :=
  " ".intercalate ((tokenize kw source).map Token.text)

variable {kw : Keywords} {ls : List Lexeme} {source other : String}

/-- A space is enough to keep two lexemes apart. -/
theorem spells_intercalate (h : ∀ l ∈ ls, l.Stable kw) :
    Spells kw (" ".intercalate (ls.map Prod.snd)).toList ls := by
  induction ls with
  | nil => exact .nil
  | cons l ls ih =>
    have hl : l.Stable kw := h l (by simp)
    have hls := ih fun m hm => h m (by simp [hm])
    cases ls with
    | nil =>
      rw [List.map_cons, List.map_nil, String.intercalate_singleton]
      exact hl
    | cons m ls =>
      rw [List.map_cons, List.map_cons, String.intercalate_cons_cons, ← List.map_cons,
        String.toList_append, String.toList_append, List.append_assoc]
      exact hl.append (.blank (by decide) hls) (breaks_cons (by decide))

theorem map_lexeme_tokenize_normal (kw : Keywords) (source : String) :
    (tokenize kw (normal kw source)).map lexeme = (tokenize kw source).map lexeme := by
  have hstable : ∀ l ∈ (tokenize kw source).map lexeme, l.Stable kw := by
    intro l hl
    obtain ⟨t, ht, rfl⟩ := List.mem_map.1 hl
    exact stable_of_mem_lex ht
  have hspells := (spells_intercalate hstable).lexemes_eq
  rwa [List.map_map] at hspells

theorem Lexeme.Shape.newline_not_mem {l : Lexeme} (h : l.Shape kw) : '\n' ∉ l.2.toList := by
  have hrun {cs : List Char} (hcs : ∀ d ∈ cs, endsRun false d = false) : '\n' ∉ cs :=
    fun hn => absurd (hcs '\n' hn) (by decide)
  cases h with
  | @char c k hk =>
    simp only [String.toList_singleton, List.mem_singleton]
    rintro rfl
    cases hk
  | quoted hd =>
    simp only [String.toList_ofList, List.mem_cons, not_or]
    exact ⟨by decide, fun hn => absurd (hd '\n' hn) (by decide)⟩
  | reference hd =>
    simp only [String.toList_ofList, List.mem_cons, not_or]
    exact ⟨by decide, hrun hd⟩
  | number hne hn =>
    rw [String.toList_ofList]
    exact hrun fun d hd => endsRun_of_isDigit ((isNumeral_iff.1 hn).1 d hd)
  | word hne hd hq hr hn =>
    rw [Text.lowercase, String.toList_ofList, String.toList_ofList]
    exact fun hmem => hrun hd (Text.mem_of_mem_lowercaseAfter hmem (by decide))

theorem newline_not_mem_intercalate {ss : List String} (h : ∀ s ∈ ss, '\n' ∉ s.toList) :
    '\n' ∉ (" ".intercalate ss).toList := by
  induction ss with
  | nil => simp
  | cons s ss ih =>
    have hs := h s (by simp)
    have hss := ih fun t ht => h t (by simp [ht])
    cases ss with
    | nil => rwa [String.intercalate_singleton]
    | cons t ss =>
      rw [String.intercalate_cons_cons]
      simp only [String.toList_append, List.mem_append, not_or]
      exact ⟨⟨hs, by decide⟩, hss⟩

theorem newline_not_mem_normal (kw : Keywords) (source : String) :
    '\n' ∉ (normal kw source).toList := by
  refine newline_not_mem_intercalate fun s hs => ?_
  obtain ⟨t, ht, rfl⟩ := List.mem_map.1 hs
  exact (shape_of_mem_lex ht).newline_not_mem

theorem normal_eq_of_lexemes
    (h : (tokenize kw other).map lexeme = (tokenize kw source).map lexeme) :
    normal kw other = normal kw source := by
  have htext := congrArg (List.map Prod.snd) h
  rw [List.map_map, List.map_map] at htext
  exact congrArg " ".intercalate htext

theorem map_mapLine_eq_map_lexeme (ts : List Token) :
    ts.map (mapLine fun _ => 0) = (ts.map lexeme).map fun l => ⟨l.1, l.2, 0⟩ := by
  rw [List.map_map]
  rfl

/-- Main statement. A normal text has the tokens that it was made from, all on its first line. Two
texts have the same normal text if and only if their tokens are of the same kinds and texts. -/
theorem tokenize_normal (kw : Keywords) (source : String) :
    tokenize kw (normal kw source) = (tokenize kw source).map (mapLine fun _ => 0) ∧
    ∀ other, normal kw other = normal kw source ↔
      (tokenize kw other).map lexeme = (tokenize kw source).map lexeme := by
  have hsame := map_lexeme_tokenize_normal kw source
  constructor
  · have hfirst : ∀ t ∈ tokenize kw (normal kw source), t.mapLine (fun _ => 0) = t := by
      intro t ht
      have hle := line_le_of_mem_lex ht
      rw [List.count_eq_zero.2 (newline_not_mem_normal kw source)] at hle
      rw [mapLine, ← Nat.le_zero.1 hle]
    calc tokenize kw (normal kw source)
        = (tokenize kw (normal kw source)).map (mapLine fun _ => 0) := by
          rw [List.map_congr_left hfirst, List.map_id']
      _ = (tokenize kw source).map (mapLine fun _ => 0) := by
          rw [map_mapLine_eq_map_lexeme, hsame, ← map_mapLine_eq_map_lexeme]
  · refine fun other => ⟨fun h => ?_, normal_eq_of_lexemes⟩
    rw [← map_lexeme_tokenize_normal kw other, h, hsame]

example : normal .standard "To ; first\r\n\"a+b:c  9223372036854775808-:" =
    "to \"a+b:c 9223372036854775808 - :" := by decide +kernel

end LogoLang.Token
