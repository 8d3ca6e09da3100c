import LogoLang.Text.Lowercase

/-!
What lower-casing does and keeps. Main statements: a code point gets the partner that a range of the
table has for it, and stays as it is if there is none; a text in lower case stays as it is; and a
character below the small letters (a blank, a bracket, a sign, a quote, a digit) is in the result
only where it was in the text.
-/

set_option autoImplicit false

namespace LogoLang.Text

/-- No lower-case partner that the first range gives is a capital of the second. -/
def CaseRange.apart (r s : CaseRange) : Bool :=
  Nat.blt (r.target + (r.last - r.first)) s.first || Nat.blt s.last r.target ||
    ((Nat.beq r.first r.last || Nat.beq r.step 2) && Nat.beq s.step 2 &&
      Nat.beq ((r.target + s.first) % 2) 1)

theorem lowerTable_apart : (lowerTable.all fun r => lowerTable.all r.apart) = true := by
  decide +kernel

/-- The capital dotted I has no entry in the table, and is no partner either. -/
theorem lowerTable_apart_dottedI :
    (lowerTable.all fun r => r.apart ⟨0x130, 0x130, 1, 0⟩) = true := by
  decide +kernel

theorem lowerTable_targets :
    ∀ r ∈ lowerTable, 0x61 ≤ r.target ∧ (r.target + (r.last - r.first) < 0xD800 ∨
      0xE000 ≤ r.target ∧ r.target + (r.last - r.first) < 0x110000) := by
  decide +kernel

theorem CaseRange.lower?_eq_some {r : CaseRange} {c d : Nat} (h : r.lower? c = some d) :
    r.first ≤ c ∧ c ≤ r.last ∧ (c - r.first) % r.step = 0 ∧ d = r.target + (c - r.first) := by
  simp only [lower?] at h
  split at h
  · rename_i hc
    simp only [Option.some.injEq] at h
    exact ⟨hc.1, hc.2.1, hc.2.2, h.symm⟩
  · cases h

theorem CaseRange.lower?_of_apart {r s : CaseRange} {c d : Nat} (ha : r.apart s = true)
    (h : r.lower? c = some d) : s.lower? d = none := by
  obtain ⟨hf, hl, hm, rfl⟩ := lower?_eq_some h
  cases hs : s.lower? (r.target + (c - r.first)) with
  | none => rfl
  | some e =>
    obtain ⟨hf', hl', hm', -⟩ := lower?_eq_some hs
    simp only [apart, Bool.or_eq_true, Bool.and_eq_true, Nat.blt_eq, Nat.beq_eq] at ha
    rcases ha with (ha | ha) | ⟨⟨hr, hs2⟩, hp⟩
    · omega
    · omega
    · rw [hs2] at hm'
      rcases hr with hr | hr
      · omega
      · rw [hr] at hm
        omega

theorem lowerCode_cases (c : Nat) :
    lowerCode c = c ∨ ∃ r ∈ lowerTable, r.lower? c = some (lowerCode c) := by
  unfold lowerCode
  split
  · rename_i r hr
    cases hl : r.lower? c with
    | none => exact .inl rfl
    | some d => exact .inr ⟨r, List.mem_of_find?_eq_some hr, by simp [hl]⟩
  · exact .inl rfl

theorem lowerCode_of_lower? {r : CaseRange} (hr : r ∈ lowerTable) {c d : Nat}
    (h : r.lower? c = some d) : lowerCode c = d := by
  obtain ⟨hf, hl, -, -⟩ := CaseRange.lower?_eq_some h
  have hr' := find?_of_contains increasing_lowerTable hr (CharRange.contains_iff.2 ⟨hf, hl⟩)
  have hfind : (lowerTable.find? fun r => decide (c ≤ r.last)) = some r := hr'
  simp only [lowerCode, hfind, h, Option.getD_some]

/-- The table, and nothing else, says what becomes of a code point. -/
theorem lowerCode_eq_iff (c d : Nat) :
    lowerCode c = d ↔
      (∃ r ∈ lowerTable, r.lower? c = some d) ∨ c = d ∧ ∀ r ∈ lowerTable, r.lower? c = none := by
  constructor
  · rintro rfl
    rcases lowerCode_cases c with he | h
    · by_cases hex : ∃ r ∈ lowerTable, ∃ d, r.lower? c = some d
      · obtain ⟨r, hr, d, hd⟩ := hex
        exact .inl ⟨r, hr, (lowerCode_of_lower? hr hd).symm ▸ hd⟩
      · refine .inr ⟨he.symm, fun r hr => ?_⟩
        cases hd : r.lower? c with
        | none => rfl
        | some d => exact absurd ⟨r, hr, d, hd⟩ hex
    · exact .inl h
  · rintro (⟨r, hr, h⟩ | ⟨rfl, hall⟩)
    · exact lowerCode_of_lower? hr h
    · rcases lowerCode_cases c with h | ⟨r, hr, h⟩
      · exact h
      · rw [hall r hr] at h
        cases h

theorem lowerCode_lowerCode (c : Nat) : lowerCode (lowerCode c) = lowerCode c := by
  rcases lowerCode_cases c with h | ⟨r, hr, h⟩
  · rw [h, h]
  · rcases lowerCode_cases (lowerCode c) with h' | ⟨s, hs, h'⟩
    · exact h'
    · have ha := List.all_eq_true.mp (List.all_eq_true.mp lowerTable_apart r hr) s hs
      rw [CaseRange.lower?_of_apart ha h] at h'
      cases h'

theorem lowerCode_ne_dottedI {c : Nat} (hc : c ≠ 0x130) : lowerCode c ≠ 0x130 := by
  intro he
  rcases lowerCode_cases c with h | ⟨r, hr, h⟩
  · exact hc (h.symm.trans he)
  · have ha := CaseRange.lower?_of_apart (List.all_eq_true.mp lowerTable_apart_dottedI r hr) h
    rw [he] at ha
    simp [CaseRange.lower?] at ha

theorem lowerCode_eq_or_le (c : Nat) : lowerCode c = c ∨ 0x61 ≤ lowerCode c := by
  rcases lowerCode_cases c with h | ⟨r, hr, h⟩
  · exact .inl h
  · obtain ⟨-, -, -, hd⟩ := CaseRange.lower?_eq_some h
    have ht := (lowerTable_targets r hr).1
    exact .inr (by omega)

theorem lowerCode_isValidChar {c : Nat} (hc : c.isValidChar) : (lowerCode c).isValidChar := by
  rcases lowerCode_cases c with h | ⟨r, hr, h⟩
  · rwa [h]
  · obtain ⟨hf, hl, -, hd⟩ := CaseRange.lower?_eq_some h
    have ht := (lowerTable_targets r hr).2
    simp only [Nat.isValidChar]
    omega

def Settled (c : Char) : Prop := lowerChar c = [c] ∧ c ≠ capitalSigma

theorem toNat_lowered (c : Char) : (Char.ofNat (lowerCode c.toNat)).toNat = lowerCode c.toNat := by
  have hv : (lowerCode c.toNat).isValidChar := lowerCode_isValidChar c.valid
  unfold Char.ofNat
  rw [dif_pos hv]
  rfl

theorem settled_lowered {c : Char} (hc : c ≠ capitalDottedI) :
    Settled (Char.ofNat (lowerCode c.toNat)) := by
  have hn : c.toNat ≠ 0x130 := fun h => hc (Char.toNat_inj.mp (h.trans (by decide)))
  have hi : Char.ofNat (lowerCode c.toNat) ≠ capitalDottedI := by
    intro h
    have h' := congrArg Char.toNat h
    rw [toNat_lowered] at h'
    exact lowerCode_ne_dottedI hn (h'.trans (by decide))
  constructor
  · simp only [lowerChar, hi, if_false, toNat_lowered, lowerCode_lowerCode]
  · intro h
    have h' := congrArg Char.toNat h
    rw [toNat_lowered] at h'
    have h2 := lowerCode_lowerCode c.toNat
    rw [h'] at h2
    exact absurd h2 (by decide +kernel)

theorem settled_of_mem_lowerChar {c d : Char} (h : d ∈ lowerChar c) : Settled d := by
  unfold lowerChar at h
  split at h
  · simp only [List.mem_cons, List.not_mem_nil, or_false] at h
    rcases h with rfl | rfl
    · exact ⟨by decide +kernel, by decide⟩
    · exact ⟨by decide +kernel, by decide⟩
  · rename_i hc
    rw [List.mem_singleton.mp h]
    exact settled_lowered hc

theorem lowerChar_of_mem_lt {c d : Char} (h : d ∈ lowerChar c) (hd : d.toNat < 0x61) :
    lowerChar c = [c] := by
  unfold lowerChar at h ⊢
  split at h
  · simp only [List.mem_cons, List.not_mem_nil, or_false] at h
    rcases h with rfl | rfl
    · exact absurd hd (by decide)
    · exact absurd hd (by decide)
  · rename_i hc
    rw [List.mem_singleton.mp h, toNat_lowered] at hd
    have he : lowerCode c.toNat = c.toNat := by
      rcases lowerCode_eq_or_le c.toNat with h' | h'
      · exact h'
      · omega
    simp [hc, he]

/-- What becomes of one character: a nonempty piece that lower-casing leaves as it is. A character
below the small letters is in it only if it is the character itself. -/
theorem lowercaseAfter_cons (before : List Char) (c : Char) (cs : List Char) :
    ∃ piece, lowercaseAfter before (c :: cs) = piece ++ lowercaseAfter (c :: before) cs ∧
      piece ≠ [] ∧ (∀ d ∈ piece, Settled d) ∧ (∀ d ∈ piece, d.toNat < 0x61 → piece = [c]) := by
  have hsigma : ∀ d ∈ [finalSigma, smallSigma], Settled d ∧ ¬ d.toNat < 0x61 := by
    intro d hd
    simp only [List.mem_cons, List.not_mem_nil, or_false] at hd
    rcases hd with rfl | rfl
    · exact ⟨⟨by decide +kernel, by decide⟩, by decide⟩
    · exact ⟨⟨by decide +kernel, by decide⟩, by decide⟩
  refine ⟨_, rfl, ?_⟩
  split
  · refine ⟨by simp, fun d hd => (hsigma d ?_).1, fun d hd hlt => absurd hlt (hsigma d ?_).2⟩
    · rw [List.mem_singleton.mp hd]
      split <;> simp
    · rw [List.mem_singleton.mp hd]
      split <;> simp
  · refine ⟨?_, fun d hd => settled_of_mem_lowerChar hd, fun d hd => lowerChar_of_mem_lt hd⟩
    unfold lowerChar
    split <;> simp

theorem settled_of_mem_lowercaseAfter {before cs : List Char} {d : Char}
    (h : d ∈ lowercaseAfter before cs) : Settled d := by
  induction cs generalizing before with
  | nil => cases h
  | cons c cs ih =>
    obtain ⟨piece, he, -, hs, -⟩ := lowercaseAfter_cons before c cs
    rw [he, List.mem_append] at h
    rcases h with h | h
    · exact hs d h
    · exact ih h

theorem lowercaseAfter_of_settled {before cs : List Char} (h : ∀ d ∈ cs, Settled d) :
    lowercaseAfter before cs = cs := by
  induction cs generalizing before with
  | nil => rfl
  | cons c cs ih =>
    have hc := h c (by simp)
    simp only [lowercaseAfter, hc.2, if_false, hc.1]
    rw [ih fun d hd => h d (by simp [hd])]
    rfl

theorem mem_of_mem_lowercaseAfter {before cs : List Char} {d : Char}
    (h : d ∈ lowercaseAfter before cs) (hd : d.toNat < 0x61) : d ∈ cs := by
  induction cs generalizing before with
  | nil => cases h
  | cons c cs ih =>
    obtain ⟨piece, he, -, -, hp⟩ := lowercaseAfter_cons before c cs
    rw [he, List.mem_append] at h
    rcases h with h | h
    · rw [hp d h hd] at h
      simp [List.mem_singleton.mp h]
    · simp [ih h]

theorem head?_of_head?_lowercaseAfter {before cs : List Char} {d : Char}
    (h : (lowercaseAfter before cs).head? = some d) (hd : d.toNat < 0x61) : cs.head? = some d := by
  cases cs with
  | nil => cases h
  | cons c cs =>
    obtain ⟨piece, he, hn, -, hp⟩ := lowercaseAfter_cons before c cs
    cases piece with
    | nil => exact absurd rfl hn
    | cons e piece =>
      rw [he] at h
      simp only [List.cons_append, List.head?_cons, Option.some.injEq] at h
      subst h
      have hc := hp e (by simp) hd
      simp only [List.cons.injEq] at hc
      simp [hc.1]

theorem lowercaseAfter_eq_self {before cs : List Char}
    (h : ∀ d ∈ lowercaseAfter before cs, d.toNat < 0x61) : lowercaseAfter before cs = cs := by
  induction cs generalizing before with
  | nil => rfl
  | cons c cs ih =>
    obtain ⟨piece, he, hn, -, hp⟩ := lowercaseAfter_cons before c cs
    rw [he] at h ⊢
    have hpc : piece = [c] := by
      cases piece with
      | nil => exact absurd rfl hn
      | cons d piece => exact hp d (by simp) (h d (by simp))
    rw [ih fun d hd => h d (List.mem_append.mpr (.inr hd)), hpc]
    rfl

theorem lowercaseAfter_ne_nil {before cs : List Char} (h : cs ≠ []) :
    lowercaseAfter before cs ≠ [] := by
  cases cs with
  | nil => exact absurd rfl h
  | cons c cs =>
    obtain ⟨piece, he, hn, -⟩ := lowercaseAfter_cons before c cs
    rw [he]
    simp [hn]

theorem lowercase_lowercase (s : String) : lowercase (lowercase s) = lowercase s := by
  simp only [lowercase, String.toList_ofList]
  rw [lowercaseAfter_of_settled fun d hd => settled_of_mem_lowercaseAfter hd]

end LogoLang.Text
