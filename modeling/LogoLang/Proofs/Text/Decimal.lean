import LogoLang.Text.Decimal

/-!
Numerals. Main statements: the text of a number reads as that number, and a run of digits in range
reads as its value.
-/

set_option autoImplicit false

namespace LogoLang.Text

@[simp] theorem fit?_toInt (n : Int64) : fit? n.toInt = some n := by
  have h : Int64.minValue.toInt ≤ n.toInt ∧ n.toInt ≤ Int64.maxValue.toInt :=
    ⟨n.minValue_le_toInt, n.toInt_le⟩
  simp only [fit?, if_pos h, Int64.ofInt_toInt]

theorem fit?_eq_some {i : Int} {n : Int64} (h : fit? i = some n) : n.toInt = i := by
  unfold fit? at h
  split at h
  · rename_i hi
    cases h
    exact Int64.toInt_ofInt_of_le hi.1 (Int.lt_add_one_of_le hi.2)
  · cases h

theorem isDigit_of_mem_natText {n : Nat} {c : Char} (h : c ∈ (natText n).toList) :
    c.isDigit = true := by
  simp only [natText, String.toList_ofList] at h
  exact Nat.isDigit_of_mem_toDigits (by decide) (by decide) h

theorem toList_natText_ne_nil (n : Nat) : (natText n).toList ≠ [] := by
  simp [natText, Nat.toDigits_ne_nil]

theorem readDigits?_natText (n : Nat) : readDigits? (natText n).toList = some n := by
  have hd : (natText n).toList.all Char.isDigit = true :=
    List.all_eq_true.mpr fun _ h => isDigit_of_mem_natText h
  simp only [readDigits?, ne_eq, toList_natText_ne_nil, not_false_eq_true, hd, and_self, if_true,
    digitsValue_natText]

/-- A sign is no digit, so a run of digits is read as it stands. -/
theorem readInt64?_of_digits {s : String} (h : ∀ c ∈ s.toList, c.isDigit = true) :
    readInt64? s = (readDigits? s.toList).bind fun n => fit? n := by
  unfold readInt64?
  split
  · rename_i cs hs
    exact absurd (h '-' (by simp [hs])) (by decide)
  · rename_i cs hs
    exact absurd (h '+' (by simp [hs])) (by decide)
  · rfl

theorem readInt64?_intText (n : Int64) : readInt64? (intText n.toInt) = some n := by
  by_cases h : n.toInt < 0
  · have hs : (intText n.toInt).toList = '-' :: (natText n.toInt.natAbs).toList := by
      simp [intText, h]
    have hn : -(n.toInt.natAbs : Int) = n.toInt := by omega
    simp only [readInt64?, hs, readDigits?_natText, Option.bind_some, hn, fit?_toInt]
  · have hs : intText n.toInt = natText n.toInt.natAbs := by simp [intText, h]
    have hn : (n.toInt.natAbs : Int) = n.toInt := by omega
    rw [hs, readInt64?_of_digits fun _ => isDigit_of_mem_natText]
    simp only [readDigits?_natText, Option.bind_some, hn, fit?_toInt]

theorem toInt_of_readInt64?_digits {s : String} {n : Int64}
    (h : ∀ c ∈ s.toList, c.isDigit = true) (hn : readInt64? s = some n) :
    n.toInt = digitsValue s.toList := by
  rw [readInt64?_of_digits h] at hn
  unfold readDigits? at hn
  split at hn
  · exact fit?_eq_some hn
  · cases hn

end LogoLang.Text
