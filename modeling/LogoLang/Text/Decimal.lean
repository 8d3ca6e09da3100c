/-!
Decimal numerals. A numeral is read digit by digit with an optional sign, and only if it fits the
range it is read for.
-/

set_option autoImplicit false

namespace LogoLang.Text

def digitsValue (cs : List Char) : Nat := Nat.ofDigitChars 10 cs 0

def readDigits? (cs : List Char) : Option Nat :=
  if cs ≠ [] ∧ cs.all Char.isDigit = true then some (digitsValue cs) else none

/-- The word that holds an integer, if one does. -/
def fit? (n : Int) : Option Int64 :=
  if Int64.minValue.toInt ≤ n ∧ n ≤ Int64.maxValue.toInt then some (Int64.ofInt n) else none

/-- Reads digits after at most one sign, within the range of a word. -/
def readInt64? (s : String) : Option Int64 :=
  match s.toList with
  | '-' :: cs => (readDigits? cs).bind fun n => fit? (-(n : Int))
  | '+' :: cs => (readDigits? cs).bind fun n => fit? n
  | cs => (readDigits? cs).bind fun n => fit? n

/-- Reads digits after at most one plus sign, within the range of a word without sign. -/
def readCount? (s : String) : Option Nat :=
  let digits := match s.toList with
    | '+' :: cs => cs
    | cs => cs
  (readDigits? digits).filter fun n => decide (n < UInt64.size)

def natText (n : Nat) : String := String.ofList (Nat.toDigits 10 n)

@[simp] theorem digitsValue_natText (n : Nat) : digitsValue (natText n).toList = n := by
  simp [digitsValue, natText, Nat.ofDigitChars_toDigits]

def intText (n : Int) : String :=
  if n < 0 then "-" ++ natText n.natAbs else natText n.natAbs

end LogoLang.Text
