import LogoLang.Text.CaseTable

/-!
Lower-casing of text by the rules of Unicode, without any language's special rules. One character
becomes two (the capital dotted I), and the Greek capital sigma has two lower-case forms, of which
the one for the end of a word is chosen by the neighbours.
-/

set_option autoImplicit false

namespace LogoLang.Text

def lowerCode (c : Nat) : Nat :=
  match lowerTable.find? fun r => decide (c ≤ r.last) with
  | some r => (r.lower? c).getD c
  | none => c

def isCased (c : Char) : Bool := memRanges casedTable c.toNat

def isCaseIgnorable (c : Char) : Bool := memRanges caseIgnorableTable c.toNat

theorem isCased_iff (c : Char) :
    isCased c = true ↔ ∃ r ∈ casedTable, r.first ≤ c.toNat ∧ c.toNat ≤ r.last :=
  memRanges_iff increasing_casedTable c.toNat

theorem isCaseIgnorable_iff (c : Char) :
    isCaseIgnorable c = true ↔ ∃ r ∈ caseIgnorableTable, r.first ≤ c.toNat ∧ c.toNat ≤ r.last :=
  memRanges_iff increasing_caseIgnorableTable c.toNat

def capitalSigma : Char := '\u03A3'

def smallSigma : Char := '\u03C3'

def finalSigma : Char := '\u03C2'

def capitalDottedI : Char := '\u0130'

/-- A letter's lower-case form where its neighbours do not matter. -/
def lowerChar (c : Char) : List Char :=
  if c = capitalDottedI then ['i', '\u0307'] else [Char.ofNat (lowerCode c.toNat)]

/-- A cased letter stands next, marks and the like passed over. -/
def casedNext (cs : List Char) : Bool :=
  match cs.dropWhile isCaseIgnorable with
  | c :: _ => isCased c
  | [] => false

/-- Lower-cases `cs`, which follows the characters of `before`, the nearest first. A capital sigma
ends a word when a cased letter stands before it and none after it. -/
def lowercaseAfter (before : List Char) : List Char → List Char
  | [] => []
  | c :: cs =>
    (if c = capitalSigma then
      [if casedNext before && !casedNext cs then finalSigma else smallSigma]
    else lowerChar c) ++ lowercaseAfter (c :: before) cs

def lowercase (s : String) : String := String.ofList (lowercaseAfter [] s.toList)

end LogoLang.Text
