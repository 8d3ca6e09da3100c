import LogoLang.Text.Lowercase

/-!
The words that open and close a procedure definition. The spellings `to` and `end` always count; a
localised spelling of either counts as well, and is then the one that is written.
-/

set_option autoImplicit false

namespace LogoLang

structure Keywords where
  opening : Option String := none
  closing : Option String := none
  deriving DecidableEq, Repr

namespace Keywords

def standard : Keywords := {}

/-- Further spellings, which are compared in lower case. -/
def localized (opening closing : Option String) : Keywords :=
  ⟨opening.map Text.lowercase, closing.map Text.lowercase⟩

def opens (kw : Keywords) (word : String) : Bool :=
  word == "to" || kw.opening == some word

def closes (kw : Keywords) (word : String) : Bool :=
  word == "end" || kw.closing == some word

def openingWord (kw : Keywords) : String := kw.opening.getD "to"

def closingWord (kw : Keywords) : String := kw.closing.getD "end"

end Keywords

end LogoLang
