import LogoLang.Keywords
import LogoLang.Operator
import LogoLang.Token

/-!
Splitting a source text into tokens. Blanks and comments separate tokens and are dropped; brackets,
parentheses and operators stand alone; every other token is a run that reaches to the next character
that cannot belong to it.
-/

set_option autoImplicit false

namespace LogoLang.Token

def isBlank (c : Char) : Bool :=
  c == ' ' || c == '\t' || c == '\n' || c == '\r'

def isDelimiter (c : Char) : Bool :=
  isBlank c || c == '[' || c == ']' || c == '(' || c == ')' || c == ';'

/-- A quoted word may hold operators, any other run may not. -/
def endsRun (quoted : Bool) (c : Char) : Bool :=
  isDelimiter c || (!quoted && Operator.isSign c)

def Kind.ofChar? (c : Char) : Option Kind :=
  if c = '[' then some .openBracket
  else if c = ']' then some .closeBracket
  else if c = '(' then some .openParen
  else if c = ')' then some .closeParen
  else if Operator.isSign c then some .operator
  else none

/-- Digits alone are a number if their value fits a word. -/
def isNumeral (cs : List Char) : Bool :=
  cs.all Char.isDigit && (Text.fit? (Text.digitsValue cs)).isSome

/-- The token that a run makes. Its first character tells quoted words and references from the
rest; words and keywords are kept in lower case. -/
def ofRun (kw : Keywords) (line : Nat) (run : List Char) : Token :=
  let text := String.ofList run
  if run.head? = some '"' then ⟨.quoted, text, line⟩
  else if run.head? = some ':' then ⟨.reference, text, line⟩
  else if isNumeral run then ⟨.number, text, line⟩
  else
    let lower := Text.lowercase text
    if kw.opens lower then ⟨.opening, lower, line⟩
    else if kw.closes lower then ⟨.closing, lower, line⟩
    else ⟨.word, lower, line⟩

theorem length_dropWhile_le (p : Char → Bool) (cs : List Char) :
    (cs.dropWhile p).length ≤ cs.length :=
  (List.dropWhile_sublist p).length_le

/-- The tokens of a text whose first character stands on the given line. A comment reaches up to
the end of its line. -/
def lex (kw : Keywords) (line : Nat) : List Char → List Token
  | [] => []
  | c :: cs =>
    if c = '\n' then lex kw (line + 1) cs
    else if isBlank c then lex kw line cs
    else if c = ';' then lex kw line (cs.dropWhile fun d => d != '\n')
    else match Kind.ofChar? c with
      | some kind => ⟨kind, String.singleton c, line⟩ :: lex kw line cs
      | none =>
        let more := fun d => !endsRun (c == '"') d
        ofRun kw line (c :: cs.takeWhile more) :: lex kw line (cs.dropWhile more)
termination_by cs => cs.length
decreasing_by
  all_goals simp only [List.length_cons]
  all_goals first
    | exact Nat.lt_succ_self _
    | exact Nat.lt_succ_of_le (length_dropWhile_le _ _)

def tokenize (kw : Keywords) (source : String) : List Token := lex kw 0 source.toList

end LogoLang.Token
