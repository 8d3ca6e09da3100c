import LogoLang.Proofs.Expr.Parts
import LogoLang.Proofs.Program.Feeding
import Mathlib.Data.List.Basic

/-!
What has been read can be read back. The parts of a reader are those of its program, of its open
constructs and of the expression it has just completed. Main statement: every token that is accepted
adds one part at the end, so a program says what its tokens say, in their order and on their lines.
-/

set_option autoImplicit false

namespace LogoLang

open Reader (dropMark dropMarks)

/-- The part says what the token says: it is of the same kind, has its value, name or operator, and
is on its line. A parameter loses all its colons, a reference elsewhere only one. -/
def Token.Means (t : Token) : Part → Prop
  | .hole => False
  | .openBracket line => t.kind = .openBracket ∧ t.line = line
  | .closeBracket => t.kind = .closeBracket
  | .openParen line => t.kind = .openParen ∧ t.line = line
  | .closeParen => t.kind = .closeParen
  | .opening line => t.kind = .opening ∧ t.line = line
  | .name name => t.kind = .word ∧ t.text = name
  | .param name => t.kind = .reference ∧ dropMarks ':' t.text = name
  | .closing => t.kind = .closing
  | .number n line => t.kind = .number ∧ Text.readInt64? t.text = some n ∧ t.line = line
  | .quoted text line => t.kind = .quoted ∧ dropMark '"' t.text = text ∧ t.line = line
  | .reference name line => t.kind = .reference ∧ dropMark ':' t.text = name ∧ t.line = line
  | .word name line => t.kind = .word ∧ t.text = name ∧ t.line = line
  | .operator op line => t.kind = .operator ∧ Operator.ofSymbol? t.text = some op ∧ t.line = line

namespace Reader

open LogoLang.Expr (partsList)

def headerParts (opener : Token) (name : String) (params : List String) : List Part :=
  .opening opener.line :: .name name :: params.map .param

def Frame.parts : Frame → List Part
  | .list opener items => .openBracket opener.line :: partsList items.toList
  | .body opener name params items => headerParts opener name params ++ partsList items.toList
  | .group opener => [.openParen opener.line]
  | .spread opener word es =>
    .openParen opener.line :: .word word.text word.line :: partsList es.toList
  | .args word _ done => .word word.text word.line :: partsList done.toList
  | .operand left op sign => left.parts ++ [.operator op sign.line]

def stackParts : List Frame → List Part
  | [] => []
  | f :: st => stackParts st ++ f.parts

def Place.parts : Place → List Part
  | .start => []
  | .name opener => [.opening opener.line]
  | .params opener f ps => headerParts opener f ps.toList
  | .after e => e.parts

def Home.parts : Home → List Part
  | .item st => stackParts st
  | .group opener inner st => stackParts st ++ .openParen opener.line :: inner.parts
  | .top e => e.parts

def parts (r : Reader) : List Part :=
  partsList r.program.toList ++ (stackParts r.stack ++ r.place.parts)

/-- What a token is taken for where it stands. It is a hole if no reader accepts the token. -/
def taken (place : Place) (t : Token) : Part :=
  match t.kind with
  | .openBracket => .openBracket t.line
  | .closeBracket => .closeBracket
  | .openParen => .openParen t.line
  | .closeParen => .closeParen
  | .opening => .opening t.line
  | .closing => .closing
  | .number => ((Text.readInt64? t.text).map fun n => .number n t.line).getD .hole
  | .quoted => .quoted (dropMark '"' t.text) t.line
  | .reference =>
    match place with
    | .params _ _ _ => .param (dropMarks ':' t.text)
    | _ => .reference (dropMark ':' t.text) t.line
  | .operator => ((Operator.ofSymbol? t.text).map fun op => .operator op t.line).getD .hole
  | .word =>
    match place with
    | .name _ => .name t.text
    | _ => .word t.text t.line

theorem means_taken {place : Place} {t : Token} (h : taken place t ≠ .hole) :
    t.Means (taken place t) := by
  revert h
  cases hk : t.kind with
  | number => cases hn : Text.readInt64? t.text <;> simp [taken, Token.Means, hk, hn]
  | operator => cases ho : Operator.ofSymbol? t.text <;> simp [taken, Token.Means, hk, ho]
  | reference | word => cases place <;> simp [taken, Token.Means, hk]
  | _ => simp [taken, Token.Means, hk]

theorem taken_after (e : Expr) (t : Token) : taken (.after e) t = taken .start t := rfl

theorem taken_params (opener : Token) (name : String) (params : Array String) {t : Token}
    (h : t.kind ≠ .reference) : taken (.params opener name params) t = taken .start t := by
  unfold taken
  split <;> first | rfl | contradiction

variable {r r' : Reader} {t : Token}

theorem parts_settle {stack : List Frame} {e : Expr} {home : Home} (h : settle stack e = home) :
    home.parts = stackParts stack ++ e.parts := by
  subst h
  fun_induction settle stack e with
  | case6 word done st e ih =>
    rw [ih]
    simp [Expr.parts, stackParts, Frame.parts, partsList]
  | case8 left op sign st e ih =>
    rw [ih]
    simp [Expr.parts, stackParts, Frame.parts]
  | _ => simp [Home.parts, stackParts, Frame.parts, partsList]

theorem parts_starts (h : Starts r t r') (hp : r.place = .start) :
    r'.parts = r.parts ++ [taken .start t] := by
  cases h with
  | paren hk => simp [parts, opened, hp, hk, taken, stackParts, Frame.parts, Place.parts]
  | bracket hk =>
    simp [parts, opened, hp, hk, taken, stackParts, Frame.parts, Place.parts, partsList]
  | header hk => simp [parts, hp, hk, taken, Place.parts]
  | number hk hn => simp [parts, ended, hp, hk, hn, taken, Place.parts, Expr.parts]
  | reference hk => simp [parts, ended, hp, hk, taken, Place.parts, Expr.parts]
  | quoted hk => simp [parts, ended, hp, hk, taken, Place.parts, Expr.parts]
  | spread hk hs hst hv =>
    simp [parts, hp, hk, hst, taken, stackParts, Frame.parts, Place.parts, partsList]
  | constant hk hs hv ha =>
    simp [parts, ended, hp, hk, taken, Place.parts, Expr.parts, partsList]
  | call hk hs hv ha =>
    simp [parts, opened, hp, hk, taken, stackParts, Frame.parts, Place.parts, partsList]
  | closeList hk hst =>
    simp [parts, ended, hp, hk, hst, taken, stackParts, Frame.parts, Place.parts, Expr.parts]
  | closeBody hk hst =>
    simp [parts, ended, hp, hk, hst, taken, stackParts, Frame.parts, headerParts, Place.parts,
      Expr.parts]
  | closeSpread hk hst =>
    simp [parts, ended, hp, hk, hst, taken, stackParts, Frame.parts, Place.parts, Expr.parts]

theorem parts_enterBody {opener : Token} {name : String} {params : Array String}
    (hp : r.place = .params opener name params) :
    (r.enterBody opener name params).parts = r.parts := by
  simp [parts, enterBody, opened, hp, stackParts, Frame.parts, Place.parts, partsList]

theorem parts_pushTop {e e' : Expr} (hp : r.place = .after e)
    (hs : settle r.stack e = .top e') : (r.pushTop e').parts = r.parts := by
  have h : e'.parts = _ := parts_settle hs
  simp [parts, pushTop, hp, Place.parts, stackParts, partsList, Expr.parts_regroup, h]

/-- A token that is accepted adds the part it is taken for. -/
theorem parts_feeds (h : Feeds r t r') : r'.parts = r.parts ++ [taken r.place t] := by
  cases h with
  | start hp h => rw [parts_starts h hp, hp]
  | name hp hk => simp [parts, hp, hk, taken, Place.parts, headerParts]
  | param hp hk => simp [parts, hp, hk, taken, Place.parts, headerParts]
  | body hp hk h => rw [parts_starts h rfl, parts_enterBody hp, hp, taken_params _ _ _ hk]
  | operator hp hk ho =>
    simp [parts, opened, hp, hk, ho, taken, stackParts, Frame.parts, Place.parts]
  | item hp hk hs h =>
    have hl : stackParts _ = _ := parts_settle hs
    rw [parts_starts h rfl, hp, taken_after]
    simp only [parts, hp, Place.parts, hl, List.append_nil]
  | top hp hk hs h => rw [parts_starts h rfl, parts_pushTop hp hs, hp, taken_after]
  | group hp hk hs =>
    have hl : _ ++ Part.openParen _ :: _ = _ := parts_settle hs
    simp only [parts, ended, hp, hk, taken, Place.parts, Expr.parts, List.append_assoc]
    rw [← List.cons_append, ← List.append_assoc (stackParts _), hl]
    simp

theorem taken_starts (h : Starts r t r') (place : Place) : taken place t ≠ .hole := by
  cases h with
  | number hk hn => simp [taken, hk, hn]
  | reference hk | spread hk | constant hk | call hk => cases place <;> simp [taken, hk]
  | _ => simp [taken, *]

theorem taken_feeds (h : Feeds r t r') : taken r.place t ≠ .hole := by
  cases h with
  | start _ h | body _ _ h | item _ _ _ h | top _ _ _ h => exact taken_starts h r.place
  | name hp hk => simp [taken, hp, hk]
  | param hp hk => simp [taken, hp, hk]
  | operator hp hk ho => simp [taken, hk, ho]
  | group hp hk hs => simp [taken, hk]

theorem parts_feedAll {ts : List Token} (h : r.feedAll ts = .ok r') :
    ∃ ps, r'.parts = r.parts ++ ps ∧ List.Forall₂ Token.Means ts ps := by
  induction ts generalizing r with
  | nil =>
    cases h
    exact ⟨[], by simp, .nil⟩
  | cons t ts ih =>
    obtain ⟨r₁, ht, hts⟩ := feedAll_cons_eq_ok_iff.1 h
    obtain ⟨ps, hps, hm⟩ := ih hts
    refine ⟨taken r.place t :: ps, ?_, .cons (means_taken (taken_feeds ht)) hm⟩
    rw [hps, parts_feeds ht, List.append_assoc]
    rfl

theorem parts_finishes (h : Finishes r r') : partsList r'.program.toList = r.parts := by
  cases h with
  | start hp hst => simp [parts, hp, hst, stackParts, Place.parts]
  | top hp hs =>
    rw [← parts_pushTop hp hs]
    simp [parts, pushTop, stackParts, Place.parts]

end Reader

namespace Program

/-- A program that has been read says what its tokens say, one after the other: nothing is lost,
added or moved, and each node is on the line of its own token. -/
theorem tokens_mean_parts (v : Vocabulary) (ts : List Token) (p : Program.Reading)
    (h : Program.read v ts = .ok p) :
    List.Forall₂ Token.Means ts (Expr.partsList p.program) := by
  obtain ⟨r, r', hr, hf, rfl⟩ := Reader.read_eq_ok_iff.1 h
  obtain ⟨ps, hps, hm⟩ := Reader.parts_feedAll hr
  rw [Reader.parts_finishes hf, hps]
  exact hm

/-- No text is split into these: each token is on a line of its own, also in the middle of an
expression, one number has a sign, and the references have too many colons or too few. -/
def scatteredTokens : List Token :=
  [⟨.opening, "to", 0⟩, ⟨.word, "five", 1⟩, ⟨.reference, "::x", 2⟩, ⟨.number, "+5", 3⟩,
    ⟨.closing, "end", 4⟩, ⟨.openParen, "(", 5⟩, ⟨.number, "1", 6⟩, ⟨.operator, "*", 7⟩,
    ⟨.reference, "x", 8⟩, ⟨.operator, "-", 9⟩, ⟨.word, "five", 10⟩, ⟨.openBracket, "[", 11⟩,
    ⟨.quoted, "\"\"a", 12⟩, ⟨.closeBracket, "]", 13⟩, ⟨.closeParen, ")", 14⟩]

def scatteredReading : Program.Reading where
  program := [.define "five" ["x"] [.number 5 3] 0,
    .group (.binary .subtract (.binary .multiply (.number 1 6) (.var "x" 8) 7)
      (.call "five" [.list [.word "\"a" 12] 11] 10) 9) 5]
  words := ⟨.empty, ⟨[("five", .defined ["x"])]⟩⟩

theorem tokens_mean_parts_scattered :
    Program.read { known := .empty } scatteredTokens = .ok scatteredReading ∧
    List.Forall₂ Token.Means scatteredTokens
      [.opening 0, .name "five", .param "x", .number 5 3, .closing, .openParen 5, .number 1 6,
        .operator .multiply 7, .reference "x" 8, .operator .subtract 9, .word "five" 10,
        .openBracket 11, .quoted "\"a" 12, .closeBracket, .closeParen] := by
  have h : Program.read { known := .empty } scatteredTokens = .ok scatteredReading := by rfl
  exact ⟨h, tokens_mean_parts _ _ _ h⟩

end Program

end LogoLang
