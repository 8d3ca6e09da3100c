import LogoLang.Expr.Regroup
import LogoLang.Fault
import LogoLang.Signature

/-!
Reading a program from its tokens. There is no mark for the end of a call, so the number of its
arguments comes from the vocabulary, to which a definition adds its own word as soon as its header
has been read. The reader takes one token at a time and keeps the constructs that are still open on
a stack, the innermost first.
-/

set_option autoImplicit false

namespace LogoLang

namespace Reader

inductive Frame where
  | list (opener : Token) (items : Array Expr)
  | body (opener : Token) (name : String) (params : List String) (items : Array Expr)
  /-- A parenthesis whose expression has not ended. -/
  | group (opener : Token)
  /-- A variadic call that stands directly in parentheses. -/
  | spread (opener word : Token) (args : Array Expr)
  /-- A call whose next argument is being read, with the number of those that follow it. -/
  | args (word : Token) (further : Nat) (done : Array Expr)
  /-- An operator with its left operand. -/
  | operand (left : Expr) (op : Operator) (sign : Token)
  deriving Repr

inductive Place where
  /-- The start of an expression, or the closer of the innermost construct. -/
  | start
  /-- The name in a header. -/
  | name (opener : Token)
  /-- A parameter, or the end of the header. -/
  | params (opener : Token) (name : String) (params : Array String)
  /-- An operator, or whatever may follow a complete expression. -/
  | after (e : Expr)
  deriving Repr

end Reader

structure Reader where
  words : Vocabulary
  program : Array Expr := #[]
  stack : List Reader.Frame := []
  place : Reader.Place := .start

namespace Reader

/-- Where a complete expression belongs. -/
inductive Home where
  /-- It is an item of the innermost construct, which goes on. -/
  | item (stack : List Frame)
  /-- It fills a parenthesis, which has to close. -/
  | group (opener : Token) (inner : Expr) (stack : List Frame)
  /-- It is a top-level expression. -/
  | top (e : Expr)

/-- Hands a complete expression to the constructs around it. Operators and calls for which it is
the last operand end with it. -/
def settle : List Frame → Expr → Home
  | [], e => .top e
  | .list opener items :: st, e => .item (.list opener (items.push e) :: st)
  | .body opener name params items :: st, e =>
    .item (.body opener name params (items.push e) :: st)
  | .group opener :: st, e => .group opener e st
  | .spread opener word args :: st, e => .item (.spread opener word (args.push e) :: st)
  | .args word 0 done :: st, e => settle st (.call word.text (done.push e).toList word.line)
  | .args word (n + 1) done :: st, e => .item (.args word n (done.push e) :: st)
  | .operand left op sign :: st, e => settle st (.binary op left e sign.line)

def dropMark (c : Char) (s : String) : String :=
  match s.toList with
  | d :: ds => if d = c then String.ofList ds else s
  | [] => s

def dropMarks (c : Char) (s : String) : String :=
  String.ofList (s.toList.dropWhile fun d => d == c)

def unexpected (t : Token) : Except Fault Reader :=
  .error (.grammar (.unexpected t.text) (some t))

def ended (r : Reader) (stack : List Frame) (e : Expr) : Reader :=
  { r with stack := stack, place := .after e }

def opened (r : Reader) (f : Frame) : Reader :=
  { r with stack := f :: r.stack, place := .start }

/-- The header of a definition is complete: its word can be called from here on. -/
def enterBody (r : Reader) (opener : Token) (name : String) (params : Array String) : Reader :=
  { r with words := r.words.define name params.toList }.opened
    (.body opener name params.toList #[])

def call (r : Reader) (t : Token) : Except Fault Reader :=
  match r.words.get? t.text with
  | none => .error (.unknown t.text (some t.line))
  | some s =>
    match r.stack, s.isVariadic with
    | .group opener :: st, true =>
      .ok { r with stack := .spread opener t #[] :: st, place := .start }
    | _, _ =>
      match s.arity with
      | 0 => .ok (r.ended r.stack (.call t.text [] t.line))
      | n + 1 => .ok (r.opened (.args t n #[]))

def close (r : Reader) (t : Token) : Except Fault Reader :=
  match t.kind, r.stack with
  | .closeBracket, .list opener items :: st =>
    .ok (r.ended st (.list items.toList opener.line))
  | .closing, .body opener name params items :: st =>
    .ok (r.ended st (.define name params items.toList opener.line))
  | .closeParen, .spread opener word args :: st =>
    .ok (r.ended st (.group (.call word.text args.toList word.line) opener.line))
  | _, .args word _ _ :: _ => .error (.grammar .missingArguments (some word))
  | _, _ => unexpected t

def start (r : Reader) (t : Token) : Except Fault Reader :=
  match t.kind with
  | .openParen => .ok (r.opened (.group t))
  | .openBracket => .ok (r.opened (.list t #[]))
  | .opening => .ok { r with place := .name t }
  | .number =>
    match Text.readInt64? t.text with
    | some n => .ok (r.ended r.stack (.number n t.line))
    | none => .error (.grammar (.invalidNumber t.text) (some t))
  | .reference => .ok (r.ended r.stack (.var (dropMark ':' t.text) t.line))
  | .quoted => .ok (r.ended r.stack (.word (dropMark '"' t.text) t.line))
  | .word => r.call t
  | .operator => unexpected t
  | .closeBracket | .closeParen | .closing => r.close t

def operate (r : Reader) (left : Expr) (t : Token) : Except Fault Reader :=
  match Operator.ofSymbol? t.text with
  | some op => .ok (r.opened (.operand left op t))
  | none => unexpected t

def pushTop (r : Reader) (e : Expr) : Reader :=
  { r with program := r.program.push e.regroup, stack := [], place := .start }

/-- A token that does not continue the expression before it. -/
def leave (r : Reader) (e : Expr) (t : Token) : Except Fault Reader :=
  match settle r.stack e with
  | .item st => start { r with stack := st, place := .start } t
  | .top e => start (r.pushTop e) t
  | .group opener inner st =>
    if t.kind = .closeParen then .ok (r.ended st (.group inner opener.line))
    else .error (.grammar .missingParen (some opener))

def feed (r : Reader) (t : Token) : Except Fault Reader :=
  match r.place with
  | .start => r.start t
  | .name opener =>
    if t.kind = .word then .ok { r with place := .params opener t.text #[] }
    else .error (.grammar .missingName (some t))
  | .params opener name params =>
    if t.kind = .reference then
      .ok { r with place := .params opener name (params.push (dropMarks ':' t.text)) }
    else start (r.enterBody opener name params) t
  | .after e => if t.kind = .operator then r.operate e t else r.leave e t

def finishAt (r : Reader) : Except Fault Reader :=
  match r.stack with
  | [] => .ok r
  | .list opener _ :: _ => .error (.grammar .missingBracket (some opener))
  | .body opener _ _ _ :: _ => .error (.grammar .missingEnd (some opener))
  | .group _ :: _ => .error (.grammar .noMoreTokens none)
  | .spread opener _ _ :: _ => .error (.grammar .missingParen (some opener))
  | .args word _ _ :: _ => .error (.grammar .missingArguments (some word))
  | .operand _ _ sign :: _ => .error (.grammar .missingArguments (some sign))

def finish (r : Reader) : Except Fault Reader :=
  match r.place with
  | .start => r.finishAt
  | .name opener => .error (.grammar .missingName (some opener))
  | .params opener _ _ => .error (.grammar .missingEnd (some opener))
  | .after e =>
    match settle r.stack e with
    | .item st => finishAt { r with stack := st, place := .start }
    | .top e => .ok (r.pushTop e)
    | .group opener _ _ => .error (.grammar .missingParen (some opener))

def feedAll (r : Reader) : List Token → Except Fault Reader
  | [] => .ok r
  | t :: ts =>
    match r.feed t with
    | .ok r => feedAll r ts
    | .error f => .error f

theorem feedAll_append (r : Reader) (ts us : List Token) :
    r.feedAll (ts ++ us) = (r.feedAll ts).bind fun r => r.feedAll us := by
  induction ts generalizing r with
  | nil => rfl
  | cons t ts ih =>
    simp only [List.cons_append, feedAll]
    cases r.feed t with
    | ok r => exact ih r
    | error f => rfl

end Reader

structure Program.Reading where
  program : Program
  words : Vocabulary
  deriving DecidableEq, Repr

def Program.read (words : Vocabulary) (ts : List Token) : Except Fault Program.Reading :=
  match Reader.feedAll { words := words } ts with
  | .error f => .error f
  | .ok r =>
    match r.finish with
    | .error f => .error f
    | .ok r => .ok ⟨r.program.toList, r.words⟩

end LogoLang
