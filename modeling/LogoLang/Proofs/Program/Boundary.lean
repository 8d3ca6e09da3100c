import LogoLang.Proofs.Program.Seam
import LogoLang.Word

/-!
Boundaries between top-level expressions. A reader adds expressions to those it has and never looks
at them again, so one that has some already does what a new one does, and fails where that fails.
Main statement: after a program, tokens that do not start with an operator are read as by a reader
that starts with the words of the program.
-/

set_option autoImplicit false

namespace LogoLang

namespace Reader

variable (ps : Array Expr)

def following (r : Reader) : Reader := { r with program := ps ++ r.program }

theorem call_following (r : Reader) (t : Token) :
    (r.following ps).call t = (r.call t).map (following ps) := by
  simp only [call, following]
  cases r.words.get? t.text with
  | none => rfl
  | some s =>
    dsimp only
    split
    · rfl
    · cases s.arity <;> rfl

theorem close_following (r : Reader) (t : Token) :
    (r.following ps).close t = (r.close t).map (following ps) := by
  simp only [close, following]
  split <;> rfl

theorem start_following (r : Reader) (t : Token) :
    (r.following ps).start t = (r.start t).map (following ps) := by
  simp only [start]
  cases t.kind with
  | number =>
    dsimp only
    cases Text.readInt64? t.text <;> rfl
  | word => exact call_following ps r t
  | closeBracket | closeParen | closing => exact close_following ps r t
  | _ => rfl

theorem leave_following (r : Reader) (e : Expr) (t : Token) :
    (r.following ps).leave e t = (r.leave e t).map (following ps) := by
  have hs : (r.following ps).stack = r.stack := rfl
  simp only [leave, hs]
  cases settle r.stack e with
  | item st => exact start_following ps { r with stack := st, place := .start } t
  | top e =>
    rw [← start_following]
    simp [following, pushTop]
  | group opener inner st =>
    dsimp only
    split <;> rfl

theorem feed_following (r : Reader) (t : Token) :
    (r.following ps).feed t = (r.feed t).map (following ps) := by
  have hp : (r.following ps).place = r.place := rfl
  simp only [feed, hp]
  cases r.place with
  | start => exact start_following ps r t
  | name opener =>
    dsimp only
    split <;> rfl
  | params opener name params =>
    dsimp only
    split
    · rfl
    · exact start_following ps (r.enterBody opener name params) t
  | after e =>
    dsimp only
    split
    · simp only [operate]
      cases Operator.ofSymbol? t.text <;> rfl
    · exact leave_following ps r e t

theorem feedAll_following (r : Reader) (ts : List Token) :
    (r.following ps).feedAll ts = (r.feedAll ts).map (following ps) := by
  induction ts generalizing r with
  | nil => rfl
  | cons t ts ih =>
    simp only [feedAll, feed_following]
    cases r.feed t with
    | ok r => exact ih r
    | error f => rfl

theorem finish_following (r : Reader) :
    (r.following ps).finish = r.finish.map (following ps) := by
  have hp : (r.following ps).place = r.place := rfl
  have hs : (r.following ps).stack = r.stack := rfl
  have at_end (r : Reader) : (r.following ps).finishAt = r.finishAt.map (following ps) := by
    simp only [finishAt, following]
    split <;> rfl
  simp only [finish, hp, hs]
  cases r.place with
  | start => exact at_end r
  | name opener => rfl
  | params opener name params => rfl
  | after e =>
    dsimp only
    cases settle r.stack e with
    | item st => exact at_end { r with stack := st, place := .start }
    | top e => simp [following, pushTop, Except.map]
    | group opener inner st => rfl

end Reader

namespace Program

open Reader

def Reading.following (p : Program) (b : Reading) : Reading := ⟨p ++ b.program, b.words⟩

/-- A list of tokens is a program. Then further tokens that do not start with an operator are read
after it as a program of its own, with the words of the first one: they add the expressions and
words that this program has, or fail as it fails. -/
theorem read_append_eq (v : Vocabulary) (ts us : List Token) (a : Program.Reading)
    (ha : Program.read v ts = .ok a) (hu : ∀ u ∈ us.head?, u.kind ≠ .operator) :
    Program.read v (ts ++ us) = (Program.read a.words us).map (Reading.following a.program) := by
  obtain ⟨r, r', hr, hf, rfl⟩ := read_eq_ok_iff.1 ha
  cases us with
  | nil =>
    rw [List.append_nil, ha]
    simp [Program.read, feedAll, finish, finishAt, Except.map, Reading.following]
  | cons u us =>
    -- The reader comes to the further tokens with nothing open, and is new but for what it has.
    obtain ⟨hst, hp⟩ := finished hf
    have hr' : following r'.program { words := r'.words } = r' := by
      obtain ⟨words, program, stack, place⟩ := r'
      simp_all [following]
    have hfeed : feedAll { words := v } (ts ++ u :: us) =
        (feedAll { words := r'.words } (u :: us)).map (following r'.program) := by
      rw [feedAll_append, hr, ← feedAll_following, hr']
      exact feedAll_of_finishes hf (hu u rfl)
    simp only [Program.read, hfeed]
    cases feedAll { words := r'.words } (u :: us) with
    | error f => rfl
    | ok s =>
      simp only [Except.map, finish_following]
      cases s.finish with
      | error f => rfl
      | ok s' => simp [following, Reading.following]

def soloReading : Program.Reading where
  program := [.define "sum" ["a"] [.call "print" [.var "a" 1] 1] 0, .call "sum" [.number 1 3] 3]
  words := ⟨Registry.core.signatures, ⟨[("sum", .defined ["a"])]⟩⟩

theorem read_append_eq_solo :
    Program.read { known := Registry.core.signatures }
      (Token.tokenize .standard "to sum :a\n print :a\nend\nsum 1") = .ok soloReading ∧
    (∀ us ∈ [Token.tokenize .standard "sum 2 + 3", Token.tokenize .standard "sum"],
      ∀ u ∈ us.head?, u.kind ≠ .operator) ∧
    Program.read { known := Registry.core.signatures }
      (Token.tokenize .standard "to sum :a\n print :a\nend\nsum 1" ++
        Token.tokenize .standard "sum 2 + 3") =
      .ok ⟨soloReading.program ++ [.call "sum" [.binary .add (.number 2 0) (.number 3 0) 0] 0],
        soloReading.words⟩ ∧
    Program.read { known := Registry.core.signatures }
      (Token.tokenize .standard "to sum :a\n print :a\nend\nsum 1" ++
        Token.tokenize .standard "sum") =
      .error (.grammar .missingArguments (some ⟨.word, "sum", 0⟩)) := by
  have ha : Program.read { known := Registry.core.signatures }
      (Token.tokenize .standard "to sum :a\n print :a\nend\nsum 1") = .ok soloReading := by
    decide +kernel
  have hu : ∀ us ∈ [Token.tokenize .standard "sum 2 + 3", Token.tokenize .standard "sum"],
      ∀ u ∈ us.head?, u.kind ≠ .operator := by decide +kernel
  refine ⟨ha, hu, ?_, ?_⟩
  · rw [read_append_eq _ _ _ _ ha (hu _ (by simp))]
    decide +kernel
  · rw [read_append_eq _ _ _ _ ha (hu _ (by simp))]
    decide +kernel

end Program

end LogoLang
