import LogoLang.Proofs.Machine.Definitions
import LogoLang.Proofs.Machine.Provenance
import LogoLang.Proofs.Machine.Sequence

/-!
What a session teaches its machine. A run enters words one after the other and never takes one out,
so signatures that are entered together with the words stay the signatures of the words. Main
statement: after a program with its definitions at the top has been run to its end, the machine
knows each word as the reader of the program did, unless older code has defined the word.
-/

set_option autoImplicit false

namespace LogoLang

namespace Registry

def enterAll (r : Registry) (entered : List (String × Word)) : Registry :=
  entered.foldl (fun r e => r.insert e.1 e.2) r

theorem enterAll_append (r : Registry) (as bs : List (String × Word)) :
    r.enterAll (as ++ bs) = (r.enterAll as).enterAll bs := List.foldl_append

/-- A table of signatures keeps up with the words if the signature of every word is entered with
it. -/
theorem signatures_enterAll (r : Registry) (entered : List (String × Word)) :
    (r.enterAll entered).signatures =
      entered.foldl (fun t e => t.insert e.1 e.2.signature) r.signatures := by
  induction entered generalizing r with
  | nil => rfl
  | cons e es ih =>
    have hs : signatures (r.insert e.1 e.2) = r.signatures.insert e.1 e.2.signature :=
      Table.map_insert ..
    rw [List.foldl_cons, ← hs]
    exact ih _

end Registry

namespace Direct

variable {α : Type} {w w₁ w' : World} {h : Scopes.Handle} {j : Job α}

theorem Evaluates.enters {r : Except Fault α} (he : Evaluates w h j w' r) :
    ∃ entered, w'.words = w.words.enterAll entered := by
  have done (w : World) : ∃ entered, w.words = w.words.enterAll entered := ⟨[], rfl⟩
  have both {w w₁ w' : World} : (∃ entered, w₁.words = w.words.enterAll entered) →
      (∃ entered, w'.words = w₁.words.enterAll entered) →
      ∃ entered, w'.words = w.words.enterAll entered := by
    rintro ⟨as, ha⟩ ⟨bs, hb⟩
    exact ⟨as ++ bs, by rw [hb, ha, Registry.enterAll_append]⟩
  induction he with
  | @define w h name params body line => exact ⟨[(name, .defined params body)], rfl⟩
  | @say w h c vs k text ha hk => exact ⟨[], World.words_print ..⟩
  | call _ _ _ iha ihw => exact both iha ihw
  | cons _ _ ihe ihs | drop _ _ ihe ihs | again _ _ ihe ihs => exact both ihe ihs
  | group _ ih | stop _ ih | last _ ih | broken _ ih | halted _ ih | argument _ _ ih => exact ih
  | run _ _ _ ih | loop _ _ _ ih | enter _ _ ih => exact ih
  | _ => exact done _

end Direct

open LogoLang.Expr (DefinesIn)

namespace Machine

variable {m : Machine}

theorem value?_eq_some_iff {v : Value} : m.value? = some v ↔ m.session = .completed v := by
  unfold value?
  cases m.session <;> simp

/-- The definitions that a machine holds are in its procedures and in the lists that it has bound
globally. -/
theorem definesIn_tidied (m : Machine) : m.tidied.world.All (DefinesIn (m.Original [])) := by
  refine (genuine_tidied m []).imp ?_
  rintro d (hd | hd)
  · exact Direct.definesIn_literal d hd
  · exact .inr hd

/-- A program is read with the words of a machine without host words, its definitions stand at the
top, and it completes. Then the machine gives every name the signature that the reader ended with,
unless it has learned the word from a definition that was in one of its procedures or in a list
bound globally. The signatures are still those of the words, and a table of signatures in which
every word was entered as it was learned would be the same. -/
theorem learns_what_was_read (m : Machine) (hm : m.world.Plain) (hs : m.world.scopes.Rooted)
    (kw : Keywords) (source : String) (p : Program.Reading)
    (hp : Program.read { known := m.world.words.signatures } (Token.tokenize kw source) = .ok p)
    (ht : p.program.TopDefinitions) (n : Nat) (v : Value)
    (hv : ((m.start p.program).advance n).session = .completed v) :
    (∀ name,
      ((m.start p.program).advance n).world.words.signatures.get? name = p.words.get? name ∨
      ∃ params body line, m.Original [] (.define name params body line) ∧
        ((m.start p.program).advance n).world.words.get? name = some (.defined params body)) ∧
    (∀ name, ((m.start p.program).advance n).world.words.signatures.get? name =
      (((m.start p.program).advance n).world.words.get? name).map Word.signature) ∧
    ∃ entered : List (String × Word),
      ((m.start p.program).advance n).world.words = m.world.words.enterAll entered ∧
      ((m.start p.program).advance n).world.words.signatures =
        entered.foldl (fun t e => t.insert e.1 e.2.signature) m.world.words.signatures := by
  refine ⟨fun name => ?_, fun name => Table.get?_map .., ?_⟩
  · -- A tidied machine runs in step, and holds no code that a session to come cannot reach.
    have ha := agrees_tidied hs
    have hstep := inStep_advance_start ha hm p.program n
    have hdone : ((m.tidied.start p.program).advance n).session = .completed v := by
      rw [← value?_eq_some_iff, ← hstep.observed.2.2.1, value?_eq_some_iff]
      exact hv
    obtain ⟨calls, hd, -⟩ := dispatches_of_completed (m := m.tidied) hm hdone
    have hb := agreesBut_of_program hd.evaluates ht (Program.legible_read hp)
      (definesIn_tidied m) fun _ => .inl rfl
    have hw := hstep.world.words name
    rcases hb name with he | ⟨params, body, line, ho, hk⟩
    · left
      rw [he, World.get?_vocabulary, ← hw]
      exact Table.get?_map ..
    · exact .inr ⟨params, body, line, ho, hw.trans hk⟩
  · obtain ⟨calls, hd, -⟩ := dispatches_of_completed hm hv
    obtain ⟨entered, hw⟩ := hd.evaluates.enters
    exact ⟨entered, hw, by rw [hw, Registry.signatures_enterAll]⟩

theorem Original.of_all {P : Expr → Prop} {d : Expr} (hd : m.Original [] d) (hm : m.world.All P) :
    P d := by
  cases hd with
  | program he => cases he
  | body hw he hd => exact hm.bodies _ _ _ hw _ he d hd
  | value hv he hd => exact Scopes.lookup_all hm.values hv _ he d hd

def nesting : Machine :=
  { world := ({} : World).learn "nest" []
      [.define "hidden" [] [.call "print" [.number 1 2] 2] 1] }

/-- Calls that procedure, and takes the core word `sum` for a procedure with one parameter. -/
def nestingText : String := "nest\nto sum :a\n print :a\nend\nsum 1"

def nestingReading : Program.Reading where
  program := [.call "nest" [] 0, .define "sum" ["a"] [.call "print" [.var "a" 2] 2] 1,
    .call "sum" [.number 1 4] 4]
  words := ⟨nesting.world.words.signatures, ⟨[("sum", .defined ["a"])]⟩⟩

theorem plain_nesting : nesting.world.Plain := World.Plain.core.learn _ _ _

theorem rooted_nesting : nesting.world.scopes.Rooted := by
  rw [Scopes.Rooted]
  decide

theorem read_nesting : Program.read { known := nesting.world.words.signatures }
    (Token.tokenize .standard nestingText) = .ok nestingReading := by decide +kernel

theorem topDefinitions_nesting : nestingReading.program.TopDefinitions := by
  simp [Program.TopDefinitions, nestingReading, Expr.children, Expr.NoDefinition,
    Expr.all_iff (e := .number _ _), Expr.all_iff (e := .var _ _),
    Expr.all_iff (e := .call _ _ _)]

theorem session_nesting :
    ((nesting.start nestingReading.program).advance 3).session = .completed .void :=
  value?_eq_some_iff.1 (by decide +kernel)

theorem learns_what_was_read_nesting :
    nesting.world.Plain ∧ nesting.world.scopes.Rooted ∧
    Program.read { known := nesting.world.words.signatures }
      (Token.tokenize .standard nestingText) = .ok nestingReading ∧
    nestingReading.program.TopDefinitions ∧
    ((nesting.start nestingReading.program).advance 3).session = .completed .void ∧
    ((nesting.start nestingReading.program).advance 3).world.words.signatures.get? "sum" =
      some (.defined ["a"]) := by
  have hl := learns_what_was_read nesting plain_nesting rooted_nesting .standard nestingText
    nestingReading read_nesting topDefinitions_nesting 3 .void session_nesting
  refine ⟨plain_nesting, rooted_nesting, read_nesting, topDefinitions_nesting, session_nesting, ?_⟩
  rcases hl.1 "sum" with he | ⟨params, body, line, ho, -⟩
  · rw [he]
    decide +kernel
  · -- The procedure that the machine has defines another word.
    have hn : nesting.world.All fun d => ∀ params body line, d ≠ .define "sum" params body line :=
      (World.All.fresh rfl rfl).learn (by
        simp [Expr.children, Expr.all_iff (e := .number _ _), Expr.all_iff (e := .call _ _ _),
          Expr.all_iff (e := .define _ _ _ _)]) _ _
    exact absurd rfl (ho.of_all hn params body line)

/-- The reader does not know what a call defines. -/
theorem hidden_word_is_not_read :
    nesting.world.Plain ∧ nesting.world.scopes.Rooted ∧
    Program.read { known := nesting.world.words.signatures }
      (Token.tokenize .standard nestingText) = .ok nestingReading ∧
    nestingReading.program.TopDefinitions ∧
    ((nesting.start nestingReading.program).advance 3).session = .completed .void ∧
    ((nesting.start nestingReading.program).advance 3).world.words.signatures.get? "hidden" =
      some (.defined []) ∧
    nestingReading.words.get? "hidden" = none :=
  ⟨plain_nesting, rooted_nesting, read_nesting, topDefinitions_nesting, session_nesting,
    by decide +kernel, by decide +kernel⟩

end Machine

end LogoLang
