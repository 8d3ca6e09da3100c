import LogoLang.Proofs.Machine.Refinement
import Mathlib.Data.Option.Basic

/-!
The calls of a run in their order. Main statement: the expressions that a machine shows before its
steps are just the calls of evaluation by recursion, one step for each.
-/

set_option autoImplicit false

namespace LogoLang.Machine

open Direct

theorem ended_of_not_isPending (current : Option Expr) (steps : Nat) (x : World × Outcome) (n : Nat)
    (hn : ((stopped current steps x).advance n).isPending = false) :
    ∃ r, ((stopped current steps x).advance n).session = ended r := by
  have hs : (stopped current steps x).StopsWith fun _ _ => True :=
    ⟨current, steps, x.1, x.2, trivial, rfl⟩
  obtain ⟨current', steps', w, o, -, hm⟩ := advance_keeps (fun _ _ _ => trivial) n hs
  rw [hm] at hn ⊢
  cases o with
  | waiting p => cases hn
  | done v => exact ⟨.ok v, rfl⟩
  | failed f => exact ⟨.error f, rfl⟩

variable {m : Machine} {p : Program} {n : Nat}

theorem observed_of_dispatches {calls : List Expr} {w' : World} {r : Except Fault Value}
    (hd : Dispatches m.world Scopes.globals (.block p) calls w' r) (hn : calls.length ≤ n) :
    (m.start p).observed n = calls.map some ∧ ((m.start p).advance n).world = w' ∧
      ((m.start p).advance n).session = ended r ∧
      ((m.start p).advance n).steps = calls.length := by
  obtain ⟨ho, hw, hr, hs⟩ := observed_of_shows hd.shows none 0 hn
  exact ⟨ho, hw, hr, hs.trans (Nat.zero_add _)⟩

theorem exists_dispatches (hm : m.world.Plain)
    (hend : ((m.start p).advance n).isPending = false) :
    ∃ calls r, Dispatches m.world Scopes.globals (.block p) calls ((m.start p).advance n).world r ∧
      calls.length ≤ n := by
  obtain ⟨r, hr⟩ := ended_of_not_isPending none 0 _ n hend
  obtain ⟨calls, hs⟩ := exists_shows none 0 hr
  have hn := (isPending_advance hs none 0 n).symm.trans hend
  exact ⟨calls, r, (shows_iff_dispatches hm).1 hs, by simpa using hn⟩

/-- In a machine without host words, a session that ends has shown the calls that evaluation by
recursion lists, in that order, and has made one step for each. -/
theorem observed_eq_dispatched (m : Machine) (hm : m.world.Plain) (p : Program) (n : Nat)
    (hend : ((m.start p).advance n).isPending = false) :
    ∃ calls r, (m.start p).observed n = calls.map some ∧
      ((m.start p).advance n).steps = calls.length ∧
      ((m.start p).advance n).session = ended r ∧ (∀ c ∈ calls, c.Applies) ∧
      ∀ calls' w' r', Dispatches m.world Scopes.globals (.block p) calls' w' r' ↔
        calls' = calls ∧ w' = ((m.start p).advance n).world ∧ r' = r := by
  obtain ⟨calls, r, hd, hn⟩ := exists_dispatches hm hend
  obtain ⟨ho, -, hr, hs⟩ := observed_of_dispatches hd hn
  refine ⟨calls, r, ho, hs, hr, hd.applies trivial, fun calls' w' r' => ?_⟩
  constructor
  · intro hd'
    exact hd'.shows.unique hd.shows
  · rintro ⟨rfl, rfl, rfl⟩
    exact hd

/-- Calls within arguments, a loop over a block that calls a procedure, a body without calls, and a
call that fails. -/
def climbing : Program :=
  [.define "two" [] [.group (.binary .add (.number 1 1) (.number 1 1) 1) 1] 0,
   .define "rest" [] [.number 0 2] 2,
   .call "repeat" [.call "two" [] 3, .list [.call "rest" [] 3] 3] 3,
   .call "print" [.binary .divide (.call "two" [] 4) (.call "rest" [] 4) 4] 4]

theorem observed_eq_dispatched_climbing :
    ({} : Machine).world.Plain ∧ ((({} : Machine).start climbing).advance 20).isPending = false ∧
    ∃ w' r, Dispatches ({} : Machine).world Scopes.globals (.block climbing)
      [.call "two" [] 3, .binary .add (.number 1 1) (.number 1 1) 1,
       .call "repeat" [.call "two" [] 3, .list [.call "rest" [] 3] 3] 3,
       .call "rest" [] 3, .call "rest" [] 3,
       .call "two" [] 4, .binary .add (.number 1 1) (.number 1 1) 1, .call "rest" [] 4,
       .binary .divide (.call "two" [] 4) (.call "rest" [] 4) 4] w' r := by
  have hend : ((({} : Machine).start climbing).advance 20).isPending = false := by decide +kernel
  obtain ⟨calls, r, ho, -, -, -, hd⟩ :=
    observed_eq_dispatched {} World.Plain.core climbing 20 hend
  refine ⟨World.Plain.core, hend, _, r, (hd _ _ _).2 ⟨?_, rfl, rfl⟩⟩
  apply List.map_injective_iff.2 (Option.some_injective Expr)
  rw [← ho]
  decide +kernel

end LogoLang.Machine
