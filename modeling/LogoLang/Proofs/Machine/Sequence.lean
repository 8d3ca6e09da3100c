import LogoLang.Proofs.Machine.Dispatch

/-!
Programs one after the other. Main statement: a machine that runs two programs as one comes to where
it comes by running them in two sessions, in as many steps.
-/

set_option autoImplicit false

namespace LogoLang

namespace Direct

variable {α : Type} {w w₁ w' : World} {h : Scopes.Handle} {j : Job α} {as bs : List Expr}

/-- More can follow a block that ends well. Its own value is dropped then. -/
def Job.Precedes {α : Type} (w : World) (h : Scopes.Handle) :
    Job α → List Expr → World → Except Fault α → Prop
  | .block es, as, w₁, .ok _ => ∀ ⦃d ds bs w' r⦄, Dispatches w₁ h (.block (d :: ds)) bs w' r →
    Dispatches w h (.block (es ++ d :: ds)) (as ++ bs) w' r
  | _, _, _, _ => True

theorem Dispatches.precedes {r : Except Fault α} (hd : Dispatches w h j as w₁ r) :
    j.Precedes w h as w₁ r := by
  induction hd with
  | empty => exact fun d ds bs w' r hd => hd
  | @last w w₁ h e as r he =>
    cases r with
    | ok v => exact fun d ds bs w' r hd => .drop he hd
    | error f => trivial
  | @drop w w₂ w₁ h e e' es as bs v r he _ _ ih =>
    cases r with
    | ok u =>
      intro d ds cs w' r hd
      rw [List.append_assoc]
      exact .drop he (ih hd)
    | error f => trivial
  | _ => trivial

theorem Dispatches.append {es ds : List Expr} {v : Value} {r : Except Fault Value}
    (he : Dispatches w h (.block es) as w₁ (.ok v)) (hne : ds ≠ [])
    (hd : Dispatches w₁ h (.block ds) bs w' r) :
    Dispatches w h (.block (es ++ ds)) (as ++ bs) w' r := by
  obtain ⟨d, ds, rfl⟩ := List.exists_cons_of_ne_nil hne
  exact he.precedes hd

theorem Evaluates.prints {r : Except Fault α} (he : Evaluates w h j w' r) :
    ∃ printed, w'.output = w.output ++ printed := by
  have done (w : World) : ∃ printed, w.output = w.output ++ printed :=
    ⟨"", String.append_empty.symm⟩
  have both {w w₁ w' : World} : (∃ printed, w₁.output = w.output ++ printed) →
      (∃ printed, w'.output = w₁.output ++ printed) →
      ∃ printed, w'.output = w.output ++ printed := by
    rintro ⟨s, hs⟩ ⟨t, ht⟩
    exact ⟨s ++ t, by rw [ht, hs, String.append_assoc]⟩
  induction he with
  | @say w h c vs k text hw hk =>
    unfold World.print
    split
    · exact done w
    · exact ⟨text ++ "\n", String.append_assoc ..⟩
  | call _ _ _ iha ihw => exact both iha ihw
  | cons _ _ ihe ihs | drop _ _ ihe ihs | again _ _ ihe ihs => exact both ihe ihs
  | group _ ih | stop _ ih | last _ ih | broken _ ih | halted _ ih | argument _ _ ih => exact ih
  | run _ _ _ ih | loop _ _ _ ih | enter _ _ ih => exact ih
  | _ => exact done _

end Direct

open Direct

namespace Machine

variable {m : Machine} {p q : Program} {n k l : Nat}

theorem dispatches_of_completed (hm : m.world.Plain) {v : Value}
    (hp : ((m.start p).advance n).session = .completed v) :
    ∃ calls, Dispatches m.world Scopes.globals (.block p) calls ((m.start p).advance n).world
      (.ok v) ∧ ((m.start p).advance n).steps = calls.length := by
  obtain ⟨calls, r, hd, hn⟩ := exists_dispatches hm (by rw [isPending, hp])
  obtain ⟨-, -, hr, hs⟩ := observed_of_dispatches hd hn
  rw [hp] at hr
  cases r with
  | ok u =>
    cases hr
    exact ⟨calls, hd, hs⟩
  | error f => cases hr

/-- Two programs run as one, if the first one completes. -/
theorem advance_start_append (hm : m.world.Plain) {v : Value}
    (hp : ((m.start p).advance n).session = .completed v) (hne : q ≠ [])
    (hq : ((((m.start p).advance n).start q).advance k).isPending = false)
    (hl : ((m.start p).advance n).steps +
      ((((m.start p).advance n).start q).advance k).steps ≤ l) :
    ((m.start (p ++ q)).advance l).world = ((((m.start p).advance n).start q).advance k).world ∧
    ((m.start (p ++ q)).advance l).session =
      ((((m.start p).advance n).start q).advance k).session ∧
    ((m.start (p ++ q)).advance l).steps = ((m.start p).advance n).steps +
      ((((m.start p).advance n).start q).advance k).steps := by
  obtain ⟨as, hd, hs⟩ := dispatches_of_completed hm hp
  obtain ⟨bs, r, hd', hk⟩ := exists_dispatches (plain_advance (plain_start hm p) n) hq
  obtain ⟨-, -, hr, hs'⟩ := observed_of_dispatches hd' hk
  have hlen : (as ++ bs).length ≤ l := by
    rw [List.length_append, ← hs, ← hs']
    exact hl
  obtain ⟨-, hw, hr₁, hs₁⟩ := observed_of_dispatches (hd.append hne hd') hlen
  refine ⟨hw, hr₁.trans hr.symm, ?_⟩
  rw [hs₁, hs, hs', List.length_append]

theorem output_advance_start (hm : m.world.Plain)
    (hp : ((m.start p).advance n).isPending = false) :
    ∃ printed, ((m.start p).advance n).world.output = m.world.output ++ printed := by
  obtain ⟨calls, r, hd, -⟩ := exists_dispatches hm hp
  exact hd.evaluates.prints

end Machine

end LogoLang
