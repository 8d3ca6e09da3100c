import LogoLang.Proofs.Program.Editing

/-!
Replacing a node of a program. A path and the programs that have a node there behave like a field
and its records: what was written is read, the last of two writes counts, and to write what was
there is to change nothing. Main statement: these laws for every path, and which paths name no node,
so that nothing happens there.
-/

set_option autoImplicit false

namespace LogoLang

namespace Program

variable {p q : Program} {path s : Path} {f g : Expr → Expr} {new old : Expr}

theorem update_id (p : Program) (path : Path) : update id p path = p := by
  induction path generalizing p with
  | nil => rfl
  | cons i path ih =>
    cases hi : p[i]? with
    | none => exact update_cons_none hi path
    | some e =>
      cases path with
      | nil => rw [update, List.modify_id]
      | cons j path =>
        rw [update_cons hi (by simp), ih, Expr.withChildren_children]
        obtain ⟨hlt, rfl⟩ := List.getElem?_eq_some_iff.1 hi
        exact List.set_getElem_self hlt

theorem update_of_get? (h : p.get? path = some old) : update (fun _ => old) p path = p := by
  rw [update_congr (g := id), update_id]
  intro e he
  exact Option.some.inj (h.symm.trans he)

theorem update_update (f g : Expr → Expr) (p : Program) (path : Path) :
    update g (update f p path) path = update (g ∘ f) p path := by
  induction path generalizing p with
  | nil => rfl
  | cons i path ih =>
    cases hi : p[i]? with
    | none => rw [update_cons_none hi, update_cons_none hi, update_cons_none hi]
    | some e =>
      cases path with
      | nil => rw [update, update, update, List.modify_modify_eq]
      | cons j path =>
        have hne : j :: path ≠ [] := by simp
        rw [update_cons hi hne, update_cons hi hne, update_cons (getElem?_set_of_getElem? hi _) hne,
          List.set_set, Expr.children_withChildren (.inr (length_update ..)), ih,
          Expr.withChildren_withChildren (length_update ..) (length_update ..)]

/-- The expressions directly below a path. Those below the empty path are the program. -/
def below? (p : Program) : Path → Option (List Expr)
  | [] => some p
  | path => (p.get? path).map Expr.children

theorem below?_cons {e : Expr} {i : Nat} (h : p[i]? = some e) (a : Path) :
    p.below? (i :: a) = below? e.children a := by
  cases a with
  | nil => exact congrArg (Option.map Expr.children) h
  | cons j a =>
    change (p.get? (i :: j :: a)).map Expr.children = (get? e.children (j :: a)).map Expr.children
    rw [get?_cons h (by simp)]

/-- A path names no node if it is empty, or leads at some point beyond the last of the expressions
that there are. -/
theorem get?_eq_none_iff :
    p.get? path = none ↔
      path = [] ∨ ∃ a i s es, path = a ++ i :: s ∧ p.below? a = some es ∧ es.length ≤ i := by
  induction path generalizing p with
  | nil => exact ⟨fun _ => .inl rfl, fun _ => rfl⟩
  | cons i path ih =>
    cases hi : p[i]? with
    | none =>
      have hlen : p.length ≤ i := List.getElem?_eq_none_iff.1 hi
      exact ⟨fun _ => .inr ⟨[], i, path, p, rfl, rfl, hlen⟩, fun _ => get?_cons_none hi path⟩
    | some e =>
      have hlt : i < p.length := (List.getElem?_eq_some_iff.1 hi).1
      constructor
      · intro hnone
        have hne : path ≠ [] := by
          rintro rfl
          cases hi.symm.trans hnone
        rw [get?_cons hi hne] at hnone
        obtain ⟨a, j, s, es, rfl, hb, hj⟩ := (ih.1 hnone).resolve_left hne
        exact .inr ⟨i :: a, j, s, es, rfl, (below?_cons hi a).trans hb, hj⟩
      · rintro (h | ⟨_ | ⟨_, a⟩, j, s, es, hpath, hb, hj⟩)
        · cases h
        · cases hpath
          cases hb
          exact absurd hj (Nat.not_le_of_lt hlt)
        · cases hpath
          rw [below?_cons hi] at hb
          rw [get?_cons hi (by simp), ih]
          exact .inr ⟨a, j, s, es, rfl, hb, hj⟩

def afterReplace (new : Expr) (p : Program) (path : Path) : Program :=
  ((p.replace? new path).map Prod.snd).getD p

theorem afterReplace_eq (h : p.get? path = some old) :
    p.afterReplace new path = update (fun _ => new) p path := by
  rw [afterReplace, replace?_eq, h]
  rfl

/-- What it means for `q` to be the program `p` with `new` instead of the node `old` at a path. -/
structure Replaces (p : Program) (path : Path) (old new : Expr) (q : Program) : Prop where
  there : q.get? path = some new
  below : ∀ s, s ≠ [] → q.get? (path ++ s) = get? new.children s
  elsewhere : ∀ s, ¬ path <+: s → ¬ s <+: path → q.get? s = p.get? s
  /-- What encloses the node changes in its child on the path only. -/
  above : ∀ a k s, a ≠ [] → path = a ++ k :: s →
    ∃ d e, p.get? a = some d ∧ q.get? (a ++ [k]) = some e ∧
      q.get? a = some (d.withChildren (d.children.set k e))
  overwritten : ∀ newer, q.replace? newer path = some (new, p.afterReplace newer path)
  restored : q.replace? old path = some (new, p)

theorem replaces_update (h : p.get? path = some old) (new : Expr) :
    Replaces p path old new (update (fun _ => new) p path) := by
  have hne : path ≠ [] := by
    rintro rfl
    cases h
  have hthere : get? (update (fun _ => new) p path) path = some new := by
    rw [get?_update hne, h, Option.map_some]
  have hagain (newer : Expr) : replace? newer (update (fun _ => new) p path) path =
      some (new, update (fun _ => newer) p path) := by
    rw [replace?_eq, hthere, Option.map_some, update_update]
    rfl
  exact {
    there := hthere
    below := fun s hs => by rw [get?_append hne hs, hthere, Option.bind_some]
    elsewhere := fun s hs hs' => get?_update_of_not_prefix hs hs'
    above := by
      rintro a k s ha rfl
      exact get?_update_of_prefix ha (by rw [h]; rfl) fun _ => new
    overwritten := fun newer => by rw [hagain, afterReplace_eq h]
    restored := by rw [hagain, update_of_get? h] }

/-- Main statement. Replacing returns the node that is at the path, and obeys the laws of writing
and reading. Where the path names no node nothing is returned and nothing changes: that is so for
the empty path and for a path with an index that is out of range. -/
theorem replace?_replaces (new : Expr) (p : Program) (path : Path) :
    (∀ old, p.get? path = some old →
      p.replace? new path = some (old, p.afterReplace new path) ∧
      p.Replaces path old new (p.afterReplace new path)) ∧
    (p.get? path = none → p.replace? new path = none ∧ p.afterReplace new path = p) ∧
    (p.get? path = none ↔
      path = [] ∨ ∃ a i s es, path = a ++ i :: s ∧ p.below? a = some es ∧ es.length ≤ i) := by
  refine ⟨fun old hold => ?_, fun hnone => ?_, get?_eq_none_iff⟩
  · rw [afterReplace_eq hold]
    refine ⟨?_, replaces_update hold new⟩
    rw [replace?_eq, hold, Option.map_some]
  · have hr : p.replace? new path = none := by rw [replace?_eq, hnone, Option.map_none]
    exact ⟨hr, by rw [afterReplace, hr, Option.map_none, Option.getD_none]⟩

/-- Every kind of node that has others below it encloses the operand `1`, or stands beside it. -/
def growProgram : Program := [
  .define "grow" ["n"] [
    .call "print" [
      .binary .multiply (.group (.binary .add (.var "n" 1) (.number 1 1) 1) 1) (.number 2 1) 1] 1,
    .list [.word "a" 2, .nil] 2] 0]

theorem replace?_replaces_grow :
    growProgram.get? [0, 0, 0, 0, 0, 1] = some (.number 1 1) ∧
    growProgram.replace? (.var "m" 7) [0, 0, 0, 0, 0, 1] =
      some (.number 1 1, growProgram.afterReplace (.var "m" 7) [0, 0, 0, 0, 0, 1]) ∧
    (growProgram.afterReplace (.var "m" 7) [0, 0, 0, 0, 0, 1]).get? [0, 0, 0, 0] =
      some (.group (.binary .add (.var "n" 1) (.var "m" 7) 1) 1) ∧
    (growProgram.afterReplace (.var "m" 7) [0, 0, 0, 0, 0, 1]).get? [0, 1] =
      growProgram.get? [0, 1] ∧
    (growProgram.afterReplace (.var "m" 7) [0, 0, 0, 0, 0, 1]).replace? (.number 1 1)
      [0, 0, 0, 0, 0, 1] = some (.var "m" 7, growProgram) ∧
    growProgram.replace? (.var "m" 7) [0, 0, 0, 0, 1] = none := by
  obtain ⟨hsome, -, -⟩ := replace?_replaces (.var "m" 7) growProgram [0, 0, 0, 0, 0, 1]
  obtain ⟨hreplace, hlaws⟩ := hsome (.number 1 1) rfl
  obtain ⟨-, hnone, hout⟩ := replace?_replaces (.var "m" 7) growProgram [0, 0, 0, 0, 1]
  have hroom : growProgram.get? [0, 0, 0, 0, 1] = none :=
    hout.2 (.inr ⟨[0, 0, 0, 0], 1, [], _, rfl, rfl, by decide⟩)
  exact ⟨rfl, hreplace, rfl, hlaws.elsewhere [0, 1] (by decide) (by decide), hlaws.restored,
    (hnone hroom).1⟩

end Program

end LogoLang
