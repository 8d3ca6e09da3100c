import LogoLang.Program.Path
import LogoLang.Proofs.Expr.Nodes

/-!
Editing a program at a path. Replacing a node and deleting one below a node are updates: one node
becomes another, and what encloses it is put together again. Main statement: what deleting a node
does to the node at any other path.
-/

set_option autoImplicit false

namespace LogoLang

namespace Expr

/-- The node without its child at `i`: the later ones move up in a sequence, and a hole is left
anywhere else. -/
def without (i : Nat) (e : Expr) : Expr :=
  e.withChildren (if e.isSequence then e.children.eraseIdx i else e.children.set i .nil)

theorem children_without (i : Nat) (e : Expr) :
    (e.without i).children =
      if e.isSequence then e.children.eraseIdx i else e.children.set i .nil := by
  refine children_withChildren ?_
  cases h : e.isSequence with
  | true => exact .inl rfl
  | false => exact .inr (by simp)

end Expr

namespace Program

variable {es ds : Program} {path s : Path} {i j k : Nat} {f g : Expr → Expr}

theorem get?_cons_cons (es : Program) (i j : Nat) (s : Path) :
    get? es (i :: j :: s) = es[i]?.bind fun e => get? e.children (j :: s) := rfl

theorem get?_cons_congr (h : es[j]? = ds[k]?) (s : Path) : get? es (j :: s) = get? ds (k :: s) := by
  cases s with
  | nil => exact h
  | cons => rw [get?_cons_cons, get?_cons_cons, h]

theorem get?_cons {e : Expr} (h : es[i]? = some e) (hs : s ≠ []) :
    get? es (i :: s) = get? e.children s := by
  obtain ⟨j, s, rfl⟩ := List.exists_cons_of_ne_nil hs
  rw [get?_cons_cons, h, Option.bind_some]

theorem get?_cons_none (h : es[i]? = none) (s : Path) : get? es (i :: s) = none := by
  cases s with
  | nil => exact h
  | cons => rw [get?_cons_cons, h, Option.bind_none]

theorem get?_append (hp : path ≠ []) (hs : s ≠ []) :
    get? es (path ++ s) = (get? es path).bind fun e => get? e.children s := by
  induction path generalizing es with
  | nil => exact absurd rfl hp
  | cons i path ih =>
    rw [List.cons_append]
    cases h : es[i]? with
    | none => rw [get?_cons_none h, get?_cons_none h, Option.bind_none]
    | some e =>
      rw [get?_cons h (by simp [hs])]
      cases path with
      | nil => rw [List.nil_append, get?, h, Option.bind_some]
      | cons j path => rw [get?_cons h (by simp), ih (by simp)]

theorem isSome_get?_of_append (hp : path ≠ []) (h : (get? es (path ++ s)).isSome) :
    (get? es path).isSome := by
  cases s with
  | nil => rwa [List.append_nil] at h
  | cons j s =>
    rw [get?_append hp (by simp)] at h
    exact Option.isSome_of_isSome_bind h

def update (f : Expr → Expr) : Program → Path → Program
  | es, [] => es
  | es, [i] => es.modify i f
  | es, i :: is => es.modify i fun e => e.withChildren (update f e.children is)

theorem update_cons_cons (f : Expr → Expr) (es : Program) (i j : Nat) (s : Path) :
    update f es (i :: j :: s) =
      es.modify i fun e => e.withChildren (update f e.children (j :: s)) := rfl

@[simp] theorem length_update (f : Expr → Expr) (es : Program) (path : Path) :
    (update f es path).length = es.length := by
  fun_cases update f es path with
  | case1 => rfl
  | case2 | case3 => rw [List.length_modify]

theorem modify_of_getElem? {e : Expr} (h : es[i]? = some e) (f : Expr → Expr) :
    es.modify i f = es.set i (f e) := by
  rw [List.modify_eq_set_getElem?, h]
  rfl

theorem modify_of_getElem?_none (h : es[i]? = none) (f : Expr → Expr) : es.modify i f = es := by
  rw [List.modify_eq_set_getElem?, h]
  rfl

theorem update_cons {e : Expr} (h : es[i]? = some e) (hs : s ≠ []) :
    update f es (i :: s) = es.set i (e.withChildren (update f e.children s)) := by
  obtain ⟨j, s, rfl⟩ := List.exists_cons_of_ne_nil hs
  rw [update_cons_cons, modify_of_getElem? h]

theorem update_cons_none (h : es[i]? = none) (s : Path) : update f es (i :: s) = es := by
  cases s with
  | nil => rw [update, modify_of_getElem?_none h]
  | cons => rw [update_cons_cons, modify_of_getElem?_none h]

theorem update_congr (h : ∀ e, get? es path = some e → f e = g e) :
    update f es path = update g es path := by
  induction path generalizing es with
  | nil => rfl
  | cons i path ih =>
    cases hi : es[i]? with
    | none => rw [update_cons_none hi, update_cons_none hi]
    | some e =>
      cases path with
      | nil => rw [update, update, modify_of_getElem? hi, modify_of_getElem? hi, h e hi]
      | cons j path =>
        have hne : j :: path ≠ [] := by simp
        rw [update_cons hi hne, update_cons hi hne, ih]
        intro d hd
        exact h d (by rw [get?_cons hi hne, hd])

theorem update_append (hp : path ≠ []) (hs : s ≠ []) :
    update f es (path ++ s) = update (fun e => e.withChildren (update f e.children s)) es path := by
  induction path generalizing es with
  | nil => exact absurd rfl hp
  | cons i path ih =>
    rw [List.cons_append]
    cases hi : es[i]? with
    | none => rw [update_cons_none hi, update_cons_none hi]
    | some e =>
      rw [update_cons hi (by simp [hs])]
      cases path with
      | nil => rw [update, modify_of_getElem? hi, List.nil_append]
      | cons j path => rw [update_cons hi (by simp), ih (by simp)]

theorem getElem?_set_of_getElem? {e : Expr} (h : es[i]? = some e) (d : Expr) :
    (es.set i d)[i]? = some d :=
  List.getElem?_set_self (List.getElem?_eq_some_iff.1 h).1

theorem get?_update (hp : path ≠ []) : get? (update f es path) path = (get? es path).map f := by
  induction path generalizing es with
  | nil => exact absurd rfl hp
  | cons i path ih =>
    cases hi : es[i]? with
    | none => rw [update_cons_none hi, get?_cons_none hi, Option.map_none]
    | some e =>
      cases path with
      | nil =>
        rw [update, modify_of_getElem? hi, get?, getElem?_set_of_getElem? hi, get?, hi,
          Option.map_some]
      | cons j path =>
        have hne : j :: path ≠ [] := by simp
        rw [update_cons hi hne, get?_cons (getElem?_set_of_getElem? hi _) hne, get?_cons hi hne,
          Expr.children_withChildren (.inr (length_update ..)), ih hne]

/-- An update is not seen at a path that neither leads through the node nor to it. -/
theorem get?_update_of_not_prefix (hp : ¬ path <+: s) (hs : ¬ s <+: path) :
    get? (update f es path) s = get? es s := by
  induction path generalizing es s with
  | nil => exact absurd List.nil_prefix hp
  | cons i path ih =>
    cases s with
    | nil => exact absurd List.nil_prefix hs
    | cons j s =>
      cases hi : es[i]? with
      | none => rw [update_cons_none hi]
      | some e =>
        by_cases hij : i = j
        · subst hij
          rw [List.cons_prefix_cons, not_and] at hp hs
          have hp' : ¬ path <+: s := hp rfl
          have hs' : ¬ s <+: path := hs rfl
          have hpne : path ≠ [] := by
            rintro rfl
            exact hp' List.nil_prefix
          have hsne : s ≠ [] := by
            rintro rfl
            exact hs' List.nil_prefix
          rw [update_cons hi hpne, get?_cons (getElem?_set_of_getElem? hi _) hsne,
            get?_cons hi hsne, Expr.children_withChildren (.inr (length_update ..)), ih hp' hs']
        · refine get?_cons_congr ?_ s
          cases path with
          | nil => rw [update, List.getElem?_modify_ne f es hij]
          | cons => rw [update_cons_cons, List.getElem?_modify_ne _ es hij]

theorem exists_update_cons {c : Expr} (h : es[k]? = some c) (f : Expr → Expr) (s : Path) :
    ∃ e, update f es (k :: s) = es.set k e := by
  cases s with
  | nil => exact ⟨f c, modify_of_getElem? h f⟩
  | cons j s => exact ⟨_, update_cons h (by simp)⟩

theorem get?_update_of_prefix (hp : path ≠ []) (hc : (get? es (path ++ k :: s)).isSome)
    (f : Expr → Expr) :
    ∃ d e, get? es path = some d ∧ get? (update f es (path ++ k :: s)) (path ++ [k]) = some e ∧
      get? (update f es (path ++ k :: s)) path = some (d.withChildren (d.children.set k e)) := by
  rw [List.append_cons] at hc
  obtain ⟨c, hc⟩ := Option.isSome_iff_exists.1 (isSome_get?_of_append (by simp) hc)
  rw [get?_append hp (by simp), Option.bind_eq_some_iff] at hc
  obtain ⟨d, hd, hk⟩ := hc
  obtain ⟨e, he⟩ := exists_update_cons hk f s
  refine ⟨d, e, hd, ?_, ?_⟩
  · rw [update_append hp (by simp), get?_append hp (by simp), get?_update hp, hd, Option.map_some,
      Option.bind_some, Expr.children_withChildren (.inr (length_update ..)), he]
    exact getElem?_set_of_getElem? hk e
  · rw [update_append hp (by simp), get?_update hp, hd, Option.map_some, he]

theorem replace?_cons_cons (new : Expr) (es : Program) (i j : Nat) (s : Path) :
    replace? new es (i :: j :: s) = es[i]?.bind fun e =>
      (replace? new e.children (j :: s)).map fun (old, cs) =>
        (old, es.set i (e.withChildren cs)) := rfl

theorem replace?_eq (new : Expr) (es : Program) (path : Path) :
    replace? new es path = (get? es path).map fun old => (old, update (fun _ => new) es path) := by
  induction path generalizing es with
  | nil => rfl
  | cons i path ih =>
    cases path with
    | nil => simp only [replace?, get?, update, List.set_eq_modify]
    | cons j path =>
      rw [replace?_cons_cons]
      cases hi : es[i]? with
      | none => rw [get?_cons_none hi, Option.bind_none, Option.map_none]
      | some e =>
        rw [Option.bind_some, ih, get?_cons hi (by simp), Option.map_map, update_cons hi (by simp)]
        rfl

theorem deleteFrom?_cons_cons (fixed : Bool) (es : List Expr) (i j : Nat) (path : Path) :
    deleteFrom? fixed es (i :: j :: path) = es[i]?.bind fun e =>
      (deleteFrom? (!e.isSequence) e.children (j :: path)).map fun (old, cs) =>
        (old, es.set i (e.withChildren cs)) := rfl

/-- Deleting a node below another one is an update of that one. -/
theorem deleteFrom?_eq (fixed : Bool) (hp : path ≠ []) (i : Nat) :
    deleteFrom? fixed es (path ++ [i]) =
      (get? es (path ++ [i])).map fun old => (old, update (Expr.without i) es path) := by
  induction path generalizing es fixed with
  | nil => exact absurd rfl hp
  | cons j path ih =>
    rw [List.cons_append]
    cases hj : es[j]? with
    | none =>
      cases path <;> rw [get?_cons_none hj, Option.map_none]
      · rw [List.nil_append, deleteFrom?_cons_cons, hj, Option.bind_none]
      · rw [List.cons_append, deleteFrom?_cons_cons, hj, Option.bind_none]
    | some e =>
      rw [get?_cons hj (by simp)]
      cases path with
      | nil =>
        rw [List.nil_append, deleteFrom?_cons_cons, hj, Option.bind_some, update,
          modify_of_getElem? hj]
        simp only [deleteFrom?, get?, Option.map_map, Expr.without]
        cases e.isSequence <;> rfl
      | cons k path =>
        rw [List.cons_append, deleteFrom?_cons_cons, hj, Option.bind_some, ← List.cons_append,
          ih _ (by simp), Option.map_map, update_cons hj (by simp)]
        rfl

theorem delete?_eq (p : Program) (path : Path) (i : Nat) :
    p.delete? (path ++ [i]) = (p.get? (path ++ [i])).map fun old =>
      (old, if path = [] then p.eraseIdx i else update (Expr.without i) p path) := by
  by_cases hp : path = []
  · subst hp
    simp [delete?, deleteFrom?, get?]
  · rw [delete?, deleteFrom?_eq false hp, if_neg hp]

def afterDelete (p : Program) (path : Path) : Program := ((p.delete? path).map Prod.snd).getD p

/-- What becomes of a program when the node at `i` below `parent` is deleted, at the top level if
`parent` is empty. -/
structure Removes (p : Program) (parent : Path) (i : Nat) (old : Expr) (q : Program) : Prop where
  top : parent = [] → q = p.eraseIdx i
  /-- In a sequence the later nodes move up. -/
  sequence : (parent = [] ∨ ∃ e, p.get? parent = some e ∧ e.isSequence = true) →
    ∀ j s, q.get? (parent ++ j :: s) = p.get? (parent ++ (if j < i then j else j + 1) :: s)
  body : ∀ e, p.get? parent = some e → e.isSequence = true →
    q.get? parent = some (e.withChildren (e.children.eraseIdx i))
  /-- Anywhere else a hole takes the place of the node. -/
  hole : ∀ e, p.get? parent = some e → e.isSequence = false →
    p.replace? .nil (parent ++ [i]) = some (old, q) ∧
    q.get? parent = some (e.withChildren (e.children.set i .nil)) ∧
    q.get? (parent ++ [i]) = some .nil ∧
    ∀ j s, j ≠ i → q.get? (parent ++ j :: s) = p.get? (parent ++ j :: s)
  elsewhere : ∀ s, ¬ parent <+: s → ¬ s <+: parent → q.get? s = p.get? s
  ancestors : ∀ a k s, a ≠ [] → parent = a ++ k :: s →
    ∃ d e, p.get? a = some d ∧ q.get? (a ++ [k]) = some e ∧
      q.get? a = some (d.withChildren (d.children.set k e))

theorem removes_top (p : Program) (i : Nat) (old : Expr) : Removes p [] i old (p.eraseIdx i) where
  top _ := rfl
  sequence _ j s := by
    refine get?_cons_congr ?_ s
    rw [List.getElem?_eraseIdx]
    split <;> rfl
  body e he := by cases he
  hole e he := by cases he
  elsewhere s hs := absurd List.nil_prefix hs
  ancestors a k s ha hp := by simp at hp

theorem removes_update {p : Program} {parent : Path} {old : Expr} (hp : parent ≠ [])
    (ho : p.get? (parent ++ [i]) = some old) :
    Removes p parent i old (update (Expr.without i) p parent) := by
  obtain ⟨d, hd, hi⟩ := Option.bind_eq_some_iff.1 ((get?_append hp (by simp)).symm.trans ho)
  have hself : get? (update (Expr.without i) p parent) parent = some (d.without i) := by
    rw [get?_update hp, hd, Option.map_some]
  have below (j : Nat) (s : Path) :
      get? (update (Expr.without i) p parent) (parent ++ j :: s) =
        get? (d.without i).children (j :: s) := by
    rw [get?_append hp (by simp), hself, Option.bind_some]
  have before (j : Nat) (s : Path) : p.get? (parent ++ j :: s) = get? d.children (j :: s) := by
    rw [get?_append hp (by simp), hd, Option.bind_some]
  exact {
    top := fun h => absurd h hp
    sequence := by
      rintro (h | ⟨e, he, hseq⟩) j s
      · exact absurd h hp
      · cases hd.symm.trans he
        rw [below, before, Expr.children_without, if_pos hseq]
        refine get?_cons_congr ?_ s
        rw [List.getElem?_eraseIdx]
        split <;> rfl
    body := by
      intro e he hseq
      cases hd.symm.trans he
      rw [hself, Expr.without, if_pos hseq]
    hole := by
      intro e he hseq
      cases hd.symm.trans he
      have hnot : ¬ d.isSequence = true := by simp [hseq]
      have hset : get? d.children [i] = some old := hi
      refine ⟨?_, ?_, ?_, fun j s hj => ?_⟩
      · rw [replace?_eq, ho, Option.map_some, update_append hp (by simp)]
        refine congrArg (fun q => some (old, q)) (update_congr fun e he => ?_)
        cases hd.symm.trans he
        rw [Expr.without, if_neg hnot, update, List.set_eq_modify]
      · rw [hself, Expr.without, if_neg hnot]
      · rw [below, Expr.children_without, if_neg hnot]
        exact getElem?_set_of_getElem? hset .nil
      · rw [below, before, Expr.children_without, if_neg hnot]
        exact get?_cons_congr (List.getElem?_set_ne (Ne.symm hj)) s
    elsewhere := fun s hs hs' => get?_update_of_not_prefix hs hs'
    ancestors := by
      rintro a k s ha rfl
      exact get?_update_of_prefix ha (by rw [hd]; rfl) (Expr.without i) }

/-- Deleting returns the node at the path. Where there is none the program stays as it is, and else
it loses this node only. -/
theorem delete?_removes (p : Program) (path : Path) :
    (p.delete? path).map Prod.fst = p.get? path ∧
    (p.get? path = none → p.afterDelete path = p) ∧
    ∀ parent i old, path = parent ++ [i] → p.get? path = some old →
      p.Removes parent i old (p.afterDelete path) := by
  rcases List.eq_nil_or_concat' path with rfl | ⟨parent, i, rfl⟩
  · refine ⟨rfl, fun _ => rfl, fun parent i old hpath => ?_⟩
    simp at hpath
  · have hd := delete?_eq p parent i
    refine ⟨?_, fun hnone => ?_, fun parent' i' old hpath ho => ?_⟩
    · rw [hd, Option.map_map, Function.comp_def, Option.map_id']
    · rw [afterDelete, hd, hnone]
      rfl
    · obtain ⟨rfl, hi⟩ := List.append_inj' hpath rfl
      cases hi
      rw [afterDelete, hd, ho, Option.map_some, Option.map_some, Option.getD_some]
      split
      · rename_i hp
        subst hp
        exact removes_top p i old
      · rename_i hp
        exact removes_update hp ho

def tallyProgram : Program := [
  .define "tally" ["n"] [
    .call "print" [.binary .add (.var "n" 1) (.number 1 1) 1] 1,
    .list [.number 1 2, .number 2 2] 2] 0]

theorem delete?_removes_tally :
    tallyProgram.get? [0, 1, 0] = some (.number 1 2) ∧
    tallyProgram.get? [0, 0, 0, 1] = some (.number 1 1) ∧
    Removes tallyProgram [0, 1] 0 (.number 1 2) (tallyProgram.afterDelete [0, 1, 0]) ∧
    Removes tallyProgram [0, 0, 0] 1 (.number 1 1) (tallyProgram.afterDelete [0, 0, 0, 1]) ∧
    (tallyProgram.afterDelete [0, 1, 0]).get? [0, 1] = some (.list [.number 2 2] 2) ∧
    (tallyProgram.afterDelete [0, 0, 0, 1]).get? [0, 0, 0] =
      some (.binary .add (.var "n" 1) .nil 1) ∧
    tallyProgram.afterDelete [7] = tallyProgram :=
  ⟨rfl, rfl, (delete?_removes tallyProgram [0, 1, 0]).2.2 [0, 1] 0 _ rfl rfl,
    (delete?_removes tallyProgram [0, 0, 0, 1]).2.2 [0, 0, 0] 1 _ rfl rfl, rfl, rfl,
    (delete?_removes tallyProgram [7]).2.1 rfl⟩

end Program

end LogoLang
