import LogoLang.Proofs.Program.Editing
import Mathlib.Data.List.Lex
import Mathlib.Data.List.Perm.Subperm

/-!
The visit of a program, with a stack of the nodes that are still to come. At every moment each node
has been visited, is on the stack or is below a node on the stack. Main statement: the visit notes
the path of each node and no other, in increasing order, so once each, and what encloses a node
comes before it.
-/

set_option autoImplicit false

namespace LogoLang

namespace Path

variable {p p' q q' : Path} {i j : Nat}

/-- The paths part somewhere, and the first one goes on further to the left. -/
def LeftOf (p q : Path) : Prop := ∃ a i j, i < j ∧ a ++ [i] <+: p ∧ a ++ [j] <+: q

theorem leftOf_siblings (a : Path) (h : i < j) : LeftOf (a ++ [i]) (a ++ [j]) :=
  ⟨a, i, j, h, List.prefix_rfl, List.prefix_rfl⟩

theorem LeftOf.mono (h : LeftOf p q) (hp : p <+: p') (hq : q <+: q') : LeftOf p' q' := by
  obtain ⟨a, i, j, hij, hi, hj⟩ := h
  exact ⟨a, i, j, hij, hi.trans hp, hj.trans hq⟩

theorem LeftOf.lt (h : LeftOf p q) : p < q := by
  obtain ⟨a, i, j, hij, ⟨r, rfl⟩, ⟨s, rfl⟩⟩ := h
  rw [List.append_assoc, List.append_assoc]
  exact List.append_left_lt (List.cons_lt_cons_iff.2 (.inl hij))

theorem lt_append_singleton (p : Path) (i : Nat) : p < p ++ [i] := by
  have h : p ++ [] < p ++ [i] := List.append_left_lt (List.nil_lt_cons i [])
  rwa [List.append_nil] at h

/-- What lies between a path and one below it is below it too. -/
theorem prefix_of_between (hpq : p < q) (hq : q < q') (hp : p <+: q') : p <+: q := by
  induction p generalizing q q' with
  | nil => exact List.nil_prefix
  | cons i p ih =>
    obtain ⟨r, rfl⟩ := hp
    cases q with
    | nil => exact absurd hpq (List.not_lt_nil _)
    | cons j q =>
      rw [List.cons_append, List.cons_lt_cons_iff] at hq
      rw [List.cons_lt_cons_iff] at hpq
      -- The first index can neither go up nor come down again, so the rest decides.
      have hij : i = j := by omega
      subst hij
      have hlow : p < q := (hpq.resolve_left (Nat.lt_irrefl i)).2
      have hhigh : q < p ++ r := (hq.resolve_left (Nat.lt_irrefl i)).2
      exact List.cons_prefix_cons.2 ⟨rfl, ih hlow hhigh (List.prefix_append p r)⟩

theorem parent?_eq_some (h : p.parent? = some q) : q ≠ [] ∧ ∃ i, p = q ++ [i] := by
  obtain ⟨hlen, rfl⟩ : ¬ p.length ≤ 1 ∧ p.dropLast = q := by simpa [parent?] using h
  have hp : p ≠ [] := by
    rintro rfl
    exact hlen (Nat.zero_le 1)
  refine ⟨fun hnil => hlen ?_, p.getLast hp, (List.dropLast_concat_getLast hp).symm⟩
  have hzero := congrArg List.length hnil
  rw [List.length_dropLast, List.length_nil] at hzero
  omega

end Path

namespace Site

variable {above : Path} {es : List Expr} {s : Site}

theorem mem_row_iff : s ∈ row above es ↔ ∃ i, s.path = above ++ [i] ∧ es[i]? = some s.node := by
  rw [row, List.mem_mapIdx]
  constructor
  · rintro ⟨i, hi, rfl⟩
    exact ⟨i, rfl, List.getElem?_eq_getElem hi⟩
  · rintro ⟨i, hp, he⟩
    obtain ⟨hi, hn⟩ := List.getElem?_eq_some_iff.1 he
    exact ⟨i, hi, by rw [hn, ← hp]⟩

theorem prefix_of_mem_row (hs : s ∈ row above es) : above <+: s.path := by
  obtain ⟨i, hp, -⟩ := mem_row_iff.1 hs
  exact hp ▸ List.prefix_append above [i]

theorem lt_of_mem_row (hs : s ∈ row above es) : above < s.path := by
  obtain ⟨i, hp, -⟩ := mem_row_iff.1 hs
  exact hp ▸ Path.lt_append_singleton above i

/-- A node in a row or below it is at or below one of the sites. -/
theorem exists_mem_row {i : Nat} {r : Path} (h : (Program.get? es (i :: r)).isSome)
    (above : Path) : ∃ s ∈ row above es, s.path <+: above ++ i :: r := by
  cases he : es[i]? with
  | none =>
    rw [Program.get?_cons_none he] at h
    cases h
  | some e => exact ⟨⟨above ++ [i], e⟩, mem_row_iff.2 ⟨i, rfl, he⟩, r, by simp⟩

theorem pairwise_row (above : Path) (es : List Expr) :
    (row above es).Pairwise fun s t => Path.LeftOf s.path t.path := by
  rw [List.pairwise_iff_getElem]
  intro i j hi hj hij
  simp only [row, List.getElem_mapIdx]
  exact Path.leftOf_siblings above hij

end Site

namespace Program

variable {p : Program} {out : Array Path} {stack : List Site} {s : Site}

theorem ne_nil_of_get? {path : Path} {e : Expr} (h : p.get? path = some e) : path ≠ [] := by
  rintro rfl
  cases h

/-- What has been noted of a program, and the stack, at a moment of the visit. -/
structure Visiting (p : Program) (out : Array Path) (stack : List Site) : Prop where
  noted : ∀ q ∈ out, (p.get? q).isSome
  placed : ∀ s ∈ stack, p.get? s.path = some s.node
  /-- No node is left behind. -/
  covered : ∀ q, (p.get? q).isSome → q ∈ out ∨ ∃ s ∈ stack, s.path <+: q
  ascending : out.toList.Pairwise (· < ·)
  /-- Neither of two nodes on the stack encloses the other. -/
  parted : stack.Pairwise fun s t => Path.LeftOf s.path t.path
  ahead : ∀ q ∈ out, ∀ s ∈ stack, q < s.path

namespace Visiting

theorem start (p : Program) : Visiting p #[] (Site.row [] p) where
  noted := by simp
  placed s hs := by
    obtain ⟨i, hp, he⟩ := Site.mem_row_iff.1 hs
    rw [hp]
    exact he
  covered q hq := by
    cases q with
    | nil => cases hq
    | cons i q => exact .inr (Site.exists_mem_row hq [])
  ascending := .nil
  parted := Site.pairwise_row [] p
  ahead := by simp

/-- One node is visited, and those directly below it take its place. -/
theorem step (h : Visiting p out (s :: stack)) :
    Visiting p (out.push s.path) (s.below ++ stack) := by
  have hs : p.get? s.path = some s.node := h.placed s (by simp)
  have below (i : Nat) (r : Path) : p.get? (s.path ++ i :: r) = get? s.node.children (i :: r) := by
    rw [get?_append (ne_nil_of_get? hs) (by simp), hs, Option.bind_some]
  obtain ⟨hfirst, hparted⟩ := List.pairwise_cons.1 h.parted
  rw [Site.below_eq_row]
  exact {
    noted := by
      intro q hq
      rcases Array.mem_push.1 hq with hq | rfl
      · exact h.noted q hq
      · rw [hs]
        rfl
    placed := by
      intro t ht
      rcases List.mem_append.1 ht with ht | ht
      · obtain ⟨i, hp, he⟩ := Site.mem_row_iff.1 ht
        rw [hp, below]
        exact he
      · exact h.placed t (by simp [ht])
    covered := by
      intro q hq
      rcases h.covered q hq with hout | ⟨t, ht, hpre⟩
      · exact .inl (Array.mem_push_of_mem _ hout)
      · rcases List.mem_cons.1 ht with rfl | ht
        -- A path at or below the visited node: the node itself, or at or below one of its children.
        · obtain ⟨_ | ⟨i, r⟩, rfl⟩ := hpre
          · rw [List.append_nil]
            exact .inl Array.mem_push_self
          · rw [below] at hq
            obtain ⟨u, hu, hpre⟩ := Site.exists_mem_row hq t.path
            exact .inr ⟨u, List.mem_append_left _ hu, hpre⟩
        · exact .inr ⟨t, List.mem_append_right _ ht, hpre⟩
    ascending := by
      rw [Array.toList_push, List.pairwise_append]
      refine ⟨h.ascending, List.pairwise_singleton .., fun q hq r hr => ?_⟩
      rw [List.mem_singleton.1 hr]
      exact h.ahead q (Array.mem_toList_iff.1 hq) s (by simp)
    parted := by
      rw [List.pairwise_append]
      refine ⟨Site.pairwise_row .., hparted, fun t ht u hu => ?_⟩
      exact (hfirst u hu).mono (Site.prefix_of_mem_row ht) List.prefix_rfl
    ahead := by
      intro q hq t ht
      have hle : q = s.path ∨ q < s.path := by
        rcases Array.mem_push.1 hq with hq | rfl
        · exact .inr (h.ahead q hq s (by simp))
        · exact .inl rfl
      have hlt : s.path < t.path := by
        rcases List.mem_append.1 ht with ht | ht
        · exact Site.lt_of_mem_row ht
        · exact (hfirst t ht).lt
      rcases hle with rfl | hle
      · exact hlt
      · exact List.lt_trans hle hlt }

theorem run (h : Visiting p out stack) : Visiting p (visit out stack) [] := by
  fun_induction visit out stack with
  | case1 out => exact h
  | case2 out s stack ih => exact ih h.step

theorem mem_iff (h : Visiting p out []) {q : Path} : q ∈ out ↔ (p.get? q).isSome := by
  refine ⟨h.noted q, fun hq => ?_⟩
  rcases h.covered q hq with hq | ⟨s, hs, -⟩
  · exact hq
  · cases hs

end Visiting

theorem pair_sublist {ps : List Path} (h : ps.Pairwise (· < ·)) {a b : Path} (ha : a ∈ ps)
    (hb : b ∈ ps) (hab : a < b) : [a, b].Sublist ps := by
  obtain ⟨before, after, rfl⟩ := List.append_of_mem ha
  obtain ⟨-, -, hbefore⟩ := List.pairwise_append.1 h
  rcases List.mem_append.1 hb with hb | hb
  · exact absurd (List.lt_trans hab (hbefore b hb a (by simp))) (List.lt_irrefl a)
  · rcases List.mem_cons.1 hb with rfl | hb
    · exact absurd hab (List.lt_irrefl b)
    · refine List.Sublist.trans ?_ (List.sublist_append_right before _)
      exact (List.singleton_sublist.2 hb).cons_cons a

/-- Main statement. The paths are those of the nodes and no others, in increasing order. So each
comes once, an enclosing node comes before what it encloses, and whatever stands between a node and
one below it is below it too. -/
theorem paths_enumerate_nodes (p : Program) :
    (∀ path, path ∈ p.paths ↔ (p.get? path).isSome) ∧
    p.paths.Pairwise (· < ·) ∧ p.paths.Nodup ∧
    (∀ path parent, path ∈ p.paths → path.parent? = some parent →
      [parent, path].Sublist p.paths) ∧
    ∀ a b c, [a, b, c].Sublist p.paths → a <+: c → a <+: b := by
  have hend : Visiting p (visit #[] (Site.row [] p)) [] := (Visiting.start p).run
  have hmem : ∀ path, path ∈ p.paths ↔ (p.get? path).isSome := fun path => by
    rw [paths, Array.mem_toList_iff, hend.mem_iff]
  have hlt : p.paths.Pairwise (· < ·) := hend.ascending
  refine ⟨hmem, hlt, hlt.imp ne_of_lt, fun path parent hpath hparent => ?_, fun a b c hs hac => ?_⟩
  · obtain ⟨hne, i, rfl⟩ := Path.parent?_eq_some hparent
    have hp : parent ∈ p.paths := (hmem _).2 (isSome_get?_of_append hne ((hmem _).1 hpath))
    exact pair_sublist hlt hp hpath (Path.lt_append_singleton parent i)
  · obtain ⟨ha, hb⟩ := List.pairwise_cons.1 (hlt.sublist hs)
    exact Path.prefix_of_between (ha b (by simp)) (List.rel_of_pairwise_cons hb (by simp)) hac

theorem paths_enumerate_nodes_tally :
    tallyProgram.paths = [[0], [0, 0], [0, 0, 0], [0, 0, 0, 0], [0, 0, 0, 1], [0, 1], [0, 1, 0],
      [0, 1, 1]] ∧
    [[0, 0, 0], [0, 0, 0, 1]].Sublist tallyProgram.paths ∧
    ([0, 0] : Path) <+: [0, 0, 0] ∧ [0, 2] ∉ tallyProgram.paths := by
  have h : tallyProgram.paths = [[0], [0, 0], [0, 0, 0], [0, 0, 0, 0], [0, 0, 0, 1], [0, 1],
    [0, 1, 0], [0, 1, 1]] := by decide +kernel
  obtain ⟨hmem, -, -, hparent, hbetween⟩ := paths_enumerate_nodes tallyProgram
  refine ⟨h, hparent [0, 0, 0, 1] [0, 0, 0] (by rw [h]; decide) rfl, ?_, ?_⟩
  · exact hbetween [0, 0] [0, 0, 0] [0, 0, 0, 1] (by rw [h]; decide) (by decide)
  · rw [hmem]
    decide

end Program

end LogoLang
