import LogoLang.Expr
import Mathlib.Data.List.Basic

/-!
The nodes of a tree. A property of all nodes holds of a tree just when it holds of the node on top
and of the trees below it. Main statements: what holds of a tree as soon as it holds of the trees
directly below it holds of all trees, and other trees can be put below a node as long as there are
as many as it needs.
-/

set_option autoImplicit false

namespace LogoLang

namespace Expr

inductive Within (d : Expr) : Expr → Prop where
  | self : Within d d
  | child {c e : Expr} (hc : c ∈ e.children) (h : Within d c) : Within d e

def All (P : Expr → Prop) (e : Expr) : Prop := ∀ d, d.Within e → P d

section

variable {P Q : Expr → Prop} {e c : Expr}

theorem all_iff : e.All P ↔ P e ∧ ∀ c ∈ e.children, c.All P := by
  constructor
  · intro h
    exact ⟨h e .self, fun c hc d hd => h d (.child hc hd)⟩
  · rintro ⟨he, hc⟩ d hd
    cases hd with
    | self => exact he
    | child hm hd => exact hc _ hm d hd

theorem All.imp (h : e.All P) (hpq : ∀ d, P d → Q d) : e.All Q := fun d hd => hpq d (h d hd)

theorem All.child (h : e.All P) (hc : c ∈ e.children) : c.All P := (all_iff.1 h).2 c hc

end

theorem sizeOf_lt_of_mem_children {c e : Expr} (h : c ∈ e.children) : sizeOf c < sizeOf e := by
  cases e with
  | list items | define _ _ items | call _ items =>
    have hc := List.sizeOf_lt_of_mem h
    simp only [children, Expr.list.sizeOf_spec, Expr.define.sizeOf_spec,
      Expr.call.sizeOf_spec] at hc ⊢
    omega
  | binary op left right =>
    simp only [children, List.mem_cons, List.not_mem_nil, or_false] at h
    rcases h with rfl | rfl <;> simp only [Expr.binary.sizeOf_spec] <;> omega
  | group inner =>
    obtain rfl := List.mem_singleton.1 h
    simp only [Expr.group.sizeOf_spec]
    omega
  | nil | number | word | var => cases h

theorem childrenInduction {motive : Expr → Prop}
    (node : ∀ e, (∀ c ∈ e.children, motive c) → motive e) (e : Expr) : motive e :=
  node e fun c _hc => childrenInduction node c
termination_by sizeOf e
decreasing_by exact sizeOf_lt_of_mem_children _hc

theorem children_withChildren {e : Expr} {cs : List Expr}
    (h : e.isSequence = true ∨ cs.length = e.children.length) :
    (e.withChildren cs).children = cs := by
  cases e with
  | list | define | call => rfl
  | binary op left right line =>
    obtain ⟨a, b, rfl⟩ := List.length_eq_two.1 (h.resolve_left (by simp [isSequence]))
    rfl
  | group inner line =>
    obtain ⟨a, rfl⟩ := List.length_eq_one_iff.1 (h.resolve_left (by simp [isSequence]))
    rfl
  | nil | number | word | var =>
    obtain rfl := List.length_eq_zero_iff.1 (h.resolve_left (by simp [isSequence]))
    rfl

theorem withChildren_withChildren {e : Expr} {cs ds : List Expr}
    (hc : cs.length = e.children.length) (hd : ds.length = e.children.length) :
    (e.withChildren cs).withChildren ds = e.withChildren ds := by
  cases e with
  | list | define | call | nil | number | word | var => rfl
  | binary op left right line =>
    obtain ⟨a, b, rfl⟩ := List.length_eq_two.1 hc
    obtain ⟨c, d, rfl⟩ := List.length_eq_two.1 hd
    rfl
  | group inner line =>
    obtain ⟨a, rfl⟩ := List.length_eq_one_iff.1 hc
    obtain ⟨b, rfl⟩ := List.length_eq_one_iff.1 hd
    rfl

end Expr

end LogoLang
