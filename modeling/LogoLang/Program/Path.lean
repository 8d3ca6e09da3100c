import LogoLang.Expr

/-!
Paths to the nodes of a program, and editing at a path. A path is the index of a top-level
expression followed by child indices, so the parent of a node is found by dropping the last index.
-/

set_option autoImplicit false

namespace LogoLang

abbrev Path := List Nat

namespace Path

def parent? (p : Path) : Option Path := if p.length ≤ 1 then none else some p.dropLast

def isTopLevel (p : Path) : Bool := p.length == 1

def text (p : Path) : String := ".".intercalate (p.map Text.natText)

end Path

namespace Program

/-- The node at a path. The empty path names none. -/
def get? : Program → Path → Option Expr
  | _, [] => none
  | es, [i] => es[i]?
  | es, i :: is => es[i]?.bind fun e => get? e.children is

def replace? (new : Expr) : Program → Path → Option (Expr × Program)
  | _, [] => none
  | es, [i] => es[i]?.map fun old => (old, es.set i new)
  | es, i :: is => es[i]?.bind fun e =>
    (replace? new e.children is).map fun (old, cs) => (old, es.set i (e.withChildren cs))

/-- The node at a path in `es`, and `es` without it. Where the places of `es` are fixed, a hole is
left. -/
def deleteFrom? (fixedPlaces : Bool) : List Expr → Path → Option (Expr × List Expr)
  | _, [] => none
  | es, [i] => es[i]?.map fun old =>
    (old, if fixedPlaces then es.set i .nil else es.eraseIdx i)
  | es, i :: is => es[i]?.bind fun e =>
    (deleteFrom? (!e.isSequence) e.children is).map fun (old, cs) =>
      (old, es.set i (e.withChildren cs))

/-- The node at a path, and the program without it. In a sequence the later nodes move up; an
operand or argument leaves a hole. -/
def delete? (p : Program) (path : Path) : Option (Expr × Program) := deleteFrom? false p path

end Program

structure Site where
  path : Path
  node : Expr
  deriving DecidableEq, Repr

namespace Site

/-- Expressions that stand side by side, numbered from 0 under the path above them. -/
def row (above : Path) (es : List Expr) : List Site := es.mapIdx fun i e => ⟨above ++ [i], e⟩

def below (s : Site) : List Site :=
  (List.range s.node.childCount).filterMap fun i =>
    (s.node.child? i).map fun e => ⟨s.path ++ [i], e⟩

theorem filterMap_range_eq_row (above : Path) (es : List Expr) (n : Nat) :
    (List.range n).filterMap (fun i => es[i]?.map fun e => ⟨above ++ [i], e⟩) =
      row above (es.take n) := by
  induction n with
  | zero => rfl
  | succ n ih =>
    rw [List.range_succ, List.filterMap_append, ih, List.take_add_one, row, row,
      List.mapIdx_append]
    cases h : es[n]? with
    | none => simp [h]
    | some e =>
      have hn : n < es.length := (List.getElem?_eq_some_iff.1 h).1
      simp [h, Nat.min_eq_left (Nat.le_of_lt hn)]

theorem below_eq_row (s : Site) : s.below = row s.path s.node.children := by
  rw [below, Expr.childCount_eq]
  exact (filterMap_range_eq_row ..).trans (by rw [List.take_length])

theorem map_node_row (above : Path) (es : List Expr) : (row above es).map node = es :=
  List.ext_getElem (by simp [row]) (by simp [row])

end Site

namespace Program

theorem sizeOf_append (es ds : List Expr) : sizeOf (es ++ ds) + 1 = sizeOf es + sizeOf ds := by
  induction es with
  | nil =>
    rw [List.nil_append, List.nil.sizeOf_spec, Nat.add_comm]
  | cons e es ih =>
    simp only [List.cons_append, List.cons.sizeOf_spec]
    omega

theorem sizeOf_children_le (e : Expr) : sizeOf e.children ≤ sizeOf e + 1 := by
  cases e with
  | list | define | call =>
    simp only [Expr.children, Expr.list.sizeOf_spec, Expr.define.sizeOf_spec, Expr.call.sizeOf_spec]
    omega
  | binary op =>
    have hop : 1 ≤ sizeOf op := by cases op <;> exact Nat.le_refl 1
    simp only [Expr.children, List.cons.sizeOf_spec, List.nil.sizeOf_spec, Expr.binary.sizeOf_spec]
    omega
  | group =>
    simp only [Expr.children, List.cons.sizeOf_spec, List.nil.sizeOf_spec, Expr.group.sizeOf_spec]
    omega
  | nil | number | word | var =>
    simp only [Expr.children, List.nil.sizeOf_spec]
    omega

/-- Visits the nodes on a stack and all nodes below them, and notes their paths. A node is taken
from the top, and those directly below it are put in its place. -/
def visit (out : Array Path) : List Site → Array Path
  | [] => out
  | s :: stack => visit (out.push s.path) (s.below ++ stack)
termination_by stack => sizeOf (stack.map Site.node)
decreasing_by
  -- What comes onto the stack counts for less than the node that is taken from it.
  have hle := sizeOf_children_le s.node
  have hsum := sizeOf_append s.node.children (stack.map Site.node)
  rw [List.map_append, Site.below_eq_row, Site.map_node_row, List.map_cons, List.cons.sizeOf_spec]
  omega

def paths (p : Program) : List Path := (visit #[] (Site.row [] p)).toList

end Program

end LogoLang
