import LogoLang.Table
import LogoLang.Value

/-!
Scopes. A store holds scopes in the order of their creation; a handle is the place of one in it, and
two handles are of the same scope when they are equal. A scope may have a parent, which is always an
older scope, and a name is looked up in a scope, then in its parent, and so on.
-/

set_option autoImplicit false

namespace LogoLang

structure Scope where
  parent : Option Nat := none
  bindings : Table Value := .empty
  deriving Repr

structure Scopes where
  cells : Array Scope
  deriving Repr

namespace Scopes

abbrev Handle := Nat

def single : Scopes := ⟨#[{}]⟩

def globals : Handle := 0

def next (s : Scopes) : Handle := s.cells.size

def addRoot (s : Scopes) : Scopes := ⟨s.cells.push {}⟩

def addChild (s : Scopes) (parent : Handle) : Scopes := ⟨s.cells.push { parent := some parent }⟩

def define (s : Scopes) (h : Handle) (name : String) (v : Value) : Scopes :=
  ⟨s.cells.modify h fun c => { c with bindings := c.bindings.insert name v }⟩

/-- Binds names one after the other, so of equal names the last binding counts. -/
def defineAll (s : Scopes) (h : Handle) (bindings : List (String × Value)) : Scopes :=
  bindings.foldl (fun s b => s.define h b.1 b.2) s

def own? (s : Scopes) (h : Handle) (name : String) : Option Value :=
  s.cells[h]?.bind fun c => c.bindings.get? name

def count (s : Scopes) (h : Handle) : Nat :=
  (s.cells[h]?.map fun c => c.bindings.size).getD 0

def parent? (s : Scopes) (h : Handle) : Option Handle := s.cells[h]?.bind Scope.parent

/-- The nearest binding of a name on the chain of parents. -/
def lookup (s : Scopes) (h : Handle) (name : String) : Option Value :=
  match s.own? h name with
  | some v => some v
  | none =>
    match s.parent? h with
    | none => none
    | some p => if p < h then s.lookup p name else none
termination_by h

theorem own?_push (s : Scopes) (parent : Option Handle) (h : Handle) (name : String) :
    (Scopes.mk (s.cells.push { parent })).own? h name = s.own? h name := by
  simp only [own?, Array.getElem?_push]
  split
  · rename_i hh
    simp [hh]
  · rfl

theorem parent?_push (s : Scopes) (parent : Option Handle) (h : Handle) :
    (Scopes.mk (s.cells.push { parent })).parent? h =
      if h = s.next then parent else s.parent? h := by
  simp only [parent?, Array.getElem?_push, next]
  by_cases hh : h = s.cells.size <;> simp [hh]

theorem own?_addRoot (s : Scopes) (h : Handle) (name : String) :
    s.addRoot.own? h name = s.own? h name := own?_push s none h name

theorem own?_addChild (s : Scopes) (parent h : Handle) (name : String) :
    (s.addChild parent).own? h name = s.own? h name := own?_push s (some parent) h name

theorem parent?_addRoot (s : Scopes) (h : Handle) :
    s.addRoot.parent? h = if h = s.next then none else s.parent? h := parent?_push s none h

theorem parent?_addChild (s : Scopes) (parent h : Handle) :
    (s.addChild parent).parent? h = if h = s.next then some parent else s.parent? h :=
  parent?_push s (some parent) h

theorem parent?_define (s : Scopes) (h k : Handle) (name : String) (v : Value) :
    (s.define h name v).parent? k = s.parent? k := by
  simp only [parent?, define, Array.getElem?_modify]
  by_cases hk : h = k
  · cases s.cells[k]? <;> simp [hk]
  · simp [hk]

theorem own?_define (s : Scopes) (h k : Handle) (name other : String) (v : Value)
    (hh : h < s.next) :
    (s.define h name v).own? k other =
      if k = h ∧ other = name then some v else s.own? k other := by
  simp only [own?, define, Array.getElem?_modify]
  by_cases hk : h = k
  · subst hk
    have hs : h < s.cells.size := hh
    have hc : s.cells[h]? = some s.cells[h] := Array.getElem?_eq_getElem hs
    simp [hc, Table.get?_insert]
  · simp [hk, Ne.symm hk]

end Scopes

end LogoLang
