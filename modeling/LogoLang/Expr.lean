import LogoLang.Operator
import LogoLang.Text.Decimal

/-!
Expressions, the trees that programs are made of. Every node but a hole carries the line its first
token, or its operator, stands on. Two expressions are alike when they differ in lines at most.
-/

set_option autoImplicit false

namespace LogoLang

inductive Expr where
  /-- A hole, left where an operand was deleted. -/
  | nil
  | number (value : Int64) (line : Nat)
  | word (text : String) (line : Nat)
  | var (name : String) (line : Nat)
  | list (items : List Expr) (line : Nat)
  | define (name : String) (params : List String) (body : List Expr) (line : Nat)
  | call (name : String) (args : List Expr) (line : Nat)
  | binary (op : Operator) (left right : Expr) (line : Nat)
  | group (inner : Expr) (line : Nat)
  deriving Repr, Inhabited

abbrev Program := List Expr

namespace Expr

def line? : Expr → Option Nat
  | .nil => none
  | .number _ line | .word _ line | .var _ line | .list _ line | .define _ _ _ line
  | .call _ _ line | .binary _ _ _ line | .group _ line => some line

def isNil : Expr → Bool
  | .nil => true
  | _ => false

def children : Expr → List Expr
  | .list items _ => items
  | .define _ _ body _ => body
  | .call _ args _ => args
  | .binary _ left right _ => [left, right]
  | .group inner _ => [inner]
  | _ => []

/-- The same node over other children, if there are as many as it needs. -/
def withChildren : Expr → List Expr → Expr
  | .list _ line, items => .list items line
  | .define name params _ line, body => .define name params body line
  | .call name _ line, args => .call name args line
  | .binary op _ _ line, [left, right] => .binary op left right line
  | .group _ line, [inner] => .group inner line
  | e, _ => e

/-- The children form a sequence, from which one can be taken out. -/
def isSequence : Expr → Bool
  | .list _ _ | .define _ _ _ _ => true
  | _ => false

def child? (e : Expr) (i : Nat) : Option Expr := e.children[i]?

def childCount : Expr → Nat
  | .list items _ => items.length
  | .define _ _ body _ => body.length
  | .call _ args _ => args.length
  | .binary _ _ _ _ => 2
  | .group _ _ => 1
  | .nil | .number _ _ | .word _ _ | .var _ _ => 0

theorem childCount_eq (e : Expr) : e.childCount = e.children.length := by cases e <;> rfl

@[simp] theorem withChildren_children (e : Expr) : e.withChildren e.children = e := by
  cases e <;> rfl

mutual
/-- Node by node comparison, with the lines compared by `sameLine`. -/
def agree (sameLine : Nat → Nat → Bool) : Expr → Expr → Bool
  | .nil, .nil => true
  | .number m i, .number n j => decide (m = n) && sameLine i j
  | .word s i, .word t j => decide (s = t) && sameLine i j
  | .var x i, .var y j => decide (x = y) && sameLine i j
  | .list xs i, .list ys j => agreeList sameLine xs ys && sameLine i j
  | .define f ps xs i, .define g qs ys j =>
    decide (f = g) && decide (ps = qs) && agreeList sameLine xs ys && sameLine i j
  | .call f xs i, .call g ys j => decide (f = g) && agreeList sameLine xs ys && sameLine i j
  | .binary o a b i, .binary p c d j =>
    decide (o = p) && agree sameLine a c && agree sameLine b d && sameLine i j
  | .group a i, .group b j => agree sameLine a b && sameLine i j
  | _, _ => false
def agreeList (sameLine : Nat → Nat → Bool) : List Expr → List Expr → Bool
  | [], [] => true
  | x :: xs, y :: ys => agree sameLine x y && agreeList sameLine xs ys
  | _, _ => false
end

/-- Equal but for the lines. -/
def alike (a b : Expr) : Bool := agree (fun _ _ => true) a b

def alikeList (as bs : List Expr) : Bool := agreeList (fun _ _ => true) as bs

mutual
theorem agree_eq_iff : ∀ a b : Expr, agree (fun i j => decide (i = j)) a b = true ↔ a = b
  | .nil, b => by cases b <;> simp [agree]
  | .number _ _, b => by cases b <;> simp [agree]
  | .word _ _, b => by cases b <;> simp [agree]
  | .var _ _, b => by cases b <;> simp [agree]
  | .list xs _, b => by cases b <;> simp [agree, agreeList_eq_iff xs]
  | .define _ _ xs _, b => by cases b <;> simp [agree, agreeList_eq_iff xs, and_assoc]
  | .call _ xs _, b => by cases b <;> simp [agree, agreeList_eq_iff xs, and_assoc]
  | .binary _ l r _, b => by cases b <;> simp [agree, agree_eq_iff l, agree_eq_iff r, and_assoc]
  | .group a _, b => by cases b <;> simp [agree, agree_eq_iff a]
theorem agreeList_eq_iff :
    ∀ as bs : List Expr, agreeList (fun i j => decide (i = j)) as bs = true ↔ as = bs
  | [], bs => by cases bs <;> simp [agreeList]
  | a :: as, bs => by cases bs <;> simp [agreeList, agree_eq_iff a, agreeList_eq_iff as]
end

instance : DecidableEq Expr := fun a b => decidable_of_iff _ (agree_eq_iff a b)

end Expr

end LogoLang
