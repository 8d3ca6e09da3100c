import LogoLang.Machine.World

/-!
Evaluation in small moves. A task is what is being done, the frames on the stack are what is left to
do with its value. A move needs no word; where the next thing to do is to apply a word, evaluation
stops and waits. Main statement: every move makes what is left lighter, so that evaluation always
comes to such a stop, to a value or to a fault.
-/

set_option autoImplicit false

namespace LogoLang

inductive Task where
  | eval (e : Expr) (scope : Scopes.Handle)
  /-- Evaluate some expressions in order; the value is that of the last. -/
  | run (items : List Expr) (scope : Scopes.Handle)
  | give (v : Value)
  deriving DecidableEq, Repr

/-- What becomes of a value. -/
inductive Frame where
  /-- It is the next argument of a call. -/
  | args (call : Expr) (done : Array Value) (todo : List Expr) (scope : Scopes.Handle)
  /-- It is dropped, and some expressions are evaluated. -/
  | block (items : List Expr) (scope : Scopes.Handle)
  /-- It is dropped, and a block is run some more times. -/
  | loop (count : Nat) (items : List Expr) (scope : Scopes.Handle)
  deriving DecidableEq, Repr

inductive Resume where
  | apply (args : List Value) (scope : Scopes.Handle)
  | give (v : Value)
  deriving DecidableEq, Repr

structure Pending where
  /-- The call or operation whose word is applied next. -/
  owner : Expr
  resume : Resume
  stack : List Frame
  deriving DecidableEq, Repr

inductive Outcome where
  | waiting (p : Pending)
  | done (v : Value)
  | failed (f : Fault)
  deriving DecidableEq, Repr

inductive Move where
  | next (w : World) (t : Task) (stack : List Frame)
  | stop (w : World) (o : Outcome)

namespace World

/-- The arguments of a call are evaluated one after the other; then the call waits. -/
def evalArgs (w : World) (call : Expr) (done : Array Value) (todo : List Expr)
    (scope : Scopes.Handle) (stack : List Frame) : Move :=
  match todo with
  | [] => .stop w (.waiting ⟨call, .apply done.toList scope, stack⟩)
  | e :: es => .next w (.eval e scope) (.args call done es scope :: stack)

def moveEval (w : World) (e : Expr) (scope : Scopes.Handle) (stack : List Frame) : Move :=
  match e with
  | .nil => .next w (.give .nil) stack
  | .number n _ => .next w (.give (.number n)) stack
  | .word text _ => .next w (.give (.word text)) stack
  | .var name line =>
    match w.scopes.lookup scope name with
    | some v => .next w (.give v) stack
    | none => .stop w (.failed (.unknown name (some line)))
  | .list items line => .next w (.give (.list items line)) stack
  | .define name params body _ => .next (w.learn name params body) (.give .void) stack
  | .group inner _ => .next w (.eval inner scope) stack
  | .call _ args _ => w.evalArgs e #[] args scope stack
  | .binary _ left right _ => w.evalArgs e #[] [left, right] scope stack

def moveRun (w : World) (items : List Expr) (scope : Scopes.Handle) (stack : List Frame) : Move :=
  match items with
  | [] => .next w (.give .void) stack
  | [e] => .next w (.eval e scope) stack
  | e :: es => .next w (.eval e scope) (.block es scope :: stack)

def moveGive (w : World) (v : Value) : List Frame → Move
  | [] => .stop w (.done v)
  | .args call done todo scope :: stack => w.evalArgs call (done.push v) todo scope stack
  | .block items scope :: stack => .next w (.run items scope) stack
  | .loop 0 _ _ :: stack => .next w (.give .void) stack
  | .loop (n + 1) items scope :: stack => .next w (.run items scope) (.loop n items scope :: stack)

def move (w : World) (t : Task) (stack : List Frame) : Move :=
  match t with
  | .eval e scope => w.moveEval e scope stack
  | .run items scope => w.moveRun items scope stack
  | .give v => w.moveGive v stack

end World

mutual
def Expr.weight : Expr → Nat
  | .call _ args _ => 2 + Expr.weightList args
  | .binary _ left right _ => 2 + (left.weight + 2) + (right.weight + 2)
  | .group inner _ => 2 + inner.weight
  | _ => 2
def Expr.weightList : List Expr → Nat
  | [] => 0
  | e :: es => (e.weight + 2) + Expr.weightList es
end

def Task.weight : Task → Nat
  | .eval e _ => e.weight
  | .run items _ => 2 + Expr.weightList items
  | .give _ => 1

def Frame.weight : Frame → Nat
  | .args _ _ todo _ => 1 + Expr.weightList todo
  | .block items _ => 2 + Expr.weightList items
  | .loop n items _ => 1 + n * (3 + Expr.weightList items)

def stackWeight (stack : List Frame) : Nat := stack.foldr (fun f n => f.weight + n) 0

@[simp] theorem stackWeight_cons (f : Frame) (stack : List Frame) :
    stackWeight (f :: stack) = f.weight + stackWeight stack := by
  simp [stackWeight]

def Move.Below (bound : Nat) : Move → Prop
  | .next _ t stack => t.weight + stackWeight stack < bound
  | .stop _ _ => True

namespace World

theorem evalArgs_below (w : World) (call : Expr) (done : Array Value) (todo : List Expr)
    (scope : Scopes.Handle) (stack : List Frame) :
    (w.evalArgs call done todo scope stack).Below
      (2 + Expr.weightList todo + stackWeight stack) := by
  cases todo with
  | nil => trivial
  | cons e es =>
    simp only [evalArgs, Move.Below, Task.weight, stackWeight_cons, Frame.weight, Expr.weightList]
    omega

theorem moveEval_below (w : World) (e : Expr) (scope : Scopes.Handle) (stack : List Frame) :
    (w.moveEval e scope stack).Below (e.weight + stackWeight stack) := by
  cases e with
  | var name line =>
    simp only [moveEval]
    split
    · simp only [Move.Below, Task.weight, Expr.weight]
      omega
    · trivial
  | call name args line => exact evalArgs_below w _ #[] args scope stack
  | binary op left right line =>
    have h := evalArgs_below w (.binary op left right line) #[] [left, right] scope stack
    simpa only [moveEval, Expr.weightList, Expr.weight, Nat.add_assoc, Nat.add_zero] using h
  | _ =>
    simp only [moveEval, Move.Below, Task.weight, Expr.weight]
    omega

theorem moveRun_below (w : World) (items : List Expr) (scope : Scopes.Handle)
    (stack : List Frame) :
    (w.moveRun items scope stack).Below (2 + Expr.weightList items + stackWeight stack) := by
  rcases items with _ | ⟨e, _ | ⟨f, es⟩⟩
  · simp only [moveRun, Move.Below, Task.weight, Expr.weightList]
    omega
  · simp only [moveRun, Move.Below, Task.weight, Expr.weightList]
    omega
  · simp only [moveRun, Move.Below, Task.weight, stackWeight_cons, Frame.weight, Expr.weightList]
    omega

theorem moveGive_below (w : World) (v : Value) (stack : List Frame) :
    (w.moveGive v stack).Below (1 + stackWeight stack) := by
  match stack with
  | [] => trivial
  | .args call done todo scope :: stack =>
    have h := evalArgs_below w call (done.push v) todo scope stack
    simpa only [moveGive, stackWeight_cons, Frame.weight, ← Nat.add_assoc] using h
  | .block items scope :: stack =>
    simp only [moveGive, Move.Below, Task.weight, stackWeight_cons, Frame.weight]
    omega
  | .loop 0 items scope :: stack =>
    simp only [moveGive, Move.Below, Task.weight, stackWeight_cons, Frame.weight]
    omega
  | .loop (n + 1) items scope :: stack =>
    simp only [moveGive, Move.Below, Task.weight, stackWeight_cons, Frame.weight, Nat.succ_mul]
    omega

theorem move_below (w : World) (t : Task) (stack : List Frame) :
    (w.move t stack).Below (t.weight + stackWeight stack) := by
  cases t with
  | eval e scope => exact moveEval_below w e scope stack
  | run items scope => exact moveRun_below w items scope stack
  | give v => exact moveGive_below w v stack

def settle (w : World) (t : Task) (stack : List Frame) : World × Outcome :=
  match _moved : w.move t stack with
  | .next w' t' stack' => w'.settle t' stack'
  | .stop w' o => (w', o)
termination_by t.weight + stackWeight stack
decreasing_by
  have hb := move_below w t stack
  rw [_moved] at hb
  exact hb

def comply (w : World) (owner : Expr) (stack : List Frame) : Reply → World × Outcome
  | .value v => w.settle (.give v) stack
  | .say line => (w.print line).settle (.give .void) stack
  | .run items scope => w.settle (.run items scope) stack
  | .twice items scope => w.settle (.run items scope) (.block items scope :: stack)
  | .loop n items scope => w.settle (.give .void) (.loop n items scope :: stack)
  | .finish v => (w, .done v)
  | .hold v => (w, .waiting ⟨owner, .give v, stack⟩)

end World

/-- Applies the waiting word and evaluates up to the next stop. -/
def Pending.proceed (w : World) (p : Pending) : World × Outcome :=
  match p.resume with
  | .give v => w.settle (.give v) p.stack
  | .apply args scope =>
    match w.apply p.owner args scope with
    | .error f => (w, .failed f)
    | .ok d =>
      match w.carryOut d with
      | (w, r) => w.comply p.owner p.stack r

end LogoLang
