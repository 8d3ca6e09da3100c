import LogoLang.Proofs.Machine.Settling

/-!
A second evaluator. It goes through a sequence of expressions in one go as long as no word is
needed; but a sequence that has had to wait for a call, and each pass of a loop, end with an errand,
which is left to a driver. Main statements: before each step the driver has no more errands to run
than there are sequences that wait and passes that are left, and where it stops is where the machine
stops; empty loops take as many.
-/

set_option autoImplicit false

namespace LogoLang.Trampoline

inductive Reduced where
  | value (v : Value)
  /-- A word is needed. -/
  | call (c : Expr)
  | failed (x : Fault)

/-- Evaluates an expression as far as it goes without a word. -/
def reduce (w : World) (scope : Scopes.Handle) : Expr → World × Reduced
  | .nil => (w, .value .nil)
  | .number n _ => (w, .value (.number n))
  | .word text _ => (w, .value (.word text))
  | .var name line =>
    match w.scopes.lookup scope name with
    | some v => (w, .value v)
    | none => (w, .failed (.unknown name (some line)))
  | .list items line => (w, .value (.list items line))
  | .define name params body _ => (w.learn name params body, .value .void)
  | .group inner _ => reduce w scope inner
  | .call name args line => (w, .call (.call name args line))
  | .binary op left right line => (w, .call (.binary op left right line))

inductive Gathered where
  | all (values : Array Value)
  /-- A call comes next, and some expressions are left after it. -/
  | call (done : Array Value) (c : Expr) (rest : List Expr)
  | failed (x : Fault)

def gather (w : World) (scope : Scopes.Handle) (done : Array Value) :
    List Expr → World × Gathered
  | [] => (w, .all done)
  | e :: es =>
    match reduce w scope e with
    | (w', .value v) => gather w' scope (done.push v) es
    | (w', .call c) => (w', .call done c es)
    | (w', .failed x) => (w', .failed x)

inductive Purpose where
  /-- They are the arguments of a call. -/
  | call (c : Expr)
  /-- The last one is the value of a block. -/
  | block

inductive Hold where
  | sequence (purpose : Purpose) (done : Array Value) (todo : List Expr) (scope : Scopes.Handle)
  /-- The value is dropped, and a block is run some more times. -/
  | loop (count : Nat) (items : List Expr) (scope : Scopes.Handle)

inductive Errand where
  | close (purpose : Purpose) (values : Array Value) (scope : Scopes.Handle)
  | again (count : Nat) (items : List Expr) (scope : Scopes.Handle)

inductive Signal where
  | wait (owner : Expr) (resume : Resume) (stack : List Hold)
  | errand (b : Errand) (stack : List Hold)
  | done (v : Value)
  | failed (x : Fault)

theorem weight_reduce {w w' : World} {scope : Scopes.Handle} {e c : Expr}
    (h : reduce w scope e = (w', .call c)) : c.weight ≤ e.weight := by
  fun_induction reduce w scope e with
  | case8 inner line ih =>
    have hi := ih h
    simp only [Expr.weight]
    omega
  | case9 | case10 =>
    cases h
    exact Nat.le_refl _
  | _ => cases h

theorem weight_gather {w w' : World} {scope : Scopes.Handle} {done done' : Array Value}
    {todo rest : List Expr} {c : Expr} (h : gather w scope done todo = (w', .call done' c rest)) :
    c.weight < Expr.weightList todo := by
  fun_induction gather w scope done todo with
  | case1 => cases h
  | case2 w done e es w₁ v hr ih =>
    have hi := ih h
    simp only [Expr.weightList]
    omega
  | case3 w done e es w₁ c hr =>
    cases h
    have hc := weight_reduce hr
    simp only [Expr.weightList]
    omega
  | case4 => cases h

theorem weightList_operands (c : Expr) : Expr.weightList c.operands < c.weight := by
  cases c <;> simp only [Expr.operands, Expr.weightList, Expr.weight] <;> omega

/-- Goes down into the arguments of a call, to the first call that has none but values. -/
def approach (w : World) (c : Expr) (scope : Scopes.Handle) (stack : List Hold) : World × Signal :=
  match _gathered : gather w scope #[] c.operands with
  | (w', .all values) => (w', .wait c (.apply values.toList scope) stack)
  | (w', .call done c' rest) =>
    approach w' c' scope (.sequence (.call c) done rest scope :: stack)
  | (w', .failed x) => (w', .failed x)
termination_by c.weight
decreasing_by exact Nat.lt_trans (weight_gather _gathered) (weightList_operands c)

def goOn (w : World) (purpose : Purpose) (done : Array Value) (todo : List Expr)
    (scope : Scopes.Handle) (stack : List Hold) : World × Signal :=
  match gather w scope done todo with
  | (w', .all values) => (w', .errand (.close purpose values scope) stack)
  | (w', .call done' c rest) => approach w' c scope (.sequence purpose done' rest scope :: stack)
  | (w', .failed x) => (w', .failed x)

def give (w : World) (v : Value) : List Hold → World × Signal
  | [] => (w, .done v)
  | .sequence purpose done todo scope :: stack => goOn w purpose (done.push v) todo scope stack
  | .loop n items scope :: stack => (w, .errand (.again n items scope) stack)

def close (w : World) (values : Array Value) (scope : Scopes.Handle) (stack : List Hold) :
    Purpose → World × Signal
  | .call c => (w, .wait c (.apply values.toList scope) stack)
  | .block => give w (values.back?.getD .void) stack

def block (w : World) (items : List Expr) (scope : Scopes.Handle) (stack : List Hold) :
    World × Signal :=
  match gather w scope #[] items with
  | (w', .all values) => close w' values scope stack .block
  | (w', .call done c rest) => approach w' c scope (.sequence .block done rest scope :: stack)
  | (w', .failed x) => (w', .failed x)

def again (w : World) (items : List Expr) (scope : Scopes.Handle) (stack : List Hold) :
    Nat → World × Signal
  | 0 => give w .void stack
  | n + 1 => block w items scope (.loop n items scope :: stack)

def perform (w : World) (stack : List Hold) : Errand → World × Signal
  | .close purpose values scope => close w values scope stack purpose
  | .again n items scope => again w items scope stack n

def comply (w : World) (owner : Expr) (stack : List Hold) : Reply → World × Signal
  | .value v => give w v stack
  | .say line => give (w.print line) .void stack
  | .run items scope => block w items scope stack
  | .twice items scope => block w items scope (.sequence .block #[] items scope :: stack)
  | .loop n items scope => again w items scope stack n
  | .finish v => (w, .done v)
  | .hold v => (w, .wait owner (.give v) stack)

def dispatch (w : World) (owner : Expr) (stack : List Hold) : Resume → World × Signal
  | .give v => give w v stack
  | .apply args scope =>
    match w.apply owner args scope with
    | .error x => (w, .failed x)
    | .ok d =>
      match w.carryOut d with
      | (w, r) => comply w owner stack r

theorem applies_reduce {w w' : World} {scope : Scopes.Handle} {e c : Expr}
    (h : reduce w scope e = (w', .call c)) : c.Applies := by
  fun_induction reduce w scope e with
  | case8 inner line ih => exact ih h
  | case9 | case10 =>
    cases h
    trivial
  | _ => cases h

theorem applies_gather {w w' : World} {scope : Scopes.Handle} {done done' : Array Value}
    {todo rest : List Expr} {c : Expr} (h : gather w scope done todo = (w', .call done' c rest)) :
    c.Applies := by
  fun_induction gather w scope done todo with
  | case1 | case4 => cases h
  | case2 w done e es w₁ v hr ih => exact ih h
  | case3 w done e es w₁ c hr =>
    cases h
    exact applies_reduce hr

/-- Moves do to an expression what `reduce` does, and go on with a call if there is one. -/
theorem settle_eval (w : World) (scope : Scopes.Handle) (e : Expr) (frames : List Frame) :
    w.settle (.eval e scope) frames =
      match reduce w scope e with
      | (w', .value v) => w'.settle (.give v) frames
      | (w', .call c) => w'.settle (.eval c scope) frames
      | (w', .failed x) => (w', .failed x) := by
  fun_induction reduce w scope e with
  | case4 name line v hv =>
    rw [World.settle_eq]
    simp only [World.move, World.moveEval, hv, Move.settle]
  | case5 name line hv =>
    rw [World.settle_eq]
    simp only [World.move, World.moveEval, hv, Move.settle]
  | case8 inner line ih =>
    rw [World.settle_eq]
    exact ih
  | case9 | case10 => rfl
  | _ => rw [World.settle_eq]; rfl

theorem settle_evalArgs (w : World) (c : Expr) (done : Array Value) (todo : List Expr)
    (scope : Scopes.Handle) (frames : List Frame) :
    (w.evalArgs c done todo scope frames).settle =
      match gather w scope done todo with
      | (w', .all values) => (w', .waiting ⟨c, .apply values.toList scope, frames⟩)
      | (w', .call done' c' rest) => w'.settle (.eval c' scope) (.args c done' rest scope :: frames)
      | (w', .failed x) => (w', .failed x) := by
  fun_induction gather w scope done todo with
  | case1 => rfl
  | case2 w done e es w₁ v hr ih =>
    rw [World.evalArgs, Move.settle, settle_eval, hr, ← ih]
    exact World.settle_eq ..
  | case3 w done e es w₁ c' hr => rw [World.evalArgs, Move.settle, settle_eval, hr]
  | case4 w done e es w₁ x hr => rw [World.evalArgs, Move.settle, settle_eval, hr]

/-- The frames of the machine. It keeps none for a block whose last expression is being
evaluated. -/
def Hold.frames : Hold → List Frame
  | .sequence (.call c) done todo scope => [.args c done todo scope]
  | .sequence .block _ [] _ => []
  | .sequence .block _ (e :: es) scope => [.block (e :: es) scope]
  | .loop n items scope => [.loop n items scope]

def frames (stack : List Hold) : List Frame := stack.flatMap Hold.frames

@[simp] theorem frames_cons (h : Hold) (stack : List Hold) :
    frames (h :: stack) = h.frames ++ frames stack := by
  simp [frames]

theorem settle_run (w : World) (e : Expr) (es : List Expr) (done : Array Value)
    (scope : Scopes.Handle) (below : List Frame) :
    w.settle (.run (e :: es) scope) below =
      match gather w scope done (e :: es) with
      | (w', .all values) => w'.settle (.give (values.back?.getD .void)) below
      | (w', .call done' c rest) =>
        w'.settle (.eval c scope) ((Hold.sequence .block done' rest scope).frames ++ below)
      | (w', .failed x) => (w', .failed x) := by
  induction es generalizing w e done with
  | nil =>
    rw [World.settle_eq, gather]
    refine (settle_eval w scope e below).trans ?_
    rcases reduce w scope e with ⟨w', v | c | x⟩
    · simp [gather]
    · rfl
    · rfl
  | cons e' es ih =>
    rw [World.settle_eq, gather]
    refine (settle_eval w scope e (.block (e' :: es) scope :: below)).trans ?_
    rcases reduce w scope e with ⟨w', v | c | x⟩
    · exact (World.settle_eq w' (.give v) _).trans (ih w' e' (done.push v))
    · rfl
    · rfl

/-- Where the machine stops when it goes on from a signal. -/
def settled : World × Signal → World × Outcome
  | (w, .wait owner resume stack) => (w, .waiting ⟨owner, resume, frames stack⟩)
  | (w, .errand (.close (.call c) values scope) stack) =>
    (w, .waiting ⟨c, .apply values.toList scope, frames stack⟩)
  | (w, .errand (.close .block values _) stack) =>
    w.settle (.give (values.back?.getD .void)) (frames stack)
  | (w, .errand (.again n items scope) stack) =>
    w.settle (.give .void) (.loop n items scope :: frames stack)
  | (w, .done v) => (w, .done v)
  | (w, .failed x) => (w, .failed x)

theorem settled_approach (w : World) {c : Expr} (hc : c.Applies) (scope : Scopes.Handle)
    (stack : List Hold) :
    settled (approach w c scope stack) = w.settle (.eval c scope) (frames stack) := by
  have he (w : World) {c : Expr} (hc : c.Applies) (below : List Frame) :
      w.settle (.eval c scope) below = (w.evalArgs c #[] c.operands scope below).settle := by
    rw [World.settle_eq, World.move, World.moveEval_applies hc]
  fun_induction approach w c scope stack with
  | case1 w c stack w' values hg =>
    rw [he w hc, settle_evalArgs, hg]
    rfl
  | case2 w c stack w' done c' rest hg ih =>
    rw [he w hc, settle_evalArgs, hg, ih (applies_gather hg)]
    simp [Hold.frames]
  | case3 w c stack w' x hg =>
    rw [he w hc, settle_evalArgs, hg]
    rfl

theorem settled_goOn_call (w : World) (c : Expr) (done : Array Value) (todo : List Expr)
    (scope : Scopes.Handle) (stack : List Hold) :
    settled (goOn w (.call c) done todo scope stack) =
      (w.evalArgs c done todo scope (frames stack)).settle := by
  rw [settle_evalArgs, goOn]
  rcases hg : gather w scope done todo with ⟨w', values | ⟨done', c', rest⟩ | x⟩
  · rfl
  · simp [settled_approach w' (applies_gather hg), Hold.frames]
  · rfl

theorem settled_goOn_block (w : World) (e : Expr) (es : List Expr) (done : Array Value)
    (scope : Scopes.Handle) (stack : List Hold) :
    settled (goOn w .block done (e :: es) scope stack) =
      w.settle (.run (e :: es) scope) (frames stack) := by
  rw [settle_run w e es done, goOn]
  rcases hg : gather w scope done (e :: es) with ⟨w', values | ⟨done', c', rest⟩ | x⟩
  · rfl
  · simp [settled_approach w' (applies_gather hg)]
  · rfl

theorem settled_give (w : World) (v : Value) (stack : List Hold) :
    settled (give w v stack) = w.settle (.give v) (frames stack) := by
  match stack with
  | [] =>
    rw [World.settle_eq]
    rfl
  | .sequence (.call c) done todo scope :: stack =>
    rw [World.settle_eq]
    exact settled_goOn_call ..
  | .sequence .block done [] scope :: stack => simp [give, goOn, gather, settled, Hold.frames]
  | .sequence .block done (e :: es) scope :: stack =>
    rw [World.settle_eq]
    exact settled_goOn_block ..
  | .loop n items scope :: stack =>
    -- The value is dropped.
    simp only [give, settled, frames_cons, Hold.frames, List.singleton_append]
    rw [World.settle_eq, World.settle_eq w (.give v)]
    cases n <;> rfl

theorem settled_close (w : World) (purpose : Purpose) (values : Array Value)
    (scope : Scopes.Handle) (stack : List Hold) :
    settled (close w values scope stack purpose) =
      settled (w, .errand (.close purpose values scope) stack) := by
  cases purpose with
  | call c => rfl
  | block => exact settled_give ..

theorem settled_block (w : World) (items : List Expr) (scope : Scopes.Handle)
    (stack : List Hold) :
    settled (block w items scope stack) = w.settle (.run items scope) (frames stack) := by
  cases items with
  | nil =>
    rw [World.settle_eq]
    exact settled_give ..
  | cons e es =>
    rw [settle_run w e es #[], block]
    rcases hg : gather w scope #[] (e :: es) with ⟨w', values | ⟨done', c', rest⟩ | x⟩
    · exact settled_give ..
    · simp [settled_approach w' (applies_gather hg)]
    · rfl

theorem settled_again (w : World) (items : List Expr) (scope : Scopes.Handle)
    (stack : List Hold) (n : Nat) :
    settled (again w items scope stack n) =
      w.settle (.give .void) (.loop n items scope :: frames stack) := by
  rw [World.settle_eq]
  cases n with
  | zero => exact settled_give ..
  | succ n =>
    rw [again, settled_block]
    rfl

/-- Running an errand does not change where the machine stops. -/
theorem settled_perform (w : World) (b : Errand) (stack : List Hold) :
    settled (perform w stack b) = settled (w, .errand b stack) := by
  cases b with
  | close purpose values scope => exact settled_close ..
  | again n items scope => exact settled_again ..

theorem settled_comply (w : World) (owner : Expr) (stack : List Hold) (r : Reply) :
    settled (comply w owner stack r) = w.comply owner (frames stack) r := by
  cases r with
  | value v => exact settled_give ..
  | say line => exact settled_give ..
  | run items scope => exact settled_block ..
  | twice items scope =>
    rw [comply, settled_block, World.comply]
    cases items with
    | nil =>
      rw [World.settle_eq w (.run [] scope) (.block [] scope :: frames stack)]
      exact (World.settle_eq w (.give .void) (.block [] scope :: frames stack)).symm
    | cons e es => rfl
  | loop n items scope => exact settled_again ..
  | finish v => rfl
  | hold v => rfl

theorem settled_dispatch (w : World) (owner : Expr) (stack : List Hold) (resume : Resume) :
    settled (dispatch w owner stack resume) =
      (Pending.mk owner resume (frames stack)).proceed w := by
  cases resume with
  | give v => exact settled_give ..
  | apply args scope =>
    rw [dispatch, Pending.proceed]
    simp only
    cases w.apply owner args scope with
    | error x => rfl
    | ok d => exact settled_comply ..

/-- How many errands can come of giving a value to what waits. -/
def Hold.cost : Hold → Nat
  | .sequence _ _ _ _ => 1
  | .loop n _ _ => n + 1

def cost : List Hold → Nat
  | [] => 0
  | h :: stack => h.cost + cost stack

def Errand.cost : Errand → Nat
  | .close _ _ _ => 1
  | .again n _ _ => n + 1

def Signal.cost : Signal → Nat
  | .errand b stack => b.cost + Trampoline.cost stack
  | _ => 0

theorem cost_approach (w : World) (c : Expr) (scope : Scopes.Handle) (stack : List Hold) :
    (approach w c scope stack).2.cost = 0 := by
  fun_induction approach w c scope stack with
  | case1 | case3 => rfl
  | case2 w c stack w' done c' rest hg ih => exact ih

theorem cost_goOn (w : World) (purpose : Purpose) (done : Array Value) (todo : List Expr)
    (scope : Scopes.Handle) (stack : List Hold) :
    (goOn w purpose done todo scope stack).2.cost ≤ 1 + cost stack := by
  unfold goOn
  split
  · exact Nat.le_refl _
  · rw [cost_approach]
    exact Nat.zero_le _
  · exact Nat.zero_le _

theorem cost_give (w : World) (v : Value) (stack : List Hold) :
    (give w v stack).2.cost ≤ cost stack := by
  match stack with
  | [] => exact Nat.le_refl _
  | .sequence purpose done todo scope :: stack => exact cost_goOn ..
  | .loop n items scope :: stack => exact Nat.le_refl _

theorem cost_close (w : World) (purpose : Purpose) (values : Array Value)
    (scope : Scopes.Handle) (stack : List Hold) :
    (close w values scope stack purpose).2.cost ≤ cost stack := by
  cases purpose with
  | call c => exact Nat.zero_le _
  | block => exact cost_give ..

theorem cost_block (w : World) (items : List Expr) (scope : Scopes.Handle) (stack : List Hold) :
    (block w items scope stack).2.cost ≤ cost stack := by
  unfold block
  split
  · exact cost_close ..
  · rw [cost_approach]
    exact Nat.zero_le _
  · exact Nat.zero_le _

theorem cost_again (w : World) (items : List Expr) (scope : Scopes.Handle) (stack : List Hold)
    (n : Nat) : (again w items scope stack n).2.cost ≤ n + cost stack := by
  cases n with
  | zero =>
    rw [Nat.zero_add]
    exact cost_give ..
  | succ n => exact cost_block w items scope (.loop n items scope :: stack)

theorem cost_perform (w : World) (b : Errand) (stack : List Hold) :
    (perform w stack b).2.cost < (Signal.errand b stack).cost := by
  cases b with
  | close purpose values scope =>
    have h : (perform w stack (.close purpose values scope)).2.cost ≤ cost stack := cost_close ..
    have hc : (Signal.errand (.close purpose values scope) stack).cost = 1 + cost stack := rfl
    omega
  | again n items scope =>
    have h : (perform w stack (.again n items scope)).2.cost ≤ n + cost stack := cost_again ..
    have hc : (Signal.errand (.again n items scope) stack).cost = n + 1 + cost stack := rfl
    omega

def passes : Reply → Nat
  | .loop n _ _ => n
  | .twice _ _ => 1
  | _ => 0

theorem cost_comply (w : World) (owner : Expr) (stack : List Hold) (r : Reply) :
    (comply w owner stack r).2.cost ≤ passes r + cost stack := by
  cases r with
  | value v => exact Nat.le_add_left_of_le (cost_give ..)
  | say line => exact Nat.le_add_left_of_le (cost_give ..)
  | run items scope => exact Nat.le_add_left_of_le (cost_block ..)
  | twice items scope => exact cost_block w items scope (.sequence .block #[] items scope :: stack)
  | loop n items scope => exact cost_again ..
  | finish v => exact Nat.zero_le _
  | hold v => exact Nat.zero_le _

def passesOf (w : World) (owner : Expr) : Resume → Nat
  | .give _ => 0
  | .apply args scope =>
    match w.apply owner args scope with
    | .error _ => 0
    | .ok d => passes (w.carryOut d).2

theorem cost_dispatch (w : World) (owner : Expr) (stack : List Hold) (resume : Resume) :
    (dispatch w owner stack resume).2.cost ≤ passesOf w owner resume + cost stack := by
  cases resume with
  | give v => exact Nat.le_add_left_of_le (cost_give ..)
  | apply args scope =>
    simp only [dispatch, passesOf]
    cases w.apply owner args scope with
    | error x => exact Nat.zero_le _
    | ok d => exact cost_comply ..

/-- The driver runs so many errands and stops. -/
inductive Drives : World × Signal → Nat → World × Signal → Prop where
  | wait (w : World) (owner : Expr) (resume : Resume) (stack : List Hold) :
    Drives (w, .wait owner resume stack) 0 (w, .wait owner resume stack)
  | done (w : World) (v : Value) : Drives (w, .done v) 0 (w, .done v)
  | failed (w : World) (x : Fault) : Drives (w, .failed x) 0 (w, .failed x)
  | errand {w : World} {b : Errand} {stack : List Hold} {k : Nat} {y : World × Signal}
    (h : Drives (perform w stack b) k y) : Drives (w, .errand b stack) (k + 1) y

theorem exists_drives (x : World × Signal) : ∃ k y, Drives x k y ∧ k ≤ x.2.cost := by
  -- Each errand leaves fewer to run.
  induction hn : x.2.cost using Nat.strongRecOn generalizing x with
  | ind n ih =>
    obtain ⟨w, s⟩ := x
    cases s with
    | wait owner resume stack => exact ⟨0, _, .wait w owner resume stack, Nat.zero_le _⟩
    | done v => exact ⟨0, _, .done w v, Nat.zero_le _⟩
    | failed x => exact ⟨0, _, .failed w x, Nat.zero_le _⟩
    | errand b stack =>
      have hlt := cost_perform w b stack
      obtain ⟨k, y, hk, hle⟩ := ih _ (hn ▸ hlt) (perform w stack b) rfl
      exact ⟨k + 1, y, .errand hk, hn ▸ Nat.lt_of_le_of_lt hle hlt⟩

theorem Drives.settled_eq {x y : World × Signal} {k : Nat} (h : Drives x k y) :
    settled x = settled y := by
  induction h with
  | wait | done | failed => rfl
  | errand h ih => rw [← settled_perform, ih]

inductive Reached (m : Machine) (p : Program) : Nat → World × Signal → Prop where
  | start {k : Nat} {y : World × Signal} (h : Drives (block m.world p Scopes.globals []) k y) :
    Reached m p 0 y
  | step {n k : Nat} {w : World} {owner : Expr} {resume : Resume} {stack : List Hold}
    {y : World × Signal} (hr : Reached m p n (w, .wait owner resume stack))
    (h : Drives (dispatch w owner stack resume) k y) : Reached m p (n + 1) y

variable {m : Machine} {p : Program} {n k : Nat} {x y : World × Signal}

theorem Reached.advance (h : Reached m p n y) :
    ∃ current, (m.start p).advance n = Machine.stopped current n (settled y) := by
  induction h with
  | start h =>
    refine ⟨none, ?_⟩
    rw [← h.settled_eq, settled_block]
    rfl
  | @step n k w owner resume stack y hr h ih =>
    obtain ⟨current, hn⟩ := ih
    refine ⟨some owner, ?_⟩
    rw [← h.settled_eq, settled_dispatch, Machine.advance_add, hn]
    rfl

theorem Drives.exists_wait (h : Drives x k y) {current : Option Expr} {steps : Nat}
    (hp : (Machine.stopped current steps (settled y)).isPending = true) :
    ∃ w owner resume stack, y = (w, .wait owner resume stack) := by
  induction h with
  | wait w owner resume stack => exact ⟨w, owner, resume, stack, rfl⟩
  | done | failed => cases hp
  | errand h ih => exact ih hp

theorem exists_reached (m : Machine) (p : Program) (n : Nat)
    (hp : ((m.start p).advance n).isPending = true) :
    ∃ w owner resume stack, Reached m p n (w, .wait owner resume stack) := by
  induction n with
  | zero =>
    obtain ⟨k, y, hd, -⟩ := exists_drives (block m.world p Scopes.globals [])
    have hr : Reached m p 0 y := .start hd
    obtain ⟨current, hn⟩ := hr.advance
    rw [hn] at hp
    obtain ⟨w, owner, resume, stack, rfl⟩ := hd.exists_wait hp
    exact ⟨w, owner, resume, stack, hr⟩
  | succ n ih =>
    have hp' : ((m.start p).advance n).isPending = true := by
      by_contra h
      rw [Machine.advance_add, Machine.advance_eq_self 1 (by simpa using h)] at hp
      exact h hp
    obtain ⟨w₀, owner₀, resume₀, stack₀, hr₀⟩ := ih hp'
    obtain ⟨k, y, hd, -⟩ := exists_drives (dispatch w₀ owner₀ stack₀ resume₀)
    have hr : Reached m p (n + 1) y := .step hr₀ hd
    obtain ⟨current, hn⟩ := hr.advance
    rw [hn] at hp
    obtain ⟨w, owner, resume, stack, rfl⟩ := hd.exists_wait hp
    exact ⟨w, owner, resume, stack, hr⟩

/-- The driver has no errand to run before the first step. Before each further step it runs so many
at most as there are sequences that wait, passes of loops that are left and passes that the applied
word asks for; then it stops where the machine stops. -/
theorem errands_run_out (m : Machine) (p : Program) :
    (∃ y, Drives (block m.world p Scopes.globals []) 0 y ∧
      m.start p = Machine.stopped none 0 (settled y)) ∧
    ∀ n, ((m.start p).advance n).isPending = true →
      ∃ w owner resume stack, Reached m p n (w, .wait owner resume stack) ∧
        (m.start p).advance n = ⟨w, .pending ⟨owner, resume, frames stack⟩, some owner, n⟩ ∧
        ∃ k y, Drives (dispatch w owner stack resume) k y ∧
          k ≤ passesOf w owner resume + cost stack ∧
          ((m.start p).advance n).step = Machine.stopped (some owner) (n + 1) (settled y) := by
  refine ⟨?_, fun n hp => ?_⟩
  · obtain ⟨k, y, hd, hk⟩ := exists_drives (block m.world p Scopes.globals [])
    have hb := cost_block m.world p Scopes.globals []
    cases Nat.le_zero.1 (Nat.le_trans hk hb)
    refine ⟨y, hd, ?_⟩
    rw [← hd.settled_eq, settled_block]
    rfl
  · obtain ⟨w, owner, resume, stack, hr⟩ := exists_reached m p n hp
    obtain ⟨current, hn⟩ := hr.advance
    obtain ⟨k, y, hd, hk⟩ := exists_drives (dispatch w owner stack resume)
    refine ⟨w, owner, resume, stack, hr, hn, k, y, hd,
      Nat.le_trans hk (cost_dispatch w owner stack resume), ?_⟩
    rw [hn, ← hd.settled_eq, settled_dispatch]
    rfl

section Attained

variable {w w' : World} {stack : List Hold}

def Hold.Idle : Hold → Prop
  | .sequence .block _ [] _ | .loop _ [] _ => True
  | _ => False

theorem drives_again (hk : ∀ v, ∃ u, Drives (give w v stack) k (w, .done u))
    (scope : Scopes.Handle) (n : Nat) :
    ∃ u, Drives (again w [] scope stack n) (n + k) (w, .done u) := by
  induction n with
  | zero => simpa [again] using hk .void
  | succ n ih =>
    obtain ⟨u, hd⟩ := ih
    exact ⟨u, Nat.succ_add n k ▸ .errand hd⟩

theorem drives_give (hs : ∀ h ∈ stack, h.Idle) (v : Value) :
    ∃ u, Drives (give w v stack) (cost stack) (w, .done u) := by
  induction stack generalizing v with
  | nil => exact ⟨v, .done w v⟩
  | cons h stack ih =>
    obtain ⟨hh, hstack⟩ := List.forall_mem_cons.1 hs
    simp only [cost, Hold.cost]
    match h with
    | .sequence .block done [] scope =>
      obtain ⟨u, hd⟩ := ih hstack ((done.push v).back?.getD .void)
      rw [Nat.add_comm]
      exact ⟨u, .errand hd⟩
    | .loop n [] scope =>
      obtain ⟨u, hd⟩ := drives_again (ih hstack) scope n
      rw [Nat.add_right_comm]
      exact ⟨u, .errand hd⟩

/-- A word that asks for an empty loop leaves the driver as many errands as it can, if nothing that
waits has anything left to evaluate. -/
theorem errands_attain_bound (hs : ∀ h ∈ stack, h.Idle) {owner : Expr} {args : List Value}
    {scope inner : Scopes.Handle} {d : World.Decision} {count : Nat}
    (ha : w.apply owner args scope = .ok d) (hd : w.carryOut d = (w', .loop count [] inner)) :
    ∃ u, Drives (dispatch w owner stack (.apply args scope))
      (passesOf w owner (.apply args scope) + cost stack) (w', .done u) := by
  simp only [dispatch, passesOf, ha, hd, comply, passes]
  exact drives_again (drives_give hs) inner count

end Attained

end LogoLang.Trampoline
