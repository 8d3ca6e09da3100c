import LogoLang.Machine.Reduction

/-!
Machines run a program step by step. A step applies one word; between two steps everything that
needs no word is done. A machine holds at most one session, which is a program being run.
-/

set_option autoImplicit false

namespace LogoLang

inductive Session where
  | idle
  | pending (p : Pending)
  | completed (v : Value)
  | errored (f : Fault)
  deriving DecidableEq, Repr

structure Machine where
  world : World := {}
  session : Session := .idle
  /-- The expression whose word is applied next, or whose application failed. -/
  current : Option Expr := none
  steps : Nat := 0

namespace Machine

def isPending (m : Machine) : Bool :=
  match m.session with
  | .pending _ => true
  | _ => false

def stateName (m : Machine) : String :=
  match m.session with
  | .idle => "idle"
  | .pending _ => "pending"
  | .completed _ => "completed"
  | .errored _ => "errored"

def value? (m : Machine) : Option Value :=
  match m.session with
  | .completed v => some v
  | _ => none

def fault? (m : Machine) : Option Fault :=
  match m.session with
  | .errored f => some f
  | _ => none

def stopped (current : Option Expr) (steps : Nat) : World × Outcome → Machine
  | (w, .waiting p) => ⟨w, .pending p, some p.owner, steps⟩
  | (w, .done v) => ⟨w, .completed v, none, steps⟩
  | (w, .failed f) => ⟨w, .errored f, current, steps⟩

/-- Begins a session, in place of any other, and evaluates up to the first step. -/
def start (m : Machine) (program : Program) : Machine :=
  stopped none 0 (m.world.settle (.run program Scopes.globals) [])

def step : Machine → Machine
  | ⟨world, .pending p, current, steps⟩ => stopped current (steps + 1) (p.proceed world)
  | m => m

def advance : Nat → Machine → Machine
  | 0, m => m
  | n + 1, m => if m.isPending then advance n m.step else m

theorem step_eq_self {m : Machine} (h : m.isPending = false) : m.step = m := by
  obtain ⟨w, s, c, n⟩ := m
  cases s <;> first | rfl | cases h

theorem advance_eq_self {m : Machine} (n : Nat) (h : m.isPending = false) : m.advance n = m := by
  cases n <;> simp [advance, h]

theorem advance_add (a b : Nat) (m : Machine) : m.advance (a + b) = (m.advance a).advance b := by
  induction a generalizing m with
  | zero => simp [advance]
  | succ a ih =>
    rw [Nat.succ_add]
    by_cases h : m.isPending
    · simp only [advance, h, if_true, ih]
    · have h' : m.isPending = false := by simpa using h
      rw [advance_eq_self _ h', advance_eq_self _ h', advance_eq_self _ h']

/-- A session that still waits fails for lack of budget. -/
def exhaust (m : Machine) : Machine :=
  match m.session with
  | .pending _ => { m with session := .errored (.run .budgetExhausted m.current) }
  | _ => m

/-- Runs the session to its end within a budget, in which the steps already done count. -/
def runWithin (budget : Nat) (m : Machine) : Machine :=
  (advance (budget - m.steps) m).exhaust

/-- Runs the session to its end, within the budget if there is one, and with a limit to the steps
otherwise. -/
def run (limit : Nat) (budget : Option Nat) (m : Machine) : Machine :=
  match budget with
  | some n => m.runWithin n
  | none => m.advance limit

def reset (m : Machine) : Machine :=
  { world := { output := m.world.output, silent := m.world.silent, journal := m.world.journal } }

def register (m : Machine) (name : String) (arity : Nat) (variadic : Bool) (act : Host.Action) :
    Machine :=
  { m with world.words := m.world.words.insert name (.host arity variadic act) }

def setGlobal (m : Machine) (name : String) (v : Value) : Machine :=
  { m with world.scopes := m.world.scopes.define Scopes.globals name v }

def global? (m : Machine) (name : String) : Option Value :=
  m.world.scopes.lookup Scopes.globals name

end Machine

end LogoLang
