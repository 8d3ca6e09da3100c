import LogoLang.Fault
import LogoLang.Reply

/-!
The words that are always there: arithmetic and comparison, lists, control flow over blocks, and
printing. Arithmetic is that of the integers, and fails where the result does not fit a word.
-/

set_option autoImplicit false

namespace LogoLang

inductive CoreWord where
  | add | subtract | multiply | divide | less | greater | equal
  | sum | list | loop | when | choose | print
  deriving DecidableEq, Repr

namespace CoreWord

def all : List CoreWord :=
  [.add, .subtract, .multiply, .divide, .less, .greater, .equal, .sum, .list, .loop, .when,
    .choose, .print]

def name : CoreWord → String
  | .add => "add"
  | .subtract => "minus"
  | .multiply => "multiple"
  | .divide => "divide"
  | .less => "lt"
  | .greater => "gt"
  | .equal => "eq"
  | .sum => "sum"
  | .list => "list"
  | .loop => "repeat"
  | .when => "if"
  | .choose => "ifelse"
  | .print => "print"

def arity : CoreWord → Nat
  | .choose => 3
  | .print => 1
  | _ => 2

def isVariadic : CoreWord → Bool
  | .sum | .list => true
  | _ => false

def number (w : CoreWord) (v : Value) : Except RunFault Int64 :=
  match v.toNumber? with
  | some n => .ok n
  | none => .error (.expectsNumber w.name v.kind)

def truth (w : CoreWord) (v : Value) : Except RunFault Bool :=
  match v.toBool? with
  | some b => .ok b
  | none => .error (.expectsTruth w.name v.kind)

def block (w : CoreWord) (v : Value) : Except RunFault (List Expr) :=
  match v.toItems? with
  | some items => .ok items
  | none => .error (.expectsList w.name v.kind)

def fitted (n : Int) : Except RunFault Value :=
  match Text.fit? n with
  | some m => .ok (.number m)
  | none => .error .overflow

/-- Division drops the fraction. -/
def quotient (a b : Int64) : Except RunFault Value :=
  if b = 0 then .error .divisionByZero else fitted (a.toInt.tdiv b.toInt)

/-- Adds up from the left, each partial sum being checked. -/
def total (start : Int64) : List Value → Except RunFault Value
  | [] => .ok (.number start)
  | v :: vs => do
    let n ← number .sum v
    match Text.fit? (start.toInt + n.toInt) with
    | some m => total m vs
    | none => .error .overflow

def listOf (line : Nat) (args : List Value) : Value :=
  .list (args.filterMap fun v => v.toExpr? line) line

def act (w : CoreWord) (line : Nat) (scope : Scopes.Handle) (args : List Value) :
    Except RunFault Reply :=
  match w, args with
  | .add, [a, b] => do
    let m ← number w a
    let n ← number w b
    .value <$> fitted (m.toInt + n.toInt)
  | .subtract, [a, b] => do
    let m ← number w a
    let n ← number w b
    .value <$> fitted (m.toInt - n.toInt)
  | .multiply, [a, b] => do
    let m ← number w a
    let n ← number w b
    .value <$> fitted (m.toInt * n.toInt)
  | .divide, [a, b] => do
    let m ← number w a
    let n ← number w b
    .value <$> quotient m n
  | .less, [a, b] => do
    let m ← number w a
    let n ← number w b
    pure (.value (.ofBool (decide (m.toInt < n.toInt))))
  | .greater, [a, b] => do
    let m ← number w a
    let n ← number w b
    pure (.value (.ofBool (decide (n.toInt < m.toInt))))
  | .equal, [a, b] => pure (.value (.ofBool (a.equals b)))
  | .sum, args => .value <$> total 0 args
  | .list, args => pure (.value (listOf line args))
  | .loop, [n, b] => do
    let count ← number w n
    let items ← block w b
    pure (.loop count.toInt.toNat items scope)
  | .when, [c, b] => do
    let holds ← truth w c
    let items ← block w b
    pure (if holds then .run items scope else .value .void)
  | .choose, [c, a, b] => do
    let holds ← truth w c
    let yes ← block w a
    let no ← block w b
    pure (.run (if holds then yes else no) scope)
  | .print, [v] => pure (.say v.text)
  | _, _ => .error (.expectsArguments w.name w.arity args.length)

end CoreWord

end LogoLang
