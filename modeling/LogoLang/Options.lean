import LogoLang.Keywords
import LogoLang.Text.Decimal

/-!
The options of a run, and how they are given as arguments of a command.
-/

set_option autoImplicit false

namespace LogoLang

structure Options where
  keywords : Keywords := {}
  /-- The budget of steps for a run to the end. -/
  maxSteps : Option Nat := none
  /-- Show every step. -/
  trace : Bool := false
  deriving DecidableEq, Repr

inductive Options.Fault where
  | needsWord (flag : String)
  | invalidMaxSteps (text : String)
  | unknown (arg : String)
  deriving DecidableEq, Repr

def Options.Fault.message : Options.Fault → String
  | .needsWord flag => flag ++ " needs a word"
  | .invalidMaxSteps text => "invalid --max-steps value '" ++ text ++ "'"
  | .unknown arg => "unknown option '" ++ arg ++ "'"

namespace Options

def after? (flag arg : String) : Option String :=
  (flag.toList.isPrefixOf? arg.toList).map String.ofList

def isFlag (arg : String) : Bool := arg.toList.head? == some '-'

/-- The options given so far, with the keywords as they were written. -/
structure Draft where
  opening : Option String := none
  closing : Option String := none
  maxSteps : Option Nat := none
  trace : Bool := false
  deriving DecidableEq, Repr

def Draft.toOptions (d : Draft) : Options :=
  ⟨Keywords.localized d.opening d.closing, d.maxSteps, d.trace⟩

/-- Takes one argument into account. What is no flag is passed over, and of two values for one
option the later counts. -/
def Draft.take (d : Draft) (arg : String) : Except Options.Fault Draft :=
  match after? "--to=" arg with
  | some word => if word = "" then .error (.needsWord "--to") else .ok { d with opening := word }
  | none =>
    match after? "--end=" arg with
    | some word => if word = "" then .error (.needsWord "--end") else .ok { d with closing := word }
    | none =>
      match after? "--max-steps=" arg with
      | some text =>
        match Text.readCount? text with
        | some n => .ok { d with maxSteps := n }
        | none => .error (.invalidMaxSteps text)
      | none =>
        if arg = "--trace" then .ok { d with trace := true }
        else if isFlag arg then .error (.unknown arg)
        else .ok d

def Draft.takeAll (d : Draft) : List String → Except Options.Fault Draft
  | [] => .ok d
  | arg :: args =>
    match d.take arg with
    | .ok d => d.takeAll args
    | .error f => .error f

def ofArgs (args : List String) : Except Options.Fault Options :=
  (Draft.takeAll {} args).map Draft.toOptions

end Options

end LogoLang
