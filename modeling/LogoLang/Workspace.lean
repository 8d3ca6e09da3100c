import LogoLang.Machine
import LogoLang.Options
import LogoLang.Program.Path
import LogoLang.Program.Reader
import LogoLang.Token.Lexer

/-!
A workspace joins a machine with the program that was loaded last and the text it was read from.
Faults are written to its log, quoted from that text.
-/

set_option autoImplicit false

namespace LogoLang

structure Workspace where
  options : Options := {}
  machine : Machine := {}
  source : String := ""
  program : Program := []
  log : Array String := #[]

namespace Workspace

def tokenize (ws : Workspace) (source : String) : List Token :=
  Token.tokenize ws.options.keywords source

def read (ws : Workspace) (ts : List Token) : Except Fault Program :=
  (Program.read { known := ws.machine.world.words.signatures } ts).map Program.Reading.program

def logFault (ws : Workspace) (f : Fault) : Workspace :=
  { ws with log := ws.log ++ f.report ws.source }

def logSession (ws : Workspace) : Workspace :=
  match ws.machine.fault? with
  | some f => ws.logFault f
  | none => ws

/-- Loads a text. A text that is no program leaves an empty one. -/
def load (ws : Workspace) (source : String) : Workspace × Option Fault :=
  match ws.read (ws.tokenize source) with
  | .ok p => ({ ws with source := source, program := p }, none)
  | .error f => ({ ws with source := source, program := [] }, some f)

def reset (ws : Workspace) : Workspace :=
  { ws with machine := ws.machine.reset, source := "", program := [] }

def reload (ws : Workspace) (source : String) : Workspace × Option Fault :=
  ws.reset.load source

def start (ws : Workspace) (p : Program) : Workspace :=
  logSession { ws with machine := ws.machine.start p }

def startLoaded (ws : Workspace) : Workspace := ws.start ws.program

def step (ws : Workspace) : Workspace :=
  if ws.machine.isPending then logSession { ws with machine := ws.machine.step } else ws

def runProgram (limit : Nat) (ws : Workspace) (p : Program) : Workspace × Option Value :=
  let ws := { ws with machine := (ws.machine.start p).run limit ws.options.maxSteps }
  match ws.machine.value? with
  | some v => (ws, some v)
  | none => (ws.logSession, none)

def runLoaded (limit : Nat) (ws : Workspace) : Workspace × Option Value :=
  ws.runProgram limit ws.program

/-- Loads a text and runs it. What earlier runs have defined stays. -/
def run (limit : Nat) (ws : Workspace) (source : String) : Workspace × Option Value :=
  match ws.load source with
  | (ws, some f) => (ws.logFault f, none)
  | (ws, none) => ws.runLoaded limit

def stepMany : Nat → Workspace → Workspace
  | 0, ws => ws
  | n + 1, ws => if ws.machine.isPending then stepMany n ws.step else ws

def trace (seen : Array Expr) : Nat → Workspace → Array Expr × Workspace
  | 0, ws => (seen, ws)
  | n + 1, ws =>
    if ws.machine.isPending then trace (seen ++ ws.machine.current.toList) n ws.step
    else (seen, ws)

structure Transcript where
  errors : List String
  output : String
  notes : List String
  deriving DecidableEq, Repr

def drain (ws : Workspace) : Transcript × Workspace :=
  (⟨ws.log.toList, ws.machine.world.output, ws.machine.world.journal.toList⟩,
    { ws with log := #[], machine.world.output := "", machine.world.journal := #[] })

end Workspace

end LogoLang
