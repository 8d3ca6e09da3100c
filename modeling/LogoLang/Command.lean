import LogoLang.Expr.Outline
import LogoLang.Workspace

/-!
The command line. What is asked for is found from the arguments alone; the answer is what goes to
the two output streams and the exit code, and depends on nothing but the text of the one file that
is read.
-/

set_option autoImplicit false

namespace LogoLang

inductive Command where
  | run | step | lex | parse | format
  deriving DecidableEq, Repr

def Command.ofName? : String → Option Command
  | "run" => some .run
  | "step" => some .step
  | "lex" => some .lex
  | "parse" => some .parse
  | "fmt" => some .format
  | _ => none

inductive ReadFault where
  | notFound
  | denied
  | notText
  | other (reason : String)
  deriving DecidableEq, Repr

def ReadFault.message (path : String) : ReadFault → String
  | .notFound => "cannot find file '" ++ path ++ "'"
  | .denied => "permission denied reading '" ++ path ++ "'"
  | .notText => "'" ++ path ++ "' contains invalid UTF-8 data"
  | .other reason => "error reading '" ++ path ++ "': " ++ reason

inductive Request where
  | usage
  | version
  | unknown (name : String)
  | missingPath (name : String)
  | badOption (f : Options.Fault)
  | file (c : Command) (path : String) (options : Options)
  deriving Repr

/-- A path is the first argument after the command that is no flag. It is missed before the options
are looked at. -/
def Request.ofArgs : List String → Request
  | [] => .usage
  | name :: args =>
    match Command.ofName? name with
    | some c =>
      match args.find? fun arg => !Options.isFlag arg with
      | none => .missingPath name
      | some path =>
        match Options.ofArgs args with
        | .ok options => .file c path options
        | .error f => .badOption f
    | none =>
      if name ∈ ["help", "--help", "-h"] then .usage
      else if name ∈ ["version", "--version", "-V"] then .version
      else .unknown name

def Request.path? : Request → Option String
  | .file _ path _ => some path
  | _ => none

structure Response where
  out : String := ""
  err : String := ""
  code : Nat := 0
  deriving DecidableEq, Repr

namespace Response

def ofLines (lines : List String) : String := String.join (lines.map (· ++ "\n"))

def failure (lines : List String) : Response := { err := ofLines lines, code := 1 }

end Response

def usageLines : List String := [
  "Logo",
  "",
  "Usage: logo <command> <file.logo> [options]",
  "",
  "Commands:",
  "  run <file>       Run a program to completion",
  "  step <file>      Run a program one reduction at a time",
  "  lex <file>       Tokenize and display tokens",
  "  parse <file>     Parse and display the expression tree",
  "  fmt <file>       Print the program as the exporter writes it",
  "  help             Show this help message",
  "  version          Show version information",
  "",
  "Options:",
  "  --to=<word>        Extra spelling accepted for 'to'",
  "  --end=<word>       Extra spelling accepted for 'end'",
  "  --max-steps=<n>    Stop with an error after n reductions",
  "  --trace            Print each reduction (step command)",
  "",
  "Set RUST_LOG (e.g. RUST_LOG=logo_eval=debug) for internal tracing."]

namespace Command

def answerLex (path : String) (options : Options) (source : String) : Response :=
  let ts := Token.tokenize options.keywords source
  { out := Response.ofLines
      (("Tokens for '" ++ path ++ "' (" ++ Text.natText ts.length ++ " tokens):") ::
        ts.map fun t => "  " ++ t.dump) }

def treeLine (path : Path) (e : Expr) : String :=
  let line := (e.line?.map fun n => " @" ++ Text.natText (n + 1)).getD ""
  String.ofList (List.replicate (2 * path.length) ' ') ++ path.text ++ " " ++ e.describe ++ line

def answerParse (path : String) (p : Program) : Response :=
  { out := Response.ofLines
      (("Parse result for '" ++ path ++ "' (" ++ Text.natText p.length ++ " expressions):") ::
        p.paths.filterMap fun q => (p.get? q).map (treeLine q)) }

def answerRun (limit : Nat) (ws : Workspace) : Response :=
  let (ws, v) := ws.runLoaded limit
  { out := ws.machine.world.output
    err := Response.ofLines ws.log.toList
    code := if v.isSome then 0 else 1 }

def traceLine (kw : Keywords) (step : Nat) (e : Expr) : String :=
  let line := (e.line?.map (· + 1)).getD 0
  "[" ++ Text.natText step ++ "] line " ++ Text.natText line ++ ": " ++ e.text kw

def traceLines (kw : Keywords) (es : Array Expr) : List String :=
  es.toList.zipIdx.map fun (e, i) => traceLine kw (i + 1) e

def answerStep (limit : Nat) (ws : Workspace) : Response :=
  let options := ws.options
  let (es, ws) := ws.startLoaded.trace #[] (options.maxSteps.getD limit)
  let shown := if options.trace then traceLines options.keywords es else []
  let steps := Text.natText ws.machine.steps
  let (last, code) :=
    if ws.machine.isPending && options.maxSteps.isSome then
      (["stopped after " ++ steps ++ " steps"], 1)
    else if ws.machine.fault?.isSome then ([], 1)
    else ([steps ++ " steps"], 0)
  { out := ws.machine.world.output
    err := Response.ofLines (shown ++ ws.log.toList ++ last)
    code := code }

/-- The answer for a file with the given text. All commands but `lex` need a program. -/
def answer (limit : Nat) (path : String) (options : Options) (source : String) :
    Command → Response
  | .lex => answerLex path options source
  | c =>
    match Workspace.reload { options := options } source with
    | (_, some f) => Response.failure (f.report source)
    | (ws, none) =>
      match c with
      | .parse => answerParse path ws.program
      | .format => { out := ws.program.text options.keywords }
      | .step => answerStep limit ws
      | _ => answerRun limit ws

end Command

/-- The answer to a request, given how files read. A run without a budget is cut off after `limit`
steps. -/
def Request.answer (limit : Nat) (contents : String → Except ReadFault String) :
    Request → Response
  | .usage => { out := Response.ofLines usageLines }
  | .version => { out := Response.ofLines ["Logo 0.1.0"] }
  | .unknown name =>
    { out := Response.ofLines usageLines
      err := Response.ofLines ["Unknown command: " ++ name, ""]
      code := 1 }
  | .missingPath name =>
    Response.failure
      ["error: missing file path", "Usage: logo " ++ name ++ " <file.logo> [options]"]
  | .badOption f => Response.failure ["error: " ++ f.message]
  | .file c path options =>
    match contents path with
    | .ok source => c.answer limit path options source
    | .error f => Response.failure [f.message path]

end LogoLang
