import LogoLang.Host

/-!
A stock of host words: small ones to look at and change the state of a running program, and some
that take part in its control flow.
-/

set_option autoImplicit false

namespace LogoLang.Host

inductive Stock where
  | log | first | count | nil | type | fail | setGlobal | setLocal | lookup
  | doBlock | twice | globally | halt | bounce | pause
  deriving DecidableEq, Repr

namespace Stock

def all : List Stock :=
  [.log, .first, .count, .nil, .type, .fail, .setGlobal, .setLocal, .lookup, .doBlock, .twice,
    .globally, .halt, .bounce, .pause]

def name : Stock → String
  | .log => "log"
  | .first => "first"
  | .count => "count"
  | .nil => "nil"
  | .type => "type"
  | .fail => "fail"
  | .setGlobal => "setglobal"
  | .setLocal => "setlocal"
  | .lookup => "lookup"
  | .doBlock => "do"
  | .twice => "twice"
  | .globally => "globally"
  | .halt => "halt"
  | .bounce => "bounce"
  | .pause => "pause"

def ofName? (s : String) : Option Stock := all.find? fun w => w.name = s

def logLine (c : Call) : String :=
  c.name ++ "(" ++ ", ".intercalate (c.args.map Value.text) ++ ")"

def block (w : Stock) (c : Call) : Except RunFault (List Expr) :=
  match (c.arg 0).toItems? with
  | some items => .ok items
  | none => .error (.stated (w.name ++ " expects a list"))

def bind (c : Call) (scope : Scopes.Handle) : Answer :=
  ⟨.value .void, c.scopes.define scope (c.arg 0).text (c.arg 1), []⟩

def act (w : Stock) : Action := fun c =>
  match w with
  | .log => .ok ⟨.value .void, c.scopes, [logLine c]⟩
  | .first => .ok (c.reply (.value (c.arg 0)))
  | .count => .ok (c.reply (.value (.number (Int64.ofNat c.args.length))))
  | .nil => .ok (c.reply (.value .nil))
  | .type => .ok (c.reply (.value (.word (c.arg 0).kind.name)))
  | .fail => .error (.stated (c.arg 0).text)
  | .setGlobal => .ok (bind c Scopes.globals)
  | .setLocal => .ok (bind c c.scope)
  | .lookup => .ok (c.reply (.value ((c.scopes.lookup c.scope (c.arg 0).text).getD .void)))
  | .doBlock => do
    let items ← block w c
    pure (c.reply (.run items c.scope))
  | .twice => do
    let items ← block w c
    pure (c.reply (.twice items c.scope))
  | .globally => do
    let items ← block w c
    pure (c.reply (.run items Scopes.globals))
  | .halt => .ok (c.reply (.finish (c.arg 0)))
  | .bounce => .ok (c.reply (.value (c.arg 0)))
  | .pause => .ok (c.reply (.hold (c.arg 0)))

end Stock

end LogoLang.Host
