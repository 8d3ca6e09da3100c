import LogoLang.Word

/-!
The state that a running program can read and change, and the application of a word to its
arguments. What a word does is decided first, from the world as it is; the decision is carried out
afterwards.
-/

set_option autoImplicit false

namespace LogoLang

structure World where
  words : Registry := Registry.core
  scopes : Scopes := Scopes.single
  output : String := ""
  /-- Printing shows nothing. -/
  silent : Bool := false
  journal : Array String := #[]

namespace Expr

def callee : Expr → String
  | .call name _ _ => name
  | .binary op _ _ _ => op.word
  | _ => ""

def operands : Expr → List Expr
  | .call _ args _ => args
  | .binary _ left right _ => [left, right]
  | _ => []

end Expr

namespace World

def print (w : World) (line : String) : World :=
  if w.silent then w else { w with output := w.output ++ line ++ "\n" }

def learn (w : World) (name : String) (params : List String) (body : List Expr) : World :=
  { w with words := w.words.insert name (.defined params body) }

inductive Decision where
  | reply (r : Reply)
  | host (a : Host.Answer)
  /-- Run a procedure with its parameters bound. -/
  | enter (bindings : List (String × Value)) (body : List Expr)

/-- The expression of the first argument that has no value. -/
def voidArg? (call : Expr) (args : List Value) : Option Expr :=
  (args.findIdx? Value.isVoid).map fun i => call.operands[i]?.getD call

def applyWord (w : World) (call : Expr) (args : List Value) (scope : Scopes.Handle) :
    Word → Except RunFault Decision
  | .core word => (word.act (call.line?.getD 0) scope args).map .reply
  | .host _ _ act => (act ⟨call.callee, args, scope, w.scopes⟩).map .host
  | .defined params body => .ok (.enter (params.zip args) body)

/-- Applies the word of a call to its arguments. The word has to exist, then every argument has to
have a value, then their number has to be right. -/
def apply (w : World) (call : Expr) (args : List Value) (scope : Scopes.Handle) :
    Except Fault Decision :=
  match w.words.get? call.callee with
  | none => .error (.unknown call.callee call.line?)
  | some word =>
    match voidArg? call args with
    | some arg => .error (.run (.noValue arg) (some arg))
    | none =>
      if word.takes args.length then
        (w.applyWord call args scope word).mapError fun cause => .run cause (some call)
      else
        .error (.run (.expectsArguments call.callee word.signature.arity args.length) (some call))

/-- Carries a decision out and tells what is to be done next. A procedure runs in a new child of
the global scope. -/
def carryOut (w : World) : Decision → World × Reply
  | .reply (.say line) => (w.print line, .value .void)
  | .reply r => (w, r)
  | .host a => ({ w with scopes := a.scopes, journal := w.journal ++ a.notes }, a.reply)
  | .enter bindings body =>
    let h := w.scopes.next
    ({ w with scopes := (w.scopes.addChild Scopes.globals).defineAll h bindings }, .run body h)

end World

end LogoLang
