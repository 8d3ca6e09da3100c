import LogoLang.Scope

/-!
What a word can ask of the machine that applies it. A word computes no further itself: it names a
value, or code to be run and how.
-/

set_option autoImplicit false

namespace LogoLang

inductive Reply where
  /-- The value of the call. -/
  | value (v : Value)
  /-- Print a line; the call has no value. -/
  | say (line : String)
  /-- Run a block; its value is that of the call. -/
  | run (block : List Expr) (scope : Scopes.Handle)
  /-- Run a block two times; the second value is that of the call. -/
  | twice (block : List Expr) (scope : Scopes.Handle)
  /-- Run a block several times; the call has no value. -/
  | loop (count : Nat) (block : List Expr) (scope : Scopes.Handle)
  /-- End the whole program with a value. -/
  | finish (v : Value)
  /-- Wait for one more step, then give the value of the call. -/
  | hold (v : Value)
  deriving Repr

end LogoLang
