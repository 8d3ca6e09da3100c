import LogoLang.Table

/-!
Signatures: what has to be known of a word to read a call of it. A vocabulary is a table of known
signatures with those added while a text is read, which win over the others.
-/

set_option autoImplicit false

namespace LogoLang

inductive Signature where
  /-- A built-in word. If it is variadic, a call that stands directly in parentheses takes all
  arguments up to the closing one. -/
  | primitive (arity : Nat) (variadic : Bool)
  /-- A procedure with its parameters. -/
  | defined (params : List String)
  deriving DecidableEq, Repr

namespace Signature

def arity : Signature → Nat
  | .primitive n _ => n
  | .defined params => params.length

def isVariadic : Signature → Bool
  | .primitive _ variadic => variadic
  | .defined _ => false

end Signature

structure Vocabulary where
  known : Table Signature
  added : Table Signature := .empty
  deriving DecidableEq, Repr

namespace Vocabulary

def get? (v : Vocabulary) (name : String) : Option Signature :=
  (v.added.get? name).or (v.known.get? name)

def define (v : Vocabulary) (name : String) (params : List String) : Vocabulary :=
  { v with added := v.added.insert name (.defined params) }

theorem get?_define (v : Vocabulary) (name other : String) (params : List String) :
    (v.define name params).get? other =
      if other = name then some (.defined params) else v.get? other := by
  by_cases h : other = name <;> simp [get?, define, Table.get?_insert, h]

end Vocabulary

end LogoLang
