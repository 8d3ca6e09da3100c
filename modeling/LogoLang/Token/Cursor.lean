import LogoLang.Token

/-!
A place in a list of tokens, moving forward only. Running off the end is an ordinary state.
-/

set_option autoImplicit false

namespace LogoLang.Token

structure Cursor where
  position : Nat
  rest : List Token
  deriving DecidableEq, Repr

namespace Cursor

def ofTokens (ts : List Token) : Cursor := ⟨0, ts⟩

def peek? (c : Cursor) : Option Token := c.rest.head?

def kind? (c : Cursor) : Option Kind := c.peek?.map Token.kind

def isAtEnd (c : Cursor) : Bool := c.rest.isEmpty

def check (c : Cursor) (k : Kind) : Bool := c.kind? == some k

/-- The cursor behind the next token; at the end it stays. -/
def advance (c : Cursor) : Cursor :=
  match c.rest with
  | [] => c
  | _ :: ts => ⟨c.position + 1, ts⟩

theorem rest_advance (c : Cursor) : c.advance.rest = c.rest.tail := by
  obtain ⟨n, ts⟩ := c
  cases ts <;> rfl

end Cursor

end LogoLang.Token
