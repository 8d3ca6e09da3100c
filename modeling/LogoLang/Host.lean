import LogoLang.Fault
import LogoLang.Reply

/-!
Words that the program around the interpreter brings along. Such a word sees the call it answers and
the scopes; it may bind names, note lines in a journal, and replies like any other word.
-/

set_option autoImplicit false

namespace LogoLang.Host

structure Call where
  /-- The word by which it was called. -/
  name : String
  args : List Value
  scope : Scopes.Handle
  scopes : Scopes

structure Answer where
  reply : Reply
  scopes : Scopes
  notes : List String := []

/-- What a host word does. A failure concerns the call as a whole. -/
abbrev Action := Call → Except RunFault Answer

def Call.reply (c : Call) (r : Reply) : Answer := ⟨r, c.scopes, []⟩

def Call.arg (c : Call) (i : Nat) : Value := c.args[i]?.getD .void

end LogoLang.Host
