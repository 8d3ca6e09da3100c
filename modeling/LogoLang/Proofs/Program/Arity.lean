import LogoLang.Proofs.Program.Legible

/-!
The number of arguments of calls. A walk goes through an expression in the order of its text, adds
the word of every definition it comes to and checks every call against what it knows by then. Main
statement: a program that has been read can be walked through, and the walk ends with the
vocabulary of the reader.
-/

set_option autoImplicit false

namespace LogoLang

namespace Expr

mutual
/-- The vocabulary after an expression, if all calls in it are admitted. -/
def walk (v : Vocabulary) (grouped : Bool) : Expr → Option Vocabulary
  | .list items _ => walkList v items
  | .define name params body _ => walkList (v.define name params) body
  | .call name args _ => if v.admits grouped name args.length then walkList v args else none
  | .binary _ left right _ => (left.walk v false).bind fun v => right.walk v false
  | .group inner _ => inner.walk v true
  | _ => some v
def walkList (v : Vocabulary) : List Expr → Option Vocabulary
  | [] => some v
  | e :: es => (e.walk v false).bind fun v => walkList v es
end

mutual
theorem walk_of_legible {v v' : Vocabulary} {grouped : Bool} :
    ∀ e : Expr, e.legible v grouped = some v' → e.walk v grouped = some v'
  | .list items line, h => walkList_of_legibleList items h
  | .define name params body line, h =>
    walkList_of_legibleList body (Option.ite_none_right_eq_some.1 h).2
  | .call name args line, h => by
    simp only [legible, Option.ite_none_right_eq_some] at h
    rw [walk, if_pos h.1]
    exact walkList_of_legibleList args h.2
  | .binary op left right line, h => by
    obtain ⟨v₁, hl, hr⟩ := Option.bind_eq_some_iff.1 h
    rw [walk, walk_of_legible left hl]
    exact walk_of_legible right hr
  | .group inner line, h => walk_of_legible inner (Option.ite_none_left_eq_some.1 h).2
  | .number _ _, h | .word _ _, h | .var _ _, h => h
theorem walkList_of_legibleList {v v' : Vocabulary} :
    ∀ es : List Expr, legibleList v es = some v' → walkList v es = some v'
  | [], h => h
  | e :: es, h => by
    obtain ⟨v₁, he, hs⟩ := Option.bind_eq_some_iff.1 h
    rw [walkList, walk_of_legible e he]
    exact walkList_of_legibleList es hs
end

end Expr

theorem Program.walk_read {v : Vocabulary} {ts : List Token} {p : Program.Reading}
    (h : Program.read v ts = .ok p) : Expr.walkList v p.program = some p.words :=
  Expr.walkList_of_legibleList p.program (Program.legible_read h)

end LogoLang
