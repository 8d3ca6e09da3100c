import LogoLang.Proofs.Program.Arity
import LogoLang.Token.Lexer
import LogoLang.Word

/-!
Programs node by node, parents before children and children from left to right. Main statement: in a
program that has been read every call has the arity that is in force where it stands, which is set
by the headers that come before it in this order; and the vocabulary of the reader is made up of
these headers.
-/

set_option autoImplicit false

namespace LogoLang

structure Visit where
  node : Expr
  /-- It is all that stands in a pair of parentheses. -/
  grouped : Bool

namespace Expr

mutual
/-- The node and the nodes below it, parents before children. -/
def visits (grouped : Bool) : Expr → List Visit
  | e@(.list items _) => ⟨e, grouped⟩ :: visitsList items
  | e@(.define _ _ body _) => ⟨e, grouped⟩ :: visitsList body
  | e@(.call _ args _) => ⟨e, grouped⟩ :: visitsList args
  | e@(.binary _ left right _) => ⟨e, grouped⟩ :: (left.visits false ++ right.visits false)
  | e@(.group inner _) => ⟨e, grouped⟩ :: inner.visits true
  | e => [⟨e, grouped⟩]
def visitsList : List Expr → List Visit
  | [] => []
  | e :: es => e.visits false ++ visitsList es
end

end Expr

def Visit.header? (x : Visit) : Option (String × Signature) :=
  match x.node with
  | .define name params _ _ => some (name, .defined params)
  | _ => none

def headers (xs : List Visit) : List (String × Signature) := xs.filterMap Visit.header?

namespace Vocabulary

variable {v v' : Vocabulary}

/-- What is known after a node, if it is no call or one that is admitted. -/
def pass (v : Vocabulary) (x : Visit) : Option Vocabulary :=
  match x.node with
  | .define name params _ _ => some (v.define name params)
  | .call name args _ => if v.admits x.grouped name args.length then some v else none
  | _ => some v

def extend (v : Vocabulary) (words : List (String × Signature)) : Vocabulary :=
  { v with added := words.foldl (fun t e => t.insert e.1 e.2) v.added }

theorem pass_eq_some {x : Visit} (h : v.pass x = some v') : v' = v.extend x.header?.toList := by
  obtain ⟨e, grouped⟩ := x
  cases e with
  | call name args line =>
    obtain ⟨-, hv⟩ := Option.ite_none_right_eq_some.1 h
    cases hv
    rfl
  | _ =>
    cases h
    rfl

theorem foldlM_pass {xs : List Visit} (h : xs.foldlM pass v = some v') :
    v' = v.extend (headers xs) := by
  induction xs generalizing v with
  | nil =>
    cases h
    rfl
  | cons x xs ih =>
    rw [List.foldlM_cons, Option.bind_eq_bind, Option.bind_eq_some_iff] at h
    obtain ⟨v₁, hx, hxs⟩ := h
    rw [ih hxs, pass_eq_some hx]
    cases hh : x.header? <;> simp [headers, extend, hh]

/-- Every call among the nodes of a pass is admitted by what is known before it. -/
theorem admits_of_foldlM_pass {before after : List Visit} {grouped : Bool} {name : String}
    {args : List Expr} {line : Nat}
    (h : (before ++ ⟨.call name args line, grouped⟩ :: after).foldlM pass v = some v') :
    (v.extend (headers before)).admits grouped name args.length = true := by
  rw [List.foldlM_append, Option.bind_eq_bind, Option.bind_eq_some_iff] at h
  obtain ⟨v₁, hb, h⟩ := h
  rw [List.foldlM_cons, Option.bind_eq_bind, Option.bind_eq_some_iff] at h
  obtain ⟨v₂, hc, -⟩ := h
  rw [← foldlM_pass hb]
  exact (Option.ite_none_right_eq_some.1 hc).1

end Vocabulary

mutual
theorem Expr.walk_eq_foldlM (v : Vocabulary) (grouped : Bool) :
    ∀ e : Expr, e.walk v grouped = (e.visits grouped).foldlM Vocabulary.pass v
  | .list items line => by
    simp [walk, visits, Vocabulary.pass, walkList_eq_foldlM _ items]
  | .define name params body line => by
    simp [walk, visits, Vocabulary.pass, walkList_eq_foldlM _ body]
  | .call name args line => by
    simp only [walk, visits, Vocabulary.pass, walkList_eq_foldlM _ args, List.foldlM_cons]
    split <;> simp
  | .binary op left right line => by
    simp only [walk, visits, Vocabulary.pass, walk_eq_foldlM v false left, List.foldlM_cons,
      List.foldlM_append, Option.bind_eq_bind, Option.bind_some]
    exact congrArg _ (funext fun v => walk_eq_foldlM v false right)
  | .group inner line => by
    simp [walk, visits, Vocabulary.pass, walk_eq_foldlM _ true inner]
  | .nil => rfl
  | .number n line => rfl
  | .word text line => rfl
  | .var name line => rfl
theorem Expr.walkList_eq_foldlM (v : Vocabulary) :
    ∀ es : List Expr, Expr.walkList v es = (Expr.visitsList es).foldlM Vocabulary.pass v
  | [] => rfl
  | e :: es => by
    simp only [walkList, visitsList, walk_eq_foldlM v false e, List.foldlM_append,
      Option.bind_eq_bind]
    exact congrArg _ (funext fun v => walkList_eq_foldlM v es)
end

/-- A program has been read with the words of a table. Then each call in it is of a word that the
table or a header before the call has, the last such header counting, and has as many arguments as
this word takes, or it is a call of a variadic word and stands alone in parentheses. What the reader
has added to the table are the headers of the program, the last one of each name. -/
theorem Program.calls_have_arity_in_force (base : Table Signature) (ts : List Token)
    (p : Program.Reading) (h : Program.read { known := base } ts = .ok p) :
    (∀ before after name args line grouped,
      Expr.visitsList p.program = before ++ ⟨.call name args line, grouped⟩ :: after →
      ∃ s, (Vocabulary.mk base (.ofList (headers before))).get? name = some s ∧
        (s.arity = args.length ∨ grouped = true ∧ s.isVariadic = true)) ∧
    p.words = ⟨base, .ofList (headers (Expr.visitsList p.program))⟩ ∧
    ∀ name, p.words.added.get? name =
      (headers (Expr.visitsList p.program)).reverse.lookup name := by
  have hpass : (Expr.visitsList p.program).foldlM Vocabulary.pass { known := base } =
      some p.words := by
    rw [← Expr.walkList_eq_foldlM]
    exact Program.walk_read h
  have hwords : p.words = ⟨base, .ofList (headers (Expr.visitsList p.program))⟩ :=
    Vocabulary.foldlM_pass hpass
  refine ⟨fun before after name args line grouped hv => ?_, hwords, fun name => ?_⟩
  · rw [hv] at hpass
    exact Vocabulary.admits_iff.1 (Vocabulary.admits_of_foldlM_pass hpass)
  · rw [hwords, Table.get?_ofList]

def resumText : String := "print (sum 1 2 3)\nto sum :a\n print :a\nend\n(sum 4)"

def resumProgram : Program :=
  [.call "print" [.group (.call "sum" [.number 1 0, .number 2 0, .number 3 0] 0) 0] 0,
   .define "sum" ["a"] [.call "print" [.var "a" 2] 2] 1,
   .group (.call "sum" [.number 4 4] 4) 4]

theorem Program.calls_have_arity_in_force_resum :
    ∃ p, Program.read { known := Registry.core.signatures }
        (Token.tokenize .standard resumText) = .ok p ∧ p.program = resumProgram ∧
      (∃ s, (Vocabulary.mk Registry.core.signatures (.ofList [])).get? "sum" = some s ∧
        (s.arity = 3 ∨ s.isVariadic = true)) ∧
      (∃ s, (Vocabulary.mk Registry.core.signatures
          (.ofList [("sum", .defined ["a"])])).get? "sum" = some s ∧
        (s.arity = 1 ∨ s.isVariadic = true)) ∧
      p.words.added.get? "sum" = some (.defined ["a"]) := by
  have hp : Program.read { known := Registry.core.signatures }
      (Token.tokenize .standard resumText) =
        .ok ⟨resumProgram, Registry.core.signatures, ⟨[("sum", .defined ["a"])]⟩⟩ := by
    decide +kernel
  obtain ⟨hcalls, -, hadded⟩ := Program.calls_have_arity_in_force _ _ _ hp
  have hfirst := hcalls ((Expr.visitsList resumProgram).take 2)
    ((Expr.visitsList resumProgram).drop 3) "sum" [.number 1 0, .number 2 0, .number 3 0] 0 true rfl
  have hlast := hcalls ((Expr.visitsList resumProgram).take 10)
    ((Expr.visitsList resumProgram).drop 11) "sum" [.number 4 4] 4 true rfl
  simp only [true_and] at hfirst hlast
  exact ⟨_, hp, rfl, hfirst, hlast, hadded "sum"⟩

end LogoLang
