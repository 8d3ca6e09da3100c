import LogoLang.Proofs.Expr.Explicit
import LogoLang.Proofs.Machine.Application
import LogoLang.Proofs.Program.Rereading
import LogoLang.Proofs.Program.RoundTrip

/-!
Writing trees that were never read. An operand may be of any kind, a number may be negative and
parentheses may be missing. Main statement: a tree whose names can be written and whose calls are
admitted is read from its text as it was meant, up to lines, groups and negative numbers.
-/

set_option autoImplicit false

namespace LogoLang

open Token

namespace Expr

theorem eq_singleton_of_alikeList {e : Expr} {es : List Expr} (h : alikeList [e] es = true) :
    ∃ e', es = [e'] ∧ alike e e' = true := by
  cases es with
  | nil => cases h
  | cons e' es =>
    cases es with
    | nil => exact ⟨e', rfl, by simpa [alikeList, alike, agreeList] using h⟩
    | cons d ds => simp [alikeList, agreeList] at h

mutual
/-- The tree has no holes and no definitions, its names are tokens, and its calls are admitted. -/
def Writable (kw : Keywords) (v : Vocabulary) (grouped : Bool) : Expr → Prop
  | .nil => False
  | .number _ _ => True
  | .word text _ => ∀ c ∈ text.toList, isDelimiter c = false
  | .var name _ => ∀ c ∈ name.toList, isDelimiter c = false ∧ Operator.isSign c = false
  | .list items _ => WritableList kw v items
  | .define _ _ _ _ => False
  | .call name args _ =>
    (tokenize kw name).map lexeme = [(.word, name)] ∧ v.admits grouped name args.length = true ∧
      WritableList kw v args
  | .binary _ left right _ => Writable kw v false left ∧ Writable kw v false right
  | .group inner _ => Writable kw v true inner
def WritableList (kw : Keywords) (v : Vocabulary) : List Expr → Prop
  | [] => True
  | e :: es => Writable kw v false e ∧ WritableList kw v es
end

theorem stable_char (kw : Keywords) {c : Char} {k : Kind} (h : Kind.ofChar? c = some k) :
    Lexeme.Stable kw (k, String.singleton c) :=
  Lexeme.Shape.stable (.char h)

theorem stable_symbol (kw : Keywords) (op : Operator) : Lexeme.Stable kw (.operator, op.symbol) :=
  stable_char kw (by cases op <;> decide)

theorem stable_intText (kw : Keywords) {n : Int64} (h : 0 ≤ n.toInt) :
    Lexeme.Stable kw (.number, Text.intText n.toInt) := by
  have ht : Text.intText n.toInt = Text.natText n.toInt.natAbs := by
    have hn : ¬ n.toInt < 0 := by omega
    simp [Text.intText, hn]
  have hs : isNumeral (Text.natText n.toInt.natAbs).toList = true := by
    refine isNumeral_iff.mpr ⟨fun d => Text.isDigit_of_mem_natText, ?_⟩
    have hn : (n.toInt.natAbs : Int) = n.toInt := by omega
    rw [Text.digitsValue_natText, hn, Text.fit?_toInt]
    rfl
  simpa [ht] using stable_number kw (Text.toList_natText_ne_nil _) hs

def Stable (kw : Keywords) (e : Expr) : Prop := ∀ l ∈ e.lexemes kw, l.Stable kw

variable {kw : Keywords}

theorem stable_number_iff {n : Int64} {line : Nat} :
    Stable kw (.number n line) ↔ Lexeme.Stable kw (.number, Text.intText n.toInt) := by
  simp [Stable, lexemes]

theorem Stable.binary {op : Operator} {left right : Expr} {line : Nat} (hl : left.Stable kw)
    (hr : right.Stable kw) : Stable kw (.binary op left right line) := by
  simp only [Stable, lexemes, List.forall_mem_append, List.forall_mem_cons]
  exact ⟨hl, stable_symbol kw op, hr⟩

theorem Stable.group {inner : Expr} {line : Nat} (h : inner.Stable kw) :
    Stable kw (.group inner line) := by
  simp only [Stable, lexemes, List.forall_mem_append, List.forall_mem_cons]
  exact ⟨stable_char kw (c := '(') (by decide), h, stable_char kw (c := ')') (by decide), by simp⟩

theorem stable_difference (kw : Keywords) {n : Int64} (line : Nat) (h : ¬ 0 ≤ n.toInt) :
    (difference n line).Stable kw := by
  have hnum : ∀ {m : Int64}, 0 ≤ m.toInt → Stable kw (.number m line) :=
    fun hm => stable_number_iff.2 (stable_intText kw hm)
  by_cases hn : n = Int64.minValue
  · simp only [difference, hn, if_true]
    exact ((hnum (by decide)).binary (hnum (by decide))).binary (hnum (by decide))
  · simp only [difference, hn, if_false]
    exact (hnum (by decide)).binary (hnum (toInt_neg_nonneg h hn))

variable {v : Vocabulary}

mutual
theorem stable_explicit : ∀ (last : Bool) {grouped : Bool} (e : Expr), e.Writable kw v grouped →
    (e.explicit last).Stable kw
  | _, _, .nil, h => h.elim
  | _, _, .define _ _ _ _, h => h.elim
  | last, _, .number n line, _ => by
    simp only [explicit]
    split
    · exact stable_number_iff.2 (stable_intText kw ‹_›)
    · exact (stable_difference kw line ‹_›).group
  | _, _, .word text _, h => by
    have ht : "\"" ++ text = String.ofList ('"' :: text.toList) := by
      apply String.toList_injective
      simp
    have hs : Lexeme.Stable kw (.quoted, "\"" ++ text) := ht ▸ stable_quoted kw h
    simpa [Stable, explicit, lexemes] using hs
  | _, _, .var name _, h => by
    have hn : ":" ++ name = String.ofList (':' :: name.toList) := by
      apply String.toList_injective
      simp
    have hc : ∀ c ∈ name.toList, endsRun false c = false := by
      intro c hm
      have hd := h c hm
      simp [endsRun, hd.1, hd.2]
    have hs : Lexeme.Stable kw (.reference, ":" ++ name) := hn ▸ stable_reference kw hc
    simpa [Stable, explicit, lexemes] using hs
  | _, _, .list items _, h => by
    simp only [Stable, explicit, lexemes, List.forall_mem_append, List.forall_mem_cons]
    exact ⟨stable_char kw (c := '[') (by decide), stable_explicitList items h,
      stable_char kw (c := ']') (by decide), by simp⟩
  | last, _, .call name args line, h => by
    have hc : Stable kw (.call name (explicitList args) line) := by
      simp only [Stable, lexemes, List.forall_mem_cons]
      exact ⟨Program.stable_of_tokenize h.1, stable_explicitList args h.2.2⟩
    simp only [explicit]
    split
    · exact hc
    · exact hc.group
  | last, _, .binary op left right line, h => by
    simp only [explicit]
    apply Stable.binary
    · split
      · exact (stable_explicit true left h.1).group
      · exact stable_explicit false left h.1
    · split
      · exact (stable_explicit true right h.2).group
      · exact stable_explicit last right h.2
  | _, _, .group inner _, h => (stable_explicit true inner h).group
theorem stable_explicitList : ∀ es : List Expr, WritableList kw v es →
    ∀ l ∈ lexemesList kw (explicitList es), l.Stable kw
  | [], _ => by simp [explicitList, lexemesList]
  | e :: es, h => by
    simp only [explicitList, lexemesList, List.forall_mem_append]
    exact ⟨stable_explicit true e h.1, stable_explicitList es h.2⟩
end

/-- A word without arguments is not variadic, and one with arguments does not start the left operand
of an operator. -/
theorem spreads_explicit (hv : ∀ name s, v.get? name = some s → s.isVariadic = true → 1 ≤ s.arity) :
    ∀ {e : Expr}, e.Writable kw v false → v.spreads (e.explicit false).opening = false
  | .nil, h => h.elim
  | .define _ _ _ _, h => h.elim
  | .number n line, _ => by
    simp only [explicit]
    split <;> rfl
  | .word _ _, _ | .var _ _, _ | .list _ _, _ | .group _ _, _ => rfl
  | .call name [] line, h => by
    obtain ⟨s, hs, ha⟩ := Vocabulary.admits_false_iff.1 h.2.1
    have hn : s.isVariadic = false := by
      cases hva : s.isVariadic with
      | false => rfl
      | true =>
        have := hv name s hs hva
        simp only [List.length_nil] at ha
        omega
    simp [explicit, opening, Vocabulary.spreads, hs, hn]
  | .call name (a :: as) line, _ => rfl
  | .binary op left right line, h => by
    simp only [explicit, opening]
    split
    · rfl
    · exact spreads_explicit hv h.1

theorem spreads_of_isOperation
    (hv : ∀ name s, v.get? name = some s → s.isVariadic = true → 1 ≤ s.arity) {e : Expr}
    {last grouped : Bool} (h : e.Writable kw v grouped)
    (ho : (e.explicit last).isOperation = true) : v.spreads (e.explicit last).opening = false := by
  cases e with
  | number n line =>
    simp only [explicit] at ho
    split at ho <;> cases ho
  | call name args line =>
    simp only [explicit] at ho
    split at ho <;> cases ho
  | binary op left right line => exact spreads_explicit hv (e := .binary op left right line) h
  | _ => cases ho

theorem legible_group {e : Expr} {line : Nat} {grouped : Bool}
    (hs : e.isOperation = true → v.spreads e.opening = false) :
    (Expr.group e line).legible v grouped = e.legible v true := by
  simp only [legible]
  split
  · rename_i h
    simp only [Bool.and_eq_true] at h
    rw [hs h.1] at h
    cases h.2
  · rfl

theorem legible_difference (v : Vocabulary) (grouped : Bool) (n : Int64) (line : Nat) :
    (Expr.group (difference n line) line).legible v grouped = some v := by
  unfold difference
  split <;> rfl

mutual
theorem legible_explicit
    (hv : ∀ name s, v.get? name = some s → s.isVariadic = true → 1 ≤ s.arity) :
    ∀ {last grouped : Bool} (e : Expr), e.Writable kw v grouped → (grouped = true → last = true) →
    (e.explicit last).legible v grouped = some v
  | _, _, .nil, h, _ => h.elim
  | _, _, .define _ _ _ _, h, _ => h.elim
  | _, _, .number n line, _, _ => by
    simp only [explicit]
    split
    · rfl
    · exact legible_difference v _ n line
  | _, _, .word _ _, _, _ | _, _, .var _ _, _, _ => rfl
  | _, _, .list items _, h, _ => legibleList_explicit hv items h
  | last, grouped, .call name args line, h, hg => by
    have ha := legibleList_explicit hv args h.2.2
    have hn : (explicitList args).length = args.length := by simp [explicitList_eq_map]
    simp only [explicit]
    split
    · simp only [legible, hn, h.2.1, if_true, ha]
    · rename_i hl
      have hf : grouped = false := by
        cases grouped with
        | false => rfl
        | true => simp [hg rfl] at hl
      subst hf
      rw [legible_group (by simp [isOperation])]
      apply legible_grouped
      simp only [legible, hn, h.2.1, if_true, ha]
  | last, grouped, .binary op left right line, h, _ => by
    have hgroup : ∀ e : Expr, e.Writable kw v false → (e.explicit true).legible v false = some v →
        (Expr.group (e.explicit true) line).legible v false = some v := fun e he hl =>
      (legible_group (spreads_of_isOperation hv he)).trans (legible_grouped hl)
    simp only [explicit, legible]
    have hl : Expr.legible v false (if left.looseLeft op then .group (explicit true left) line
        else explicit false left) = some v := by
      split
      · exact hgroup left h.1 (legible_explicit hv left h.1 (by simp))
      · exact legible_explicit hv left h.1 (by simp)
    have hr : Expr.legible v false (if right.looseRight op then .group (explicit true right) line
        else explicit last right) = some v := by
      split
      · exact hgroup right h.2 (legible_explicit hv right h.2 (by simp))
      · exact legible_explicit hv right h.2 (by simp)
    rw [hl, Option.bind_some, hr]
  | _, _, .group inner _, h, _ => by
    have hi : inner.Writable kw v true := h
    rw [explicit, legible_group (spreads_of_isOperation hv hi)]
    exact legible_explicit hv inner hi fun _ => rfl
theorem legibleList_explicit
    (hv : ∀ name s, v.get? name = some s → s.isVariadic = true → 1 ≤ s.arity) :
    ∀ es : List Expr, WritableList kw v es → legibleList v (explicitList es) = some v
  | [], _ => rfl
  | e :: es, h => by
    simp only [explicitList, legibleList, legible_explicit hv e h.1 (by simp), Option.bind_some,
      legibleList_explicit hv es h.2]
end

end Expr

/-- The text of a tree with writable names and admitted calls is one expression, and differs from
the tree in lines, groups and the way negative numbers are written only. -/
theorem Program.read_text_plain (kw : Keywords) (v : Vocabulary) (e : Expr)
    (hvariadic : ∀ name s, v.get? name = some s → s.isVariadic = true → 1 ≤ s.arity)
    (he : e.Writable kw v false) :
    ∃ e', Program.read v (tokenize kw (e.text kw)) = .ok ⟨[e'], v⟩ ∧
      Expr.alike e.plain e'.plain = true := by
  have hb := Expr.bare_explicit true e
  have hs := Expr.spells_render kw true _ hb (Expr.stable_explicit true e he)
  rw [Expr.render_explicit] at hs
  have hl : Expr.legibleList v [e.explicit true] = some v := by
    simp [Expr.legibleList, Expr.legible_explicit hvariadic e he]
  have ht : (tokenize kw (e.text kw)).map lexeme = Expr.lexemesList kw [e.explicit true] := by
    rw [Expr.lexemesList, Expr.lexemesList, List.append_nil]
    exact hs.lexemes_eq
  obtain ⟨p, hr, ha, rfl⟩ := Program.read_of_lexemes kw (by simpa using hb) hl ht
  obtain ⟨e', hp, ha⟩ := Expr.eq_singleton_of_alikeList ha
  refine ⟨e', by rw [hr, ← hp], ?_⟩
  rw [← Expr.plain_explicit true e]
  exact Expr.alike_plain ha

theorem Registry.core_variadic (name : String) (s : Signature)
    (h : Vocabulary.get? ⟨Registry.core.signatures, .empty⟩ name = some s)
    (hv : s.isVariadic = true) : 1 ≤ s.arity := by
  simp only [Vocabulary.get?, Registry.signatures, Table.get?_empty, Option.none_or,
    Table.get?_map, Option.map_eq_some_iff] at h
  obtain ⟨word, hw, rfl⟩ := h
  obtain ⟨k, rfl, -⟩ := Registry.get?_core hw
  revert hv
  cases k <;> decide

/-- The operands of a product are differences and quotients, and calls stand before operators. -/
def tallyTree : Expr :=
  .binary .multiply
    (.binary .subtract (.number (-3) 0)
      (.call "sum" [.call "print" [.list [.var "xs" 0, .word "a-b" 0] 0] 0, .number 2 0] 0) 0)
    (.binary .divide (.group (.call "sum" [.call "sum" [.number 1 0, .number 2 0] 0] 0) 0)
      (.binary .multiply (.number Int64.minValue 0) (.call "print" [.number 7 0] 0) 0) 0) 0

theorem Program.read_text_plain_tally :
    tallyTree.Writable .standard ⟨Registry.core.signatures, .empty⟩ false ∧
      ∃ e', Program.read ⟨Registry.core.signatures, .empty⟩
          (tokenize .standard (tallyTree.text .standard)) =
          .ok ⟨[e'], ⟨Registry.core.signatures, .empty⟩⟩ ∧
        Expr.alike tallyTree.plain e'.plain = true := by
  have hsum : (tokenize .standard "sum").map lexeme = [(.word, "sum")] := by decide +kernel
  have hprint : (tokenize .standard "print").map lexeme = [(.word, "print")] := by decide +kernel
  have hw : tallyTree.Writable .standard ⟨Registry.core.signatures, .empty⟩ false := by
    simp only [tallyTree, Expr.Writable, Expr.WritableList, hsum, hprint, true_and, and_true,
      List.length_cons, List.length_nil]
    refine ⟨⟨by decide, by decide, ?_, ?_⟩, ⟨by decide, by decide⟩, by decide⟩
    · simp [isDelimiter, isBlank, Operator.isSign, Operator.all, Operator.sign]
    · simp [isDelimiter, isBlank]
  exact ⟨hw, Program.read_text_plain _ _ _ Registry.core_variadic hw⟩

end LogoLang
