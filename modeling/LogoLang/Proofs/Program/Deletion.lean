import LogoLang.Proofs.Machine.Definitions
import LogoLang.Proofs.Program.Editing
import LogoLang.Proofs.Program.Rereading
import LogoLang.Proofs.Program.RoundTrip

/-!
Taking an item out of a list or a body. The words stay what they are if the item defines none, so
all that can go wrong is a body that starts with a reference afterwards. Main statement: the program
that is left can be written and read again just if that does not happen.
-/

set_option autoImplicit false

namespace LogoLang

open Token

namespace Expr

def exposesReference (i : Nat) : Expr → Bool
  | .define _ _ body _ => i == 0 && body[1]?.any fun next => next.opening = .reference
  | _ => false

/-- The second tree lacks one item of a list or a body in the first. The item defines nothing;
`exposed` tells if a body starts with a reference without it. -/
inductive Prunes (exposed : Bool) : Expr → Expr → Prop where
  | item {before after : List Expr} {item : Expr} {line : Nat} (hf : item.All NoDefinition)
    (hx : exposed = false) :
    Prunes exposed (.list (before ++ item :: after) line) (.list (before ++ after) line)
  | bodyItem {name : String} {params : List String} {before after : List Expr} {item : Expr}
    {line : Nat} (hf : item.All NoDefinition)
    (hx : exposed = (before.isEmpty && !closesHeader after)) :
    Prunes exposed (.define name params (before ++ item :: after) line)
      (.define name params (before ++ after) line)
  | list {before after : List Expr} {c c' : Expr} {line : Nat} (h : Prunes exposed c c') :
    Prunes exposed (.list (before ++ c :: after) line) (.list (before ++ c' :: after) line)
  | define {name : String} {params : List String} {before after : List Expr} {c c' : Expr}
    {line : Nat} (h : Prunes exposed c c') :
    Prunes exposed (.define name params (before ++ c :: after) line)
      (.define name params (before ++ c' :: after) line)
  | call {name : String} {before after : List Expr} {c c' : Expr} {line : Nat}
    (h : Prunes exposed c c') :
    Prunes exposed (.call name (before ++ c :: after) line)
      (.call name (before ++ c' :: after) line)
  | left {op : Operator} {c c' right : Expr} {line : Nat} (h : Prunes exposed c c') :
    Prunes exposed (.binary op c right line) (.binary op c' right line)
  | right {op : Operator} {left c c' : Expr} {line : Nat} (h : Prunes exposed c c') :
    Prunes exposed (.binary op left c line) (.binary op left c' line)
  | group {c c' : Expr} {line : Nat} (h : Prunes exposed c c') :
    Prunes exposed (.group c line) (.group c' line)

theorem bareList_append {as bs : List Expr} :
    BareList (as ++ bs) ↔ BareList as ∧ BareList bs := by
  induction as with
  | nil => simp [BareList]
  | cons a as ih => simp [BareList, ih, and_assoc]

theorem legibleList_without {v v' : Vocabulary} {before after : List Expr} {item : Expr}
    (hf : item.All NoDefinition) (h : legibleList v (before ++ item :: after) = some v') :
    legibleList v (before ++ after) = some v' := by
  simp only [legibleList_append, legibleList, Option.bind_eq_some_iff] at h ⊢
  obtain ⟨v₁, hb, v₂, hi, ha⟩ := h
  cases legible_eq_of_noDefinition hf hi
  exact ⟨v₁, hb, ha⟩

namespace Prunes

variable {exposed : Bool} {e e' : Expr}

theorem priority?_eq (h : Prunes exposed e e') : e'.priority? = e.priority? := by
  cases h <;> rfl

theorem isOperation_eq (h : Prunes exposed e e') : e'.isOperation = e.isOperation := by
  cases h <;> rfl

theorem opening_eq (h : Prunes exposed e e') : e'.opening = e.opening := by
  induction h with
  | left h ih => exact ih
  | _ => rfl

theorem looseLeft_eq (h : Prunes exposed e e') (op : Operator) :
    looseLeft op e' = looseLeft op e := by
  simp only [looseLeft, h.priority?_eq]

theorem looseRight_eq (h : Prunes exposed e e') (op : Operator) :
    looseRight op e' = looseRight op e := by
  simp only [looseRight, h.priority?_eq]

theorem closesHeader_eq (h : Prunes exposed e e') (before after : List Expr) :
    closesHeader (before ++ e' :: after) = closesHeader (before ++ e :: after) := by
  cases before <;> simp [closesHeader, h.opening_eq]

theorem bare (h : Prunes exposed e e') {last : Bool} (hb : Bare last e) : Bare last e' := by
  induction h generalizing last with
  | item hf hx | bodyItem hf hx =>
    simp only [Bare, bareList_append, BareList] at hb ⊢
    exact ⟨hb.1, hb.2.2⟩
  | list h ih | define h ih =>
    simp only [Bare, bareList_append, BareList] at hb ⊢
    exact ⟨hb.1, ih hb.2.1, hb.2.2⟩
  | call h ih =>
    simp only [Bare, bareList_append, BareList] at hb ⊢
    exact ⟨by simpa using hb.1, hb.2.1, ih hb.2.2.1, hb.2.2.2⟩
  | left h ih =>
    simp only [Bare] at hb ⊢
    exact ⟨(h.looseLeft_eq _).trans hb.1, hb.2.1, ih hb.2.2.1, hb.2.2.2⟩
  | right h ih =>
    simp only [Bare] at hb ⊢
    exact ⟨hb.1, (h.looseRight_eq _).trans hb.2.1, hb.2.2.1, ih hb.2.2.2⟩
  | group h ih => exact ih hb

theorem lexemes_subset (h : Prunes exposed e e') (kw : Keywords) :
    ∀ l ∈ e'.lexemes kw, l ∈ e.lexemes kw := by
  induction h with
  | item hf hx | bodyItem hf hx =>
    intro l
    simp only [lexemes, lexemesList_append, lexemesList, List.mem_cons, List.mem_append]
    tauto
  | left h ih | right h ih | group h ih =>
    intro l
    have hl := ih l
    simp only [lexemes, List.mem_cons, List.mem_append]
    tauto
  | list h ih | define h ih | call h ih =>
    intro l
    have hl := ih l
    simp only [lexemes, lexemesList_append, lexemesList, List.mem_cons, List.mem_append]
    tauto

theorem bare_at (h : Prunes exposed e e') {before after : List Expr}
    (hb : ∀ d ∈ before ++ e :: after, Bare true d) : ∀ d ∈ before ++ e' :: after, Bare true d := by
  simp only [List.forall_mem_append, List.forall_mem_cons] at hb ⊢
  exact ⟨hb.1, h.bare hb.2.1, hb.2.2⟩

theorem stable_at (h : Prunes exposed e e') {before after : List Expr} {kw : Keywords}
    (hs : ∀ l ∈ lexemesList kw (before ++ e :: after), l.Stable kw) :
    ∀ l ∈ lexemesList kw (before ++ e' :: after), l.Stable kw := by
  simp only [lexemesList_append, lexemesList, List.forall_mem_append] at hs ⊢
  exact ⟨hs.1, fun l hl => hs.2.1 l (h.lexemes_subset kw l hl), hs.2.2⟩

theorem legibleList_at {v v' : Vocabulary} {before after : List Expr}
    (he : ∀ {v v'}, e.legible v false = some v' →
      e'.legible v false = if exposed then none else some v')
    (h : legibleList v (before ++ e :: after) = some v') :
    legibleList v (before ++ e' :: after) = if exposed then none else some v' := by
  simp only [legibleList_append, legibleList, Option.bind_eq_some_iff] at h ⊢
  obtain ⟨v₁, hb, v₂, hi, ha⟩ := h
  rw [hb, Option.bind_some, he hi]
  cases exposed with
  | true => rfl
  | false => exact ha

/-- What was legible still is, unless a reference has come to the start of a body. -/
theorem legible_eq (h : Prunes exposed e e') {v v' : Vocabulary} {grouped : Bool}
    (hl : e.legible v grouped = some v') :
    e'.legible v grouped = if exposed then none else some v' := by
  induction h generalizing v v' grouped with
  | item hf hx =>
    subst hx
    exact legibleList_without hf hl
  | @bodyItem name params before after item line hf hx =>
    simp only [legible, Option.ite_none_right_eq_some, Bool.and_eq_true] at hl ⊢
    obtain ⟨⟨hu, hc⟩, hl⟩ := hl
    have hn : closesHeader (before ++ after) = !exposed := by
      cases before with
      | nil => simp [hx]
      | cons b bs => simpa [hx, closesHeader] using hc
    rw [hu, hn, legibleList_without hf hl]
    cases exposed <;> rfl
  | list h ih => exact legibleList_at ih hl
  | define h ih =>
    simp only [legible, Option.ite_none_right_eq_some] at hl ⊢
    rw [h.closesHeader_eq, if_pos hl.1, legibleList_at ih hl.2]
  | call h ih =>
    simp only [legible, Option.ite_none_right_eq_some] at hl ⊢
    rw [legibleList_at ih hl.2, if_pos (by simpa using hl.1)]
  | left h ih =>
    simp only [legible, Option.bind_eq_some_iff] at hl ⊢
    obtain ⟨v₁, hl, hr⟩ := hl
    rw [ih hl]
    cases exposed with
    | true => rfl
    | false => exact hr
  | right h ih =>
    simp only [legible, Option.bind_eq_some_iff] at hl ⊢
    obtain ⟨v₁, hl, hr⟩ := hl
    rw [hl, Option.bind_some, ih hr]
  | group h ih =>
    simp only [legible, Option.ite_none_left_eq_some] at hl ⊢
    rw [h.isOperation_eq, h.opening_eq, if_neg hl.1, ih hl.2]

theorem split_of_getElem? {es : List Expr} {i : Nat} (h : es[i]? = some e) :
    ∃ before after, es = before ++ e :: after ∧ before.length = i := by
  obtain ⟨hi, rfl⟩ := List.getElem?_eq_some_iff.1 h
  exact ⟨es.take i, es.drop (i + 1), by simp, by simp; omega⟩

theorem withChildren {parent : Expr} {before after : List Expr}
    (hc : parent.children = before ++ e :: after) (h : Prunes exposed e e') :
    Prunes exposed parent (parent.withChildren (before ++ e' :: after)) := by
  cases parent with
  | list items line =>
    simp only [children] at hc
    exact hc ▸ .list h
  | define name params body line =>
    simp only [children] at hc
    exact hc ▸ .define h
  | call name args line =>
    simp only [children] at hc
    exact hc ▸ .call h
  | binary op left right line =>
    rcases before with _ | ⟨b, _ | ⟨b', bs⟩⟩ <;> simp only [children, List.nil_append,
      List.cons_append, List.cons.injEq] at hc
    · obtain ⟨rfl, rfl⟩ := hc
      exact .left h
    · obtain ⟨rfl, rfl, rfl⟩ := hc
      exact .right h
    · simp at hc
  | group inner line =>
    rcases before with _ | ⟨b, bs⟩ <;> simp [children] at hc
    obtain ⟨rfl, rfl⟩ := hc
    exact .group h
  | _ => simp [children] at hc

theorem eraseIdx {parent item : Expr} {i : Nat} (hs : parent.isSequence = true)
    (hi : parent.children[i]? = some item) (hf : item.All NoDefinition) :
    Prunes (parent.exposesReference i) parent
      (parent.withChildren (parent.children.eraseIdx i)) := by
  obtain ⟨before, after, hc, rfl⟩ := split_of_getElem? hi
  have he : parent.children.eraseIdx before.length = before ++ after := by
    rw [hc, List.eraseIdx_append_of_length_le (Nat.le_refl _)]
    simp
  rw [he]
  cases parent with
  | list items line =>
    simp only [children] at hc
    exact hc ▸ .item hf rfl
  | define name params body line =>
    simp only [children] at hc
    subst hc
    refine .bodyItem hf ?_
    cases before <;> simp [exposesReference, closesHeader, List.head?_eq_getElem?]
  | _ => cases hs

end Prunes

end Expr

namespace Program

open LogoLang.Expr (Prunes)

theorem deleteFrom?_item {path : Path} {i : Nat} {parent item : Expr} {es : List Expr}
    (fixed : Bool) (hg : get? es path = some parent) (hs : parent.isSequence = true)
    (hi : parent.children[i]? = some item) (hf : item.All Expr.NoDefinition) :
    ∃ before e e' after, es = before ++ e :: after ∧
      deleteFrom? fixed es (path ++ [i]) = some (item, before ++ e' :: after) ∧
      Prunes (parent.exposesReference i) e e' := by
  induction path generalizing es fixed with
  | nil => cases hg
  | cons j path ih =>
    cases path with
    | nil =>
      obtain ⟨before, after, rfl, rfl⟩ := Prunes.split_of_getElem? hg
      refine ⟨before, parent, _, after, rfl, ?_, .eraseIdx hs hi hf⟩
      simp [deleteFrom?, hs, hi]
    | cons k path =>
      obtain ⟨e, he, hk⟩ := Option.bind_eq_some_iff.1 hg
      obtain ⟨before, after, rfl, rfl⟩ := Prunes.split_of_getElem? he
      obtain ⟨bs, c, c', as, hc, hd, hp⟩ := ih (!e.isSequence) hk
      refine ⟨before, e, _, after, rfl, ?_, hp.withChildren hc⟩
      rw [List.cons_append, List.cons_append, deleteFrom?_cons_cons, he]
      rw [List.cons_append] at hd
      simp [hd]

theorem stable_lexemes {words : Vocabulary} {source : String} {p : Program.Reading}
    (h : Program.read words (tokenize .standard source) = .ok p) :
    ∀ l ∈ Expr.lexemesList .standard p.program, l.Stable .standard := by
  have ho : Lexeme.Stable .standard (.opening, Keywords.standard.openingWord) :=
    stable_of_tokenize (by decide +kernel)
  have hc : Lexeme.Stable .standard (.closing, Keywords.standard.closingWord) :=
    stable_of_tokenize (by decide +kernel)
  rw [Reader.read_lexemes .standard h]
  exact Reader.stable_echoes (fun t ht => shape_of_mem_lex ht) ho hc { words := words }

/-- A program that was read from a source loses an item of a list or a body that defines nothing.
What is left can be written and read again with the same words, up to lines, just if no body starts
with a reference for it. -/
theorem reads_after_delete_iff (words : Vocabulary) (source : String) (p : Program.Reading)
    (path : Path) (parent : Expr) (i : Nat) (item : Expr)
    (h : Program.read words (tokenize .standard source) = .ok p)
    (hparent : Program.get? p.program path = some parent)
    (hsequence : parent.isSequence = true) (hitem : parent.child? i = some item)
    (hfree : item.All Expr.NoDefinition) :
    ∃ left, p.program.delete? (path ++ [i]) = some (item, left) ∧
      ((∃ p', Program.read words (tokenize .standard (left.text .standard)) = .ok p' ∧
        Expr.alikeList left p'.program = true) ↔ parent.exposesReference i = false) := by
  obtain ⟨before, e, e', after, hp, hd, hprune⟩ :=
    deleteFrom?_item false hparent hsequence hitem hfree
  refine ⟨_, hd, ?_⟩
  have hbare := Reader.read_bare h fun t ht => Reader.unsigned_of_shape (shape_of_mem_lex ht)
  have hstable := stable_lexemes h
  have hlegible := legible_read h
  rw [hp] at hbare hstable hlegible
  rw [read_text_iff_legible .standard (hprune.bare_at hbare) (hprune.stable_at hstable),
    Prunes.legibleList_at hprune.legible_eq hlegible]
  cases parent.exposesReference i <;> simp

def dotsSource : String :=
  "to dots :n\n print 1 * 2 - dots 3\n repeat 2 [print :n :n * 2]\nend"

def dotsProgram : Program :=
  [.define "dots" ["n"]
    [.call "print"
      [.binary .subtract (.binary .multiply (.number 1 1) (.number 2 1) 1)
        (.call "dots" [.number 3 1] 1) 1] 1,
     .call "repeat"
      [.number 2 2,
       .list [.call "print" [.var "n" 2] 2, .binary .multiply (.var "n" 2) (.number 2 2) 2] 2] 2] 0]

theorem reads_after_delete_iff_dots :
    ∃ p parent item, Program.read ⟨Registry.core.signatures, .empty⟩
        (tokenize .standard dotsSource) = .ok p ∧
      Program.get? p.program [0, 1, 1] = some parent ∧ parent.isSequence = true ∧
      parent.child? 0 = some item ∧ item.All Expr.NoDefinition ∧
      ∃ left, p.program.delete? [0, 1, 1, 0] = some (item, left) ∧
        ∃ p', Program.read ⟨Registry.core.signatures, .empty⟩
            (tokenize .standard (left.text .standard)) = .ok p' ∧
          Expr.alikeList left p'.program = true := by
  have hp : Program.read ⟨Registry.core.signatures, .empty⟩ (tokenize .standard dotsSource) =
      .ok ⟨dotsProgram, Registry.core.signatures, ⟨[("dots", .defined ["n"])]⟩⟩ := by
    decide +kernel
  have hf : Expr.All Expr.NoDefinition (.call "print" [.var "n" 2] 2) := by
    simp [Expr.children, Expr.NoDefinition, Expr.all_iff (e := .call _ _ _),
      Expr.all_iff (e := .var _ _)]
  obtain ⟨left, hd, hr⟩ :=
    reads_after_delete_iff _ dotsSource _ [0, 1, 1] _ 0 _ hp rfl rfl rfl hf
  exact ⟨_, _, _, hp, rfl, rfl, rfl, hf, left, hd, hr.2 rfl⟩

def halveSource : String := "to halve :n\n print 1\n :m\nend"

/-- The body loses its first item, and the reference after it becomes a parameter. -/
theorem reads_otherwise_after_delete :
    ∃ p item left, Program.read ⟨Registry.core.signatures, .empty⟩
        (tokenize .standard halveSource) = .ok p ∧
      Program.get? p.program [0, 0] = some item ∧ item.All Expr.NoDefinition ∧
      p.program.delete? [0, 0] = some (item, left) ∧
      ¬ ∃ p', Program.read ⟨Registry.core.signatures, .empty⟩
          (tokenize .standard (left.text .standard)) = .ok p' ∧
        Expr.alikeList left p'.program = true := by
  have hf : Expr.All Expr.NoDefinition (.call "print" [.number 1 1] 1) := by
    simp [Expr.children, Expr.NoDefinition, Expr.all_iff (e := .call _ _ _),
      Expr.all_iff (e := .number _ _)]
  have hp : Program.read ⟨Registry.core.signatures, .empty⟩ (tokenize .standard halveSource) =
      .ok ⟨[.define "halve" ["n"] [.call "print" [.number 1 1] 1, .var "m" 2] 0],
        Registry.core.signatures, ⟨[("halve", .defined ["n"])]⟩⟩ := by
    decide +kernel
  refine ⟨_, .call "print" [.number 1 1] 1, [.define "halve" ["n"] [.var "m" 2] 0], hp, rfl, hf,
    rfl, ?_⟩
  rintro ⟨p', hr, ha⟩
  have hw : Program.read ⟨Registry.core.signatures, .empty⟩
      (tokenize .standard (Program.text .standard [.define "halve" ["n"] [.var "m" 2] 0])) =
        .ok ⟨[.define "halve" ["n", "m"] [] 0], Registry.core.signatures,
          ⟨[("halve", .defined ["n", "m"])]⟩⟩ := by
    decide +kernel
  rw [hw] at hr
  cases hr
  cases ha

end Program

end LogoLang
