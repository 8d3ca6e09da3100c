import LogoLang.Proofs.Expr.Lines
import LogoLang.Proofs.Expr.Parts
import LogoLang.Proofs.Token.Lexeme

/-!
An expression as the lexemes it is written with, from left to right: its parts as they are spelled.
Main statement: where no parentheses have to be added the printed text spells just them.
-/

set_option autoImplicit false

namespace LogoLang

open Token

/-- How a part is spelled. Nothing is written for a hole. -/
def Part.lexeme? (kw : Keywords) : Part → Option Lexeme
  | .hole => none
  | .openBracket _ => some (.openBracket, "[")
  | .closeBracket => some (.closeBracket, "]")
  | .openParen _ => some (.openParen, "(")
  | .closeParen => some (.closeParen, ")")
  | .opening _ => some (.opening, kw.openingWord)
  | .name f => some (.word, f)
  | .param p => some (.reference, ":" ++ p)
  | .closing => some (.closing, kw.closingWord)
  | .number n _ => some (.number, Text.intText n.toInt)
  | .quoted text _ => some (.quoted, "\"" ++ text)
  | .reference v _ => some (.reference, ":" ++ v)
  | .word f _ => some (.word, f)
  | .operator op _ => some (.operator, op.symbol)

namespace Expr

mutual
def lexemes (kw : Keywords) : Expr → List Lexeme
  | .nil => []
  | .number n _ => [(.number, Text.intText n.toInt)]
  | .word text _ => [(.quoted, "\"" ++ text)]
  | .var name _ => [(.reference, ":" ++ name)]
  | .list items _ =>
    (.openBracket, "[") :: (lexemesList kw items ++ [(.closeBracket, "]")])
  | .define name params body _ =>
    (.opening, kw.openingWord) :: (.word, name) ::
      (params.map (fun p => (Kind.reference, ":" ++ p)) ++
        (lexemesList kw body ++ [(.closing, kw.closingWord)]))
  | .call name args _ => (.word, name) :: lexemesList kw args
  | .binary op left right _ => lexemes kw left ++ (.operator, op.symbol) :: lexemes kw right
  | .group inner _ => (.openParen, "(") :: (lexemes kw inner ++ [(.closeParen, ")")])
def lexemesList (kw : Keywords) : List Expr → List Lexeme
  | [] => []
  | e :: es => lexemes kw e ++ lexemesList kw es
end

@[simp] theorem lexemesList_append (kw : Keywords) (as bs : List Expr) :
    lexemesList kw (as ++ bs) = lexemesList kw as ++ lexemesList kw bs := by
  induction as with
  | nil => rfl
  | cons a as ih => simp [lexemesList, ih]

mutual
theorem lexemes_eq_parts (kw : Keywords) : ∀ e : Expr,
    e.lexemes kw = e.parts.filterMap (Part.lexeme? kw)
  | .nil => rfl
  | .number _ _ => rfl
  | .word _ _ => rfl
  | .var _ _ => rfl
  | .list items _ => by simp [lexemes, parts, Part.lexeme?, lexemesList_eq_parts kw items]
  | .define _ params body _ => by
    have hp : Part.lexeme? kw ∘ .param = some ∘ fun p => (Kind.reference, ":" ++ p) := rfl
    simp [lexemes, parts, Part.lexeme?, lexemesList_eq_parts kw body, hp]
  | .call _ args _ => by simp [lexemes, parts, Part.lexeme?, lexemesList_eq_parts kw args]
  | .binary _ left right _ => by
    simp [lexemes, parts, Part.lexeme?, lexemes_eq_parts kw left, lexemes_eq_parts kw right]
  | .group inner _ => by simp [lexemes, parts, Part.lexeme?, lexemes_eq_parts kw inner]
theorem lexemesList_eq_parts (kw : Keywords) : ∀ es : List Expr,
    lexemesList kw es = (partsList es).filterMap (Part.lexeme? kw)
  | [] => rfl
  | e :: es => by
    simp [lexemesList, partsList, lexemes_eq_parts kw e, lexemesList_eq_parts kw es]
end

mutual
/-- The text of the tree has no parentheses but those of its groups. -/
def Bare (last : Bool) : Expr → Prop
  | .number n _ => 0 ≤ n.toInt
  | .list items _ => BareList items
  | .define _ _ body _ => BareList body
  | .call _ args _ => (args.isEmpty || last) = true ∧ BareList args
  | .binary op left right _ =>
    looseLeft op left = false ∧ looseRight op right = false ∧ Bare false left ∧ Bare last right
  | .group inner _ => Bare true inner
  | _ => True
def BareList : List Expr → Prop
  | [] => True
  | e :: es => Bare true e ∧ BareList es
end

theorem spells_symbol {kw : Keywords} {cs : List Char} {ls : List Lexeme} (op : Operator)
    (h : Spells kw cs ls) : Spells kw (op.sign :: cs) ((.operator, op.symbol) :: ls) :=
  .char (by cases op <;> decide) h

theorem breaks_join_params (params : List String) :
    Breaks (String.join (params.map (" :" ++ ·))).toList := by
  cases params with
  | nil => simp
  | cons p ps => simpa using breaks_cons (by decide)

theorem spells_params {kw : Keywords} {params : List String}
    (h : ∀ p ∈ params, Lexeme.Stable kw (.reference, ":" ++ p)) :
    Spells kw (String.join (params.map (" :" ++ ·))).toList
      (params.map fun p => (.reference, ":" ++ p)) := by
  induction params with
  | nil => simpa using Spells.nil
  | cons p ps ih =>
    have hp : Spells kw (":" ++ p).toList [(.reference, ":" ++ p)] := h p (by simp)
    have hps := ih fun q hq => h q (by simp [hq])
    have hb := hp.append hps (breaks_join_params ps)
    simpa using hb.blank (c := ' ') (by decide)

theorem breaks_renderArgs (kw : Keywords) (es : List Expr) : Breaks (renderArgs kw es).toList := by
  cases es with
  | nil => simp [renderArgs]
  | cons e es => simpa [renderArgs] using breaks_cons (by decide)

mutual
theorem spells_render (kw : Keywords) : ∀ (last : Bool) (e : Expr), Bare last e →
    (∀ l ∈ e.lexemes kw, l.Stable kw) → Spells kw (render kw last e).toList (e.lexemes kw)
  | _, .nil, _, _ => by simpa [render, lexemes] using Spells.nil
  | _, .number n _, hb, hs => by
    have hn : 0 ≤ n.toInt := by simpa [Bare] using hb
    have ht := hs (.number, Text.intText n.toInt) (by simp [lexemes])
    simp only [render, numberText, hn, if_true, lexemes]
    exact ht
  | _, .word text _, _, hs => hs (.quoted, "\"" ++ text) (by simp [lexemes])
  | _, .var name _, _, hs => hs (.reference, ":" ++ name) (by simp [lexemes])
  | _, .list items _, hb, hs => by
    have hi := spells_renderItems kw items hb fun l hl => hs l (by simp [lexemes, hl])
    have hc : Spells kw [']'] [(.closeBracket, "]")] := .char (by decide) .nil
    have hic := hi.append hc (breaks_cons (by decide))
    have ho := hic.char (c := '[') (k := .openBracket) (by decide)
    simpa [render, lexemes] using ho
  | _, .define name params body _, hb, hs => by
    have hopen : Spells kw kw.openingWord.toList [(.opening, kw.openingWord)] :=
      hs (.opening, kw.openingWord) (by simp [lexemes])
    have hname : Spells kw name.toList [(.word, name)] := hs (.word, name) (by simp [lexemes])
    have hclose : Spells kw kw.closingWord.toList [(.closing, kw.closingWord)] :=
      hs (.closing, kw.closingWord) (by simp [lexemes])
    have hparams : Spells kw (String.join (params.map (" :" ++ ·))).toList
        (params.map fun p => (.reference, ":" ++ p)) :=
      spells_params fun p hp => hs (.reference, ":" ++ p) (by simp [lexemes, hp])
    have hbody := spells_renderBody kw body hb (fun l hl => hs l (by simp [lexemes, hl])) hclose
    have hrest := hparams.append (hbody.blank (c := '\n') (by decide)) (breaks_cons (by decide))
    have hbreak : Breaks ((String.join (params.map (" :" ++ ·))).toList ++
        '\n' :: ((renderBody kw body).toList ++ kw.closingWord.toList)) := by
      cases params with
      | nil => simpa using breaks_cons (by decide)
      | cons p ps => simpa using breaks_cons (by decide)
    have hhead := (hname.append hrest hbreak).blank (c := ' ') (by decide)
    simpa [render, lexemes] using hopen.append hhead (breaks_cons (by decide))
  | last, .call name args _, hb, hs => by
    have hname : Spells kw name.toList [(.word, name)] := hs (.word, name) (by simp [lexemes])
    have hargs := spells_renderArgs kw args hb.2 fun l hl => hs l (by simp [lexemes, hl])
    have hl : (args.isEmpty || last) = true := hb.1
    simp only [render, hl, if_true, lexemes]
    simpa using hname.append hargs (breaks_renderArgs kw args)
  | last, .binary op left right _, hb, hs => by
    obtain ⟨hl, hr, hbl, hbr⟩ := hb
    have hleft := spells_render kw false left hbl fun l hl => hs l (by simp [lexemes, hl])
    have hright := spells_render kw last right hbr fun l hl => hs l (by simp [lexemes, hl])
    have hsign := spells_symbol op (hright.blank (c := ' ') (by decide))
    have hop := hsign.blank (c := ' ') (by decide)
    have hall := hleft.append hop (breaks_cons (by decide))
    simpa [render, lexemes, hl, hr, Operator.symbol] using hall
  | _, .group inner _, hb, hs => by
    have hi := spells_render kw true inner hb fun l hl => hs l (by simp [lexemes, hl])
    have hc : Spells kw [')'] [(.closeParen, ")")] := .char (by decide) .nil
    have hic := hi.append hc (breaks_cons (by decide))
    have ho := hic.char (c := '(') (k := .openParen) (by decide)
    simpa [render, parens, lexemes] using ho
theorem spells_renderItems (kw : Keywords) : ∀ es : List Expr, BareList es →
    (∀ l ∈ lexemesList kw es, l.Stable kw) →
    Spells kw (renderItems kw es).toList (lexemesList kw es)
  | [], _, _ => by simpa [renderItems, lexemesList] using Spells.nil
  | [e], hb, hs => by
    have he := spells_render kw true e hb.1 fun l hl => hs l (by simp [lexemesList, hl])
    simpa [renderItems, lexemesList] using he
  | e :: e' :: es, hb, hs => by
    have he := spells_render kw true e hb.1 fun l hl => hs l (by simp [lexemesList, hl])
    have hes := spells_renderItems kw (e' :: es) hb.2 fun l hl => hs l (by
      simp only [lexemesList, List.mem_append] at hl ⊢
      exact .inr hl)
    have ha := he.append (hes.blank (c := ' ') (by decide)) (breaks_cons (by decide))
    simpa [renderItems, lexemesList] using ha
theorem spells_renderArgs (kw : Keywords) : ∀ es : List Expr, BareList es →
    (∀ l ∈ lexemesList kw es, l.Stable kw) →
    Spells kw (renderArgs kw es).toList (lexemesList kw es)
  | [], _, _ => by simpa [renderArgs, lexemesList] using Spells.nil
  | e :: es, hb, hs => by
    have he := spells_render kw true e hb.1 fun l hl => hs l (by simp [lexemesList, hl])
    have hes := spells_renderArgs kw es hb.2 fun l hl => hs l (by simp [lexemesList, hl])
    have ha := (he.append hes (breaks_renderArgs kw es)).blank (c := ' ') (by decide)
    simpa [renderArgs, lexemesList] using ha
/-- A newline ends every item of a body, so any text may follow. -/
theorem spells_renderBody (kw : Keywords) : ∀ es : List Expr, BareList es →
    (∀ l ∈ lexemesList kw es, l.Stable kw) → ∀ {cs : List Char} {ls : List Lexeme},
    Spells kw cs ls → Spells kw ((renderBody kw es).toList ++ cs) (lexemesList kw es ++ ls)
  | [], _, _, _, _, h => by simpa [renderBody, lexemesList] using h
  | e :: es, hb, hs, _, _, h => by
    have he := spells_render kw true e hb.1 fun l hl => hs l (by simp [lexemesList, hl])
    have hes := spells_renderBody kw es hb.2 (fun l hl => hs l (by simp [lexemesList, hl])) h
    have ha := he.append (hes.blank (c := '\n') (by decide)) (breaks_cons (by decide))
    have hi := (ha.blank (c := ' ') (by decide)).blank (c := ' ') (by decide)
    simpa [renderBody, lexemesList] using hi
end

theorem spells_programText (kw : Keywords) {p : Program} (hb : ∀ e ∈ p, Bare true e)
    (hs : ∀ l ∈ lexemesList kw p, l.Stable kw) :
    Spells kw (p.text kw).toList (lexemesList kw p) := by
  induction p with
  | nil => simpa [Program.text, lexemesList] using Spells.nil
  | cons e es ih =>
    have he := spells_render kw true e (hb e (by simp)) fun l hl => hs l (by simp [lexemesList, hl])
    have hes := ih (fun e he => hb e (by simp [he])) fun l hl => hs l (by simp [lexemesList, hl])
    have ha := he.append (hes.blank (c := '\n') (by decide)) (breaks_cons (by decide))
    simpa [Program.text, text, lexemesList] using ha

end Expr

end LogoLang
