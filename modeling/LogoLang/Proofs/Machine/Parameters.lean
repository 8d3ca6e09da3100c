import LogoLang.Proofs.Machine.Scoping
import LogoLang.Proofs.Program.Preorder
import LogoLang.Proofs.Program.Readback
import Mathlib.Data.List.Forall2
import Mathlib.Data.List.Nodup

/-!
Parameters and the references to them. A name in a header loses all its colons, a reference loses
only one. Main statement: a reference in a body is to the parameter that is written the same just
if that has no second colon; it then stands for the argument, and for a global binding, if any,
otherwise.
-/

set_option autoImplicit false

namespace LogoLang

open Reader (dropMark dropMarks)

def Token.Doubled (t : Token) : Prop := ∃ cs, t.text.toList = ':' :: ':' :: cs

theorem Reader.toList_dropMarks_ne (c : Char) (s : String) (cs : List Char) :
    (dropMarks c s).toList ≠ c :: cs := by
  intro h
  have hd := List.head?_dropWhile_not (fun d => d == c) s.toList
  rw [dropMarks, String.toList_ofList] at h
  simp [h] at hd

theorem Reader.dropMarks_eq_dropMark_iff (c : Char) (s : String) :
    dropMarks c s = dropMark c s ↔ ¬ ∃ cs, s.toList = c :: c :: cs := by
  rw [← String.toList_inj, dropMarks, String.toList_ofList, dropMark]
  cases hs : s.toList with
  | nil => simp [hs]
  | cons d ds =>
    by_cases hd : d = c
    · subst hd
      rcases ds with _ | ⟨e, es⟩
      · simp
      · by_cases he : e = d
        · subst he
          -- Two marks are gone on the left, one on the right.
          have hle : (es.dropWhile fun d => d == e).length ≤ es.length :=
            (List.dropWhile_sublist _).length_le
          have hne : (es.dropWhile fun d => d == e) ≠ e :: es := by
            intro h
            rw [h, List.length_cons] at hle
            omega
          simp only [List.dropWhile_cons, beq_self_eq_true, if_true, String.toList_ofList]
          exact iff_of_false hne (by simp)
        · simp [he]
    · simp [hd, hs]

namespace Expr

mutual
theorem parts_infix_of_mem_visits {x : Visit} : ∀ {e : Expr} {grouped : Bool},
    x ∈ e.visits grouped → x.node.parts <:+: e.parts
  | .list items line, _, h => by
    rcases List.mem_cons.mp h with rfl | h
    · exact List.infix_rfl
    · exact (parts_infix_of_mem_visitsList h).trans ⟨[.openBracket line], [.closeBracket], rfl⟩
  | .define name params body line, _, h => by
    rcases List.mem_cons.mp h with rfl | h
    · exact List.infix_rfl
    · exact (parts_infix_of_mem_visitsList h).trans
        ⟨.opening line :: .name name :: params.map .param, [.closing], by simp [parts]⟩
  | .call name args line, _, h => by
    rcases List.mem_cons.mp h with rfl | h
    · exact List.infix_rfl
    · exact (parts_infix_of_mem_visitsList h).trans ⟨[.word name line], [], by simp [parts]⟩
  | .binary op left right line, _, h => by
    rcases List.mem_cons.mp h with rfl | h
    · exact List.infix_rfl
    · rcases List.mem_append.mp h with h | h
      · exact (parts_infix_of_mem_visits h).trans ⟨[], .operator op line :: right.parts, rfl⟩
      · exact (parts_infix_of_mem_visits h).trans
          ⟨left.parts ++ [.operator op line], [], by simp [parts]⟩
  | .group inner line, _, h => by
    rcases List.mem_cons.mp h with rfl | h
    · exact List.infix_rfl
    · exact (parts_infix_of_mem_visits h).trans ⟨[.openParen line], [.closeParen], rfl⟩
  | .nil, _, h | .number _ _, _, h | .word _ _, _, h | .var _ _, _, h => by
    obtain rfl := List.mem_singleton.mp h
    exact List.infix_rfl
theorem parts_infix_of_mem_visitsList {x : Visit} : ∀ {es : List Expr},
    x ∈ visitsList es → x.node.parts <:+: partsList es
  | [], h => by cases h
  | e :: es, h => by
    rcases List.mem_append.mp h with h | h
    · exact (parts_infix_of_mem_visits h).trans (List.prefix_append ..).isInfix
    · exact (parts_infix_of_mem_visitsList h).trans (List.suffix_append ..).isInfix
end

end Expr

namespace Activation

variable {c : Activation} {i : Nat} {x : String} {a : Value}

theorem lookup_zip_eq_none {params : List String} (hx : x ∉ params) (args : List Value) :
    (params.zip args).reverse.lookup x = none := by
  rw [List.lookup_eq_none_iff]
  intro p hp
  have hmem := (List.of_mem_zip (List.mem_reverse.mp hp)).1
  rw [bne_iff_ne]
  rintro rfl
  exact hx hmem

theorem arg?_eq_none (hx : x ∉ c.params) : c.arg? x = none := lookup_zip_eq_none hx c.args

theorem arg?_eq_some (hx : c.params[i]? = some x) (hl : x ∉ c.params.drop (i + 1))
    (ha : c.args[i]? = some a) : c.arg? x = some a := by
  obtain ⟨hi, rfl⟩ := List.getElem?_eq_some_iff.mp hx
  obtain ⟨hj, rfl⟩ := List.getElem?_eq_some_iff.mp ha
  have hz : c.params.zip c.args = (c.params.zip c.args).take i ++
      (c.params[i], c.args[i]) :: (c.params.drop (i + 1)).zip (c.args.drop (i + 1)) := by
    rw [← List.zip_cons_cons, ← List.drop_eq_getElem_cons, ← List.drop_eq_getElem_cons,
      List.zip_eq_zipWith, List.zip_eq_zipWith, ← List.drop_zipWith, List.take_append_drop]
  rw [arg?, hz, List.reverse_append, List.reverse_cons, List.lookup_append, List.lookup_append,
    lookup_zip_eq_none hl]
  simp

end Activation

namespace Moment

variable {m : Machine} {p : Program} {n : Nat} {made active : List Activation} {w : World}
  {t : Task} {stack : List Frame}

theorem length_args (h : Moment m p n made active w t stack) :
    ∀ c ∈ made, c.args.length = c.params.length := by
  induction h with
  | start => simp
  | move _ _ ih => exact ih
  | step _ _ hr ih =>
    cases hr with
    | enter hw =>
      intro c hc
      rcases List.mem_append.mp hc with hc | hc
      · exact ih c hc
      · obtain rfl := List.mem_singleton.mp hc
        simpa [Word.takes, Word.signature, Signature.isVariadic, Signature.arity] using hw.counted
    | _ => simpa using ih

end Moment

/-- What a name stands for in the calls of a procedure with these parameters: what is found among
the arguments, else a global binding, else nothing. -/
structure Resolves (params : List String) (name : String) (found : List Value → Option Value) :
    Prop where
  /-- When the call is entered, whatever words there are. -/
  entered : ∀ (w : World) (args : List Value), w.scopes.Rooted → args.length = params.length →
    (w.entered params args).scopes.lookup w.scopes.next name =
      (found args).or (w.scopes.lookup Scopes.globals name)
  /-- Wherever a session has come in the call. -/
  moment : ∀ {m : Machine} {p : Program} {n : Nat} {made active : List Activation}
    {c : Activation} {w : World} {line : Nat} {h : Scopes.Handle} {stack : List Frame},
    m.world.scopes.Rooted → c.params = params →
    Moment m p n made (c :: active) w (.eval (.var name line) h) stack →
    c.args.length = params.length ∧
      w.move (.eval (.var name line) h) stack =
        match (found c.args).or (m.global? name) with
        | some v => .next w (.give v) stack
        | none => .stop w (.failed (.unknown name (some line)))

theorem resolves_of_arg? {params : List String} {name : String}
    {found : List Value → Option Value}
    (hf : ∀ c : Activation, c.params = params → c.args.length = params.length →
      c.arg? name = found c.args) : Resolves params name found := by
  refine ⟨fun w args hs hlen => ?_, fun {m _ _ _ _ c w line h stack} hs hc hv => ?_⟩
  · have hstore := @World.scopes_entered w w.scopes [] (Scopes.after_nil _).symm w.scopes.next
      params args 0
    rw [hstore, ← hf ⟨w.scopes.next, params, args, 0⟩ rfl hlen, Scopes.lookup_globals]
    exact Scopes.lookup_after_add hs 0 name
  · have hlen := hv.length_args c (hv.scoping.active c (by simp))
    rw [hc] at hlen
    have hmove := hv.move_var hs
    rw [List.head?_cons, Option.bind_some, hf c hc hlen] at hmove
    exact ⟨hlen, hmove⟩

theorem resolves_last {params : List String} {name : String} {i : Nat}
    (hi : params[i]? = some name) (hl : name ∉ params.drop (i + 1)) :
    Resolves params name fun args => args[i]? := by
  apply resolves_of_arg?
  rintro c rfl hlen
  have hlt : i < c.args.length := hlen ▸ (List.getElem?_eq_some_iff.mp hi).1
  have ha := List.getElem?_eq_getElem hlt
  rw [ha, Activation.arg?_eq_some hi hl ha]

theorem resolves_none {params : List String} {name : String} (h : name ∉ params) :
    Resolves params name fun _ => none := by
  apply resolves_of_arg?
  rintro c rfl -
  exact Activation.arg?_eq_none h

/-- Where a definition stands in the text it is read from, with the tokens of its header and those
of its body. -/
structure Program.Written (ts : List Token) (name : String) (params : List String)
    (body : List Expr) (header inner : List Token) : Prop where
  place : ∃ before opener title closer after,
    ts = before ++ opener :: title :: (header ++ (inner ++ closer :: after)) ∧
    opener.kind = .opening ∧ title.kind = .word ∧ title.text = name ∧ closer.kind = .closing
  header : List.Forall₂ (fun t x => t.Means (.param x)) header params
  inner : List.Forall₂ Token.Means inner (Expr.partsList body)

theorem forall₂_append_right {α β : Type} {R : α → β → Prop} {l : List α} {as bs : List β}
    (h : List.Forall₂ R l (as ++ bs)) :
    ∃ l₁ l₂, l = l₁ ++ l₂ ∧ List.Forall₂ R l₁ as ∧ List.Forall₂ R l₂ bs :=
  ⟨l.take as.length, l.drop as.length, (List.take_append_drop ..).symm,
    List.forall₂_take_append _ _ _ h, List.forall₂_drop_append _ _ _ h⟩

theorem Program.exists_written {v : Vocabulary} {ts : List Token} {p : Program.Reading}
    (h : Program.read v ts = .ok p) {name : String} {params : List String} {body : List Expr}
    {line : Nat} {grouped : Bool}
    (hd : ⟨.define name params body line, grouped⟩ ∈ Expr.visitsList p.program) :
    ∃ header inner, Program.Written ts name params body header inner := by
  obtain ⟨r, r', hr, hf, rfl⟩ := Reader.read_eq_ok_iff.1 h
  obtain ⟨ps, hps, hm⟩ := Reader.parts_feedAll hr
  obtain ⟨before, after, heq⟩ := Expr.parts_infix_of_mem_visitsList hd
  have hall : ps = before ++
      (.opening line :: .name name :: (params.map .param ++ (Expr.partsList body ++ [.closing])) ++
        after) := by
    rw [← List.append_assoc, ← Expr.parts, heq, Reader.parts_finishes hf, hps]
    rfl
  subst hall
  -- The tokens are cut where the parts are.
  obtain ⟨front, rest, rfl, -, hm⟩ := forall₂_append_right hm
  obtain ⟨mid, back, rfl, hm, -⟩ := forall₂_append_right hm
  cases hm with
  | @cons opener _ _ _ hopen hm =>
    cases hm with
    | @cons title _ _ _ htitle hm =>
      obtain ⟨header, rest, rfl, hheader, hm⟩ := forall₂_append_right hm
      obtain ⟨inner, last, rfl, hinner, hm⟩ := forall₂_append_right hm
      obtain ⟨closer, tail, hclose, htail, rfl⟩ := List.forall₂_cons_right_iff.mp hm
      cases htail
      refine ⟨header, inner, ⟨front, opener, title, closer, back, by simp, hopen.1, htitle.1,
        htitle.2, hclose⟩, List.forall₂_map_right_iff.mp hheader, hinner⟩

namespace Program.Written

variable {ts header inner : List Token} {name : String} {params : List String} {body : List Expr}

theorem not_mem_params (h : Program.Written ts name params body header inner) {y : String}
    {cs : List Char} (hy : y.toList = ':' :: cs) : y ∉ params := by
  intro hmem
  obtain ⟨i, hi, rfl⟩ := List.mem_iff_get.mp hmem
  have hx := h.header.get (by rw [h.header.length_eq]; exact i.2) i.2
  exact Reader.toList_dropMarks_ne ':' _ cs (hx.2 ▸ hy)

theorem nodup_params (h : Program.Written ts name params body header inner)
    (hone : ∀ t ∈ header, t.text.toList.head? = some ':' ∧ ¬ t.Doubled)
    (hnodup : (header.map Token.text).Nodup) : params.Nodup := by
  have htext : header.map Token.text = params.map fun x => String.ofList (':' :: x.toList) := by
    rw [← List.forall₂_eq_eq_eq, List.forall₂_map_left_iff, List.forall₂_map_right_iff]
    refine ((List.forall₂_and_left header params).mpr ⟨hone, h.header⟩).imp ?_
    rintro t x ⟨⟨hhead, hdoubled⟩, hx⟩
    obtain ⟨cs, hcs⟩ := List.head?_eq_some_iff.mp hhead
    rw [← hx.2, (Reader.dropMarks_eq_dropMark_iff ':' t.text).mpr hdoubled, ← String.toList_inj]
    simp [dropMark, hcs]
  rw [htext] at hnodup
  exact hnodup.of_map

end Program.Written

/-- A program has been read, and a definition is a node of it. A reference in its body that is
written like a parameter is to that parameter if and only if the text has no more than one colon in
front. In a call of the procedure it stands for the argument then, unless a later parameter is of
the same name, and otherwise for no argument at all. No two parameters are of the same name if they
are written differently with one colon each. -/
theorem Program.reference_is_to_parameter_iff (v : Vocabulary) (ts : List Token)
    (p : Program.Reading) (h : Program.read v ts = .ok p) (name : String) (params : List String)
    (body : List Expr) (line : Nat) (grouped : Bool)
    (hd : ⟨.define name params body line, grouped⟩ ∈ Expr.visitsList p.program) :
    ∃ header inner, Program.Written ts name params body header inner ∧
      (∀ (i : Nat) (t b : Token) (x y : String) (l : Nat), header[i]? = some t →
        params[i]? = some x → (b, .reference y l) ∈ inner.zip (Expr.partsList body) →
        b.text = t.text →
        (x = y ↔ ¬ t.Doubled) ∧
        (¬ t.Doubled → x ∉ params.drop (i + 1) → Resolves params y fun args => args[i]?) ∧
        (t.Doubled → Resolves params y fun _ => none)) ∧
      ((∀ t ∈ header, t.text.toList.head? = some ':' ∧ ¬ t.Doubled) →
        (header.map Token.text).Nodup → params.Nodup) := by
  obtain ⟨header, inner, hw⟩ := Program.exists_written h hd
  refine ⟨header, inner, hw, fun i t b x y l ht hx hb htext => ?_, hw.nodup_params⟩
  have hi : (t, x) ∈ header.zip params :=
    List.mem_of_getElem? (List.getElem?_zip_eq_some.mpr ⟨ht, hx⟩)
  obtain ⟨-, rfl⟩ := List.forall₂_zip hw.header hi
  obtain ⟨-, rfl, -⟩ := List.forall₂_zip hw.inner hb
  rw [htext]
  have hiff := Reader.dropMarks_eq_dropMark_iff ':' t.text
  refine ⟨hiff, fun hdoubled hlast => ?_, fun hdoubled => resolves_none ?_⟩
  · rw [← hiff.mpr hdoubled]
    exact resolves_last hx hlast
  · obtain ⟨cs, hcs⟩ := hdoubled
    have hy : (dropMark ':' t.text).toList = ':' :: cs := by simp [dropMark, hcs]
    exact hw.not_mem_params hy

def echoText (reference : String) : String :=
  "to f " ++ reference ++ "\n print " ++ reference ++ "\nend\nf 1"

def echoDefinition (param name : String) : Expr :=
  .define "f" [param] [.call "print" [.var name 1] 1] 0

def echoProgram (param name : String) : Program :=
  [echoDefinition param name, .call "f" [.number 1 3] 3]

def echoTokens (reference : String) : List Token :=
  Token.tokenize .standard (echoText reference)

theorem moment_echo : ∃ w stack,
    Moment {} (echoProgram "x" "x") 1 [⟨1, ["x"], [.number 1], 0⟩] [⟨1, ["x"], [.number 1], 0⟩] w
      (.eval (.var "x" 1) 1) stack := by
  have hdefine := (Moment.start (m := {}) (p := echoProgram "x" "x")).move rfl
  have hcall := ((hdefine.move rfl).move rfl).move rfl
  have harg := (hcall.move rfl).move rfl
  have hbody := harg.step rfl (.enter ⟨rfl, by simp, rfl⟩)
  have hvar := (hbody.move rfl).move rfl
  exact ⟨_, _, hvar⟩

theorem Program.reference_is_to_parameter_iff_echo :
    ∃ p made active w k stack,
      Program.read { known := Registry.core.signatures } (echoTokens ":x") = .ok p ∧
      ⟨echoDefinition "x" "x", false⟩ ∈ Expr.visitsList p.program ∧
      Moment {} p.program 1 made (⟨1, ["x"], [.number 1], 0⟩ :: active) w (.eval (.var "x" 1) k)
        stack ∧
      w.move (.eval (.var "x" 1) k) stack = .next w (.give (.number 1)) stack := by
  have hp : Program.read { known := Registry.core.signatures } (echoTokens ":x") =
      .ok ⟨echoProgram "x" "x", Registry.core.signatures, ⟨[("f", .defined ["x"])]⟩⟩ := by
    decide +kernel
  have htext : ∀ t ∈ echoTokens ":x", t.kind = .reference → t.text = ":x" := by
    decide +kernel
  have hd : ⟨echoDefinition "x" "x", false⟩ ∈ Expr.visitsList (echoProgram "x" "x") := by
    simp [echoProgram, echoDefinition, Expr.visitsList, Expr.visits]
  obtain ⟨w, stack, hv⟩ := moment_echo
  refine ⟨_, _, _, w, 1, stack, hp, hd, hv, ?_⟩
  obtain ⟨header, inner, hw, href, -⟩ :=
    Program.reference_is_to_parameter_iff _ _ _ hp "f" ["x"] _ 0 false hd
  obtain ⟨before, opener, title, closer, after, hts, -⟩ := hw.place
  obtain ⟨t, _, ht, hnil, rfl⟩ := List.forall₂_cons_right_iff.mp hw.header
  cases hnil
  obtain ⟨a, _, -, hrest, rfl⟩ := List.forall₂_cons_right_iff.mp hw.inner
  obtain ⟨b, _, hb, hnil, rfl⟩ := List.forall₂_cons_right_iff.mp hrest
  have ht' : t.text = ":x" := htext t (by simp [hts]) ht.1
  have hb' : b.text = ":x" := htext b (by simp [hts]) hb.1
  have hcolon : ¬ t.Doubled := by
    rintro ⟨cs, hcs⟩
    rw [ht'] at hcs
    cases hcs
  obtain ⟨-, hresolves, -⟩ := href 0 t b "x" "x" 1 rfl rfl
    (by simp [Expr.partsList, Expr.parts]) (hb'.trans ht'.symm)
  have hs : ({} : Machine).world.scopes.Rooted := Nat.zero_lt_one
  exact ((hresolves hcolon (by simp)).moment hs rfl hv).2

/-- With one colon more the parameter keeps its name and the reference does not. -/
theorem Program.doubled_parameter_is_not_found :
    ∃ p, Program.read { known := Registry.core.signatures } (echoTokens "::x") = .ok p ∧
      ((echoTokens "::x").filter fun t => t.kind == .reference).map Token.text = ["::x", "::x"] ∧
      p.program = [.define "f" ["x"] [.call "print" [.var ":x" 1] 1] 0,
        .call "f" [.number 1 3] 3] ∧
      (("x" : String) ≠ ":x") ∧
      ((({} : Machine).start p.program).advance 9).fault? = some (.unknown ":x" (some 1)) := by
  have hp : Program.read { known := Registry.core.signatures } (echoTokens "::x") =
      .ok ⟨echoProgram "x" ":x", Registry.core.signatures, ⟨[("f", .defined ["x"])]⟩⟩ := by
    decide +kernel
  have hrun : ((({} : Machine).start (echoProgram "x" ":x")).advance 9).fault? =
      some (.unknown ":x" (some 1)) := by decide +kernel
  exact ⟨_, hp, by decide +kernel, rfl, by decide, hrun⟩

end LogoLang
