import LogoLang.Proofs.Machine.Arity
import LogoLang.Proofs.Machine.Direct
import LogoLang.Proofs.Program.Seam

/-!
Definitions at the top. A reader adds a word when it comes to its definition, and a machine learns
it when it evaluates the definition. Where no definition stands within anything else, both come to
the same ones in the same order; only code that the machine had before can define more. Main
statement: once such a program has been run to its end, the machine knows the words that the reader
knew at the end of the text, but for those that older code has defined.
-/

set_option autoImplicit false

namespace LogoLang

namespace Expr

def DefinesIn (S : Expr → Prop) (e : Expr) : Prop := e.NoDefinition ∨ S e

mutual
theorem legible_eq_of_noDefinition : ∀ {e : Expr} {v v' : Vocabulary} {grouped : Bool},
    e.All NoDefinition → e.legible v grouped = some v' → v' = v
  | .nil, _, _, _, _, h => by cases h
  | .number _ _, _, _, _, _, h | .word _ _, _, _, _, _, h | .var _ _, _, _, _, _, h => by
    cases h
    rfl
  | .list items _, _, _, _, hf, h => legibleList_eq_of_noDefinition (fun _ hc => hf.child hc) h
  | .define name params body line, _, _, _, hf, _ =>
    absurd rfl ((all_iff.1 hf).1 name params body line)
  | .call name args _, _, _, _, hf, h => by
    simp only [legible, Option.ite_none_right_eq_some] at h
    exact legibleList_eq_of_noDefinition (fun _ hc => hf.child hc) h.2
  | .binary op left right _, v, v', _, hf, h => by
    simp only [legible, Option.bind_eq_some_iff] at h
    obtain ⟨v₁, hl, hr⟩ := h
    have hl := legible_eq_of_noDefinition (hf.child (by simp [children])) hl
    have hr := legible_eq_of_noDefinition (hf.child (by simp [children])) hr
    exact hr.trans hl
  | .group inner _, _, _, _, hf, h => by
    simp only [legible, Option.ite_none_left_eq_some] at h
    exact legible_eq_of_noDefinition (hf.child (by simp [children])) h.2
theorem legibleList_eq_of_noDefinition : ∀ {es : List Expr} {v v' : Vocabulary},
    (∀ e ∈ es, e.All NoDefinition) → legibleList v es = some v' → v' = v
  | [], _, _, _, h => by
    cases h
    rfl
  | e :: es, v, v', hf, h => by
    simp only [legibleList, Option.bind_eq_some_iff] at h
    obtain ⟨v₁, he, hes⟩ := h
    have he := legible_eq_of_noDefinition (hf e (by simp)) he
    have hes := legibleList_eq_of_noDefinition (fun d hd => hf d (by simp [hd])) hes
    exact hes.trans he
end

end Expr

def World.Learned (S : Expr → Prop) (w : World) (name : String) : Prop :=
  ∃ params body line, S (.define name params body line) ∧
    w.words.get? name = some (.defined params body)

theorem World.Learned.of_eq {S : Expr → Prop} {w w' : World} {name : String}
    (h : w.Learned S name) (he : w'.words.get? name = w.words.get? name) : w'.Learned S name := by
  obtain ⟨params, body, line, hs, hw⟩ := h
  exact ⟨params, body, line, hs, he.trans hw⟩

namespace Direct

open LogoLang.Expr (DefinesIn)

variable {P S : Expr → Prop} {α : Type}

def Job.All (P : Expr → Prop) : Job α → Prop
  | .expr e => e.All P
  | .items es | .block es | .loop _ es => ∀ e ∈ es, e.All P
  | .apply c vs => c.All P ∧ ∀ v ∈ vs, v.All P

def Job.Yields (P : Expr → Prop) : Job α → Except Fault α → Prop
  | .items _, r => ∀ vs, r = .ok vs → ∀ v ∈ vs, v.All P
  | .expr _, r | .block _, r | .apply _ _, r | .loop _ _, r => ∀ v, r = .ok v → v.All P

/-- Evaluation has learned nothing but from definitions of the set, and has brought no others. -/
structure Job.Keeps (S : Expr → Prop) (j : Job α) (w w' : World) (r : Except Fault α) : Prop where
  words : ∀ name, w'.words.get? name = w.words.get? name ∨ w'.Learned S name
  world : w'.All (DefinesIn S)
  result : j.Yields (DefinesIn S) r

namespace Job.Keeps

variable {β : Type} {w w₁ w' : World} {i : Job β} {j : Job α} {q : Except Fault β}
  {r : Except Fault α}

theorem still (hw : w'.All (DefinesIn S)) (he : w'.words = w.words)
    (hr : j.Yields (DefinesIn S) r) : j.Keeps S w w' r :=
  ⟨fun name => .inl (by rw [he]), hw, hr⟩

theorem after (hi : i.Keeps S w w₁ q) (hj : j.Keeps S w₁ w' r) : j.Keeps S w w' r := by
  refine ⟨fun name => ?_, hj.world, hj.result⟩
  rcases hj.words name with h | h
  · exact (hi.words name).imp h.trans fun hl => hl.of_eq h
  · exact .inr h

theorem failed (hi : i.Keeps S w w' q) (j : Job α) (f : Fault) : j.Keeps S w w' (.error f) :=
  ⟨hi.words, hi.world, by cases j <;> simp [Job.Yields]⟩

theorem result_of {k : Job α} (hj : j.Keeps S w w' r)
    (hr : j.Yields (DefinesIn S) r → k.Yields (DefinesIn S) r) : k.Keeps S w w' r :=
  ⟨hj.words, hj.world, hr hj.result⟩

end Job.Keeps

variable {w w₁ w' : World} {h : Scopes.Handle} {j : Job α}

theorem definesIn_literal (e : Expr) (he : e.IsLiteral) : e.DefinesIn S :=
  .inl (@Registry.serves_literal .empty e he).1

theorem Evaluates.keeps {r : Except Fault α} (he : Evaluates w h j w' r)
    (hj : j.All (DefinesIn S)) (hw : w.All (DefinesIn S)) : j.Keeps S w w' r := by
  induction he with
  | nil | number | word | none | empty | zero =>
    exact .still hw rfl (by simp [Job.Yields, Value.All])
  | list =>
    refine .still hw rfl ?_
    rintro v ⟨⟩ e he
    exact Expr.All.child hj he
  | var hv =>
    refine .still hw rfl ?_
    rintro v ⟨⟩
    exact Scopes.lookup_all hw.values hv
  | unbound | refused | failed => exact .still hw rfl (by simp [Job.Yields])
  | @define w h name params body line =>
    obtain ⟨hd, hb⟩ := Expr.all_iff.1 hj
    refine ⟨fun other => ?_, hw.learn hb name params, ?_⟩
    · by_cases ho : other = name
      · subst ho
        exact .inr ⟨params, body, line, hd.resolve_left (· _ _ _ _ rfl), by simp [World.learn]⟩
      · exact .inl (Table.get?_insert_of_ne _ _ ho)
    · rintro v ⟨⟩
      trivial
  | group _ ih => exact (ih (Expr.All.child hj (by simp [Expr.children])) hw).result_of id
  | call hc _ _ iha ihw =>
    have ha := iha (Expr.All.operands hj hc) hw
    have hr := ihw ⟨hj, ha.result _ rfl⟩ ha.world
    exact ha.after (hr.result_of id)
  | argument hc _ iha => exact (iha (Expr.All.operands hj hc) hw).failed _ _
  | @cons w w₁ w' h e es v r _ _ ihe ihs =>
    obtain ⟨he, hes⟩ := List.forall_mem_cons.1 hj
    have hv := ihe he hw
    have hr := ihs hes hv.world
    cases r with
    | error f => exact hv.after (hr.failed _ f)
    | ok vs =>
      refine hv.after ⟨hr.words, hr.world, ?_⟩
      rintro us ⟨⟩
      exact List.forall_mem_cons.2 ⟨hv.result _ rfl, hr.result _ rfl⟩
  | stop _ ih => exact (ih (List.forall_mem_cons.1 hj).1 hw).failed _ _
  | last _ ih | broken _ ih => exact (ih (List.forall_mem_cons.1 hj).1 hw).result_of id
  | drop _ _ ihe ihs =>
    obtain ⟨he, hes⟩ := List.forall_mem_cons.1 hj
    have hv := ihe he hw
    exact hv.after ((ihs hes hv.world).result_of id)
  | value ha hk =>
    refine .still hw rfl ?_
    rintro v ⟨⟩
    cases CoreWord.act_replies ha.counted hk with
    | void | number | word => trivial
    | list => exact CoreWord.listOf_all definesIn_literal hj.2 _
  | say ha hk =>
    refine .still (hw.print _) (World.words_print ..) ?_
    rintro v ⟨⟩
    trivial
  -- The blocks that core words run are values, and the bodies of procedures are in the world.
  | run ha hk _ ih =>
    cases CoreWord.act_replies ha.counted hk with
    | run own hi => exact (ih (hj.2 _ hi) hw).result_of id
  | loop ha hk _ ih =>
    cases CoreWord.act_replies ha.counted hk with
    | loop own count hi => exact (ih (hj.2 _ hi) hw).result_of id
  | @enter w w' h c vs params body r ha _ ih =>
    have hb := ih (hw.bodies _ _ _ ha.known) (hw.entered _ hj.2)
    exact ⟨hb.words, hb.world, hb.result⟩
  | again _ _ ihb ihn =>
    have hb := ihb hj hw
    exact hb.after ((ihn hj hb.world).result_of id)
  | halted _ ih => exact (ih hj hw).result_of id

def Job.Ran {α : Type} (w : World) (h : Scopes.Handle) :
    Job α → World → Except Fault α → Prop
  | .block [], w', _ => w' = w
  | .block (e :: es), w', .ok _ => ∃ w₁ v u, Evaluates w h (.expr e) w₁ (.ok v) ∧
    Evaluates w₁ h (.block es) w' (.ok u)
  | .expr (.define name params body _), w', _ => w' = w.learn name params body
  | _, _, _ => True

theorem Evaluates.ran {r : Except Fault α} (he : Evaluates w h j w' r) : j.Ran w h w' r := by
  cases he with
  | define | empty => rfl
  | @last _ _ _ e r he =>
    cases r with
    | ok v => exact ⟨_, v, .void, he, .empty⟩
    | error f => trivial
  | @drop _ w₁ _ _ e e' es v r he hs =>
    cases r with
    | ok u => exact ⟨_, v, u, he, hs⟩
    | error f => trivial
  | @call _ _ _ _ c _ _ hc | @argument _ _ _ c _ hc =>
    cases c with
    | define => exact hc.elim
    | _ => trivial
  | _ => trivial

end Direct

open Direct
open LogoLang.Expr (DefinesIn NoDefinition legibleList)

def World.vocabulary (w : World) : Vocabulary := { known := w.words.signatures }

theorem World.get?_vocabulary (w : World) (name : String) :
    w.vocabulary.get? name = (w.words.get? name).map Word.signature := by
  simp [vocabulary, Vocabulary.get?, Registry.signatures]

/-- The reader knows the words of the machine, but for those that come from the set. -/
def Vocabulary.AgreesBut (S : Expr → Prop) (v : Vocabulary) (w : World) : Prop :=
  ∀ name, v.get? name = w.vocabulary.get? name ∨ w.Learned S name

variable {S : Expr → Prop} {v v' : Vocabulary} {w w' : World} {h : Scopes.Handle}

namespace Vocabulary.AgreesBut

theorem learn (hv : v.AgreesBut S w) (name : String) (params : List String) (body : List Expr) :
    (v.define name params).AgreesBut S (w.learn name params body) := by
  intro other
  by_cases ho : other = name
  · left
    rw [World.get?_vocabulary, get?_define, if_pos ho, World.learn, Table.get?_insert, if_pos ho]
    rfl
  · have he : (w.learn name params body).words.get? other = w.words.get? other :=
      Table.get?_insert_of_ne _ _ ho
    rw [World.get?_vocabulary, get?_define, if_neg ho, he, ← World.get?_vocabulary]
    exact (hv other).imp_right fun hl => hl.of_eq he

theorem keeps (hv : v.AgreesBut S w)
    (hw : ∀ name, w'.words.get? name = w.words.get? name ∨ w'.Learned S name) :
    v.AgreesBut S w' := by
  intro name
  rcases hw name with he | hl
  · rw [World.get?_vocabulary, he, ← World.get?_vocabulary]
    exact (hv name).imp_right fun hl => hl.of_eq he
  · exact .inr hl

end Vocabulary.AgreesBut

theorem agreesBut_of_expr {e : Expr} {x : Value} (he : Evaluates w h (.expr e) w' (.ok x))
    (ht : ∀ c ∈ e.children, c.All NoDefinition) (hl : e.legible v false = some v')
    (hw : w.All (DefinesIn S)) (hv : v.AgreesBut S w) :
    v'.AgreesBut S w' ∧ w'.All (DefinesIn S) := by
  have hc : ∀ c ∈ e.children, c.All (DefinesIn S) := fun c hc => (ht c hc).imp fun _ => .inl
  by_cases hd : e.NoDefinition
  · obtain ⟨hs, hw', -⟩ := he.keeps (Expr.all_iff.2 ⟨.inl hd, hc⟩) hw
    rw [Expr.legible_eq_of_noDefinition (Expr.all_iff.2 ⟨hd, ht⟩) hl]
    exact ⟨hv.keeps hs, hw'⟩
  · simp only [Expr.NoDefinition, not_forall, not_not] at hd
    obtain ⟨name, params, body, line, rfl⟩ := hd
    have hw' : w' = w.learn name params body := he.ran
    simp only [Expr.legible, Option.ite_none_right_eq_some] at hl
    rw [Expr.legibleList_eq_of_noDefinition ht hl.2, hw']
    exact ⟨hv.learn name params body, hw.learn hc name params⟩

/-- A program with its definitions at the top leaves the machine with the words that the reader
ends with, but for those that come from older code. -/
theorem agreesBut_of_program {p : Program} {x : Value}
    (he : Evaluates w h (.block p) w' (.ok x)) (ht : p.TopDefinitions)
    (hl : legibleList v p = some v') (hw : w.All (DefinesIn S)) (hv : v.AgreesBut S w) :
    v'.AgreesBut S w' := by
  induction p generalizing w v x with
  | nil =>
    have hw' : w' = w := he.ran
    cases hl
    rw [hw']
    exact hv
  | cons e es ih =>
    obtain ⟨hte, hts⟩ := List.forall_mem_cons.1 ht
    obtain ⟨w₁, y, z, he₁, hes⟩ := he.ran
    simp only [legibleList, Option.bind_eq_some_iff] at hl
    obtain ⟨v₁, hle, hls⟩ := hl
    obtain ⟨hv₁, hw₁⟩ := agreesBut_of_expr he₁ hte hle hw hv
    exact ih hes hts hls hw₁ hv₁

theorem agrees_of_program {p : Program} {x : Value}
    (he : Evaluates w h (.block p) w' (.ok x)) (ht : p.TopDefinitions)
    (hl : legibleList v p = some v') (hw : w.All NoDefinition) (hv : v.Agrees w.vocabulary) :
    v'.Agrees w'.vocabulary := by
  have hb : v'.AgreesBut (fun _ => False) w' :=
    agreesBut_of_program he ht hl (hw.imp fun _ => .inl) fun name => .inl (hv name)
  intro name
  rcases hb name with hn | ⟨_, _, _, hf, -⟩
  · exact hn
  · exact hf.elim

end LogoLang
