import LogoLang.Proofs.Machine.Code
import LogoLang.Proofs.Program.Arity
import LogoLang.Token.Lexer

/-!
Arity at run time. A program is read with the words that its definitions add in the order of the
text, and run with those they add in the order of execution. Main statement: if the definitions
stand at the top, have different names and leave the core words alone, then every word that is
applied in a run exists and takes as many arguments as it gets.
-/

set_option autoImplicit false

namespace LogoLang

def Expr.NoDefinition (e : Expr) : Prop :=
  ∀ name params body line, e ≠ .define name params body line

/-- The node is no definition, and the word it applies, if any, exists and takes its arguments. -/
def Registry.Serves (words : Registry) (e : Expr) : Prop :=
  e.NoDefinition ∧
  (e.Applies → ∃ word, words.get? e.callee = some word ∧ word.takes e.operands.length = true)

/-- A program whose calls are served by the words that are known when they are reached. -/
inductive Registry.Runs : Registry → Program → Prop where
  | nil {words : Registry} : Runs words []
  | define {words : Registry} {name : String} {params : List String} {body : List Expr}
    {line : Nat} {es : Program} (hn : words.get? name = none)
    (hb : ∀ e ∈ body, e.All (Serves (words.insert name (.defined params body))))
    (hs : Runs (words.insert name (.defined params body)) es) :
    Runs words (.define name params body line :: es)
  | expr {words : Registry} {e : Expr} {es : Program} (he : e.All words.Serves)
    (hs : Runs words es) : Runs words (e :: es)

/-- The part of the stack in which the rest of the program waits. -/
inductive Registry.Bottom (words : Registry) : List Frame → Prop where
  | empty : Bottom words []
  | rest {es : Program} {scope : Scopes.Handle} (hs : words.Runs es) :
    Bottom words [.block es scope]

namespace Registry

variable {words : Registry}

theorem serves_literal {e : Expr} (he : e.IsLiteral) : words.Serves e := by
  cases e with
  | nil | number | word | list => exact ⟨by simp [Expr.NoDefinition], fun h => h.elim⟩
  | _ => exact he.elim

theorem Serves.insert {e : Expr} (h : words.Serves e) {name : String} (hn : words.get? name = none)
    (word : Word) : Serves (words.insert name word) e := by
  refine ⟨h.1, fun ha => ?_⟩
  obtain ⟨known, hk, ht⟩ := h.2 ha
  refine ⟨known, ?_, ht⟩
  rw [Table.get?_insert_of_ne _ _ (by rintro rfl; simp [hn] at hk), hk]

theorem not_define {words : Registry} {name : String} {params : List String} {body : List Expr}
    {line : Nat} (h : (Expr.define name params body line).All words.Serves) : False :=
  (Expr.all_iff.1 h).1.1 _ _ _ _ rfl

end Registry

/-- The machine is evaluating a program that its words serve. -/
inductive Ready (w : World) : Task → List Frame → Prop where
  | program {es : Program} {scope : Scopes.Handle} (hw : w.All w.words.Serves)
    (hs : w.words.Runs es) : Ready w (.run es scope) []
  | define {name : String} {params : List String} {body : List Expr} {line : Nat}
    {scope : Scopes.Handle} {tail : List Frame} (hw : w.All w.words.Serves)
    (hn : w.words.get? name = none)
    (hb : ∀ e ∈ body, e.All (Registry.Serves (w.words.insert name (.defined params body))))
    (ht : Registry.Bottom (w.words.insert name (.defined params body)) tail) :
    Ready w (.eval (.define name params body line) scope) tail
  | inside {t : Task} {stack tail : List Frame} (hh : Holds w.words.Serves tail w t stack)
    (ht : w.words.Bottom tail) : Ready w t stack

/-- A fault that neither the grammar nor the number of arguments has a part in. -/
def Fault.Innocent : Fault → Prop
  | .grammar _ _ => False
  | .run (.expectsArguments _ _ _) _ => False
  | _ => True

theorem Fault.innocent_of_ofValues {cause : RunFault} (h : cause.OfValues) (site : Option Expr) :
    (Fault.run cause site).Innocent := by
  cases cause with
  | expectsArguments => exact h
  | _ => trivial

inductive Served (w : World) : Outcome → Prop where
  | stop {o : Outcome} {tail : List Frame} (hk : Keeps w.words.Serves tail w o)
    (ht : w.words.Bottom tail) : Served w o
  | failed {f : Fault} (hf : f.Innocent) : Served w (.failed f)

variable {w : World}

theorem ready_run {es : Program} {scope : Scopes.Handle} (hw : w.All w.words.Serves)
    (hs : w.words.Runs es) : (w.moveRun es scope []).Leads Ready Served := by
  cases hs with
  | nil => exact .inside ⟨hw, trivial, [], rfl, by simp⟩ .empty
  | @define _ name params body line es hn hb hs =>
    cases es with
    | nil => exact .define hw hn hb .empty
    | cons e es => exact .define hw hn hb (.rest hs)
  | @expr _ e es he hs =>
    cases es with
    | nil => exact .inside ⟨hw, he, [], rfl, by simp⟩ .empty
    | cons e' es => exact .inside ⟨hw, he, [], rfl, by simp⟩ (.rest hs)

theorem World.All.define {name : String} {params : List String} {body : List Expr}
    (hw : w.All w.words.Serves) (hn : w.words.get? name = none)
    (hb : ∀ e ∈ body, e.All (Registry.Serves (w.words.insert name (.defined params body)))) :
    (w.learn name params body).All (w.learn name params body).words.Serves := by
  have hw' : w.All (Registry.Serves (w.words.insert name (.defined params body))) := by
    refine ⟨fun n ps b h e he => ?_, fun h n v hv => ?_⟩
    · exact (hw.bodies n ps b h e he).imp fun d hd => hd.insert hn _
    · exact (hw.values h n v hv).imp fun d hd => hd.insert hn _
  exact hw'.learn hb name params

theorem ready_inside {t : Task} {stack tail : List Frame}
    (hh : Holds w.words.Serves tail w t stack) (ht : w.words.Bottom tail) :
    (w.move t stack).Leads Ready Served := by
  by_cases hg : ∃ v, t = .give v ∧ stack = tail
  · obtain ⟨v, rfl, rfl⟩ := hg
    cases ht with
    | empty => exact .stop (.done hh.world hh.task) .empty
    | rest hs => exact .program hh.world hs
  · have hm := holds_move hh fun v hv hs => hg ⟨v, hv, hs⟩
    rcases World.move_world w t stack with ⟨name, params, body, line, scope, rfl, -⟩ | hw
    · exact (Registry.not_define hh.task).elim
    · cases hn : w.move t stack with
      | next w' t' stack' =>
        rw [hn] at hm hw
        cases hw
        exact .inside hm ht
      | stop w' o =>
        rw [hn] at hm hw
        cases hw
        exact .stop hm ht

theorem ready_settle {t : Task} {stack : List Frame} (h : Ready w t stack) :
    Served (w.settle t stack).1 (w.settle t stack).2 := by
  refine World.settle_keeps ?_ w t stack h
  intro w t stack h
  cases h with
  | program hw hs => exact ready_run hw hs
  | define hw hn hb ht => exact .inside ⟨hw.define hn hb, trivial, [], rfl, by simp⟩ ht
  | inside hh ht => exact ready_inside hh ht

theorem accepts_of_collects {call : Expr} {args : List Value}
    (hc : call.Collects w.words.Serves args []) :
    ∃ word, w.words.get? call.callee = some word ∧ word.takes args.length = true := by
  obtain ⟨word, hw, ht⟩ := (Expr.all_iff.1 hc.all).1.2 hc.applies
  have hn := hc.count
  simp only [List.length_nil, Nat.add_zero] at hn
  exact ⟨word, hw, hn ▸ ht⟩

theorem Fails.innocent {call : Expr} {args : List Value} {f : Fault} (hf : Fails w call args f)
    (hc : call.Collects w.words.Serves args []) : f.Innocent := by
  obtain ⟨word, hw, ht⟩ := accepts_of_collects hc
  cases hf with
  | failed ha hk => exact Fault.innocent_of_ofValues (CoreWord.act_ofValues ha.counted hk) _
  | refused hr =>
    cases hr with
    | unknown => trivial
    | noValue => trivial
    | miscounted hw' hv ht' =>
      rw [hw'] at hw
      cases hw
      simp [ht] at ht'

theorem served_proceed (hp : w.Plain) {p : Pending} (h : Served w (.waiting p)) :
    Served (p.proceed w).1 (p.proceed w).2 := by
  cases h with
  | stop hk ht =>
    cases hk with
    | @waiting call args scope stack hw hc hs =>
      rcases holds_proceed (fun _ => Registry.serves_literal) hp hw hc hs with
        ⟨f, hx, hf⟩ | ⟨w', t, stack', hx, hws, hh⟩
      · rw [hx]
        exact .failed (hf.innocent hc)
      · rw [hx]
        rw [← hws] at hh ht
        exact ready_settle (.inside hh ht)

def Expr.definedName? : Expr → Option String
  | .define name _ _ _ => some name
  | _ => none

def Program.definedNames (p : Program) : List String := p.filterMap Expr.definedName?

def Program.TopDefinitions (p : Program) : Prop :=
  ∀ e ∈ p, ∀ c ∈ e.children, c.All Expr.NoDefinition

/-- The vocabulary knows the words by their signatures, and the operators have words. -/
structure Registry.Known (words : Registry) (v : Vocabulary) : Prop where
  signature : ∀ name, v.get? name = (words.get? name).map Word.signature
  operator : ∀ op : Operator, ∃ word, words.get? op.word = some word ∧ word.takes 2 = true

namespace Registry

variable {words : Registry} {v : Vocabulary}

theorem Known.core : Registry.core.Known { known := Registry.core.signatures } := by
  refine ⟨fun name => ?_, fun op => ?_⟩
  · simp [Vocabulary.get?, Registry.signatures]
  · cases op <;> exact ⟨_, rfl, rfl⟩

theorem Known.define (h : words.Known v) {name : String} (hn : words.get? name = none)
    (params : List String) (body : List Expr) :
    Registry.Known (words.insert name (.defined params body)) (v.define name params) := by
  refine ⟨fun other => ?_, fun op => ?_⟩
  · rw [Vocabulary.get?_define, Table.get?_insert]
    split
    · rfl
    · exact h.signature other
  · obtain ⟨word, hw, ht⟩ := h.operator op
    refine ⟨word, ?_, ht⟩
    rw [Table.get?_insert_of_ne _ _ (by rintro rfl; simp [hn] at hw), hw]

theorem Known.takes (h : words.Known v) {grouped : Bool} {name : String} {n : Nat}
    (ha : v.admits grouped name n = true) :
    ∃ word, words.get? name = some word ∧ word.takes n = true := by
  obtain ⟨s, hs, ha⟩ := Vocabulary.admits_iff.1 ha
  obtain ⟨word, hw, rfl⟩ := Option.map_eq_some_iff.1 ((h.signature name).symm.trans hs)
  refine ⟨word, hw, ?_⟩
  simp only [Word.takes, Bool.or_eq_true, beq_iff_eq]
  rcases ha with ha | ⟨-, ha⟩
  · exact .inr ha.symm
  · exact .inl ha

theorem serves_node {e : Expr} (hd : e.All Expr.NoDefinition)
    (ha : e.Applies → ∃ word, words.get? e.callee = some word ∧
      word.takes e.operands.length = true)
    (hc : ∀ c ∈ e.children, c.All words.Serves) : e.All words.Serves :=
  Expr.all_iff.2 ⟨⟨(Expr.all_iff.1 hd).1, ha⟩, hc⟩

mutual
theorem Known.serves (h : words.Known v) {grouped : Bool} {v' : Vocabulary} :
    ∀ e : Expr, e.All Expr.NoDefinition → e.walk v grouped = some v' →
      v' = v ∧ e.All words.Serves
  | .nil, hd, hw | .number _ _, hd, hw | .word _ _, hd, hw | .var _ _, hd, hw => by
    cases hw
    exact ⟨rfl, serves_node hd (fun ha => ha.elim) (by simp [Expr.children])⟩
  | .list items line, hd, hw => by
    obtain ⟨rfl, hs⟩ := Known.serves_list h items (fun c hc => hd.child hc) hw
    exact ⟨rfl, serves_node hd (fun ha => ha.elim) hs⟩
  | .define name params body line, hd, hw => absurd rfl ((Expr.all_iff.1 hd).1 _ _ _ _)
  | .call name args line, hd, hw => by
    simp only [Expr.walk, Option.ite_none_right_eq_some] at hw
    obtain ⟨ha, hw⟩ := hw
    obtain ⟨rfl, hs⟩ := Known.serves_list h args (fun c hc => hd.child hc) hw
    exact ⟨rfl, serves_node hd (fun _ => h.takes ha) hs⟩
  | .binary op left right line, hd, hw => by
    obtain ⟨v₁, hl, hr⟩ := Option.bind_eq_some_iff.1 hw
    obtain ⟨he, hl⟩ := Known.serves h left (hd.child (by simp [Expr.children])) hl
    rw [he] at hr
    obtain ⟨he, hr⟩ := Known.serves h right (hd.child (by simp [Expr.children])) hr
    exact ⟨he, serves_node hd (fun _ => h.operator op) (by simp [Expr.children, hl, hr])⟩
  | .group inner line, hd, hw => by
    obtain ⟨rfl, hi⟩ := Known.serves h inner (hd.child (by simp [Expr.children])) hw
    exact ⟨rfl, serves_node hd (fun ha => ha.elim) (by simp [Expr.children, hi])⟩
theorem Known.serves_list (h : words.Known v) {v' : Vocabulary} :
    ∀ es : List Expr, (∀ e ∈ es, e.All Expr.NoDefinition) → Expr.walkList v es = some v' →
      v' = v ∧ ∀ e ∈ es, e.All words.Serves
  | [], hd, hw => by
    cases hw
    exact ⟨rfl, by simp⟩
  | e :: es, hd, hw => by
    obtain ⟨hd, hds⟩ := List.forall_mem_cons.1 hd
    obtain ⟨v₁, hv, hs⟩ := Option.bind_eq_some_iff.1 hw
    obtain ⟨hv, he⟩ := Known.serves h e hd hv
    rw [hv] at hs
    obtain ⟨hv, hs⟩ := Known.serves_list h es hds hs
    exact ⟨hv, List.forall_mem_cons.2 ⟨he, hs⟩⟩
end

theorem Known.runs {v' : Vocabulary} {p : Program} (h : words.Known v)
    (hw : Expr.walkList v p = some v') (ht : p.TopDefinitions)
    (hd : p.definedNames.Nodup) (hn : ∀ name ∈ p.definedNames, words.get? name = none) :
    words.Runs p := by
  induction p generalizing words v with
  | nil => exact .nil
  | cons e es ih =>
    obtain ⟨hc, hts⟩ := List.forall_mem_cons.1 ht
    obtain ⟨v₁, he, hs⟩ := Option.bind_eq_some_iff.1 hw
    match e with
    | .define name params body line =>
      have hnames : Program.definedNames (.define name params body line :: es) =
        name :: Program.definedNames es := rfl
      rw [hnames, List.nodup_cons] at hd
      rw [hnames, List.forall_mem_cons] at hn
      have hk := h.define hn.1 params body
      obtain ⟨rfl, hb⟩ := hk.serves_list body hc he
      refine .define hn.1 hb (ih hk hs hts hd.2 fun other ho => ?_)
      rw [Table.get?_insert_of_ne _ _ (by rintro rfl; exact hd.1 ho)]
      exact hn.2 other ho
    | .nil | .number _ _ | .word _ _ | .var _ _ | .list _ _ | .call _ _ _ | .binary _ _ _ _
    | .group _ _ =>
      have ha : Expr.All Expr.NoDefinition _ :=
        Expr.all_iff.2 ⟨by simp [Expr.NoDefinition], hc⟩
      obtain ⟨rfl, hb⟩ := h.serves _ ha he
      exact .expr hb (ih h hs hts hd hn)

end Registry

namespace Machine

theorem served_pending {w : World} {p : Pending} (h : Served w (.waiting p)) :
    ∃ args scope word, p.resume = .apply args scope ∧
      w.words.get? p.owner.callee = some word ∧ word.takes args.length = true := by
  cases h with
  | stop hk ht =>
    cases hk with
    | @waiting call args scope stack hw hc hs =>
      obtain ⟨word, hword, htakes⟩ := accepts_of_collects hc
      exact ⟨args, scope, word, rfl, hword, htakes⟩

theorem served_errored {w : World} {f : Fault} (h : Served w (.failed f)) : f.Innocent := by
  cases h with
  | stop hk ht =>
    cases hk with
    | unbound hw hv => trivial
  | failed hf => exact hf

theorem served_advance {m : Machine} (hw : m.world.words = Registry.core)
    (hs : m.world.scopes = Scopes.single) {ts : List Token} {p : Program.Reading}
    (hp : Program.read { known := m.world.words.signatures } ts = .ok p)
    (ht : p.program.TopDefinitions) (hd : p.program.definedNames.Nodup)
    (hn : ∀ k : CoreWord, k.name ∉ p.program.definedNames) (n : Nat) :
    ((m.start p.program).advance n).StopsWith fun w o => w.Plain ∧ Served w o := by
  have hplain : m.world.Plain := by
    intro name word h
    rw [hw] at h
    exact World.Plain.core name word h
  have hall : m.world.All m.world.words.Serves := .fresh hw hs
  have hruns : m.world.words.Runs p.program := by
    rw [hw] at hp ⊢
    refine Registry.Known.core.runs (Program.walk_read hp) ht hd fun name hname => ?_
    by_contra h
    obtain ⟨word, h⟩ := Option.ne_none_iff_exists'.1 h
    obtain ⟨k, -, rfl⟩ := Registry.get?_core h
    exact hn k hname
  refine advance_keeps (fun w p h => ⟨h.1.proceed p, served_proceed h.1 h.2⟩) n ?_
  exact ⟨none, 0, _, _, ⟨hplain.settle _ _, ready_settle (.program hall hruns)⟩, rfl⟩

/-- A program is read with the words of a fresh machine, its definitions stand at the top, have
different names and leave the core words alone. Then, after any number of steps, a word that waits
exists and takes the arguments it gets, in the exact number unless it is variadic, and a fault is
neither one of grammar nor one of the number of arguments. -/
theorem applied_words_take_their_arguments (m : Machine) (hw : m.world.words = Registry.core)
    (hs : m.world.scopes = Scopes.single) (kw : Keywords) (source : String) (p : Program.Reading)
    (hp : Program.read { known := m.world.words.signatures } (Token.tokenize kw source) = .ok p)
    (ht : p.program.TopDefinitions) (hd : p.program.definedNames.Nodup)
    (hn : ∀ k : CoreWord, k.name ∉ p.program.definedNames) (n : Nat) :
    (∀ q, ((m.start p.program).advance n).session = .pending q →
      ∃ args scope word, q.resume = .apply args scope ∧
        ((m.start p.program).advance n).world.words.get? q.owner.callee = some word ∧
        word.takes args.length = true ∧
        ∀ k, word = .core k → k.isVariadic = false → args.length = k.arity) ∧
    ∀ f, ((m.start p.program).advance n).session = .errored f →
      (∀ cause token, f ≠ .grammar cause token) ∧
      ∀ name expected got site, f ≠ .run (.expectsArguments name expected got) site := by
  obtain ⟨current, steps, w, o, ⟨-, ho⟩, he⟩ := served_advance hw hs hp ht hd hn n
  rw [he]
  refine ⟨fun q hq => ?_, fun f hf => ?_⟩
  · cases o with
    | waiting q' =>
      cases hq
      obtain ⟨args, scope, word, hr, hword, htakes⟩ := served_pending ho
      refine ⟨args, scope, word, hr, hword, htakes, ?_⟩
      rintro k rfl hk
      simpa [Word.takes, Word.signature, Signature.isVariadic, Signature.arity, hk] using htakes
    | done v => cases hq
    | failed f => cases hq
  · cases o with
    | waiting q => cases hf
    | done v => cases hf
    | failed f' =>
      cases hf
      have hv := served_errored ho
      refine ⟨?_, ?_⟩
      · rintro cause token rfl
        exact hv
      · rintro name expected got site rfl
        exact hv

def hopSource : String := "to hop\n print (sum 1 2 3)\n repeat 2 [print list 4 5]\nend\nhop"

def hopPrint : Expr := .call "print" [.call "list" [.number 4 2, .number 5 2] 2] 2

def hopProgram : Program :=
  [.define "hop" []
    [.call "print" [.group (.call "sum" [.number 1 1, .number 2 1, .number 3 1] 1) 1] 1,
     .call "repeat" [.number 2 2, .list [hopPrint] 2] 2] 0,
   .call "hop" [] 4]

theorem topDefinitions_hop : hopProgram.TopDefinitions := by
  simp [Program.TopDefinitions, hopProgram, hopPrint, Expr.children, Expr.NoDefinition,
    Expr.all_iff (e := .number _ _), Expr.all_iff (e := .list _ _),
    Expr.all_iff (e := .call _ _ _), Expr.all_iff (e := .group _ _)]

theorem applied_words_take_their_arguments_hop :
    ∃ p, Program.read { known := Registry.core.signatures }
        (Token.tokenize .standard hopSource) = .ok p ∧
      p.program.TopDefinitions ∧ p.program.definedNames = ["hop"] ∧
      ∃ q args scope word,
        ((({} : Machine).start p.program).advance 5).session = .pending q ∧
        q.owner = hopPrint ∧ q.resume = .apply args scope ∧
        ((({} : Machine).start p.program).advance 5).world.words.get? "print" = some word ∧
        word.takes args.length = true := by
  have hp : Program.read { known := Registry.core.signatures }
      (Token.tokenize .standard hopSource) =
        .ok ⟨hopProgram, Registry.core.signatures, ⟨[("hop", .defined [])]⟩⟩ := by
    decide +kernel
  have hd : hopProgram.definedNames.Nodup := by decide
  have hn : ∀ k : CoreWord, k.name ∉ hopProgram.definedNames := by
    intro k
    cases k <;> decide
  have hq : ((({} : Machine).start hopProgram).advance 5).session =
      .pending ⟨hopPrint, .apply [.list [.number 4 2, .number 5 2] 2] 1,
        [.loop 1 [hopPrint] 1]⟩ := by
    decide +kernel
  obtain ⟨args, scope, word, hr, hw, ht, -⟩ :=
    (applied_words_take_their_arguments {} rfl rfl .standard hopSource _ hp
      topDefinitions_hop hd hn 5).1 _ hq
  exact ⟨_, hp, topDefinitions_hop, rfl, _, args, scope, word, hq, rfl, hr, hw, ht⟩

end Machine

end LogoLang
