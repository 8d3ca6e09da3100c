import LogoLang.Expr.Printer
import LogoLang.Expr.Regroup

/-!
Lines do not matter to what an expression says. They can be changed throughout a tree; two trees are
alike just when they become equal by setting all lines to zero. Main statements: regrouping and the
printed text go along with any change of lines.
-/

set_option autoImplicit false

namespace LogoLang.Expr

mutual
def mapLines (f : Nat → Nat) : Expr → Expr
  | .nil => .nil
  | .number n line => .number n (f line)
  | .word text line => .word text (f line)
  | .var name line => .var name (f line)
  | .list items line => .list (mapLinesList f items) (f line)
  | .define name params body line => .define name params (mapLinesList f body) (f line)
  | .call name args line => .call name (mapLinesList f args) (f line)
  | .binary op left right line => .binary op (mapLines f left) (mapLines f right) (f line)
  | .group inner line => .group (mapLines f inner) (f line)
def mapLinesList (f : Nat → Nat) : List Expr → List Expr
  | [] => []
  | e :: es => mapLines f e :: mapLinesList f es
end

theorem mapLinesList_eq_map (f : Nat → Nat) (es : List Expr) :
    mapLinesList f es = es.map (mapLines f) := by
  induction es with
  | nil => rfl
  | cons e es ih => simp [mapLinesList, ih]

def unlined (e : Expr) : Expr := e.mapLines fun _ => 0

theorem unlined_list (items : List Expr) (line : Nat) :
    (Expr.list items line).unlined = .list (items.map unlined) 0 := by
  simp only [unlined, mapLines, mapLinesList_eq_map]
  rfl

theorem unlined_define (name : String) (params : List String) (body : List Expr) (line : Nat) :
    (Expr.define name params body line).unlined = .define name params (body.map unlined) 0 := by
  simp only [unlined, mapLines, mapLinesList_eq_map]
  rfl

theorem unlined_call (name : String) (args : List Expr) (line : Nat) :
    (Expr.call name args line).unlined = .call name (args.map unlined) 0 := by
  simp only [unlined, mapLines, mapLinesList_eq_map]
  rfl

theorem unlined_binary (op : Operator) (left right : Expr) (line : Nat) :
    (Expr.binary op left right line).unlined = .binary op left.unlined right.unlined 0 := rfl

theorem unlined_group (inner : Expr) (line : Nat) :
    (Expr.group inner line).unlined = .group inner.unlined 0 := rfl

mutual
theorem alike_iff : ∀ a b : Expr, alike a b = true ↔ a.unlined = b.unlined
  | .nil, b => by cases b <;> simp [alike, agree, unlined, mapLines]
  | .number _ _, b => by cases b <;> simp [alike, agree, unlined, mapLines]
  | .word _ _, b => by cases b <;> simp [alike, agree, unlined, mapLines]
  | .var _ _, b => by cases b <;> simp [alike, agree, unlined, mapLines]
  | .list xs _, b => by
    cases b with
    | list ys _ =>
      simp only [alike, agree, unlined, mapLines, Bool.and_true, Expr.list.injEq, and_true]
      exact alikeList_iff_mapLinesList xs ys
    | _ => simp [alike, agree, unlined, mapLines]
  | .define _ _ xs _, b => by
    cases b with
    | define _ _ ys _ =>
      simp only [alike, agree, unlined, mapLines, Bool.and_true, Bool.and_eq_true,
        decide_eq_true_eq, Expr.define.injEq, and_true, and_assoc]
      exact and_congr Iff.rfl (and_congr Iff.rfl (alikeList_iff_mapLinesList xs ys))
    | _ => simp [alike, agree, unlined, mapLines]
  | .call _ xs _, b => by
    cases b with
    | call _ ys _ =>
      simp only [alike, agree, unlined, mapLines, Bool.and_true, Bool.and_eq_true,
        decide_eq_true_eq, Expr.call.injEq, and_true]
      exact and_congr Iff.rfl (alikeList_iff_mapLinesList xs ys)
    | _ => simp [alike, agree, unlined, mapLines]
  | .binary _ l r _, b => by
    cases b with
    | binary _ l' r' _ =>
      simp only [alike, agree, unlined, mapLines, Bool.and_true, Bool.and_eq_true,
        decide_eq_true_eq, Expr.binary.injEq, and_true, and_assoc]
      exact and_congr Iff.rfl (and_congr (alike_iff l l') (alike_iff r r'))
    | _ => simp [alike, agree, unlined, mapLines]
  | .group a _, b => by
    cases b with
    | group a' _ =>
      simp only [alike, agree, unlined, mapLines, Bool.and_true, Expr.group.injEq, and_true]
      exact alike_iff a a'
    | _ => simp [alike, agree, unlined, mapLines]
theorem alikeList_iff_mapLinesList : ∀ as bs : List Expr,
    alikeList as bs = true ↔ mapLinesList (fun _ => 0) as = mapLinesList (fun _ => 0) bs
  | [], bs => by cases bs <;> simp [alikeList, agreeList, mapLinesList]
  | a :: as, bs => by
    cases bs with
    | nil => simp [alikeList, agreeList, mapLinesList]
    | cons b bs =>
      simp only [alikeList, agreeList, mapLinesList, Bool.and_eq_true, List.cons.injEq]
      exact and_congr (alike_iff a b) (alikeList_iff_mapLinesList as bs)
end

theorem alikeList_iff (as bs : List Expr) :
    alikeList as bs = true ↔ as.map unlined = bs.map unlined := by
  rw [alikeList_iff_mapLinesList, mapLinesList_eq_map, mapLinesList_eq_map]
  rfl

@[simp] theorem priority?_mapLines (f : Nat → Nat) (e : Expr) :
    (e.mapLines f).priority? = e.priority? := by
  cases e <;> rfl

@[simp] theorem looseLeft_mapLines (f : Nat → Nat) (op : Operator) (e : Expr) :
    looseLeft op (e.mapLines f) = looseLeft op e := by
  simp [looseLeft]

@[simp] theorem looseRight_mapLines (f : Nat → Nat) (op : Operator) (e : Expr) :
    looseRight op (e.mapLines f) = looseRight op e := by
  simp [looseRight]

mutual
theorem render_mapLines (kw : Keywords) (f : Nat → Nat) : ∀ (last : Bool) (e : Expr),
    render kw last (e.mapLines f) = render kw last e
  | _, .nil => rfl
  | _, .number _ _ => rfl
  | _, .word _ _ => rfl
  | _, .var _ _ => rfl
  | _, .list items _ => by simp [mapLines, render, renderItems_mapLines kw f items]
  | _, .define _ _ body _ => by simp [mapLines, render, renderBody_mapLines kw f body]
  | _, .call _ args _ => by
    have he : (mapLinesList f args).isEmpty = args.isEmpty := by cases args <;> rfl
    simp [mapLines, render, renderArgs_mapLines kw f args, he]
  | last, .binary op left right _ => by
    simp only [mapLines, render, looseLeft_mapLines, looseRight_mapLines,
      render_mapLines kw f true left, render_mapLines kw f false left,
      render_mapLines kw f true right, render_mapLines kw f last right]
  | _, .group inner _ => by simp [mapLines, render, render_mapLines kw f true inner]
theorem renderItems_mapLines (kw : Keywords) (f : Nat → Nat) : ∀ es : List Expr,
    renderItems kw (mapLinesList f es) = renderItems kw es
  | [] => rfl
  | [e] => by simp [mapLinesList, renderItems, render_mapLines kw f true e]
  | e :: e' :: es => by
    have h := renderItems_mapLines kw f (e' :: es)
    simp only [mapLinesList] at h
    simp only [mapLinesList, renderItems, render_mapLines kw f true e, h]
theorem renderArgs_mapLines (kw : Keywords) (f : Nat → Nat) : ∀ es : List Expr,
    renderArgs kw (mapLinesList f es) = renderArgs kw es
  | [] => rfl
  | e :: es => by
    simp [mapLinesList, renderArgs, render_mapLines kw f true e, renderArgs_mapLines kw f es]
theorem renderBody_mapLines (kw : Keywords) (f : Nat → Nat) : ∀ es : List Expr,
    renderBody kw (mapLinesList f es) = renderBody kw es
  | [] => rfl
  | e :: es => by
    simp [mapLinesList, renderBody, render_mapLines kw f true e, renderBody_mapLines kw f es]
end

theorem text_unlined (kw : Keywords) (e : Expr) : e.unlined.text kw = e.text kw :=
  render_mapLines kw _ true e

theorem programText_eq_of_alikeList (kw : Keywords) {p q : Program} (h : alikeList p q = true) :
    p.text kw = q.text kw := by
  have ht : ∀ es : Program, es.text kw = Program.text kw (es.map unlined) := by
    intro es
    simp only [Program.text, List.map_map, Function.comp_def, text_unlined]
  rw [ht p, ht q, (alikeList_iff p q).mp h]

theorem alikeList_eq_zip (as bs : List Expr) :
    alikeList as bs =
      (decide (as.length = bs.length) && (as.zip bs).all fun x => alike x.1 x.2) := by
  induction as generalizing bs with
  | nil => cases bs <;> simp [alikeList, agreeList]
  | cons a as ih =>
    cases bs with
    | nil => simp [alikeList, agreeList]
    | cons b bs =>
      have h : alikeList (a :: as) (b :: bs) = (alike a b && alikeList as bs) := rfl
      simp [h, ih, Bool.and_left_comm]

theorem equivalence_alike : Equivalence fun a b : Expr => alike a b = true := by
  simp only [alike_iff]
  exact ⟨fun _ => rfl, Eq.symm, Eq.trans⟩

theorem equivalence_alikeList : Equivalence fun as bs : List Expr => alikeList as bs = true := by
  simp only [alikeList_iff]
  exact ⟨fun _ => rfl, Eq.symm, Eq.trans⟩

/-- Trees are alike just when they are equal but for the lines, and so are sequences of trees, which
must be of one length for this. Both are equivalence relations, and programs that are alike have the
same text. -/
theorem alike_is_equality_but_for_lines :
    (∀ a b : Expr, alike a b = true ↔ a.unlined = b.unlined) ∧
    (∀ as bs : List Expr,
      alikeList as bs =
        (decide (as.length = bs.length) && (as.zip bs).all fun x => alike x.1 x.2) ∧
      (alikeList as bs = true ↔ as.map unlined = bs.map unlined)) ∧
    Equivalence (fun a b : Expr => alike a b = true) ∧
    Equivalence (fun as bs : List Expr => alikeList as bs = true) ∧
    ∀ p q : Program, alikeList p q = true → ∀ kw, p.text kw = q.text kw :=
  ⟨alike_iff, fun as bs => ⟨alikeList_eq_zip as bs, alikeList_iff as bs⟩, equivalence_alike,
    equivalence_alikeList, fun _ _ h kw => programText_eq_of_alikeList kw h⟩

def Waiting.mapLines (f : Nat → Nat) (w : Waiting) : Waiting :=
  ⟨w.left.mapLines f, w.op, f w.line⟩

theorem closeTight_mapLines (f : Nat → Nat) (priority : Nat) (ws : List Waiting) (e : Expr) :
    closeTight priority (ws.map (Waiting.mapLines f)) (e.mapLines f) =
      ((closeTight priority ws e).1.map (Waiting.mapLines f),
        (closeTight priority ws e).2.mapLines f) := by
  induction ws generalizing e with
  | nil => rfl
  | cons w ws ih =>
    by_cases h : priority ≤ w.op.priority
    · simp only [List.map_cons, closeTight, h, Waiting.mapLines, if_true]
      exact ih (w.close e)
    · simp [closeTight, h, Waiting.mapLines]

theorem closeAll_mapLines (f : Nat → Nat) (ws : List Waiting) (e : Expr) :
    closeAll (ws.map (Waiting.mapLines f)) (e.mapLines f) = (closeAll ws e).mapLines f := by
  induction ws generalizing e with
  | nil => rfl
  | cons w ws ih => exact ih (w.close e)

mutual
theorem regroupAfter_mapLines (f : Nat → Nat) : ∀ (ws : List Waiting) (e : Expr),
    regroupAfter (ws.map (Waiting.mapLines f)) (e.mapLines f) = (regroupAfter ws e).mapLines f
  | ws, .nil => closeAll_mapLines f ws .nil
  | ws, .number n line => closeAll_mapLines f ws (.number n line)
  | ws, .word text line => closeAll_mapLines f ws (.word text line)
  | ws, .var name line => closeAll_mapLines f ws (.var name line)
  | ws, .list items line => by
    simp only [mapLines, regroupAfter, regroupList_mapLines f items]
    exact closeAll_mapLines f ws (.list (regroupList items) line)
  | ws, .define name params body line => by
    simp only [mapLines, regroupAfter, regroupList_mapLines f body]
    exact closeAll_mapLines f ws (.define name params (regroupList body) line)
  | ws, .call name args line => by
    simp only [mapLines, regroupAfter, regroupList_mapLines f args]
    exact closeAll_mapLines f ws (.call name (regroupList args) line)
  | ws, .binary op left right line => by
    have hl := regroupAfter_mapLines f [] left
    simp only [List.map_nil] at hl
    simp only [mapLines, regroupAfter, hl, closeTight_mapLines]
    exact regroupAfter_mapLines f (⟨_, op, line⟩ :: _) right
  | ws, .group inner line => by
    have hi := regroupAfter_mapLines f [] inner
    simp only [List.map_nil] at hi
    simp only [mapLines, regroupAfter, hi]
    exact closeAll_mapLines f ws (.group (regroupAfter [] inner) line)
theorem regroupList_mapLines (f : Nat → Nat) : ∀ es : List Expr,
    regroupList (mapLinesList f es) = mapLinesList f (regroupList es)
  | [] => rfl
  | e :: es => by
    have he := regroupAfter_mapLines f [] e
    simp only [List.map_nil] at he
    simp only [mapLinesList, regroupList, he, regroupList_mapLines f es]
end

theorem regroup_mapLines (f : Nat → Nat) (e : Expr) :
    (e.mapLines f).regroup = e.regroup.mapLines f :=
  regroupAfter_mapLines f [] e

theorem unlined_regroup {a b : Expr} (h : a.unlined = b.unlined) :
    a.regroup.unlined = b.regroup.unlined := by
  have he := congrArg regroup h
  simpa only [unlined, regroup_mapLines] using he

end LogoLang.Expr
