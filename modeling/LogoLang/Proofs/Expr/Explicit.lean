import LogoLang.Proofs.Expr.Lexemes

/-!
Trees built by hand. The printer adds parentheses and writes negative numbers as differences, so the
text of a tree may say another tree. Main statements: every tree has the text of one that is printed
bare, with a group for each pair of parentheses; and the two are the same once groups are taken away
and negative numbers are differences in both.
-/

set_option autoImplicit false

namespace LogoLang.Expr

/-- A negative number as a difference of numbers that are not. -/
def difference (n : Int64) (line : Nat) : Expr :=
  if n = Int64.minValue then
    .binary .subtract (.binary .subtract (.number 0 line) (.number Int64.maxValue line) line)
      (.number 1 line) line
  else .binary .subtract (.number 0 line) (.number (-n) line) line

mutual
/-- The tree without groups and without negative numbers. -/
def plain : Expr → Expr
  | .number n line => if 0 ≤ n.toInt then .number n line else difference n line
  | .list items line => .list (plainList items) line
  | .define name params body line => .define name params (plainList body) line
  | .call name args line => .call name (plainList args) line
  | .binary op left right line => .binary op (plain left) (plain right) line
  | .group inner _ => plain inner
  | e => e
def plainList : List Expr → List Expr
  | [] => []
  | e :: es => plain e :: plainList es
end

mutual
/-- The tree that the text of an expression says: the parentheses that are written are groups. -/
def explicit (last : Bool) : Expr → Expr
  | .number n line => if 0 ≤ n.toInt then .number n line else .group (difference n line) line
  | .list items line => .list (explicitList items) line
  | .define name params body line => .define name params (explicitList body) line
  | .call name args line =>
    if args.isEmpty || last then .call name (explicitList args) line
    else .group (.call name (explicitList args) line) line
  | .binary op left right line =>
    .binary op
      (if left.looseLeft op then .group (explicit true left) line else explicit false left)
      (if right.looseRight op then .group (explicit true right) line else explicit last right) line
  | .group inner line => .group (explicit true inner) line
  | e => e
def explicitList : List Expr → List Expr
  | [] => []
  | e :: es => explicit true e :: explicitList es
end

theorem explicitList_eq_map (es : List Expr) : explicitList es = es.map (explicit true) := by
  induction es with
  | nil => rfl
  | cons e es ih => simp [explicitList, ih]

@[simp] theorem isEmpty_explicitList (es : List Expr) :
    (explicitList es).isEmpty = es.isEmpty := by
  simp [explicitList_eq_map]

@[simp] theorem priority?_explicit (last : Bool) (e : Expr) :
    (e.explicit last).priority? = e.priority? := by
  cases e with
  | number n line =>
    simp only [explicit]
    split <;> rfl
  | call name args line =>
    simp only [explicit]
    split <;> rfl
  | _ => rfl

@[simp] theorem looseLeft_explicit (op : Operator) (last : Bool) (e : Expr) :
    looseLeft op (e.explicit last) = looseLeft op e := by
  simp only [looseLeft, priority?_explicit]

@[simp] theorem looseRight_explicit (op : Operator) (last : Bool) (e : Expr) :
    looseRight op (e.explicit last) = looseRight op e := by
  simp only [looseRight, priority?_explicit]

theorem looseLeft_group (op : Operator) (e : Expr) (line : Nat) :
    looseLeft op (.group e line) = false := rfl

theorem looseRight_group (op : Operator) (e : Expr) (line : Nat) :
    looseRight op (.group e line) = false := rfl

theorem toInt_neg {n : Int64} (hn : n ≠ Int64.minValue) : (-n).toInt = -n.toInt := by
  have hle := n.le_toInt
  have hlt := n.toInt_lt
  have hmin : n.toInt ≠ -2 ^ 63 := fun h => hn (Int64.toInt_inj.1 h)
  rw [Int64.toInt_neg]
  apply Int.bmod_eq_of_le <;> omega

theorem toInt_neg_nonneg {n : Int64} (h : ¬ 0 ≤ n.toInt) (hn : n ≠ Int64.minValue) :
    0 ≤ (-n).toInt := by
  rw [toInt_neg hn]
  omega

theorem numberText_of_nonneg {n : Int64} (h : 0 ≤ n.toInt) :
    numberText n = Text.intText n.toInt := if_pos h

theorem plain_of_nonneg {n : Int64} (h : 0 ≤ n.toInt) (line : Nat) :
    (Expr.number n line).plain = .number n line := if_pos h

theorem plain_binary (op : Operator) (left right : Expr) (line : Nat) :
    (Expr.binary op left right line).plain = .binary op left.plain right.plain line := rfl

theorem render_subtract_number (kw : Keywords) (last : Bool) (left : Expr) {n : Int64}
    (h : 0 ≤ n.toInt) (hl : looseLeft .subtract left = false) (line : Nat) :
    render kw last (.binary .subtract left (.number n line) line) =
      render kw false left ++ " - " ++ Text.intText n.toInt := by
  have hs : " " ++ Operator.subtract.symbol ++ " " = " - " := by decide
  have hr : looseRight .subtract (.number n line) = false := rfl
  rw [← hs]
  simp [render, hl, hr, numberText_of_nonneg h, String.append_assoc]

theorem render_difference (kw : Keywords) {n : Int64} (line : Nat) (h : ¬ 0 ≤ n.toInt) :
    parens (render kw true (difference n line)) = numberText n := by
  have h0 : render kw false (.number 0 line) = "0" := rfl
  by_cases hn : n = Int64.minValue
  · subst hn
    have h1 : Text.intText (1 : Int64).toInt = "1" := by decide
    simp only [difference, if_true, numberText, h, if_false]
    rw [render_subtract_number kw true _ (by decide) rfl,
      render_subtract_number kw false _ (by decide) rfl, h0, h1]
    simp [String.append_assoc]
  · simp only [difference, numberText, h, hn, if_false]
    rw [render_subtract_number kw true _ (toInt_neg_nonneg h hn) rfl, h0, toInt_neg hn]
    rfl

theorem bare_difference (last : Bool) {n : Int64} (line : Nat) (h : ¬ 0 ≤ n.toInt) :
    Bare last (difference n line) := by
  have h0 : 0 ≤ (0 : Int64).toInt := by decide
  by_cases hn : n = Int64.minValue
  · have h1 : 0 ≤ (1 : Int64).toInt := by decide
    have hm : 0 ≤ Int64.maxValue.toInt := by decide
    simp only [difference, hn, if_true]
    exact ⟨rfl, rfl, ⟨rfl, rfl, h0, hm⟩, h1⟩
  · simp only [difference, hn, if_false]
    exact ⟨rfl, rfl, h0, toInt_neg_nonneg h hn⟩

theorem plain_difference {n : Int64} (line : Nat) (h : ¬ 0 ≤ n.toInt) :
    (difference n line).plain = difference n line := by
  have h0 := plain_of_nonneg (n := 0) (by decide) line
  by_cases hn : n = Int64.minValue
  · have h1 := plain_of_nonneg (n := 1) (by decide) line
    have hm := plain_of_nonneg (n := Int64.maxValue) (by decide) line
    simp only [difference, hn, if_true, plain_binary, h0, h1, hm]
  · simp only [difference, hn, if_false, plain_binary, h0, plain_of_nonneg (toInt_neg_nonneg h hn)]

mutual
theorem bare_explicit : ∀ (last : Bool) (e : Expr), Bare last (e.explicit last)
  | _, .nil | _, .word _ _ | _, .var _ _ => trivial
  | last, .number n line => by
    simp only [explicit]
    split
    · assumption
    · exact bare_difference true line ‹_›
  | _, .list items _ => bareList_explicit items
  | _, .define _ _ body _ => bareList_explicit body
  | last, .call _ args _ => by
    have ha := bareList_explicit args
    simp only [explicit]
    split
    · rename_i hl
      exact ⟨by rw [isEmpty_explicitList, hl], ha⟩
    · exact ⟨by simp, ha⟩
  | last, .binary op left right line => by
    simp only [explicit, Bare]
    refine ⟨?_, ?_, ?_, ?_⟩
    · split
      · rfl
      · rename_i hl
        rw [looseLeft_explicit, Bool.eq_false_iff.2 hl]
    · split
      · rfl
      · rename_i hr
        rw [looseRight_explicit, Bool.eq_false_iff.2 hr]
    · split
      · exact bare_explicit true left
      · exact bare_explicit false left
    · split
      · exact bare_explicit true right
      · exact bare_explicit last right
  | _, .group inner _ => bare_explicit true inner
theorem bareList_explicit : ∀ es : List Expr, BareList (explicitList es)
  | [] => trivial
  | e :: es => ⟨bare_explicit true e, bareList_explicit es⟩
end

mutual
/-- The added groups are the parentheses that are written anyway. -/
theorem render_explicit (kw : Keywords) : ∀ (last : Bool) (e : Expr),
    render kw last (e.explicit last) = render kw last e
  | _, .nil | _, .word _ _ | _, .var _ _ => rfl
  | last, .number n line => by
    simp only [explicit]
    split
    · rfl
    · exact render_difference kw line ‹_›
  | _, .list items _ => by simp only [explicit, render, renderItems_explicit kw items]
  | _, .define _ _ body _ => by simp only [explicit, render, renderBody_explicit kw body]
  | last, .call _ args _ => by
    simp only [explicit]
    split
    · rename_i hl
      simp only [render, isEmpty_explicitList, hl, if_true, renderArgs_explicit kw args]
    · rename_i hl
      simp only [render, isEmpty_explicitList, hl, Bool.or_true, if_true, if_false,
        renderArgs_explicit kw args, Bool.false_eq_true]
  | last, .binary op left right line => by
    simp only [explicit, render]
    congr 1
    · congr 1
      split
      · simp only [looseLeft_group, Bool.false_eq_true, if_false, render,
          render_explicit kw true left]
      · rename_i hl
        simp only [looseLeft_explicit, hl, Bool.false_eq_true, if_false,
          render_explicit kw false left]
    · split
      · simp only [looseRight_group, Bool.false_eq_true, if_false, render,
          render_explicit kw true right]
      · rename_i hr
        simp only [looseRight_explicit, hr, Bool.false_eq_true, if_false,
          render_explicit kw last right]
  | _, .group inner _ => by simp only [explicit, render, render_explicit kw true inner]
theorem renderItems_explicit (kw : Keywords) : ∀ es : List Expr,
    renderItems kw (explicitList es) = renderItems kw es
  | [] => rfl
  | [e] => by simp only [explicitList, renderItems, render_explicit kw true e]
  | e :: d :: es => by
    have h := renderItems_explicit kw (d :: es)
    simp only [explicitList] at h
    simp only [explicitList, renderItems, render_explicit kw true e, h]
theorem renderArgs_explicit (kw : Keywords) : ∀ es : List Expr,
    renderArgs kw (explicitList es) = renderArgs kw es
  | [] => rfl
  | e :: es => by
    simp only [explicitList, renderArgs, render_explicit kw true e, renderArgs_explicit kw es]
theorem renderBody_explicit (kw : Keywords) : ∀ es : List Expr,
    renderBody kw (explicitList es) = renderBody kw es
  | [] => rfl
  | e :: es => by
    simp only [explicitList, renderBody, render_explicit kw true e, renderBody_explicit kw es]
end

theorem mapLines_difference (f : Nat → Nat) (n : Int64) (line : Nat) :
    (difference n line).mapLines f = difference n (f line) := by
  unfold difference
  split <;> rfl

mutual
theorem plain_mapLines (f : Nat → Nat) : ∀ e : Expr, (e.mapLines f).plain = e.plain.mapLines f
  | .nil | .word _ _ | .var _ _ => rfl
  | .number n line => by
    simp only [mapLines, plain]
    split
    · rfl
    · exact (mapLines_difference f n line).symm
  | .list items _ => by simp only [mapLines, plain, plainList_mapLines f items]
  | .define _ _ body _ => by simp only [mapLines, plain, plainList_mapLines f body]
  | .call _ args _ => by simp only [mapLines, plain, plainList_mapLines f args]
  | .binary _ left right _ => by
    simp only [mapLines, plain, plain_mapLines f left, plain_mapLines f right]
  | .group inner _ => plain_mapLines f inner
theorem plainList_mapLines (f : Nat → Nat) : ∀ es : List Expr,
    plainList (mapLinesList f es) = mapLinesList f (plainList es)
  | [] => rfl
  | e :: es => by
    simp only [mapLinesList, plainList, plain_mapLines f e, plainList_mapLines f es]
end

theorem alike_plain {a b : Expr} (h : alike a b = true) : alike a.plain b.plain = true := by
  rw [alike_iff] at h ⊢
  simp only [unlined, ← plain_mapLines] at h ⊢
  rw [h]

mutual
theorem plain_explicit : ∀ (last : Bool) (e : Expr), (e.explicit last).plain = e.plain
  | _, .nil | _, .word _ _ | _, .var _ _ => rfl
  | last, .number n line => by
    simp only [explicit]
    split
    · rfl
    · rename_i hn
      simp only [plain, plain_difference line hn, hn, if_false]
  | _, .list items _ => by simp only [explicit, plain, plainList_explicit items]
  | _, .define _ _ body _ => by simp only [explicit, plain, plainList_explicit body]
  | last, .call _ args _ => by
    simp only [explicit]
    split <;> simp only [plain, plainList_explicit args]
  | last, .binary op left right line => by
    simp only [explicit, plain]
    congr 1
    · split
      · exact plain_explicit true left
      · exact plain_explicit false left
    · split
      · exact plain_explicit true right
      · exact plain_explicit last right
  | _, .group inner _ => plain_explicit true inner
theorem plainList_explicit : ∀ es : List Expr, plainList (explicitList es) = plainList es
  | [] => rfl
  | e :: es => by simp only [explicitList, plainList, plain_explicit true e, plainList_explicit es]
end

end LogoLang.Expr
