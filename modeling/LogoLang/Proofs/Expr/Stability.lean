import LogoLang.Proofs.Expr.Order

/-!
Regrouping twice. A tree as it is read has no operation for the left operand of another one. What
regrouping makes of its chains is grouped by how tightly the operators bind, though it has
operations to the left, and a grouped tree is found again in its right spine. Main statement: to
regroup such a tree a second time changes nothing.
-/

set_option autoImplicit false

namespace LogoLang.Expr

def LeansRight : Expr → Prop
  | .binary _ left _ _ => left.operator? = none
  | _ => True

def chainOperands (e : Expr) : List Expr := e.firstOperand :: e.links.map Link.operand

theorem chainOperands_of_operand {e : Expr} (h : e.operator? = none) : e.chainOperands = [e] := by
  rw [chainOperands, firstOperand_of_operand h, links_of_operand h]
  rfl

theorem chainOperands_binary (op : Operator) (left right : Expr) (line : Nat) :
    (Expr.binary op left right line).chainOperands = left.chainOperands ++ right.chainOperands := by
  simp [chainOperands, firstOperand, links]

theorem operator?_of_mem_chainOperands {e x : Expr} (h : x ∈ e.chainOperands) :
    x.operator? = none := by
  induction e using links.induct generalizing x with
  | case1 op left right line ihl ihr =>
    rw [chainOperands_binary] at h
    exact (List.mem_append.1 h).elim ihl ihr
  | case2 e hn =>
    have ho := operator?_of_ne_binary hn
    rw [chainOperands_of_operand ho] at h
    rwa [List.mem_singleton.1 h]

theorem operator?_firstOperand_links (e : Expr) :
    e.firstOperand.operator? = none ∧ ∀ l ∈ e.links, l.operand.operator? = none := by
  have ho : ∀ x ∈ e.chainOperands, x.operator? = none := fun x => operator?_of_mem_chainOperands
  simpa [chainOperands] using ho

theorem leaning_links {e : Expr} (h : e.All LeansRight) : leaning e.firstOperand e.links = e := by
  induction e using links.induct with
  | case1 op left right line _ ih =>
    have ho : left.operator? = none := (all_iff.1 h).1
    have hr : right.All LeansRight := h.child (by simp [children])
    simp [firstOperand, links, firstOperand_of_operand ho, links_of_operand ho, leaning, ih hr]
  | case2 e hn =>
    have ho := operator?_of_ne_binary hn
    rw [firstOperand_of_operand ho, links_of_operand ho, leaning]

/-- A grouped tree whose operands stay as they are is found again, at the end of a longer chain. -/
theorem regroupAfter_of_grouped {e : Expr} {ws : List Waiting} (hg : e.Grouped)
    (hx : ∀ x ∈ e.chainOperands, x.regroup = x)
    (hw : ∀ w ∈ ws.head?, ∀ q ∈ e.operator?, w.op.tier < q.tier) :
    regroupAfter ws e = closeAll ws e := by
  induction e using links.induct generalizing ws with
  | case1 op left right line ihl ihr =>
    obtain ⟨-, hr, hgl, hgr⟩ := hg
    rw [chainOperands_binary] at hx
    obtain ⟨hxl, hxr⟩ := List.forall_mem_append.1 hx
    have hleft : regroupAfter [] left = left := ihl hgl hxl (by simp)
    have hlt : ∀ w ∈ ws.head?, w.op.priority < op.priority := by
      intro w hm
      have := hw w hm op rfl
      simp only [Operator.priority_eq_tier]
      omega
    have hright : regroupAfter (⟨left, op, line⟩ :: ws) right =
        closeAll (⟨left, op, line⟩ :: ws) right := ihr hgr hxr (by simpa using hr)
    simp only [regroupAfter, hleft, closeTight_of_lt left hlt, hright]
    rfl
  | case2 e hn =>
    have ho := operator?_of_ne_binary hn
    rw [regroupAfter_operand ws ho, hx e (by rw [chainOperands_of_operand ho]; simp)]

theorem grouped_regroup {e : Expr} (h : e.All LeansRight) : e.regroup.Grouped := by
  obtain ⟨hf, hl⟩ := operator?_firstOperand_links e
  rw [← leaning_links h]
  exact grouped_regroupAfter [] hf hl (grouped_of_operand (operator?_regroup hf))

theorem chainOperands_regroup {e : Expr} (h : e.All LeansRight) :
    e.regroup.chainOperands = e.chainOperands.map regroup := by
  obtain ⟨hf, hl⟩ := operator?_firstOperand_links e
  have hf' := operator?_regroup hf
  obtain ⟨hfirst, hlinks⟩ := sequence_regroupAfter [] hf hl
  rw [leaning_links h] at hfirst hlinks
  have hfirst : e.regroup.firstOperand = e.firstOperand.regroup :=
    hfirst.trans (firstOperand_of_operand hf')
  have hlinks : e.regroup.links = e.links.map Link.regroup :=
    hlinks.trans (by simp [closeAll, links_of_operand hf'])
  simp [chainOperands, hfirst, hlinks, Link.regroup]

theorem regroup_regroup_of_operands {e : Expr} (h : e.All LeansRight)
    (hx : ∀ x ∈ e.chainOperands, x.regroup.regroup = x.regroup) :
    e.regroup.regroup = e.regroup := by
  refine regroupAfter_of_grouped (grouped_regroup h) ?_ (by simp)
  simpa [chainOperands_regroup h] using hx

theorem regroup_regroup_operand {e : Expr} (ho : e.operator? = none)
    (hc : ∀ c ∈ e.children, c.regroup.regroup = c.regroup) : e.regroup.regroup = e.regroup := by
  have hmap : (e.children.map regroup).map regroup = e.children.map regroup := by
    simpa using hc
  have hchildren : (e.withChildren (e.children.map regroup)).children = e.children.map regroup :=
    children_withChildren (.inr (by simp))
  rw [regroup_operand (operator?_regroup ho), regroup_operand ho, hchildren, hmap,
    withChildren_withChildren (by simp) (by simp)]

theorem regroup_regroup_of_mem_chainOperands {e : Expr} (h : e.All LeansRight) :
    ∀ x ∈ e.chainOperands, x.regroup.regroup = x.regroup := by
  induction e using childrenInduction with
  | node e ih =>
    cases ho : e.operator? with
    | none =>
      have hc : ∀ c ∈ e.children, c.regroup.regroup = c.regroup := fun c hc =>
        regroup_regroup_of_operands (h.child hc) (ih c hc (h.child hc))
      rw [chainOperands_of_operand ho]
      simpa using regroup_regroup_operand ho hc
    | some op =>
      obtain ⟨left, right, line, rfl⟩ := exists_binary ho
      rw [chainOperands_binary]
      exact List.forall_mem_append.2
        ⟨ih left (by simp [children]) (h.child (by simp [children])),
          ih right (by simp [children]) (h.child (by simp [children]))⟩

/-- If no operation in a tree, at whatever depth, has an operation for its left operand, regrouping
the tree a second time changes nothing. -/
theorem regroup_regroup (e : Expr) (h : e.All LeansRight) : e.regroup.regroup = e.regroup :=
  regroup_regroup_of_operands h (regroup_regroup_of_mem_chainOperands h)

def nestedChains : Expr :=
  .define "f" ["x"]
    [.binary .subtract (.number 1 1)
      (.binary .multiply
        (.group (.binary .divide (.number 8 2)
          (.binary .subtract (.number 4 2) (.number 2 3) 3) 2) 2)
        (.binary .equal
          (.list [.binary .add (.number 1 4) (.binary .add (.number 2 4) (.number 3 5) 5) 4] 4)
          (.call "g" [.binary .multiply (.number 2 6)
            (.binary .less (.number 3 6) (.var "x" 7) 7) 6] 6) 4) 2) 1] 0

theorem regroup_regroup_nested :
    nestedChains.All LeansRight ∧ nestedChains.regroup ≠ nestedChains ∧
      nestedChains.regroup.regroup = nestedChains.regroup := by
  have h : nestedChains.All LeansRight := by
    simp [nestedChains, children, LeansRight, operator?, all_iff (e := .define _ _ _ _),
      all_iff (e := .binary _ _ _ _), all_iff (e := .group _ _), all_iff (e := .list _ _),
      all_iff (e := .call _ _ _), all_iff (e := .number _ _), all_iff (e := .var _ _)]
  exact ⟨h, by decide, regroup_regroup nestedChains h⟩

/-- An operation in the place of a left operand is regrouped on its own the first time, and joins
the chain the second time. -/
example :
    let e : Expr := .binary .multiply (.number 1 0)
      (.binary .less (.binary .add (.number 2 0) (.number 3 0) 0) (.number 4 0) 0) 0
    e.regroup.regroup ≠ e.regroup := by decide

end LogoLang.Expr
