import LogoLang.Proofs.Expr.Grouping

/-!
A tree as the chain it is read from. Reading knows no priorities: each operator takes all that
follows it as its right operand. Main statement: regrouping undoes this for every tree that is
printed bare.
-/

set_option autoImplicit false

namespace LogoLang.Expr

mutual
/-- The tree with every operator leaning to the right, where `k` makes something of the last operand
of its own chain. -/
def chainThen (k : Expr → Expr) : Expr → Expr
  | .binary op left right line => chainThen (fun x => .binary op x (chainThen k right) line) left
  | .list items line => k (.list (chainList items) line)
  | .define name params body line => k (.define name params (chainList body) line)
  | .call name args line => k (.call name (chainList args) line)
  | .group inner line => k (.group (chainThen id inner) line)
  | e => k e
def chainList : List Expr → List Expr
  | [] => []
  | e :: es => chainThen id e :: chainList es
end

def chain (e : Expr) : Expr := chainThen id e

theorem chainList_eq_map (es : List Expr) : chainList es = es.map chain := by
  induction es with
  | nil => rfl
  | cons e es ih => simp [chainList, chain, ih]

/-- Regrouping finds the tree in its chain, at the end of a longer chain and before an operator. -/
def Regroups (e : Expr) (ws : List Waiting) : Prop :=
  regroupAfter ws (chainThen id e) = closeAll ws e ∧
  ∀ (op : Operator) (rest : Expr) (line : Nat), looseLeft op e = false →
    regroupAfter ws (chainThen (fun x => .binary op x rest line) e) =
      regroupAfter (⟨(closeTight op.priority ws e).2, op, line⟩ :: (closeTight op.priority ws e).1)
        rest

theorem regroups_operand {e x : Expr} (hk : ∀ k, chainThen k e = k x)
    (hx : ∀ ws, regroupAfter ws x = closeAll ws e) (ws : List Waiting) : Regroups e ws := by
  refine ⟨(congrArg _ (hk id)).trans (hx ws), fun op rest line _ => ?_⟩
  have he : regroupAfter [] x = e := hx []
  simp only [hk, regroupAfter, he]

theorem priority_lt_of_looseRight {op : Operator} {e : Expr} (h : looseRight op e = false) {p : Nat}
    (hp : p ∈ e.priority?) : op.priority < p := by
  have he : e.priority? = some p := hp
  simpa [looseRight, he] using h

theorem priority_le_of_looseLeft {op : Operator} {e : Expr} (h : looseLeft op e = false) {p : Nat}
    (hp : p ∈ e.priority?) : op.priority ≤ p := by
  have he : e.priority? = some p := hp
  simpa [looseLeft, he] using h

theorem looseRight_of_lt {op : Operator} {e : Expr} (h : ∀ p ∈ e.priority?, op.priority < p) :
    looseRight op e = false := by
  cases he : e.priority? with
  | none => exact looseRight_of_priority?_eq_none he
  | some p => simpa [looseRight, he] using h p (by simp [he])

theorem regroups_binary {op : Operator} {left right : Expr} {line : Nat} {ws : List Waiting}
    (hl : looseLeft op left = false) (hr : looseRight op right = false)
    (hw : ∀ w ∈ ws.head?, w.op.priority < op.priority) (hleft : Regroups left ws)
    (hright : Regroups right (⟨left, op, line⟩ :: ws)) :
    Regroups (.binary op left right line) ws := by
  have hc := closeTight_of_lt left hw
  refine ⟨?_, fun op' rest line' hop => ?_⟩
  · have h := hleft.2 op (chainThen id right) line hl
    rw [hc] at h
    rw [chainThen, h, hright.1]
    rfl
  · have hle : op'.priority ≤ op.priority := priority_le_of_looseLeft hop rfl
    have hop' : looseLeft op' right = false := by
      apply looseLeft_eq_false
      intro p hp
      have := priority_lt_of_looseRight hr hp
      omega
    have h := hleft.2 op (chainThen (fun x => .binary op' x rest line') right) line hl
    rw [hc] at h
    rw [chainThen, h, hright.2 op' rest line' hop', closeTight_of_le ws right hle]
    rfl

mutual
theorem regroups_chain : ∀ {last : Bool} (e : Expr) {ws : List Waiting}, Bare last e →
    (∀ w ∈ ws.head?, looseRight w.op e = false) → Regroups e ws
  | _, .nil, ws, _, _ => regroups_operand (fun _ => rfl) (fun _ => rfl) ws
  | _, .number _ _, ws, _, _ => regroups_operand (fun _ => rfl) (fun _ => rfl) ws
  | _, .word _ _, ws, _, _ => regroups_operand (fun _ => rfl) (fun _ => rfl) ws
  | _, .var _ _, ws, _, _ => regroups_operand (fun _ => rfl) (fun _ => rfl) ws
  | _, .list items _, ws, hb, _ => by
    have hi := regroupList_chainList items hb
    exact regroups_operand (fun _ => rfl) (fun ws => by simp only [regroupAfter, hi]) ws
  | _, .define _ _ body _, ws, hb, _ => by
    have hi := regroupList_chainList body hb
    exact regroups_operand (fun _ => rfl) (fun ws => by simp only [regroupAfter, hi]) ws
  | _, .call _ args _, ws, hb, _ => by
    have hi := regroupList_chainList args hb.2
    exact regroups_operand (fun _ => rfl) (fun ws => by simp only [regroupAfter, hi]) ws
  | _, .group inner _, ws, hb, _ => by
    have hi : regroupAfter [] (chainThen id inner) = inner :=
      (regroups_chain inner hb (by simp)).1
    exact regroups_operand (fun _ => rfl) (fun ws => by simp only [regroupAfter, hi]) ws
  | _, .binary op left right line, ws, hb, hw => by
    obtain ⟨hl, hr, hbl, hbr⟩ := hb
    have hlt : ∀ w ∈ ws.head?, w.op.priority < op.priority :=
      fun w hm => priority_lt_of_looseRight (hw w hm) rfl
    refine regroups_binary hl hr hlt (regroups_chain left hbl ?_) (regroups_chain right hbr ?_)
    · intro w hm
      apply looseRight_of_lt
      intro p hp
      have h₁ := hlt w hm
      have h₂ := priority_le_of_looseLeft hl hp
      omega
    · simpa using hr
theorem regroupList_chainList : ∀ es : List Expr, BareList es → regroupList (chainList es) = es
  | [], _ => rfl
  | e :: es, hb => by
    have he : regroupAfter [] (chainThen id e) = e := (regroups_chain e hb.1 (by simp)).1
    simp only [chainList, regroupList, he, regroupList_chainList es hb.2]
end

theorem regroup_chain {last : Bool} {e : Expr} (h : Bare last e) : e.chain.regroup = e :=
  (regroups_chain e h (by simp)).1

end LogoLang.Expr
