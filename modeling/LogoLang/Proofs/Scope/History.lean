import LogoLang.Scope
import Mathlib.Data.Fin.Basic

/-!
Histories of a scope store. What can be done is to make a root, to make a child of a scope, to take
another handle on a scope, and to bind a name through a handle; each of them may come at any time,
with handles got at any time before. Main statement: after every history a name stands for what was
bound to it last in the nearest scope on the chain in which it was ever bound, and a further binding
changes nothing but the lookups that come to its scope before they find the name.
-/

set_option autoImplicit false

namespace LogoLang

namespace Scopes

def chain (s : Scopes) (h : Handle) : List Handle :=
  match s.parent? h with
  | none => [h]
  | some p => if p < h then h :: s.chain p else [h]
termination_by h

def Ordered (s : Scopes) : Prop := ∀ h p, s.parent? h = some p → p < h

/-- A search that goes from parent to parent until it comes to a binding or to a root. -/
inductive Finds (s : Scopes) (name : String) : Handle → Option Value → Prop where
  | here {h : Handle} {v : Value} (hv : s.own? h name = some v) : Finds s name h (some v)
  | root {h : Handle} (hn : s.own? h name = none) (hp : s.parent? h = none) : Finds s name h none
  | above {h p : Handle} {r : Option Value} (hn : s.own? h name = none)
    (hp : s.parent? h = some p) (hr : Finds s name p r) : Finds s name h r

section

variable {s t : Scopes} {h p : Handle}

theorem chain_root (hp : s.parent? h = none) : s.chain h = [h] := by
  rw [chain, hp]

theorem chain_child (hp : s.parent? h = some p) (hlt : p < h) : s.chain h = h :: s.chain p := by
  rw [chain, hp]
  simp only [hlt, if_true]

theorem chain_congr (hst : ∀ k, k ≤ h → s.parent? k = t.parent? k) : s.chain h = t.chain h := by
  fun_induction chain s h with
  | case1 h hp => rw [chain_root (hst h (Nat.le_refl h) ▸ hp)]
  | case2 h p hp hlt ih =>
    rw [chain_child (hst h (Nat.le_refl h) ▸ hp) hlt,
      ih fun k hk => hst k (Nat.le_trans hk (Nat.le_of_lt hlt))]
  | case3 h p hp hlt =>
    rw [chain, ← hst h (Nat.le_refl h), hp]
    simp only [hlt, if_false]

theorem chain_addRoot (hh : h < s.next) : s.addRoot.chain h = s.chain h := by
  refine chain_congr fun k hk => ?_
  rw [parent?_addRoot, if_neg (Nat.ne_of_lt (Nat.lt_of_le_of_lt hk hh))]

theorem chain_addChild (hh : h < s.next) : (s.addChild p).chain h = s.chain h := by
  refine chain_congr fun k hk => ?_
  rw [parent?_addChild, if_neg (Nat.ne_of_lt (Nat.lt_of_le_of_lt hk hh))]

theorem chain_define (name : String) (v : Value) : (s.define p name v).chain h = s.chain h :=
  chain_congr fun k _ => parent?_define s p k name v

theorem lookup_eq_findSome? (s : Scopes) (h : Handle) (name : String) :
    s.lookup h name = (s.chain h).findSome? fun k => s.own? k name := by
  fun_induction chain s h with
  | case1 h hp =>
    rw [lookup, hp]
    cases ho : s.own? h name <;> simp [ho]
  | case2 h p hp hlt ih =>
    rw [lookup, hp]
    cases ho : s.own? h name <;> simp [ho, hlt, ih]
  | case3 h p hp hlt =>
    rw [lookup, hp]
    cases ho : s.own? h name <;> simp [ho, hlt]

/-- The search comes to an end, and to the end that the lookup gives. -/
theorem Ordered.finds (hs : s.Ordered) (h : Handle) (name : String) :
    s.Finds name h (s.lookup h name) := by
  fun_induction lookup s h name with
  | case1 h v hv => exact .here hv
  | case2 h hn hp => exact .root hn hp
  | case3 h hn p hp hlt ih => exact .above hn hp ih
  | case4 h hn p hp hlt => exact (hlt (hs h p hp)).elim

theorem Finds.unique {name : String} {r r' : Option Value} (hr : s.Finds name h r)
    (hr' : s.Finds name h r') : r = r' := by
  induction hr with
  | here hv =>
    cases hr' with
    | here hv' => rw [← hv, ← hv']
    | root hn | above hn => rw [hn] at hv; cases hv
  | root hn hp =>
    cases hr' with
    | here hv' => rw [hn] at hv'; cases hv'
    | root => rfl
    | above _ hp' => rw [hp] at hp'; cases hp'
  | above hn hp _ ih =>
    cases hr' with
    | here hv' => rw [hn] at hv'; cases hv'
    | root _ hp' => rw [hp] at hp'; cases hp'
    | above _ hp' hr' =>
      rw [hp] at hp'
      cases hp'
      exact ih hr'

theorem Ordered.finds_iff (hs : s.Ordered) (h : Handle) (name : String) (r : Option Value) :
    s.Finds name h r ↔ r = s.lookup h name :=
  ⟨fun hr => hr.unique (hs.finds h name), fun hr => hr ▸ hs.finds h name⟩

end

section

variable {f : Nat → Option Value} {k : Nat} {v : Value}

theorem findSome?_update_of_mem {nearer further : List Nat} (h : ∀ j ∈ nearer, f j = none) :
    ((nearer ++ k :: further).findSome? fun j => if k = j then some v else f j) = some v := by
  induction nearer with
  | nil => simp
  | cons a nearer ih =>
    obtain ⟨ha, hn⟩ := List.forall_mem_cons.1 h
    by_cases hk : k = a
    · simp [hk]
    · simpa [hk, ha] using ih hn

theorem findSome?_update_of_not {l : List Nat}
    (h : ∀ nearer further, l = nearer ++ k :: further → ∃ j ∈ nearer, f j ≠ none) :
    (l.findSome? fun j => if k = j then some v else f j) = l.findSome? f := by
  induction l with
  | nil => rfl
  | cons a l ih =>
    have hk : k ≠ a := by
      rintro rfl
      simpa using h [] l rfl
    cases ha : f a with
    | some u => simp [hk, ha]
    | none =>
      have hl := ih fun nearer further hl => by simpa [hl, ha] using h (a :: nearer) further
      simpa [hk, ha] using hl

end

/-- What has been done to a store by someone who holds `n` handles, the last thing outermost. A
handle can be used for anything from the moment it is there. -/
inductive History : Nat → Type where
  | start : History 0
  | root {n : Nat} (past : History n) : History (n + 1)
  | child {n : Nat} (past : History n) (parent : Fin n) : History (n + 1)
  | share {n : Nat} (past : History n) (original : Fin n) : History (n + 1)
  | define {n : Nat} (past : History n) (through : Fin n) (name : String) (v : Value) : History n

namespace History

mutual
def store : {n : Nat} → History n → Scopes
  | _, .start => ⟨#[]⟩
  | _, .root past => past.store.addRoot
  | _, .child past i => past.store.addChild (past.handle i)
  | _, .share past _ => past.store
  | _, .define past i name v => past.store.define (past.handle i) name v
def handle : {n : Nat} → History n → Fin n → Handle
  | _, .start => Fin.elim0
  | _, .root past | _, .child past _ => Fin.lastCases past.store.next past.handle
  | _, .share past i => Fin.lastCases (past.handle i) past.handle
  | _, .define past _ _ _ => past.handle
end

def lookup {n : Nat} (H : History n) (i : Fin n) (name : String) : Option Value :=
  H.store.lookup (H.handle i) name

def made : {n : Nat} → History n → Nat
  | _, .start => 0
  | _, .root past | _, .child past _ => past.made + 1
  | _, .share past _ | _, .define past _ _ _ => past.made

/-- The scope of a handle. Scopes are numbered in the order in which they were made. -/
def scope : {n : Nat} → History n → Fin n → Nat
  | _, .start => Fin.elim0
  | _, .root past | _, .child past _ => Fin.lastCases past.made past.scope
  | _, .share past i => Fin.lastCases (past.scope i) past.scope
  | _, .define past _ _ _ => past.scope

def chain : {n : Nat} → History n → Fin n → List Nat
  | _, .start => Fin.elim0
  | _, .root past => Fin.lastCases [past.made] past.chain
  | _, .child past i => Fin.lastCases (past.made :: past.chain i) past.chain
  | _, .share past i => Fin.lastCases (past.chain i) past.chain
  | _, .define past _ _ _ => past.chain

/-- What a name was bound to last in a scope, through whatever handle. -/
def latest? (k : Nat) (name : String) : {n : Nat} → History n → Option Value
  | _, .start => none
  | _, .root past | _, .child past _ | _, .share past _ => past.latest? k name
  | _, .define past i other v =>
    if past.scope i = k ∧ other = name then some v else past.latest? k name

variable {n : Nat}

theorem next_store (H : History n) : H.store.next = H.made := by
  induction H with
  | start => rfl
  | root past ih | child past i ih => simpa [store, made, next, addRoot, addChild] using ih
  | share past i ih => exact ih
  | define past i name v ih => simpa [store, made, next, Scopes.define] using ih

theorem handle_eq_scope (H : History n) : H.handle = H.scope := by
  induction H with
  | start => rfl
  | root past ih | child past i ih => simp only [handle, scope, ih, next_store]
  | share past i ih => simp only [handle, scope, ih]
  | define past i name v ih => exact ih

theorem scope_lt_made (H : History n) (i : Fin n) : H.scope i < H.made := by
  induction H with
  | start => exact i.elim0
  | root past ih | child past j ih =>
    refine Fin.lastCases ?_ (fun i => ?_) i
    · simp [scope, made]
    · simpa [scope, made] using Nat.lt_succ_of_lt (ih i)
  | share past j ih =>
    refine Fin.lastCases ?_ (fun i => ?_) i
    · simpa [scope, made] using ih j
    · simpa [scope, made] using ih i
  | define past j name v ih => exact ih i

theorem ordered_store (H : History n) : H.store.Ordered := by
  induction H with
  | start => intro h p hp; simp [store, parent?] at hp
  | root past ih =>
    intro h p hp
    rw [store, parent?_addRoot] at hp
    split at hp
    · cases hp
    · exact ih h p hp
  | child past i ih =>
    intro h p hp
    rw [store, parent?_addChild] at hp
    split at hp
    · rename_i hh
      cases hp
      rw [hh, next_store, handle_eq_scope]
      exact scope_lt_made past i
    · exact ih h p hp
  | share past i ih => exact ih
  | define past i name v ih =>
    intro h p hp
    rw [store, parent?_define] at hp
    exact ih h p hp

theorem own?_store (H : History n) (k : Nat) (name : String) :
    H.store.own? k name = H.latest? k name := by
  induction H with
  | start => simp [store, latest?, own?]
  | root past ih => rw [store, own?_addRoot, ih, latest?]
  | child past i ih => rw [store, own?_addChild, ih, latest?]
  | share past i ih => exact ih
  | define past i other v ih =>
    have hi : past.scope i < past.store.next := next_store past ▸ scope_lt_made past i
    rw [store, handle_eq_scope, own?_define _ _ _ _ _ _ hi, ih, latest?]
    simp only [eq_comm]

theorem chain_store (H : History n) (i : Fin n) : H.store.chain (H.scope i) = H.chain i := by
  induction H with
  | start => exact i.elim0
  | root past ih =>
    refine Fin.lastCases ?_ (fun i => ?_) i
    · have hp : past.store.addRoot.parent? past.made = none := by
        rw [parent?_addRoot, next_store, if_pos rfl]
      simpa [store, scope, chain] using chain_root hp
    · have hi : past.scope i < past.store.next := next_store past ▸ scope_lt_made past i
      simpa [store, scope, chain, chain_addRoot hi] using ih i
  | child past j ih =>
    have hold : ∀ i, (past.store.addChild (past.scope j)).chain (past.scope i) = past.chain i := by
      intro i
      rw [chain_addChild (next_store past ▸ scope_lt_made past i), ih i]
    refine Fin.lastCases ?_ (fun i => ?_) i
    · have hp : (past.store.addChild (past.scope j)).parent? past.made = some (past.scope j) := by
        rw [parent?_addChild, next_store, if_pos rfl]
      have hc := chain_child hp (scope_lt_made past j)
      rw [hold j] at hc
      simpa [store, scope, chain, handle_eq_scope] using hc
    · simpa [store, scope, chain, handle_eq_scope] using hold i
  | share past j ih =>
    refine Fin.lastCases ?_ (fun i => ?_) i
    · simpa [store, scope, chain] using ih j
    · simpa [store, scope, chain] using ih i
  | define past j name v ih =>
    rw [store, scope, chain, chain_define, ih]

/-- The scope of `j` is on the chain of `i`, and no scope before it has ever bound the name. -/
def Sees (H : History n) (i j : Fin n) (name : String) : Prop :=
  ∃ nearer further, H.chain i = nearer ++ H.scope j :: further ∧
    ∀ k ∈ nearer, H.latest? k name = none

theorem lookup_eq (H : History n) (i : Fin n) (name : String) :
    H.lookup i name = (H.chain i).findSome? fun k => H.latest? k name := by
  rw [lookup, handle_eq_scope, lookup_eq_findSome?, chain_store]
  simp only [own?_store]

theorem lookup_define_of_sees {H : History n} {i j : Fin n} {name : String}
    (h : H.Sees i j name) (v : Value) : (H.define j name v).lookup i name = some v := by
  obtain ⟨nearer, further, hc, hn⟩ := h
  simp only [lookup_eq, chain, latest?, and_true, hc]
  exact findSome?_update_of_mem hn

theorem lookup_define_of_not_sees {H : History n} {i j : Fin n} {name other : String}
    (h : ¬ (other = name ∧ H.Sees i j name)) (v : Value) :
    (H.define j other v).lookup i name = H.lookup i name := by
  simp only [lookup_eq, chain, latest?]
  by_cases hn : other = name
  · simp only [hn, and_true]
    refine findSome?_update_of_not fun nearer further hc => ?_
    by_contra hall
    exact h ⟨hn, nearer, further, hc, by simpa using hall⟩
  · simp only [hn, and_false, if_false]

/-- Whatever has been done to a store, the search for a name from any handle comes to an end, and
with the value that the lookup gives: what the name was bound to last, through whatever handle, in
the nearest scope on the chain in which it was ever bound, and nothing if there is no such scope. A
further binding is found by the lookups of its name that come to its scope before they find another
one, and changes no other. -/
theorem lookup_finds_latest_of_nearest (H : History n) (i : Fin n) (name : String) :
    (∀ r, H.store.Finds name (H.handle i) r ↔ r = H.lookup i name) ∧
    H.lookup i name = ((H.chain i).findSome? fun k => H.latest? k name) ∧
    ∀ j other v,
      (other = name ∧ H.Sees i j name → (H.define j other v).lookup i name = some v) ∧
      (¬ (other = name ∧ H.Sees i j name) →
        (H.define j other v).lookup i name = H.lookup i name) := by
  refine ⟨H.ordered_store.finds_iff _ name, H.lookup_eq i name, fun j other v => ⟨?_, ?_⟩⟩
  · rintro ⟨rfl, h⟩
    exact lookup_define_of_sees h v
  · exact fun h => lookup_define_of_not_sees h v

def sharing : History 3 := ((History.start.root.child 0).share 0).define 1 "y" (.number 1)

theorem lookup_finds_latest_of_nearest_sharing :
    sharing.Sees 1 2 "x" ∧ ¬ sharing.Sees 1 2 "y" ∧
      (sharing.define 2 "x" (.number 2)).lookup 1 "x" = some (.number 2) ∧
      (sharing.define 2 "y" (.number 2)).lookup 1 "y" = some (.number 1) := by
  have hx : sharing.Sees 1 2 "x" := ⟨[1], [], by decide, by decide⟩
  have hy : ¬ sharing.Sees 1 2 "y" := by
    rintro ⟨nearer, further, hc, hn⟩
    have hc : [1, 0] = nearer ++ 0 :: further := hc
    cases nearer with
    | nil => cases hc
    | cons k nearer =>
      obtain ⟨rfl, -⟩ := List.cons.inj hc
      have h1 : sharing.latest? 1 "y" = some (.number 1) := by decide
      rw [hn 1 (by simp)] at h1
      cases h1
  have hbound : sharing.lookup 1 "y" = some (.number 1) :=
    (lookup_finds_latest_of_nearest sharing 1 "y").2.1.trans (by decide)
  have h := (lookup_finds_latest_of_nearest sharing 1 "y").2.2 2 "y" (.number 2)
  have h' := (lookup_finds_latest_of_nearest sharing 1 "x").2.2 2 "x" (.number 2)
  exact ⟨hx, hy, h'.1 ⟨rfl, hx⟩, (h.2 (fun hs => hy hs.2)).trans hbound⟩

end History

end Scopes

end LogoLang
