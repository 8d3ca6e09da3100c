/-!
Tables keyed by name, in the order in which the names were first entered. Main statements: a lookup
after an insertion finds the inserted entry under its own name and the old entry under any other.
-/

set_option autoImplicit false

namespace LogoLang

structure Table (α : Type) where
  entries : List (String × α)
  deriving Repr, DecidableEq

namespace Table

variable {α β : Type}

def empty : Table α := ⟨[]⟩

def get? (t : Table α) (name : String) : Option α := t.entries.lookup name

def contains (t : Table α) (name : String) : Bool := (t.get? name).isSome

def size (t : Table α) : Nat := t.entries.length

def names (t : Table α) : List String := t.entries.map Prod.fst

def insertEntry (name : String) (a : α) : List (String × α) → List (String × α)
  | [] => [(name, a)]
  | (n, b) :: es => if n = name then (name, a) :: es else (n, b) :: insertEntry name a es

/-- Enters `a` under `name`, in the place of an earlier entry of that name. -/
def insert (t : Table α) (name : String) (a : α) : Table α := ⟨insertEntry name a t.entries⟩

def ofList (es : List (String × α)) : Table α :=
  es.foldl (fun t e => t.insert e.1 e.2) empty

def map (f : α → β) (t : Table α) : Table β := ⟨t.entries.map fun e => (e.1, f e.2)⟩

def sorted (t : Table α) : List (String × α) :=
  t.entries.mergeSort fun a b => decide (a.1 ≤ b.1)

@[simp] theorem get?_empty (name : String) : (empty : Table α).get? name = none := rfl

theorem lookup_insertEntry (name other : String) (a : α) (es : List (String × α)) :
    (insertEntry name a es).lookup other = if other = name then some a else es.lookup other := by
  induction es with
  | nil =>
    by_cases h : other = name
    · simp [insertEntry, h]
    · simp [insertEntry, List.lookup_cons, h, beq_eq_false_iff_ne.2 h]
  | cons e es ih =>
    obtain ⟨n, b⟩ := e
    by_cases hn : n = name
    · subst hn
      by_cases h : other = n
      · simp [insertEntry, h]
      · simp [insertEntry, List.lookup_cons, h, beq_eq_false_iff_ne.2 h]
    · by_cases h : other = n
      · subst h
        simp [insertEntry, hn]
      · simpa [insertEntry, hn, List.lookup_cons, beq_eq_false_iff_ne.2 h] using ih

theorem get?_insert (t : Table α) (name other : String) (a : α) :
    (t.insert name a).get? other = if other = name then some a else t.get? other :=
  lookup_insertEntry name other a t.entries

@[simp] theorem get?_insert_self (t : Table α) (name : String) (a : α) :
    (t.insert name a).get? name = some a := by
  simp [get?_insert]

theorem get?_insert_of_ne (t : Table α) {name other : String} (a : α) (h : other ≠ name) :
    (t.insert name a).get? other = t.get? other := by
  simp [get?_insert, h]

theorem get?_ofList (es : List (String × α)) (name : String) :
    (ofList es).get? name = es.reverse.lookup name := by
  have h (t : Table α) : (es.foldl (fun t e => t.insert e.1 e.2) t).get? name =
      (es.reverse.lookup name).or (t.get? name) := by
    induction es generalizing t with
    | nil => rfl
    | cons e es ih =>
      obtain ⟨key, a⟩ := e
      rw [List.foldl_cons, ih, get?_insert, List.reverse_cons, List.lookup_append]
      cases es.reverse.lookup name with
      | some b => rfl
      | none =>
        by_cases he : name = key
        · simp [he]
        · simp [he, List.lookup_cons, beq_eq_false_iff_ne.2 he]
  simpa [ofList] using h .empty

@[simp] theorem get?_map (f : α → β) (t : Table α) (name : String) :
    (t.map f).get? name = (t.get? name).map f := by
  obtain ⟨es⟩ := t
  simp only [get?, map]
  induction es with
  | nil => rfl
  | cons e es ih =>
    obtain ⟨n, a⟩ := e
    simp only [List.map_cons, List.lookup_cons]
    split <;> simp_all

theorem map_insert (f : α → β) (t : Table α) (name : String) (a : α) :
    (t.insert name a).map f = (t.map f).insert name (f a) := by
  obtain ⟨es⟩ := t
  simp only [map, insert, Table.mk.injEq]
  induction es with
  | nil => rfl
  | cons e es ih =>
    obtain ⟨n, b⟩ := e
    simp only [insertEntry, List.map_cons]
    split
    · rfl
    · simp only [List.map_cons, ih]

end Table

end LogoLang
