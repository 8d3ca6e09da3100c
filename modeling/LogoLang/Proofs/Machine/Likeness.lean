import LogoLang.Proofs.Machine.Lockstep

/-!
Machines and programs that differ in their lines. Lines get into values, scopes, procedures, frames
and faults, but nothing that a program does depends on them. Main statement: machines that are alike
run programs that are alike in the same way, step by step.
-/

set_option autoImplicit false

namespace LogoLang

theorem Value.equals_iff (u v : Value) :
    u.equals v = true ↔ u.mapLines (fun _ => 0) = v.mapLines fun _ => 0 := by
  cases u with
  | list xs line =>
    cases v with
    | list ys line' =>
      rw [equals, Expr.alikeList_iff]
      simp only [mapLines_list, Value.list.injEq, and_true]
      rfl
    | _ => simp [equals, mapLines]
  | _ => cases v <;> simp [equals, mapLines]

def Word.Alike : Word → Word → Prop
  | .defined params body, .defined params' body' =>
    params = params' ∧ Expr.alikeList body body' = true
  | u, v => u = v

theorem Word.alike_iff (u v : Word) :
    u.Alike v ↔ u.mapLines (fun _ => 0) = v.mapLines fun _ => 0 := by
  cases u with
  | defined params body =>
    cases v with
    | defined params' body' =>
      rw [Alike, Expr.alikeList_iff]
      simp only [mapLines, Word.defined.injEq]
      rfl
    | _ => simp [Alike, mapLines]
  | _ => cases v <;> simp [Alike, mapLines]

def Fault.Alike (x y : Fault) : Prop := x.kindName = y.kindName ∧ x.message = y.message

theorem Fault.alike_of_mapLines {f : Nat → Nat} {x y : Fault} (h : x.mapLines f = y.mapLines f) :
    x.Alike y := by
  have hk (z : Fault) : (z.mapLines f).kindName = z.kindName := by cases z <;> rfl
  exact ⟨by rw [← hk x, h, hk], by rw [← message_mapLines f x, h, message_mapLines]⟩

theorem rel_of_map_eq {α β : Type} {r : α → α → Prop} {g : α → β}
    (h : ∀ a b, g a = g b → r a b) {x y : Option α} (he : x.map g = y.map g) :
    Option.Rel r x y := by
  cases x with
  | none =>
    cases y with
    | none => exact .none
    | some b => cases he
  | some a =>
    cases y with
    | none => cases he
    | some b => exact .some (h a b (Option.some.inj he))

theorem rel_iff_map_eq {α β : Type} {r : α → α → Prop} {g : α → β}
    (h : ∀ a b, r a b ↔ g a = g b) (x y : Option α) : Option.Rel r x y ↔ x.map g = y.map g := by
  refine ⟨?_, rel_of_map_eq fun a b => (h a b).2⟩
  rintro (hr | _)
  · exact congrArg some ((h _ _).1 hr)
  · rfl

namespace Machine

/-- The machines have the same words and global bindings, up to lines. -/
structure Alike (m₁ m₂ : Machine) : Prop where
  words : ∀ name, Option.Rel Word.Alike (m₁.world.words.get? name) (m₂.world.words.get? name)
  globals : ∀ name, Option.Rel (fun u v => u.equals v = true) (m₁.global? name) (m₂.global? name)

structure RunsAs (start₁ start₂ m₁ m₂ : Machine) : Prop where
  alike : m₁.Alike m₂
  state : m₁.stateName = m₂.stateName
  steps : m₁.steps = m₂.steps
  printed : ∃ text, start₁.world.Printed text m₁.world ∧ start₂.world.Printed text m₂.world
  value : Option.Rel (fun u v => u.equals v = true) m₁.value? m₂.value?
  current : Option.Rel (fun d e => d.alike e = true) m₁.current m₂.current
  fault : Option.Rel Fault.Alike m₁.fault? m₂.fault?

theorem global?_mapLines (f : Nat → Nat) (m : Machine) (name : String) :
    (m.mapLines f).global? name = (m.global? name).map (Value.mapLines f) :=
  Scopes.lookup_mapLines f m.world.scopes Scopes.globals name

theorem alike_iff {m₁ m₂ : Machine} :
    m₁.Alike m₂ ↔
      (∀ name, (m₁.world.mapLines fun _ => 0).words.get? name =
        (m₂.world.mapLines fun _ => 0).words.get? name) ∧
      ∀ name, (m₁.mapLines fun _ => 0).global? name = (m₂.mapLines fun _ => 0).global? name := by
  simp only [World.get?_mapLines, global?_mapLines, ← rel_iff_map_eq Word.alike_iff,
    ← rel_iff_map_eq Value.equals_iff]
  exact ⟨fun h => ⟨h.words, h.globals⟩, fun h => ⟨h.1, h.2⟩⟩

theorem Alike.agrees {m₁ m₂ : Machine} (h : m₁.Alike m₂) (h₁ : m₁.world.scopes.Rooted)
    (h₂ : m₂.world.scopes.Rooted) :
    (m₁.mapLines fun _ => 0).world.Agrees (m₂.mapLines fun _ => 0).world := by
  obtain ⟨hw, hg⟩ := alike_iff.1 h
  refine ⟨hw, ?_, ?_, fun name => ?_⟩
  · simpa [Scopes.Rooted, mapLines] using h₁
  · simpa [Scopes.Rooted, mapLines] using h₂
  · simpa only [global?, Scopes.lookup_globals] using hg name

theorem Alike.plain {m₁ m₂ : Machine} (h : m₁.Alike m₂) (hp : m₁.world.Plain) :
    m₂.world.Plain := by
  intro name word hw
  have hn := (alike_iff.1 h).1 name
  rw [World.get?_mapLines _ m₂.world, hw] at hn
  have hu := hp.mapLines (fun _ => 0) name _ hn
  cases word with
  | host => exact hu
  | core | defined => rfl

theorem stateName_mapLines (f : Nat → Nat) (m : Machine) :
    (m.mapLines f).stateName = m.stateName := by
  obtain ⟨w, _ | p | v | x, current, steps⟩ := m <;> rfl

theorem value?_mapLines (f : Nat → Nat) (m : Machine) :
    (m.mapLines f).value? = m.value?.map (Value.mapLines f) := by
  obtain ⟨w, _ | p | v | x, current, steps⟩ := m <;> rfl

theorem RunsAs.of_inStep {start₁ start₂ m₁ m₂ : Machine}
    (ha : (start₁.mapLines fun _ => 0).world.Agrees (start₂.mapLines fun _ => 0).world)
    (h : (m₁.mapLines fun _ => 0).InStep (start₁.mapLines fun _ => 0).world
      (start₂.mapLines fun _ => 0).world (m₂.mapLines fun _ => 0)) :
    RunsAs start₁ start₂ m₁ m₂ := by
  obtain ⟨hstate, hsteps, hvalue, hcurrent, hfault⟩ := h.observed
  rw [stateName_mapLines, stateName_mapLines] at hstate
  rw [value?_mapLines, value?_mapLines, ← rel_iff_map_eq Value.equals_iff] at hvalue
  rw [fault?_mapLines, fault?_mapLines] at hfault
  exact {
    alike := alike_iff.2 ⟨h.world.words, h.world.lookup ha .globals⟩
    state := hstate
    steps := hsteps
    printed := h.world.printed
    value := hvalue
    current := (rel_iff_map_eq Expr.alike_iff _ _).2 hcurrent
    fault := rel_of_map_eq (fun _ _ => Fault.alike_of_mapLines) hfault }

/-- Machines without host words that are alike run programs that are alike in the same way. -/
theorem runs_alike (m₁ m₂ : Machine) (hp : m₁.world.Plain) (h₁ : m₁.world.scopes.Rooted)
    (h₂ : m₂.world.scopes.Rooted) (hm : m₁.Alike m₂) (p q : Program)
    (hpq : Expr.alikeList p q = true) (n : Nat) :
    RunsAs m₁ m₂ ((m₁.start p).advance n) ((m₂.start q).advance n) := by
  have ha := hm.agrees h₁ h₂
  refine .of_inStep ha ?_
  rw [unlined_advance_start hp, unlined_advance_start (hm.plain hp), (Expr.alikeList_iff p q).1 hpq]
  exact inStep_advance_start ha (hp.mapLines _) _ n

def keeping (line : Nat) : Machine :=
  ({ world := ({} : World).learn "keep" ["x"]
      [.call "list" [.var "x" line, .var "xs" line] line] } : Machine).setGlobal "xs"
    (.list [.number 1 line] line)

theorem global?_keeping (line : Nat) (name : String) :
    (keeping line).global? name =
      if name = "xs" then some (.list [.number 1 line] line) else none := by
  simp only [global?, keeping, setGlobal, Scopes.lookup_globals]
  rw [Scopes.own?_define _ _ _ _ _ _ Nat.zero_lt_one]
  simp [World.learn, Scopes.own?, Scopes.single, Scopes.globals]

theorem rooted_keeping (line : Nat) : (keeping line).world.scopes.Rooted := by
  simp [Scopes.Rooted, Scopes.next, keeping, setGlobal, Scopes.define, World.learn, Scopes.single,
    Scopes.globals]

/-- Prints what the procedure gives, then fails since printing has no value. -/
def showing (line : Nat) : Program :=
  [.call "print" [.call "keep" [.number 7 line] line] line,
   .call "print" [.call "print" [.var "xs" line] line] line]

theorem runs_alike_keeping :
    ∃ m : Machine, (keeping 3).world.Plain ∧ (keeping 3).world.scopes.Rooted ∧
      m.world.scopes.Rooted ∧ m.world.scopes.next = 2 ∧ (keeping 3).Alike m ∧
      Expr.alikeList (showing 2) (showing 9) = true ∧
      RunsAs (keeping 3) m (((keeping 3).start (showing 2)).advance 5)
        ((m.start (showing 9)).advance 5) ∧
      (((keeping 3).start (showing 2)).advance 5).world.output = "[7 [1]]\n[1]\n" ∧
      (((keeping 3).start (showing 2)).advance 5).fault?.map Fault.message =
        some "RuntimeError: 'print :xs has no value'" := by
  -- The other machine has a scope left from an earlier call.
  let m : Machine := { world := (keeping 8).world.entered ["x"] [.number 5] }
  have hw : m.world.scopes = (keeping 8).world.scopes.after [⟨1, ["x"], [.number 5], 0⟩] :=
    World.scopes_entered (Scopes.after_nil _).symm 1 _ _ 0
  have hn : m.world.scopes.next = 2 := by decide
  have hm : (keeping 3).Alike m := by
    refine ⟨fun name => ?_, fun name => ?_⟩
    · simp only [m, keeping, setGlobal, World.entered, World.learn, Table.get?_insert]
      split
      · exact .some ⟨rfl, by decide⟩
      · exact (rel_iff_map_eq Word.alike_iff _ _).2 rfl
    · have hg : m.global? name = (keeping 8).global? name := by
        rw [global?, hw, Scopes.lookup_after_globals (rooted_keeping 8), global?,
          Scopes.lookup_globals]
      rw [hg, global?_keeping, global?_keeping]
      split
      · exact .some (by decide)
      · exact .none
  have hp : (keeping 3).world.Plain := World.Plain.core.learn _ _ _
  have hr : m.world.scopes.Rooted := by simp [Scopes.Rooted, hn, Scopes.globals]
  exact ⟨m, hp, rooted_keeping 3, hr, hn, hm, by decide,
    runs_alike _ m hp (rooted_keeping 3) hr hm _ _ (by decide) 5, by decide +kernel,
    by decide +kernel⟩

end Machine

end LogoLang
