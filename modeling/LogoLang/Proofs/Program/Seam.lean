import LogoLang.Proofs.Program.Rereading
import LogoLang.Proofs.Token.Seam

/-!
Programs put together. Between two top-level expressions a reader has nothing open, so all that it
takes along is its words, of which it uses the signatures only. Main statement: tokens that are a
program with the words after another program can follow that program, on whatever lines.
-/

set_option autoImplicit false

namespace LogoLang

open Token (mapLine)

def Vocabulary.Agrees (v v' : Vocabulary) : Prop := ∀ name, v.get? name = v'.get? name

theorem Vocabulary.Agrees.define {v v' : Vocabulary} (h : v.Agrees v') (name : String)
    (params : List String) : (v.define name params).Agrees (v'.define name params) := by
  intro other
  rw [get?_define, get?_define, h other]

namespace Reader

variable (f : Nat → Nat)

def Frame.mapLines : Frame → Frame
  | .list opener items => .list (opener.mapLine f) (items.map (Expr.mapLines f))
  | .body opener name params items =>
    .body (opener.mapLine f) name params (items.map (Expr.mapLines f))
  | .group opener => .group (opener.mapLine f)
  | .spread opener word items =>
    .spread (opener.mapLine f) (word.mapLine f) (items.map (Expr.mapLines f))
  | .args word n done => .args (word.mapLine f) n (done.map (Expr.mapLines f))
  | .operand left op sign => .operand (left.mapLines f) op (sign.mapLine f)

def Place.mapLines : Place → Place
  | .start => .start
  | .name opener => .name (opener.mapLine f)
  | .params opener proc names => .params (opener.mapLine f) proc names
  | .after e => .after (e.mapLines f)

def Home.mapLines : Home → Home
  | .item stack => .item (stack.map (Frame.mapLines f))
  | .group opener inner stack =>
    .group (opener.mapLine f) (inner.mapLines f) (stack.map (Frame.mapLines f))
  | .top e => .top (e.mapLines f)

/-- The reader on other lines, with the words `v` and after the expressions `ps`. -/
def later (ps : Array Expr) (v : Vocabulary) (r : Reader) : Reader :=
  ⟨v, ps ++ r.program.map (Expr.mapLines f), r.stack.map (Frame.mapLines f), r.place.mapLines f⟩

theorem settle_mapLines (stack : List Frame) (e : Expr) :
    settle (stack.map (Frame.mapLines f)) (e.mapLines f) = (settle stack e).mapLines f := by
  fun_induction settle stack e with
  | case1 => rfl
  | case2 | case3 | case5 | case7 =>
    simp [Frame.mapLines, settle, Home.mapLines]
  | case4 => rfl
  | case6 e word done st ih =>
    rw [← ih]
    simp [Frame.mapLines, settle, Expr.mapLines, Expr.mapLinesList_eq_map, mapLine]
  | case8 e left op sign st ih => exact ih

variable (ps : Array Expr) {v : Vocabulary} {r r' : Reader} {t : Token}

theorem later_stack {g : Frame} {st : List Frame} (h : r.stack = g :: st) :
    (r.later f ps v).stack = g.mapLines f :: st.map (Frame.mapLines f) := by
  simp [later, h]

theorem later_place {q : Place} (h : r.place = q) : (r.later f ps v).place = q.mapLines f := by
  simp [later, h]

theorem settle_later {e : Expr} {home : Home} (h : settle r.stack e = home) :
    settle (r.later f ps v).stack (e.mapLines f) = home.mapLines f := by
  rw [← h]
  exact settle_mapLines f r.stack e

theorem later_pushTop (e : Expr) :
    (r.later f ps v).pushTop (e.mapLines f) = (r.pushTop e).later f ps v := by
  simp [later, pushTop, Expr.regroup_mapLines, Place.mapLines]

theorem spreads_of_later {s : Signature} (h : (r.later f ps v).Spreads s) : r.Spreads s := by
  obtain ⟨opener, st, hst, hv⟩ := h
  obtain ⟨g, st', hr, hg, -⟩ := List.map_eq_cons_iff.1 hst
  cases g with
  | group opener' => exact ⟨opener', st', hr, hv⟩
  | _ => cases hg

theorem starts_later (h : Starts r t r') (hv : v.Agrees r.words) :
    Starts (r.later f ps v) (t.mapLine f) (r'.later f ps v) ∧ v.Agrees r'.words := by
  cases h with
  | paren hk => exact ⟨.paren hk, hv⟩
  | bracket hk =>
    have h : Starts (r.later f ps v) (t.mapLine f) _ := .bracket hk
    exact ⟨by simpa [later, opened, Frame.mapLines, Place.mapLines] using h, hv⟩
  | header hk => exact ⟨.header hk, hv⟩
  | number hk hn => exact ⟨.number hk hn, hv⟩
  | reference hk => exact ⟨.reference hk, hv⟩
  | quoted hk => exact ⟨.quoted hk, hv⟩
  | spread hk hs hst hvar =>
    have h : Starts (r.later f ps v) (t.mapLine f) _ :=
      .spread hk ((hv _).trans hs) (later_stack f ps hst) hvar
    exact ⟨by simpa [later, Frame.mapLines, Place.mapLines] using h, hv⟩
  | constant hk hs hvar ha =>
    exact ⟨.constant hk ((hv _).trans hs) (fun h => hvar (spreads_of_later f ps h)) ha, hv⟩
  | call hk hs hvar ha =>
    have h : Starts (r.later f ps v) (t.mapLine f) _ :=
      .call hk ((hv _).trans hs) (fun h => hvar (spreads_of_later f ps h)) ha
    exact ⟨by simpa [later, opened, Frame.mapLines, Place.mapLines] using h, hv⟩
  | closeList hk hst =>
    have h : Starts (r.later f ps v) (t.mapLine f) _ := .closeList hk (later_stack f ps hst)
    exact ⟨by simpa [later, ended, Place.mapLines, Expr.mapLines, Expr.mapLinesList_eq_map,
      mapLine] using h, hv⟩
  | closeBody hk hst =>
    have h : Starts (r.later f ps v) (t.mapLine f) _ := .closeBody hk (later_stack f ps hst)
    exact ⟨by simpa [later, ended, Place.mapLines, Expr.mapLines, Expr.mapLinesList_eq_map,
      mapLine] using h, hv⟩
  | closeSpread hk hst =>
    have h : Starts (r.later f ps v) (t.mapLine f) _ := .closeSpread hk (later_stack f ps hst)
    exact ⟨by simpa [later, ended, Place.mapLines, Expr.mapLines, Expr.mapLinesList_eq_map,
      mapLine] using h, hv⟩

theorem feeds_later (h : Feeds r t r') (hv : v.Agrees r.words) :
    ∃ v', Feeds (r.later f ps v) (t.mapLine f) (r'.later f ps v') ∧ v'.Agrees r'.words := by
  cases h with
  | start hp h =>
    obtain ⟨hs, hv'⟩ := starts_later f ps h hv
    exact ⟨v, .start (later_place f ps hp) hs, hv'⟩
  | name hp hk => exact ⟨v, .name (later_place f ps hp) hk, hv⟩
  | param hp hk => exact ⟨v, .param (later_place f ps hp) hk, hv⟩
  | @body opener name params _ hp hk h =>
    obtain ⟨hs, hv'⟩ := starts_later f ps h (hv.define name params.toList)
    refine ⟨_, .body (later_place f ps hp) hk ?_, hv'⟩
    simpa [later, enterBody, opened, Frame.mapLines, Place.mapLines] using hs
  | operator hp hk ho => exact ⟨v, .operator (later_place f ps hp) hk ho, hv⟩
  | item hp hk hs h =>
    obtain ⟨hs', hv'⟩ := starts_later f ps h hv
    exact ⟨v, .item (later_place f ps hp) hk (settle_later f ps hs) hs', hv'⟩
  | top hp hk hs h =>
    obtain ⟨hs', hv'⟩ := starts_later f ps h hv
    rw [← later_pushTop] at hs'
    exact ⟨v, .top (later_place f ps hp) hk (settle_later f ps hs) hs', hv'⟩
  | group hp hk hs =>
    have h : Feeds (r.later f ps v) (t.mapLine f) _ :=
      .group (later_place f ps hp) hk (settle_later f ps hs)
    exact ⟨v, h, hv⟩

theorem feedAll_later {ts : List Token} (h : r.feedAll ts = .ok r') (hv : v.Agrees r.words) :
    ∃ v', (r.later f ps v).feedAll (ts.map (mapLine f)) = .ok (r'.later f ps v') ∧
      v'.Agrees r'.words := by
  induction ts generalizing r v with
  | nil =>
    cases h
    exact ⟨v, rfl, hv⟩
  | cons t ts ih =>
    obtain ⟨r₁, hf, hts⟩ := feedAll_cons_eq_ok_iff.1 h
    obtain ⟨v₁, hf', hv₁⟩ := feeds_later f ps hf hv
    obtain ⟨v₂, hts', hv₂⟩ := ih hts hv₁
    exact ⟨v₂, feedAll_cons_eq_ok_iff.2 ⟨_, hf', hts'⟩, hv₂⟩

theorem finishes_later (h : Finishes r r') (v : Vocabulary) :
    Finishes (r.later f ps v) (r'.later f ps v) ∧ r'.words = r.words := by
  cases h with
  | start hp hst => exact ⟨.start (later_place f ps hp) (by simp [later, hst]), rfl⟩
  | top hp hs =>
    rw [← later_pushTop]
    exact ⟨.top (later_place f ps hp) (settle_later f ps hs), rfl⟩

theorem feeds_first (hp : r.place = .start) (h : Feeds r t r') : t.kind ≠ .operator := by
  intro hk
  rw [← feed_eq_ok_iff] at h
  simp [feed, hp, start, hk, unexpected] at h

/-- What may end may also go on with another expression. -/
theorem feedAll_of_finishes {ts : List Token} (h : Finishes r r') (hk : t.kind ≠ .operator) :
    r.feedAll (t :: ts) = r'.feedAll (t :: ts) := by
  cases h with
  | start hp hst => rfl
  | top hp hs => exact feedAll_top hp hs hk

theorem finished (h : Finishes r r') : r'.stack = [] ∧ r'.place = .start := by
  cases h with
  | start hp hst => exact ⟨hst, hp⟩
  | top hp hs => exact ⟨rfl, rfl⟩

end Reader

namespace Program

open Reader

theorem read_ne_nil {v : Vocabulary} {ts : List Token} {p : Program.Reading}
    (h : Program.read v ts = .ok p) (hne : ts ≠ []) : p.program ≠ [] := by
  intro hp
  have hl := read_lexemes .standard h
  obtain ⟨t, ts, rfl⟩ := List.exists_cons_of_ne_nil hne
  obtain ⟨r, r', hr, -, -⟩ := read_eq_ok_iff.1 h
  obtain ⟨r₁, hf, -⟩ := feedAll_cons_eq_ok_iff.1 hr
  rw [hp, echoes_cons .standard hf] at hl
  cases hl

/-- Tokens that are a program with the words after another program can follow it. -/
theorem read_append {v v₂ : Vocabulary} {ts us : List Token} {a b : Program.Reading}
    (ha : Program.read v ts = .ok a) (hb : Program.read v₂ us = .ok b) (hne : us ≠ [])
    (hv : a.words.Agrees v₂) (f : Nat → Nat) :
    ∃ words, Program.read v (ts ++ us.map (mapLine f)) =
        .ok ⟨a.program ++ b.program.map (Expr.mapLines f), words⟩ ∧ words.Agrees b.words := by
  obtain ⟨r, r', hr, hf, rfl⟩ := read_eq_ok_iff.1 ha
  obtain ⟨s, s', hs, hg, rfl⟩ := read_eq_ok_iff.1 hb
  -- The second program is read from the place where the first one has ended.
  obtain ⟨hst, hp⟩ := finished hf
  have hr' : later f r'.program r'.words { words := v₂ } = r' := by
    obtain ⟨words, program, stack, place⟩ := r'
    simp_all [later, Place.mapLines]
  obtain ⟨v', hs', hv'⟩ := feedAll_later f r'.program hs hv
  rw [hr'] at hs'
  obtain ⟨hg', hw⟩ := finishes_later f r'.program hg v'
  refine ⟨v', read_eq_ok_iff.2 ⟨_, _, ?_, hg', by simp [later]⟩, hw ▸ hv'⟩
  obtain ⟨u, us, rfl⟩ := List.exists_cons_of_ne_nil hne
  obtain ⟨_, hu, -⟩ := feedAll_cons_eq_ok_iff.1 hs
  have hk : u.kind ≠ .operator := feeds_first rfl hu
  rw [feedAll_append, hr]
  exact (feedAll_of_finishes (t := u.mapLine f) hf hk).trans hs'

end Program

end LogoLang
