import LogoLang.Proofs.Machine.Application
import LogoLang.Program.Reader

/-!
Where a list of tokens goes wrong. A reader keeps the tokens of the constructs that are open, so
that it can name one of them when a construct does not end as it should. Main statement: every fault
names a token of the list, of the kind that its cause is about, but for an opening parenthesis at
the very end of the list, after which there is no token to name.
-/

set_option autoImplicit false

namespace LogoLang

def GrammarFault.Fits : GrammarFault → Token → Prop
  | .unexpected text, t => t.text = text ∧ (t.kind = .operator ∨ t.kind.isCloser = true)
  | .missingArguments, t => t.kind = .word ∨ t.kind = .operator
  | .missingParen, t => t.kind = .openParen
  | .missingBracket, t => t.kind = .openBracket
  | .missingName, t => t.kind ≠ .word
  | .missingEnd, t => t.kind = .opening
  | .invalidNumber text, t => t.text = text ∧ t.kind = .number
  | .noMoreTokens, _ | .stated _, _ => False

/-- The fault names one of the tokens: a word that is not known, or one that fits the cause. -/
inductive Fault.Names (v : Vocabulary) (ts : List Token) : Fault → Prop where
  | word {t : Token} (ht : t ∈ ts) (hk : t.kind = .word) (hv : v.get? t.text = none) :
    Names v ts (.unknown t.text (some t.line))
  | token {cause : GrammarFault} {t : Token} (ht : t ∈ ts) (hc : cause.Fits t) :
    Names v ts (.grammar cause (some t))

/-- There is no token that the fault could name: the last one is an opening parenthesis. -/
def Fault.Lacks (ts : List Token) (f : Fault) : Prop :=
  f = .grammar .noMoreTokens none ∧
    ∃ opener, ts.getLast? = some opener ∧ opener.kind = .openParen

theorem Fault.Names.mono {v : Vocabulary} {ts us : List Token} {f : Fault} (h : f.Names v ts)
    (hs : ts ⊆ us) : f.Names v us := by
  cases h with
  | word ht hk hv => exact .word (hs ht) hk hv
  | token ht hc => exact .token (hs ht) hc

namespace Reader

/-- The token that would be named is one of the tokens, and of the kind that opens the construct. -/
def Frame.Held (ts : List Token) : Frame → Prop
  | .list opener _ => opener ∈ ts ∧ opener.kind = .openBracket
  | .body opener _ _ _ => opener ∈ ts ∧ opener.kind = .opening
  | .group opener | .spread opener _ _ => opener ∈ ts ∧ opener.kind = .openParen
  | .args word _ _ => word ∈ ts ∧ word.kind = .word
  | .operand _ _ sign => sign ∈ ts ∧ sign.kind = .operator

def Place.Held (ts : List Token) : Place → Prop
  | .name opener | .params opener _ _ => opener ∈ ts ∧ opener.kind = .opening
  | .start | .after _ => True

def Home.Held (ts : List Token) : Home → Prop
  | .item stack => (∀ f ∈ stack, f.Held ts) ∧ ∀ opener st, stack ≠ .group opener :: st
  | .group opener _ stack =>
    (opener ∈ ts ∧ opener.kind = .openParen) ∧ ∀ f ∈ stack, f.Held ts
  | .top _ => True

/-- Nothing is forgotten, and all that is open has its tokens among those that have been taken. -/
structure Open (v : Vocabulary) (ts : List Token) (r : Reader) : Prop where
  words : ∀ name, r.words.get? name = none → v.get? name = none
  stack : ∀ f ∈ r.stack, f.Held ts

structure Held (v : Vocabulary) (ts : List Token) (r : Reader) : Prop extends r.Open v ts where
  place : r.place.Held ts
  /-- An opening parenthesis that nothing follows has been taken last. -/
  last : ∀ opener st, r.place = .start → r.stack = .group opener :: st →
    ts.getLast? = some opener

variable {v : Vocabulary} {ts us : List Token} {r : Reader} {t : Token}

theorem Frame.Held.mono {f : Frame} (h : f.Held ts) (hs : ts ⊆ us) : f.Held us := by
  cases f <;> exact ⟨hs h.1, h.2⟩

theorem Place.Held.mono {p : Place} (h : p.Held ts) (hs : ts ⊆ us) : p.Held us := by
  cases p with
  | name opener | params opener name params => exact ⟨hs h.1, h.2⟩
  | start | after e => trivial

theorem Open.mono (h : r.Open v ts) (hs : ts ⊆ us) : r.Open v us :=
  ⟨h.words, fun f hf => (h.stack f hf).mono hs⟩

/-- A complete expression closes operators and calls only, and never leaves an empty parenthesis. -/
theorem held_settle {stack : List Frame} (h : ∀ f ∈ stack, f.Held ts) (e : Expr) :
    (settle stack e).Held ts := by
  fun_induction settle stack e with
  | case1 => trivial
  | case2 | case3 | case5 | case7 =>
    simp only [List.forall_mem_cons] at h
    exact ⟨List.forall_mem_cons.2 h, by simp⟩
  | case4 => exact List.forall_mem_cons.1 h
  | case6 _ _ _ _ ih | case8 _ _ _ _ _ ih => exact ih (List.forall_mem_cons.1 h).2

section Steps

theorem Held.ended (h : r.Open v ts) {stack : List Frame} (hs : ∀ f ∈ stack, f.Held ts)
    (e : Expr) : (r.ended stack e).Held v ts where
  words := h.words
  stack := hs
  place := trivial
  last := by simp [Reader.ended]

/-- Of all constructs only a parenthesis has to be the last token when it opens. -/
theorem Held.opened (h : r.Open v ts) {f : Frame} (hf : f.Held ts)
    (hl : ∀ opener, f = .group opener → ts.getLast? = some opener) :
    (r.opened f).Held v ts where
  words := h.words
  stack := List.forall_mem_cons.2 ⟨hf, h.stack⟩
  place := trivial
  last opener _ _ hst := hl opener (List.cons.inj hst).1

theorem gives_call (h : r.Open v ts) (ht : t ∈ ts) (hk : t.kind = .word) :
    Gives (Fault.Names v ts) (Held v ts) (r.call t) := by
  unfold call
  split
  · rename_i hw
    exact .word ht hk (h.words _ hw)
  · split
    · rename_i hst hv
      have hs := h.stack
      rw [hst, List.forall_mem_cons] at hs
      exact ⟨⟨h.words, List.forall_mem_cons.2 hs⟩, trivial, by simp⟩
    · split
      · exact .ended h h.stack _
      · exact .opened h ⟨ht, hk⟩ (by simp)

theorem gives_close (h : r.Open v ts) (ht : t ∈ ts) (hk : t.kind.isCloser = true) :
    Gives (Fault.Names v ts) (Held v ts) (r.close t) := by
  have hs := h.stack
  unfold close
  split
  all_goals rename_i hst
  · rw [hst, List.forall_mem_cons] at hs
    exact .ended h hs.2 _
  · rw [hst, List.forall_mem_cons] at hs
    exact .ended h hs.2 _
  · rw [hst, List.forall_mem_cons] at hs
    exact .ended h hs.2 _
  · rw [hst, List.forall_mem_cons] at hs
    exact .token hs.1.1 (.inl hs.1.2)
  · exact .token ht ⟨rfl, .inr hk⟩

theorem gives_start (h : r.Open v ts) (hl : ts.getLast? = some t) :
    Gives (Fault.Names v ts) (Held v ts) (r.start t) := by
  have ht : t ∈ ts := List.mem_of_getLast? hl
  unfold start
  split
  · rename_i hk
    exact .opened h ⟨ht, hk⟩ (by rintro opener ⟨⟩; exact hl)
  · rename_i hk
    exact .opened h ⟨ht, hk⟩ (by simp)
  · rename_i hk
    exact ⟨⟨h.words, h.stack⟩, ⟨ht, hk⟩, by simp⟩
  · rename_i hk
    split
    · exact .ended h h.stack _
    · exact .token ht ⟨rfl, hk⟩
  · exact .ended h h.stack _
  · exact .ended h h.stack _
  · rename_i hk
    exact gives_call h ht hk
  · rename_i hk
    exact .token ht ⟨rfl, .inl hk⟩
  all_goals
    rename_i hk
    exact gives_close h ht (by rw [hk]; rfl)

theorem gives_leave (h : r.Open v ts) (e : Expr) (hl : ts.getLast? = some t) :
    Gives (Fault.Names v ts) (Held v ts) (r.leave e t) := by
  have hs := held_settle h.stack e
  unfold leave
  split
  all_goals
    rename_i hh
    rw [hh] at hs
  · exact gives_start ⟨h.words, hs.1⟩ hl
  · exact gives_start ⟨h.words, by simp [pushTop]⟩ hl
  · split
    · exact .ended h hs.2 _
    · exact .token hs.1.1 hs.1.2

/-- A token is taken, or the fault names it or one taken before. -/
theorem gives_feed (h : r.Held v ts) (t : Token) :
    Gives (Fault.Names v (ts ++ [t])) (Held v (ts ++ [t])) (r.feed t) := by
  have hl : (ts ++ [t]).getLast? = some t := by simp
  have ht : t ∈ ts ++ [t] := by simp
  have ho : r.Open v (ts ++ [t]) := h.toOpen.mono (by simp)
  have hp : r.place.Held (ts ++ [t]) := h.place.mono (by simp)
  unfold feed
  split
  · exact gives_start ho hl
  · rename_i hplace
    rw [hplace] at hp
    split
    · exact ⟨⟨ho.words, ho.stack⟩, hp, by simp⟩
    · rename_i hk
      exact .token ht hk
  · rename_i opener name params hplace
    rw [hplace] at hp
    split
    · exact ⟨⟨ho.words, ho.stack⟩, hp, by simp⟩
    · refine gives_start ⟨fun other hn => ?_, List.forall_mem_cons.2 ⟨hp, ho.stack⟩⟩ hl
      have hd := r.words.get?_define name other params.toList
      simp only [enterBody, Reader.opened] at hn
      rw [hn] at hd
      split at hd
      · cases hd
      · exact ho.words other hd.symm
  · rename_i e hplace
    split
    · rename_i hk
      unfold operate
      split
      · exact .opened ho ⟨ht, hk⟩ (by simp)
      · exact .token ht ⟨rfl, .inl hk⟩
    · exact gives_leave ho e hl

theorem gives_feedAll (h : r.Held v ts) (us : List Token) :
    Gives (Fault.Names v (ts ++ us)) (Held v (ts ++ us)) (r.feedAll us) := by
  induction us generalizing r ts with
  | nil => simpa [feedAll, Gives] using h
  | cons u us ih =>
    have hf := gives_feed h u
    unfold feedAll
    cases hr : r.feed u with
    | error f =>
      rw [hr] at hf
      exact Fault.Names.mono hf (by simp)
    | ok r' =>
      rw [hr] at hf
      simpa using ih hf

theorem gives_finishAt (h : r.Open v ts)
    (hl : ∀ opener st, r.stack = .group opener :: st → ts.getLast? = some opener) :
    Gives (fun f => f.Names v ts ∨ f.Lacks ts) (fun _ => True) r.finishAt := by
  have hs := h.stack
  unfold finishAt
  split
  · trivial
  all_goals
    rename_i hst
    rw [hst, List.forall_mem_cons] at hs
  · exact .inl (.token hs.1.1 hs.1.2)
  · exact .inl (.token hs.1.1 hs.1.2)
  · exact .inr ⟨rfl, _, hl _ _ hst, hs.1.2⟩
  · exact .inl (.token hs.1.1 hs.1.2)
  · exact .inl (.token hs.1.1 (.inl hs.1.2))
  · exact .inl (.token hs.1.1 (.inr hs.1.2))

theorem gives_finish (h : r.Held v ts) :
    Gives (fun f => f.Names v ts ∨ f.Lacks ts) (fun _ => True) r.finish := by
  have hp := h.place
  unfold finish
  split
  all_goals
    rename_i hplace
    rw [hplace] at hp
  · exact gives_finishAt h.toOpen fun opener st => h.last opener st hplace
  · exact .inl (.token hp.1 (by simp [GrammarFault.Fits, hp.2]))
  · exact .inl (.token hp.1 hp.2)
  · rename_i e
    have hs := held_settle h.stack e
    split
    all_goals
      rename_i hh
      rw [hh] at hs
    · exact gives_finishAt ⟨h.words, hs.1⟩ fun opener st hst => absurd hst (hs.2 opener st)
    · trivial
    · exact .inl (.token hs.1.1 hs.1.2)

end Steps

end Reader

namespace Program

/-- Tokens that are no program are refused for a word among them that is not known, or for a token
among them that fits the cause, and the fault is on the line of that token; or they end with an
opening parenthesis, and the fault says just that and has no line. -/
theorem read_error_is_located (v : Vocabulary) (ts : List Token) (f : Fault)
    (h : Program.read v ts = .error f) :
    (∃ t ∈ ts, t.kind = .word ∧ v.get? t.text = none ∧ f = .unknown t.text (some t.line)) ∨
    (∃ cause, ∃ t ∈ ts, cause.Fits t ∧ f = .grammar cause (some t) ∧ f.line? = some t.line) ∨
    ∃ opener, ts.getLast? = some opener ∧ opener.kind = .openParen ∧
      f = .grammar .noMoreTokens none ∧ f.message = "SyntaxError: no more token" ∧
      f.line? = none := by
  have hheld : Reader.Held v [] { words := v } :=
    ⟨⟨fun _ hn => hn, by simp⟩, trivial, by simp⟩
  have hfeed := Reader.gives_feedAll hheld ts
  rw [List.nil_append] at hfeed
  unfold Program.read at h
  have hnames : f.Names v ts ∨ f.Lacks ts := by
    cases hr : Reader.feedAll { words := v } ts with
    | error g =>
      rw [hr] at h hfeed
      cases h
      exact .inl hfeed
    | ok r =>
      rw [hr] at h hfeed
      have hfinish := Reader.gives_finish hfeed
      cases he : r.finish with
      | error g =>
        simp only [he] at h
        cases h
        rwa [he] at hfinish
      | ok r' =>
        simp only [he] at h
        cases h
  rcases hnames with (⟨ht, hk, hv⟩ | ⟨ht, hc⟩) | ⟨rfl, opener, hl, hk⟩
  · exact .inl ⟨_, ht, hk, hv, rfl⟩
  · exact .inr (.inl ⟨_, _, ht, hc, rfl, rfl⟩)
  · exact .inr (.inr ⟨opener, hl, hk, rfl, rfl, rfl⟩)

/-- No text is split into these: a numeral with a letter, in a list in the body of a procedure. -/
def smudgedTokens : List Token :=
  [⟨.opening, "to", 0⟩, ⟨.word, "five", 1⟩, ⟨.reference, "x", 2⟩, ⟨.openBracket, "[", 3⟩,
    ⟨.number, "5x", 4⟩, ⟨.closing, "end", 5⟩]

def cutTokens : List Token := smudgedTokens.take 4 ++ [⟨.openParen, "(", 4⟩]

theorem read_error_is_located_smudged :
    (Program.read { known := .empty } smudgedTokens =
        .error (.grammar (.invalidNumber "5x") (some ⟨.number, "5x", 4⟩)) ∧
      ∃ t ∈ smudgedTokens, (GrammarFault.invalidNumber "5x").Fits t ∧ t.line = 4) ∧
    Program.read { known := .empty } cutTokens = .error (.grammar .noMoreTokens none) ∧
      ∃ opener, cutTokens.getLast? = some opener ∧ opener.kind = .openParen := by
  have h : Program.read { known := .empty } smudgedTokens =
      .error (.grammar (.invalidNumber "5x") (some ⟨.number, "5x", 4⟩)) := by rfl
  have h' : Program.read { known := .empty } cutTokens =
      .error (.grammar .noMoreTokens none) := by rfl
  refine ⟨⟨h, ?_⟩, h', ?_⟩
  · rcases read_error_is_located _ _ _ h with
      ⟨t, -, -, -, hf⟩ | ⟨cause, t, ht, hc, hf, -⟩ | ⟨opener, -, -, hf, -⟩
    · cases hf
    · cases hf
      exact ⟨_, ht, hc, rfl⟩
    · cases hf
  · rcases read_error_is_located _ _ _ h' with
      ⟨t, -, -, -, hf⟩ | ⟨cause, t, -, -, hf, -⟩ | ⟨opener, hl, hk, -⟩
    · cases hf
    · cases hf
    · exact ⟨opener, hl, hk⟩

end Program

end LogoLang
