import Mathlib

/-!
# Backtracking regular expressions with captures

A pattern denotes the *list* of its matches from a position, in the order in which a
backtracking engine tries them: an alternation lists the left branch first, a greedy star the
longer iterations first, a lazy star the shorter ones. `Re.exec` is the first of them.

* `Re`, `Re.run`: the syntax and the ordered matches.
* `mem_run_*`: what a match of each construct is, as an equivalence about the consumed text.
  Together they are a simp set that turns "`st'` is a match of `r` from `st`" into an explicit
  decomposition of the subject.
* `exec_of_forall`: **the determinism rule**. If every match of a pattern reads the same
  groups and there is a match at all, the engine returns those groups, whatever the order in
  which it looks.
* `Grammar`, `Parses`: a pattern without assertions as the grammar of its matches, put together
  construct by construct (`Parses.seq`, `Parses.opt`, `Parses.grp`, ...). **`Parses.exec_text`**:
  matching the text of a value gives back the groups of the value.
* `Grammar.Unique`: unambiguous grammars, built up in the same way.
* `append_inj_of_run`: two splits of one text at the end of a run of `p`-characters are one split.
-/

namespace X86Scripts

/-- A text, as the list of its characters. -/
abbrev Str := List Char

instance decidableMemStr (s : Str) (l : List Str) : Decidable (s ∈ l) :=
  inferInstance

/-- A fact about every character of a text, checked on its characters. -/
theorem forall_chars {p : Char → Prop} [DecidablePred p] {s : Str}
    (h : (s.all fun c => decide (p c)) = true) : ∀ c ∈ s, p c := by
  simpa using h

namespace Regex

/-- Where a match stands: the text consumed so far, the text still to read, the groups captured. -/
structure St where
  /-- The consumed part of the subject. -/
  before : Str
  /-- The unread part of the subject. -/
  after : Str
  /-- The groups captured so far. -/
  caps : Nat → Option Str

/-- The start of a match: nothing consumed, nothing captured. -/
def St.init (s : Str) : St := ⟨[], s, fun _ => none⟩

/-- Patterns. `eol` is `$` (the end, or the place before a final newline), `wordB w` is `\b` for
the word characters `w`. -/
inductive Re where
  | lit (s : Str)
  | cls (p : Char → Bool)
  | seq (a b : Re)
  | alt (a b : Re)
  | star (greedy : Bool) (a : Re)
  | grp (n : Nat) (a : Re)
  | eol
  | wordB (w : Char → Bool)

/-- `r?`, greedy. -/
def Re.opt (r : Re) : Re := .alt r (.lit [])

/-- `(s|t|...)`, of fixed texts. -/
def Re.anyOf : List Str → Re
  | [] => .cls fun _ => false
  | [s] => .lit s
  | s :: ss => .alt (.lit s) (Re.anyOf ss)

/-- `r+` (`greedy = true`) or `r+?`. -/
def Re.plus (greedy : Bool) (r : Re) : Re := .seq r (.star greedy r)

/-- The iterations of a star whose body has the matches `f`, each of which must consume. The
fuel bounds the number of iterations; the length of the unread text is enough. -/
def starRun (f : St → List St) (greedy : Bool) : Nat → St → List St
  | 0, st => [st]
  | k + 1, st =>
    let more := (f st).flatMap fun st' =>
      if st'.after.length < st.after.length then starRun f greedy k st' else []
    if greedy then more ++ [st] else st :: more

/-- Is the position between a word character and a non-word character? -/
def atBoundary (w : Char → Bool) (st : St) : Bool :=
  (st.before.getLast?.any w) != (st.after.head?.any w)

/-- The matches of a pattern from a position, in the engine's order. -/
def Re.run : Re → St → List St
  | .lit s, st => if s.isPrefixOf st.after then
      [⟨st.before ++ s, st.after.drop s.length, st.caps⟩] else []
  | .cls p, ⟨b, c :: r, m⟩ => if p c then [⟨b ++ [c], r, m⟩] else []
  | .cls _, ⟨_, [], _⟩ => []
  | .seq a b, st => (a.run st).flatMap b.run
  | .alt a b, st => a.run st ++ b.run st
  | .star g a, st => starRun a.run g st.after.length st
  | .grp n a, st => (a.run st).map fun m =>
      { m with caps := Function.update m.caps n (some (m.before.drop st.before.length)) }
  | .eol, st => if st.after = [] ∨ st.after = ['\n'] then [st] else []
  | .wordB w, st => if atBoundary w st then [st] else []

/-- `re.match`: the first match from the start of the subject. -/
def Re.exec (r : Re) (s : Str) : Option St := (r.run (St.init s)).head?

/-! ## What a match of each construct is -/

theorem mem_run_lit {s : Str} {st st' : St} :
    st' ∈ (Re.lit s).run st ↔
      ∃ r, st.after = s ++ r ∧ st' = ⟨st.before ++ s, r, st.caps⟩ := by
  simp only [Re.run]
  split
  · rename_i h
    obtain ⟨r, hr⟩ := List.isPrefixOf_iff_prefix.mp h
    rw [List.mem_singleton]
    constructor
    · rintro rfl
      exact ⟨r, hr.symm, by rw [← hr, List.drop_left]⟩
    · rintro ⟨r', hr', rfl⟩
      rw [hr', List.drop_left]
  · rename_i h
    simp only [List.not_mem_nil, false_iff]
    rintro ⟨r, hr, -⟩
    exact h (List.isPrefixOf_iff_prefix.mpr ⟨r, hr.symm⟩)

theorem mem_run_cls {p : Char → Bool} {st st' : St} :
    st' ∈ (Re.cls p).run st ↔
      ∃ c r, st.after = c :: r ∧ p c = true ∧ st' = ⟨st.before ++ [c], r, st.caps⟩ := by
  obtain ⟨b, a, m⟩ := st
  cases a with
  | nil => simp [Re.run]
  | cons c r =>
      by_cases hc : p c = true
      · simp [Re.run, hc]
      · simp only [Re.run, hc]
        constructor
        · intro h; cases h
        · rintro ⟨c', r', h, hp, -⟩
          cases h
          exact absurd hp hc

theorem mem_run_seq {a b : Re} {st st' : St} :
    st' ∈ (Re.seq a b).run st ↔ ∃ m ∈ a.run st, st' ∈ b.run m := by
  simp [Re.run]

theorem mem_run_alt {a b : Re} {st st' : St} :
    st' ∈ (Re.alt a b).run st ↔ st' ∈ a.run st ∨ st' ∈ b.run st := by
  simp [Re.run]

theorem mem_run_opt {a : Re} {st st' : St} :
    st' ∈ (Re.opt a).run st ↔ st' ∈ a.run st ∨ st' = st := by
  rw [Re.opt, mem_run_alt, mem_run_lit]
  constructor
  · rintro (h | ⟨r, hr, rfl⟩)
    · exact Or.inl h
    · right; simp only [List.nil_append] at hr; simp [← hr]
  · rintro (h | rfl)
    · exact Or.inl h
    · exact Or.inr ⟨st'.after, by simp, by simp⟩

theorem mem_run_grp {n : Nat} {a : Re} {st st' : St} :
    st' ∈ (Re.grp n a).run st ↔ ∃ m ∈ a.run st,
      st' = ⟨m.before, m.after,
        Function.update m.caps n (some (m.before.drop st.before.length))⟩ := by
  simp only [Re.run, List.mem_map]
  exact exists_congr fun m => and_congr_right fun _ => eq_comm

theorem mem_run_eol {st st' : St} :
    st' ∈ Re.eol.run st ↔ st' = st ∧ (st.after = [] ∨ st.after = ['\n']) := by
  simp only [Re.run]
  split <;> simp_all

theorem mem_run_wordB {w : Char → Bool} {st st' : St} :
    st' ∈ (Re.wordB w).run st ↔ st' = st ∧ atBoundary w st = true := by
  simp only [Re.run]
  split <;> simp_all

/-! ## The star -/

/-- Iterating `f`, each iteration consuming. -/
inductive Iter (f : St → List St) : St → St → Prop where
  | refl (st : St) : Iter f st st
  | step {st m st' : St} (hm : m ∈ f st) (hlt : m.after.length < st.after.length)
      (h : Iter f m st') : Iter f st st'

theorem mem_starRun {f : St → List St} {greedy : Bool} {st' : St} :
    (k : Nat) → (st : St) → st.after.length ≤ k →
      (st' ∈ starRun f greedy k st ↔ Iter f st st')
  | 0, st, hk => by
      simp only [starRun, List.mem_singleton]
      constructor
      · rintro rfl; exact .refl _
      · intro h
        cases h with
        | refl => rfl
        | step _ hlt _ => omega
  | k + 1, st, hk => by
      have hmore : (st' ∈ (f st).flatMap fun m =>
          if m.after.length < st.after.length then starRun f greedy k m else []) ↔
          ∃ m ∈ f st, m.after.length < st.after.length ∧ Iter f m st' := by
        simp only [List.mem_flatMap]
        refine exists_congr fun m => and_congr_right fun _ => ?_
        by_cases hlt : m.after.length < st.after.length
        · simp only [hlt, if_true, true_and]
          exact mem_starRun k m (by omega)
        · simp [hlt]
      have hiff : Iter f st st' ↔
          st' = st ∨ ∃ m ∈ f st, m.after.length < st.after.length ∧ Iter f m st' := by
        constructor
        · intro h
          cases h with
          | refl => exact Or.inl rfl
          | step hm hlt h => exact Or.inr ⟨_, hm, hlt, h⟩
        · rintro (rfl | ⟨m, hm, hlt, h⟩)
          · exact .refl _
          · exact .step hm hlt h
      rw [hiff, ← hmore]
      simp only [starRun]
      cases greedy <;> simp [or_comm]

theorem mem_run_star {g : Bool} {a : Re} {st st' : St} :
    st' ∈ (Re.star g a).run st ↔ Iter a.run st st' := by
  rw [Re.run, mem_starRun _ _ (Nat.le_refl _)]

/-- A star of one character class consumes a run of the class. -/
theorem mem_run_star_cls {g : Bool} {p : Char → Bool} {st st' : St} :
    st' ∈ (Re.star g (.cls p)).run st ↔
      ∃ w r, st.after = w ++ r ∧ (∀ c ∈ w, p c = true) ∧
        st' = ⟨st.before ++ w, r, st.caps⟩ := by
  rw [mem_run_star]
  constructor
  · intro h
    induction h with
    | refl st => exact ⟨[], st.after, by simp, by simp, by simp⟩
    | step hm hlt _ ih =>
        obtain ⟨c, r, hr, hc, rfl⟩ := mem_run_cls.mp hm
        obtain ⟨w, r', hr', hw, rfl⟩ := ih
        refine ⟨c :: w, r', by rw [hr]; simpa using hr', ?_, by simp⟩
        simpa [hc] using hw
  · rintro ⟨w, r, hr, hw, rfl⟩
    induction w generalizing st with
    | nil =>
        simp only [List.nil_append] at hr
        subst hr
        simpa using Iter.refl st
    | cons c w ih =>
        have hstep : (⟨st.before ++ [c], w ++ r, st.caps⟩ : St) ∈ (Re.cls p).run st :=
          mem_run_cls.mpr ⟨c, w ++ r, by simpa using hr, hw c (by simp), rfl⟩
        refine .step hstep (by rw [hr]; simp) ?_
        have hrun : Iter (Re.cls p).run ⟨st.before ++ [c], w ++ r, st.caps⟩
            ⟨st.before ++ [c] ++ w, r, st.caps⟩ :=
          ih rfl fun d hd => hw d (by simp [hd])
        simpa using hrun

/-- A plus of one character class consumes a non-empty run of the class. -/
theorem mem_run_plus_cls {g : Bool} {p : Char → Bool} {st st' : St} :
    st' ∈ (Re.plus g (.cls p)).run st ↔
      ∃ w r, st.after = w ++ r ∧ w ≠ [] ∧ (∀ c ∈ w, p c = true) ∧
        st' = ⟨st.before ++ w, r, st.caps⟩ := by
  rw [Re.plus, mem_run_seq]
  constructor
  · rintro ⟨m, hm, hst⟩
    obtain ⟨c, r, hr, hc, rfl⟩ := mem_run_cls.mp hm
    obtain ⟨w, r', hr', hw, rfl⟩ := mem_run_star_cls.mp hst
    refine ⟨c :: w, r', by rw [hr]; simpa using hr', by simp, ?_, by simp⟩
    simpa [hc] using hw
  · rintro ⟨w, r, hr, hne, hw, rfl⟩
    obtain ⟨c, w, rfl⟩ := List.exists_cons_of_ne_nil hne
    refine ⟨⟨st.before ++ [c], w ++ r, st.caps⟩, mem_run_cls.mpr
      ⟨c, w ++ r, by simpa using hr, hw c (by simp), rfl⟩, mem_run_star_cls.mpr ?_⟩
    exact ⟨w, r, rfl, fun d hd => hw d (by simp [hd]), by simp⟩

/-! ## Running a pattern on a whole subject -/

/-- The result of `exec` is one of the matches. -/
theorem mem_of_exec {r : Re} {s : Str} {st : St} (h : r.exec s = some st) :
    st ∈ r.run (St.init s) := List.mem_of_mem_head? h

/-- `exec` fails exactly when there is no match. -/
theorem exec_eq_none_iff {r : Re} {s : Str} :
    r.exec s = none ↔ ∀ st, st ∉ r.run (St.init s) := by
  rw [Re.exec, List.head?_eq_none_iff, List.eq_nil_iff_forall_not_mem]

/-- **The determinism rule**: when there is a match and every match satisfies `P`, the match
`exec` returns satisfies `P`. -/
theorem exec_of_forall {r : Re} {s : Str} {P : St → Prop} {st₀ : St}
    (hex : st₀ ∈ r.run (St.init s)) (hall : ∀ st ∈ r.run (St.init s), P st) :
    ∃ st, r.exec s = some st ∧ P st := by
  cases h : r.exec s with
  | none => exact absurd hex (exec_eq_none_iff.mp h st₀)
  | some st => exact ⟨st, rfl, hall st (mem_of_exec h)⟩

/-! ## Splitting a text at the end of a run -/

/-- The next character of `r`, if there is one, is not a `p`-character. -/
def Stops (p : Char → Bool) (r : Str) : Prop := ∀ c ∈ r.head?, p c = false

@[simp] theorem stops_nil (p : Char → Bool) : Stops p [] := by simp [Stops]

@[simp] theorem stops_cons {p : Char → Bool} {c : Char} {r : Str} :
    Stops p (c :: r) ↔ p c = false := by simp [Stops]

theorem stops_append {p : Char → Bool} {w r : Str} (hne : w ≠ []) (hw : Stops p w) :
    Stops p (w ++ r) := by
  obtain ⟨c, w, rfl⟩ := List.exists_cons_of_ne_nil hne
  exact stops_cons.mpr (stops_cons.mp hw)

theorem stops_of_head {p : Char → Bool} {c : Char} {r : Str} (hr : r.head? = some c)
    (hc : p c = false) : Stops p r := by
  intro d hd
  rw [hr, Option.mem_some_iff] at hd
  rwa [← hd]

/-- Two splits of a text into a run of `p` and a rest that does not continue it are one split. -/
theorem append_inj_of_run {p : Char → Bool} : {w w' r r' : Str} → w ++ r = w' ++ r' →
    (∀ c ∈ w, p c = true) → (∀ c ∈ w', p c = true) → Stops p r → Stops p r' →
    w = w' ∧ r = r'
  | [], [], _, _, h, _, _, _, _ => ⟨rfl, h⟩
  | [], c :: w', r, r', h, _, hw', hr, _ => by
      simp only [List.nil_append, List.cons_append] at h
      subst h
      rw [stops_cons] at hr
      rw [hw' c (by simp)] at hr
      cases hr
  | c :: w, [], r, r', h, hw, _, _, hr' => by
      simp only [List.nil_append, List.cons_append] at h
      subst h
      rw [stops_cons] at hr'
      rw [hw c (by simp)] at hr'
      cases hr'
  | c :: w, d :: w', r, r', h, hw, hw', hr, hr' => by
      simp only [List.cons_append, List.cons.injEq] at h
      obtain ⟨rfl, h⟩ := h
      obtain ⟨rfl, rfl⟩ := append_inj_of_run h (fun x hx => hw x (by simp [hx]))
        (fun x hx => hw' x (by simp [hx])) hr hr'
      exact ⟨rfl, rfl⟩

/-! ## Patterns as grammars -/

/-- The captured groups. -/
abbrev Caps := Nat → Option Str

/-- A grammar of the values `α`: which values there are, the text of each and the groups a match
of it sets. -/
structure Grammar (α : Type) where
  /-- The values the grammar has. -/
  wf : α → Prop
  /-- The text of a value. -/
  text : α → Str
  /-- The groups after a match of the value's text, from those before it. -/
  caps : α → Caps → Caps

/-- The matches of the pattern are the texts of the grammar. -/
def Parses {α : Type} (a : Re) (G : Grammar α) : Prop :=
  ∀ st st', st' ∈ a.run st ↔ ∃ x r, G.wf x ∧ st.after = G.text x ++ r ∧
    st' = ⟨st.before ++ G.text x, r, G.caps x st.caps⟩

namespace Grammar

variable {α β : Type}

/-- A fixed text. -/
def lit (s : Str) : Grammar Unit := ⟨fun _ => True, fun _ => s, fun _ => id⟩

/-- One character of a class. -/
def cls (p : Char → Bool) : Grammar Char := ⟨fun c => p c = true, fun c => [c], fun _ => id⟩

/-- A run of a class, empty or not. -/
def run (p : Char → Bool) : Grammar Str := ⟨fun w => ∀ c ∈ w, p c = true, id, fun _ => id⟩

/-- A non-empty run of a class. -/
def run1 (p : Char → Bool) : Grammar Str :=
  ⟨fun w => w ≠ [] ∧ ∀ c ∈ w, p c = true, id, fun _ => id⟩

/-- One text of a list. -/
def oneOf (ws : List Str) : Grammar Str := ⟨(· ∈ ws), id, fun _ => id⟩

/-- One after the other. -/
def seq (G : Grammar α) (H : Grammar β) : Grammar (α × β) :=
  ⟨fun x => G.wf x.1 ∧ H.wf x.2, fun x => G.text x.1 ++ H.text x.2,
    fun x m => H.caps x.2 (G.caps x.1 m)⟩

/-- A value or nothing. -/
def opt (G : Grammar α) : Grammar (Option α) :=
  ⟨fun x => ∀ y ∈ x, G.wf y, fun x => x.elim [] G.text, fun x => x.elim id G.caps⟩

/-- Any number of values. -/
def many (G : Grammar α) : Grammar (List α) :=
  ⟨fun xs => ∀ x ∈ xs, G.wf x, fun xs => xs.flatMap G.text, fun xs m => xs.foldl (fun m x => G.caps x m) m⟩

/-- A group. -/
def grp (n : Nat) (G : Grammar α) : Grammar α :=
  ⟨G.wf, G.text, fun x m => Function.update (G.caps x m) n (some (G.text x))⟩

/-- A fixed text in front. -/
def after (s : Str) (G : Grammar α) : Grammar α := ⟨G.wf, fun x => s ++ G.text x, G.caps⟩

/-- A fixed text behind. -/
def before (G : Grammar α) (s : Str) : Grammar α := ⟨G.wf, fun x => G.text x ++ s, G.caps⟩

end Grammar

section parses

variable {α β : Type} {a b : Re} {G : Grammar α} {H : Grammar β}

theorem parses_lit {s : Str} : Parses (.lit s) (.lit s) := by
  intro st st'
  rw [mem_run_lit]
  constructor
  · rintro ⟨r, hr, h⟩
    exact ⟨(), r, trivial, hr, h⟩
  · rintro ⟨_, r, -, hr, h⟩
    exact ⟨r, hr, h⟩

theorem parses_cls {p : Char → Bool} : Parses (.cls p) (.cls p) := by
  intro st st'
  rw [mem_run_cls]
  constructor
  · rintro ⟨c, r, hr, hc, h⟩
    exact ⟨c, r, hc, hr, h⟩
  · rintro ⟨c, r, hc, hr, h⟩
    exact ⟨c, r, hr, hc, h⟩

theorem parses_run {g : Bool} {p : Char → Bool} : Parses (.star g (.cls p)) (.run p) := by
  intro st st'
  rw [mem_run_star_cls]
  constructor
  · rintro ⟨w, r, hr, hw, h⟩
    exact ⟨w, r, hw, hr, h⟩
  · rintro ⟨w, r, hw, hr, h⟩
    exact ⟨w, r, hr, hw, h⟩

theorem parses_run1 {g : Bool} {p : Char → Bool} : Parses (.plus g (.cls p)) (.run1 p) := by
  intro st st'
  rw [mem_run_plus_cls]
  constructor
  · rintro ⟨w, r, hr, hne, hw, h⟩
    exact ⟨w, r, ⟨hne, hw⟩, hr, h⟩
  · rintro ⟨w, r, ⟨hne, hw⟩, hr, h⟩
    exact ⟨w, r, hr, hne, hw, h⟩

theorem Parses.seq (ha : Parses a G) (hb : Parses b H) : Parses (.seq a b) (G.seq H) := by
  intro st st'
  rw [mem_run_seq]
  constructor
  · rintro ⟨m, hm, h⟩
    obtain ⟨x, r, hx, hr, rfl⟩ := (ha st m).mp hm
    obtain ⟨y, r', hy, hr', rfl⟩ := (hb _ st').mp h
    refine ⟨(x, y), r', ⟨hx, hy⟩, ?_, by simp [Grammar.seq]⟩
    show st.after = G.text x ++ H.text y ++ r'
    rw [hr, List.append_assoc, ← hr']
  · rintro ⟨⟨x, y⟩, r, ⟨hx, hy⟩, hr, rfl⟩
    have hr' : st.after = G.text x ++ (H.text y ++ r) := by
      rw [hr, ← List.append_assoc]
      rfl
    refine ⟨_, (ha st _).mpr ⟨x, H.text y ++ r, hx, hr', rfl⟩, (hb _ _).mpr ?_⟩
    exact ⟨y, r, hy, rfl, by simp [Grammar.seq]⟩

theorem Parses.opt (ha : Parses a G) : Parses (Re.opt a) G.opt := by
  intro st st'
  rw [mem_run_opt]
  constructor
  · rintro (h | rfl)
    · obtain ⟨x, r, hx, hr, rfl⟩ := (ha st st').mp h
      exact ⟨some x, r, by simpa [Grammar.opt] using hx, hr, rfl⟩
    · exact ⟨none, st'.after, by simp [Grammar.opt], rfl, by simp [Grammar.opt]⟩
  · rintro ⟨x, r, hx, hr, rfl⟩
    cases x with
    | none =>
        right
        show St.mk (st.before ++ []) r st.caps = st
        rw [List.append_nil, show r = st.after from hr.symm]
    | some x =>
        have hx' : G.wf x := by simpa [Grammar.opt] using hx
        exact Or.inl ((ha st _).mpr ⟨x, r, hx', hr, rfl⟩)

theorem Parses.grp (ha : Parses a G) (n : Nat) : Parses (.grp n a) (G.grp n) := by
  intro st st'
  rw [mem_run_grp]
  constructor
  · rintro ⟨m, hm, rfl⟩
    obtain ⟨x, r, hx, hr, rfl⟩ := (ha st m).mp hm
    exact ⟨x, r, hx, hr, by simp [Grammar.grp]⟩
  · rintro ⟨x, r, hx, hr, rfl⟩
    exact ⟨_, (ha st _).mpr ⟨x, r, hx, hr, rfl⟩, by simp [Grammar.grp]⟩

theorem parses_anyOf : (ws : List Str) → Parses (Re.anyOf ws) (.oneOf ws)
  | [] => by
      intro st st'
      rw [Re.anyOf, mem_run_cls]
      constructor
      · rintro ⟨c, r, -, hc, -⟩
        cases hc
      · rintro ⟨x, r, hx, -⟩
        cases hx
  | [w] => by
      intro st st'
      rw [Re.anyOf, mem_run_lit]
      constructor
      · rintro ⟨r, hr, rfl⟩
        exact ⟨w, r, List.mem_singleton.mpr rfl, hr, rfl⟩
      · rintro ⟨x, r, hx, hr, rfl⟩
        obtain rfl := List.mem_singleton.mp hx
        exact ⟨r, hr, rfl⟩
  | w :: w' :: ws => by
      intro st st'
      rw [Re.anyOf, mem_run_alt, mem_run_lit, parses_anyOf (w' :: ws) st st']
      · constructor
        · rintro (⟨r, hr, rfl⟩ | ⟨x, r, hx, hr, rfl⟩)
          · exact ⟨w, r, List.mem_cons_self, hr, rfl⟩
          · exact ⟨x, r, List.mem_cons_of_mem w hx, hr, rfl⟩
        · rintro ⟨x, r, hx, hr, rfl⟩
          rcases List.mem_cons.mp hx with rfl | hx
          · exact Or.inl ⟨r, hr, rfl⟩
          · exact Or.inr ⟨x, r, hx, hr, rfl⟩
      · exact List.cons_ne_nil w' ws

theorem Parses.after (ha : Parses a G) (s : Str) : Parses (.seq (.lit s) a) (G.after s) := by
  intro st st'
  rw [mem_run_seq]
  constructor
  · rintro ⟨m, hm, h⟩
    obtain ⟨r, hr, rfl⟩ := mem_run_lit.mp hm
    obtain ⟨x, r', hx, hr', rfl⟩ := (ha _ st').mp h
    refine ⟨x, r', hx, ?_, by simp [Grammar.after]⟩
    rw [hr, show r = _ from hr']
    simp [Grammar.after]
  · rintro ⟨x, r, hx, hr, rfl⟩
    refine ⟨_, mem_run_lit.mpr ⟨G.text x ++ r, ?_, rfl⟩, (ha _ _).mpr ?_⟩
    · rw [hr]; simp [Grammar.after]
    · exact ⟨x, r, hx, rfl, by simp [Grammar.after]⟩

theorem Parses.before (ha : Parses a G) (s : Str) : Parses (.seq a (.lit s)) (G.before s) := by
  intro st st'
  rw [mem_run_seq]
  constructor
  · rintro ⟨m, hm, h⟩
    obtain ⟨x, r, hx, hr, rfl⟩ := (ha st m).mp hm
    obtain ⟨r', hr', rfl⟩ := mem_run_lit.mp h
    refine ⟨x, r', hx, ?_, by simp [Grammar.before]⟩
    rw [hr, show r = _ from hr']
    simp [Grammar.before]
  · rintro ⟨x, r, hx, hr, rfl⟩
    refine ⟨_, (ha st _).mpr ⟨x, s ++ r, hx, ?_, rfl⟩, mem_run_lit.mpr ⟨r, rfl, ?_⟩⟩
    · rw [hr]; simp [Grammar.before]
    · simp [Grammar.before]

/-- Repeating a pattern whose texts are not empty. -/
theorem Parses.many (ha : Parses a G) (hne : ∀ x, G.wf x → G.text x ≠ []) (g : Bool) :
    Parses (.star g a) G.many := by
  intro st st'
  rw [mem_run_star]
  constructor
  · intro h
    induction h with
    | refl st => exact ⟨[], st.after, by simp [Grammar.many], rfl, by simp [Grammar.many]⟩
    | step hm _ _ ih =>
        obtain ⟨x, r, hx, hr, rfl⟩ := (ha _ _).mp hm
        obtain ⟨xs, r', hxs, hr', rfl⟩ := ih
        refine ⟨x :: xs, r', List.forall_mem_cons.mpr ⟨hx, hxs⟩, ?_, by simp [Grammar.many]⟩
        rw [hr, show r = _ from hr']
        simp [Grammar.many]
  · rintro ⟨xs, r, hxs, hr, rfl⟩
    induction xs generalizing st with
    | nil =>
        show Iter a.run st ⟨st.before ++ [], r, st.caps⟩
        rw [List.append_nil, show r = st.after from hr.symm]
        exact .refl st
    | cons x xs ih =>
        obtain ⟨hx, hxs⟩ := List.forall_mem_cons.mp hxs
        have hr' : st.after = G.text x ++ (G.many.text xs ++ r) := by
          rw [hr]
          simp [Grammar.many]
        have hlen : 0 < (G.text x).length := List.length_pos_iff.mpr (hne x hx)
        refine .step ((ha st _).mpr ⟨x, _, hx, hr', rfl⟩) ?_ ?_
        · show (G.many.text xs ++ r).length < st.after.length
          rw [hr']
          simp only [List.length_append]
          omega
        · have hrest := ih ⟨st.before ++ G.text x, G.many.text xs ++ r, G.caps x st.caps⟩ hxs rfl
          simpa [Grammar.many] using hrest

/-! ### A whole subject -/

/-- The ends at which `$` lets a match end. -/
def AtEnd (e : Str) : Prop := e = [] ∨ e = ['\n']

theorem Parses.mem_run_eol (ha : Parses a G) {s : Str} {st : St} :
    st ∈ (Re.seq a .eol).run (St.init s) ↔ ∃ x e, G.wf x ∧ AtEnd e ∧ s = G.text x ++ e ∧
      st = ⟨G.text x, e, G.caps x fun _ => none⟩ := by
  rw [mem_run_seq]
  constructor
  · rintro ⟨m, hm, h⟩
    obtain ⟨x, e, hx, hs, rfl⟩ := (ha _ m).mp hm
    obtain ⟨rfl, he⟩ := X86Scripts.Regex.mem_run_eol.mp h
    exact ⟨x, e, hx, he, hs, rfl⟩
  · rintro ⟨x, e, hx, he, hs, rfl⟩
    exact ⟨_, (ha _ _).mpr ⟨x, e, hx, hs, rfl⟩, X86Scripts.Regex.mem_run_eol.mpr ⟨rfl, he⟩⟩

/-- What a match up to `$` says about the subject. -/
theorem Parses.of_exec (ha : Parses a G) {s : Str} {st : St}
    (h : (Re.seq a .eol).exec s = some st) : ∃ x e, G.wf x ∧ AtEnd e ∧ s = G.text x ++ e ∧
      st.caps = G.caps x fun _ => none := by
  obtain ⟨x, e, hx, he, hs, rfl⟩ := ha.mem_run_eol.mp (mem_of_exec h)
  exact ⟨x, e, hx, he, hs, rfl⟩

/-- **Matching the text of a value**: the groups are those of the value, if every value with that
text has the same groups. -/
theorem Parses.exec_text (ha : Parses a G) {s e : Str} {x : α} (hx : G.wf x) (he : AtEnd e)
    (hs : s = G.text x ++ e) (huniq : ∀ y e', G.wf y → AtEnd e' → G.text x ++ e = G.text y ++ e' →
      G.caps y (fun _ => none) = G.caps x fun _ => none) :
    ∃ st, (Re.seq a .eol).exec s = some st ∧ st.caps = G.caps x fun _ => none := by
  apply exec_of_forall (ha.mem_run_eol.mpr ⟨x, e, hx, he, hs, rfl⟩)
  intro st hst
  obtain ⟨y, e', hy, he', hs', rfl⟩ := ha.mem_run_eol.mp hst
  exact huniq y e' hy he' (hs.symm.trans hs')

/-- What a match up to `\b` says about the subject. -/
theorem Parses.of_exec_wordB (ha : Parses a G) {w : Char → Bool} {s : Str} {st : St}
    (h : (Re.seq a (.wordB w)).exec s = some st) : ∃ x r, G.wf x ∧ s = G.text x ++ r ∧
      atBoundary w ⟨G.text x, r, st.caps⟩ = true ∧ st.caps = G.caps x fun _ => none := by
  obtain ⟨m, hm, hst⟩ := mem_run_seq.mp (mem_of_exec h)
  obtain ⟨x, r, hx, hs, rfl⟩ := (ha _ m).mp hm
  obtain ⟨rfl, hb⟩ := mem_run_wordB.mp hst
  exact ⟨x, r, hx, hs, hb, rfl⟩

theorem Parses.exec_eq_none_iff (ha : Parses a G) {s : Str} :
    (Re.seq a .eol).exec s = none ↔ ∀ x e, G.wf x → AtEnd e → s ≠ G.text x ++ e := by
  rw [X86Scripts.Regex.exec_eq_none_iff]
  constructor
  · intro h x e hx he hs
    exact h _ (ha.mem_run_eol.mpr ⟨x, e, hx, he, hs, rfl⟩)
  · intro h st hst
    obtain ⟨x, e, hx, he, hs, -⟩ := ha.mem_run_eol.mp hst
    exact h x e hx he hs

end parses

/-! ## Unique readability of a grammar -/

/-- The text of a value can be read back off the front of a longer text in one way only, if what
follows it satisfies `F`. -/
def Grammar.Unique {α : Type} (G : Grammar α) (F : Str → Prop) : Prop :=
  ∀ x y r s, G.wf x → G.wf y → F r → F s → G.text x ++ r = G.text y ++ s → x = y ∧ r = s

section unique

variable {α β : Type} {G : Grammar α} {H : Grammar β} {F K : Str → Prop} {p : Char → Bool}

theorem unique_cls : (Grammar.cls p).Unique fun _ => True := by
  intro c d r s _ _ _ _ h
  exact List.cons.inj h

theorem unique_run : (Grammar.run p).Unique (Stops p) :=
  fun _ _ _ _ hx hy hr hs h => append_inj_of_run h hx hy hr hs

theorem unique_run1 : (Grammar.run1 p).Unique (Stops p) :=
  fun _ _ _ _ hx hy hr hs h => append_inj_of_run h hx.2 hy.2 hr hs

/-- Texts of one length. -/
theorem unique_oneOf {ws : List Str} (n : Nat) (h : ∀ w ∈ ws, w.length = n) :
    (Grammar.oneOf ws).Unique fun _ => True := by
  intro x y r s hx hy _ _ heq
  exact List.append_inj heq ((h x hx).trans (h y hy).symm)

theorem Grammar.Unique.grp (hG : G.Unique F) (n : Nat) : (G.grp n).Unique F := hG

theorem Grammar.Unique.mono (hG : G.Unique F) (hKF : ∀ r, K r → F r) : G.Unique K :=
  fun x y r s hx hy hr hs h => hG x y r s hx hy (hKF r hr) (hKF s hs) h

theorem Grammar.Unique.after (hG : G.Unique F) (t : Str) : (G.after t).Unique F := by
  intro x y r s hx hy hr hs h
  simp only [Grammar.after, List.append_assoc] at h
  exact hG x y r s hx hy hr hs (List.append_cancel_left h)

theorem Grammar.Unique.before (hG : G.Unique F) {t : Str} (ht : ∀ r, K r → F (t ++ r)) :
    (G.before t).Unique K := by
  intro x y r s hx hy hr hs h
  simp only [Grammar.before, List.append_assoc] at h
  obtain ⟨hxy, hrs⟩ := hG x y _ _ hx hy (ht r hr) (ht s hs) h
  exact ⟨hxy, List.append_cancel_left hrs⟩

theorem Grammar.Unique.seq (hG : G.Unique F) (hH : H.Unique K)
    (hF : ∀ y r, H.wf y → K r → F (H.text y ++ r)) : (G.seq H).Unique K := by
  rintro ⟨x, y⟩ ⟨x', y'⟩ r s ⟨hx, hy⟩ ⟨hx', hy'⟩ hr hs h
  simp only [Grammar.seq, List.append_assoc] at h
  obtain ⟨rfl, hrest⟩ := hG x x' _ _ hx hx' (hF y r hy hr) (hF y' s hy' hs) h
  obtain ⟨rfl, hrs⟩ := hH y y' r s hy hy' hr hs hrest
  exact ⟨rfl, hrs⟩

/-- An optional value is there exactly when the text goes on with its first character. -/
theorem Grammar.Unique.opt (hG : G.Unique F) (c : Char)
    (hc : ∀ x, G.wf x → (G.text x).head? = some c) (hKF : ∀ r, K r → F r)
    (hK : ∀ r, K r → r.head? ≠ some c) : G.opt.Unique K := by
  have hhead : ∀ x r, G.wf x → (G.text x ++ r).head? = some c := by
    intro x r hx
    rw [List.head?_append, hc x hx]
    rfl
  intro x y r s hx hy hr hs h
  cases x with
  | none =>
      cases y with
      | none => exact ⟨rfl, h⟩
      | some y =>
          have hr' : r = G.text y ++ s := h
          exact absurd (hr' ▸ hhead y s (hy y rfl)) (hK r hr)
  | some x =>
      cases y with
      | none =>
          have hs' : G.text x ++ r = s := h
          exact absurd (hs' ▸ hhead x r (hx x rfl)) (hK s hs)
      | some y =>
          obtain ⟨rfl, hrs⟩ := hG x y r s (hx x rfl) (hy y rfl) (hKF r hr) (hKF s hs) h
          exact ⟨rfl, hrs⟩

/-- Matching the text of a value of an unambiguous grammar. -/
theorem Parses.exec_unique {a : Re} (ha : Parses a G) (hG : G.Unique AtEnd) {x : α} (hx : G.wf x)
    {e : Str} (he : AtEnd e) : ∃ st, (Re.seq a .eol).exec (G.text x ++ e) = some st ∧
      st.caps = G.caps x fun _ => none := by
  apply ha.exec_text hx he rfl
  intro y e' hy he' h
  obtain ⟨rfl, -⟩ := hG x y e e' hx hy he he' h
  rfl

end unique

end Regex
end X86Scripts
