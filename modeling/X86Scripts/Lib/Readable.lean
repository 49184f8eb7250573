import X86Scripts.Lib.Regex

/-!
# Uniquely readable printers

A printer is readable when its output can be split off the front of a longer text in one way
only, as long as the rest does not continue a run of name characters. Names are printed so, and
so is everything put together from readable parts and fixed texts.

* `Readable`: the notion, `Readable.injective` its use on whole texts.
* `Readable.sep_inj_iff`: the rewriting rule that takes a printed value and its separator off both
  sides of an equation between texts.
* `readable_names`, `Readable.lit_append`, `Readable.append_lit`, `Readable.comp`,
  `Readable.option`: how readable printers are built.
-/

namespace X86Scripts.Print

open X86Scripts.Regex (Stops stops_cons stops_nil append_inj_of_run)

variable {α β : Type} {p : Char → Bool}

/-- What `f` prints can be read back off the front of any text whose rest does not start with a
`p`-character. -/
def Readable (p : Char → Bool) (f : α → Str) : Prop :=
  ∀ a b r s, Stops p r → Stops p s → f a ++ r = f b ++ s → a = b ∧ r = s

theorem Readable.injective {f : α → Str} (hf : Readable p f) : Function.Injective f := by
  intro a b hab
  exact (hf a b [] [] (stops_nil p) (stops_nil p) (by rw [hab])).1

/-- Taking a printed value off both sides of an equation. -/
theorem Readable.append_inj_iff {f : α → Str} (hf : Readable p f) {r s : Str} (hr : Stops p r)
    (hs : Stops p s) {a b : α} : f a ++ r = f b ++ s ↔ a = b ∧ r = s := by
  constructor
  · exact hf a b r s hr hs
  · rintro ⟨rfl, rfl⟩
    rfl

/-- **Taking a printed value and the separator behind it off both sides of an equation.** The
separator stops the run of `p`-characters. -/
theorem Readable.sep_inj_iff {f : α → Str} (hf : Readable p f) (sep : Str)
    (hsep : sep.head?.any (fun c => !p c) = true) {a b : α} {r s : Str} :
    f a ++ (sep ++ r) = f b ++ (sep ++ s) ↔ a = b ∧ r = s := by
  cases sep with
  | nil => cases hsep
  | cons c sep =>
      have hc : p c = false := by simpa using hsep
      have hstop : ∀ t, Stops p (c :: sep ++ t) := fun t => stops_cons.mpr hc
      rw [hf.append_inj_iff (hstop r) (hstop s), List.append_cancel_left_eq]

/-- Two texts that start with fixed texts which differ in their first `k` characters. -/
theorem append_ne_of_take {u v : Str} (k : Nat)
    (h : k ≤ u.length ∧ k ≤ v.length ∧ u.take k ≠ v.take k) (r s : Str) : u ++ r ≠ v ++ s := by
  intro heq
  have htake := congrArg (List.take k) heq
  rw [List.take_append_of_le_length h.1, List.take_append_of_le_length h.2.1] at htake
  exact h.2.2 htake

/-- Distinct names of `p`-characters. -/
theorem readable_names {f : α → Str} (hinj : Function.Injective f)
    (hp : ∀ a, ∀ c ∈ f a, p c = true) : Readable p f := by
  intro a b r s hr hs h
  obtain ⟨hab, hrs⟩ := append_inj_of_run h (hp a) (hp b) hr hs
  exact ⟨hinj hab, hrs⟩

/-- A fixed text in front. -/
theorem Readable.lit_append {f : α → Str} (hf : Readable p f) (pre : Str) :
    Readable p fun a => pre ++ f a := by
  intro a b r s hr hs h
  rw [List.append_assoc, List.append_assoc] at h
  exact hf a b r s hr hs (List.append_cancel_left h)

/-- A fixed text behind, which stops the run of `p`-characters. -/
theorem Readable.append_lit {f : α → Str} (hf : Readable p f) (post : Str)
    (hpost : post.head?.any (fun c => !p c) = true) : Readable p fun a => f a ++ post := by
  intro a b r s _ _ h
  rw [List.append_assoc, List.append_assoc] at h
  exact (hf.sep_inj_iff post hpost).mp h

/-- A readable printer after an injective function. -/
theorem Readable.comp {f : β → Str} (hf : Readable p f) {g : α → β} (hg : Function.Injective g) :
    Readable p fun a => f (g a) := by
  intro a b r s hr hs h
  obtain ⟨hab, hrs⟩ := hf _ _ r s hr hs h
  exact ⟨hg hab, hrs⟩

/-- An optional value, `none` being printed as a text that no printed value starts with. -/
theorem Readable.option {f : α → Str} (hf : Readable p f) {none' : Str} {g : Option α → Str}
    (hnone : g none = none') (hsome : ∀ a, g (some a) = f a)
    (hne : ∀ a r s, none' ++ r ≠ f a ++ s) : Readable p g := by
  intro a b r s hr hs h
  cases a with
  | none =>
      cases b with
      | none => exact ⟨rfl, List.append_cancel_left (hnone ▸ h)⟩
      | some b => exact absurd (hnone ▸ hsome b ▸ h) (hne b r s)
  | some a =>
      cases b with
      | none => exact absurd (hnone ▸ hsome a ▸ h.symm) (hne a s r)
      | some b =>
          rw [hsome, hsome] at h
          obtain ⟨rfl, hrs⟩ := hf a b r s hr hs h
          exact ⟨rfl, hrs⟩

end X86Scripts.Print
