import Mathlib

/-!
# Framing and canonical order

What makes a text that is put together from a collection of records determine the collection.

* `frame z`: the items of a list, each with a terminator `z` behind it; **`frame_inj`**: items
  without the terminator are read back.
* `fields`: the fields of pairs, in order.
* **`insertionSort_eq_iff_perm`**: two lists have the same sorted list exactly if they hold the same
  elements, each as often.
* `splitOn_lines`: a text of terminated lines, split at the terminator.
-/

namespace X86Scripts.Frame

variable {α : Type}

/-- Each item with a terminator behind it. -/
def frame (z : α) (l : List (List α)) : List α := l.flatMap (· ++ [z])

/-- Two splits at the first terminator are one split. -/
theorem append_terminator_inj {z : α} {a b r s : List α} (ha : z ∉ a) (hb : z ∉ b)
    (h : a ++ z :: r = b ++ z :: s) : a = b ∧ r = s := by
  induction a generalizing b with
  | nil =>
      cases b with
      | nil => exact ⟨rfl, (List.cons.inj h).2⟩
      | cons y b => exact absurd (List.cons.inj h).1 (List.ne_of_not_mem_cons hb)
  | cons x a ih =>
      cases b with
      | nil => exact absurd (List.cons.inj h).1.symm (List.ne_of_not_mem_cons ha)
      | cons y b =>
          obtain ⟨rfl, hrest⟩ := List.cons.inj h
          obtain ⟨rfl, hrs⟩ := ih (List.not_mem_of_not_mem_cons ha)
            (List.not_mem_of_not_mem_cons hb) hrest
          exact ⟨rfl, hrs⟩

/-- **Framed items are read back.** -/
theorem frame_inj {z : α} {l l' : List (List α)} (hl : ∀ a ∈ l, z ∉ a) (hl' : ∀ a ∈ l', z ∉ a)
    (h : frame z l = frame z l') : l = l' := by
  induction l generalizing l' with
  | nil =>
      cases l' with
      | nil => rfl
      | cons b l' =>
          have hnil : [] = b ++ [z] ++ frame z l' := h
          simp at hnil
  | cons a l ih =>
      cases l' with
      | nil =>
          have hnil : a ++ [z] ++ frame z l = [] := h
          simp at hnil
      | cons b l' =>
          obtain ⟨ha, hla⟩ := List.forall_mem_cons.mp hl
          obtain ⟨hb, hlb⟩ := List.forall_mem_cons.mp hl'
          have hcons : a ++ z :: frame z l = b ++ z :: frame z l' := by
            simpa [frame] using h
          obtain ⟨rfl, hrest⟩ := append_terminator_inj ha hb hcons
          rw [ih hla hlb hrest]

/-- The fields of a list of pairs. -/
def fields (l : List (List α × List α)) : List (List α) := l.flatMap fun x => [x.1, x.2]

theorem fields_inj {l l' : List (List α × List α)} (h : fields l = fields l') : l = l' := by
  induction l generalizing l' with
  | nil =>
      cases l' with
      | nil => rfl
      | cons y l' => cases h
  | cons x l ih =>
      cases l' with
      | nil => cases h
      | cons y l' =>
          obtain ⟨h1, htail⟩ := List.cons.inj h
          obtain ⟨h2, hrest⟩ := List.cons.inj htail
          rw [ih hrest, Prod.ext h1 h2]

/-- **Sorting forgets the order and nothing else.** -/
theorem insertionSort_eq_iff_perm {β : Type} [LinearOrder β] {l l' : List β} :
    l.insertionSort (· ≤ ·) = l'.insertionSort (· ≤ ·) ↔ l.Perm l' := by
  constructor
  · intro h
    have hl := l.perm_insertionSort (· ≤ ·)
    rw [h] at hl
    exact hl.symm.trans (l'.perm_insertionSort (· ≤ ·))
  · intro h
    refine List.Perm.eq_of_sortedLE (List.sortedLE_insertionSort) (List.sortedLE_insertionSort) ?_
    exact (l.perm_insertionSort (· ≤ ·)).trans (h.trans (l'.perm_insertionSort (· ≤ ·)).symm)

/-- A text of terminated lines splits into the lines and an empty rest. -/
theorem splitOn_lines [BEq α] [LawfulBEq α] {z : α} {ls : List (List α)} (h : ∀ l ∈ ls, z ∉ l) :
    (frame z ls).splitOn z = ls ++ [[]] := by
  have htext : frame z ls = [z].intercalate (ls ++ [[]]) := by
    clear h
    induction ls with
    | nil => rfl
    | cons l ls ih =>
        have hne : ls ++ [[]] ≠ [] := List.append_ne_nil_of_right_ne_nil ls (List.cons_ne_nil _ _)
        obtain ⟨m, ms, hms⟩ := List.exists_cons_of_ne_nil hne
        have hcons : frame z (l :: ls) = l ++ [z] ++ frame z ls := rfl
        rw [hcons, ih, List.cons_append, hms, List.intercalate_cons_cons, List.append_assoc]
  rw [htext, List.splitOn_intercalate]
  · intro l hl
    rcases List.mem_append.mp hl with hl | hl
    · exact h l hl
    · rw [List.mem_singleton.mp hl]
      exact List.not_mem_nil
  · exact List.append_ne_nil_of_right_ne_nil ls (List.cons_ne_nil _ _)

end X86Scripts.Frame
