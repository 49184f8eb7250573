import Mathlib

/-!
# Splitting a list into classes

A list is dealt out by a key, one class for each of finitely many keys.

* `classOf`: the items with a given key.
* **`flatMap_classOf_perm`**: the classes of distinct keys that cover a list make it up, each item
  as often as it stands there.
* `mergeSort_eq_range`: the numbers below a bound have one sorted list.
-/

namespace X86Scripts.Classes

variable {α κ : Type} [DecidableEq κ]

/-- The items of a list whose key is `k`, in order. -/
def classOf (key : α → κ) (l : List α) (k : κ) : List α := l.filter fun a => key a = k

/-- Items of another class do not matter to a class. -/
theorem classOf_filter_ne {key : α → κ} {l : List α} {k k' : κ} (h : k' ≠ k) :
    classOf key (l.filter fun a => key a ≠ k) k' = classOf key l k' := by
  unfold classOf
  rw [List.filter_filter]
  apply List.filter_congr
  intro a _
  by_cases hk : key a = k'
  · simp [hk, h]
  · simp [hk]

/-- **The classes make up the list.** -/
theorem flatMap_classOf_perm {key : α → κ} {keys : List κ} {l : List α} (hkeys : keys.Nodup)
    (h : ∀ a ∈ l, key a ∈ keys) : (keys.flatMap (classOf key l)).Perm l := by
  induction keys generalizing l with
  | nil =>
      cases l with
      | nil => exact .nil
      | cons a l => exact absurd (h a List.mem_cons_self) List.not_mem_nil
  | cons k keys ih =>
      obtain ⟨hk, hnodup⟩ := List.nodup_cons.mp hkeys
      have hrest : ∀ a ∈ l.filter fun a => key a ≠ k, key a ∈ keys := by
        intro a ha
        obtain ⟨hal, hne⟩ := List.mem_filter.mp ha
        exact (List.mem_cons.mp (h a hal)).resolve_left (of_decide_eq_true hne)
      have hothers : keys.flatMap (classOf key (l.filter fun a => key a ≠ k)) =
          keys.flatMap (classOf key l) := by
        apply List.flatMap_congr
        intro k' hk'
        exact classOf_filter_ne (ne_of_mem_of_not_mem hk' hk)
      have hsplit : (classOf key l k ++ l.filter fun a => key a ≠ k).Perm l := by
        simpa [classOf] using List.filter_append_perm (fun a => decide (key a = k)) l
      rw [List.flatMap_cons, ← hothers]
      exact ((ih hnodup hrest).append_left _).trans hsplit

/-- The numbers below a bound have one sorted list. -/
theorem mergeSort_eq_range {l : List Nat} {n : Nat} (h : l.Perm (List.range n)) :
    l.mergeSort (· ≤ ·) = List.range n := by
  have hsorted : (l.mergeSort (· ≤ ·)).Pairwise (· ≤ ·) := by
    have hle : (l.mergeSort (· ≤ ·)).Pairwise fun a b => decide (a ≤ b) = true :=
      List.pairwise_mergeSort (fun a b c => by simpa using Nat.le_trans)
        (fun a b => by simpa using Nat.le_total a b) l
    exact hle.imp fun hab => of_decide_eq_true hab
  have hperm : (l.mergeSort (· ≤ ·)).Perm (List.range n) := (List.mergeSort_perm l _).trans h
  exact hperm.eq_of_pairwise (fun a b _ _ hab hba => Nat.le_antisymm hab hba) hsorted
    (List.pairwise_lt_range.imp Nat.le_of_lt)

end X86Scripts.Classes
