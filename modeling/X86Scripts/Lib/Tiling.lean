import Mathlib

/-!
# Items laid out one behind the other

Items that take up room are placed one behind the other, in segments that do not overlap. An item is
found by its position in two ways: by its entry in the list of all positions, or by walking through
the segment that covers the position.

* `place`, `walk`: positions from a start on, and the way back from an offset.
* `Segment`, `Apart`, `flat`, `fetch`: several runs of items.
* `find`, **`find_eq_some_iff`**: an association list with distinct keys; `find_map`.
* **`find_flat`**: both ways of looking up agree.
-/

namespace X86Scripts.Tiling

/-! ## Association lists -/

section find

variable {κ α : Type} [BEq κ]

/-- The value of the first entry with a key. -/
def find (l : List (κ × α)) (k : κ) : Option α := (l.find? fun e => e.1 == k).map Prod.snd

@[simp] theorem find_nil (k : κ) : find ([] : List (κ × α)) k = none := rfl

theorem find_cons (e : κ × α) (l : List (κ × α)) (k : κ) :
    find (e :: l) k = if e.1 == k then some e.2 else find l k := by
  unfold find
  rw [List.find?_cons]
  cases e.1 == k <;> rfl

/-- **Keys and values that are renamed.** -/
theorem find_map {κ' β : Type} [BEq κ'] {l : List (κ × α)} {g : κ → κ'} {k : κ} {k' : κ'}
    (hkey : ∀ e ∈ l, (g e.1 == k') = (e.1 == k)) (f : α → β) :
    find (l.map fun e => (g e.1, f e.2)) k' = (find l k).map f := by
  induction l with
  | nil => rfl
  | cons e l ih =>
      obtain ⟨he, hl⟩ := List.forall_mem_cons.mp hkey
      rw [List.map_cons, find_cons, find_cons, he, ih hl]
      cases e.1 == k <;> rfl

variable [LawfulBEq κ]

theorem mem_of_find {l : List (κ × α)} {k : κ} {x : α} (h : find l k = some x) : (k, x) ∈ l := by
  obtain ⟨⟨k', x'⟩, hfind, rfl⟩ := Option.map_eq_some_iff.mp h
  obtain rfl : k' = k := eq_of_beq (List.find?_some (p := fun e : κ × α => e.1 == k) hfind)
  exact List.mem_of_find?_eq_some hfind

/-- **With distinct keys, what is found is what is in the list.** -/
theorem find_eq_some_iff {l : List (κ × α)} (hnodup : (l.map Prod.fst).Nodup) {k : κ} {x : α} :
    find l k = some x ↔ (k, x) ∈ l := by
  refine ⟨mem_of_find, fun hmem => ?_⟩
  cases hfind : l.find? fun e => e.1 == k with
  | none => exact absurd (beq_self_eq_true k) (List.find?_eq_none.mp hfind (k, x) hmem)
  | some e =>
      have hkey : e.1 = k := eq_of_beq (List.find?_some (p := fun e : κ × α => e.1 == k) hfind)
      have he : e = (k, x) :=
        List.inj_on_of_nodup_map hnodup (List.mem_of_find?_eq_some hfind) hmem hkey
      rw [find, hfind, he]
      rfl

end find

section layout

variable {α : Type} (size : α → Nat)

/-! ## One run of items -/

/-- The room items take. -/
def room (xs : List α) : Nat := (xs.map size).sum

@[simp] theorem room_cons (x : α) (xs : List α) : room size (x :: xs) = size x + room size xs := by
  rw [room, List.map_cons, List.sum_cons, room]

/-- Items one behind the other, each with the position it starts at. -/
def place : Nat → List α → List (Nat × α)
  | _, [] => []
  | a, x :: xs => (a, x) :: place (a + size x) xs

/-- The item that starts at an offset from the first. -/
def walk : List α → Nat → Option α
  | [], _ => none
  | x :: xs, k => if k = 0 then some x else if k < size x then none else walk xs (k - size x)

/-- A placed item lies in the room of the run. -/
theorem place_range {xs : List α} {a p : Nat} {x : α} (h : (p, x) ∈ place size a xs) :
    x ∈ xs ∧ a ≤ p ∧ p + size x ≤ a + room size xs := by
  induction xs generalizing a with
  | nil => cases h
  | cons y ys ih =>
      rw [room_cons]
      rcases List.mem_cons.mp h with h | h
      · obtain ⟨rfl, rfl⟩ := Prod.mk.inj h
        exact ⟨List.mem_cons_self, Nat.le_refl _, by omega⟩
      · obtain ⟨hmem, hlo, hhi⟩ := ih h
        exact ⟨List.mem_cons_of_mem _ hmem, by omega, by omega⟩

/-- Of two placed items the first ends before the second starts. -/
theorem place_pairwise (xs : List α) (a : Nat) :
    (place size a xs).Pairwise fun p q => p.1 + size p.2 ≤ q.1 := by
  induction xs generalizing a with
  | nil => exact .nil
  | cons x xs ih => exact .cons (fun q hq => (place_range size hq).2.1) (ih _)

/-- **Walking finds the placed items.** -/
theorem walk_eq_some_iff {xs : List α} (hpos : ∀ x ∈ xs, 0 < size x) (a k : Nat) {x : α} :
    walk size xs k = some x ↔ (a + k, x) ∈ place size a xs := by
  induction xs generalizing a k with
  | nil => exact ⟨fun h => absurd h.symm (Option.some_ne_none x), fun h => absurd h List.not_mem_nil⟩
  | cons y ys ih =>
      obtain ⟨hy, hpos⟩ := List.forall_mem_cons.mp hpos
      have hbehind : ∀ {p}, (p, x) ∈ place size (a + size y) ys → a + size y ≤ p :=
        fun h => (place_range size h).2.1
      unfold walk
      rw [place, List.mem_cons, Prod.mk.injEq]
      by_cases hzero : k = 0
      · -- the first item starts here, and no other
        rw [if_pos hzero, hzero, Option.some.injEq]
        refine ⟨fun h => Or.inl ⟨rfl, h.symm⟩, fun h => ?_⟩
        rcases h with h | h
        · exact h.2.symm
        · have := hbehind h
          omega
      · rw [if_neg hzero]
        by_cases hinside : k < size y
        · rw [if_pos hinside]
          refine ⟨fun h => absurd h.symm (Option.some_ne_none x), fun h => ?_⟩
          rcases h with h | h
          · omega
          · have := hbehind h
            omega
        · rw [if_neg hinside, ih hpos (a + size y)]
          have hsum : a + size y + (k - size y) = a + k := by omega
          rw [hsum]
          exact ⟨Or.inr, fun h => h.resolve_left fun h => by omega⟩

/-! ## Several runs -/

/-- A run of items from a position on. -/
structure Segment (α : Type) where
  start : Nat
  items : List α

/-- The position behind the last item. -/
def Segment.stop (s : Segment α) : Nat := s.start + room size s.items

/-- The position lies in the segment. -/
def Segment.covers (s : Segment α) (p : Nat) : Bool := s.start ≤ p && p < s.stop size

/-- No two segments overlap. -/
def Apart (segs : List (Segment α)) : Prop :=
  segs.Pairwise fun s t => s.stop size ≤ t.start ∨ t.stop size ≤ s.start

/-- All items with their positions. -/
def flat (segs : List (Segment α)) : List (Nat × α) :=
  segs.flatMap fun s => place size s.start s.items

/-- The item that starts at a position, found in the segment that covers it. -/
def fetch (segs : List (Segment α)) (p : Nat) : Option α :=
  (segs.find? (·.covers size p)).bind fun s => walk size s.items (p - s.start)

variable {size}

/-- A placed item starts where its segment covers. -/
theorem covers_of_mem {s : Segment α} {p : Nat} {x : α} (hx : 0 < size x)
    (h : (p, x) ∈ place size s.start s.items) : s.covers size p = true := by
  obtain ⟨-, hlo, hhi⟩ := place_range size h
  simp only [Segment.covers, Bool.and_eq_true, decide_eq_true_eq]
  refine ⟨hlo, Nat.lt_of_lt_of_le ?_ hhi⟩
  omega

theorem not_covers {s t : Segment α} (h : s.stop size ≤ t.start ∨ t.stop size ≤ s.start) {p : Nat}
    (hs : s.covers size p = true) : t.covers size p = false := by
  simp only [Segment.covers, Bool.and_eq_true, decide_eq_true_eq] at hs
  simp only [Segment.covers, Bool.and_eq_false_iff, decide_eq_false_iff_not]
  omega

/-- The start of an item tells items apart. -/
theorem flat_nodup {segs : List (Segment α)} (hpos : ∀ s ∈ segs, ∀ x ∈ s.items, 0 < size x)
    (hapart : Apart size segs) : ((flat size segs).map Prod.fst).Nodup := by
  unfold flat
  rw [List.map_flatMap, List.nodup_flatMap]
  constructor
  · intro s hs
    have hlt : (place size s.start s.items).Pairwise fun p q => p.1 ≠ q.1 := by
      refine (place_pairwise size s.items s.start).imp_of_mem fun {p q} hp hq h heq => ?_
      have := hpos s hs p.2 (place_range size hp).1
      omega
    exact List.pairwise_map.mpr hlt
  · refine hapart.imp_of_mem fun {s t} hs ht h => ?_
    rw [Function.onFun, List.disjoint_left]
    intro p hp hq
    obtain ⟨⟨p', x⟩, hx, rfl⟩ := List.mem_map.mp hp
    obtain ⟨⟨q', y⟩, hy, hqp⟩ := List.mem_map.mp hq
    obtain rfl : q' = p' := hqp
    have hcs := covers_of_mem (hpos s hs x (place_range size hx).1) hx
    have hct := covers_of_mem (hpos t ht y (place_range size hy).1) hy
    rw [not_covers h hcs] at hct
    cases hct

/-- The segment that covers a position is the one that is found. -/
theorem find_covers {segs : List (Segment α)} (hapart : Apart size segs) {s : Segment α}
    (hs : s ∈ segs) {p : Nat} (hcov : s.covers size p = true) :
    segs.find? (·.covers size p) = some s := by
  induction segs with
  | nil => cases hs
  | cons t segs ih =>
      obtain ⟨ht, hapart⟩ := List.pairwise_cons.mp hapart
      rcases List.mem_cons.mp hs with rfl | hs
      · exact List.find?_cons_of_pos hcov
      · have hnot : t.covers size p = false := not_covers (ht s hs).symm hcov
        rw [List.find?_cons_of_neg (by rw [hnot]; exact Bool.false_ne_true), ih hapart hs]

theorem fetch_eq_some_iff {segs : List (Segment α)}
    (hpos : ∀ s ∈ segs, ∀ x ∈ s.items, 0 < size x) (hapart : Apart size segs) {p : Nat} {x : α} :
    fetch size segs p = some x ↔ (p, x) ∈ flat size segs := by
  unfold fetch flat
  rw [Option.bind_eq_some_iff, List.mem_flatMap]
  constructor
  · rintro ⟨s, hfind, hwalk⟩
    have hs := List.mem_of_find?_eq_some hfind
    have hcov : s.covers size p = true :=
      List.find?_some (p := fun s : Segment α => s.covers size p) hfind
    simp only [Segment.covers, Bool.and_eq_true, decide_eq_true_eq] at hcov
    have hplace := (walk_eq_some_iff size (hpos s hs) s.start _).mp hwalk
    rw [Nat.add_sub_cancel' hcov.1] at hplace
    exact ⟨s, hs, hplace⟩
  · rintro ⟨s, hs, hplace⟩
    obtain ⟨hx, hlo, -⟩ := place_range size hplace
    refine ⟨s, find_covers hapart hs (covers_of_mem (hpos s hs x hx) hplace), ?_⟩
    rw [walk_eq_some_iff size (hpos s hs) s.start, Nat.add_sub_cancel' hlo]
    exact hplace

/-- **Both ways of looking up agree.** -/
theorem find_flat {segs : List (Segment α)} (hpos : ∀ s ∈ segs, ∀ x ∈ s.items, 0 < size x)
    (hapart : Apart size segs) (p : Nat) : find (flat size segs) p = fetch size segs p := by
  apply Option.ext
  intro x
  rw [find_eq_some_iff (flat_nodup hpos hapart), fetch_eq_some_iff hpos hapart]

end layout

end X86Scripts.Tiling
