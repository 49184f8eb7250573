import Mathlib

/-!
# Programs that raise

Rules for programs in `Except`: what a program that returned went through, and a postcondition
with one part for the value and one for the exception.

* `bind_eq_ok`, `map_eq_ok`: inversion of a program that returned.
* `Ends Q E x`: the program `x` returns a value with `Q` or raises an exception with `E`; the rules
  `Ends.bind`, `Ends.map`, `Ends.mono` follow the program text.
* `mapM_eq_ok_iff`, **`mapM_eq_error_iff`**: running a program over a list stops at the first
  element that raises.
-/

namespace X86Scripts.Outcome

variable {ε α β : Type}

@[simp] theorem ok_bind (a : α) (f : α → Except ε β) : (Except.ok a >>= f) = f a := rfl

@[simp] theorem error_bind (e : ε) (f : α → Except ε β) : (Except.error e >>= f) = .error e := rfl

@[simp] theorem map_ok (f : α → β) (a : α) : f <$> (Except.ok a : Except ε α) = .ok (f a) := rfl

@[simp] theorem pure_eq (a : α) : (pure a : Except ε α) = .ok a := rfl

theorem bind_eq_ok {x : Except ε α} {f : α → Except ε β} {b : β} :
    (x >>= f) = .ok b ↔ ∃ a, x = .ok a ∧ f a = .ok b := by
  cases x <;> simp

theorem bind_eq_error {x : Except ε α} {f : α → Except ε β} {e : ε} :
    (x >>= f) = .error e ↔ x = .error e ∨ ∃ a, x = .ok a ∧ f a = .error e := by
  cases x <;> simp

theorem map_eq_ok {x : Except ε α} {f : α → β} {b : β} :
    f <$> x = .ok b ↔ ∃ a, x = .ok a ∧ f a = b := by
  cases x <;> simp

theorem map_eq_error {x : Except ε α} {f : α → β} {e : ε} :
    f <$> x = .error e ↔ x = .error e := by
  cases x <;> simp

/-! ## Postconditions -/

/-- The program returns a value with `Q` or raises an exception with `E`. -/
def Ends (Q : α → Prop) (E : ε → Prop) : Except ε α → Prop
  | .ok a => Q a
  | .error e => E e

variable {P Q : α → Prop} {R : β → Prop} {E : ε → Prop}

@[simp] theorem ends_ok {a : α} : Ends Q E (.ok a) ↔ Q a := Iff.rfl

@[simp] theorem ends_error {e : ε} : Ends Q E (.error e) ↔ E e := Iff.rfl

theorem Ends.of_ok {x : Except ε α} (h : Ends Q E x) {a : α} (hx : x = .ok a) : Q a := by
  subst hx
  exact h

theorem Ends.of_error {x : Except ε α} (h : Ends Q E x) {e : ε} (hx : x = .error e) : E e := by
  subst hx
  exact h

theorem Ends.imp {F : ε → Prop} {x : Except ε α} (h : Ends P E x) (hPQ : ∀ a, P a → Q a)
    (hEF : ∀ e, E e → F e) : Ends Q F x := by
  cases x with
  | ok a => exact hPQ a h
  | error e => exact hEF e h

theorem Ends.mono {x : Except ε α} (h : Ends P E x) (hPQ : ∀ a, P a → Q a) : Ends Q E x :=
  h.imp hPQ fun _ he => he

theorem Ends.bind {x : Except ε α} {f : α → Except ε β} (hx : Ends P E x)
    (hf : ∀ a, P a → Ends R E (f a)) : Ends R E (x >>= f) := by
  cases x with
  | ok a => exact hf a hx
  | error e => exact hx

theorem Ends.map {x : Except ε α} {f : α → β} (hx : Ends P E x) (hf : ∀ a, P a → R (f a)) :
    Ends R E (f <$> x) := by
  cases x with
  | ok a => exact hf a hx
  | error e => exact hx

theorem ends_ite {c : Prop} [Decidable c] {x y : Except ε α} (hx : c → Ends Q E x)
    (hy : ¬c → Ends Q E y) : Ends Q E (if c then x else y) := by
  by_cases h : c
  · rw [if_pos h]; exact hx h
  · rw [if_neg h]; exact hy h

/-! ## Lists -/

/-- A program over a list returns when it returns on every element. -/
theorem mapM_eq_ok_iff {f : α → Except ε β} {l : List α} {r : List β} :
    l.mapM f = .ok r ↔ List.Forall₂ (fun a b => f a = .ok b) l r := by
  induction l generalizing r with
  | nil =>
      rw [List.mapM_nil, List.forall₂_nil_left_iff, pure_eq, Except.ok.injEq]
      exact eq_comm
  | cons a l ih =>
      rw [List.mapM_cons, bind_eq_ok, List.forall₂_cons_left_iff]
      constructor
      · rintro ⟨b, hb, h⟩
        obtain ⟨bs, hbs, h⟩ := bind_eq_ok.mp h
        exact ⟨b, bs, hb, ih.mp hbs, (Except.ok.inj h).symm⟩
      · rintro ⟨b, bs, hb, hbs, rfl⟩
        exact ⟨b, hb, bind_eq_ok.mpr ⟨bs, ih.mpr hbs, rfl⟩⟩

/-- **It raises what the first element that raises raises.** -/
theorem mapM_eq_error_iff {f : α → Except ε β} {l : List α} {e : ε} :
    l.mapM f = .error e ↔ ∃ pre a post, l = pre ++ a :: post ∧ (∀ x ∈ pre, ∃ b, f x = .ok b) ∧
      f a = .error e := by
  induction l with
  | nil =>
      rw [List.mapM_nil, pure_eq]
      constructor
      · intro h; cases h
      · rintro ⟨pre, a, post, h, -⟩; simp at h
  | cons a l ih =>
      rw [List.mapM_cons, bind_eq_error]
      constructor
      · rintro (h | ⟨b, hb, h⟩)
        · exact ⟨[], a, l, rfl, by simp, h⟩
        · rcases bind_eq_error.mp h with h | ⟨bs, -, h⟩
          · obtain ⟨pre, a', post, rfl, hpre, ha'⟩ := ih.mp h
            exact ⟨a :: pre, a', post, rfl, List.forall_mem_cons.mpr ⟨⟨b, hb⟩, hpre⟩, ha'⟩
          · cases h
      · rintro ⟨pre, a', post, hl, hpre, ha'⟩
        cases pre with
        | nil =>
            obtain ⟨rfl, -⟩ := List.cons.inj hl
            exact Or.inl ha'
        | cons x pre =>
            obtain ⟨rfl, rfl⟩ := List.cons.inj hl
            obtain ⟨⟨b, hb⟩, hpre⟩ := List.forall_mem_cons.mp hpre
            exact Or.inr ⟨b, hb, bind_eq_error.mpr (Or.inl (ih.mpr ⟨pre, a', post, rfl, hpre, ha'⟩))⟩

end X86Scripts.Outcome
