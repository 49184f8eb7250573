import X86Scripts.Lib.Regex

/-!
# Digits: printing a number and reading it back

* `hex`, `dec`, `hexPad`: the lower-case hexadecimal text of a number (`f"{v:x}"`), its decimal
  text, and the hexadecimal text padded with zeros to a width (`f"{v:0{w}x}"`).
* `digitVal`, `ofDigits`: the value of one digit in bases up to 36, and of a digit sequence.
* `readDigits_toDigits`: reading the digits of `v` in base `b` gives `v` back; so the texts above
  are injective (`hex_inj`, `dec_inj`, `hexPad_inj`).
-/

namespace X86Scripts.Digits

/-- The value of a digit, in any base up to 36. -/
def digitVal (c : Char) : Option Nat :=
  if '0' ≤ c ∧ c ≤ '9' then some (c.toNat - '0'.toNat)
  else if 'a' ≤ c ∧ c ≤ 'z' then some (c.toNat - 'a'.toNat + 10)
  else if 'A' ≤ c ∧ c ≤ 'Z' then some (c.toNat - 'A'.toNat + 10)
  else none

/-- The value of a sequence of digit values, most significant first. -/
def ofDigits (b : Nat) (ds : List Nat) : Nat := ds.foldl (fun a d => a * b + d) 0

/-- `f"{v:x}"`. -/
def hex (v : Nat) : Str := Nat.toDigits 16 v

/-- `f"{v}"`. -/
def dec (v : Nat) : Str := Nat.toDigits 10 v

/-- `f"{v:0{w}x}"`. -/
def hexPad (w v : Nat) : Str := List.replicate (w - (hex v).length) '0' ++ hex v

/-- A lower-case hexadecimal digit, the class `[0-9a-f]`. -/
def isHex (c : Char) : Bool := ('0' ≤ c && c ≤ '9') || ('a' ≤ c && c ≤ 'f')

/-! ## Reading a list element by element -/

/-- `mapM` in `Option` succeeds when every element does. -/
theorem isSome_mapM {α β : Type} {f : α → Option β} {l : List α} :
    (l.mapM f).isSome ↔ ∀ a ∈ l, (f a).isSome := by
  induction l with
  | nil => simp
  | cons a l ih =>
      cases ha : f a with
      | none => simp [ha]
      | some b => cases hl : l.mapM f <;> simp [ha, hl] at ih ⊢ <;> exact ih

theorem mapM_congr_mem {α β : Type} {f g : α → Option β} {l : List α}
    (h : ∀ a ∈ l, f a = g a) : l.mapM f = l.mapM g := by
  induction l with
  | nil => rfl
  | cons a l ih =>
      rw [List.mapM_cons, List.mapM_cons, h a (by simp), ih fun b hb => h b (by simp [hb])]

/-- `mapM` in `Option` relates the elements to their images one by one. -/
theorem forall₂_of_mapM {α β : Type} {f : α → Option β} {l : List α} {r : List β}
    (h : l.mapM f = some r) : List.Forall₂ (fun a b => f a = some b) l r := by
  induction l generalizing r with
  | nil => simp at h; subst h; exact .nil
  | cons a l ih =>
      cases ha : f a with
      | none => simp [ha] at h
      | some b =>
          cases hl : l.mapM f with
          | none => simp [ha, hl] at h
          | some bs =>
              simp [ha, hl] at h
              subst h
              exact .cons ha (ih hl)

/-! ## Printing and reading back -/

@[simp] theorem ofDigits_nil (b : Nat) : ofDigits b [] = 0 := rfl

theorem ofDigits_append_singleton (b : Nat) (ds : List Nat) (d : Nat) :
    ofDigits b (ds ++ [d]) = ofDigits b ds * b + d := by
  simp [ofDigits]

theorem ofDigits_replicate_zero_append (b k : Nat) (ds : List Nat) :
    ofDigits b (List.replicate k 0 ++ ds) = ofDigits b ds := by
  induction k with
  | zero => rfl
  | succ k ih => simpa [ofDigits, List.replicate_succ] using ih

theorem digitVal_digitChar {d : Nat} (hd : d < 16) : digitVal (Nat.digitChar d) = some d := by
  have h : ∀ d : Fin 16, digitVal (Nat.digitChar d) = some d.val := by decide
  exact h ⟨d, hd⟩

theorem isHex_digitChar {d : Nat} (hd : d < 16) : isHex (Nat.digitChar d) = true := by
  have h : ∀ d : Fin 16, isHex (Nat.digitChar d) = true := by decide
  exact h ⟨d, hd⟩

/-- **Reading back**: the digits of `v` in base `b ≤ 16` have values below `b` that make up `v`. -/
theorem readDigits_toDigits {b : Nat} (hb : 1 < b) (hb' : b ≤ 16) (v : Nat) :
    ∃ ds, (Nat.toDigits b v).mapM digitVal = some ds ∧ (∀ d ∈ ds, d < b) ∧ ofDigits b ds = v := by
  induction v using Nat.strongRecOn with
  | ind v ih =>
      by_cases hv : v < b
      · refine ⟨[v], ?_, by simpa using hv, by simp [ofDigits]⟩
        rw [Nat.toDigits_of_lt_base hv]
        simp [digitVal_digitChar (by omega : v < 16)]
      · have hlt : v / b < v := Nat.div_lt_self (by omega) hb
        have hmod : v % b < b := Nat.mod_lt v (by omega)
        obtain ⟨ds, hds, hlt', hval⟩ := ih (v / b) hlt
        refine ⟨ds ++ [v % b], ?_, ?_, ?_⟩
        · rw [Nat.toDigits_of_base_le hb (by omega)]
          simp [hds, digitVal_digitChar (by omega : v % b < 16)]
        · intro d hd
          rcases List.mem_append.mp hd with hd | hd
          · exact hlt' d hd
          · rw [List.mem_singleton.mp hd]; exact hmod
        · rw [ofDigits_append_singleton, hval, Nat.div_add_mod']

theorem toDigits_inj {b : Nat} (hb : 1 < b) (hb' : b ≤ 16) {v w : Nat}
    (h : Nat.toDigits b v = Nat.toDigits b w) : v = w := by
  obtain ⟨ds, hds, -, hv⟩ := readDigits_toDigits hb hb' v
  obtain ⟨es, hes, -, hw⟩ := readDigits_toDigits hb hb' w
  rw [h, hes, Option.some.injEq] at hds
  rw [← hv, ← hw, hds]

theorem hex_inj {v w : Nat} (h : hex v = hex w) : v = w := toDigits_inj (by decide) (by decide) h

theorem dec_inj {v w : Nat} (h : dec v = dec w) : v = w := toDigits_inj (by decide) (by decide) h

theorem toDigits_ne_nil {b : Nat} (hb : 1 < b) (v : Nat) : Nat.toDigits b v ≠ [] := by
  by_cases hv : v < b
  · rw [Nat.toDigits_of_lt_base hv]; simp
  · rw [Nat.toDigits_of_base_le hb (by omega)]; simp

theorem hex_ne_nil (v : Nat) : hex v ≠ [] := toDigits_ne_nil (by decide) v

/-- Every character of a digit text comes from a digit below the base. -/
theorem mem_toDigits {b : Nat} (hb : 1 < b) {v : Nat} {c : Char} (hc : c ∈ Nat.toDigits b v) :
    ∃ d < b, c = Nat.digitChar d := by
  induction v using Nat.strongRecOn with
  | ind v ih =>
      by_cases hv : v < b
      · rw [Nat.toDigits_of_lt_base hv, List.mem_singleton] at hc
        exact ⟨v, hv, hc⟩
      · rw [Nat.toDigits_of_base_le hb (by omega), List.mem_append, List.mem_singleton] at hc
        rcases hc with hc | hc
        · exact ih (v / b) (Nat.div_lt_self (by omega) hb) hc
        · exact ⟨v % b, Nat.mod_lt v (by omega), hc⟩

theorem isHex_of_mem_hex {v : Nat} {c : Char} (hc : c ∈ hex v) : isHex c = true := by
  obtain ⟨d, hd, rfl⟩ := mem_toDigits (by decide) hc
  exact isHex_digitChar hd

theorem isHex_of_mem_dec {v : Nat} {c : Char} (hc : c ∈ dec v) : isHex c = true := by
  obtain ⟨d, hd, rfl⟩ := mem_toDigits (by decide) hc
  exact isHex_digitChar (by omega)

/-- A number below `b ^ k` has at most `k` digits (one digit for zero). -/
theorem length_toDigits_le {b : Nat} (hb : 1 < b) {k v : Nat} (hv : v < b ^ (k + 1)) :
    (Nat.toDigits b v).length ≤ k + 1 := by
  induction k generalizing v with
  | zero => rw [Nat.toDigits_of_lt_base (by simpa using hv)]; simp
  | succ k ih =>
      by_cases hlt : v < b
      · rw [Nat.toDigits_of_lt_base hlt]; simp
      · rw [Nat.toDigits_of_base_le hb (by omega)]
        have hdiv : v / b < b ^ (k + 1) := by
          rw [Nat.div_lt_iff_lt_mul (by omega), ← Nat.pow_succ]
          exact hv
        simpa using ih hdiv

theorem length_hexPad {k v : Nat} (hv : v < 16 ^ (k + 1)) : (hexPad (k + 1) v).length = k + 1 := by
  have hlen : (hex v).length ≤ k + 1 := length_toDigits_le (by decide) hv
  simp [hexPad]
  omega

theorem isHex_of_mem_hexPad {w v : Nat} {c : Char} (hc : c ∈ hexPad w v) : isHex c = true := by
  rcases List.mem_append.mp hc with hc | hc
  · rw [(List.mem_replicate.mp hc).2]; rfl
  · exact isHex_of_mem_hex hc

/-- The code points of hexadecimal digits. -/
theorem isHex_range {c : Char} (h : isHex c = true) : 48 ≤ c.toNat ∧ c.toNat ≤ 102 := by
  have hle : ∀ {d e : Char}, d ≤ e → d.toNat ≤ e.toNat := fun h => UInt32.le_iff_toNat_le.mp h
  have h0 : '0'.toNat = 48 := rfl
  have h9 : '9'.toNat = 57 := rfl
  have ha : 'a'.toNat = 97 := rfl
  have hf : 'f'.toNat = 102 := rfl
  simp only [isHex, Bool.or_eq_true, Bool.and_eq_true, decide_eq_true_eq] at h
  rcases h with ⟨hlo, hhi⟩ | ⟨hlo, hhi⟩
  · have := hle hlo
    have := hle hhi
    omega
  · have := hle hlo
    have := hle hhi
    omega

/-- A byte is printed as two digits. -/
theorem hexPad_two {v : Nat} (hv : v < 256) :
    ∃ a b, hexPad 2 v = [a, b] ∧ isHex a = true ∧ isHex b = true := by
  have hlen : (hexPad 2 v).length = 2 := length_hexPad (k := 1) hv
  obtain ⟨a, b, hab⟩ := List.length_eq_two.mp hlen
  refine ⟨a, b, hab, ?_, ?_⟩ <;> apply isHex_of_mem_hexPad (w := 2) (v := v) <;> simp [hab]

theorem hexPad_inj {w u v : Nat} (h : hexPad w u = hexPad w v) : u = v := by
  obtain ⟨ds, hds, -, hu⟩ := readDigits_toDigits (b := 16) (by decide) (by decide) u
  obtain ⟨es, hes, -, hv⟩ := readDigits_toDigits (b := 16) (by decide) (by decide) v
  have hzero : ∀ k, (List.replicate k '0').mapM digitVal = some (List.replicate k 0) := by
    intro k
    induction k with
    | zero => rfl
    | succ k ih =>
        have h0 : digitVal '0' = some 0 := by decide
        simp [List.replicate_succ, ih, h0]
  have hread : ∀ (n : Nat) (xs : List Nat), (hex n).mapM digitVal = some xs →
      (hexPad w n).mapM digitVal = some (List.replicate (w - (hex n).length) 0 ++ xs) := by
    intro n xs hxs
    simp [hexPad, hzero, hxs]
  have heq := (hread u ds hds).symm.trans (h ▸ hread v es hes)
  have hval := congrArg (ofDigits 16) (Option.some.inj heq)
  rwa [ofDigits_replicate_zero_append, ofDigits_replicate_zero_append, hu, hv] at hval

end X86Scripts.Digits
