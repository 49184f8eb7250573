import Mathlib

/-!
# Bytes at positions

Numbers and texts in a list of bytes, each at a position of its own.

* `leNat`, `leBytes`: little-endian numbers of a fixed width.
* `HoldsAt`: some bytes stand at a position; `HoldsNat`: a number does.
* **`holdsAt_append`**: what stands at a position, piece by piece.
* `utf8`, `decodeUtf8`: texts as bytes, **`decodeUtf8_eq_some_iff`**.
* `cstring`: the bytes up to the next zero, **`cstring_eq_some_iff`**.
-/

namespace X86Scripts.Bytes

/-! ## Little-endian numbers -/

/-- The number that bytes stand for, the low byte first. -/
def leNat : List UInt8 → Nat
  | [] => 0
  | b :: bs => b.toNat + 256 * leNat bs

/-- The low bytes of a number, the lowest first. -/
def leBytes : Nat → Nat → List UInt8
  | 0, _ => []
  | w + 1, n => UInt8.ofNat n :: leBytes w (n / 256)

@[simp] theorem length_leBytes (w n : Nat) : (leBytes w n).length = w := by
  induction w generalizing n with
  | zero => rfl
  | succ w ih => rw [leBytes, List.length_cons, ih]

theorem leNat_lt (bs : List UInt8) : leNat bs < 256 ^ bs.length := by
  induction bs with
  | nil => exact Nat.one_pos
  | cons b bs ih =>
      have hb : b.toNat < 256 := b.toNat_lt
      rw [leNat, List.length_cons, Nat.pow_succ]
      omega

theorem leNat_leBytes {w n : Nat} (h : n < 256 ^ w) : leNat (leBytes w n) = n := by
  induction w generalizing n with
  | zero =>
      rw [Nat.pow_zero] at h
      rw [leBytes, leNat]
      omega
  | succ w ih =>
      have hdiv : n / 256 < 256 ^ w := by
        rw [Nat.pow_succ] at h
        omega
      rw [leBytes, leNat, ih hdiv, UInt8.toNat_ofNat']
      omega

theorem leBytes_leNat (bs : List UInt8) : leBytes bs.length (leNat bs) = bs := by
  induction bs with
  | nil => rfl
  | cons b bs ih =>
      have hb : b.toNat < 256 := b.toNat_lt
      have hdiv : (b.toNat + 256 * leNat bs) / 256 = leNat bs := by omega
      have hlow : UInt8.ofNat (b.toNat + 256 * leNat bs) = b := by
        apply UInt8.toNat_inj.mp
        rw [UInt8.toNat_ofNat']
        omega
      rw [leNat, List.length_cons, leBytes, hdiv, hlow, ih]

/-! ## Bytes at a position -/

/-- The bytes stand at a position. -/
def HoldsAt (data : List UInt8) (off : Nat) (bs : List UInt8) : Prop :=
  ∃ front back, data = front ++ bs ++ back ∧ front.length = off

theorem holdsAt_iff {data bs : List UInt8} {off : Nat} : HoldsAt data off bs ↔
    off + bs.length ≤ data.length ∧ (data.drop off).take bs.length = bs := by
  constructor
  · rintro ⟨front, back, rfl, rfl⟩
    refine ⟨by simp only [List.length_append]; omega, ?_⟩
    rw [List.append_assoc, List.drop_left, List.take_left]
  · rintro ⟨hlen, htake⟩
    refine ⟨data.take off, (data.drop off).drop bs.length, ?_, ?_⟩
    · have hrest : bs ++ (data.drop off).drop bs.length = data.drop off := by
        have hsplit := List.take_append_drop bs.length (data.drop off)
        rwa [htake] at hsplit
      rw [List.append_assoc, hrest, List.take_append_drop]
    · rw [List.length_take]
      omega

/-- **Pieces stand one behind the other.** -/
theorem holdsAt_append {data bs cs : List UInt8} {off : Nat} : HoldsAt data off (bs ++ cs) ↔
    HoldsAt data off bs ∧ HoldsAt data (off + bs.length) cs := by
  constructor
  · rintro ⟨front, back, rfl, rfl⟩
    exact ⟨⟨front, cs ++ back, by simp only [List.append_assoc], rfl⟩,
      ⟨front ++ bs, back, by simp only [List.append_assoc], by rw [List.length_append]⟩⟩
  · rintro ⟨h₁, h₂⟩
    rw [holdsAt_iff] at h₁ h₂ ⊢
    obtain ⟨hlen₁, htake₁⟩ := h₁
    obtain ⟨hlen₂, htake₂⟩ := h₂
    rw [List.length_append]
    refine ⟨by omega, ?_⟩
    rw [List.take_add, htake₁, List.drop_drop, htake₂]

/-- Behind a position stands what the rest starts with. -/
theorem holdsAt_iff_starts {data bs : List UInt8} {off : Nat} (hne : bs ≠ []) :
    HoldsAt data off bs ↔ bs <+: data.drop off := by
  constructor
  · rintro ⟨front, back, rfl, rfl⟩
    rw [List.append_assoc, List.drop_left]
    exact List.prefix_append _ _
  · rintro ⟨back, hback⟩
    have hlen := congrArg List.length hback
    have hpos := List.length_pos_iff.mpr hne
    rw [List.length_append, List.length_drop] at hlen
    rw [holdsAt_iff, ← hback, List.take_left]
    exact ⟨by omega, rfl⟩

theorem holdsAt_front (bs cs : List UInt8) : HoldsAt (bs ++ cs) 0 bs := ⟨[], cs, rfl, rfl⟩

/-- What stands in a part stands behind what is in front of the part. -/
theorem HoldsAt.shift {data bs : List UInt8} {off : Nat} (h : HoldsAt data off bs)
    (front back : List UInt8) : HoldsAt (front ++ data ++ back) (front.length + off) bs := by
  obtain ⟨f, b, rfl, rfl⟩ := h
  exact ⟨front ++ f, b ++ back, by simp only [List.append_assoc], by rw [List.length_append]⟩

/-- Of texts one behind the other, each stands behind those in front of it. -/
theorem holdsAt_flatMap {α : Type} (f : α → List UInt8) {xs : List α} {i : Nat} {x : α}
    (hx : xs[i]? = some x) (front back : List UInt8) : HoldsAt (front ++ xs.flatMap f ++ back)
      (front.length + ((xs.take i).flatMap f).length) (f x) := by
  obtain ⟨hi, rfl⟩ := List.getElem?_eq_some_iff.mp hx
  have hsplit : xs.flatMap f =
      (xs.take i).flatMap f ++ (f xs[i] ++ (xs.drop (i + 1)).flatMap f) := by
    rw [← List.flatMap_cons, List.getElem_cons_drop, ← List.flatMap_append, List.take_append_drop]
  refine ⟨front ++ (xs.take i).flatMap f, (xs.drop (i + 1)).flatMap f ++ back, ?_, ?_⟩
  · rw [hsplit]
    simp only [List.append_assoc]
  · rw [List.length_append]

/-- Texts of one length. -/
theorem length_flatMap_const {α : Type} {f : α → List UInt8} {n : Nat} {xs : List α}
    (h : ∀ x ∈ xs, (f x).length = n) : (xs.flatMap f).length = xs.length * n := by
  rw [List.length_flatMap, List.map_congr_left h, List.map_const', List.sum_replicate, smul_eq_mul]

/-- A number of a fixed width stands at a position. -/
def HoldsNat (data : List UInt8) (off w n : Nat) : Prop :=
  n < 256 ^ w ∧ HoldsAt data off (leBytes w n)

/-- **A number is read from its bytes.** -/
theorem holdsNat_iff {data : List UInt8} {off w n : Nat} : HoldsNat data off w n ↔
    off + w ≤ data.length ∧ leNat ((data.drop off).take w) = n := by
  unfold HoldsNat
  rw [holdsAt_iff, length_leBytes]
  constructor
  · rintro ⟨hn, hlen, htake⟩
    exact ⟨hlen, by rw [htake, leNat_leBytes hn]⟩
  · rintro ⟨hlen, rfl⟩
    have hlength : ((data.drop off).take w).length = w := by
      rw [List.length_take, List.length_drop]
      omega
    refine ⟨?_, hlen, ?_⟩
    · have hlt := leNat_lt ((data.drop off).take w)
      rwa [hlength] at hlt
    · have hbytes := leBytes_leNat ((data.drop off).take w)
      rw [hlength] at hbytes
      exact hbytes.symm

/-! ## Texts -/

/-- A text in UTF-8. -/
def utf8 (s : List Char) : List UInt8 := s.flatMap String.utf8EncodeChar

/-- The text that bytes are the UTF-8 of. -/
def decodeUtf8 (bs : List UInt8) : Option (List Char) :=
  bs.toByteArray.utf8Decode?.map Array.toList

theorem toByteArray_inj {bs cs : List UInt8} (h : bs.toByteArray = cs.toByteArray) : bs = cs := by
  have hdata := congrArg (fun b : ByteArray => b.data.toList) h
  simpa using hdata

/-- **Bytes are decoded to the text they are the UTF-8 of.** -/
theorem decodeUtf8_eq_some_iff {bs : List UInt8} {s : List Char} :
    decodeUtf8 bs = some s ↔ bs = utf8 s := by
  unfold decodeUtf8
  constructor
  · intro h
    obtain ⟨a, ha, rfl⟩ := Option.map_eq_some_iff.mp h
    have hsome : bs.toByteArray.utf8Decode?.isSome = true := by rw [ha]; rfl
    have hget : bs.toByteArray.utf8Decode?.get hsome = a := Option.get_of_eq_some _ ha
    have hencode := ByteArray.utf8Encode_get_utf8Decode? (b := bs.toByteArray) (h := hsome)
    rw [hget] at hencode
    exact (toByteArray_inj hencode).symm
  · rintro rfl
    have hdecode : (utf8 s).toByteArray.utf8Decode? = some s.toArray :=
      List.utf8Decode?_utf8Encode
    rw [hdecode]
    rfl

/-- The bytes in front of the next zero. -/
def cstring (bs : List UInt8) : Option (List UInt8) :=
  if 0 ∈ bs then some (bs.takeWhile (· != 0)) else none

/-- **The bytes in front of the first zero.** -/
theorem cstring_eq_some_iff {bs cs : List UInt8} :
    cstring bs = some cs ↔ 0 ∉ cs ∧ (cs ++ [0]) <+: bs := by
  have hcons : ∀ b bs, b ≠ 0 → cstring (b :: bs) = (cstring bs).map (b :: ·) := by
    intro b bs hb
    unfold cstring
    have hmem : (0 : UInt8) ∈ b :: bs ↔ 0 ∈ bs := by
      rw [List.mem_cons]
      exact or_iff_right hb.symm
    have hwhile : (b :: bs).takeWhile (· != 0) = b :: bs.takeWhile (· != 0) :=
      List.takeWhile_cons_of_pos (by simpa using hb)
    by_cases h : (0 : UInt8) ∈ bs
    · rw [if_pos h, if_pos (hmem.mpr h), hwhile]
      rfl
    · rw [if_neg h, if_neg (mt hmem.mp h)]
      rfl
  induction bs generalizing cs with
  | nil =>
      constructor
      · intro h
        cases h
      · rintro ⟨-, h⟩
        simp at h
  | cons b bs ih =>
      by_cases hb : b = 0
      · subst hb
        have hzero : cstring (0 :: bs) = some [] := rfl
        rw [hzero, Option.some.injEq]
        constructor
        · rintro rfl
          exact ⟨List.not_mem_nil, bs, rfl⟩
        · rintro ⟨hno, hpre⟩
          cases cs with
          | nil => rfl
          | cons c cs =>
              obtain ⟨rfl, -⟩ := List.cons_prefix_cons.mp hpre
              exact absurd List.mem_cons_self hno
      · rw [hcons b bs hb, Option.map_eq_some_iff]
        constructor
        · rintro ⟨ds, hds, rfl⟩
          obtain ⟨hno, hpre⟩ := ih.mp hds
          refine ⟨?_, List.cons_prefix_cons.mpr ⟨rfl, hpre⟩⟩
          rw [List.mem_cons]
          exact fun h => h.elim (fun h => hb h.symm) hno
        · rintro ⟨hno, hpre⟩
          cases cs with
          | nil =>
              obtain ⟨rfl, -⟩ := List.cons_prefix_cons.mp hpre
              exact absurd rfl hb
          | cons c cs =>
              rw [List.cons_append] at hpre
              obtain ⟨rfl, hrest⟩ := List.cons_prefix_cons.mp hpre
              exact ⟨cs, ih.mpr ⟨fun h => hno (List.mem_cons_of_mem _ h), hrest⟩, rfl⟩

end X86Scripts.Bytes
