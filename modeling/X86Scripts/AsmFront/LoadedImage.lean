import X86Scripts.AsmFront.EmittedProgram

/-!
# The emitted image in memory

What a memory holds in which the emitted image is loaded.

* `Mem`, `Loaded`, `HoldsBytes`: memories and what they hold.
* **`loaded_imageOf`**: the image is loaded exactly where every data section stands at its address.
* `DataLaid`: data sections that do not overlap. **`read_imageMem`**: the bytes of such an image are a
  memory that holds the sections and nothing else.
-/

namespace X86Scripts

open X86Scripts.Tiling

/-! ## Memories -/

/-- Bytes written to addresses, the last write first, over a background of zeros.
Source: `X86/Memory.lean`, `Mem` -/
structure Mem where
  bytes : List (Val × BitVec 8) := []

/-- Source: `X86/Memory.lean`, `Mem.read` -/
def Mem.read (m : Mem) (a : Val) : BitVec 8 :=
  match m.bytes.find? (fun p => p.1 == a) with
  | some p => p.2
  | none => 0

theorem Mem.read_eq (m : Mem) (a : Val) : m.read a = (find m.bytes a).getD 0 := by
  unfold Mem.read find
  cases m.bytes.find? (fun p => p.1 == a) <;> rfl

/-- The bytes of the image stand at their addresses. Source: `X86/Program.lean`, `Loaded` -/
def Loaded (img : Image) (m : Mem) : Prop := ∀ p ∈ img.data, m.read p.1 = p.2

/-- Bytes stand at an address. Source: `X86/Program.lean`, `HoldsBytes` -/
def HoldsBytes (m : Mem) (base : Val) (bs : List UInt8) : Prop :=
  ∀ i, (h : i < bs.length) → m.read (base + BitVec.ofNat 64 i) = (bs.get ⟨i, h⟩).toBitVec

/-! ## The data sections -/

/-- The data sections, which the image is made of. -/
def dataSections (sections : List ElfSection) : List ElfSection := sections.filter ElfSection.isData

/-- The bytes of a section, from its address on. -/
def ElfSection.segment (s : ElfSection) : Segment UInt8 := ⟨s.addr, s.body⟩

/-- Every byte takes up the room of one address. -/
theorem place_bytes (a k : Nat) (bs : List UInt8) :
    place (fun _ => 1) (a + k) bs = (bs.zipIdx k).map fun p => (a + p.2, p.1) := by
  induction bs generalizing k with
  | nil => rfl
  | cons b bs ih => rw [place, List.zipIdx_cons, List.map_cons, ← ih (k + 1), Nat.add_assoc]

/-- **The image is the data sections, laid out at their addresses.** -/
theorem imageOf_eq_flat (sections : List ElfSection) :
    imageOf sections = flat (fun _ => 1) ((dataSections sections).map ElfSection.segment) := by
  unfold imageOf flat dataSections
  rw [List.flatMap_map]
  congr 1
  funext s
  exact (place_bytes s.addr 0 s.body).symm

theorem mem_imageOf {sections : List ElfSection} {p : Nat × UInt8} : p ∈ imageOf sections ↔
    ∃ s ∈ sections, s.isData = true ∧ ∃ i, ∃ h : i < s.body.length,
      p = (s.addr + i, s.body.get ⟨i, h⟩) := by
  have hbyte : ∀ s : ElfSection, (p ∈ place (fun _ => 1) s.addr s.body ↔
      ∃ i, ∃ h : i < s.body.length, p = (s.addr + i, s.body.get ⟨i, h⟩)) := by
    intro s
    have hplace := place_bytes s.addr 0 s.body
    rw [Nat.add_zero] at hplace
    rw [hplace, List.mem_map]
    constructor
    · rintro ⟨⟨b, i⟩, hmem, rfl⟩
      obtain ⟨hi, hb⟩ := List.getElem?_eq_some_iff.mp (List.mem_zipIdx_iff_getElem?.mp hmem)
      exact ⟨i, hi, by rw [← hb]; rfl⟩
    · rintro ⟨i, hi, rfl⟩
      exact ⟨(s.body[i], i), List.mem_zipIdx_iff_getElem?.mpr (List.getElem?_eq_getElem hi), rfl⟩
  rw [imageOf_eq_flat, flat, List.mem_flatMap]
  simp only [List.mem_map, dataSections, List.mem_filter]
  constructor
  · rintro ⟨-, ⟨s, ⟨hs, hdata⟩, rfl⟩, hp⟩
    exact ⟨s, hs, hdata, (hbyte s).mp hp⟩
  · rintro ⟨s, hs, hdata, hp⟩
    exact ⟨_, ⟨s, ⟨hs, hdata⟩, rfl⟩, (hbyte s).mpr hp⟩

/-- **The image is loaded exactly in the memories in which every data section stands at its
address.** -/
theorem loaded_imageOf (sections : List ElfSection) (m : Mem) :
    Loaded (imageAt (imageOf sections)) m ↔
      ∀ s ∈ sections, s.isData = true → HoldsBytes m (BitVec.ofNat 64 s.addr) s.body := by
  unfold Loaded imageAt HoldsBytes
  simp only [List.mem_map, forall_exists_index, and_imp, forall_apply_eq_imp_iff₂]
  constructor
  · intro h s hs hdata i hi
    rw [← BitVec.ofNat_add]
    exact h _ (mem_imageOf.mpr ⟨s, hs, hdata, i, hi, rfl⟩)
  · intro h p hp
    obtain ⟨s, hs, hdata, i, hi, rfl⟩ := mem_imageOf.mp hp
    rw [BitVec.ofNat_add]
    exact h s hs hdata i hi

/-! ## Data sections that do not overlap -/

/-- Data sections that do not overlap, below the top of the address space. -/
structure DataLaid (sections : List ElfSection) : Prop where
  apart : Apart (fun _ => 1) ((dataSections sections).map ElfSection.segment)
  fits : ∀ s ∈ dataSections sections, s.addr + s.body.length ≤ 2 ^ 64

/-- The byte at an address: that of the data section that covers it. -/
def dataByte (sections : List ElfSection) (a : Val) : Option UInt8 :=
  fetch (fun _ => 1) ((dataSections sections).map ElfSection.segment) a.toNat

/-- The image as a memory of its own. -/
def imageMem (img : Image) : Mem := ⟨img.data⟩

theorem addr_lt_of_laid {sections : List ElfSection} (h : DataLaid sections) :
    ∀ e ∈ imageOf sections, e.1 < 2 ^ 64 := by
  intro e he
  obtain ⟨s, hs, hdata, i, hi, rfl⟩ := mem_imageOf.mp he
  have hfits := h.fits s (List.mem_filter.mpr ⟨hs, hdata⟩)
  exact Nat.lt_of_lt_of_le (Nat.add_lt_add_left hi _) hfits

/-- **The memory of the image** holds at every address the byte of the section there, and zeros
elsewhere. -/
theorem read_imageMem {sections : List ElfSection} (h : DataLaid sections) (a : Val) :
    (imageMem (imageAt (imageOf sections))).read a =
      ((dataByte sections a).map UInt8.toBitVec).getD 0 := by
  have hpos : ∀ s ∈ (dataSections sections).map ElfSection.segment, ∀ b ∈ s.items, 0 < 1 :=
    fun _ _ _ _ => Nat.one_pos
  have hfind := find_ofNat (addr_lt_of_laid h) UInt8.toBitVec a
  rw [imageOf_eq_flat, find_flat hpos h.apart, ← imageOf_eq_flat] at hfind
  rw [Mem.read_eq, imageMem, imageAt, hfind]
  rfl

/-- Sections that do not overlap can be loaded. -/
theorem loaded_imageMem {sections : List ElfSection} (h : DataLaid sections) :
    Loaded (imageAt (imageOf sections)) (imageMem (imageAt (imageOf sections))) := by
  have hpos : ∀ s ∈ (dataSections sections).map ElfSection.segment, ∀ b ∈ s.items, 0 < 1 :=
    fun _ _ _ _ => Nat.one_pos
  intro p hp
  obtain ⟨e, he, rfl⟩ := List.mem_map.mp hp
  have hmod : (BitVec.ofNat 64 e.1).toNat = e.1 := by
    rw [BitVec.toNat_ofNat, Nat.mod_eq_of_lt (addr_lt_of_laid h e he)]
  have hbyte : dataByte sections (BitVec.ofNat 64 e.1) = some e.2 := by
    rw [dataByte, hmod, fetch_eq_some_iff hpos h.apart, ← imageOf_eq_flat]
    exact he
  rw [read_imageMem h, hbyte]
  rfl

/-- **What it means that the emitted image is loaded**: every data section stands at its address.
Sections that do not overlap can be loaded, and the image alone is a memory that holds them and
zeros elsewhere. -/
theorem imageOf_loads (sections : List ElfSection) :
    (∀ m, Loaded (imageAt (imageOf sections)) m ↔
      ∀ s ∈ sections, s.isData = true → HoldsBytes m (BitVec.ofNat 64 s.addr) s.body) ∧
    (DataLaid sections → Loaded (imageAt (imageOf sections)) (imageMem (imageAt (imageOf sections))) ∧
      ∀ a, (imageMem (imageAt (imageOf sections))).read a =
        ((dataByte sections a).map UInt8.toBitVec).getD 0) :=
  ⟨loaded_imageOf sections, fun h => ⟨loaded_imageMem h, read_imageMem h⟩⟩

/-- A read-only and a zeroed section, and the code between them, which is no data. -/
def dataAndCode : List ElfSection :=
  [⟨".rodata".toList, 1, 2, 0x2000, [7, 8]⟩, ⟨".text".toList, 1, 6, 0x2002, [0xc3]⟩,
    ⟨".bss".toList, 8, 3, 0x2003, [0]⟩]

theorem imageOf_loads_dataAndCode :
    Loaded (imageAt (imageOf dataAndCode)) (imageMem (imageAt (imageOf dataAndCode))) ∧
      (imageMem (imageAt (imageOf dataAndCode))).read 0x2001 = 8 ∧
      (imageMem (imageAt (imageOf dataAndCode))).read 0x2002 = 0 :=
  have h := (imageOf_loads dataAndCode).2
    ⟨by simp [dataAndCode, dataSections, ElfSection.isData, Apart, ElfSection.segment, Segment.stop,
      room], by simp [dataAndCode, dataSections, ElfSection.isData]⟩
  ⟨h.1, (h.2 0x2001).trans (by decide +kernel), (h.2 0x2002).trans (by decide +kernel)⟩

end X86Scripts
