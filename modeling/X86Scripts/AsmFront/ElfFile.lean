import X86Scripts.Lib.Bytes
import X86Scripts.Lib.Outcome
import X86Scripts.AsmFront.Command

/-!
# Reading an ELF file

`elf_sections` of `scripts/asm_front.py`: the bytes of an ELF64 little-endian file to its type and
its sections, with the exceptions a malformed file raises.

* `ElfErr`: what reading a file can raise.
* `unpackFrom`, `readRow`, `readSection`, **`elfSections`**: the reader.
* `RowAt`, `SectionOf`, **`IsElf`**: what stands where in a file, said of its bytes.
* **`elfSections_eq_ok_iff`**: the reader accepts exactly the files in which that stands, and returns
  what stands there.
-/

namespace X86Scripts

open X86Scripts.Bytes
open X86Scripts.Outcome

/-- The exceptions of reading a file. -/
inductive ElfErr where
  /-- `SystemExit(msg)`: not a little-endian ELF64 file. -/
  | systemExit (msg : Str)
  /-- `struct.error`: a field behind the end of the file. -/
  | structError
  /-- `OverflowError`: an offset or a size that is no index. -/
  | overflowError
  /-- `IndexError`: a byte behind the end, or a section that is not there. -/
  | indexError
  /-- `ValueError`: a name without a zero behind it. -/
  | valueError
  /-- `UnicodeDecodeError`: a name that is not UTF-8. -/
  | unicodeDecodeError
  deriving DecidableEq, Repr

/-! ## The reader -/

/-- `data[i]`. -/
def byteAt (data : List UInt8) (i : Nat) : Except ElfErr UInt8 :=
  match data[i]? with
  | some b => .ok b
  | none => .error .indexError

/-- The bytes that `struct.unpack_from` takes the fields of a format of some size from. An offset
above the largest index raises another exception, and lies behind the end of any file. -/
def unpackFrom (size : Nat) (data : List UInt8) (off : Nat) : Except ElfErr (List UInt8) :=
  if off + size ≤ data.length then .ok ((data.drop off).take size)
  else if 2 ^ 63 ≤ off then .error .overflowError
  else .error .structError

/-- A field of a format. -/
def field (bs : List UInt8) (i w : Nat) : Nat := leNat ((bs.drop i).take w)

/-- The fields of a section header that are read. -/
structure Row where
  name : Nat
  typ : Nat
  flags : Nat
  addr : Nat
  off : Nat
  size : Nat
  deriving DecidableEq, Repr

/-- `struct.unpack_from("<IIQQQQ", data, off)`. -/
def readRow (data : List UInt8) (off : Nat) : Except ElfErr Row := do
  let bs ← unpackFrom 40 data off
  return ⟨field bs 0 4, field bs 4 4, field bs 8 8, field bs 16 8, field bs 24 8, field bs 32 8⟩

/-- The refusal of a file of another kind. -/
def notElf {α : Type} (path : Str) : Except ElfErr α :=
  .error (.systemExit ("⛔ ".toList ++ path ++ " is not a little-endian ELF64 file".toList))

/-- The check of the first bytes. Source: `scripts/asm_front.py`, `elf_sections` -/
def elfIdent (path : Str) (data : List UInt8) : Except ElfErr Unit :=
  if data.take 4 ≠ [0x7f, 0x45, 0x4c, 0x46] then notElf path
  else do
    let cls ← byteAt data 4
    if cls ≠ 2 then notElf path
    else do
      let order ← byteAt data 5
      if order ≠ 1 then notElf path else return ()

/-- `bytes(size)`. -/
def zeros (size : Nat) : Except ElfErr (List UInt8) :=
  if 2 ^ 63 ≤ size then .error .overflowError else .ok (List.replicate size 0)

/-- The name of a section, from the string table on. -/
def readName (data : List UInt8) (off : Nat) : Except ElfErr Str :=
  match cstring (data.drop off) with
  | none => .error .valueError
  | some bs =>
    match decodeUtf8 bs with
    | none => .error .unicodeDecodeError
    | some name => .ok name

/-- The body of a section: zeros for `SHT_NOBITS`, else a slice, which ends with the file. -/
def readBody (data : List UInt8) (r : Row) : Except ElfErr (List UInt8) :=
  if r.typ = 8 then zeros r.size else .ok ((data.drop r.off).take r.size)

/-- A section, given where the string table is.
Source: `scripts/asm_front.py`, the last loop of `elf_sections` -/
def readSection (data : List UInt8) (so : Nat) (r : Row) : Except ElfErr ElfSection := do
  let name ← readName data (so + r.name)
  let body ← readBody data r
  return ⟨name, r.typ, r.flags, r.addr, body⟩

/-- `secs[shstrndx][4]`. -/
def stringTable (rows : List Row) (shstrndx : Nat) : Except ElfErr Nat :=
  match rows[shstrndx]? with
  | some r => .ok r.off
  | none => .error .indexError

/-- **The type and the sections of a file.** Source: `scripts/asm_front.py`, `elf_sections` -/
def elfSections (path : Str) (data : List UInt8) : Except ElfErr Elf := do
  elfIdent path data
  let typ ← unpackFrom 2 data 16
  let shoff ← unpackFrom 8 data 0x28
  let sh ← unpackFrom 6 data 0x3A
  let rows ← (List.range (field sh 2 2)).mapM fun i =>
    readRow data (leNat shoff + i * field sh 0 2)
  let so ← stringTable rows (field sh 4 2)
  let sections ← rows.mapM (readSection data so)
  return ⟨leNat typ, sections⟩

/-! ## What stands where -/

/-- A section header stands at a position. -/
structure RowAt (data : List UInt8) (off : Nat) (r : Row) : Prop where
  name : HoldsNat data off 4 r.name
  typ : HoldsNat data (off + 4) 4 r.typ
  flags : HoldsNat data (off + 8) 8 r.flags
  addr : HoldsNat data (off + 16) 8 r.addr
  offset : HoldsNat data (off + 24) 8 r.off
  size : HoldsNat data (off + 32) 8 r.size

/-- **The section that a header denotes**, the string table being at `so`: its name stands there
with a zero behind it, and its body is zeros, or the file from its offset on, as far as it goes. -/
structure SectionOf (data : List UInt8) (so : Nat) (r : Row) (s : ElfSection) : Prop where
  name : HoldsAt data (so + r.name) (utf8 s.name ++ [0])
  nameWf : 0 ∉ utf8 s.name
  typ : s.typ = r.typ
  flags : s.flags = r.flags
  addr : s.addr = r.addr
  body : s.body = if r.typ = 8 then List.replicate r.size 0 else (data.drop r.off).take r.size
  sizeWf : r.typ = 8 → r.size < 2 ^ 63

/-- **A file with a type and sections**: its first bytes, the fields of its header, the section
headers in their table, and the sections they denote. -/
structure IsElf (data : List UInt8) (elf : Elf) (shoff shentsize shstrndx : Nat) (rows : List Row) :
    Prop where
  ident : HoldsAt data 0 [0x7f, 0x45, 0x4c, 0x46, 2, 1]
  typ : HoldsNat data 16 2 elf.typ
  off : HoldsNat data 0x28 8 shoff
  entsize : HoldsNat data 0x3A 2 shentsize
  num : HoldsNat data 0x3C 2 rows.length
  strndx : HoldsNat data 0x3E 2 shstrndx
  table : ∀ (i : Nat) r, rows[i]? = some r → RowAt data (shoff + i * shentsize) r
  sections : ∃ str, rows[shstrndx]? = some str ∧
    List.Forall₂ (SectionOf data str.off) rows elf.sections

/-! ## The reader reads what stands there -/

theorem byteAt_eq_ok {data : List UInt8} {i : Nat} {b : UInt8} :
    byteAt data i = .ok b ↔ data[i]? = some b := by
  unfold byteAt
  cases data[i]? <;> simp

theorem unpackFrom_eq_ok {size off : Nat} {data bs : List UInt8} :
    unpackFrom size data off = .ok bs ↔ off + size ≤ data.length ∧ (data.drop off).take size = bs := by
  unfold unpackFrom
  by_cases h : off + size ≤ data.length
  · rw [if_pos h, Except.ok.injEq]
    exact (and_iff_right h).symm
  · rw [if_neg h]
    constructor
    · intro hbs
      split at hbs <;> cases hbs
    · exact fun hbs => absurd hbs.1 h

/-- A field of unpacked bytes is a number in the file. -/
theorem field_unpacked {size off i w n : Nat} {data : List UInt8} (hsize : i + w ≤ size)
    (hlen : off + size ≤ data.length) :
    field ((data.drop off).take size) i w = n ↔ HoldsNat data (off + i) w n := by
  unfold field
  rw [holdsNat_iff, List.drop_take, List.take_take, List.drop_drop, Nat.min_eq_left (by omega)]
  exact (and_iff_right (by omega)).symm

theorem readRow_eq_ok {data : List UInt8} {off : Nat} {r : Row} :
    readRow data off = .ok r ↔ RowAt data off r := by
  unfold readRow
  constructor
  · intro h
    obtain ⟨bs, hbs, hr⟩ := bind_eq_ok.mp h
    obtain ⟨hlen, rfl⟩ := unpackFrom_eq_ok.mp hbs
    cases hr
    exact ⟨(field_unpacked (by omega) hlen).mp rfl, (field_unpacked (by omega) hlen).mp rfl,
      (field_unpacked (by omega) hlen).mp rfl, (field_unpacked (by omega) hlen).mp rfl,
      (field_unpacked (by omega) hlen).mp rfl, (field_unpacked (by omega) hlen).mp rfl⟩
  · intro h
    have hlen : off + 40 ≤ data.length := (holdsNat_iff.mp h.size).1
    obtain ⟨name, typ, flags, addr, offset, size⟩ := r
    rw [unpackFrom_eq_ok.mpr ⟨hlen, rfl⟩, ok_bind,
      (field_unpacked (by omega) hlen).mpr (show HoldsNat data (off + 0) 4 name from h.name),
      (field_unpacked (by omega) hlen).mpr h.typ, (field_unpacked (by omega) hlen).mpr h.flags,
      (field_unpacked (by omega) hlen).mpr h.addr, (field_unpacked (by omega) hlen).mpr h.offset,
      (field_unpacked (by omega) hlen).mpr h.size]
    rfl

theorem readName_eq_ok {data : List UInt8} {off : Nat} {name : Str} : readName data off = .ok name ↔
    HoldsAt data off (utf8 name ++ [0]) ∧ 0 ∉ utf8 name := by
  have hstarts : ∀ bs : List UInt8, HoldsAt data off (bs ++ [0]) ↔ (bs ++ [0]) <+: data.drop off :=
    fun bs => holdsAt_iff_starts (by simp)
  unfold readName
  constructor
  · intro h
    split at h
    · cases h
    · rename_i bs hbs
      split at h
      · cases h
      · rename_i name' hname
        cases h
        obtain rfl := decodeUtf8_eq_some_iff.mp hname
        obtain ⟨hno, hpre⟩ := cstring_eq_some_iff.mp hbs
        exact ⟨(hstarts _).mpr hpre, hno⟩
  · rintro ⟨hat, hno⟩
    have hbs := cstring_eq_some_iff.mpr ⟨hno, (hstarts _).mp hat⟩
    have hname : decodeUtf8 (utf8 name) = some name := decodeUtf8_eq_some_iff.mpr rfl
    simp only [hbs, hname]

theorem readBody_eq_ok {data body : List UInt8} {r : Row} : readBody data r = .ok body ↔
    (r.typ = 8 → r.size < 2 ^ 63) ∧
      body = if r.typ = 8 then List.replicate r.size 0 else (data.drop r.off).take r.size := by
  unfold readBody zeros
  by_cases htyp : r.typ = 8
  · rw [if_pos htyp, if_pos htyp]
    by_cases hsize : 2 ^ 63 ≤ r.size
    · rw [if_pos hsize]
      constructor
      · intro h
        cases h
      · intro h
        have := h.1 htyp
        omega
    · rw [if_neg hsize, Except.ok.injEq]
      exact ⟨fun h => ⟨fun _ => by omega, h.symm⟩, fun h => h.2.symm⟩
  · rw [if_neg htyp, if_neg htyp, Except.ok.injEq]
    exact ⟨fun h => ⟨fun h8 => absurd h8 htyp, h.symm⟩, fun h => h.2.symm⟩

theorem readSection_eq_ok {data : List UInt8} {so : Nat} {r : Row} {s : ElfSection} :
    readSection data so r = .ok s ↔ SectionOf data so r s := by
  unfold readSection
  constructor
  · intro h
    obtain ⟨name, hname, h⟩ := bind_eq_ok.mp h
    obtain ⟨body, hb, h⟩ := bind_eq_ok.mp h
    cases h
    obtain ⟨hat, hno⟩ := readName_eq_ok.mp hname
    obtain ⟨hsize, hb⟩ := readBody_eq_ok.mp hb
    exact ⟨hat, hno, rfl, rfl, rfl, hb, hsize⟩
  · rintro ⟨hat, hno, htyp, hflags, haddr, hb, hsize⟩
    obtain ⟨name, typ, flags, addr, body⟩ := s
    simp only at htyp hflags haddr hb
    subst htyp hflags haddr
    rw [readName_eq_ok.mpr ⟨hat, hno⟩, ok_bind, readBody_eq_ok.mpr ⟨hsize, hb⟩]
    rfl

theorem elfIdent_eq_ok {path : Str} {data : List UInt8} : elfIdent path data = .ok () ↔
    HoldsAt data 0 [0x7f, 0x45, 0x4c, 0x46, 2, 1] := by
  have hsplit : HoldsAt data 0 [0x7f, 0x45, 0x4c, 0x46, 2, 1] ↔
      data.take 4 = [0x7f, 0x45, 0x4c, 0x46] ∧ data[4]? = some 2 ∧ data[5]? = some 1 := by
    rw [holdsAt_iff_starts (by simp), List.drop_zero]
    rcases data with _ | ⟨a, _ | ⟨b, _ | ⟨c, _ | ⟨d, _ | ⟨e, _ | ⟨f, data⟩⟩⟩⟩⟩⟩ <;> simp
    grind
  rw [hsplit]
  unfold elfIdent
  constructor
  · intro h
    split at h
    · cases h
    · rename_i hmagic
      obtain ⟨cls, hcls, h⟩ := bind_eq_ok.mp h
      split at h
      · cases h
      · rename_i htwo
        obtain ⟨order, horder, h⟩ := bind_eq_ok.mp h
        split at h
        · cases h
        · rename_i hone
          rw [not_not] at hmagic htwo hone
          subst htwo hone
          exact ⟨hmagic, byteAt_eq_ok.mp hcls, byteAt_eq_ok.mp horder⟩
  · rintro ⟨hmagic, hcls, horder⟩
    rw [if_neg (not_not_intro hmagic), byteAt_eq_ok.mpr hcls, ok_bind, if_neg (not_not_intro rfl),
      byteAt_eq_ok.mpr horder, ok_bind, if_neg (not_not_intro rfl)]
    rfl

theorem stringTable_eq_ok {rows : List Row} {shstrndx so : Nat} :
    stringTable rows shstrndx = .ok so ↔ ∃ str, rows[shstrndx]? = some str ∧ str.off = so := by
  unfold stringTable
  cases rows[shstrndx]? <;> simp

/-- The rows of a table are read if they stand there. -/
theorem rows_eq_ok {data : List UInt8} {num : Nat} {pos : Nat → Nat} {rows : List Row} :
    ((List.range num).mapM fun i => readRow data (pos i)) = .ok rows ↔
      rows.length = num ∧ ∀ (i : Nat) r, rows[i]? = some r → RowAt data (pos i) r := by
  rw [mapM_eq_ok_iff, List.forall₂_iff_get]
  simp only [List.length_range, List.get_eq_getElem, List.getElem_range, readRow_eq_ok]
  constructor
  · rintro ⟨hlen, h⟩
    refine ⟨hlen.symm, fun i r hr => ?_⟩
    obtain ⟨hi, rfl⟩ := List.getElem?_eq_some_iff.mp hr
    exact h i (by omega) hi
  · rintro ⟨hlen, h⟩
    exact ⟨hlen.symm, fun i _ hi => h i _ (List.getElem?_eq_getElem hi)⟩

/-- **The reader accepts exactly the files in which a type and sections stand, and returns them.** -/
theorem elfSections_eq_ok_iff {path : Str} {data : List UInt8} {elf : Elf} :
    elfSections path data = .ok elf ↔
      ∃ shoff shentsize shstrndx rows, IsElf data elf shoff shentsize shstrndx rows := by
  unfold elfSections
  constructor
  · intro h
    obtain ⟨_, hident, h⟩ := bind_eq_ok.mp h
    obtain ⟨typ, htyp, h⟩ := bind_eq_ok.mp h
    obtain ⟨shoff, hshoff, h⟩ := bind_eq_ok.mp h
    obtain ⟨sh, hsh, h⟩ := bind_eq_ok.mp h
    obtain ⟨rows, hrows, h⟩ := bind_eq_ok.mp h
    obtain ⟨so, hso, h⟩ := bind_eq_ok.mp h
    obtain ⟨sections, hsections, h⟩ := bind_eq_ok.mp h
    cases h
    obtain ⟨hlen, rfl⟩ := unpackFrom_eq_ok.mp hsh
    obtain ⟨hnum, htable⟩ := rows_eq_ok.mp hrows
    obtain ⟨str, hstr, rfl⟩ := stringTable_eq_ok.mp hso
    exact ⟨leNat shoff, _, _, rows,
      { ident := elfIdent_eq_ok.mp hident
        typ := holdsNat_iff.mpr ((unpackFrom_eq_ok.mp htyp).imp_right (congrArg leNat))
        off := holdsNat_iff.mpr ((unpackFrom_eq_ok.mp hshoff).imp_right (congrArg leNat))
        entsize := (field_unpacked (by omega) hlen).mp rfl
        num := (field_unpacked (by omega) hlen).mp hnum.symm
        strndx := (field_unpacked (by omega) hlen).mp rfl
        table := htable
        sections := ⟨str, hstr, (mapM_eq_ok_iff.mp hsections).imp fun _ _ => readSection_eq_ok.mp⟩ }⟩
  · rintro ⟨shoff, shentsize, shstrndx, rows, h⟩
    obtain ⟨str, hstr, hsections⟩ := h.sections
    obtain ⟨hlen16, htyp⟩ := holdsNat_iff.mp h.typ
    obtain ⟨hlen40, hshoff⟩ := holdsNat_iff.mp h.off
    have hlen : 0x3A + 6 ≤ data.length := (holdsNat_iff.mp h.strndx).1
    have hentsize : field ((data.drop 0x3A).take 6) 0 2 = shentsize :=
      (field_unpacked (by omega) hlen).mpr h.entsize
    have hnum : field ((data.drop 0x3A).take 6) 2 2 = rows.length :=
      (field_unpacked (by omega) hlen).mpr h.num
    have hstrndx : field ((data.drop 0x3A).take 6) 4 2 = shstrndx :=
      (field_unpacked (by omega) hlen).mpr h.strndx
    obtain ⟨typ, sections⟩ := elf
    rw [elfIdent_eq_ok.mpr h.ident, ok_bind, unpackFrom_eq_ok.mpr ⟨hlen16, rfl⟩, ok_bind,
      unpackFrom_eq_ok.mpr ⟨hlen40, rfl⟩, ok_bind, unpackFrom_eq_ok.mpr ⟨hlen, rfl⟩, ok_bind,
      hnum, hentsize, hstrndx, hshoff, rows_eq_ok.mpr ⟨rfl, h.table⟩, ok_bind,
      stringTable_eq_ok.mpr ⟨str, hstr, rfl⟩, ok_bind,
      mapM_eq_ok_iff.mpr (hsections.imp fun _ _ => readSection_eq_ok.mpr), ok_bind, htyp]
    rfl

end X86Scripts
