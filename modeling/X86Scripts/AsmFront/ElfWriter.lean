import X86Scripts.AsmFront.ElfFile

/-!
# Writing an ELF file

A file as an assembler or a linker lays it out: the header, the program headers, the bodies of the
sections, the names of the sections, and the section headers. The reader gives its sections back.

* `ElfSection.Writable`: a section whose fields have the widths of the format.
* `ObjFile`, `ObjFile.bytes`: the content of a file and its bytes.
* `ObjFile.elf`: the type and the sections of the file.
* `elfSections_bytes`: the round trip. **`elfSections_reads`**: exactly what the reader accepts, and
  that it gives back what was written.
-/

namespace X86Scripts

open X86Scripts.Bytes
open X86Scripts.Outcome

/-- The fields of a section have the widths of the format, and one without a body in the file is
all zeros. -/
structure ElfSection.Writable (s : ElfSection) : Prop where
  name : 0 ∉ utf8 s.name
  typ : s.typ < 256 ^ 4
  flags : s.flags < 256 ^ 8
  addr : s.addr < 256 ^ 8
  nobits : s.typ = 8 → s.body = List.replicate s.body.length 0
  size : s.body.length < 2 ^ 63

/-- The content of a file. -/
structure ObjFile where
  typ : Nat
  machine : Nat
  entry : Nat
  /-- The program headers, which the reader does not look at. -/
  segments : List UInt8
  sections : List ElfSection

namespace ObjFile

variable (o : ObjFile)

/-! ## The bytes of a file -/

/-- A name with the zero behind it. -/
def nameBytes (name : Str) : List UInt8 := utf8 name ++ [0]

/-- The names of the sections, that of the string table last. -/
def names : List Str := o.sections.map ElfSection.name ++ [".shstrtab".toList]

/-- The string table, which starts with the empty name. -/
def strtab : List UInt8 := 0 :: o.names.flatMap nameBytes

/-- Where a name stands in the string table. -/
def nameOff (i : Nat) : Nat := 1 + ((o.names.take i).flatMap nameBytes).length

/-- What the file holds of a section. -/
def content (s : ElfSection) : List UInt8 := if s.typ = 8 then [] else s.body

/-- Where the content of a section stands. -/
def bodyOff (i : Nat) : Nat :=
  64 + o.segments.length + ((o.sections.take i).flatMap content).length

/-- Where the string table stands. -/
def strOff : Nat := 64 + o.segments.length + (o.sections.flatMap content).length

/-- Where the section headers stand. -/
def tableOff : Nat := o.strOff + o.strtab.length

/-- The header of a section. -/
def row (i : Nat) (s : ElfSection) : Row :=
  ⟨o.nameOff i, s.typ, s.flags, s.addr, o.bodyOff i, s.body.length⟩

/-- The section headers: an empty one, those of the sections, that of the string table. -/
def rows : List Row :=
  ⟨0, 0, 0, 0, 0, 0⟩ :: (o.sections.mapIdx o.row ++
    [⟨o.nameOff o.sections.length, 3, 0, 0, o.strOff, o.strtab.length⟩])

/-- The 64 bytes of a section header. -/
def rowBytes (r : Row) : List UInt8 :=
  leBytes 4 r.name ++ (leBytes 4 r.typ ++ (leBytes 8 r.flags ++ (leBytes 8 r.addr ++
    (leBytes 8 r.off ++ (leBytes 8 r.size ++ leBytes 24 0)))))

/-- The 64 bytes of the file header. -/
def header : List UInt8 :=
  [0x7f, 0x45, 0x4c, 0x46, 2, 1] ++ ([1, 0, 0, 0, 0, 0, 0, 0, 0, 0] ++ (leBytes 2 o.typ ++
    (leBytes 2 o.machine ++ (leBytes 4 1 ++ (leBytes 8 o.entry ++ (leBytes 8 64 ++
      (leBytes 8 o.tableOff ++ (leBytes 4 0 ++ (leBytes 2 64 ++ (leBytes 2 56 ++
        (leBytes 2 (o.segments.length / 56) ++ (leBytes 2 64 ++ (leBytes 2 o.rows.length ++
          leBytes 2 (o.sections.length + 1))))))))))))))

/-- **The bytes of the file.** -/
def bytes : List UInt8 :=
  o.header ++ o.segments ++ o.sections.flatMap content ++ o.strtab ++ o.rows.flatMap rowBytes

/-- The sections as they are read: the empty one and the string table are among them. -/
def elf : Elf :=
  ⟨o.typ, ⟨[], 0, 0, 0, []⟩ :: (o.sections ++ [⟨".shstrtab".toList, 3, 0, 0, o.strtab⟩])⟩

/-- The fields of the file have the widths of the format. -/
structure Fits : Prop where
  typ : o.typ < 256 ^ 2
  sections : ∀ s ∈ o.sections, s.Writable
  count : o.sections.length + 2 < 256 ^ 2
  strtab : o.strtab.length < 256 ^ 4
  length : o.bytes.length < 2 ^ 63

/-! ## What stands where -/

@[simp] theorem length_header : o.header.length = 64 := by
  simp [header]

@[simp] theorem length_rowBytes (r : Row) : (rowBytes r).length = 64 := by
  simp [rowBytes]

@[simp] theorem length_rows : o.rows.length = o.sections.length + 2 := by
  simp [rows]

theorem length_bytes : o.bytes.length = o.tableOff + (o.rows.flatMap rowBytes).length := by
  simp only [bytes, tableOff, strOff, List.length_append, length_header]

variable {o}

/-- The fields of the file header stand in the file. -/
theorem holdsAt_header : HoldsAt o.bytes 0 o.header := by
  unfold bytes
  simp only [List.append_assoc]
  exact holdsAt_front _ _

theorem rowAt_of_holdsAt {data : List UInt8} {off : Nat} {r : Row} (h : HoldsAt data off (rowBytes r))
    (hname : r.name < 256 ^ 4) (htyp : r.typ < 256 ^ 4) (hflags : r.flags < 256 ^ 8)
    (haddr : r.addr < 256 ^ 8) (hoff : r.off < 256 ^ 8) (hsize : r.size < 256 ^ 8) :
    RowAt data off r := by
  unfold rowBytes at h
  simp only [holdsAt_append, length_leBytes, Nat.add_assoc, Nat.reduceAdd] at h
  obtain ⟨h1, h2, h3, h4, h5, h6, -⟩ := h
  exact ⟨⟨hname, h1⟩, ⟨htyp, h2⟩, ⟨hflags, h3⟩, ⟨haddr, h4⟩, ⟨hoff, h5⟩, ⟨hsize, h6⟩⟩

/-- A section header stands in its place in the table. -/
theorem holdsAt_row {i : Nat} {r : Row} (hr : o.rows[i]? = some r) :
    HoldsAt o.bytes (o.tableOff + i * 64) (rowBytes r) := by
  obtain ⟨hi, -⟩ := List.getElem?_eq_some_iff.mp hr
  have hat := holdsAt_flatMap rowBytes hr
    (o.header ++ o.segments ++ o.sections.flatMap content ++ o.strtab) []
  have hlen : ((o.rows.take i).flatMap rowBytes).length = i * 64 := by
    rw [length_flatMap_const fun r _ => length_rowBytes r, List.length_take, Nat.min_eq_left hi.le]
  rw [List.append_nil, hlen] at hat
  simp only [List.length_append, length_header] at hat
  exact hat

/-- A name stands in its place in the string table. -/
theorem holdsAt_name {i : Nat} {name : Str} (hname : o.names[i]? = some name) :
    HoldsAt o.bytes (o.strOff + o.nameOff i) (nameBytes name) := by
  have hat := holdsAt_flatMap nameBytes hname
    (o.header ++ o.segments ++ o.sections.flatMap content ++ [0]) (o.rows.flatMap rowBytes)
  have hlen : (o.header ++ o.segments ++ o.sections.flatMap content ++ [0]).length = o.strOff + 1 := by
    simp only [List.length_append, length_header, List.length_singleton, strOff]
  have hbytes : o.header ++ o.segments ++ o.sections.flatMap content ++ [0] ++
      o.names.flatMap nameBytes ++ o.rows.flatMap rowBytes = o.bytes := by
    simp only [bytes, strtab, List.append_assoc, List.cons_append, List.nil_append]
  rw [hlen, hbytes, Nat.add_assoc] at hat
  exact hat

theorem holdsAt_strtab : HoldsAt o.bytes o.strOff o.strtab :=
  ⟨o.header ++ o.segments ++ o.sections.flatMap content, o.rows.flatMap rowBytes, rfl, by
    simp only [List.length_append, length_header, strOff]⟩

/-- The content of a section stands in its place. -/
theorem holdsAt_body {i : Nat} {s : ElfSection} (hs : o.sections[i]? = some s) :
    HoldsAt o.bytes (o.bodyOff i) (content s) := by
  have hat := holdsAt_flatMap content hs (o.header ++ o.segments)
    (o.strtab ++ o.rows.flatMap rowBytes)
  have hlen : (o.header ++ o.segments).length = 64 + o.segments.length := by
    rw [List.length_append, length_header]
  have hbytes : o.header ++ o.segments ++ o.sections.flatMap content ++
      (o.strtab ++ o.rows.flatMap rowBytes) = o.bytes := by
    simp only [bytes, List.append_assoc]
  rw [hlen, hbytes] at hat
  exact hat

/-- Offsets lie in the file. -/
theorem off_le (i : Nat) : o.bodyOff i ≤ o.strOff ∧ o.strOff ≤ o.bytes.length ∧
    o.tableOff ≤ o.bytes.length ∧ o.strtab.length ≤ o.bytes.length ∧ o.nameOff i ≤ o.strtab.length := by
  have hbody : ((o.sections.take i).flatMap content).length ≤ (o.sections.flatMap content).length :=
    ((List.take_sublist i o.sections).flatMap content).length_le
  have hname : ((o.names.take i).flatMap nameBytes).length ≤ (o.names.flatMap nameBytes).length :=
    ((List.take_sublist i o.names).flatMap nameBytes).length_le
  have hstr : o.strtab.length = (o.names.flatMap nameBytes).length + 1 := rfl
  rw [length_bytes]
  unfold tableOff strOff bodyOff nameOff
  omega

/-! ## The round trip -/

theorem sectionOf_row (h : o.Fits) {i : Nat} {s : ElfSection} (hs : o.sections[i]? = some s) :
    SectionOf o.bytes o.strOff (o.row i s) s := by
  obtain ⟨hi, rfl⟩ := List.getElem?_eq_some_iff.mp hs
  have hw := h.sections _ (List.getElem_mem hi)
  have hname : o.names[i]? = some o.sections[i].name := by
    unfold names
    rw [List.getElem?_append_left (by rwa [List.length_map]), List.getElem?_map, hs]
    rfl
  refine ⟨holdsAt_name hname, hw.name, rfl, rfl, rfl, ?_, fun _ => hw.size⟩
  show _ = if o.sections[i].typ = 8 then _ else _
  by_cases htyp : o.sections[i].typ = 8
  · rw [if_pos htyp]
    exact hw.nobits htyp
  · rw [if_neg htyp]
    have hat := (holdsAt_iff.mp (holdsAt_body hs)).2
    rw [content, if_neg htyp] at hat
    exact hat.symm

/-- The fields of the section headers have the widths of the format. -/
theorem row_lt (h : o.Fits) {r : Row} (hr : r ∈ o.rows) : r.name < 256 ^ 4 ∧ r.typ < 256 ^ 4 ∧
    r.flags < 256 ^ 8 ∧ r.addr < 256 ^ 8 ∧ r.off < 256 ^ 8 ∧ r.size < 256 ^ 8 := by
  have hlt : o.bytes.length < 256 ^ 8 := h.length.trans (by norm_num)
  have hname : ∀ i, o.nameOff i < 256 ^ 4 := fun i => (off_le i).2.2.2.2.trans_lt h.strtab
  unfold rows at hr
  rcases List.mem_cons.mp hr with rfl | hr
  · decide
  rcases List.mem_append.mp hr with hr | hr
  · obtain ⟨i, hi, rfl⟩ := List.mem_mapIdx.mp hr
    have hw := h.sections _ (List.getElem_mem hi)
    obtain ⟨hbody, hstr, -⟩ := off_le (o := o) i
    exact ⟨hname i, hw.typ, hw.flags, hw.addr, (hbody.trans hstr).trans_lt hlt,
      hw.size.trans (by norm_num)⟩
  · rw [List.mem_singleton.mp hr]
    obtain ⟨-, hstr, -, hlen, -⟩ := off_le (o := o) 0
    exact ⟨hname _, by norm_num, by norm_num, by norm_num, hstr.trans_lt hlt, hlen.trans_lt hlt⟩

/-- The section headers denote the sections. -/
theorem sections_rows (h : o.Fits) :
    List.Forall₂ (SectionOf o.bytes o.strOff) o.rows o.elf.sections := by
  have hempty : SectionOf o.bytes o.strOff ⟨0, 0, 0, 0, 0, 0⟩ ⟨[], 0, 0, 0, []⟩ := by
    refine ⟨?_, List.not_mem_nil, rfl, rfl, rfl, rfl, by rintro ⟨⟩⟩
    have hat : HoldsAt o.bytes o.strOff ([0] ++ o.names.flatMap nameBytes) := holdsAt_strtab
    exact (holdsAt_append.mp hat).1
  have hlast : SectionOf o.bytes o.strOff
      ⟨o.nameOff o.sections.length, 3, 0, 0, o.strOff, o.strtab.length⟩
      ⟨".shstrtab".toList, 3, 0, 0, o.strtab⟩ := by
    have hname : o.names[o.sections.length]? = some ".shstrtab".toList := by
      unfold names
      rw [List.getElem?_append_right (by simp), List.length_map, Nat.sub_self]
      rfl
    have hno : 0 ∉ utf8 ".shstrtab".toList := by decide +kernel
    exact ⟨holdsAt_name hname, hno, rfl, rfl, rfl, (holdsAt_iff.mp holdsAt_strtab).2.symm,
      by rintro ⟨⟩⟩
  have hmid : List.Forall₂ (SectionOf o.bytes o.strOff) (o.sections.mapIdx o.row) o.sections := by
    refine List.forall₂_iff_get.mpr ⟨List.length_mapIdx, fun i hi hi' => ?_⟩
    simp only [List.get_eq_getElem, List.getElem_mapIdx]
    exact sectionOf_row h (List.getElem?_eq_getElem hi')
  exact .cons hempty (List.rel_append hmid (.cons hlast .nil))

theorem isElf_bytes (h : o.Fits) :
    IsElf o.bytes o.elf o.tableOff 64 (o.sections.length + 1) o.rows := by
  have hlt : o.bytes.length < 256 ^ 8 := h.length.trans (by norm_num)
  have hheader : HoldsAt o.bytes 0 o.header := holdsAt_header
  unfold header at hheader
  simp only [holdsAt_append, length_leBytes, List.length_cons, List.length_nil, Nat.zero_add,
    Nat.reduceAdd] at hheader
  obtain ⟨hident, -, htyp, -, -, -, -, hoff, -, -, -, -, hentsize, hnum, hstrndx⟩ := hheader
  have hlast : o.rows[o.sections.length + 1]? =
      some ⟨o.nameOff o.sections.length, 3, 0, 0, o.strOff, o.strtab.length⟩ := by
    unfold rows
    rw [List.getElem?_cons_succ, List.getElem?_append_right (by simp), List.length_mapIdx,
      Nat.sub_self]
    rfl
  refine ⟨hident, ⟨h.typ, htyp⟩, ⟨?_, hoff⟩, ⟨by norm_num, hentsize⟩, ⟨?_, hnum⟩, ⟨?_, hstrndx⟩, ?_,
    ⟨_, hlast, ?_⟩⟩
  · exact (off_le 0).2.2.1.trans_lt hlt
  · rw [length_rows]
    exact h.count
  · have := h.count
    omega
  · intro i r hr
    obtain ⟨hname, htyp, hflags, haddr, hoff, hsize⟩ := row_lt h (List.mem_of_getElem? hr)
    exact rowAt_of_holdsAt (holdsAt_row hr) hname htyp hflags haddr hoff hsize
  · exact sections_rows h

/-- **The round trip**: the reader gives back the type and the sections of a written file. -/
theorem elfSections_bytes (path : Str) (h : o.Fits) : elfSections path o.bytes = .ok o.elf :=
  elfSections_eq_ok_iff.mpr ⟨_, _, _, _, isElf_bytes h⟩

end ObjFile

/-- **The reader of ELF files**: it accepts exactly the files in which a type and sections stand and
returns what stands there, and from a written file it returns what was written. -/
theorem elfSections_reads (path : Str) :
    (∀ data elf, elfSections path data = .ok elf ↔
      ∃ shoff shentsize shstrndx rows, IsElf data elf shoff shentsize shstrndx rows) ∧
    ∀ o : ObjFile, o.Fits → elfSections path o.bytes = .ok o.elf :=
  ⟨fun _ _ => elfSections_eq_ok_iff, fun _ => ObjFile.elfSections_bytes path⟩

/-- A linked file with three bytes of code and three of data. -/
def zeroFile : ObjFile where
  typ := 2
  machine := 0x3e
  entry := 0x1000
  segments := []
  sections := [⟨".text".toList, 1, 6, 0x1000, [0x31, 0xc0, 0xc3]⟩,
    ⟨".rodata".toList, 1, 2, 0x2000, [7, 8, 9]⟩]

theorem zeroFile_fits : zeroFile.Fits where
  typ := by decide
  sections := by
    intro s hs
    simp only [zeroFile, List.mem_cons, List.not_mem_nil, or_false] at hs
    rcases hs with rfl | rfl <;>
      exact ⟨by decide +kernel, by decide, by decide, by decide, by decide, by decide⟩
  count := by decide
  strtab := by decide +kernel
  length := by decide +kernel

theorem elfSections_reads_zeroFile : elfSections "f".toList zeroFile.bytes =
    .ok ⟨2, [⟨[], 0, 0, 0, []⟩, ⟨".text".toList, 1, 6, 0x1000, [0x31, 0xc0, 0xc3]⟩,
      ⟨".rodata".toList, 1, 2, 0x2000, [7, 8, 9]⟩,
      ⟨".shstrtab".toList, 3, 0, 0, zeroFile.strtab⟩]⟩ :=
  (elfSections_reads "f".toList).2 zeroFile zeroFile_fits

end X86Scripts
