import X86Scripts.AsmFront.CoreListing
import X86Scripts.AsmFront.Refusal

/-!
# The emitted program

The command on the listing of a program of the core: the module it writes, what the module says, and
how its program runs. The machine is a parameter; only `rip` and stopping matter.

* `Program`, `Image`, `moduleText`: what the emitted module defines, and its text.
* **`moduleText_inj`**, **`programText_eq_iff`**: the text determines the program and the image.
* `Machine`, `Program.at?`, `Machine.runP`: the run of a program, fetching at `rip`.
* `fetchCode`: the instruction at an address, by walking through the encoded blocks.
* **`cmdTranslate_preserves`**: the command emits a program that runs as the encoded blocks do.
-/

namespace X86Scripts

open X86Scripts.Regex
open X86Scripts.Py
open X86Scripts.Digits
open X86Scripts.Outcome
open X86Scripts.Print
open X86Scripts.Tiling

/-! ## Programs and images -/

/-- Instructions with their addresses. Source: `X86/Program.lean`, `Program` -/
@[ext] structure Program where
  code : List (Val × Instr)
  deriving DecidableEq

/-- Bytes with their addresses. Source: `X86/Program.lean`, `Image` -/
@[ext] structure Image where
  data : List (Val × BitVec 8)
  deriving DecidableEq

/-- The program of placed instructions. -/
def programOf (code : List (Nat × Instr)) : Program :=
  ⟨code.map fun p => (BitVec.ofNat 64 p.1, p.2)⟩

/-- The image of placed bytes. -/
def imageAt (data : List (Nat × UInt8)) : Image :=
  ⟨data.map fun p => (BitVec.ofNat 64 p.1, p.2.toBitVec)⟩

/-- The row of an instruction. -/
def codeRow (e : Val × Instr) : Str :=
  "  (".toList ++ bv e.1 ++ ", ".toList ++ e.2.term ++ ")".toList

/-- The row of a byte. -/
def dataRow (e : Val × BitVec 8) : Str :=
  "  (".toList ++ bv e.1 ++ ", ".toList ++ bv e.2 ++ ")".toList

/-- The rows of a list literal, a comma and a line break between them. -/
def rows (ls : List Str) : Str :=
  if ls = [] then [] else ",\n".toList.intercalate ls ++ "\n".toList

/-- Lines, each with its line break. -/
def textOf (ls : List Str) : Str := ls.flatMap (· ++ "\n".toList)

/-- **The text of the module** that defines a program and its image. -/
def moduleText (opts : Options) (p : Program) (img : Image) : Str :=
  textOf ["-- Generated by x86lean scripts/asm_front.py from ".toList ++ opts.basename ++ " (".toList ++
      dec p.code.length ++ " instructions, ".toList ++ dec img.data.length ++
      " data bytes). Do not edit.".toList,
    "import X86".toList, "open X86".toList, [], "namespace ".toList ++ opts.ns, [],
    "set_option maxRecDepth 32768 in".toList, "def prog : Program := \x7b code := [".toList] ++
  rows (p.code.map codeRow) ++
  textOf ["] \x7d".toList, [], "set_option maxRecDepth 32768 in".toList,
    "def image : Image := \x7b data := [".toList] ++
  rows (img.data.map dataRow) ++ textOf ["] \x7d".toList, [], "end ".toList ++ opts.ns]

/-! ## The text of the module -/

theorem intercalate_append_cons {α : Type} (sep : List α) (ls : List (List α)) (x : List α)
    (xs : List (List α)) :
    sep.intercalate (ls ++ x :: xs) = ls.flatMap (· ++ sep) ++ sep.intercalate (x :: xs) := by
  induction ls with
  | nil => rfl
  | cons l ls ih =>
      rw [List.cons_append, List.intercalate_cons_of_ne_nil (by simp), ih, List.flatMap_cons]
      simp only [List.append_assoc]

/-- Lines that do not end with a comma are joined by commas. -/
theorem commaLines_rows {ls : List Str} (hls : ∀ l ∈ ls, l.getLast? ≠ some ',') :
    textOf (commaLines ls) = rows ls := by
  induction ls with
  | nil => rfl
  | cons l ls ih =>
      obtain ⟨hl, hls⟩ := List.forall_mem_cons.mp hls
      rw [rows, if_neg (List.cons_ne_nil _ _)]
      cases ls with
      | nil =>
          have hcomma : (l ++ ",".toList).rdropWhile (· == ',') = l := by
            rw [rdropWhile_pad (forall_chars (by decide)), rdropWhile_of_last]
            intro c hc
            rw [beq_eq_false_iff_ne]
            rintro rfl
            exact hl hc
          rw [commaLines, hcomma, List.intercalate_singleton, textOf, List.flatMap_singleton]
      | cons l' ls =>
          have hsep : ",\n".toList = ",".toList ++ "\n".toList := rfl
          have hcomma : commaLines (l :: l' :: ls) = (l ++ ",".toList) :: commaLines (l' :: ls) := rfl
          have hcons : ∀ t ts, textOf (t :: ts) = t ++ "\n".toList ++ textOf ts :=
            fun _ _ => List.flatMap_cons
          rw [hcomma, hcons, ih hls, rows, if_neg (List.cons_ne_nil _ _),
            List.intercalate_cons_cons, hsep]
          simp only [List.append_assoc]

theorem getLast?_append_paren (t : Str) : (t ++ ")".toList).getLast? ≠ some ',' := by
  rw [List.getLast?_append_of_ne_nil _ (by decide)]
  decide

/-- The lines the command joins. -/
theorem programText_lines (opts : Options) (code : List (Nat × Str)) (data : List (Nat × UInt8)) :
    ∃ f g, (∀ a t, f (a, t) = "  (".toList ++ bv (BitVec.ofNat 64 a) ++ ", ".toList ++ t ++
        ")".toList) ∧
      (∀ a b, g (a, b) = "  (".toList ++ bv (BitVec.ofNat 64 a) ++ ", ".toList ++ bv b.toBitVec ++
        ")".toList) ∧
      programText opts code data = "\n".toList.intercalate (
        ["-- Generated by x86lean scripts/asm_front.py from ".toList ++ opts.basename ++
            " (".toList ++ dec code.length ++ " instructions, ".toList ++ dec data.length ++
            " data bytes). Do not edit.".toList,
          "import X86".toList, "open X86".toList, [], "namespace ".toList ++ opts.ns, [],
          "set_option maxRecDepth 32768 in".toList,
          "def prog : Program := \x7b code := [".toList] ++ commaLines (code.map f) ++
        ["] \x7d".toList, [], "set_option maxRecDepth 32768 in".toList,
          "def image : Image := \x7b data := [".toList] ++ commaLines (data.map g) ++
        ["] \x7d".toList, [], "end ".toList ++ opts.ns, []]) :=
  ⟨_, _, fun _ _ => rfl, fun _ _ => rfl, rfl⟩

/-- **The lines the command joins are the text of the module.** -/
theorem programText_eq (opts : Options) (code : List (Nat × Instr)) (data : List (Nat × UInt8)) :
    programText opts (code.map fun p => (p.1, p.2.term)) data =
      moduleText opts (programOf code) (imageAt data) := by
  have hrow : ∀ {α : Type} (l : List α) (f : α → Str), (∀ e, (f e).getLast? ≠ some ',') →
      textOf (commaLines (l.map f)) = rows (l.map f) := by
    intro α l f hf
    apply commaLines_rows
    intro t ht
    obtain ⟨e, -, rfl⟩ := List.mem_map.mp ht
    exact hf e
  obtain ⟨f, g, hf, hg, hlines⟩ := programText_lines opts (code.map fun p => (p.1, p.2.term)) data
  have hcode : (code.map fun p => (p.1, p.2.term)).map f = (programOf code).code.map codeRow := by
    rw [programOf, List.map_map, List.map_map]
    exact List.map_congr_left fun p _ => hf p.1 p.2.term
  have hdata : data.map g = (imageAt data).data.map dataRow := by
    rw [imageAt, List.map_map]
    exact List.map_congr_left fun p _ => hg p.1 p.2
  have htail : ∀ ns : Str, ["] \x7d".toList, [], "end ".toList ++ ns, []] =
      ["] \x7d".toList, [], "end ".toList ++ ns] ++ [[]] := fun _ => rfl
  rw [hlines, hcode, hdata, htail, ← List.append_assoc, intercalate_append_cons, List.intercalate_singleton,
    List.append_nil]
  simp only [List.flatMap_append]
  rw [← textOf, ← textOf, ← textOf, ← textOf, ← textOf, hrow _ codeRow fun _ => getLast?_append_paren _,
    hrow _ dataRow fun _ => getLast?_append_paren _, List.length_map]
  rw [moduleText, programOf, imageAt, List.length_map, List.length_map]

/-! ## The text says which program it is -/

theorem readable_instr : Readable isNameChar Instr.term := by
  intro i j r s _ _ h
  unfold Instr.term at h
  simp only [List.append_assoc, List.append_cancel_left_eq] at h
  rw [readable_term.sep_inj_iff ", ".toList rfl, readable_dec.sep_inj_iff "⟩".toList rfl] at h
  obtain ⟨hop, hlen, hrs⟩ := h
  cases i
  cases j
  exact ⟨Instr.mk.injEq _ _ _ _ ▸ ⟨hop, hlen⟩, hrs⟩

theorem readable_codeRow : Readable isNameChar codeRow := by
  intro e f r s _ _ h
  unfold codeRow at h
  simp only [List.append_assoc, List.append_cancel_left_eq] at h
  rw [readable_bv.sep_inj_iff ", ".toList rfl, readable_instr.sep_inj_iff ")".toList rfl] at h
  exact ⟨Prod.ext h.1 h.2.1, h.2.2⟩

theorem readable_dataRow : Readable isNameChar dataRow := by
  intro e f r s _ _ h
  unfold dataRow at h
  simp only [List.append_assoc, List.append_cancel_left_eq] at h
  rw [readable_bv.sep_inj_iff ", ".toList rfl, readable_bv.sep_inj_iff ")".toList rfl] at h
  exact ⟨Prod.ext h.1 h.2.1, h.2.2⟩

/-- As many rows of readable texts determine what they show. -/
theorem rows_inj {α : Type} {f : α → Str} (hf : Readable isNameChar f) {l l' : List α}
    (hlen : l.length = l'.length) {r s : Str} (h : rows (l.map f) ++ r = rows (l'.map f) ++ s) :
    l = l' ∧ r = s := by
  induction l generalizing l' with
  | nil =>
      obtain rfl : l' = [] := List.length_eq_zero_iff.mp hlen.symm
      exact ⟨rfl, h⟩
  | cons a l ih =>
      obtain ⟨b, l', rfl⟩ : ∃ b m, l' = b :: m :=
        List.exists_cons_of_ne_nil (by rintro rfl; cases hlen)
      have hlen := Nat.succ.inj hlen
      cases l with
      | nil =>
          obtain rfl : l' = [] := List.length_eq_zero_iff.mp hlen.symm
          simp only [rows, List.map_cons, List.map_nil, List.cons_ne_nil, if_false,
            List.intercalate_singleton, List.append_assoc] at h
          rw [hf.sep_inj_iff "\n".toList rfl] at h
          exact ⟨by rw [h.1], h.2⟩
      | cons a' l =>
          obtain ⟨b', l', rfl⟩ : ∃ b m, l' = b :: m :=
            List.exists_cons_of_ne_nil (by rintro rfl; cases hlen)
          have hrows : ∀ (x y : α) (zs : List α), rows ((x :: y :: zs).map f) =
              f x ++ (",\n".toList ++ rows ((y :: zs).map f)) := by
            intro x y zs
            simp only [rows, List.map_cons, List.cons_ne_nil, if_false,
              List.intercalate_cons_cons, List.append_assoc]
          rw [hrows, hrows] at h
          simp only [List.append_assoc] at h
          rw [hf.sep_inj_iff ",\n".toList rfl] at h
          obtain ⟨htail, hrs⟩ := ih hlen h.2
          exact ⟨by rw [h.1, htail], hrs⟩

/-- **The text of a module determines its program and its image.** -/
theorem moduleText_inj {opts : Options} {p p' : Program} {img img' : Image}
    (h : moduleText opts p img = moduleText opts p' img') : p = p' ∧ img = img' := by
  have hcons : ∀ t ts, textOf (t :: ts) = t ++ "\n".toList ++ textOf ts := fun _ _ => List.flatMap_cons
  unfold moduleText at h
  simp only [hcons, List.append_assoc, List.append_cancel_left_eq] at h
  -- the header shows both lengths
  rw [readable_dec.sep_inj_iff " instructions, ".toList rfl,
    readable_dec.sep_inj_iff " data bytes). Do not edit.".toList rfl] at h
  obtain ⟨hlen, hlen', h⟩ := h
  simp only [List.append_cancel_left_eq] at h
  obtain ⟨hcode, hrest⟩ := rows_inj readable_codeRow hlen h
  simp only [List.append_cancel_left_eq] at hrest
  obtain ⟨hdata, -⟩ := rows_inj readable_dataRow hlen' hrest
  exact ⟨Program.ext hcode, Image.ext hdata⟩

/-- **The emitted text determines what is emitted**: two runs of the command with the same options
write the same text exactly if they write the same instructions at the same addresses, and the same
bytes. -/
theorem programText_eq_iff (opts : Options) (code code' : List (Nat × Instr))
    (data data' : List (Nat × UInt8)) :
    programText opts (code.map fun p => (p.1, p.2.term)) data =
        programText opts (code'.map fun p => (p.1, p.2.term)) data' ↔
      programOf code = programOf code' ∧ imageAt data = imageAt data' := by
  rw [programText_eq, programText_eq]
  refine ⟨moduleText_inj, ?_⟩
  rintro ⟨hcode, hdata⟩
  rw [hcode, hdata]

/-! ## Runs -/

/-- The first instruction at an address. Source: `X86/Program.lean`, `Program.at?` -/
def Program.at? (p : Program) (a : Val) : Option Instr :=
  (p.code.find? fun q => q.1 == a).map Prod.snd

/-- What the run of a program needs of a machine: the address of the next instruction, whether it
has stopped, the effect of an instruction, and stopping outside the program. -/
structure Machine (σ : Type) where
  rip : σ → Val
  stopped : σ → Bool
  step : Instr → σ → σ
  outside : σ → σ

namespace Machine

variable {σ : Type} (M : Machine σ)

/-- One step, the instruction fetched at `rip`. -/
def stepWith (fetch : Val → Option Instr) (s : σ) : σ :=
  if M.stopped s then s
  else
    match fetch (M.rip s) with
    | some i => M.step i s
    | none => M.outside s

/-- Some steps. -/
def runWith (fetch : Val → Option Instr) : Nat → σ → σ
  | 0, s => s
  | n + 1, s => runWith fetch n (M.stepWith fetch s)

/-- Source: `X86/Program.lean`, `stepP` -/
def stepP (p : Program) : σ → σ := M.stepWith p.at?

/-- Source: `X86/Program.lean`, `runP` -/
def runP (p : Program) : Nat → σ → σ
  | 0, s => s
  | n + 1, s => runP p n (M.stepP p s)

theorem runP_eq_runWith {p : Program} {fetch : Val → Option Instr} (h : ∀ a, p.at? a = fetch a)
    (n : Nat) (s : σ) : M.runP p n s = M.runWith fetch n s := by
  induction n generalizing s with
  | zero => rfl
  | succ n ih =>
      have hstep : M.stepP p s = M.stepWith fetch s := by
        rw [stepP, funext h]
      rw [runP, runWith, hstep, ih]

end Machine

/-! ## Code in memory -/

/-- Blocks that do not overlap, below the top of the address space. -/
structure Laid (bs : List CoreBlock) : Prop where
  apart : Apart Instr.len (bs.map CoreBlock.segment)
  fits : ∀ b ∈ bs, b.segment.stop Instr.len ≤ 2 ^ 64

/-- **The instruction whose encoding starts at an address**: the one reached by walking through the
block that covers the address, from encoding to encoding. -/
def fetchCode (bs : List CoreBlock) (a : Val) : Option Instr :=
  Tiling.fetch Instr.len (bs.map CoreBlock.segment) a.toNat

/-- The program of blocks. -/
def coreProgram (bs : List CoreBlock) : Program := programOf (bs.flatMap CoreBlock.program)

theorem flat_segments (bs : List CoreBlock) :
    flat Instr.len (bs.map CoreBlock.segment) = bs.flatMap CoreBlock.program := by
  unfold flat
  rw [List.flatMap_map]
  rfl

theorem segment_pos (bs : List CoreBlock) : ∀ s ∈ bs.map CoreBlock.segment, ∀ i ∈ s.items,
    0 < i.len := by
  intro s hs i hi
  obtain ⟨b, -, rfl⟩ := List.mem_map.mp hs
  obtain ⟨j, -, rfl⟩ := List.mem_map.mp hi
  exact j.bytes_pos

/-- The addresses of laid out code fit in 64 bits. -/
theorem addr_lt {bs : List CoreBlock} (h : Laid bs) {a : Nat} {i : Instr}
    (hi : (a, i) ∈ bs.flatMap CoreBlock.program) : a < 2 ^ 64 := by
  obtain ⟨b, hb, hi⟩ := List.mem_flatMap.mp hi
  obtain ⟨hmem, -, hstop⟩ := place_range Instr.len hi
  have hpos := segment_pos bs b.segment (List.mem_map_of_mem hb) i hmem
  have hfits := h.fits b hb
  have hstop' : a + i.len ≤ b.segment.stop Instr.len := hstop
  omega

/-- Looking up 64-bit addresses is looking up their values. -/
theorem find_ofNat {α β : Type} {l : List (Nat × α)} (hl : ∀ e ∈ l, e.1 < 2 ^ 64) (f : α → β)
    (a : Val) : find (l.map fun e => (BitVec.ofNat 64 e.1, f e.2)) a = (find l a.toNat).map f := by
  apply find_map
  intro e he
  have hmod : e.1 % 2 ^ 64 = e.1 := Nat.mod_eq_of_lt (hl e he)
  rw [Bool.eq_iff_iff, beq_iff_eq, beq_iff_eq, ← BitVec.toNat_inj, BitVec.toNat_ofNat, hmod]

/-- **The program defines at every address the instruction encoded there.** -/
theorem at?_coreProgram {bs : List CoreBlock} (h : Laid bs) (a : Val) :
    (coreProgram bs).at? a = fetchCode bs a := by
  show find (coreProgram bs).code a = _
  have hfind := find_ofNat (fun e he => addr_lt h he) id a
  rw [Option.map_id, ← flat_segments, find_flat (segment_pos bs) h.apart] at hfind
  rw [coreProgram, programOf, ← flat_segments]
  exact hfind

/-! ## The command -/

/-- What the command has done when it has written a module. -/
def emitted (opts : Options) (p : Program) (img : Image) : Report :=
  let text := moduleText opts p img
  match opts.out with
  | none => ⟨0, text, none⟩
  | some out =>
    ⟨0, "asm_front: ".toList ++ dec p.code.length ++ " instructions, ".toList ++
      dec img.data.length ++ " data bytes -> ".toList ++ out ++ "\n".toList, some (out, text)⟩

theorem report_emitted [UnicodeDB] (opts : Options) (sections : List ElfSection)
    (code : List (Nat × Instr)) :
    report opts sections ⟨code.map fun p => (p.1, p.2.term), []⟩ =
      emitted opts (programOf code) (imageAt (imageOf sections)) := by
  have hlen : (imageAt (imageOf sections)).data.length = (imageOf sections).length := List.length_map _
  have hlen' : (programOf code).code.length = code.length := List.length_map _
  unfold report emitted
  rw [if_neg (not_not_intro rfl)]
  cases opts.out with
  | none => simp only [programText_eq]
  | some out => simp only [programText_eq, hlen, hlen', List.length_map]

/-- Entries that are translated are collected, and nothing is refused. -/
theorem collected_of_translates [UnicodeDB] {ins : List Ins} {code : List (Nat × Instr)}
    (h : List.Forall₂ Translates ins code) : (∀ i ∈ ins, Settles (translate i.addr i.len i.text)) ∧
      ins.filterMap translationOf = code.map (fun p => (p.1, p.2.term)) ∧
      ins.filterMap refusalOf = [] := by
  induction h with
  | nil => exact ⟨by simp, rfl, rfl⟩
  | @cons i p ins code hi _ ih =>
      obtain ⟨haddr, htr⟩ := hi
      obtain ⟨hall, hcode, hrefused⟩ := ih
      have htranslation : translationOf i = some (p.1, p.2.term) := by
        rw [translationOf, htr, haddr]
        rfl
      have hrefusal : refusalOf i = none := by rw [refusalOf, htr]
      rw [List.filterMap_cons_some htranslation, List.filterMap_cons_none hrefusal, hcode]
      exact ⟨List.forall_mem_cons.mpr ⟨Or.inl ⟨_, htr⟩, hall⟩, rfl, hrefused⟩

/-- The command on a file whose layout is accepted and whose listing is one of core blocks. -/
theorem cmdTranslate_core [UnicodeDB] (opts : Options) (elf : Elf) (objdump : Int → Str) {base : Int}
    (tool : Tool) (lay : Layout) (file : OneLine) {bs : List CoreBlock}
    (hlayout : layout elf opts.base = .ok base)
    (hdump : objdump base = coreListing tool lay file bs) :
    cmdTranslate opts elf (some objdump) =
      .ok (emitted opts (coreProgram bs) (imageAt (imageOf elf.sections))) := by
  obtain ⟨listing, hparse, hblocks⟩ := parseListing_core tool lay file bs
  have hins : List.Forall₂ Translates (listing.flatMap (·.2)) (bs.flatMap CoreBlock.program) := by
    clear hparse hdump
    induction hblocks with
    | nil => exact .nil
    | cons h _ ih => exact List.rel_append h.2 ih
  obtain ⟨hall, hcode, hrefused⟩ := collected_of_translates hins
  unfold cmdTranslate
  rw [hlayout, ok_bind]
  dsimp only
  rw [hdump, hparse]
  show uncaught (translateListing opts elf.sections listing) = _
  rw [translateListing_eq_ok_iff.mpr ⟨hall, rfl⟩, hcode, hrefused, report_emitted]
  rfl

/-- `xor %eax,%eax` and `ret`. -/
def zeroBlock : CoreBlock where
  label := "f".toList
  start := 0x1000
  insns :=
    [{ op := .bin .xor .d (.reg .rax false) (.reg .rax false), bytes := [0x31, 0xc0],
       spelling := .plain .gnu, core := by decide +kernel, bytes_pos := by decide,
       bytes_le := by decide, lock_bytes := by decide, symbol_fits := by rintro t ⟨⟩ },
     { op := .ret, bytes := [0xc3], spelling := .plain .gnu, core := by decide +kernel,
       bytes_pos := by decide, bytes_le := by decide, lock_bytes := by decide,
       symbol_fits := by rintro t ⟨⟩ }]
  label_ne := by decide
  label_line := forall_chars (by decide)

end X86Scripts
