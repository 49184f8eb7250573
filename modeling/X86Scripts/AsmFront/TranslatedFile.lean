import X86Scripts.AsmFront.ElfWriter
import X86Scripts.AsmFront.LoadedImage

/-!
# From a file to a loaded program

The translate command from its arguments and the bytes of its file on.

* `int0`, `parseRest`, `parseArgs`: the arguments. **`parseRest_ends`**: which are accepted, and what
  the others are refused for.
* `Box`, `disassemblers`: the disassemblers of a machine. `translateCommand`: the whole command.
* **`translateCommand_preserves`**: on a written file whose listing is one of core blocks, the emitted
  program runs as the code in memory does, and its image is loaded where the data sections stand.
-/

namespace X86Scripts

open X86Scripts.Regex
open X86Scripts.Py
open X86Scripts.Digits
open X86Scripts.Bytes
open X86Scripts.Outcome

/-! ## The arguments -/

/-- The ways in which the whole command ends early. -/
inductive FileErr where
  /-- `SystemExit(msg)`, for the arguments. -/
  | systemExit (msg : Str)
  /-- `ValueError`, from `int(x, 0)`. -/
  | valueError
  /-- From `elf_sections`. -/
  | elf (e : ElfErr)
  /-- From the rest of the command. -/
  | cmd (e : CmdErr)

/-- `os.path.basename(path)`. -/
def basename (path : Str) : Str := path.rtakeWhile (· != '/')

section args

variable [UnicodeDB]

/-- The base a literal has by its prefix, and its digits. -/
def litBase : Str → Nat × Str
  | z :: x :: r =>
    if intDigit 10 z = some 0 ∧ x ∈ "xX".toList then (16, dropUnderscore r)
    else if intDigit 10 z = some 0 ∧ x ∈ "oO".toList then (8, dropUnderscore r)
    else if intDigit 10 z = some 0 ∧ x ∈ "bB".toList then (2, dropUnderscore r)
    else (10, z :: x :: r)
  | s => (10, s)

/-- `int(s, 0)`; `none` is `ValueError`. A decimal literal with a leading zero must be zero. -/
def int0 (s : Str) : Option Int :=
  let t := intSign (stripBy intSpace s)
  let lit := litBase t.2
  match (lit.2.splitOn '_').mapM (digitGroup lit.1) with
  | none => none
  | some groups =>
    let ds := groups.flatten
    let v := ofDigits lit.1 ds
    if lit.1 = 10 ∧ (maxStrDigits < ds.length ∨ ds.head? = some 0 ∧ v ≠ 0) then none
    else some (if t.1 then -(v : Int) else v)

example : @int0 UnicodeDB.ascii "0x40_1000".toList = some 0x401000 := by decide +kernel

/-- The refusal of an argument. -/
def unknownArg {α : Type} (arg : Str) : Except FileErr α :=
  .error (.systemExit ("⛔ unknown argument ".toList ++ pyRepr arg))

/-- The arguments behind the path; an empty file name is no file name.
Source: `scripts/asm_front.py`, the first loop of `cmd_translate` -/
def parseRest (opts : Options) : List Str → Except FileErr Options
  | [] => .ok opts
  | [arg] => unknownArg arg
  | arg :: value :: rest =>
    if arg = "--out".toList then
      parseRest { opts with out := if value = [] then none else some value } rest
    else if arg = "--namespace".toList then parseRest { opts with ns := value } rest
    else if arg = "--base".toList then
      match int0 value with
      | some b => parseRest { opts with base := some b } rest
      | none => .error .valueError
    else unknownArg arg

/-- The path and the options. Source: `scripts/asm_front.py`, `cmd_translate` -/
def parseArgs : List Str → Except FileErr (Str × Options)
  | [] => .error (.systemExit
      "usage: asm_front.py translate <elf> [--base ADDR] [--out FILE] [--namespace NS]".toList)
  | path :: rest => (fun opts => (path, opts)) <$>
      parseRest ⟨basename path, none, "Submission".toList, none⟩ rest

/-! ### Which arguments are accepted -/

/-- A flag with its value. -/
inductive Setting where
  | out (value : Str)
  | ns (value : Str)
  | base (value : Str) (b : Int) (h : int0 value = some b)

/-- The two arguments of a setting. -/
def Setting.args : Setting → List Str
  | .out value => ["--out".toList, value]
  | .ns value => ["--namespace".toList, value]
  | .base value _ _ => ["--base".toList, value]

/-- What a setting does to the options. -/
def Setting.set (opts : Options) : Setting → Options
  | .out value => { opts with out := if value = [] then none else some value }
  | .ns value => { opts with ns := value }
  | .base _ b _ => { opts with base := some b }

/-- The flags. -/
def flags : List Str := ["--out".toList, "--namespace".toList, "--base".toList]

/-- A setting is read, and the rest after it. -/
theorem parseRest_setting (opts : Options) (s : Setting) (rest : List Str) :
    parseRest opts (s.args ++ rest) = parseRest (s.set opts) rest := by
  cases s with
  | out value => rfl
  | ns value => rfl
  | base value b h =>
      show parseRest opts ("--base".toList :: value :: rest) = _
      rw [parseRest, if_neg (by decide), if_neg (by decide), if_pos rfl]
      simp only [h]
      rfl

/-- The ways in which reading the arguments ends: with all settings, at an argument that is no flag
or has no value, or at a value of `--base` that is no number. -/
def ArgsEnd (opts : Options) (rest : List Str) : Prop :=
  (∃ ss : List Setting, rest = ss.flatMap Setting.args ∧
    parseRest opts rest = .ok (ss.foldl Setting.set opts)) ∨
  (∃ (ss : List Setting) (arg : Str) (more : List Str), rest = ss.flatMap Setting.args ++ arg :: more ∧
    (arg ∉ flags ∨ more = []) ∧ parseRest opts rest = unknownArg arg) ∨
  ∃ (ss : List Setting) (value : Str) (more : List Str),
    rest = ss.flatMap Setting.args ++ "--base".toList :: value :: more ∧ int0 value = none ∧
    parseRest opts rest = .error .valueError

theorem ArgsEnd.cons {opts : Options} {s : Setting} {rest : List Str}
    (h : ArgsEnd (s.set opts) rest) : ArgsEnd opts (s.args ++ rest) := by
  unfold ArgsEnd
  rw [parseRest_setting]
  rcases h with ⟨ss, hrest, hend⟩ | ⟨ss, arg, more, hrest, hno, hend⟩ | ⟨ss, value, more, hrest, hno, hend⟩
  · refine Or.inl ⟨s :: ss, ?_, hend⟩
    rw [hrest, List.flatMap_cons]
  · refine Or.inr (Or.inl ⟨s :: ss, arg, more, ?_, hno, hend⟩)
    rw [hrest, List.flatMap_cons, List.append_assoc]
  · refine Or.inr (Or.inr ⟨s :: ss, value, more, ?_, hno, hend⟩)
    rw [hrest, List.flatMap_cons, List.append_assoc]

/-- **How reading the arguments ends**: flags with values are all read, and the last of a kind counts;
else the first argument that is no flag with a value is refused, or the value of `--base` is. -/
theorem parseRest_ends (opts : Options) (rest : List Str) : ArgsEnd opts rest := by
  induction opts, rest using parseRest.induct with
  | case1 opts => exact Or.inl ⟨[], rfl, rfl⟩
  | case2 opts arg => exact Or.inr (Or.inl ⟨[], arg, [], rfl, Or.inr rfl, rfl⟩)
  | case3 opts value rest ih => exact ArgsEnd.cons (s := .out value) ih
  | case4 opts value rest _ ih => exact ArgsEnd.cons (s := .ns value) ih
  | case5 opts value rest b hb _ _ ih => exact ArgsEnd.cons (s := .base value b hb) ih
  | case6 opts value rest hb _ _ =>
      refine Or.inr (Or.inr ⟨[], value, rest, rfl, hb, ?_⟩)
      rw [parseRest, if_neg (by decide), if_neg (by decide), if_pos rfl]
      simp only [hb]
  | case7 opts arg value rest hout hns hbase =>
      refine Or.inr (Or.inl ⟨[], arg, value :: rest, rfl, Or.inl ?_, ?_⟩)
      · simp only [flags, List.mem_cons, List.not_mem_nil, or_false, not_or]
        exact ⟨hout, hns, hbase⟩
      · rw [parseRest, if_neg hout, if_neg hns, if_neg hbase]

end args

/-! ## The disassemblers -/

/-- What a machine has of disassemblers: `llvm-objdump` and `objdump` on its path, GNU's at its fixed
place, what `--version` prints, and the listing of a file at a base address. -/
structure Box where
  llvm : Option Str
  plain : Option Str
  gnu : Bool
  version : Str → Str
  listing : Str → Str → Int → Str

/-- `GNU_OBJDUMP`. -/
def gnuObjdump : Str := "/opt/homebrew/opt/binutils/bin/objdump".toList

/-- What a plain `objdump` is. -/
def Box.plainTool (box : Box) (path : Str) : List (Tool × Str) :=
  let v := box.version path
  if hasSub "LLVM".toList v && box.llvm.isNone then [(.llvm, path)]
  else if hasSub "GNU".toList v then [(.gnu, path)]
  else []

/-- The disassemblers found. Source: `scripts/asm_front.py`, `disassemblers` -/
def Box.disassemblers (box : Box) : List (Tool × Str) :=
  let found := (box.llvm.toList.map fun path => (Tool.llvm, path)) ++ box.plain.toList.flatMap box.plainTool
  if box.gnu && !(found.any fun t => t.1 == .gnu) then found ++ [(.gnu, gnuObjdump)] else found

/-- The disassembler that is used. -/
def Box.objdump (box : Box) (path : Str) : Option (Int → Str) :=
  box.disassemblers.head?.map fun t => box.listing t.2 path

/-! ## The whole command -/

/-- The sections the format adds are no data. -/
theorem imageOf_elf (o : ObjFile) : imageOf o.elf.sections = imageOf o.sections := by
  have hdata : o.elf.sections.filter ElfSection.isData = o.sections.filter ElfSection.isData := by
    show List.filter ElfSection.isData (_ :: (o.sections ++ [_])) = _
    rw [List.filter_cons_of_neg (by decide), List.filter_append, List.filter_cons_of_neg]
    · simp
    · simp [ElfSection.isData]
  unfold imageOf
  rw [hdata]

section command

variable [UnicodeDB]

/-- **The whole command**, given its arguments, the files and the disassemblers.
Source: `scripts/asm_front.py`, `cmd_translate` -/
def translateCommand (argv : List Str) (files : Str → List UInt8) (box : Box) :
    Except FileErr Report := do
  let args ← parseArgs argv
  let elf ← (elfSections args.1 (files args.1)).mapError .elf
  (cmdTranslate args.2 elf (box.objdump args.1)).mapError .cmd

/-- **From a file to a loaded program.** On a written file whose listing is one of core blocks, the
command exits with 0 and emits a module. Its program runs on every machine as the blocks in memory
do, and its image is loaded exactly in the memories in which the data sections of the file stand at
their addresses. -/
theorem translateCommand_preserves {argv : List Str} {path : Str} {opts : Options}
    {files : Str → List UInt8} {box : Box} {o : ObjFile} {listing : Int → Str} {base : Int}
    (tool : Tool) (lay : Layout) (file : OneLine) {bs : List CoreBlock}
    (hargs : parseArgs argv = .ok (path, opts)) (hfile : files path = o.bytes) (hfits : o.Fits)
    (hbox : box.objdump path = some listing) (hlayout : layout o.elf opts.base = .ok base)
    (hdump : listing base = coreListing tool lay file bs) (hlaid : Laid bs) :
    translateCommand argv files box =
        .ok (emitted opts (coreProgram bs) (imageAt (imageOf o.sections))) ∧
      (∀ {σ : Type} (M : Machine σ) (n : Nat) (s : σ),
        M.runP (coreProgram bs) n s = M.runWith (fetchCode bs) n s) ∧
      ∀ m, Loaded (imageAt (imageOf o.sections)) m ↔
        ∀ s ∈ o.sections, s.isData = true → HoldsBytes m (BitVec.ofNat 64 s.addr) s.body := by
  have hcmd := cmdTranslate_core opts o.elf listing tool lay file hlayout hdump
  refine ⟨?_, fun M => M.runP_eq_runWith (at?_coreProgram hlaid), loaded_imageOf o.sections⟩
  unfold translateCommand
  rw [hargs, ok_bind]
  dsimp only
  rw [hfile, ObjFile.elfSections_bytes path hfits, hbox]
  show (cmdTranslate opts o.elf (some listing)).mapError FileErr.cmd = _
  rw [hcmd, imageOf_elf]
  rfl

end command

/-- The command on the file of `zeroBlock`, on a machine with LLVM's disassembler only. -/
theorem translateCommand_preserves_zeroFile :
    let listing := coreListing .llvm (fun _ _ => plainColumns) ⟨"f".toList, forall_chars (by decide)⟩
      [zeroBlock]
    let box : Box := ⟨some "llvm-objdump".toList, none, false, fun _ => [], fun _ _ _ => listing⟩
    let opts : Options := ⟨"f".toList, none, "Submission".toList, none⟩
    (@translateCommand UnicodeDB.ascii ["build/f".toList] (fun _ => zeroFile.bytes) box =
        .ok (emitted opts (coreProgram [zeroBlock]) (imageAt (imageOf zeroFile.sections))) ∧
      (∀ {σ : Type} (M : Machine σ) (n : Nat) (s : σ),
        M.runP (coreProgram [zeroBlock]) n s = M.runWith (fetchCode [zeroBlock]) n s) ∧
      ∀ m, Loaded (imageAt (imageOf zeroFile.sections)) m ↔
        ∀ s ∈ zeroFile.sections, s.isData = true → HoldsBytes m (BitVec.ofNat 64 s.addr) s.body) ∧
    imageAt (imageOf zeroFile.sections) = ⟨[(0x2000, 7), (0x2001, 8), (0x2002, 9)]⟩ :=
  ⟨@translateCommand_preserves UnicodeDB.ascii ["build/f".toList] "build/f".toList _ _ _ zeroFile
    (fun _ => _) 0 .llvm _ _ [zeroBlock] rfl rfl zeroFile_fits rfl rfl rfl
    ⟨List.pairwise_singleton _ _, by decide⟩, by decide +kernel⟩

end X86Scripts
