import X86Scripts.AsmFront.Listing
import X86Scripts.AsmFront.Translate

/-!
# The translate command

`cmd_translate` of `scripts/asm_front.py`, from the sections of the ELF file on: the layout it
accepts, the listing it reads, the loop over every instruction, and what it prints and writes. The
disassembler is a parameter.

* `layout`: the base address, or the reason for which the file needs a link first.
* `translateStep`, `translateAll`: the loop that collects translations and refusals.
* `programText`: the Lean module it emits.
* **`cmdTranslate`**: the whole command.
-/

namespace X86Scripts

open X86Scripts.Digits
open X86Scripts.Py

/-- A section of an ELF file, as `elf_sections` returns it. -/
structure ElfSection where
  name : Str
  typ : Nat
  flags : Nat
  addr : Nat
  body : List UInt8

/-- The type of an ELF file and its sections. -/
structure Elf where
  typ : Nat
  sections : List ElfSection

/-- The arguments of the command. -/
structure Options where
  /-- The file's own name. -/
  basename : Str
  out : Option Str
  ns : Str
  base : Option Int

/-- The ways in which the command ends early. -/
inductive CmdErr where
  /-- `SystemExit(msg)`. -/
  | systemExit (msg : Str)
  /-- An exception that is not caught. -/
  | uncaught (e : PyErr)

/-- What a command that returned has done: its exit code, what it printed, the file it wrote. -/
structure Report where
  exit : Nat
  stdout : Str
  file : Option (Str × Str)
  deriving DecidableEq, Repr

/-! ## The layout -/

/-- Data the program reads: `SHF_ALLOC` and not `SHF_EXECINSTR`, with a body. -/
def ElfSection.isData (s : ElfSection) : Bool :=
  s.flags &&& 2 != 0 && s.flags &&& 4 == 0 && !s.body.isEmpty

section

variable [UnicodeDB]

/-- `f"{names or 'none'}"`. -/
def namesText (names : List Str) : Str :=
  if names = [] then "none".toList
  else "[".toList ++ ", ".toList.intercalate (names.map pyRepr) ++ "]".toList

/-- The address the listing is made at. Source: `scripts/asm_front.py`, `cmd_translate` -/
def layout (elf : Elf) (base : Option Int) : Except CmdErr Int :=
  if elf.typ = 2 then
    match base with
    | some _ => .error (.systemExit
        "⛔ --base is for an unlinked object; a linked executable carries its own layout".toList)
    | none => .ok 0
  else if elf.typ = 1 then
    let relocs := (elf.sections.filter fun s => s.typ ∈ [4, 9]).map ElfSection.name
    let data := (elf.sections.filter ElfSection.isData).map ElfSection.name
    let given := if base.isSome then "given".toList else "NOT given".toList
    match base with
    | some b =>
      if relocs = [] ∧ data = [] then .ok b else .error (.systemExit (needsLink relocs data given))
    | none => .error (.systemExit (needsLink relocs data given))
  else .error (.systemExit ("⛔ ELF type ".toList ++ dec elf.typ ++
    " is neither an executable nor a relocatable object".toList))
where
  needsLink (relocs data : List Str) (given : Str) : Str :=
    "⛔ an unlinked object needs a link at the fixed layout first: relocations ".toList ++
      namesText relocs ++ ", data sections ".toList ++ namesText data ++ ", --base ".toList ++ given

/-! ## The loop -/

/-- The translations and the refusals collected so far. -/
structure Collected where
  code : List (Nat × Str)
  refused : List Str

/-- The loop body: `Refused` is collected, any other exception escapes.
Source: `scripts/asm_front.py`, `cmd_translate` -/
def translateStep (st : Collected) (i : Ins) : Except PyErr Collected :=
  match translate i.addr i.len i.text with
  | .ok t => .ok { st with code := st.code ++ [(i.addr, t)] }
  | .error (.refused msg) => .ok { st with refused := st.refused ++ [msg] }
  | .error e => .error e

/-- Every instruction of every label. -/
def translateAll (listing : List Block) : Except PyErr Collected :=
  (listing.flatMap (·.2)).foldlM translateStep ⟨[], []⟩

/-! ## The module it emits -/

/-- The data bytes of a file. Source: `scripts/asm_front.py`, `image` in `cmd_translate` -/
def imageOf (sections : List ElfSection) : List (Nat × UInt8) :=
  (sections.filter ElfSection.isData).flatMap fun s =>
    s.body.zipIdx.map fun (b, i) => (s.addr + i, b)

/-- A list literal's lines: a comma behind every line but the last. -/
def commaLines : List Str → List Str
  | [] => []
  | [l] => [(l ++ ",".toList).rdropWhile (· == ',')]
  | l :: ls => (l ++ ",".toList) :: commaLines ls

/-- The Lean module with the program and its image. Source: `scripts/asm_front.py`,
`cmd_translate` -/
def programText (opts : Options) (code : List (Nat × Str)) (image : List (Nat × UInt8)) : Str :=
  "\n".toList.intercalate (
    ["-- Generated by x86lean scripts/asm_front.py from ".toList ++ opts.basename ++ " (".toList ++
        dec code.length ++ " instructions, ".toList ++ dec image.length ++
        " data bytes). Do not edit.".toList,
      "import X86".toList, "open X86".toList, [], "namespace ".toList ++ opts.ns, [],
      "set_option maxRecDepth 32768 in".toList,
      "def prog : Program := \x7b code := [".toList] ++
    commaLines (code.map fun (a, t) => "  (".toList ++ bv (BitVec.ofNat 64 a) ++ ", ".toList ++ t ++
      ")".toList) ++
    ["] \x7d".toList, [], "set_option maxRecDepth 32768 in".toList,
      "def image : Image := \x7b data := [".toList] ++
    commaLines (image.map fun (a, b) => "  (".toList ++ bv (BitVec.ofNat 64 a) ++ ", ".toList ++
      bv b.toBitVec ++ ")".toList) ++
    ["] \x7d".toList, [], "end ".toList ++ opts.ns, []])

/-- The end of the command: the refusals and exit code 3, or the program and 0.
Source: `scripts/asm_front.py`, `cmd_translate` -/
def report (opts : Options) (sections : List ElfSection) (st : Collected) : Report :=
  if st.refused ≠ [] then
    ⟨3, st.refused.flatMap fun r => "REFUSED-TRANSLATE ".toList ++ r ++ "\n".toList, none⟩
  else
    let image := imageOf sections
    let text := programText opts st.code image
    match opts.out with
    | none => ⟨0, text, none⟩
    | some out =>
      ⟨0, "asm_front: ".toList ++ dec st.code.length ++ " instructions, ".toList ++
        dec image.length ++ " data bytes -> ".toList ++ out ++ "\n".toList, some (out, text)⟩

/-- What a parsed listing is turned into. -/
def translateListing (opts : Options) (sections : List ElfSection) (listing : List Block) :
    Except PyErr Report := do
  let st ← translateAll listing
  return report opts sections st

/-- An exception the command does not catch. -/
def uncaught {α : Type} : Except PyErr α → Except CmdErr α
  | .ok a => .ok a
  | .error e => .error (.uncaught e)

/-- **The command**, given the sections of the file and, if the box has one, a disassembler that
prints its listing at a base address. Source: `scripts/asm_front.py`, `cmd_translate` -/
def cmdTranslate (opts : Options) (elf : Elf) (objdump : Option (Int → Str)) :
    Except CmdErr Report := do
  let base ← layout elf opts.base
  match objdump with
  | none => .error (.systemExit "⛔ no objdump on this box".toList)
  | some objdump => do
    let listing ← uncaught (parseListing (objdump base))
    uncaught (translateListing opts elf.sections listing)

end

end X86Scripts
