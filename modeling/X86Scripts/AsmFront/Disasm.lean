import X86Scripts.AsmFront.ListingLines
import X86Scripts.AsmFront.Translate

/-!
# How the disassemblers print an instruction

The AT&T text LLVM's and GNU's `objdump` print for an instruction of the declared core: what
`scripts/asm_front.py` says of the two formats, written down as printers.

* `Spelling`: a disassembler and the choices in which its versions and lines differ.
* `signedHex`, `Spelling.operandText`, `Spelling.targetText`: numbers, operands, branch targets.
* `Op.sized`: the operands in AT&T order, each with the width it is printed at.
* **`Spelling.print`**: the text of an instruction at an address.
* `Core`: the encodable instructions of the declared core.
-/

namespace X86Scripts

open X86Scripts.Regex
open X86Scripts.Digits

/-! ## Spellings -/

/-- A disassembler and its choices. -/
structure Spelling where
  tool : Tool
  /-- The blanks behind a mnemonic. -/
  gap : Str
  /-- The blanks behind a comma. -/
  sep : Str
  /-- A `mov` is printed `movabs`. -/
  movabs : Bool
  /-- GNU: a `movzx` or `movsx` between registers is printed without its widths. -/
  bareMovx : Bool
  /-- A shift or rotate by one is printed without its count. -/
  countless : Bool
  /-- A branch or `ret` has a `q` suffix. -/
  branchQ : Bool
  /-- GNU: a 64-bit `push` or `pop` has its suffix also where no register fixes the width. -/
  stackSuffix : Bool
  /-- The displacement 0 is printed in front of registers. -/
  zeroDisp : Bool
  /-- The scale 1 is printed. -/
  unitScale : Bool
  /-- The symbol behind a direct branch target. -/
  symbol : Option Str
  /-- The width in the mnemonic of a `nop` with an operand. -/
  nopSize : Size
  gap_ne : gap ≠ []
  gap_blank : ∀ c ∈ gap, isBlank c = true
  sep_blank : ∀ c ∈ sep, isBlank c = true
  symbol_ok : ∀ t ∈ symbol, '>' ∉ t
  nopSize_ne : nopSize ≠ .b

/-- A spelling without the optional parts: widths in columns of one blank. -/
def Spelling.plain (tool : Tool) : Spelling where
  tool := tool
  gap := " ".toList
  sep := match tool with | .llvm => " ".toList | .gnu => []
  movabs := false
  bareMovx := false
  countless := false
  branchQ := false
  stackSuffix := false
  zeroDisp := false
  unitScale := false
  symbol := none
  nopSize := .d
  gap_ne := by decide
  gap_blank := forall_chars (by decide)
  sep_blank := by cases tool <;> exact forall_chars (by decide)
  symbol_ok := by simp
  nopSize_ne := by decide

/-- The AT&T suffix of a width: `SUFFIX`, the other way. -/
def Size.suffix : Size → Char
  | .b => 'b' | .w => 'w' | .d => 'l' | .q => 'q'

/-- The letter for a kind of extension. -/
def MovxKind.letter : MovxKind → Char
  | .zero => 'z' | .sign => 's'

/-- A suffix, if one is shown. -/
def suffixText (sz : Option Size) : Str := (sz.map Size.suffix).toList

def Operand.isReg : Operand → Bool
  | .reg _ _ => true
  | _ => false

/-! ## Numbers and operands -/

/-- A number in signed hexadecimal. -/
def signedHex (i : Int) : Str :=
  (if i < 0 then "-0x".toList else "0x".toList) ++ hex i.natAbs

namespace Spelling

variable (s : Spelling)

/-- The number printed for an immediate: LLVM's is signed, GNU's is unsigned, at the width. -/
def immValue (sz : Size) (v : Val) : Int :=
  match s.tool with
  | .llvm => Int.bmod v.toNat (2 ^ sz.bits)
  | .gnu => v.toNat % 2 ^ sz.bits

/-- The displacement of an address. Without registers GNU prints it unsigned. -/
def dispText (ea : Ea) : Str :=
  let bare := ea.base = none ∧ ea.index = none ∧ ea.ripRel = false
  if ea.disp = 0 ∧ s.zeroDisp = false ∧ ¬bare then []
  else if s.tool = .gnu ∧ bare then signedHex ea.disp.toNat
  else signedHex ea.disp.toInt

/-- A register name with its `%`. -/
def regText (r : GPR) (sz : Size) (high8 : Bool) : Str := '%' :: r.name sz high8

/-- The index of an address and its scale. -/
def indexText (scale : Scale) (index : GPR) : Str :=
  ",".toList ++ regText index .q false ++
    (if scale = .s1 ∧ s.unitScale = false then [] else ",".toList ++ dec scale.factor)

/-- What stands in the parentheses of an address. -/
def sibText (ea : Ea) : Str :=
  (if ea.ripRel then "%rip".toList else ea.base.elim [] fun r => regText r .q false) ++
    ea.index.elim [] (s.indexText ea.scale)

/-- A memory operand. -/
def memText (ea : Ea) : Str :=
  (ea.seg.elim [] fun seg => "%".toList ++ seg.name ++ ":".toList) ++ s.dispText ea ++
    (if ea.base = none ∧ ea.index = none ∧ ea.ripRel = false then []
      else "(".toList ++ s.sibText ea ++ ")".toList)

/-- An operand at a width. -/
def operandText (x : Size × Operand) : Str :=
  match x.2 with
  | .reg r high8 => regText r x.1 high8
  | .imm v => "$".toList ++ signedHex (s.immValue x.1 v)
  | .mem ea => s.memText ea

/-- LLVM marks a target as hexadecimal. -/
def hexMark : Str :=
  match s.tool with
  | .llvm => "0x".toList
  | .gnu => []

/-- A direct branch target. -/
def directText (ta : Val) : Str :=
  s.hexMark ++ hex ta.toNat ++
    s.symbol.elim [] fun t => " <".toList ++ t ++ ">".toList

/-- A branch target, the next instruction being at `next`. -/
def targetText (next : Nat) : JmpTarget → Str
  | .rel d => s.directText (BitVec.ofNat 64 next + d)
  | .indirect o => "*".toList ++ s.operandText (.q, o)

end Spelling

/-! ## Instructions -/

/-- The count of a shift, printed as a byte. -/
def ShiftAmt.sized : ShiftAmt → Size × Operand
  | .imm8 v => (.b, .imm (v.setWidth 64))
  | .cl => (.b, .reg .rcx false)

/-- A branch target's operand. -/
def JmpTarget.sized : JmpTarget → List (Size × Operand)
  | .rel _ => []
  | .indirect o => [(.q, o)]

/-- **The operands of an instruction in AT&T order**, source first, each at its width. -/
def Op.sized : Op → List (Size × Operand)
  | .mov sz dst src => [(sz, src), (sz, dst)]
  | .bin _ sz dst src => [(sz, src), (sz, dst)]
  | .un _ sz dst => [(sz, dst)]
  | .shift _ sz dst amt => [amt.sized, (sz, dst)]
  | .lea sz dst ea => [(sz, .mem ea), (sz, .reg dst false)]
  | .push sz src => [(sz, src)]
  | .pop sz dst => [(sz, dst)]
  | .jmp t => t.sized
  | .jcc _ _ => []
  | .rot _ sz dst amt => [amt.sized, (sz, dst)]
  | .bit _ sz dst off => [(sz, off), (sz, dst)]
  | .setcc _ dst => [(.b, dst)]
  | .cmov _ sz dst src => [(sz, src), (sz, .reg dst false)]
  | .call t => t.sized
  | .movx _ dsz ssz dst src => [(ssz, src), (dsz, .reg dst false)]
  | .cext _ => []
  | .bswap sz dst => [(sz, .reg dst false)]
  | .nop dst => dst.toList.map fun o => (.q, o)
  | .ret => []
  | .bitcnt _ sz dst src => [(sz, src), (sz, .reg dst false)]
  | .repstrop _ _ _ => []
  | .muldiv _ sz src => [(sz, src)]
  | .imulr sz dst src imm => (imm.toList.map fun v => (sz, .imm v)) ++ [(sz, src), (sz, .reg dst false)]
  | .dshift _ sz dst src amt => [amt.sized, (sz, .reg src false), (sz, dst)]

/-- The displacement of a relative branch. -/
def Op.displacement : Op → Option Val
  | .jmp (.rel d) => some d
  | .call (.rel d) => some d
  | .jcc _ d => some d
  | _ => none

/-- The `lock` prefix of an instruction, which its address carries. -/
def Op.lock (op : Op) : Bool := op.eas.any Ea.lock

namespace Spelling

variable (s : Spelling)

/-- The suffix of a mnemonic: GNU drops it when a register fixes the width. -/
def suffix (sz : Size) (os : List Operand) : Option Size :=
  if s.tool = .gnu ∧ os.any Operand.isReg then none else some sz

/-- The suffix of `push` and `pop`, whose default width is 64 bits. -/
def stackSize (sz : Size) (o : Operand) : Option Size :=
  if s.tool = .gnu ∧ sz = .q ∧ s.stackSuffix = false then none else s.suffix sz [o]

/-- A `movzx` or `movsx` is printed without its widths. -/
def bare (src : Operand) : Bool := s.tool = .gnu && s.bareMovx && src.isReg

/-- A shift or rotate by one is printed without its count. -/
def dropsCount (amt : ShiftAmt) : Bool := s.countless && amt = .imm8 1

/-- The `q` of a branch or `ret`. -/
def branchSuffix : Str := if s.branchQ then "q".toList else []

/-- The operands as they are printed: a dropped count, and the width of a `nop`. -/
def operands : Op → List (Size × Operand)
  | .shift _ sz dst amt => if s.dropsCount amt then [(sz, dst)] else [amt.sized, (sz, dst)]
  | .rot _ sz dst amt => if s.dropsCount amt then [(sz, dst)] else [amt.sized, (sz, dst)]
  | .nop dst => dst.toList.map fun o => (s.nopSize, o)
  | op => op.sized

/-- The suffix of a string operation: the accumulator fixes the width of `stos` and `lods`. -/
def stringSuffix (k : StringOp) (sz : Size) : Option Size :=
  s.suffix sz (if k = .movs then [] else [.reg .rax false])

def mnemonic : Op → Str
  | .mov sz dst src =>
    (if s.movabs then "movabs".toList else "mov".toList) ++ suffixText (s.suffix sz [src, dst])
  | .bin k sz dst src => k.name ++ suffixText (s.suffix sz [src, dst])
  | .un k sz dst => k.name ++ suffixText (s.suffix sz [dst])
  | .shift k sz dst _ => k.name ++ suffixText (s.suffix sz [dst])
  | .lea sz dst _ => "lea".toList ++ suffixText (s.suffix sz [.reg dst false])
  | .push sz src => "push".toList ++ suffixText (s.stackSize sz src)
  | .pop sz dst => "pop".toList ++ suffixText (s.stackSize sz dst)
  | .jmp _ => "jmp".toList ++ s.branchSuffix
  | .jcc c _ => "j".toList ++ c.name
  | .rot k sz dst _ => k.name ++ suffixText (s.suffix sz [dst])
  | .bit k sz dst off => k.name ++ suffixText (s.suffix sz [off, dst])
  | .setcc c _ => "set".toList ++ c.name
  | .cmov c sz dst src => "cmov".toList ++ c.name ++ suffixText (s.suffix sz [src, .reg dst false])
  | .call _ => "call".toList ++ s.branchSuffix
  | .movx k dsz ssz _ src =>
    if s.bare src then "mov".toList ++ [k.letter, 'x']
    else "mov".toList ++ [k.letter, ssz.suffix, dsz.suffix]
  | .cext _ => "cltq".toList
  | .bswap sz dst => "bswap".toList ++ suffixText (s.suffix sz [.reg dst false])
  | .nop dst => "nop".toList ++ suffixText (dst.bind fun o => s.suffix s.nopSize [o])
  | .ret => "ret".toList ++ s.branchSuffix
  | .bitcnt k sz dst src => k.name ++ suffixText (s.suffix sz [src, .reg dst false])
  | .repstrop r k sz => r.name ++ s.gap ++ k.name ++ suffixText (s.stringSuffix k sz)
  | .muldiv k sz src => k.name ++ suffixText (s.suffix sz [src])
  | .imulr sz dst src _ => "imul".toList ++ suffixText (s.suffix sz [src, .reg dst false])
  | .dshift k sz dst src _ => k.name ++ suffixText (s.suffix sz [.reg src false, dst])

/-- GNU names the segment of a string operation's source. -/
def sourceSeg : Str :=
  match s.tool with
  | .llvm => []
  | .gnu => "%ds:".toList

/-- The implicit operands of a string operation. -/
def stringTokens (k : StringOp) (sz : Size) : List Str :=
  let src := s.sourceSeg ++ "(%rsi)".toList
  let dst := "%es:(%rdi)".toList
  let acc := regText .rax sz false
  match k with
  | .movs => [src, dst]
  | .stos => [acc, dst]
  | .lods => [src, acc]
  | .cmps => [dst, src]
  | .scas => [dst, acc]

/-- The texts of the operands, the next instruction being at `next`. -/
def tokens (next : Nat) : Op → List Str
  | .jmp t => [s.targetText next t]
  | .call t => [s.targetText next t]
  | .jcc _ d => [s.targetText next (.rel d)]
  | .repstrop _ k sz => s.stringTokens k sz
  | op => (s.operands op).map s.operandText

/-- A mnemonic and its operands. -/
def lineText (mn : Str) (toks : List Str) : Str :=
  if toks = [] then mn else mn ++ s.gap ++ (",".toList ++ s.sep).intercalate toks

/-- **The text of an instruction** of `n` bytes at `addr`, behind its `lock` prefix. -/
def body (addr n : Nat) (op : Op) : Str := s.lineText (s.mnemonic op) (s.tokens (addr + n) op)

/-- **The text of an instruction** of `n` bytes at `addr`. -/
def print (addr n : Nat) (op : Op) : Str :=
  (if op.lock then "lock ".toList else []) ++ s.body addr n op

end Spelling

/-! ## The encodable instructions -/

/-- The operand exists at the width: a high byte is eight bits of one of four registers, an
immediate fits, and an address is not indexed by `rsp` and scales an index only. -/
def Operand.Fits (sz : Size) : Operand → Prop
  | .reg r high8 => RegView r sz high8
  | .imm v => v.toNat < 2 ^ sz.bits
  | .mem ea => ea.index ≠ some .rsp ∧ (ea.index = none → ea.scale = .s1)

instance (sz : Size) : DecidablePred (Operand.Fits sz)
  | .reg _ _ => inferInstanceAs (Decidable (RegView _ _ _))
  | .imm _ => inferInstanceAs (Decidable (_ < _))
  | .mem _ => inferInstanceAs (Decidable (_ ∧ _))

/-- The forms of the declared core, with the operand kinds and the widths they exist at. -/
def Op.inCore : Op → Bool
  | .mov _ dst _ => !dst.isImm
  | .bin _ _ dst _ => !dst.isImm
  | .un _ _ dst => !dst.isImm
  | .shift _ _ dst _ => !dst.isImm
  | .lea sz _ _ => sz != .b
  | .push sz _ => sz == .q || sz == .w
  | .pop sz dst => (sz == .q || sz == .w) && !dst.isImm
  | .jmp (.rel _) => true
  | .jmp (.indirect o) => !o.isImm
  | .jcc _ _ => true
  | .rot k _ dst _ => (k == .rol || k == .ror) && !dst.isImm
  | .bit k sz dst off => (k == .bts || k == .btr) && sz != .b && !dst.isImm && off.ea?.isNone
  | .setcc _ dst => !dst.isImm
  | .cmov _ sz _ src => sz != .b && !src.isImm
  | .call (.rel _) => true
  | .call (.indirect o) => !o.isImm
  | .movx k dsz ssz _ src => decide (ssz.bits < dsz.bits) && !(k == .zero && ssz == .d) && !src.isImm
  | .cext k => k == .cdqe
  | .bswap sz _ => sz == .d || sz == .q
  | .nop dst => !dst.any Operand.isImm
  | .ret => true
  | .bitcnt k sz _ src => k == .bsr && sz != .b && !src.isImm
  | .repstrop r k _ => r == .rep && (k == .movs || k == .stos || k == .lods)
  | .muldiv k _ src => (k == .mul || k == .imul) && !src.isImm
  | .imulr sz _ src _ => sz != .b && !src.isImm
  | .dshift k sz dst _ _ => k == .shld && sz != .b && !dst.isImm

/-- **The encodable instructions of the declared core**: a form of the core whose operands exist at
their widths, with at most one memory operand. -/
structure Core (op : Op) : Prop where
  inCore : op.inCore = true
  fits : ∀ x ∈ op.sized, x.2.Fits x.1
  oneMem : op.eas.length ≤ 1

instance : DecidablePred Core := fun op =>
  decidable_of_iff (op.inCore = true ∧ (∀ x ∈ op.sized, x.2.Fits x.1) ∧ op.eas.length ≤ 1)
    ⟨fun h => ⟨h.1, h.2.1, h.2.2⟩, fun h => ⟨h.inCore, h.fits, h.oneMem⟩⟩

/-! ## What the front end returns -/

/-- The forms the front end returns, with the operand kinds and the widths it lets through. It does
not look for immediates in the sources of `cmov`, `imul` and `movzx`, nor at the widths of `lea`,
`cmov` and `movzx`, nor at the operand of `nop`. -/
def Op.returned : Op → Bool
  | .mov _ dst _ => !dst.isImm
  | .bin _ _ dst _ => !dst.isImm
  | .un _ _ dst => !dst.isImm
  | .shift _ _ dst _ => !dst.isImm
  | .lea _ _ _ => true
  | .push sz _ => sz == .q || sz == .w
  | .pop sz dst => (sz == .q || sz == .w) && !dst.isImm
  | .jmp (.rel _) => true
  | .jmp (.indirect o) => !o.isImm
  | .jcc _ _ => true
  | .rot k _ dst _ => (k == .rol || k == .ror) && !dst.isImm
  | .bit k sz dst off => (k == .bts || k == .btr) && sz != .b && !dst.isImm && off.ea?.isNone
  | .setcc _ dst => !dst.isImm
  | .cmov _ _ _ _ => true
  | .call (.rel _) => true
  | .call (.indirect o) => !o.isImm
  | .movx k dsz ssz _ src => !(k == .zero && ssz == .d) && (src.isReg || (ssz != .q && dsz != .b))
  | .cext k => k == .cdqe
  | .bswap sz _ => sz == .d || sz == .q
  | .nop _ => true
  | .ret => true
  | .bitcnt k sz _ src => k == .bsr && sz != .b && !src.isImm
  | .repstrop r k _ => r == .rep && (k == .movs || k == .stos || k == .lods)
  | .muldiv k _ src => (k == .mul || k == .imul) && !src.isImm
  | .imulr sz _ _ _ => sz != .b
  | .dshift k sz dst _ _ => k == .shld && sz != .b && !dst.isImm

/-- `movzx` and `movsx` have mnemonics with both widths only where each has a letter. -/
def Spelling.spells (s : Spelling) : Op → Bool
  | .movx _ dsz ssz _ src => s.bare src || (ssz != .q && dsz != .b)
  | _ => true

/-- **The instructions a spelling has a line for that the front end accepts**: a returned form with
operands that exist at the widths printed, and a `lock` on one memory operand. -/
structure Printable (s : Spelling) (op : Op) : Prop where
  form : op.returned = true
  fits : ∀ x ∈ s.operands op, x.2.Fits x.1
  lock : op.lock = true → op.eas.length = 1
  spells : s.spells op = true

/-- Every form of the core is returned. -/
theorem Op.returned_of_inCore {op : Op} (h : op.inCore = true) : op.returned = true := by
  cases op with
  | jmp t => cases t <;> exact h
  | call t => cases t <;> exact h
  | movx k dsz ssz dst src =>
      simp only [Op.inCore, Op.returned, Bool.and_eq_true, decide_eq_true_eq] at h ⊢
      refine ⟨h.1.2, ?_⟩
      have hlt := h.1.1
      revert hlt
      cases ssz <;> cases dsz <;> simp [Size.bits]
  | imulr sz dst src imm =>
      simp only [Op.inCore, Op.returned, Bool.and_eq_true] at h ⊢
      exact h.1
  | lea sz dst ea => rfl
  | cmov c sz dst src => rfl
  | nop dst => rfl
  | _ => exact h

end X86Scripts
