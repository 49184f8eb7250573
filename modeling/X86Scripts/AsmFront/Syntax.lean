import X86Scripts.Lib.Regex

/-!
# The instruction AST the front end targets

The part of `X86/Syntax.lean` and `X86/Basic.lean` that `scripts/asm_front.py` builds values of:
widths, registers, effective addresses, operands and the scalar forms of `Op`. A kind keeps all
the members it has there, also those no mnemonic of the declared core names; the forms of `Op` the
front end has no branch for are left out.

* `Ea` carries its well-formedness: a RIP-relative address has no base and no index.
* `Op.eas`: the effective addresses an instruction names.
-/

namespace X86Scripts

/-- An operand width. Source: `X86/Basic.lean`, `Size` -/
inductive Size where
  | b | w | d | q
  deriving DecidableEq, Repr

/-- Width in bits. Source: `X86/Basic.lean`, `Size.bits`; `WIDTH` in `scripts/asm_front.py` -/
def Size.bits : Size → Nat
  | .b => 8 | .w => 16 | .d => 32 | .q => 64

/-- The general-purpose registers, in encoding order. Source: `X86/Basic.lean`, `GPR` -/
inductive GPR where
  | rax | rcx | rdx | rbx | rsp | rbp | rsi | rdi
  | r8 | r9 | r10 | r11 | r12 | r13 | r14 | r15
  deriving DecidableEq, Repr

/-- All sixteen registers. Source: `X86/Basic.lean`, `GPR.all` -/
def GPR.all : List GPR :=
  [.rax, .rcx, .rdx, .rbx, .rsp, .rbp, .rsi, .rdi,
   .r8, .r9, .r10, .r11, .r12, .r13, .r14, .r15]

theorem GPR.mem_all (r : GPR) : r ∈ GPR.all := by cases r <;> decide

/-- The two segments long mode honours. Source: `X86/Basic.lean`, `Seg` -/
inductive Seg where
  | fs | gs
  deriving DecidableEq, Repr

/-- A 64-bit value. Source: `X86/Value.lean`, `Val` -/
abbrev Val := BitVec 64

/-- SIB scale factor. Source: `X86/Syntax.lean`, `Scale` -/
inductive Scale where
  | s1 | s2 | s4 | s8
  deriving DecidableEq, Repr

/-- An effective address, with the segment whose base a prefix selects and the `lock` prefix.
Source: `X86/Syntax.lean`, `Ea` -/
structure Ea where
  base : Option GPR := none
  index : Option GPR := none
  scale : Scale := .s1
  /-- The displacement, sign-extended to 64 bits. -/
  disp : Val := 0
  ripRel : Bool := false
  seg : Option Seg := none
  lock : Bool := false
  /-- A RIP-relative address names no base and no index. -/
  ripWf : ripRel = true → base = none ∧ index = none := by
    intro h; first | exact absurd h Bool.false_ne_true | exact ⟨rfl, rfl⟩
  deriving DecidableEq, Repr

/-- Source: `X86/Syntax.lean`, `Operand` -/
inductive Operand where
  | reg (r : GPR) (high8 : Bool)
  | mem (ea : Ea)
  | imm (v : Val)
  deriving DecidableEq, Repr

/-- Source: `X86/Syntax.lean`, `BinKind` -/
inductive BinKind where
  | add | sub | and | or | xor | cmp | test | adc | sbb
  deriving DecidableEq, Repr

/-- Source: `X86/Syntax.lean`, `UnKind` -/
inductive UnKind where
  | inc | dec | neg | not
  deriving DecidableEq, Repr

/-- Source: `X86/Syntax.lean`, `ShiftKind` -/
inductive ShiftKind where
  | shl | shr | sar
  deriving DecidableEq, Repr

/-- Source: `X86/Syntax.lean`, `RotKind` -/
inductive RotKind where
  | rol | ror | rcl | rcr
  deriving DecidableEq, Repr

/-- A shift count. Source: `X86/Syntax.lean`, `ShiftAmt` -/
inductive ShiftAmt where
  | imm8 (v : BitVec 8)
  | cl
  deriving DecidableEq, Repr

/-- The sixteen condition codes. Source: `X86/Syntax.lean`, `Cc` -/
inductive Cc where
  | o | no | b | ae | e | ne | be | a
  | s | ns | p | np | l | ge | le | g
  deriving DecidableEq, Repr

/-- A branch target. Source: `X86/Syntax.lean`, `JmpTarget` -/
inductive JmpTarget where
  | rel (d : Val)
  | indirect (o : Operand)
  deriving DecidableEq, Repr

/-- Source: `X86/Syntax.lean`, `BitKind` -/
inductive BitKind where
  | bt | bts | btr | btc
  deriving DecidableEq, Repr

/-- Source: `X86/Syntax.lean`, `BitCntKind` -/
inductive BitCntKind where
  | popcnt | lzcnt | tzcnt | bsf | bsr | blsi
  deriving DecidableEq, Repr

/-- Source: `X86/Syntax.lean`, `StringOp` -/
inductive StringOp where
  | movs | stos | lods | cmps | scas
  deriving DecidableEq, Repr

/-- Source: `X86/Syntax.lean`, `RepPrefix` -/
inductive RepPrefix where
  | rep | repe | repn
  deriving DecidableEq, Repr

/-- Source: `X86/Syntax.lean`, `MovxKind` -/
inductive MovxKind where
  | zero | sign
  deriving DecidableEq, Repr

/-- Source: `X86/Syntax.lean`, `CextKind` -/
inductive CextKind where
  | cbw | cwde | cdqe | cwd | cdq | cqo
  deriving DecidableEq, Repr

/-- Source: `X86/Syntax.lean`, `MulDivKind` -/
inductive MulDivKind where
  | mul | imul | div | idiv
  deriving DecidableEq, Repr

/-- Source: `X86/Syntax.lean`, `DShiftKind` -/
inductive DShiftKind where
  | shld | shrd
  deriving DecidableEq, Repr

/-- The forms of `X86/Syntax.lean`'s `Op` that the front end has a branch for. -/
inductive Op where
  | mov (sz : Size) (dst src : Operand)
  | bin (k : BinKind) (sz : Size) (dst src : Operand)
  | un (k : UnKind) (sz : Size) (dst : Operand)
  | shift (k : ShiftKind) (sz : Size) (dst : Operand) (amt : ShiftAmt)
  | lea (sz : Size) (dst : GPR) (ea : Ea)
  | push (sz : Size) (src : Operand)
  | pop (sz : Size) (dst : Operand)
  | jmp (t : JmpTarget)
  | jcc (c : Cc) (d : Val)
  | rot (k : RotKind) (sz : Size) (dst : Operand) (amt : ShiftAmt)
  | bit (k : BitKind) (sz : Size) (dst off : Operand)
  | setcc (c : Cc) (dst : Operand)
  | cmov (c : Cc) (sz : Size) (dst : GPR) (src : Operand)
  | call (t : JmpTarget)
  | movx (k : MovxKind) (dsz ssz : Size) (dst : GPR) (src : Operand)
  | cext (k : CextKind)
  | bswap (sz : Size) (dst : GPR)
  | nop (dst : Option Operand)
  | ret
  | bitcnt (k : BitCntKind) (sz : Size) (dst : GPR) (src : Operand)
  | repstrop (r : RepPrefix) (k : StringOp) (sz : Size)
  | muldiv (k : MulDivKind) (sz : Size) (src : Operand)
  | imulr (sz : Size) (dst : GPR) (src : Operand) (imm : Option Val)
  | dshift (k : DShiftKind) (sz : Size) (dst : Operand) (src : GPR) (amt : ShiftAmt)
  deriving DecidableEq, Repr

/-- A decoded instruction: an operation and its encoded length.
Source: `X86/Syntax.lean`, `Instr` -/
structure Instr where
  op : Op
  len : Nat
  deriving DecidableEq, Repr

/-- Is this operand an immediate? Source: `X86/Syntax.lean`, `Operand.isImm` -/
def Operand.isImm : Operand → Bool
  | .imm _ => true
  | _ => false

/-- The address of a memory operand. -/
def Operand.ea? : Operand → Option Ea
  | .mem e => some e
  | _ => none

/-- Every operand an instruction names. Source: `X86/Syntax.lean`, `opOperands` -/
def opOperands : Op → List Operand
  | .mov _ dst src => [dst, src]
  | .bin _ _ dst src => [dst, src]
  | .un _ _ dst => [dst]
  | .shift _ _ dst _ => [dst]
  | .lea _ _ _ => []
  | .push _ src => [src]
  | .pop _ dst => [dst]
  | .jmp t => match t with | .rel _ => [] | .indirect o => [o]
  | .jcc _ _ => []
  | .rot _ _ dst _ => [dst]
  | .bit _ _ dst off => [dst, off]
  | .setcc _ dst => [dst]
  | .cmov _ _ _ src => [src]
  | .call t => match t with | .rel _ => [] | .indirect o => [o]
  | .movx _ _ _ _ src => [src]
  | .cext _ => []
  | .bswap _ _ => []
  | .nop dst => dst.toList
  | .ret => []
  | .bitcnt _ _ _ src => [src]
  | .repstrop _ _ _ => []
  | .muldiv _ _ src => [src]
  | .imulr _ _ src _ => [src]
  | .dshift _ _ dst _ _ => [dst]

/-- The effective addresses an instruction names: those of its memory operands and `lea`'s.
Source: `X86/Syntax.lean`, `Op.eas` -/
def Op.eas (o : Op) : List Ea :=
  (opOperands o).filterMap Operand.ea? ++ (match o with | .lea _ _ e => [e] | _ => [])

end X86Scripts
