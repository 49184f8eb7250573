import X86Scripts.AsmFront.Mnemonic
import X86Scripts.AsmFront.Operand
import X86Scripts.AsmFront.Term

/-!
# Translating one instruction

`translate` of `scripts/asm_front.py`, branch by branch, with the message of every refusal. A
branch returns the instruction whose text the script prints; `translate` prints it.

* `size`, `noImmDst`, `memLock`, `done`: the helpers.
* `branch`, `repString`: the branches in front of the operand reader.
* `Form.op`: the branches behind it.
* **`translateOp`**, **`translate`**: one listing line to an instruction, and to its Lean text.
-/

namespace X86Scripts

open X86Scripts.Regex
open X86Scripts.Digits
open X86Scripts.Py

/-- Source: `scripts/asm_front.py`, `what` in `translate` -/
def whatText (addr : Nat) (text : Str) : Str :=
  "0x".toList ++ hex addr ++ " `".toList ++ text ++ "`".toList

/-- What the branches share: the text that names the line, and whether it has a `lock` prefix. -/
structure Ctx where
  what : Str
  lock : Bool

/-- `raise Refused(f"{what}: ...")`. -/
def Ctx.refuse {α : Type} (c : Ctx) (msg : String) : Except PyErr α :=
  X86Scripts.refuse (c.what ++ ": ".toList ++ msg.toList)

/-- `raise Refused(f"{what}: {base}...")`. -/
def Ctx.refuseBase {α : Type} (c : Ctx) (base : Str) (msg : String) : Except PyErr α :=
  X86Scripts.refuse (c.what ++ ": ".toList ++ base ++ msg.toList)

/-! ## Helpers -/

def Arg.isMem : Arg → Bool
  | .mem _ => true
  | _ => false

def Arg.isImm : Arg → Bool
  | .imm _ => true
  | _ => false

/-- The width of a register operand. -/
def Arg.width : Arg → Option Size
  | .reg _ sz _ => some sz
  | _ => none

/-- The operand of the returned instruction, at a width: an immediate is taken modulo the width,
and `lock` is carried on the address. Source: `scripts/asm_front.py`, `lean_operand`, `mem_lock` -/
def Arg.operand (lock : Bool) (sz : Size) : Arg → Operand
  | .reg r _ high8 => .reg r high8
  | .imm v => .imm (BitVec.ofInt 64 (v % 2 ^ sz.bits))
  | .mem ea => .mem { ea with lock := ea.lock || lock }

/-- Source: `scripts/asm_front.py`, `mem_lock` in `translate` -/
def memLock (c : Ctx) (ops : List Arg) : Except PyErr Unit :=
  if c.lock = true ∧ (ops.filter Arg.isMem).length ≠ 1 then
    c.refuse "`lock` with no single memory operand"
  else return ()

/-- Source: `scripts/asm_front.py`, `done` in `translate` -/
def done (c : Ctx) (ops : List Arg) (op : Except PyErr Op) : Except PyErr Op := do
  memLock c ops
  op

/-- The widths of the register operands, sorted. -/
def widthsOf (ops : List Arg) : List Size :=
  [Size.b, .d, .q, .w].filter (· ∈ ops.filterMap Arg.width)

/-- `f"{sorted(widths)}"`. -/
def widthsText (widths : List Size) : Str :=
  "[".toList ++ ", ".toList.intercalate (widths.map fun sz => "'".toList ++ sz.name ++ "'".toList) ++
    "]".toList

/-- Source: `scripts/asm_front.py`, `_size` -/
def size (c : Ctx) (explicit : Option Size) (ops : List Arg) : Except PyErr Size :=
  let widths := widthsOf ops
  match explicit with
  | some e =>
    if widths ≠ [] ∧ widths ≠ [e] then
      refuse (c.what ++ ": suffix ".toList ++ e.name ++ " disagrees with registers ".toList ++
        widthsText widths)
    else return e
  | none =>
    match widths with
    | [sz] => return sz
    | _ => c.refuse "operand size is not determined by the text"

/-- Source: `scripts/asm_front.py`, `_no_imm_dst` -/
def noImmDst (c : Ctx) (o : Arg) : Except PyErr Unit :=
  if o.isImm then c.refuse "an immediate destination" else return ()

/-- `SUFFIX[g]`, for the text of a one-character group. -/
def suffixOf (g : Option Str) : Except PyErr Size :=
  match g with
  | some [ch] =>
    match SUFFIX.lookup ch with
    | some sz => .ok sz
    | none => .error .keyError
  | _ => .error .keyError

/-- The count of a shift or of `shld`: an immediate or `%cl`. -/
def shiftCount (c : Ctx) : Arg → Except PyErr ShiftAmt
  | .imm v => .ok (.imm8 (BitVec.ofInt 8 v))
  | .reg r sz high8 =>
    if r = .rcx ∧ sz = .b ∧ high8 = false then .ok .cl
    else c.refuse "a shift count that is neither an immediate nor %cl"
  | .mem _ => c.refuse "a shift count that is neither an immediate nor %cl"

/-! ## The branches in front of the operand reader -/

/-- `^(?:0x)?([0-9a-f]+)(?:\s+<[^>]*>)?$` -/
def TARGET : Re :=
  .seq (.seq (.opt (.lit "0x".toList)) (.seq (.grp 1 (.plus true (.cls isHex)))
    (.opt (.seq (.plus true (.cls isSpace)) (.seq (.lit "<".toList)
      (.seq (.star true (.cls (· != '>'))) (.lit ">".toList))))))) .eol

/-- An operand an indirect branch does not take. -/
def Arg.badTarget : Arg → Bool
  | .imm _ => true
  | .reg _ sz high8 => sz != .q || high8
  | .mem _ => false

section branches

variable [UnicodeDB]

/-- A jump or call: a bare hex target, or `*operand` for indirect.
Source: `scripts/asm_front.py`, the branches of `translate` -/
def branch (c : Ctx) (addr n : Nat) (mn : Str) (arg : Option Str) : Except PyErr Op :=
  match arg with
  | none => c.refuse "a branch with no target"
  | some arg => do
    let t := strip arg
    let isJmp := "jmp".toList.isPrefixOf mn
    let isCall := "call".toList.isPrefixOf mn
    if t.head? = some '*' then
      let o ← operand (t.drop 1)
      if o.badTarget then c.refuse "an indirect target that is not a 64-bit operand"
      else if !(isJmp || isCall) then c.refuse "an indirect conditional branch"
      else
        let target := JmpTarget.indirect (o.operand c.lock .q)
        done c [o] (.ok (if isJmp then .jmp target else .call target))
    else
      match TARGET.exec t with
      | none => c.refuse "an unreadable branch target"
      | some m =>
        let ta ← pyInt 16 ((m.caps 1).getD [])
        let d : Val := BitVec.ofInt 64 (ta - (addr + n))
        if isJmp then done c [] (.ok (.jmp (.rel d)))
        else if isCall then done c [] (.ok (.call (.rel d)))
        else done c [] (match CC.lookup (mn.drop 1) with
          | some cc => return .jcc cc d
          | none => .error .keyError)

/-- `^(movs|stos|lods)([bwlq])\b` -/
def STRINGOP : Re :=
  .seq (.seq (.grp 1 (.anyOf ["movs".toList, "stos".toList, "lods".toList]))
    (.grp 2 (.cls fun c => "bwlq".toList.contains c))) (.wordB isWord)

/-- `^(stos|lods)\s+(.*)$` -/
def STRINGACC : Re :=
  .seq (.seq (.grp 1 (.anyOf ["stos".toList, "lods".toList]))
    (.seq (.plus true (.cls isSpace)) (.grp 2 (.star true (.cls isDot))))) .eol

/-- The constructor a string group names. -/
def stringOp (g : Option Str) : Except PyErr StringOp :=
  match g.bind fun t => (named StringOp.name [.movs, .stos, .lods]).lookup t with
  | some k => .ok k
  | none => .error .keyError

/-- `rep` and a string operation, whose operands are implicit.
Source: `scripts/asm_front.py`, the `rep` branch of `translate` -/
def repString (c : Ctx) (arg : Str) : Except PyErr Op :=
  let refused := c.refuse "`rep` is translated for movs/stos/lods only"
  let rest := strip arg
  match STRINGOP.exec rest with
  | some sm => done c [] (do return .repstrop .rep (← stringOp (sm.caps 1)) (← suffixOf (sm.caps 2)))
  | none =>
    match STRINGACC.exec rest with
    | none => refused
    | some gm =>
      let acc := (splitOperands ((gm.caps 2).getD [])).filter fun o =>
        (strip o).head? = some '%' ∧ '(' ∉ o
      match acc with
      | [a] => do
        let (r, sz, high8) ← reg (strip a)
        if r = .rax ∧ high8 = false then
          done c [] (do return .repstrop .rep (← stringOp (gm.caps 1)) sz)
        else refused
      | _ => refused

end branches

/-! ## The branches behind the operand reader -/

/-- `mov` and `movabs`. -/
def movOp (c : Ctx) (sz : Option Size) (ops : List Arg) : Except PyErr Op :=
  match ops with
  | [src, dst] => do
    noImmDst c dst
    let s ← size c sz ops
    done c ops (.ok (.mov s (dst.operand c.lock s) (src.operand c.lock s)))
  | _ => c.refuse "mov takes two operands"

/-- `movzx` and `movsx`, once the two widths are known. -/
def movxDone (c : Ctx) (kind : MovxKind) (ssz dsz : Size) (src : Arg) (r : GPR) (rsz : Size) :
    Except PyErr Op :=
  if rsz ≠ dsz ∨ src.width.any (· != ssz) then
    c.refuse "operand widths disagree with the mnemonic"
  else if kind = .zero ∧ ssz = .d then c.refuse "movzlq is not an instruction"
  else done c [src, .reg r rsz false] (.ok (.movx kind dsz ssz r (src.operand c.lock ssz)))

/-- `movzx` and `movsx` with both widths in the mnemonic. -/
def movxOp (c : Ctx) (kind ssz dsz : Option Str) (ops : List Arg) : Except PyErr Op :=
  match ops with
  | [src, .reg r rsz false] => do
    let kind := if kind = some "z".toList then .zero else .sign
    let ssz ← suffixOf ssz
    let dsz ← suffixOf dsz
    movxDone c kind ssz dsz src r rsz
  | _ => c.refuse "movzx/movsx needs a register destination"

/-- A bare `movzx` or `movsx`, whose widths are those of its registers. -/
def movxBareOp (c : Ctx) (kind : MovxKind) (ops : List Arg) : Except PyErr Op :=
  match ops with
  | [src, .reg r rsz false] =>
    match src with
    | .reg _ ssz _ => movxDone c kind ssz rsz src r rsz
    | _ => c.refuse "an unsuffixed movzx/movsx from memory"
  | _ => c.refuse "movzx/movsx needs a register destination"

def binOp (c : Ctx) (k : BinKind) (sz : Option Size) (ops : List Arg) : Except PyErr Op :=
  match ops with
  | [src, dst] => do
    noImmDst c dst
    let s ← size c sz ops
    done c ops (.ok (.bin k s (dst.operand c.lock s) (src.operand c.lock s)))
  | _ => c.refuseBase k.name " takes two operands"

def unOp (c : Ctx) (k : UnKind) (sz : Option Size) (ops : List Arg) : Except PyErr Op :=
  match ops with
  | [dst] => do
    noImmDst c dst
    let s ← size c sz ops
    done c ops (.ok (.un k s (dst.operand c.lock s)))
  | _ => c.refuseBase k.name " takes one operand"

def ShiftRot.name : ShiftRot → Str
  | .shift k => k.name
  | .rot k => k.name

/-- The constructor of a shift or rotate. -/
def ShiftRot.op (k : ShiftRot) (sz : Size) (dst : Operand) (amt : ShiftAmt) : Op :=
  match k with
  | .shift k => .shift k sz dst amt
  | .rot k => .rot k sz dst amt

/-- A shift or rotate with its count read. -/
def shiftDone (c : Ctx) (k : ShiftRot) (sz : Option Size) (ops : List Arg) (amt : ShiftAmt)
    (dst : Arg) : Except PyErr Op := do
  noImmDst c dst
  let s ← size c sz [dst]
  done c ops (.ok (k.op s (dst.operand c.lock s) amt))

def shiftRotOp (c : Ctx) (k : ShiftRot) (sz : Option Size) (ops : List Arg) : Except PyErr Op :=
  match ops with
  | [dst] => shiftDone c k sz ops (.imm8 1) dst
  | [a, dst] => do shiftDone c k sz ops (← shiftCount c a) dst
  | _ => c.refuseBase k.name " takes one or two operands"

def leaOp (c : Ctx) (sz : Option Size) (ops : List Arg) : Except PyErr Op :=
  match ops with
  | [.mem ea, .reg r rsz false] => do
    let s ← size c sz [.reg r rsz false]
    done c ops (.ok (.lea s r { ea with lock := ea.lock || c.lock }))
  | _ => c.refuse "lea needs a memory source and a register destination"

/-- `push` and `pop`, whose default width is 64 bits. -/
def stackDone (c : Ctx) (op : Size → Operand → Op) (sz : Option Size) (o : Arg) : Except PyErr Op :=
  let s := sz.getD (o.width.getD .q)
  if o.width.any (· != s) then c.refuse "suffix disagrees with the register"
  else if s ∉ [Size.q, .w] then c.refuse "push/pop at a width 64-bit mode cannot encode"
  else done c [o] (.ok (op s (o.operand c.lock s)))

def pushOp (c : Ctx) (sz : Option Size) (ops : List Arg) : Except PyErr Op :=
  match ops with
  | [o] => stackDone c .push sz o
  | _ => c.refuse "push takes one operand"

def popOp (c : Ctx) (sz : Option Size) (ops : List Arg) : Except PyErr Op :=
  match ops with
  | [o] => do
    noImmDst c o
    stackDone c .pop sz o
  | _ => c.refuse "pop takes one operand"

def cmovOp (c : Ctx) (cc : Cc) (sz : Option Size) (ops : List Arg) : Except PyErr Op :=
  match ops with
  | [src, .reg r _ false] => do
    let s ← size c sz ops
    done c ops (.ok (.cmov cc s r (src.operand c.lock s)))
  | _ => c.refuse "cmov needs a register destination"

def setccOp (c : Ctx) (cc : Cc) (ops : List Arg) : Except PyErr Op :=
  match ops with
  | [o] => do
    noImmDst c o
    if o.width.any (· != .b) then c.refuse "setcc writes a byte"
    else done c ops (.ok (.setcc cc (o.operand c.lock .b)))
  | _ => c.refuse "setcc takes one operand"

/-- `mul` and one-operand `imul`. -/
def muldivDone (c : Ctx) (k : MulDivKind) (sz : Option Size) (o : Arg) : Except PyErr Op := do
  noImmDst c o
  let s ← size c sz [o]
  done c [o] (.ok (.muldiv k s (o.operand c.lock s)))

/-- Two- and three-operand `imul`, once the destination is known to be a register. -/
def imulrDone (c : Ctx) (sz : Option Size) (ops : List Arg) (imm : Option Int) (src : Arg)
    (r : GPR) (rsz : Size) : Except PyErr Op := do
  let s ← size c sz [src, .reg r rsz false]
  if s = .b then c.refuse "there is no byte-width two-operand imul"
  else done c ops (.ok (.imulr s r (src.operand c.lock s)
    (imm.map fun v => BitVec.ofInt 64 (v % 2 ^ s.bits))))

def imulOp (c : Ctx) (sz : Option Size) (ops : List Arg) : Except PyErr Op :=
  match ops with
  | [o] => muldivDone c .imul sz o
  | [src, dst] =>
    match dst with
    | .reg r rsz false => imulrDone c sz ops none src r rsz
    | _ => c.refuse "imul needs a register destination"
  | [imm, src, dst] =>
    match dst with
    | .reg r rsz false =>
      match imm with
      | .imm v => imulrDone c sz ops (some v) src r rsz
      | _ => c.refuse "three-operand imul needs an immediate"
    | _ => c.refuse "imul needs a register destination"
  | _ => c.refuse "imul takes one, two or three operands"

def mulOp (c : Ctx) (sz : Option Size) (ops : List Arg) : Except PyErr Op :=
  match ops with
  | [o] => muldivDone c .mul sz o
  | _ => c.refuse "mul takes one operand"

def bsrOp (c : Ctx) (sz : Option Size) (ops : List Arg) : Except PyErr Op :=
  match ops with
  | [src, .reg r _ false] =>
    if src.isImm then
      c.refuse "bsr needs a register or memory source and a register destination"
    else do
      let s ← size c sz ops
      if s = .b then c.refuse "there is no byte-width bsr"
      else done c ops (.ok (.bitcnt .bsr s r (src.operand c.lock s)))
  | _ => c.refuse "bsr needs a register or memory source and a register destination"

def bswapOp (c : Ctx) (sz : Option Size) (ops : List Arg) : Except PyErr Op :=
  match ops with
  | [.reg r _ false] => do
    let s ← size c sz ops
    if s ∉ [Size.d, .q] then c.refuse "bswap is defined at 32 and 64 bits only"
    else done c ops (.ok (.bswap s r))
  | _ => c.refuse "bswap takes one register"

def shldOp (c : Ctx) (sz : Option Size) (ops : List Arg) : Except PyErr Op :=
  match ops with
  | [a, .reg r rsz false, dst] => do
    let amt ← shiftCount c a
    noImmDst c dst
    let s ← size c sz [.reg r rsz false, dst]
    if s = .b then c.refuse "there is no byte-width shld"
    else done c ops (.ok (.dshift .shld s (dst.operand c.lock s) r amt))
  | [_, _, _] => c.refuse "shld's source is a register"
  | _ => c.refuse "shld takes a count, a source register and a destination"

def bitOp (c : Ctx) (k : BitKind) (sz : Option Size) (ops : List Arg) : Except PyErr Op :=
  match ops with
  | [off, dst] =>
    if off.isMem then c.refuseBase k.name "'s bit offset is a register or an immediate"
    else do
      noImmDst c dst
      let s ← size c sz (ops.filter fun o => !o.isImm)
      if s = .b then
        refuse (c.what ++ ": there is no byte-width ".toList ++ k.name)
      else done c ops (.ok (.bit k s (dst.operand c.lock s) (off.operand c.lock s)))
  | _ => c.refuseBase k.name " takes a bit offset and a destination"

/-- The refusal of a mnemonic no branch takes. -/
def outsideCore {α : Type} (c : Ctx) (mn : Str) : Except PyErr α :=
  refuse (c.what ++ ": `".toList ++ mn ++ "` is outside the declared ".toList ++ dec CORE.length ++
    "-mnemonic core".toList)

def nopOp (c : Ctx) (sz : Size) (ops : List Arg) : Except PyErr Op :=
  match ops with
  | [] => done c ops (.ok (.nop none))
  | [o] => done c ops (.ok (.nop (some (o.operand c.lock sz))))
  | _ => c.refuse "nop takes at most one operand"

/-- The body of a branch behind the operand reader. Source: `scripts/asm_front.py`, `translate` -/
def Form.op (c : Ctx) (mn : Str) (ops : List Arg) : Form → Except PyErr Op
  | .mov sz => movOp c sz ops
  | .movx kind ssz dsz => movxOp c kind ssz dsz ops
  | .movxBare kind => movxBareOp c kind ops
  | .bin k sz => binOp c k sz ops
  | .un k sz => unOp c k sz ops
  | .shiftRot k sz => shiftRotOp c k sz ops
  | .lea sz => leaOp c sz ops
  | .push sz => pushOp c sz ops
  | .pop sz => popOp c sz ops
  | .cmov cc sz => cmovOp c cc sz ops
  | .setcc cc => setccOp c cc ops
  | .imul sz => imulOp c sz ops
  | .mul sz => mulOp c sz ops
  | .bsr sz => bsrOp c sz ops
  | .bswap sz => bswapOp c sz ops
  | .shld sz => shldOp c sz ops
  | .bit k sz => bitOp c k sz ops
  | .cltq => if ops = [] then done c ops (.ok (.cext .cdqe)) else outsideCore c mn
  | .nop sz => nopOp c sz ops

/-- The branch that a mnemonic takes. -/
def mnemonicOp (c : Ctx) (mn : Str) (ops : List Arg) : Except PyErr Op :=
  match branchOf mn with
  | some form => form.op c mn ops
  | none => outsideCore c mn

/-! ## One line -/

/-- The mnemonics of jumps and calls. -/
def isBranchMnemonic (mn : Str) : Bool :=
  mn ∈ ["jmp".toList, "jmpq".toList, "call".toList, "callq".toList] ||
    (mn.head? == some 'j' && (CC.lookup (mn.drop 1)).isSome)

/-- Whether a line starts with a `lock` prefix, and the mnemonic and operand text behind it.
Source: `scripts/asm_front.py`, `translate` -/
def lineWords (text : Str) : Bool × List Str :=
  let words := split1 text
  if words.head? = some "lock".toList then
    (true, match words with | _ :: rest :: _ => split1 rest | _ => [])
  else (false, words)

section translate

variable [UnicodeDB]

/-- The branches behind the operand reader. -/
def otherForm (c : Ctx) (mn : Str) (arg : Option Str) : Except PyErr Op := do
  let ops ← match arg with
    | some arg => (splitOperands arg).mapM operand
    | none => pure []
  mnemonicOp c mn ops

/-- `translate` behind the prefix: a mnemonic and the text of its operands. -/
def translateWords (c : Ctx) (addr n : Nat) (mn : Str) (arg : Option Str) : Except PyErr Op :=
  if mn ∈ ["ret".toList, "retq".toList] ∧ arg = none then done c [] (.ok .ret)
  else if isBranchMnemonic mn then branch c addr n mn arg
  else if mn = "rep".toList ∧ arg ≠ none then repString c (arg.getD [])
  else otherForm c mn arg

/-- One listing line to an instruction. Source: `scripts/asm_front.py`, `translate` -/
def translateOp (addr n : Nat) (text : Str) : Except PyErr Op :=
  let (lock, words) := lineWords text
  match words with
  | [] => refuse "an empty instruction".toList
  | mn :: rest => translateWords ⟨whatText addr text, lock⟩ addr n mn rest.head?

/-- **One listing line to Lean text**, or `Refused` naming the form.
Source: `scripts/asm_front.py`, `translate` -/
def translate (addr n : Nat) (text : Str) : Except PyErr Str :=
  (fun op => (Instr.mk op n).term) <$> translateOp addr n text

end translate

end X86Scripts
