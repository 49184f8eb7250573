import X86Scripts.Lib.PyStr
import X86Scripts.AsmFront.Names

/-!
# Reading operands

The operand reader of `scripts/asm_front.py`: `_num`, `_split_operands`, `_reg`, `_MEM`, `_ea` and
`operand`, with the exceptions each can raise and their messages.

* `PyErr`: what a translation can raise; `refuse` is `raise Refused(...)`.
* `MEM`: the pattern of a memory operand, construct by construct.
* `ea`, `operand`: the readers, which raise in the order in which the script does.
-/

namespace X86Scripts

open X86Scripts.Regex
open X86Scripts.Py

/-- The exceptions a translation can raise. -/
inductive PyErr where
  /-- `Refused(msg)`: a form outside the core, or text the front end cannot read. -/
  | refused (msg : Str)
  /-- `ValueError`, from `int()`. -/
  | valueError
  /-- `KeyError`, from a table. -/
  | keyError
  deriving DecidableEq, Repr

/-- `raise Refused(msg)`. -/
def refuse {α : Type} (msg : Str) : Except PyErr α := .error (.refused msg)

/-- An operand as the reader returns it: a register with its width, an immediate, an address.
Source: `scripts/asm_front.py`, `operand` -/
inductive Arg where
  | reg (r : GPR) (sz : Size) (high8 : Bool)
  | imm (v : Int)
  | mem (ea : Ea)
  deriving DecidableEq, Repr

section reader

variable [UnicodeDB]

/-- `int(s, base)`. -/
def pyInt (base : Nat) (s : Str) : Except PyErr Int :=
  match parseInt base s with
  | none => .error .valueError
  | some v => .ok v

/-- Source: `scripts/asm_front.py`, `_num` -/
def num (s : Str) : Except PyErr Int := do
  let s := strip s
  let neg := s.head? == some '-'
  let v ← pyInt (if hasSub "0x".toList s then 16 else 10) (s.dropWhile (· == '-'))
  return if neg then -v else v

/-- The state of the loop of `_split_operands`. -/
structure Split where
  parts : List Str
  depth : Int
  cur : Str

/-- Source: `scripts/asm_front.py`, the loop body of `_split_operands` -/
def splitStep (st : Split) (ch : Char) : Split :=
  let depth := if ch = '(' then st.depth + 1 else if ch = ')' then st.depth - 1 else st.depth
  if ch = ',' ∧ depth = 0 then ⟨st.parts ++ [strip st.cur], depth, []⟩
  else ⟨st.parts, depth, st.cur ++ [ch]⟩

/-- Split on commas outside parentheses. Source: `scripts/asm_front.py`, `_split_operands` -/
def splitOperands (s : Str) : List Str :=
  let st := s.foldl splitStep ⟨[], 0, []⟩
  if strip st.cur = [] then st.parts else st.parts ++ [strip st.cur]

/-- Source: `scripts/asm_front.py`, `_reg` -/
def reg (tok : Str) : Except PyErr (GPR × Size × Bool) :=
  let notReg := refuse ("not a general-purpose register: ".toList ++ pyRepr tok)
  match tok with
  | '%' :: name =>
    match REGS.lookup name with
    | some x => .ok x
    | none => notReg
  | _ => notReg

/-- The class `[-0-9a-fx]`. -/
def isDispChar (c : Char) : Bool := c == '-' || Digits.isHex c || c == 'x'

/-- The segments `_MEM` knows. -/
def segNames : List Str :=
  ["fs".toList, "gs".toList, "ds".toList, "ss".toList, "es".toList, "cs".toList]

/-- `(?:%(fs|gs|ds|ss|es|cs):)?` -/
def segRe : Re := .opt (.seq (.lit "%".toList) (.seq (.grp 1 (.anyOf segNames)) (.lit ":".toList)))

/-- `%\w+` -/
def nameRe : Re := .seq (.lit "%".toList) (.plus true (.cls isWord))

/-- The class `[1248]`. -/
def isScaleDigit (c : Char) : Bool := "1248".toList.contains c

/-- `(?:,(%\w+)(?:,([1248]))?)?` -/
def indexRe : Re :=
  .opt (.seq (.lit ",".toList) (.seq (.grp 4 nameRe)
    (.opt (.seq (.lit ",".toList) (.grp 5 (.cls isScaleDigit))))))

/-- `(?:\((%\w+)?(?:,(%\w+)(?:,([1248]))?)?\))?` -/
def sibRe : Re :=
  .opt (.seq (.lit "(".toList)
    (.seq (.seq (.opt (.grp 3 nameRe)) indexRe) (.lit ")".toList)))

/-- Source: `scripts/asm_front.py`, `_MEM` -/
def MEM : Re := .seq (.seq segRe (.seq (.grp 2 (.star true (.cls isDispChar))) sibRe)) .eol

/-- A register of an address: 64 bits wide and no high byte, else a refusal with `msg`. -/
def addrReg (msg : Str) (name : Str) : Except PyErr GPR := do
  let (r, sz, high8) ← reg name
  if sz ≠ .q ∨ high8 = true then refuse msg else return r

/-- `int(scale or 1)`, for the texts group 5 can have. -/
def scaleOf : Option Str → Except PyErr Scale
  | none => .ok .s1
  | some t =>
    match t with
    | ['1'] => .ok .s1
    | ['2'] => .ok .s2
    | ['4'] => .ok .s4
    | ['8'] => .ok .s8
    | _ => .error .valueError

/-- `seg if seg in ("fs", "gs") else None` -/
def segOf : Option Str → Option Seg
  | none => none
  | some s => if s = "fs".toList then some .fs else if s = "gs".toList then some .gs else none

/-- The displacement of an address, modulo 2 ^ 64. -/
def eaDisp (disp : Str) : Except PyErr Val :=
  if disp = [] then .ok 0 else BitVec.ofInt 64 <$> num disp

/-- The base register of an address. -/
def eaBase (tok : Str) : Option Str → Except PyErr (Option GPR)
  | none => .ok none
  | some name => some <$> addrReg ("a non-64-bit address register: ".toList ++ pyRepr tok) name

/-- The index register of an address and its scale. -/
def eaIndex (tok : Str) (index scale : Option Str) : Except PyErr (Option GPR × Scale) :=
  match index with
  | none => .ok (none, .s1)
  | some name => do
    let msg := "an index register x86lean does not address with: ".toList ++ pyRepr tok
    let r ← addrReg msg name
    if r = .rsp then refuse msg else return (some r, ← scaleOf scale)

/-- The refusal of `_ea` for a text that is no address. -/
def notMem {α : Type} (tok : Str) : Except PyErr α :=
  refuse ("not a memory operand: ".toList ++ pyRepr tok)

/-- What `_ea` makes of the groups of a match. Source: `scripts/asm_front.py`, `_ea` -/
def eaGroups (tok : Str) (seg : Option Str) (disp : Str) (base index scale : Option Str) :
    Except PyErr Ea :=
  if disp = [] ∧ base = none ∧ index = none then notMem tok
  else if '(' ∉ tok ∧ disp = [] then notMem tok
  else do
    let disp ← eaDisp disp
    if base = some "%rip".toList then
      if index.isSome then refuse ("rip-relative with an index: ".toList ++ pyRepr tok)
      else return { disp, ripRel := true, seg := segOf seg }
    else
      let base ← eaBase tok base
      let (index, scale) ← eaIndex tok index scale
      return { base, index, scale, disp, seg := segOf seg }

/-- An AT&T memory operand. Source: `scripts/asm_front.py`, `_ea` -/
def ea (tok : Str) : Except PyErr Ea :=
  match MEM.exec (tok.filter (· ≠ ' ')) with
  | none => notMem tok
  | some m => eaGroups tok (m.caps 1) ((m.caps 2).getD []) (m.caps 3) (m.caps 4) (m.caps 5)

/-- Source: `scripts/asm_front.py`, `operand` -/
def operand (tok : Str) : Except PyErr Arg :=
  let tok := strip tok
  match tok with
  | '$' :: t => .imm <$> num t
  | _ =>
    if tok.head? = some '%' ∧ ':' ∉ tok ∧ '(' ∉ tok then
      (fun (r, sz, high8) => .reg r sz high8) <$> reg tok
    else .mem <$> ea tok

end reader

end X86Scripts
