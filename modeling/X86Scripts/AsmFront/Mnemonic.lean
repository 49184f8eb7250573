import X86Scripts.AsmFront.Names

/-!
# Mnemonics

Which branch of `translate` a mnemonic takes. The branches test the mnemonic one after the other;
`branchOf` lists the tests in the order of `scripts/asm_front.py`.

* `splitSuffix`: `_split_suffix`, a base with an optional AT&T size suffix.
* `Form`: the branches behind the operand reader, each with what it takes from the mnemonic.
* `branchOf`: the first branch that takes a mnemonic.
-/

namespace X86Scripts

open X86Scripts.Regex

/-- The declared core. Source: `scripts/asm_front.py`, `CORE` -/
def CORE : List String :=
  ["mov", "movzx", "movsx", "add", "sub", "and", "or", "xor", "cmp", "test", "shl", "shr", "sar",
   "inc", "dec", "neg", "not", "lea", "push", "pop", "jmp", "jcc", "call", "ret", "cmovcc",
   "setcc", "imul", "rol", "ror"] ++
  ["adc", "sbb", "mul", "bsr", "bswap", "shld", "bts", "btr", "cltq", "nop"] ++ ["rep"]

/-- The base of a mnemonic and its size suffix, if it has one.
Source: `scripts/asm_front.py`, `_split_suffix` -/
def splitSuffix {α : Type} (m : Str) (bases : List (Str × α)) : Option (α × Option Size) :=
  match bases.lookup m with
  | some b => some (b, none)
  | none =>
    match bases.lookup m.dropLast, m.getLast?.bind (fun c => SUFFIX.lookup c) with
    | some b, some sz => some (b, some sz)
    | _, _ => none

/-- Source: `scripts/asm_front.py`, `_cc_and_suffix` -/
def ccAndSuffix (rest : Str) : Option (Cc × Option Size) := splitSuffix rest CC

/-- `^mov([zs])([bwl])([wlq])$`. Source: `scripts/asm_front.py`, `mx` in `translate` -/
def MOVX : Re :=
  .seq (.seq (.lit "mov".toList) (.seq (.grp 1 (.cls fun c => "zs".toList.contains c))
    (.seq (.grp 2 (.cls fun c => "bwl".toList.contains c))
      (.grp 3 (.cls fun c => "wlq".toList.contains c))))) .eol

/-- The bases of `SHIFT | ROT`. -/
inductive ShiftRot where
  | shift (k : ShiftKind)
  | rot (k : RotKind)
  deriving DecidableEq, Repr

/-- A branch of `translate` behind the operand reader, with what it takes from the mnemonic. A
size is `none` where the mnemonic has no suffix. -/
inductive Form where
  | mov (sz : Option Size)
  /-- A suffixed `movzx` or `movsx`, with the groups of `MOVX`. -/
  | movx (kind ssz dsz : Option Str)
  /-- A bare `movzx`, `movsx` or `movsxd`. -/
  | movxBare (kind : MovxKind)
  | bin (k : BinKind) (sz : Option Size)
  | un (k : UnKind) (sz : Option Size)
  | shiftRot (k : ShiftRot) (sz : Option Size)
  | lea (sz : Option Size)
  | push (sz : Option Size)
  | pop (sz : Option Size)
  | cmov (c : Cc) (sz : Option Size)
  | setcc (c : Cc)
  | imul (sz : Option Size)
  | mul (sz : Option Size)
  | bsr (sz : Option Size)
  | bswap (sz : Option Size)
  | shld (sz : Option Size)
  | bit (k : BitKind) (sz : Option Size)
  | cltq
  | nop (sz : Size)
  deriving DecidableEq, Repr

/-- A branch that tests the mnemonic with `_split_suffix`. -/
def suffixed {α : Type} (mn : Str) (bases : List (Str × α)) (form : α → Option Size → Form) :
    Option Form :=
  (splitSuffix mn bases).map fun x => form x.1 x.2

/-- The mnemonics of one base. -/
def only (base : String) : List (Str × Unit) := [(base.toList, ())]

/-- The `movzx`/`movsx` branch. -/
def movxForm (mn : Str) : Option Form :=
  match MOVX.exec mn with
  | some m => some (.movx (m.caps 1) (m.caps 2) (m.caps 3))
  | none =>
    if mn ∈ ["movzx".toList, "movsx".toList, "movsxd".toList] then
      some (.movxBare (if mn = "movzx".toList then .zero else .sign))
    else none

/-- The `cmov` branch, which a condition code that is none leaves to the tests after it. -/
def cmovForm (mn : Str) : Option Form :=
  if "cmov".toList.isPrefixOf mn then
    (ccAndSuffix (mn.drop 4)).map fun x => .cmov x.1 x.2
  else none

/-- The `set` branch. -/
def setccForm (mn : Str) : Option Form :=
  if "set".toList.isPrefixOf mn then (CC.lookup (mn.drop 3)).map .setcc else none

/-- The `nop` branch, with the width of its operand. -/
def nopForm (mn : Str) : Option Form :=
  if mn ∈ ["nop".toList, "nopw".toList, "nopl".toList, "nopq".toList] then
    some (.nop (([("nopw".toList, Size.w), ("nopl".toList, .d), ("nopq".toList, .q)].lookup
      mn).getD .d))
  else none

/-- **The branch a mnemonic takes**: the tests of `translate`, in its order.
Source: `scripts/asm_front.py`, `translate` -/
def branchOf (mn : Str) : Option Form :=
  suffixed mn (only "mov" ++ only "movabs") (fun _ => .mov) <|>
  movxForm mn <|>
  suffixed mn BIN .bin <|>
  suffixed mn UN .un <|>
  suffixed mn (SHIFT.map (Prod.map id .shift) ++ ROT.map (Prod.map id .rot)) .shiftRot <|>
  suffixed mn (only "lea") (fun _ => .lea) <|>
  suffixed mn [("push".toList, false), ("pop".toList, true)]
    (fun isPop sz => if isPop then .pop sz else .push sz) <|>
  cmovForm mn <|>
  setccForm mn <|>
  suffixed mn (only "imul") (fun _ => .imul) <|>
  suffixed mn (only "mul") (fun _ => .mul) <|>
  suffixed mn (only "bsr") (fun _ => .bsr) <|>
  suffixed mn (only "bswap") (fun _ => .bswap) <|>
  suffixed mn (only "shld") (fun _ => .shld) <|>
  suffixed mn [("bts".toList, .bts), ("btr".toList, .btr)] .bit <|>
  (if mn = "cltq".toList then some .cltq else none) <|>
  nopForm mn

example : branchOf "shldl".toList = some (.shld (some .d)) := by decide +kernel

example : branchOf "cmovl".toList = some (.cmov .l none) := by decide +kernel

end X86Scripts
