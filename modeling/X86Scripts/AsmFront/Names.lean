import X86Scripts.Lib.PyStr
import X86Scripts.AsmFront.Syntax

/-!
# The names of the front end

The tables of `scripts/asm_front.py` and the names both sides of it use: the constructor names of
the AST, which the returned terms are written with, and the register names a disassembler prints.

* `REGS`, `CC`, `SUFFIX` and the mnemonic sets, each a table from a text to what it stands for.
* `Named`: a kind whose members have distinct names made of letters and digits.
* **`REGS_name`**: every register name a disassembler prints is read back as the view it names.
-/

namespace X86Scripts

/-- A letter or a digit. -/
def isNameChar (c : Char) : Bool := c.isAlphanum

/-- A kind whose members have distinct names of letters and digits. -/
class Named (α : Type) where
  name : α → Str
  inj : Function.Injective name
  chars : ∀ a, ∀ c ∈ name a, isNameChar c = true

/-- Building `Named` from the list of the members. -/
@[reducible] def Named.ofList {α : Type} (name : α → Str) (all : List α)
    (hall : ∀ x, x ∈ all := by intro x; cases x <;> decide)
    (hnodup : (all.map name).Nodup := by decide)
    (hchars : (all.all fun x => (name x).all isNameChar) = true := by decide) : Named α where
  name := name
  inj a b h := List.inj_on_of_nodup_map hnodup (hall a) (hall b) h
  chars a c hc := List.all_eq_true.mp (List.all_eq_true.mp hchars a (hall a)) c hc

/-! ## Constructor names -/

/-- The name of a width, in Lean and in the script's tables. -/
def Size.name : Size → Str
  | .b => "b".toList | .w => "w".toList | .d => "d".toList | .q => "q".toList

instance : Named Size :=
  .ofList Size.name [.b, .w, .d, .q]

/-- The name a disassembler prints for the `sz`-wide view of a register.
Source: `X86/Basic.lean`, `GPR.name` -/
def GPR.name (r : GPR) (sz : Size) (high8 : Bool := false) : Str :=
  if high8 then
    match r with
    | .rax => "ah".toList | .rcx => "ch".toList | .rdx => "dh".toList | .rbx => "bh".toList
    | _ => "<illegal-high8>".toList
  else
    match r with
    | .rax => view "rax" "eax" "ax" "al" | .rcx => view "rcx" "ecx" "cx" "cl"
    | .rdx => view "rdx" "edx" "dx" "dl" | .rbx => view "rbx" "ebx" "bx" "bl"
    | .rsp => view "rsp" "esp" "sp" "spl" | .rbp => view "rbp" "ebp" "bp" "bpl"
    | .rsi => view "rsi" "esi" "si" "sil" | .rdi => view "rdi" "edi" "di" "dil"
    | .r8 => view "r8" "r8d" "r8w" "r8b" | .r9 => view "r9" "r9d" "r9w" "r9b"
    | .r10 => view "r10" "r10d" "r10w" "r10b" | .r11 => view "r11" "r11d" "r11w" "r11b"
    | .r12 => view "r12" "r12d" "r12w" "r12b" | .r13 => view "r13" "r13d" "r13w" "r13b"
    | .r14 => view "r14" "r14d" "r14w" "r14b" | .r15 => view "r15" "r15d" "r15w" "r15b"
where
  view (q d w b : String) : Str :=
    match sz with
    | .q => q.toList | .d => d.toList | .w => w.toList | .b => b.toList

instance : Named GPR :=
  .ofList (·.name .q) GPR.all GPR.mem_all

/-- `str(b).lower()`. -/
def boolName (b : Bool) : Str := if b then "true".toList else "false".toList

instance : Named Bool :=
  .ofList boolName [true, false]

/-- Source: `X86/Basic.lean`, `Seg.name` -/
def Seg.name : Seg → Str
  | .fs => "fs".toList | .gs => "gs".toList

instance : Named Seg :=
  .ofList Seg.name [.fs, .gs]

def Scale.factor : Scale → Nat
  | .s1 => 1 | .s2 => 2 | .s4 => 4 | .s8 => 8

def BinKind.name : BinKind → Str
  | .add => "add".toList | .sub => "sub".toList | .and => "and".toList | .or => "or".toList
  | .xor => "xor".toList | .cmp => "cmp".toList | .test => "test".toList
  | .adc => "adc".toList | .sbb => "sbb".toList

instance : Named BinKind :=
  .ofList BinKind.name [.add, .sub, .and, .or, .xor, .cmp, .test, .adc, .sbb]

def UnKind.name : UnKind → Str
  | .inc => "inc".toList | .dec => "dec".toList | .neg => "neg".toList | .not => "not".toList

instance : Named UnKind :=
  .ofList UnKind.name [.inc, .dec, .neg, .not]

def ShiftKind.name : ShiftKind → Str
  | .shl => "shl".toList | .shr => "shr".toList | .sar => "sar".toList

instance : Named ShiftKind :=
  .ofList ShiftKind.name [.shl, .shr, .sar]

def RotKind.name : RotKind → Str
  | .rol => "rol".toList | .ror => "ror".toList | .rcl => "rcl".toList | .rcr => "rcr".toList

instance : Named RotKind :=
  .ofList RotKind.name [.rol, .ror, .rcl, .rcr]

def Cc.name : Cc → Str
  | .o => "o".toList | .no => "no".toList | .b => "b".toList | .ae => "ae".toList
  | .e => "e".toList | .ne => "ne".toList | .be => "be".toList | .a => "a".toList
  | .s => "s".toList | .ns => "ns".toList | .p => "p".toList | .np => "np".toList
  | .l => "l".toList | .ge => "ge".toList | .le => "le".toList | .g => "g".toList

instance : Named Cc :=
  .ofList Cc.name [.o, .no, .b, .ae, .e, .ne, .be, .a, .s, .ns, .p, .np, .l, .ge, .le, .g]

def BitKind.name : BitKind → Str
  | .bt => "bt".toList | .bts => "bts".toList | .btr => "btr".toList | .btc => "btc".toList

instance : Named BitKind :=
  .ofList BitKind.name [.bt, .bts, .btr, .btc]

def BitCntKind.name : BitCntKind → Str
  | .popcnt => "popcnt".toList | .lzcnt => "lzcnt".toList | .tzcnt => "tzcnt".toList
  | .bsf => "bsf".toList | .bsr => "bsr".toList | .blsi => "blsi".toList

instance : Named BitCntKind :=
  .ofList BitCntKind.name [.popcnt, .lzcnt, .tzcnt, .bsf, .bsr, .blsi]

def StringOp.name : StringOp → Str
  | .movs => "movs".toList | .stos => "stos".toList | .lods => "lods".toList
  | .cmps => "cmps".toList | .scas => "scas".toList

instance : Named StringOp :=
  .ofList StringOp.name [.movs, .stos, .lods, .cmps, .scas]

def RepPrefix.name : RepPrefix → Str
  | .rep => "rep".toList | .repe => "repe".toList | .repn => "repn".toList

instance : Named RepPrefix :=
  .ofList RepPrefix.name [.rep, .repe, .repn]

def MovxKind.name : MovxKind → Str
  | .zero => "zero".toList | .sign => "sign".toList

instance : Named MovxKind :=
  .ofList MovxKind.name [.zero, .sign]

def CextKind.name : CextKind → Str
  | .cbw => "cbw".toList | .cwde => "cwde".toList | .cdqe => "cdqe".toList
  | .cwd => "cwd".toList | .cdq => "cdq".toList | .cqo => "cqo".toList

instance : Named CextKind :=
  .ofList CextKind.name [.cbw, .cwde, .cdqe, .cwd, .cdq, .cqo]

def MulDivKind.name : MulDivKind → Str
  | .mul => "mul".toList | .imul => "imul".toList | .div => "div".toList | .idiv => "idiv".toList

instance : Named MulDivKind :=
  .ofList MulDivKind.name [.mul, .imul, .div, .idiv]

def DShiftKind.name : DShiftKind → Str
  | .shld => "shld".toList | .shrd => "shrd".toList

instance : Named DShiftKind :=
  .ofList DShiftKind.name [.shld, .shrd]

/-! ## The tables -/

/-- The names of a kind's members, as a table. -/
def named {α : Type} (name : α → Str) (all : List α) : List (Str × α) :=
  all.map fun a => (name a, a)

/-- Source: `scripts/asm_front.py`, `BIN` -/
def BIN : List (Str × BinKind) :=
  named BinKind.name [.add, .sub, .and, .or, .xor, .cmp, .test, .adc, .sbb]

/-- Source: `scripts/asm_front.py`, `UN` -/
def UN : List (Str × UnKind) := named UnKind.name [.inc, .dec, .neg, .not]

/-- Source: `scripts/asm_front.py`, `SHIFT` -/
def SHIFT : List (Str × ShiftKind) := named ShiftKind.name [.shl, .shr, .sar]

/-- Source: `scripts/asm_front.py`, `ROT` -/
def ROT : List (Str × RotKind) := named RotKind.name [.rol, .ror]

/-- The AT&T size suffixes. Source: `scripts/asm_front.py`, `SUFFIX` -/
def SUFFIX : List (Char × Size) := [('b', .b), ('w', .w), ('l', .d), ('q', .q)]

/-- The condition codes, with their synonyms. Source: `scripts/asm_front.py`, `CC` -/
def CC : List (Str × Cc) :=
  [("o", .o), ("no", .no), ("b", .b), ("c", .b), ("nae", .b),
   ("ae", .ae), ("nb", .ae), ("nc", .ae), ("e", .e), ("z", .e),
   ("ne", .ne), ("nz", .ne), ("be", .be), ("na", .be), ("a", .a), ("nbe", .a),
   ("s", .s), ("ns", .ns), ("p", .p), ("pe", .p), ("np", .np), ("po", .np),
   ("l", .l), ("nge", .l), ("ge", .ge), ("nl", .ge), ("le", .le), ("ng", .le),
   ("g", .g), ("nle", .g)].map fun x : String × Cc => (x.1.toList, x.2)

/-- The rows the loop over `_R64` adds for one register.
Source: `scripts/asm_front.py`, the loop that fills `REGS` -/
def regRows (i : Nat) (r : GPR) : List (Str × GPR × Size × Bool) :=
  let name := r.name .q
  (name, r, .q, false) ::
    if i < 8 then
      let e := name.drop 1
      let low := [("ax".toList, "al".toList), ("cx".toList, "cl".toList),
        ("dx".toList, "dl".toList), ("bx".toList, "bl".toList)].lookup e
      [('e' :: e, r, .d, false), (e, r, .w, false), (low.getD (e ++ ['l']), r, .b, false)]
    else
      [(name ++ ['d'], r, .d, false), (name ++ ['w'], r, .w, false), (name ++ ['b'], r, .b, false)]

/-- Every register name: the register, its width, and whether it is a high byte.
Source: `scripts/asm_front.py`, `REGS` -/
def REGS : List (Str × GPR × Size × Bool) :=
  GPR.all.zipIdx.flatMap (fun x => regRows x.2 x.1) ++
    [("ah".toList, .rax, .b, true), ("ch".toList, .rcx, .b, true),
     ("dh".toList, .rdx, .b, true), ("bh".toList, .rbx, .b, true)]

/-- A table assigns each name once, so looking a name up does not depend on the order. -/
theorem REGS_nodup : (REGS.map Prod.fst).Nodup := by decide +kernel

theorem CC_nodup : (CC.map Prod.fst).Nodup := by decide +kernel

/-! ## Reading a name back -/

/-- The registers with a high byte. -/
def GPR.hasHigh8 (r : GPR) : Bool := [GPR.rax, .rcx, .rdx, .rbx].contains r

/-- A view of a register that exists: a high byte is eight bits of one of four registers. -/
def RegView (r : GPR) (sz : Size) (high8 : Bool) : Prop :=
  high8 = true → r.hasHigh8 = true ∧ sz = .b

instance (r : GPR) (sz : Size) (high8 : Bool) : Decidable (RegView r sz high8) := by
  unfold RegView; infer_instance

/-- **Every register name is read back as the view it names.** -/
theorem REGS_name {r : GPR} {sz : Size} {high8 : Bool} (h : RegView r sz high8) :
    REGS.lookup (r.name sz high8) = some (r, sz, high8) := by
  have hall : ∀ r ∈ GPR.all, ∀ sz ∈ [Size.b, .w, .d, .q], ∀ high8 ∈ [false, true],
      RegView r sz high8 → REGS.lookup (r.name sz high8) = some (r, sz, high8) := by
    decide +kernel
  exact hall r r.mem_all sz (by cases sz <;> simp) high8 (by cases high8 <;> simp) h

end X86Scripts
