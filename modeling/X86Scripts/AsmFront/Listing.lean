import X86Scripts.AsmFront.Operand

/-!
# The listing parser

`parse_listing` of `scripts/asm_front.py`: from the text of `objdump -d` to labelled blocks of
instructions. Each line is a label, a line of bytes, or something to skip.

* `LABEL`, `LINE`: the two patterns; `classify` says what a line is.
* `pushIns`: what a line of bytes does to the instructions read so far: a continuation or an
  own-line `lock` is joined with its neighbour.
* **`parseListing`**: the whole text.
-/

namespace X86Scripts

open X86Scripts.Regex
open X86Scripts.Py
open X86Scripts.Digits

/-- One entry of a block: address, length in bytes, assembly text. -/
structure Ins where
  addr : Nat
  len : Nat
  text : Str
  deriving DecidableEq, Repr

/-- A label with its instructions. -/
abbrev Block := Str × List Ins

/-- `^([0-9a-f]+) <([^>]+)>:\s*$`. Source: `scripts/asm_front.py`, `_LABEL` -/
def LABEL : Re :=
  .seq (.seq (.grp 1 (.plus true (.cls isHex))) (.seq (.lit " <".toList)
    (.seq (.grp 2 (.plus true (.cls (· != '>')))) (.seq (.lit ">:".toList)
      (.star true (.cls isSpace)))))) .eol

/-- `[0-9a-f]{2} ?` -/
def byteRe : Re := .seq (.cls isHex) (.seq (.cls isHex) (.opt (.lit " ".toList)))

/-- `^\s*([0-9a-f]+):\s+((?:[0-9a-f]{2} ?)+?)\s*(?:\t\s*(.*))?$`.
Source: `scripts/asm_front.py`, `_LINE` -/
def LINE : Re :=
  .seq (.seq (.star true (.cls isSpace)) (.seq (.grp 1 (.plus true (.cls isHex)))
    (.seq (.lit ":".toList) (.seq (.plus true (.cls isSpace)) (.seq (.grp 2 (.plus false byteRe))
      (.seq (.star true (.cls isSpace)) (.opt (.seq (.lit "\t".toList)
        (.seq (.star true (.cls isSpace)) (.grp 3 (.star true (.cls isDot))))))))))))
    .eol

/-- What a line of a listing is. -/
inductive LineKind where
  | label (name : Str)
  /-- Bytes at an address, with an assembly text unless it is empty. -/
  | bytes (addr n : Nat) (asm : Str)
  | other
  deriving DecidableEq, Repr

section

variable [UnicodeDB]

/-- The two matches `parse_listing` tries on a line, and what it reads from them.
Source: `scripts/asm_front.py`, `parse_listing` -/
def classify (raw : Str) : Except PyErr LineKind :=
  match LABEL.exec raw with
  | some m => return .label ((m.caps 2).getD [])
  | none =>
    match LINE.exec raw with
    | none => return .other
    | some m => do
      let addr ← pyInt 16 ((m.caps 1).getD [])
      let nb := (splitWs ((m.caps 2).getD [])).length
      return .bytes addr.toNat nb (strip (((m.caps 3).getD []).takeWhile (· ≠ '#')))

end

/-- A line of bytes joins the instructions of its block. Source: `scripts/asm_front.py`,
`parse_listing` -/
def pushIns (ins : List Ins) (addr nb : Nat) (asm : Str) : Except PyErr (List Ins) :=
  match ins.getLast? with
  | none =>
    if asm = [] then
      refuse ("a byte continuation with no instruction at 0x".toList ++ hex addr)
    else return ins ++ [⟨addr, nb, asm⟩]
  | some i =>
    -- GNU byte-column continuation
    if asm = [] then return ins.dropLast ++ [{ i with len := i.len + nb }]
    -- LLVM's own-line prefix
    else if i.text = "lock".toList ∧ i.addr + i.len = addr then
      return ins.dropLast ++ [⟨i.addr, i.len + nb, "lock ".toList ++ asm⟩]
    else return ins ++ [⟨addr, nb, asm⟩]

/-- The blocks in front of the current one, and the current one. -/
structure Listed where
  closed : List Block
  cur : Option Block

/-- The blocks of a listing. -/
def Listed.blocks (st : Listed) : List Block := st.closed ++ st.cur.toList

/-- The loop body of `parse_listing`, on a classified line. -/
def listStep (st : Listed) : LineKind → Except PyErr Listed
  | .label name => return ⟨st.blocks, some (name, [])⟩
  | .other => return st
  | .bytes addr nb asm =>
    match st.cur with
    | none => return st
    | some (name, ins) => do
      let ins ← pushIns ins addr nb asm
      return ⟨st.closed, some (name, ins)⟩

section

variable [UnicodeDB]

/-- The loop body of `parse_listing`. -/
def listLine (st : Listed) (raw : Str) : Except PyErr Listed := do
  listStep st (← classify raw)

/-- `objdump -d` text to labelled blocks. Source: `scripts/asm_front.py`, `parse_listing` -/
def parseListing (text : Str) : Except PyErr (List Block) := do
  let st ← (splitlines text).foldlM listLine ⟨[], none⟩
  return st.blocks

end

end X86Scripts
