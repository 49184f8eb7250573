import X86Scripts.Lib.PyStr

/-!
# Git trees and their listing

What `git ls-tree -r` prints for a tree, which is what `scripts/selftest_skip.py` reads.

* `Path`, `GitTree`: paths of any bytes but NUL, and trees with one file at a path.
* `CQuote`: the quoting of paths outside printable ASCII, quotes and backslashes. Nothing here
  depends on the escapes it writes. `gitQuote`: git's own.
* **`lsTree`**: the listing.
-/

namespace X86Scripts.Skip

open X86Scripts.Digits

/-- A path in a tree. -/
structure Path where
  bytes : List UInt8
  ne : bytes ≠ []
  noNul : 0 ∉ bytes
  deriving DecidableEq

/-- The name of an object, in hexadecimal digits. -/
structure Oid where
  hex : Str
  ne : hex ≠ []
  digits : ∀ c ∈ hex, isHex c = true
  deriving DecidableEq

/-- What stands at a path. -/
inductive Kind where
  | file | executable | symlink | submodule
  deriving DecidableEq, Repr

/-- The mode and type columns. -/
def Kind.columns : Kind → Str × Str
  | .file => ("100644".toList, "blob".toList)
  | .executable => ("100755".toList, "blob".toList)
  | .symlink => ("120000".toList, "blob".toList)
  | .submodule => ("160000".toList, "commit".toList)

structure TreeEntry where
  kind : Kind
  path : Path
  oid : Oid

/-- A tree, as the files below it: at most one at a path. -/
structure GitTree where
  entries : List TreeEntry
  nodup : (entries.map TreeEntry.path).Nodup

/-- **The map from path to blob.** -/
def GitTree.blob? (t : GitTree) (p : Path) : Option Oid :=
  (t.entries.find? (·.path = p)).map TreeEntry.oid

/-! ## Quoting -/

/-- Printable ASCII but quotes and backslashes. -/
def isPlainByte (b : UInt8) : Bool := 0x20 ≤ b && b ≤ 0x7e && b != 0x22 && b != 0x5c

/-- The path is printed as it is. -/
def Path.plain (p : Path) : Bool := p.bytes.all isPlainByte

/-- The character of an ASCII byte. -/
def byteChar (b : UInt8) : Char := Char.ofNat b.toNat

/-- C-style quoting: what is printed between the double quotes, in printable ASCII. -/
class CQuote where
  body : List UInt8 → Str
  printable : ∀ bs, ∀ c ∈ body bs, 0x20 ≤ c.toNat ∧ c.toNat ≤ 0x7e

/-- The name of a path in a listing. -/
def Path.shown [CQuote] (p : Path) : Str :=
  if p.plain then p.bytes.map byteChar else '"' :: CQuote.body p.bytes ++ ['"']

/-- One byte of git's quoting: the escapes of C, octal for the rest. -/
def escapeByte (b : UInt8) : Str :=
  match b.toNat with
  | 7 => "\\a".toList
  | 8 => "\\b".toList
  | 9 => "\\t".toList
  | 10 => "\\n".toList
  | 11 => "\\v".toList
  | 12 => "\\f".toList
  | 13 => "\\r".toList
  | 0x22 => "\\\"".toList
  | 0x5c => "\\\\".toList
  | n => if isPlainByte b then [byteChar b]
    else ['\\', Nat.digitChar (n / 64), Nat.digitChar (n / 8 % 8), Nat.digitChar (n % 8)]

theorem escapeByte_printable (b : UInt8) :
    ((escapeByte b).all fun c => decide (0x20 ≤ c.toNat ∧ c.toNat ≤ 0x7e)) = true := by
  have hall : ∀ n : Fin 256, ((escapeByte (UInt8.ofFin n)).all fun c =>
      decide (0x20 ≤ c.toNat ∧ c.toNat ≤ 0x7e)) = true := by
    decide +kernel
  exact hall b.toFin

/-- Git's quoting. -/
@[reducible] def gitQuote : CQuote where
  body bs := bs.flatMap escapeByte
  printable bs c hc := by
    obtain ⟨b, -, hc⟩ := List.mem_flatMap.mp hc
    exact forall_chars (escapeByte_printable b) c hc

/-! ## The listing -/

section

variable [CQuote]

/-- One line of `git ls-tree -r`, without its end. -/
def TreeEntry.line (e : TreeEntry) : Str :=
  e.kind.columns.1 ++ ' ' :: (e.kind.columns.2 ++ ' ' :: (e.oid.hex ++ '\t' :: e.path.shown))

/-- `git ls-tree -r`. -/
def lsTree (t : GitTree) : Str := t.entries.flatMap fun e => e.line ++ ['\n']

end

end X86Scripts.Skip
