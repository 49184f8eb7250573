import X86Scripts.Lib.Outcome
import X86Scripts.AsmFront.Listing

/-!
# Printed listings, line by line

A listing is printed from labelled blocks of instructions, each instruction at the address where
the one before it ends, GNU's way or LLVM's way and in columns of any width.

* `RawInsn`, `RawBlock`, `Tool`, `listingText`: what is printed, and how.
* `Insn`, `CodeBlock`: the instructions and blocks the two line formats can carry.
* **`classify_labelLine`**, **`classify_bytesLine`**: what the parser makes of one printed line.
-/

namespace X86Scripts

open X86Scripts.Regex
open X86Scripts.Py
open X86Scripts.Digits
open X86Scripts.Outcome

/-! ## What is printed -/

/-- An instruction to print: its bytes, whether it has a `lock` prefix, and the text behind it. -/
structure RawInsn where
  bytes : List UInt8
  lock : Bool
  body : Str

/-- The text of an instruction, `lock` in front. -/
def RawInsn.text (i : RawInsn) : Str := if i.lock then "lock ".toList ++ i.body else i.body

/-- A label, the address of its first instruction, and its instructions. -/
structure RawBlock where
  label : Str
  start : Nat
  insns : List RawInsn

/-- The entries of instructions laid out from an address on. -/
def entries (addr : Nat) : List RawInsn → List Ins
  | [] => []
  | i :: is => ⟨addr, i.bytes.length, i.text⟩ :: entries (addr + i.bytes.length) is

/-- What a block should be read back as. -/
def RawBlock.read (b : RawBlock) : Block := (b.label, entries b.start b.insns)

/-! ## How it is printed -/

/-- The two disassemblers. -/
inductive Tool where
  | llvm | gnu
  deriving DecidableEq, Repr

/-- Spaces and tabs. -/
def isBlank (c : Char) : Bool := c == ' ' || c == '\t'

/-- The blank columns of a line: before the address, after its colon (never empty), around the tab
in front of the text. -/
structure Columns where
  lead : Str
  sep : Str
  pad : Str
  gap : Str
  lead_blank : ∀ c ∈ lead, isBlank c = true
  sep_blank : ∀ c ∈ sep, isBlank c = true
  pad_blank : ∀ c ∈ pad, isBlank c = true
  gap_blank : ∀ c ∈ gap, isBlank c = true
  sep_ne : sep ≠ []

/-- The byte column. -/
def byteText (bytes : List UInt8) : Str := " ".toList.intercalate (bytes.map fun b => hexPad 2 b.toNat)

/-- A line of bytes, with the text behind a tab if it has one. -/
def bytesLine (cols : Columns) (addr : Nat) (bytes : List UInt8) (text : Option Str) : Str :=
  cols.lead ++ hex addr ++ ":".toList ++ cols.sep ++ byteText bytes ++ cols.pad ++
    text.elim [] fun t => "\t".toList ++ cols.gap ++ t

/-- The columns of each line, which may depend on its address and its number of bytes. -/
abbrev Layout := Nat → Nat → Columns

/-- GNU's continuation lines: at most seven bytes each, and no text. -/
def contLines (lay : Layout) : Nat → Nat → List UInt8 → List Str
  | 0, _, _ => []
  | fuel + 1, addr, bytes =>
    if bytes = [] then []
    else
      let now := bytes.take 7
      bytesLine (lay addr now.length) addr now none ::
        contLines lay fuel (addr + now.length) (bytes.drop 7)

/-- The lines of one instruction. -/
def insnLines (tool : Tool) (lay : Layout) (addr : Nat) (i : RawInsn) : List Str :=
  match tool with
  | .gnu =>
    let now := i.bytes.take 7
    bytesLine (lay addr now.length) addr now (some i.text) ::
      contLines lay i.bytes.length (addr + now.length) (i.bytes.drop 7)
  | .llvm =>
    if i.lock then
      [bytesLine (lay addr 1) addr (i.bytes.take 1) (some "lock".toList),
       bytesLine (lay (addr + 1) (i.bytes.length - 1)) (addr + 1) (i.bytes.drop 1) (some i.body)]
    else [bytesLine (lay addr i.bytes.length) addr i.bytes (some i.text)]

/-- The lines of instructions laid out from an address on. -/
def insnsLines (tool : Tool) (lay : Layout) (addr : Nat) : List RawInsn → List Str
  | [] => []
  | i :: is => insnLines tool lay addr i ++ insnsLines tool lay (addr + i.bytes.length) is

/-- The line that opens a block. -/
def labelLine (b : RawBlock) : Str :=
  hexPad 16 b.start ++ " <".toList ++ b.label ++ ">:".toList

/-- The lines of a block, behind an empty one. -/
def blockLines (tool : Tool) (lay : Layout) (b : RawBlock) : List Str :=
  [] :: labelLine b :: insnsLines tool lay b.start b.insns

/-- A text that fits on a line. -/
abbrev OneLine := { t : Str // ∀ c ∈ t, isLineBreak c = false }

/-- The lines in front of the first block. -/
def headerLines (tool : Tool) (file : OneLine) : List Str :=
  match tool with
  | .gnu =>
    [[], file.val ++ ":     file format elf64-x86-64".toList, [], [],
     "Disassembly of section .text:".toList]
  | .llvm =>
    [[], file.val ++ ":\tfile format elf64-x86-64".toList, [],
     "Disassembly of section .text:".toList]

/-- **A whole listing.** -/
def listingText (tool : Tool) (lay : Layout) (file : OneLine) (bs : List RawBlock) : Str :=
  (headerLines tool file ++ bs.flatMap (blockLines tool lay)).flatMap (· ++ ['\n'])

/-! ## What the line formats can carry -/

/-- One line, with no whitespace at its ends and no `#`. -/
structure LineText (t : Str) : Prop where
  ne : t ≠ []
  trimmed : Trimmed t
  line : ∀ c ∈ t, isLineBreak c = false
  noHash : '#' ∉ t

/-- An instruction of 1 to 15 bytes; a `lock` prefix is a byte of its own. -/
structure Insn extends RawInsn where
  bytes_pos : 1 ≤ bytes.length
  bytes_le : bytes.length ≤ 15
  lock_bytes : lock = true → 2 ≤ bytes.length
  body_text : LineText body

/-- A block of such instructions. No instruction but the last is a bare `lock`, which the parser
would join with the next one. -/
structure CodeBlock where
  label : Str
  start : Nat
  insns : List Insn
  label_ne : label ≠ []
  label_line : ∀ c ∈ label, isLineBreak c = false ∧ c ≠ '>'
  bare_lock : ∀ i ∈ insns.dropLast, i.text ≠ "lock".toList

def CodeBlock.raw (b : CodeBlock) : RawBlock := ⟨b.label, b.start, b.insns.map Insn.toRawInsn⟩

/-! ## Label lines -/

theorem isSpace_of_isBlank {c : Char} (h : isBlank c = true) : isSpace c = true := by
  simp only [isBlank, Bool.or_eq_true, beq_iff_eq] at h
  rcases h with rfl | rfl <;> decide

/-- The grammar of a label line: the address, the name, and trailing whitespace. -/
def labelGrammar : Grammar (Str × Str × Str) :=
  ((Grammar.run1 isHex).grp 1).seq ((((Grammar.run1 (· != '>')).grp 2).seq
    ((Grammar.run isSpace).after ">:".toList)).after " <".toList)

theorem parses_label : Parses (.seq (.grp 1 (.plus true (.cls isHex))) (.seq (.lit " <".toList)
    (.seq (.grp 2 (.plus true (.cls (· != '>')))) (.seq (.lit ">:".toList)
      (.star true (.cls isSpace)))))) labelGrammar :=
  (parses_run1.grp 1).seq (((parses_run1.grp 2).seq (parses_run.after ">:".toList)).after " <".toList)

/-- Two label lines with one text have one name. -/
theorem labelGrammar_name {x y : Str × Str × Str} {e e' : Str} (hx : labelGrammar.wf x)
    (hy : labelGrammar.wf y) (h : labelGrammar.text x ++ e = labelGrammar.text y ++ e') :
    x.1 = y.1 ∧ x.2.1 = y.2.1 := by
  obtain ⟨a, n, w⟩ := x
  obtain ⟨a', n', w'⟩ := y
  obtain ⟨⟨-, ha⟩, ⟨-, hn⟩, -⟩ := hx
  obtain ⟨⟨-, ha'⟩, ⟨-, hn'⟩, -⟩ := hy
  simp only [labelGrammar, Grammar.seq, Grammar.after, Grammar.grp, Grammar.run1, Grammar.run, id,
    List.append_assoc] at h
  obtain ⟨rfl, hrest⟩ := append_inj_of_run h ha ha' (stops_cons.mpr rfl) (stops_cons.mpr rfl)
  have hname : n ++ (">:".toList ++ (w ++ e)) = n' ++ (">:".toList ++ (w' ++ e')) :=
    List.append_cancel_left hrest
  obtain ⟨rfl, -⟩ := append_inj_of_run hname hn hn' (stops_cons.mpr rfl) (stops_cons.mpr rfl)
  exact ⟨rfl, rfl⟩

section

variable [UnicodeDB]

/-- **The line that opens a block is read as its label.** -/
theorem classify_labelLine (b : CodeBlock) :
    classify (labelLine b.raw) = .ok (.label b.label) := by
  have hwf : labelGrammar.wf (hexPad 16 b.start, b.label, []) := by
    refine ⟨⟨?_, fun c hc => isHex_of_mem_hexPad hc⟩, ⟨b.label_ne, fun c hc => ?_⟩, ?_⟩
    · exact fun h => hex_ne_nil _ (List.append_eq_nil_iff.mp h).2
    · simpa using (b.label_line c hc).2
    · intro c hc
      cases hc
  have htext : labelLine b.raw = labelGrammar.text (hexPad 16 b.start, b.label, []) ++ [] := by
    simp only [labelLine, CodeBlock.raw, labelGrammar, Grammar.seq, Grammar.after, Grammar.grp,
      Grammar.run1, Grammar.run, id, List.append_nil, List.append_assoc]
  obtain ⟨st, hst, hcaps⟩ := parses_label.exec_text hwf (Or.inl rfl) htext (by
    rintro ⟨a, n, w⟩ e hy - h
    obtain ⟨h1, h2⟩ := labelGrammar_name hwf hy h
    simp only at h1 h2
    subst h1 h2
    rfl)
  unfold classify
  rw [show LABEL.exec _ = some st from hst]
  simp only [hcaps]
  rfl

end

/-- A line is no label if it does not start with digits and ` <`. -/
theorem LABEL_eq_none {pre rest : Str} (hpre : ∀ c ∈ pre, isHex c = true) (hstop : Stops isHex rest)
    (hrest : pre ≠ [] → rest.head? ≠ some ' ') : LABEL.exec (pre ++ rest) = none := by
  refine parses_label.exec_eq_none_iff.mpr ?_
  rintro ⟨a, n, w⟩ e ⟨⟨hane, ha⟩, -, -⟩ - h
  simp only [labelGrammar, Grammar.seq, Grammar.after, Grammar.grp, Grammar.run1, Grammar.run, id,
    List.append_assoc] at h
  obtain ⟨rfl, hrest'⟩ := append_inj_of_run h hpre ha hstop (stops_cons.mpr rfl)
  refine hrest hane ?_
  rw [hrest']
  rfl

/-- A label line ends in its colon or in whitespace. -/
theorem LABEL_eq_none_of_last {raw : Str} {c : Char} (hlast : raw.getLast? = some c) (hc : c ≠ ':')
    (hspace : isSpace c = false) : LABEL.exec raw = none := by
  refine parses_label.exec_eq_none_iff.mpr ?_
  rintro ⟨a, n, w⟩ e ⟨-, -, hw⟩ he h
  have hraw : raw = (a ++ " <".toList ++ n ++ ">".toList) ++ (':' :: (w ++ e)) := by
    rw [h]
    simp [labelGrammar, Grammar.seq, Grammar.after, Grammar.grp, Grammar.run1, Grammar.run]
  rw [hraw, List.getLast?_append_of_ne_nil _ (List.cons_ne_nil _ _)] at hlast
  have hmem : c ∈ ':' :: (w ++ e) := List.mem_of_getLast? hlast
  have hno : ∀ d ∈ w ++ e, isSpace d = true := by
    intro d hd
    rcases List.mem_append.mp hd with hd | hd
    · exact hw d hd
    · rcases he with rfl | rfl
      · cases hd
      · rw [List.mem_singleton.mp hd]
        rfl
  rcases List.mem_cons.mp hmem with hmem | hmem
  · exact hc hmem
  · rw [hno c hmem] at hspace
    cases hspace

/-! ## Lines of bytes -/

/-- `[0-9a-f]{2} ?` -/
def byteGrammar : Grammar (Char × Char × Option Unit) :=
  (Grammar.cls isHex).seq ((Grammar.cls isHex).seq (Grammar.lit " ".toList).opt)

/-- The value of a line match: the columns, the byte column, and the text with the blanks before
it. -/
abbrev LineParts := Str × Str × Str ×
  ((Char × Char × Option Unit) × List (Char × Char × Option Unit)) × Str × Option (Str × Str)

def lineGrammar : Grammar LineParts :=
  (Grammar.run isSpace).seq (((Grammar.run1 isHex).grp 1).seq
    (((Grammar.run1 isSpace).seq (((byteGrammar.seq byteGrammar.many).grp 2).seq
      ((Grammar.run isSpace).seq (((Grammar.run isSpace).seq ((Grammar.run isDot).grp 3)).after
        "\t".toList).opt))).after ":".toList))

theorem parses_byte : Parses byteRe byteGrammar := parses_cls.seq (parses_cls.seq parses_lit.opt)

theorem parses_line : Parses (.seq (.star true (.cls isSpace))
    (.seq (.grp 1 (.plus true (.cls isHex))) (.seq (.lit ":".toList)
      (.seq (.plus true (.cls isSpace)) (.seq (.grp 2 (.plus false byteRe))
        (.seq (.star true (.cls isSpace)) (.opt (.seq (.lit "\t".toList)
          (.seq (.star true (.cls isSpace)) (.grp 3 (.star true (.cls isDot))))))))))))
    lineGrammar := by
  have hbytes : Parses (.plus false byteRe) (byteGrammar.seq byteGrammar.many) := by
    apply parses_byte.seq
    exact parses_byte.many (fun x _ h => by cases h) false
  exact parses_run.seq ((parses_run1.grp 1).seq ((parses_run1.seq ((hbytes.grp 2).seq
    (parses_run.seq ((parses_run.seq (parses_run.grp 3)).after "\t".toList).opt))).after ":".toList))

theorem byteText_cons (b b' : UInt8) (bs : List UInt8) :
    byteText (b :: b' :: bs) = hexPad 2 b.toNat ++ (" ".toList ++ byteText (b' :: bs)) := by
  simp only [byteText, List.map_cons, List.intercalate_cons_cons, List.append_assoc]

/-- The byte column as the pattern reads it: a space behind every byte but the last. -/
theorem byteText_items : (b : UInt8) → (bs : List UInt8) → ∃ x xs,
    (byteGrammar.seq byteGrammar.many).wf (x, xs) ∧
      byteText (b :: bs) = (byteGrammar.seq byteGrammar.many).text (x, xs)
  | b, [] => by
      obtain ⟨c, d, hcd, hc, hd⟩ := hexPad_two b.toNat_lt
      refine ⟨(c, d, none), [], ⟨⟨hc, hd, fun _ h => by cases h⟩, fun _ h => by cases h⟩, ?_⟩
      unfold byteText
      rw [List.map_singleton, hcd]
      rfl
  | b, b' :: bs => by
      obtain ⟨c, d, hcd, hc, hd⟩ := hexPad_two b.toNat_lt
      obtain ⟨x, xs, hx, htext⟩ := byteText_items b' bs
      refine ⟨(c, d, some ()), x :: xs, ⟨⟨hc, hd, fun _ _ => trivial⟩,
        List.forall_mem_cons.mpr hx⟩, ?_⟩
      rw [byteText_cons, htext, hcd]
      rfl

/-- The byte column splits into the bytes. -/
theorem splitWs_byteText : (bytes : List UInt8) →
    (splitWs (byteText bytes)).length = bytes.length
  | [] => rfl
  | b :: bs => by
      obtain ⟨c, d, hcd, hc, hd⟩ := hexPad_two b.toNat_lt
      have hne : hexPad 2 b.toNat ≠ [] := by rw [hcd]; exact List.cons_ne_nil c [d]
      have hword : ∀ x ∈ hexPad 2 b.toNat, isSpace x = false :=
        fun x hx => isSpace_of_isHex (isHex_of_mem_hexPad hx)
      cases bs with
      | nil =>
          have h := splitWs_word hne hword (stops_nil _)
          rw [List.append_nil] at h
          simp [byteText, h, splitWs]
      | cons b' bs =>
          have hsp : ∀ x ∈ " ".toList, isSpace x = true := forall_chars (by decide)
          have hstop : Stops (fun x => !isSpace x) (" ".toList ++ byteText (b' :: bs)) :=
            stops_cons.mpr rfl
          rw [byteText_cons, splitWs_word hne hword hstop, splitWs_space hsp, List.length_cons,
            splitWs_byteText (b' :: bs)]
          rfl

/-- The characters of the byte column. -/
def isByteCol (c : Char) : Bool := isHex c || c == ' '

/-- What a byte column consists of: digits and spaces, a digit first. -/
theorem byteItems_chars {x : Char × Char × Option Unit} {xs : List (Char × Char × Option Unit)}
    (h : (byteGrammar.seq byteGrammar.many).wf (x, xs)) :
    (∃ c r, (byteGrammar.seq byteGrammar.many).text (x, xs) = c :: r ∧ isHex c = true) ∧
      ∀ c ∈ (byteGrammar.seq byteGrammar.many).text (x, xs), isByteCol c = true := by
  have hone : ∀ x : Char × Char × Option Unit, byteGrammar.wf x →
      ∀ c ∈ byteGrammar.text x, isByteCol c = true := by
    rintro ⟨a, b, _ | _⟩ ⟨ha, hb, -⟩ c hc
    · have ha' : isHex a = true := ha
      have hb' : isHex b = true := hb
      have hc' : c ∈ [a, b] := hc
      simp only [List.mem_cons, List.not_mem_nil, or_false] at hc'
      rcases hc' with rfl | rfl <;> simp [isByteCol, *]
    · have ha' : isHex a = true := ha
      have hb' : isHex b = true := hb
      have hc' : c ∈ [a, b, ' '] := hc
      simp only [List.mem_cons, List.not_mem_nil, or_false] at hc'
      rcases hc' with rfl | rfl | rfl <;> simp [isByteCol, *]
  refine ⟨⟨x.1, _, rfl, h.1.1⟩, fun c hc => ?_⟩
  rcases List.mem_append.mp hc with hc | hc
  · exact hone x h.1 c hc
  · obtain ⟨y, hy, hc⟩ := List.mem_flatMap.mp hc
    exact hone y (h.2 y hy) c hc

theorem isByteCol_of_space {c : Char} (h : isSpace c = true) (hne : c ≠ ' ') :
    isByteCol c = false := by
  have hhex : isHex c = false := by
    rw [Bool.eq_false_iff]
    intro hhex
    rw [isSpace_of_isHex hhex] at h
    cases h
  simp [isByteCol, hhex, hne]

/-- A run of whitespace is a run of spaces and then whitespace that does not start with one. -/
theorem space_parts {w : Str} (hw : ∀ c ∈ w, isSpace c = true) : ∃ u v, w = u ++ v ∧
    (∀ c ∈ u, c = ' ') ∧ (∀ c ∈ v, isSpace c = true) ∧ Stops isByteCol v := by
  refine ⟨w.takeWhile (· = ' '), w.dropWhile (· = ' '), List.takeWhile_append_dropWhile.symm,
    fun c hc => by simpa using List.mem_takeWhile_imp hc,
    fun c hc => hw c (List.dropWhile_subset _ hc), ?_⟩
  intro c hc
  have hstop := stops_dropWhile (p := fun c => decide (c = ' ')) w c hc
  exact isByteCol_of_space (hw c (List.dropWhile_subset _ (List.mem_of_mem_head? hc)))
    (by simpa using hstop)

/-- Two readings of a byte column, the whitespace behind it and a rest that starts with a tab:
the same words, and the same rest up to whitespace. -/
theorem byteColumn_eq {b b' w w' t t' : Str} (h : b ++ (w ++ t) = b' ++ (w' ++ t'))
    (hb : ∀ c ∈ b, isByteCol c = true) (hb' : ∀ c ∈ b', isByteCol c = true)
    (hw : ∀ c ∈ w, isSpace c = true) (hw' : ∀ c ∈ w', isSpace c = true)
    (ht : Stops isByteCol t) (ht' : Stops isByteCol t') :
    splitWs b = splitWs b' ∧ ∃ v v', v ++ t = v' ++ t' ∧ (∀ c ∈ v, isSpace c = true) ∧
      ∀ c ∈ v', isSpace c = true := by
  obtain ⟨u, v, rfl, hu, hv, hstop⟩ := space_parts hw
  obtain ⟨u', v', rfl, hu', hv', hstop'⟩ := space_parts hw'
  have hspace : ∀ {u : Str}, (∀ c ∈ u, c = ' ') → ∀ c ∈ u, isSpace c = true := by
    intro u hu c hc
    rw [hu c hc]
    decide
  have hrun : ∀ {b u : Str}, (∀ c ∈ b, isByteCol c = true) → (∀ c ∈ u, c = ' ') →
      ∀ c ∈ b ++ u, isByteCol c = true := by
    intro b u hb hu c hc
    rcases List.mem_append.mp hc with hc | hc
    · exact hb c hc
    · rw [hu c hc]
      rfl
  have hstops : ∀ {v t : Str}, Stops isByteCol v → Stops isByteCol t → Stops isByteCol (v ++ t) := by
    intro v t hv ht
    cases v with
    | nil => exact ht
    | cons c v => exact hv
  have h' : (b ++ u) ++ (v ++ t) = (b' ++ u') ++ (v' ++ t') := by simpa using h
  obtain ⟨hcol, hrest⟩ := append_inj_of_run h' (hrun hb hu) (hrun hb' hu') (hstops hstop ht)
    (hstops hstop' ht')
  refine ⟨?_, v, v', hrest, hv, hv'⟩
  rw [← splitWs_append_space (hspace hu) b, hcol, splitWs_append_space (hspace hu') b']

theorem lineGrammar_caps (y : LineParts) : let m := lineGrammar.caps y fun _ => none
    m 1 = some y.2.1 ∧ m 2 = some ((byteGrammar.seq byteGrammar.many).text y.2.2.2.1) ∧
      m 3 = y.2.2.2.2.2.map (·.2) := by
  have hbyte : ∀ (x : Char × Char × Option Unit) (m : Caps), byteGrammar.caps x m = m := by
    rintro ⟨a, b, _ | _⟩ m <;> rfl
  have hmany : ∀ (xs : List (Char × Char × Option Unit)) (m : Caps),
      byteGrammar.many.caps xs m = m := by
    intro xs
    induction xs with
    | nil => exact fun m => rfl
    | cons x xs ih =>
        intro m
        show byteGrammar.many.caps xs (byteGrammar.caps x m) = m
        rw [hbyte, ih]
  obtain ⟨lead, addr, sep, ⟨x, xs⟩, ws, t⟩ := y
  have hcol : ∀ m, (byteGrammar.seq byteGrammar.many).caps (x, xs) m = m := by
    intro m
    show byteGrammar.many.caps xs (byteGrammar.caps x m) = m
    rw [hbyte, hmany]
  have hpre : lineGrammar.caps (lead, addr, sep, (x, xs), ws, none) (fun _ => none) =
      Function.update ((byteGrammar.seq byteGrammar.many).caps (x, xs)
        (Function.update (fun _ => none) 1 (some addr))) 2
        (some ((byteGrammar.seq byteGrammar.many).text (x, xs))) := rfl
  rw [hcol] at hpre
  cases t with
  | none =>
      rw [hpre]
      exact ⟨rfl, rfl, rfl⟩
  | some t =>
      have htext : lineGrammar.caps (lead, addr, sep, (x, xs), ws, some t) (fun _ => none) =
          Function.update (lineGrammar.caps (lead, addr, sep, (x, xs), ws, none) fun _ => none) 3
            (some t.2) := rfl
      rw [htext, hpre]
      exact ⟨rfl, rfl, rfl⟩

/-- The text of a line, if it has one, can stand on a line. -/
def TextOk (text : Option Str) : Prop := ∀ t ∈ text, LineText t

/-- The rest behind the byte column and the blanks of a printed line. -/
def tailText (cols : Columns) (text : Option Str) : Str :=
  text.elim [] fun t => "\t".toList ++ cols.gap ++ t

theorem strip_of_space {w : Str} (hw : ∀ c ∈ w, isSpace c = true) : strip w = [] := by
  have h := stripBy_pad (p := isSpace) (s := []) ⟨stops_nil _, fun c hc => by cases hc⟩ hw
    (b := []) (fun c hc => by cases hc)
  simpa [strip] using h

/-- The text of a printed line, whatever whitespace a reading leaves in front of it. -/
theorem text_of_rest {t v v' g e : Str} (htext : LineText t) (h : v ++ (g ++ e) = v' ++ t)
    (hv : ∀ c ∈ v, isSpace c = true) (hv' : ∀ c ∈ v', isSpace c = true) (he : AtEnd e) :
    strip (g.takeWhile (· ≠ '#')) = t := by
  have hdrop : (g ++ e).dropWhile isSpace = t := by
    have h' := congrArg (List.dropWhile isSpace) h
    rwa [List.dropWhile_append_of_pos hv, List.dropWhile_append_of_pos hv',
      dropWhile_of_stops htext.trimmed.1] at h'
  have hsplit : (g ++ e).takeWhile isSpace ++ t = g ++ e := by
    rw [← hdrop, List.takeWhile_append_dropWhile]
  have hlead : ∀ c ∈ (g ++ e).takeWhile isSpace, isSpace c = true :=
    fun c hc => List.mem_takeWhile_imp hc
  -- the text does not end in a newline
  have hnil : e = [] := by
    rcases he with rfl | rfl
    · rfl
    · have hlast : t.getLast? = some '\n' := by
        rw [← List.getLast?_append_of_ne_nil _ htext.ne, hsplit, List.getLast?_append_of_ne_nil]
        · rfl
        · exact List.cons_ne_nil _ _
      have := htext.trimmed.2 '\n' hlast
      exact absurd this (by decide)
  subst hnil
  rw [List.append_nil] at hsplit hlead
  have hno : ∀ c ∈ g, (decide (c ≠ '#')) = true := by
    intro c hc
    rw [← hsplit] at hc
    rw [decide_eq_true_eq]
    rintro rfl
    rcases List.mem_append.mp hc with hc | hc
    · exact absurd (hlead '#' hc) (by decide)
    · exact htext.noHash hc
  rw [List.takeWhile_eq_self_iff.mpr hno, ← hsplit]
  have h := stripBy_pad (b := []) htext.trimmed hlead (fun c hc => by cases hc)
  rwa [List.append_nil] at h

/-- **All readings of a printed line agree**: the address, the number of bytes, and the text once
stripped. -/
theorem lineGrammar_line {cols : Columns} {addr : Nat} {bytes : List UInt8} {text : Option Str}
    {y : LineParts} {e : Str} (hbytes : bytes ≠ []) (htext : TextOk text) (hy : lineGrammar.wf y)
    (he : AtEnd e) (h : bytesLine cols addr bytes text = lineGrammar.text y ++ e) :
    y.2.1 = hex addr ∧
      (splitWs ((byteGrammar.seq byteGrammar.many).text y.2.2.2.1)).length = bytes.length ∧
      strip (((y.2.2.2.2.2.map (·.2)).getD []).takeWhile (· ≠ '#')) = text.getD [] := by
  obtain ⟨lead, a, sep, ⟨x, xs⟩, ws, t⟩ := y
  obtain ⟨hlead, ⟨hane, ha⟩, ⟨-, hsep⟩, hitems, hws, ht⟩ := hy
  obtain ⟨⟨c, r, hc, hhex⟩, hcol⟩ := byteItems_chars hitems
  obtain ⟨b, bs, rfl⟩ := List.exists_cons_of_ne_nil hbytes
  obtain ⟨z, zs, hz, hztext⟩ := byteText_items b bs
  obtain ⟨⟨d, q, hd, hdhex⟩, hzcol⟩ := byteItems_chars hz
  rw [← hztext] at hd hzcol
  have hblank : ∀ {w : Str}, (∀ c ∈ w, isBlank c = true) → ∀ c ∈ w, isSpace c = true :=
    fun hw c hc => isSpace_of_isBlank (hw c hc)
  -- the columns, from the left
  have hline : lead ++ (a ++ (":".toList ++ (sep ++
      ((byteGrammar.seq byteGrammar.many).text (x, xs) ++ (ws ++
        ((t.elim [] fun t => "\t".toList ++ (t.1 ++ t.2)) ++ e)))))) =
      cols.lead ++ (hex addr ++ (":".toList ++ (cols.sep ++ (byteText (b :: bs) ++
        (cols.pad ++ tailText cols text))))) := by
    have htxt : lineGrammar.text (lead, a, sep, (x, xs), ws, t) = lead ++ (a ++ (":".toList ++
        (sep ++ ((byteGrammar.seq byteGrammar.many).text (x, xs) ++ (ws ++
          t.elim [] fun t => "\t".toList ++ (t.1 ++ t.2)))))) := rfl
    rw [htxt] at h
    unfold bytesLine at h
    simpa only [List.append_assoc, tailText] using h.symm
  have hspaceHex : ∀ {w r : Str}, w ≠ [] → (∀ c ∈ w, isHex c = true) → Stops isSpace (w ++ r) := by
    intro w r hne hw
    apply stops_append hne
    intro c hc
    exact isSpace_of_isHex (hw c (List.mem_of_mem_head? hc))
  obtain ⟨-, h1⟩ := append_inj_of_run hline hlead (hblank cols.lead_blank) (hspaceHex hane ha)
    (hspaceHex (hex_ne_nil addr) fun c hc => isHex_of_mem_hex hc)
  obtain ⟨rfl, h2⟩ := append_inj_of_run h1 ha (fun c hc => isHex_of_mem_hex hc)
    (stops_cons.mpr rfl) (stops_cons.mpr rfl)
  have h3 := List.append_cancel_left h2
  obtain ⟨-, h4⟩ := append_inj_of_run h3 hsep (hblank cols.sep_blank)
    (by rw [hc]; exact stops_cons.mpr (isSpace_of_isHex hhex))
    (by rw [hd]; exact stops_cons.mpr (isSpace_of_isHex hdhex))
  have hstop : Stops isByteCol ((t.elim [] fun t => "\t".toList ++ (t.1 ++ t.2)) ++ e) := by
    cases t with
    | none =>
        rcases he with rfl | rfl
        · exact stops_nil _
        · exact stops_cons.mpr rfl
    | some t => exact stops_cons.mpr rfl
  have hstop' : Stops isByteCol (tailText cols text) := by
    cases text with
    | none => exact stops_nil _
    | some t => exact stops_cons.mpr rfl
  obtain ⟨hwords, v, v', hrest, hv, hv'⟩ := byteColumn_eq h4 hcol hzcol hws
    (hblank cols.pad_blank) hstop hstop'
  refine ⟨rfl, ?_, ?_⟩
  · rw [hwords, splitWs_byteText]
  -- the text
  have htab : ∀ c ∈ "\t".toList, isSpace c = true := forall_chars (by decide)
  cases text with
  | none =>
      cases t with
      | none => rfl
      | some t =>
          apply strip_of_space
          intro c hc
          have hmem : c ∈ v' ++ tailText cols none := by
            rw [← hrest]
            have := (List.takeWhile_subset _ hc)
            simp only [Option.map_some, Option.getD_some] at this
            simp [this]
          rw [tailText, Option.elim, List.append_nil] at hmem
          exact hv' c hmem
  | some tx =>
      have htx : LineText tx := htext tx rfl
      have hpre : ∀ c ∈ v' ++ ("\t".toList ++ cols.gap), isSpace c = true := by
        intro c hc
        rcases List.mem_append.mp hc with hc | hc
        · exact hv' c hc
        · rcases List.mem_append.mp hc with hc | hc
          · exact htab c hc
          · exact hblank cols.gap_blank c hc
      cases t with
      | none =>
          refine text_of_rest (g := []) htx ?_ hv hpre he
          simpa [tailText] using hrest
      | some t =>
          obtain ⟨w3, g⟩ := t
          have hw3 : ∀ c ∈ w3, isSpace c = true := (ht _ rfl).1
          refine text_of_rest (g := g) (v := v ++ ("\t".toList ++ w3)) htx ?_ ?_ hpre he
          · simpa [tailText] using hrest
          · intro c hc
            rcases List.mem_append.mp hc with hc | hc
            · exact hv c hc
            · rcases List.mem_append.mp hc with hc | hc
              · exact htab c hc
              · exact hw3 c hc

/-- A printed line has a reading. -/
theorem lineGrammar_exists (cols : Columns) (addr : Nat) {bytes : List UInt8} (hbytes : bytes ≠ [])
    {text : Option Str} (htext : TextOk text) :
    ∃ y, lineGrammar.wf y ∧ bytesLine cols addr bytes text = lineGrammar.text y ++ [] := by
  obtain ⟨b, bs, rfl⟩ := List.exists_cons_of_ne_nil hbytes
  obtain ⟨x, xs, hx, hcol⟩ := byteText_items b bs
  have hblank : ∀ {w : Str}, (∀ c ∈ w, isBlank c = true) → ∀ c ∈ w, isSpace c = true :=
    fun hw c hc => isSpace_of_isBlank (hw c hc)
  refine ⟨(cols.lead, hex addr, cols.sep, (x, xs), cols.pad, text.map fun t => (cols.gap, t)),
    ⟨hblank cols.lead_blank, ⟨hex_ne_nil addr, fun c hc => isHex_of_mem_hex hc⟩,
      ⟨cols.sep_ne, hblank cols.sep_blank⟩, hx, hblank cols.pad_blank, ?_⟩, ?_⟩
  · intro g hg
    obtain ⟨t, ht, rfl⟩ : ∃ t, t ∈ text ∧ (cols.gap, t) = g := Option.map_eq_some_iff.mp hg
    refine ⟨hblank cols.gap_blank, fun c hc => ?_⟩
    have hline := (htext t ht).line c hc
    unfold isDot
    rw [bne_iff_ne]
    rintro rfl
    exact absurd hline (by decide)
  · unfold bytesLine
    rw [hcol]
    cases text <;>
      simp [lineGrammar, Grammar.seq, Grammar.after, Grammar.grp, Grammar.run1, Grammar.run,
        Grammar.opt, List.append_assoc]

/-- A line of bytes is no label. -/
theorem LABEL_bytesLine (cols : Columns) (addr : Nat) (bytes : List UInt8) (text : Option Str) :
    LABEL.exec (bytesLine cols addr bytes text) = none := by
  cases hlead : cols.lead with
  | nil =>
      have hline : bytesLine cols addr bytes text = hex addr ++ (":".toList ++ (cols.sep ++
          (byteText bytes ++ (cols.pad ++ tailText cols text)))) := by
        simp only [bytesLine, tailText, hlead, List.nil_append, List.append_assoc]
      rw [hline]
      refine LABEL_eq_none (fun c hc => isHex_of_mem_hex hc) (stops_cons.mpr rfl) fun _ => ?_
      exact fun h => absurd (Option.some.inj h) (by decide)
  | cons c lead =>
      have hline : bytesLine cols addr bytes text = [] ++ (c :: (lead ++ hex addr ++ ":".toList ++
          cols.sep ++ byteText bytes ++ cols.pad ++ tailText cols text)) := by
        simp only [bytesLine, tailText, hlead, List.cons_append, List.nil_append]
      have hblank : isSpace c = true := by
        apply isSpace_of_isBlank
        apply cols.lead_blank
        rw [hlead]
        exact List.mem_cons_self
      rw [hline]
      refine LABEL_eq_none (fun c hc => by cases hc) (stops_cons.mpr ?_) fun h => absurd rfl h
      rw [Bool.eq_false_iff]
      intro hhex
      rw [isSpace_of_isHex hhex] at hblank
      cases hblank

section

variable [UnicodeDB]

/-- **A line of bytes is read as its address, the number of its bytes, and its text.** -/
theorem classify_bytesLine (cols : Columns) (addr : Nat) {bytes : List UInt8} (hbytes : bytes ≠ [])
    {text : Option Str} (htext : TextOk text) :
    classify (bytesLine cols addr bytes text) = .ok (.bytes addr bytes.length (text.getD [])) := by
  obtain ⟨x, hx, hline⟩ := lineGrammar_exists cols addr hbytes htext
  -- the match the pattern finds is one of the readings of the line
  obtain ⟨st, hst, hmem⟩ := exec_of_forall
    (parses_line.mem_run_eol.mpr ⟨x, [], hx, Or.inl rfl, hline, rfl⟩) fun _ h => h
  obtain ⟨y, e, hy, he, hyline, hcaps⟩ := parses_line.mem_run_eol.mp hmem
  obtain ⟨haddr, hnum, hasm⟩ := lineGrammar_line hbytes htext hy he hyline
  obtain ⟨h1, h2, h3⟩ := lineGrammar_caps y
  unfold classify
  rw [LABEL_bytesLine, show LINE.exec _ = some st from hst, hcaps]
  simp only [h1, h2, h3, haddr, Option.getD_some, hnum, hasm, pyInt, parseInt_hex]
  rfl

end

end X86Scripts
