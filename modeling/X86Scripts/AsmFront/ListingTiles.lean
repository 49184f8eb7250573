import X86Scripts.AsmFront.ListingLines

/-!
# The listing parser tiles the code

Reading a printed listing gives the printed blocks back.

* `pushIns_fresh`, `pushIns_continuation`, `pushIns_lock`: the three ways a line joins its block.
* `run_insnLines`, `run_insnsLines`, `run_blockLines`: the lines of one instruction, of the
  instructions of a block, of a block.
* **`parseListing_listingText`**: the same labels, and for each instruction its address, its byte
  count and its text; the entries of a block tile its bytes.
* **`reread_ne`**: listings outside that, which are read as something else.
-/

namespace X86Scripts

open X86Scripts.Regex
open X86Scripts.Py
open X86Scripts.Digits
open X86Scripts.Outcome

/-! ## Joining a line -/

/-- A line with a text is a new entry, unless it follows a bare `lock`. -/
theorem pushIns_fresh {ins : List Ins} {asm : Str} (hasm : asm ≠ [])
    (hlock : ∀ i ∈ ins.getLast?, i.text ≠ "lock".toList) (addr nb : Nat) :
    pushIns ins addr nb asm = .ok (ins ++ [⟨addr, nb, asm⟩]) := by
  unfold pushIns
  split
  · rw [if_neg hasm]
    rfl
  · rename_i i hi
    rw [if_neg hasm, if_neg fun h => hlock i hi h.1]
    rfl

/-- GNU's continuation adds its bytes to the last entry. -/
theorem pushIns_continuation (ins : List Ins) (i : Ins) (addr nb : Nat) :
    pushIns (ins ++ [i]) addr nb [] = .ok (ins ++ [{ i with len := i.len + nb }]) := by
  unfold pushIns
  rw [List.getLast?_concat, List.dropLast_concat]
  rfl

/-- LLVM's own-line `lock` goes in front of the next line. -/
theorem pushIns_lock {asm : Str} (hasm : asm ≠ []) (ins : List Ins) (addr n nb : Nat) :
    pushIns (ins ++ [⟨addr, n, "lock".toList⟩]) (addr + n) nb asm =
      .ok (ins ++ [⟨addr, n + nb, "lock ".toList ++ asm⟩]) := by
  unfold pushIns
  rw [List.getLast?_concat, List.dropLast_concat]
  dsimp only
  rw [if_neg hasm, if_pos ⟨rfl, rfl⟩]
  rfl

/-! ## Lines of an instruction -/

theorem LineText.lock {t : Str} (h : LineText t) : LineText ("lock ".toList ++ t) := by
  have hno : ∀ c ∈ "lock ".toList, isLineBreak c = false := forall_chars (by decide)
  have hl : Trimmed "lock".toList := trimmed_of_forall (forall_chars (by decide))
  refine ⟨List.append_ne_nil_of_left_ne_nil (by decide) _, ?_, ?_, ?_⟩
  · exact hl.append h.trimmed (by decide) h.ne " ".toList
  · intro c hc
    rcases List.mem_append.mp hc with hc | hc
    · exact hno c hc
    · exact h.line c hc
  · intro hc
    rcases List.mem_append.mp hc with hc | hc
    · exact absurd hc (by decide)
    · exact h.noHash hc

theorem Insn.text_ok (i : Insn) : LineText i.text := by
  unfold RawInsn.text
  split
  · exact i.body_text.lock
  · exact i.body_text

section

variable [UnicodeDB]

/-- A line of bytes in a block. -/
theorem listLine_bytesLine (closed : List Block) (name : Str) (ins : List Ins) (cols : Columns)
    (addr : Nat) {bytes : List UInt8} (hbytes : bytes ≠ []) {text : Option Str}
    (htext : TextOk text) {ins' : List Ins}
    (hpush : pushIns ins addr bytes.length (text.getD []) = .ok ins') :
    listLine ⟨closed, some (name, ins)⟩ (bytesLine cols addr bytes text) =
      .ok ⟨closed, some (name, ins')⟩ := by
  unfold listLine
  rw [classify_bytesLine cols addr hbytes htext, ok_bind]
  unfold listStep
  simp only [hpush, ok_bind]
  rfl

/-- GNU's continuation lines add up. -/
theorem run_contLines (lay : Layout) (closed : List Block) (name : Str) (ins : List Ins) :
    (fuel : Nat) → (addr : Nat) → (bytes : List UInt8) → bytes.length ≤ fuel → (i : Ins) →
      (contLines lay fuel addr bytes).foldlM listLine ⟨closed, some (name, ins ++ [i])⟩ =
        .ok ⟨closed, some (name, ins ++ [{ i with len := i.len + bytes.length }])⟩
  | 0, addr, bytes, hfuel, i => by
      have hnil : bytes = [] := List.length_eq_zero_iff.mp (by omega)
      subst hnil
      rfl
  | fuel + 1, addr, bytes, hfuel, i => by
      unfold contLines
      by_cases hnil : bytes = []
      · subst hnil
        rfl
      have hpos : 0 < bytes.length := List.length_pos_of_ne_nil hnil
      have htake : (bytes.take 7).length = min 7 bytes.length := List.length_take
      have hdrop : (bytes.drop 7).length = bytes.length - 7 := List.length_drop
      have hne : bytes.take 7 ≠ [] := by
        apply List.ne_nil_of_length_pos
        omega
      have htext : TextOk none := fun t ht => by cases ht
      rw [if_neg hnil, List.foldlM_cons,
        listLine_bytesLine closed name _ _ addr hne htext (pushIns_continuation ins i addr _),
        ok_bind, run_contLines lay closed name ins fuel _ (bytes.drop 7) (by omega)]
      have hlen : i.len + (bytes.take 7).length + (bytes.drop 7).length =
          i.len + bytes.length := by omega
      simp only [hlen]

/-- **The lines of an instruction are one entry.** -/
theorem run_insnLines (tool : Tool) (lay : Layout) (closed : List Block) (name : Str)
    {ins : List Ins} (hlock : ∀ i ∈ ins.getLast?, i.text ≠ "lock".toList) (addr : Nat) (i : Insn) :
    (insnLines tool lay addr i.toRawInsn).foldlM listLine ⟨closed, some (name, ins)⟩ =
      .ok ⟨closed, some (name, ins ++ [⟨addr, i.bytes.length, i.text⟩])⟩ := by
  have hpos : 1 ≤ i.bytes.length := i.bytes_pos
  have hfresh : ∀ {bytes : List UInt8} {t : Str} {cols : Columns}, bytes ≠ [] → LineText t →
      listLine ⟨closed, some (name, ins)⟩ (bytesLine cols addr bytes (some t)) =
        .ok ⟨closed, some (name, ins ++ [⟨addr, bytes.length, t⟩])⟩ := by
    intro bytes t cols hbytes ht
    apply listLine_bytesLine closed name ins cols addr hbytes
    · intro t' ht'
      cases ht'
      exact ht
    · exact pushIns_fresh ht.ne hlock addr _
  cases tool with
  | gnu =>
      have htake : (i.bytes.take 7).length = min 7 i.bytes.length := List.length_take
      have hdrop : (i.bytes.drop 7).length = i.bytes.length - 7 := List.length_drop
      have hne : i.bytes.take 7 ≠ [] := by
        apply List.ne_nil_of_length_pos
        omega
      unfold insnLines
      dsimp only
      rw [List.foldlM_cons, hfresh hne i.text_ok, ok_bind,
        run_contLines lay closed name ins _ _ _ (by omega)]
      have hlen : (i.bytes.take 7).length + (i.bytes.drop 7).length = i.bytes.length := by omega
      simp only [hlen]
  | llvm =>
      unfold insnLines
      dsimp only
      by_cases hl : i.lock = true
      · have h2 : 2 ≤ i.bytes.length := i.lock_bytes hl
        have htake : (i.bytes.take 1).length = 1 := by rw [List.length_take]; omega
        have hdrop : (i.bytes.drop 1).length = i.bytes.length - 1 := List.length_drop
        have hfront : i.bytes.take 1 ≠ [] := List.ne_nil_of_length_pos (by omega)
        have hrest : i.bytes.drop 1 ≠ [] := List.ne_nil_of_length_pos (by omega)
        have htext : LineText "lock".toList :=
          ⟨by decide, trimmed_of_forall (forall_chars (by decide)), forall_chars (by decide), by decide⟩
        have hbody : TextOk (some i.body) := by
          intro t ht
          cases ht
          exact i.body_text
        have hpush := pushIns_lock i.body_text.ne ins addr 1 (i.bytes.drop 1).length
        rw [if_pos hl, List.foldlM_cons, hfresh hfront htext, ok_bind, List.foldlM_cons, htake,
          listLine_bytesLine closed name _ _ (addr + 1) hrest hbody hpush, ok_bind,
          List.foldlM_nil, pure_eq]
        have hlen : 1 + (i.bytes.drop 1).length = i.bytes.length := by omega
        have htxt : i.text = "lock ".toList ++ i.body := if_pos hl
        simp only [hlen, htxt]
      · have hne : i.bytes ≠ [] := List.ne_nil_of_length_pos (by omega)
        rw [if_neg hl, List.foldlM_cons, hfresh hne i.text_ok, ok_bind, List.foldlM_nil, pure_eq]

/-! ## Lines of a block -/

/-- The instructions of a block, none of them but the last a bare `lock`. -/
theorem run_insnsLines (tool : Tool) (lay : Layout) (closed : List Block) (name : Str) :
    (is : List Insn) → (addr : Nat) → {ins : List Ins} →
      (∀ i ∈ ins.getLast?, i.text ≠ "lock".toList) →
      (∀ i ∈ is.dropLast, i.text ≠ "lock".toList) →
      (insnsLines tool lay addr (is.map Insn.toRawInsn)).foldlM listLine
          ⟨closed, some (name, ins)⟩ =
        .ok ⟨closed, some (name, ins ++ entries addr (is.map Insn.toRawInsn))⟩
  | [], addr, ins, _, _ => by
      rw [List.map_nil, entries, List.append_nil]
      rfl
  | i :: is, addr, ins, hlast, hbare => by
      rw [List.map_cons, insnsLines, List.foldlM_append,
        run_insnLines tool lay closed name hlast addr i, ok_bind]
      cases is with
      | nil =>
          rw [List.map_nil, entries, entries]
          rfl
      | cons j is =>
          have hnext : ∀ e ∈ (ins ++ [⟨addr, i.bytes.length, i.text⟩] : List Ins).getLast?,
              e.text ≠ "lock".toList := by
            intro e he
            rw [List.getLast?_concat, Option.mem_some_iff] at he
            subst he
            exact hbare i (by simp)
          have hrest : ∀ k ∈ (j :: is).dropLast, k.text ≠ "lock".toList := by
            intro k hk
            apply hbare k
            rw [List.dropLast_cons_of_ne_nil (List.cons_ne_nil j is)]
            exact List.mem_cons_of_mem i hk
          rw [run_insnsLines tool lay closed name (j :: is) _ hnext hrest, entries,
            List.append_assoc]
          rfl

/-- A line without a digit or a blank in front says nothing. -/
theorem listLine_other {raw : Str} (hlabel : LABEL.exec raw = none) (hline : LINE.exec raw = none)
    (st : Listed) : listLine st raw = .ok st := by
  unfold listLine classify
  rw [hlabel, hline]
  rfl

/-- The lines of a block start it and fill it. -/
theorem run_blockLines (tool : Tool) (lay : Layout) (st : Listed) (b : CodeBlock) :
    (blockLines tool lay b.raw).foldlM listLine st = .ok ⟨st.blocks, some b.raw.read⟩ := by
  have hempty : listLine st [] = .ok st := listLine_other (by decide) (by decide) st
  have hlabel : listLine st (labelLine b.raw) = .ok ⟨st.blocks, some (b.label, [])⟩ := by
    unfold listLine
    rw [classify_labelLine, ok_bind]
    rfl
  unfold blockLines
  rw [List.foldlM_cons, hempty, ok_bind, List.foldlM_cons, hlabel, ok_bind]
  have hnone : ∀ i ∈ ([] : List Ins).getLast?, i.text ≠ "lock".toList := fun i hi => by cases hi
  exact run_insnsLines tool lay st.blocks b.label b.insns b.start hnone b.bare_lock

theorem run_blocks (tool : Tool) (lay : Layout) : (bs : List CodeBlock) → (st : Listed) →
    ∃ st', ((bs.map CodeBlock.raw).flatMap (blockLines tool lay)).foldlM listLine st = .ok st' ∧
      st'.blocks = st.blocks ++ bs.map fun b => b.raw.read
  | [], st => ⟨st, rfl, (List.append_nil _).symm⟩
  | b :: bs, st => by
      obtain ⟨st', hrun, hblocks⟩ := run_blocks tool lay bs ⟨st.blocks, some b.raw.read⟩
      refine ⟨st', ?_, ?_⟩
      · rw [List.map_cons, List.flatMap_cons, List.foldlM_append, run_blockLines, ok_bind, hrun]
      · rw [hblocks, List.map_cons]
        simp only [Listed.blocks, Option.toList_some, List.append_assoc, List.singleton_append]

/-! ## The header -/

/-- In front of the first label nothing is kept. -/
theorem listLine_header {raw : Str} (h : LABEL.exec raw = none) (closed : List Block) :
    listLine ⟨closed, none⟩ raw = .ok ⟨closed, none⟩ := by
  unfold listLine classify
  rw [h]
  cases hline : LINE.exec raw with
  | none => rfl
  | some m =>
      obtain ⟨y, e, hy, -, -, rfl⟩ := parses_line.mem_run_eol.mp (mem_of_exec hline)
      obtain ⟨-, ⟨hne, hhex⟩, -⟩ := hy
      obtain ⟨v, hv⟩ := Option.isSome_iff_exists.mp (isSome_parseInt_hexRun hne hhex)
      simp only [(lineGrammar_caps y).1, Option.getD_some, pyInt, hv]
      rfl

theorem run_headerLines (tool : Tool) (file : OneLine) :
    (headerLines tool file).foldlM listLine ⟨[], none⟩ = .ok ⟨[], none⟩ := by
  have hempty : LABEL.exec [] = none := by decide
  have hsection : LABEL.exec "Disassembly of section .text:".toList = none := by decide
  have hfile : ∀ t : Str, t.getLast? = some '4' → LABEL.exec (file.val ++ t) = none := by
    intro t ht
    apply LABEL_eq_none_of_last (c := '4')
    · rw [List.getLast?_append, ht]
      rfl
    · decide
    · decide
  cases tool with
  | gnu =>
      have h := hfile ":     file format elf64-x86-64".toList (by decide)
      unfold headerLines
      simp only [List.foldlM_cons, listLine_header hempty, listLine_header hsection,
        listLine_header h, ok_bind]
      rfl
  | llvm =>
      have h := hfile ":\tfile format elf64-x86-64".toList (by decide)
      unfold headerLines
      simp only [List.foldlM_cons, listLine_header hempty, listLine_header hsection,
        listLine_header h, ok_bind]
      rfl

end

/-! ## No line of a listing is cut -/

theorem isLineBreak_of_isBlank {c : Char} (h : isBlank c = true) : isLineBreak c = false := by
  simp only [isBlank, Bool.or_eq_true, beq_iff_eq] at h
  rcases h with rfl | rfl <;> decide

theorem isLineBreak_of_isHex {c : Char} (h : isHex c = true) : isLineBreak c = false := by
  obtain ⟨hlo, hhi⟩ := isHex_range h
  unfold isLineBreak
  simp only [Bool.or_eq_false_iff, Bool.and_eq_false_iff, decide_eq_false_iff_not,
    beq_eq_false_iff_ne]
  omega

theorem byteText_line (bytes : List UInt8) : ∀ c ∈ byteText bytes, isLineBreak c = false := by
  intro c hc
  cases bytes with
  | nil => cases hc
  | cons b bs =>
      obtain ⟨x, xs, hx, htext⟩ := byteText_items b bs
      rw [htext] at hc
      have hcol := (byteItems_chars hx).2 c hc
      rcases Bool.or_eq_true_iff.mp hcol with h | h
      · exact isLineBreak_of_isHex h
      · rw [beq_iff_eq.mp h]
        rfl

theorem bytesLine_line (cols : Columns) (addr : Nat) (bytes : List UInt8) {text : Option Str}
    (htext : TextOk text) : ∀ c ∈ bytesLine cols addr bytes text, isLineBreak c = false := by
  have hblank : ∀ {w : Str}, (∀ c ∈ w, isBlank c = true) → ∀ c ∈ w, isLineBreak c = false :=
    fun hw c hc => isLineBreak_of_isBlank (hw c hc)
  have hhex : ∀ c ∈ hex addr, isLineBreak c = false :=
    fun c hc => isLineBreak_of_isHex (isHex_of_mem_hex hc)
  unfold bytesLine
  simp only [List.forall_mem_append]
  refine ⟨⟨⟨⟨⟨⟨hblank cols.lead_blank, hhex⟩, forall_chars (by decide)⟩, hblank cols.sep_blank⟩,
    byteText_line bytes⟩, hblank cols.pad_blank⟩, ?_⟩
  cases text with
  | none => exact fun c hc => by cases hc
  | some t =>
      simp only [Option.elim, List.forall_mem_append]
      exact ⟨⟨forall_chars (by decide), hblank cols.gap_blank⟩, (htext t rfl).line⟩

theorem contLines_line (lay : Layout) : (fuel addr : Nat) → (bytes : List UInt8) →
    ∀ l ∈ contLines lay fuel addr bytes, ∀ c ∈ l, isLineBreak c = false
  | 0, _, _, l, hl => by cases hl
  | fuel + 1, addr, bytes, l, hl => by
      unfold contLines at hl
      split at hl
      · cases hl
      · rcases List.mem_cons.mp hl with rfl | hl
        · exact bytesLine_line _ _ _ fun t ht => by cases ht
        · exact contLines_line lay fuel _ _ l hl

theorem insnLines_line (tool : Tool) (lay : Layout) (addr : Nat) (i : Insn) :
    ∀ l ∈ insnLines tool lay addr i.toRawInsn, ∀ c ∈ l, isLineBreak c = false := by
  have hsome : ∀ {t : Str} {cols : Columns} {addr : Nat} {bytes : List UInt8}, LineText t →
      ∀ c ∈ bytesLine cols addr bytes (some t), isLineBreak c = false := by
    intro t cols addr bytes ht
    refine bytesLine_line cols addr bytes fun t' ht' => ?_
    cases ht'
    exact ht
  have hlock : LineText "lock".toList :=
    ⟨by decide, trimmed_of_forall (forall_chars (by decide)), forall_chars (by decide), by decide⟩
  intro l hl
  unfold insnLines at hl
  cases tool with
  | gnu =>
      rcases List.mem_cons.mp hl with rfl | hl
      · exact hsome i.text_ok
      · exact contLines_line lay _ _ _ l hl
  | llvm =>
      dsimp only at hl
      split at hl
      · simp only [List.mem_cons, List.not_mem_nil, or_false] at hl
        rcases hl with rfl | rfl
        · exact hsome hlock
        · exact hsome i.body_text
      · rw [List.mem_singleton.mp hl]
        exact hsome i.text_ok

theorem insnsLines_line (tool : Tool) (lay : Layout) : (is : List Insn) → (addr : Nat) →
    ∀ l ∈ insnsLines tool lay addr (is.map Insn.toRawInsn), ∀ c ∈ l, isLineBreak c = false
  | [], _, l, hl => by cases hl
  | i :: is, addr, l, hl => by
      rw [List.map_cons, insnsLines] at hl
      rcases List.mem_append.mp hl with hl | hl
      · exact insnLines_line tool lay addr i l hl
      · exact insnsLines_line tool lay is _ l hl

theorem blockLines_line (tool : Tool) (lay : Layout) (b : CodeBlock) :
    ∀ l ∈ blockLines tool lay b.raw, ∀ c ∈ l, isLineBreak c = false := by
  intro l hl
  rcases List.mem_cons.mp hl with rfl | hl
  · exact fun c hc => by cases hc
  rcases List.mem_cons.mp hl with rfl | hl
  · unfold labelLine
    simp only [List.forall_mem_append]
    exact ⟨⟨⟨fun c hc => isLineBreak_of_isHex (isHex_of_mem_hexPad hc), forall_chars (by decide)⟩,
      fun c hc => (b.label_line c hc).1⟩, forall_chars (by decide)⟩
  · exact insnsLines_line tool lay b.insns b.start l hl

theorem headerLines_line (tool : Tool) (file : OneLine) :
    ∀ l ∈ headerLines tool file, ∀ c ∈ l, isLineBreak c = false := by
  have hempty : ∀ c ∈ ([] : Str), isLineBreak c = false := fun c hc => by cases hc
  have hsection : ∀ c ∈ "Disassembly of section .text:".toList, isLineBreak c = false :=
    forall_chars (by decide)
  have hfile : ∀ {t : Str}, (∀ c ∈ t, isLineBreak c = false) →
      ∀ c ∈ file.val ++ t, isLineBreak c = false :=
    fun ht => List.forall_mem_append.mpr ⟨file.property, ht⟩
  cases tool with
  | gnu =>
      simp only [headerLines, List.forall_mem_cons]
      exact ⟨hempty, hfile (forall_chars (by decide)), hempty, hempty, hsection, fun l hl => by cases hl⟩
  | llvm =>
      simp only [headerLines, List.forall_mem_cons]
      exact ⟨hempty, hfile (forall_chars (by decide)), hempty, hsection, fun l hl => by cases hl⟩

/-! ## The whole listing -/

/-- The entries of a block follow each other without a gap and cover its bytes. -/
theorem entries_tile : (is : List RawInsn) → (addr : Nat) →
    (entries addr is).IsChain (fun i j => i.addr + i.len = j.addr) ∧
      ((entries addr is).map Ins.len).sum = (is.flatMap RawInsn.bytes).length
  | [], _ => ⟨List.IsChain.nil, rfl⟩
  | i :: is, addr => by
      obtain ⟨hchain, hsum⟩ := entries_tile is (addr + i.bytes.length)
      constructor
      · cases is with
        | nil => exact List.IsChain.singleton _
        | cons j is => exact List.isChain_cons_cons.mpr ⟨rfl, hchain⟩
      · rw [entries, List.map_cons, List.sum_cons, hsum, List.flatMap_cons, List.length_append]

/-- **The listing parser tiles the code.** -/
theorem parseListing_listingText [UnicodeDB] (tool : Tool) (lay : Layout) (file : OneLine)
    (bs : List CodeBlock) :
    parseListing (listingText tool lay file (bs.map CodeBlock.raw)) =
        .ok (bs.map fun b => (b.label, entries b.start b.raw.insns)) ∧
      ∀ b ∈ bs, (entries b.start b.raw.insns).IsChain (fun i j => i.addr + i.len = j.addr) ∧
        ((entries b.start b.raw.insns).map Ins.len).sum =
          (b.raw.insns.flatMap RawInsn.bytes).length := by
  refine ⟨?_, fun b _ => entries_tile _ _⟩
  have hlines : ∀ l ∈ headerLines tool file ++ (bs.map CodeBlock.raw).flatMap (blockLines tool lay),
      ∀ c ∈ l, isLineBreak c = false := by
    intro l hl
    rcases List.mem_append.mp hl with hl | hl
    · exact headerLines_line tool file l hl
    · obtain ⟨r, hr, hl⟩ := List.mem_flatMap.mp hl
      obtain ⟨b, -, rfl⟩ := List.mem_map.mp hr
      exact blockLines_line tool lay b l hl
  obtain ⟨st, hrun, hblocks⟩ := run_blocks tool lay bs ⟨[], none⟩
  unfold parseListing listingText
  rw [splitlines_lines hlines, List.foldlM_append, run_headerLines, ok_bind, hrun, ok_bind, pure_eq,
    hblocks]
  rfl

/-! ## Listings that are read as something else -/

/-- Two blanks, a tab, three blanks. -/
def plainColumns : Columns where
  lead := "  ".toList
  sep := "\t".toList
  pad := "   ".toList
  gap := []
  lead_blank := forall_chars (by decide)
  sep_blank := forall_chars (by decide)
  pad_blank := forall_chars (by decide)
  gap_blank := forall_chars (by decide)
  sep_ne := by decide

/-- A block printed and read again. -/
def reread (tool : Tool) (b : RawBlock) : Except PyErr (List Block) :=
  @parseListing UnicodeDB.ascii
    (listingText tool (fun _ _ => plainColumns) ⟨"a.out".toList, forall_chars (by decide)⟩ [b])

/-- One block at `0x401000`. -/
def blockAt (label : String) (insns : List RawInsn) : RawBlock := ⟨label.toList, 0x401000, insns⟩

def nopInsn : RawInsn := ⟨[0x90], false, "nop".toList⟩

/-- A bare `lock` in front of another instruction. -/
def bareLock : RawBlock := blockAt "f" [⟨[0xf0], false, "lock".toList⟩, nopInsn]

/-- Whitespace around a text. -/
def padded : RawBlock := blockAt "f" [⟨[0x90], false, " nop ".toList⟩]

/-- A text with a line break in it. -/
def broken : RawBlock := blockAt "f" [⟨[0x90], false, "nop\x0bx".toList⟩]

/-- **What a listing has to keep to.** A bare `lock` is joined with the next instruction, whichever
tool printed it; whitespace around a text is lost; a line break ends it; and a label that is empty,
or holds `>` or a line break, is no label. -/
theorem reread_ne :
    (∀ tool ∈ [Tool.llvm, Tool.gnu],
      reread tool bareLock = .ok [("f".toList, [⟨0x401000, 2, "lock nop".toList⟩])] ∧
        reread tool bareLock ≠ .ok [bareLock.read]) ∧
    (∀ b ∈ [padded, broken], reread .gnu b = .ok [("f".toList, [⟨0x401000, 1, "nop".toList⟩])] ∧
      reread .gnu b ≠ .ok [b.read]) ∧
    ∀ name ∈ ["", "a>b", "a\x0bb"], reread .gnu (blockAt name [nopInsn]) = .ok [] := by
  refine ⟨?_, ?_, ?_⟩
  · decide +kernel
  · decide +kernel
  · decide +kernel

end X86Scripts
