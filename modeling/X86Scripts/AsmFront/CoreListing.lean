import X86Scripts.AsmFront.RoundTrip
import X86Scripts.AsmFront.ListingTiles
import X86Scripts.Lib.Tiling

/-!
# Listings of core instructions

Blocks of instructions of the declared core, each printed at its address in a spelling of its own,
as the listing parser can read them back.

* `isLineChar`, `Spelling.body_text`: the text of an instruction of the core fits on a line.
* `CoreInsn`, `CoreBlock`: instructions and blocks to print, `CoreBlock.code` their lines.
* `CoreBlock.program`: the instructions of a block, each at its address.
* **`parseListing_core`**: the printed blocks are read back, each instruction with its text.
-/

namespace X86Scripts

open X86Scripts.Regex
open X86Scripts.Py
open X86Scripts.Digits
open X86Scripts.Outcome
open X86Scripts.Tiling (Segment place)

/-! ## The characters of a line -/

/-- A text of characters of one class. -/
def AllChars (p : Char → Bool) (t : Str) : Prop := ∀ c ∈ t, p c = true

section chars

variable {p : Char → Bool} {t u : Str}

theorem AllChars.append (ht : AllChars p t) (hu : AllChars p u) : AllChars p (t ++ u) := by
  intro c hc
  rcases List.mem_append.mp hc with hc | hc
  · exact ht c hc
  · exact hu c hc

theorem AllChars.cons {c : Char} (hc : p c = true) (ht : AllChars p t) : AllChars p (c :: t) :=
  List.forall_mem_cons.mpr ⟨hc, ht⟩

theorem allChars_nil : AllChars p [] := fun _ hc => by cases hc

theorem AllChars.imp {q : Char → Bool} (ht : AllChars p t) (h : ∀ c, p c = true → q c = true) :
    AllChars q t := fun c hc => h c (ht c hc)

theorem allChars_of_all (h : t.all p = true) : AllChars p t :=
  fun c hc => List.all_eq_true.mp h c hc

theorem allChars_ite {P : Prop} [Decidable P] (ht : AllChars p t) (hu : AllChars p u) :
    AllChars p (if P then t else u) := by
  by_cases h : P
  · rwa [if_pos h]
  · rwa [if_neg h]

theorem allChars_elim {α : Type} {o : Option α} {f : α → Str} (h : ∀ a ∈ o, AllChars p (f a)) :
    AllChars p (o.elim [] f) := by
  cases o with
  | none => exact allChars_nil
  | some a => exact h a rfl

end chars

/-- A character that may stand in the text of a line. -/
def isLineChar (c : Char) : Bool := !isLineBreak c && c != '#'

/-- A text of such characters. -/
abbrev LineChars (t : Str) : Prop := AllChars isLineChar t

/-- Between `$` and `z` in ASCII there is neither a line break nor a `#`. -/
theorem isLineChar_of_range {c : Char} (h : 36 ≤ c.toNat ∧ c.toNat ≤ 122) : isLineChar c = true := by
  have hbreak : isLineBreak c = false := by
    simp only [isLineBreak, Bool.or_eq_false_iff, Bool.and_eq_false_iff, decide_eq_false_iff_not,
      beq_eq_false_iff_ne]
    omega
  have hne : c ≠ '#' := by
    rintro rfl
    exact absurd h.1 (by decide)
  simp [isLineChar, hbreak, hne]

theorem isLineChar_of_isBlank {c : Char} (h : isBlank c = true) : isLineChar c = true := by
  simp only [isBlank, Bool.or_eq_true, beq_iff_eq] at h
  rcases h with rfl | rfl <;> rfl

theorem isLineChar_of_isHex {c : Char} (h : isHex c = true) : isLineChar c = true := by
  obtain ⟨hlo, hhi⟩ := isHex_range h
  exact isLineChar_of_range ⟨by omega, by omega⟩

theorem isNameChar_range {c : Char} (h : isNameChar c = true) : 48 ≤ c.toNat ∧ c.toNat ≤ 122 := by
  have hle : ∀ {a b : Char}, a ≤ b → a.toNat ≤ b.toNat := fun h => UInt32.le_iff_toNat_le.mp h
  have hrange : ∀ {a b : Char}, 48 ≤ a.toNat → b.toNat ≤ 122 → a ≤ c ∧ c ≤ b →
      48 ≤ c.toNat ∧ c.toNat ≤ 122 :=
    fun ha hb hc => ⟨Nat.le_trans ha (hle hc.1), Nat.le_trans (hle hc.2) hb⟩
  simp only [isNameChar, Char.isAlphanum, Char.isAlpha, Char.isUpper, Char.isLower, Char.isDigit,
    Bool.or_eq_true, Bool.and_eq_true, decide_eq_true_eq] at h
  rcases h with (h | h) | h
  · exact hrange (a := 'A') (b := 'Z') (by decide) (by decide) h
  · exact hrange (a := 'a') (b := 'z') (by decide) (by decide) h
  · exact hrange (a := '0') (b := '9') (by decide) (by decide) h

theorem isLineChar_of_isNameChar {c : Char} (h : isNameChar c = true) : isLineChar c = true := by
  have hrange := isNameChar_range h
  exact isLineChar_of_range ⟨by omega, hrange.2⟩

theorem isSpace_of_isNameChar {c : Char} (h : isNameChar c = true) : isSpace c = false := by
  have hrange := isNameChar_range h
  simp only [isSpace, Bool.or_eq_false_iff, Bool.and_eq_false_iff, decide_eq_false_iff_not,
    beq_eq_false_iff_ne]
  omega

theorem lineChars_hex (v : Nat) : LineChars (hex v) :=
  fun _ hc => isLineChar_of_isHex (isHex_of_mem_hex hc)

/-! ## Printed operands -/

theorem lineChars_signedHex (i : Int) : LineChars (signedHex i) :=
  (allChars_ite (forall_chars (by decide)) (forall_chars (by decide))).append (lineChars_hex _)

theorem lineChars_regText {r : GPR} {sz : Size} {high8 : Bool} (h : RegView r sz high8) :
    LineChars (Spelling.regText r sz high8) := by
  have hall : ∀ r ∈ GPR.all, ∀ sz ∈ [Size.b, .w, .d, .q], ∀ high8 ∈ [false, true],
      RegView r sz high8 → ((r.name sz high8).all isLineChar) = true := by decide +kernel
  refine .cons rfl fun c hc => List.all_eq_true.mp ?_ c hc
  exact hall r r.mem_all sz (by cases sz <;> simp) high8 (by cases high8 <;> simp) h

namespace Spelling

variable (s : Spelling)

theorem lineChars_memText (ea : Ea) : LineChars (s.memText ea) := by
  have hcomma : LineChars ",".toList := forall_chars (by decide)
  have hreg : ∀ r, LineChars (regText r .q false) := fun r => lineChars_regText (regView_q r)
  have hseg : LineChars (ea.seg.elim [] fun seg => "%".toList ++ seg.name ++ ":".toList) := by
    apply allChars_elim
    intro seg _
    cases seg <;> exact forall_chars (by decide)
  have hdisp : LineChars (s.dispText ea) :=
    allChars_ite allChars_nil (allChars_ite (lineChars_signedHex _) (lineChars_signedHex _))
  have hindex : ∀ r, LineChars (s.indexText ea.scale r) := by
    intro r
    have hscale : LineChars (dec ea.scale.factor) :=
      fun _ hc => isLineChar_of_isHex (isHex_of_mem_dec hc)
    exact (hcomma.append (hreg r)).append (allChars_ite allChars_nil (hcomma.append hscale))
  have hsib : LineChars (s.sibText ea) :=
    (allChars_ite (forall_chars (by decide)) (allChars_elim fun r _ => hreg r)).append
      (allChars_elim fun r _ => hindex r)
  have hopen : LineChars "(".toList := forall_chars (by decide)
  have hclose : LineChars ")".toList := forall_chars (by decide)
  exact (hseg.append hdisp).append
    (allChars_ite allChars_nil ((hopen.append hsib).append hclose))

theorem lineChars_operandText {x : Size × Operand} (h : x.2.Fits x.1) :
    LineChars (s.operandText x) := by
  obtain ⟨sz, o⟩ := x
  cases o with
  | reg r high8 => exact lineChars_regText h
  | imm v => exact .cons rfl (lineChars_signedHex _)
  | mem ea => exact s.lineChars_memText ea

/-- The symbol behind a branch target fits on a line. -/
def SymbolFits : Prop := ∀ t ∈ s.symbol, LineChars t

theorem lineChars_directText (hs : s.SymbolFits) (ta : Val) : LineChars (s.directText ta) := by
  have hopen : LineChars " <".toList := forall_chars (by decide)
  have hclose : LineChars ">".toList := forall_chars (by decide)
  refine AllChars.append (.append ?_ (lineChars_hex _))
    (allChars_elim fun t ht => (hopen.append (hs t ht)).append hclose)
  unfold hexMark
  cases s.tool
  · exact forall_chars (by decide)
  · exact allChars_nil

end Spelling

/-! ## Printed mnemonics -/

/-- Letters and digits, at least one. -/
structure Word (t : Str) : Prop where
  ne : t ≠ []
  chars : AllChars isNameChar t

theorem Word.append {t u : Str} (ht : Word t) (hu : AllChars isNameChar u) : Word (t ++ u) :=
  ⟨List.append_ne_nil_of_left_ne_nil ht.ne _, ht.chars.append hu⟩

theorem Word.trimmed {t : Str} (ht : Word t) : Trimmed t :=
  trimmed_of_forall fun c hc => isSpace_of_isNameChar (ht.chars c hc)

theorem word_of_all {t : Str} (h : (t ≠ [] ∧ t.all isNameChar = true)) : Word t :=
  ⟨h.1, allChars_of_all h.2⟩

theorem word_ite {P : Prop} [Decidable P] {t u : Str} (ht : Word t) (hu : Word u) :
    Word (if P then t else u) := by
  by_cases h : P
  · rwa [if_pos h]
  · rwa [if_neg h]

/-- A text to put on a line, of which the whitespace at its ends is no part. -/
structure Piece (t : Str) : Prop where
  ne : t ≠ []
  trimmed : Trimmed t
  chars : LineChars t

theorem Word.piece {t : Str} (h : Word t) : Piece t :=
  ⟨h.ne, h.trimmed, h.chars.imp fun _ => isLineChar_of_isNameChar⟩

theorem Piece.append {t m u : Str} (ht : Piece t) (hm : LineChars m) (hu : Piece u) :
    Piece (t ++ m ++ u) :=
  ⟨List.append_ne_nil_of_right_ne_nil _ hu.ne, ht.trimmed.append hu.trimmed ht.ne hu.ne m,
    (ht.chars.append hm).append hu.chars⟩

theorem chars_suffixText (sz : Option Size) : AllChars isNameChar (suffixText sz) := by
  rcases sz with _ | _ | _ | _ | _ <;> exact allChars_of_all rfl

namespace Spelling

variable (s : Spelling)

/-- A mnemonic is one word, unless it is a string operation behind its prefix. -/
theorem word_mnemonic {op : Op} (h : ∀ r k sz, op ≠ .repstrop r k sz) : Word (s.mnemonic op) := by
  have hq : AllChars isNameChar s.branchSuffix := by
    unfold branchSuffix
    exact allChars_ite (allChars_of_all rfl) allChars_nil
  have hcc : ∀ cc : Cc, AllChars isNameChar cc.name := Named.chars
  have hsz := chars_suffixText
  cases op with
  | mov sz dst src => exact (word_ite (word_of_all (by decide)) (word_of_all (by decide))).append (hsz _)
  | bin k sz dst src => exact Word.append (by cases k <;> exact word_of_all (by decide)) (hsz _)
  | un k sz dst => exact Word.append (by cases k <;> exact word_of_all (by decide)) (hsz _)
  | shift k sz dst amt => exact Word.append (by cases k <;> exact word_of_all (by decide)) (hsz _)
  | lea sz dst ea => exact (word_of_all (by decide)).append (hsz _)
  | push sz src => exact (word_of_all (by decide)).append (hsz _)
  | pop sz dst => exact (word_of_all (by decide)).append (hsz _)
  | jmp t => exact (word_of_all (by decide)).append hq
  | jcc cc d => exact (word_of_all (by decide)).append (hcc cc)
  | rot k sz dst amt => exact Word.append (by cases k <;> exact word_of_all (by decide)) (hsz _)
  | bit k sz dst off => exact Word.append (by cases k <;> exact word_of_all (by decide)) (hsz _)
  | setcc cc dst => exact (word_of_all (by decide)).append (hcc cc)
  | cmov cc sz dst src => exact ((word_of_all (by decide)).append (hcc cc)).append (hsz _)
  | call t => exact (word_of_all (by decide)).append hq
  | movx k dsz ssz dst src =>
      have hmov : Word "mov".toList := word_of_all (by decide)
      refine word_ite (hmov.append ?_) (hmov.append ?_)
      · cases k <;> exact allChars_of_all rfl
      · cases k <;> cases ssz <;> cases dsz <;> exact allChars_of_all rfl
  | cext k =>
      have hcltq : Word "cltq".toList := word_of_all (by decide)
      exact hcltq
  | bswap sz dst => exact (word_of_all (by decide)).append (hsz _)
  | nop dst => exact (word_of_all (by decide)).append (hsz _)
  | ret => exact (word_of_all (by decide)).append hq
  | bitcnt k sz dst src => exact Word.append (by cases k <;> exact word_of_all (by decide)) (hsz _)
  | repstrop r k sz => exact absurd rfl (h r k sz)
  | muldiv k sz src => exact Word.append (by cases k <;> exact word_of_all (by decide)) (hsz _)
  | imulr sz dst src imm => exact (word_of_all (by decide)).append (hsz _)
  | dshift k sz dst src amt => exact Word.append (by cases k <;> exact word_of_all (by decide)) (hsz _)

theorem piece_mnemonic (op : Op) : Piece (s.mnemonic op) := by
  by_cases h : ∃ r k sz, op = .repstrop r k sz
  · obtain ⟨r, k, sz, rfl⟩ := h
    have hpre : Word r.name := by cases r <;> exact word_of_all (by decide)
    have hname : Word k.name := by cases k <;> exact word_of_all (by decide)
    have hgap : LineChars s.gap := fun c hc => isLineChar_of_isBlank (s.gap_blank c hc)
    have h := hpre.piece.append hgap (hname.append (chars_suffixText (s.stringSuffix k sz))).piece
    rw [← List.append_assoc] at h
    exact h
  · exact (s.word_mnemonic fun r k sz heq => h ⟨r, k, sz, heq⟩).piece

/-! ## Printed instructions -/

theorem piece_operandText {x : Size × Operand} (h : x.2.Fits x.1) : Piece (s.operandText x) :=
  have htok := s.token_operandText h
  ⟨htok.ne, htok.trimmed, s.lineChars_operandText h⟩

theorem piece_targetText (hs : s.SymbolFits) (next : Nat) {t : JmpTarget}
    (ht : ∀ x ∈ t.sized, x.2.Fits x.1) : Piece (s.targetText next t) := by
  cases t with
  | rel d =>
      obtain ⟨htrim, hne, -⟩ := directText_trimmed s (BitVec.ofNat 64 next + d)
      exact ⟨hne, htrim, s.lineChars_directText hs _⟩
  | indirect o =>
      have hfits : o.Fits .q := ht (.q, o) List.mem_cons_self
      obtain ⟨htrim, hne⟩ := indirect_trimmed s next hfits
      exact ⟨hne, htrim, .cons rfl (s.lineChars_operandText hfits)⟩

theorem piece_stringTokens (k : StringOp) (sz : Size) : ∀ t ∈ s.stringTokens k sz, Piece t := by
  obtain ⟨t, u, htoks, htok, -, -⟩ := stringTokens_tokens s k sz
  have hchars : ∀ t ∈ s.stringTokens k sz, LineChars t := by
    unfold stringTokens sourceSeg
    intro t ht
    cases hk : k <;> cases htool : s.tool <;> cases sz <;>
      simp only [hk, htool, List.mem_cons, List.not_mem_nil, or_false] at ht <;>
      rcases ht with rfl | rfl <;> exact allChars_of_all (by decide)
  intro t ht
  have h := htok t (htoks ▸ ht)
  exact ⟨h.ne, h.trimmed, hchars t ht⟩

/-- Every operand of an instruction of the core is printed as a piece of its own. -/
theorem piece_tokens (hs : s.SymbolFits) (next : Nat) {op : Op} (h : Core op) :
    ∀ t ∈ s.tokens next op, Piece t := by
  by_cases hread : op.readsOperands = true
  · rw [tokens_of_reads s next hread]
    intro t ht
    obtain ⟨x, hx, rfl⟩ := List.mem_map.mp ht
    exact s.piece_operandText (s.fits_operands h x hx)
  · have hone : ∀ {t : Str}, Piece t → ∀ u ∈ [t], Piece u := by
      intro t ht u hu
      rwa [List.mem_singleton.mp hu]
    cases op with
    | jmp t => exact hone (s.piece_targetText hs next h.fits)
    | call t => exact hone (s.piece_targetText hs next h.fits)
    | jcc cc d => exact hone (s.piece_targetText hs next (t := .rel d) (by simp [JmpTarget.sized]))
    | ret => exact fun t ht => by cases ht
    | repstrop r k sz => exact s.piece_stringTokens k sz
    | _ => exact absurd rfl hread

theorem piece_joined {toks : List Str} (hne : toks ≠ []) (htoks : ∀ t ∈ toks, Piece t) :
    Piece ((",".toList ++ s.sep).intercalate toks) := by
  have hsep : LineChars (",".toList ++ s.sep) :=
    (allChars_of_all rfl).append fun c hc => isLineChar_of_isBlank (s.sep_blank c hc)
  induction toks with
  | nil => exact absurd rfl hne
  | cons t toks ih =>
      obtain ⟨ht, htoks⟩ := List.forall_mem_cons.mp htoks
      cases toks with
      | nil => rwa [List.intercalate_singleton]
      | cons u toks =>
          rw [List.intercalate_cons_cons]
          exact ht.append hsep (ih (List.cons_ne_nil _ _) htoks)

/-- **The text of an instruction of the core fits on a line.** -/
theorem body_text (hs : s.SymbolFits) (addr n : Nat) {op : Op} (h : Core op) :
    LineText (s.body addr n op) := by
  have hpiece : Piece (s.body addr n op) := by
    unfold body lineText
    by_cases hnil : s.tokens (addr + n) op = []
    · rw [if_pos hnil]
      exact s.piece_mnemonic op
    · rw [if_neg hnil]
      have hgap : LineChars s.gap := fun c hc => isLineChar_of_isBlank (s.gap_blank c hc)
      exact (s.piece_mnemonic op).append hgap (s.piece_joined hnil (s.piece_tokens hs _ h))
  have hchars : ∀ c ∈ s.body addr n op, isLineBreak c = false ∧ c ≠ '#' := by
    intro c hc
    simpa [isLineChar] using hpiece.chars c hc
  exact ⟨hpiece.ne, hpiece.trimmed, fun c hc => (hchars c hc).1, fun hc => (hchars _ hc).2 rfl⟩

/-- The spelling of another disassembler. -/
def withTool (tool : Tool) : Spelling := { s with tool := tool }

end Spelling

/-! ## Blocks of instructions of the core -/

/-- An instruction of the core, its encoding and its spelling. -/
structure CoreInsn where
  op : Op
  bytes : List UInt8
  spelling : Spelling
  core : Core op
  bytes_pos : 1 ≤ bytes.length
  bytes_le : bytes.length ≤ 15
  lock_bytes : op.lock = true → 2 ≤ bytes.length
  symbol_fits : spelling.SymbolFits

/-- The instruction with its length. -/
def CoreInsn.instr (i : CoreInsn) : Instr := ⟨i.op, i.bytes.length⟩

/-- The instruction as it is printed at an address. -/
def CoreInsn.insn (i : CoreInsn) (tool : Tool) (addr : Nat) : Insn where
  bytes := i.bytes
  lock := i.op.lock
  body := (i.spelling.withTool tool).body addr i.bytes.length i.op
  bytes_pos := i.bytes_pos
  bytes_le := i.bytes_le
  lock_bytes := i.lock_bytes
  body_text := (i.spelling.withTool tool).body_text i.symbol_fits _ _ i.core

/-- Instructions printed one behind the other. -/
def insnsAt (tool : Tool) (addr : Nat) : List CoreInsn → List Insn
  | [] => []
  | i :: is => i.insn tool addr :: insnsAt tool (addr + i.bytes.length) is

theorem CoreInsn.text_insn (i : CoreInsn) (tool : Tool) (addr : Nat) :
    (i.insn tool addr).text = (i.spelling.withTool tool).print addr i.bytes.length i.op := by
  let body := (i.spelling.withTool tool).body addr i.bytes.length i.op
  show (if i.op.lock then "lock ".toList ++ body else body) =
    (if i.op.lock then "lock ".toList else []) ++ body
  by_cases hlock : i.op.lock = true
  · rw [if_pos hlock, if_pos hlock]
  · rw [if_neg hlock, if_neg hlock, List.nil_append]

/-- No instruction of the core is printed as a bare `lock`. -/
theorem print_ne_lock (s : Spelling) (addr n : Nat) {op : Op} (h : Core op) :
    s.print addr n op ≠ "lock".toList := by
  intro hlock
  have hread := @translateOp_print UnicodeDB.ascii s addr n op (s.printable_of_core h)
  rw [hlock] at hread
  cases hread

theorem mem_insnsAt {tool : Tool} {addr : Nat} {is : List CoreInsn} {j : Insn}
    (hj : j ∈ insnsAt tool addr is) : ∃ i ∈ is, ∃ a, j = i.insn tool a := by
  induction is generalizing addr with
  | nil => cases hj
  | cons i is ih =>
      rcases List.mem_cons.mp hj with rfl | hj
      · exact ⟨i, List.mem_cons_self, addr, rfl⟩
      · obtain ⟨i', hi', a, rfl⟩ := ih hj
        exact ⟨i', List.mem_cons_of_mem _ hi', a, rfl⟩

/-- A label with the instructions behind it. -/
structure CoreBlock where
  label : Str
  start : Nat
  insns : List CoreInsn
  label_ne : label ≠ []
  label_line : ∀ c ∈ label, isLineBreak c = false ∧ c ≠ '>'

/-- The block as it is printed. -/
def CoreBlock.code (b : CoreBlock) (tool : Tool) : CodeBlock where
  label := b.label
  start := b.start
  insns := insnsAt tool b.start b.insns
  label_ne := b.label_ne
  label_line := b.label_line
  bare_lock := by
    intro j hj
    obtain ⟨i, -, a, rfl⟩ := mem_insnsAt (List.mem_of_mem_dropLast hj)
    rw [i.text_insn]
    exact print_ne_lock _ _ _ i.core

/-- The instructions of a block from its address on. -/
def CoreBlock.segment (b : CoreBlock) : Segment Instr := ⟨b.start, b.insns.map CoreInsn.instr⟩

/-- The instructions of a block, each at its address. -/
def CoreBlock.program (b : CoreBlock) : List (Nat × Instr) :=
  place Instr.len b.start (b.insns.map CoreInsn.instr)

/-- The listing of blocks. -/
def coreListing (tool : Tool) (lay : Layout) (file : OneLine) (bs : List CoreBlock) : Str :=
  listingText tool lay file (bs.map fun b => (b.code tool).raw)

/-- An entry of a listing is translated to an instruction at its address. -/
def Translates [UnicodeDB] (i : Ins) (p : Nat × Instr) : Prop :=
  i.addr = p.1 ∧ translate i.addr i.len i.text = .ok p.2.term

theorem translates_entries [UnicodeDB] (tool : Tool) (is : List CoreInsn) (addr : Nat) :
    List.Forall₂ Translates (entries addr ((insnsAt tool addr is).map Insn.toRawInsn))
      (place Instr.len addr (is.map CoreInsn.instr)) := by
  induction is generalizing addr with
  | nil => exact .nil
  | cons i is ih =>
      refine .cons ⟨rfl, ?_⟩ (ih _)
      show translate addr i.bytes.length (i.insn tool addr).text = _
      rw [i.text_insn]
      exact translate_print _ _ _ i.core

/-- **A printed listing is read back**: one block for each, and each entry is translated to the
instruction that was printed there. -/
theorem parseListing_core [UnicodeDB] (tool : Tool) (lay : Layout) (file : OneLine)
    (bs : List CoreBlock) : ∃ listing, parseListing (coreListing tool lay file bs) = .ok listing ∧
      List.Forall₂ (fun l b => l.1 = b.label ∧ List.Forall₂ Translates l.2 b.program) listing bs := by
  obtain ⟨hparse, -⟩ := parseListing_listingText tool lay file (bs.map (CoreBlock.code · tool))
  rw [List.map_map] at hparse
  refine ⟨_, hparse, ?_⟩
  rw [List.map_map, List.forall₂_map_left_iff, List.forall₂_same]
  exact fun b _ => ⟨rfl, translates_entries tool b.insns b.start⟩

end X86Scripts
