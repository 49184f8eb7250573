import X86Scripts.AsmFront.OperandReads
import X86Scripts.AsmFront.Disasm

/-!
# Reading printed operands

* `Scans`, `Token`: texts that the loop of `_split_operands` goes through in one piece.
* **`splitOperands_joined`**: tokens behind commas are split as they were joined.
* `Spelling.parts`: the pieces of a printed address.
* **`reads_operandText`**: a printed operand stands for the operand it was printed from.
-/

namespace X86Scripts

open X86Scripts.Regex
open X86Scripts.Py
open X86Scripts.Digits

/-! ## Splitting joined tokens -/

/-- The loop of `_split_operands` goes through the text without splitting it. -/
def Scans (tok : Str) : Prop :=
  ∀ parts cur, tok.foldl splitStep ⟨parts, 0, cur⟩ = ⟨parts, 0, cur ++ tok⟩

/-- A text without a parenthesis, and without a comma at depth 0. -/
theorem foldl_splitStep_plain {w : Str} {depth : Int}
    (hw : ∀ c ∈ w, c ≠ '(' ∧ c ≠ ')' ∧ (c = ',' → depth ≠ 0)) (parts : List Str) (cur : Str) :
    w.foldl splitStep ⟨parts, depth, cur⟩ = ⟨parts, depth, cur ++ w⟩ := by
  induction w generalizing cur with
  | nil => rw [List.append_nil]; rfl
  | cons c w ih =>
      obtain ⟨⟨hopen, hclose, hcomma⟩, hw⟩ := List.forall_mem_cons.mp hw
      have hstep : splitStep ⟨parts, depth, cur⟩ c = ⟨parts, depth, cur ++ [c]⟩ := by
        unfold splitStep
        simp only [if_neg hopen, if_neg hclose]
        rw [if_neg fun h => hcomma h.1 h.2]
      rw [List.foldl_cons, hstep, ih hw, List.append_assoc]
      rfl

theorem scans_plain {w : Str} (hw : ∀ c ∈ w, c ≠ '(' ∧ c ≠ ')' ∧ c ≠ ',') : Scans w :=
  foldl_splitStep_plain fun c hc => ⟨(hw c hc).1, (hw c hc).2.1, fun h => absurd h (hw c hc).2.2⟩

/-- Inside parentheses there may be commas. -/
theorem scans_paren {a b : Str} (ha : ∀ c ∈ a, c ≠ '(' ∧ c ≠ ')' ∧ c ≠ ',')
    (hb : ∀ c ∈ b, c ≠ '(' ∧ c ≠ ')') : Scans (a ++ ("(".toList ++ b ++ ")".toList)) := by
  intro parts cur
  have hopen : ∀ cur, "(".toList.foldl splitStep ⟨parts, 0, cur⟩ = ⟨parts, 1, cur ++ "(".toList⟩ :=
    fun _ => rfl
  have hinner : ∀ cur, b.foldl splitStep ⟨parts, 1, cur⟩ = ⟨parts, 1, cur ++ b⟩ := by
    apply foldl_splitStep_plain
    exact fun c hc => ⟨(hb c hc).1, (hb c hc).2, fun _ => Int.one_ne_zero⟩
  have hclose : ∀ cur, ")".toList.foldl splitStep ⟨parts, 1, cur⟩ = ⟨parts, 0, cur ++ ")".toList⟩ :=
    fun _ => rfl
  rw [List.foldl_append, scans_plain ha, List.foldl_append, List.foldl_append, hopen, hinner, hclose]
  simp only [List.append_assoc]

/-- A text that is split off as it stands. -/
structure Token (tok : Str) : Prop where
  ne : tok ≠ []
  trimmed : Trimmed tok
  scans : Scans tok

/-- What `_split_operands` makes of the state behind its loop. -/
def Split.done (st : Split) : List Str :=
  if strip st.cur = [] then st.parts else st.parts ++ [strip st.cur]

theorem strip_blank_append {w t : Str} (hw : ∀ c ∈ w, isSpace c = true) (ht : Trimmed t) :
    strip (w ++ t) = t := by
  have h := stripBy_pad (b := []) ht hw (by simp)
  rwa [List.append_nil] at h

/-- The state behind joined tokens: all but the last are split off. -/
theorem foldl_joined {sep : Str} (hsep : ∀ c ∈ sep, isSpace c = true) (toks : List Str) :
    ∀ (tok : Str) (parts : List Str) (w : Str), (∀ c ∈ w, isSpace c = true) →
      (∀ t ∈ tok :: toks, Token t) →
      (((",".toList ++ sep).intercalate (tok :: toks)).foldl splitStep ⟨parts, 0, w⟩).done =
        parts ++ tok :: toks := by
  induction toks with
  | nil =>
      intro tok parts w hw htoks
      have htok := htoks tok List.mem_cons_self
      rw [List.intercalate_singleton, htok.scans, Split.done, strip_blank_append hw htok.trimmed,
        if_neg htok.ne]
  | cons tok' toks ih =>
      intro tok parts w hw htoks
      obtain ⟨htok, htoks⟩ := List.forall_mem_cons.mp htoks
      -- the comma ends the first token, the blanks behind it stay in front of the next
      have hcomma : splitStep ⟨parts, 0, w ++ tok⟩ ',' = ⟨parts ++ [tok], 0, []⟩ := by
        have hstep : splitStep ⟨parts, 0, w ++ tok⟩ ',' = ⟨parts ++ [strip (w ++ tok)], 0, []⟩ := rfl
        rw [hstep, strip_blank_append hw htok.trimmed]
      have hblank : sep.foldl splitStep ⟨parts ++ [tok], 0, []⟩ = ⟨parts ++ [tok], 0, sep⟩ := by
        apply foldl_splitStep_plain
        intro c hc
        refine ⟨?_, ?_, ?_⟩ <;> rintro rfl <;> cases hsep _ hc
      rw [List.intercalate_cons_cons, List.foldl_append, List.foldl_append, htok.scans,
        List.foldl_append]
      show (List.foldl splitStep (sep.foldl splitStep (splitStep ⟨parts, 0, w ++ tok⟩ ',')) _).done = _
      rw [hcomma, hblank, ih tok' (parts ++ [tok]) sep hsep htoks, List.append_assoc]
      rfl

/-- **Joined tokens are split as they were joined.** -/
theorem splitOperands_joined {sep : Str} (hsep : ∀ c ∈ sep, isSpace c = true) {toks : List Str}
    (htoks : ∀ t ∈ toks, Token t) :
    splitOperands ((",".toList ++ sep).intercalate toks) = toks := by
  cases toks with
  | nil => rfl
  | cons tok toks => exact foldl_joined hsep toks tok [] [] (by simp) htoks

/-! ## Printed numbers -/

theorem signedHex_eq (i : Int) :
    signedHex i = (if i < 0 then ['-'] else []) ++ ("0x".toList ++ hex i.natAbs) := by
  unfold signedHex
  split <;> rfl

theorem isDispChar_of_mem_signedHex {i : Int} {c : Char} (hc : c ∈ signedHex i) :
    isDispChar c = true := by
  rw [signedHex_eq] at hc
  unfold isDispChar
  rcases List.mem_append.mp hc with hc | hc
  · split at hc
    · rw [List.mem_singleton.mp hc]
      rfl
    · cases hc
  · rcases List.mem_append.mp hc with hc | hc
    · have hall : ∀ c ∈ "0x".toList, (c == '-' || isHex c || c == 'x') = true :=
        forall_chars (by decide)
      exact hall c hc
    · simp [isHex_of_mem_hex hc]

theorem signedHex_ne_nil (i : Int) : signedHex i ≠ [] := by
  rw [signedHex_eq]
  simp

theorem isSpace_of_isDispChar {c : Char} (h : isDispChar c = true) : isSpace c = false := by
  unfold isDispChar at h
  simp only [Bool.or_eq_true, beq_iff_eq] at h
  rcases h with (rfl | h) | rfl
  · rfl
  · exact isSpace_of_isHex h
  · rfl

/-- The characters of a displacement are none of those that end one. -/
theorem ne_of_isDispChar {c d : Char} (h : isDispChar c = true) (hd : isDispChar d = false) : c ≠ d := by
  rintro rfl
  rw [h] at hd
  cases hd

theorem trimmed_signedHex (i : Int) : Trimmed (signedHex i) :=
  trimmed_of_forall fun _ hc => isSpace_of_isDispChar (isDispChar_of_mem_signedHex hc)

/-- **A printed number is read back.** -/
theorem num_signedHex [UnicodeDB] (i : Int) : num (signedHex i) = .ok i := by
  have hsub : hasSub "0x".toList (signedHex i) = true := by
    unfold hasSub
    rw [List.any_eq_true]
    refine ⟨"0x".toList ++ hex i.natAbs, ?_, ?_⟩
    · rw [List.mem_tails, signedHex_eq]
      exact List.suffix_append _ _
    · exact List.isPrefixOf_iff_prefix.mpr (List.prefix_append _ _)
  have hdrop : (signedHex i).dropWhile (· == '-') = "0x".toList ++ hex i.natAbs := by
    rw [signedHex_eq]
    split <;> rfl
  unfold num
  dsimp only
  rw [strip_of_trimmed (trimmed_signedHex i), hsub, hdrop, if_pos rfl, pyInt, parseInt_0x_hex,
    signedHex_eq]
  by_cases hi : i < 0
  · simp only [if_pos hi]
    show Except.ok (-(i.natAbs : Int)) = _
    congr 1
    omega
  · simp only [if_neg hi]
    show Except.ok (i.natAbs : Int) = _
    congr 1
    omega

/-! ## Printed registers -/

/-- The characters of a register name. -/
def isRegChar (c : Char) : Bool := ('a' ≤ c && c ≤ 'z') || ('0' ≤ c && c ≤ '9')

theorem isRegChar_name {r : GPR} {sz : Size} {high8 : Bool} (h : RegView r sz high8) {c : Char}
    (hc : c ∈ r.name sz high8) : isRegChar c = true := by
  have hall : ∀ r ∈ GPR.all, ∀ sz ∈ [Size.b, .w, .d, .q], ∀ high8 ∈ [false, true],
      RegView r sz high8 → ((r.name sz high8).all isRegChar) = true := by
    decide +kernel
  exact List.all_eq_true.mp
    (hall r r.mem_all sz (by cases sz <;> simp) high8 (by cases high8 <;> simp) h) c hc

theorem name_ne_nil (r : GPR) (sz : Size) (high8 : Bool) : r.name sz high8 ≠ [] := by
  cases high8 <;> cases r <;> cases sz <;> decide

theorem ne_of_isRegChar {c d : Char} (h : isRegChar c = true) (hd : isRegChar d = false) : c ≠ d := by
  rintro rfl
  rw [h] at hd
  cases hd

theorem isRegChar_lt {c : Char} (h : isRegChar c = true) : c.toNat < 128 := by
  simp only [isRegChar, Bool.or_eq_true, Bool.and_eq_true, decide_eq_true_eq] at h
  have hz : 'z'.toNat = 122 := rfl
  have h9 : '9'.toNat = 57 := rfl
  rcases h with ⟨-, h⟩ | ⟨-, h⟩ <;> have := UInt32.le_iff_toNat_le.mp h
  · have : c.toNat ≤ 'z'.toNat := this
    omega
  · have : c.toNat ≤ '9'.toNat := this
    omega

theorem isSpace_of_isRegChar {c : Char} (h : isRegChar c = true) : isSpace c = false := by
  simp only [isRegChar, Bool.or_eq_true, Bool.and_eq_true, decide_eq_true_eq] at h
  have ha : 'a'.toNat = 97 := rfl
  have hz : 'z'.toNat = 122 := rfl
  have h0 : '0'.toNat = 48 := rfl
  have h9 : '9'.toNat = 57 := rfl
  have hrange : 48 ≤ c.toNat ∧ c.toNat ≤ 122 := by
    rcases h with ⟨hlo, hhi⟩ | ⟨hlo, hhi⟩
    · have hlo : 'a'.toNat ≤ c.toNat := UInt32.le_iff_toNat_le.mp hlo
      have hhi : c.toNat ≤ 'z'.toNat := UInt32.le_iff_toNat_le.mp hhi
      omega
    · have hlo : '0'.toNat ≤ c.toNat := UInt32.le_iff_toNat_le.mp hlo
      have hhi : c.toNat ≤ '9'.toNat := UInt32.le_iff_toNat_le.mp hhi
      omega
  unfold isSpace
  simp only [Bool.or_eq_false_iff, Bool.and_eq_false_iff, decide_eq_false_iff_not, beq_eq_false_iff_ne]
  omega

theorem isWord_of_isRegChar [UnicodeDB] {c : Char} (h : isRegChar c = true) : isWord c = true := by
  unfold isWord
  rw [if_pos (isRegChar_lt h)]
  simp only [isRegChar, Bool.or_eq_true, Bool.and_eq_true, decide_eq_true_eq] at h
  simp only [Char.isAlphanum, Char.isAlpha, Char.isLower, Char.isDigit, Bool.or_eq_true,
    Bool.and_eq_true, decide_eq_true_eq]
  rcases h with h | h
  · exact Or.inl (Or.inl (Or.inr h))
  · exact Or.inl (Or.inr h)

/-! ## Printed addresses -/

theorem scale_factor (scale : Scale) : ∃ c, dec scale.factor = [c] ∧ isScaleDigit c = true ∧
    scaleOf (some [c]) = .ok scale := by
  cases scale
  · exact ⟨'1', by decide, by decide, rfl⟩
  · exact ⟨'2', by decide, by decide, rfl⟩
  · exact ⟨'4', by decide, by decide, rfl⟩
  · exact ⟨'8', by decide, by decide, rfl⟩

theorem seg_name_mem (seg : Seg) : seg.name ∈ segNames := by cases seg <;> decide

theorem regView_q (r : GPR) : RegView r .q false := by rintro ⟨⟩

namespace Spelling

variable (s : Spelling)

/-- No register stands in the address. -/
abbrev Bare (ea : Ea) : Prop := ea.base = none ∧ ea.index = none ∧ ea.ripRel = false

/-- The scale digit that is printed. -/
def scaleDigit (scale : Scale) : Option Char :=
  if scale = .s1 ∧ s.unitScale = false then none else (dec scale.factor).head?

/-- The pieces of a printed address. -/
def parts (ea : Ea) : MemParts :=
  (ea.seg.map Seg.name, s.dispText ea,
    if Bare ea then none
    else some (if ea.ripRel then some "rip".toList else ea.base.map fun r => r.name .q,
      ea.index.map fun r => (r.name .q, s.scaleDigit ea.scale)))

/-- The displacement is left out, being 0 in front of registers, or a number that stands for it. -/
theorem dispText_cases (ea : Ea) : (s.dispText ea = [] ∧ ea.disp = 0 ∧ ¬Bare ea) ∨
    ∃ i, s.dispText ea = signedHex i ∧ BitVec.ofInt 64 i = ea.disp := by
  unfold dispText
  dsimp only
  split
  · rename_i h
    exact Or.inl ⟨rfl, h.1, h.2.2⟩
  · right
    split
    · refine ⟨_, rfl, ?_⟩
      rw [BitVec.ofInt_natCast, BitVec.ofNat_toNat, BitVec.setWidth_eq]
    · exact ⟨_, rfl, BitVec.ofInt_toInt⟩

theorem isDispChar_of_mem_dispText {ea : Ea} {c : Char} (hc : c ∈ s.dispText ea) :
    isDispChar c = true := by
  rcases s.dispText_cases ea with ⟨h, -, -⟩ | ⟨i, h, -⟩
  · rw [h] at hc
    cases hc
  · exact isDispChar_of_mem_signedHex (h ▸ hc)

/-- An address without registers shows its displacement. -/
theorem dispText_ne_nil {ea : Ea} (h : Bare ea) : s.dispText ea ≠ [] := by
  rcases s.dispText_cases ea with ⟨-, -, hbare⟩ | ⟨i, hi, -⟩
  · exact absurd h hbare
  · rw [hi]
    exact signedHex_ne_nil i

theorem indexText_eq [UnicodeDB] (scale : Scale) (index : GPR) :
    s.indexText scale index = indexGrammar.text (some (index.name .q, s.scaleDigit scale)) := by
  unfold indexText scaleDigit regText
  obtain ⟨c, hc, -, -⟩ := scale_factor scale
  rw [hc]
  split <;>
    simp [indexGrammar, nameGrammar, Grammar.after, Grammar.opt, Grammar.seq, Grammar.grp,
      Grammar.cls, Grammar.run1]

theorem memText_eq [UnicodeDB] (ea : Ea) : s.memText ea = memGrammar.text (s.parts ea) := by
  have hseg : (ea.seg.elim [] fun seg => "%".toList ++ seg.name ++ ":".toList) =
      segGrammar.text (ea.seg.map Seg.name) := by
    cases ea.seg with
    | none => rfl
    | some seg => rfl
  have hindex : ea.index.elim [] (s.indexText ea.scale) =
      indexGrammar.text (ea.index.map fun r => (r.name .q, s.scaleDigit ea.scale)) := by
    cases ea.index with
    | none => rfl
    | some r => exact s.indexText_eq ea.scale r
  unfold memText parts
  rw [hseg]
  by_cases hbare : Bare ea
  · rw [if_pos hbare, if_pos hbare, List.append_nil]
    show _ = segGrammar.text _ ++ (s.dispText ea ++ [])
    rw [List.append_nil]
  · have hbase : (if ea.ripRel then "%rip".toList else ea.base.elim [] fun r => regText r .q false) =
        (nameGrammar.grp 3).opt.text
          (if ea.ripRel then some "rip".toList else ea.base.map fun r => r.name .q) := by
      cases ea.ripRel with
      | true => rfl
      | false =>
          cases ea.base with
          | none => rfl
          | some r => rfl
    rw [if_neg hbare, if_neg hbare, sibText, hbase, hindex, List.append_assoc]
    rfl

theorem wf_parts [UnicodeDB] (ea : Ea) : memGrammar.wf (s.parts ea) := by
  have hname : ∀ r : GPR, nameGrammar.wf (r.name .q) :=
    fun r => ⟨name_ne_nil r .q false, fun c hc => isWord_of_isRegChar (isRegChar_name (regView_q r) hc)⟩
  refine ⟨?_, fun c hc => s.isDispChar_of_mem_dispText hc, ?_⟩
  · intro t ht
    obtain ⟨seg, -, rfl⟩ := Option.map_eq_some_iff.mp ht
    exact seg_name_mem seg
  · intro x hx
    unfold parts at hx
    dsimp only at hx
    by_cases hbare : Bare ea
    · rw [if_pos hbare] at hx
      cases hx
    · rw [if_neg hbare] at hx
      obtain rfl := Option.some.inj hx
      constructor
      · intro t ht
        dsimp only at ht
        split at ht
        · obtain rfl := Option.some.inj ht
          have hall : ∀ c ∈ "rip".toList, isRegChar c = true := forall_chars (by decide)
          exact ⟨by decide, fun c hc => isWord_of_isRegChar (hall c hc)⟩
        · obtain ⟨r, -, rfl⟩ := Option.map_eq_some_iff.mp ht
          exact hname r
      · intro y hy
        obtain ⟨r, -, rfl⟩ := Option.map_eq_some_iff.mp hy
        refine ⟨hname r, fun d hd => ?_⟩
        obtain ⟨c, hc, hdigit, -⟩ := scale_factor ea.scale
        change s.scaleDigit ea.scale = some d at hd
        unfold scaleDigit at hd
        split at hd
        · cases hd
        · rw [hc] at hd
          obtain rfl := Option.some.inj hd
          exact hdigit

/-- The characters of an address in front of its parenthesis. -/
theorem lead_chars {ea : Ea} {c : Char}
    (hc : c ∈ (ea.seg.elim [] fun seg => "%".toList ++ seg.name ++ ":".toList) ++ s.dispText ea) :
    isSpace c = false ∧ c ≠ '(' ∧ c ≠ ')' ∧ c ≠ ',' := by
  rcases List.mem_append.mp hc with hc | hc
  · cases hseg : ea.seg with
    | none =>
        rw [hseg] at hc
        cases hc
    | some seg =>
        rw [hseg] at hc
        have hall : ∀ seg ∈ [Seg.fs, .gs], (("%".toList ++ seg.name ++ ":".toList).all fun c =>
            !isSpace c && c != '(' && c != ')' && c != ',') = true := by decide
        have hmem : seg ∈ [Seg.fs, .gs] := by cases seg <;> decide
        have h := List.all_eq_true.mp (hall seg hmem) c hc
        simp only [Bool.and_eq_true, Bool.not_eq_true', bne_iff_ne, ne_eq] at h
        exact ⟨h.1.1.1, h.1.1.2, h.1.2, h.2⟩
  · have h := s.isDispChar_of_mem_dispText hc
    exact ⟨isSpace_of_isDispChar h, ne_of_isDispChar h rfl, ne_of_isDispChar h rfl,
      ne_of_isDispChar h rfl⟩

/-- The characters inside the parentheses. -/
theorem sib_chars {ea : Ea} {c : Char} (hc : c ∈ s.sibText ea) :
    isSpace c = false ∧ c ≠ '(' ∧ c ≠ ')' := by
  have hreg : ∀ {r : GPR}, c ∈ regText r .q false → isSpace c = false ∧ c ≠ '(' ∧ c ≠ ')' := by
    intro r hc
    rcases List.mem_cons.mp hc with rfl | hc
    · exact ⟨rfl, by decide, by decide⟩
    · have h := isRegChar_name (regView_q r) hc
      exact ⟨isSpace_of_isRegChar h, ne_of_isRegChar h rfl, ne_of_isRegChar h rfl⟩
  have hcomma : c ∈ ",".toList → isSpace c = false ∧ c ≠ '(' ∧ c ≠ ')' := by
    intro hc
    rw [List.mem_singleton.mp hc]
    exact ⟨rfl, by decide, by decide⟩
  rcases List.mem_append.mp hc with hc | hc
  · split at hc
    · have hall : ∀ c ∈ "%rip".toList, isSpace c = false ∧ c ≠ '(' ∧ c ≠ ')' :=
        forall_chars (by decide)
      exact hall c hc
    · cases hbase : ea.base with
      | none =>
          rw [hbase] at hc
          cases hc
      | some r =>
          rw [hbase] at hc
          exact hreg hc
  · cases hindex : ea.index with
    | none =>
        rw [hindex] at hc
        cases hc
    | some r =>
        rw [hindex] at hc
        change c ∈ s.indexText ea.scale r at hc
        unfold indexText at hc
        rcases List.mem_append.mp hc with hc | hc
        · rcases List.mem_append.mp hc with hc | hc
          · exact hcomma hc
          · exact hreg hc
        · split at hc
          · cases hc
          · rcases List.mem_append.mp hc with hc | hc
            · exact hcomma hc
            · have h := isHex_of_mem_dec hc
              refine ⟨isSpace_of_isHex h, ?_, ?_⟩ <;> rintro rfl <;> cases h

theorem memText_space {ea : Ea} {c : Char} (hc : c ∈ s.memText ea) : isSpace c = false := by
  rcases List.mem_append.mp hc with hc | hc
  · exact (s.lead_chars hc).1
  · split at hc
    · cases hc
    · rcases List.mem_append.mp hc with hc | hc
      · rcases List.mem_append.mp hc with hc | hc
        · rw [List.mem_singleton.mp hc]
          rfl
        · exact (s.sib_chars hc).1
      · rw [List.mem_singleton.mp hc]
        rfl

/-- **The pieces of a printed address denote the address**, without its `lock`. -/
theorem denotes_parts [UnicodeDB] {ea : Ea} (h : (Operand.mem ea).Fits .q) :
    Denotes (s.parts ea) { ea with lock := false } := by
  obtain ⟨hrsp, hscale⟩ := h
  have haddr : ∀ r : GPR, AddrName (r.name .q) r := fun r => REGS_name (regView_q r)
  have hbase : (s.parts ea).base =
      if Bare ea then none else if ea.ripRel then some "rip".toList else ea.base.map fun r => r.name .q := by
    unfold parts MemParts.base
    split <;> rfl
  have hindex : (s.parts ea).index = ea.index.map fun r => r.name .q := by
    unfold parts MemParts.index
    dsimp only
    split
    · rename_i hbare
      rw [hbare.2.1]
      rfl
    · cases ea.index <;> rfl
  refine ⟨?_, ?_, ?_, ?_, ?_, rfl⟩
  · by_cases hbare : Bare ea
    · exact Or.inl (s.dispText_ne_nil hbare)
    · -- one of the three registers is printed
      rw [hbase, hindex, if_neg hbare]
      right
      by_contra hno
      simp only [not_or, not_not] at hno
      apply hbare
      cases hrip : ea.ripRel with
      | true => simp [hrip] at hno
      | false =>
          simp only [hrip, Bool.false_eq_true, if_false, Option.map_eq_none_iff] at hno
          exact ⟨hno.1, hno.2, hrip⟩
  · show ea.seg = segOf (ea.seg.map Seg.name)
    cases ea.seg with
    | none => rfl
    | some seg => cases seg <;> rfl
  · show eaDisp (s.dispText ea) = .ok ea.disp
    unfold eaDisp
    rcases s.dispText_cases ea with ⟨h, hdisp, -⟩ | ⟨i, h, hdisp⟩
    · rw [if_pos h, hdisp]
    · rw [if_neg (h ▸ signedHex_ne_nil i), h, num_signedHex, ← hdisp]
      rfl
  · show BaseDenotes (s.parts ea).base ea.base ea.ripRel
    rw [hbase]
    by_cases hbare : Bare ea
    · rw [if_pos hbare]
      exact ⟨hbare.1, hbare.2.2⟩
    · rw [if_neg hbare]
      cases hrip : ea.ripRel with
      | true => exact Or.inl ⟨rfl, (ea.ripWf hrip).1, rfl⟩
      | false =>
          cases ea.base with
          | none => exact ⟨rfl, rfl⟩
          | some r => exact Or.inr ⟨r, haddr r, rfl, rfl⟩
  · show IndexDenotes (s.parts ea).index (s.parts ea).scale ea.index ea.scale
    rw [hindex]
    cases hi : ea.index with
    | none => exact ⟨rfl, hscale hi⟩
    | some r =>
        have hbare : ¬Bare ea := by
          rintro ⟨-, h, -⟩
          rw [hi] at h
          cases h
        have hdigit : (s.parts ea).scale = s.scaleDigit ea.scale := by
          unfold parts MemParts.scale
          rw [if_neg hbare, hi]
          rfl
        obtain ⟨c, hc, -, hread⟩ := scale_factor ea.scale
        refine ⟨r, haddr r, fun h => hrsp (h ▸ hi), rfl, ?_⟩
        rw [hdigit, scaleDigit]
        split
        · rename_i hone
          rw [hone.1]
          rfl
        · rw [hc]
          exact hread

/-- A printed address is read as an address. -/
theorem memForm_memText (ea : Ea) : MemForm (s.memText ea) := by
  unfold memText
  cases hseg : ea.seg with
  | some seg =>
      refine ⟨by rintro ⟨⟩, fun h => h.2.1 ?_⟩
      have hcolon : ':' ∈ "%".toList ++ seg.name ++ ":".toList := by simp
      exact List.mem_append_left _ (List.mem_append_left _ hcolon)
  | none =>
      show MemForm (s.dispText ea ++ _)
      have hhead : ∀ c ∈ (s.dispText ea ++ (if Bare ea then []
          else "(".toList ++ s.sibText ea ++ ")".toList)).head?, c ≠ '$' ∧ c ≠ '%' := by
        intro c hc
        cases hd : s.dispText ea with
        | cons d t =>
            rw [hd] at hc
            obtain rfl : d = c := Option.some.inj hc
            have hmem : d ∈ s.dispText ea := hd ▸ List.mem_cons_self
            have h := s.isDispChar_of_mem_dispText hmem
            exact ⟨ne_of_isDispChar h rfl, ne_of_isDispChar h rfl⟩
        | nil =>
            have hbare : ¬Bare ea := fun hbare => s.dispText_ne_nil hbare hd
            rw [hd, if_neg hbare] at hc
            obtain rfl : '(' = c := Option.some.inj hc
            exact ⟨by decide, by decide⟩
      exact ⟨fun h => (hhead _ h).1 rfl, fun h => (hhead _ h.1).2 rfl⟩

/-! ## Printed operands -/

/-- What the operand reader makes of a printed operand. -/
def arg (x : Size × Operand) : Arg :=
  match x.2 with
  | .reg r high8 => .reg r x.1 high8
  | .imm v => .imm (s.immValue x.1 v)
  | .mem ea => .mem { ea with lock := false }

theorem token_operandText {x : Size × Operand} (h : x.2.Fits x.1) : Token (s.operandText x) := by
  obtain ⟨sz, o⟩ := x
  cases o with
  | reg r high8 =>
      have hchars : ∀ c ∈ regText r sz high8, c = '%' ∨ isRegChar c = true := by
        intro c hc
        exact (List.mem_cons.mp hc).imp_right fun hc => isRegChar_name h hc
      refine ⟨List.cons_ne_nil _ _, trimmed_of_forall fun c hc => ?_, scans_plain fun c hc => ?_⟩
      · rcases hchars c hc with rfl | hc
        · rfl
        · exact isSpace_of_isRegChar hc
      · rcases hchars c hc with rfl | hc
        · exact ⟨by decide, by decide, by decide⟩
        · exact ⟨ne_of_isRegChar hc rfl, ne_of_isRegChar hc rfl, ne_of_isRegChar hc rfl⟩
  | imm v =>
      have hchars : ∀ c ∈ "$".toList ++ signedHex (s.immValue sz v), c = '$' ∨ isDispChar c = true := by
        intro c hc
        rcases List.mem_append.mp hc with hc | hc
        · exact Or.inl (List.mem_singleton.mp hc)
        · exact Or.inr (isDispChar_of_mem_signedHex hc)
      refine ⟨List.cons_ne_nil _ _, trimmed_of_forall fun c hc => ?_, scans_plain fun c hc => ?_⟩
      · rcases hchars c hc with rfl | hc
        · rfl
        · exact isSpace_of_isDispChar hc
      · rcases hchars c hc with rfl | hc
        · exact ⟨by decide, by decide, by decide⟩
        · exact ⟨ne_of_isDispChar hc rfl, ne_of_isDispChar hc rfl, ne_of_isDispChar hc rfl⟩
  | mem ea =>
      have hlead : ∀ c ∈ (ea.seg.elim [] fun seg => "%".toList ++ seg.name ++ ":".toList) ++
          s.dispText ea, c ≠ '(' ∧ c ≠ ')' ∧ c ≠ ',' := fun c hc => (s.lead_chars hc).2
      refine ⟨?_, trimmed_of_forall fun c hc => s.memText_space hc, ?_⟩
      · show s.memText ea ≠ []
        unfold memText
        by_cases hbare : Bare ea
        · simp [s.dispText_ne_nil hbare]
        · rw [if_neg hbare]
          simp
      · show Scans (s.memText ea)
        unfold memText
        by_cases hbare : Bare ea
        · rw [if_pos hbare, List.append_nil]
          exact scans_plain hlead
        · rw [if_neg hbare]
          exact scans_paren hlead fun c hc => (s.sib_chars hc).2

/-- **A printed operand stands for the operand it was printed from.** -/
theorem reads_operandText [UnicodeDB] {x : Size × Operand} (h : x.2.Fits x.1) :
    Reads (s.operandText x) (s.arg x) := by
  obtain ⟨sz, o⟩ := x
  cases o with
  | reg r high8 =>
      have hno : ∀ d, isRegChar d = false → d ≠ '%' → d ∉ '%' :: r.name sz high8 := by
        intro d hd hd' hmem
        rcases List.mem_cons.mp hmem with rfl | hmem
        · exact hd' rfl
        · exact ne_of_isRegChar (isRegChar_name h hmem) hd rfl
      exact .reg (hno ':' rfl (by decide)) (hno '(' rfl (by decide)) (REGS_name h)
  | imm v => exact .imm (num_signedHex _)
  | mem ea =>
      have hfilter : (s.memText ea).filter (· ≠ ' ') = s.memText ea := by
        apply List.filter_eq_self.mpr
        intro c hc
        rw [decide_eq_true_eq]
        rintro rfl
        exact absurd (s.memText_space hc) (by decide)
      have hparts : HasParts (s.memText ea) (s.parts ea) :=
        ⟨s.wf_parts ea, [], Or.inl rfl, by rw [hfilter, List.append_nil, s.memText_eq]⟩
      exact .mem (s.memForm_memText ea) hparts (s.denotes_parts h)

/-- The printed value of an immediate is the immediate, modulo the width. -/
theorem immValue_emod {sz : Size} {v : Val} (h : v.toNat < 2 ^ sz.bits) :
    s.immValue sz v % ((2 ^ sz.bits : Nat) : Int) = v.toNat := by
  have hlt : (v.toNat : Int) % ((2 ^ sz.bits : Nat) : Int) = v.toNat := by
    rw [← Int.natCast_emod, Nat.mod_eq_of_lt h]
  have hcast : ((2 ^ sz.bits : Nat) : Int) = 2 ^ sz.bits := by push_cast; rfl
  unfold immValue
  cases s.tool with
  | llvm => rw [Int.bmod_emod, hlt]
  | gnu =>
      dsimp only
      rw [← hcast, hlt, hlt]

theorem immValue_mod {sz : Size} {v : Val} (h : v.toNat < 2 ^ sz.bits) :
    BitVec.ofInt 64 (s.immValue sz v % 2 ^ sz.bits) = v := by
  have hcast : ((2 ^ sz.bits : Nat) : Int) = 2 ^ sz.bits := by push_cast; rfl
  rw [← hcast, s.immValue_emod h, BitVec.ofInt_natCast, BitVec.ofNat_toNat, BitVec.setWidth_eq]

/-- **An operand read back is the operand**, if the line has the `lock` of its address. -/
theorem operand_arg {x : Size × Operand} {lock : Bool} (h : x.2.Fits x.1)
    (hlock : ∀ ea ∈ x.2.ea?, ea.lock = lock) : (s.arg x).operand lock x.1 = x.2 := by
  obtain ⟨sz, o⟩ := x
  cases o with
  | reg r high8 => rfl
  | imm v => exact congrArg Operand.imm (s.immValue_mod h)
  | mem ea =>
      obtain rfl := hlock ea rfl
      rfl

end Spelling

/-! ## The operands of string operations -/

theorem regView_rax (sz : Size) : RegView .rax sz false := by rintro ⟨⟩

theorem token_paren {a b : Str} (ha : ∀ c ∈ a, isSpace c = false ∧ c ≠ '(' ∧ c ≠ ')' ∧ c ≠ ',')
    (hb : ∀ c ∈ b, isSpace c = false ∧ c ≠ '(' ∧ c ≠ ')') :
    Token (a ++ ("(".toList ++ b ++ ")".toList)) := by
  refine ⟨by simp, trimmed_of_forall ?_, scans_paren (fun c hc => (ha c hc).2) fun c hc => (hb c hc).2⟩
  intro c hc
  rcases List.mem_append.mp hc with hc | hc
  · exact (ha c hc).1
  · rcases List.mem_append.mp hc with hc | hc
    · rcases List.mem_append.mp hc with hc | hc
      · rw [List.mem_singleton.mp hc]
        rfl
      · exact (hb c hc).1
    · rw [List.mem_singleton.mp hc]
      rfl

/-- The implicit operands of `movs`, `stos` and `lods`: two tokens without a newline. -/
theorem stringTokens_tokens (s : Spelling) (k : StringOp) (sz : Size) :
    ∃ t u, s.stringTokens k sz = [t, u] ∧ (∀ tok ∈ [t, u], Token tok) ∧ '\n' ∉ t ∧ '\n' ∉ u := by
  have hsrc : Token (s.sourceSeg ++ "(%rsi)".toList) ∧ '\n' ∉ s.sourceSeg ++ "(%rsi)".toList := by
    unfold Spelling.sourceSeg
    cases s.tool with
    | llvm => exact ⟨token_paren (a := []) (b := "%rsi".toList) (by simp) (forall_chars (by decide)),
        by decide⟩
    | gnu => exact ⟨token_paren (a := "%ds:".toList) (b := "%rsi".toList) (forall_chars (by decide))
        (forall_chars (by decide)), by decide⟩
  have hdst : Token "%es:(%rdi)".toList ∧ '\n' ∉ "%es:(%rdi)".toList :=
    ⟨token_paren (a := "%es:".toList) (b := "%rdi".toList) (forall_chars (by decide))
      (forall_chars (by decide)), by decide⟩
  have hacc : Token (Spelling.regText .rax sz false) ∧ '\n' ∉ Spelling.regText .rax sz false := by
    refine ⟨s.token_operandText (x := (sz, .reg .rax false)) (regView_rax sz), ?_⟩
    cases sz <;> decide
  cases k with
  | movs => exact ⟨_, _, rfl, by simpa using ⟨hsrc.1, hdst.1⟩, hsrc.2, hdst.2⟩
  | stos => exact ⟨_, _, rfl, by simpa using ⟨hacc.1, hdst.1⟩, hacc.2, hdst.2⟩
  | lods => exact ⟨_, _, rfl, by simpa using ⟨hsrc.1, hacc.1⟩, hsrc.2, hacc.2⟩
  | cmps => exact ⟨_, _, rfl, by simpa using ⟨hdst.1, hsrc.1⟩, hdst.2, hsrc.2⟩
  | scas => exact ⟨_, _, rfl, by simpa using ⟨hdst.1, hacc.1⟩, hdst.2, hacc.2⟩

/-- The accumulator is the only register among the operands of `stos` and `lods`. -/
theorem stringTokens_accumulator (s : Spelling) {k : StringOp} (hk : k ∈ [StringOp.stos, .lods])
    (sz : Size) : (s.stringTokens k sz).filter (fun o => (strip o).head? = some '%' ∧ '(' ∉ o) =
      [Spelling.regText .rax sz false] := by
  simp only [List.mem_cons, List.not_mem_nil, or_false] at hk
  unfold Spelling.stringTokens Spelling.sourceSeg
  rcases hk with rfl | rfl <;> cases s.tool <;> cases sz <;> decide +kernel

end X86Scripts
