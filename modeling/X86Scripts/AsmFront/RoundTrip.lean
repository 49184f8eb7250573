import X86Scripts.AsmFront.DisasmForms
import X86Scripts.AsmFront.WrittenAddresses

/-!
# The front end inverts the disassemblers

* `lineWords_lock`, `Spelling.lineWords_lineText`: a printed line falls apart into its words.
* `translateOp_form`, `translateOp_branch`, `translateOp_string`: the lines of the three kinds of
  instructions.
* **`translate_print`**: the front end returns exactly the term of a printed instruction, whatever
  the address, the length and the spelling.
* `print_injective`: no text is printed for two instructions, by either disassembler.
* **`translate_inverts`**: the round trip, with where the displacement of a relative branch leads.
-/

namespace X86Scripts

open X86Scripts.Regex
open X86Scripts.Py
open X86Scripts.Digits
open X86Scripts.Outcome

/-! ## The words of a line -/

/-- The text with the `lock` prefix in front, or not. -/
def lockText (lock : Bool) (t : Str) : Str := (if lock then "lock ".toList else []) ++ t

/-- A `lock` prefix is taken off the words of the rest. -/
theorem lineWords_lock (lock : Bool) {t w : Str} {ws : List Str} (ht : Stops isSpace t)
    (hne : t ≠ []) (hsplit : split1 t = w :: ws) (hw : w ≠ "lock".toList) :
    lineWords (lockText lock t) = (lock, w :: ws) := by
  cases lock with
  | false =>
      show lineWords t = _
      unfold lineWords
      rw [hsplit]
      exact if_neg fun h => hw (Option.some.inj h)
  | true =>
      have hpre : ∀ c ∈ "lock".toList, isSpace c = false := forall_chars (by decide)
      have hblank : ∀ c ∈ " ".toList, isSpace c = true := forall_chars (by decide)
      have hwords : split1 ("lock".toList ++ " ".toList ++ t) = ["lock".toList, t] :=
        split1_cons (by decide) hpre (by decide) hblank hne ht
      show lineWords ("lock".toList ++ " ".toList ++ t) = _
      unfold lineWords
      rw [hwords]
      show (true, split1 t) = _
      rw [hsplit]

namespace Spelling

variable (s : Spelling)

theorem gap_space : ∀ c ∈ s.gap, isSpace c = true := fun c hc => isSpace_of_isBlank (s.gap_blank c hc)

theorem sep_space : ∀ c ∈ s.sep, isSpace c = true := fun c hc => isSpace_of_isBlank (s.sep_blank c hc)

/-- Joined tokens start with a token. -/
theorem joined_starts {toks : List Str} (hne : toks ≠ []) (htoks : ∀ t ∈ toks, t ≠ [] ∧ Trimmed t) :
    (",".toList ++ s.sep).intercalate toks ≠ [] ∧
      Stops isSpace ((",".toList ++ s.sep).intercalate toks) := by
  obtain ⟨tok, toks, rfl⟩ := List.exists_cons_of_ne_nil hne
  have htok := htoks tok List.mem_cons_self
  cases toks with
  | nil =>
      rw [List.intercalate_singleton]
      exact ⟨htok.1, htok.2.1⟩
  | cons tok' toks =>
      rw [List.intercalate_cons_cons, List.append_assoc]
      exact ⟨List.append_ne_nil_of_left_ne_nil htok.1 _, stops_append htok.1 htok.2.1⟩

/-- The text of the operands, if there are any. -/
def argText (toks : List Str) : Option Str :=
  if toks = [] then none else some ((",".toList ++ s.sep).intercalate toks)

/-- **A printed line falls apart into its mnemonic and the text of its operands.** -/
theorem lineWords_lineText (lock : Bool) {mn : Str} {toks : List Str} (hne : mn ≠ [])
    (hmn : ∀ c ∈ mn, isSpace c = false) (hlock : mn ≠ "lock".toList)
    (htoks : ∀ t ∈ toks, t ≠ [] ∧ Trimmed t) :
    lineWords (lockText lock (s.lineText mn toks)) = (lock, mn :: (s.argText toks).toList) := by
  have hstops : ∀ r, Stops isSpace (mn ++ r) := fun r =>
    stops_append hne (trimmed_of_forall hmn).1
  unfold lineText argText
  by_cases hnil : toks = []
  · rw [if_pos hnil, if_pos hnil]
    exact lineWords_lock lock (trimmed_of_forall hmn).1 hne (split1_word hne hmn) hlock
  · obtain ⟨hjoined, hjoined'⟩ := s.joined_starts hnil htoks
    rw [if_neg hnil, if_neg hnil]
    apply lineWords_lock lock _ _ (split1_cons hne hmn s.gap_ne s.gap_space hjoined hjoined') hlock
    · rw [List.append_assoc]
      exact hstops _
    · rw [List.append_assoc]
      exact List.append_ne_nil_of_left_ne_nil hne _

end Spelling

/-! ## The mnemonics of branches -/

theorem tokens_of_reads (s : Spelling) (next : Nat) {op : Op} (h : op.readsOperands = true) :
    s.tokens next op = (s.operands op).map s.operandText := by
  cases op <;> first | rfl | cases h

theorem isBranchMnemonic_jmp (s : Spelling) : let mn := "jmp".toList ++ s.branchSuffix
    ((mn.all fun c => !isSpace c) = true ∧ isBranchMnemonic mn = true) ∧
      "jmp".toList.isPrefixOf mn = true := by
  dsimp only
  unfold Spelling.branchSuffix
  cases s.branchQ <;> decide +kernel

theorem isBranchMnemonic_call (s : Spelling) : let mn := "call".toList ++ s.branchSuffix
    ((mn.all fun c => !isSpace c) = true ∧ isBranchMnemonic mn = true) ∧
      "jmp".toList.isPrefixOf mn = false ∧ "call".toList.isPrefixOf mn = true := by
  dsimp only
  unfold Spelling.branchSuffix
  cases s.branchQ <;> decide +kernel

theorem isBranchMnemonic_jcc (cc : Cc) : let mn := "j".toList ++ cc.name
    ((mn.all fun c => !isSpace c) = true ∧ isBranchMnemonic mn = true) ∧
      "jmp".toList.isPrefixOf mn = false ∧ "call".toList.isPrefixOf mn = false ∧
      CC.lookup (mn.drop 1) = some cc := by
  cases cc <;> decide +kernel

/-! ## Branch targets -/

/-- The prefix of a target does not hide where its digits are. -/
theorem target_digits {x x' : Option Unit} {w w' r r' : Str}
    (h : (Grammar.lit "0x".toList).opt.text x ++ (w ++ r) =
      (Grammar.lit "0x".toList).opt.text x' ++ (w' ++ r'))
    (hw : ∀ c ∈ w, isHex c = true) (hw' : ∀ c ∈ w', isHex c = true) (hr : Stops isHex r)
    (hr' : Stops isHex r') (hx : r.head? ≠ some 'x') (hx' : r'.head? ≠ some 'x') : w = w' := by
  -- a prefix on one side only would be the digit 0, followed by an `x`
  have hzero : ∀ {u v t : Str}, '0' :: 'x' :: u = v ++ t → (∀ c ∈ v, isHex c = true) →
      Stops isHex t → t.head? = some 'x' := by
    intro u v t h hv ht
    have hrun : ∀ c ∈ ['0'], isHex c = true := by
      intro c hc
      rw [List.mem_singleton.mp hc]
      rfl
    have hstop : Stops isHex ('x' :: u) := stops_cons.mpr rfl
    obtain ⟨-, hrest⟩ := append_inj_of_run (show ['0'] ++ 'x' :: u = v ++ t from h) hrun hv hstop ht
    rw [← hrest]
    rfl
  have hsame : w ++ r = w' ++ r' → w = w' := fun h => (append_inj_of_run h hw hw' hr hr').1
  rcases x with _ | _ <;> rcases x' with _ | _
  · exact hsame h
  · exact absurd (hzero (show '0' :: 'x' :: (w' ++ r') = w ++ r from h.symm) hw hr) hx
  · exact absurd (hzero (show '0' :: 'x' :: (w ++ r) = w' ++ r' from h) hw' hr') hx'
  · exact hsame (List.append_cancel_left h)

/-- The symbol behind the digits of a target. -/
abbrev symbolGrammar : Grammar (Option (Str × Str)) :=
  ((Grammar.run1 isSpace).seq (((Grammar.run (· != '>')).before ">".toList).after "<".toList)).opt

/-- What follows the digits is neither a digit nor an `x`. -/
theorem target_rest {y : Option (Str × Str)} {e : Str} (he : AtEnd e) (hy : symbolGrammar.wf y) :
    Stops isHex (symbolGrammar.text y ++ e) ∧ (symbolGrammar.text y ++ e).head? ≠ some 'x' := by
  cases y with
  | none =>
      rcases he with rfl | rfl
      · exact ⟨stops_nil _, by rintro ⟨⟩⟩
      · exact ⟨stops_cons.mpr rfl, fun h => absurd (Option.some.inj h) (by decide)⟩
  | some y =>
      obtain ⟨gap, name⟩ := y
      obtain ⟨⟨hne, hgap⟩, -⟩ := hy _ rfl
      obtain ⟨g, gs, rfl⟩ := List.exists_cons_of_ne_nil hne
      have hg : isSpace g = true := hgap g List.mem_cons_self
      constructor
      · apply stops_cons.mpr
        by_contra hhex
        rw [Bool.not_eq_false] at hhex
        rw [isSpace_of_isHex hhex] at hg
        cases hg
      · intro hx
        obtain rfl : g = 'x' := Option.some.inj hx
        cases hg

/-- **The pattern finds the digits of a printed target.** -/
theorem TARGET_directText (s : Spelling) (ta : Val) :
    ∃ m, TARGET.exec (s.directText ta) = some m ∧ m.caps 1 = some (hex ta.toNat) := by
  have hdigits : ∀ c ∈ hex ta.toNat, isHex c = true := fun c hc => isHex_of_mem_hex hc
  -- the printed target is put together from a prefix, the digits and a symbol
  obtain ⟨x, y, hy, htext⟩ : ∃ x y, symbolGrammar.wf y ∧ s.directText ta =
      (Grammar.lit "0x".toList).opt.text x ++ (hex ta.toNat ++ symbolGrammar.text y) := by
    refine ⟨if s.tool = .llvm then some () else none, s.symbol.map fun t => (" ".toList, t), ?_, ?_⟩
    · intro z hz
      obtain ⟨t, ht, rfl⟩ := Option.map_eq_some_iff.mp hz
      have hblank : ∀ c ∈ " ".toList, isSpace c = true := forall_chars (by decide)
      refine ⟨⟨List.cons_ne_nil _ _, hblank⟩, fun c hc => ?_⟩
      rw [bne_iff_ne]
      rintro rfl
      exact s.symbol_ok t ht hc
    · unfold Spelling.directText Spelling.hexMark
      rw [List.append_assoc]
      cases s.tool <;> cases s.symbol <;> rfl
  obtain ⟨hr, hx⟩ := target_rest (Or.inl rfl) hy
  rw [List.append_nil] at hr hx
  cases hexec : TARGET.exec (s.directText ta) with
  | none =>
      refine absurd ?_ (parses_target.exec_eq_none_iff.mp hexec (x, hex ta.toNat, y) []
        ⟨fun _ _ => trivial, ⟨hex_ne_nil _, hdigits⟩, hy⟩ (Or.inl rfl))
      rw [htext, List.append_nil]
      rfl
  | some m =>
      obtain ⟨⟨x', w, y'⟩, e, ⟨-, ⟨-, hw⟩, hy'⟩, he, ht, hcaps⟩ := parses_target.of_exec hexec
      obtain ⟨hr', hx'⟩ := target_rest he hy'
      have hsplit : (Grammar.lit "0x".toList).opt.text x ++ (hex ta.toNat ++ symbolGrammar.text y) =
          (Grammar.lit "0x".toList).opt.text x' ++ (w ++ (symbolGrammar.text y' ++ e)) := by
        rw [← htext, ht]
        show (Grammar.lit "0x".toList).opt.text x' ++ (w ++ symbolGrammar.text y') ++ e = _
        simp only [List.append_assoc]
      obtain rfl := target_digits hsplit hdigits hw hr hr' hx hx'
      exact ⟨m, rfl, by rw [hcaps, targetGrammar_caps]⟩

theorem directText_trimmed (s : Spelling) (ta : Val) :
    Trimmed (s.directText ta) ∧ s.directText ta ≠ [] ∧ (s.directText ta).head? ≠ some '*' := by
  have hmark : ∀ c ∈ s.hexMark, isDispChar c = true := by
    unfold Spelling.hexMark
    cases s.tool with
    | llvm => exact forall_chars (by decide)
    | gnu => simp
  have hpre : ∀ c ∈ s.hexMark ++ hex ta.toNat, isDispChar c = true := by
    intro c hc
    rcases List.mem_append.mp hc with hc | hc
    · exact hmark c hc
    · simp [isDispChar, isHex_of_mem_hex hc]
  have hne : s.hexMark ++ hex ta.toNat ≠ [] := List.append_ne_nil_of_right_ne_nil _ (hex_ne_nil _)
  have htrim : Trimmed (s.hexMark ++ hex ta.toNat) :=
    trimmed_of_forall fun c hc => isSpace_of_isDispChar (hpre c hc)
  have htext : s.directText ta =
      s.hexMark ++ hex ta.toNat ++ s.symbol.elim [] fun t => " <".toList ++ t ++ ">".toList := rfl
  rw [htext]
  refine ⟨?_, List.append_ne_nil_of_left_ne_nil hne _, ?_⟩
  · cases s.symbol with
    | none => rwa [Option.elim_none, List.append_nil]
    | some t =>
        have hlast : Trimmed ">".toList := trimmed_of_forall (forall_chars (by decide))
        have h := htrim.append hlast hne (by decide) (" <".toList ++ t)
        rw [Option.elim_some]
        simpa only [List.append_assoc] using h
  · rw [List.head?_append_of_ne_nil _ hne]
    intro h
    exact ne_of_isDispChar (hpre '*' (List.mem_of_mem_head? h)) rfl rfl

theorem indirect_trimmed (s : Spelling) (next : Nat) {o : Operand} (h : o.Fits .q) :
    Trimmed (s.targetText next (.indirect o)) ∧ s.targetText next (.indirect o) ≠ [] := by
  have htok := s.token_operandText (x := (.q, o)) h
  have hstar : Trimmed "*".toList := trimmed_of_forall (forall_chars (by decide))
  have htrim := hstar.append htok.trimmed (by decide) htok.ne []
  rw [List.append_nil] at htrim
  exact ⟨htrim, List.cons_ne_nil _ _⟩

/-- The displacement of a target is the one it was printed from. -/
theorem disp_of_target (addr n : Nat) (d : Val) :
    BitVec.ofInt 64 (((BitVec.ofNat 64 (addr + n) + d).toNat : Int) - (addr + n)) = d := by
  have hnext : BitVec.ofInt 64 ((addr : Int) + n) = BitVec.ofNat 64 (addr + n) := by
    rw [← Int.natCast_add, BitVec.ofInt_natCast]
  rw [Int.sub_eq_add_neg, BitVec.ofInt_add, BitVec.ofInt_neg, hnext, BitVec.ofInt_natCast,
    BitVec.ofNat_toNat, BitVec.setWidth_eq, ← BitVec.sub_eq_add_neg, BitVec.add_comm,
    BitVec.add_sub_cancel]

/-- The line of a relative branch shows where its displacement leads. -/
theorem print_displacement (s : Spelling) (addr n : Nat) {op : Op} {d : Val}
    (hd : op.displacement = some d) : s.print addr n op =
      s.lineText (s.mnemonic op) [s.directText (BitVec.ofNat 64 (addr + n) + d)] := by
  rcases op with _ | _ | _ | _ | _ | _ | _ | (_ | _) | _ | _ | _ | _ | _ | (_ | _) | _ | _ | _ | _ | _ |
    _ | _ | _ | _ | _ <;> cases hd <;> rfl

theorem directText_inj (s : Spelling) {ta ta' : Val} (h : s.directText ta = s.directText ta') :
    ta = ta' := by
  obtain ⟨m, hexec, hcaps⟩ := TARGET_directText s ta
  obtain ⟨m', hexec', hcaps'⟩ := TARGET_directText s ta'
  rw [h, hexec'] at hexec
  cases hexec
  rw [hcaps'] at hcaps
  exact (BitVec.eq_of_toNat_eq (hex_inj (Option.some.inj hcaps))).symm

/-- The line of a relative branch shows one target, to which its displacement leads. -/
theorem displacement_of_print (s : Spelling) (addr n : Nat) {op : Op} {d ta : Val}
    (hd : op.displacement = some d)
    (hprint : s.print addr n op = s.lineText (s.mnemonic op) [s.directText ta]) :
    BitVec.ofNat 64 (addr + n) + d = ta := by
  rw [print_displacement s addr n hd] at hprint
  simp only [Spelling.lineText, List.cons_ne_nil, if_false, List.intercalate_singleton,
    List.append_cancel_left_eq] at hprint
  exact directText_inj s hprint

section lines

variable [UnicodeDB]

theorem translateOp_of_words {text mn : Str} {lock : Bool} {arg : Option Str} (addr n : Nat)
    (h : lineWords text = (lock, mn :: arg.toList)) :
    translateOp addr n text = translateWords ⟨whatText addr text, lock⟩ addr n mn arg := by
  unfold translateOp
  rw [h]
  cases arg <;> rfl

theorem mapM_operand {toks : List Str} {ops : List Arg} (htoks : ∀ t ∈ toks, Trimmed t)
    (h : List.Forall₂ Reads toks ops) : toks.mapM operand = .ok ops := by
  apply mapM_eq_ok_iff.mpr
  refine List.forall₂_iff_zip.mpr ⟨h.length_eq, fun {t a} hta => ?_⟩
  apply operand_of_reads
  rw [strip_of_trimmed (htoks t (List.of_mem_zip hta).1)]
  exact (List.forall₂_iff_zip.mp h).2 hta

/-- **A line whose operands are read**: the branch of its mnemonic gets what the tokens stand for. -/
theorem translateOp_form (s : Spelling) (addr n : Nat) (lock : Bool) {mn : Str} {form : Form}
    {toks : List Str} {ops : List Arg} (hmn : Takes mn form) (htoks : ∀ t ∈ toks, Token t)
    (hops : List.Forall₂ Reads toks ops) :
    translateOp addr n (lockText lock (s.lineText mn toks)) =
      form.op ⟨whatText addr (lockText lock (s.lineText mn toks)), lock⟩ mn ops := by
  obtain ⟨hne, hspace, hplain, hbranch, hform⟩ := hmn
  have hspace' : ∀ c ∈ mn, isSpace c = false := fun c hc => by
    simpa using List.all_eq_true.mp hspace c hc
  simp only [List.mem_cons, List.not_mem_nil, or_false, not_or] at hplain
  obtain ⟨hlock, hret, hretq, hrep⟩ := hplain
  have hwords := s.lineWords_lineText lock hne hspace' hlock
    fun t ht => ⟨(htoks t ht).ne, (htoks t ht).trimmed⟩
  have hnoRet : ¬(mn ∈ ["ret".toList, "retq".toList] ∧ s.argText toks = none) := by
    rintro ⟨hmem, -⟩
    simp only [List.mem_cons, List.not_mem_nil, or_false] at hmem
    exact hmem.elim hret hretq
  rw [translateOp_of_words addr n hwords]
  unfold translateWords
  rw [if_neg hnoRet, hbranch, if_neg Bool.false_ne_true, if_neg fun h => hrep h.1]
  unfold otherForm mnemonicOp
  simp only [hform]
  have hread := mapM_operand (fun t ht => (htoks t ht).trimmed) hops
  unfold Spelling.argText
  by_cases hnil : toks = []
  · subst hnil
    cases hops
    rfl
  · rw [if_neg hnil]
    dsimp only
    rw [splitOperands_joined s.sep_space htoks, hread, ok_bind]

/-! ### Branches -/

/-- A line with a branch mnemonic and one operand goes to the branch reader. -/
theorem translateOp_branch (s : Spelling) (addr n : Nat) (lock : Bool) {mn t : Str}
    (hmn : (mn.all fun c => !isSpace c) = true ∧ isBranchMnemonic mn = true) (ht : t ≠ [] ∧ Trimmed t) :
    translateOp addr n (lockText lock (s.lineText mn [t])) =
      branch ⟨whatText addr (lockText lock (s.lineText mn [t])), lock⟩ addr n mn (some t) := by
  have hspace : ∀ c ∈ mn, isSpace c = false := fun c hc => by
    simpa using List.all_eq_true.mp hmn.1 c hc
  have hne : mn ≠ [] := by
    rintro rfl
    exact absurd hmn.2 (by decide +kernel)
  have hlock : mn ≠ "lock".toList := by
    rintro rfl
    exact absurd hmn.2 (by decide +kernel)
  have htoks : ∀ u ∈ [t], u ≠ [] ∧ Trimmed u := by simpa using ht
  have hwords := s.lineWords_lineText lock hne hspace hlock htoks
  have harg : s.argText [t] = some t := by
    unfold Spelling.argText
    rw [if_neg (List.cons_ne_nil _ _), List.intercalate_singleton]
  rw [harg] at hwords
  rw [translateOp_of_words addr n hwords]
  unfold translateWords
  rw [if_neg (fun h => Option.some_ne_none _ h.2), if_pos hmn.2]

/-- The direct branches of a mnemonic. -/
def DirectBranch (mn : Str) (d : Val) (op : Op) : Prop :=
  let isJmp := "jmp".toList.isPrefixOf mn
  let isCall := "call".toList.isPrefixOf mn
  (isJmp = true ∧ op = .jmp (.rel d)) ∨ (isJmp = false ∧ isCall = true ∧ op = .call (.rel d)) ∨
    (isJmp = false ∧ isCall = false ∧ ∃ cc, CC.lookup (mn.drop 1) = some cc ∧ op = .jcc cc d)

/-- A direct target is read back. -/
theorem branch_direct (s : Spelling) {c : Ctx} (addr n : Nat) {mn : Str} {d : Val} {op : Op}
    (hlock : c.lock = false) (hop : DirectBranch mn d op) :
    branch c addr n mn (some (s.targetText (addr + n) (.rel d))) = .ok op := by
  obtain ⟨htrim, -, hstar⟩ := directText_trimmed s (BitVec.ofNat 64 (addr + n) + d)
  obtain ⟨m, hexec, hcaps⟩ := TARGET_directText s (BitVec.ofNat 64 (addr + n) + d)
  have hdone : ∀ r, done c [] r = r := by
    intro r
    unfold done memLock
    rw [hlock]
    rfl
  unfold branch Spelling.targetText
  dsimp only
  rw [strip_of_trimmed htrim, if_neg hstar, hexec]
  dsimp only
  rw [hcaps, Option.getD_some, pyInt, parseInt_hex]
  show (if _ then _ else _) = _
  rw [disp_of_target]
  simp only [hdone]
  rcases hop with ⟨hjmp, rfl⟩ | ⟨hjmp, hcall, rfl⟩ | ⟨hjmp, hcall, cc, hcc, rfl⟩
  · rw [if_pos hjmp]
  · rw [hjmp, if_neg Bool.false_ne_true, if_pos hcall]
  · rw [hjmp, hcall, if_neg Bool.false_ne_true, if_neg Bool.false_ne_true, hcc]
    rfl

/-- An indirect target is read back. -/
theorem branch_indirect (s : Spelling) {c : Ctx} (addr n : Nat) {mn : Str} {o : Operand}
    (hmn : ("jmp".toList.isPrefixOf mn || "call".toList.isPrefixOf mn) = true) (himm : o.isImm = false)
    (hfits : o.Fits .q) (hback : (s.arg (.q, o)).operand c.lock .q = o)
    (hdone : ∀ r, done c [s.arg (.q, o)] r = r) :
    branch c addr n mn (some (s.targetText (addr + n) (.indirect o))) =
      .ok (if "jmp".toList.isPrefixOf mn then .jmp (.indirect o) else .call (.indirect o)) := by
  have htok := s.token_operandText (x := (.q, o)) hfits
  have htrim : Trimmed ("*".toList ++ s.operandText (.q, o)) :=
    (indirect_trimmed s (addr + n) hfits).1
  have hread : operand (s.operandText (.q, o)) = .ok (s.arg (.q, o)) := by
    apply operand_of_reads
    rw [strip_of_trimmed htok.trimmed]
    exact s.reads_operandText hfits
  have hbad : (s.arg (.q, o)).badTarget = false := by
    cases o with
    | imm v => cases himm
    | mem ea => rfl
    | reg r high8 =>
        cases high8 with
        | false => rfl
        | true => exact absurd (hfits rfl).2 (by decide)
  unfold branch Spelling.targetText
  dsimp only
  have hhead : ("*".toList ++ s.operandText (.q, o)).head? = some '*' := rfl
  rw [strip_of_trimmed htrim, if_pos hhead]
  show (do
    let o' ← operand (s.operandText (.q, o))
    _) = _
  rw [hread, ok_bind, hbad, if_neg Bool.false_ne_true, hmn, Bool.not_true,
    if_neg Bool.false_ne_true, hdone, hback]

/-! ### String operations -/

/-- **A printed string operation is an accepted form**, with its suffix or its accumulator. -/
theorem repForm_printed (s : Spelling) {k : StringOp} (hk : k ∈ [StringOp.movs, .stos, .lods])
    (sz : Size) : RepForm (k.name ++ suffixText (s.stringSuffix k sz) ++ s.gap ++
      (",".toList ++ s.sep).intercalate (s.stringTokens k sz)) k sz := by
  obtain ⟨t, u, htoks, htok, ht, hu⟩ := stringTokens_tokens s k sz
  have hsuffix : SUFFIX.lookup sz.suffix = some sz := by cases sz <;> decide
  have hgap : ∀ r, Stops isWord (s.gap ++ r) := by
    intro r
    obtain ⟨g, gs, hg⟩ := List.exists_cons_of_ne_nil s.gap_ne
    have hblank : isBlank g = true := s.gap_blank g (hg ▸ List.mem_cons_self)
    rw [hg]
    apply stops_cons.mpr
    simp only [isBlank, Bool.or_eq_true, beq_iff_eq] at hblank
    rcases hblank with rfl | rfl <;> rfl
  by_cases hshow : s.tool = .gnu ∧ k ≠ .movs
  · -- the accumulator fixes the width
    have hk' : k ∈ [StringOp.stos, .lods] := by
      simp only [List.mem_cons, List.not_mem_nil, or_false] at hk ⊢
      exact hk.resolve_left hshow.2
    have hnone : s.stringSuffix k sz = none := by
      unfold Spelling.stringSuffix Spelling.suffix
      rw [if_neg hshow.2, if_pos ⟨hshow.1, rfl⟩]
    have hnewline : '\n' ∉ (",".toList ++ s.sep).intercalate (s.stringTokens k sz) := by
      rw [htoks, List.intercalate_cons_cons, List.intercalate_singleton]
      intro hmem
      rcases List.mem_append.mp hmem with hmem | hmem
      · rcases List.mem_append.mp hmem with hmem | hmem
        · exact ht hmem
        · rcases List.mem_append.mp hmem with hmem | hmem
          · cases List.mem_singleton.mp hmem
          · exact absurd (s.sep_blank _ hmem) (by decide)
      · exact hu hmem
    have hsplit : splitOperands ((",".toList ++ s.sep).intercalate (s.stringTokens k sz)) =
        s.stringTokens k sz := by
      apply splitOperands_joined s.sep_space
      rw [htoks]
      exact htok
    have hacc : Trimmed (Spelling.regText .rax sz false) :=
      (s.token_operandText (x := (sz, .reg .rax false)) (regView_rax sz)).trimmed
    rw [hnone, show suffixText none = [] from rfl, List.append_nil, List.append_assoc]
    refine .accumulator hk' ⟨s.gap_ne, s.gap_space⟩ hnewline ?_ (strip_of_trimmed hacc)
      (REGS_name (regView_rax sz))
    rw [hsplit]
    exact stringTokens_accumulator s hk' sz
  · have hsome : s.stringSuffix k sz = some sz := by
      unfold Spelling.stringSuffix Spelling.suffix
      by_cases hmovs : k = .movs
      · rw [if_pos hmovs]
        exact if_neg fun h => Bool.false_ne_true h.2
      · rw [if_neg hmovs]
        exact if_neg fun h => hshow ⟨h.1, hmovs⟩
    rw [hsome]
    have htext : k.name ++ suffixText (some sz) ++ s.gap ++
        (",".toList ++ s.sep).intercalate (s.stringTokens k sz) = k.name ++ sz.suffix ::
          (s.gap ++ (",".toList ++ s.sep).intercalate (s.stringTokens k sz)) := by
      simp [suffixText]
    rw [htext]
    exact .suffixed hk hsuffix (hgap _)

/-- A printed string operation is read back. -/
theorem translateOp_string (s : Spelling) (addr n : Nat) {k : StringOp}
    (hk : k ∈ [StringOp.movs, .stos, .lods]) (sz : Size) :
    translateOp addr n (s.print addr n (.repstrop .rep k sz)) = .ok (.repstrop .rep k sz) := by
  obtain ⟨t, u, htoks, htok, -, -⟩ := stringTokens_tokens s k sz
  let rest := k.name ++ suffixText (s.stringSuffix k sz) ++ s.gap ++
    (",".toList ++ s.sep).intercalate (s.stringTokens k sz)
  have htext : s.print addr n (.repstrop .rep k sz) = lockText false ("rep".toList ++ s.gap ++ rest) := by
    show [] ++ s.lineText _ (s.stringTokens k sz) = [] ++ _
    unfold Spelling.lineText
    rw [if_neg (by rw [htoks]; exact List.cons_ne_nil _ _)]
    show "rep".toList ++ s.gap ++ k.name ++ _ ++ s.gap ++ _ = _
    simp only [rest, List.append_assoc, List.nil_append]
  -- the rest starts with the name of the operation and ends with a token
  have hname : k.name ≠ [] ∧ Trimmed k.name := by
    have hall : ∀ k ∈ [StringOp.movs, .stos, .lods], k.name ≠ [] ∧
        (k.name.all fun c => !isSpace c) = true := by decide
    obtain ⟨hne, hchars⟩ := hall k hk
    exact ⟨hne, trimmed_of_forall fun c hc => by simpa using List.all_eq_true.mp hchars c hc⟩
  have hu := htok u (by simp)
  have hrest : rest = k.name ++ (suffixText (s.stringSuffix k sz) ++ s.gap ++
      (t ++ (",".toList ++ s.sep))) ++ u := by
    simp only [rest, htoks, List.intercalate_cons_cons, List.intercalate_singleton, List.append_assoc]
  have htrim : Trimmed rest := hrest ▸ hname.2.append hu.trimmed hname.1 hu.ne _
  have hne : rest ≠ [] := by
    rw [hrest]
    exact List.append_ne_nil_of_right_ne_nil _ hu.ne
  have hrep : ∀ c ∈ "rep".toList, isSpace c = false := forall_chars (by decide)
  have hwords : lineWords (lockText false ("rep".toList ++ s.gap ++ rest)) =
      (false, ["rep".toList, rest]) := by
    apply lineWords_lock false _ _ (split1_cons (by decide) hrep s.gap_ne s.gap_space hne htrim.1)
      (by decide)
    · exact stops_cons.mpr rfl
    · exact List.cons_ne_nil _ _
  have harg : repArg (lockText false ("rep".toList ++ s.gap ++ rest)) = some rest := by
    unfold repArg
    rw [hwords]
    rfl
  rw [htext]
  refine (translateOp_rep harg).mpr ⟨by rw [hwords], k, sz, ?_, rfl⟩
  rw [strip_of_trimmed htrim]
  exact repForm_printed s hk sz

/-! ## Whole instructions -/

theorem translateOp_ret (s : Spelling) (addr n : Nat) :
    translateOp addr n (s.print addr n .ret) = .ok .ret := by
  have hmn : "ret".toList ++ s.branchSuffix ∈ ["ret".toList, "retq".toList] := by
    unfold Spelling.branchSuffix
    cases s.branchQ <;> decide
  have hall : ∀ mn ∈ ["ret".toList, "retq".toList], mn ≠ [] ∧ mn ≠ "lock".toList ∧
      (mn.all fun c => !isSpace c) = true := by decide
  obtain ⟨hne, hlock, hspace⟩ := hall _ hmn
  have htoks : ∀ t ∈ ([] : List Str), t ≠ [] ∧ Trimmed t := by simp
  have hwords := s.lineWords_lineText false hne
    (fun c hc => by simpa using List.all_eq_true.mp hspace c hc) hlock htoks
  show translateOp addr n (lockText false (s.lineText ("ret".toList ++ s.branchSuffix) [])) = _
  rw [translateOp_of_words addr n hwords]
  unfold translateWords
  rw [if_pos ⟨hmn, rfl⟩]
  rfl

/-- A printed direct branch is read back. -/
theorem translateOp_direct (s : Spelling) (addr n : Nat) {mn : Str} {d : Val} {op : Op}
    (hmn : (mn.all fun c => !isSpace c) = true ∧ isBranchMnemonic mn = true)
    (hop : DirectBranch mn d op) :
    translateOp addr n (lockText false (s.lineText mn [s.targetText (addr + n) (.rel d)])) =
      .ok op := by
  obtain ⟨htrim, hne, -⟩ := directText_trimmed s (BitVec.ofNat 64 (addr + n) + d)
  rw [translateOp_branch s addr n false hmn (t := s.targetText (addr + n) (.rel d)) ⟨hne, htrim⟩]
  exact branch_direct s addr n rfl hop

/-- A printed indirect branch is read back. -/
theorem translateOp_indirect (s : Spelling) (addr n : Nat) {mn : Str} {o : Operand} {op : Op}
    (h : Printable s op) (hmn : (mn.all fun c => !isSpace c) = true ∧ isBranchMnemonic mn = true)
    (hpre : ("jmp".toList.isPrefixOf mn || "call".toList.isPrefixOf mn) = true)
    (hops : s.operands op = [(.q, o)]) (himm : o.isImm = false) :
    translateOp addr n (lockText op.lock (s.lineText mn [s.targetText (addr + n) (.indirect o)])) =
      .ok (if "jmp".toList.isPrefixOf mn then .jmp (.indirect o) else .call (.indirect o)) := by
  have hfits : o.Fits .q := h.fits (.q, o) (by rw [hops]; exact List.mem_cons_self)
  have hstar := indirect_trimmed s (addr + n) hfits
  rw [translateOp_branch s addr n op.lock hmn ⟨hstar.2, hstar.1⟩]
  obtain ⟨hdone, hback⟩ := s.operands_back (c := ⟨whatText addr (lockText op.lock
    (s.lineText mn [s.targetText (addr + n) (.indirect o)])), op.lock⟩) h rfl
  rw [hops] at hdone hback
  exact branch_indirect s addr n hpre himm hfits (hback (.q, o) List.mem_cons_self) hdone

/-- **A printed instruction is read back**, whatever its spelling. -/
theorem translateOp_print (s : Spelling) (addr n : Nat) {op : Op} (h : Printable s op) :
    translateOp addr n (s.print addr n op) = .ok op := by
  by_cases hread : op.readsOperands = true
  · have htoks := tokens_of_reads s (addr + n) hread
    show translateOp addr n (lockText op.lock (s.lineText (s.mnemonic op) _)) = _
    rw [htoks, translateOp_form s addr n op.lock (takes_mnemonic s h.form h.spells hread)]
    · exact form_args _ h hread rfl
    · intro t ht
      obtain ⟨x, hx, rfl⟩ := List.mem_map.mp ht
      exact s.token_operandText (h.fits x hx)
    · rw [List.forall₂_map_left_iff, List.forall₂_map_right_iff, List.forall₂_same]
      exact fun x hx => s.reads_operandText (h.fits x hx)
  · cases op with
    | ret => exact translateOp_ret s addr n
    | repstrop r k sz =>
        have hform := h.form
        simp only [Op.returned, Bool.and_eq_true, Bool.or_eq_true, beq_iff_eq] at hform
        obtain ⟨rfl, hk⟩ := hform
        apply translateOp_string s addr n
        rcases hk with (rfl | rfl) | rfl <;> decide
    | jcc cc d =>
        obtain ⟨hmn, hjmp, hcall, hcc⟩ := isBranchMnemonic_jcc cc
        exact translateOp_direct s addr n hmn (Or.inr (Or.inr ⟨hjmp, hcall, cc, hcc, rfl⟩))
    | jmp t =>
        obtain ⟨hmn, hjmp⟩ := isBranchMnemonic_jmp s
        cases t with
        | rel d => exact translateOp_direct s addr n hmn (Or.inl ⟨hjmp, rfl⟩)
        | indirect o =>
            have hprint := translateOp_indirect s addr n (o := o) h hmn
              (by rw [hjmp]; rfl) rfl (by simpa [Op.returned] using h.form)
            rw [if_pos hjmp] at hprint
            exact hprint
    | call t =>
        obtain ⟨hmn, hjmp, hcall⟩ := isBranchMnemonic_call s
        cases t with
        | rel d => exact translateOp_direct s addr n hmn (Or.inr (Or.inl ⟨hjmp, hcall, rfl⟩))
        | indirect o =>
            have hprint := translateOp_indirect s addr n (o := o) h hmn
              (by rw [hcall, Bool.or_true]) rfl (by simpa [Op.returned] using h.form)
            rw [hjmp, if_neg Bool.false_ne_true] at hprint
            exact hprint
    | _ => exact absurd rfl hread

/-- **The front end inverts the disassemblers.** Whatever the spelling, the address and the length,
the text of an encodable instruction of the core is translated to exactly its term. -/
theorem translate_print (s : Spelling) (addr n : Nat) {op : Op} (h : Core op) :
    translate addr n (s.print addr n op) = .ok (Instr.mk op n).term := by
  unfold translate
  rw [translateOp_print s addr n (s.printable_of_core h)]
  rfl

/-- No text is printed for two instructions, at whatever spellings. -/
theorem print_injective (s t : Spelling) (addr n : Nat) {op op' : Op} (h : Core op) (h' : Core op')
    (hprint : s.print addr n op = t.print addr n op') : op = op' := by
  have hread := translateOp_print s addr n (s.printable_of_core h)
  rw [hprint, translateOp_print t addr n (t.printable_of_core h')] at hread
  exact (Except.ok.inj hread).symm

/-- **The front end inverts the disassemblers**: the printed text of an instruction of the core is
translated to its term and to no other instruction's, and the line of a relative branch shows the
address its displacement leads to. -/
theorem translate_inverts (s : Spelling) (addr n : Nat) {op : Op} (h : Core op) :
    translate addr n (s.print addr n op) = .ok (Instr.mk op n).term ∧
      (∀ (t : Spelling) (op' : Op), Core op' → t.print addr n op' = s.print addr n op → op' = op) ∧
      ∀ d ta, op.displacement = some d → s.print addr n op = s.lineText (s.mnemonic op) [s.directText ta] →
        BitVec.ofNat 64 (addr + n) + d = ta := by
  refine ⟨translate_print s addr n h, fun t op' h' => print_injective t s addr n h' h, ?_⟩
  exact fun d ta => displacement_of_print s addr n

end lines

/-- `addl` of a negative immediate, `lock` in front, to every part of an address. -/
def lockedAdd : Op :=
  .bin .add .d
    (.mem { base := some .rbx, index := some .rcx, scale := .s4, disp := BitVec.ofInt 64 (-8),
            ripRel := false, seg := some .fs, lock := true })
    (.imm 0xffffffff)

/-- Both spellings of one instruction, with one term. -/
theorem translate_inverts_lockedAdd :
    ((Spelling.plain .llvm).print 0x401000 10 lockedAdd =
        "lock addl $-0x1, %fs:-0x8(%rbx,%rcx,4)".toList ∧
      (Spelling.plain .gnu).print 0x401000 10 lockedAdd =
        "lock addl $0xffffffff,%fs:-0x8(%rbx,%rcx,4)".toList) ∧
    ∀ tool, @translate UnicodeDB.ascii 0x401000 10
      ((Spelling.plain tool).print 0x401000 10 lockedAdd) = .ok (Instr.mk lockedAdd 10).term :=
  ⟨by decide +kernel, fun tool =>
    (@translate_inverts UnicodeDB.ascii (Spelling.plain tool) 0x401000 10 lockedAdd
      (by decide +kernel)).1⟩

end X86Scripts
