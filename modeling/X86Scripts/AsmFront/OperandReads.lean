import X86Scripts.Lib.Outcome
import X86Scripts.AsmFront.Operand

/-!
# What the operand reader reads

* `MemParts`, `memGrammar`: the pieces of an AT&T memory operand, and the grammar `MEM` matches.
  **`unique_mem`**: a text has one decomposition into pieces.
* `Denotes`: the address that pieces denote; `Reads`: the operand that a token stands for;
  `IsNumeral`, `Unreadable`: the numbers that `int()` reads, and the tokens that hold another one.
* **`strip_of_mem_splitOperands`**: every token of an operand text is stripped.
* **`operand_eq_ok_iff`**, **`operand_eq_valueError_iff`**: the reader returns what the token stands
  for, and raises `ValueError` on the unreadable tokens; else it refuses (`operand_ends`).
-/

namespace X86Scripts

open X86Scripts.Regex
open X86Scripts.Py
open X86Scripts.Outcome

/-! ## The pieces of a memory operand -/

/-- The pieces: the name in `%seg:`, the displacement, and in parentheses the base name, the index
name and the scale digit. Register names stand without their `%`. -/
abbrev MemParts := Option Str × Str × Option (Option Str × Option (Str × Option Char))

def segGrammar : Grammar (Option Str) :=
  ((((Grammar.oneOf segNames).grp 1).before ":".toList).after "%".toList).opt

theorem parses_seg : Parses segRe segGrammar :=
  ((((parses_anyOf segNames).grp 1).before ":".toList).after "%".toList).opt

theorem unique_seg : segGrammar.Unique fun r => r.head? ≠ some '%' := by
  have hname : (Grammar.oneOf segNames).Unique fun _ => True := unique_oneOf 2 (by decide)
  have hinner := ((hname.grp 1).before (K := fun _ => True) (t := ":".toList)
    fun _ _ => trivial).after "%".toList
  exact hinner.opt '%' (fun _ _ => rfl) (fun _ _ => trivial) fun _ h => h

/-- `Refused` and nothing else. -/
def IsRefused (e : PyErr) : Prop := ∃ msg, e = .refused msg

theorem ends_refuse {α : Type} {Q : α → Prop} (msg : Str) :
    Ends Q IsRefused (refuse msg : Except PyErr α) := ⟨msg, rfl⟩

theorem scaleOf_ends {c : Option Char} (hc : ∀ d ∈ c, isScaleDigit d = true) :
    Ends (fun s => scaleOf (c.map ([·])) = .ok s) IsRefused (scaleOf (c.map ([·]))) := by
  cases c with
  | none => rfl
  | some d =>
      have hd : d ∈ ['1', '2', '4', '8'] := by simpa [isScaleDigit] using hc d rfl
      simp only [List.mem_cons, List.not_mem_nil, or_false] at hd
      rcases hd with rfl | rfl | rfl | rfl <;> rfl

/-! ## The tokens of an operand text -/

/-- **Every token is stripped.** -/
theorem strip_of_mem_splitOperands {s t : Str} (ht : t ∈ splitOperands s) : strip t = t := by
  have hstep : ∀ (st : Split) (ch : Char), (∀ u ∈ st.parts, Trimmed u) →
      ∀ u ∈ (splitStep st ch).parts, Trimmed u := by
    intro st ch hst u hu
    unfold splitStep at hu
    generalize (if ch = '(' then st.depth + 1 else if ch = ')' then st.depth - 1 else st.depth) = d
      at hu
    dsimp only at hu
    split at hu
    · rcases List.mem_append.mp hu with hu | hu
      · exact hst u hu
      · rw [List.mem_singleton.mp hu]
        exact trimmed_strip _
    · exact hst u hu
  have hrun : ∀ (s : Str) (st : Split), (∀ u ∈ st.parts, Trimmed u) →
      ∀ u ∈ (s.foldl splitStep st).parts, Trimmed u := by
    intro s
    induction s with
    | nil => exact fun st hst => hst
    | cons ch s ih => exact fun st hst => ih _ (hstep st ch hst)
  have hparts := hrun s ⟨[], 0, []⟩ (fun u hu => by cases hu)
  apply strip_of_trimmed
  unfold splitOperands at ht
  dsimp only at ht
  split at ht
  · exact hparts t ht
  · rcases List.mem_append.mp ht with ht | ht
    · exact hparts t ht
    · rw [List.mem_singleton.mp ht]
      exact trimmed_strip _

/-- Whitespace in front of an operand text changes no token. -/
theorem splitOperands_space {w : Str} (hw : ∀ c ∈ w, isSpace c = true) (s : Str) :
    splitOperands (w ++ s) = splitOperands s := by
  have hstrip : ∀ t, strip (w ++ t) = strip t := by
    intro t
    rw [strip, strip, stripBy, stripBy, List.dropWhile_append_of_pos hw]
  -- the state behind the whitespace
  have hstart : ∀ v : Str, (∀ c ∈ v, isSpace c = true) → ∀ cur,
      v.foldl splitStep ⟨[], 0, cur⟩ = ⟨[], 0, cur ++ v⟩ := by
    intro v
    induction v with
    | nil => exact fun _ cur => by rw [List.append_nil]; rfl
    | cons c v ih =>
        intro hv cur
        obtain ⟨hc, hv⟩ := List.forall_mem_cons.mp hv
        have hne : c ≠ '(' ∧ c ≠ ')' ∧ c ≠ ',' := by
          refine ⟨?_, ?_, ?_⟩ <;> rintro rfl <;> exact absurd hc (by decide)
        have hstep : splitStep ⟨[], 0, cur⟩ c = ⟨[], 0, cur ++ [c]⟩ := by
          unfold splitStep
          simp only [if_neg hne.1, if_neg hne.2.1, hne.2.2, false_and, if_false]
        rw [List.foldl_cons, hstep, ih hv, List.append_assoc]
        rfl
  -- from there on the whitespace is in front of the first token
  have hrun : ∀ (s : Str) (parts : List Str) (depth : Int) (cur : Str),
      (s.foldl splitStep ⟨parts, depth, w ++ cur⟩ = s.foldl splitStep ⟨parts, depth, cur⟩) ∨
      ∃ parts' depth' cur', s.foldl splitStep ⟨parts, depth, w ++ cur⟩ = ⟨parts', depth', w ++ cur'⟩ ∧
        s.foldl splitStep ⟨parts, depth, cur⟩ = ⟨parts', depth', cur'⟩ := by
    intro s
    induction s with
    | nil => exact fun parts depth cur => Or.inr ⟨parts, depth, cur, rfl, rfl⟩
    | cons c s ih =>
        intro parts depth cur
        rw [List.foldl_cons, List.foldl_cons]
        unfold splitStep
        dsimp only
        generalize (if c = '(' then depth + 1 else if c = ')' then depth - 1 else depth) = d
        by_cases h : c = ',' ∧ d = 0
        · rw [if_pos h, if_pos h, hstrip]
          exact Or.inl rfl
        · rw [if_neg h, if_neg h, List.append_assoc]
          exact ih parts d (cur ++ [c])
  unfold splitOperands
  rw [List.foldl_append, hstart w hw []]
  have h := hrun s [] 0 []
  rw [List.append_nil] at h
  rw [List.nil_append]
  rcases h with h | ⟨parts, depth, cur, h, h'⟩
  · rw [h]
  · rw [h, h']
    dsimp only
    rw [hstrip]

section

variable [UnicodeDB]

/-- `%name`. -/
def nameGrammar : Grammar Str := (Grammar.run1 isWord).after "%".toList

def indexGrammar : Grammar (Option (Str × Option Char)) :=
  (((nameGrammar.grp 4).seq ((((Grammar.cls isScaleDigit).grp 5).after ",".toList).opt)).after
    ",".toList).opt

def sibGrammar : Grammar (Option (Option Str × Option (Str × Option Char))) :=
  ((((nameGrammar.grp 3).opt.seq indexGrammar).before ")".toList).after "(".toList).opt

def memGrammar : Grammar MemParts :=
  segGrammar.seq (((Grammar.run isDispChar).grp 2).seq sibGrammar)

theorem parses_name : Parses nameRe nameGrammar := parses_run1.after "%".toList

theorem parses_index : Parses indexRe indexGrammar :=
  (((parses_name.grp 4).seq ((parses_cls.grp 5).after ",".toList).opt).after ",".toList).opt

theorem parses_sib : Parses sibRe sibGrammar :=
  (((((parses_name.grp 3).opt).seq parses_index).before ")".toList).after "(".toList).opt

theorem parses_mem :
    Parses (.seq segRe (.seq (.grp 2 (.star true (.cls isDispChar))) sibRe)) memGrammar :=
  parses_seg.seq ((parses_run.grp 2).seq parses_sib)

/-! ## A text has one decomposition -/

theorem unique_name : nameGrammar.Unique (Stops isWord) := unique_run1.after "%".toList

theorem unique_index : indexGrammar.Unique fun r => r.head? = some ')' := by
  have hne : ∀ r : Str, r.head? = some ')' → r.head? ≠ some ',' := by
    intro r hr
    rw [hr]
    decide
  have hscale : (((Grammar.cls isScaleDigit).grp 5).after ",".toList).opt.Unique
      fun r => r.head? = some ')' :=
    ((unique_cls.grp 5).after ",".toList).opt ',' (fun _ _ => rfl) (fun _ _ => trivial) hne
  have hinner := (unique_name.grp 4).seq hscale (by
    intro y r _ hr
    cases y with
    | none => exact stops_of_head hr rfl
    | some c => exact stops_cons.mpr rfl)
  exact (hinner.after ",".toList).opt ',' (fun _ _ => rfl) (fun _ h => h) hne

theorem unique_sib : sibGrammar.Unique fun r => r.head? ≠ some '(' := by
  have hbase : (nameGrammar.grp 3).opt.Unique
      fun r => r.head? = some ',' ∨ r.head? = some ')' := by
    apply (unique_name.grp 3).opt '%' (fun _ _ => rfl)
    · rintro r (hr | hr) <;> exact stops_of_head hr rfl
    · rintro r (hr | hr) <;> rw [hr] <;> decide
  have hinner := hbase.seq unique_index (by
    intro y r _ hr
    cases y with
    | none => exact Or.inr hr
    | some x => exact Or.inl rfl)
  have hparen := (hinner.before (K := fun _ => True) (t := ")".toList) fun _ _ => rfl).after
    "(".toList
  exact hparen.opt '(' (fun _ _ => rfl) (fun _ _ => trivial) fun _ h => h

/-- **A text is put together from pieces in one way only.** -/
theorem unique_mem : memGrammar.Unique AtEnd := by
  have hend : ∀ r, AtEnd r → r.head? ≠ some '(' ∧ r.head? ≠ some '%' ∧ Stops isDispChar r := by
    rintro r (rfl | rfl)
    · exact ⟨by decide, by decide, stops_nil _⟩
    · exact ⟨by decide, by decide, stops_cons.mpr rfl⟩
  have htail := (unique_run.grp 2).seq (unique_sib.mono fun r hr => (hend r hr).1) (by
    intro y r _ hr
    cases y with
    | none => exact (hend r hr).2.2
    | some x => exact stops_cons.mpr rfl)
  apply unique_seg.seq htail
  rintro ⟨disp, sib⟩ r ⟨hdisp, -⟩ hr
  cases disp with
  | cons c disp =>
      have hc : isDispChar c = true := hdisp c List.mem_cons_self
      rintro ⟨⟩
      cases hc
  | nil =>
      cases sib with
      | none => exact (hend r hr).2.1
      | some x => exact (by decide : some '(' ≠ some '%')

/-! ## Names and numerals -/

/-- The name of a 64-bit register. -/
def AddrName (name : Str) (r : GPR) : Prop := REGS.lookup name = some (r, .q, false)

/-- The texts `_num` converts: after stripping and after leading minus signs, a literal of base
16 if the text has a `0x`, else of base 10. -/
def IsNumeral (s : Str) : Prop :=
  IsIntLiteral (if hasSub "0x".toList (strip s) then 16 else 10) ((strip s).dropWhile (· == '-'))

theorem num_ends (s : Str) : Ends (fun _ => IsNumeral s) (fun e => e = .valueError ∧ ¬IsNumeral s)
    (num s) := by
  have hbase : ∀ b : Bool, (if b then 16 else 10) = 10 ∨ (if b then 16 else 10) = 16 := by decide
  have hiff := parseInt_isSome_iff (hbase (hasSub "0x".toList (strip s)))
    (s := (strip s).dropWhile (· == '-'))
  have hint : Ends (fun _ => IsNumeral s) (fun e => e = .valueError ∧ ¬IsNumeral s)
      (pyInt (if hasSub "0x".toList (strip s) then 16 else 10) ((strip s).dropWhile (· == '-'))) := by
    unfold pyInt
    split
    · rename_i h
      refine ⟨rfl, fun hs => ?_⟩
      rw [← Option.not_isSome_iff_eq_none] at h
      exact h (hiff.mpr hs)
    · rename_i v h
      apply hiff.mp
      rw [h]
      rfl
  exact hint.bind fun v hv => hv

theorem reg_ends (tok : Str) : Ends (fun x => ∃ name, tok = '%' :: name ∧
    REGS.lookup name = some x) IsRefused (reg tok) := by
  unfold reg
  split
  · rename_i name
    cases h : REGS.lookup name with
    | none => exact ends_refuse _
    | some x => exact ⟨name, rfl, h⟩
  · exact ends_refuse _

theorem addrReg_ends (msg tok : Str) : Ends (fun r => ∃ name, tok = '%' :: name ∧ AddrName name r)
    IsRefused (addrReg msg tok) := by
  apply (reg_ends tok).bind
  rintro ⟨r, sz, high8⟩ ⟨name, htok, hname⟩
  apply ends_ite
  · exact fun _ => ends_refuse msg
  · intro hwide
    rw [not_or, not_not, Bool.not_eq_true] at hwide
    obtain ⟨rfl, rfl⟩ := hwide
    exact ⟨name, htok, hname⟩

theorem reg_of_name {name : Str} {x : GPR × Size × Bool} (h : REGS.lookup name = some x) :
    reg ('%' :: name) = .ok x := by
  unfold reg
  simp only [h]

theorem addrReg_of_name {name : Str} {r : GPR} (h : AddrName name r) (msg : Str) :
    addrReg msg ('%' :: name) = .ok r := by
  unfold addrReg
  rw [reg_of_name h]
  rfl

/-! ## Addresses -/

/-- The groups of a match, as pieces. -/
def MemParts.base (p : MemParts) : Option Str := p.2.2.bind (·.1)

def MemParts.index (p : MemParts) : Option Str := (p.2.2.bind (·.2)).map (·.1)

def MemParts.scale (p : MemParts) : Option Char := (p.2.2.bind (·.2)).bind (·.2)

/-- What `_ea` makes of pieces. -/
def eaParts (tok : Str) (p : MemParts) : Except PyErr Ea :=
  eaGroups tok p.1 p.2.1 (p.base.map ('%' :: ·)) (p.index.map ('%' :: ·)) (p.scale.map ([·]))

theorem memGrammar_caps (p : MemParts) : let m := memGrammar.caps p fun _ => none
    m 1 = p.1 ∧ m 2 = some p.2.1 ∧ m 3 = p.base.map ('%' :: ·) ∧
      m 4 = p.index.map ('%' :: ·) ∧ m 5 = p.scale.map ([·]) := by
  obtain ⟨seg, disp, sib⟩ := p
  rcases seg with _ | seg <;> rcases sib with _ | ⟨_ | base, _ | ⟨index, _ | scale⟩⟩ <;>
    exact ⟨rfl, rfl, rfl, rfl, rfl⟩

/-- **`_ea` reads the pieces of its text.** -/
theorem ea_of_parts {tok e : Str} {p : MemParts} (hp : memGrammar.wf p) (he : AtEnd e)
    (htok : tok.filter (· ≠ ' ') = memGrammar.text p ++ e) : ea tok = eaParts tok p := by
  obtain ⟨st, hst, hcaps⟩ := parses_mem.exec_unique unique_mem hp he
  obtain ⟨h1, h2, h3, h4, h5⟩ := memGrammar_caps p
  unfold ea
  rw [htok, show MEM.exec _ = some st from hst]
  simp only [hcaps, h1, h2, h3, h4, h5]
  rfl

/-- `_ea` refuses a text that has no pieces. -/
theorem ea_cases (tok : Str) : ea tok = notMem tok ∨ ∃ p e, memGrammar.wf p ∧ AtEnd e ∧
    tok.filter (· ≠ ' ') = memGrammar.text p ++ e ∧ ea tok = eaParts tok p := by
  cases h : MEM.exec (tok.filter (· ≠ ' ')) with
  | none => left; unfold ea; rw [h]
  | some st =>
      obtain ⟨p, e, hp, he, htok, -⟩ := parses_mem.of_exec h
      exact Or.inr ⟨p, e, hp, he, htok, ea_of_parts hp he htok⟩

/-- What a base name denotes: `rip`, or a 64-bit register. -/
def BaseDenotes : Option Str → Option GPR → Bool → Prop
  | none, base, ripRel => base = none ∧ ripRel = false
  | some n, base, ripRel => (n = "rip".toList ∧ base = none ∧ ripRel = true) ∨
      ∃ r, AddrName n r ∧ base = some r ∧ ripRel = false

/-- What an index name and its scale denote: a 64-bit register other than `rsp`. -/
def IndexDenotes : Option Str → Option Char → Option GPR → Scale → Prop
  | none, _, index, scale => index = none ∧ scale = .s1
  | some n, c, index, scale =>
      ∃ r, AddrName n r ∧ r ≠ .rsp ∧ index = some r ∧ scaleOf (c.map ([·])) = .ok scale

/-- **The address that pieces denote.** -/
structure Denotes (p : MemParts) (a : Ea) : Prop where
  nonempty : p.2.1 ≠ [] ∨ p.base ≠ none ∨ p.index ≠ none
  seg : a.seg = segOf p.1
  disp : eaDisp p.2.1 = .ok a.disp
  base : BaseDenotes p.base a.base a.ripRel
  index : IndexDenotes p.index p.scale a.index a.scale
  lock : a.lock = false

theorem eaIndex_ends (tok : Str) (index : Option Str) {scale : Option Char}
    (hscale : ∀ d ∈ scale, isScaleDigit d = true) :
    Ends (fun x => IndexDenotes index scale x.1 x.2) IsRefused
      (eaIndex tok (index.map ('%' :: ·)) (scale.map ([·]))) := by
  cases index with
  | none => exact ⟨rfl, rfl⟩
  | some n =>
      apply (addrReg_ends _ ('%' :: n)).bind
      rintro r ⟨name, hname, hr⟩
      obtain rfl : n = name := (List.cons.inj hname).2
      apply ends_ite
      · exact fun _ => ends_refuse _
      · intro hrsp
        exact (scaleOf_ends hscale).bind fun s hs => ⟨r, hr, hrsp, rfl, hs⟩

theorem eaBase_ends (tok : Str) (base : Option Str) :
    Ends (fun b => BaseDenotes base b false) IsRefused (eaBase tok (base.map ('%' :: ·))) := by
  cases base with
  | none => exact ⟨rfl, rfl⟩
  | some n =>
      apply (addrReg_ends _ ('%' :: n)).map
      rintro r ⟨name, hname, hr⟩
      obtain rfl : n = name := (List.cons.inj hname).2
      exact Or.inr ⟨r, hr, rfl, rfl⟩

theorem eaDisp_ends (disp : Str) : Ends (fun d => eaDisp disp = .ok d)
    (fun e => e = .valueError ∧ disp ≠ [] ∧ ¬IsNumeral disp) (eaDisp disp) := by
  unfold eaDisp
  apply ends_ite
  · intro h
    rw [if_pos h]
    rfl
  · intro h
    rw [if_neg h]
    have hnum := num_ends disp
    cases hd : num disp with
    | ok d => rfl
    | error e =>
        rw [hd] at hnum
        exact ⟨hnum.1, h, hnum.2⟩

/-- The scale digits of a well-formed decomposition. -/
theorem scale_of_wf {p : MemParts} (hp : memGrammar.wf p) :
    ∀ d ∈ p.scale, isScaleDigit d = true := by
  obtain ⟨seg, disp, sib⟩ := p
  rcases sib with _ | ⟨base, _ | ⟨index, _ | c⟩⟩ <;> intro d hd
  case some.some.some =>
    obtain rfl : c = d := Option.some.inj hd
    have hsib := hp.2.2 _ rfl
    have hindex := hsib.2 _ rfl
    exact hindex.2 _ rfl
  all_goals cases hd

/-- **How reading pieces ends**: with the address they denote, with a refusal, or with the
`ValueError` of a displacement that is no numeral. -/
theorem eaParts_ends (tok : Str) {p : MemParts} (hp : memGrammar.wf p) :
    Ends (Denotes p) (fun e => IsRefused e ∨ e = .valueError ∧ p.2.1 ≠ [] ∧ ¬IsNumeral p.2.1)
      (eaParts tok p) := by
  have hrefuse : ∀ msg, Ends (Denotes p) (fun e => IsRefused e ∨
      e = .valueError ∧ p.2.1 ≠ [] ∧ ¬IsNumeral p.2.1) (refuse msg) := fun msg => Or.inl ⟨msg, rfl⟩
  unfold eaParts eaGroups
  apply ends_ite (fun _ => hrefuse _)
  intro hne
  apply ends_ite (fun _ => hrefuse _)
  intro _
  have hnonempty : p.2.1 ≠ [] ∨ p.base ≠ none ∨ p.index ≠ none := by
    by_contra h
    simp only [not_or, not_not] at h
    exact hne ⟨h.1, by rw [h.2.1]; rfl, by rw [h.2.2]; rfl⟩
  apply ((eaDisp_ends p.2.1).imp (fun _ h => h) fun _ h => Or.inr h).bind
  intro d hd
  apply ends_ite
  · intro hrip
    apply ends_ite (fun _ => hrefuse _)
    intro hindex
    have hbase : p.base = some "rip".toList := by
      obtain ⟨n, hn, hn'⟩ := Option.map_eq_some_iff.mp hrip
      have hn'' : '%' :: n = '%' :: "rip".toList := hn'
      rw [hn, (List.cons.inj hn'').2]
    have hindex' : p.index = none := by simpa using hindex
    exact ⟨hnonempty, rfl, hd, hbase ▸ Or.inl ⟨rfl, rfl, rfl⟩, hindex' ▸ ⟨rfl, rfl⟩, rfl⟩
  · intro _
    apply ((eaBase_ends tok p.base).imp (fun _ h => h) fun _ h => Or.inl h).bind
    intro base hbase
    apply ((eaIndex_ends tok p.index (scale_of_wf hp)).imp (fun _ h => h) fun _ h => Or.inl h).bind
    rintro ⟨index, scale⟩ hindex
    exact ⟨hnonempty, rfl, hd, hbase, hindex, rfl⟩

/-- Parentheses in a text come from its pieces. -/
theorem paren_mem {tok e : Str} {p : MemParts} (htok : tok.filter (· ≠ ' ') = memGrammar.text p ++ e)
    (hsib : p.2.2 ≠ none) : '(' ∈ tok := by
  obtain ⟨x, hx⟩ := Option.ne_none_iff_exists'.mp hsib
  have htext : '(' ∈ memGrammar.text p := by
    refine List.mem_append_right _ (List.mem_append_right _ ?_)
    rw [hx]
    exact List.mem_cons_self
  have hmem : '(' ∈ tok.filter (· ≠ ' ') := htok ▸ List.mem_append_left e htext
  exact (List.mem_filter.mp hmem).1

theorem eaIndex_of_denotes {tok : Str} {index : Option Str} {c : Option Char} {i : Option GPR}
    {scale : Scale} (h : IndexDenotes index c i scale) :
    eaIndex tok (index.map ('%' :: ·)) (c.map ([·])) = .ok (i, scale) := by
  cases index with
  | none =>
      obtain ⟨rfl, rfl⟩ := h
      rfl
  | some n =>
      obtain ⟨r, hr, hrsp, rfl, hscale⟩ := h
      unfold eaIndex
      rw [Option.map_some]
      simp only [addrReg_of_name hr, ok_bind, if_neg hrsp, hscale, pure_eq]

/-- **Reading pieces that denote an address gives the address.** -/
theorem eaParts_of_denotes {tok : Str} {p : MemParts} {a : Ea} (h : Denotes p a)
    (hparen : p.2.2 ≠ none → '(' ∈ tok) : eaParts tok p = .ok a := by
  obtain ⟨base, index, scale, disp, ripRel, seg, lock, ripWf⟩ := a
  obtain ⟨hne, hseg, hdisp, hbase, hindex, hlock⟩ := h
  simp only at hseg hdisp hbase hindex hlock
  subst hseg hlock
  have hsome : ¬(p.2.1 = [] ∧ p.base.map ('%' :: ·) = none ∧ p.index.map ('%' :: ·) = none) := by
    rintro ⟨h1, h2, h3⟩
    rw [Option.map_eq_none_iff] at h2 h3
    rcases hne with hne | hne | hne <;> contradiction
  have hparen' : ¬('(' ∉ tok ∧ p.2.1 = []) := by
    rintro ⟨hno, hempty⟩
    have hsib : p.2.2 = none := by
      by_contra hsib
      exact hno (hparen hsib)
    rcases hne with hne | hne | hne
    · exact hne hempty
    · exact hne (by rw [MemParts.base, hsib]; rfl)
    · exact hne (by rw [MemParts.index, hsib]; rfl)
  unfold eaParts eaGroups
  rw [if_neg hsome, if_neg hparen', hdisp, ok_bind]
  rcases hpb : p.base with _ | n
  · rw [hpb] at hbase
    obtain ⟨rfl, rfl⟩ := hbase
    rw [if_neg (by rintro ⟨⟩), eaIndex_of_denotes hindex]
    rfl
  · rw [hpb] at hbase
    rcases hbase with ⟨rfl, rfl, rfl⟩ | ⟨r, hr, rfl, rfl⟩
    · have hnone : index = none := (ripWf rfl).2
      subst hnone
      rcases hpi : p.index with _ | m
      · rw [hpi] at hindex
        obtain ⟨-, rfl⟩ := hindex
        have hrip : (some "rip".toList).map ('%' :: ·) = some "%rip".toList := rfl
        rw [if_pos hrip]
        rfl
      · rw [hpi] at hindex
        obtain ⟨r, -, -, hr, -⟩ := hindex
        cases hr
    · have hrip : (some n).map ('%' :: ·) ≠ some "%rip".toList := by
        rintro h
        obtain rfl : n = "rip".toList := (List.cons.inj (Option.some.inj h)).2
        have hno : REGS.lookup "rip".toList = none := by decide +kernel
        rw [AddrName, hno] at hr
        cases hr
      rw [if_neg hrip, Option.map_some, eaBase, addrReg_of_name hr, eaIndex_of_denotes hindex]
      rfl

/-- The token is read as a memory operand: it is neither a `$` immediate nor a bare register. -/
def MemForm (tok : Str) : Prop :=
  tok.head? ≠ some '$' ∧ ¬(tok.head? = some '%' ∧ ':' ∉ tok ∧ '(' ∉ tok)

/-- The token, without its spaces, is put together from the pieces. -/
def HasParts (tok : Str) (p : MemParts) : Prop :=
  memGrammar.wf p ∧ ∃ e, AtEnd e ∧ tok.filter (· ≠ ' ') = memGrammar.text p ++ e

/-- **The operand that a stripped token stands for.** -/
inductive Reads : Str → Arg → Prop where
  | imm {t : Str} {v : Int} (h : num t = .ok v) : Reads ('$' :: t) (.imm v)
  | reg {name : Str} {r : GPR} {sz : Size} {high8 : Bool} (hcolon : ':' ∉ '%' :: name)
      (hparen : '(' ∉ '%' :: name) (h : REGS.lookup name = some (r, sz, high8)) :
      Reads ('%' :: name) (.reg r sz high8)
  | mem {tok : Str} {p : MemParts} {a : Ea} (hform : MemForm tok) (hp : HasParts tok p)
      (h : Denotes p a) : Reads tok (.mem a)

/-- A token with a number that `int()` does not read: an immediate, or the displacement of a
memory operand. -/
def Unreadable (tok : Str) : Prop :=
  (∃ t, tok = '$' :: t ∧ ¬IsNumeral t) ∨
    (MemForm tok ∧ ∃ p, HasParts tok p ∧ p.2.1 ≠ [] ∧ ¬IsNumeral p.2.1)

theorem HasParts.paren {tok : Str} {p : MemParts} (h : HasParts tok p) :
    p.2.2 ≠ none → '(' ∈ tok := by
  obtain ⟨-, e, -, htok⟩ := h
  exact paren_mem htok

theorem HasParts.ea_eq {tok : Str} {p : MemParts} (h : HasParts tok p) : ea tok = eaParts tok p := by
  obtain ⟨hp, e, he, htok⟩ := h
  exact ea_of_parts hp he htok

theorem operand_of_memForm {tok : Str} (h : MemForm (strip tok)) :
    operand tok = .mem <$> ea (strip tok) := by
  unfold operand
  dsimp only
  split
  · rename_i t ht
    rw [ht] at h
    exact absurd rfl h.1
  · rw [if_neg h.2]

/-- **How reading an operand ends**: with what the token stands for, with a refusal, or with the
`ValueError` of an unreadable number. -/
theorem operand_ends (tok : Str) : Ends (Reads (strip tok))
    (fun e => IsRefused e ∨ e = .valueError ∧ Unreadable (strip tok)) (operand tok) := by
  by_cases hform : MemForm (strip tok)
  · rw [operand_of_memForm hform]
    rcases ea_cases (strip tok) with h | ⟨p, e, hp, he, htok, h⟩
    · rw [h]
      exact Or.inl ⟨_, rfl⟩
    · have hparts : HasParts (strip tok) p := ⟨hp, e, he, htok⟩
      rw [h]
      apply ((eaParts_ends (strip tok) hp).imp (fun _ h => h) _).map
      · exact fun a ha => .mem hform hparts ha
      · rintro e (he | ⟨rfl, hdisp, hnum⟩)
        · exact Or.inl he
        · exact Or.inr ⟨rfl, Or.inr ⟨hform, p, hparts, hdisp, hnum⟩⟩
  · unfold operand
    dsimp only
    split
    · rename_i t ht
      rw [ht]
      have hnum := num_ends t
      cases h : num t with
      | ok v => exact .imm h
      | error e =>
          rw [h] at hnum
          exact Or.inr ⟨hnum.1, Or.inl ⟨t, rfl, hnum.2⟩⟩
    · rename_i hdollar
      have hreg : (strip tok).head? = some '%' ∧ ':' ∉ strip tok ∧ '(' ∉ strip tok := by
        by_contra hreg
        refine hform ⟨fun h => ?_, hreg⟩
        obtain ⟨t, ht⟩ := List.head?_eq_some_iff.mp h
        exact hdollar t ht
      rw [if_pos hreg]
      apply ((reg_ends (strip tok)).imp (fun _ h => h) fun _ h => Or.inl h).map
      rintro ⟨r, sz, high8⟩ ⟨name, hname, hlook⟩
      rw [hname] at hreg ⊢
      exact .reg hreg.2.1 hreg.2.2 hlook

theorem operand_of_reads {tok : Str} {a : Arg} (h : Reads (strip tok) a) : operand tok = .ok a := by
  generalize htok : strip tok = t at h
  cases h with
  | imm h =>
      unfold operand
      rw [htok]
      simp only [h, map_ok]
  | reg hcolon hparen h =>
      unfold operand
      rw [htok]
      simp only
      rw [if_pos ⟨rfl, hcolon, hparen⟩, reg_of_name h]
      rfl
  | mem hform hp h =>
      subst htok
      rw [operand_of_memForm hform, hp.ea_eq, eaParts_of_denotes h hp.paren]
      rfl

/-- A token is read in one way, and not read if its number is unreadable. -/
theorem operand_eq_ok_iff {tok : Str} {a : Arg} : operand tok = .ok a ↔ Reads (strip tok) a :=
  ⟨fun h => (operand_ends tok).of_ok h, operand_of_reads⟩

/-- A token with an unreadable number, before every token that is refused. -/
def FirstUnreadable (toks : List Str) : Prop :=
  ∃ pre t post, toks = pre ++ t :: post ∧ (∀ u ∈ pre, ∃ a, Reads u a) ∧ Unreadable t

/-- **How reading an operand list ends.** -/
theorem operands_ends {toks : List Str} (htoks : ∀ t ∈ toks, strip t = t) :
    Ends (List.Forall₂ Reads toks) (fun e => IsRefused e ∨ e = .valueError ∧ FirstUnreadable toks)
      (toks.mapM operand) := by
  cases h : toks.mapM operand with
  | ok ops =>
      have hrel := mapM_eq_ok_iff.mp h
      refine List.forall₂_iff_zip.mpr ⟨hrel.length_eq, fun {t a} hta => ?_⟩
      have hread := operand_eq_ok_iff.mp (List.forall₂_iff_zip.mp hrel |>.2 hta)
      rwa [htoks t (List.of_mem_zip hta).1] at hread
  | error e =>
      obtain ⟨pre, t, post, rfl, hpre, ht⟩ := mapM_eq_error_iff.mp h
      rcases (operand_ends t).of_error ht with he | ⟨rfl, hun⟩
      · exact Or.inl he
      · refine Or.inr ⟨rfl, pre, t, post, rfl, fun u hu => ?_, ?_⟩
        · obtain ⟨a, ha⟩ := hpre u hu
          rw [operand_eq_ok_iff, htoks u (by simp [hu])] at ha
          exact ⟨a, ha⟩
        · rwa [htoks t (by simp)] at hun

end

end X86Scripts
