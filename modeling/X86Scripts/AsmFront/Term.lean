import X86Scripts.Lib.Readable
import X86Scripts.AsmFront.Names

/-!
# The Lean text of an instruction

The front end returns Lean source text. This module collects the f-strings of
`scripts/asm_front.py` that print it, one for each form of `Op`, and shows that the text says
which instruction it is.

* `bv`, `leanEa`, `leanOperand`: the script's printers of values, addresses and operands.
* `Op.term`, `Instr.term`: the text `translate` returns.
* **`Instr.term_inj`**: two instructions with the same text are the same instruction.
-/

namespace X86Scripts

open X86Scripts.Regex (Stops stops_cons append_inj_of_run)
open X86Scripts.Digits
open X86Scripts.Print

/-! ## Values, addresses and operands -/

/-- A constructor name with its leading dot. -/
def dot {α : Type} [Named α] (a : α) : Str := '.' :: Named.name a

/-- Source: `scripts/asm_front.py`, `bv` -/
def bv {n : Nat} (v : BitVec n) : Str :=
  "(0x".toList ++ hexPad (n / 4) v.toNat ++ "#".toList ++ dec n ++ ")".toList

/-- Source: `scripts/asm_front.py`, `opt` in `lean_ea` -/
def optText {α : Type} (f : α → Str) : Option α → Str
  | none => "none".toList
  | some a => "(some ".toList ++ f a ++ ")".toList

/-- Source: `scripts/asm_front.py`, `lean_ea` -/
def leanEa (ea : Ea) : Str :=
  "\x7b base := ".toList ++ optText dot ea.base ++ ", index := ".toList ++ optText dot ea.index ++
    ", scale := .s".toList ++ dec ea.scale.factor ++ ", disp := ".toList ++ bv ea.disp ++
    ", ripRel := ".toList ++ boolName ea.ripRel ++ ", seg := ".toList ++ optText dot ea.seg ++
    ", lock := ".toList ++ boolName ea.lock ++ " \x7d".toList

/-- Source: `scripts/asm_front.py`, `lean_operand` -/
def leanOperand : Operand → Str
  | .reg r high8 => "(.reg ".toList ++ dot r ++ " ".toList ++ boolName high8 ++ ")".toList
  | .mem ea => "(.mem ".toList ++ leanEa ea ++ ")".toList
  | .imm v => "(.imm ".toList ++ bv v ++ ")".toList

/-- A shift count: `amt` in the shift and `shld` branches of `translate`. -/
def ShiftAmt.term : ShiftAmt → Str
  | .imm8 v => "(.imm8 ".toList ++ bv v ++ ")".toList
  | .cl => ".cl".toList

/-- A branch target, as the branch forms of `translate` print it. -/
def JmpTarget.term : JmpTarget → Str
  | .rel d => "(.rel ".toList ++ bv d ++ ")".toList
  | .indirect o => "(.indirect ".toList ++ leanOperand o ++ ")".toList

/-! ## Instructions -/

/-- The constructor a form is printed with. -/
def Op.ctor : Op → Str
  | .mov .. => "mov".toList | .bin .. => "bin".toList | .un .. => "un".toList
  | .shift .. => "shift".toList | .lea .. => "lea".toList | .push .. => "push".toList
  | .pop .. => "pop".toList | .jmp .. => "jmp".toList | .jcc .. => "jcc".toList
  | .rot .. => "rot".toList | .bit .. => "bit".toList | .setcc .. => "setcc".toList
  | .cmov .. => "cmov".toList | .call .. => "call".toList | .movx .. => "movx".toList
  | .cext .. => "cext".toList | .bswap .. => "bswap".toList | .nop .. => "nop".toList
  | .ret => "ret".toList | .bitcnt .. => "bitcnt".toList | .repstrop .. => "repstrop".toList
  | .muldiv .. => "muldiv".toList | .imulr .. => "imulr".toList | .dshift .. => "dshift".toList

/-- The arguments a form is printed with, in order. -/
def Op.args : Op → List Str
  | .mov sz dst src => [dot sz, leanOperand dst, leanOperand src]
  | .bin k sz dst src => [dot k, dot sz, leanOperand dst, leanOperand src]
  | .un k sz dst => [dot k, dot sz, leanOperand dst]
  | .shift k sz dst amt => [dot k, dot sz, leanOperand dst, amt.term]
  | .lea sz dst ea => [dot sz, dot dst, leanEa ea]
  | .push sz src => [dot sz, leanOperand src]
  | .pop sz dst => [dot sz, leanOperand dst]
  | .jmp t => [t.term]
  | .jcc c d => [dot c, bv d]
  | .rot k sz dst amt => [dot k, dot sz, leanOperand dst, amt.term]
  | .bit k sz dst off => [dot k, dot sz, leanOperand dst, leanOperand off]
  | .setcc c dst => [dot c, leanOperand dst]
  | .cmov c sz dst src => [dot c, dot sz, dot dst, leanOperand src]
  | .call t => [t.term]
  | .movx k dsz ssz dst src => [dot k, dot dsz, dot ssz, dot dst, leanOperand src]
  | .cext k => [dot k]
  | .bswap sz dst => [dot sz, dot dst]
  | .nop dst => [optText leanOperand dst]
  | .ret => []
  | .bitcnt k sz dst src => [dot k, dot sz, dot dst, leanOperand src]
  | .repstrop r k sz => [dot r, dot k, dot sz]
  | .muldiv k sz src => [dot k, dot sz, leanOperand src]
  | .imulr sz dst src imm => [dot sz, dot dst, leanOperand src, optText bv imm]
  | .dshift k sz dst src amt => [dot k, dot sz, leanOperand dst, dot src, amt.term]

/-- The f-string of the branch that returns the form: its constructor and arguments.
Source: `scripts/asm_front.py`, `translate` -/
def Op.term (o : Op) : Str := '.' :: o.ctor ++ o.args.flatMap (" ".toList ++ ·)

/-- The text of an instruction. Source: `scripts/asm_front.py`, `done` in `translate` -/
def Instr.term (i : Instr) : Str :=
  "⟨".toList ++ i.op.term ++ ", ".toList ++ dec i.len ++ "⟩".toList

example : (Instr.mk (.jcc .ne (BitVec.ofInt 64 (-18))) 2).term =
    "⟨.jcc .ne (0xffffffffffffffee#64), 2⟩".toList := by decide +kernel

/-! ## The text says which instruction it is -/

theorem isNameChar_of_isHex {c : Char} (h : isHex c = true) : isNameChar c = true := by
  simp only [isHex, Bool.or_eq_true, Bool.and_eq_true, decide_eq_true_eq] at h
  simp only [isNameChar, Char.isAlphanum, Char.isAlpha, Char.isLower, Char.isDigit,
    Bool.or_eq_true, Bool.and_eq_true, decide_eq_true_eq]
  rcases h with ⟨h0, h9⟩ | ⟨ha, hf⟩
  · exact Or.inr ⟨h0, h9⟩
  · exact Or.inl (Or.inr ⟨ha, Char.le_trans hf (show 'f' ≤ 'z' by decide)⟩)

theorem readable_dot {α : Type} [Named α] : Readable isNameChar (dot : α → Str) := by
  have hname : Readable isNameChar (Named.name : α → Str) := readable_names Named.inj Named.chars
  exact hname.lit_append ['.']

theorem readable_boolName : Readable isNameChar boolName :=
  readable_names (fun _ _ h => Named.inj h) Named.chars

theorem readable_dec : Readable isNameChar dec := by
  apply readable_names (fun _ _ => dec_inj)
  exact fun _ _ hc => isNameChar_of_isHex (isHex_of_mem_dec hc)

theorem Scale.factor_inj {s t : Scale} (h : s.factor = t.factor) : s = t := by
  cases s <;> cases t <;> first | rfl | exact absurd h (by decide)

theorem readable_bv {n : Nat} : Readable isNameChar (bv : BitVec n → Str) := by
  have hhex : Readable isNameChar fun v : BitVec n => hexPad (n / 4) v.toNat := by
    apply readable_names
    · exact fun v w h => BitVec.eq_of_toNat_eq (hexPad_inj h)
    · exact fun v c hc => isNameChar_of_isHex (isHex_of_mem_hexPad hc)
  have htext := (hhex.lit_append "(0x".toList).append_lit ("#".toList ++ dec n ++ ")".toList) rfl
  intro v w r s hr hs h
  apply htext v w r s hr hs
  unfold bv at h
  simp only [List.append_assoc] at h ⊢
  exact h

theorem readable_optText {α : Type} {f : α → Str} (hf : Readable isNameChar f) :
    Readable isNameChar (optText f) := by
  have hsome := (hf.lit_append "(some ".toList).append_lit ")".toList rfl
  have hne : ∀ a r s, "none".toList ++ r ≠ "(some ".toList ++ f a ++ ")".toList ++ s := by
    intro a r s h
    have hhead : some 'n' = some '(' := congrArg List.head? h
    exact absurd hhead (by decide)
  exact hsome.option rfl (fun _ => rfl) hne

theorem readable_leanEa : Readable isNameChar leanEa := by
  intro a b r s _ _ h
  have hgpr : Readable isNameChar (optText (dot : GPR → Str)) := readable_optText readable_dot
  have hseg : Readable isNameChar (optText (dot : Seg → Str)) := readable_optText readable_dot
  -- each field is taken off both sides, from the left
  unfold leanEa at h
  simp only [List.append_assoc, List.append_cancel_left_eq] at h
  rw [hgpr.sep_inj_iff ", index := ".toList rfl, hgpr.sep_inj_iff ", scale := .s".toList rfl,
    readable_dec.sep_inj_iff ", disp := ".toList rfl,
    readable_bv.sep_inj_iff ", ripRel := ".toList rfl,
    readable_boolName.sep_inj_iff ", seg := ".toList rfl,
    hseg.sep_inj_iff ", lock := ".toList rfl,
    readable_boolName.sep_inj_iff " \x7d".toList rfl] at h
  obtain ⟨hbase, hindex, hscale, hdisp, hrip, hsegs, hlock, hrs⟩ := h
  refine ⟨?_, hrs⟩
  have hscale := Scale.factor_inj hscale
  cases a
  cases b
  simp_all

theorem readable_leanOperand : Readable isNameChar leanOperand := by
  intro a b r s _ _ h
  have hgpr : Readable isNameChar (dot : GPR → Str) := readable_dot
  unfold leanOperand at h
  cases a <;> cases b <;> simp only [List.append_assoc] at h
  case reg.reg =>
    rw [List.append_cancel_left_eq, hgpr.sep_inj_iff " ".toList rfl,
      readable_boolName.sep_inj_iff ")".toList rfl] at h
    obtain ⟨rfl, rfl, rfl⟩ := h
    exact ⟨rfl, rfl⟩
  case mem.mem =>
    rw [List.append_cancel_left_eq, readable_leanEa.sep_inj_iff ")".toList rfl] at h
    obtain ⟨rfl, rfl⟩ := h
    exact ⟨rfl, rfl⟩
  case imm.imm =>
    rw [List.append_cancel_left_eq, readable_bv.sep_inj_iff ")".toList rfl] at h
    obtain ⟨rfl, rfl⟩ := h
    exact ⟨rfl, rfl⟩
  all_goals exact absurd h (append_ne_of_take 3 (by decide) _ _)

theorem readable_shiftAmt : Readable isNameChar ShiftAmt.term := by
  intro a b r s _ _ h
  unfold ShiftAmt.term at h
  cases a <;> cases b <;> simp only [List.append_assoc] at h
  case imm8.imm8 =>
    rw [List.append_cancel_left_eq, readable_bv.sep_inj_iff ")".toList rfl] at h
    obtain ⟨rfl, rfl⟩ := h
    exact ⟨rfl, rfl⟩
  case cl.cl => exact ⟨rfl, List.append_cancel_left h⟩
  case imm8.cl => exact absurd h (append_ne_of_take 1 (by decide) _ _)
  case cl.imm8 => exact absurd h (append_ne_of_take 1 (by decide) _ _)

theorem readable_jmpTarget : Readable isNameChar JmpTarget.term := by
  intro a b r s _ _ h
  unfold JmpTarget.term at h
  cases a <;> cases b <;> simp only [List.append_assoc] at h
  case rel.rel =>
    rw [List.append_cancel_left_eq, readable_bv.sep_inj_iff ")".toList rfl] at h
    obtain ⟨rfl, rfl⟩ := h
    exact ⟨rfl, rfl⟩
  case indirect.indirect =>
    rw [List.append_cancel_left_eq, readable_leanOperand.sep_inj_iff ")".toList rfl] at h
    obtain ⟨rfl, rfl⟩ := h
    exact ⟨rfl, rfl⟩
  all_goals exact absurd h (append_ne_of_take 3 (by decide) _ _)

/-- The constructor names, in the order of the constructors. -/
def ctorNames : List Str :=
  ["mov", "bin", "un", "shift", "lea", "push", "pop", "jmp", "jcc", "rot", "bit", "setcc", "cmov",
   "call", "movx", "cext", "bswap", "nop", "ret", "bitcnt", "repstrop", "muldiv", "imulr",
   "dshift"].map String.toList

theorem ctorNames_nodup : ctorNames.Nodup := by decide

theorem isNameChar_of_mem_ctorNames : ∀ s ∈ ctorNames, ∀ c ∈ s, isNameChar c = true := by
  have hall : (ctorNames.all fun s => s.all isNameChar) = true := by decide
  exact fun s hs c hc => List.all_eq_true.mp (List.all_eq_true.mp hall s hs) c hc

theorem Op.ctor_eq (o : Op) : ctorNames[o.ctorIdx]? = some o.ctor := by cases o <;> rfl

theorem Op.ctor_mem (o : Op) : o.ctor ∈ ctorNames := List.mem_of_getElem? o.ctor_eq

theorem Op.ctorIdx_eq_of_ctor_eq {a b : Op} (h : a.ctor = b.ctor) : a.ctorIdx = b.ctorIdx := by
  obtain ⟨hlt, -⟩ := List.getElem?_eq_some_iff.mp a.ctor_eq
  apply (List.getElem?_inj hlt ctorNames_nodup).mp
  rw [a.ctor_eq, b.ctor_eq, h]

/-- **The text of a form says which form it is**, also in front of a longer text. -/
theorem readable_term : Readable isNameChar Op.term := by
  intro a b r s hr hs h
  have hchars : ∀ o : Op, ∀ c ∈ o.ctor, isNameChar c = true :=
    fun o => isNameChar_of_mem_ctorNames _ o.ctor_mem
  have hstop : ∀ (o : Op) (t : Str), Stops isNameChar t →
      Stops isNameChar (o.args.flatMap (" ".toList ++ ·) ++ t) := by
    intro o t ht
    cases o.args with
    | nil => exact ht
    | cons x xs => exact stops_cons.mpr rfl
  -- the constructors agree, and then the arguments one by one
  unfold Op.term at h
  simp only [List.cons_append, List.append_assoc, List.cons.injEq, true_and] at h
  obtain ⟨hctor, hargs⟩ :=
    append_inj_of_run h (hchars a) (hchars b) (hstop a r hr) (hstop b s hs)
  have hdot : ∀ {α : Type} [Named α] {x y : α} {t u : Str},
      dot x ++ (" ".toList ++ t) = dot y ++ (" ".toList ++ u) ↔ x = y ∧ t = u :=
    readable_dot.sep_inj_iff " ".toList rfl
  have hdot' : ∀ {α : Type} [Named α] {x y : α}, dot x ++ r = dot y ++ s ↔ x = y ∧ r = s :=
    readable_dot.append_inj_iff hr hs
  have hidx := Op.ctorIdx_eq_of_ctor_eq hctor
  cases a <;> cases b <;> first | cases hidx; done | skip
  all_goals
    simp only [Op.args, List.flatMap_cons, List.flatMap_nil, List.append_assoc, List.append_nil,
      List.append_cancel_left_eq, List.nil_append, hdot, hdot',
      readable_leanOperand.sep_inj_iff " ".toList rfl, readable_leanOperand.append_inj_iff hr hs,
      readable_leanEa.append_inj_iff hr hs, readable_bv.append_inj_iff hr hs,
      readable_shiftAmt.append_inj_iff hr hs, readable_jmpTarget.append_inj_iff hr hs,
      (readable_optText readable_leanOperand).append_inj_iff hr hs,
      (readable_optText readable_bv).append_inj_iff hr hs] at hargs
    grind

end X86Scripts
