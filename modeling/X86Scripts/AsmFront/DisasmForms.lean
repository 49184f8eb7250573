import X86Scripts.AsmFront.DisasmReads
import X86Scripts.AsmFront.TranslateEnds

/-!
# The branches of `translate` on printed operands

* `Takes`: a mnemonic that reaches the operand reader and takes a given branch there.
  **`takes_mnemonic`**: no printed mnemonic is taken by an earlier branch.
* `Spelling.size_args`, `Spelling.operands_back`: the helpers of the branches on printed operands.
* **`form_args`**: each branch rebuilds the instruction it was printed from.
-/

namespace X86Scripts

open X86Scripts.Regex
open X86Scripts.Py
open X86Scripts.Digits
open X86Scripts.Outcome

/-! ## Mnemonics -/

/-- The mnemonic is one word, reaches the operand reader, and takes the branch there. -/
def Takes (mn : Str) (form : Form) : Prop :=
  mn ≠ [] ∧ (mn.all fun c => !isSpace c) = true ∧
    mn ∉ ["lock".toList, "ret".toList, "retq".toList, "rep".toList] ∧
    isBranchMnemonic mn = false ∧ branchOf mn = some form

instance (mn : Str) (form : Form) : Decidable (Takes mn form) := inferInstanceAs (Decidable (_ ∧ _))

/-- The suffixes of a mnemonic. -/
def suffixes : List (Option Size) := [none, some .b, some .w, some .d, some .q]

theorem mem_suffixes (sz : Option Size) : sz ∈ suffixes := by
  rcases sz with _ | _ | _ | _ | _ <;> decide

/-- The mnemonics of a table's bases, with every suffix. -/
def spelled {α : Type} (bases : List (Str × α)) (form : α → Option Size → Form) : List (Str × Form) :=
  bases.flatMap fun x => suffixes.map fun sz => (x.1 ++ suffixText sz, form x.2 sz)

theorem takes_spelled {α : Type} {bases : List (Str × α)} {form : α → Option Size → Form}
    (h : ∀ x ∈ spelled bases form, Takes x.1 x.2) {name : Str} {a : α} (ha : (name, a) ∈ bases)
    (sz : Option Size) : Takes (name ++ suffixText sz) (form a sz) := by
  apply h (name ++ suffixText sz, form a sz)
  unfold spelled
  rw [List.mem_flatMap]
  exact ⟨(name, a), ha, List.mem_map_of_mem (mem_suffixes sz)⟩

/-- The branch of an instruction behind the operand reader. -/
def Spelling.form (s : Spelling) : Op → Form
  | .mov sz dst src => .mov (s.suffix sz [src, dst])
  | .bin k sz dst src => .bin k (s.suffix sz [src, dst])
  | .un k sz dst => .un k (s.suffix sz [dst])
  | .shift k sz dst _ => .shiftRot (.shift k) (s.suffix sz [dst])
  | .lea sz dst _ => .lea (s.suffix sz [.reg dst false])
  | .push sz src => .push (s.stackSize sz src)
  | .pop sz dst => .pop (s.stackSize sz dst)
  | .rot k sz dst _ => .shiftRot (.rot k) (s.suffix sz [dst])
  | .bit k sz dst off => .bit k (s.suffix sz [off, dst])
  | .setcc c _ => .setcc c
  | .cmov c sz dst src => .cmov c (s.suffix sz [src, .reg dst false])
  | .movx k dsz ssz _ src =>
    if s.bare src then .movxBare k
    else .movx (some [k.letter]) (some [ssz.suffix]) (some [dsz.suffix])
  | .cext _ => .cltq
  | .bswap sz dst => .bswap (s.suffix sz [.reg dst false])
  | .nop dst => .nop ((dst.bind fun o => s.suffix s.nopSize [o]).getD .d)
  | .bitcnt _ sz dst src => .bsr (s.suffix sz [src, .reg dst false])
  | .muldiv k sz src => if k = .mul then .mul (s.suffix sz [src]) else .imul (s.suffix sz [src])
  | .imulr sz dst src _ => .imul (s.suffix sz [src, .reg dst false])
  | .dshift _ sz dst src _ => .shld (s.suffix sz [.reg src false, dst])
  -- branches and string operations go past the operand reader
  | .jmp _ | .jcc _ _ | .call _ | .ret | .repstrop _ _ _ => .cltq

/-- The instructions whose operands the operand reader reads as a list. -/
def Op.readsOperands : Op → Bool
  | .jmp _ | .jcc _ _ | .call _ | .ret | .repstrop _ _ _ => false
  | _ => true

theorem mem_named {α : Type} {name : α → Str} {all : List α} {a : α} (h : a ∈ all) :
    (name a, a) ∈ named name all := List.mem_map_of_mem h

/-- The sixteen condition codes. -/
def ccs : List Cc := [.o, .no, .b, .ae, .e, .ne, .be, .a, .s, .ns, .p, .np, .l, .ge, .le, .g]

theorem mem_ccs (c : Cc) : c ∈ ccs := by cases c <;> decide

/-- The mnemonics of `movzx` and `movsx` with their widths. -/
def movxSpelled : List (Str × Form) :=
  [MovxKind.zero, .sign].flatMap fun k => [Size.b, .w, .d].flatMap fun ssz =>
    [Size.w, .d, .q].map fun dsz => ("mov".toList ++ [k.letter, ssz.suffix, dsz.suffix],
      .movx (some [k.letter]) (some [ssz.suffix]) (some [dsz.suffix]))

theorem takes_movxSpelled : ∀ x ∈ movxSpelled, Takes x.1 x.2 := by decide +kernel

theorem mem_movxSpelled (k : MovxKind) {ssz dsz : Size} (hssz : ssz ≠ .q) (hdsz : dsz ≠ .b) :
    ("mov".toList ++ [k.letter, ssz.suffix, dsz.suffix],
      Form.movx (some [k.letter]) (some [ssz.suffix]) (some [dsz.suffix])) ∈ movxSpelled := by
  have hk : k ∈ [MovxKind.zero, .sign] := by cases k <;> decide
  have hwidths : ssz ∈ [Size.b, .w, .d] ∧ dsz ∈ [Size.w, .d, .q] := by
    revert hssz hdsz
    cases ssz <;> cases dsz <;> decide
  obtain ⟨hs, hd⟩ := hwidths
  unfold movxSpelled
  simp only [List.mem_flatMap]
  exact ⟨k, hk, ssz, hs, List.mem_map_of_mem hd⟩

/-- **No printed mnemonic is taken by an earlier branch.** -/
theorem takes_mnemonic (s : Spelling) {op : Op} (hform : op.returned = true)
    (hspells : s.spells op = true) (hread : op.readsOperands = true) :
    Takes (s.mnemonic op) (s.form op) := by
  cases op with
  | mov sz dst src =>
      have hmem : (if s.movabs then "movabs".toList else "mov".toList, ()) ∈
          only "movabs" ++ only "mov" := by
        split <;> decide
      exact takes_spelled (by decide +kernel :
        ∀ x ∈ spelled (only "movabs" ++ only "mov") fun _ => Form.mov, Takes x.1 x.2) hmem _
  | bin k sz dst src =>
      exact takes_spelled (by decide +kernel : ∀ x ∈ spelled BIN .bin, Takes x.1 x.2)
        (mem_named (by cases k <;> decide)) _
  | un k sz dst =>
      exact takes_spelled (by decide +kernel : ∀ x ∈ spelled UN .un, Takes x.1 x.2)
        (mem_named (by cases k <;> decide)) _
  | shift k sz dst amt =>
      exact takes_spelled (by decide +kernel :
        ∀ x ∈ spelled SHIFT fun k => Form.shiftRot (.shift k), Takes x.1 x.2)
        (mem_named (by cases k <;> decide)) _
  | lea sz dst ea =>
      exact takes_spelled (by decide +kernel :
        ∀ x ∈ spelled (only "lea") fun _ => Form.lea, Takes x.1 x.2) List.mem_cons_self _
  | push sz src =>
      exact takes_spelled (by decide +kernel :
        ∀ x ∈ spelled (only "push") fun _ => Form.push, Takes x.1 x.2) List.mem_cons_self _
  | pop sz dst =>
      exact takes_spelled (by decide +kernel :
        ∀ x ∈ spelled (only "pop") fun _ => Form.pop, Takes x.1 x.2) List.mem_cons_self _
  | rot k sz dst amt =>
      have hk : k ∈ [RotKind.rol, .ror] := by
        cases k <;> first | decide | cases hform
      exact takes_spelled (by decide +kernel :
        ∀ x ∈ spelled ROT fun k => Form.shiftRot (.rot k), Takes x.1 x.2) (mem_named hk) _
  | bit k sz dst off =>
      have hk : k ∈ [BitKind.bts, .btr] := by
        cases k <;> first | decide | cases hform
      exact takes_spelled (by decide +kernel :
        ∀ x ∈ spelled (named BitKind.name [.bts, .btr]) .bit, Takes x.1 x.2) (mem_named hk) _
  | setcc c dst =>
      have hall : ∀ c ∈ ccs, Takes ("set".toList ++ c.name) (.setcc c) := by decide +kernel
      exact hall c (mem_ccs c)
  | cmov c sz dst src =>
      exact takes_spelled (by decide +kernel :
        ∀ x ∈ spelled (named (fun c : Cc => "cmov".toList ++ c.name) ccs) .cmov, Takes x.1 x.2)
        (mem_named (mem_ccs c)) _
  | movx k dsz ssz dst src =>
      show Takes (if s.bare src then _ else _) (if s.bare src then _ else _)
      by_cases hbare : s.bare src = true
      · rw [if_pos hbare, if_pos hbare]
        cases k <;> decide +kernel
      · rw [if_neg hbare, if_neg hbare]
        simp only [Spelling.spells, hbare, Bool.false_or, Bool.and_eq_true, bne_iff_ne] at hspells
        exact takes_movxSpelled _ (mem_movxSpelled k hspells.1 hspells.2)
  | cext k => exact (by decide +kernel : Takes "cltq".toList .cltq)
  | bswap sz dst =>
      exact takes_spelled (by decide +kernel :
        ∀ x ∈ spelled (only "bswap") fun _ => Form.bswap, Takes x.1 x.2) List.mem_cons_self _
  | nop dst =>
      have hall : ∀ sz ∈ suffixes, sz ≠ some .b →
          Takes ("nop".toList ++ suffixText sz) (.nop (sz.getD .d)) := by
        decide +kernel
      apply hall _ (mem_suffixes _)
      cases dst with
      | none => rintro ⟨⟩
      | some o =>
          rw [Option.bind_some, Spelling.suffix]
          split
          · rintro ⟨⟩
          · exact fun h => s.nopSize_ne (Option.some.inj h)
  | bitcnt k sz dst src =>
      obtain rfl : k = .bsr := by
        simp only [Op.returned, Bool.and_eq_true, beq_iff_eq] at hform
        exact hform.1.1
      exact takes_spelled (by decide +kernel :
        ∀ x ∈ spelled (only "bsr") fun _ => Form.bsr, Takes x.1 x.2) List.mem_cons_self _
  | muldiv k sz src =>
      have hmul := takes_spelled (by decide +kernel :
        ∀ x ∈ spelled (only "mul") fun _ => Form.mul, Takes x.1 x.2) List.mem_cons_self
      have himul := takes_spelled (by decide +kernel :
        ∀ x ∈ spelled (only "imul") fun _ => Form.imul, Takes x.1 x.2) List.mem_cons_self
      cases k with
      | mul => exact hmul _
      | imul => exact himul _
      | div => cases hform
      | idiv => cases hform
  | imulr sz dst src imm =>
      exact takes_spelled (by decide +kernel :
        ∀ x ∈ spelled (only "imul") fun _ => Form.imul, Takes x.1 x.2) List.mem_cons_self _
  | dshift k sz dst src amt =>
      obtain rfl : k = .shld := by
        simp only [Op.returned, Bool.and_eq_true, beq_iff_eq] at hform
        exact hform.1.1
      exact takes_spelled (by decide +kernel :
        ∀ x ∈ spelled (only "shld") fun _ => Form.shld, Takes x.1 x.2) List.mem_cons_self _
  | jmp t => cases hread
  | jcc c d => cases hread
  | call t => cases hread
  | ret => cases hread
  | repstrop r k sz => cases hread

/-! ## The helpers on printed operands -/

theorem Op.sized_eas (op : Op) : op.sized.filterMap (fun x => x.2.ea?) = op.eas.reverse := by
  cases op with
  | mov sz dst src => cases src <;> cases dst <;> rfl
  | bin k sz dst src => cases src <;> cases dst <;> rfl
  | shift k sz dst amt => cases amt <;> cases dst <;> rfl
  | rot k sz dst amt => cases amt <;> cases dst <;> rfl
  | dshift k sz dst src amt => cases amt <;> cases dst <;> rfl
  | bit k sz dst off => cases off <;> cases dst <;> rfl
  | jmp t => rcases t with d | _ | _ | _ <;> rfl
  | call t => rcases t with d | _ | _ | _ <;> rfl
  | nop dst => rcases dst with _ | _ | _ | _ <;> rfl
  | imulr sz dst src imm => cases imm <;> cases src <;> rfl
  | un k sz dst => cases dst <;> rfl
  | push sz src => cases src <;> rfl
  | pop sz dst => cases dst <;> rfl
  | setcc c dst => cases dst <;> rfl
  | cmov c sz dst src => cases src <;> rfl
  | movx k dsz ssz dst src => cases src <;> rfl
  | bitcnt k sz dst src => cases src <;> rfl
  | muldiv k sz src => cases src <;> rfl
  | lea sz dst ea => rfl
  | jcc c d => rfl
  | cext k => rfl
  | bswap sz dst => rfl
  | ret => rfl
  | repstrop r k sz => rfl

namespace Spelling

variable (s : Spelling)

@[simp] theorem arg_ea? (x : Size × Operand) :
    (s.arg x).ea? = x.2.ea?.map fun ea => { ea with lock := false } := by
  obtain ⟨sz, _ | _ | _⟩ := x <;> rfl

@[simp] theorem arg_isImm (x : Size × Operand) : (s.arg x).isImm = x.2.isImm := by
  obtain ⟨sz, _ | _ | _⟩ := x <;> rfl

@[simp] theorem arg_isMem (x : Size × Operand) : (s.arg x).isMem = x.2.ea?.isSome := by
  obtain ⟨sz, _ | _ | _⟩ := x <;> rfl

@[simp] theorem arg_width (x : Size × Operand) :
    (s.arg x).width = if x.2.isReg then some x.1 else none := by
  obtain ⟨sz, _ | _ | _⟩ := x <;> rfl

theorem noImmDst_arg (c : Ctx) {x : Size × Operand} (h : x.2.isImm = false) :
    noImmDst c (s.arg x) = .ok () := by
  unfold noImmDst
  rw [arg_isImm, h]
  rfl

/-- The widths of printed operands: the one width, if one of them is a register. -/
theorem widthsOf_args (sz : Size) (os : List Operand) :
    widthsOf (os.map fun o => s.arg (sz, o)) = if os.any Operand.isReg then [sz] else [] := by
  have hmem : ∀ sz', sz' ∈ (os.map fun o => s.arg (sz, o)).filterMap Arg.width ↔
      sz' = sz ∧ os.any Operand.isReg = true := by
    intro sz'
    simp only [List.mem_filterMap, List.mem_map, exists_exists_and_eq_and, arg_width,
      Option.ite_none_right_eq_some, Option.some.injEq, List.any_eq_true]
    grind
  unfold widthsOf
  simp only [hmem]
  cases os.any Operand.isReg
  · simp
  · cases sz <;> decide

/-- **`_size` gives the width the operands were printed at**, with or without the suffix. -/
theorem size_args (c : Ctx) (sz : Size) (os : List Operand) :
    size c (s.suffix sz os) (os.map fun o => s.arg (sz, o)) = .ok sz := by
  unfold size
  rw [widthsOf_args]
  by_cases h : s.tool = .gnu ∧ os.any Operand.isReg = true
  · rw [suffix, if_pos h, if_pos h.2]
    rfl
  · rw [suffix, if_neg h]
    dsimp only
    rw [if_neg]
    · rfl
    · split <;> simp

/-- The memory operands as they are printed are the addresses of the instruction. -/
theorem operands_eas (op : Op) :
    (s.operands op).filterMap (fun x => x.2.ea?) = op.eas.reverse := by
  rw [← op.sized_eas]
  cases op with
  | shift k sz dst amt =>
      unfold operands
      dsimp only
      split
      · cases amt <;> rfl
      · rfl
  | rot k sz dst amt =>
      unfold operands
      dsimp only
      split
      · cases amt <;> rfl
      · rfl
  | nop dst => rcases dst with _ | _ | _ | _ <;> rfl
  | _ => rfl

theorem fits_operands {op : Op} (h : Core op) : ∀ x ∈ s.operands op, x.2.Fits x.1 := by
  have hfits := h.fits
  cases op with
  | shift k sz dst amt =>
      intro x hx
      unfold operands at hx
      dsimp only at hx
      split at hx
      · exact hfits x (List.mem_cons_of_mem _ hx)
      · exact hfits x hx
  | rot k sz dst amt =>
      intro x hx
      unfold operands at hx
      dsimp only at hx
      split at hx
      · exact hfits x (List.mem_cons_of_mem _ hx)
      · exact hfits x hx
  | nop dst =>
      intro x hx
      obtain ⟨o, ho, rfl⟩ := List.mem_map.mp hx
      have ho' : o.Fits .q := hfits (.q, o) (List.mem_map_of_mem ho)
      cases o with
      | reg r high8 =>
          -- 64 bits are no high byte, so no width is excluded
          rintro rfl
          cases (ho' rfl).2
      | imm v =>
          have himm := h.inCore
          rw [Option.mem_toList.mp ho] at himm
          cases himm
      | mem ea => exact ho'
  | _ => exact hfits

/-- An instruction of the core is printable in every spelling. -/
theorem printable_of_core {op : Op} (h : Core op) : Printable s op where
  form := Op.returned_of_inCore h.inCore
  fits := s.fits_operands h
  lock := by
    intro hlock
    have hne : op.eas ≠ [] := by
      intro hnil
      rw [Op.lock, hnil] at hlock
      cases hlock
    exact Nat.le_antisymm h.oneMem (List.length_pos_iff.mpr hne)
  spells := by
    have hcore := h.inCore
    cases op with
    | movx k dsz ssz dst src =>
        simp only [Op.inCore, Bool.and_eq_true, decide_eq_true_eq] at hcore
        have hlt := hcore.1.1
        revert hlt
        cases ssz <;> cases dsz <;> simp [Size.bits, spells]
    | _ => rfl

/-- The `lock` of an instruction is that of each of its addresses. -/
theorem lock_of_mem_eas {op : Op} (h : op.lock = true → op.eas.length = 1) {ea : Ea}
    (hea : ea ∈ op.eas) : ea.lock = op.lock := by
  cases hlock : op.lock with
  | false =>
      rw [Op.lock, List.any_eq_false] at hlock
      simpa using hlock ea hea
  | true =>
      obtain ⟨ea', heas⟩ := List.length_eq_one_iff.mp (h hlock)
      rw [heas, List.mem_singleton] at hea
      subst hea
      rw [Op.lock, heas] at hlock
      simpa using hlock

/-- **The line of a printed instruction gives its operands back**, and its `lock` is accepted. -/
theorem operands_back {c : Ctx} {op : Op} (h : Printable s op) (hlock : c.lock = op.lock) :
    (∀ r, done c ((s.operands op).map s.arg) r = r) ∧
      ∀ x ∈ s.operands op, (s.arg x).operand c.lock x.1 = x.2 := by
  constructor
  · intro r
    have hlen : (((s.operands op).map s.arg).filter Arg.isMem).length = op.eas.length := by
      have hlen : op.eas.length = op.eas.reverse.length := List.length_reverse.symm
      rw [hlen, ← s.operands_eas, List.filter_map, List.length_map,
        ← List.countP_eq_length_filter, List.length_filterMap_eq_countP]
      congr 1
      funext x
      exact s.arg_isMem x
    unfold done memLock
    rw [if_neg]
    · rfl
    · rintro ⟨hl, hne⟩
      rw [hlen] at hne
      exact hne (h.lock (hlock ▸ hl))
  · intro x hx
    refine s.operand_arg (h.fits x hx) ?_
    intro ea hea
    have hmem : ea ∈ op.eas := by
      rw [← List.mem_reverse, ← s.operands_eas]
      exact List.mem_filterMap.mpr ⟨x, hx, hea⟩
    rw [hlock, lock_of_mem_eas h.lock hmem]

end Spelling

/-! ## The branches on printed operands -/

section forms

variable {s : Spelling} {c : Ctx}

theorem movOp_args {sz : Size} {dst src : Operand} (h : Printable s (.mov sz dst src))
    (hlock : c.lock = (Op.mov sz dst src).lock) :
    movOp c (s.suffix sz [src, dst]) [s.arg (sz, src), s.arg (sz, dst)] = .ok (.mov sz dst src) := by
  obtain ⟨hdone, hback⟩ := s.operands_back h hlock
  have hdst : dst.isImm = false := by simpa [Op.returned] using h.form
  have hsize : size c (s.suffix sz [src, dst]) [s.arg (sz, src), s.arg (sz, dst)] = .ok sz :=
    s.size_args c sz [src, dst]
  have hdst' := hback (sz, dst) (by simp [Spelling.operands, Op.sized])
  have hsrc' := hback (sz, src) (by simp [Spelling.operands, Op.sized])
  unfold movOp
  dsimp only
  rw [s.noImmDst_arg c hdst, ok_bind, hsize, ok_bind, hdst', hsrc']
  exact hdone _

theorem binOp_args {k : BinKind} {sz : Size} {dst src : Operand} (h : Printable s (.bin k sz dst src))
    (hlock : c.lock = (Op.bin k sz dst src).lock) :
    binOp c k (s.suffix sz [src, dst]) [s.arg (sz, src), s.arg (sz, dst)] =
      .ok (.bin k sz dst src) := by
  obtain ⟨hdone, hback⟩ := s.operands_back h hlock
  have hdst : dst.isImm = false := by simpa [Op.returned] using h.form
  have hsize : size c (s.suffix sz [src, dst]) [s.arg (sz, src), s.arg (sz, dst)] = .ok sz :=
    s.size_args c sz [src, dst]
  have hdst' := hback (sz, dst) (by simp [Spelling.operands, Op.sized])
  have hsrc' := hback (sz, src) (by simp [Spelling.operands, Op.sized])
  unfold binOp
  dsimp only
  rw [s.noImmDst_arg c hdst, ok_bind, hsize, ok_bind, hdst', hsrc']
  exact hdone _

theorem unOp_args {k : UnKind} {sz : Size} {dst : Operand} (h : Printable s (.un k sz dst))
    (hlock : c.lock = (Op.un k sz dst).lock) :
    unOp c k (s.suffix sz [dst]) [s.arg (sz, dst)] = .ok (.un k sz dst) := by
  obtain ⟨hdone, hback⟩ := s.operands_back h hlock
  have hdst : dst.isImm = false := by simpa [Op.returned] using h.form
  have hsize : size c (s.suffix sz [dst]) [s.arg (sz, dst)] = .ok sz := s.size_args c sz [dst]
  have hdst' := hback (sz, dst) (by simp [Spelling.operands, Op.sized])
  unfold unOp
  dsimp only
  rw [s.noImmDst_arg c hdst, ok_bind, hsize, ok_bind, hdst']
  exact hdone _

/-- A printed count is the count. -/
theorem shiftCount_arg (amt : ShiftAmt) : shiftCount c (s.arg amt.sized) = .ok amt := by
  cases amt with
  | cl => rfl
  | imm8 v =>
      have hlt : (v.setWidth 64).toNat < 2 ^ Size.b.bits := by
        rw [BitVec.toNat_setWidth_of_le (by decide)]
        exact v.isLt
      have hmod := s.immValue_emod hlt
      show Except.ok (ShiftAmt.imm8 (BitVec.ofInt 8 (s.immValue .b (v.setWidth 64)))) = _
      congr 2
      apply BitVec.eq_of_toNat_eq
      rw [BitVec.toNat_ofInt]
      change (s.immValue .b (v.setWidth 64) % ((2 ^ Size.b.bits : Nat) : Int)).toNat = _
      rw [hmod, Int.toNat_natCast, BitVec.toNat_setWidth_of_le (by decide)]

theorem shiftRotOp_args {k : ShiftRot} {sz : Size} {dst : Operand} {amt : ShiftAmt}
    (h : Printable s (k.op sz dst amt)) (hlock : c.lock = (k.op sz dst amt).lock) :
    shiftRotOp c k (s.suffix sz [dst]) ((s.operands (k.op sz dst amt)).map s.arg) =
      .ok (k.op sz dst amt) := by
  obtain ⟨hdone, hback⟩ := s.operands_back h hlock
  have hdst : dst.isImm = false := by
    have hform := h.form
    cases k with
    | shift k => simpa [Op.returned, ShiftRot.op] using hform
    | rot k =>
        simp only [ShiftRot.op, Op.returned, Bool.and_eq_true, Bool.not_eq_true'] at hform
        exact hform.2
  have hsize : size c (s.suffix sz [dst]) [s.arg (sz, dst)] = .ok sz := s.size_args c sz [dst]
  have hops : s.operands (k.op sz dst amt) =
      if s.dropsCount amt then [(sz, dst)] else [amt.sized, (sz, dst)] := by
    cases k <;> rfl
  have hdst' := hback (sz, dst) (by rw [hops]; split <;> simp)
  rw [hops] at hdone ⊢
  unfold shiftRotOp
  by_cases hdrop : s.dropsCount amt = true
  · obtain rfl : amt = .imm8 1 := by
      simp only [Spelling.dropsCount, Bool.and_eq_true, decide_eq_true_eq] at hdrop
      exact hdrop.2
    simp only [if_pos hdrop, List.map_cons, List.map_nil] at hdone ⊢
    unfold shiftDone
    rw [s.noImmDst_arg c hdst, ok_bind, hsize, ok_bind, hdst']
    exact hdone _
  · simp only [if_neg hdrop, List.map_cons, List.map_nil] at hdone ⊢
    rw [shiftCount_arg, ok_bind]
    unfold shiftDone
    rw [s.noImmDst_arg c hdst, ok_bind, hsize, ok_bind, hdst']
    exact hdone _

theorem leaOp_args {sz : Size} {dst : GPR} {ea : Ea} (h : Printable s (.lea sz dst ea))
    (hlock : c.lock = (Op.lea sz dst ea).lock) :
    leaOp c (s.suffix sz [.reg dst false]) [s.arg (sz, .mem ea), s.arg (sz, .reg dst false)] =
      .ok (.lea sz dst ea) := by
  obtain ⟨hdone, hback⟩ := s.operands_back h hlock
  have hsize : size c (s.suffix sz [.reg dst false]) [.reg dst sz false] = .ok sz :=
    s.size_args c sz [.reg dst false]
  have hea := Operand.mem.inj (hback (sz, .mem ea) (by simp [Spelling.operands, Op.sized]))
  show (do
    let s ← size c (s.suffix sz [.reg dst false]) [.reg dst sz false]
    done c _ (.ok (.lea s dst { ea with lock := false || c.lock }))) = _
  rw [hsize, ok_bind, hea]
  exact hdone _

/-- The width `push` and `pop` take is the printed one, or the default. -/
theorem stackSize_getD (sz : Size) (o : Operand) :
    (s.stackSize sz o).getD ((s.arg (sz, o)).width.getD .q) = sz := by
  rw [Spelling.arg_width]
  unfold Spelling.stackSize Spelling.suffix
  split
  · rename_i hq
    rw [hq.2.1]
    split <;> rfl
  · split
    · rename_i hreg
      have hreg' : o.isReg = true := by simpa using hreg.2
      rw [hreg']
      rfl
    · rfl

theorem width_any (sz : Size) (o : Operand) : (s.arg (sz, o)).width.any (· != sz) = false := by
  rw [Spelling.arg_width]
  split
  · simp
  · rfl

theorem stackDone_args {f : Size → Operand → Op} {sz : Size} {o : Operand}
    (hsz : (sz == .q || sz == .w) = true) (hdone : ∀ r, done c [s.arg (sz, o)] r = r)
    (hback : (s.arg (sz, o)).operand c.lock sz = o) :
    stackDone c f (s.stackSize sz o) (s.arg (sz, o)) = .ok (f sz o) := by
  have hmem : ¬sz ∉ [Size.q, .w] := by
    have hqw : sz = .q ∨ sz = .w := by simpa using hsz
    rcases hqw with rfl | rfl <;> decide
  unfold stackDone
  rw [stackSize_getD]
  dsimp only
  rw [width_any, if_neg Bool.false_ne_true, if_neg hmem, hback]
  exact hdone _

theorem pushOp_args {sz : Size} {src : Operand} (h : Printable s (.push sz src))
    (hlock : c.lock = (Op.push sz src).lock) :
    pushOp c (s.stackSize sz src) [s.arg (sz, src)] = .ok (.push sz src) := by
  obtain ⟨hdone, hback⟩ := s.operands_back h hlock
  exact stackDone_args h.form hdone (hback (sz, src) List.mem_cons_self)

theorem popOp_args {sz : Size} {dst : Operand} (h : Printable s (.pop sz dst))
    (hlock : c.lock = (Op.pop sz dst).lock) :
    popOp c (s.stackSize sz dst) [s.arg (sz, dst)] = .ok (.pop sz dst) := by
  obtain ⟨hdone, hback⟩ := s.operands_back h hlock
  have hform := h.form
  rw [Op.returned, Bool.and_eq_true, Bool.not_eq_true'] at hform
  unfold popOp
  dsimp only
  rw [s.noImmDst_arg c hform.2, ok_bind]
  exact stackDone_args hform.1 hdone (hback (sz, dst) List.mem_cons_self)

theorem cmovOp_args {cc : Cc} {sz : Size} {dst : GPR} {src : Operand}
    (h : Printable s (.cmov cc sz dst src)) (hlock : c.lock = (Op.cmov cc sz dst src).lock) :
    cmovOp c cc (s.suffix sz [src, .reg dst false]) [s.arg (sz, src), s.arg (sz, .reg dst false)] =
      .ok (.cmov cc sz dst src) := by
  obtain ⟨hdone, hback⟩ := s.operands_back h hlock
  have hsize : size c (s.suffix sz [src, .reg dst false]) [s.arg (sz, src), .reg dst sz false] =
      .ok sz := s.size_args c sz [src, .reg dst false]
  have hsrc' := hback (sz, src) (by simp [Spelling.operands, Op.sized])
  show (do
    let s' ← size c (s.suffix sz [src, .reg dst false]) [s.arg (sz, src), .reg dst sz false]
    done c _ (.ok (.cmov cc s' dst ((s.arg (sz, src)).operand c.lock s')))) = _
  rw [hsize, ok_bind, hsrc']
  exact hdone _

theorem setccOp_args {cc : Cc} {dst : Operand} (h : Printable s (.setcc cc dst))
    (hlock : c.lock = (Op.setcc cc dst).lock) :
    setccOp c cc [s.arg (.b, dst)] = .ok (.setcc cc dst) := by
  obtain ⟨hdone, hback⟩ := s.operands_back h hlock
  have hdst : dst.isImm = false := by simpa [Op.returned] using h.form
  unfold setccOp
  dsimp only
  rw [s.noImmDst_arg c hdst, ok_bind, width_any, if_neg Bool.false_ne_true,
    hback (.b, dst) List.mem_cons_self]
  exact hdone _

theorem suffixOf_suffix (sz : Size) : suffixOf (some [sz.suffix]) = .ok sz := by cases sz <;> rfl

theorem movxDone_args {k : MovxKind} {dsz ssz : Size} {dst : GPR} {src : Operand}
    (h : Printable s (.movx k dsz ssz dst src)) (hlock : c.lock = (Op.movx k dsz ssz dst src).lock) :
    movxDone c k ssz dsz (s.arg (ssz, src)) dst dsz = .ok (.movx k dsz ssz dst src) := by
  obtain ⟨hdone, hback⟩ := s.operands_back h hlock
  have hzero : ¬(k = .zero ∧ ssz = .d) := by
    have hform := h.form
    simp only [Op.returned, Bool.and_eq_true, Bool.not_eq_true', Bool.and_eq_false_iff,
      beq_eq_false_iff_ne] at hform
    rintro ⟨hk, hd⟩
    exact hform.1.elim (· hk) (· hd)
  unfold movxDone
  rw [width_any, if_neg (by simp), if_neg hzero, hback (ssz, src) List.mem_cons_self]
  exact hdone _

theorem movxOp_args {k : MovxKind} {dsz ssz : Size} {dst : GPR} {src : Operand}
    (h : Printable s (.movx k dsz ssz dst src)) (hlock : c.lock = (Op.movx k dsz ssz dst src).lock) :
    movxOp c (some [k.letter]) (some [ssz.suffix]) (some [dsz.suffix])
      [s.arg (ssz, src), s.arg (dsz, .reg dst false)] = .ok (.movx k dsz ssz dst src) := by
  have hkind : (if some [k.letter] = some "z".toList then MovxKind.zero else .sign) = k := by
    cases k <;> rfl
  show (do
    let ssz' ← suffixOf (some [ssz.suffix])
    let dsz' ← suffixOf (some [dsz.suffix])
    movxDone c (if some [k.letter] = some "z".toList then .zero else .sign) ssz' dsz'
      (s.arg (ssz, src)) dst dsz) = _
  rw [suffixOf_suffix, ok_bind, suffixOf_suffix, ok_bind, hkind]
  exact movxDone_args h hlock

theorem movxBareOp_args {k : MovxKind} {dsz ssz : Size} {dst r : GPR} {high8 : Bool}
    (h : Printable s (.movx k dsz ssz dst (.reg r high8)))
    (hlock : c.lock = (Op.movx k dsz ssz dst (.reg r high8)).lock) :
    movxBareOp c k [s.arg (ssz, .reg r high8), s.arg (dsz, .reg dst false)] =
      .ok (.movx k dsz ssz dst (.reg r high8)) :=
  movxDone_args (s := s) h hlock

theorem muldivDone_args {k : MulDivKind} {sz : Size} {src : Operand} (h : Printable s (.muldiv k sz src))
    (hlock : c.lock = (Op.muldiv k sz src).lock) :
    muldivDone c k (s.suffix sz [src]) (s.arg (sz, src)) = .ok (.muldiv k sz src) := by
  obtain ⟨hdone, hback⟩ := s.operands_back h hlock
  have hsrc : src.isImm = false := by
    have hform := h.form
    rw [Op.returned, Bool.and_eq_true, Bool.not_eq_true'] at hform
    exact hform.2
  have hsize : size c (s.suffix sz [src]) [s.arg (sz, src)] = .ok sz := s.size_args c sz [src]
  unfold muldivDone
  rw [s.noImmDst_arg c hsrc, ok_bind, hsize, ok_bind, hback (sz, src) List.mem_cons_self]
  exact hdone _

theorem imulOp_args {sz : Size} {dst : GPR} {src : Operand} {imm : Option Val}
    (h : Printable s (.imulr sz dst src imm)) (hlock : c.lock = (Op.imulr sz dst src imm).lock) :
    imulOp c (s.suffix sz [src, .reg dst false]) ((s.operands (.imulr sz dst src imm)).map s.arg) =
      .ok (.imulr sz dst src imm) := by
  obtain ⟨hdone, hback⟩ := s.operands_back h hlock
  have hsz : sz ≠ .b := by simpa [Op.returned] using h.form
  have hsize : size c (s.suffix sz [src, .reg dst false]) [s.arg (sz, src), .reg dst sz false] =
      .ok sz := s.size_args c sz [src, .reg dst false]
  have hsrc' := hback (sz, src) (by simp [Spelling.operands, Op.sized])
  cases imm with
  | none =>
      show imulrDone c (s.suffix sz [src, .reg dst false]) _ none (s.arg (sz, src)) dst sz = _
      unfold imulrDone
      rw [hsize, ok_bind, if_neg hsz, hsrc']
      exact hdone _
  | some v =>
      have hv := s.immValue_mod (h.fits (sz, .imm v) List.mem_cons_self)
      show imulrDone c (s.suffix sz [src, .reg dst false]) _ (some (s.immValue sz v))
        (s.arg (sz, src)) dst sz = _
      unfold imulrDone
      rw [hsize, ok_bind, if_neg hsz, hsrc', Option.map_some, hv]
      exact hdone _

theorem bsrOp_args {sz : Size} {dst : GPR} {src : Operand} (h : Printable s (.bitcnt .bsr sz dst src))
    (hlock : c.lock = (Op.bitcnt .bsr sz dst src).lock) :
    bsrOp c (s.suffix sz [src, .reg dst false]) [s.arg (sz, src), s.arg (sz, .reg dst false)] =
      .ok (.bitcnt .bsr sz dst src) := by
  obtain ⟨hdone, hback⟩ := s.operands_back h hlock
  have hform := h.form
  rw [Op.returned, Bool.and_eq_true, Bool.and_eq_true, bne_iff_ne, Bool.not_eq_true'] at hform
  have hsize : size c (s.suffix sz [src, .reg dst false]) [s.arg (sz, src), .reg dst sz false] =
      .ok sz := s.size_args c sz [src, .reg dst false]
  have hsrc' := hback (sz, src) (by simp [Spelling.operands, Op.sized])
  show (if (s.arg (sz, src)).isImm then _ else do
    let s' ← size c (s.suffix sz [src, .reg dst false]) [s.arg (sz, src), .reg dst sz false]
    if s' = Size.b then _
    else done c _ (.ok (.bitcnt .bsr s' dst ((s.arg (sz, src)).operand c.lock s')))) = _
  rw [Spelling.arg_isImm, if_neg (by rw [hform.2]; exact Bool.false_ne_true), hsize, ok_bind,
    if_neg hform.1.2, hsrc']
  exact hdone _

theorem bswapOp_args {sz : Size} {dst : GPR} (h : Printable s (.bswap sz dst))
    (hlock : c.lock = (Op.bswap sz dst).lock) :
    bswapOp c (s.suffix sz [.reg dst false]) [s.arg (sz, .reg dst false)] = .ok (.bswap sz dst) := by
  obtain ⟨hdone, -⟩ := s.operands_back h hlock
  have hsz : ¬sz ∉ [Size.d, .q] := by
    have hdq : sz = .d ∨ sz = .q := by simpa [Op.returned] using h.form
    rcases hdq with rfl | rfl <;> decide
  have hsize : size c (s.suffix sz [.reg dst false]) [.reg dst sz false] = .ok sz :=
    s.size_args c sz [.reg dst false]
  show (do
    let s' ← size c (s.suffix sz [.reg dst false]) [.reg dst sz false]
    if s' ∉ [Size.d, .q] then _ else done c _ (.ok (.bswap s' dst))) = _
  rw [hsize, ok_bind, if_neg hsz]
  exact hdone _

theorem shldOp_args {sz : Size} {dst : Operand} {src : GPR} {amt : ShiftAmt}
    (h : Printable s (.dshift .shld sz dst src amt)) (hlock : c.lock = (Op.dshift .shld sz dst src amt).lock) :
    shldOp c (s.suffix sz [.reg src false, dst])
      [s.arg amt.sized, s.arg (sz, .reg src false), s.arg (sz, dst)] =
      .ok (.dshift .shld sz dst src amt) := by
  obtain ⟨hdone, hback⟩ := s.operands_back h hlock
  have hform := h.form
  rw [Op.returned, Bool.and_eq_true, Bool.and_eq_true, bne_iff_ne, Bool.not_eq_true'] at hform
  have hsize : size c (s.suffix sz [.reg src false, dst]) [.reg src sz false, s.arg (sz, dst)] =
      .ok sz := s.size_args c sz [.reg src false, dst]
  have hdst' := hback (sz, dst) (by simp [Spelling.operands, Op.sized])
  show (do
    let amt' ← shiftCount c (s.arg amt.sized)
    noImmDst c (s.arg (sz, dst))
    let s' ← size c (s.suffix sz [.reg src false, dst]) [.reg src sz false, s.arg (sz, dst)]
    if s' = Size.b then _
    else done c _ (.ok (.dshift .shld s' ((s.arg (sz, dst)).operand c.lock s') src amt'))) = _
  rw [shiftCount_arg, ok_bind, s.noImmDst_arg c hform.2, ok_bind, hsize, ok_bind, if_neg hform.1.2,
    hdst']
  exact hdone _

theorem bitOp_args {k : BitKind} {sz : Size} {dst off : Operand} (h : Printable s (.bit k sz dst off))
    (hlock : c.lock = (Op.bit k sz dst off).lock) :
    bitOp c k (s.suffix sz [off, dst]) [s.arg (sz, off), s.arg (sz, dst)] =
      .ok (.bit k sz dst off) := by
  obtain ⟨hdone, hback⟩ := s.operands_back h hlock
  have hform := h.form
  simp only [Op.returned, Bool.and_eq_true, bne_iff_ne, Bool.not_eq_true', Option.isNone_iff_eq_none]
    at hform
  obtain ⟨⟨⟨-, hsz⟩, hdst⟩, hoff⟩ := hform
  have hdst' := hback (sz, dst) (by simp [Spelling.operands, Op.sized])
  have hoff' := hback (sz, off) (by simp [Spelling.operands, Op.sized])
  -- an immediate offset does not count for the width
  have hsize : size c (s.suffix sz [off, dst])
      ([s.arg (sz, off), s.arg (sz, dst)].filter fun o => !o.isImm) = .ok sz := by
    cases himm : off.isImm with
    | true =>
        have hreg : off.isReg = false := by
          cases off with
          | imm v => rfl
          | reg r high8 => cases himm
          | mem ea => cases himm
        have hsuffix : s.suffix sz [off, dst] = s.suffix sz [dst] := by
          unfold Spelling.suffix
          rw [List.any_cons, hreg, Bool.false_or]
        simp only [List.filter_cons, Spelling.arg_isImm, himm, hdst, List.filter_nil, hsuffix]
        exact s.size_args c sz [dst]
    | false =>
        simp only [List.filter_cons, Spelling.arg_isImm, himm, hdst, List.filter_nil]
        exact s.size_args c sz [off, dst]
  unfold bitOp
  dsimp only
  rw [Spelling.arg_isMem, hoff, if_neg (by simp), s.noImmDst_arg c hdst, ok_bind, hsize, ok_bind,
    if_neg hsz, hdst', hoff']
  exact hdone _

theorem nopOp_args {dst : Option Operand} (h : Printable s (.nop dst))
    (hlock : c.lock = (Op.nop dst).lock) :
    nopOp c ((dst.bind fun o => s.suffix s.nopSize [o]).getD .d)
      ((s.operands (.nop dst)).map s.arg) = .ok (.nop dst) := by
  obtain ⟨hdone, hback⟩ := s.operands_back h hlock
  cases dst with
  | none => exact hdone _
  | some o =>
      have ho := hback (s.nopSize, o) List.mem_cons_self
      -- only an immediate depends on the width, and it does not hide the suffix
      have hwidth : (s.arg (s.nopSize, o)).operand c.lock ((s.suffix s.nopSize [o]).getD .d) = o := by
        cases o with
        | imm v =>
            have hsuffix : s.suffix s.nopSize [.imm v] = some s.nopSize := by
              unfold Spelling.suffix
              exact if_neg fun hreg => Bool.false_ne_true hreg.2
            rw [hsuffix]
            exact ho
        | reg r high8 => exact ho
        | mem ea => exact ho
      show done c [s.arg (s.nopSize, o)] (.ok (.nop (some ((s.arg (s.nopSize, o)).operand c.lock
        ((s.suffix s.nopSize [o]).getD .d))))) = _
      rw [hwidth]
      exact hdone _

/-- **Each branch rebuilds the instruction it was printed from.** -/
theorem form_args (mn : Str) {op : Op} (h : Printable s op) (hread : op.readsOperands = true)
    (hlock : c.lock = op.lock) :
    (s.form op).op c mn ((s.operands op).map s.arg) = .ok op := by
  cases op with
  | mov sz dst src => exact movOp_args h hlock
  | bin k sz dst src => exact binOp_args h hlock
  | un k sz dst => exact unOp_args h hlock
  | shift k sz dst amt => exact shiftRotOp_args (k := .shift k) h hlock
  | rot k sz dst amt => exact shiftRotOp_args (k := .rot k) h hlock
  | lea sz dst ea => exact leaOp_args h hlock
  | push sz src => exact pushOp_args h hlock
  | pop sz dst => exact popOp_args h hlock
  | bit k sz dst off => exact bitOp_args h hlock
  | setcc cc dst => exact setccOp_args h hlock
  | cmov cc sz dst src => exact cmovOp_args h hlock
  | movx k dsz ssz dst src =>
      show (if s.bare src then Form.movxBare k else _).op c mn _ = _
      by_cases hbare : s.bare src = true
      · rw [if_pos hbare]
        cases src with
        | reg r high8 => exact movxBareOp_args (s := s) h hlock
        | imm v => simp [Spelling.bare, Operand.isReg] at hbare
        | mem ea => simp [Spelling.bare, Operand.isReg] at hbare
      · rw [if_neg hbare]
        exact movxOp_args h hlock
  | cext k =>
      obtain rfl : k = .cdqe := by simpa [Op.returned] using h.form
      exact (s.operands_back h hlock).1 _
  | bswap sz dst => exact bswapOp_args h hlock
  | nop dst => exact nopOp_args h hlock
  | bitcnt k sz dst src =>
      obtain rfl : k = .bsr := by
        have hform := h.form
        simp only [Op.returned, Bool.and_eq_true, beq_iff_eq] at hform
        exact hform.1.1
      exact bsrOp_args h hlock
  | muldiv k sz src =>
      have hform := h.form
      cases k with
      | mul => exact muldivDone_args h hlock
      | imul => exact muldivDone_args h hlock
      | div => cases hform
      | idiv => cases hform
  | imulr sz dst src imm => exact imulOp_args h hlock
  | dshift k sz dst src amt =>
      obtain rfl : k = .shld := by
        have hform := h.form
        simp only [Op.returned, Bool.and_eq_true, beq_iff_eq] at hform
        exact hform.1.1
      exact shldOp_args h hlock
  | jmp t => cases hread
  | jcc cc d => cases hread
  | call t => cases hread
  | ret => cases hread
  | repstrop r k sz => cases hread

end forms

end X86Scripts
