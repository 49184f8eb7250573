import X86Scripts.AsmFront.RoundTrip

/-!
# What the front end can return

Every text the front end accepts gives an instruction of one kind, and every instruction of that
kind is given by a text, wherever it stands.

* `Arg.Legal`: what the operand reader promises of an operand (`reads_legal`).
* `Returned`: a returned form whose operands exist at their widths, `lock` on one memory operand.
* **`translateOp_returned`**: the branches of `translate` return nothing else.
* `printable_wide`: one spelling has a line for all of them but `nop` of a high byte.
* **`translate_range`**: the terms returned at an address and a length are exactly theirs.
-/

namespace X86Scripts

open X86Scripts.Regex
open X86Scripts.Py
open X86Scripts.Outcome

/-! ## Operands -/

/-- What the operand reader promises: a register view that exists, or an address without `lock`
that is not indexed by `rsp` and scales an index only. -/
def Arg.Legal : Arg → Prop
  | .reg r sz high8 => RegView r sz high8
  | .imm _ => True
  | .mem ea => (ea.index ≠ some .rsp ∧ (ea.index = none → ea.scale = .s1)) ∧ ea.lock = false

theorem regView_of_lookup {name : Str} {r : GPR} {sz : Size} {high8 : Bool}
    (h : REGS.lookup name = some (r, sz, high8)) : RegView r sz high8 := by
  have hall : ∀ x ∈ REGS, RegView x.2.1 x.2.2.1 x.2.2.2 := by decide +kernel
  obtain ⟨pre, post, hregs, -⟩ := List.lookup_eq_some_iff.mp h
  apply hall (name, r, sz, high8)
  rw [hregs]
  exact List.mem_append_right _ List.mem_cons_self

/-- **What is read is legal.** -/
theorem reads_legal [UnicodeDB] {tok : Str} {a : Arg} (h : Reads tok a) : a.Legal := by
  cases h with
  | imm h => trivial
  | reg _ _ h => exact regView_of_lookup h
  | @mem _ p ea _ _ h =>
      have hindex := h.index
      cases hp : p.index with
      | none =>
          rw [hp] at hindex
          obtain ⟨hnone, hscale⟩ := hindex
          exact ⟨⟨by rw [hnone]; rintro ⟨⟩, fun _ => hscale⟩, h.lock⟩
      | some name =>
          rw [hp] at hindex
          obtain ⟨r, -, hrsp, hsome, -⟩ := hindex
          refine ⟨⟨?_, ?_⟩, h.lock⟩
          · rw [hsome]
            exact fun hr => hrsp (Option.some.inj hr)
          · rw [hsome]
            rintro ⟨⟩

@[simp] theorem isImm_operand (lock : Bool) (sz : Size) (a : Arg) :
    (a.operand lock sz).isImm = a.isImm := by
  cases a <;> rfl

/-- An operand of a returned instruction exists at the width it is used at. -/
theorem fits_operand {lock : Bool} {sz : Size} {a : Arg} (ha : a.Legal)
    (hwidth : ∀ s ∈ a.width, s = sz) : (a.operand lock sz).Fits sz := by
  cases a with
  | reg r rsz high8 =>
      obtain rfl := hwidth rsz rfl
      exact ha
  | imm v =>
      have hpos : (0 : Int) < 2 ^ sz.bits := by positivity
      have hlt := Int.emod_lt_of_pos v hpos
      obtain ⟨m, hm⟩ := Int.eq_ofNat_of_zero_le (Int.emod_nonneg v hpos.ne')
      show (BitVec.ofInt 64 (v % 2 ^ sz.bits)).toNat < 2 ^ sz.bits
      rw [hm] at hlt ⊢
      have hm' : m < 2 ^ sz.bits := by exact_mod_cast hlt
      rw [BitVec.ofInt_natCast, BitVec.toNat_ofNat]
      exact Nat.lt_of_le_of_lt (Nat.mod_le _ _) hm'
  | mem ea => exact ha.1

theorem fits_amt (amt : ShiftAmt) : amt.sized.2.Fits amt.sized.1 := by
  cases amt with
  | cl => exact fun h => absurd h Bool.false_ne_true
  | imm8 v =>
      show (v.setWidth 64).toNat < 2 ^ 8
      rw [BitVec.toNat_setWidth_of_le (by omega)]
      exact v.isLt

/-! ## The instructions returned -/

/-- A `nop`, whose operand the front end does not look at. -/
def Op.isNop : Op → Bool
  | .nop _ => true
  | _ => false

/-- **What the front end returns**: a returned form whose operands exist at their widths, `nop`'s at
any width, and whose `lock` is on its one memory operand. -/
structure Returned (op : Op) : Prop where
  form : op.returned = true
  fits : ∀ x ∈ op.sized, x.2.Fits x.1 ∨ op.isNop = true ∧ x.2.Fits .b
  lock : op.lock = true → op.eas.length = 1

/-- What a branch builds from operands: a returned form whose operands exist at their widths. A
`lock` is accepted if one of the operands is in memory. -/
structure Built (c : Ctx) (ops : List Arg) (op : Op) : Prop where
  form : op.returned = true
  fits : ∀ x ∈ op.sized, x.2.Fits x.1 ∨ op.isNop = true ∧ x.2.Fits .b
  lock : c.lock = true → (ops.filter Arg.isMem).length = 1

theorem length_filter_isMem (ops : List Arg) :
    (ops.filter Arg.isMem).length = (ops.filterMap Arg.ea?).length := by
  rw [← List.countP_eq_length_filter, List.length_filterMap_eq_countP]
  congr 1
  funext a
  cases a <;> rfl

/-- **What is built and carries its operands is what is returned.** -/
theorem Built.returned {c : Ctx} {ops : List Arg} {op : Op} (h : Built c ops op)
    (hops : ∀ a ∈ ops, a.Legal) (hcarry : Carries c.lock ops op) : Returned op where
  form := h.form
  fits := h.fits
  lock := by
    intro hlock
    have hlen : op.eas.length = (ops.filterMap Arg.ea?).length := by
      rw [← List.length_reverse, hcarry, List.length_map]
    cases hc : c.lock with
    | true => rw [hlen, ← length_filter_isMem, h.lock hc]
    | false =>
        -- no operand has a `lock` of its own
        rw [Op.lock, List.any_eq_true] at hlock
        obtain ⟨ea, hea, hl⟩ := hlock
        rw [← List.mem_reverse, hcarry, hc] at hea
        obtain ⟨ea', hea', rfl⟩ := List.mem_map.mp hea
        obtain ⟨a, ha, hsome⟩ := List.mem_filterMap.mp hea'
        cases a with
        | reg r sz high8 => cases hsome
        | imm v => cases hsome
        | mem ea'' =>
            obtain rfl := Option.some.inj hsome
            have hfree := (hops _ ha).2
            simp only [Ea.withLock, hfree] at hl
            cases hl

/-! ## The helpers -/

theorem memLock_spec (c : Ctx) (ops : List Arg) :
    Ends (fun _ => c.lock = true → (ops.filter Arg.isMem).length = 1) IsRefused (memLock c ops) := by
  apply ends_ite (fun _ => c.ends_refuse _)
  intro h hlock
  by_contra hne
  exact h ⟨hlock, hne⟩

theorem done_built {c : Ctx} {ops : List Arg} {op : Op} (hform : op.returned = true)
    (hfits : ∀ x ∈ op.sized, x.2.Fits x.1) :
    Ends (Built c ops) IsRefused (done c ops (.ok op)) := by
  apply (memLock_spec c ops).bind
  intro _ hlock
  exact ⟨hform, fun x hx => Or.inl (hfits x hx), hlock⟩

theorem mem_widthsOf {sz : Size} {ops : List Arg} :
    sz ∈ widthsOf ops ↔ sz ∈ ops.filterMap Arg.width := by
  have hall : sz ∈ [Size.b, .d, .q, .w] := by cases sz <;> decide
  unfold widthsOf
  rw [List.mem_filter, decide_eq_true_eq]
  exact and_iff_right hall

/-- **`_size` gives the width of every register operand.** -/
theorem size_spec (c : Ctx) (explicit : Option Size) (ops : List Arg) :
    Ends (fun s => ∀ a ∈ ops, ∀ sz ∈ a.width, sz = s) IsRefused (size c explicit ops) := by
  have hwidth : ∀ a ∈ ops, ∀ sz ∈ a.width, sz ∈ widthsOf ops :=
    fun a ha sz hsz => mem_widthsOf.mpr (List.mem_filterMap.mpr ⟨a, ha, hsz⟩)
  unfold size
  dsimp only
  split
  · rename_i e
    apply ends_ite (fun _ => ends_refuse _)
    intro h a ha sz hsz
    have hmem := hwidth a ha sz hsz
    have hone : widthsOf ops = [e] := by
      by_contra hne
      exact h ⟨List.ne_nil_of_mem hmem, hne⟩
    rw [hone] at hmem
    exact List.mem_singleton.mp hmem
  · split
    · rename_i e hone
      intro a ha sz hsz
      have hmem := hwidth a ha sz hsz
      rw [hone] at hmem
      exact List.mem_singleton.mp hmem
    · exact c.ends_refuse _

/-! ## The branches behind the operand reader -/

section forms

variable {c : Ctx} {sz : Option Size} {ops : List Arg}

/-- The destination of a form that writes a register. -/
theorem fits_gpr (r : GPR) (s : Size) : (Operand.reg r false).Fits s :=
  fun h => absurd h Bool.false_ne_true

theorem imm_fits (s : Size) (v : Int) :
    (Operand.imm (BitVec.ofInt 64 (v % 2 ^ s.bits))).Fits s :=
  @fits_operand false s (.imm v) trivial (by rintro _ ⟨⟩)

variable (hops : ∀ a ∈ ops, a.Legal)

include hops

theorem movOp_built : Ends (Built c ops) IsRefused (movOp c sz ops) := by
  unfold movOp
  split
  · rename_i src dst
    apply (noImmDst_ends c dst).bind
    intro _ himm
    apply (size_spec c sz _).bind
    intro s hs
    apply done_built
    · simpa [Op.returned] using himm
    · simp only [Op.sized, List.forall_mem_cons] at hops hs ⊢
      exact ⟨fits_operand hops.1 hs.1, fits_operand hops.2.1 hs.2.1, by simp⟩
  · exact c.ends_refuse _

theorem binOp_built (k : BinKind) : Ends (Built c ops) IsRefused (binOp c k sz ops) := by
  unfold binOp
  split
  · rename_i src dst
    apply (noImmDst_ends c dst).bind
    intro _ himm
    apply (size_spec c sz _).bind
    intro s hs
    apply done_built
    · simpa [Op.returned] using himm
    · simp only [Op.sized, List.forall_mem_cons] at hops hs ⊢
      exact ⟨fits_operand hops.1 hs.1, fits_operand hops.2.1 hs.2.1, by simp⟩
  · exact ends_refuse _

theorem unOp_built (k : UnKind) : Ends (Built c ops) IsRefused (unOp c k sz ops) := by
  unfold unOp
  split
  · rename_i dst
    apply (noImmDst_ends c dst).bind
    intro _ himm
    apply (size_spec c sz _).bind
    intro s hs
    apply done_built
    · simpa [Op.returned] using himm
    · simp only [Op.sized, List.forall_mem_cons] at hops hs ⊢
      exact ⟨fits_operand hops.1 hs.1, by simp⟩
  · exact ends_refuse _

omit hops in
theorem shiftDone_built {k : ShiftRot} (hk : ∀ r, k = .rot r → r = .rol ∨ r = .ror) {amt : ShiftAmt}
    {dst : Arg} (hdst : dst.Legal) : Ends (Built c ops) IsRefused (shiftDone c k sz ops amt dst) := by
  apply (noImmDst_ends c dst).bind
  intro _ himm
  apply (size_spec c sz _).bind
  intro s hs
  simp only [List.forall_mem_cons] at hs
  have hfits : ∀ x ∈ [amt.sized, (s, dst.operand c.lock s)], x.2.Fits x.1 := by
    simp only [List.forall_mem_cons]
    exact ⟨fits_amt amt, fits_operand hdst hs.1, by simp⟩
  cases k with
  | shift k => exact done_built (by simpa [Op.returned, ShiftRot.op] using himm) hfits
  | rot k =>
      rcases hk k rfl with rfl | rfl <;>
        exact done_built (by simpa [Op.returned, ShiftRot.op] using himm) hfits

theorem shiftRotOp_built {k : ShiftRot} (hk : ∀ r, k = .rot r → r = .rol ∨ r = .ror) :
    Ends (Built c ops) IsRefused (shiftRotOp c k sz ops) := by
  unfold shiftRotOp
  split
  · exact shiftDone_built hk (hops _ (by simp))
  · rename_i a dst
    apply (shiftCount_ends c a).bind
    intro amt _
    exact shiftDone_built hk (hops _ (by simp))
  · exact ends_refuse _

theorem leaOp_built : Ends (Built c ops) IsRefused (leaOp c sz ops) := by
  unfold leaOp
  split
  · rename_i ea r rsz
    apply (size_spec c sz _).bind
    intro s _
    apply done_built rfl
    simp only [Op.sized, List.forall_mem_cons] at hops ⊢
    exact ⟨hops.1.1, fits_gpr r s, by simp⟩
  · exact c.ends_refuse _

omit hops in
theorem stackDone_built {op : Size → Operand → Op} {o : Arg} (ho : o.Legal)
    (hsized : ∀ s x, (op s x).sized = [(s, x)])
    (hform : ∀ s lock, s = .q ∨ s = .w → (op s (o.operand lock s)).returned = true) :
    Ends (Built c [o]) IsRefused (stackDone c op sz o) := by
  unfold stackDone
  dsimp only
  generalize sz.getD (o.width.getD .q) = s
  apply ends_ite (fun _ => c.ends_refuse _)
  intro hwidth
  apply ends_ite (fun _ => c.ends_refuse _)
  intro hs
  have hqw : s = .q ∨ s = .w := by simpa using not_not.mp hs
  apply done_built (hform s c.lock hqw)
  rw [hsized]
  simp only [List.forall_mem_cons]
  refine ⟨fits_operand ho fun wd hw => ?_, by simp⟩
  rw [hw] at hwidth
  simpa using hwidth

theorem pushOp_built : Ends (Built c ops) IsRefused (pushOp c sz ops) := by
  unfold pushOp
  split
  · apply stackDone_built (hops _ (by simp)) (fun _ _ => rfl)
    rintro s lock (rfl | rfl) <;> rfl
  · exact c.ends_refuse _

theorem popOp_built : Ends (Built c ops) IsRefused (popOp c sz ops) := by
  unfold popOp
  split
  · rename_i o
    apply (noImmDst_ends c o).bind
    intro _ himm
    apply stackDone_built (hops _ (by simp)) (fun _ _ => rfl)
    rintro s lock (rfl | rfl) <;> simpa [Op.returned] using himm
  · exact c.ends_refuse _

theorem cmovOp_built (cc : Cc) : Ends (Built c ops) IsRefused (cmovOp c cc sz ops) := by
  unfold cmovOp
  split
  · rename_i src r rsz
    apply (size_spec c sz _).bind
    intro s hs
    apply done_built rfl
    simp only [Op.sized, List.forall_mem_cons] at hops hs ⊢
    exact ⟨fits_operand hops.1 hs.1, fits_gpr r s, by simp⟩
  · exact c.ends_refuse _

theorem setccOp_built (cc : Cc) : Ends (Built c ops) IsRefused (setccOp c cc ops) := by
  unfold setccOp
  split
  · rename_i o
    apply (noImmDst_ends c o).bind
    intro _ himm
    apply ends_ite (fun _ => c.ends_refuse _)
    intro hwidth
    apply done_built
    · simpa [Op.returned] using himm
    · simp only [Op.sized, List.forall_mem_cons] at hops ⊢
      refine ⟨fits_operand hops.1 fun wd hw => ?_, by simp⟩
      rw [hw] at hwidth
      simpa using hwidth
  · exact c.ends_refuse _

omit hops in
theorem muldivDone_built {k : MulDivKind} (hk : k = .mul ∨ k = .imul) {o : Arg} (ho : o.Legal) :
    Ends (Built c [o]) IsRefused (muldivDone c k sz o) := by
  apply (noImmDst_ends c o).bind
  intro _ himm
  apply (size_spec c sz _).bind
  intro s hs
  simp only [List.forall_mem_cons] at hs
  apply done_built
  · rcases hk with rfl | rfl <;> simpa [Op.returned] using himm
  · simp only [Op.sized, List.forall_mem_cons]
    exact ⟨fits_operand ho hs.1, by simp⟩

omit hops in
theorem imulrDone_built {imm : Option Int} {src : Arg} {r : GPR} {rsz : Size} (hsrc : src.Legal) :
    Ends (Built c ops) IsRefused (imulrDone c sz ops imm src r rsz) := by
  apply (size_spec c sz _).bind
  intro s hs
  simp only [List.forall_mem_cons] at hs
  apply ends_ite (fun _ => c.ends_refuse _)
  intro hb
  apply done_built
  · simpa [Op.returned] using hb
  · have hlast : ∀ x ∈ [(s, src.operand c.lock s), (s, Operand.reg r false)], x.2.Fits x.1 := by
      simp only [List.forall_mem_cons]
      exact ⟨fits_operand hsrc hs.1, fits_gpr r s, by simp⟩
    cases imm with
    | none => exact hlast
    | some v => exact List.forall_mem_cons.mpr ⟨imm_fits s v, hlast⟩

theorem imulOp_built : Ends (Built c ops) IsRefused (imulOp c sz ops) := by
  unfold imulOp
  split
  · exact muldivDone_built (Or.inr rfl) (hops _ (by simp))
  · split
    · exact imulrDone_built (hops _ (by simp))
    · exact c.ends_refuse _
  · split
    · split
      · exact imulrDone_built (hops _ (by simp))
      · exact c.ends_refuse _
    · exact c.ends_refuse _
  · exact c.ends_refuse _

theorem mulOp_built : Ends (Built c ops) IsRefused (mulOp c sz ops) := by
  unfold mulOp
  split
  · exact muldivDone_built (Or.inl rfl) (hops _ (by simp))
  · exact c.ends_refuse _

theorem bsrOp_built : Ends (Built c ops) IsRefused (bsrOp c sz ops) := by
  unfold bsrOp
  split
  · rename_i src r rsz
    apply ends_ite (fun _ => c.ends_refuse _)
    intro himm
    apply (size_spec c sz _).bind
    intro s hs
    apply ends_ite (fun _ => c.ends_refuse _)
    intro hb
    apply done_built
    · simpa [Op.returned] using ⟨hb, by simpa using himm⟩
    · simp only [Op.sized, List.forall_mem_cons] at hops hs ⊢
      exact ⟨fits_operand hops.1 hs.1, fits_gpr r s, by simp⟩
  · exact c.ends_refuse _

omit hops in
theorem bswapOp_built : Ends (Built c ops) IsRefused (bswapOp c sz ops) := by
  unfold bswapOp
  split
  · rename_i r rsz
    apply (size_spec c sz _).bind
    intro s _
    apply ends_ite (fun _ => c.ends_refuse _)
    intro hs
    apply done_built
    · simpa [Op.returned] using not_not.mp hs
    · simp only [Op.sized, List.forall_mem_cons]
      exact ⟨fits_gpr r s, by simp⟩
  · exact c.ends_refuse _

theorem shldOp_built : Ends (Built c ops) IsRefused (shldOp c sz ops) := by
  unfold shldOp
  split
  · rename_i a r rsz dst
    apply (shiftCount_ends c a).bind
    intro amt _
    apply (noImmDst_ends c dst).bind
    intro _ himm
    apply (size_spec c sz _).bind
    intro s hs
    apply ends_ite (fun _ => c.ends_refuse _)
    intro hb
    apply done_built
    · simpa [Op.returned] using ⟨hb, himm⟩
    · simp only [Op.sized, List.forall_mem_cons] at hops hs ⊢
      exact ⟨fits_amt amt, fits_gpr r s, fits_operand hops.2.2.1 hs.2.1, by simp⟩
  · exact c.ends_refuse _
  · exact c.ends_refuse _

theorem bitOp_built {k : BitKind} (hk : k = .bts ∨ k = .btr) :
    Ends (Built c ops) IsRefused (bitOp c k sz ops) := by
  unfold bitOp
  split
  · rename_i off dst
    apply ends_ite (fun _ => ends_refuse _)
    intro hmem
    apply (noImmDst_ends c dst).bind
    intro _ himm
    apply (size_spec c sz _).bind
    intro s hs
    apply ends_ite (fun _ => ends_refuse _)
    intro hb
    -- an immediate offset is not asked for its width
    have hwidth : ∀ a ∈ [off, dst], ∀ wd ∈ a.width, wd = s := by
      intro a ha wd hw
      refine hs a (List.mem_filter.mpr ⟨ha, ?_⟩) wd hw
      cases a with
      | imm v => cases hw
      | reg r rsz high8 => rfl
      | mem ea => rfl
    apply done_built
    · have hoff : off.ea? = none := by
        cases off with
        | mem ea => exact absurd rfl hmem
        | reg r rsz high8 => rfl
        | imm v => rfl
      rcases hk with rfl | rfl <;> simpa [Op.returned, hoff] using ⟨hb, himm⟩
    · simp only [Op.sized, List.forall_mem_cons] at hops hwidth ⊢
      exact ⟨fits_operand hops.1 hwidth.1, fits_operand hops.2.1 hwidth.2.1, by simp⟩
  · exact ends_refuse _

theorem nopOp_built (s : Size) : Ends (Built c ops) IsRefused (nopOp c s ops) := by
  unfold nopOp
  split
  · exact done_built rfl (by simp [Op.sized])
  · rename_i o
    have ho := hops o (by simp)
    apply (memLock_spec c _).bind
    intro _ hlock
    refine ⟨rfl, fun x hx => ?_, hlock⟩
    obtain rfl := List.mem_singleton.mp hx
    cases o with
    | reg r rsz high8 => exact Or.inr ⟨rfl, fun h => ⟨(ho h).1, rfl⟩⟩
    | imm v => exact Or.inl (BitVec.isLt _)
    | mem ea => exact Or.inl ho.1
  · exact c.ends_refuse _

omit hops in
theorem movxDone_built {kind : MovxKind} {ssz dsz : Size} {src : Arg} {r : GPR} {rsz : Size}
    (hsrc : src.Legal) (hwidths : src.width ≠ none ∨ ssz ≠ .q ∧ dsz ≠ .b) :
    Ends (Built c [src, .reg r rsz false]) IsRefused (movxDone c kind ssz dsz src r rsz) := by
  apply ends_ite (fun _ => c.ends_refuse _)
  intro hregs
  apply ends_ite (fun _ => c.ends_refuse _)
  intro hzero
  apply done_built
  · have hform : (¬kind = .zero ∨ ¬ssz = .d) ∧
        ((src.operand c.lock ssz).isReg = true ∨ ssz ≠ .q ∧ dsz ≠ .b) := by
      refine ⟨not_and_or.mp hzero, hwidths.imp_left fun hreg => ?_⟩
      cases src with
      | reg r wd high8 => rfl
      | imm v => exact absurd rfl hreg
      | mem ea => exact absurd rfl hreg
    simpa [Op.returned] using hform
  · simp only [Op.sized, List.forall_mem_cons]
    refine ⟨fits_operand hsrc fun wd hw => ?_, fits_gpr r dsz, by simp⟩
    have hsame := (not_or.mp hregs).2
    rw [hw] at hsame
    simpa using hsame

/-- A group that holds one of some suffixes. -/
def IsOneOf (chars : String) (g : Option Str) : Prop := ∃ ch ∈ chars.toList, g = some [ch]

omit hops in
theorem suffixOf_spec {chars : String} {g : Option Str} {no : Size} (hg : IsOneOf chars g)
    (hall : ∀ ch ∈ chars.toList, ∃ s ∈ SUFFIX.lookup ch, s ≠ no) :
    Ends (fun s => s ≠ no) IsRefused (suffixOf g) := by
  obtain ⟨ch, hch, rfl⟩ := hg
  obtain ⟨s, hs, hne⟩ := hall ch hch
  have hs' : SUFFIX.lookup ch = some s := hs
  unfold suffixOf
  simp only [hs', ends_ok]
  exact hne

theorem movxOp_built {kind ssz dsz : Option Str} (hssz : IsOneOf "bwl" ssz)
    (hdsz : IsOneOf "wlq" dsz) : Ends (Built c ops) IsRefused (movxOp c kind ssz dsz ops) := by
  have hbwl : ∀ ch ∈ "bwl".toList, ∃ s ∈ SUFFIX.lookup ch, s ≠ .q := forall_chars (by decide)
  have hwlq : ∀ ch ∈ "wlq".toList, ∃ s ∈ SUFFIX.lookup ch, s ≠ .b := forall_chars (by decide)
  unfold movxOp
  split
  · apply (suffixOf_spec hssz hbwl).bind
    intro _ hs
    apply (suffixOf_spec hdsz hwlq).bind
    intro _ hd
    exact movxDone_built (hops _ (by simp)) (Or.inr ⟨hs, hd⟩)
  · exact c.ends_refuse _

theorem movxBareOp_built (kind : MovxKind) :
    Ends (Built c ops) IsRefused (movxBareOp c kind ops) := by
  unfold movxBareOp
  split
  · split
    · exact movxDone_built (hops _ (by simp)) (Or.inl (Option.some_ne_none _))
    · exact c.ends_refuse _
  · exact c.ends_refuse _

/-- What a branch takes from a mnemonic: the groups of a `movzx`, and bases of its table. -/
def Form.Declared : Form → Prop
  | .movx _ ssz dsz => IsOneOf "bwl" ssz ∧ IsOneOf "wlq" dsz
  | .shiftRot k _ => ∀ r, k = .rot r → r = .rol ∨ r = .ror
  | .bit k _ => k = .bts ∨ k = .btr
  | _ => True

/-- **Every branch behind the operand reader builds an instruction or refuses.** -/
theorem form_built (mn : Str) {form : Form} (hform : form.Declared) :
    Ends (Built c ops) IsRefused (form.op c mn ops) := by
  cases form with
  | mov sz => exact movOp_built hops
  | movx kind ssz dsz => exact movxOp_built hops hform.1 hform.2
  | movxBare kind => exact movxBareOp_built hops kind
  | bin k sz => exact binOp_built hops k
  | un k sz => exact unOp_built hops k
  | shiftRot k sz => exact shiftRotOp_built hops hform
  | lea sz => exact leaOp_built hops
  | push sz => exact pushOp_built hops
  | pop sz => exact popOp_built hops
  | cmov cc sz => exact cmovOp_built hops cc
  | setcc cc => exact setccOp_built hops cc
  | imul sz => exact imulOp_built hops
  | mul sz => exact mulOp_built hops
  | bsr sz => exact bsrOp_built hops
  | bswap sz => exact bswapOp_built
  | shld sz => exact shldOp_built hops
  | bit k sz => exact bitOp_built hops hform
  | cltq => exact ends_ite (fun _ => done_built rfl (by simp [Op.sized])) fun _ => ends_refuse _
  | nop sz => exact nopOp_built hops sz

end forms

/-! ### The branch of a mnemonic -/

theorem suffixed_declared {α : Type} {mn : Str} {bases : List (Str × α)}
    {f : α → Option Size → Form} (hf : ∀ x ∈ bases, ∀ sz, (f x.2 sz).Declared) :
    ∀ form ∈ suffixed mn bases f, form.Declared := by
  have hmem : ∀ {m : Str} {a : α}, bases.lookup m = some a → ∃ name, (name, a) ∈ bases := by
    intro m a h
    obtain ⟨pre, post, hbases, -⟩ := List.lookup_eq_some_iff.mp h
    exact ⟨m, by rw [hbases]; simp⟩
  intro form hform
  obtain ⟨⟨a, sz⟩, hx, rfl⟩ := Option.map_eq_some_iff.mp hform
  obtain ⟨name, hname⟩ : ∃ name, (name, a) ∈ bases := by
    unfold splitSuffix at hx
    split at hx
    · rename_i h
      cases hx
      exact hmem h
    · split at hx
      · rename_i h _
        cases hx
        exact hmem h
      · cases hx
  exact hf (name, a) hname sz

theorem movxForm_declared {mn : Str} : ∀ form ∈ movxForm mn, form.Declared := by
  have hparse := (((parses_cls (p := fun c => "zs".toList.contains c)).grp 1).seq
    (((parses_cls (p := fun c => "bwl".toList.contains c)).grp 2).seq
      ((parses_cls (p := fun c => "wlq".toList.contains c)).grp 3))).after "mov".toList
  intro form hform
  unfold movxForm at hform
  split at hform
  · rename_i m hm
    obtain ⟨⟨k, s, t⟩, e, ⟨-, hs, ht⟩, -, -, hcaps⟩ := hparse.of_exec hm
    cases hform
    rw [hcaps]
    exact ⟨⟨s, List.contains_iff_mem.mp hs, rfl⟩, ⟨t, List.contains_iff_mem.mp ht, rfl⟩⟩
  · split at hform
    · cases hform
      trivial
    · cases hform

/-- **A mnemonic names nothing outside the tables of its branch.** -/
theorem branchOf_declared (mn : Str) : ∀ form ∈ branchOf mn, form.Declared := by
  have horElse : ∀ {x y : Option Form}, (∀ form ∈ x, form.Declared) → (∀ form ∈ y, form.Declared) →
      ∀ form ∈ (x <|> y), form.Declared := by
    intro x y hx hy form hform
    cases x with
    | none => exact hy form hform
    | some x => exact hx form hform
  have hplain : ∀ {α : Type} {x : Option α} {f : α → Form}, (∀ a, (f a).Declared) →
      ∀ form ∈ x.map f, form.Declared := by
    intro α x f hf form hform
    obtain ⟨a, -, rfl⟩ := Option.map_eq_some_iff.mp hform
    exact hf a
  have hite : ∀ {p : Prop} [Decidable p] {x : Option Form}, (∀ form ∈ x, form.Declared) →
      ∀ form ∈ (if p then x else none), form.Declared := by
    intro p _ x hx form hform
    split at hform
    · exact hx form hform
    · cases hform
  have hshift : ∀ x ∈ SHIFT.map (Prod.map id ShiftRot.shift) ++ ROT.map (Prod.map id ShiftRot.rot),
      ∀ r, x.2 = .rot r → r = .rol ∨ r = .ror := by
    intro x hx r hr
    rcases List.mem_append.mp hx with hx | hx
    · obtain ⟨y, -, rfl⟩ := List.mem_map.mp hx
      cases hr
    · obtain ⟨y, hy, rfl⟩ := List.mem_map.mp hx
      obtain rfl := ShiftRot.rot.inj hr
      have hrot : ∀ y ∈ ROT, y.2 = .rol ∨ y.2 = .ror := by decide
      exact hrot y hy
  have hbit : ∀ x ∈ [("bts".toList, BitKind.bts), ("btr".toList, .btr)],
      x.2 = .bts ∨ x.2 = .btr := by decide
  have hnone : ∀ {form : Form}, form.Declared → ∀ form' ∈ some form, form'.Declared := by
    rintro form hform _ ⟨⟩
    exact hform
  -- the tests in their order
  unfold branchOf
  apply horElse
  · exact suffixed_declared fun _ _ _ => trivial
  apply horElse movxForm_declared
  iterate 2
    apply horElse
    · exact suffixed_declared fun _ _ _ => trivial
  apply horElse
  · exact suffixed_declared fun x hx _ => hshift x hx
  apply horElse
  · exact suffixed_declared fun _ _ _ => trivial
  apply horElse
  · exact suffixed_declared fun x _ sz => by cases x.2 <;> trivial
  apply horElse
  · exact hite (hplain fun _ => trivial)
  apply horElse
  · exact hite (hplain fun _ => trivial)
  iterate 5
    apply horElse
    · exact suffixed_declared fun _ _ _ => trivial
  apply horElse
  · exact suffixed_declared fun x hx _ => hbit x hx
  apply horElse
  · exact hite (hnone trivial)
  · exact hite (hnone trivial)

/-! ## Every accepted text gives a returned instruction -/

/-- A program returns such instructions only. -/
abbrev ReturnsOnly (x : Except PyErr Op) : Prop := Ends Returned (fun _ => True) x

theorem Ctx.returnsOnly_refuse (c : Ctx) (msg : String) :
    ReturnsOnly (c.refuse msg : Except PyErr Op) := trivial

theorem done_returned {c : Ctx} {ops : List Arg} {op : Op} (hops : ∀ a ∈ ops, a.Legal)
    (hform : op.returned = true) (hfits : ∀ x ∈ op.sized, x.2.Fits x.1)
    (hcarry : Carries c.lock ops op) : ReturnsOnly (done c ops (.ok op)) := by
  apply ((memLock_spec c ops).imp (fun _ h => h) fun _ _ => trivial).bind
  intro _ hlock
  have hbuilt : Built c ops op := ⟨hform, fun x hx => Or.inl (hfits x hx), hlock⟩
  exact hbuilt.returned hops hcarry

theorem form_returned (c : Ctx) (mn : Str) {form : Form} {ops : List Arg}
    (hform : branchOf mn = some form) (hops : ∀ a ∈ ops, a.Legal) :
    ReturnsOnly (form.op c mn ops) := by
  have hbuilt := form_built hops (c := c) mn (branchOf_declared mn form hform)
  have hcarry := form_ends c ops mn (branchOf_groupsOk mn form hform)
  cases h : form.op c mn ops with
  | error e => trivial
  | ok op => exact (hbuilt.of_ok h).returned hops (hcarry.of_ok h)

/-- A target that is not refused is 64 bits wide and no immediate. -/
theorem fits_target (lock : Bool) {o : Arg} (ho : o.Legal) (hbad : ¬o.badTarget = true) :
    o.isImm = false ∧ (o.operand lock .q).Fits .q := by
  cases o with
  | imm v => exact absurd rfl hbad
  | mem ea => exact ⟨rfl, ho.1⟩
  | reg r sz high8 =>
      simp only [Arg.badTarget, Bool.or_eq_true, bne_iff_ne, not_or, not_not] at hbad
      refine ⟨rfl, fits_operand ho ?_⟩
      rintro _ ⟨⟩
      exact hbad.1

section accepted

variable [UnicodeDB]

/-- A `rep` form is one of three string operations. -/
theorem RepForm.kind {t : Str} {k : StringOp} {sz : Size} (h : RepForm t k sz) :
    k = .movs ∨ k = .stos ∨ k = .lods := by
  cases h with
  | suffixed hk => simpa using hk
  | accumulator hk => exact Or.inr (by simpa using hk)

theorem otherForm_returned (c : Ctx) (mn : Str) (arg : Option Str) :
    ReturnsOnly (otherForm c mn arg) := by
  have hform : ∀ toks ops, List.Forall₂ Reads toks ops → ReturnsOnly (mnemonicOp c mn ops) := by
    intro toks ops hops
    have hlegal : ∀ a ∈ ops, a.Legal := by
      intro a ha
      obtain ⟨i, hi, rfl⟩ := List.getElem_of_mem ha
      exact reads_legal (hops.get (hops.length_eq ▸ hi) hi)
    unfold mnemonicOp
    split
    · rename_i form hbranch
      exact form_returned c mn hbranch hlegal
    · trivial
  unfold otherForm
  cases arg with
  | none => exact hform [] [] .nil
  | some arg =>
      apply ((operands_ends fun t ht => strip_of_mem_splitOperands ht).imp (fun _ h => h) _).bind
      · exact fun ops hops => hform _ ops hops
      · exact fun _ _ => trivial

theorem branch_returned (c : Ctx) (addr n : Nat) (mn : Str) (arg : Option Str) :
    ReturnsOnly (branch c addr n mn arg) := by
  have hdirect : ∀ {op : Op}, op.returned = true → op.sized = [] → op.eas = [] →
      ReturnsOnly (done c [] (.ok op)) := by
    intro op hform hsized heas
    apply done_returned (by simp) hform (by simp [hsized])
    rw [Carries, heas]
    rfl
  cases arg with
  | none => trivial
  | some arg =>
      unfold branch
      dsimp only
      by_cases hstar : (strip arg).head? = some '*'
      · rw [if_pos hstar]
        apply ((operand_ends _).imp (fun _ h => h) fun _ _ => trivial).bind
        intro o ho
        have hlegal := reads_legal ho
        apply ends_ite (fun _ => c.returnsOnly_refuse _)
        intro hbad
        apply ends_ite (fun _ => c.returnsOnly_refuse _)
        intro _
        obtain ⟨himm, hfits⟩ := fits_target c.lock hlegal hbad
        apply done_returned (by simpa using hlegal)
        · split <;> simpa [Op.returned] using himm
        · split <;> simpa [Op.sized, JmpTarget.sized] using hfits
        · split <;> cases o <;> rfl
      · rw [if_neg hstar]
        split
        · trivial
        · rename_i m _
          cases h : pyInt 16 ((m.caps 1).getD []) with
          | error e => trivial
          | ok ta =>
              rw [ok_bind]
              apply ends_ite (fun _ => hdirect rfl rfl rfl)
              intro _
              apply ends_ite (fun _ => hdirect rfl rfl rfl)
              intro _
              split
              · exact hdirect rfl rfl rfl
              · exact done_ends (fun _ _ => trivial) c [] trivial

/-- **Every accepted text gives a returned instruction.** -/
theorem translateOp_returned (addr n : Nat) (text : Str) :
    ReturnsOnly (translateOp addr n text) := by
  unfold translateOp
  generalize lineWords text = x
  obtain ⟨lock, words⟩ := x
  cases words with
  | nil => trivial
  | cons mn rest =>
      show ReturnsOnly (translateWords _ addr n mn rest.head?)
      unfold translateWords
      apply ends_ite
      · intro _
        exact done_returned (by simp) rfl (by simp [Op.sized]) rfl
      · intro _
        apply ends_ite (fun _ => branch_returned _ addr n mn _)
        intro _
        apply ends_ite
        · intro _
          cases h : repString ⟨whatText addr text, lock⟩ (rest.head?.getD []) with
          | error e => trivial
          | ok op =>
              obtain ⟨-, k, sz, hform, rfl⟩ := repString_eq_ok_iff.mp h
              rcases hform.kind with rfl | rfl | rfl <;>
                exact ⟨rfl, fun x hx => absurd hx List.not_mem_nil,
                  fun hlock => absurd hlock Bool.false_ne_true⟩
        · exact fun _ => otherForm_returned _ mn _

end accepted

/-! ## Every such instruction is given by a text -/

/-- A spelling that has a line for every width of `movzx` and of `nop`. -/
def Spelling.wide : Spelling :=
  { Spelling.plain .gnu with bareMovx := true, nopSize := .q, nopSize_ne := by decide }

/-- All returned instructions are printable in it, but the `nop` of a high byte. -/
theorem printable_wide {op : Op} (h : Returned op) (hnop : ∀ r, op ≠ .nop (some (.reg r true))) :
    Printable Spelling.wide op where
  form := h.form
  lock := h.lock
  fits := by
    have hfits : op.isNop = false → ∀ x ∈ op.sized, x.2.Fits x.1 := by
      intro hno x hx
      rcases h.fits x hx with hx | ⟨hyes, -⟩
      · exact hx
      · rw [hno] at hyes
        cases hyes
    cases op with
    | nop dst =>
        intro x hx
        obtain ⟨o, ho, rfl⟩ := List.mem_map.mp hx
        obtain rfl := Option.mem_toList.mp ho
        cases o with
        | imm v => exact v.isLt
        | reg r high8 =>
            rintro rfl
            exact absurd rfl (hnop r)
        | mem ea =>
            rcases h.fits (.q, .mem ea) List.mem_cons_self with hea | ⟨-, hea⟩ <;> exact hea
    | _ => exact hfits rfl
  spells := by
    have hform := h.form
    cases op with
    | movx k dsz ssz dst src =>
        rw [Op.returned, Bool.and_eq_true] at hform
        exact hform.2
    | _ => rfl

section range

variable [UnicodeDB]

/-- The line of a `nop` of a high byte. -/
theorem translateOp_nop_high8 (addr n : Nat) {r : GPR} (hr : r.hasHigh8 = true) :
    ∃ text, translateOp addr n text = .ok (.nop (some (.reg r true))) := by
  have htakes : Takes "nop".toList (.nop .d) := by decide +kernel
  have hfits : (Operand.reg r true).Fits .b := fun _ => ⟨hr, rfl⟩
  have htoken := Spelling.wide.token_operandText (x := (.b, .reg r true)) hfits
  have hreads := Spelling.wide.reads_operandText (x := (.b, .reg r true)) hfits
  exact ⟨_, (translateOp_form Spelling.wide addr n false htakes (List.forall_mem_singleton.mpr htoken)
    (.cons hreads .nil)).trans rfl⟩

/-- **The instructions returned at an address are exactly those.** -/
theorem translateOp_range (addr n : Nat) (op : Op) :
    (∃ text, translateOp addr n text = .ok op) ↔ Returned op := by
  constructor
  · rintro ⟨text, h⟩
    exact (translateOp_returned addr n text).of_ok h
  · intro h
    by_cases hnop : ∃ r, op = .nop (some (.reg r true))
    · obtain ⟨r, rfl⟩ := hnop
      apply translateOp_nop_high8
      rcases h.fits (.q, .reg r true) List.mem_cons_self with hq | ⟨-, hb⟩
      · cases (hq rfl).2
      · exact (hb rfl).1
    · exact ⟨_, translateOp_print Spelling.wide addr n
        (printable_wide h fun r hr => hnop ⟨r, hr⟩)⟩

/-- **What the front end returns, and that it returns nothing else**: whatever the address and the
length of a line, the texts it may hold are translated to the terms of exactly these instructions. -/
theorem translate_range (addr n : Nat) (t : Str) :
    (∃ text, translate addr n text = .ok t) ↔ ∃ op, Returned op ∧ (Instr.mk op n).term = t := by
  constructor
  · rintro ⟨text, h⟩
    obtain ⟨op, hop, hterm⟩ := map_eq_ok.mp h
    exact ⟨op, (translateOp_range addr n op).mp ⟨text, hop⟩, hterm⟩
  · rintro ⟨op, hop, rfl⟩
    obtain ⟨text, htext⟩ := (translateOp_range addr n op).mpr hop
    exact ⟨text, map_eq_ok.mpr ⟨op, htext, rfl⟩⟩

end range

end X86Scripts
