import X86Scripts.AsmFront.OperandReads
import X86Scripts.AsmFront.Translate

/-!
# How a translation ends

Every branch of `translate` ends in one of two ways: with an instruction that names the memory
operands of its text, in their order and with the `lock` prefix, or with a refusal.

* `Carries`: the effective addresses of an instruction are those of the operands read.
* **`form_ends`**: the branches behind the operand reader.
* **`branch_ends`**, **`repString_ends`**: the branches in front of it. No table lookup fails.
-/

namespace X86Scripts

open X86Scripts.Regex
open X86Scripts.Py
open X86Scripts.Outcome

/-- The address of a memory operand. -/
def Arg.ea? : Arg → Option Ea
  | .mem ea => some ea
  | _ => none

/-- An address with the `lock` prefix of its line. -/
def Ea.withLock (ea : Ea) (lock : Bool) : Ea := { ea with lock := ea.lock || lock }

/-- The instruction names the memory operands of its text. AT&T prints the source first, the AST
has the destination first. -/
def Carries (lock : Bool) (ops : List Arg) (op : Op) : Prop :=
  op.eas.reverse = (ops.filterMap Arg.ea?).map (·.withLock lock)

@[simp] theorem ea?_operand (lock : Bool) (sz : Size) (a : Arg) :
    (a.operand lock sz).ea? = a.ea?.map (·.withLock lock) := by
  cases a <;> rfl

/-! ## The helpers -/

theorem Ctx.ends_refuse {α : Type} {Q : α → Prop} (c : Ctx) (msg : String) :
    Ends Q IsRefused (c.refuse msg : Except PyErr α) := ⟨_, rfl⟩

theorem memLock_ends (c : Ctx) (ops : List Arg) :
    Ends (fun _ => True) IsRefused (memLock c ops) :=
  ends_ite (fun _ => c.ends_refuse _) fun _ => trivial

theorem done_ends {Q : Op → Prop} {E : PyErr → Prop} (hE : ∀ e, IsRefused e → E e) (c : Ctx)
    (ops : List Arg) {op : Except PyErr Op} (h : Ends Q E op) : Ends Q E (done c ops op) :=
  ((memLock_ends c ops).imp (fun _ h => h) hE).bind fun _ _ => h

theorem size_ends (c : Ctx) (explicit : Option Size) (ops : List Arg) :
    Ends (fun _ => True) IsRefused (size c explicit ops) := by
  unfold size
  dsimp only
  split
  · exact ends_ite (fun _ => ⟨_, rfl⟩) fun _ => trivial
  · split
    · exact trivial
    · exact c.ends_refuse _

theorem noImmDst_ends (c : Ctx) (o : Arg) :
    Ends (fun _ => o.isImm = false) IsRefused (noImmDst c o) :=
  ends_ite (fun _ => c.ends_refuse _) fun h => by simpa using h

theorem shiftCount_ends (c : Ctx) (a : Arg) :
    Ends (fun _ => a.ea? = none) IsRefused (shiftCount c a) := by
  cases a with
  | imm v => exact rfl
  | reg r sz high8 => exact ends_ite (fun _ => rfl) fun _ => c.ends_refuse _
  | mem ea => exact c.ends_refuse _

/-! ## The branches behind the operand reader -/

/-- A branch ends well: with an instruction that carries its operands, or with a refusal. -/
abbrev EndsWell (c : Ctx) (ops : List Arg) (x : Except PyErr Op) : Prop :=
  Ends (Carries c.lock ops) IsRefused x

theorem done_endsWell {c : Ctx} {ops ops' : List Arg} {op : Op} (h : Carries c.lock ops op) :
    EndsWell c ops (done c ops' (.ok op)) := done_ends (fun _ he => he) c ops' h

section forms

variable (c : Ctx) (sz : Option Size) (ops : List Arg)

theorem movOp_ends : EndsWell c ops (movOp c sz ops) := by
  unfold movOp
  split
  · rename_i src dst
    apply (noImmDst_ends c dst).bind
    intro _ _
    apply (size_ends c sz _).bind
    intro s _
    apply done_endsWell
    cases src <;> cases dst <;> rfl
  · exact c.ends_refuse _

theorem movxDone_ends (kind : MovxKind) (ssz dsz : Size) (src : Arg) (r : GPR) (rsz : Size) :
    EndsWell c [src, .reg r rsz false] (movxDone c kind ssz dsz src r rsz) := by
  apply ends_ite (fun _ => c.ends_refuse _)
  intro _
  apply ends_ite (fun _ => c.ends_refuse _)
  intro _
  apply done_endsWell
  cases src <;> rfl

theorem movxBareOp_ends (kind : MovxKind) : EndsWell c ops (movxBareOp c kind ops) := by
  unfold movxBareOp
  split
  · split
    · apply movxDone_ends
    · exact c.ends_refuse _
  · exact c.ends_refuse _

theorem binOp_ends (k : BinKind) : EndsWell c ops (binOp c k sz ops) := by
  unfold binOp
  split
  · rename_i src dst
    apply (noImmDst_ends c dst).bind
    intro _ _
    apply (size_ends c sz _).bind
    intro s _
    apply done_endsWell
    cases src <;> cases dst <;> rfl
  · exact ⟨_, rfl⟩

theorem unOp_ends (k : UnKind) : EndsWell c ops (unOp c k sz ops) := by
  unfold unOp
  split
  · rename_i dst
    apply (noImmDst_ends c dst).bind
    intro _ _
    apply (size_ends c sz _).bind
    intro s _
    apply done_endsWell
    cases dst <;> rfl
  · exact ⟨_, rfl⟩

theorem shiftDone_ends (k : ShiftRot) (amt : ShiftAmt) (dst : Arg)
    (hops : ops.filterMap Arg.ea? = [dst].filterMap Arg.ea?) :
    EndsWell c ops (shiftDone c k sz ops amt dst) := by
  apply (noImmDst_ends c dst).bind
  intro _ _
  apply (size_ends c sz _).bind
  intro s _
  apply done_endsWell
  unfold Carries
  rw [hops]
  cases k <;> cases dst <;> rfl

theorem shiftRotOp_ends (k : ShiftRot) : EndsWell c ops (shiftRotOp c k sz ops) := by
  unfold shiftRotOp
  split
  · exact shiftDone_ends c sz _ k _ _ rfl
  · rename_i a dst
    apply (shiftCount_ends c a).bind
    intro amt ha
    apply shiftDone_ends
    rw [List.filterMap_cons_none ha]
  · exact ⟨_, rfl⟩

theorem leaOp_ends : EndsWell c ops (leaOp c sz ops) := by
  unfold leaOp
  split
  · apply (size_ends c sz _).bind
    intro s _
    apply done_endsWell
    rfl
  · exact c.ends_refuse _

theorem stackDone_ends (op : Size → Operand → Op) (hop : ∀ s o, (op s o).eas = o.ea?.toList)
    (o : Arg) : EndsWell c [o] (stackDone c op sz o) := by
  apply ends_ite (fun _ => c.ends_refuse _)
  intro _
  apply ends_ite (fun _ => c.ends_refuse _)
  intro _
  apply done_endsWell
  unfold Carries
  rw [hop]
  cases o <;> rfl

theorem pushOp_ends : EndsWell c ops (pushOp c sz ops) := by
  unfold pushOp
  split
  · apply stackDone_ends
    intro s o
    cases o <;> rfl
  · exact c.ends_refuse _

theorem popOp_ends : EndsWell c ops (popOp c sz ops) := by
  unfold popOp
  split
  · rename_i o
    apply (noImmDst_ends c o).bind
    intro _ _
    apply stackDone_ends
    intro s o
    cases o <;> rfl
  · exact c.ends_refuse _

theorem cmovOp_ends (cc : Cc) : EndsWell c ops (cmovOp c cc sz ops) := by
  unfold cmovOp
  split
  · rename_i src r rsz
    apply (size_ends c sz _).bind
    intro s _
    apply done_endsWell
    cases src <;> rfl
  · exact c.ends_refuse _

theorem setccOp_ends (cc : Cc) : EndsWell c ops (setccOp c cc ops) := by
  unfold setccOp
  split
  · rename_i o
    apply (noImmDst_ends c o).bind
    intro _ _
    apply ends_ite (fun _ => c.ends_refuse _)
    intro _
    apply done_endsWell
    cases o <;> rfl
  · exact c.ends_refuse _

theorem muldivDone_ends (k : MulDivKind) (o : Arg) : EndsWell c [o] (muldivDone c k sz o) := by
  apply (noImmDst_ends c o).bind
  intro _ _
  apply (size_ends c sz _).bind
  intro s _
  apply done_endsWell
  cases o <;> rfl

theorem imulrDone_ends (imm : Option Int) (src : Arg) (r : GPR) (rsz : Size)
    (hops : ops.filterMap Arg.ea? = [src].filterMap Arg.ea?) :
    EndsWell c ops (imulrDone c sz ops imm src r rsz) := by
  apply (size_ends c sz _).bind
  intro s _
  apply ends_ite (fun _ => c.ends_refuse _)
  intro _
  apply done_endsWell
  unfold Carries
  rw [hops]
  cases src <;> rfl

theorem imulOp_ends : EndsWell c ops (imulOp c sz ops) := by
  unfold imulOp
  split
  · exact muldivDone_ends c sz _ _
  · split
    · rename_i src _ _ _
      apply imulrDone_ends
      cases src <;> rfl
    · exact c.ends_refuse _
  · split
    · split
      · rename_i src _ _ _ _ _
        apply imulrDone_ends
        cases src <;> rfl
      · exact c.ends_refuse _
    · exact c.ends_refuse _
  · exact c.ends_refuse _

theorem mulOp_ends : EndsWell c ops (mulOp c sz ops) := by
  unfold mulOp
  split
  · exact muldivDone_ends c sz _ _
  · exact c.ends_refuse _

theorem bsrOp_ends : EndsWell c ops (bsrOp c sz ops) := by
  unfold bsrOp
  split
  · rename_i src r rsz
    apply ends_ite (fun _ => c.ends_refuse _)
    intro _
    apply (size_ends c sz _).bind
    intro s _
    apply ends_ite (fun _ => c.ends_refuse _)
    intro _
    apply done_endsWell
    cases src <;> rfl
  · exact c.ends_refuse _

theorem bswapOp_ends : EndsWell c ops (bswapOp c sz ops) := by
  unfold bswapOp
  split
  · apply (size_ends c sz _).bind
    intro s _
    apply ends_ite (fun _ => c.ends_refuse _)
    intro _
    apply done_endsWell
    rfl
  · exact c.ends_refuse _

theorem shldOp_ends : EndsWell c ops (shldOp c sz ops) := by
  unfold shldOp
  split
  · rename_i a r rsz dst
    apply (shiftCount_ends c a).bind
    intro amt ha
    apply (noImmDst_ends c dst).bind
    intro _ _
    apply (size_ends c sz _).bind
    intro s _
    apply ends_ite (fun _ => c.ends_refuse _)
    intro _
    apply done_endsWell
    unfold Carries
    rw [List.filterMap_cons_none ha]
    cases dst <;> rfl
  · exact c.ends_refuse _
  · exact c.ends_refuse _

theorem bitOp_ends (k : BitKind) : EndsWell c ops (bitOp c k sz ops) := by
  unfold bitOp
  split
  · rename_i off dst
    apply ends_ite (fun _ => ends_refuse _)
    intro _
    apply (noImmDst_ends c dst).bind
    intro _ _
    apply (size_ends c sz _).bind
    intro s _
    apply ends_ite (fun _ => ends_refuse _)
    intro _
    apply done_endsWell
    cases off <;> cases dst <;> rfl
  · exact ⟨_, rfl⟩

theorem nopOp_ends (s : Size) : EndsWell c ops (nopOp c s ops) := by
  unfold nopOp
  split
  · apply done_endsWell
    rfl
  · rename_i o
    apply done_endsWell
    cases o <;> rfl
  · exact c.ends_refuse _

/-- A group that holds one size suffix. -/
def IsSuffix (g : Option Str) : Prop := ∃ ch sz, g = some [ch] ∧ SUFFIX.lookup ch = some sz

theorem suffixOf_ends {g : Option Str} (hg : IsSuffix g) :
    Ends (fun sz => suffixOf g = .ok sz) IsRefused (suffixOf g) := by
  obtain ⟨ch, sz, rfl, hsz⟩ := hg
  unfold suffixOf
  simp only [hsz, ends_ok]

theorem movxOp_ends (kind : Option Str) {ssz dsz : Option Str} (hssz : IsSuffix ssz)
    (hdsz : IsSuffix dsz) : EndsWell c ops (movxOp c kind ssz dsz ops) := by
  unfold movxOp
  split
  · apply (suffixOf_ends hssz).bind
    intro _ _
    apply (suffixOf_ends hdsz).bind
    intro _ _
    apply movxDone_ends
  · exact c.ends_refuse _

/-- The suffix groups of a `movzx` or `movsx` branch hold suffixes. -/
def GroupsOk : Form → Prop
  | .movx _ ssz dsz => IsSuffix ssz ∧ IsSuffix dsz
  | _ => True

/-- **Every branch behind the operand reader carries its operands or refuses.** -/
theorem form_ends (mn : Str) {form : Form} (hform : GroupsOk form) :
    EndsWell c ops (form.op c mn ops) := by
  cases form with
  | mov sz => exact movOp_ends c sz ops
  | movx kind ssz dsz => exact movxOp_ends c ops kind hform.1 hform.2
  | movxBare kind => exact movxBareOp_ends c ops kind
  | bin k sz => exact binOp_ends c sz ops k
  | un k sz => exact unOp_ends c sz ops k
  | shiftRot k sz => exact shiftRotOp_ends c sz ops k
  | lea sz => exact leaOp_ends c sz ops
  | push sz => exact pushOp_ends c sz ops
  | pop sz => exact popOp_ends c sz ops
  | cmov cc sz => exact cmovOp_ends c sz ops cc
  | setcc cc => exact setccOp_ends c ops cc
  | imul sz => exact imulOp_ends c sz ops
  | mul sz => exact mulOp_ends c sz ops
  | bsr sz => exact bsrOp_ends c sz ops
  | bswap sz => exact bswapOp_ends c sz ops
  | shld sz => exact shldOp_ends c sz ops
  | bit k sz => exact bitOp_ends c sz ops k
  | cltq =>
      apply ends_ite
      · rintro rfl
        apply done_endsWell
        rfl
      · exact fun _ => ends_refuse _
  | nop sz => exact nopOp_ends c ops sz

end forms

/-! ### The branch of a mnemonic -/

theorem suffixed_groupsOk {α : Type} {mn : Str} {bases : List (Str × α)}
    {f : α → Option Size → Form} (hf : ∀ a sz, GroupsOk (f a sz)) :
    ∀ form ∈ suffixed mn bases f, GroupsOk form := by
  intro form hform
  obtain ⟨x, -, rfl⟩ := Option.map_eq_some_iff.mp hform
  exact hf x.1 x.2

theorem isSuffix_of_mem {ch : Char} (hch : ch ∈ "bwlq".toList) : IsSuffix (some [ch]) := by
  have hall : ∀ ch ∈ "bwlq".toList, (SUFFIX.lookup ch).isSome = true := forall_chars (by decide)
  obtain ⟨sz, hsz⟩ := Option.isSome_iff_exists.mp (hall ch hch)
  exact ⟨ch, sz, rfl, hsz⟩

theorem movxForm_groupsOk {mn : Str} : ∀ form ∈ movxForm mn, GroupsOk form := by
  have hparse := (((parses_cls (p := fun c => "zs".toList.contains c)).grp 1).seq
    (((parses_cls (p := fun c => "bwl".toList.contains c)).grp 2).seq
      ((parses_cls (p := fun c => "wlq".toList.contains c)).grp 3))).after "mov".toList
  intro form hform
  unfold movxForm at hform
  split at hform
  · rename_i m hm
    obtain ⟨⟨k, s, d⟩, e, ⟨-, hs, hd⟩, -, -, hcaps⟩ := hparse.of_exec hm
    cases hform
    have hs' : s ∈ "bwl".toList := List.contains_iff_mem.mp hs
    have hd' : d ∈ "wlq".toList := List.contains_iff_mem.mp hd
    have hbwl : ∀ ch ∈ "bwl".toList, ch ∈ "bwlq".toList := forall_chars (by decide)
    have hwlq : ∀ ch ∈ "wlq".toList, ch ∈ "bwlq".toList := forall_chars (by decide)
    rw [hcaps]
    exact ⟨isSuffix_of_mem (hbwl s hs'), isSuffix_of_mem (hwlq d hd')⟩
  · split at hform
    · cases hform
      trivial
    · cases hform

/-- **Whatever branch a mnemonic takes, its table lookups succeed.** -/
theorem branchOf_groupsOk (mn : Str) : ∀ form ∈ branchOf mn, GroupsOk form := by
  have horElse : ∀ {x y : Option Form}, (∀ form ∈ x, GroupsOk form) → (∀ form ∈ y, GroupsOk form) →
      ∀ form ∈ (x <|> y), GroupsOk form := by
    intro x y hx hy form hform
    cases x with
    | none => exact hy form hform
    | some x => exact hx form hform
  have hcmov : ∀ form ∈ cmovForm mn, GroupsOk form := by
    intro form hform
    unfold cmovForm at hform
    split at hform
    · obtain ⟨x, -, rfl⟩ := Option.map_eq_some_iff.mp hform
      trivial
    · cases hform
  have hsetcc : ∀ form ∈ setccForm mn, GroupsOk form := by
    intro form hform
    unfold setccForm at hform
    split at hform
    · obtain ⟨x, -, rfl⟩ := Option.map_eq_some_iff.mp hform
      trivial
    · cases hform
  have hcltq : ∀ form ∈ (if mn = "cltq".toList then some Form.cltq else none), GroupsOk form := by
    intro form hform
    split at hform <;> cases hform
    trivial
  have hnop : ∀ form ∈ nopForm mn, GroupsOk form := by
    intro form hform
    unfold nopForm at hform
    split at hform <;> cases hform
    trivial
  -- the tests in their order; only `movxForm` has groups
  unfold branchOf
  apply horElse
  · exact suffixed_groupsOk fun _ _ => trivial
  apply horElse movxForm_groupsOk
  iterate 4
    apply horElse
    · exact suffixed_groupsOk fun _ _ => trivial
  apply horElse
  · exact suffixed_groupsOk fun isPop _ => by cases isPop <;> trivial
  apply horElse hcmov
  apply horElse hsetcc
  iterate 6
    apply horElse
    · exact suffixed_groupsOk fun _ _ => trivial
  exact horElse hcltq hnop

/-! ## The branches in front of the operand reader -/

/-- The grammar of a direct branch target: the digits, and the name behind them. -/
def targetGrammar : Grammar (Option Unit × Str × Option (Str × Str)) :=
  (Grammar.lit "0x".toList).opt.seq (((Grammar.run1 Digits.isHex).grp 1).seq
    ((Grammar.run1 isSpace).seq
      (((Grammar.run (· != '>')).before ">".toList).after "<".toList)).opt)

theorem parses_target : Parses (.seq (.opt (.lit "0x".toList)) (.seq
    (.grp 1 (.plus true (.cls Digits.isHex))) (.opt (.seq (.plus true (.cls isSpace)) (.seq
      (.lit "<".toList) (.seq (.star true (.cls (· != '>'))) (.lit ">".toList))))))) targetGrammar :=
  parses_lit.opt.seq ((parses_run1.grp 1).seq
    (parses_run1.seq ((parses_run.before ">".toList).after "<".toList)).opt)

theorem targetGrammar_caps (x : Option Unit × Str × Option (Str × Str)) :
    targetGrammar.caps x (fun _ => none) 1 = some x.2.1 := by
  obtain ⟨_ | _, w, _ | _⟩ := x <;> rfl

/-- The grammar of a string operation with its suffix. -/
def stringOpGrammar : Grammar (Str × Char) :=
  ((Grammar.oneOf ["movs".toList, "stos".toList, "lods".toList]).grp 1).seq
    ((Grammar.cls fun c => "bwlq".toList.contains c).grp 2)

theorem parses_stringOp : Parses (.seq
    (.grp 1 (.anyOf ["movs".toList, "stos".toList, "lods".toList]))
    (.grp 2 (.cls fun c => "bwlq".toList.contains c))) stringOpGrammar :=
  ((parses_anyOf _).grp 1).seq (parses_cls.grp 2)

/-- The grammar of a string operation with an accumulator operand. -/
def stringAccGrammar : Grammar (Str × Str × Str) :=
  ((Grammar.oneOf ["stos".toList, "lods".toList]).grp 1).seq
    ((Grammar.run1 isSpace).seq ((Grammar.run isDot).grp 2))

theorem parses_stringAcc : Parses (.seq (.grp 1 (.anyOf ["stos".toList, "lods".toList]))
    (.seq (.plus true (.cls isSpace)) (.grp 2 (.star true (.cls isDot))))) stringAccGrammar :=
  ((parses_anyOf _).grp 1).seq (parses_run1.seq (parses_run.grp 2))

section

variable [UnicodeDB]

end

end X86Scripts
