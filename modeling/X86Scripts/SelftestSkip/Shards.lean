import X86Scripts.Lib.Classes
import X86Scripts.Lib.PyStr

/-!
# The shards of the selftest

The harness selftest drives one wrong model for each of its arms. CI deals the arms out to shards:
the commands `selftest-shard` and `selftest-shards` of `Main.lean`, and the checks of
`scripts/check_ci_shards.py` that hold the matrix of the workflow to the divisor of the command.
What driving an arm finds is a parameter.

* `shardIndices`, `runShard`, `selftestShard`, `selftestShards`: the stride, a shard, the commands.
* `Found`, `checkShards`: what is read off the workflow, and the findings about it.
* **`shards_cover`**: the shards name every arm exactly once, and the partition gate never fails.
* **`matrix_covers_iff`**: which matrices are green exactly if every arm passes.
* **`checkShards_covers`**: a workflow without findings is one of them.
-/

namespace X86Scripts.Skip

open X86Scripts.Classes
open X86Scripts.Digits
open X86Scripts.Py

/-! ## The commands -/

/-- The arms a shard names, by index, of so many. Source: `Main.lean`, `shardIndices` -/
def shardIndices (total k n : Nat) : List Nat :=
  (List.range total).filter fun i => i % n == k - 1

section

variable {Arm : Type}

/-- The arms a shard runs. -/
def shardArms (arms : List Arm) (k n : Nat) : List Arm :=
  (shardIndices arms.length k n).filterMap fun i => arms[i]?

/-- The loop over the arms: every arm is driven, also after a failure. -/
def driveAll (driveWrong : Arm → Bool) (arms : List Arm) : Bool :=
  arms.foldl (fun ok a => ok && driveWrong a) true

/-- Shard `k` of `n`: what is printed around its arms, and the exit code. -/
def runShard (driveWrong : Arm → Bool) (arms : List Arm) (k n : Nat) : List String × Nat :=
  if n == 0 || k == 0 || k > n then
    (["⛔ bad shard " ++ toString k ++ "/" ++ toString n ++ ": need 1 ≤ k ≤ n"], 2)
  else
    let mine := shardArms arms k n
    let head := "harness selftest — SHARD " ++ toString k ++ " of " ++ toString n ++ ": " ++
      toString mine.length ++ " of " ++ toString arms.length ++ " arms"
    if driveAll driveWrong mine then
      ([head, "shard " ++ toString k ++ "/" ++ toString n ++ ": PASS (" ++
        toString mine.length ++ " arms)"], 0)
    else ([head, "shard " ++ toString k ++ "/" ++ toString n ++ ": FAIL"], 1)

/-- `selftest-shard k n`. Source: `Main.lean`, `main` -/
def selftestShard (driveWrong : Arm → Bool) (arms : List Arm) (ks ns : String) :
    List String × Nat :=
  match ks.toNat?, ns.toNat? with
  | some k, some n => runShard driveWrong arms k n
  | _, _ => (["⛔ selftest-shard takes two numbers: k n"], 2)

/-- `selftest-shards n`: do the shards `1..n` name every arm exactly once?
Source: `Main.lean`, `main` -/
def selftestShards (total : Nat) (ns : String) : List String × Nat :=
  match ns.toNat? with
  | some n =>
    if n == 0 then (["⛔ n must be ≥ 1"], 2)
    else
      let covered := (List.range n).flatMap fun j => shardIndices total (j + 1) n
      let sorted := covered.mergeSort (· ≤ ·)
      let expected := List.range total
      if sorted == expected then
        (["shard partition gate: CLEAN — shards 1.." ++ toString n ++ " name all " ++
          toString total ++ " arms exactly once"], 0)
      else
        (["⛔ shard partition gate: FAIL — shards 1.." ++ toString n ++ " name " ++
          toString sorted.length ++ " arm slots for " ++ toString total ++
          " arms; some arm is missed or duplicated"], 1)
  | none => (["⛔ selftest-shards takes a number"], 2)

/-! ## The partition -/

/-- A shard is a class of the remainders. -/
theorem shardIndices_eq (total j n : Nat) :
    shardIndices total (j + 1) n = classOf (· % n) (List.range total) j := by
  unfold shardIndices classOf
  apply List.filter_congr
  intro i _
  rw [Nat.add_sub_cancel]
  rfl

/-- **The shards name every index exactly once.** -/
theorem shards_perm {n : Nat} (hn : 0 < n) (total : Nat) :
    ((List.range n).flatMap fun j => shardIndices total (j + 1) n).Perm (List.range total) := by
  simp only [shardIndices_eq]
  exact flatMap_classOf_perm List.nodup_range fun i _ => List.mem_range.mpr (Nat.mod_lt i hn)

theorem driveAll_eq_all (driveWrong : Arm → Bool) (arms : List Arm) :
    driveAll driveWrong arms = arms.all driveWrong := by
  have hfold : ∀ (ok : Bool) (l : List Arm),
      l.foldl (fun ok a => ok && driveWrong a) ok = (ok && l.all driveWrong) := by
    intro ok l
    induction l generalizing ok with
    | nil => simp
    | cons a l ih => rw [List.foldl_cons, ih, List.all_cons, Bool.and_assoc]
  rw [driveAll, hfold, Bool.true_and]

theorem mem_shardArms {arms : List Arm} {k n : Nat} {a : Arm} :
    a ∈ shardArms arms k n ↔ ∃ i, i % n = k - 1 ∧ arms[i]? = some a := by
  simp only [shardArms, shardIndices, List.mem_filterMap, List.mem_filter, List.mem_range,
    beq_iff_eq]
  constructor
  · rintro ⟨i, ⟨-, hmod⟩, harm⟩
    exact ⟨i, hmod, harm⟩
  · rintro ⟨i, hmod, harm⟩
    exact ⟨i, ⟨(List.getElem?_eq_some_iff.mp harm).1, hmod⟩, harm⟩

/-- Every arm is in a shard. -/
theorem forall_shardArms {n : Nat} (hn : 0 < n) {arms : List Arm} {p : Arm → Prop} :
    (∀ k, 1 ≤ k → k ≤ n → ∀ a ∈ shardArms arms k n, p a) ↔ ∀ a ∈ arms, p a := by
  constructor
  · intro h a ha
    obtain ⟨i, hi⟩ := List.mem_iff_getElem?.mp ha
    exact h (i % n + 1) (Nat.le_add_left 1 _) (Nat.mod_lt i hn) a (mem_shardArms.mpr ⟨i, rfl, hi⟩)
  · intro h k _ _ a ha
    obtain ⟨i, -, hi⟩ := mem_shardArms.mp ha
    exact h a (List.mem_of_getElem? hi)

/-- The arguments are read as the numbers they are the text of. -/
theorem selftestShard_toString (driveWrong : Arm → Bool) (arms : List Arm) (k n : Nat) :
    selftestShard driveWrong arms (toString k) (toString n) = runShard driveWrong arms k n := by
  unfold selftestShard
  rw [show (toString k).toNat? = some k from Nat.toNat?_repr k,
    show (toString n).toNat? = some n from Nat.toNat?_repr n]

/-- A shard of the range passes exactly if its arms do. -/
theorem runShard_pass {driveWrong : Arm → Bool} {arms : List Arm} {k n : Nat} (hk : 1 ≤ k)
    (hkn : k ≤ n) : (runShard driveWrong arms k n).2 = 0 ↔
      ∀ a ∈ shardArms arms k n, driveWrong a = true := by
  have hrange : ¬((n == 0 || k == 0 || decide (k > n)) = true) := by
    simp
    omega
  unfold runShard
  simp only [if_neg hrange, driveAll_eq_all]
  split
  · rename_i h
    exact iff_of_true rfl (List.all_eq_true.mp h)
  · rename_i h
    exact iff_of_false Nat.one_ne_zero fun hall => h (List.all_eq_true.mpr hall)

/-- A shard outside the range does not pass. -/
theorem runShard_bad {driveWrong : Arm → Bool} {arms : List Arm} {k n : Nat}
    (h : ¬(1 ≤ k ∧ k ≤ n)) : (runShard driveWrong arms k n).2 = 2 := by
  have hrange : (n == 0 || k == 0 || decide (k > n)) = true := by
    simp
    omega
  unfold runShard
  simp only [if_pos hrange]

/-- The shards of a matrix are all green: each of its commands has exit code 0. -/
def Green (driveWrong : Arm → Bool) (arms : List Arm) (matrix : List Nat) (n : Nat) : Prop :=
  ∀ k ∈ matrix, (selftestShard driveWrong arms (toString k) (toString n)).2 = 0

theorem green_iff_runShard {driveWrong : Arm → Bool} {arms : List Arm} {matrix : List Nat} {n : Nat} :
    Green driveWrong arms matrix n ↔ ∀ k ∈ matrix, (runShard driveWrong arms k n).2 = 0 := by
  simp only [Green, selftestShard_toString]

/-- A matrix that lists the shards `1..n` is green exactly if every arm passes. -/
theorem green_iff {driveWrong : Arm → Bool} {arms : List Arm} {matrix : List Nat} {n : Nat}
    (hn : 0 < n) (hmatrix : ∀ k, k ∈ matrix ↔ 1 ≤ k ∧ k ≤ n) :
    Green driveWrong arms matrix n ↔ ∀ a ∈ arms, driveWrong a = true := by
  rw [← forall_shardArms hn, green_iff_runShard]
  constructor
  · intro h k hk hkn
    exact (runShard_pass hk hkn).mp (h k ((hmatrix k).mpr ⟨hk, hkn⟩))
  · intro h k hk
    obtain ⟨hk, hkn⟩ := (hmatrix k).mp hk
    exact (runShard_pass hk hkn).mpr (h k hk hkn)

end

/-- The arms by their indices, in order. -/
theorem filterMap_range_getElem? {Arm : Type} (arms : List Arm) :
    (List.range arms.length).filterMap (fun i => arms[i]?) = arms := by
  induction arms with
  | nil => rfl
  | cons a arms ih =>
      rw [List.length_cons, List.range_succ_eq_map, List.filterMap_cons_some List.getElem?_cons_zero,
        List.filterMap_map]
      exact congrArg (a :: ·) ih

/-- The partition gate is clean for every divisor but 0. -/
theorem partitionGate_clean {n : Nat} (hn : 0 < n) (total : Nat) :
    (selftestShards total (toString n)).2 = 0 := by
  unfold selftestShards
  rw [show (toString n).toNat? = some n from Nat.toNat?_repr n]
  simp [Nat.ne_of_gt hn, mergeSort_eq_range (shards_perm hn total)]

/-- **The shards name every arm exactly once.** For any divisor but 0, the shards `1..n` together
run the arms, each as often as it is listed, and the partition gate is clean however many arms
there are. -/
theorem shards_cover (n : Nat) (hn : 0 < n) :
    (∀ (Arm : Type) (arms : List Arm),
      ((List.range n).flatMap fun j => shardArms arms (j + 1) n).Perm arms) ∧
    ∀ total, (selftestShards total (toString n)).2 = 0 := by
  refine ⟨fun Arm arms => ?_, partitionGate_clean hn⟩
  have hperm := (shards_perm hn arms.length).filterMap fun i => arms[i]?
  rwa [List.filterMap_flatMap, filterMap_range_getElem?] at hperm

/-- Twenty shards. -/
theorem shards_cover_twenty :
    (∀ (Arm : Type) (arms : List Arm),
      ((List.range 20).flatMap fun j => shardArms arms (j + 1) 20).Perm arms) ∧
    ∀ total, (selftestShards total (toString 20)).2 = 0 :=
  shards_cover 20 (by decide)

/-! ## The matrix of the workflow -/

/-- **Which matrix covers.** The shards of a matrix are green exactly if every arm passes, whatever
the arms and whatever driving them finds, exactly if the matrix lists the shards `1..n` and
nothing else. -/
theorem matrix_covers_iff (matrix : List Nat) (n : Nat) :
    (∀ (Arm : Type) (driveWrong : Arm → Bool) (arms : List Arm),
      Green driveWrong arms matrix n ↔ ∀ a ∈ arms, driveWrong a = true) ↔
    0 < n ∧ ∀ k, k ∈ matrix ↔ 1 ≤ k ∧ k ≤ n := by
  constructor
  · intro h
    simp only [green_iff_runShard] at h
    have hrange : ∀ k ∈ matrix, 1 ≤ k ∧ k ≤ n := by
      intro k hk
      by_contra hbad
      have hgreen := (h Nat (fun _ => true) []).mpr (fun _ _ => rfl) k hk
      rw [runShard_bad hbad] at hgreen
      cases hgreen
    refine ⟨Nat.pos_of_ne_zero ?_, fun k => ⟨hrange k, ?_⟩⟩
    · rintro rfl
      -- no shard is within the range, so a failing arm goes unseen
      have hnone : ∀ k ∈ matrix, (runShard (fun _ => false) [0] k 0).2 = 0 := by
        intro k hk
        have := hrange k hk
        omega
      exact absurd ((h Nat (fun _ => false) [0]).mp hnone 0 (List.mem_singleton.mpr rfl)) (by decide)
    · rintro ⟨hk, hkn⟩
      by_contra hmissing
      -- one arm for each shard, and the arm of the shard that is missing fails
      have hgreen : ∀ k' ∈ matrix,
          (runShard (fun i => decide (i ≠ k - 1)) (List.range n) k' n).2 = 0 := by
        intro k' hk'
        obtain ⟨hlo, hhi⟩ := hrange k' hk'
        refine (runShard_pass hlo hhi).mpr fun a ha => decide_eq_true ?_
        obtain ⟨i, hmod, hi⟩ := mem_shardArms.mp ha
        obtain ⟨hlen, rfl⟩ := List.getElem?_eq_some_iff.mp hi
        rw [List.length_range] at hlen
        rw [Nat.mod_eq_of_lt hlen] at hmod
        rw [List.getElem_range, hmod]
        have hne : k' ≠ k := ne_of_mem_of_not_mem hk' hmissing
        omega
      have hfails := (h Nat _ _).mp hgreen (k - 1) (List.mem_range.mpr (by omega))
      exact absurd rfl (of_decide_eq_true hfails)
  · rintro ⟨hn, hmatrix⟩ Arm driveWrong arms
    exact green_iff hn hmatrix

/-! ## The checks on the workflow -/

/-- What the expressions of the script find in the workflow: the matrix, the shard commands with
their two arguments, and the arguments of the partition gates. -/
structure Found where
  matrix : Option (List Nat)
  runs : List (Str × Nat)
  gates : List Nat

/-- `sorted(set(l))`. -/
def sortedSet (l : List Nat) : List Nat := l.dedup.mergeSort (· ≤ ·)

/-- The text of a list of numbers. -/
def listText (l : List Nat) : Str :=
  '[' :: ", ".toList.intercalate (l.map dec) ++ [']']

/-- `${{ matrix.shard }}`. -/
def matrixVariable : Str := "$\x7b\x7b matrix.shard \x7d\x7d".toList

/-- Source: `scripts/check_ci_shards.py`, `CI` -/
def CI : Str := ".github/workflows/ci.yml".toList

/-- The findings about the matrix, the shard commands and the partition gate, or the text of a
refusal. Source: `scripts/check_ci_shards.py` -/
def checkShards [UnicodeDB] (f : Found) : Except Str (List Str) :=
  match f.matrix with
  | none =>
    .error ("⛔ no `shard: [...]` matrix found in ".toList ++ CI ++ (". A gate that cannot find its " ++
      "subject must refuse, not pass.").toList)
  | some matrix =>
    if f.runs = [] then
      .error ("⛔ no `selftest-shard <k> <n>` command found in ".toList ++ CI ++ ".".toList)
    else if f.gates = [] then
      .error ("⛔ no `selftest-shards <n>` partition gate found in ".toList ++ CI ++
        ". The shards would run with nothing asserting they cover every arm.".toList)
    else
      let divisors := sortedSet (f.runs.map Prod.snd)
      let n := divisors.headD 0
      let missing := sortedSet ((List.range' 1 n).filter fun k => !matrix.contains k)
      .ok ((if divisors.length ≠ 1 then
          ["the `selftest-shard` commands disagree about the divisor: ".toList ++ listText divisors]
          else []) ++
        (if matrix ≠ List.range' 1 n then
          ["matrix.shard is ".toList ++ listText matrix ++ ", which is not 1..".toList ++ dec n ++
            " — ".toList ++ listText missing ++ " would never run".toList] else []) ++
        ((f.runs.filter fun r => !"$\x7b\x7b".toList.isPrefixOf r.1).map fun r =>
          "the shard command passes a LITERAL k=".toList ++ pyRepr r.1 ++
            (" instead of the matrix variable; every job would run the same shard and all would " ++
              "pass").toList) ++
        (f.gates.filter fun g => g ≠ n).map fun g =>
          "the partition gate asserts `selftest-shards ".toList ++ dec g ++
            "` but the shards run with divisor ".toList ++ dec n ++
            "; the gate is describing a different split".toList)

theorem mem_sortedSet {l : List Nat} {x : Nat} : x ∈ sortedSet l ↔ x ∈ l := by
  rw [sortedSet, List.mem_mergeSort, List.mem_dedup]

theorem sortedSet_ne_nil {l : List Nat} (hne : l ≠ []) : sortedSet l ≠ [] := by
  obtain ⟨x, hx⟩ := List.exists_mem_of_ne_nil l hne
  exact List.ne_nil_of_mem (mem_sortedSet.mpr hx)

theorem headD_sortedSet_mem {l : List Nat} (hne : l ≠ []) : (sortedSet l).headD 0 ∈ l := by
  obtain ⟨y, ys, hs⟩ := List.exists_cons_of_ne_nil (sortedSet_ne_nil hne)
  exact mem_sortedSet.mp (by simp [hs])

/-- A set that is not empty has one element exactly if all are the first. -/
theorem sortedSet_length {l : List Nat} (hne : l ≠ []) :
    (sortedSet l).length = 1 ↔ ∀ x ∈ l, x = (sortedSet l).headD 0 := by
  have hnodup : (sortedSet l).Nodup := (List.mergeSort_perm _ _).nodup_iff.mpr l.nodup_dedup
  constructor
  · intro h x hx
    obtain ⟨y, hy⟩ := List.length_eq_one_iff.mp h
    have hxy := mem_sortedSet.mpr hx
    rw [hy, List.mem_singleton] at hxy
    rw [hy, hxy]
    rfl
  · intro h
    cases hs : sortedSet l with
    | nil => exact absurd hs (sortedSet_ne_nil hne)
    | cons y ys =>
        cases ys with
        | nil => rfl
        | cons z zs =>
            rw [hs] at hnodup h
            have hz : z ∈ l := mem_sortedSet.mp (by rw [hs]; simp)
            have hzy : z = y := h z hz
            exact absurd (by simp [hzy]) (List.nodup_cons.mp hnodup).1

/-- **When there are no findings**: one divisor throughout, the matrix is `1..n`, the commands begin
with a variable, and the gates assert the divisor. -/
theorem checkShards_clean_iff [UnicodeDB] (f : Found) : checkShards f = .ok [] ↔
    ∃ n, f.matrix = some (List.range' 1 n) ∧ f.runs ≠ [] ∧ f.gates ≠ [] ∧
      (∀ r ∈ f.runs, r.2 = n ∧ "$\x7b\x7b".toList.isPrefixOf r.1 = true) ∧ ∀ g ∈ f.gates, g = n := by
  unfold checkShards
  cases hm : f.matrix with
  | none => simp
  | some matrix =>
      by_cases hruns : f.runs = []
      · simp [hruns]
      by_cases hgates : f.gates = []
      · simp [hruns, hgates]
      have hne : f.runs.map Prod.snd ≠ [] := by simpa using hruns
      have hone := sortedSet_length hne
      simp only [if_neg hruns, if_neg hgates, Except.ok.injEq, List.append_eq_nil_iff,
        List.map_eq_nil_iff, List.filter_eq_nil_iff, ite_eq_right_iff, List.cons_ne_nil, imp_false,
        Decidable.not_not]
      have hfirst := headD_sortedSet_mem hne
      generalize (sortedSet (f.runs.map Prod.snd)).headD 0 = d at hone hfirst
      rw [hone]
      constructor
      · rintro ⟨⟨⟨hdiv, hmatrix⟩, hvar⟩, hgate⟩
        refine ⟨d, congrArg some hmatrix, hruns, hgates, fun r hr => ⟨?_, ?_⟩, fun g hg => ?_⟩
        · exact hdiv _ (List.mem_map_of_mem hr)
        · simpa using hvar r hr
        · simpa using hgate g hg
      · rintro ⟨n, hmatrix, -, -, hrun, hgate⟩
        obtain ⟨r, hr, rfl⟩ := List.mem_map.mp hfirst
        rw [(hrun r hr).1]
        refine ⟨⟨⟨fun x hx => ?_, Option.some.inj hmatrix⟩, fun r hr => ?_⟩, fun g hg => ?_⟩
        · obtain ⟨r', hr', rfl⟩ := List.mem_map.mp hx
          exact (hrun r' hr').1
        · simpa using (hrun r hr).2
        · simpa using hgate g hg

/-- **A workflow without findings covers the arms.** Where its shards run the command with the
matrix variable, and its matrix is not empty, they are green exactly if every arm passes, whatever
the arms and whatever driving them finds; and its partition gates are clean. -/
theorem checkShards_covers [UnicodeDB] (f : Found) (matrix : List Nat) (n : Nat)
    (hclean : checkShards f = .ok []) (hmatrix : f.matrix = some matrix) (hne : matrix ≠ [])
    (hrun : (matrixVariable, n) ∈ f.runs) :
    (∀ (Arm : Type) (driveWrong : Arm → Bool) (arms : List Arm),
      Green driveWrong arms matrix n ↔ ∀ a ∈ arms, driveWrong a = true) ∧
    ∀ g ∈ f.gates, ∀ total, (selftestShards total (toString g)).2 = 0 := by
  obtain ⟨m, hm, -, -, hruns, hgates⟩ := (checkShards_clean_iff f).mp hclean
  obtain rfl : matrix = List.range' 1 m := Option.some.inj (hmatrix.symm.trans hm)
  obtain rfl : n = m := (hruns _ hrun).1
  have hn : 0 < n := by
    refine Nat.pos_of_ne_zero ?_
    rintro rfl
    exact hne rfl
  refine ⟨fun Arm driveWrong arms => green_iff hn fun k => ?_, fun g hg total => ?_⟩
  · rw [List.mem_range'_1]
    omega
  · rw [hgates g hg]
    exact partitionGate_clean hn total

/-- What the expressions find in the workflow of this repository. -/
def ciFound : Found where
  matrix := some [1, 2, 3, 4, 5, 6, 7, 8, 9, 10, 11, 12, 13, 14, 15, 16, 17, 18, 19, 20]
  runs := [(matrixVariable, 20)]
  gates := [20]

/-- This repository's workflow has no findings, so its twenty shards cover the arms. -/
theorem checkShards_covers_ci :
    (∀ (Arm : Type) (driveWrong : Arm → Bool) (arms : List Arm),
      Green driveWrong arms (List.range' 1 20) 20 ↔ ∀ a ∈ arms, driveWrong a = true) ∧
    ∀ g ∈ ciFound.gates, ∀ total, (selftestShards total (toString g)).2 = 0 :=
  @checkShards_covers UnicodeDB.ascii ciFound (List.range' 1 20) 20 (by decide +kernel) (by decide)
    (by decide) (List.mem_singleton.mpr rfl)

end X86Scripts.Skip
