import X86Scripts.SelftestSkip.Coverage
import X86Scripts.SelftestSkip.Gate

/-!
# The fast path

`scripts/fast_path.py`: may a pull request be merged on its required checks, without waiting for the
selftest matrix? It reads the digest and the green run of `scripts/selftest_skip.py`.

* `ciVerdict`, `fastDecide`, `fastCheck`: the rule, with the texts of its refusals.
* **`fastDecide_go_iff`**: when the rule lets a pull request through.
* **`fastPath_then_skip`**: the run of the gate on the merged tree then skips the matrix too, on the
  same green run.
* `classify`, **`classify_spec`**: what the census says of a merge.
-/

namespace X86Scripts.Skip

open X86Scripts.Digits
open X86Scripts.Outcome
open X86Scripts.Py

/-! ## The rule -/

/-- Source: `scripts/fast_path.py`, `CI_WORKFLOW` -/
def CI_WORKFLOW : Str := "CI".toList

/-- Source: `scripts/fast_path.py`, `CI_NEED_JOBS` -/
def CI_NEED_JOBS : List Str := ["build".toList]

/-- Source: `scripts/fast_path.py`, `CI_BAD` -/
def CI_BAD : List Str := ["failure".toList, "cancelled".toList, "timed_out".toList]

/-- A job of a run, with its status and its conclusion, which is empty while it runs. -/
structure CiJob where
  name : Str
  status : Str
  conclusion : Str

/-- The latest run of an event at the head of a pull request. -/
structure CiEvent where
  event : Str
  run : Nat
  jobs : List CiJob

/-- The job is complete and succeeded. -/
def CiJob.succeeded (j : CiJob) : Bool :=
  j.status == "completed".toList && j.conclusion == "success".toList

/-- What is wrong with a job. -/
def CiJob.finding (j : CiJob) : Option Str :=
  if CI_BAD.contains j.conclusion then
    some ("job `".toList ++ j.name ++ "` is ".toList ++ j.conclusion)
  else if CI_NEED_JOBS.contains j.name && !j.succeeded then
    some ("needed job `".toList ++ j.name ++ "` is ".toList ++ j.status ++ "/".toList ++
      (if j.conclusion = [] then "-".toList else j.conclusion) ++ ", not completed/success".toList)
  else none

/-- `bad`, of the run of one event. -/
def CiEvent.bad (e : CiEvent) : List Str :=
  e.jobs.filterMap CiJob.finding ++
    (CI_NEED_JOBS.filter fun n => !(e.jobs.map CiJob.name).contains n).map fun n =>
      "needed job `".toList ++ n ++ "` is not in the run".toList

/-- The lines about the run of one event. -/
def CiEvent.lines (e : CiEvent) : List Str :=
  let head := CI_WORKFLOW ++ " event=".toList ++ e.event ++ " run=".toList ++ dec e.run ++ ": ".toList
  if e.bad = [] then
    [head ++ "no failed job; ".toList ++ "/".toList.intercalate CI_NEED_JOBS ++
      " completed/success; ".toList ++
      dec (e.jobs.countP fun j => j.status != "completed".toList) ++ " job(s) still running".toList]
  else e.bad.map (head ++ ·)

/-- The runs at the head of the pull request. Source: `scripts/fast_path.py`, `ci_verdict` -/
def ciVerdict : Option (List CiEvent) → Bool × List Str
  | none => (false, ["the PR head's ".toList ++ CI_WORKFLOW ++ (" runs could not be read (a forge error " ++
      "or a fault in read_ci; its stderr line names which)").toList])
  | some ci =>
    if ci = [] then (false, ["no ".toList ++ CI_WORKFLOW ++ " run exists at the PR head".toList])
    else (ci.all fun e => e.bad.isEmpty, ci.flatMap CiEvent.lines)

/-- The text of a list of texts. -/
def textsText [UnicodeDB] (l : List Str) : Str := '[' :: ", ".toList.intercalate (l.map pyRepr) ++ [']']

/-- What is wrong with a required check, by the conclusions it has reported. -/
def requiredFinding [UnicodeDB] (checks : Str → List Str) (name : Str) : Option Str :=
  if checks name = [] then some ("required check `".toList ++ name ++ "` has not reported".toList)
  else if (checks name).any fun c => c != "success".toList then
    some ("required check `".toList ++ name ++ "` is ".toList ++
      textsText ((checks name).dedup.insertionSort (· ≤ ·)) ++ ", not all success".toList)
  else none

/-- A digest that is there and not empty, as a condition. -/
def truthy (d : Option Str) : Bool := d.getD [] != []

/-- **The rule.** Source: `scripts/fast_path.py`, `decide` -/
def fastDecide [UnicodeDB] (prDigest : Option Str) (green : Option (Str × Nat)) (greenDigest : Option Str)
    (required : List Str) (checks : Str → List Str) (ci : Option (List CiEvent)) : Bool × List Str :=
  let why :=
    (if prDigest = none then ["the merge ref's digest could not be computed".toList] else []) ++
    (if green = none then ["no master run whose every selftest shard ran and succeeded".toList] else []) ++
    (if green ≠ none ∧ greenDigest = none then ["the green run's sha is not in this clone".toList] else []) ++
    (if truthy prDigest ∧ truthy greenDigest ∧ prDigest ≠ greenDigest then
      ["digest differs: merge ref ".toList ++ orNone prDigest ++ " vs green master ".toList ++
        orNone greenDigest ++ " (a selftest input changed; the matrix must run)".toList] else []) ++
    (if required = [] then ["branch protection lists no required checks (read failed or empty)".toList]
      else []) ++
    required.filterMap (requiredFinding checks) ++
    (if (ciVerdict ci).1 then [] else (ciVerdict ci).2)
  (why.isEmpty, why)

/-- The digest at a ref, if it can be computed. -/
def World.digest? (w : World) (ref : Str) : Option Str :=
  match (do digest w.sha256 (← w.lsTree ref) : Except Str (Str × Nat)) with
  | .ok x => some x.1
  | .error _ => none

/-- The digest of the green run's commit, if there is one and it is in the clone. -/
def World.greenDigest (w : World) : Option (Str × Nat) → Except Str (Option Str)
  | none => .ok none
  | some g =>
    if w.haveCommit g.1 then
      (fun x => some x.1) <$> (do digest w.sha256 (← w.lsTree g.1) : Except Str (Str × Nat))
    else .ok none

/-- What `--check` decides from git and the forge: no commit is excluded from the lookup. The branch
protection, the checks and the runs of the head are given. Source: `scripts/fast_path.py`, `check` -/
def fastCheck [UnicodeDB] (w : World) (mergeRef : Str) (required : List Str) (checks : Str → List Str)
    (ci : Option (List CiEvent)) : Except Str (Bool × List Str) :=
  let green := lastGreenSelftest w "master".toList []
  (fun greenDigest => fastDecide (w.digest? mergeRef) green greenDigest required checks ci) <$>
    w.greenDigest green

/-! ## When it lets a pull request through -/

/-- Nothing is wrong with the run of an event: no job has ended badly, and each needed job is there
and succeeded. -/
def CiEvent.Clean (e : CiEvent) : Prop :=
  (∀ j ∈ e.jobs, j.conclusion ∉ CI_BAD ∧ (j.name ∈ CI_NEED_JOBS → j.succeeded = true)) ∧
    ∀ n ∈ CI_NEED_JOBS, ∃ j ∈ e.jobs, j.name = n

theorem CiJob.finding_eq_none_iff (j : CiJob) : j.finding = none ↔
    j.conclusion ∉ CI_BAD ∧ (j.name ∈ CI_NEED_JOBS → j.succeeded = true) := by
  unfold CiJob.finding
  by_cases hbad : j.conclusion ∈ CI_BAD
  · simp [hbad]
  · cases hs : j.succeeded <;> simp [hbad]

theorem CiEvent.bad_eq_nil_iff (e : CiEvent) : e.bad = [] ↔ e.Clean := by
  unfold CiEvent.bad CiEvent.Clean
  rw [List.append_eq_nil_iff, List.filterMap_eq_nil_iff, List.map_eq_nil_iff, List.filter_eq_nil_iff]
  refine and_congr (forall₂_congr fun j _ => CiJob.finding_eq_none_iff j) ?_
  refine forall₂_congr fun n _ => ?_
  simp

theorem CiEvent.lines_ne_nil (e : CiEvent) : e.lines ≠ [] := by
  unfold CiEvent.lines
  by_cases h : e.bad = []
  · simp [h]
  · simp [h]

/-- The verdict on the runs, and that a refusal has a text. -/
theorem ciVerdict_iff (ci : Option (List CiEvent)) :
    ((ciVerdict ci).1 = true ↔ ∃ es, ci = some es ∧ es ≠ [] ∧ ∀ e ∈ es, e.Clean) ∧
      (ciVerdict ci).2 ≠ [] := by
  cases ci with
  | none => simp [ciVerdict]
  | some es =>
      cases es with
      | nil => simp [ciVerdict]
      | cons e es =>
          have hverdict : ciVerdict (some (e :: es)) =
              ((e :: es).all fun e => e.bad.isEmpty, (e :: es).flatMap CiEvent.lines) :=
            by simp only [ciVerdict, if_neg (List.cons_ne_nil e es)]
          rw [hverdict]
          constructor
          · rw [List.all_eq_true]
            simp only [List.isEmpty_iff, CiEvent.bad_eq_nil_iff]
            constructor
            · exact fun h => ⟨e :: es, rfl, List.cons_ne_nil e es, h⟩
            · rintro ⟨es', hes, -, h⟩
              obtain rfl := Option.some.inj hes
              exact h
          · rw [List.flatMap_cons]
            exact List.append_ne_nil_of_left_ne_nil e.lines_ne_nil _

theorem requiredFinding_eq_none_iff [UnicodeDB] (checks : Str → List Str) (name : Str) :
    requiredFinding checks name = none ↔
      checks name ≠ [] ∧ ∀ c ∈ checks name, c = "success".toList := by
  unfold requiredFinding
  by_cases hnone : checks name = []
  · simp [hnone]
  · rw [if_neg hnone]
    by_cases hany : (checks name).any (fun c => c != "success".toList) = true
    · rw [if_pos hany]
      obtain ⟨c, hc, hne⟩ := List.any_eq_true.mp hany
      refine iff_of_false (by simp) fun h => ?_
      exact bne_iff_ne.mp hne (h.2 c hc)
    · rw [if_neg hany]
      refine iff_of_true rfl ⟨hnone, fun c hc => ?_⟩
      by_contra hne
      exact hany (List.any_eq_true.mpr ⟨c, hc, bne_iff_ne.mpr hne⟩)

/-- **When the rule lets a pull request through**: both digests are there and one, unless one of them
is empty, the branch protection lists checks and each has reported success only, and the head has
runs, about which there is nothing wrong. -/
theorem fastDecide_go_iff [UnicodeDB] (prDigest : Option Str) (green : Option (Str × Nat))
    (greenDigest : Option Str) (required : List Str) (checks : Str → List Str)
    (ci : Option (List CiEvent)) :
    (fastDecide prDigest green greenDigest required checks ci).1 = true ↔
      (∃ d d', prDigest = some d ∧ greenDigest = some d' ∧ green ≠ none ∧ (d = d' ∨ d = [] ∨ d' = [])) ∧
      required ≠ [] ∧ (∀ n ∈ required, checks n ≠ [] ∧ ∀ c ∈ checks n, c = "success".toList) ∧
      ∃ es, ci = some es ∧ es ≠ [] ∧ ∀ e ∈ es, e.Clean := by
  obtain ⟨hci, htext⟩ := ciVerdict_iff ci
  have hverdict : (if (ciVerdict ci).1 then [] else (ciVerdict ci).2) = [] ↔
      (ciVerdict ci).1 = true := by
    cases (ciVerdict ci).1 <;> simp [htext]
  have hdigests : (((¬prDigest = none ∧ ¬green = none) ∧ ¬(green ≠ none ∧ greenDigest = none)) ∧
      ¬(truthy prDigest = true ∧ truthy greenDigest = true ∧ prDigest ≠ greenDigest)) ↔
      ∃ d d', prDigest = some d ∧ greenDigest = some d' ∧ green ≠ none ∧
        (d = d' ∨ d = [] ∨ d' = []) := by
    cases prDigest with
    | none => simp
    | some d =>
        cases greenDigest with
        | none => by_cases hgreen : green = none <;> simp [hgreen]
        | some d' =>
            have htruthy : ∀ x : Str, truthy (some x) = true ↔ x ≠ [] := fun x => bne_iff_ne
            by_cases hgreen : green = none
            · simp [hgreen]
            · simp only [htruthy, hgreen, Option.some.injEq, reduceCtorEq, not_false_eq_true, and_false,
                not_and, ne_eq, true_and, exists_and_left, exists_eq_left']
              tauto
  unfold fastDecide
  simp only [List.isEmpty_iff, List.append_eq_nil_iff, hverdict, hci, List.filterMap_eq_nil_iff,
    requiredFinding_eq_none_iff, ite_eq_right_iff, List.cons_ne_nil, imp_false]
  rw [hdigests, and_assoc, and_assoc]

/-! ## The run on master after the merge -/

/-- **What the gate of the run on master sees after a fast merge**: the tree that was checked, the
runs that were listed with their jobs, and before them newer ones that are not green; the commits of
the runs are in this clone as well. -/
structure MergedAs (w w' : World) (mergeRef rev : Str) (newer runs : List Run) : Prop where
  sha256 : w'.sha256 = w.sha256
  head : w'.revParse "HEAD".toList = .ok rev
  tree : w'.lsTree "HEAD".toList = w.lsTree mergeRef
  listed : w.runs "master".toList = some runs
  listed' : w'.runs "master".toList = some (newer ++ runs)
  newer : ∀ r ∈ newer, ¬w'.Green (strip rev) r
  jobs : ∀ r ∈ runs, w'.jobs r.databaseId = w.jobs r.databaseId
  commit : ∀ r ∈ runs, r.headSha ≠ strip rev ∧ r.headSha ≠ []
  cloned : ∀ r ∈ runs, w.haveCommit r.headSha = true →
    w'.haveCommit r.headSha = true ∧ w'.lsTree r.headSha = w.lsTree r.headSha

/-- The runs that were listed are green for the gate of master if they were before. -/
theorem MergedAs.green_iff {w w' : World} {mergeRef rev : Str} {newer runs : List Run}
    (h : MergedAs w w' mergeRef rev newer runs) {r : Run} (hr : r ∈ runs) :
    w'.Green (strip rev) r ↔ w.Green [] r := by
  unfold World.Green
  rw [h.jobs r hr]
  exact and_congr_right fun _ => and_congr_left fun _ => iff_of_true (h.commit r hr).1 (h.commit r hr).2

/-- The gate of master finds the green run that was found before the merge. -/
theorem MergedAs.lastGreen {w w' : World} {mergeRef rev g : Str} {newer runs : List Run} {i : Nat}
    (h : MergedAs w w' mergeRef rev newer runs)
    (hgreen : lastGreenSelftest w "master".toList [] = some (g, i)) :
    lastGreenSelftest w' "master".toList (strip rev) = some (g, i) := by
  obtain ⟨before, r, older, hruns, hbefore, hr, hg, hi⟩ := lastGreenSelftest_eq_some_iff.mp hgreen
  obtain rfl : runs = before ++ r :: older := Option.some.inj (h.listed.symm.trans hruns)
  refine lastGreenSelftest_eq_some_iff.mpr ⟨newer ++ before, r, older, ?_, fun r' hr' => ?_, ?_, hg, hi⟩
  · rw [h.listed', List.append_assoc]
  · rcases List.mem_append.mp hr' with hr' | hr'
    · exact h.newer r' hr'
    · rw [h.green_iff (List.mem_append_left _ hr')]
      exact hbefore r' hr'
  · exact (h.green_iff (by simp)).mpr hr

theorem digest_ne_nil {sha256 : ByteArray → Str} (hsha : ∀ b, sha256 b ≠ []) {listing d : Str} {n : Nat}
    (h : digest sha256 listing = .ok (d, n)) : d ≠ [] := by
  obtain ⟨entries, -, h⟩ := bind_eq_ok.mp h
  rw [← (Prod.mk.inj (Except.ok.inj h)).1]
  intro hnil
  rcases List.take_eq_nil_iff.mp hnil with h16 | hempty
  · cases h16
  · exact hsha _ hempty

theorem digest?_eq_some {w : World} {ref d : Str} (h : w.digest? ref = some d) :
    ∃ listing n, w.lsTree ref = .ok listing ∧ digest w.sha256 listing = .ok (d, n) := by
  unfold World.digest? at h
  split at h
  · rename_i x hx
    obtain ⟨listing, hlisting, hd⟩ := bind_eq_ok.mp hx
    obtain rfl := Option.some.inj h
    exact ⟨listing, x.2, hlisting, hd⟩
  · cases h

theorem greenDigest_eq_some {w : World} {g d : Str} {i : Nat}
    (h : w.greenDigest (some (g, i)) = .ok (some d)) : w.haveCommit g = true ∧
      ∃ listing n, w.lsTree g = .ok listing ∧ digest w.sha256 listing = .ok (d, n) := by
  simp only [World.greenDigest] at h
  by_cases hhave : w.haveCommit g = true
  · rw [if_pos hhave] at h
    obtain ⟨x, hx, hd⟩ := map_eq_ok.mp h
    obtain ⟨listing, hlisting, hx⟩ := bind_eq_ok.mp hx
    obtain rfl := Option.some.inj hd
    exact ⟨hhave, listing, x.2, hlisting, hx⟩
  · rw [if_neg hhave] at h
    cases h

/-- **After a fast merge the matrix does not run on master either.** Where the rule let a pull
request through, the gate of the run on master skips: it finds the same green run, with the digest of
the tree that was merged. -/
theorem fastPath_then_skip [UnicodeDB] (w w' : World) (mergeRef rev : Str) (newer runs : List Run)
    (required : List Str) (checks : Str → List Str) (ci : Option (List CiEvent)) (why : List Str)
    (hsha : ∀ b, w.sha256 b ≠ []) (hmerged : MergedAs w w' mergeRef rev newer runs)
    (hgo : fastCheck w mergeRef required checks ci = .ok (true, why)) :
    ∃ d g n i, w.digest? mergeRef = some d ∧
      lastGreenSelftest w "master".toList [] = some (g, i) ∧
      w'.decide "HEAD".toList "master".toList =
        ⟨true, some d, some g, n, "byte-identical to green run ".toList ++ dec i, some i⟩ := by
  obtain ⟨greenDigest, hgreenDigest, hrule⟩ := map_eq_ok.mp hgo
  obtain ⟨⟨d, d', hd, rfl, hgreen, hsame⟩, -⟩ :=
    (fastDecide_go_iff _ _ _ _ _ _).mp (congrArg Prod.fst hrule)
  obtain ⟨⟨g, i⟩, hfound⟩ := Option.ne_none_iff_exists'.mp hgreen
  rw [hfound] at hgreenDigest
  obtain ⟨listing, n, hlisting, hdigest⟩ := digest?_eq_some hd
  obtain ⟨hhave, glisting, m, hglisting, hgdigest⟩ := greenDigest_eq_some hgreenDigest
  obtain rfl : d = d' := by
    rcases hsame with hsame | hempty | hempty
    · exact hsame
    · exact absurd hempty (digest_ne_nil hsha hdigest)
    · exact absurd hempty (digest_ne_nil hsha hgdigest)
  -- the commit of the green run is that of a run that is listed
  obtain ⟨before, r, older, hruns, -, -, rfl, -⟩ := lastGreenSelftest_eq_some_iff.mp hfound
  have hr : r ∈ runs := by
    rw [Option.some.inj (hmerged.listed.symm.trans hruns)]
    simp
  obtain ⟨hhave', hglisting'⟩ := hmerged.cloned r hr hhave
  rw [← hmerged.sha256] at hdigest hgdigest
  exact ⟨d, r.headSha, n, i, hd, hfound,
    decide_of_match (by decide) hmerged.head (hmerged.tree.trans hlisting) hdigest
      (hmerged.lastGreen hfound) hhave' (hglisting'.trans hglisting) hgdigest⟩

/-- The ref of a pull request's merge. -/
def docRef : Str := "refs/fast-path/pr-1".toList

/-- Master after that merge. -/
def mergedWorld : World := { docWorld with lsTree := fun _ => docWorld.lsTree docRef }

/-- A pull request with one required check and a build that succeeded, and master after its merge. -/
theorem fastPath_then_skip_doc : ∃ d g n i, docWorld.digest? docRef = some d ∧
    lastGreenSelftest docWorld "master".toList [] = some (g, i) ∧
    mergedWorld.decide "HEAD".toList "master".toList =
      ⟨true, some d, some g, n, "byte-identical to green run ".toList ++ dec i, some i⟩ := by
  have hmerged : MergedAs docWorld mergedWorld docRef
      "1111111111111111111111111111111111111111\n".toList []
      [⟨7, "2222222222222222222222222222222222222222".toList, "completed".toList⟩] :=
    { sha256 := rfl
      head := rfl
      tree := rfl
      listed := rfl
      listed' := rfl
      newer := by simp
      jobs := fun _ _ => rfl
      commit := by
        intro r hr
        rw [List.mem_singleton.mp hr]
        decide +kernel
      cloned := by
        intro r hr _
        rw [List.mem_singleton.mp hr]
        exact ⟨rfl, by decide +kernel⟩ }
  have hsha : ∀ b, docWorld.sha256 b ≠ [] := fun b => by
    have hconst : docWorld.sha256 b =
        "b2a5a6c7c25e457c76c0353b99876f2fea37ee95e4855e9fb2b61f141ac41c02".toList := rfl
    rw [hconst]
    decide
  exact @fastPath_then_skip UnicodeDB.ascii docWorld mergedWorld docRef _ _ _ ["trailers".toList]
    (fun _ => ["success".toList])
    (some [⟨"pull_request".toList, 1, [⟨"build".toList, "completed".toList, "success".toList⟩]⟩]) []
    hsha hmerged (by decide +kernel)

/-! ## The census of merges -/

/-- The shards of a run all succeeded: it has some, and each has. -/
def Complete (r : List (Str × Str)) : Prop := r ≠ [] ∧ ∀ x ∈ r, x.1 = "success".toList

/-- When the last shard of a run was completed. -/
def lastShard (r : List (Str × Str)) : Str := (r.map Prod.snd).foldr max []

/-- Was the matrix complete at the merged head when a pull request was merged? The runs are those of
that head, each with the conclusion of every shard and the time of its completion, as text.
Source: `scripts/fast_path.py`, `classify` -/
def classify (mergedAt : Str) (runs : List (List (Str × Str))) : Str :=
  let done := (runs.filter fun r => !r.isEmpty && r.all fun x => x.1 == "success".toList).map lastShard
  match done with
  | [] => "NEVER".toList
  | t :: ts => if ts.foldr min t ≤ mergedAt then "BEFORE".toList else "AFTER".toList

theorem lastShard_le_iff {r : List (Str × Str)} {t : Str} : lastShard r ≤ t ↔ ∀ x ∈ r, x.2 ≤ t := by
  unfold lastShard
  induction r with
  | nil => exact iff_of_true (le_of_not_gt fun h => nomatch h) (by simp)
  | cons x r ih => rw [List.map_cons, List.foldr_cons, max_le_iff, ih, List.forall_mem_cons]

theorem foldr_min_le_iff {t u : Str} {ts : List Str} :
    ts.foldr min t ≤ u ↔ ∃ x ∈ t :: ts, x ≤ u := by
  induction ts with
  | nil => simp
  | cons y ts ih =>
      rw [List.foldr_cons, min_le_iff, ih]
      simp only [List.mem_cons, exists_eq_or_imp]
      tauto

theorem mem_done {runs : List (List (Str × Str))} {t : Str} :
    t ∈ (runs.filter fun r => !r.isEmpty && r.all fun x => x.1 == "success".toList).map lastShard ↔
      ∃ r ∈ runs, Complete r ∧ lastShard r = t := by
  simp [Complete, and_assoc]

/-- **What the census says of a merge.** `BEFORE`: some run had every shard green by then, whatever
other runs there are; `AFTER`: there is such a run, but each has a shard that was completed later;
`NEVER`: there is none. -/
theorem classify_spec (mergedAt : Str) (runs : List (List (Str × Str))) :
    (classify mergedAt runs = "BEFORE".toList ↔
      ∃ r ∈ runs, Complete r ∧ ∀ x ∈ r, x.2 ≤ mergedAt) ∧
    (classify mergedAt runs = "AFTER".toList ↔ (∃ r ∈ runs, Complete r) ∧
      ∀ r ∈ runs, Complete r → ∃ x ∈ r, mergedAt < x.2) ∧
    (classify mergedAt runs = "NEVER".toList ↔ ∀ r ∈ runs, ¬Complete r) := by
  have hdone := @mem_done runs
  unfold classify
  generalize (runs.filter fun r => !r.isEmpty && r.all fun x => x.1 == "success".toList).map
    lastShard = done at hdone
  cases done with
  | nil =>
      have hnone : ∀ r ∈ runs, ¬Complete r := fun r hr hc =>
        List.not_mem_nil (hdone.mpr ⟨r, hr, hc, rfl⟩)
      dsimp only
      refine ⟨iff_of_false (by decide) ?_, iff_of_false (by decide) ?_, iff_of_true rfl hnone⟩
      · rintro ⟨r, hr, hc, -⟩
        exact hnone r hr hc
      · rintro ⟨⟨r, hr, hc⟩, -⟩
        exact hnone r hr hc
  | cons t ts =>
      obtain ⟨r₀, hr₀, hc₀, -⟩ := hdone.mp (List.mem_cons_self (a := t) (l := ts))
      by_cases hle : ts.foldr min t ≤ mergedAt
      · obtain ⟨x, hx, hxle⟩ := foldr_min_le_iff.mp hle
        obtain ⟨r, hr, hc, rfl⟩ := hdone.mp hx
        have hall := lastShard_le_iff.mp hxle
        simp only [if_pos hle]
        refine ⟨iff_of_true trivial ⟨r, hr, hc, hall⟩, iff_of_false (by decide) ?_,
          iff_of_false (by decide) fun h => h r hr hc⟩
        rintro ⟨-, hafter⟩
        obtain ⟨y, hy, hlt⟩ := hafter r hr hc
        exact absurd (hall y hy) (not_le_of_gt hlt)
      · have hlater : ∀ r ∈ runs, Complete r → ∃ x ∈ r, mergedAt < x.2 := by
          intro r hr hc
          by_contra hno
          refine hle (foldr_min_le_iff.mpr ⟨lastShard r, hdone.mpr ⟨r, hr, hc, rfl⟩, ?_⟩)
          exact lastShard_le_iff.mpr fun x hx => le_of_not_gt fun hlt => hno ⟨x, hx, hlt⟩
        simp only [if_neg hle]
        refine ⟨iff_of_false (by decide) ?_, iff_of_true trivial ⟨⟨r₀, hr₀, hc₀⟩, hlater⟩,
          iff_of_false (by decide) fun h => h r₀ hr₀ hc₀⟩
        rintro ⟨r, hr, hc, hall⟩
        obtain ⟨x, hx, hlt⟩ := hlater r hr hc
        exact absurd (hall x hx) (not_le_of_gt hlt)

end X86Scripts.Skip
