import X86Scripts.Lib.Frame
import X86Scripts.Lib.Outcome
import X86Scripts.SelftestSkip.Digest

/-!
# The gate job

What `scripts/selftest_skip.py --decide` does around the decision: the branch whose runs it looks
up, and what it prints and hands to the job that follows.

* `lookupBranch`, `out`, `decideCommand`: the branch, the record of a verdict, the command.
* `stepOutput`: how the workflow reads an output of the step.
* **`lastGreenSelftest_eq_some_iff`**: the run a skip inherits from is the first that qualifies.
* **`decide_skip_green`**: what a skip rests on.
* **`stepOutput_skip`**: the job that follows reads `skip` as the verdict has it.
-/

namespace X86Scripts.Skip

open X86Scripts.Digits
open X86Scripts.Frame
open X86Scripts.Outcome
open X86Scripts.Py

/-! ## The command -/

/-- The branch whose green runs a decision may inherit from; an empty one stands for `None`.
Source: `scripts/selftest_skip.py`, `lookup_branch` -/
def lookupBranch (event : Str) (refName baseRef : Str) : Str :=
  if event = "pull_request".toList then baseRef else refName

deriving instance DecidableEq for Verdict

/-- `run or ''`: also a run number 0 is left out. -/
def runText : Option Nat → Str
  | none => []
  | some 0 => []
  | some run => dec run

/-- `f"{x}"` of a value that may be `None`. -/
def orNone (x : Option Str) : Str := x.getD "None".toList

/-- What a verdict leaves behind: the lines that are printed, the lines appended to the output file
of the step, and the text appended to the summary of the run. -/
structure Record where
  stdout : List Str
  output : List Str
  summary : Str
  deriving DecidableEq, Repr

/-- Source: `scripts/selftest_skip.py`, `_out` -/
def out (v : Verdict) : Record where
  stdout :=
    ("selftest-skip: ".toList ++ (if v.skip then "SKIP".toList else "MEASURE".toList) ++
        " -- ".toList ++ v.reason) ::
      if v.skip then
        ["selftest-skip: RECORD digest=".toList ++ orNone v.digest ++ " inherits=".toList ++
          orNone v.inherits ++ " run=".toList ++ orNone (v.run.map dec) ++ " paths=".toList ++ dec v.n]
      else []
  output :=
    ["skip=".toList ++ (if v.skip then "true".toList else "false".toList),
     "digest=".toList ++ v.digest.getD [],
     "inherits=".toList ++ v.inherits.getD [],
     "inherits_run=".toList ++ runText v.run]
  summary :=
    if v.skip then
      "### selftest: SKIPPED (green-by-skip, not green-by-run)\n\n".toList ++
        "- consumed-set digest: `".toList ++ orNone v.digest ++ "` over ".toList ++ dec v.n ++
        " path(s)\n".toList ++
        "- inherits green from: `".toList ++ orNone v.inherits ++ "` (run ".toList ++
        orNone (v.run.map dec) ++ ")\n".toList ++
        "- reason: ".toList ++ v.reason ++ "\n".toList
    else
      "### selftest: MEASURED\n\n- digest `".toList ++ orNone v.digest ++ "` over ".toList ++ dec v.n ++
        " path(s)\n".toList ++ "- reason: ".toList ++ v.reason ++ "\n".toList

/-- The arguments of the command. -/
structure Args where
  event : Option Str
  refName : Option Str
  baseRef : Str := []
  branch : Str := "master".toList

/-- The branch the command looks up. -/
def Args.lookup (a : Args) : Str :=
  if a.event.getD [] = [] then a.branch
  else lookupBranch (a.event.getD []) (a.refName.getD []) a.baseRef

/-- `x or '-'`. -/
def orDash (x : Str) : Str := if x = [] then "-".toList else x

/-- `selftest_skip.py --decide`. Source: `scripts/selftest_skip.py`, `main`, `decide` -/
def decideCommand (w : World) (a : Args) : Verdict × Record :=
  let branch := a.lookup
  let v := w.decide "HEAD".toList branch
  let asked := "selftest-skip: event=".toList ++ orDash (a.event.getD []) ++ " ref_name=".toList ++
    orDash (a.refName.getD []) ++ " base_ref=".toList ++ orDash a.baseRef ++
    " ⇒ inherits from branch ".toList ++ (if branch = [] then "NONE".toList else branch)
  let consumed := match v.digest, w.revParse "HEAD".toList with
    | some d, .ok head => ["selftest-skip: consumed set = ".toList ++ dec v.n ++
        " path(s); digest ".toList ++ d ++ " at ".toList ++ (strip head).take 8]
    | _, _ => []
  (v, { out v with stdout := asked :: consumed ++ (out v).stdout })

/-! ## The output of the step -/

/-- An output of a step: the value on the last line of its file that sets it, if any does. -/
def stepOutput (text : Str) (name : Str) : Str :=
  (((text.splitOn '\n').filterMap fun line =>
    if (name ++ ['=']).isPrefixOf line then some (line.drop (name.length + 1)) else none).getLast?).getD []

/-- The file of the step, after the command. -/
def outputFile (v : Verdict) : Str := frame '\n' (out v).output

/-- The lines of the output file hold no line break. -/
theorem out_noNewline {v : Verdict} (hdigest : ∀ d ∈ v.digest, '\n' ∉ d)
    (hinherits : ∀ g ∈ v.inherits, '\n' ∉ g) : ∀ l ∈ (out v).output, '\n' ∉ l := by
  have hgetD : ∀ x : Option Str, (∀ t ∈ x, '\n' ∉ t) → '\n' ∉ x.getD [] := by
    intro x hx
    cases x with
    | none => exact List.not_mem_nil
    | some t => exact hx t rfl
  have hrun : '\n' ∉ runText v.run := by
    unfold runText
    split
    · exact List.not_mem_nil
    · exact List.not_mem_nil
    · exact fun h => absurd (isHex_range (isHex_of_mem_dec h)).1 (by decide)
  intro l hl
  simp only [out, List.mem_cons, List.not_mem_nil, or_false] at hl
  rcases hl with rfl | rfl | rfl | rfl
  · cases v.skip <;> decide
  · simpa using hgetD _ hdigest
  · simpa using hgetD _ hinherits
  · simpa using hrun

/-- **The output `skip` is the verdict's.** The values behind it do not disturb it. -/
theorem stepOutput_skip {v : Verdict} (hdigest : ∀ d ∈ v.digest, '\n' ∉ d)
    (hinherits : ∀ g ∈ v.inherits, '\n' ∉ g) :
    stepOutput (outputFile v) "skip".toList = if v.skip then "true".toList else "false".toList := by
  unfold stepOutput outputFile
  rw [splitOn_lines (out_noNewline hdigest hinherits)]
  have hother : ∀ x : Str, ("skip".toList ++ ['=']).isPrefixOf ("digest=".toList ++ x) = false ∧
      ("skip".toList ++ ['=']).isPrefixOf ("inherits=".toList ++ x) = false ∧
      ("skip".toList ++ ['=']).isPrefixOf ("inherits_run=".toList ++ x) = false :=
    fun x => ⟨rfl, rfl, rfl⟩
  have hlast : ("skip".toList ++ ['=']).isPrefixOf ([] : Str) = false := rfl
  have hset : ∀ x : Str, ("skip".toList ++ ['=']).isPrefixOf ("skip=".toList ++ x) = true ∧
      ("skip=".toList ++ x).drop ("skip".toList.length + 1) = x := fun x => ⟨rfl, rfl⟩
  simp only [out, List.cons_append, List.nil_append, List.filterMap_cons, List.filterMap_nil,
    (hset _).1, (hset _).2, (hother _).1, (hother _).2.1, (hother _).2.2, hlast, if_true,
    Bool.false_eq_true, if_false]
  rfl

/-! ## The green run -/

/-- The run was measured and green: it is complete and not at the head, and each of its shards, of
which there is one, concluded success. -/
def World.Green (w : World) (head : Str) (r : Run) : Prop :=
  r.status = "completed".toList ∧ r.headSha ≠ head ∧
    ∃ jobs, w.jobs r.databaseId = some jobs ∧ runQualifies jobs = true

/-- **The run a skip inherits from** is the newest one that is green. -/
theorem lastGreenSelftest_eq_some_iff {w : World} {branch head g : Str} {i : Nat} :
    lastGreenSelftest w branch head = some (g, i) ↔
      ∃ newer r older, w.runs branch = some (newer ++ r :: older) ∧
        (∀ r' ∈ newer, ¬w.Green head r') ∧ w.Green head r ∧ r.headSha = g ∧ r.databaseId = i := by
  -- the body of the loop takes a green run and passes over any other
  have hbody : ∀ (r : Run) (body : Option (Str × Nat)),
      body = (if r.status ≠ "completed".toList ∨ r.headSha = head then none
        else if ((w.jobs r.databaseId).map runQualifies).getD false then
          some (r.headSha, r.databaseId) else none) →
      (w.Green head r → body = some (r.headSha, r.databaseId)) ∧ (¬w.Green head r → body = none) := by
    rintro r body rfl
    by_cases hstatus : r.status ≠ "completed".toList ∨ r.headSha = head
    · refine ⟨fun h => ?_, fun _ => if_pos hstatus⟩
      rcases hstatus with hstatus | hstatus
      · exact absurd h.1 hstatus
      · exact absurd hstatus h.2.1
    rw [if_neg hstatus]
    obtain ⟨hcompleted, hsha⟩ := not_or.mp hstatus
    rw [Decidable.not_not] at hcompleted
    unfold World.Green
    cases hjobs : w.jobs r.databaseId with
    | none => simp
    | some jobs => cases hq : runQualifies jobs <;> simp [hcompleted, hsha, hq]
  unfold lastGreenSelftest
  rw [List.findSome?_eq_some_iff]
  constructor
  · rintro ⟨newer, r, older, hruns, hr, hnewer⟩
    have hsome : w.runs branch = some (newer ++ r :: older) := by
      cases hw : w.runs branch with
      | none => simp [hw] at hruns
      | some runs => exact congrArg some (by simpa [hw] using hruns)
    have hgreen : w.Green head r := by
      by_contra hnot
      rw [(hbody r _ rfl).2 hnot] at hr
      cases hr
    refine ⟨newer, r, older, hsome, fun r' hr' hgreen' => ?_, hgreen, ?_⟩
    · have hnone := hnewer r' hr'
      rw [(hbody r' _ rfl).1 hgreen'] at hnone
      cases hnone
    · rw [(hbody r _ rfl).1 hgreen] at hr
      exact Prod.mk.inj (Option.some.inj hr)
  · rintro ⟨newer, r, older, hsome, hnewer, hgreen, rfl, rfl⟩
    refine ⟨newer, r, older, by rw [hsome]; rfl, (hbody r _ rfl).1 hgreen, fun r' hr' => ?_⟩
    exact (hbody r' _ rfl).2 (hnewer r' hr')

/-- **What a skip rests on.** -/
theorem decide_skip_cases {w : World} {ref branch : Str} (hskip : (w.decide ref branch).skip = true) :
    ∃ rev listing d n g i glisting m, branch ≠ [] ∧ w.revParse ref = .ok rev ∧
      w.lsTree ref = .ok listing ∧ digest w.sha256 listing = .ok (d, n) ∧
      lastGreenSelftest w branch (strip rev) = some (g, i) ∧ w.haveCommit g = true ∧
      w.lsTree g = .ok glisting ∧ digest w.sha256 glisting = .ok (d, m) ∧
      w.decide ref branch =
        ⟨true, some d, some g, n, "byte-identical to green run ".toList ++ dec i, some i⟩ := by
  generalize hv : w.decide ref branch = v at hskip
  unfold World.decide at hv
  split at hv
  · subst hv
    cases hskip
  rename_i hbranch
  split at hv
  · subst hv
    cases hskip
  rename_i head d n hhead
  obtain ⟨rev, hrev, hhead⟩ := bind_eq_ok.mp hhead
  obtain ⟨listing, hlisting, hhead⟩ := bind_eq_ok.mp hhead
  obtain ⟨x, hd, hx⟩ := bind_eq_ok.mp hhead
  obtain ⟨rfl, rfl⟩ := Prod.mk.inj (Except.ok.inj hx)
  split at hv
  · subst hv
    cases hskip
  rename_i g i hgreen
  split at hv
  · subst hv
    cases hskip
  rename_i hhave
  split at hv
  · subst hv
    cases hskip
  rename_i gd m hgd
  obtain ⟨glisting, hglisting, hgd⟩ := bind_eq_ok.mp hgd
  split at hv
  · rename_i heq
    subst hv heq
    exact ⟨rev, listing, gd, n, g, i, glisting, m, hbranch, hrev, hlisting, hd, hgreen,
      by simpa using hhave, hglisting, hgd, rfl⟩
  · subst hv
    cases hskip

/-- The digest of a verdict is one the hash function gave, and the commit it names is one the
lookup found. -/
theorem decide_fields (w : World) (ref branch : Str) :
    (∀ d ∈ (w.decide ref branch).digest, ∃ b, d = (w.sha256 b).take 16) ∧
    ∀ g ∈ (w.decide ref branch).inherits, ∃ head i, lastGreenSelftest w branch head = some (g, i) := by
  have hdigest : ∀ {listing d n}, digest w.sha256 listing = .ok (d, n) →
      ∃ b, d = (w.sha256 b).take 16 := by
    intro listing d n h
    obtain ⟨entries, -, h⟩ := bind_eq_ok.mp h
    exact ⟨_, (Prod.mk.inj (Except.ok.inj h)).1.symm⟩
  unfold World.decide
  split
  · exact ⟨by simp [measure], by simp [measure]⟩
  split
  · exact ⟨by simp [measure], by simp [measure]⟩
  rename_i head d n hhead
  obtain ⟨rev, -, hhead⟩ := bind_eq_ok.mp hhead
  obtain ⟨listing, -, hhead⟩ := bind_eq_ok.mp hhead
  obtain ⟨x, hd, hx⟩ := bind_eq_ok.mp hhead
  obtain ⟨rfl, rfl⟩ := Prod.mk.inj (Except.ok.inj hx)
  obtain ⟨b, hb⟩ := hdigest hd
  split
  · exact ⟨by simpa [measure] using ⟨b, hb⟩, by simp [measure]⟩
  rename_i g i hgreen
  split
  · exact ⟨by simpa [measure] using ⟨b, hb⟩, by simp [measure]⟩
  split
  · exact ⟨by simpa [measure] using ⟨b, hb⟩, by simp [measure]⟩
  split
  · exact ⟨by simpa using ⟨b, hb⟩, by simpa using ⟨_, i, hgreen⟩⟩
  · exact ⟨by simpa [measure] using ⟨b, hb⟩, by simpa [measure] using ⟨_, i, hgreen⟩⟩

/-- **When the gate skips**: its digest is that of the newest green run, in this clone. -/
theorem decide_of_match {w : World} {ref branch rev listing d g glisting : Str} {n i m : Nat}
    (hbranch : branch ≠ []) (hrev : w.revParse ref = .ok rev) (hlisting : w.lsTree ref = .ok listing)
    (hd : digest w.sha256 listing = .ok (d, n))
    (hgreen : lastGreenSelftest w branch (strip rev) = some (g, i)) (hhave : w.haveCommit g = true)
    (hglisting : w.lsTree g = .ok glisting) (hgd : digest w.sha256 glisting = .ok (d, m)) :
    w.decide ref branch =
      ⟨true, some d, some g, n, "byte-identical to green run ".toList ++ dec i, some i⟩ := by
  unfold World.decide
  rw [if_neg hbranch, hrev, ok_bind, hlisting, ok_bind, hd, ok_bind, pure_eq]
  simp [hgreen, hhave, hglisting, hgd]

end X86Scripts.Skip
