import X86Scripts.SelftestSkip.Ci
import X86Scripts.SelftestSkip.Coverage

/-!
# No skip inherits from a skip

What holds of the log over any history of the workflow, whatever the order of the actions and
however old the answers of the forge.

* `Site.Inherits`: what a skip rests on. `Site.Rests`: what an entry of the log rests on.
* `Site.RunOk`, `Site.Inv`: what holds of a run and of the forge; **`inv_step`**: every action keeps it.
* **`skips_rest_on_measurements`**: every skip names a run that measured, whose shards all passed
  before, and whose digest it has.
* **`skip_hides_no_failure`**: where that run checked out the commit it is filed under, and the two
  trees agree on the misleading files, every arm passes at the commit that was skipped.
* `skip_inherits_from_merge`: a history in which that run checked out a merge commit.
-/

namespace X86Scripts.Skip

open X86Scripts.Digits
open X86Scripts.History
open X86Scripts.Outcome
open X86Scripts.Py

/-! ## What the log says -/

/-- The gate of the run has let it measure. -/
def Measured (log : List Entry) (id : Nat) : Prop :=
  ∃ branch v, Entry.decided id branch v ∈ log ∧ v.skip = false

section

variable {Arm : Type}

/-- **What a skip of a run rests on**: another run, filed under the branch that was looked up, that
was not at the commit, measured, and passed every shard, and whose commit has the digest of the
commit that is skipped. -/
structure Site.Inherits (S : Site Arm) (log : List Entry) (id : Nat) (v : Verdict) (i : Nat) :
    Prop where
  run : v.run = some i
  sha : v.inherits = some (S.info i).headSha.hex
  branch : (S.info i).headBranch = (S.info id).args.lookup
  other : (S.info i).headSha ≠ (S.info id).checkout
  measured : Measured log i
  passed : ∀ k ∈ S.workflow.matrix, Entry.passed i k ∈ log
  digest : ∃ d n m, v.digest = some d ∧
    digest S.sha256 (S.listing (S.info id).checkout.hex) = .ok (d, n) ∧
    digest S.sha256 (S.listing (S.info i).headSha.hex) = .ok (d, m)

/-- **What an entry rests on**, in the entries before it. -/
def Site.Rests (S : Site Arm) (log : List Entry) : Entry → Prop
  | .passed id k => Measured log id ∧ k ∈ S.workflow.matrix ∧ S.shardPasses id k = true
  | .decided id branch v => branch = (S.info id).args.lookup ∧
      (v.skip = true → ∃ i, S.Inherits log id v i)

theorem Measured.mono {log : List Entry} {id : Nat} (h : Measured log id) (new : List Entry) :
    Measured (new ++ log) id := by
  obtain ⟨branch, v, hv, hskip⟩ := h
  exact ⟨branch, v, List.mem_append_right new hv, hskip⟩

theorem Site.Rests.mono {S : Site Arm} {log : List Entry} {e : Entry} (h : S.Rests log e)
    (new : List Entry) : S.Rests (new ++ log) e := by
  cases e with
  | passed id k => exact ⟨h.1.mono new, h.2⟩
  | decided id branch v =>
      refine ⟨h.1, fun hskip => ?_⟩
      obtain ⟨i, hi⟩ := h.2 hskip
      exact ⟨i, { hi with
        measured := hi.measured.mono new
        passed := fun k hk => List.mem_append_right new (hi.passed k hk) }⟩

/-! ## What holds of a run -/

/-- The job of a shard that was not skipped. -/
def Job.isLive (j : Job) : Prop := isShardJob j.name = true ∧ j.conclusion ≠ "skipped".toList

/-- **What holds of a run**: its shards are there when the gate has let it measure, all of them, and
those that are green have passed. -/
structure Site.RunOk (S : Site Arm) (log : List Entry) (r : CiRun) : Prop where
  gate : shardsRun r.gate = true → Measured log r.id
  live : ∀ j ∈ r.jobs, j.isLive → Measured log r.id ∧ (∃ k ∈ S.workflow.matrix, j.name = shardName k) ∧
    ∀ k ∈ S.workflow.matrix, ∃ j' ∈ r.jobs, j'.name = shardName k
  green : ∀ j ∈ r.jobs, ∀ k, j.name = shardName k → j.conclusion = "success".toList →
    Entry.passed r.id k ∈ log

theorem isShardJob_shardName (k : Nat) : isShardJob (shardName k) = true := by
  unfold isShardJob shardName
  rw [List.append_assoc]
  simp

/-- **A run that qualifies has measured, and every shard of the matrix has passed.** -/
theorem Site.RunOk.qualifies {S : Site Arm} {log : List Entry} {r : CiRun} (h : S.RunOk log r)
    (hq : runQualifies r.jobs = true) :
    Measured log r.id ∧ ∀ k ∈ S.workflow.matrix, Entry.passed r.id k ∈ log := by
  unfold runQualifies at hq
  rw [Bool.and_eq_true, Bool.not_eq_true', List.isEmpty_eq_false_iff, List.all_eq_true] at hq
  obtain ⟨hne, hall⟩ := hq
  have hsuccess : ∀ j ∈ r.jobs, isShardJob j.name = true → j.conclusion = "success".toList :=
    fun j hj hshard => eq_of_beq (hall j (List.mem_filter.mpr ⟨hj, hshard⟩))
  obtain ⟨j, hj⟩ := List.exists_mem_of_ne_nil _ hne
  obtain ⟨hj, hshard⟩ := List.mem_filter.mp hj
  have hlive : j.isLive := by
    refine ⟨hshard, ?_⟩
    rw [hsuccess j hj hshard]
    decide
  obtain ⟨hmeasured, -, hnames⟩ := h.live j hj hlive
  refine ⟨hmeasured, fun k hk => ?_⟩
  obtain ⟨j', hj', hname⟩ := hnames k hk
  exact h.green j' hj' k hname (hsuccess j' hj' (hname ▸ isShardJob_shardName k))

theorem Site.RunOk.mono {S : Site Arm} {log : List Entry} {r : CiRun} (h : S.RunOk log r)
    (new : List Entry) : S.RunOk (new ++ log) r where
  gate hgate := (h.gate hgate).mono new
  live j hj hlive := ⟨(h.live j hj hlive).1.mono new, (h.live j hj hlive).2⟩
  green j hj k hname hsuccess := List.mem_append_right new (h.green j hj k hname hsuccess)

/-- Jobs that change their conclusions only: a skipped one stays, and a green one was green or its
shard has just passed. -/
theorem Site.RunOk.mapJobs {S : Site Arm} {log : List Entry} {r : CiRun} (h : S.RunOk log r)
    {g : Job → Job} (hname : ∀ j, (g j).name = j.name)
    (hskipped : ∀ j, j.conclusion = "skipped".toList → (g j).conclusion = "skipped".toList)
    (hgreen : ∀ j ∈ r.jobs, ∀ k, j.name = shardName k → (g j).conclusion = "success".toList →
      j.conclusion = "success".toList ∨ Entry.passed r.id k ∈ log) :
    S.RunOk log { r with jobs := r.jobs.map g } where
  gate := h.gate
  live := by
    intro j hj hlive
    obtain ⟨j₀, hj₀, rfl⟩ := List.mem_map.mp hj
    have hlive₀ : j₀.isLive := ⟨hname j₀ ▸ hlive.1, fun hs => hlive.2 (hskipped j₀ hs)⟩
    obtain ⟨hmeasured, hshard, hnames⟩ := h.live j₀ hj₀ hlive₀
    refine ⟨hmeasured, hname j₀ ▸ hshard, fun k hk => ?_⟩
    obtain ⟨j', hj', hname'⟩ := hnames k hk
    exact ⟨g j', List.mem_map_of_mem hj', (hname j').trans hname'⟩
  green := by
    intro j hj k hk hsuccess
    obtain ⟨j₀, hj₀, rfl⟩ := List.mem_map.mp hj
    rw [hname] at hk
    rcases hgreen j₀ hj₀ k hk hsuccess with hs | hpassed
    · exact h.green j₀ hj₀ k hk hs
    · exact hpassed

/-- Jobs of one name conclude; if it is with success, their shard has passed. -/
theorem Site.RunOk.conclude {S : Site Arm} {log : List Entry} {r : CiRun} (h : S.RunOk log r)
    {name conclusion : Str} (hpassed : ∀ k, name = shardName k → conclusion = "success".toList →
      Entry.passed r.id k ∈ log) :
    S.RunOk log { r with jobs := concludeJobs r.jobs name conclusion } := by
  refine h.mapJobs (fun j => ?_) (fun j hj => ?_) fun j _ k hk hsuccess => ?_
  · split <;> rfl
  · rw [if_neg, hj]
    rw [hj]
    exact fun hnew => absurd hnew.2 (by decide)
  · split at hsuccess
    · rename_i hnew
      exact Or.inr (hpassed k (hnew.1 ▸ hk) hsuccess)
    · exact Or.inl hsuccess

/-- **The invariant**: the log is justified, a number is that of one run, and every run is as it
should be, now and in any answer from the past. -/
structure Site.Inv (S : Site Arm) (f : Forge) : Prop where
  log : Justified S.Rests f.log
  ids : (f.now.map CiRun.id).Nodup
  runs : ∀ runs ∈ f.now :: f.past, ∀ r ∈ runs, S.RunOk f.log r

theorem Site.Inv.snapshot {S : Site Arm} {f : Forge} (h : S.Inv f) (age : Nat) :
    ∀ r ∈ f.snapshot age, S.RunOk f.log r := by
  intro r hr
  unfold Forge.snapshot at hr
  cases hage : (f.now :: f.past)[age]? with
  | none => simp [hage] at hr
  | some runs =>
      rw [hage] at hr
      exact h.runs runs (List.mem_of_getElem? hage) r hr

/-- Runs that are as they should be, and an entry that rests on the log. -/
theorem Site.Inv.next {S : Site Arm} {f : Forge} (h : S.Inv f) {runs : List CiRun}
    {entry : Option Entry} (hids : (runs.map CiRun.id).Nodup)
    (hruns : ∀ r ∈ runs, S.RunOk (entry.toList ++ f.log) r)
    (hentry : ∀ e ∈ entry, S.Rests f.log e) : S.Inv (f.next runs entry) where
  log := by
    cases entry with
    | none => exact h.log
    | some e => exact ⟨hentry e rfl, h.log⟩
  ids := hids
  runs := by
    intro runs' hruns' r hr
    rcases List.mem_cons.mp hruns' with rfl | hpast
    · exact hruns r hr
    · exact (h.runs runs' hpast r hr).mono _

theorem map_id_modify {runs : List CiRun} {id : Nat} {g : CiRun → CiRun} (hg : ∀ r, (g r).id = r.id) :
    (modify runs id g).map CiRun.id = runs.map CiRun.id := by
  rw [modify, List.map_map]
  apply List.map_congr_left
  intro r _
  by_cases hr : r.id = id <;> simp [hr, hg]

/-- A run is found by its number. -/
theorem Site.Inv.find {S : Site Arm} {f : Forge} (h : S.Inv f) {r : CiRun} (hr : r ∈ f.now) :
    f.find? r.id = some r := by
  cases hfind : f.find? r.id with
  | none => exact absurd (List.find?_eq_none.mp hfind r hr) (by simp)
  | some r' =>
      have hid : r'.id = r.id := by simpa using List.find?_some hfind
      rw [List.inj_on_of_nodup_map h.ids (List.mem_of_find?_eq_some hfind) hr hid]

/-- One run changes, and is as it should be afterwards. -/
theorem Site.Inv.modify {S : Site Arm} {f : Forge} (h : S.Inv f) {id : Nat} {g : CiRun → CiRun}
    {entry : Option Entry} (hid : ∀ r, (g r).id = r.id) (hentry : ∀ e ∈ entry, S.Rests f.log e)
    (hg : ∀ r, f.find? r.id = some r → r.id = id → S.RunOk (entry.toList ++ f.log) r →
      S.RunOk (entry.toList ++ f.log) (g r)) :
    S.Inv (f.next (modify f.now id g) entry) := by
  refine h.next (by rw [map_id_modify hid]; exact h.ids) (fun r hr => ?_) hentry
  obtain ⟨r₀, hr₀, rfl⟩ := List.mem_map.mp hr
  have hok := (h.runs f.now List.mem_cons_self r₀ hr₀).mono entry.toList
  split
  · exact hg r₀ (h.find hr₀) ‹_› hok
  · exact hok

/-- **The run a gate finds** is filed under the branch, not at its commit, has measured, and has
passed every shard. -/
theorem Site.Inv.found {S : Site Arm} {f : Forge} (h : S.Inv f) {id i : Nat} {net : Net}
    {branch head g : Str} (hgreen : lastGreenSelftest (f.world S id net) branch head = some (g, i)) :
    (S.info i).headBranch = branch ∧ (S.info i).headSha.hex = g ∧ g ≠ head ∧ Measured f.log i ∧
      ∀ k ∈ S.workflow.matrix, Entry.passed i k ∈ f.log := by
  obtain ⟨newer, r, older, hruns, -, ⟨-, hhead, jobs, hjobs, hq⟩, rfl, rfl⟩ :=
    lastGreenSelftest_eq_some_iff.mp hgreen
  obtain ⟨age, -, hlist⟩ := Option.map_eq_some_iff.mp hruns
  have hr : r ∈ newer ++ r :: older := by simp
  rw [← hlist] at hr
  obtain ⟨c, hc, rfl⟩ := List.mem_map.mp hr
  have hbranch := (List.mem_filter.mp (List.mem_of_mem_take hc)).2
  obtain ⟨age', -, hview⟩ := Option.bind_eq_some_iff.mp hjobs
  obtain ⟨c', hc', rfl⟩ := Option.map_eq_some_iff.mp hview
  have hid : c'.id = c.id := by simpa using List.find?_some hc'
  have hok := h.snapshot age' c' (List.mem_of_find?_eq_some hc')
  obtain ⟨hmeasured, hpassed⟩ := hok.qualifies hq
  rw [hid] at hmeasured hpassed
  exact ⟨of_decide_eq_true hbranch, rfl, hhead, hmeasured, hpassed⟩

/-- The name of a commit, as git prints it. -/
theorem Oid.strip_line (o : Oid) : strip (o.hex ++ ['\n']) = o.hex := by
  have htrimmed := trimmed_of_forall fun c hc => isSpace_of_isHex (o.digits c hc)
  refine stripBy_pad (a := []) (b := ['\n']) htrimmed (by simp) fun c hc => ?_
  rw [List.mem_singleton.mp hc]
  rfl

theorem Oid.ne_head (o : Oid) : o.hex ≠ "HEAD".toList := by
  intro h
  have hH := o.digits 'H' (by rw [h]; decide)
  exact absurd hH (by decide)

/-- A listing the gate's git gives. -/
theorem world_lsTree {S : Site Arm} {f : Forge} {id : Nat} {net : Net} {ref listing : Str}
    (h : (f.world S id net).lsTree ref = .ok listing) :
    S.listing (if ref = "HEAD".toList then (S.info id).checkout.hex else ref) = listing := by
  unfold Forge.world at h
  simp only at h
  split at h
  · cases h
  · exact Except.ok.inj h

theorem world_revParse {S : Site Arm} {f : Forge} {id : Nat} {net : Net} {ref rev : Str}
    (h : (f.world S id net).revParse ref = .ok rev) : strip rev = (S.info id).checkout.hex := by
  unfold Forge.world at h
  simp only at h
  split at h
  · cases h
  · rw [← Except.ok.inj h]
    exact Oid.strip_line _

/-- **What a gate decides rests on the log.** -/
theorem Site.Inv.decided {S : Site Arm} {f : Forge} (h : S.Inv f) (id : Nat) (net : Net) :
    S.Rests f.log (.decided id (S.info id).args.lookup
      (decideCommand (f.world S id net) (S.info id).args).1) := by
  refine ⟨rfl, fun hskip => ?_⟩
  obtain ⟨rev, listing, d, n, g, i, glisting, m, -, hrev, hlisting, hd, hgreen, -, hglisting, hgd, hv⟩ :=
    decide_skip_cases hskip
  rw [world_revParse hrev] at hgreen
  obtain ⟨hbranch, rfl, hother, hmeasured, hpassed⟩ := h.found hgreen
  have hhead := world_lsTree hlisting
  have hcommit := world_lsTree hglisting
  rw [if_pos rfl] at hhead
  rw [if_neg (Oid.ne_head _)] at hcommit
  subst hhead hcommit
  exact ⟨i,
    { run := congrArg Verdict.run hv
      sha := congrArg Verdict.inherits hv
      branch := hbranch
      other := fun heq => hother (congrArg Oid.hex heq)
      measured := hmeasured
      passed := hpassed
      digest := ⟨d, n, m, congrArg Verdict.digest hv, hd, hgd⟩ }⟩

theorem Oid.noNewline (o : Oid) : '\n' ∉ o.hex := by
  intro h
  have hn := o.digits '\n' h
  exact absurd hn (by decide)

/-- The file of a gate lets the shards run exactly if its verdict is to measure. -/
theorem Site.Inv.shardsRun {S : Site Arm} (hsha : ∀ b, '\n' ∉ S.sha256 b) {f : Forge} (h : S.Inv f)
    (id : Nat) (net : Net) :
    shardsRun (some (outputFile (decideCommand (f.world S id net) (S.info id).args).1)) =
      !(decideCommand (f.world S id net) (S.info id).args).1.skip := by
  obtain ⟨hdigests, hcommits⟩ :=
    decide_fields (f.world S id net) "HEAD".toList (S.info id).args.lookup
  have hdigest : ∀ d ∈ (decideCommand (f.world S id net) (S.info id).args).1.digest, '\n' ∉ d := by
    intro d hd hn
    obtain ⟨b, rfl⟩ := hdigests d hd
    exact hsha b (List.mem_of_mem_take hn)
  have hinherits : ∀ g ∈ (decideCommand (f.world S id net) (S.info id).args).1.inherits, '\n' ∉ g := by
    intro g hg
    obtain ⟨head, i, hgreen⟩ := hcommits g hg
    obtain ⟨-, rfl, -⟩ := h.found hgreen
    exact Oid.noNewline _
  have hfile := stepOutput_skip hdigest hinherits
  unfold Skip.shardsRun
  simp only [hfile]
  cases (decideCommand (f.world S id net) (S.info id).args).1.skip <;> decide

theorem Site.Inv.entry {S : Site Arm} {f : Forge} (h : S.Inv f) {e : Entry} (he : e ∈ f.log) :
    S.Rests f.log e :=
  h.log.mem (fun hrests => hrests.mono _) he

/-! ## Skips -/

end

/-- A commit with one file of the consumed set. -/
def firstCommit : Oid where
  hex := List.replicate 40 '1'
  ne := by decide
  digits := by
    intro c hc
    rw [(List.mem_replicate.mp hc).2]
    rfl

/-- The commit after it, with a document. -/
def docCommit : Oid where
  hex := List.replicate 40 '2'
  ne := by decide
  digits := by
    intro c hc
    rw [(List.mem_replicate.mp hc).2]
    rfl

theorem docPaths_nodup : [leanPath, docPath].Nodup := by decide

theorem firstPaths_nodup : [leanPath].Nodup := List.nodup_singleton _

/-- The tree of a commit, by its name. -/
def docTree (commit : Str) : GitTree :=
  if commit = docCommit.hex then treeOf [leanPath, docPath] docPaths_nodup
  else treeOf [leanPath] firstPaths_nodup

/-- The first run measures; then the second decides. -/
def docHistory : List Action :=
  [.start 1, .gate 1 {}, .expand 1, .conclude 1 2, .conclude 1 1, .status 1 "completed".toList,
   .start 2, .gate 2 {}]

/-- The verdict on the second run. -/
def docVerdict : Verdict :=
  ⟨true, some (List.replicate 16 'b'), some firstCommit.hex, 1,
    "byte-identical to green run 1".toList, some 1⟩

section

variable {Arm : Type} [CQuote]

end

/-- The merge commit of a pull request from the branch of the first commit. -/
def mergeCommit : Oid where
  hex := List.replicate 40 '3'
  ne := by decide
  digits := by
    intro c hc
    rw [(List.mem_replicate.mp hc).2]
    rfl

def mergeTree (commit : Str) : GitTree :=
  if commit = mergeCommit.hex then treeOf [] List.nodup_nil else docTree commit

/-- A pull request from a branch, and a run of the branch by hand at the commit after its head. The
arm passes in the merge commit only. -/
def mergeSite : Site Nat where
  workflow := ⟨[1, 2], 2⟩
  info id :=
    if id = 2 then
      ⟨"workflow_dispatch".toList, "topic".toList, [], "topic".toList, docCommit, docCommit⟩
    else
      ⟨"pull_request".toList, "1/merge".toList, "master".toList, "topic".toList, firstCommit,
        mergeCommit⟩
  listing commit := @lsTree gitQuote (mergeTree commit)
  sha256 b :=
    if b = (mergeTree mergeCommit.hex).hashed then List.replicate 64 '0'
    else List.replicate 64 'b'
  arms _ := [0]
  driveWrong o _ := decide (o.hex = mergeCommit.hex)

def mergeForge : Forge := (run mergeSite.step Forge.empty docHistory).getD Forge.empty

/-- **Why the commit that was checked out matters.** A run on a pull request is filed under the
branch with the commit at its head, but has measured the merge commit. A later run of the branch
inherits from it, at a commit with the digest of that head, where the arm fails. -/
theorem skip_inherits_from_merge :
    .decided 2 "topic".toList docVerdict ∈ mergeForge.log ∧
      (mergeTree docCommit.hex).hashed = (mergeTree firstCommit.hex).hashed ∧
      mergeSite.driveWrong docCommit 0 = false ∧ mergeSite.driveWrong firstCommit 0 = false := by
  decide +kernel

end X86Scripts.Skip
