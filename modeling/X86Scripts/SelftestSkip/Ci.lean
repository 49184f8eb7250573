import X86Scripts.Lib.History
import X86Scripts.SelftestSkip.Gate
import X86Scripts.SelftestSkip.LsTree
import X86Scripts.SelftestSkip.Shards

/-!
# The runs of the workflow

`.github/workflows/ci.yml` as a machine, as far as `selftest-gate` and `selftest` go: runs start, a
gate decides, shards are created and end, jobs are cancelled, runs are run again, in any order. The
forge may answer the gate from any of its past, and any call may fail.

* `ciYml`, `ciYml_covers`: the matrix of the workflow and its divisor.
* `Site`: what a commit holds, and what each run is about.
* `CiRun`, `Forge`: the runs as the forge holds them, and the log of what happened.
* `Forge.world`: what the gate of a run sees.
* **`Site.step`**: one action.
-/

namespace X86Scripts.Skip

open X86Scripts.Digits
open X86Scripts.Py

/-! ## What is fixed -/

/-- What is fixed of a run: what started it, the branch it is filed under with the commit at its
head, and the commit its jobs check out, which on a pull request is the merge commit. -/
structure RunInfo where
  event : Str
  refName : Str
  baseRef : Str
  headBranch : Str
  headSha : Oid
  checkout : Oid

/-- What `ci.yml` says of the shards: the matrix, and the divisor in their command. -/
structure Workflow where
  matrix : List Nat
  divisor : Nat

/-- The workflow of this repository. Source: `.github/workflows/ci.yml` -/
def ciYml : Workflow where
  matrix := [1, 2, 3, 4, 5, 6, 7, 8, 9, 10, 11, 12, 13, 14, 15, 16, 17, 18, 19, 20]
  divisor := 20

/-- Its matrix lists the shards of its divisor. -/
theorem ciYml_covers :
    0 < ciYml.divisor ∧ ∀ k, k ∈ ciYml.matrix ↔ 1 ≤ k ∧ k ≤ ciYml.divisor := by
  have hmatrix : ciYml.matrix = List.range' 1 20 := by decide
  have hdivisor : ciYml.divisor = 20 := rfl
  refine ⟨by decide, fun k => ?_⟩
  rw [hmatrix, hdivisor, List.mem_range'_1]
  omega

/-- A repository and its runs: what `git ls-tree -r` prints for a commit, the arms of the selftest
built from a commit and what driving each finds, and the runs by their numbers. -/
structure Site (Arm : Type) where
  workflow : Workflow
  info : Nat → RunInfo
  listing : Str → Str
  sha256 : ByteArray → Str
  arms : Oid → List Arm
  driveWrong : Oid → Arm → Bool

/-! ## The forge -/

/-- The name of a shard's job. -/
def shardName (k : Nat) : Str := "selftest (".toList ++ dec k ++ [')']

/-- A run as the forge holds it: the output file of its gate, once that has ended well, and the jobs
it lists. The conclusion of a job that has not ended is empty. -/
structure CiRun where
  id : Nat
  status : Str
  gate : Option Str
  jobs : List Job

/-- What has happened: a gate has decided, the command of a shard has passed. -/
inductive Entry where
  | decided (id : Nat) (branch : Str) (v : Verdict)
  | passed (id k : Nat)
  deriving DecidableEq

/-- The runs, newest first, as they are and as they were, and the log, newest first. -/
structure Forge where
  now : List CiRun
  past : List (List CiRun)
  log : List Entry

/-- No run yet. -/
def Forge.empty : Forge := ⟨[], [], []⟩

/-- The runs as they are or as they were so many actions ago. -/
def Forge.snapshot (f : Forge) (age : Nat) : List CiRun := ((f.now :: f.past)[age]?).getD []

def Forge.find? (f : Forge) (id : Nat) : Option CiRun := f.now.find? (·.id = id)

/-- What the gate's calls meet: the errors of git, the commits in the clone, and for each question to
the forge how old the answer is, if it comes. -/
structure Net where
  revParse : Option Str := none
  lsTree : Str → Option Str := fun _ => none
  cloned : Str → Bool := fun _ => true
  listed : Option Nat := some 0
  viewed : Nat → Option Nat := fun _ => some 0

section

variable {Arm : Type}

/-- What the gate of a run sees. -/
def Forge.world (f : Forge) (S : Site Arm) (id : Nat) (net : Net) : World where
  revParse _ := match net.revParse with
    | some e => .error e
    | none => .ok ((S.info id).checkout.hex ++ ['\n'])
  lsTree ref := match net.lsTree ref with
    | some e => .error e
    | none => .ok (S.listing (if ref = "HEAD".toList then (S.info id).checkout.hex else ref))
  haveCommit := net.cloned
  runs branch := net.listed.map fun age =>
    (((f.snapshot age).filter fun r => (S.info r.id).headBranch = branch).take 30).map fun r =>
      ⟨r.id, (S.info r.id).headSha.hex, r.status⟩
  jobs id := (net.viewed id).bind fun age =>
    ((f.snapshot age).find? (·.id = id)).map CiRun.jobs
  sha256 := S.sha256

/-- The arguments the workflow passes. -/
def RunInfo.args (r : RunInfo) : Args where
  event := some r.event
  refName := some r.refName
  baseRef := r.baseRef

/-! ## Actions -/

inductive Action where
  /-- A run starts. -/
  | start (id : Nat)
  /-- The gate of a run decides. -/
  | gate (id : Nat) (net : Net)
  /-- The shards of a run are created. -/
  | expand (id : Nat)
  /-- The command of a shard ends. -/
  | conclude (id k : Nat)
  /-- A job ends without success: it is cancelled, or times out. -/
  | stop (id : Nat) (name conclusion : Str)
  /-- A job is listed that is not a shard, or is a skipped one. -/
  | report (id : Nat) (job : Job)
  /-- The status of a run changes. -/
  | status (id : Nat) (status : Str)
  /-- A run is run again. -/
  | rerun (id : Nat)
  /-- The jobs of a run that did not succeed are run again, but for skipped ones. -/
  | rerunFailed (id : Nat)

/-- One run is changed. -/
def modify (runs : List CiRun) (id : Nat) (g : CiRun → CiRun) : List CiRun :=
  runs.map fun r => if r.id = id then g r else r

/-- The jobs of a name that have not ended conclude. -/
def concludeJobs (jobs : List Job) (name conclusion : Str) : List Job :=
  jobs.map fun j => if j.name = name ∧ j.conclusion = [] then { j with conclusion := conclusion } else j

/-- `if: needs.selftest-gate.outputs.skip != 'true'`, of a gate that ended well. -/
def shardsRun (gate : Option Str) : Bool :=
  match gate with
  | none => false
  | some text => stepOutput text "skip".toList ≠ "true".toList

/-- The command of a shard of a run has exit code 0. -/
def Site.shardPasses (S : Site Arm) (id k : Nat) : Bool :=
  (runShard (S.driveWrong (S.info id).checkout) (S.arms (S.info id).checkout) k
    S.workflow.divisor).2 = 0

/-- The forge with its runs changed and an entry of the log, if there is one. -/
def Forge.next (f : Forge) (runs : List CiRun) (entry : Option Entry) : Forge :=
  ⟨runs, f.now :: f.past, entry.toList ++ f.log⟩

/-- **One action**, if it can happen. -/
def Site.step (S : Site Arm) (f : Forge) : Action → Option Forge
  | .start id =>
    if (f.find? id).isNone then some (f.next (⟨id, "queued".toList, none, []⟩ :: f.now) none) else none
  | .gate id net => do
    let r ← f.find? id
    if r.gate.isSome then none
    else
      let v := (decideCommand (f.world S id net) (S.info id).args).1
      some (f.next (modify f.now id fun r => { r with gate := some (outputFile v) })
        (some (.decided id (S.info id).args.lookup v)))
  | .expand id => do
    let r ← f.find? id
    -- the shards are created once, when the gate has ended well and lets them run
    if shardsRun r.gate && !r.jobs.any (fun j => isShardJob j.name) then
      some (f.next (modify f.now id fun r =>
        { r with jobs := r.jobs ++ S.workflow.matrix.map fun k => ⟨shardName k, []⟩ }) none)
    else none
  | .conclude id k => do
    let r ← f.find? id
    if r.jobs.any fun j => j.name = shardName k ∧ j.conclusion = [] then
      if S.shardPasses id k then
        some (f.next (modify f.now id fun r =>
          { r with jobs := concludeJobs r.jobs (shardName k) "success".toList }) (some (.passed id k)))
      else
        some (f.next (modify f.now id fun r =>
          { r with jobs := concludeJobs r.jobs (shardName k) "failure".toList }) none)
    else none
  | .stop id name conclusion =>
    if conclusion = "success".toList ∨ conclusion = "skipped".toList ∨ conclusion = [] then none
    else some (f.next (modify f.now id fun r =>
      { r with jobs := concludeJobs r.jobs name conclusion }) none)
  | .report id job =>
    if isShardJob job.name = true ∧ job.conclusion ≠ "skipped".toList then none
    else some (f.next (modify f.now id fun r => { r with jobs := r.jobs ++ [job] }) none)
  | .status id status =>
    some (f.next (modify f.now id fun r => { r with status := status }) none)
  | .rerun id =>
    some (f.next (modify f.now id fun r => { r with gate := none, jobs := [] }) none)
  | .rerunFailed id =>
    some (f.next (modify f.now id fun r =>
      { r with jobs := r.jobs.map fun j =>
        if j.conclusion = "success".toList ∨ j.conclusion = "skipped".toList then j
        else { j with conclusion := [] } }) none)

end

end X86Scripts.Skip
