import X86Scripts.Lib.PyStr

/-!
# The selftest-skip gate

`scripts/selftest_skip.py`: the digest of the consumed set, and the decision to skip.

* `digestLine`, `entriesOf`, `hashed`, `digest`: what is hashed.
* `isShardJob`, `runQualifies`, `lastGreenSelftest`: the run a skip inherits from.
* **`World.decide`**: skip or measure.
-/

namespace X86Scripts.Skip

open X86Scripts.Py
open X86Scripts.Digits

/-! ## The digest -/

/-- Source: `scripts/selftest_skip.py`, `CONSUMED_EXACT` -/
def CONSUMED_EXACT : List Str :=
  ["lakefile.toml".toList, "lean-toolchain".toList, "lake-manifest.json".toList,
   ".github/workflows/ci.yml".toList]

/-- `path in CONSUMED_EXACT or path.endswith(".lean")` -/
def isConsumed (path : Str) : Bool :=
  CONSUMED_EXACT.contains path || ".lean".toList.isSuffixOf path

/-- The texts of the `ValueError`s of an unpacking of `n` values where `k` are expected. -/
def unpackError (k n : Nat) : Str :=
  if n < k then "not enough values to unpack (expected ".toList ++ dec k ++ ", got ".toList ++ dec n ++
    ")".toList
  else "too many values to unpack (expected ".toList ++ dec k ++ ")".toList

/-- The loop body of `digest`: the entry of a line, if it is consumed; an exception is its text.
Source: `scripts/selftest_skip.py`, `digest` -/
def digestLine (ln : Str) : Except Str (Option (Str × Str)) :=
  if strip ln = [] then .ok none
  else match ln.dropWhile (· ≠ '\t') with
    | [] => .error (unpackError 2 1)
    | _ :: path =>
      match splitWs (ln.takeWhile (· ≠ '\t')) with
      | [_, _, blob] =>
        let path := strip path
        .ok (if isConsumed path then some (path, blob) else none)
      | fields => .error (unpackError 3 fields.length)

/-- `entries`, in the order of the listing. Source: `scripts/selftest_skip.py`, `digest` -/
def entriesOf (out : Str) : Except Str (List (Str × Str)) :=
  List.reduceOption <$> (out.splitOn '\n').mapM digestLine

/-- `entries.sort()`: by path, then by blob. -/
def sortEntries (entries : List (Str × Str)) : List (Str × Str) :=
  ((entries.map toLex).insertionSort (· ≤ ·)).map ofLex

/-- **The byte string that is hashed**: path and blob, each with a NUL behind it.
Source: `scripts/selftest_skip.py`, `digest` -/
def hashed (entries : List (Str × Str)) : ByteArray :=
  (String.ofList
    ((sortEntries entries).flatMap fun x => x.1 ++ ['\x00'] ++ x.2 ++ ['\x00'])).toUTF8

/-- The digest of a listing, and the number of its entries.
Source: `scripts/selftest_skip.py`, `digest` -/
def digest (sha256 : ByteArray → Str) (out : Str) : Except Str (Str × Nat) := do
  let entries ← entriesOf out
  return ((sha256 (hashed entries)).take 16, entries.length)

/-! ## The run a skip inherits from -/

structure Job where
  name : Str
  conclusion : Str

structure Run where
  databaseId : Nat
  headSha : Str
  status : Str

/-- Source: `scripts/selftest_skip.py`, `is_shard_job` -/
def isShardJob (name : Str) : Bool :=
  name == "selftest".toList || "selftest (".toList.isPrefixOf name

/-- Source: `scripts/selftest_skip.py`, `run_qualifies` -/
def runQualifies (jobs : List Job) : Bool :=
  let shards := jobs.filter fun j => isShardJob j.name
  !shards.isEmpty && shards.all fun j => j.conclusion == "success".toList

/-- What the script asks of git, of the API and of the hash function. A failure of git is the text
of its exception, a failure of the API is `none`. -/
structure World where
  revParse : Str → Except Str Str
  lsTree : Str → Except Str Str
  haveCommit : Str → Bool
  /-- The runs on a branch, newest first. -/
  runs : Str → Option (List Run)
  /-- The jobs of a run. -/
  jobs : Nat → Option (List Job)
  sha256 : ByteArray → Str

/-- Source: `scripts/selftest_skip.py`, `last_green_selftest` -/
def lastGreenSelftest (w : World) (branch excludeSha : Str) : Option (Str × Nat) :=
  ((w.runs branch).getD []).findSome? fun r =>
    if r.status ≠ "completed".toList ∨ r.headSha = excludeSha then none
    else if ((w.jobs r.databaseId).map runQualifies).getD false then some (r.headSha, r.databaseId)
    else none

/-! ## The decision -/

/-- What `_out` records. -/
structure Verdict where
  skip : Bool
  digest : Option Str
  inherits : Option Str
  n : Nat
  reason : Str
  run : Option Nat

/-- The verdict to measure. -/
def measure (d inherits : Option Str) (n : Nat) (reason : Str) (run : Option Nat) : Verdict :=
  ⟨false, d, inherits, n, reason, run⟩

/-- **Skip only on a positive digest match against a named green run.** An empty branch stands for
`None` too. Source: `scripts/selftest_skip.py`, `decide` -/
def World.decide (w : World) (ref branch : Str) : Verdict :=
  if branch = [] then
    measure none none 0
      "no branch to inherit a green run from (a pull_request with no base ref)".toList none
  else
    match (do return (strip (← w.revParse ref), ← digest w.sha256 (← w.lsTree ref)) :
        Except Str (Str × Str × Nat)) with
    | .error e => measure none none 0 ("cannot compute this digest (".toList ++ e ++ ")".toList) none
    | .ok (head, d, n) =>
      match lastGreenSelftest w branch head with
      | none => measure (some d) none n
          ("no completed run on this branch has ALL selftest shards green " ++
            "(or the API was unreachable)").toList none
      | some (gsha, grun) =>
        if w.haveCommit gsha = false then
          measure (some d) none n ("the green sha ".toList ++ gsha.take 8 ++ " (run ".toList ++
            dec grun ++ ") is not in this clone -- checkout needs fetch-depth: 0".toList) none
        else
          match (do digest w.sha256 (← w.lsTree gsha) : Except Str (Str × Nat)) with
          | .error e =>
            measure (some d) none n ("cannot compute the green digest (".toList ++ e ++ ")".toList) none
          | .ok (gd, _) =>
            if gd = d then
              ⟨true, some d, some gsha, n, "byte-identical to green run ".toList ++ dec grun, some grun⟩
            else
              measure (some d) (some gsha) n ("digest differs from green ".toList ++ gsha.take 8 ++
                " (".toList ++ gd ++ ")".toList) (some grun)

end X86Scripts.Skip
