import Anthrex.Data.Worklist
import Anthrex.History.Record

/-!
# Reverts

Which merges of accepted runs were later reverted on the base branch (`run/history_io.rs`). A pass
reads the log of the branch, oldest commit first, for messages that say to revert a candidate, and
appends a record for each: a candidate is an accept merge, a task's merge or a revert recorded
before, but for what a record of an earlier pass says was reverted.

Within a pass a candidate stays one when a commit reverted it, so that it can matter when the
passes run. `recordReverts_passes` says when it does not.
-/

namespace Anthrex.History

/-- A commit of the base branch. -/
structure Commit where
  id : String
  body : String
  deriving DecidableEq, Repr

/-! ## Messages -/

def isHexdigit (c : Char) : Bool :=
  ('0' ≤ c ∧ c ≤ '9') ∨ ('a' ≤ c ∧ c ≤ 'f') ∨ ('A' ≤ c ∧ c ≤ 'F')

/-- A full commit id: 40 or 64 lowercase hex digits. -/
def isCommitId (id : String) : Bool :=
  (id.toList.length = 40 ∨ id.toList.length = 64) ∧
    id.toList.all fun c => ('0' ≤ c ∧ c ≤ '9') ∨ ('a' ≤ c ∧ c ≤ 'f')

def revertsMarker : List Char := "This reverts commit ".toList

/-- The hex digits after each marker, of which the last found still has `skip` characters. -/
def revertedShasFrom : (skip : ℕ) → List Char → List String
  | _, [] => []
  | skip + 1, _ :: text => revertedShasFrom skip text
  | 0, c :: text =>
    if revertsMarker <+: c :: text then
      String.ofList (((c :: text).drop revertsMarker.length).takeWhile isHexdigit) ::
        revertedShasFrom (revertsMarker.length - 1) text
    else revertedShasFrom 0 text

/-- The shas a commit message says it reverts. -/
def revertedShas (body : String) : List String := revertedShasFrom 0 body.toList

def asciiLowercase (s : String) : String := String.ofList (s.toList.map Char.toLower)

def minAbbrev : ℕ := 7

/-- The run and the task of each candidate, by sha. -/
abbrev Wanted := SortedMap String (String × Option String)

/-- The candidate a sha names: itself when it is one, else the only one it abbreviates. -/
def candidateOf (wanted : Wanted) (sha : String) : Option (String × String × Option String) :=
  let sha := asciiLowercase sha
  match wanted.get? sha with
  | some hit => some (sha, hit)
  | none =>
    if sha.toList.length < minAbbrev then none
    else
      match wanted.entries.filter fun e => sha.toList <+: e.1.toList with
      | [hit] => some hit
      | _ => none

/-! ## Candidates -/

def revertWindowSecs : ℕ := 90 * 86400

def revertLogMax : ℕ := 2000

def HistoryLine.recordId : HistoryLine → String
  | task t => t.recordId
  | run r => r.recordId
  | revert r => r.recordId
  | flaky f => f.recordId
  | other id => id

/-- The run and the accept merge of a run accepted into `base` within the window. -/
def acceptedIn (base : String) (now : ℕ) : HistoryLine → Option (String × String)
  | .run r =>
    if r.baseBranch = base ∧ now - r.time ≤ revertWindowSecs then
      r.acceptedCommit.map fun accepted => (r.runId, accepted)
    else none
  | _ => none

/-- The run, the task and the merge of a merged task. -/
def mergedTask : HistoryLine → Option (String × String × String)
  | .task t => t.mergeCommit.map fun merge => (t.runId, t.taskId, merge)
  | _ => none

def revertsOf (history : List HistoryLine) : List RevertRecord :=
  history.filterMap fun
    | .revert r => some r
    | _ => none

def acceptedRuns (base : String) (now : ℕ) (history : List HistoryLine) : SortedSet String :=
  SortedSet.ofKeys ((history.filterMap (acceptedIn base now)).map (·.1))

/-- The accept merges and the tasks' merges. -/
def merges (base : String) (now : ℕ) (history : List HistoryLine) : Wanted :=
  let shas := (history.filterMap (acceptedIn base now)).foldl
    (fun m accepted => m.insert accepted.2 (accepted.1, none)) .empty
  (history.filterMap mergedTask).foldl (fun m merged =>
    if merged.1 ∈ acceptedRuns base now history then m.insert merged.2.2 (merged.1, some merged.2.1)
    else m) shas

def candidates (base : String) (now : ℕ) (history : List HistoryLine) : Wanted :=
  let shas := (revertsOf history).foldl (fun m r =>
    if r.runId ∈ acceptedRuns base now history then m.insert r.revertCommit (r.runId, r.taskId)
    else m) (merges base now history)
  (revertsOf history).foldl (fun m r => m.erase r.reverted) shas

/-! ## A pass -/

def revertId (commit : String) : String := "revert/" ++ commit

/-- The reverts of a log, oldest first: one found is a candidate for the later commits. -/
def reverts (recorded : List String) (now : ℕ) : List Commit → Wanted → List RevertRecord
  | [], _ => []
  | c :: log, wanted =>
    if !isCommitId c.id ∨ revertId c.id ∈ recorded then reverts recorded now log wanted
    else
      match (revertedShas c.body).findSome? (candidateOf wanted) with
      | none => reverts recorded now log wanted
      | some (reverted, runId, taskId) =>
        { recordId := revertId c.id
          time := now
          runId
          taskId
          reverted
          revertCommit := c.id } :: reverts recorded now log (wanted.insert c.id (runId, taskId))

/-- The reverts of candidates on a branch, whose log git prints newest first. -/
def detectReverts (log : List Commit) (base : String) (history : List HistoryLine) (now : ℕ) :
    List RevertRecord :=
  let wanted := candidates base now history
  if wanted.entries.isEmpty then []
  else reverts (history.map HistoryLine.recordId) now (log.take revertLogMax).reverse wanted

/-- A branch an accepted run was merged into. -/
def acceptedBranch : HistoryLine → Option String
  | .run r => if r.acceptedCommit.isSome then some r.baseBranch else none
  | _ => none

/-- The history after a pass over each base branch. -/
def recordReverts (log : String → List Commit) (history : List HistoryLine) (now : ℕ) :
    List HistoryLine :=
  let branches := (SortedSet.ofKeys (history.filterMap acceptedBranch)).keys
  history ++ branches.flatMap fun branch =>
    (detectReverts (log branch) branch history now).map .revert

/-! ## Reverts in effect -/

/-- Whether a record is in effect, that is no record in effect reverts its commit, with what is
    known of the commits so far. A chain deeper than the records stops there, in effect. -/
def inEffect (reverts : List RevertRecord) :
    (depthLeft : ℕ) → RevertRecord → SortedMap String Bool → Bool × SortedMap String Bool
  | 0, record, known =>
    match known.get? record.revertCommit with
    | some k => (k, known)
    | none => (true, known.insert record.revertCommit true)
  | depth + 1, record, known =>
    match known.get? record.revertCommit with
    | some k => (k, known)
    | none =>
      let undone := (reverts.filter (·.reverted = record.revertCommit)).foldl
        (fun s r => if s.1 then s else inEffect reverts depth r s.2) (false, known)
      (!undone.1, undone.2.insert record.revertCommit !undone.1)

/-- The records in effect among some, one after the other. -/
def inEffectAmong (reverts : List RevertRecord) :
    List RevertRecord → SortedMap String Bool → List RevertRecord
  | [], _ => []
  | r :: rest, known =>
    let (effective, known) := inEffect reverts reverts.length r known
    if effective then r :: inEffectAmong reverts rest known else inEffectAmong reverts rest known

/-- The reverts in effect of merges, not of other reverts. -/
def effectiveReverts (lines : List HistoryLine) : List RevertRecord :=
  let reverts := revertsOf lines
  let commits := reverts.map (·.revertCommit)
  inEffectAmong reverts (reverts.filter (·.reverted ∉ commits)) .empty

end Anthrex.History
