import Mathlib.Data.String.Basic

/-!
# The history

The lines of a repository's `history.jsonl` (`proto/history.rs`): one record for each task,
run, revert and flaky test, and others that the modelled readers skip. A line's `at` is its
`time`.
-/

namespace Anthrex.History

inductive TaskOutcome
  | merged
  | mergedWithoutApproval
  | cancelled
  | blocked
  | unfinished
  | reported
  deriving DecidableEq, Repr

/-- The gate whose failed output a signature was taken from. -/
inductive SigGate
  | check
  | tier1
  | tier2
  | proof
  deriving DecidableEq, Repr

/-- A failure's signature: its gate, its fingerprint and its headline. -/
structure SigRef where
  gate : SigGate
  fp : String
  headline : String
  deriving DecidableEq, Repr

structure TaskRecord where
  recordId : String := ""
  time : ℕ
  runId : String
  taskId : String := ""
  outcome : TaskOutcome := .merged
  /-- How many checks ran for the task. -/
  checks : ℕ := 0
  mergeCommit : Option String := none
  signatures : List SigRef := []
  owns : List String := []
  deriving DecidableEq, Repr

structure RunRecord where
  recordId : String := ""
  time : ℕ
  runId : String
  baseBranch : String
  acceptedCommit : Option String := none
  deriving DecidableEq, Repr

/-- A commit on the base branch that reverts a task's merge, a run's, or another revert. -/
structure RevertRecord where
  recordId : String
  time : ℕ
  runId : String
  taskId : Option String
  reverted : String
  revertCommit : String
  deriving DecidableEq, Repr

/-- A test that failed and passed on its retry. -/
structure FlakyRecord where
  recordId : String := ""
  test : String
  deriving DecidableEq, Repr

inductive HistoryLine
  | task (record : TaskRecord)
  | run (record : RunRecord)
  | revert (record : RevertRecord)
  | flaky (record : FlakyRecord)
  /-- A role's route, a tier, a bisect, a stage, a round or a phase. -/
  | other (recordId : String)
  deriving DecidableEq, Repr

end Anthrex.History
