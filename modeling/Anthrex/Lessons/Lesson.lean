import Anthrex.Data.Worklist
import Anthrex.History.Record

/-!
# Lessons

A lesson, a distill entry and the store that a repository's `lessons.jsonl` folds to
(`lessons/fold.rs`), with the keys of the `[lessons]` table that the known failures depend on.
-/

namespace Anthrex.Lessons

inductive LessonLayer
  | episodic
  | semantic
  | procedural
  deriving DecidableEq, Repr

inductive LessonStatus
  | onTrial
  | kept
  | proposed
  | approved
  | rejected
  | retired
  | known
  deriving DecidableEq, Repr

inductive LessonOrigin
  | distilled
  | signature
  deriving DecidableEq, Repr

/-- Why a task or a run was queued for distillation. -/
inductive DistillCause
  | taskBlocked
  | taskRecovered
  | reviewBlocking
  | runDiscarded
  | runFailed
  deriving DecidableEq, Repr

structure Lesson where
  id : String
  layer : LessonLayer
  status : LessonStatus
  origin : LessonOrigin
  title : String
  body : String
  files : List String
  createdAt : ℕ
  lastSeen : ℕ
  trialStart : Option ℕ
  /-- The runs it came from, at most `runsMax`, the newest last. -/
  runs : List String
  reconfirmed : ℕ
  retiredReason : Option String
  queued : Option String
  green : ℕ
  outcomes : ℕ
  headlines : List String
  deriving DecidableEq, Repr

/-- A distill entry: open until a `distilled` or a `gave_up` line closes it. -/
structure Queued where
  recordId : String
  time : ℕ
  runId : String
  taskId : Option String
  cause : DistillCause
  fps : List String
  opened : Bool
  attempts : ℕ
  deriving DecidableEq, Repr

/-- The store as its log leaves it. -/
structure Store where
  lessons : SortedMap String Lesson := .empty
  queued : SortedMap String Queued := .empty
  /-- The fingerprints of the dismissed known failures. -/
  dismissed : SortedSet String := .empty
  problems : List String := []
  deriving DecidableEq

/-- The `[lessons]` table. -/
structure Config where
  knownMin : ℕ
  knownWindowDays : ℕ
  knownCleanRuns : ℕ
  expiryDays : ℕ
  deriving DecidableEq, Repr

def runsMax : ℕ := 10

/-- The seconds of a day, the unit of every `_days` key. -/
def daySecs : ℕ := 86400

end Anthrex.Lessons
