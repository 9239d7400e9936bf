import Anthrex.Run.Models

/-!
# Runs

A run with the data its plan's rules and its routes read (`run/model.rs` and the modules
beside it): the tasks in plan order, the frozen profile and limits, the rounds, what the
orchestrator added, the pull requests of its stages, and the operations in flight.
-/

namespace Anthrex

namespace Run

/-- The project's profile. -/
structure Profile where
  modules : List String := []
  hub : List String := []
  source : List String := []
  check : Option String := none
  singleTest : Option String := none
  testPassed : Option String := none
  deriving DecidableEq, Repr

/-- The seconds that a task of a class is expected to take. -/
structure PathWeights where
  sSecs : ℕ
  mSecs : ℕ
  hubSecs : ℕ
  deriving DecidableEq, Repr

/-- The limits of a run, frozen when it starts, with its role table. -/
structure RunLimits where
  maxTasks : ℕ
  reviewSmall : Bool := false
  budgetS : Budget := {}
  budgetM : Budget := {}
  budgetHub : Option Budget := none
  messageMaxPerTurn : ℕ := 0
  plannerTaskCap : ℕ := 0
  stallAfterSecs : ℕ := 0
  models : RunModels
  /-- The weights of history, when the run froze them. -/
  pathWeights : Option PathWeights := none

inductive RunState
  | awaitingApproval
  | running
  | paused
  | halted
  | complete
  | accepted
  | discarded
  | failed
  | planning
  | brainstorming
  | specifying
  deriving DecidableEq, Repr

/-- A state the run never leaves. -/
def RunState.isTerminal : RunState → Bool
  | .accepted | .discarded | .failed => true
  | _ => false

def RunState.label : RunState → String
  | .awaitingApproval => "awaiting_approval"
  | .running => "running"
  | .paused => "paused"
  | .halted => "halted"
  | .complete => "complete"
  | .accepted => "accepted"
  | .discarded => "discarded"
  | .failed => "failed"
  | .planning => "planning"
  | .brainstorming => "brainstorming"
  | .specifying => "specifying"

inductive RunPath
  | fast
  | plan
  | large
  deriving DecidableEq, Repr

inductive StageLayout
  | single
  | multi
  deriving DecidableEq, Repr

/-- One request the run works on. -/
structure Round where
  n : ℕ
  /-- The first stage its tasks may go in. -/
  firstStage : ℕ
  deriving DecidableEq, Repr

inductive PlannerPhase
  | queued
  | planning
  | finished
  | failed (reason : String)
  deriving DecidableEq, Repr

def PlannerPhase.isLive : PlannerPhase → Bool
  | .queued | .planning => true
  | _ => false

/-- A session of a sub-planner, and the operation that starts it. -/
structure PlannerSession where
  windowId : Option ℕ := none
  op : Option ℕ := none
  endedAt : Option ℕ := none
  deriving DecidableEq, Repr

structure EpicRecord where
  epic : String
  phase : PlannerPhase
  /-- The route of its sub-planner. -/
  route : Route
  sessions : List PlannerSession := []
  deriving DecidableEq, Repr

/-- The reviewer of a design document. -/
structure DocReviewer where
  label : String
  route : Route
  deriving DecidableEq, Repr

inductive DesignAgentState
  | queued
  | running
  | submitted
  | done
  | failed (reason : String)
  deriving DecidableEq, Repr

/-- A brainstormer, or the reviewer of the design's documents. -/
structure DesignAgent where
  label : String
  session : ℕ := 1
  windowId : Option ℕ := none
  state : DesignAgentState := .queued
  started : Option ℕ := none
  deriving DecidableEq, Repr

/-- The design phase of a run. -/
structure Design where
  brainstormers : List DesignAgent := []
  reviewer : Option DesignAgent := none
  phaseStarted : Option ℕ := none
  deriving DecidableEq, Repr

/-- When a runtime's writer cap last saw a rate limit, and when it last changed. -/
structure Concurrency where
  lastRateLimitAt : Option ℕ := none
  lastChangeAt : Option ℕ := none
  deriving DecidableEq, Repr

inductive HoldState
  | drafting
  | awaiting
  | approved
  | rejected
  | moot
  deriving DecidableEq, Repr

structure GateHoldRecord where
  id : String
  state : HoldState
  deriving DecidableEq, Repr

/-- The kinds of operation that are looked for among those in flight. -/
inductive OpKind
  | mergeCandidate
  | handBack
  | createWindow
  | startPlanner
  | startDesignAgent (label : String) (session : ℕ) (role : AgentRole)
  | resumeSession (windowId : ℕ) (sessionId : String)
  | other
  deriving DecidableEq, Repr

structure PendingOp where
  op : ℕ
  taskId : Option String
  kind : OpKind
  deriving DecidableEq, Repr

/-- A message to a session, by the address it is for: a task's id is its worker's. -/
structure Outgoing where
  id : ℕ
  windowId : ℕ := 0
  taskId : String
  text : String
  queuedAt : ℕ := 0
  /-- Since when it is in flight. -/
  deliveredAt : Option ℕ := none
  deriving DecidableEq, Repr

/-! ## Delivery -/

inductive DeliveryMode
  | local
  | pr
  deriving DecidableEq, Repr

inductive PrState
  | open
  | merged
  | closed
  deriving DecidableEq, Repr

structure PrRecord where
  number : ℕ
  state : PrState
  deriving DecidableEq, Repr

inductive ThreadState
  | new
  | tasked (task : String)
  | replied (commentId : ℕ)
  | ignored (reason : String)
  deriving DecidableEq, Repr

/-- A review thread of a pull request. -/
structure ThreadRecord where
  key : String
  state : ThreadState
  /-- A writer or a listed reviewer wrote in it. -/
  counted : Bool
  batch : ℕ
  replies : ℕ
  deriving DecidableEq, Repr

structure StageDelivery where
  pr : Option PrRecord := none
  threads : List ThreadRecord := []
  reviewRounds : ℕ := 0
  roundBatch : ℕ := 0
  deriving DecidableEq, Repr

structure RunDelivery where
  mode : DeliveryMode := .local
  replyToComments : Bool := false
  stages : List StageDelivery := []
  deriving DecidableEq, Repr

namespace RunDelivery

/-- Stages count from 1. -/
def stage (d : RunDelivery) (n : ℕ) : Option StageDelivery :=
  if n = 0 then none else d.stages[n - 1]?

def pr (d : RunDelivery) (n : ℕ) : Option PrRecord := (d.stage n).bind (·.pr)

end RunDelivery

/-- A session that moved to its row's fallback. -/
structure FailoverRecord where
  who : String
  src : Route
  dst : Route
  deriving DecidableEq, Repr

end Run

open Run

/-- One orchestration run. -/
structure Run where
  id : String
  state : RunState := .awaitingApproval
  stageLayout : StageLayout := .single
  profile : Profile := {}
  limits : RunLimits
  tasks : List Task := []
  mergeQueue : List String := []
  pendingOps : List PendingOp := []
  protectedFiles : List String := []
  scoutReports : List String := []
  onboardingReport : Option String := none
  rounds : List Round := []
  /-- The route of the orchestrator's own session. -/
  orchestrator : Option Route := none
  epics : List EpicRecord := []
  gateHolds : List GateHoldRecord := []
  docReviewer : Option DocReviewer := none
  /-- What the start found installed, by runtime; one it does not name counts as installed. -/
  installed : List (Runtime × Bool) := []
  delivery : RunDelivery := {}
  failovers : List FailoverRecord := []
  design : Option Design := none
  /-- Since when the orchestrator waits. -/
  waitingSince : Option ℕ := none
  concurrency : List (Runtime × Concurrency) := []
  path : Option RunPath := none
  cancelled : Bool := false
  outbox : List Outgoing := []
  nextMessage : ℕ := 0
  nextOp : ℕ := 0

namespace Run

variable (run : Run)

def models : RunModels := run.limits.models

def task? (id : String) : Option Task := run.tasks.find? (·.id = id)

/-- The first task with the id, by its place. -/
def position (id : String) : Option ℕ := run.tasks.findIdx? (·.id = id)

/-- The number of the current round. -/
def round : ℕ := (run.rounds.getLast?.map (·.n)).getD 1

/-- The round that holds a stage. -/
def roundOfStage (n : ℕ) : ℕ := ((run.rounds.reverse.find? (·.firstStage ≤ n)).map (·.n)).getD 1

def modifyTask (i : ℕ) (f : Task → Task) : Run := { run with tasks := run.tasks.modify i f }

/-- Sends an operation under the next number. -/
def emitOp (taskId : Option String) (kind : OpKind) : Run :=
  { run with
    nextOp := run.nextOp + 1
    pendingOps := run.pendingOps ++ [⟨run.nextOp, taskId, kind⟩] }

end Run

end Anthrex
