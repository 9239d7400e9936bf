import Mathlib.Order.Lattice

/-!
# Tasks

The planner's task and the task of a run, resolved from it (`proto/src/run.rs`,
`run/model_task.rs`), with the fields the plan's rules read.
-/

namespace Anthrex.Run

/-- Which program a window runs. -/
inductive Runtime
  | claude
  | codex
  | shell
  deriving DecidableEq, Repr

namespace Runtime

def label : Runtime → String
  | .claude => "claude"
  | .codex => "codex"
  | .shell => "shell"

def rank : Runtime → ℕ
  | .claude => 0
  | .codex => 1
  | .shell => 2

theorem rank_injective : Function.Injective rank := by
  intro a b h
  cases a <;> cases b <;> simp_all [rank]

instance : LinearOrder Runtime := LinearOrder.lift' rank rank_injective

end Runtime

inductive Size
  | s
  | m
  | l
  deriving DecidableEq, Repr

namespace Size

def rank : Size → ℕ
  | .s => 0
  | .m => 1
  | .l => 2

def label : Size → String
  | .s => "S"
  | .m => "M"
  | .l => "L"

def max (a b : Size) : Size := if a.rank < b.rank then b else a

/-- One step up. -/
def raised : Size → Size
  | .s => .m
  | _ => .l

end Size

inductive TaskKind
  | code
  | docs
  | research
  | review
  deriving DecidableEq, Repr

namespace TaskKind

def label : TaskKind → String
  | .code => "code"
  | .docs => "docs"
  | .research => "research"
  | .review => "review"

/-- Research and review tasks read and report; they change no file. -/
def isReader (kind : TaskKind) : Bool := kind = .research || kind = .review

end TaskKind

inductive TestMode
  | tdd
  | check
  | none
  deriving DecidableEq, Repr

/-- A plan's route for a task: what it leaves out, the role table fills in. -/
structure RouteSpec where
  runtime : Option Runtime := none
  model : Option String := none
  strength : Option String := none
  effort : Option String := none
  deriving DecidableEq, Repr

/-- A resolved route. The empty effort is the model's default. -/
structure Route where
  runtime : Runtime
  model : String
  effort : String := ""
  deriving DecidableEq, Repr

structure Budget where
  toolCalls : ℕ := 1
  minutes : ℕ := 1
  tokens : Option ℕ := none
  deriving DecidableEq, Repr

/-- A task as planned. -/
structure PlanTask where
  id : String
  title : String := ""
  epic : Option String := none
  kind : TaskKind := .code
  size : Size := .s
  interfaceChange : Bool := false
  testMode : Option TestMode := none
  testModeReason : Option String := none
  owns : List String
  deps : List String := []
  priority : Int := 0
  brief : String := ""
  acceptance : List String := []
  testToWrite : Option String := none
  scoutRefs : List String := []
  route : RouteSpec := {}
  budget : Option Budget := none
  reviewTarget : Option String := none
  stage : ℕ := 1
  atomic : Bool := false
  atomicReason : Option String := none
  addresses : List String := []
  race : Bool := false
  pair : Bool := false
  deriving DecidableEq, Repr

/-- The role of a session. -/
inductive AgentRole
  | orchestrator
  | worker
  | reviewer
  | scout
  | planner
  | decider
  | racer
  | testWriter
  | brainstormer
  | docReviewer
  deriving DecidableEq, Repr

inductive RaceLane
  | a
  | b
  deriving DecidableEq, Repr

def RaceLane.label : RaceLane → String
  | .a => "a"
  | .b => "b"

inductive LaneState
  | preparing
  | working
  | proof
  | check
  | review
  | won
  | adopted
  | lost
  | out
  deriving DecidableEq, Repr

/-- The watchdog on a silent turn. -/
inductive StallState
  | watching
  | interrupted (deadline : ℕ)
  | nudged
  deriving DecidableEq, Repr

def StallState.isInterrupted : StallState → Bool
  | .interrupted _ => true
  | _ => false

/-- What a turn that ended without a claim is followed by: a count of the commits, then a
    nudge. -/
inductive FallbackState
  | none
  | counting
  | nudged (hadCommits : Bool)
  deriving DecidableEq, Repr

/-- A turn that ended on an error of the model's API. -/
inductive FailedTurn
  | none
  | waitingContinue (time : ℕ) (rateLimit : Bool)
  | continueSent (rateLimit : Bool)
  deriving DecidableEq, Repr

/-- A session of a task. -/
structure AgentRound where
  role : AgentRole
  route : Route
  ended : Bool := false
  /-- It ended for a reason of the environment. -/
  environmentFailed : Bool := false
  lane : Option RaceLane := none
  /-- The operation that launches it. -/
  launchOp : ℕ := 0
  windowId : Option ℕ := none
  sessionId : Option String := none
  startedAt : ℕ := 0
  endedAt : Option ℕ := none
  turnOpen : Bool := false
  lastEvent : ℕ := 0
  toolCalls : ℕ := 0
  /-- The tokens it is billed for. -/
  billable : ℕ := 0
  /-- The engine killed the session, or ended it for good. -/
  retiring : Bool := false
  /-- Seconds it is not charged for. -/
  excusedSecs : ℕ := 0
  rateLimitedUntil : Option ℕ := none
  deliveryRetryAt : Option ℕ := none
  countRetryAt : Option ℕ := none
  stall : StallState := .watching
  failedTurn : FailedTurn := .none
  /-- Its number among the sessions of its role. -/
  round : ℕ := 1
  pid : Option ℕ := none
  /-- The process whose exit was last taken. -/
  exitedPid : Option ℕ := none
  turns : ℕ := 0
  /-- How often its process exited in the middle of a turn. -/
  deaths : ℕ := 0
  /-- The watchdog interrupted the open turn. -/
  interrupted : Bool := false
  deliveryFailures : ℕ := 0
  /-- The messages that the resume in flight carries. -/
  carried : List ℕ := []
  resumeOp : Option ℕ := none
  countOp : Option ℕ := none
  /-- The turn that the count was sent for. -/
  countTurn : ℕ := 0
  fallback : FallbackState := .none
  fallbackWaiting : Bool := false
  openSubagents : List String := []
  /-- A restart ended it without an exit of its process. -/
  orphaned : Bool := false
  /-- Why its process died before its first turn said anything. -/
  startupFailure : Option String := none
  sandboxNote : Option String := none
  deriving DecidableEq, Repr

/-- Since when a task's clock is stopped, if it is, and when it last started again. -/
structure TaskClock where
  stopped : Option ℕ := none
  restarted : ℕ := 0
  deriving DecidableEq, Repr

/-- A refresh of a task's worktree that is due, or under way in an operation. -/
inductive RefreshState
  | due
  | inFlight (op : ℕ)
  deriving DecidableEq, Repr

/-- One lane of a race, with the refresh it has of its own. -/
structure Lane where
  lane : RaceLane
  state : LaneState
  refresh : Option RefreshState := none
  clock : TaskClock := {}
  /-- When the engine stopped its racer. -/
  killSentAt : Option ℕ := none
  deriving DecidableEq, Repr

structure Race where
  lanes : List Lane
  winner : Option RaceLane := none
  crowned : Bool := false
  ended : Bool := false
  deriving DecidableEq, Repr

inductive BlockReason
  | misSized
  | human
  | conflict
  | depCancelled
  | question
  | environment
  | messagePause
  deriving DecidableEq, Repr

def BlockReason.label : BlockReason → String
  | .misSized => "mis_sized"
  | .human => "human"
  | .conflict => "conflict"
  | .depCancelled => "dep_cancelled"
  | .question => "question"
  | .environment => "environment"
  | .messagePause => "message_pause"

structure BlockInfo where
  reason : BlockReason
  text : String
  /-- Only the user can fix the cause. -/
  userOnly : Bool := false
  deriving DecidableEq, Repr

/-- Who sent a batch of edits. -/
inductive EditSource
  | user
  | orchestrator
  | planner (epic : String)
  deriving DecidableEq, Repr

inductive MessageKind
  | info
  | change
  | stopAndWait
  deriving DecidableEq, Repr

/-- A message to a task's worker. -/
structure TaskMessage where
  sentAt : ℕ
  source : EditSource
  kind : MessageKind
  text : String
  delivered : Bool := false
  /-- The message of the outbox that carries it. -/
  outbox : Option ℕ := none
  deriving DecidableEq, Repr

/-- A session that is decided on and has not started, with the text that ends its prompt. -/
structure FreshSession where
  reason : String
  append : Option String := none
  deriving DecidableEq, Repr

/-- A claim that the task is done, while it is verified. -/
structure PendingClaim where
  reply : Option ℕ
  windowId : Option ℕ := none
  op : Option ℕ := none
  turn : ℕ := 0
  deriving DecidableEq, Repr

/-- The conflicted hand-back that a claim may be the resolution of. -/
structure ResolutionAt where
  onto : String
  runHead : String
  files : List String
  deriving DecidableEq, Repr

inductive Verdict
  | approve
  | requestChanges
  deriving DecidableEq, Repr

structure ReviewRecord where
  round : ℕ
  head : String
  verdict : Option Verdict := none
  deriving DecidableEq, Repr

inductive ReviewLevel
  | small
  | medium
  | frontier
  deriving DecidableEq, Repr

/-- One level up. -/
def ReviewLevel.raised : ReviewLevel → ReviewLevel
  | .small => .medium
  | _ => .frontier

inductive TaskOrigin
  | plan
  | bisect
  | sync
  | ci
  | review
  deriving DecidableEq, Repr

/-- The review threads a fix task addresses. -/
structure ReviewFix where
  stage : ℕ
  pr : ℕ
  threads : List String
  deriving DecidableEq, Repr

inductive TaskState
  | pending
  | queued
  | preparing
  | working
  | proof
  | check
  | review
  | mergeQueue
  | merged
  | blocked
  | cancelled
  | reported
  deriving DecidableEq, Repr

namespace TaskState

def label : TaskState → String
  | .pending => "pending"
  | .queued => "queued"
  | .preparing => "preparing"
  | .working => "working"
  | .proof => "proof"
  | .check => "check"
  | .review => "review"
  | .mergeQueue => "merge_queue"
  | .merged => "merged"
  | .blocked => "blocked"
  | .cancelled => "cancelled"
  | .reported => "reported"

/-- A state the task never leaves. -/
def isFinished : TaskState → Bool
  | .merged | .cancelled | .reported => true
  | _ => false

end TaskState

/-- A task of a run. -/
structure Task where
  spec : PlanTask
  size : Size := .s
  hub : Bool := false
  testMode : TestMode := .tdd
  notes : List String := []
  reviewLevel : Option ReviewLevel := none
  route : Route
  reviewRoute : Option Route := none
  budget : Budget := {}
  implicitDeps : List String := []
  state : TaskState := .pending
  block : Option BlockInfo := none
  /-- The size rung 3 raised it to. -/
  raisedSize : Option Size := none
  awaitingDeps : Bool := false
  gateOp : Option ℕ := none
  mergeOp : Option ℕ := none
  cancelDeferred : Bool := false
  resolving : Bool := false
  startCommit : Option String := none
  rounds : List AgentRound := []
  gateHold : Option String := none
  /-- The epic an integration review made by the engine is of. -/
  integrationOf : Option String := none
  messages : List TaskMessage := []
  refresh : Option RefreshState := none
  origin : TaskOrigin := .plan
  fixes : Option ReviewFix := none
  /-- The round of the run the task belongs to. -/
  round : ℕ := 1
  race : Option Race := none
  /-- The route of a paired task's test writer. -/
  writerRoute : Option Route := none
  /-- The task is shown as one lane of its race. -/
  laneView : Option RaceLane := none
  replaces : List String := []
  clock : TaskClock := {}
  branch : String := ""
  /-- The head of its branch, as the last claim has it. -/
  head : Option String := none
  mergeCommit : Option String := none
  /-- The claim that is being verified. -/
  claim : Option PendingClaim := none
  freshSession : Option FreshSession := none
  reviews : List ReviewRecord := []
  /-- Review sessions in a row that ended without a verdict. -/
  reviewMisses : ℕ := 0
  /-- The worker resolves a conflict of the claimed commit. -/
  handedBack : Bool := false
  resolution : Option ResolutionAt := none
  failures : ℕ := 0
  stalls : ℕ := 0
  rung : ℕ := 0
  /-- The test writer of a paired task is at work. -/
  writing : Bool := false
  /-- What ends the prompt of a research session's first turn. -/
  researchAppend : Option String := none
  /-- How often the orchestrator retried it. -/
  orchRetries : ℕ := 0
  deriving DecidableEq, Repr

namespace Task

def id (t : Task) : String := t.spec.id

def isActive (t : Task) : Bool := !t.state.isFinished

/-- A task that has started: its worktree exists. -/
def underWay (t : Task) : Bool :=
  (match t.state with
    | .preparing | .working | .proof | .check | .review | .mergeQueue => true
    | _ => false) || (t.state = .blocked && t.startCommit.isSome)

/-- A race that is neither crowned nor over, with a winner or a live lane. -/
def racing (t : Task) : Bool :=
  t.race.any fun race =>
    !race.crowned && !race.ended && (race.winner.isSome || race.lanes.any fun l =>
      l.state ∈ [.preparing, .working, .proof, .check, .review])

/-- The lane that became the task. -/
def crownedLane (t : Task) : Option RaceLane :=
  (t.race.filter (·.crowned)).bind fun race =>
    (race.lanes.find? fun l => l.state ∈ [.won, .adopted]).map (·.lane)

/-- The session writes the task: a racer's only in its lane's view, or once crowned. -/
def writes (t : Task) (round : AgentRound) : Bool :=
  match round.role with
  | .racer => t.laneView.isSome || round.lane.any fun l => t.crownedLane = some l
  | .worker | .testWriter => true
  | _ => false

def blockedFor (t : Task) (reason : BlockReason) : Bool := t.block.any (·.reason = reason)

/-- Blocked by a message to stop and wait. -/
def isPaused (t : Task) : Bool := t.state = .blocked && t.blockedFor .messagePause

def isWaiting (t : Task) : Bool := t.state ∈ [.pending, .queued, .blocked]

/-- Its route, size, test mode and dependencies may change. -/
def notStarted (t : Task) : Bool := t.isWaiting && !t.isPaused && t.race.isNone

/-- The refusal for a task that waits only because it was dispatched as a race. -/
def startedRefusal (t : Task) (tail : String) : Option String :=
  if t.isWaiting && t.race.isSome then some ("task " ++ t.id ++ " has started: " ++ tail) else none

def hasStarted (t : Task) : Bool := !t.notStarted || t.startCommit.isSome

/-- A session or an operation has to be stopped when the task is cancelled. -/
def isLive (t : Task) : Bool :=
  t.state ∈ [.preparing, .working, .proof, .check, .review, .mergeQueue] || t.rounds.any (!·.ended)

/-- A research or review task: it changes no file. -/
def isReader (t : Task) : Bool := t.spec.kind.isReader

def hasLiveWorker (t : Task) : Bool :=
  t.state = .working || t.rounds.any fun r => t.writes r && !r.ended

def stateLabel (t : Task) : String :=
  match t.state, t.block with
  | .blocked, some block => "blocked(" ++ block.reason.label ++ ")"
  | state, _ => state.label

end Task

/-- What a rule of the plan refuses: the task and the field it names, the rule, and the
    text. -/
structure PlanError where
  task : Option String
  field : String
  rule : String
  message : String
  deriving DecidableEq, Repr

/-- The line a reply prints. -/
def PlanError.text (e : PlanError) : String :=
  if e.field = "" then e.message
  else
    match e.task with
    | some id => "task " ++ id ++ ": " ++ e.field ++ ": " ++ e.message
    | none => e.field ++ ": " ++ e.message

end Anthrex.Run
