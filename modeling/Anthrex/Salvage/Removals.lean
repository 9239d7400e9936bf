import Anthrex.Plan.Rules

/-!
# Removing checkouts

Where the engine removes the checkouts of a run, and under which refs it salvages the work in
them: a cancelled task's (`engine/dispatch.rs`), a merged one's three (`engine/merge.rs`), a
stopped race lane's (`engine/race_salvage.rs`), and all of a run's when it is accepted,
discarded (`engine/complete.rs`) or rejected (`engine/requests.rs`). A salvage ref is numbered
within its task: a removal that is sent on its own takes the task's next number and reserves
it; an accept and a discard count on from there without reserving, since nothing else is sent
while they are under way; a reject counts the refs the task has recorded.

A run is here what these functions read of it. What its other events do is in `Works`.
-/

namespace Anthrex.Salvage

open Anthrex.Run (TaskState LaneState RaceLane AgentRole RunState)

/-! ## Runs -/

structure Session where
  role : AgentRole
  lane : Option RaceLane := none
  ended : Bool := false
  retiring : Bool := false
  windowId : Option ℕ := none
  /-- A restart lost its process. -/
  orphaned : Bool := false
  /-- A Codex session between turns, which has no process. -/
  betweenTurns : Bool := false
  deriving DecidableEq, Repr

/-- One lane of a race, with its own checkout. -/
structure Lane where
  lane : RaceLane
  state : LaneState
  checkout : String
  worktreeLive : Bool := false
  killSentAt : Option ℕ := none
  removed : Bool := false
  kept : Bool := false
  salvageRef : Option String := none
  deriving DecidableEq, Repr

structure Task where
  id : String
  state : TaskState := .pending
  worktree : String
  worktreeLive : Bool := false
  /-- Its checkouts are removed once its writing sessions have exited. -/
  removalDue : Bool := false
  rounds : List Session := []
  /-- The lanes of its race. -/
  lanes : List Lane := []
  crowned : Bool := false
  salvageRefs : List String := []
  /-- The highest number handed out. -/
  salvageSeq : ℕ := 0
  deriving DecidableEq, Repr

inductive OpKind
  | removeWorktree (path salvageRef : String) (keepHead clearLocks keepPath : Bool)
  | accept (worktrees : List (String × String))
  | discard (worktrees : List (String × String))
  | mergeCandidate
  | other
  deriving DecidableEq, Repr

namespace OpKind

def isRemoval : OpKind → Bool
  | .removeWorktree .. => true
  | _ => false

def isFinish : OpKind → Bool
  | .accept _ | .discard _ => true
  | _ => false

end OpKind

structure PendingOp where
  op : ℕ
  taskId : Option String
  lane : Option RaceLane := none
  kind : OpKind
  deriving DecidableEq, Repr

inductive FinishAction
  | accept
  | discard
  deriving DecidableEq, Repr

structure Run where
  id : String
  wtDir : String
  state : RunState := .awaitingApproval
  pausedFrom : Option RunState := none
  /-- The gate of a document before the plan is open. -/
  docGate : Bool := false
  /-- The current round is a later one that has not ended. -/
  openRound : Bool := false
  cancelled : Bool := false
  tasks : List Task := []
  pendingOps : List PendingOp := []
  nextOp : ℕ := 0
  /-- Why a run that delivers pull requests is not finished so. -/
  finishRefusal : FinishAction → Option String := fun _ => none

/-! ## Numbers and refs -/

/-- `parse::<usize>` of decimal text, with a sign or without. -/
def parse (text : List Char) : Option ℕ :=
  let digits := match text with
    | '+' :: rest => rest
    | _ => text
  if digits.isEmpty || !digits.all (·.isDigit) then none else some (Nat.ofDigitChars 10 digits 0)

/-- The text after the last `/`. -/
def lastPart (ref : String) : List Char := ref.toList.rtakeWhile (· ≠ '/')

def salvageRef (runId task : String) (seq : ℕ) : String :=
  "refs/anthrex/salvage/" ++ runId ++ "/" ++ task ++ "/" ++ toString seq

/-- The next number of the task: after the highest recorded one, their count and the highest
    one handed out. -/
def nextSalvageSeq (t : Task) : ℕ :=
  let recorded := max ((t.salvageRefs.filterMap fun r => parse (lastPart r)).foldl max 0)
    t.salvageRefs.length
  max recorded t.salvageSeq + 1

/-! ## Paths -/

namespace Task

def crownedLane (t : Task) : Option RaceLane :=
  if t.crowned then (t.lanes.find? fun l => l.state ∈ [.won, .adopted]).map (·.lane) else none

def writesTask (role : AgentRole) : Bool := role ∈ [.worker, .testWriter, .racer]

/-- A writing session of the task: a racer's only once its lane is crowned. -/
def writes (t : Task) (round : Session) : Bool :=
  match round.role with
  | .racer => round.lane.any fun l => t.crownedLane = some l
  | role => writesTask role

def writerRunning (t : Task) : Bool := t.rounds.any fun r => t.writes r && !r.ended

/-- The name of the task's checkout: its id, until a lane of its race is the task. -/
def checkoutName (t : Task) : String :=
  match t.lanes.find? fun l => l.state ∈ [.won, .adopted] with
  | some lane => lane.checkout
  | none => t.id

end Task

namespace Run

variable (run : Run)

def taskPath (name : String) : String := run.wtDir ++ "/runs/" ++ run.id ++ "/" ++ name

def reviewPath (name : String) : String := run.taskPath (name ++ ".review")

def proofPath (name : String) : String := run.taskPath (name ++ ".proof")

def integrationPath : String := run.taskPath "integration"

def fullPath : String := run.taskPath ".full"

def modifyTask (i : ℕ) (f : Task → Task) : Run := { run with tasks := run.tasks.modify i f }

/-- An `Accept` or a `Discard` is in flight. -/
def finishing : Bool := run.pendingOps.any (·.kind.isFinish)

def opInFlight (task : String) (pred : OpKind → Bool) : Bool :=
  run.pendingOps.any fun p => p.taskId = some task && pred p.kind

def emitOp (taskId : Option String) (kind : OpKind) (lane : Option RaceLane := none) : Run :=
  { run with
    nextOp := run.nextOp + 1
    pendingOps := run.pendingOps ++ [⟨run.nextOp, taskId, lane, kind⟩] }

/-- A removal is sent for the task, under the next of its numbers, which it reserves. -/
def sendRemoval (i : ℕ) (t : Task) (path : String) (keepHead clearLocks keepPath : Bool)
    (lane : Option RaceLane := none) : Run :=
  let seq := nextSalvageSeq t
  (run.modifyTask i fun t => { t with salvageSeq := seq }).emitOp (some t.id)
    (.removeWorktree path (salvageRef run.id t.id seq) keepHead clearLocks keepPath) lane

/-! ## Removals of one task -/

/-- The merged task's checkouts: its own, its review's and its proof's. -/
def removeMerged (i : ℕ) : Run :=
  match run.tasks[i]? with
  | none => run
  | some task =>
    let name := task.checkoutName
    [task.worktree, run.reviewPath name, run.proofPath name].foldl (fun run path =>
      match run.tasks[i]? with
      | none => run
      | some t => run.sendRemoval i t path false false false) run

/-- A merge landed: the task's writing sessions are retired, and its checkouts removed once they
    have exited. -/
def merged (i : ℕ) : Run :=
  let run := run.modifyTask i fun t =>
    { t with
      state := .merged
      rounds := t.rounds.map fun r =>
        if t.writes r && !r.ended && !r.retiring then
          { r with retiring := true, ended := r.betweenTurns }
        else r }
  match run.tasks[i]? with
  | none => run
  | some t =>
    if t.writerRunning then run.modifyTask i fun t => { t with removalDue := true }
    else run.removeMerged i

/-- A merged task whose writing sessions have exited since. -/
def removeMergedWorktree (i : ℕ) : Run :=
  match run.tasks[i]? with
  | none => run
  | some task =>
    if !task.removalDue || task.writerRunning || run.opInFlight task.id OpKind.isRemoval then run
    else (run.modifyTask i fun t => { t with removalDue := false }).removeMerged i

/-- A cancelled task whose worktree is still there, with no session and no operation left. -/
def removeCancelledWorktree (i : ℕ) : Run :=
  match run.tasks[i]? with
  | none => run
  | some task =>
    if task.state ≠ .cancelled || !task.worktreeLive || task.rounds.any (!·.ended) ||
        run.opInFlight task.id fun _ => true then run
    else run.sendRemoval i task task.worktree false false false

/-! ## Race lanes -/

/-- `process::KILL_GRACE` and half a minute. -/
def laneExitWaitSecs : ℕ := 3 + 30

def due (lane : Lane) : Bool := lane.state ∈ [.out, .lost] && !lane.removed && !lane.kept

/-- The lane's checkout may go: `some true` when it must be kept, `some false` when its racer is
    known to have finished, and none while that may still exit in time. -/
def keptBecause (task : Task) (lane : Lane) (now : ℕ) : Option Bool :=
  let racers := task.rounds.filter fun r => r.lane = some lane.lane && r.role = .racer
  let isOpen := racers.any fun r => !r.ended && r.windowId.isSome
  let waited := lane.killSentAt.getD now + laneExitWaitSecs ≤ now
  if isOpen then if waited then some true else none
  else some (racers.any (·.orphaned))

def modifyLane (i : ℕ) (lane : RaceLane) (f : Lane → Lane) : Run :=
  run.modifyTask i fun t =>
    { t with lanes := t.lanes.map fun l => if l.lane = lane then f l else l }

/-- A stopped lane is salvaged, and its checkout removed unless it must be kept. -/
def salvage (now i : ℕ) (lane : RaceLane) : Run :=
  match run.tasks[i]? with
  | none => run
  | some task =>
    match task.lanes.find? (·.lane = lane) with
    | none => run
    | some stopped =>
      match keptBecause task stopped now with
      | none => run
      | some kept =>
        (run.modifyLane i lane ({ · with kept := kept })).sendRemoval i task
          (run.taskPath stopped.checkout) true (!kept) kept (some lane)

def laneOpInFlight (task : Task) (lane : RaceLane) : Bool :=
  run.pendingOps.any fun p => p.taskId = some task.id && p.lane = some lane

def salvageLanes (now i : ℕ) : Run :=
  match run.tasks[i]? with
  | none => run
  | some task =>
    let lanes := (task.lanes.filter fun l => due l && l.worktreeLive).map (·.lane)
    (lanes.filter fun l => !run.laneOpInFlight task l).foldl (salvage · now i) run

/-! ## The pass after every event -/

/-- The removals of one scheduler pass: nothing is sent once the run has ended or is being
    finished. -/
def schedule (now : ℕ) : Run :=
  if run.state.isTerminal || run.finishing then run
  else
    let each := fun (f : Run → ℕ → Run) (run : Run) => (List.range run.tasks.length).foldl f run
    each (salvageLanes · now ·) (each removeMergedWorktree (each removeCancelledWorktree run))

/-! ## Results -/

inductive Result
  | removed (salvaged : Bool)
  | failed
  deriving DecidableEq, Repr

/-- The checkout is gone, unless its lane keeps it. -/
def checkoutRemoved (i : ℕ) (lane : Option RaceLane) (path : String) (salvaged : Option String) : Run :=
  match lane with
  | some lane => run.modifyLane i lane fun l =>
    { l with
      salvageRef := salvaged
      removed := l.removed || !l.kept
      worktreeLive := l.worktreeLive && l.kept }
  | none => run.modifyTask i fun t => if path = t.worktree then { t with worktreeLive := false } else t

/-- A lane whose checkout could not be salvaged keeps it. -/
def checkoutKept (i : ℕ) (lane : Option RaceLane) : Run :=
  match lane with
  | some lane => run.modifyLane i lane ({ · with kept := true, salvageRef := none })
  | none => run

def recordSalvage (i : ℕ) (ref : String) : Run :=
  run.modifyTask i fun t => { t with salvageRefs := t.salvageRefs ++ [ref] }

/-- The result of a removal: a salvaged checkout's ref joins the task's. -/
def removed (p : PendingOp) (path ref : String) (result : Result) : Run :=
  let run := { run with pendingOps := run.pendingOps.eraseP (·.op = p.op) }
  match run.tasks.findIdx? fun t => p.taskId = some t.id with
  | none => run
  | some i =>
    match result with
    | .failed => run.checkoutKept i p.lane
    | .removed false => run.checkoutRemoved i p.lane path none
    | .removed true => (run.checkoutRemoved i p.lane path (some ref)).recordSalvage i ref

/-- The result of an accept or a discard: done, or refused with the run as it was. -/
def finished (p : PendingOp) (done : Option RunState) : Run :=
  { run with
    pendingOps := run.pendingOps.eraseP (·.op = p.op)
    state := done.getD run.state }

/-! ## The whole run -/

/-- The checkouts of a task, its race's other lanes included. -/
def taskCheckouts (task : Task) : List String :=
  let name := task.checkoutName
  [task.worktree, run.reviewPath name, run.proofPath name] ++
    (task.lanes.filter (·.checkout ≠ name)).flatMap fun lane =>
      [run.taskPath lane.checkout, run.reviewPath lane.checkout, run.proofPath lane.checkout]

/-- Every checkout of the run, each with its next salvage ref. -/
def runWorktrees : List (String × String) :=
  (run.tasks.flatMap fun task =>
    let seq := nextSalvageSeq task
    (run.taskCheckouts task).zipIdx.map fun path =>
      (path.1, salvageRef run.id task.id (seq + path.2))) ++
    [(run.integrationPath, salvageRef run.id "integration" 1),
      (run.fullPath, salvageRef run.id "_full" 1)]

def finish (action : FinishAction) : Run :=
  run.emitOp none (match action with
    | .accept => .accept run.runWorktrees
    | .discard => .discard run.runWorktrees)

/-- The discard of a rejected run. -/
def rejectRun : Run :=
  let worktrees := (run.tasks.map fun t =>
    (t.worktree, salvageRef run.id t.id (t.salvageRefs.length + 1))) ++
    [(run.integrationPath, salvageRef run.id "integration" 1)]
  run.emitOp none (.discard worktrees)

/-! ## Rules -/

/-- A lane's salvage is still due. -/
def salvagePending : Bool := run.tasks.any fun t => t.lanes.any fun l => due l && l.worktreeLive

/-- A discard of a cancelled run that halted, with nothing left. -/
def discardable (action : FinishAction) : Bool :=
  action = .discard && run.state = .halted && run.cancelled &&
    run.tasks.all (·.state.isFinished) && run.pendingOps.isEmpty && !run.salvagePending

/-- Whether `rules::finish` lets the request through. -/
def mayFinish (action : FinishAction) : Bool :=
  !run.finishing && !run.state.isTerminal &&
    (run.discardable action || (run.finishRefusal action).isNone) &&
    (run.state = .complete || run.discardable action) &&
    !run.tasks.any fun t =>
      t.rounds.any (fun r => Task.writesTask r.role && !r.ended) || t.removalDue ||
        run.opInFlight t.id OpKind.isRemoval

/-- The run is before its plan's approval: a document's phase, or paused there. -/
def inDocPhase : Bool :=
  run.state ∈ [.brainstorming, .specifying] ||
    (run.state = .paused && run.pausedFrom.any (· ∈ [.brainstorming, .specifying])) || run.docGate

/-- The run is at its gate, or still being planned. -/
def atGate : Bool :=
  run.state = .planning || (run.state = .paused && run.pausedFrom = some .planning) ||
    run.inDocPhase || run.state = .awaitingApproval

/-- Whether `rules::reject` lets the request through. -/
def mayReject : Bool := !run.finishing && run.atGate

end Run

end Anthrex.Salvage
