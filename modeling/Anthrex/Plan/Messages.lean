import Anthrex.Run.Model
import Anthrex.Run.SafeText

/-!
# Messages and refreshes

A message reaches the workers it names, each as its state allows (`run/edits_orch.rs`): a
live worker by its outbox, a task not started by its first prompt. One that says to stop and
wait pauses a working task, and the next one lets it work again. A refresh makes a working
task take in the run's head at its next turn.
-/

namespace Anthrex.Plan

open Anthrex.Run

def messageTextMax : ℕ := 4000

def messageTasksMax : ℕ := 20

inductive MessageTarget
  | tasks (ids : List String)
  | stage (n : ℕ)
  | running
  deriving DecidableEq, Repr

/-- Who took a message, who did not and why, and whose outbox carries it. -/
structure MessageOutcome where
  delivered : List String := []
  refused : List (String × String) := []
  queued : List String := []
  text : String := ""
  deriving DecidableEq, Repr

/-- How a task takes a message: through its outbox, in its first prompt, or by working
    again. -/
inductive Takes
  | queue
  | record
  | release
  deriving DecidableEq, Repr

def readerRefusal (task : Task) (why : String) : String :=
  "task " ++ task.id ++ " is a " ++ task.spec.kind.label ++ " task; " ++ why

/-- How the state of the task lets it take a message. -/
def takesHow (task : Task) (kind : MessageKind) : Except String Takes :=
  if task.state = .working then .ok .queue
  else if task.isPaused then
    if kind = .stopAndWait then .error ("task " ++ task.id ++ " is already paused(message)")
    else .ok .release
  else if (task.state = .blocked && task.blockedFor .question) || task.state ∈ [.proof, .check] then
    .ok .queue
  else if task.state ∈ [.pending, .queued, .preparing] then .ok .record
  else .error
    ("task " ++ task.id ++ " is " ++ task.stateLabel ++ "; a message would not reach a worker")

def takes (task : Task) (kind : MessageKind) (limit : ℕ) : Except String Takes :=
  if limit = 0 then
    .error "messages to workers are turned off (orchestrator.message_max_per_turn = 0)"
  else if task.isReader then .error (readerRefusal task "a message would not reach a worker")
  else if kind = .stopAndWait && task.racing then
    .error ("task " ++ task.id ++
      " is racing: it cannot stop and wait; message it or cancel it")
  else
    match takesHow task kind with
    | .error text => .error text
    | .ok how =>
      let waiting := (task.messages.filter (!·.delivered)).length
      if kind = .stopAndWait && task.state ≠ .working then
        .error ("task " ++ task.id ++ " is " ++ task.stateLabel ++
          "; stop_and_wait needs a working task")
      else if limit ≤ waiting then
        .error ("task " ++ task.id ++ " already has " ++ toString waiting ++
          " messages waiting for its next turn")
      else .ok how

/-- A task in an approval hold that is not approved has no session. -/
def held (run : Run) (task : Task) : Bool :=
  task.gateHold.any fun id => run.gateHolds.any fun h => h.id = id && h.state ≠ .approved

def messageError (text : String) : PlanError := ⟨none, "", "42", text⟩

def recipients (run : Run) : MessageTarget → Except PlanError (List String)
  | .stage n =>
    let ofStage := run.tasks.filter (·.spec.stage = n)
    let unfinished := (ofStage.filter (!·.state.isFinished)).map Task.id
    if ofStage.isEmpty then .error (messageError ("stage " ++ toString n ++ " has no task"))
    else if unfinished.isEmpty then
      .error (messageError ("stage " ++ toString n ++ " has no unfinished task"))
    else .ok unfinished
  | .tasks ids =>
    if ids.isEmpty || messageTasksMax < ids.length then
      .error (messageError
        ("message: to must name 1 to " ++ toString messageTasksMax ++ " tasks"))
    else .ok ids.eraseDups
  | .running =>
    .ok ((run.tasks.filter fun t => t.hasLiveWorker && !t.isReader && !held run t).map Task.id)

/-- The recipients that take the message, and the others with their reasons; refused whole
    when none takes it. -/
def planMessage (run : Run) (to' : MessageTarget) (kind : MessageKind) (limit : ℕ) :
    Except PlanError (List (ℕ × Takes) × List (String × String)) :=
  match recipients run to' with
  | .error e => .error e
  | .ok ids =>
    let sorted := ids.map fun id =>
      match run.position id with
      | none => (Sum.inr (id, "no such task " ++ id) : (ℕ × Takes) ⊕ String × String)
      | some i =>
        match (run.tasks[i]?).map (takes · kind limit) with
        | some (.ok how) => .inl (i, how)
        | some (.error reason) => .inr (id, reason)
        | none => .inr (id, "no such task " ++ id)
    let takers := sorted.filterMap Sum.getLeft?
    let refused := sorted.filterMap Sum.getRight?
    if takers.isEmpty then
      let reasons := if refused.isEmpty then "no task has a live worker"
        else "; ".intercalate (refused.map (·.2))
      .error (messageError ("message: no recipient can take it: " ++ reasons))
    else .ok (takers, refused)

/-- A paused task works again. -/
def release (task : Task) : Task :=
  if task.isPaused then { task with state := .working, block := none } else task

/-- The task with the message it took. -/
def takeMessage (message : TaskMessage) (how : Takes) (task : Task) : Task :=
  let task := { task with messages := task.messages ++ [message] }
  let task := if how = .release then release task else task
  if message.kind = .stopAndWait then
    { task with
      state := .blocked
      block := some ⟨.messagePause, "asked to stop and wait: " ++
        String.ofList (message.text.toList.take 120), false⟩ }
  else task

def recordMessage (message : TaskMessage) (s : Run × MessageOutcome) (taker : ℕ × Takes) :
    Run × MessageOutcome :=
  let id := ((s.1.tasks[taker.1]?).map Task.id).getD ""
  (s.1.modifyTask taker.1 (takeMessage message taker.2),
    { s.2 with
      queued := if taker.2 = .record then s.2.queued else s.2.queued ++ [id]
      delivered := s.2.delivered ++ [id] })

def applyMessage (run : Run) (to' : MessageTarget) (text : String) (kind : MessageKind)
    (source : EditSource) (now : ℕ) : Except PlanError (Run × MessageOutcome) :=
  let line := oneLine text.toList
  let text := String.ofList line
  match source with
  | .planner _ => .error (messageError "a sub-planner cannot message workers")
  | _ =>
    if !(1 ≤ line.length && line.length ≤ messageTextMax) then
      .error (messageError
        ("message: text must be 1 to " ++ toString messageTextMax ++ " characters"))
    else
      match planMessage run to' kind run.limits.messageMaxPerTurn with
      | .error e => .error e
      | .ok (takers, refused) =>
        .ok (takers.foldl (recordMessage ⟨now, source, kind, text, false, none⟩)
          (run, { text := text, refused := refused }))

/-! ## Refreshes -/

/-- Why a task cannot be refreshed now. -/
def refreshRefusal (run : Run) (id : String) : Option PlanError :=
  match run.task? id with
  | none => some ⟨some id, "task_id", "13", "no such task"⟩
  | some task =>
    let handBack := run.pendingOps.any fun p => p.taskId = some id && p.kind = .handBack
    let laneRefresh := task.racing && task.race.any fun race => race.lanes.any fun l =>
      l.state ∉ [.out, .lost] && l.refresh.isSome
    let fits := (task.state = .working || task.isPaused) && !task.awaitingDeps &&
      !task.resolving && task.gateOp.isNone && task.mergeOp.isNone && task.refresh.isNone &&
      !laneRefresh && !handBack
    if task.isReader then
      some ⟨some id, "", "42", readerRefusal task "refresh needs a code or docs task"⟩
    else if !fits then
      some ⟨some id, "", "42", "task " ++ id ++ " is " ++ task.stateLabel ++
        "; refresh needs a working or paused task"⟩
    else none

def applyRefresh (run : Run) (id : String) (source : EditSource) : Except PlanError Run :=
  match source with
  | .planner _ => .error ⟨some id, "", "42", "a sub-planner cannot refresh a task"⟩
  | _ =>
    match refreshRefusal run id, run.position id with
    | some error, _ => .error error
    | none, some i => .ok (run.modifyTask i fun t => { t with refresh := some .due })
    | none, none => .error ⟨some id, "", "42", "internal: request precondition changed"⟩

end Anthrex.Plan
