import Anthrex.Plan.Messages
import Anthrex.Plan.Rules
import Anthrex.Plan.Threads

/-!
# Plan edits

A batch of edits (`run/edits.rs` and the modules beside it) is applied in order to a copy of
the run, and the copy is then checked by the rules of the plan: every task that was added,
split in or amended is resolved as a planned one is. Any error refuses the whole batch. What
the engine has to do for an accepted batch comes back as consequences.
-/

namespace Anthrex.Plan

open Anthrex.Run hiding id
open Anthrex.Globs

/-- What an amend names of a task. -/
structure Amend where
  brief : Option String := none
  acceptance : Option (List String) := none
  route : Option RouteSpec := none
  testMode : Option TestMode := none
  testModeReason : Option String := none
  priority : Option Int := none
  size : Option Size := none
  deps : Option (List String) := none
  stage : Option ℕ := none
  race : Option Bool := none
  pair : Option Bool := none
  deriving DecidableEq, Repr

inductive PlanEdit
  | addTask (task : PlanTask) (replaces : List String)
  | splitTask (taskId : String) (into : List PlanTask)
  | cancelTask (taskId : String)
  | amendTask (taskId : String) (amend : Amend)
  | addDep (taskId dep : String)
  | answer (taskId text : String)
  | pause
  | resume
  | finish
  | message (to' : MessageTarget) (text : String) (kind : MessageKind)
  | refresh (taskId : String)
  | replyComment (pr : ℕ) (thread body : String)
  | iterate (goal : String)
  | retry (taskId reason : String)
  | override (taskId reason : String)
  | resumeRun (reason : String) (stage : Option ℕ)
  | approveHold (hold reason : String)
  | acceptRed (stage : ℕ) (reason : String)
  deriving DecidableEq, Repr

/-- What the engine has to do after a batch. -/
inductive EditConsequence
  | cancelLive (taskId : String)
  | deliver (taskId text : String)
  | message (taskId text : String)
  | recipients (outcome : MessageOutcome)
  | routeIgnored
  | pause
  | resume
  | finish
  deriving DecidableEq, Repr

/-! ## Earlier rounds -/

/-- The first edit that reaches into an earlier round: a stage of one, or one of its tasks; a
    task of it that is not finished may still be answered, messaged, refreshed and
    cancelled. -/
def earlierRound (run : Run) (edits : List PlanEdit) : Option PlanError :=
  let first := (run.rounds.getLast?.map (·.firstStage)).getD 1
  let refuse := fun (id : String) (stage : ℕ) => (⟨some id, "", "44",
    "stage " ++ toString stage ++ " belongs to round " ++ toString (run.roundOfStage stage) ++
      ", which is done; put new work in a new stage"⟩ : PlanError)
  let earlier := fun (liveOk : Bool) (id : String) =>
    ((run.task? id).filter fun t => t.round < run.round && (!liveOk || t.state.isFinished)).map
      fun t => refuse id t.spec.stage
  if run.round < 2 then none
  else edits.findSome? fun
    | .addTask task _ => if task.stage < first then some (refuse task.id task.stage) else none
    | .amendTask id amend =>
      match amend.stage.filter (· < first) with
      | some stage => some (refuse id stage)
      | none => earlier false id
    | .splitTask id into =>
      match into.find? fun c => 1 < c.stage && c.stage < first with
      | some child => some (refuse child.id child.stage)
      | none => earlier false id
    | .addDep id _ => earlier false id
    | .cancelTask id | .refresh id | .answer id _ => earlier true id
    | .message (.tasks ids) _ _ => ids.findSome? (earlier true)
    | _ => none

/-! ## The batch -/

structure Batch where
  source : EditSource
  run : Run
  touched : List String := []
  /-- The dependencies the batch adds. -/
  addedDeps : List (String × String) := []
  errors : List PlanError := []
  consequences : List EditConsequence := []
  now : ℕ

namespace Batch

variable (L : Lib) (b : Batch)

def fail (errors : List PlanError) : Batch := { b with errors := b.errors ++ errors }

def consequence (c : EditConsequence) : Batch := { b with consequences := b.consequences ++ [c] }

def modifyTask (i : ℕ) (f : Task → Task) : Batch := { b with run := b.run.modifyTask i f }

/-- The first task with the id, with its place. -/
def withTask (id : String) (k : ℕ → Task → Batch) : Batch :=
  match b.run.tasks.zipIdx.find? (·.1.id = id) with
  | some (task, i) => k i task
  | none => b.fail [⟨some id, "task_id", "13", "no such task"⟩]

def refusal (task : Task) (why : String) : PlanError :=
  ⟨some task.id, "", "13", "task " ++ task.id ++ " is " ++ task.stateLabel ++ "; " ++ why⟩

/-- The refusal, worded for a task that waits only because it races. -/
def unstartedRefusal (task : Task) (tail why : String) : PlanError :=
  match task.startedRefusal tail with
  | some text => ⟨some task.id, "", "13", text⟩
  | none => refusal task why

/-- Only the user cancels or splits what only the user can fix. -/
def userOnlyRefusal (task : Task) (id : String) : Option PlanError :=
  (task.block.filter fun block => block.userOnly && b.source ≠ .user).map fun block =>
    ⟨some id, "", "13", "task " ++ id ++ " waits on something only the user can fix, and they " ++
      "have been alerted: " ++ String.ofList (firstLine block.text.toList)⟩

/-! ### Adding -/

/-- A spec resolved as a planned task is. -/
def resolve (spec : PlanTask) : Batch × Task :=
  let resolved := resolveTaskLenient L b.run.profile b.run.limits spec
  let task := { resolved.1 with
    branch := taskBranch b.run.id spec.id
    notes := resolved.1.notes ++ protectedNotes L spec.owns b.run.protectedFiles }
  let before := b.run.task? spec.id
  let review := applyThreads b.run.delivery task b.source (before.map (·.spec.addresses))
  let task := { review.2.1 with round := (before.map (·.round)).getD b.run.round }
  ({ b with
      run := { b.run with delivery := review.1 }
      errors := b.errors ++ resolved.2 ++ review.2.2
      touched := b.touched ++ [spec.id] }, task)

def addDepsOf (task : Task) : Batch :=
  { b with addedDeps := b.addedDeps ++ task.spec.deps.map fun dep => (task.id, dep) }

def routeIgnored (sent : RouteSpec) : Batch :=
  if sent ≠ {} && .routeIgnored ∉ b.consequences then b.consequence .routeIgnored else b

/-- Only a user's route is kept. -/
def unrouted (spec : PlanTask) : Batch × PlanTask :=
  if b.source ≠ .user then (b.routeIgnored spec.route, { spec with route := {} }) else (b, spec)

def addTask (spec : PlanTask) : Batch :=
  let (b, spec) := b.unrouted spec
  let b := b.fail (reservedNewId spec.id)
  let (b, task) := b.resolve L spec
  let b := b.addDepsOf task
  { b with run := { b.run with tasks := b.run.tasks ++ [task] } }

/-- A sub-planner's task is of its own epic. -/
def owned (spec : PlanTask) : Batch × Option PlanTask :=
  match b.source with
  | .planner epic =>
    if spec.epic.any (· ≠ epic) then
      (b.fail [⟨some spec.id, "epic", "2.epic",
        "a sub-planner adds tasks only to its own epic " ++ epic⟩], none)
    else (b, some { spec with epic := some epic })
  | _ => (b, some spec)

def addOwned (spec : PlanTask) : Batch :=
  match b.owned spec with
  | (b, some spec) => b.addTask L spec
  | (b, none) => b

/-! ### Cancelling -/

/-- A task that declared a cancelled one is blocked. -/
def blockDependent (id : String) (task : Task) : Task :=
  if task.state.isFinished || id ∉ task.spec.deps then task
  else { task with
    state := .blocked
    block := some ⟨.depCancelled, "dependency " ++ id ++ " was cancelled", false⟩ }

/-- The task's merge candidate is in flight. -/
def merging (task : Task) : Bool :=
  task.mergeOp.any fun op => b.run.pendingOps.any fun p => p.op = op && p.kind = .mergeCandidate

/-- Cancels the task, unless its merge is in flight, and blocks its dependents. -/
def cancelAt (i : ℕ) (task : Task) : Batch :=
  if b.merging task then b.modifyTask i fun t => { t with cancelDeferred := true }
  else
    let b := if task.isLive || task.race.isSome then b.consequence (.cancelLive task.id) else b
    let b := b.modifyTask i fun t => { t with state := .cancelled, block := none }
    { b with run := { b.run with
        mergeQueue := b.run.mergeQueue.filter (· ≠ task.id)
        tasks := b.run.tasks.zipIdx.map fun t =>
          if t.2 = i then t.1 else blockDependent task.id t.1 } }

def cancel (id : String) : Batch :=
  b.withTask id fun i task =>
    if task.state.isFinished then
      b.fail [⟨some id, "", "13", "task " ++ id ++ " is " ++ task.stateLabel ++
        "; only unfinished tasks can be cancelled"⟩]
    else
      match b.userOnlyRefusal task id with
      | some error => b.fail [error]
      | none => b.cancelAt i task

/-! ### Splitting -/

/-- A child stays in its parent's stage. -/
def splitChild (parent : ℕ) (child : PlanTask) : PlanTask × List PlanError :=
  ({ child with stage := parent },
    errorIf (child.stage ≠ parent && child.stage ≠ 1)
      ⟨some child.id, "split_task", "4.1", "children stay in their parent's stage"⟩)

/-- The routes of all children are cleared, one by one. -/
def unroutedAll (specs : List PlanTask) : Batch × List PlanTask :=
  specs.foldl (fun s spec => ((s.1.unrouted spec).1, s.2 ++ [(s.1.unrouted spec).2])) (b, [])

def resolveAll (specs : List PlanTask) : Batch × List Task :=
  specs.foldl (fun s spec => ((s.1.resolve L spec).1, s.2 ++ [(s.1.resolve L spec).2])) (b, [])

/-- Who depended on the parent depends on all its children. -/
def replaceDep (id : String) (children : List String) (task : Task) : Task :=
  if task.state.isFinished || id ∉ task.spec.deps then task
  else { task with spec := { task.spec with
    deps := (task.spec.deps.flatMap fun d => if d = id then children else [d]).eraseDups } }

/-- The task makes way for `into`, right after it in plan order. -/
def splitAt (id : String) (into : List PlanTask) (i : ℕ) (task : Task) : Batch :=
  let (b, specs) := b.unroutedAll into
  let placed := specs.map (splitChild task.spec.stage)
  let b := b.fail (placed.flatMap fun c => reservedNewId c.1.id ++ c.2)
  let (b, children) := b.resolveAll L (placed.map (·.1))
  let b := children.foldl addDepsOf b
  let ids := children.map Task.id
  let b := { b with run := { b.run with tasks := b.run.tasks.map (replaceDep id ids) } }
  let b := b.cancelAt i task
  let children := children.map fun c => { c with replaces := [id] }
  { b with run := { b.run with
      tasks := b.run.tasks.take (i + 1) ++ children ++ b.run.tasks.drop (i + 1) } }

def split (id : String) (into : List PlanTask) : Batch :=
  b.withTask id fun i task =>
    if !task.notStarted then
      b.fail [unstartedRefusal task "it cannot be split"
        "only pending, queued or blocked tasks can be split"]
    else
      match b.userOnlyRefusal task id with
      | some error => b.fail [error]
      | none =>
        if into.isEmpty then b.fail [⟨some id, "into", "13", "at least one task is required"⟩]
        else b.splitAt L id into i task

/-- The epic of the task is its sub-planner's while that plans it. -/
def epicBeingPlanned (task : Task) : List PlanError :=
  match task.spec.epic with
  | some epic => errorIf (b.source = .orchestrator &&
      b.run.epics.any fun e => e.epic = epic && e.phase.isLive)
      ⟨some task.id, "epic", "2.epic", "epic " ++ epic ++ " is being planned by its sub-planner"⟩
  | none => []

def ownedAll (specs : List PlanTask) : Batch × Option (List PlanTask) :=
  specs.foldl (fun s spec =>
    ((s.1.owned spec).1, s.2.bind fun l => (s.1.owned spec).2.map fun own => l ++ [own]))
    (b, some [])

def splitOwned (id : String) (into : List PlanTask) : Batch :=
  b.withTask id fun _ task =>
    let planned := b.epicBeingPlanned task
    if !planned.isEmpty then b.fail planned
    else
      let foreign := match b.source with
        | .planner epic => errorIf (task.spec.epic ≠ some epic) ⟨some id, "epic", "2.epic",
            "a sub-planner splits only tasks of its own epic " ++ epic⟩
        | _ => []
      if !foreign.isEmpty then b.fail foreign
      else
        match b.ownedAll into with
        | (b, some into) => b.split L id into
        | (b, none) => b

/-! ### Replacing -/

def replacesMax : ℕ := 12

def replacesError (newId why : String) : PlanError :=
  ⟨some newId, "", "replaces", "replaces: " ++ why⟩

/-- Why `newId` may not replace the task with the id, if it may not. -/
def replaceRefusal (newId id : String) : Option PlanError :=
  let shown := clean id
  match b.run.task? id with
  | none => some (replacesError newId ("no task " ++ shown ++ " in this run"))
  | some task =>
    let foreign := match b.source with
      | .planner epic => if task.spec.epic ≠ some epic then some epic else none
      | _ => none
    match foreign, task.state with
    | some epic, _ => some (replacesError newId (shown ++ " is not in epic " ++ epic))
    | none, .cancelled => none
    | none, .blocked =>
      (b.userOnlyRefusal task id).map fun error => { error with rule := "replaces" }
    | none, _ => some (replacesError newId (shown ++ " is " ++ task.stateLabel ++
        "; only a cancelled or blocked task can be replaced"))

/-- The refusals of all ids; one named again is refused before anything else. -/
def replaceRefusals (newId : String) (ids : List String) : List PlanError :=
  ids.zipIdx.flatMap fun id =>
    if id.1 ∈ ids.take id.2 then [replacesError newId (clean id.1 ++ " is named twice")]
    else (b.replaceRefusal newId id.1).toList

/-- A walk along what each task replaces, back to `src`: the path, and what was visited. -/
def replacesWalk (run : Run) (src : String) :
    ℕ → List String → List String → String → Option (List String) × List String
  | 0, _, visited, _ => (none, visited)
  | fuel + 1, path, visited, id =>
    ((run.task? id).elim [] (·.replaces)).foldl (fun s next =>
      if s.1.isSome then s
      else if next = src then (some path, s.2)
      else if next ∈ s.2 then s
      else replacesWalk run src fuel (path ++ [next]) (s.2 ++ [next]) next) (none, visited)

/-- The cycle through a task in what replaces what. -/
def replacesCycle (run : Run) (src : String) : Option String :=
  let links := (run.tasks.map (·.replaces.length)).foldl (· + ·) 0
  (replacesWalk run src (links + 1) [src] [src] src).1.map fun path =>
    "replaces: " ++ " → ".intercalate (path ++ [src]) ++ " is a cycle"

/-- The last task with the id stores what it replaces. -/
def storeReplaces (newId : String) (ids : List String) : Batch :=
  match (b.run.tasks.zipIdx.reverse.find? (·.1.id = newId)) with
  | some (_, i) => b.modifyTask i fun t => { t with replaces := ids }
  | none => b

/-- A blocked task is cancelled when it is replaced. -/
def cancelReplaced (id : String) : Batch :=
  match b.run.tasks.zipIdx.find? (·.1.id = id) with
  | some (task, i) => if task.state = .blocked then b.cancelAt i task else b
  | none => b

/-- The new task replaces those with the ids. -/
def replaces (newId : String) (ids : List String) : Batch :=
  if ids.isEmpty then b
  else if replacesMax < ids.length then
    b.fail [replacesError newId ("at most " ++ toString replacesMax ++ " tasks, not " ++
      toString ids.length)]
  else
    let refusals := b.replaceRefusals newId ids
    if !refusals.isEmpty then b.fail refusals
    else if b.run.tasks.all (·.id ≠ newId) then b
    else
      let b := b.storeReplaces newId ids
      match replacesCycle b.run newId with
      | some text => b.fail [⟨some newId, "", "replaces", text⟩]
      | none => ids.foldl cancelReplaced b

/-! ### Amending -/

/-- The fields of an amend that need a task not started. -/
def restricted (a : Amend) : List (String × Bool) :=
  [("route", a.route.isSome), ("test_mode", a.testMode.isSome),
    ("test_mode_reason", a.testModeReason.isSome), ("size", a.size.isSome),
    ("deps", a.deps.isSome), ("stage", a.stage.isSome)]

/-- The amend names a field the task's resolution rests on. -/
def reresolves (a : Amend) : Bool :=
  a.route.isSome || a.testMode.isSome || a.testModeReason.isSome || a.size.isSome

def amendRefusals (task : Task) (a : Amend) : List PlanError :=
  if !task.hasStarted then []
  else [("race", a.race), ("pair", a.pair)].flatMap fun named =>
    errorIf named.2.isSome ⟨some task.id, "", "13",
      "task " ++ task.id ++ " has started: its " ++ named.1 ++ " cannot change"⟩

/-- Why a user's route is refused: no model with its runtime or strength, or no effort
    name. -/
def routeRefusal (L : Lib) (source : EditSource) (id : String) (route : RouteSpec) :
    Option PlanError :=
  if route.model.isNone && source = .user && (route.runtime.isSome || route.strength.isSome) then
    let what := if route.runtime.isSome then "runtime" else "strength"
    some ⟨some id, "route.model", "route",
      "choose a model; " ++ what ++ " alone no longer selects one"⟩
  else if route.effort.any fun effort => effort ≠ "" && !validEffort effort then
    some ⟨some id, "route.effort", "route", L.debug (route.effort.getD "") ++
      " is not an effort name (1 to " ++ toString effortMaxChars ++
      " characters of a-z, 0-9, _ and -)"⟩
  else none

/-- The spec as the amend names it; the dependencies come later. -/
def amendSpec (a : Amend) (spec : PlanTask) : PlanTask :=
  { spec with
    brief := a.brief.getD spec.brief
    acceptance := a.acceptance.getD spec.acceptance
    route := (a.route.map fun r => { r with strength := none }).getD spec.route
    testMode := a.testMode.or spec.testMode
    testModeReason := a.testModeReason.or spec.testModeReason
    priority := a.priority.getD spec.priority
    size := a.size.getD spec.size
    stage := a.stage.getD spec.stage
    race := a.race.getD spec.race
    pair := a.pair.getD spec.pair }

/-- Resolves the task again from its amended spec, without undoing the engine: a size it
    raised is a floor, a route it escalated to stays unless the amend names one, and its
    notes stay. -/
def reresolve (i : ℕ) (old : Task) (spec : PlanTask) (routeNamed : Bool) : Batch :=
  let planned := (resolveTaskLenient L b.run.profile b.run.limits old.spec).1
  let escalated := old.route ≠ planned.route
  let engineNotes := old.notes.filter (· ∉ planned.notes)
  let (b, resolved) := b.resolve L { spec with size := spec.size.max (old.raisedSize.getD .s) }
  let route := if escalated && !routeNamed then old.route else resolved.route
  let reviewRoute := resolved.reviewLevel.map fun _ => (b.run.models.reviewerRoute route).1
  b.modifyTask i fun t =>
    { t with
      reviewRoute := reviewRoute
      spec := spec
      size := resolved.size
      hub := resolved.hub
      testMode := resolved.testMode
      reviewLevel := resolved.reviewLevel
      route := route
      budget := resolved.budget
      notes := engineNotes.foldl (fun notes n => if n ∈ notes then notes else notes ++ [n])
        resolved.notes }

/-- Only the spec changes; it is checked as a planned one all the same. -/
def respec (i : ℕ) (spec : PlanTask) : Batch :=
  let (b, resolved) := b.resolve L spec
  b.modifyTask i fun t => { t with spec := resolved.spec }

/-- The task's whole list of dependencies is replaced. -/
def amendDeps (i : ℕ) (deps : List String) : Batch :=
  match b.run.tasks[i]? with
  | none => b
  | some task =>
    let b := { b with addedDeps := b.addedDeps ++ deps.map fun d => (task.id, d) }
    if !task.notStarted then
      b.fail [unstartedRefusal task "its deps cannot change"
        "deps can be amended only on pending, queued or blocked tasks"]
    else
      let list := deps.eraseDups
      let cancelled := b.run.tasks.any fun t => t.id ∈ list && t.state = .cancelled
      let unblocked := task.state = .blocked && task.blockedFor .depCancelled && !cancelled
      b.modifyTask i fun t =>
        let t := { t with spec := { t.spec with deps := list } }
        if unblocked then { t with state := .pending, block := none } else t

def amendMessage (task : Task) : String :=
  "\n".intercalate (["[anthrex] The task was amended.", "Brief: " ++ task.spec.brief,
    "Acceptance criteria:"] ++ task.spec.acceptance.map ("- " ++ ·) ++
    ["Continue with the amended task."])

/-- A new brief or new criteria reach a live worker, and release a paused task. -/
def tellWorker (i : ℕ) : Batch :=
  match b.run.tasks[i]? with
  | none => b
  | some task =>
    if task.hasLiveWorker || task.isPaused then
      (b.consequence (.deliver task.id (amendMessage task))).modifyTask i release
    else b

/-- The amend of a task that passed the refusals. -/
def amendAt (i : ℕ) (task : Task) (a : Amend) : Batch :=
  let spec := amendSpec a task.spec
  let b := if reresolves a then b.reresolve L i task spec a.route.isSome else b.respec L i spec
  let b := a.deps.elim b (b.amendDeps i)
  if a.brief.isSome || a.acceptance.isSome then b.tellWorker i else b

/-- What refuses an amend of the task. -/
def amendErrors (id : String) (task : Task) (a : Amend) : List PlanError :=
  if task.state.isFinished then [refusal task "only unfinished tasks can be amended"]
  else
    let patterns := amendRefusals task a
    let named := (restricted a).filter (·.2)
    if !named.isEmpty && !task.notStarted then
      patterns ++ named.map fun field =>
        unstartedRefusal task ("its " ++ field.1 ++ " cannot change")
          (field.1 ++ " can be amended only on pending, queued or blocked tasks")
    else if a.stage.isSome && task.hasStarted then
      patterns ++ [⟨some id, "", "13", "task " ++ id ++ " has started: its stage cannot change"⟩]
    else if !patterns.isEmpty then patterns
    else (a.route.bind (routeRefusal L b.source id)).toList

/-- An amend that names a field of the task. -/
def amends (a : Amend) : Bool := a ≠ {}

def amendTask (id : String) (a : Amend) : Batch :=
  b.withTask id fun i task =>
    let ignored := a.route.isSome && b.source ≠ .user
    let b := if ignored then a.route.elim b b.routeIgnored else b
    let a := if ignored then { a with route := none } else a
    if !amends a then
      if ignored then b else b.fail [⟨some id, "amend_task", "13", "nothing to amend"⟩]
    else
      let errors := b.amendErrors L id task a
      if !errors.isEmpty then b.fail errors else b.amendAt L i task a

/-! ### The other edits -/

def addDep (id dep : String) : Batch :=
  b.withTask id fun i task =>
    let planned := b.epicBeingPlanned task
    if !planned.isEmpty then b.fail planned
    else if !task.notStarted then
      b.fail [unstartedRefusal task "its deps cannot change"
        "dependencies can be added only on pending, queued or blocked tasks"]
    else
      let b := b.modifyTask i fun t =>
        if dep ∈ t.spec.deps then t else { t with spec := { t.spec with deps := t.spec.deps ++ [dep] } }
      { b with touched := b.touched ++ [id], addedDeps := b.addedDeps ++ [(id, dep)] }

/-- An answered task works again. -/
def answer (id text : String) : Batch :=
  b.withTask id fun i task =>
    if !(task.state = .blocked && task.blockedFor .question) && task.state ≠ .working then
      b.fail [⟨some id, "", "13", "task " ++ id ++ " is " ++ task.stateLabel ++
        "; only blocked(question) or working tasks can be answered"⟩]
    else
      (b.modifyTask i fun t => { t with state := .working, block := none }).consequence
        (.deliver id ("[anthrex] Answer to your question: " ++ text))

def messageKindLabel : MessageKind → String
  | .info => "info"
  | .change => "change"
  | .stopAndWait => "stop_and_wait"

def messageText (source : EditSource) (kind : MessageKind) (text : String) : String :=
  "[anthrex] Message from the " ++ (if source = .user then "user" else "orchestrator") ++ " (" ++
    messageKindLabel kind ++ "): " ++ text

def message (to' : MessageTarget) (text : String) (kind : MessageKind) : Batch :=
  match applyMessage b.run to' text kind b.source b.now with
  | .error error => b.fail [error]
  | .ok (run, outcome) =>
    let text := messageText b.source kind outcome.text
    { b with
      run := run
      consequences := b.consequences ++ outcome.queued.map (.message · text) ++
        [.recipients outcome] }

def refresh (id : String) : Batch :=
  match applyRefresh b.run id b.source with
  | .error error => b.fail [error]
  | .ok run => { b with run := run }

def reply (pr : ℕ) (thread body : String) : Batch :=
  match Plan.replyComment b.run pr thread body b.source with
  | .error error => b.fail [error]
  | .ok delivery => { b with run := { b.run with delivery := delivery } }

/-- An operation of the orchestrator's is misplaced in a batch. -/
def orchOp (op cmd : String) : Batch :=
  let text := match b.source with
    | .user => "op " ++ op ++ " is the orchestrator's; you have " ++ cmd
    | .orchestrator => "retry, override, resume_run, approve_hold and accept_red each come " ++
      "alone in their edit_plan call"
    | .planner _ => "op " ++ op ++ " is not available to a sub-planner"
  b.fail [⟨none, "", "26", text⟩]

def iterate : Batch :=
  let text := match b.source with
    | .user => "use anthrex run iterate to start a round"
    | .orchestrator => "iterate goes in edit_plan's iterate, alone in its call"
    | .planner _ => "a sub-planner cannot iterate a run"
  b.fail [⟨none, "", "43", text⟩]

def apply : PlanEdit → Batch
  | .addTask task replaced => (b.addOwned L task).replaces task.id replaced
  | .splitTask id into => b.splitOwned L id into
  | .cancelTask id => b.cancel id
  | .message to' text kind => b.message to' text kind
  | .refresh id => b.refresh id
  | .amendTask id amend => b.amendTask L id amend
  | .addDep id dep => b.addDep id dep
  | .answer id text => b.answer id text
  | .pause => b.consequence .pause
  | .resume => b.consequence .resume
  | .finish => b.consequence .finish
  | .replyComment pr thread body => b.reply pr thread body
  | .iterate _ => b.iterate
  | .retry _ _ => b.orchOp "retry" "anthrex run retry"
  | .override _ _ => b.orchOp "override" "anthrex run override"
  | .resumeRun _ _ => b.orchOp "resume_run" "anthrex run resume"
  | .approveHold _ _ => b.orchOp "approve_hold" "anthrex run approve --hold"
  | .acceptRed _ _ => b.orchOp "accept_red"
      "the finish edit (anthrex run edit <run> --file ...)"

end Batch

/-! ## The whole edit -/

/-- The task waits: for a dependency of its round that is not merged or reported, or for an
    implicit one that is not finished. -/
def isHeldBack (tasks : List Task) (task : Task) : Bool :=
  (task.spec.deps.any fun d =>
    !(tasks.any fun x => x.id = d && x.round < task.round) &&
      !((byId tasks d).any fun x => x.state = .merged || x.state = .reported)) ||
    task.implicitDeps.any fun d => (byId tasks d).any fun x => !x.state.isFinished

/-- A queued task that waits goes back to pending. -/
def requeueWaiting (run : Run) : Run :=
  { run with tasks := run.tasks.map fun t =>
      if t.state = .queued && isHeldBack run.tasks t then { t with state := .pending } else t }

/-- The batch applied to the run, before it is checked. -/
def runBatch (L : Lib) (run : Run) (edits : List PlanEdit) (source : EditSource) (now : ℕ) :
    Batch :=
  edits.foldl (fun b edit => b.apply L edit) { source := source, run := run, now := now }

/-- The run a batch leads to: the notes on unbacked sizes, the implicit dependencies, and the
    queued tasks that wait now. -/
def settleBatch (b : Batch) (run : Run) : Run :=
  let noted := noteUnbacked b.run run b.source
  requeueWaiting { noted with tasks := fillImplicit noted.tasks }

/-- What the rules find wrong with the run a batch leads to. -/
def batchErrors (b : Batch) (run : Run) (scope : EditScope) : List PlanError :=
  let noted := noteUnbacked b.run run b.source
  validateTasksWith b.run.models b.run.tasks b.touched (some b.addedDeps) scope
      b.run.limits.maxTasks b.run.round ++
    singleLayoutRule b.run ++ checkBatch noted run b.source

def applyEdits (L : Lib) (run : Run) (edits : List PlanEdit) (scope : EditScope)
    (source : EditSource) (now : ℕ) :
    Except (List PlanError) (Run × List EditConsequence) :=
  match earlierRound run edits with
  | some error => .error [error]
  | none =>
    let b := runBatch L run edits source now
    let settled := settleBatch b run
    let found := b.errors ++ batchErrors b run scope
    let errors := if found.isEmpty then combinedCycles settled.tasks else found
    if errors.isEmpty then .ok (settled, b.consequences) else .error errors

/-- A batch is accepted when nothing is wrong, and leads to the run it was checked as. -/
theorem applyEdits_eq_ok {L : Lib} {run run' : Run} {edits : List PlanEdit} {scope : EditScope}
    {source : EditSource} {now : ℕ} {consequences : List EditConsequence} :
    applyEdits L run edits scope source now = .ok (run', consequences) ↔
      earlierRound run edits = none ∧
      (runBatch L run edits source now).errors = [] ∧
      batchErrors (runBatch L run edits source now) run scope = [] ∧
      combinedCycles (settleBatch (runBatch L run edits source now) run).tasks = [] ∧
      settleBatch (runBatch L run edits source now) run = run' ∧
      (runBatch L run edits source now).consequences = consequences := by
  unfold applyEdits
  dsimp only
  generalize runBatch L run edits source now = b
  cases earlierRound run edits with
  | some error => simp
  | none =>
    by_cases hfound : b.errors ++ batchErrors b run scope = []
    · obtain ⟨herrors, hrules⟩ := List.append_eq_nil_iff.1 hfound
      by_cases hcycles : combinedCycles (settleBatch b run).tasks = []
      · simp [herrors, hrules, hcycles]
      · simp [herrors, hrules, hcycles]
    · have hne : ¬(b.errors = [] ∧ batchErrors b run scope = []) :=
        fun h => hfound (List.append_eq_nil_iff.2 h)
      simp only [List.isEmpty_iff, hfound, if_false]
      constructor
      · intro h
        cases h
      · exact fun h => absurd ⟨h.2.1, h.2.2.1⟩ hne

end Anthrex.Plan
