import Anthrex.Plan.Resolve
import Anthrex.Quota.Book
import Anthrex.Run.Routes

/-!
# Failover

A session whose runtime the quota brake refuses may start on its row's fallback instead
(`run/engine/failover.rs`): a model on another runtime that the gate allows, that is
installed and vetted, that did not fail in the task, that keeps the overlap rule, and that is
no author's for a reviewer. The route is written where the session's route lives, and nothing
switches back.
-/

namespace Anthrex.Engine

open Anthrex.Run hiding id
open Anthrex.Plan Anthrex.Quota

/-! ## The runtimes a run can reach -/

/-- The rows a task can take: its own, and those of the sizes it can be raised to. -/
def taskRoles (t : Task) : List Role :=
  (([.s, .m, .l].filter fun size : Size => t.size.rank ≤ size.rank).map
    (RunModels.roleOf t.spec.kind t.hub)).eraseDups

/-- The levels a task can be reviewed at. -/
def reviewLevels (L : Lib) (run : Run) (t : Task) : List ReviewLevel :=
  let raised := ([.s, .m, .l].filter fun size : Size => t.size.rank ≤ size.rank).filterMap fun size =>
    (resolveTaskLenient L run.profile run.limits
      { t.spec with size := t.spec.size.max size }).1.reviewLevel
  (t.reviewLevel.toList ++ raised).eraseDups

/-- A route with all it escalates to along the rows, past the runtimes not installed. -/
def escalations (run : Run) (roles : List Role) (route : Route) : List Route :=
  (route :: roles.flatMap fun role => steps run.models role route).filter fun r =>
    r.runtime = route.runtime || !missing run r.runtime

/-- The runtimes one task can come to. -/
def taskReach (L : Lib) (run : Run) (t : Task) : List Runtime :=
  let models := run.models
  let reviewer := models.choice .reviewer
  let reviewers := (reviewer.model :: reviewer.fallback.toList).map (·.runtime)
  let roles := taskRoles t
  let racer := if t.spec.race then [models.racerRoute (RunModels.taskRole t) t.route] else []
  let raised := if t.spec.route.model.isNone then (roles.drop 1).map models.route else []
  let worker := (t.route :: racer ++ raised).flatMap (escalations run roles)
  let writer := if t.spec.pair then escalations run [.testWriter] (models.route .testWriter) else []
  t.reviewRoute.toList.map (·.runtime) ++
    (worker ++ writer).flatMap fun route =>
      route.runtime :: if (reviewLevels L run t).isEmpty then [] else reviewers

/-- Every runtime the run can start a session on; `agents` are those of the orchestrator and
    of the sessions it starts. -/
def reachableRuntimes (L : Lib) (agents : Run → List Runtime) (run : Run) : List Runtime :=
  let found := run.tasks.flatMap (taskReach L run) ++ agents run
  [Runtime.claude, .codex].filter (· ∈ found)

/-! ## The gate -/

inductive Refusal
  | held
  | quota (trip : Trip)
  deriving DecidableEq, Repr

/-- One step's answer for each runtime: the hold, and the trips. -/
structure Gate where
  held : Bool
  braked : Runtime → Option Trip

namespace Gate

def refusal (gate : Gate) (runtime : Runtime) : Option Refusal :=
  if gate.held then some .held else (gate.braked runtime).map .quota

def allows (gate : Gate) (runtime : Runtime) : Bool := (gate.refusal runtime).isNone

end Gate

/-! ## Failing over -/

/-- Who starts: a task's session, by its place, or a reader of the run, by its name. -/
inductive Starter
  | worker (i : ℕ)
  | testWriter (i : ℕ)
  | reader (i : ℕ)
  | planner (epic : String)
  | scout (id : String)
  | docReviewer (label : String)
  deriving DecidableEq, Repr

namespace Starter

def place : Starter → Option ℕ
  | .worker i | .testWriter i | .reader i => some i
  | _ => none

/-- The task whose session starts. -/
def task (s : Starter) (run : Run) : Option Task := s.place.bind fun i => run.tasks[i]?

def who (s : Starter) (run : Run) : String :=
  match s with
  | .planner epic => "planner " ++ epic
  | .scout id => "scout " ++ id
  | .docReviewer label => "doc review " ++ label
  | s => ((s.task run).map Task.id).getD ""

end Starter

/-- A session that moves to its row's fallback. -/
structure Failover where
  src : Route
  dst : Route
  trip : Trip
  deriving DecidableEq, Repr

inductive Admit
  | go
  | failOver (f : Failover)
  | wait
  deriving DecidableEq, Repr

/-- The row's fallback, when the session is on the row's own model and the fallback is on
    another runtime that is installed and that the run can reach. -/
def candidate (L : Lib) (agents : Run → List Runtime) (run : Run) (role : Role) (current : Route) :
    Option Route :=
  if !run.models.sameModel current (run.models.route role) then none
  else
    match (run.models.choice role).fallback with
    | none => none
    | some fallback =>
      if fallback.runtime ≠ current.runtime && !missing run fallback.runtime &&
          fallback.runtime ∈ reachableRuntimes L agents run then
        some (RunModels.routeOf fallback none)
      else none

/-- The routes that may have written something a reviewer reads. -/
def authors (run : Run) : List Route :=
  run.orchestrator.toList ++
    run.tasks.flatMap fun t => (t.rounds.filter t.writes).map (·.route)

/-- Where the task's session of a role failed over from, onto `chosen`. -/
def taskFrom (run : Run) (task : Task) (role : Role) (chosen : Route) : Option Route :=
  (run.failovers.reverse.find? fun f =>
    f.who = task.id && f.dst = chosen && run.models.sameModel f.src (run.models.route role)).map
    (·.src)

/-- The route of a test writer that failed over. -/
def writerFailedOver (run : Run) (task : Task) : Option Route :=
  task.writerRoute.filter fun writer => (taskFrom run task .testWriter writer).isSome

/-- The overlap rule for who starts. -/
def keepsOverlap (run : Run) (starter : Starter) (runtime : Runtime) : Bool :=
  match starter, starter.task run with
  | .worker i, some task => runtimeOpen run i task runtime .worker
  | .testWriter i, some task => runtimeOpen run i task runtime .transient
  | _, _ => true

/-- The fallback would be the model that reviews the session's work. -/
def clashesWithReviewer (run : Run) (starter : Starter) (dst : Route) : Bool :=
  let models := run.models
  match starter, starter.task run with
  | .testWriter _, some task => task.reviewRoute.any (models.sameModel · dst)
  | .worker _, some task =>
    task.reviewLevel.isSome &&
      (models.sameModel (reviewerAtLaunch models dst (failedRoutes task)).1 dst ||
        (writerFailedOver run task).any (models.sameModel (models.reviewerRoute dst).1))
  | _, _ => false

def admitSession (L : Lib) (agents : Run → List Runtime) (gate : Gate) (run : Run) (starter : Starter)
    (role : Role) (current : Route) : Admit :=
  match gate.refusal current.runtime, candidate L agents run role current with
  | none, _ => .go
  | some .held, _ => .wait
  | some (.quota _), none => .wait
  | some (.quota trip), some dst =>
    let failed := (starter.task run).any fun t => failedIn run.models (failedRoutes t) dst
    let author := role = .reviewer && (authors run).any (run.models.sameModel · dst)
    if gate.allows dst.runtime && !failed && keepsOverlap run starter dst.runtime && !author &&
        !clashesWithReviewer run starter dst then
      .failOver ⟨current, dst, trip⟩
    else .wait

def failoversKept : ℕ := 32

/-- The failover is recorded, and its route written where the session's route lives. -/
def record (run : Run) (starter : Starter) (f : Failover) : Run :=
  let kept := run.failovers ++ [⟨starter.who run, f.src, f.dst⟩]
  let run := { run with failovers := kept.drop (kept.length - failoversKept) }
  match starter with
  | .worker i => run.modifyTask i fun t =>
      { t with
        route := f.dst
        reviewRoute := t.reviewLevel.map fun _ => (run.models.reviewerRoute f.dst).1 }
  | .testWriter i => run.modifyTask i fun t =>
      { t with writerRoute := t.writerRoute.map fun _ => f.dst }
  | .reader i => run.modifyTask i fun t => { t with route := f.dst }
  | .planner epic =>
    match run.epics.findIdx? (·.epic = epic) with
    | some k => { run with epics := run.epics.modify k fun e => { e with route := f.dst } }
    | none => run
  | .scout _ => run
  | .docReviewer label =>
    { run with docReviewer := run.docReviewer.map fun d =>
        if d.label = label then { d with route := f.dst } else d }

end Anthrex.Engine
