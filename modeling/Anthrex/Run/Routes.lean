import Anthrex.Data.Worklist
import Anthrex.Globs
import Anthrex.Run.Model

/-!
# Where a task may move

The overlap rule of the routes (`runtime_open` of `run/model_roles.rs`): a task moves to
another runtime only when no unfinished task on a third one owns files of it. Rung 2 takes
the next route of the task's row that the rule leaves open (`run/role_step.rs`).
-/

namespace Anthrex.Run

open Anthrex.Globs

/-- The start found the runtime not installed. -/
def missing (run : Run) (runtime : Runtime) : Bool := run.installed.lookup runtime = some false

def overlap (a b : Task) : Bool := anyIntersect a.spec.owns b.spec.owns

/-- Whose route is checked: a task's worker, or a session that is not the task's own. -/
inductive Mover
  | worker
  | transient
  deriving DecidableEq, Repr

/-- Who declares to wait for the task at `k`. -/
def dependentsOf (tasks : List Task) (k : ℕ) : List ℕ :=
  match tasks[k]? with
  | none => []
  | some task => (tasks.zipIdx.filter fun t => task.id ∈ t.1.spec.deps).map (·.2)

/-- Who waits for the task at `i` through declared dependencies. -/
def declaredDependents (tasks : List Task) (i : ℕ) : SortedSet ℕ :=
  Worklist.explore (fun k => (dependentsOf tasks k).filter (· ≠ i)) (tasks.length + 1) [i] .empty

/-- The tasks the rule counts against the one at `i`. -/
def alongside (tasks : List Task) (i : ℕ) (mover : Mover) : List Task :=
  let waiting : SortedSet ℕ := match mover with
    | .worker => .empty
    | .transient => declaredDependents tasks i
  (tasks.zipIdx.filter fun t => t.2 ≠ i && !t.1.state.isFinished && t.2 ∉ waiting).map (·.1)

/-- A session on `runtime` may run for the task at `i`: the runtime is the task's own, or it
    is installed and no task the rule counts is on another one and owns the same files. -/
def runtimeOpen (run : Run) (i : ℕ) (task : Task) (runtime : Runtime) (mover : Mover) : Bool :=
  runtime = task.route.runtime ||
    !(missing run runtime || (alongside run.tasks i mover).any fun t =>
      t.route.runtime ≠ runtime && overlap t task)

/-- The next route of a row, past those that failed in the task and the runtimes `isOpen`
    refuses. -/
def step (run : Run) (task : Task) (role : Role) (current : Route) (isOpen : Runtime → Bool) :
    Option Route :=
  let skip := failedRoutes task ++
    (steps run.models role current).filter fun r => !isOpen r.runtime
  escalate run.models role current skip

/-- The route rung 2 gives the task at `i`; with nothing left, its own. -/
def rung2Route (run : Run) (i : ℕ) (task : Task) : Route :=
  (step run task (RunModels.taskRole task) task.route
    fun runtime => runtimeOpen run i task runtime .worker).getD task.route

/-- The route rung 2 gives a task's test writer; with nothing left, its own. -/
def writerStep (run : Run) (i : ℕ) (task : Task) (current : Route) : Route :=
  (step run task .testWriter current
    fun runtime => runtimeOpen run i task runtime .transient).getD current

/-- A task's escalation by rung 2. -/
def rung2 (run : Run) (i : ℕ) (task : Task) : Run :=
  run.modifyTask i fun t => { t with route := rung2Route run i task }

end Anthrex.Run
