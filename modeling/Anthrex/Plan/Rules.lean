import Anthrex.Plan.Cycles
import Anthrex.Plan.Resolve

/-!
# The rules of a plan

What is checked of the whole list of tasks, whoever planned them (`validate_tasks_with` of
`run/validate_graph.rs`, with the stage rules, the race and pair rules and the cap on the
briefs): ids, dependencies, the size, the runtimes of tasks that own the same files, and the
area of an edit. The orchestrator's and the sub-planners' batches meet the rules of
`run/orch/rules.rs` too, and no batch reaches into an earlier round.
-/

namespace Anthrex.Plan

open Anthrex.Run Anthrex.Globs

/-- Where an edit may reach. -/
inductive EditScope
  | run
  | area (globs : List String)
  deriving DecidableEq, Repr

/-- The first task with the id. -/
def byId (tasks : List Task) (id : String) : Option Task := tasks.find? (·.id = id)

/-! ## One task among the others -/

def countErrors (tasks : List Task) (maxTasks round : ℕ) : List PlanError :=
  let counted := (tasks.filter fun t => t.state ≠ .cancelled && t.round = round).length
  errorIf (maxTasks < counted) ⟨none, "tasks", "range",
    toString counted ++ " tasks exceed max_tasks (" ++ toString maxTasks ++ ")"⟩

def areaErrors : EditScope → List PlanError
  | .run => []
  | .area globs => globs.flatMap fun glob => errorIf (!isValidAreaGlob glob)
      ⟨none, "area", "12.1", glob ++ " must be <literal>/** or a literal path"⟩

/-- Every dependency is a task; one on a cancelled task of no earlier round is refused where
    `added` says that it is new. -/
def depErrors (tasks : List Task) (added : String → String → Bool) (task : Task) :
    List PlanError :=
  task.spec.deps.flatMap fun dep =>
    match byId tasks dep with
    | none => [⟨some task.id, "deps", "12.1", dep ++ " is not a task"⟩]
    | some d => errorIf (d.state = .cancelled && task.round ≤ d.round && added task.id dep)
        ⟨some task.id, "deps", "12.1", dep ++ " is cancelled"⟩

def sizeClass (task : Task) : String :=
  match RunModels.taskRole task with
  | .implementerSmall => "S"
  | .implementerMedium => "M"
  | .implementerHub => "hub"
  | role => role.key

def runtimesMessage (models : RunModels) (earlier task : Task) (glob : String) : String :=
  let earlierRuntime := (plannedRuntime models earlier).label
  let runtime := (plannedRuntime models task).label
  "overlaps task " ++ earlier.id ++ "'s owns (" ++ glob ++ ") and the two tasks run on different" ++
    " runtimes (" ++ earlierRuntime ++ ", " ++ runtime ++ "): the role table runs size " ++
    sizeClass earlier ++ " on " ++ earlierRuntime ++ " and size " ++ sizeClass task ++ " on " ++
    runtime ++ "; give them the same size or separate owns (rule 9)"

/-- Rule 9, for a task and one before it: on different planned runtimes they own nothing in
    common. Only a pair with a touched task is checked. -/
def runtimesError (models : RunModels) (touched : List String) (task earlier : Task) :
    Option PlanError :=
  if plannedRuntime models earlier = plannedRuntime models task ||
      !(task.id ∈ touched || earlier.id ∈ touched) then none
  else
    (earlier.spec.owns.find? fun g => task.spec.owns.any fun o => intersects g o).map fun glob =>
      ⟨some task.id, "owns", "9", runtimesMessage models earlier task glob⟩

def insideErrors (scope : EditScope) (task : Task) : List PlanError :=
  match scope with
  | .run => []
  | .area area => task.spec.owns.flatMap fun glob => errorIf (!insideArea glob area)
      ⟨some task.id, "owns", "12.1", glob ++ " is outside the area " ++ ", ".intercalate area⟩

/-- What is wrong with an unfinished task, after the tasks `before` it. -/
def taskErrors (models : RunModels) (tasks : List Task) (touched : List String)
    (addedDeps : Option (List (String × String))) (scope : EditScope) (before : List Task)
    (task : Task) : List PlanError :=
  let isTouched := decide (task.id ∈ touched)
  let added := fun id dep =>
    match addedDeps with
    | none => isTouched
    | some added => decide ((id, dep) ∈ added)
  errorIf (task.id ∈ before.map Task.id)
      ⟨some task.id, "id", "id", task.id ++ " is used by an earlier task"⟩ ++
    depErrors tasks added task ++
    errorIf (isTouched && task.size = .l) ⟨some task.id, "size", "7.2.4",
      "L tasks are never executed; split the task (rule 7.2.4)"⟩ ++
    (before.filter Task.isActive).filterMap (runtimesError models touched task) ++
    if isTouched then insideErrors scope task else []

/-! ## Stages, races and pairs -/

/-- Stages: no dependency on a later one, no gap, at most one atomic task in each. -/
def stageRules (tasks : List Task) : List PlanError :=
  let late := (tasks.filter Task.isActive).flatMap fun task =>
    task.spec.deps.flatMap fun dep =>
      match byId tasks dep with
      | none => []
      | some d => errorIf (task.spec.stage < d.spec.stage) ⟨some task.id, "stage", "4.1",
          "stage " ++ toString task.spec.stage ++ " cannot depend on " ++ dep ++ " in stage " ++
            toString d.spec.stage⟩
  let used := (tasks.map (·.spec.stage)).filter fun s => 1 ≤ s && s ≤ stagesMax
  let gaps := (List.range (used.foldl max 0)).flatMap fun k =>
    errorIf (1 ≤ k && k ∉ used) ⟨none, "stage", "4.1",
      "stages must be numbered from 1 without gaps: stage " ++ toString k ++ " has no task"⟩
  let atomic := tasks.filter fun t => t.spec.atomic && t.state ≠ .cancelled
  let twice := atomic.zipIdx.flatMap fun task =>
    match (atomic.take task.2).find? (·.spec.stage = task.1.spec.stage) with
    | none => []
    | some other => [⟨some task.1.id, "atomic", "4.3", "stage " ++ toString task.1.spec.stage ++
        " already has the atomic task " ++ other.id⟩]
  late ++ gaps ++ twice

def patternRules (task : Task) : List PlanError :=
  let spec := task.spec
  (if spec.race then
      (if spec.kind ≠ .code then
          [⟨some task.id, "race", "4.1.race", "only code tasks can race (rule 4.1.race)"⟩]
        else errorIf task.hub ⟨some task.id, "race", "4.1.race",
          "a hub task cannot race, because a hub runs alone (rule 4.1.race)"⟩) ++
        errorIf spec.pair
          ⟨some task.id, "pair", "4.1", "a task cannot both race and pair (rule 4.1)"⟩
    else []) ++
    if spec.pair then
      errorIf (task.testMode ≠ .tdd) ⟨some task.id, "pair", "4.1.pair",
          "a paired task needs test mode tdd (rule 4.1.pair)"⟩ ++
        errorIf (spec.testToWrite.all isBlank) ⟨some task.id, "pair", "4.1.pair",
          "name the test the test writer writes in test_to_write (rule 4.1.pair)"⟩
    else []

/-- The race and pair rules, on the touched tasks that have not started. -/
def patterns (tasks : List Task) (touched : List String) : List PlanError :=
  (tasks.filter fun t => !t.hasStarted && t.id ∈ touched).flatMap patternRules

def planBriefsMaxBytes : ℕ := 4 * 1024 * 1024

def briefsTotal (tasks : List Task) : List PlanError :=
  let total := (tasks.map (·.spec.brief.utf8ByteSize)).foldl (· + ·) 0
  errorIf (planBriefsMaxBytes < total) ⟨none, "", "fields", "the plan's briefs total " ++
    toString total ++ " bytes; at most " ++ toString planBriefsMaxBytes⟩

/-! ## The whole list -/

def validateTasksWith (models : RunModels) (tasks : List Task) (touched : List String)
    (addedDeps : Option (List (String × String))) (scope : EditScope) (maxTasks round : ℕ) :
    List PlanError :=
  countErrors tasks maxTasks round ++ areaErrors scope ++
    tasks.zipIdx.flatMap (fun task =>
      if task.1.isActive then
        taskErrors models tasks touched addedDeps scope (tasks.take task.2) task.1
      else []) ++
    stageRules tasks ++ patterns tasks touched ++ cycles tasks ++ briefsTotal tasks

/-- The tasks of a run approved with one stage stay in it. -/
def singleLayoutRule (run : Run) : List PlanError :=
  if run.stageLayout ≠ .single ||
      run.state ∈ [.brainstorming, .specifying, .planning, .awaitingApproval] then []
  else (run.tasks.filter fun t => t.isActive && 1 < t.spec.stage).map fun t =>
    ⟨some t.id, "stage", "4.1",
      "this run was approved with one stage; its tasks stay in stage 1"⟩

/-! ## Batches of the orchestrator and the sub-planners -/

/-- The tasks a batch changed: the new ones, and those it gave another size. -/
def changed (run before : Run) : List (Task × Bool) :=
  (run.tasks.filter (·.state ≠ .cancelled)).filterMap fun t =>
    match byId before.tasks t.id with
    | none => some (t, true)
    | some old => if old.spec.size ≠ t.spec.size then some (t, false) else none

def changesFiles (task : Task) : Bool := !task.isReader

def hasReports (run : Run) : Bool := !run.scoutReports.isEmpty || run.onboardingReport.isSome

def isReport (run : Run) (reference : String) : Bool :=
  reference ∈ run.scoutReports || (reference = "onboarding" && run.onboardingReport.isSome)

/-- Ends in `-int` and digits. -/
def isIntegrationId (id : String) : Bool :=
  let n := id.toList.reverse.takeWhile (·.isDigit)
  !n.isEmpty && "-int".toList.reverse <+: id.toList.reverse.drop n.length

def changedErrors (run : Run) (source : EditSource) (task : Task) (new : Bool) :
    List PlanError :=
  errorIf (new && task.integrationOf.isNone && isIntegrationId task.id)
      ⟨some task.id, "id", "5.3.reserved",
        "ids ending in -int<n> are reserved for integration reviews"⟩ ++
    (match new, task.spec.epic with
      | true, some epic =>
        match run.epics.find? (·.epic = epic) with
        | none => [⟨some task.id, "epic", "2.epic",
            epic ++ " is not an epic of this run; create it with spawn_subplanner"⟩]
        | some record => errorIf (source = .orchestrator && record.phase.isLive)
            ⟨some task.id, "epic", "2.epic",
              "epic " ++ epic ++ " is being planned by its sub-planner"⟩
      | _, _ => []) ++
    errorIf task.spec.budget.isSome ⟨some task.id, "budget", "7.1.budget",
      "budgets come from the task's size; leave budget out (rule 7.1)"⟩ ++
    errorIf (changesFiles task && hasReports run && task.spec.scoutRefs.isEmpty)
      ⟨some task.id, "scout_refs", "7.1.evidence",
        "name the scout reports this task's size rests on (rule 7.1)"⟩ ++
    task.spec.scoutRefs.flatMap fun reference => errorIf (!isReport run reference)
      ⟨some task.id, "scout_refs", "7.1.evidence",
        reference ++ " is not a finished scout report of this run"⟩

/-- The groups the cap counts: the orchestrator's, and one for each epic. -/
def groups (run : Run) : List (Option String) :=
  (run.tasks.filter fun t => t.state ≠ .cancelled && t.integrationOf.isNone).map (·.spec.epic)

def groupLE (a b : Option String) : Bool :=
  match a, b with
  | none, _ => true
  | some _, none => false
  | some a, some b => a ≤ b

/-- An integration review of the epic has reported. -/
def integrationReviewed (before : Run) (epic : String) : Bool :=
  before.tasks.any fun t => t.integrationOf = some epic && t.state = .reported

def caps (run before : Run) (source : EditSource) : List PlanError :=
  let cap := run.limits.plannerTaskCap
  ((groups run).eraseDups.insertionSort (groupLE · ·)).flatMap fun group =>
    let n := (groups run).count group
    let exempt := source = .orchestrator && group.any (integrationReviewed before)
    let message := match group with
      | none => "the orchestrator's plan has " ++ toString n ++
        " tasks, more than planner_task_cap (" ++ toString cap ++
        "); plan the rest through sub-planners (rule 5.1)"
      | some e => "epic " ++ e ++ " has " ++ toString n ++
        " tasks, more than planner_task_cap (" ++ toString cap ++ "); split the epic (rule 5.1)"
    errorIf (!(n ≤ cap || n ≤ (groups before).count group) && !exempt)
      ⟨none, "tasks", "5.1.cap", message⟩

def checkBatch (run before : Run) (source : EditSource) : List PlanError :=
  if source = .user then []
  else (changed run before).flatMap (fun t => changedErrors run source t.1 t.2) ++
    caps run before source

def unbackedNote : String := "size not backed by a scout report"

/-- With no scout report in the run, each task a batch added or resized says so. -/
def noteUnbacked (run before : Run) (source : EditSource) : Run :=
  if source = .user || hasReports run then run
  else
    let ids := ((changed run before).filter fun t => changesFiles t.1).map (·.1.id)
    { run with tasks := run.tasks.map fun t =>
        if t.id ∈ ids && unbackedNote ∉ t.notes then { t with notes := t.notes ++ [unbackedNote] }
        else t }

/-! ## Plan files -/

def taskBranch (runId task : String) : String := "anthrex/" ++ runId ++ "/" ++ task

/-- A planned task of a new run: a plan file's route is not kept. -/
def buildTask (L : Lib) (run : Run) (spec : PlanTask) : Task × List PlanError :=
  let resolved := resolveTaskLenient L run.profile run.limits { spec with route := {} }
  ({ resolved.1 with
      branch := taskBranch run.id spec.id
      notes := resolved.1.notes ++ protectedNotes L spec.owns run.protectedFiles },
    resolved.2 ++ reservedNewId spec.id)

/-- The run of a plan (`build_run` of `run/plan.rs`), which is `run` but for its tasks;
    `planErrors` is what is wrong with the plan's other fields. -/
def buildRun (L : Lib) (planErrors : List PlanError) (run : Run) (specs : List PlanTask) :
    Except (List PlanError) Run :=
  let built := specs.map (buildTask L run)
  let tasks := built.map (·.1)
  let errors := planErrors ++ built.flatMap (·.2) ++
    validateTasksWith run.models tasks (tasks.map Task.id) none .run run.limits.maxTasks 1
  if !errors.isEmpty then .error errors
  else
    let found := combinedCycles (fillImplicit tasks)
    if !found.isEmpty then .error found else .ok { run with tasks := fillImplicit tasks }

/-! ## What the rules give -/

@[simp] theorem errorIf_eq_nil {bad : Bool} {e : PlanError} : errorIf bad e = [] ↔ bad = false := by
  cases bad <;> simp [errorIf]

variable {models : RunModels} {tasks : List Task} {touched : List String}
  {addedDeps : Option (List (String × String))} {scope : EditScope} {maxTasks round : ℕ}
  {i j : ℕ} {a b : Task}

theorem taskErrors_eq_nil
    (h : validateTasksWith models tasks touched addedDeps scope maxTasks round = [])
    (ha : tasks[i]? = some a) (hactive : a.isActive) :
    taskErrors models tasks touched addedDeps scope (tasks.take i) a = [] := by
  simp only [validateTasksWith, List.append_eq_nil_iff, List.flatMap_eq_nil_iff] at h
  have hmem : (a, i) ∈ tasks.zipIdx := List.mem_zipIdx_iff_getElem?.2 ha
  simpa only [hactive, if_true] using h.1.1.1.1.2 (a, i) hmem

/-- An unfinished task is the first with its id. -/
theorem eq_of_id_eq
    (h : validateTasksWith models tasks touched addedDeps scope maxTasks round = [])
    (ha : tasks[i]? = some a) (hb : tasks[j]? = some b) (hactive : a.isActive)
    (hactive' : b.isActive) (hid : a.id = b.id) : i = j := by
  have key : ∀ {i j : ℕ} {a b : Task}, tasks[i]? = some a → tasks[j]? = some b → b.isActive →
      a.id = b.id → ¬i < j := by
    intro i j a b ha hb hactive hid hlt
    have hnil := taskErrors_eq_nil h hb hactive
    simp only [taskErrors, List.append_eq_nil_iff, errorIf_eq_nil, decide_eq_false_iff_not] at hnil
    refine hnil.1.1.1.1 (List.mem_map.2 ⟨a, ?_, hid⟩)
    exact List.mem_of_getElem? (i := i) (by rw [List.getElem?_take_of_lt hlt, ha])
  exact Nat.le_antisymm (Nat.not_lt.1 (key hb ha hactive hid.symm))
    (Nat.not_lt.1 (key ha hb hactive' hid))

theorem plannedRuntime_eq_of_runtimesError (h : runtimesError models touched a b = none)
    (htouched : a.id ∈ touched ∨ b.id ∈ touched) (howns : anyIntersect b.spec.owns a.spec.owns) :
    plannedRuntime models b = plannedRuntime models a := by
  by_contra hne
  have hpair : (decide (a.id ∈ touched) || decide (b.id ∈ touched)) = true := by simpa using htouched
  simp only [runtimesError, hne, hpair, decide_false, Bool.not_true, Bool.or_self,
    Bool.false_eq_true, if_false, Option.map_eq_none_iff, List.find?_eq_none] at h
  obtain ⟨g, hg, hany⟩ := List.any_eq_true.1 howns
  exact h g hg hany

/-- Rule 9: a touched task is planned on the runtime of every task it shares files with. -/
theorem plannedRuntime_eq
    (h : validateTasksWith models tasks touched addedDeps scope maxTasks round = [])
    (ha : a ∈ tasks) (hb : b ∈ tasks) (hactive : a.isActive) (hactive' : b.isActive)
    (htouched : a.id ∈ touched ∨ b.id ∈ touched) (howns : anyIntersect a.spec.owns b.spec.owns) :
    plannedRuntime models a = plannedRuntime models b := by
  have key : ∀ {i j : ℕ} {a b : Task}, tasks[i]? = some a → tasks[j]? = some b → a.isActive →
      b.isActive → (b.id ∈ touched ∨ a.id ∈ touched) → anyIntersect a.spec.owns b.spec.owns →
      i < j → plannedRuntime models a = plannedRuntime models b := by
    intro i j a b ha hb hactive hactive' htouched howns hlt
    have hnil := taskErrors_eq_nil h hb hactive'
    simp only [taskErrors, List.append_eq_nil_iff, List.filterMap_eq_nil_iff] at hnil
    refine plannedRuntime_eq_of_runtimesError (hnil.1.2 a ?_) htouched howns
    refine List.mem_filter.2 ⟨?_, hactive⟩
    exact List.mem_of_getElem? (i := i) (by rw [List.getElem?_take_of_lt hlt, ha])
  obtain ⟨i, hi⟩ := List.mem_iff_getElem?.1 ha
  obtain ⟨j, hj⟩ := List.mem_iff_getElem?.1 hb
  rcases Nat.lt_trichotomy i j with hlt | rfl | hlt
  · exact key hi hj hactive hactive' htouched.symm howns hlt
  · rw [Option.some.inj (hi.symm.trans hj)]
  · exact (key hj hi hactive' hactive htouched (anyIntersect_comm a.spec.owns _ ▸ howns) hlt).symm

/-- A plan is accepted when nothing is wrong. -/
theorem buildRun_eq_ok {L : Lib} {planErrors : List PlanError} {run run' : Anthrex.Run}
    {specs : List PlanTask} :
    buildRun L planErrors run specs = .ok run' ↔
      planErrors = [] ∧ (specs.flatMap fun spec => (buildTask L run spec).2) = [] ∧
      validateTasksWith run.models (specs.map fun spec => (buildTask L run spec).1)
        ((specs.map fun spec => (buildTask L run spec).1).map Task.id) none .run
        run.limits.maxTasks 1 = [] ∧
      combinedCycles (fillImplicit (specs.map fun spec => (buildTask L run spec).1)) = [] ∧
      { run with tasks := fillImplicit (specs.map fun spec => (buildTask L run spec).1) } = run' := by
  have htasks : (specs.map (buildTask L run)).map (·.1) =
      specs.map fun spec => (buildTask L run spec).1 := by
    rw [List.map_map]
    rfl
  have herrors : (specs.map (buildTask L run)).flatMap (·.2) =
      specs.flatMap fun spec => (buildTask L run spec).2 := by
    rw [List.flatMap_map]
  unfold buildRun
  dsimp only
  rw [htasks, herrors]
  generalize (specs.map fun spec => (buildTask L run spec).1) = tasks
  generalize (specs.flatMap fun spec => (buildTask L run spec).2) = errors
  generalize validateTasksWith run.models tasks (tasks.map Task.id) none .run run.limits.maxTasks 1 =
    invalid
  generalize combinedCycles (fillImplicit tasks) = found
  rcases planErrors with _ | ⟨e, l⟩ <;> rcases errors with _ | ⟨e, l⟩ <;>
    rcases invalid with _ | ⟨e, l⟩ <;> rcases found with _ | ⟨e, l⟩ <;> simp

end Anthrex.Plan
