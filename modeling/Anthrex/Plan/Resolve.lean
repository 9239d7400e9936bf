import Anthrex.Globs
import Anthrex.Run.Model
import Anthrex.Run.SafeText

/-!
# Resolving a planned task

A planned task becomes a task of the run (`resolve_task_lenient` of `run/validate.rs`): its
size after the size rules, its test mode, its route by the row of the role table, its budget
and its review. What is wrong with its fields is collected, and the task is resolved all the
same, so that the rules over the whole plan see every task.

`plannedRuntime` is the runtime the plan gives a task. A task as it is resolved is on it
(`runtime_resolveTaskLenient`); the engine may move it away from there.
-/

namespace Anthrex.Plan

open Anthrex.Run Anthrex.Globs

/-- What the code takes from the libraries: glob matching, and the quoted form of a text in
    a message. -/
structure Lib where
  globs : Globset
  debug : String → String

/-- The one error, when it is there. -/
def errorIf (bad : Bool) (error : PlanError) : List PlanError := if bad then [error] else []

/-! ## Fields -/

def idMax : ℕ := 16

def isIdChar (c : Char) : Bool := c.isLower || c.isDigit

def isValidId (id : String) : Bool :=
  let chars := id.toList
  !chars.isEmpty && id.utf8ByteSize ≤ idMax && chars.head?.any isIdChar &&
    chars.all fun c => isIdChar c || c = '-'

/-- A prefix and digits after it. -/
def numbered (id pre : String) : Bool :=
  pre.toList <+: id.toList &&
    let n := id.toList.drop pre.toList.length
    !n.isEmpty && n.all (·.isDigit)

/-- A new task takes no id of a fix task or of a stage's branch. -/
def reservedNewId (id : String) : List PlanError :=
  if numbered id "fix" then
    [⟨some id, "id", "id", "fix<n> ids are reserved for fix tasks the engine adds"⟩]
  else errorIf (isValidId id && numbered id "stage-")
    ⟨some id, "id", "id", id ++ " is reserved for stage branches"⟩

def stagesMax : ℕ := 32

def checkStageFields (spec : PlanTask) : List PlanError :=
  errorIf (!(1 ≤ spec.stage && spec.stage ≤ stagesMax))
      ⟨some spec.id, "stage", "4.1", "must be between 1 and " ++ toString stagesMax⟩ ++
    errorIf (spec.atomic && spec.atomicReason.all isBlank)
      ⟨some spec.id, "atomic_reason", "4.3", "required when atomic is true"⟩

/-- One revision, or two with `..` between them. -/
def isReviewTarget (target : String) : Bool :=
  let part := fun p : List Char =>
    1 ≤ p.length && p.length ≤ 200 && p.head? ≠ some '-' && p.head? ≠ some '.' &&
      p.all fun c => c.isAlphanum || c ∈ ['.', '_', '/', '@', '^', '~', '-']
  let rec dots : List Char → List Char → Option (List Char × List Char)
    | pre, '.' :: '.' :: rest => some (pre.reverse, rest)
    | pre, c :: rest => dots (c :: pre) rest
    | _, [] => none
  (match dots [] target.toList with
    | some (a, b) => part a && part b && (dots [] b).isNone
    | none => part target.toList) && target.utf8ByteSize ≤ 200

/-- A research or review task owns nothing; a review task, and only that, has a target. -/
def checkReaderFields (spec : PlanTask) : List PlanError :=
  errorIf (spec.kind.isReader && !spec.owns.isEmpty)
      ⟨some spec.id, "owns", "5.2",
        "research and review tasks change nothing; leave owns empty (rule 5.2)"⟩ ++
    match spec.reviewTarget with
    | none => errorIf (spec.kind = .review)
      ⟨some spec.id, "review_target", "5.2", "required for a review task (rule 5.2)"⟩
    | some t =>
      if spec.kind ≠ .review then
        [⟨some spec.id, "review_target", "5.2", "only review tasks have a review target"⟩]
      else errorIf (!isReviewTarget t)
        ⟨some spec.id, "review_target", "5.2", t ++ " is not a revision or a range <a>..<b>"⟩

def briefMaxChars : ℕ := 1000000

def checkFields (L : Lib) (spec : PlanTask) : List PlanError :=
  (if !isValidId spec.id then
      [⟨some spec.id, "id", "id", "must match ^[a-z0-9][a-z0-9-]\x7b0,15\x7d$"⟩]
    else if spec.id = "integration" then
      [⟨some spec.id, "id", "id", "integration is reserved for the run branch"⟩]
    else errorIf (spec.id = "running") ⟨some spec.id, "id", "id",
      "running is reserved for the message target of every running task"⟩) ++
  checkStageFields spec ++
  errorIf (isBlank spec.title) ⟨some spec.id, "title", "fields", "must not be blank"⟩ ++
  errorIf (isBlank spec.brief) ⟨some spec.id, "brief", "fields", "must not be blank"⟩ ++
  errorIf (briefMaxChars < spec.brief.toList.length)
    ⟨some spec.id, "brief", "fields", "at most " ++ toString briefMaxChars ++ " characters"⟩ ++
  errorIf spec.acceptance.isEmpty
    ⟨some spec.id, "acceptance", "fields", "at least one item is required"⟩ ++
  spec.acceptance.zipIdx.flatMap (fun item => errorIf (isBlank item.1)
    ⟨some spec.id, "acceptance", "fields",
      "item " ++ toString (item.2 + 1) ++ " must not be blank"⟩) ++
  errorIf (spec.owns.isEmpty && !spec.kind.isReader)
    ⟨some spec.id, "owns", "fields", "at least one glob is required"⟩ ++
  checkReaderFields spec ++
  spec.owns.flatMap fun glob =>
    match validateGlob L.globs glob with
    | .ok () => []
    | .error msg => [⟨some spec.id, "owns", "globs", glob ++ " " ++ msg⟩]

/-! ## Size -/

/-- How many modules the globs name, and whether one glob spans several. -/
def moduleSpan (owns modules : List String) : ℕ × Bool :=
  let found := owns.map (globModule · modules)
  let names := found.filterMap fun
    | .named name => some name
    | .many => none
  (names.eraseDups.length, found.any (· = .many))

/-- What the size rules say when more than one module is spanned. -/
def spans (spec : PlanTask) (profile : Profile) : Option String :=
  let span := moduleSpan spec.owns profile.modules
  if span.2 then some "owns spans more than one module"
  else if 2 ≤ span.1 then some ("owns spans " ++ toString span.1 ++ " modules")
  else none

/-- The size, at least `target`, with the note of its raise. -/
def raiseSize (size target : Size) (why : String) : Size × List String :=
  if size.rank < target.rank then
    (target, ["size raised from " ++ size.label ++ " to " ++ target.label ++ ": " ++ why])
  else (size, [])

def isHub (spec : PlanTask) (profile : Profile) : Bool :=
  spec.atomic || anyIntersect spec.owns profile.hub

/-- The size after the span rule: `L` where an interface changes too, unless the task is
    atomic. -/
def spannedSize (spec : PlanTask) (profile : Profile) : Size × List String :=
  match spans spec profile with
  | none => (spec.size, [])
  | some span =>
    if spec.interfaceChange && !spec.atomic then
      raiseSize spec.size .l (span ++ " and interface_change is set (rule 7.2.2)")
    else raiseSize spec.size .m (span ++ " (rule 7.2.1)")

/-- The size after all size rules: a hub task is not small. -/
def resolvedSize (spec : PlanTask) (profile : Profile) : Size × List String :=
  let spanned := spannedSize spec profile
  if isHub spec profile then
    let why := if spec.atomic then "an atomic task is a hub task (rule 4.3)"
      else "owns touch the hub globs (rule 7.2.3)"
    let raised := raiseSize spanned.1 .m why
    (raised.1, spanned.2 ++ raised.2)
  else spanned

/-! ## Test mode -/

/-- The resolved test mode, and whether the profile's lack of a single-test command made
    it so. -/
structure Tested where
  mode : TestMode
  notes : List String
  errors : List PlanError
  rule83 : Bool
  deriving DecidableEq, Repr

def declaredMode (spec : PlanTask) : TestMode :=
  spec.testMode.getD (if spec.kind = .code then .tdd else .none)

/-- The mode the task asks for, or the one its kind and its hub force. -/
def forcedMode (spec : PlanTask) (hub touchesSource : Bool) : Tested :=
  let declared := declaredMode spec
  if spec.kind.isReader then
    ⟨.none, ["test mode none: research and review tasks change nothing (rule 8)"], [], false⟩
  else if hub && spec.kind = .code && declared ≠ .tdd then
    ⟨.tdd, ["test mode forced to tdd: hub task (rule 8.2)"], [], false⟩
  else
    ⟨declared, [],
      errorIf (declared ≠ .tdd && spec.testModeReason.all isBlank)
          ⟨some spec.id, "test_mode_reason", "8", "required when test_mode is check or none"⟩ ++
        errorIf (spec.kind = .code && declared = .none && touchesSource)
          ⟨some spec.id, "test_mode", "8.1",
            "a code task whose owns touch the profile's source globs cannot be none (rule 8.1)"⟩,
      false⟩

def noTestPassedNote : String :=
  "the profile has no test_passed: the test proof will require the test's name in the " ++
    "single-test command's output (rule 8.1)"

def resolvedMode (spec : PlanTask) (profile : Profile) (hub touchesSource : Bool) : Tested :=
  let forced := forcedMode spec hub touchesSource
  if forced.mode = .tdd && profile.singleTest.isNone then
    { forced with
      mode := .check
      notes := forced.notes ++ ["test mode check: the profile has no single_test (rule 8.3)"]
      rule83 := true }
  else if forced.mode = .tdd && profile.testPassed.isNone then
    { forced with notes := forced.notes ++ [noTestPassedNote] }
  else forced

/-! ## Route -/

/-- The task's row, unless the route names a model: then that one, on the route's runtime.
    The effort is the route's, or the row's where the model is the row's own. -/
def resolveRoute (L : Lib) (models : RunModels) (spec : PlanTask) (row : Route) :
    Route × List PlanError :=
  let given := spec.route
  let shell := errorIf (given.runtime = some .shell)
    ⟨some spec.id, "route.runtime", "route", "must be claude or codex"⟩
  match given.model with
  | none => ({ row with effort := given.effort.getD row.effort }, shell)
  | some model =>
    let bad := if model = "" then [] else
      (modelIdProblem L.debug model).toList.map fun problem =>
        ⟨some spec.id, "route.model", "route", problem⟩
    let runtime := (given.runtime.filter (· ≠ .shell)).getD row.runtime
    let own := models.sameModel ⟨runtime, model, ""⟩ row
    (⟨runtime, model, given.effort.getD (if own then row.effort else "")⟩, shell ++ bad)

def checkBudget (id : String) (b : Budget) : List PlanError :=
  let low := fun field => (⟨some id, field, "range", "must be at least 1"⟩ : PlanError)
  errorIf (b.toolCalls < 1) (low "budget.tool_calls") ++
    errorIf (b.minutes < 1) (low "budget.minutes") ++
    errorIf (b.tokens = some 0) (low "budget.tokens")

def resolvedBudget (spec : PlanTask) (limits : RunLimits) (hub : Bool) (size : Size) :
    Budget × List PlanError :=
  match spec.budget with
  | some b => (b, checkBudget spec.id b)
  | none =>
    if size = .s && !hub then (limits.budgetS, [])
    else if hub then (limits.budgetHub.getD limits.budgetM, [])
    else (limits.budgetM, [])

def resolvedReview (limits : RunLimits) (hub : Bool) (size : Size) (raise : Bool) :
    Option ReviewLevel :=
  let base := if hub then .frontier else if size = .s then .small else .medium
  let level := if raise then base.raised else base
  if !limits.reviewSmall && !hub && size = .s && level = .small then none else some level

/-! ## The task -/

/-- The task of a planned one, with what is wrong with it. -/
def resolveTaskLenient (L : Lib) (profile : Profile) (limits : RunLimits) (spec : PlanTask) :
    Task × List PlanError :=
  let size := resolvedSize spec profile
  let hub := isHub spec profile
  let touchesSource := anyIntersect spec.owns profile.source
  let tested := resolvedMode spec profile hub touchesSource
  let row := limits.models.route (RunModels.roleOf spec.kind hub size.1)
  let route := resolveRoute L limits.models spec row
  let budget := resolvedBudget spec limits hub size.1
  let raise := profile.check.isNone || (tested.mode ≠ .tdd && touchesSource) || tested.rule83
  let reviewLevel := resolvedReview limits hub size.1 raise
  ({  spec := spec
      size := size.1
      hub := hub
      testMode := tested.mode
      notes := size.2 ++ tested.notes
      reviewLevel := reviewLevel
      route := route.1
      reviewRoute := reviewLevel.map fun _ => (limits.models.reviewerRoute route.1).1
      budget := budget.1 },
    checkFields L spec ++ tested.errors ++ route.2 ++ budget.2)

/-- The notes on the protected files that `owns` covers. -/
def protectedNotes (L : Lib) (owns files : List String) : List String :=
  files.flatMap fun path =>
    if namesLiterally owns path then
      ["owns names protected " ++ path ++ "; the user approves this grant with the plan"]
    else
      match owns.find? fun g =>
          match OwnsMatcher.new L.globs [g] with
          | .ok m => m.matches L.globs path
          | .error _ => false with
      | some glob =>
        ["owns " ++ glob ++ " covers protected " ++ path ++
          "; name it exactly in owns if this task must change it (rule 6.protected)"]
      | none => []

/-! ## The plan's runtime -/

/-- The runtime the plan gives a task: its row's, unless its route names a model. -/
def plannedRuntime (models : RunModels) (task : Task) : Runtime :=
  match task.spec.route.model, task.spec.route.runtime with
  | some _, some runtime =>
    if runtime ≠ .shell then runtime else (models.route (RunModels.taskRole task)).runtime
  | _, _ => (models.route (RunModels.taskRole task)).runtime

variable {L : Lib} {profile : Profile} {limits : RunLimits} {spec spec' : PlanTask}

theorem runtime_resolveRoute {models : RunModels} {row : Route} {task : Task}
    (hspec : task.spec.route = spec.route)
    (hrow : row.runtime = (models.route (RunModels.taskRole task)).runtime) :
    (resolveRoute L models spec row).1.runtime = plannedRuntime models task := by
  simp only [resolveRoute, plannedRuntime, hspec, ← hrow]
  cases hmodel : spec.route.model with
  | none => rfl
  | some model =>
    cases hruntime : spec.route.runtime with
    | none => rfl
    | some runtime => by_cases h : runtime = .shell <;> simp [h, Option.filter]

/-- A task is resolved to the runtime its plan gives it. -/
theorem runtime_resolveTaskLenient :
    (resolveTaskLenient L profile limits spec).1.route.runtime =
      plannedRuntime limits.models (resolveTaskLenient L profile limits spec).1 :=
  runtime_resolveRoute rfl rfl

/-- The specs agree in all that a route rests on. -/
structure SameRouting (a b : PlanTask) : Prop where
  id : a.id = b.id
  kind : a.kind = b.kind
  size : a.size = b.size
  interfaceChange : a.interfaceChange = b.interfaceChange
  owns : a.owns = b.owns
  route : a.route = b.route
  atomic : a.atomic = b.atomic

theorem SameRouting.refl (a : PlanTask) : SameRouting a a := ⟨rfl, rfl, rfl, rfl, rfl, rfl, rfl⟩

theorem SameRouting.trans {a b c : PlanTask} (h : SameRouting a b) (h' : SameRouting b c) :
    SameRouting a c :=
  ⟨h.id.trans h'.id, h.kind.trans h'.kind, h.size.trans h'.size,
    h.interfaceChange.trans h'.interfaceChange, h.owns.trans h'.owns, h.route.trans h'.route,
    h.atomic.trans h'.atomic⟩

/-- The route of a resolved task. -/
def plannedRoute (L : Lib) (profile : Profile) (limits : RunLimits) (spec : PlanTask) : Route :=
  (resolveTaskLenient L profile limits spec).1.route

theorem isHub_congr (h : SameRouting spec spec') : isHub spec profile = isHub spec' profile := by
  rw [isHub, isHub, h.atomic, h.owns]

theorem resolvedSize_congr (h : SameRouting spec spec') :
    resolvedSize spec profile = resolvedSize spec' profile := by
  have hspans : spannedSize spec profile = spannedSize spec' profile := by
    unfold spannedSize spans
    rw [h.owns, h.size, h.interfaceChange, h.atomic]
  unfold resolvedSize
  rw [isHub_congr h, hspans, h.atomic]

theorem plannedRoute_congr (h : SameRouting spec spec') :
    plannedRoute L profile limits spec = plannedRoute L profile limits spec' := by
  have hresolve : ∀ row, resolveRoute L limits.models spec row =
      resolveRoute L limits.models spec' row := by
    intro row
    unfold resolveRoute
    rw [h.id, h.route]
  show (resolveRoute L limits.models spec _).1 = (resolveRoute L limits.models spec' _).1
  rw [hresolve, isHub_congr h, resolvedSize_congr h, h.kind]

end Anthrex.Plan
