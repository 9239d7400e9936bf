import Anthrex.Run.Task
import Mathlib.Data.List.DropRight
import Mathlib.Data.List.Sort

/-!
# The role table

Every task takes a row of the run's role table by its kind and size, and the row gives
its model, its effort and the model to fall back on (`run/model_roles.rs`). A struggling
session escalates along the row (`run/role_step.rs`): first through the efforts of its
model, then to the fallback, and through the efforts of that.
-/

namespace Anthrex.Run

inductive HelperKind
  | runName
  | triage
  | sizeCheck
  | checkSummary
  | blockedReason
  | ciSummary
  | distill
  | riskNote
  deriving DecidableEq, Repr

def HelperKind.key : HelperKind → String
  | .runName => "run_name"
  | .triage => "triage"
  | .sizeCheck => "size_check"
  | .checkSummary => "check_summary"
  | .blockedReason => "blocked_reason"
  | .ciSummary => "ci_summary"
  | .distill => "distill"
  | .riskNote => "risk_note"

/-- A row of the table. -/
inductive Role
  | orchestrator
  | planner
  | implementerSmall
  | implementerMedium
  | implementerHub
  | testWriter
  | reviewer
  | research
  | helpers
  | helper (kind : HelperKind)
  deriving DecidableEq, Repr

def Role.key : Role → String
  | .orchestrator => "orchestrator"
  | .planner => "planner"
  | .implementerSmall => "implementer.small"
  | .implementerMedium => "implementer.medium"
  | .implementerHub => "implementer.hub"
  | .testWriter => "test_writer"
  | .reviewer => "reviewer"
  | .research => "research"
  | .helpers => "helpers"
  | .helper kind => "helpers." ++ kind.key

/-- A model as a row names it; no id is the runtime's default. -/
structure ModelRef where
  runtime : Runtime
  id : Option String := none
  deriving DecidableEq, Repr

namespace ModelRef

def label (m : ModelRef) : String := m.runtime.label ++ ":" ++ m.id.getD "default"

/-- The model as a route spells it. -/
def routeModel (m : ModelRef) : String := m.id.getD ""

end ModelRef

structure RoleChoice where
  model : ModelRef
  effort : Option String := none
  /-- The model to take if it struggles. -/
  fallback : Option ModelRef := none
  deriving DecidableEq, Repr

/-- The efforts a catalog reported for a model. -/
structure ModelEfforts where
  efforts : List String
  default : Option String := none
  deriving DecidableEq, Repr

/-- The table of a run: every row resolved, the efforts and the canonical ids by model, in
    the order of their keys. -/
structure RunModels where
  rows : Role → RoleChoice
  efforts : List (ModelRef × ModelEfforts) := []
  canonical : List (ModelRef × String) := []

/-! ## Model ids -/

/-- Without a trailing tag in brackets. -/
def stripTag (id : List Char) : List Char :=
  if id.getLast? = some ']' ∧ '[' ∈ id.dropLast then
    match (id.dropLast.rdropWhile (· ≠ '[')).dropLast with
    | [] => id
    | bare => bare
  else id

def digits (l : List Char) : ℕ := l.foldl (fun n c => 10 * n + (c.toNat - '0'.toNat)) 0

/-- Eight digits with a month and a day. -/
def isDate (l : List Char) : Bool :=
  let month := digits ((l.drop 4).take 2)
  let day := digits (l.drop 6)
  l.length = 8 && l.all (·.isDigit) && 1 ≤ month && month ≤ 12 && 1 ≤ day && day ≤ 31

/-- The id without a tag in brackets, and then without a date. -/
def baseModelId (id : String) : String :=
  let bare := stripTag id.toList
  let at' := bare.length - 9
  match bare.drop at' with
  | '-' :: date => if at' ≠ 0 ∧ isDate date then String.ofList (bare.take at') else String.ofList bare
  | _ => String.ofList bare

namespace RunModels

variable (models : RunModels)

def choice (role : Role) : RoleChoice := models.rows role

/-- The one id a model runs as. -/
def canonicalOf (m : ModelRef) : String := (models.canonical.lookup m).getD (baseModelId m.routeModel)

def sameModelRef (a b : ModelRef) : Bool :=
  a.runtime = b.runtime && models.canonicalOf a = models.canonicalOf b

def effortsOf (m : ModelRef) : Option ModelEfforts :=
  (models.efforts.lookup m).or ((models.efforts.find? fun e => models.sameModelRef e.1 m).map (·.2))

def routeOf (model : ModelRef) (effort : Option String) : Route :=
  ⟨model.runtime, model.routeModel, effort.getD ""⟩

/-- The row's model at its effort. -/
def route (role : Role) : Route := routeOf (models.choice role).model (models.choice role).effort

def modelOf (route : Route) : ModelRef :=
  ⟨route.runtime, if route.model = "" then none else some route.model⟩

def sameModel (a b : Route) : Bool := models.sameModelRef (modelOf a) (modelOf b)

/-- The row of a task, by its fields. -/
def roleOf (kind : TaskKind) (hub : Bool) (size : Size) : Role :=
  match kind, hub, size with
  | .research, _, _ => .research
  | .review, _, _ => .reviewer
  | _, true, _ => .implementerHub
  | _, false, .s => .implementerSmall
  | _, _, _ => .implementerMedium

def taskRole (task : Task) : Role := roleOf task.spec.kind task.hub task.size

def sameModelLine (model : ModelRef) : String :=
  "reviewer: " ++ model.label ++ " reviews work by the same model; set an \"if it struggles\" " ++
    "model for the reviewer in C-b S"

/-- The reviewer row's model, or its fallback where that is the author's; the line says that
    neither will do. -/
def reviewerRoute (author : Route) : Route × Option String :=
  let choice := models.choice .reviewer
  let isAuthor := fun m => models.sameModelRef m (modelOf author)
  if !isAuthor choice.model then (models.route .reviewer, none)
  else
    match choice.fallback.filter (!isAuthor ·) with
    | some fallback => (routeOf fallback none, none)
    | none => (models.route .reviewer, some (sameModelLine choice.model))

/-- The second lane of a race. -/
def racerRoute (role : Role) (current : Route) : Route :=
  match (models.choice role).fallback with
  | some fallback => routeOf fallback none
  | none => current

end RunModels

/-! ## Failed routes -/

/-- The routes of the task's sessions that ended for a reason of the environment. -/
def failedRoutes (task : Task) : List Route :=
  (task.rounds.filter (·.environmentFailed)).map (·.route)

def failedIn (models : RunModels) (failed : List Route) (route : Route) : Bool :=
  failed.any (models.sameModel · route)

/-- The reviewer at its launch: where its route failed in the task, the row's other model,
    unless that failed too or is the author's. -/
def reviewerAtLaunch (models : RunModels) (author : Route) (failed : List Route) :
    Route × Option String :=
  let picked := models.reviewerRoute author
  if !failedIn models failed picked.1 then picked
  else
    let own := models.route .reviewer
    let fallback := ((models.choice .reviewer).fallback.map (RunModels.routeOf · none)).toList
    match (own :: fallback).find? fun r =>
        !(failedIn models failed r || models.sameModel r author) with
    | some r => (r, none)
    | none => picked

/-! ## Escalation -/

/-- The efforts escalation climbs. -/
def effortLadder : List String := ["minimal", "low", "medium", "high", "xhigh", "max"]

def ladderRank (effort : String) : Option ℕ := effortLadder.findIdx? (· = effort)

/-- The model at each effort of its list above `effort`. The default effort stands where the
    model has it, or below all; an effort the list does not hold counts as its top. -/
def above (models : RunModels) (model : ModelRef) (effort : String) : List Route :=
  match models.effortsOf model with
  | none => []
  | some known =>
    let list := (known.efforts.filter fun e => (ladderRank e).isSome).insertionSort
      fun a b => (ladderRank a).getD 0 ≤ (ladderRank b).getD 0
    let find := fun name => list.findIdx? (· = name)
    let next :=
      if effort = "" then
        match known.default with
        | some d => if (ladderRank d).isNone then list.length else ((find d).map (· + 1)).getD 0
        | none => 0
      else ((find effort).map (· + 1)).getD list.length
    (list.drop next).map fun e => RunModels.routeOf model (some e)

/-- The routes above `current`, in the order of escalation. -/
def ladder (models : RunModels) (role : Role) (current : Route) : List Route :=
  let own := RunModels.modelOf current
  let choice := models.choice role
  let onFallback := choice.fallback.any (models.sameModelRef · own) &&
    !models.sameModelRef choice.model own
  above models own current.effort ++
    match choice.fallback.filter (!models.sameModelRef · own) with
    | some f => if onFallback then [] else RunModels.routeOf f none :: above models f ""
    | none => []

def steps (models : RunModels) (role : Role) (current : Route) : List Route :=
  ladder models role current

/-- The next route, past those that failed. -/
def escalate (models : RunModels) (role : Role) (current : Route) (failed : List Route) :
    Option Route :=
  (ladder models role current).find? (!failedIn models failed ·)

end Anthrex.Run
