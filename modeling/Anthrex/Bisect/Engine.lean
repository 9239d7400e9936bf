import Mathlib

/-!
# The bisect of a red stage

The engine's bisect (`run/engine/bisect.rs`, `bisect_end.rs`): a stage's red head is
bisected over the merges since its last green commit. Probes run the failing tests at
one commit each: first the base, then the head, then the middle of the search, until
one merge is left to blame. Probes are operations: their results come later, may be
lost in a restart, or be a failure of the executor, after which the probe is issued
again.

A `Run` has what the bisect reads and writes of the engine's run. For the record, a
bisect keeps the results of its probes, and a run the probes it issued and the bisects
it ended.
-/

namespace Anthrex.Bisect

/-- One commit on a stage's first-parent line. -/
inductive StageMerge
  | task (id commit : String)
  | propagate («from» : ℕ) (commit : String)
  deriving DecidableEq, Repr

def commitOf : StageMerge → String
  | .task _ commit | .propagate _ commit => commit

inductive Probe
  | base
  | head
  | mid (p : ℕ)
  deriving DecidableEq, Repr

structure BisectRecord where
  head : String
  tests : List String
  base : String
  candidates : List StageMerge
  lo : ℕ
  hi : ℕ
  /-- The probe in flight, with its operation. -/
  probe : Option (ℕ × Probe)
  probes : ℕ
  «show» : Option String
  /-- The executor's failures of the probe due now. -/
  infra : ℕ
  retryAt : ℕ
  /-- The results so far, the newest first. -/
  results : List (Probe × Bool)
  deriving DecidableEq, Repr

structure StageRecord where
  n : ℕ
  createdFrom : String
  merges : List StageMerge
  floor : Option String
  greenAt : Option String
  bisect : Option BisectRecord
  deriving DecidableEq, Repr

inductive RunState
  | awaitingApproval
  | running
  | paused
  | halted
  | complete
  | accepted
  | discarded
  | failed
  | planning
  | brainstorming
  | specifying
  deriving DecidableEq, Repr

/-- Why a bisect ended without a culprit. -/
inductive NoCulprit
  /-- The tests fail at the base already, which is the stage's floor or not. -/
  | redAtBase (base : String) (floored : Bool)
  | passAlone (head : String)
  | setupFailed (commit output : String)
  | couldNotProbe (commit message : String)
  | firstRedPropagate («from» : ℕ)
  | nothingLeft
  | runEnded
  | mergedAway
  | rebaselined
  deriving DecidableEq, Repr

inductive BisectResult
  | culprit (task : String)
  | none (reason : NoCulprit)
  deriving DecidableEq, Repr

/-- An ended bisect. -/
structure BisectEnd where
  stage : ℕ
  bisect : BisectRecord
  result : BisectResult
  deriving DecidableEq, Repr

/-- An issued probe: the operation that runs the tests of `bisect` at `commit`. -/
structure TestAt where
  op : ℕ
  bisect : BisectRecord
  probe : Probe
  commit : String
  deriving DecidableEq, Repr

structure Run where
  state : RunState
  singleTest : Option String
  stages : List StageRecord
  fullOp : Option ℕ
  nextOp : ℕ
  issued : List TestAt
  ended : List BisectEnd
  deriving DecidableEq, Repr

/-- Where a bisect's range starts. -/
inductive BisectRange
  | sinceGreen
  | wholeLine
  deriving DecidableEq, Repr

/-- The base, and the merges after it up to `head`: from the stage's last green commit
    when it is on the line, else from its floor or its creation. -/
def range (s : StageRecord) (head : String) (how : BisectRange) :
    Option (String × List StageMerge) :=
  let green := (s.greenAt.filter fun _ => how = .sinceGreen).bind fun g =>
    (s.merges.findIdx? fun m => commitOf m = g).map fun k => (g, k + 1)
  let floor := s.floor.getD s.createdFrom
  let (base, «from») := green.getD (floor, 0)
  -- The last position: the first one from the back.
  let last := (s.merges.reverse.findIdx? fun m => commitOf m = head).map fun k =>
    s.merges.length - 1 - k
  last.bind fun «to» =>
    if «from» ≤ «to» then some (base, (s.merges.take («to» + 1)).drop «from») else none

/-- The probe due next: the base, then the head, then the middle of the search. -/
def due (b : BisectRecord) : Probe :=
  match b.probes with
  | 0 => .base
  | 1 => .head
  | _ => .mid ((b.lo + b.hi) / 2)

/-- The commit of a probe, empty when there is no candidate. -/
def probeCommit (b : BisectRecord) : Probe → String
  | .base => b.base
  | .head => b.head
  | .mid p => ((if p = 0 then none else b.candidates[p - 1]?).map commitOf).getD ""

/-- `f` applied to the first element satisfying `p`. -/
def updateFirst {α : Type} (p : α → Bool) (f : α → α) : List α → List α
  | [] => []
  | a :: l => if p a then f a :: l else a :: updateFirst p f l

namespace Run

def stage (r : Run) (n : ℕ) : Option StageRecord := r.stages.find? (·.n = n)

/-- The bisect of stage `n`. -/
def bisectOf (r : Run) (n : ℕ) : Option BisectRecord := (r.stage n).bind (·.bisect)

def setBisect (r : Run) (n : ℕ) (b : Option BisectRecord) : Run :=
  { r with stages := updateFirst (·.n = n) (fun s => { s with bisect := b }) r.stages }

/-- Whether a stage of the run is being bisected. -/
def bisecting (r : Run) : Bool := r.stages.any (·.bisect.isSome)

/-- The operation `op` no longer holds the full checkout. -/
def clearFull (r : Run) (op : ℕ) : Run :=
  { r with fullOp := r.fullOp.filter (· ≠ op) }

/-- Issues the due probe of stage `n`, only while the run runs. -/
def issue (r : Run) (n : ℕ) : Run :=
  if r.state ≠ .running then r
  else
    match r.bisectOf n, r.singleTest with
    | some b, some _ =>
      let probe := due b
      let op := r.nextOp
      { r.setBisect n (some { b with probe := some (op, probe) }) with
        nextOp := op + 1
        fullOp := some op
        issued := ⟨op, b, probe, probeCommit b probe⟩ :: r.issued }
    | _, _ => r

/-- Why a bisect did not start. -/
inductive StartError
  | inFlight
  | noSingleTest
  | noTests
  | noStage
  | redBeforeFloor
  | notOnLine
  deriving DecidableEq, Repr

/-- Sets up the bisect of stage `n`'s red commit `head` on `tests`, and issues its first
    probe: the number of merges in its range, or why it did not start. -/
def start (r : Run) (n : ℕ) (head : String) (tests : List String) (how : BisectRange) :
    Run × Except StartError ℕ :=
  if r.fullOp.isSome ∨ r.bisecting then (r, .error .inFlight)
  else if r.singleTest.isNone then (r, .error .noSingleTest)
  else if tests.isEmpty then (r, .error .noTests)
  else
    match r.stage n with
    | none => (r, .error .noStage)
    | some s =>
      match range s head how with
      | none => (r, .error (if s.floor = some head then .redBeforeFloor else .notOnLine))
      | some (base, candidates) =>
        let m := candidates.length
        let b : BisectRecord := ⟨head, tests, base, candidates, 0, m, none, 0, none, 0, 0, []⟩
        ((r.setBisect n (some b)).issue n, .ok m)

/-- The bisect of stage `n` ends: it is recorded with `result`. -/
def record (r : Run) (n : ℕ) (b : BisectRecord) (result : BisectResult) : Run :=
  { r.setBisect n none with ended := ⟨n, b, result⟩ :: r.ended }

/-- The bisect of stage `n` ends without a culprit; its probe in flight is dropped. -/
def «end» (r : Run) (n : ℕ) (reason : NoCulprit) : Run :=
  match r.bisectOf n with
  | none => r
  | some b =>
    let r := match b.probe with
      | some (op, _) => r.clearFull op
      | none => r
    r.record n b (.none reason)

/-- The first red merge is blamed; a propagate's is no culprit. -/
def culprit (r : Run) (n : ℕ) : Run :=
  match r.bisectOf n with
  | none => r
  | some b =>
    match if b.hi = 0 then none else b.candidates[b.hi - 1]? with
    | some (.task id _) => r.record n b (.culprit id)
    | some (.propagate «from» _) => r.end n (.firstRedPropagate «from»)
    | none => r.end n .nothingLeft

/-- The search once a probe's result is in: narrowed, or ended. -/
def narrow (b : BisectRecord) (floor : Option String) (probe : Probe) (red : Bool)
    («show» : Option String) : Except NoCulprit BisectRecord :=
  match probe, red with
  | .base, true => .error (.redAtBase b.base (floor = some b.base))
  | .head, false => .error (.passAlone b.head)
  | .base, false => .ok b
  | .head, true => .ok { b with «show» := «show» }
  | .mid p, true => .ok { b with hi := p, «show» := «show» }
  | .mid p, false => .ok { b with lo := p }

/-- A probe's result moves the search, until one merge is left. -/
def probed (r : Run) (n : ℕ) (probe : Probe) (red : Bool) («show» : Option String) : Run :=
  match r.bisectOf n with
  | none => r
  | some b =>
    match narrow b ((r.stage n).bind (·.floor)) probe red «show» with
    | .error reason => r.end n reason
    | .ok b =>
      let r := r.setBisect n (some b)
      if 2 ≤ b.probes ∧ b.hi - b.lo ≤ 1 then r.culprit n else r.issue n

/-- The result of an operation, as the bisect reads it. -/
inductive OpResult
  | testAt (red : Bool) («show» : Option String)
  | setupFailed (output : String)
  | failed (message : String)
  | other
  deriving DecidableEq, Repr

def probeBackoff : List ℕ := [30, 120]

def probeFailuresMax : ℕ := 3

/-- The stage and the probe of the operation `op`. -/
def findProbe (r : Run) (op : ℕ) : Option (ℕ × Probe) :=
  r.stages.findSome? fun s => s.bisect.bind fun b => b.probe.bind fun (p, probe) =>
    if p = op then some (s.n, probe) else none

/-- A probe's result; `ending` tells the stages that are ending. -/
def probeDone (r : Run) (op : ℕ) (result : OpResult) (now : ℕ) (ending : ℕ → Bool) : Run :=
  match r.findProbe op with
  | none => r
  | some (n, probe) =>
    let r := r.clearFull op
    match r.bisectOf n with
    | none => r
    | some b =>
      let b := { b with probe := none }
      let r := r.setBisect n (some b)
      if ending n then r.end n .runEnded
      else
        match result with
        | .testAt red «show» =>
          let b := { b with
            probes := b.probes + 1, infra := 0, results := (probe, red) :: b.results }
          (r.setBisect n (some b)).probed n probe red «show»
        | .setupFailed output => r.end n (.setupFailed (probeCommit b probe) output)
        | .failed message =>
          let b := { b with infra := min (b.infra + 1) 255 }
          let r := r.setBisect n (some b)
          if probeFailuresMax ≤ b.infra then
            r.end n (.couldNotProbe (probeCommit b probe) message)
          else
            let wait := probeBackoff.getD (min (b.infra - 1) (probeBackoff.length - 1)) 0
            r.setBisect n (some { b with retryAt := min (now + wait) (2 ^ 64 - 1) })
        | .other => r

/-- A probe lost in a restart; the next running pass issues it again. -/
def lost (r : Run) (op : ℕ) : Run :=
  let probing := fun s : StageRecord => s.bisect.any fun b => b.probe.any (·.1 = op)
  if r.stages.any probing then
    { r.clearFull op with
      stages := updateFirst probing
        (fun s => { s with bisect := s.bisect.map fun b => { b with probe := none } }) r.stages }
  else r

/-- A scheduler pass: bisects of `spent` stages end at once, then each one with no probe
    in flight ends with its stage, or has its probe issued again. -/
def pass (r : Run) (now : ℕ) (ending spent : ℕ → Bool) : Run :=
  let opened := (r.stages.filter fun s => s.bisect.isSome).map (·.n)
  let r := opened.foldl (fun r n => if spent n then r.end n .mergedAway else r) r
  let idle := r.stages.filterMap fun s =>
    (s.bisect.filter (·.probe.isNone)).map fun b => (s.n, b.retryAt)
  idle.foldl (fun r (n, retryAt) =>
    if ending n then r.end n .runEnded
    else if retryAt ≤ now then r.issue n
    else r) r

/-- A rebaseline moved the head of stage `n`: its bisect ends. -/
def rebaselined (r : Run) (n : ℕ) : Run := r.end n .rebaselined

end Run

/-- What happens to a run, as its bisects see it. -/
inductive Step
  | start (n : ℕ) (head : String) (tests : List String) (how : BisectRange)
  | probeDone (op : ℕ) (result : Run.OpResult) (now : ℕ) (ending : ℕ → Bool)
  | lost (op : ℕ)
  | pass (now : ℕ) (ending spent : ℕ → Bool)
  | rebaselined (n : ℕ)
  /-- Any other step of the engine: it merges into stages, creates some, pauses or
      resumes the run, runs other operations; it leaves the bisects alone. -/
  | other (state : RunState) (singleTest : Option String) (fullOp : Option ℕ) (ops : ℕ)
      (change : StageRecord → StageRecord) (created : List StageRecord)

def Run.step (r : Run) : Step → Run
  | .start n head tests how => (r.start n head tests how).1
  | .probeDone op result now ending => r.probeDone op result now ending
  | .lost op => r.lost op
  | .pass now ending spent => r.pass now ending spent
  | .rebaselined n => r.rebaselined n
  | .other state singleTest fullOp ops change created =>
    { r with
      state, singleTest, fullOp
      nextOp := r.nextOp + ops
      stages := r.stages.map (fun s => { change s with n := s.n, bisect := s.bisect }) ++
        created.map fun s => { s with bisect := none } }

def Run.run (r : Run) (steps : List Step) : Run := steps.foldl Run.step r

end Anthrex.Bisect
