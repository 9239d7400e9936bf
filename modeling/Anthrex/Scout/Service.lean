import Anthrex.Scout.Machine

/-!
# A scout's session in the service

What the service does for one scout (`scout/service.rs`, `scout/service_table.rs`): its launch, the
window that is bound to it, early or late, its one report, the machine's steps under the table's
lock, and what is left to do after the lock is released, which other tasks come between.

* `scout_outcome`: a scout is told of once, when its machine ends, and never before; its report is
  on disk when it is told of, and a report that is not told of does not stay there;
* `scout_killed`: a kill that was asked for reaches the process, however early it was.
-/

namespace Anthrex.Scouts

open List

variable {Report : Type}

/-! ## The table's entry -/

inductive ScoutOutcome (Report : Type)
  | report (report : Report)
  | failed (reason : String)
  | unsubmitted (reason : String)
  | accepted
  deriving DecidableEq, Repr

/-- One scout the service knows. -/
structure Scout (Report : Type) where
  windowId : Option ℕ := none
  machine : ScoutMachine := {}
  /-- Where the outcome goes is still known. -/
  outcome : Bool := true
  /-- A report is being checked or written. -/
  storing : Bool := false
  report : Option Report := none
  endedAt : Option ℕ := none
  /-- A kill that was asked for before there was a process to kill. -/
  killOnBind : Bool := false
  /-- The launch's own bind has happened. -/
  installed : Bool := false
  killAt : Option ℕ := none
  removeAt : Option ℕ := none
  /-- A sub-planner's session. -/
  planner : Bool

/-- What is left to do after the lock is released. -/
inductive Job (Report : Type)
  | tell (outcome : ScoutOutcome Report)
  | run (window : ℕ) (effect : ScoutEffect)
  | kill (window : ℕ)
  | remove (window : ℕ)

namespace Job

def outcome : Job Report → Option (ScoutOutcome Report)
  | tell outcome => some outcome
  | _ => none

/-- Kills the process of the window. -/
def Kills : Job Report → Bool
  | run _ .kill | kill _ => true
  | _ => false

def Removes : Job Report → Bool
  | remove _ => true
  | _ => false

end Job

namespace Scout

/-- How a scout's end is told. -/
def told (c : Scout Report) : Except String Unit → ScoutOutcome Report
  | .ok () =>
    match c.report with
    | some report => .report report
    | none => if c.planner then .accepted else .failed "the scout reported nothing"
  | .error reason => if c.machine.unsubmitted then .unsubmitted reason else .failed reason

/-- What an effect leaves in the table, and the outcome to tell. -/
def absorb (at_ now : ℕ) (c : Scout Report × Option (ScoutOutcome Report)) :
    ScoutEffect → Scout Report × Option (ScoutOutcome Report)
  | .killAfter after => ({ c.1 with killAt := some (at_ + after) }, c.2)
  | .removeAfter after => ({ c.1 with removeAt := some (at_ + after) }, c.2)
  | .finished result =>
    ({ c.1 with endedAt := some now, outcome := false },
      if c.1.outcome then some (c.1.told result) else none)
  | .send _ | .kill | .closeStdin => c

/-- A step of the machine under the lock, at the clock's `at_` and the time `now`. -/
def stepLocked (l : ScoutLimits) (at_ now : ℕ) (c : Scout Report) (e : ScoutEvent) :
    Scout Report × List (Job Report) :=
  let (machine, effects) := c.machine.step l e
  let c := { c with
    machine
    killOnBind := c.killOnBind || (!c.installed && decide (.kill ∈ effects)) }
  let (c, outcome) := effects.foldl (absorb at_ now) (c, none)
  (c, (outcome.map Job.tell).toList ++ c.windowId.elim [] fun window => effects.map (.run window))

end Scout

/-! ## The service -/

/-- How far the launch is. -/
inductive Launch
  | fresh
  | inserted
  | creating
  | done
  | failed
  deriving DecidableEq, Repr

/-- How far a submitted report is. -/
inductive Submission (Report : Type)
  | checking
  /-- It is on disk. -/
  | written (report : Report)
  /-- It is on disk, and was refused. -/
  | refused

/-- The service as far as one scout goes, with its window and its report's file. -/
structure Service (Report : Type) where
  launch : Launch := .fresh
  scout : Option (Scout Report) := none
  jobs : List (Job Report) := []
  submissions : List (Submission Report) := []
  file : Option Report := none
  /-- What was told of the scout. -/
  sent : List (ScoutOutcome Report) := []
  /-- The process can be killed. -/
  process : Bool := false
  killed : Bool := false
  removed : Bool := false
  /-- The machine asked for a kill. -/
  asked : Bool := false

namespace Service

/-- One event for the scout, if the table has it. -/
def drive (l : ScoutLimits) (at_ now : ℕ) (s : Service Report) (e : ScoutEvent) : Service Report :=
  match s.scout with
  | none => s
  | some c =>
    let (c', jobs) := c.stepLocked l at_ now e
    { s with
      scout := some c'
      jobs := s.jobs ++ jobs
      asked := s.asked || decide (.kill ∈ (c.machine.step l e).2) }

/-- Binds the scout to its window, at the launch's end (`killOwed`) or before. -/
def bind (s : Service Report) (window : ℕ) (killOwed : Bool) : Service Report :=
  match s.scout with
  | none => s
  | some c =>
    { s with
      scout := some { c with
        windowId := some window
        installed := c.installed || killOwed
        killOnBind := c.killOnBind && !killOwed }
      jobs := s.jobs ++ if killOwed && c.killOnBind then [.kill window] else [] }

/-- The checks before a report is stored, for a call from `window`. -/
def claims (c : Scout Report) (window : ℕ) : Bool :=
  !c.planner && c.windowId = some window && !(c.report.isSome || c.storing) &&
    !(c.machine.state = .failed || c.machine.state = .reported)

/-- A written report is accepted only if the scout still works. -/
def commit (l : ScoutLimits) (at_ now : ℕ) (s : Service Report) (report : Report) :
    Service Report × Bool :=
  match s.scout with
  | none => (s, false)
  | some c =>
    let c := { c with storing := false }
    if c.machine.state ≠ .working then ({ s with scout := some c }, false)
    else (drive l at_ now { s with scout := some { c with report := some report } } .reportAccepted,
      true)

def unclaim (s : Service Report) : Service Report :=
  { s with scout := s.scout.map ({ · with storing := false }) }

/-- The kills and the removal that are due. -/
def sweep (at_ : ℕ) (s : Service Report) : Service Report :=
  match s.scout with
  | none => s
  | some c =>
    match c.windowId with
    | none => s
    | some window =>
      let kill : List (Job Report) := if c.killAt.any (· ≤ at_) then [.kill window] else []
      if c.removeAt.any (· ≤ at_) then
        { s with scout := none, jobs := s.jobs ++ (kill ++ [.remove window]) }
      else
        { s with
          scout := some { c with killAt := c.killAt.filter fun t => ¬t ≤ at_ }
          jobs := s.jobs ++ kill }

/-- What a job does, once no lock is held. -/
def perform (s : Service Report) : Job Report → Service Report
  | .tell outcome => { s with sent := s.sent ++ [outcome] }
  | .run _ .kill | .kill _ => { s with killed := s.killed || s.process }
  | .run _ _ => s
  | .remove _ => { s with removed := true }

end Service

/-- What the tasks of the service do, in any order: the launch, the calls that come with the
    session's report, its events, the ticker, and the jobs of each once the lock is free. -/
inductive Service.Step (l : ScoutLimits) (planner : Bool) (window : ℕ) :
    Service Report → Service Report → Prop
  | insert {s : Service Report} (hlaunch : s.launch = .fresh) :
      Step l planner window s { s with launch := .inserted, scout := some { planner } }
  | start {s : Service Report} (at_ now : ℕ) (hlaunch : s.launch = .inserted) :
      Step l planner window s { s.drive l at_ now (.start now) with launch := .creating }
  | process {s : Service Report} (hlaunch : s.launch = .creating) :
      Step l planner window s { s with process := true }
  /-- A bind by the session's first events. -/
  | early {s : Service Report} (hlaunch : s.launch ≠ .fresh ∧ s.launch ≠ .inserted) :
      Step l planner window s (s.bind window false)
  | bound {s : Service Report} (hlaunch : s.launch = .creating) (hprocess : s.process) :
      Step l planner window s { s.bind window true with launch := .done }
  | fails {s : Service Report} (hlaunch : s.launch = .creating) :
      Step l planner window s { s with launch := .failed, scout := none }
  | event {s : Service Report} (at_ now : ℕ) (e : ScoutEvent) (hstart : ∀ now, e ≠ .start now)
      (haccepted : e ≠ .reportAccepted) : Step l planner window s (s.drive l at_ now e)
  /-- A sub-planner's epic was accepted. -/
  | accept {s : Service Report} (at_ now : ℕ) {c : Scout Report} (hscout : s.scout = some c)
      (hwindow : c.windowId = some window) (hplanner : c.planner) :
      Step l planner window s (s.drive l at_ now .reportAccepted)
  | claim {s : Service Report} {c : Scout Report} (hscout : s.scout = some c)
      (hclaims : Service.claims c window) :
      Step l planner window s { s with
        scout := some { c with storing := true }
        submissions := s.submissions ++ [.checking] }
  /-- The report was not valid, or not written. -/
  | reject {s : Service Report} {before after : List (Submission Report)}
      (hsubmissions : s.submissions = before ++ .checking :: after) :
      Step l planner window s { s.unclaim with submissions := before ++ after }
  | write {s : Service Report} {before after : List (Submission Report)} (report : Report)
      (hsubmissions : s.submissions = before ++ .checking :: after) :
      Step l planner window s { s with
        file := some report
        submissions := before ++ .written report :: after }
  | accepted {s s' : Service Report} {before after : List (Submission Report)} {report : Report}
      (at_ now : ℕ) (hsubmissions : s.submissions = before ++ .written report :: after)
      (hcommit : s.commit l at_ now report = (s', true)) :
      Step l planner window s { s' with submissions := before ++ after }
  | refused {s s' : Service Report} {before after : List (Submission Report)} {report : Report}
      (at_ now : ℕ) (hsubmissions : s.submissions = before ++ .written report :: after)
      (hcommit : s.commit l at_ now report = (s', false)) :
      Step l planner window s { s' with submissions := before ++ .refused :: after }
  /-- The file of a refused report goes too. -/
  | cleanup {s : Service Report} {before after : List (Submission Report)}
      (hsubmissions : s.submissions = before ++ .refused :: after) :
      Step l planner window s { s with file := none, submissions := before ++ after }
  | sweep {s : Service Report} (at_ : ℕ) : Step l planner window s (s.sweep at_)
  | perform {s : Service Report} {before after : List (Job Report)} {job : Job Report}
      (hjobs : s.jobs = before ++ job :: after) :
      Step l planner window s ({ s with jobs := before ++ after }.perform job)

/-- The service after any steps of its tasks. -/
inductive Service.Reach (l : ScoutLimits) (planner : Bool) (window : ℕ) : Service Report → Prop
  | start : Reach l planner window {}
  | step {s s' : Service Report} (hreach : Reach l planner window s)
      (hstep : Service.Step l planner window s s') : Reach l planner window s'

section

variable {l : ScoutLimits} {at_ now window : ℕ} {planner : Bool} {c : Scout Report} {e : ScoutEvent}
  {s s' : Service Report}

/-! ## A step under the lock -/

namespace Scout

theorem absorb_sends (c : Scout Report × Option (ScoutOutcome Report)) (texts : List String) :
    (texts.map ScoutEffect.send).foldl (absorb at_ now) c = c := by
  induction texts with
  | nil => rfl
  | cons text texts ih => exact ih

/-- What a session's end leaves in the table. -/
def closed (c : Scout Report) (at_ now : ℕ) (v : Except String Unit) : Scout Report :=
  { c with
    endedAt := some now
    outcome := false
    killAt := if v matches .ok _ then some (at_ + interruptGrace) else c.killAt
    removeAt := some (at_ + retireAfter) }

theorem absorb_ending (c : Scout Report) (e : ScoutEvent) (v : Except String Unit) :
    (ending e v).foldl (absorb at_ now) (c, none) =
      (c.closed at_ now v, if c.outcome then some (c.told v) else none) := by
  cases v with
  | ok => rfl
  | error reason => cases e <;> rfl

/-- The entry with the machine's step in it. -/
def stepped (l : ScoutLimits) (c : Scout Report) (e : ScoutEvent) : Scout Report :=
  { c with
    machine := (c.machine.step l e).1
    killOnBind := c.killOnBind || (!c.installed && decide (.kill ∈ (c.machine.step l e).2)) }

/-- The effects for the session's window, if it is bound. -/
def effectJobs (c : Scout Report) (effects : List ScoutEffect) : List (Job Report) :=
  c.windowId.elim [] fun window => effects.map (.run window)

theorem filterMap_outcome_effectJobs (c : Scout Report) (effects : List ScoutEffect) :
    (c.effectJobs effects).filterMap Job.outcome = [] := by
  rw [effectJobs]
  cases c.windowId with
  | none => rfl
  | some window => simp [filterMap_map, Function.comp_def, Job.outcome]

/-- An entry whose outcome is kept until the machine ends. -/
structure Sound (c : Scout Report) : Prop where
  outcome : c.outcome = true ↔ c.machine.Live
  failure : c.machine.Live → c.machine.failure = none
  due : c.machine.Live → c.removeAt = none

/-- What a step under the lock can come to. -/
inductive Locked (l : ScoutLimits) (at_ now : ℕ) (c : Scout Report) (e : ScoutEvent) :
    Scout Report × List (Job Report) → Prop
  | runs (hlive : (c.machine.step l e).1.Live ↔ c.machine.Live)
      (hfailure : (c.machine.step l e).1.failure = c.machine.failure)
      (hstate : (c.machine.step l e).1.state = .working ∨
        (c.machine.step l e).1.state = c.machine.state)
      (haccepted : c.machine.Live → e ≠ .reportAccepted) :
      Locked l at_ now c e (c.stepped l e, c.effectJobs (c.machine.step l e).2)
  | ends (v : Except String Unit) (hlive : c.machine.Live)
      (hend : (c.machine.step l e).1.EndedWith v) (hverdict : v = .ok () ↔ e = .reportAccepted) :
      Locked l at_ now c e ((c.stepped l e).closed at_ now v,
        .tell ((c.stepped l e).told v) :: c.effectJobs (c.machine.step l e).2)

theorem stepLocked_eq (c : Scout Report) (e : ScoutEvent) : c.stepLocked l at_ now e =
    let (c', outcome) := (c.machine.step l e).2.foldl (absorb at_ now) (c.stepped l e, none)
    (c', (outcome.map Job.tell).toList ++ c'.effectJobs (c.machine.step l e).2) := rfl

variable (l at_ now) in
theorem locked_stepLocked (hc : c.Sound) (e : ScoutEvent) :
    Locked l at_ now c e (c.stepLocked l at_ now e) := by
  rw [stepLocked_eq]
  by_cases hlive : c.machine.Live
  · rcases hstep : c.machine.step l e with ⟨m', effects⟩
    have hsteps := ScoutMachine.steps_step (l := l) hlive (hc.failure hlive) e
    rw [hstep] at hsteps
    cases hsteps with
    | runs texts hstate hfailure haccepted =>
      have hlive' : m'.Live := hstate.elim .inr fun hsame => by rwa [ScoutMachine.Live, hsame]
      rw [absorb_sends]
      have hlocked : Locked l at_ now c e (c.stepped l e, c.effectJobs (c.machine.step l e).2) :=
        .runs (by simp [hstep, hlive, hlive']) (by rw [hstep, hfailure, hc.failure hlive])
          (by rwa [hstep]) fun _ => haccepted
      rwa [hstep] at hlocked
    | ends v hend hverdict =>
      have hout : (c.stepped l e).outcome = true := hc.outcome.2 hlive
      rw [absorb_ending, if_pos hout]
      have hlocked : Locked l at_ now c e ((c.stepped l e).closed at_ now v,
          .tell ((c.stepped l e).told v) :: c.effectJobs (c.machine.step l e).2) :=
        .ends v hlive (by rwa [hstep]) hverdict
      rwa [hstep] at hlocked
  · have hstep := ScoutMachine.step_of_ended (l := l) hlive e
    have hlocked : Locked l at_ now c e (c.stepped l e, c.effectJobs (c.machine.step l e).2) :=
      .runs (by simp [hstep]) (by simp [hstep]) (by simp [hstep]) fun h => absurd h hlive
    rw [hstep] at hlocked ⊢
    exact hlocked

theorem machine_stepLocked (hc : c.Sound) (e : ScoutEvent) :
    (c.stepLocked l at_ now e).1.machine = (c.machine.step l e).1 := by
  have hlocked := locked_stepLocked l at_ now hc e
  generalize c.stepLocked l at_ now e = out at hlocked ⊢
  cases hlocked <;> rfl

end Scout

/-! ## What the table and the desk agree on -/

namespace Service

/-- What was told of the scout, or is about to be. -/
def told (s : Service Report) : List (ScoutOutcome Report) := s.sent ++ s.jobs.filterMap Job.outcome

/-- Where the scout's report is: with no one, being checked, on disk and not yet taken, on disk and
    refused, or taken. -/
inductive Stage (Report : Type)
  | idle
  | checking
  | written (report : Report)
  | refused (report : Report)
  | taken (report : Report)

namespace Stage

def submissions : Stage Report → List (Submission Report)
  | idle | taken _ => []
  | checking => [.checking]
  | written report => [.written report]
  | refused _ => [.refused]

def file : Stage Report → Option Report
  | idle | checking => none
  | written report | refused report | taken report => some report

def taken? : Stage Report → Option Report
  | taken report => some report
  | _ => none

def Storing : Stage Report → Bool
  | checking | written _ => true
  | _ => false

/-- The scout ended before. -/
def Ended : Stage Report → Prop
  | refused _ | taken _ => True
  | _ => False

end Stage

/-- The report is at the stage, for all that knows of it. -/
structure Desk (s : Service Report) (stage : Stage Report) : Prop where
  submissions : s.submissions = stage.submissions
  file : s.file = stage.file
  told : ∀ report, .report report ∈ s.told ↔ stage.taken? = some report
  storing : ∀ c ∈ s.scout, c.storing = stage.Storing
  report : ∀ c ∈ s.scout, c.report = stage.taken?
  ended : stage.Ended → ∀ c ∈ s.scout, ¬c.machine.Live

/-- An outcome agrees with the machine that is still in the table, and with the kind of session. -/
def Agrees (planner : Bool) (scout : Option (Scout Report)) : ScoutOutcome Report → Prop
  | .report _ => planner = false ∧ ∀ c ∈ scout, c.machine.EndedWith (.ok ())
  | .accepted => planner = true ∧ ∀ c ∈ scout, c.machine.EndedWith (.ok ())
  | .failed reason | .unsubmitted reason => ∀ c ∈ scout, c.machine.EndedWith (.error reason)

structure Inv (planner : Bool) (s : Service Report) : Prop where
  desk : ∃ stage, s.Desk stage
  length : s.told.length ≤ 1
  sound : ∀ c ∈ s.scout, c.Sound
  kind : ∀ c ∈ s.scout, c.planner = planner
  live : ∀ c ∈ s.scout, (s.told = [] ↔ c.machine.Live)
  gone : s.scout = none → s.launch = .fresh ∨ s.launch = .failed ∨ s.told ≠ []
  fresh : s.launch = .fresh → s.scout = none ∧ s.told = [] ∧ s.submissions = []
  /-- No window is bound before the scout was started. -/
  started : ∀ c ∈ s.scout, (s.launch = .inserted ∧ c.windowId = none) ∨
    (s.launch ≠ .inserted ∧ s.launch ≠ .fresh ∧ c.machine.state ≠ .starting)
  early : s.launch = .inserted → s.submissions = []
  /-- A sub-planner stores no report. -/
  stores : planner = true → s.submissions = []
  agrees : ∀ outcome ∈ s.told, Agrees planner s.scout outcome

/-- The desk sees of a scout only its report, and whether it ended. -/
theorem Desk.frame {stage : Stage Report} (hdesk : s.Desk stage)
    (hsubmissions : s'.submissions = s.submissions) (hfile : s'.file = s.file)
    (htold : ∀ report, .report report ∈ s'.told ↔ .report report ∈ s.told)
    (hscout : ∀ c' ∈ s'.scout, ∃ c ∈ s.scout, c'.storing = c.storing ∧ c'.report = c.report ∧
      (c'.machine.Live → c.machine.Live)) : s'.Desk stage where
  submissions := hsubmissions.trans hdesk.submissions
  file := hfile.trans hdesk.file
  told report := (htold report).trans (hdesk.told report)
  storing c' hc' := by
    obtain ⟨c, hmem, hstoring, -, -⟩ := hscout c' hc'
    exact hstoring.trans (hdesk.storing c hmem)
  report c' hc' := by
    obtain ⟨c, hmem, -, hreport, -⟩ := hscout c' hc'
    exact hreport.trans (hdesk.report c hmem)
  ended hended c' hc' := by
    obtain ⟨c, hmem, -, -, hlive⟩ := hscout c' hc'
    exact mt hlive (hdesk.ended hended c hmem)

variable (l at_ now e) in
theorem told_drive (hscout : s.scout = some c) : (s.drive l at_ now e).told =
    s.told ++ (c.stepLocked l at_ now e).2.filterMap Job.outcome := by
  simp only [told, drive, hscout, filterMap_append, append_assoc]

variable (l at_ now e) in
theorem scout_drive (hscout : s.scout = some c) :
    (s.drive l at_ now e).scout = some (c.stepLocked l at_ now e).1 := by
  simp only [drive, hscout]

theorem drive_of_none (hscout : s.scout = none) : s.drive l at_ now e = s := by
  simp only [drive, hscout]

theorem launch_drive : (s.drive l at_ now e).launch = s.launch := by
  rw [drive]
  split <;> rfl

theorem submissions_drive : (s.drive l at_ now e).submissions = s.submissions := by
  rw [drive]
  split <;> rfl

theorem file_drive : (s.drive l at_ now e).file = s.file := by
  rw [drive]
  split <;> rfl

/-- A verdict stays as the machine takes more events. -/
theorem Agrees.step {outcome : ScoutOutcome Report} {c' : Scout Report}
    (hended : ¬c.machine.Live) (hmachine : c'.machine = (c.machine.step l e).1)
    (hagrees : Agrees planner (some c) outcome) : Agrees planner (some c') outcome := by
  have hkeeps (v : Except String Unit) (hend : c.machine.EndedWith v) : c'.machine.EndedWith v := by
    rw [hmachine, ScoutMachine.step_of_ended hended]
    exact endedWith_counted hend e
  cases outcome with
  | report | accepted =>
    refine ⟨hagrees.1, fun x hx => ?_⟩
    cases hx
    exact hkeeps _ (hagrees.2 c rfl)
  | failed | unsubmitted =>
    intro x hx
    cases hx
    exact hkeeps _ (hagrees c rfl)

/-- A scout that is over agrees with the one outcome that was told. -/
theorem inv_over (stage : Stage Report) {outcome : ScoutOutcome Report} (hscout : s.scout = some c)
    (htold : s.told = [outcome]) (hover : ¬c.machine.Live) (hout : c.outcome = false)
    (hkind : c.planner = planner) (hdesk : s.Desk stage)
    (hstarted : (s.launch = .inserted ∧ c.windowId = none) ∨
      (s.launch ≠ .inserted ∧ s.launch ≠ .fresh))
    (hearly : s.launch = .inserted → s.submissions = [])
    (hstores : planner = true → s.submissions = []) (hagrees : Agrees planner (some c) outcome) :
    Inv planner s where
  desk := ⟨stage, hdesk⟩
  length := by simp [htold]
  sound := by
    rw [hscout]
    rintro _ ⟨⟩
    exact ⟨iff_of_false (by simp [hout]) hover, fun h => absurd h hover, fun h => absurd h hover⟩
  kind := by
    rw [hscout]
    rintro _ ⟨⟩
    exact hkind
  live := by
    rw [hscout, htold]
    rintro _ ⟨⟩
    exact iff_of_false (by simp) hover
  gone := by simp [hscout]
  fresh hfresh := by simp [hfresh] at hstarted
  started := by
    rw [hscout]
    rintro _ ⟨⟩
    exact hstarted.imp id fun h => ⟨h.1, h.2, fun hstarting => hover (.inl hstarting)⟩
  early := hearly
  stores := hstores
  agrees := by
    rw [hscout, htold]
    intro o hmem
    rw [mem_singleton.1 hmem]
    exact hagrees

/-- An event for a scout keeps what is agreed, if an accepted report is a sub-planner's. -/
theorem Inv.drive (hinv : Inv planner s) (at_ now : ℕ)
    (haccepted : e = .reportAccepted → planner = true) : Inv planner (s.drive l at_ now e) := by
  rcases hscout : s.scout with _ | c
  · rwa [drive_of_none hscout]
  have hsound := hinv.sound c hscout
  have hlive := hinv.live c hscout
  obtain ⟨stage, hdesk⟩ := hinv.desk
  have htold := told_drive l at_ now e hscout
  have hscout' := scout_drive l at_ now e hscout
  have hlocked := Scout.locked_stepLocked l at_ now hsound e
  generalize c.stepLocked l at_ now e = out at htold hscout' hlocked
  cases hlocked with
  | runs hsame hfailure hstate _ =>
    simp only [Scout.filterMap_outcome_effectJobs, append_nil] at htold hscout'
    exact {
      desk := ⟨stage, hdesk.frame submissions_drive file_drive (fun _ => by rw [htold]) (by
        rw [hscout']
        rintro _ ⟨⟩
        exact ⟨c, hscout, rfl, rfl, hsame.1⟩)⟩
      length := htold ▸ hinv.length
      sound := by
        rw [hscout']
        rintro _ ⟨⟩
        exact ⟨hsound.outcome.trans hsame.symm, fun h => hfailure.trans (hsound.failure (hsame.1 h)),
          fun h => hsound.due (hsame.1 h)⟩
      kind := by
        rw [hscout']
        rintro _ ⟨⟩
        exact hinv.kind c hscout
      live := by
        rw [hscout', htold]
        rintro _ ⟨⟩
        exact hlive.trans hsame.symm
      gone := by simp [hscout']
      fresh := fun h => absurd (hinv.fresh (launch_drive.symm.trans h)).1 (by simp [hscout])
      started := by
        rw [hscout', launch_drive]
        rintro _ ⟨⟩
        refine (hinv.started c hscout).imp id fun h => ⟨h.1, h.2.1, ?_⟩
        rcases hstate with hworking | hstate
        · rw [Scout.stepped, hworking]
          simp
        · exact hstate ▸ h.2.2
      early := fun h => submissions_drive.trans (hinv.early (launch_drive.symm.trans h))
      stores := fun h => submissions_drive.trans (hinv.stores h)
      agrees := by
        rw [hscout', htold]
        intro outcome hmem
        have hended : ¬c.machine.Live := fun h => by simp [hlive.2 h] at hmem
        exact (hscout ▸ hinv.agrees outcome hmem).step hended rfl }
  | ends v hrun hend hverdict =>
    have hnone : c.report = none := by
      rw [hdesk.report c hscout]
      cases stage with
      | taken => exact absurd hrun (hdesk.ended trivial c hscout)
      | _ => rfl
    have hagrees : Agrees planner (some ((c.stepped l e).closed at_ now v)) ((c.stepped l e).told v) ∧
        ∀ report, (c.stepped l e).told v ≠ .report report := by
      cases v with
      | ok =>
        have hplanner : c.planner = true := (hinv.kind c hscout).trans (haccepted (hverdict.1 rfl))
        have htells : (c.stepped l e).told (.ok ()) = .accepted := by
          simp [Scout.told, Scout.stepped, hnone, hplanner]
        rw [htells]
        refine ⟨⟨haccepted (hverdict.1 rfl), ?_⟩, by simp⟩
        rintro _ ⟨⟩
        exact hend
      | error reason =>
        rw [Scout.told]
        split_ifs
        all_goals
          refine ⟨?_, by simp⟩
          rintro _ ⟨⟩
          exact hend
    have hnew : (s.drive l at_ now e).told = [(c.stepped l e).told v] := by
      rw [htold, hlive.2 hrun, nil_append]
      exact congrArg (_ :: ·) (c.filterMap_outcome_effectJobs _)
    exact inv_over stage hscout' hnew (not_live_of_endedWith hend) rfl (hinv.kind c hscout)
      (hdesk.frame submissions_drive file_drive
        (fun report => by simp [hnew, hlive.2 hrun, (hagrees.2 report).symm]) (by
          rw [hscout']
          rintro _ ⟨⟩
          exact ⟨c, hscout, rfl, rfl, fun h => absurd h (not_live_of_endedWith hend)⟩))
      (by
        rw [launch_drive]
        exact (hinv.started c hscout).imp id fun h => ⟨h.1, h.2.1⟩)
      (fun h => submissions_drive.trans (hinv.early (launch_drive.symm.trans h)))
      (fun h => submissions_drive.trans (hinv.stores h)) hagrees.1

theorem Agrees.mono {outcome : ScoutOutcome Report} {scout scout' : Option (Scout Report)}
    (hscout : ∀ c' ∈ scout', ∃ c ∈ scout, c'.machine = c.machine)
    (hagrees : Agrees planner scout outcome) : Agrees planner scout' outcome := by
  have hkeeps (v : Except String Unit) (hend : ∀ c ∈ scout, c.machine.EndedWith v) :
      ∀ c' ∈ scout', c'.machine.EndedWith v := fun c' hc' => by
    obtain ⟨c, hc, hmachine⟩ := hscout c' hc'
    exact hmachine ▸ hend c hc
  cases outcome with
  | report | accepted => exact ⟨hagrees.1, hkeeps _ hagrees.2⟩
  | failed | unsubmitted => exact hkeeps _ hagrees

/-- A step that leaves the machine as it is keeps what is agreed, if the report's stage is still
    what the desk says, and the scout is not dropped untold. -/
theorem Inv.move (hinv : Inv planner s) (stage : Stage Report) (hdesk : s'.Desk stage)
    (htold : s'.told ~ s.told) (hfresh : s'.launch ≠ .fresh)
    (hscout : ∀ c' ∈ s'.scout, ∃ c ∈ s.scout, c'.machine = c.machine ∧ c'.outcome = c.outcome ∧
      c'.planner = c.planner ∧ (c.removeAt = none → c'.removeAt = none))
    (hgone : s'.scout = none → s'.launch = .failed ∨ s.told ≠ [])
    (hstarted : ∀ c' ∈ s'.scout, (s'.launch = .inserted ∧ c'.windowId = none) ∨
      (s'.launch ≠ .inserted ∧ c'.machine.state ≠ .starting))
    (hearly : s'.launch = .inserted → s'.submissions = [])
    (hstores : planner = true → s'.submissions = []) : Inv planner s' where
  desk := ⟨stage, hdesk⟩
  length := htold.length_eq ▸ hinv.length
  sound c' hc' := by
    obtain ⟨c, hc, hmachine, hout, -, hdue⟩ := hscout c' hc'
    have hsound := hinv.sound c hc
    exact ⟨by rw [hout, hmachine, hsound.outcome], by rw [hmachine]; exact hsound.failure,
      fun h => hdue (hsound.due (hmachine ▸ h))⟩
  kind c' hc' := by
    obtain ⟨c, hc, -, -, hplanner, -⟩ := hscout c' hc'
    exact hplanner.trans (hinv.kind c hc)
  live c' hc' := by
    obtain ⟨c, hc, hmachine, -, -, -⟩ := hscout c' hc'
    have hnil : s'.told = [] ↔ s.told = [] :=
      ⟨fun h => (h ▸ htold).symm.eq_nil, fun h => (h ▸ htold).eq_nil⟩
    rw [hnil, hmachine, hinv.live c hc]
  gone h := .inr ((hgone h).imp id fun hne h => hne (h ▸ htold).symm.eq_nil)
  fresh h := absurd h hfresh
  started c' hc' := (hstarted c' hc').imp id fun h => ⟨h.1, hfresh, h.2⟩
  early := hearly
  stores := hstores
  agrees outcome hmem := (hinv.agrees outcome (htold.mem_iff.1 hmem)).mono fun c' hc' =>
    let ⟨c, hc, hmachine, _⟩ := hscout c' hc'
    ⟨c, hc, hmachine⟩

theorem inv_new : Inv planner ({} : Service Report) where
  desk := ⟨.idle, rfl, rfl, by simp [told, Stage.taken?], by simp, by simp, by simp⟩
  length := by simp [told]
  sound := by simp
  kind := by simp
  live := by simp
  gone _ := .inl rfl
  fresh _ := ⟨rfl, rfl, rfl⟩
  started := by simp
  early _ := rfl
  stores _ := rfl
  agrees := by simp [told]

theorem Inv.insert (hinv : Inv planner s) (hlaunch : s.launch = .fresh) :
    Inv planner { s with launch := .inserted, scout := some { planner } } := by
  obtain ⟨hnone, htold, hsubmissions⟩ := hinv.fresh hlaunch
  obtain ⟨stage, hdesk⟩ := hinv.desk
  have hidle : stage = .idle := by
    have hempty := hdesk.submissions.symm.trans hsubmissions
    cases stage with
    | idle => rfl
    | taken report => exact absurd ((hdesk.told report).2 rfl) (by simp [htold])
    | _ => cases hempty
  subst hidle
  have hentry : ∀ c ∈ some ({ planner } : Scout Report), c = { planner } := fun c hc => by
    cases hc
    rfl
  exact {
    desk := ⟨.idle, hdesk.submissions, hdesk.file, hdesk.told, fun c hc => by rw [hentry c hc]; rfl,
      fun c hc => by rw [hentry c hc]; rfl, fun h => h.elim⟩
    length := hinv.length
    sound := fun c hc => by
      rw [hentry c hc]
      exact ⟨iff_of_true rfl (.inl rfl), fun _ => rfl, fun _ => rfl⟩
    kind := fun c hc => by rw [hentry c hc]
    live := fun c hc => by
      rw [hentry c hc]
      exact iff_of_true htold (.inl rfl)
    gone := by simp
    fresh := by simp
    started := fun c hc => by
      rw [hentry c hc]
      exact .inl ⟨rfl, rfl⟩
    early := fun _ => hsubmissions
    stores := hinv.stores
    agrees := fun outcome hmem => by
      have hmem' : outcome ∈ s.told := hmem
      simp [htold] at hmem' }

/-- The launch goes on: the scout was started. -/
theorem Inv.launched {launch : Launch} (hinv : Inv planner s) (hold : s.launch ≠ .fresh)
    (hlaunch : launch ≠ .fresh ∧ launch ≠ .inserted) (hfailed : s.launch ≠ .failed)
    (hstarted : ∀ c ∈ s.scout, c.machine.state ≠ .starting) :
    Inv planner { s with launch } := by
  obtain ⟨stage, hdesk⟩ := hinv.desk
  refine hinv.move stage
    ⟨hdesk.submissions, hdesk.file, hdesk.told, hdesk.storing, hdesk.report, hdesk.ended⟩ (.refl _)
    hlaunch.1 (fun c hc => ⟨c, hc, rfl, rfl, rfl, id⟩) (fun hnone => ?_)
    (fun c hc => .inr ⟨hlaunch.2, hstarted c hc⟩) (fun h => absurd h hlaunch.2) hinv.stores
  rcases hinv.gone hnone with h | h | h
  · exact absurd h hold
  · exact absurd h hfailed
  · exact .inr h

theorem state_start (m : ScoutMachine) : (m.step l (.start now)).1.state ≠ .starting := by
  by_cases hlive : m.Live
  · rw [ScoutMachine.step_of_live hlive]
    simp [ScoutMachine.liveStep]
  · rw [ScoutMachine.step_of_ended hlive, ScoutMachine.counted_state]
    exact fun hstate => hlive (.inl hstate)

theorem Inv.start (hinv : Inv planner s) (at_ now : ℕ) (hlaunch : s.launch = .inserted) :
    Inv planner { s.drive l at_ now (.start now) with launch := .creating } := by
  have hdriven := hinv.drive (l := l) (e := .start now) at_ now (by simp)
  refine hdriven.launched ?_ (by simp) ?_ fun c' hc' => ?_
  · simp [launch_drive, hlaunch]
  · simp [launch_drive, hlaunch]
  · rcases hscout : s.scout with _ | c
    · rw [drive_of_none hscout] at hc'
      simp [hscout] at hc'
    · rw [scout_drive _ _ _ _ hscout] at hc'
      cases hc'
      rw [Scout.machine_stepLocked (hinv.sound c hscout)]
      exact state_start c.machine

theorem launch_bind {killOwed : Bool} : (s.bind window killOwed).launch = s.launch := by
  rw [Service.bind]
  split <;> rfl

/-- A bind, early or late. -/
theorem Inv.bind (hinv : Inv planner s) (window : ℕ) (killOwed : Bool)
    (hlaunch : s.launch ≠ .fresh ∧ s.launch ≠ .inserted) : Inv planner (s.bind window killOwed) := by
  rcases hscout : s.scout with _ | c
  · simpa only [Service.bind, hscout] using hinv
  obtain ⟨stage, hdesk⟩ := hinv.desk
  have htold : (s.bind window killOwed).told = s.told := by
    simp only [Service.bind, hscout, told, filterMap_append]
    split_ifs <;> simp [Job.outcome]
  have hbound : ∀ c' ∈ (s.bind window killOwed).scout, c'.machine = c.machine ∧
      c'.outcome = c.outcome ∧ c'.planner = c.planner ∧ c'.removeAt = c.removeAt ∧
      c'.storing = c.storing ∧ c'.report = c.report := by
    simp only [Service.bind, hscout]
    rintro _ ⟨⟩
    exact ⟨rfl, rfl, rfl, rfl, rfl, rfl⟩
  have hsame : (s.bind window killOwed).launch = s.launch ∧
      (s.bind window killOwed).submissions = s.submissions ∧
      (s.bind window killOwed).file = s.file := by
    simp only [Service.bind, hscout, and_self]
  refine hinv.move stage (hdesk.frame hsame.2.1 hsame.2.2 (fun _ => by rw [htold])
    fun c' hc' => ⟨c, hscout, ?_⟩) (htold ▸ .refl _) (hsame.1 ▸ hlaunch.1)
    (fun c' hc' => ⟨c, hscout, ?_⟩) (fun hnone => ?_) (fun c' hc' => ?_)
    (fun h => absurd (hsame.1 ▸ h) hlaunch.2) (fun h => hsame.2.1.trans (hinv.stores h))
  · obtain ⟨hmachine, -, -, -, hstoring, hreport⟩ := hbound c' hc'
    exact ⟨hstoring, hreport, by rw [hmachine]; exact id⟩
  · obtain ⟨hmachine, hout, hplanner, hdue, -, -⟩ := hbound c' hc'
    exact ⟨hmachine, hout, hplanner, fun h => hdue.trans h⟩
  · simp [Service.bind, hscout] at hnone
  · refine .inr ⟨hsame.1 ▸ hlaunch.2, ?_⟩
    rw [(hbound c' hc').1]
    exact ((hinv.started c hscout).resolve_left fun h => hlaunch.2 h.1).2.2

/-- A submission that is being handled is the only one. -/
theorem Desk.only {stage : Stage Report} {before after : List (Submission Report)}
    {submission : Submission Report} (hdesk : s.Desk stage)
    (hsubmissions : s.submissions = before ++ submission :: after) :
    before = [] ∧ after = [] ∧ stage.submissions = [submission] := by
  have hlength : (before ++ submission :: after).length ≤ 1 := by
    rw [← hsubmissions, hdesk.submissions]
    cases stage <;> simp [Stage.submissions]
  simp only [length_append, length_cons] at hlength
  have hbefore : before = [] := length_eq_zero_iff.1 (by omega)
  have hafter : after = [] := length_eq_zero_iff.1 (by omega)
  subst hbefore hafter
  exact ⟨rfl, rfl, hdesk.submissions.symm.trans hsubmissions⟩

/-- The launch is over when a report is handled. -/
theorem Inv.underway (hinv : Inv planner s) (hsubmissions : s.submissions ≠ []) :
    s.launch ≠ .fresh ∧ s.launch ≠ .inserted :=
  ⟨fun h => hsubmissions (hinv.fresh h).2.2, fun h => hsubmissions (hinv.early h)⟩

/-- A step of the desk: the report goes to another stage, and the machine stays as it is. -/
theorem Inv.desk_step (hinv : Inv planner s) (stage : Stage Report)
    (hlaunch : s.launch ≠ .fresh ∧ s.launch ≠ .inserted) (hkind : planner = false)
    (hdesk : s'.Desk stage) (hsame : s'.launch = s.launch) (htold : s'.told = s.told)
    (hscout : ∀ c' ∈ s'.scout, ∃ c ∈ s.scout, c' = { c with storing := c'.storing })
    (hnone : s'.scout = none → s.scout = none) : Inv planner s' := by
  refine hinv.move stage hdesk (htold ▸ .refl _) (hsame ▸ hlaunch.1) (fun c' hc' => ?_) (fun h => ?_)
    (fun c' hc' => .inr ⟨hsame ▸ hlaunch.2, ?_⟩) (fun h => absurd (hsame ▸ h) hlaunch.2)
    (fun h => by simp [hkind] at h)
  · obtain ⟨c, hc, heq⟩ := hscout c' hc'
    rw [heq]
    exact ⟨c, hc, rfl, rfl, rfl, id⟩
  · rw [hsame]
    exact (hinv.gone (hnone h)).resolve_left hlaunch.1
  · obtain ⟨c, hc, heq⟩ := hscout c' hc'
    rw [heq]
    exact ((hinv.started c hc).resolve_left fun h => hlaunch.2 h.1).2.2

theorem Inv.claim (hinv : Inv planner s) (hscout : s.scout = some c) (hclaims : claims c window) :
    Inv planner { s with
      scout := some { c with storing := true }
      submissions := s.submissions ++ [.checking] } := by
  obtain ⟨stage, hdesk⟩ := hinv.desk
  simp only [claims, Bool.and_eq_true, Bool.not_eq_true', Bool.or_eq_false_iff, decide_eq_true_eq,
    decide_eq_false_iff_not, Option.isSome_eq_false_iff, Option.isNone_iff_eq_none] at hclaims
  obtain ⟨⟨⟨hplanner, hwindow⟩, hreport, hstoring⟩, hfailed, hreported⟩ := hclaims
  have hlive : c.machine.Live := by
    rw [ScoutMachine.Live]
    cases hstate : c.machine.state <;> simp [hstate] at hfailed hreported ⊢
  have hidle : stage = .idle := by
    have hstage := hdesk.storing c hscout
    cases stage with
    | idle => rfl
    | refused | taken => exact absurd hlive (hdesk.ended trivial c hscout)
    | checking | written => simp [hstoring, Stage.Storing] at hstage
  subst hidle
  have hlaunch : s.launch ≠ .fresh ∧ s.launch ≠ .inserted := by
    rcases hinv.started c hscout with ⟨-, h⟩ | ⟨hinserted, hfresh, -⟩
    · simp [hwindow] at h
    · exact ⟨hfresh, hinserted⟩
  refine hinv.desk_step .checking hlaunch ((hinv.kind c hscout).symm.trans hplanner)
    ⟨?_, hdesk.file, hdesk.told, ?_, ?_, fun h => h.elim⟩ rfl rfl ?_ (by simp)
  · exact congrArg (· ++ _) hdesk.submissions
  · rintro _ ⟨⟩
    rfl
  · rintro _ ⟨⟩
    exact hreport
  · rintro _ ⟨⟩
    exact ⟨c, hscout, rfl⟩

/-- A report in someone's hands is a scout's. -/
theorem Inv.stored (hinv : Inv planner s) (hsubmissions : s.submissions ≠ []) : planner = false := by
  cases planner with
  | false => rfl
  | true => exact absurd (hinv.stores rfl) hsubmissions

theorem mem_scout_unclaim {c' : Scout Report} (hc' : c' ∈ s.scout.map ({ · with storing := false })) :
    ∃ c ∈ s.scout, c' = { c with storing := false } := by
  obtain ⟨c, hc, rfl⟩ := Option.mem_map.1 hc'
  exact ⟨c, hc, rfl⟩

theorem Inv.reject {before after : List (Submission Report)} (hinv : Inv planner s)
    (hsubmissions : s.submissions = before ++ .checking :: after) :
    Inv planner { s.unclaim with submissions := before ++ after } := by
  obtain ⟨stage, hdesk⟩ := hinv.desk
  obtain ⟨rfl, rfl, hstage⟩ := hdesk.only hsubmissions
  have hne : s.submissions ≠ [] := by simp [hsubmissions]
  cases stage with
  | checking =>
    refine hinv.desk_step .idle (hinv.underway hne) (hinv.stored hne)
      ⟨rfl, hdesk.file, hdesk.told, fun c' hc' => ?_, fun c' hc' => ?_, fun h => h.elim⟩ rfl rfl
      (fun c' hc' => ?_) (fun h => by simpa [unclaim] using h)
    · obtain ⟨c, -, rfl⟩ := mem_scout_unclaim hc'
      rfl
    · obtain ⟨c, hc, rfl⟩ := mem_scout_unclaim hc'
      exact hdesk.report c hc
    · obtain ⟨c, hc, rfl⟩ := mem_scout_unclaim hc'
      exact ⟨c, hc, rfl⟩
  | _ => cases hstage

theorem Inv.write {before after : List (Submission Report)} (hinv : Inv planner s) (report : Report)
    (hsubmissions : s.submissions = before ++ .checking :: after) :
    Inv planner { s with
      file := some report
      submissions := before ++ .written report :: after } := by
  obtain ⟨stage, hdesk⟩ := hinv.desk
  obtain ⟨rfl, rfl, hstage⟩ := hdesk.only hsubmissions
  have hne : s.submissions ≠ [] := by simp [hsubmissions]
  cases stage with
  | checking =>
    exact hinv.desk_step (.written report) (hinv.underway hne) (hinv.stored hne)
      ⟨rfl, rfl, hdesk.told, hdesk.storing, hdesk.report, fun h => h.elim⟩ rfl rfl
      (fun c hc => ⟨c, hc, rfl⟩) id
  | _ => cases hstage

theorem Inv.cleanup {before after : List (Submission Report)} (hinv : Inv planner s)
    (hsubmissions : s.submissions = before ++ .refused :: after) :
    Inv planner { s with file := none, submissions := before ++ after } := by
  obtain ⟨stage, hdesk⟩ := hinv.desk
  obtain ⟨rfl, rfl, hstage⟩ := hdesk.only hsubmissions
  have hne : s.submissions ≠ [] := by simp [hsubmissions]
  cases stage with
  | refused report =>
    exact hinv.desk_step .idle (hinv.underway hne) (hinv.stored hne)
      ⟨rfl, rfl, hdesk.told, hdesk.storing, hdesk.report, fun h => h.elim⟩ rfl rfl
      (fun c hc => ⟨c, hc, rfl⟩) id
  | _ => cases hstage

theorem Inv.refused {before after : List (Submission Report)} {report : Report}
    (hinv : Inv planner s) (hsubmissions : s.submissions = before ++ .written report :: after)
    (hcommit : s.commit l at_ now report = (s', false)) :
    Inv planner { s' with submissions := before ++ .refused :: after } := by
  obtain ⟨stage, hdesk⟩ := hinv.desk
  obtain ⟨rfl, rfl, hstage⟩ := hdesk.only hsubmissions
  have hne : s.submissions ≠ [] := by simp [hsubmissions]
  cases stage with
  | written report' =>
    cases hstage
    have hunder := hinv.underway hne
    rcases hscout : s.scout with _ | c
    · simp only [commit, hscout, Prod.mk.injEq, and_true] at hcommit
      subst hcommit
      exact hinv.desk_step (.refused report) hunder (hinv.stored hne)
        ⟨rfl, hdesk.file, hdesk.told, by simp [hscout], by simp [hscout], by simp [hscout]⟩ rfl rfl
        (by simp [hscout]) id
    · simp only [commit, hscout] at hcommit
      split_ifs at hcommit with hstate
      · simp only [Prod.mk.injEq, and_true] at hcommit
        subst hcommit
        have hstarted := ((hinv.started c hscout).resolve_left fun h => hunder.2 h.1).2.2
        refine hinv.desk_step (.refused report) hunder (hinv.stored hne)
          ⟨rfl, hdesk.file, hdesk.told, ?_, ?_, ?_⟩ rfl rfl ?_ (by simp)
        · rintro _ ⟨⟩
          rfl
        · rintro _ ⟨⟩
          exact hdesk.report c hscout
        · rintro - _ ⟨⟩ (hlive | hlive)
          · exact hstarted hlive
          · exact hstate hlive
        · rintro _ ⟨⟩
          exact ⟨c, hscout, rfl⟩
      · simp at hcommit
  | _ => cases hstage

/-- A report that is accepted ends the scout, and is told of as it was written. -/
structure Taken (s s' : Service Report) (c c' : Scout Report) (report : Report) : Prop where
  working : c.machine.state = .working
  scout : s'.scout = some c'
  told : s'.told = s.told ++ [.report report]
  ended : c'.machine.EndedWith (.ok ())
  entry : c'.outcome = false ∧ c'.planner = c.planner ∧ c'.storing = false ∧ c'.report = some report
  launch : s'.launch = s.launch
  file : s'.file = s.file

theorem commit_taken {report : Report} (hscout : s.scout = some c) (hsound : c.Sound)
    (hcommit : s.commit l at_ now report = (s', true)) : ∃ c', Taken s s' c c' report := by
  simp only [commit, hscout] at hcommit
  split_ifs at hcommit with hstate
  · simp at hcommit
  simp only [Prod.mk.injEq, and_true, ne_eq, not_not] at hcommit hstate
  -- The entry that takes the machine's step holds the report, and is sound as before.
  have hlocked := Scout.locked_stepLocked l at_ now
    (c := { c with storing := false, report := some report })
    ⟨hsound.outcome, hsound.failure, hsound.due⟩ .reportAccepted
  have htold := told_drive l at_ now .reportAccepted
    (s := { s with scout := some { c with storing := false, report := some report } }) rfl
  have hscout' := scout_drive l at_ now .reportAccepted
    (s := { s with scout := some { c with storing := false, report := some report } }) rfl
  rw [hcommit] at htold hscout'
  generalize Scout.stepLocked l at_ now { c with storing := false, report := some report }
    .reportAccepted = out at hlocked htold hscout'
  cases hlocked with
  | runs _ _ _ haccepted => exact absurd rfl (haccepted (.inr hstate))
  | ends v _ hend hverdict =>
    obtain rfl := hverdict.2 rfl
    refine ⟨_, hstate, hscout', ?_, hend, ⟨rfl, rfl, rfl, rfl⟩, ?_, ?_⟩
    · rw [htold]
      exact congrArg (s.told ++ _ :: ·) (Scout.filterMap_outcome_effectJobs _ _)
    · rw [← hcommit, launch_drive]
    · rw [← hcommit, file_drive]

theorem Inv.accepted {before after : List (Submission Report)} {report : Report}
    (hinv : Inv planner s) (hsubmissions : s.submissions = before ++ .written report :: after)
    (hcommit : s.commit l at_ now report = (s', true)) :
    Inv planner { s' with submissions := before ++ after } := by
  obtain ⟨stage, hdesk⟩ := hinv.desk
  obtain ⟨rfl, rfl, hstage⟩ := hdesk.only hsubmissions
  have hne : s.submissions ≠ [] := by simp [hsubmissions]
  have hunder := hinv.underway hne
  cases stage with
  | written report' =>
    cases hstage
    rcases hscout : s.scout with _ | c
    · simp [commit, hscout] at hcommit
    obtain ⟨c', htaken⟩ := commit_taken hscout (hinv.sound c hscout) hcommit
    obtain ⟨hout, hplanner, hstoring, hreport⟩ := htaken.entry
    have hover := not_live_of_endedWith htaken.ended
    have htold : s'.told = [.report report] := by
      rw [htaken.told, (hinv.live c hscout).2 (.inr htaken.working), nil_append]
    have hmem : ∀ x ∈ s'.scout, x = c' := fun x hx => by
      rw [htaken.scout] at hx
      exact (Option.some_injective _ hx).symm
    exact inv_over (.taken report) htaken.scout htold hover hout
      (hplanner.trans (hinv.kind c hscout))
      ⟨rfl, htaken.file.trans hdesk.file, fun r => by
          have hiff : .report r ∈ s'.told ↔ r = report := by simp [htold]
          exact hiff.trans (by simp [Stage.taken?, eq_comm]),
        fun x hx => by rw [hmem x hx, hstoring]; rfl, fun x hx => by rw [hmem x hx, hreport]; rfl,
        fun _ x hx => hmem x hx ▸ hover⟩
      (.inr ⟨htaken.launch ▸ hunder.2, htaken.launch ▸ hunder.1⟩) (fun _ => rfl) (fun _ => rfl)
      ⟨hinv.stored hne, by rintro _ ⟨⟩; exact htaken.ended⟩
  | _ => cases hstage

theorem Inv.sweep (hinv : Inv planner s) (at_ : ℕ) : Inv planner (s.sweep at_) := by
  rcases hscout : s.scout with _ | c
  · simpa only [Service.sweep, hscout] using hinv
  rcases hwindow : c.windowId with _ | window
  · simpa only [Service.sweep, hscout, hwindow] using hinv
  obtain ⟨stage, hdesk⟩ := hinv.desk
  obtain ⟨hinserted, hfresh, hstarting⟩ :=
    (hinv.started c hscout).resolve_left fun h => by simp [hwindow] at h
  have hkill : ∀ p : Prop, [Decidable p] →
      (if p then [Job.kill window] else [] : List (Job Report)).filterMap Job.outcome = [] := by
    intro p _
    split_ifs <;> rfl
  by_cases hdue : c.removeAt.any (· ≤ at_)
  · -- Only a scout that is over has a removal to come.
    have hover : ¬c.machine.Live := fun hlive => by
      simp [(hinv.sound c hscout).due hlive] at hdue
    have hswept : (s.sweep at_).scout = none ∧ (s.sweep at_).told = s.told ∧
        (s.sweep at_).launch = s.launch ∧ (s.sweep at_).submissions = s.submissions ∧
        (s.sweep at_).file = s.file := by
      simp only [Service.sweep, hscout, hwindow, hdue, if_true, told, filterMap_append, hkill]
      simp [Job.outcome]
    obtain ⟨hnone, htold, hlaunch, hsubmissions, hfile⟩ := hswept
    exact hinv.move stage
      (hdesk.frame hsubmissions hfile (fun _ => by rw [htold]) (by simp [hnone])) (htold ▸ .refl _)
      (hlaunch ▸ hfresh) (by simp [hnone]) (fun _ => .inr (mt (hinv.live c hscout).1 hover))
      (by simp [hnone]) (fun h => absurd (hlaunch ▸ h) hinserted)
      (fun h => hsubmissions.trans (hinv.stores h))
  · have hswept : (s.sweep at_).scout = some { c with killAt := c.killAt.filter fun t => ¬t ≤ at_ } ∧
        (s.sweep at_).told = s.told ∧ (s.sweep at_).launch = s.launch ∧
        (s.sweep at_).submissions = s.submissions ∧ (s.sweep at_).file = s.file := by
      simp [Service.sweep, hscout, hwindow, hdue, told, Job.outcome]
    obtain ⟨hsome, htold, hlaunch, hsubmissions, hfile⟩ := hswept
    refine hinv.move stage
      (hdesk.frame hsubmissions hfile (fun _ => by rw [htold]) ?_) (htold ▸ .refl _)
      (hlaunch ▸ hfresh) ?_ (by simp [hsome]) ?_ (fun h => absurd (hlaunch ▸ h) hinserted)
      (fun h => hsubmissions.trans (hinv.stores h))
    all_goals
      rw [hsome]
      rintro _ ⟨⟩
    · exact ⟨c, hscout, rfl, rfl, id⟩
    · exact ⟨c, hscout, rfl, rfl, rfl, id⟩
    · exact .inr ⟨hlaunch ▸ hinserted, hstarting⟩

/-- A step that none of what is agreed is about. -/
theorem Inv.same (hinv : Inv planner s) (hlaunch : s'.launch = s.launch)
    (hscout : s'.scout = s.scout) (hsubmissions : s'.submissions = s.submissions)
    (hfile : s'.file = s.file) (htold : s'.told ~ s.told) : Inv planner s' := by
  by_cases hfresh : s.launch = .fresh
  · obtain ⟨hnone, hnil, hempty⟩ := hinv.fresh hfresh
    obtain ⟨stage, hdesk⟩ := hinv.desk
    have hnil' : s'.told = [] := (hnil ▸ htold).eq_nil
    exact {
      desk := ⟨stage, hdesk.frame hsubmissions hfile (fun _ => htold.mem_iff) (by simp [hscout, hnone])⟩
      length := by simp [hnil']
      sound := by simp [hscout, hnone]
      kind := by simp [hscout, hnone]
      live := by simp [hscout, hnone]
      gone := fun _ => .inl (hlaunch.trans hfresh)
      fresh := fun _ => ⟨hscout.trans hnone, hnil', hsubmissions.trans hempty⟩
      started := by simp [hscout, hnone]
      early := fun _ => hsubmissions.trans hempty
      stores := fun _ => hsubmissions.trans hempty
      agrees := by simp [hnil'] }
  · obtain ⟨stage, hdesk⟩ := hinv.desk
    refine hinv.move stage
      (hdesk.frame hsubmissions hfile (fun _ => htold.mem_iff) fun c hc =>
        ⟨c, hscout ▸ hc, rfl, rfl, id⟩) htold (hlaunch ▸ hfresh)
      (fun c hc => ⟨c, hscout ▸ hc, rfl, rfl, rfl, id⟩)
      (fun hnone => hlaunch ▸ (hinv.gone (hscout ▸ hnone)).resolve_left hfresh)
      (fun c hc => ?_) (fun h => hsubmissions.trans (hinv.early (hlaunch ▸ h)))
      (fun h => hsubmissions.trans (hinv.stores h))
    rw [hlaunch]
    exact (hinv.started c (hscout ▸ hc)).imp id fun h => ⟨h.1, h.2.2⟩

theorem told_perform {before after : List (Job Report)} {job : Job Report}
    (hjobs : s.jobs = before ++ job :: after) :
    ({ s with jobs := before ++ after }.perform job).told ~ s.told := by
  have hmove : s.told = s.sent ++ (before.filterMap Job.outcome ++
      (job.outcome.toList ++ after.filterMap Job.outcome)) := by
    rw [told, hjobs, filterMap_append, filterMap_cons]
    cases job.outcome <;> rfl
  have hdone : ({ s with jobs := before ++ after }.perform job).told =
      s.sent ++ (job.outcome.toList ++ (before.filterMap Job.outcome ++
        after.filterMap Job.outcome)) := by
    cases job with
    | run window effect => cases effect <;> simp [perform, told, Job.outcome]
    | tell | kill | remove => simp [perform, told, Job.outcome]
  rw [hmove, hdone]
  refine .append_left _ ?_
  rw [← append_assoc, ← append_assoc]
  exact perm_append_comm.append_right _

theorem perform_same (s : Service Report) (job : Job Report) : (s.perform job).launch = s.launch ∧
    (s.perform job).scout = s.scout ∧ (s.perform job).submissions = s.submissions ∧
    (s.perform job).file = s.file := by
  cases job with
  | run window effect => cases effect <;> exact ⟨rfl, rfl, rfl, rfl⟩
  | tell | kill | remove => exact ⟨rfl, rfl, rfl, rfl⟩

/-- A launch that fails drops the scout. -/
theorem Inv.fails (hinv : Inv planner s) :
    Inv planner { s with launch := .failed, scout := none } := by
  obtain ⟨stage, hdesk⟩ := hinv.desk
  exact hinv.move stage
    (hdesk.frame rfl rfl (fun _ => .rfl) (by simp)) (.refl _) (by simp) (by simp)
    (fun _ => .inl rfl) (by simp) (by simp) hinv.stores

theorem Inv.step (hinv : Inv planner s) (hstep : Step l planner window s s') : Inv planner s' := by
  cases hstep with
  | insert hlaunch => exact hinv.insert hlaunch
  | start at_ now hlaunch => exact hinv.start at_ now hlaunch
  | process hlaunch => exact hinv.same rfl rfl rfl rfl (.refl _)
  | early hlaunch => exact hinv.bind window false hlaunch
  | bound hlaunch hprocess =>
    have hcreating : (s.bind window true).launch = .creating := launch_bind.trans hlaunch
    have hbound := hinv.bind window true (by simp [hlaunch])
    refine hbound.launched (by simp [hcreating]) (by simp) (by simp [hcreating]) fun c hc => ?_
    exact ((hbound.started c hc).resolve_left fun h => by simp [hcreating] at h).2.2
  | fails hlaunch => exact hinv.fails
  | event at_ now e hstart haccepted => exact hinv.drive at_ now fun h => absurd h haccepted
  | accept at_ now hscout hwindow hplanner =>
    exact hinv.drive at_ now fun _ => (hinv.kind _ hscout).symm.trans hplanner
  | claim hscout hclaims => exact hinv.claim hscout hclaims
  | reject hsubmissions => exact hinv.reject hsubmissions
  | write report hsubmissions => exact hinv.write report hsubmissions
  | accepted at_ now hsubmissions hcommit => exact hinv.accepted hsubmissions hcommit
  | refused at_ now hsubmissions hcommit => exact hinv.refused hsubmissions hcommit
  | cleanup hsubmissions => exact hinv.cleanup hsubmissions
  | sweep at_ => exact hinv.sweep at_
  | perform hjobs =>
    obtain ⟨hlaunch, hscout, hsubmissions, hfile⟩ := perform_same { s with jobs := _ } _
    exact hinv.same hlaunch hscout hsubmissions hfile (told_perform hjobs)

theorem Reach.inv (hreach : Reach l planner window s) : Inv planner s := by
  induction hreach with
  | start => exact inv_new
  | step _ hstep ih => exact ih.step hstep

end Service

/-- A launched scout whose report was written. -/
def writtenService : Service ℕ where
  launch := .done
  scout := some {
    windowId := some 1, storing := true, installed := true, planner := false,
    machine := { state := .working } }
  submissions := [.written 7]
  file := some 7
  process := true

theorem reach_writtenService :
    Service.Reach (.new 900 120 .claude) false 1 writtenService := by
  have hstart : Service.Reach (.new 900 120 .claude) false 1 ({} : Service ℕ) := .start
  have hlaunched := (((hstart.step (.insert rfl)).step (.start 0 0 rfl)).step (.process rfl)).step
    (.bound rfl rfl)
  exact (hlaunched.step (.claim rfl rfl)).step (@Service.Step.write _ _ _ _ _ [] [] 7 rfl)

namespace Service

/-- A kill that was asked for came about, or is still to come. -/
inductive Owed (s : Service Report) : Prop
  | killed (hkilled : s.killed = true)
  | removed (hremoved : s.removed = true)
  | failed (hlaunch : s.launch = .failed)
  | removing {job : Job Report} (hjob : job ∈ s.jobs) (hremoves : job.Removes)
  | killing {job : Job Report} (hprocess : s.process = true) (hjob : job ∈ s.jobs)
      (hkills : job.Kills)
  | onBind {c : Scout Report} (hlaunch : s.launch ≠ .done) (hscout : s.scout = some c)
      (howed : c.killOnBind = true)

structure Hunt (s : Service Report) : Prop where
  installed : ∀ c ∈ s.scout, c.installed = true → s.process = true ∧ c.windowId.isSome = true
  done : s.launch = .done → ∀ c ∈ s.scout, c.installed = true
  asked : s.asked = true → s.Owed

/-- What is owed stays so, if no job is lost and the entry still holds what it owes. -/
theorem Owed.mono (howed : s.Owed) (hkilled : s.killed = true → s'.killed = true)
    (hremoved : s.removed = true → s'.removed = true)
    (hfailed : s.launch = .failed → s'.launch = .failed) (hjobs : s.jobs ⊆ s'.jobs)
    (hprocess : s.process = true → s'.process = true)
    (hentry : s.launch ≠ .done → ∀ c, s.scout = some c → c.killOnBind = true → s'.Owed) : s'.Owed := by
  cases howed with
  | killed h => exact .killed (hkilled h)
  | removed h => exact .removed (hremoved h)
  | failed h => exact .failed (hfailed h)
  | removing hjob hremoves => exact .removing (hjobs hjob) hremoves
  | killing hp hjob hkills => exact .killing (hprocess hp) (hjobs hjob) hkills
  | onBind hlaunch hscout hc => exact hentry hlaunch _ hscout hc

/-- A step that leaves alone all that a kill depends on. -/
theorem Hunt.frame (hhunt : Hunt s) (hlaunch : s'.launch = s.launch) (hjobs : s.jobs ⊆ s'.jobs)
    (hprocess : s.process = true → s'.process = true) (hkilled : s'.killed = s.killed)
    (hremoved : s'.removed = s.removed) (hasked : s'.asked = s.asked)
    (hscout : ∀ c' ∈ s'.scout, ∃ c ∈ s.scout, c'.installed = c.installed ∧
      (c.windowId.isSome = true → c'.windowId.isSome = true))
    (hentry : ∀ c ∈ s.scout, ∃ c' ∈ s'.scout, c'.killOnBind = c.killOnBind) : Hunt s' where
  installed c' hc' hinstalled := by
    obtain ⟨c, hc, hsame, hwindow⟩ := hscout c' hc'
    obtain ⟨hp, hw⟩ := hhunt.installed c hc (hsame ▸ hinstalled)
    exact ⟨hprocess hp, hwindow hw⟩
  done hdone c' hc' := by
    obtain ⟨c, hc, hsame, -⟩ := hscout c' hc'
    exact hsame.trans (hhunt.done (hlaunch ▸ hdone) c hc)
  asked h := (hhunt.asked (hasked ▸ h)).mono (fun h => hkilled.trans h) (fun h => hremoved.trans h)
    (fun h => hlaunch.trans h) hjobs hprocess fun hnot c hc howed => by
      obtain ⟨c', hc', hsame⟩ := hentry c hc
      exact .onBind (hlaunch ▸ hnot) hc' (hsame.trans howed)

theorem kill_mem_effectJobs {effects : List ScoutEffect} (hkill : .kill ∈ effects)
    (hwindow : c.windowId.isSome = true) : ∃ job ∈ c.effectJobs effects, job.Kills := by
  obtain ⟨w, hw⟩ := Option.isSome_iff_exists.1 hwindow
  exact ⟨.run w .kill, by simpa [Scout.effectJobs, hw] using hkill, rfl⟩

/-- An event for the scout: a kill it asks for goes to the process, or is owed at the bind. -/
theorem Hunt.drive (hhunt : Hunt s) (hsound : ∀ c ∈ s.scout, c.Sound) (at_ now : ℕ) (e : ScoutEvent) :
    Hunt (s.drive l at_ now e) := by
  rcases hscout : s.scout with _ | c
  · rwa [drive_of_none hscout]
  have hlocked := Scout.locked_stepLocked l at_ now (hsound c hscout) e
  have hdrive : s.drive l at_ now e = { s with
      scout := some (c.stepLocked l at_ now e).1
      jobs := s.jobs ++ (c.stepLocked l at_ now e).2
      asked := s.asked || decide (.kill ∈ (c.machine.step l e).2) } := by
    simp only [Service.drive, hscout]
  rw [hdrive]
  have hentry : ∀ out, Scout.Locked l at_ now c e out → out.1.installed = c.installed ∧
      out.1.windowId = c.windowId ∧ out.1.killOnBind = (c.stepped l e).killOnBind ∧
      c.effectJobs (c.machine.step l e).2 ⊆ out.2 := by
    intro out hout
    cases hout with
    | runs => exact ⟨rfl, rfl, rfl, Subset.refl _⟩
    | ends => exact ⟨rfl, rfl, rfl, subset_cons_self _ _⟩
  obtain ⟨hinstalled, hwindow, hkill, hjobs⟩ := hentry _ hlocked
  refine ⟨?_, ?_, fun hasked => ?_⟩
  · rintro _ ⟨⟩ h
    rw [hwindow]
    exact hhunt.installed c hscout (hinstalled ▸ h)
  · rintro hdone _ ⟨⟩
    exact hinstalled.trans (hhunt.done hdone c hscout)
  · by_cases hnow : .kill ∈ (c.machine.step l e).2
    · by_cases hin : c.installed = true
      · obtain ⟨hprocess, hsome⟩ := hhunt.installed c hscout hin
        obtain ⟨job, hmem, hkills⟩ := kill_mem_effectJobs hnow hsome
        exact .killing hprocess (mem_append_right _ (hjobs hmem)) hkills
      · refine .onBind (fun hdone => hin (hhunt.done hdone c hscout)) rfl ?_
        rw [hkill]
        simp [Scout.stepped, hin, hnow]
    · have hbefore : s.asked = true := by simpa [hnow] using hasked
      refine (hhunt.asked hbefore).mono id id id (subset_append_left _ _) id
        fun hnot x hx howed => .onBind hnot rfl ?_
      obtain rfl : c = x := Option.some_injective _ (hscout.symm.trans hx)
      rw [hkill]
      simp [Scout.stepped, howed]

theorem hunt_commit {accepted : Bool} {report : Report} (hhunt : Hunt s)
    (hsound : ∀ c ∈ s.scout, c.Sound) (hcommit : s.commit l at_ now report = (s', accepted)) :
    Hunt s' := by
  rcases hscout : s.scout with _ | c
  · simp only [commit, hscout, Prod.mk.injEq] at hcommit
    exact hcommit.1 ▸ hhunt
  have hupdated (report : Option Report) :
      Hunt { s with scout := some { c with storing := false, report } } :=
    hhunt.frame rfl (Subset.refl _) id rfl rfl rfl
      (by rintro _ ⟨⟩; exact ⟨c, hscout, rfl, id⟩)
      (fun x hx => by
        obtain rfl : c = x := Option.some_injective _ (hscout.symm.trans hx)
        exact ⟨_, rfl, rfl⟩)
  simp only [commit, hscout] at hcommit
  split_ifs at hcommit with hstate
  · simp only [Prod.mk.injEq] at hcommit
    exact hcommit.1 ▸ hupdated c.report
  · simp only [Prod.mk.injEq] at hcommit
    rw [← hcommit.1]
    refine (hupdated (some report)).drive ?_ at_ now .reportAccepted
    rintro _ ⟨⟩
    have hc := hsound c hscout
    exact ⟨hc.outcome, hc.failure, hc.due⟩

theorem Hunt.bind_early (hhunt : Hunt s) (window : ℕ) : Hunt (s.bind window false) := by
  rcases hscout : s.scout with _ | c
  · simpa only [Service.bind, hscout] using hhunt
  have hbind : s.bind window false = { s with
      scout := some { c with windowId := some window }
      jobs := s.jobs ++ [] } := by
    simp [Service.bind, hscout]
  rw [hbind]
  exact hhunt.frame rfl (subset_append_left _ _) id rfl rfl rfl
    (by rintro _ ⟨⟩; exact ⟨c, hscout, rfl, fun _ => rfl⟩)
    (fun x hx => by
      obtain rfl : c = x := Option.some_injective _ (hscout.symm.trans hx)
      exact ⟨_, rfl, rfl⟩)

/-- The launch's own bind, which does the kill that was owed. -/
theorem Hunt.bound (hhunt : Hunt s) (window : ℕ) (hlaunch : s.launch = .creating)
    (hprocess : s.process = true) : Hunt { s.bind window true with launch := .done } := by
  rcases hscout : s.scout with _ | c
  · have hbind : s.bind window true = s := by simp only [Service.bind, hscout]
    rw [hbind]
    refine ⟨by simp [hscout], by simp [hscout], fun hasked => ?_⟩
    exact (hhunt.asked hasked).mono id id (fun h => by simp [hlaunch] at h) (Subset.refl _) id
      fun _ x hx _ => by simp [hscout] at hx
  have hbind : s.bind window true = { s with
      scout := some { c with windowId := some window, installed := true, killOnBind := false }
      jobs := s.jobs ++ if c.killOnBind then [.kill window] else [] } := by
    simp [Service.bind, hscout]
  rw [hbind]
  refine ⟨?_, ?_, fun hasked => ?_⟩
  · rintro _ ⟨⟩ -
    exact ⟨hprocess, rfl⟩
  · rintro - _ ⟨⟩
    rfl
  · refine (hhunt.asked hasked).mono id id (fun h => by simp [hlaunch] at h)
      (subset_append_left _ _) id fun _ x hx howed => ?_
    obtain rfl : c = x := Option.some_injective _ (hscout.symm.trans hx)
    exact .killing hprocess (show .kill window ∈ _ by simp [howed]) rfl

theorem Hunt.sweep (hhunt : Hunt s) (at_ : ℕ) : Hunt (s.sweep at_) := by
  rcases hscout : s.scout with _ | c
  · simpa only [Service.sweep, hscout] using hhunt
  rcases hwindow : c.windowId with _ | window
  · simpa only [Service.sweep, hscout, hwindow] using hhunt
  by_cases hdue : c.removeAt.any (· ≤ at_)
  · simp only [Service.sweep, hscout, hwindow, hdue, if_true]
    refine ⟨by simp, by simp, fun hasked => ?_⟩
    exact .removing (show .remove window ∈ _ by simp) rfl
  · simp only [Service.sweep, hscout, hwindow, hdue]
    exact hhunt.frame rfl (subset_append_left _ _) id rfl rfl rfl
      (by rintro _ ⟨⟩; exact ⟨c, hscout, rfl, fun _ => rfl⟩)
      (fun x hx => by
        obtain rfl : c = x := Option.some_injective _ (hscout.symm.trans hx)
        exact ⟨_, rfl, rfl⟩)

/-- A job that is done is the kill or the removal, or the one that is owed is still there. -/
theorem Hunt.perform {before after : List (Job Report)} {job : Job Report} (hhunt : Hunt s)
    (hjobs : s.jobs = before ++ job :: after) :
    Hunt ({ s with jobs := before ++ after }.perform job) := by
  have hsame := perform_same { s with jobs := before ++ after } job
  have hkept : ({ s with jobs := before ++ after }.perform job).jobs = before ++ after ∧
      ({ s with jobs := before ++ after }.perform job).process = s.process ∧
      ({ s with jobs := before ++ after }.perform job).asked = s.asked ∧
      ({ s with jobs := before ++ after }.perform job).killed =
        (s.killed || (job.Kills && s.process)) ∧
      ({ s with jobs := before ++ after }.perform job).removed = (s.removed || job.Removes) := by
    cases job with
    | run window effect => cases effect <;> simp [Service.perform, Job.Kills, Job.Removes]
    | tell | kill | remove => simp [Service.perform, Job.Kills, Job.Removes]
  generalize ({ s with jobs := before ++ after }.perform job) = s' at hsame hkept
  obtain ⟨hlaunch, hscout, -, -⟩ := hsame
  obtain ⟨hjobs', hprocess, hasked, hkilled, hremoved⟩ := hkept
  have hmem : ∀ x ∈ s.jobs, x = job ∨ x ∈ s'.jobs := fun x hx => by
    rw [hjobs] at hx
    rw [hjobs']
    simpa [or_left_comm] using hx
  refine ⟨?_, ?_, fun h => ?_⟩
  · rw [hscout, hprocess]
    exact hhunt.installed
  · rw [hscout, hlaunch]
    exact hhunt.done
  · cases hhunt.asked (hasked ▸ h) with
    | killed h => exact .killed (by simp [hkilled, h])
    | removed h => exact .removed (by simp [hremoved, h])
    | failed h => exact .failed (hlaunch.trans h)
    | removing hjob hremoves =>
      rcases hmem _ hjob with rfl | hjob
      · exact .removed (by simp [hremoved, hremoves])
      · exact .removing hjob hremoves
    | killing hp hjob hkills =>
      rcases hmem _ hjob with rfl | hjob
      · exact .killed (by simp [hkilled, hkills, hp])
      · exact .killing (hprocess.trans hp) hjob hkills
    | onBind hnot hx howed => exact .onBind (hlaunch ▸ hnot) (hscout.trans hx) howed

theorem Hunt.step (hhunt : Hunt s) (hinv : Inv planner s) (hstep : Step l planner window s s') :
    Hunt s' := by
  cases hstep with
  | insert hlaunch =>
    refine ⟨?_, by simp, fun hasked => (hhunt.asked hasked).mono id id ?_ (Subset.refl _) id ?_⟩
    · rintro _ ⟨⟩ h
      cases h
    · simp [hlaunch]
    · intro _ c hc
      simp [(hinv.fresh hlaunch).1] at hc
  | start at_ now hlaunch =>
    have hdriven := hhunt.drive (l := l) hinv.sound at_ now (.start now)
    have hinserted : (s.drive l at_ now (.start now)).launch = .inserted := launch_drive.trans hlaunch
    exact ⟨hdriven.installed, by simp, fun hasked => (hdriven.asked hasked).mono id id
      (by simp [hinserted]) (Subset.refl _) id fun _ x hx howed => .onBind (by simp) hx howed⟩
  | process hlaunch =>
    exact hhunt.frame rfl (Subset.refl _) (fun _ => rfl) rfl rfl rfl (fun c hc => ⟨c, hc, rfl, id⟩)
      fun c hc => ⟨c, hc, rfl⟩
  | early hlaunch => exact hhunt.bind_early window
  | bound hlaunch hprocess => exact hhunt.bound window hlaunch hprocess
  | fails hlaunch => exact ⟨by simp, by simp, fun _ => .failed rfl⟩
  | event at_ now e hstart haccepted => exact hhunt.drive hinv.sound at_ now e
  | accept at_ now hscout hwindow hplanner => exact hhunt.drive hinv.sound at_ now _
  | @claim c hscout hclaims =>
    exact hhunt.frame rfl (Subset.refl _) id rfl rfl rfl
      (by rintro _ ⟨⟩; exact ⟨c, hscout, rfl, id⟩)
      (fun x hx => by
        obtain rfl : c = x := Option.some_injective _ (hscout.symm.trans hx)
        exact ⟨_, rfl, rfl⟩)
  | reject hsubmissions =>
    refine hhunt.frame rfl (Subset.refl _) id rfl rfl rfl (fun c' hc' => ?_)
      fun c hc => ⟨_, Option.mem_map_of_mem _ hc, rfl⟩
    obtain ⟨c, hc, rfl⟩ := mem_scout_unclaim hc'
    exact ⟨c, hc, rfl, id⟩
  | write report hsubmissions | cleanup hsubmissions =>
    exact hhunt.frame rfl (Subset.refl _) id rfl rfl rfl (fun c hc => ⟨c, hc, rfl, id⟩)
      fun c hc => ⟨c, hc, rfl⟩
  | accepted at_ now hsubmissions hcommit | refused at_ now hsubmissions hcommit =>
    exact (hunt_commit hhunt hinv.sound hcommit).frame rfl (Subset.refl _) id rfl rfl rfl
      (fun c hc => ⟨c, hc, rfl, id⟩) fun c hc => ⟨c, hc, rfl⟩
  | sweep at_ => exact hhunt.sweep at_
  | perform hjobs => exact hhunt.perform hjobs

theorem Reach.hunt (hreach : Reach l planner window s) : Hunt s := by
  induction hreach with
  | start => exact ⟨by simp, by simp, by simp⟩
  | step hreach hstep ih => exact ih.step hreach.inv hstep

end Service

end

end Anthrex.Scouts
