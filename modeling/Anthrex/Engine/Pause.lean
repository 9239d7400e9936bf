import Anthrex.Data.Lists
import Anthrex.Data.Spans
import Anthrex.Quota.Book
import Anthrex.Run.Model
import Mathlib.Logic.Relation

/-!
# Paused time

A run's clocks (`run/phases.rs`, `run/engine/pause.rs`): how long each task was in each of its
phases, how long the run was paused or halted, and how much of that fell inside a task's work. Each
is a sum of what is over and the time since what is open began, moved on where a step of the engine
or a restart of the daemon changes the run.

* `Sound.step`: a step and a restart keep the clocks right, as `Sound` says it of the run and
  `Clocked` of each task;
* `time_accounted`: over any run the clocks give the seconds that the run was stopped, the seconds
  that a task was in a phase, and, as what the estimate takes as done of a task
  (`run/estimate.rs`), the seconds it was at work in a run that was not stopped.
-/

namespace Anthrex.Pause

open Anthrex.Quota (saturatingAdd)
open Anthrex.Run (RunState TaskState)
open Relation Spans

/-! ## Phases -/

inductive Phase
  | queued
  | preparing
  | working
  | proof
  | check
  | review
  | merge
  | blocked
  deriving DecidableEq, Repr

/-- The phase a state's time counts toward. -/
def phaseOf : TaskState → Option Phase
  | .queued => some .queued
  | .preparing => some .preparing
  | .working => some .working
  | .proof => some .proof
  | .check => some .check
  | .review => some .review
  | .mergeQueue => some .merge
  | .blocked => some .blocked
  | .pending | .merged | .cancelled | .reported => none

abbrev PhaseSecs := Phase → ℕ

inductive RaceDecision
  | race
  | single (reason : String)
  deriving DecidableEq, Repr

/-- The run's paused time at the start of a task's phase, and inside its work before. -/
structure TaskPaused where
  base : ℕ := 0
  active : ℕ := 0

structure Task where
  id : String
  state : TaskState := .pending
  phases : PhaseSecs := fun _ => 0
  /-- Since when it is in its state; 0 for one that never left its first. -/
  phaseSince : ℕ := 0
  paused : TaskPaused := {}
  rung : ℕ := 0
  maxRung : ℕ := 0
  /-- Its test writer is at work. -/
  writing : Bool := false
  raceDecision : Option RaceDecision := none
  raceWaitSince : Option ℕ := none

namespace Task

/-- Its phases with the time of the open one, as its line in the history has them. -/
def phasesAt (task : Task) (now : ℕ) : PhaseSecs :=
  if 0 < task.phaseSince then
    match phaseOf task.state with
    | some p =>
      Function.update task.phases p (saturatingAdd (task.phases p) (now - task.phaseSince))
    | none => task.phases
  else task.phases

/-- The highest rung the task was on; a test writer's is its own. -/
def trackRung (task : Task) : Task :=
  if task.writing then task else { task with maxRung := max task.maxRung task.rung }

def setState (task : Task) (state : TaskState) (now : ℕ) : Task :=
  let task := task.trackRung
  if task.state = state then task
  else
    let task := { task with phases := task.phasesAt now, phaseSince := now, state }
    if state = .pending then { task with raceDecision := none, raceWaitSince := none } else task

end Task

/-! ## Paused time -/

/-- The states whose time is work. -/
def active : TaskState → Bool
  | .preparing | .working | .proof | .check | .review | .mergeQueue => true
  | _ => false

def activePhases : List Phase := [.preparing, .working, .proof, .check, .review, .merge]

def activeSecs (phases : PhaseSecs) : ℕ :=
  (activePhases.map phases).foldl saturatingAdd 0

def stopped : RunState → Bool
  | .paused | .halted => true
  | _ => false

/-- A stage's wait for a person's review. -/
structure StageDelivery where
  waitFrom : Option ℕ := none
  reviewWaitSecs : ℕ := 0
  /-- What of it fell inside the run's pauses. -/
  reviewPausedSecs : ℕ := 0

structure Run where
  state : RunState
  tasks : List Task
  stages : List StageDelivery := []
  pausedAt : Option ℕ := none
  pausedSecs : ℕ := 0
  lastStepAt : ℕ := 0
  /-- Since when the clock of a design phase runs. -/
  phaseStarted : Option ℕ := none

namespace Run

/-- The seconds the run was paused or halted, with the span in progress. -/
def pausedTotal (run : Run) (at_ : ℕ) : ℕ :=
  saturatingAdd run.pausedSecs ((run.pausedAt.map (at_ - ·)).getD 0)

def task? (run : Run) (id : String) : Option Task := run.tasks.find? (·.id = id)

end Run

/-- Moves the paused time of the phase a task left into that of its work. -/
def phasePaused (before : Option Task) (task : Task) (total : ℕ) : Task :=
  if before.any (·.phaseSince = task.phaseSince) then task
  else
    let left := (before.filter fun b => 0 < b.phaseSince && active b.state).map fun b =>
      saturatingAdd task.paused.active (total - b.paused.base)
    { task with paused := ⟨total, left.getD task.paused.active⟩ }

/-- The task as it was: most often at the same place. -/
def before (old : Run) (i : ℕ) (task : Task) : Option Task :=
  ((old.tasks[i]?).filter (·.id = task.id)).or (old.task? task.id)

def phases (old run : Run) (now : ℕ) : Run :=
  { run with
    tasks := run.tasks.mapIdx fun i task =>
      phasePaused (before old i task) task (run.pausedTotal now) }

/-- What of the open waits for a review fell inside the pause that ends. -/
def overlap (old run : Run) (since now : ℕ) : Run :=
  { run with
    stages := run.stages.mapIdx fun i stage =>
      match (old.stages[i]?).bind (·.waitFrom) with
      | some «from» =>
        { stage with
          reviewPausedSecs := saturatingAdd stage.reviewPausedSecs (now - max «from» since) }
      | none => stage }

/-- Entering a stop records when, leaving it adds the span to the run's paused seconds. -/
def pauseSpan (old run : Run) (now : ℕ) : Run :=
  match stopped old.state, stopped run.state with
  | false, true => { run with pausedAt := some now }
  | true, false =>
    let since := run.pausedAt.getD now
    let run :=
      { run with pausedAt := none, pausedSecs := saturatingAdd run.pausedSecs (now - since) }
    overlap old run since now
  | _, _ => run

/-- A step changed the run. -/
def account (old run : Run) (now : ℕ) : Run :=
  phases old { pauseSpan old run now with lastStepAt := now } now

/-- A run that is stopped, and was not before the restart, is so since its last change. -/
def pauseSince (run : Run) (now : ℕ) : Run :=
  if stopped run.state && run.pausedAt.isNone then
    { run with pausedAt := some (if 0 < run.lastStepAt then run.lastStepAt else now) }
  else run

/-- What a restart leaves of the clocks. -/
def restored (original run : Run) (now : ℕ) : Run := phases original (pauseSince run now) now

/-- The clock of a design phase leaves out the time the daemon was down. -/
def designRestored (run : Run) (now : ℕ) : Run :=
  if stopped run.state || run.lastStepAt = 0 then run
  else
    match run.phaseStarted with
    | none => run
    | some started =>
      { run with
        phaseStarted := some (min (saturatingAdd started (now - run.lastStepAt)) now)
        lastStepAt := now }

/-- What the estimate takes as done of a task: the seconds of its work, less the paused ones. -/
def done (run : Run) (task : Task) («end» : ℕ) : ℕ :=
  let closed := activeSecs task.phases - task.paused.active
  let «open» :=
    if active task.state && 0 < task.phaseSince then
      «end» - task.phaseSince - (run.pausedTotal «end» - task.paused.base)
    else 0
  saturatingAdd closed «open»

/-! ## Steps and restarts -/

/-- What a step may do to a task, as often as it does: set its state, or what the clocks do not
    read. -/
inductive Touched (now : ℕ) : Task → Task → Prop
  | set (task : Task) (state : TaskState) : Touched now task (task.setState state now)
  | other (task : Task) (rung maxRung : ℕ) (writing : Bool) (raceDecision : Option RaceDecision)
      (raceWaitSince : Option ℕ) :
      Touched now task { task with rung, maxRung, writing, raceDecision, raceWaitSince }

/-- What a step may do to a run before it is accounted: its state and its waits are anyone's, its
    tasks are touched, and new ones join under ids of their own. -/
structure Changed (now : ℕ) (old run : Run) : Prop where
  pausedAt : run.pausedAt = old.pausedAt
  pausedSecs : run.pausedSecs = old.pausedSecs
  lastStepAt : run.lastStepAt = old.lastStepAt
  tasks : ∃ kept added, run.tasks = kept ++ added ∧
    List.Forall₂ (ReflTransGen (Touched now)) old.tasks kept ∧
    ∀ t ∈ added, ReflTransGen (Touched now) { id := t.id } t
  nodup : (run.tasks.map (·.id)).Nodup

/-- What a run was like for some time. -/
structure Moment where
  stopped : Bool
  tasks : List Task

/-- A run, with what it was like since its start, the latest first, up to a time. -/
structure World where
  run : Run
  log : List (Moment × ℕ)
  last : ℕ

namespace World

variable (w : World) (now : ℕ)

/-- The log up to now, when nothing changed since its end. -/
def upTo : List (Moment × ℕ) :=
  (⟨stopped w.run.state, w.run.tasks⟩, now - w.last) :: w.log

/-- The log over a restart that leaves the run stopped: it was so since its last change. -/
def down : List (Moment × ℕ) :=
  (⟨stopped w.run.state || 0 < w.run.lastStepAt, w.run.tasks⟩, now - w.last) :: w.log

end World

/-- A run that a request made, before any step. -/
structure Start (w : World) : Prop where
  pos : 0 < w.last
  lt : w.last < 2 ^ 64
  log : w.log = []
  state : stopped w.run.state = false
  pausedAt : w.run.pausedAt = none
  pausedSecs : w.run.pausedSecs = 0
  lastStepAt : w.run.lastStepAt = 0
  tasks : ∀ t ∈ w.run.tasks, ReflTransGen (Touched w.last) { id := t.id } t
  nodup : (w.run.tasks.map (·.id)).Nodup

/-- The steps of the engine that change the run, and the restarts of the daemon. A restart pauses a
    run that is at work; of one that it leaves as it is (at its gate, or complete) no answer of the
    journal moves a task. That such an answer ends a stopped run is left out: its time is over. -/
inductive Step : World → World → Prop
  | change {w : World} {run : Run} {now : ℕ} (hnow : w.last ≤ now) (hlt : now < 2 ^ 64)
      (h : Changed now w.run run) : Step w ⟨account w.run run now, w.upTo now, now⟩
  | pause {w : World} {run : Run} {now : ℕ} (hnow : w.last ≤ now) (hlt : now < 2 ^ 64)
      (h : Changed now w.run run) (hstopped : stopped run.state = true) :
      Step w ⟨designRestored (restored w.run run now) now, w.down now, now⟩
  | keep {w : World} {run : Run} {now : ℕ} (hnow : w.last ≤ now) (hlt : now < 2 ^ 64)
      (h : Changed now w.run run) (hstopped : stopped run.state = false)
      (hstopped' : stopped w.run.state = false) (htasks : run.tasks = w.run.tasks) :
      Step w
        -- The log goes on from where it was, unless the restart moves the run's last change.
        (if run.phaseStarted.isSome ∧ run.lastStepAt ≠ 0 then
          ⟨designRestored (restored w.run run now) now, w.upTo now, now⟩
        else ⟨designRestored (restored w.run run now) now, w.log, w.last⟩)

/-- Whatever the engine and the restarts make of a run. -/
def Reached (w : World) : Prop := ∃ start, Start start ∧ ReflTransGen Step start w

/-! ## What the log says of a task -/

/-- The phase a task is in. -/
def phaseIn (id : String) (m : Moment) : Option Phase :=
  (m.tasks.find? (·.id = id)).bind (phaseOf ·.state)

/-- A task is at work. -/
def atWork (id : String) (m : Moment) : Bool := (phaseIn id m).any (· ∈ activePhases)

theorem active_eq (state : TaskState) : active state = (phaseOf state).any (· ∈ activePhases) := by
  cases state <;> rfl

variable {id : String} {t t' b : Task} {p : Phase} {log : List (Moment × ℕ)} {m : Moment}
  {last now total total' : ℕ}

theorem phaseIn_of_find (h : m.tasks.find? (·.id = id) = some t) :
    phaseIn id m = phaseOf t.state := by
  rw [phaseIn, h]
  rfl

theorem atWork_of_find (h : m.tasks.find? (·.id = id) = some t) :
    atWork id m = active t.state := by
  rw [atWork, phaseIn_of_find h, active_eq]

/-- A task at work is in one of its active phases. -/
theorem sum_phaseIn (id : String) (log : List (Moment × ℕ)) :
    (activePhases.map fun p => lasted (fun m => phaseIn id m = some p) log).sum =
      lasted (atWork id) log :=
  sum_lasted (by decide)

/-! ## One task -/

theorem saturatingAdd_of_lt {a b : ℕ} (h : a + b < 2 ^ 64) : saturatingAdd a b = a + b :=
  min_eq_left (Nat.le_sub_one_of_lt h)

namespace Task

/-- The time of the open phase. -/
def openSecs (t : Task) (now : ℕ) (p : Phase) : ℕ :=
  if 0 < t.phaseSince ∧ phaseOf t.state = some p then now - t.phaseSince else 0

/-- The run's paused time inside the open phase, where it is one of work. -/
def openPaused (t : Task) (total : ℕ) : ℕ := if active t.state then total - t.paused.base else 0

theorem phasesAt_eq (h : t.phases p + t.openSecs now p < 2 ^ 64) :
    t.phasesAt now p = t.phases p + t.openSecs now p := by
  by_cases hsince : 0 < t.phaseSince
  · cases hphase : phaseOf t.state with
    | none => simp [phasesAt, openSecs, hphase]
    | some q =>
      by_cases hq : q = p
      · subst hq
        have hopen : t.openSecs now q = now - t.phaseSince := if_pos ⟨hsince, hphase⟩
        simp only [phasesAt, if_pos hsince, hphase, Function.update_self]
        rw [hopen] at h ⊢
        exact saturatingAdd_of_lt h
      · simp [phasesAt, openSecs, hsince, hphase, hq, Function.update_of_ne (Ne.symm hq)]
  · simp [phasesAt, openSecs, hsince]

end Task

/-- A task whose clocks are right at the end of a log, where the run's paused time is `total`. -/
structure Clocked (log : List (Moment × ℕ)) (last total : ℕ) (t : Task) : Prop where
  since : t.phaseSince ≤ last
  started : 0 < t.phaseSince ∨ phaseOf t.state = none
  phases : ∀ p, t.phases p + t.openSecs last p = lasted (fun m => phaseIn t.id m = some p) log
  inside : t.paused.active + t.openPaused total = lasted (fun m => atWork t.id m && m.stopped) log
  base : t.paused.base ≤ total
  /-- No more than the time since the phase began was paused. -/
  rate : total - t.paused.base ≤ last - t.phaseSince
  spent : t.paused.active ≤ (activePhases.map t.phases).sum
  fresh : t.phaseSince = last → t.paused.base = total

/-- Time passes. -/
theorem Clocked.later (h : Clocked log last total t) (hfind : m.tasks.find? (·.id = t.id) = some t)
    (hnow : last ≤ now) (htotal : total' = total + if m.stopped then now - last else 0) :
    Clocked ((m, now - last) :: log) now total' t where
  since := h.since.trans hnow
  started := h.started
  phases p := by
    have hopen : t.openSecs now p =
        (if phaseIn t.id m = some p then now - last else 0) + t.openSecs last p := by
      have hsince := h.since
      have hstarted := h.started
      rw [phaseIn_of_find hfind, Task.openSecs, Task.openSecs]
      by_cases hp : phaseOf t.state = some p
      · have hpos : 0 < t.phaseSince := h.started.resolve_right (by simp [hp])
        simp only [hpos, hp, and_self, if_true]
        omega
      · simp [hp]
    rw [lasted_cons, ← h.phases p, hopen]
    simp only [decide_eq_true_eq]
    omega
  inside := by
    have hbase := h.base
    have hopen : t.openPaused total' =
        (if atWork t.id m && m.stopped then now - last else 0) + t.openPaused total := by
      rw [atWork_of_find hfind, Task.openPaused, Task.openPaused, htotal]
      cases active t.state <;> cases m.stopped <;> simp; omega
    rw [lasted_cons, ← h.inside, hopen]
    omega
  base := h.base.trans (htotal ▸ Nat.le_add_right _ _)
  rate := by
    have hrate := h.rate
    have hsince := h.since
    have hbase := h.base
    rw [htotal]
    split_ifs <;> omega
  spent := h.spent
  fresh hfresh := by
    have hlast : now = last := (hfresh.symm.le.trans h.since).antisymm hnow
    have hbase := h.fresh (hfresh.trans hlast)
    rw [htotal, hbase, hlast]
    simp

/-- What a step's touches make of a task. -/
structure Moved (now : ℕ) (b t : Task) : Prop where
  id : t.id = b.id
  paused : t.paused = b.paused
  since : t.phaseSince = b.phaseSince ∧ t.phases = b.phases ∧ t.state = b.state ∨ t.phaseSince = now
  started : 0 < t.phaseSince ∨ phaseOf t.state = none
  phases : ∀ p, t.phases p + t.openSecs now p = b.phases p + b.openSecs now p

/-- A phase that begins now has not lasted yet. -/
theorem openSecs_of_since (h : t.phaseSince = now) : t.openSecs now p = 0 := by
  rw [Task.openSecs, h, Nat.sub_self, ite_self]

theorem Moved.trackRung (h : Moved now b t) : Moved now b t.trackRung := by
  unfold Task.trackRung
  split
  · exact h
  · exact ⟨h.id, h.paused, h.since, h.started, h.phases⟩

theorem Moved.setState (h : Moved now b t) (hpos : 0 < now)
    (hlt : ∀ p, b.phases p + b.openSecs now p < 2 ^ 64) (state : TaskState) :
    Moved now b (t.setState state now) := by
  replace h := h.trackRung
  have hphases : t.trackRung.phasesAt now = fun p => b.phases p + b.openSecs now p := by
    funext p
    rw [← h.phases p]
    exact Task.phasesAt_eq ((h.phases p).trans_lt (hlt p))
  have hmoved : ∀ t' : Task, t'.id = b.id → t'.paused = b.paused → t'.phaseSince = now →
      (t'.phases = fun p => b.phases p + b.openSecs now p) → Moved now b t' := by
    intro t' hid hpaused hsince hphases'
    refine ⟨hid, hpaused, .inr hsince, .inl (hsince ▸ hpos), fun p => ?_⟩
    rw [openSecs_of_since hsince, hphases']
    rfl
  rw [Task.setState]
  split_ifs
  · -- Only the rung is tracked.
    exact h
  · exact hmoved _ h.id h.paused rfl hphases
  · exact hmoved _ h.id h.paused rfl hphases

theorem moved (hpos : 0 < now) (hlt : ∀ p, b.phases p + b.openSecs now p < 2 ^ 64)
    (hstarted : 0 < b.phaseSince ∨ phaseOf b.state = none)
    (h : ReflTransGen (Touched now) b t) : Moved now b t := by
  induction h with
  | refl => exact ⟨rfl, rfl, .inl ⟨rfl, rfl, rfl⟩, hstarted, fun _ => rfl⟩
  | tail _ htouch ih =>
    cases htouch with
    | set state => exact ih.setState hpos hlt state
    | other => exact ⟨ih.id, ih.paused, ih.since, ih.started, ih.phases⟩

/-- What is open of the active phases: the task's own, when it is one. -/
theorem sum_openSecs (t : Task) (now : ℕ) :
    (activePhases.map (t.openSecs now)).sum =
      if active t.state && 0 < t.phaseSince then now - t.phaseSince else 0 := by
  by_cases hsince : 0 < t.phaseSince
  · cases hstate : t.state <;> simp [activePhases, Task.openSecs, phaseOf, active, hstate, hsince]
  · simp [activePhases, Task.openSecs, hsince]

theorem Clocked.pos_of_active (h : Clocked log last total t) (hactive : active t.state) :
    0 < t.phaseSince :=
  h.started.resolve_right fun hnone => by simp [active_eq, hnone] at hactive

theorem Moved.phases_of_since (h : Moved now b t) (hsince : t.phaseSince = now) :
    t.phases = fun p => b.phases p + b.openSecs now p := by
  funext p
  rw [← h.phases p, openSecs_of_since hsince, Nat.add_zero]

/-- A new phase: what it was moved from stays accounted for. -/
theorem Clocked.begin_ (h : Clocked log now total b) (hmoved : Moved now b t)
    (hsince : t.phaseSince = now) (hid : t'.id = t.id) (hsince' : t'.phaseSince = t.phaseSince)
    (hstate : t'.state = t.state) (hphases : t'.phases = t.phases)
    (hpaused : t'.paused = ⟨total, b.paused.active + b.openPaused total⟩) :
    Clocked log now total t' where
  since := (hsince'.trans hsince).le
  started := by
    rw [hsince', hstate]
    exact hmoved.started
  phases p := by
    rw [openSecs_of_since (hsince'.trans hsince), hphases, hmoved.phases_of_since hsince, hid,
      hmoved.id]
    exact h.phases p
  inside := by
    have hopen : t'.openPaused total = 0 := by simp [Task.openPaused, hpaused]
    rw [hopen, hid, hmoved.id, ← h.inside, hpaused]
    rfl
  base := by rw [hpaused]
  rate := by simp [hpaused]
  spent := by
    have hspent := h.spent
    have hrate := h.rate
    have hsum : (activePhases.map t'.phases).sum =
        (activePhases.map b.phases).sum + (activePhases.map (b.openSecs now)).sum := by
      rw [hphases, hmoved.phases_of_since hsince, List.sum_map_add]
    rw [hpaused, hsum, sum_openSecs, Task.openPaused]
    by_cases hactive : active b.state
    · have hopen : (active b.state && decide (0 < b.phaseSince)) = true := by
        simp [hactive, h.pos_of_active hactive]
      rw [if_pos hactive, if_pos hopen]
      show b.paused.active + (total - b.paused.base) ≤ _
      omega
    · rw [if_neg hactive]
      exact hspent.trans (Nat.le_add_right _ _)
  fresh _ := by rw [hpaused]

/-- What a step accounts of a task it touched. -/
theorem Clocked.phasePaused (h : Clocked log now total b) (hmoved : Moved now b t)
    (hlt : b.paused.active + b.openPaused total < 2 ^ 64) :
    Clocked log now total (phasePaused (some b) t total) := by
  rw [Pause.phasePaused]
  split_ifs with hsame
  · replace hsame : b.phaseSince = t.phaseSince := by simpa using hsame
    rcases hmoved.since with ⟨hsince, hphases, hstate⟩ | hsince
    · -- Its phase goes on.
      have hopen : t.openSecs now = b.openSecs now := by
        funext p
        rw [Task.openSecs, Task.openSecs, hsince, hstate]
      refine ⟨hsince ▸ h.since, ?_, fun p => ?_, ?_, ?_, ?_, ?_, ?_⟩
      · rw [hsince, hstate]
        exact h.started
      · rw [hphases, hopen, hmoved.id]
        exact h.phases p
      · rw [Task.openPaused, hmoved.paused, hstate, hmoved.id]
        exact h.inside
      · exact hmoved.paused ▸ h.base
      · rw [hmoved.paused, hsince]
        exact h.rate
      · rw [hmoved.paused, hphases]
        exact h.spent
      · rw [hmoved.paused, hsince]
        exact h.fresh
    · -- Its phases since the last step began and ended at once.
      have hbase := h.fresh (hsame.trans hsince)
      refine h.begin_ hmoved hsince rfl rfl rfl rfl ?_
      have hopen : b.openPaused total = 0 := by simp [Task.openPaused, hbase]
      rw [hopen, hmoved.paused, ← hbase]
      rfl
  · have hsince : t.phaseSince = now := hmoved.since.resolve_left fun hsince =>
      hsame (by simpa using hsince.1.symm)
    refine h.begin_ hmoved hsince rfl rfl rfl rfl ?_
    rw [Task.openPaused] at hlt ⊢
    by_cases hactive : active b.state
    · have hpos := h.pos_of_active hactive
      rw [if_pos hactive] at hlt
      simp [Option.filter, hactive, hpos, hmoved.paused, saturatingAdd_of_lt hlt]
    · simp [Option.filter, hactive, hmoved.paused]

/-! ## The run -/

variable {w w' : World} {old run run' : Run}

/-- A task before the first step: what was paused before is no part of its time. -/
theorem clocked_new (hpos : 0 < now) (htotal : total ≤ now)
    (hnew : ∀ s ∈ log, ∀ t ∈ s.1.tasks, t.id ≠ id) : Clocked log now total { id } := by
  have hfind : ∀ s ∈ log, phaseIn id s.1 = none := by
    intro s hs
    have hnone : s.1.tasks.find? (·.id = id) = none := by simpa using hnew s hs
    rw [phaseIn, hnone]
    rfl
  refine ⟨Nat.zero_le _, .inr rfl, fun p => ?_, ?_, Nat.zero_le _, htotal, Nat.zero_le _, ?_⟩
  · refine (lasted_eq_zero fun s hs => ?_).symm
    simp [hfind s hs]
  · refine (lasted_eq_zero fun s hs => ?_).symm
    simp [atWork, hfind s hs]
  · rintro rfl
    exact absurd hpos (lt_irrefl 0)

/-- What a step accounts of a task that joined in it. -/
theorem Clocked.join (h : Clocked log now total { id := t.id })
    (hmoved : Moved now { id := t.id } t) :
    Clocked log now total (Pause.phasePaused none t total) := by
  have hjoin : Pause.phasePaused none t total = { t with paused := ⟨total, t.paused.active⟩ } := rfl
  have hactive : t.paused.active = 0 := by rw [hmoved.paused]
  rw [hjoin, hactive]
  rcases hmoved.since with ⟨hsince, hphases, hstate⟩ | hsince
  · have hopen : t.openSecs now = Task.openSecs { id := t.id } now := by
      funext p
      rw [Task.openSecs, Task.openSecs, hsince, hstate]
    refine ⟨hsince ▸ h.since, .inr (hstate ▸ rfl), fun p => ?_, ?_, le_rfl, ?_, Nat.zero_le _,
      fun _ => rfl⟩
    · refine Eq.trans ?_ (h.phases p)
      rw [← hopen, ← hphases]
      rfl
    · refine Eq.trans ?_ h.inside
      simp [Task.openPaused, active]
    · exact (Nat.sub_self total).le.trans (Nat.zero_le _)
  · exact h.begin_ hmoved hsince rfl rfl rfl rfl rfl

/-- A task is where the one before it was. -/
theorem before_eq (hnodup : (old.tasks.map (·.id)).Nodup) (i : ℕ) :
    before old i t = old.task? t.id := by
  rw [before]
  cases hfilter : (old.tasks[i]?).filter (·.id = t.id) with
  | none => rfl
  | some b =>
    obtain ⟨hb, hid⟩ := Option.filter_eq_some_iff.1 hfilter
    have hfind := Lists.find?_key_of_nodup hnodup (List.mem_of_getElem? hb)
    rw [Option.some_or, Run.task?, ← of_decide_eq_true hid]
    exact hfind.symm

theorem id_of_touched (h : ReflTransGen (Touched now) b t) : t.id = b.id := by
  induction h with
  | refl => rfl
  | tail _ htouch ih =>
    cases htouch with
    | set state =>
      rw [← ih, Task.setState, Task.trackRung]
      split_ifs <;> rfl
    | other => exact ih

theorem ids_of_touched {kept : List Task}
    (h : List.Forall₂ (ReflTransGen (Touched now)) old.tasks kept) :
    kept.map (·.id) = old.tasks.map (·.id) :=
  Lists.map_eq_of_forall₂ (h.imp fun _ _ hmoved => id_of_touched hmoved)

/-- The tasks that were there are still, under their ids. -/
theorem Changed.ids (h : Changed now old run) :
    old.tasks.map (·.id) <+: run.tasks.map (·.id) := by
  obtain ⟨kept, added, htasks, hkept, -⟩ := h.tasks
  rw [htasks, List.map_append, ids_of_touched hkept]
  exact List.prefix_append _ _

/-- What a step accounts of the tasks, all at the time it has. -/
theorem clocked_phases (h : Changed now old run) (htasks : run'.tasks = run.tasks)
    (hpos : 0 < now) (hlt : now < 2 ^ 64) (hlength : lasted (fun _ => true) log < now)
    (hnodup : (old.tasks.map (·.id)).Nodup) (htotal : run'.pausedTotal now ≤ now)
    (hknown : ∀ s ∈ log, ∀ t ∈ s.1.tasks, t.id ∈ old.tasks.map (·.id))
    (hold : ∀ b ∈ old.tasks, Clocked log now (run'.pausedTotal now) b) :
    ∀ t ∈ (phases old run' now).tasks, Clocked log now (run'.pausedTotal now) t := by
  intro t ht
  obtain ⟨i, hi, rfl⟩ := List.mem_mapIdx.1 ht
  rw [before_eq hnodup]
  generalize hr : run'.tasks[i] = r
  have hmem : r ∈ run.tasks := htasks ▸ hr ▸ List.getElem_mem hi
  obtain ⟨kept, added, hrun, hkept, hadded⟩ := h.tasks
  have hbound : ∀ p, lasted p log < 2 ^ 64 := fun p =>
    ((lasted_mono fun _ _ _ => rfl).trans_lt hlength).trans hlt
  rcases List.mem_append.1 (hrun ▸ hmem) with hmem | hmem
  · -- A task that was there.
    obtain ⟨b, hb, hmoved⟩ := Lists.exists_of_forall₂_mem hkept hmem
    have hclocked := hold b hb
    have hfind : old.task? r.id = some b := by
      rw [Run.task?, id_of_touched hmoved]
      exact Lists.find?_key_of_nodup hnodup hb
    rw [hfind]
    refine hclocked.phasePaused (moved hpos (fun p => ?_) hclocked.started hmoved) ?_
    · rw [hclocked.phases]
      exact hbound _
    · rw [hclocked.inside]
      exact hbound _
  · -- One that joined, under an id of its own.
    have hfresh : r.id ∉ old.tasks.map (·.id) := by
      have hnodup' := h.nodup
      rw [hrun, List.map_append, ids_of_touched hkept] at hnodup'
      exact fun hold => List.disjoint_of_nodup_append hnodup' hold (List.mem_map_of_mem hmem)
    have hfind : old.task? r.id = none := by
      refine List.find?_eq_none.2 fun b hb hid => hfresh ?_
      exact of_decide_eq_true hid ▸ List.mem_map_of_mem hb
    have hnew : ∀ s ∈ log, ∀ t ∈ s.1.tasks, t.id ≠ r.id := fun s hs t ht hid =>
      hfresh (hid ▸ hknown s hs t ht)
    rw [hfind]
    refine (clocked_new hpos htotal hnew).join (moved hpos (fun p => ?_) (.inr rfl) (hadded r hmem))
    exact (show 0 + 0 < 2 ^ 64 by decide)

/-! ## Worlds -/

/-- The clocks are right. -/
structure Sound (w : World) : Prop where
  pos : 0 < w.last
  lt : w.last < 2 ^ 64
  pausedAt : w.run.pausedAt.isSome = stopped w.run.state
  since : ∀ since ∈ w.run.pausedAt, since ≤ w.last
  stepped : w.run.pausedAt = none → w.run.lastStepAt = 0 ∨ w.run.lastStepAt = w.last
  total : w.run.pausedTotal w.last = lasted (·.stopped) w.log
  length : lasted (fun _ => true) w.log < w.last
  nodup : (w.run.tasks.map (·.id)).Nodup
  known : ∀ s ∈ w.log, ∀ t ∈ s.1.tasks, t.id ∈ w.run.tasks.map (·.id)
  tasks : ∀ t ∈ w.run.tasks, Clocked w.log w.last (w.run.pausedTotal w.last) t

/-- The run's paused time goes on with a stop. -/
theorem Sound.pausedTotal_later (h : Sound w) (hnow : w.last ≤ now) (hlt : now < 2 ^ 64) :
    w.run.pausedTotal now =
      w.run.pausedTotal w.last + if stopped w.run.state then now - w.last else 0 := by
  have htotal := h.total
  have hlength : lasted (·.stopped) w.log ≤ lasted (fun _ => true) w.log :=
    lasted_mono fun _ _ _ => rfl
  have hlength' := h.length
  have hlast := h.lt
  rw [← h.pausedAt]
  rw [Run.pausedTotal] at htotal ⊢
  rw [Run.pausedTotal]
  cases hpaused : w.run.pausedAt with
  | none => simp
  | some since =>
    have hsince := h.since since hpaused
    rw [hpaused] at htotal
    simp only [saturatingAdd, Option.map_some, Option.getD_some, Option.isSome_some, if_true]
      at htotal ⊢
    omega

theorem Sound.total_upTo (h : Sound w) (hnow : w.last ≤ now) (hlt : now < 2 ^ 64) :
    w.run.pausedTotal now = lasted (·.stopped) (w.upTo now) := by
  rw [h.pausedTotal_later hnow hlt, h.total, World.upTo, lasted_cons, Nat.add_comm]

theorem Sound.length_cons (h : Sound w) (hnow : w.last ≤ now) (m : Moment) :
    lasted (fun _ => true) ((m, now - w.last) :: w.log) < now := by
  have hlength := h.length
  simp only [lasted_cons, if_true]
  omega

theorem Sound.known_cons (h : Sound w) (secs : ℕ) (stopped : Bool) :
    ∀ s ∈ ((⟨stopped, w.run.tasks⟩, secs) : Moment × ℕ) :: w.log,
      ∀ t ∈ s.1.tasks, t.id ∈ w.run.tasks.map (·.id) :=
  List.forall_mem_cons.2 ⟨fun _ ht => List.mem_map_of_mem ht, h.known⟩

/-- Each task's clocks are right later on, whatever is known of the run meanwhile. -/
theorem Sound.clocked_later (h : Sound w) (hnow : w.last ≤ now) {halted : Bool}
    (htotal : total = w.run.pausedTotal w.last + if halted then now - w.last else 0) :
    ∀ t ∈ w.run.tasks, Clocked ((⟨halted, w.run.tasks⟩, now - w.last) :: w.log) now total t :=
  fun t ht => (h.tasks t ht).later (Lists.find?_key_of_nodup h.nodup ht) hnow htotal

@[simp]
theorem map_id_phases (old run : Run) (now : ℕ) :
    (phases old run now).tasks.map (·.id) = run.tasks.map (·.id) := by
  refine List.ext_getElem (by simp [phases]) fun i hi _ => ?_
  simp only [phases, List.getElem_map, List.getElem_mapIdx, phasePaused]
  split_ifs <;> rfl

/-- What the stops make of a run that a step changed: it is paused since now or since before, and
    its paused time is what it was. -/
theorem pauseSpan_spec (h : Sound w) (hchange : Changed now w.run run) (hnow : w.last ≤ now) :
    (pauseSpan w.run run now).tasks = run.tasks ∧ (pauseSpan w.run run now).state = run.state ∧
      (pauseSpan w.run run now).pausedAt.isSome = stopped run.state ∧
      (∀ since ∈ (pauseSpan w.run run now).pausedAt, since ≤ now) ∧
      (pauseSpan w.run run now).pausedTotal now = w.run.pausedTotal now := by
  have hpaused := h.pausedAt
  have hsince : ∀ since ∈ run.pausedAt, since ≤ now := fun since hat =>
    (h.since since (hchange.pausedAt ▸ hat)).trans hnow
  have htotal : run.pausedTotal now = w.run.pausedTotal now := by
    rw [Run.pausedTotal, Run.pausedTotal, hchange.pausedAt, hchange.pausedSecs]
  rw [← hchange.pausedAt] at hpaused
  rw [pauseSpan, ← htotal]
  split
  · -- The run stops: no pause was open.
    rename_i hold hnew
    have hnone : run.pausedAt = none := by simpa [hold] using hpaused
    refine ⟨rfl, rfl, hnew.symm, fun since hat => (Option.some.inj hat).ge, ?_⟩
    simp [Run.pausedTotal, hnone]
  · -- It goes on: the pause is over.
    rename_i hold hnew
    obtain ⟨since, hat⟩ := Option.isSome_iff_exists.1 (hpaused.trans hold)
    refine ⟨rfl, rfl, hnew.symm, nofun, ?_⟩
    simp [overlap, Run.pausedTotal, hat, saturatingAdd]
  · rename_i hstop hgo
    refine ⟨rfl, rfl, hpaused.trans ?_, hsince, rfl⟩
    cases hold : stopped w.run.state <;> cases hnew : stopped run.state
    · rfl
    · exact (hstop hold hnew).elim
    · exact (hgo hold hnew).elim
    · rfl

theorem Sound.total_le (h : Sound w) (hnow : w.last ≤ now) (hlt : now < 2 ^ 64) :
    w.run.pausedTotal now ≤ now := by
  rw [h.total_upTo hnow hlt]
  exact ((lasted_mono fun _ _ _ => rfl).trans_lt (h.length_cons hnow _)).le

/-- A step. -/
theorem Sound.change (h : Sound w) (hchange : Changed now w.run run) (hnow : w.last ≤ now)
    (hlt : now < 2 ^ 64) : Sound ⟨account w.run run now, w.upTo now, now⟩ := by
  obtain ⟨htasks, hstate, hpaused, hsince, htotal⟩ := pauseSpan_spec h hchange hnow
  have hids := map_id_phases w.run { pauseSpan w.run run now with lastStepAt := now } now
  rw [show ({ pauseSpan w.run run now with lastStepAt := now } : Run).tasks = run.tasks from htasks]
    at hids
  refine ⟨h.pos.trans_le hnow, hlt, hpaused.trans (congrArg stopped hstate.symm), hsince,
    fun _ => .inr rfl, htotal.trans (h.total_upTo hnow hlt), h.length_cons hnow _, ?_, ?_, ?_⟩
  · exact hids.symm ▸ hchange.nodup
  · exact fun s hs t ht => hids.symm ▸ hchange.ids.subset (h.known_cons _ _ s hs t ht)
  · refine clocked_phases hchange htasks (h.pos.trans_le hnow) hlt (h.length_cons hnow _) h.nodup
      ?_ (h.known_cons _ _) ?_
    · exact htotal.trans_le (h.total_le hnow hlt)
    · exact h.clocked_later hnow (htotal.trans (h.pausedTotal_later hnow hlt))

/-- What a restart makes of a run it leaves stopped: it was so since its last change. -/
theorem pauseSince_spec (h : Sound w) (hchange : Changed now w.run run) (hnow : w.last ≤ now)
    (hlt : now < 2 ^ 64) (hstopped : stopped run.state = true) :
    (pauseSince run now).tasks = run.tasks ∧ (pauseSince run now).state = run.state ∧
      (pauseSince run now).pausedAt.isSome ∧
      (∀ since ∈ (pauseSince run now).pausedAt, since ≤ now) ∧
      (pauseSince run now).pausedTotal now = w.run.pausedTotal w.last +
        if stopped w.run.state || 0 < w.run.lastStepAt then now - w.last else 0 := by
  have hpaused := h.pausedAt
  rw [← hchange.pausedAt] at hpaused
  cases hat : run.pausedAt with
  | some since =>
    have hold : stopped w.run.state = true := by simpa [hat] using hpaused.symm
    have hsince : pauseSince run now = run := by simp [pauseSince, hat]
    have htotal := h.pausedTotal_later hnow hlt
    rw [Run.pausedTotal, ← hchange.pausedAt, ← hchange.pausedSecs, if_pos hold] at htotal
    rw [hsince, hat, hold]
    refine ⟨rfl, rfl, rfl, ?_, htotal⟩
    exact fun since' hsome => (h.since since' (hchange.pausedAt ▸ hat ▸ hsome)).trans hnow
  | none =>
    have hold : stopped w.run.state = false := by simpa [hat] using hpaused.symm
    obtain ⟨hsecs, hbound⟩ :
        w.run.pausedTotal w.last = run.pausedSecs ∧ run.pausedSecs < w.last := by
      have hlength : lasted (·.stopped) w.log ≤ lasted (fun _ => true) w.log :=
        lasted_mono fun _ _ _ => rfl
      have hlength' := h.length
      have hlast := h.lt
      have htotal := h.total
      rw [Run.pausedTotal, ← hchange.pausedAt, ← hchange.pausedSecs, hat, saturatingAdd] at htotal ⊢
      simp only [Option.map_none, Option.getD_none] at htotal ⊢
      omega
    -- Its last change was at the log's end, when it had one.
    obtain ⟨since, hsince, hle, hspan⟩ : ∃ since,
        pauseSince run now = { run with pausedAt := some since } ∧ since ≤ now ∧
          now - since = if 0 < w.run.lastStepAt then now - w.last else 0 := by
      refine ⟨_, by simp only [pauseSince, hstopped, hat]; rfl, ?_⟩
      have hpos := h.pos
      rw [hchange.lastStepAt]
      rcases h.stepped (hchange.pausedAt ▸ hat) with hzero | hlast
      · simp [hzero]
      · rw [hlast, if_pos hpos, if_pos hpos]
        exact ⟨hnow, rfl⟩
    rw [hsince, hold, Bool.false_or]
    refine ⟨rfl, rfl, rfl, fun since' hsome => (Option.some.inj hsome) ▸ hle, ?_⟩
    rw [hsecs, Run.pausedTotal]
    simp only [decide_eq_true_eq]
    refine (saturatingAdd_of_lt ?_).trans (congrArg _ hspan)
    show run.pausedSecs + (now - since) < 2 ^ 64
    split_ifs at hspan <;> omega

/-- A restart that leaves the run stopped. -/
theorem Sound.pause (h : Sound w) (hchange : Changed now w.run run) (hnow : w.last ≤ now)
    (hlt : now < 2 ^ 64) (hstopped : stopped run.state = true) :
    Sound ⟨designRestored (restored w.run run now) now, w.down now, now⟩ := by
  obtain ⟨htasks, hstate, hpaused, hsince, htotal⟩ :=
    pauseSince_spec h hchange hnow hlt hstopped
  have hids := map_id_phases w.run (pauseSince run now) now
  rw [htasks] at hids
  have hdesign : designRestored (restored w.run run now) now =
      phases w.run (pauseSince run now) now := by
    have hstop : stopped (restored w.run run now).state = true :=
      (congrArg stopped hstate).trans hstopped
    rw [designRestored, hstop]
    rfl
  have hlasted : (pauseSince run now).pausedTotal now = lasted (·.stopped) (w.down now) := by
    rw [htotal, h.total, World.down, lasted_cons, Nat.add_comm]
  rw [hdesign]
  refine ⟨h.pos.trans_le hnow, hlt, hpaused.trans ((congrArg stopped hstate).trans hstopped).symm,
    hsince, fun hnone => ?_, hlasted, h.length_cons hnow _, ?_, ?_, ?_⟩
  · exact absurd hpaused (by rw [show (pauseSince run now).pausedAt = none from hnone]; decide)
  · exact hids.symm ▸ hchange.nodup
  · exact fun s hs t ht => hids.symm ▸ hchange.ids.subset (h.known_cons _ _ s hs t ht)
  · refine clocked_phases hchange htasks (h.pos.trans_le hnow) hlt (h.length_cons hnow _) h.nodup
      ?_ (h.known_cons _ _) (h.clocked_later hnow htotal)
    rw [hlasted]
    exact ((lasted_mono fun _ _ _ => rfl).trans_lt (h.length_cons hnow _)).le

/-- No task's phase changes where none is moved. -/
theorem phases_self (hnodup : (old.tasks.map (·.id)).Nodup) (htasks : run.tasks = old.tasks) :
    phases old run now = run := by
  have hself : (run.tasks.mapIdx fun i task =>
      phasePaused (before old i task) task (run.pausedTotal now)) = run.tasks := by
    refine List.ext_getElem (by simp) fun i hi hi' => ?_
    have hmem : run.tasks[i] ∈ old.tasks := htasks ▸ List.getElem_mem hi'
    rw [List.getElem_mapIdx, before_eq hnodup, Run.task?, Lists.find?_key_of_nodup hnodup hmem]
    simp [phasePaused]
  rw [phases, hself]

/-- A restart that leaves the run as it is. -/
theorem Sound.keep (h : Sound w) (hchange : Changed now w.run run) (hnow : w.last ≤ now)
    (hlt : now < 2 ^ 64) (hstopped : stopped run.state = false)
    (hstopped' : stopped w.run.state = false) (htasks : run.tasks = w.run.tasks) :
    Sound (if run.phaseStarted.isSome ∧ run.lastStepAt ≠ 0 then
        ⟨designRestored (restored w.run run now) now, w.upTo now, now⟩
      else ⟨designRestored (restored w.run run now) now, w.log, w.last⟩) := by
  have hpaused : run.pausedAt = none := by
    have hnone := h.pausedAt
    rw [hstopped', ← hchange.pausedAt] at hnone
    simpa using hnone
  have hrestored : restored w.run run now = run := by
    have hsince : pauseSince run now = run := by simp [pauseSince, hstopped]
    rw [restored, hsince, phases_self h.nodup htasks]
  have htotal : ∀ now, run.pausedTotal now = w.run.pausedTotal now := fun now => by
    rw [Run.pausedTotal, Run.pausedTotal, hchange.pausedAt, hchange.pausedSecs]
  rw [hrestored]
  split_ifs with hclock
  · -- The clock of a design phase runs: the run's last change is the restart.
    obtain ⟨hstarted, hstepped⟩ := hclock
    obtain ⟨started, hstarted⟩ := Option.isSome_iff_exists.1 hstarted
    have hdesign : designRestored run now = { run with
        phaseStarted := some (min (saturatingAdd started (now - run.lastStepAt)) now)
        lastStepAt := now } := by
      simp [designRestored, hstopped, hstepped, hstarted]
    rw [hdesign]
    refine ⟨h.pos.trans_le hnow, hlt, ?_, ?_, fun _ => .inr rfl, ?_, h.length_cons hnow _,
      hchange.nodup, ?_, ?_⟩
    · exact (congrArg Option.isSome hpaused).trans hstopped.symm
    · exact fun since hsome => nomatch hpaused.symm.trans hsome
    · exact (htotal now).trans (h.total_upTo hnow hlt)
    · exact htasks.symm ▸ h.known_cons _ _
    · have hlater := h.clocked_later hnow ((htotal now).trans (h.pausedTotal_later hnow hlt))
      exact htasks.symm ▸ hlater
  · have hdesign : designRestored run now = run := by
      rw [designRestored]
      split_ifs with hstep
      · rfl
      · cases hstarted : run.phaseStarted with
        | none => rfl
        | some started =>
          exact absurd ⟨by simp [hstarted], by simpa [hstopped] using hstep⟩ hclock
    rw [hdesign]
    refine ⟨h.pos, h.lt, ?_, ?_, ?_, (htotal _).trans h.total, h.length, hchange.nodup, ?_, ?_⟩
    · exact (congrArg Option.isSome hpaused).trans hstopped.symm
    · exact fun since hsome => nomatch hpaused.symm.trans hsome
    · exact fun _ => hchange.lastStepAt ▸ h.stepped (hchange.pausedAt ▸ hpaused)
    · exact htasks.symm ▸ h.known
    · have hclocked := h.tasks
      rw [← htotal] at hclocked
      exact htasks.symm ▸ hclocked

theorem Start.sound (h : Start w) : Sound w := by
  have htotal : w.run.pausedTotal w.last = 0 := by
    rw [Run.pausedTotal, h.pausedAt, h.pausedSecs]
    rfl
  refine ⟨h.pos, h.lt, ?_, ?_, fun _ => .inl h.lastStepAt, ?_, ?_, h.nodup, ?_, fun t ht => ?_⟩
  · rw [h.pausedAt, h.state]
    rfl
  · rw [h.pausedAt]
    exact nofun
  · rw [htotal, h.log]
    rfl
  · rw [h.log]
    exact h.pos
  · rw [h.log]
    exact nofun
  · -- Its tasks are touched as those that join later are.
    have hnew : Clocked w.log w.last 0 { id := t.id } :=
      clocked_new h.pos (Nat.zero_le _) (by rw [h.log]; exact nofun)
    have hmoved : Moved w.last { id := t.id } t :=
      moved h.pos (fun p => show 0 + 0 < 2 ^ 64 by decide) (.inr rfl) (h.tasks t ht)
    have hbase : phasePaused none t 0 = t := by
      show { t with paused := ⟨0, t.paused.active⟩ } = t
      have hpaused : t.paused = ⟨0, 0⟩ := hmoved.paused
      rw [hpaused, ← hpaused]
    exact htotal.symm ▸ hbase ▸ hnew.join hmoved

theorem Sound.step (h : Sound w) (hstep : Step w w') : Sound w' := by
  cases hstep with
  | change hnow hlt hchange => exact h.change hchange hnow hlt
  | pause hnow hlt hchange hstopped => exact h.pause hchange hnow hlt hstopped
  | keep hnow hlt hchange hstopped hstopped' htasks =>
    exact h.keep hchange hnow hlt hstopped hstopped' htasks

/-- In every run. -/
theorem Reached.sound (h : Reached w) : Sound w := by
  obtain ⟨start, hstart, hreach⟩ := h
  induction hreach with
  | refl => exact hstart.sound
  | tail _ hstep ih => exact ih.step hstep

/-! ## What the clocks say -/

theorem activeSecs_eq {f : PhaseSecs} (h : (activePhases.map f).sum < 2 ^ 64) :
    activeSecs f = (activePhases.map f).sum := by
  have hsum : ∀ (l : List ℕ) (n : ℕ), n + l.sum < 2 ^ 64 → l.foldl saturatingAdd n = n + l.sum := by
    intro l
    induction l with
    | nil => exact fun _ _ => rfl
    | cons m l ih =>
      intro n hlt
      rw [List.sum_cons, ← Nat.add_assoc] at hlt ⊢
      rw [List.foldl_cons, saturatingAdd_of_lt ((Nat.le_add_right _ _).trans_lt hlt)]
      exact ih _ hlt
  rw [activeSecs, hsum _ 0 (by rwa [Nat.zero_add]), Nat.zero_add]

/-- What is done of a task is its work, less what was paused inside it. -/
theorem Clocked.done_add (h : Clocked log now (run.pausedTotal now) t)
    (hlt : lasted (atWork t.id) log < 2 ^ 64) :
    done run t now + lasted (fun m => atWork t.id m && m.stopped) log =
      lasted (atWork t.id) log := by
  have hsum : (activePhases.map t.phases).sum + (activePhases.map (t.openSecs now)).sum =
      lasted (atWork t.id) log := by
    rw [← sum_phaseIn, ← List.sum_map_add]
    exact congrArg List.sum (List.map_congr_left fun p _ => h.phases p)
  have hspent := h.spent
  have hrate := h.rate
  rw [sum_openSecs] at hsum
  rw [done, activeSecs_eq (by omega), ← h.inside, Task.openPaused, saturatingAdd]
  by_cases hactive : active t.state
  · have hopen : (active t.state && decide (0 < t.phaseSince)) = true := by
      simp [hactive, h.pos_of_active hactive]
    rw [if_pos hopen] at hsum ⊢
    rw [if_pos hactive]
    omega
  · have hopen : ¬(active t.state && decide (0 < t.phaseSince)) = true := by simp [hactive]
    rw [if_neg hopen] at hsum ⊢
    rw [if_neg hactive]
    omega

theorem Changed.refl (hnodup : (old.tasks.map (·.id)).Nodup) (state : RunState) :
    Changed now old { old with state } where
  pausedAt := rfl
  pausedSecs := rfl
  lastStepAt := rfl
  tasks := ⟨old.tasks, [], (List.append_nil _).symm, List.forall₂_same.2 fun _ _ => .refl, nofun⟩
  nodup := hnodup

/-- A task is at work from 10 on. -/
def begun : World :=
  ⟨{ state := .running, tasks := [Task.setState { id := "t1" } .working 10] }, [], 10⟩

/-- The run pauses at 20 and goes on at 25, the daemon is down from then to 100, and the run goes on
    at 110. -/
def resumed : World :=
  let paused : World :=
    ⟨account begun.run { begun.run with state := .paused } 20, begun.upTo 20, 20⟩
  let again : World :=
    ⟨account paused.run { paused.run with state := .running } 25, paused.upTo 25, 25⟩
  let down : World :=
    ⟨designRestored (restored again.run { again.run with state := .paused } 100) 100,
      again.down 100, 100⟩
  ⟨account down.run { down.run with state := .running } 110, down.upTo 110, 110⟩

theorem reached_resumed : Reached resumed := by
  refine ⟨begun, ⟨by decide, by decide, rfl, rfl, rfl, rfl, rfl, ?_, by decide⟩, ?_⟩
  · intro t ht
    rw [List.mem_singleton.1 ht]
    exact .single (.set _ _)
  · have hpaused := ReflTransGen.single
      (Step.change (w := begun) (show 10 ≤ 20 by decide) (by decide) (.refl (by decide) .paused))
    have hagain := hpaused.tail
      (.change (show 20 ≤ 25 by decide) (by decide) (.refl (by decide) .running))
    have hdown := hagain.tail
      (.pause (show 25 ≤ 100 by decide) (by decide) (.refl (by decide) .paused) rfl)
    exact hdown.tail (.change (by decide) (by decide) (.refl (by decide) .running))

end Anthrex.Pause
