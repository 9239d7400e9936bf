import Anthrex.Quota.Book
import Anthrex.Run.Model

/-!
# The clocks of a run

What a session is charged for and waits for, while the host sleeps and the wall clock is
corrected (`run/engine/clock.rs`). A round has *waits*, deadlines in the seconds of the wall
clock, and a stall clock that counts from its last event; it is charged for the seconds since
its start, less those it is excused and those its task's clock is stopped.

A sleep (`slept`) and a correction (`steppedBack`) move all of these. A wait still to come at
the sleep keeps the awake time it had left, and so does the stall clock, but for one case: the
stall clock counts from the end of a rate limit where that is later than the last event, and a
rate limit that ended before the sleep is not moved (`clock_steps`).
-/

namespace Anthrex.Engine

open Anthrex.Run hiding id
open Anthrex.Quota (saturatingAdd)

/-! ## Rounds and their clocks -/

/-- The engine second by which `secs` real seconds have passed. -/
def notBefore (now secs : ℕ) : ℕ := now + secs + 1

/-- When a round's open turn has been silent for `stallAfter` seconds: after its last event,
    and after the end of a rate limit. -/
def stallDue (round : AgentRound) (stallAfter : ℕ) : ℕ :=
  let afterEvent := notBefore round.lastEvent stallAfter
  match round.rateLimitedUntil with
  | none => afterEvent
  | some limited => max afterEvent (limited + stallAfter)

structure Spend where
  toolCalls : ℕ := 0
  secs : ℕ := 0
  tokens : ℕ := 0
  deriving DecidableEq, Repr

/-- What a round is charged; `stopped` is the open stop of its clock. -/
def roundSpend (round : AgentRound) (stopped : Option ℕ) (now : ℕ) : Spend :=
  let last := round.endedAt.getD now
  let isOpen := (stopped.map fun since => last - max since round.startedAt).getD 0
  { toolCalls := round.toolCalls
    secs := last - round.startedAt - (round.excusedSecs + isOpen)
    tokens := round.billable }

/-- The deadlines of a round. -/
def waits (round : AgentRound) : List ℕ :=
  round.rateLimitedUntil.toList ++ round.deliveryRetryAt.toList ++ round.countRetryAt.toList ++
    (match round.stall with
      | .interrupted deadline => [deadline]
      | _ => []) ++
    match round.failedTurn with
    | .waitingContinue time _ => [time]
    | _ => []

/-- Every deadline of the round moved. -/
def moveWaits (move : ℕ → ℕ) (round : AgentRound) : AgentRound :=
  { round with
    rateLimitedUntil := round.rateLimitedUntil.map move
    deliveryRetryAt := round.deliveryRetryAt.map move
    countRetryAt := round.countRetryAt.map move
    stall := match round.stall with
      | .interrupted deadline => .interrupted (move deadline)
      | stall => stall
    failedTurn := match round.failedTurn with
      | .waitingContinue time rateLimit => .waitingContinue (move time) rateLimit
      | failed => failed }

/-- The lane whose view the events of a round in `lane` go through: not the one that became
    the task. -/
def viewLane (task : Task) (lane : Option RaceLane) : Option RaceLane :=
  match lane, task.race with
  | some lane, some race =>
    if race.lanes.any (·.lane = lane) && !(race.crowned && race.winner = some lane) then some lane
    else none
  | _, _ => none

/-- The clock a round is charged on: its lane's, or its task's. -/
def roundClock (task : Task) (round : AgentRound) : TaskClock :=
  match viewLane task round.lane, task.race with
  | some lane, some race => ((race.lanes.find? (·.lane = lane)).map (·.clock)).getD task.clock
  | _, _ => task.clock

/-- The round is over for neither the engine nor its clock. -/
def unended (round : AgentRound) : Bool := round.endedAt.isNone && !round.ended

/-! ## Sleeps and corrections -/

/-- A stopped racer is given this long to exit. -/
def laneExitWaitSecs : ℕ := 33

/-- A deadline still to come at the sleep's start ends `secs` later. -/
def later (secs now deadline : ℕ) : ℕ :=
  if now - secs < deadline then saturatingAdd deadline secs else deadline

/-- An anchor moves with the sleep, up to now. -/
def asleepAnchor (secs now anchor : ℕ) : ℕ := min (saturatingAdd anchor secs) now

def sleptRound (secs now : ℕ) (stopped : Bool) (round : AgentRound) : AgentRound :=
  let charged := if stopped then round.excusedSecs
    else min (saturatingAdd round.excusedSecs secs) (now - round.startedAt)
  moveWaits (later secs now) <|
    if unended round then
      { round with lastEvent := asleepAnchor secs now round.lastEvent, excusedSecs := charged }
    else round

/-- A stopped racer's exit wait goes on after the sleep. -/
def sleptLane (secs now : ℕ) (lane : Lane) : Lane :=
  { lane with killSentAt := lane.killSentAt.map fun sent =>
      if now - secs < saturatingAdd sent laneExitWaitSecs then asleepAnchor secs now sent
      else sent }

def mapLanes (f : Lane → Lane) (task : Task) : Task :=
  { task with race := task.race.map fun race => { race with lanes := race.lanes.map f } }

def sleptTask (secs now : ℕ) (task : Task) : Task :=
  mapLanes (sleptLane secs now)
    { task with rounds := task.rounds.map fun round =>
        sleptRound secs now (roundClock task round).stopped.isSome round }

/-- The starts of the running design agents, and of the phase unless the run stands still. -/
def moveDesign (move : ℕ → ℕ) (state : RunState) (design : Design) : Design :=
  let agent := fun a : DesignAgent =>
    if a.state = .running then { a with started := a.started.map move } else a
  { brainstormers := design.brainstormers.map agent
    reviewer := design.reviewer.map agent
    phaseStarted := if state = .paused || state = .halted then design.phaseStarted
      else design.phaseStarted.map move }

/-- The host slept `secs` up to `now`. -/
def slept (run : Run) (secs now : ℕ) : Run :=
  { run with
    tasks := run.tasks.map (sleptTask secs now)
    design := run.design.map (moveDesign (asleepAnchor secs now) run.state) }

/-- A deadline keeps what remained of it before the step; one that had come stays come. -/
def back (secs now deadline : ℕ) : ℕ := min deadline (now + (deadline - saturatingAdd now secs))

/-- An anchor moves back with the clock. -/
def anchorBack (secs now anchor : ℕ) : ℕ := min (anchor - secs) now

def clockBack (secs now : ℕ) (clock : TaskClock) : TaskClock where
  stopped := clock.stopped.map (anchorBack secs now)
  restarted := anchorBack secs now clock.restarted

def steppedBackRound (secs now : ℕ) (round : AgentRound) : AgentRound :=
  moveWaits (back secs now) <|
    if unended round then
      { round with
        lastEvent := anchorBack secs now round.lastEvent
        excusedSecs := round.excusedSecs - secs
        startedAt := min round.startedAt now }
    else round

def steppedBackTask (secs now : ℕ) (task : Task) : Task :=
  mapLanes (fun lane => { lane with
      killSentAt := lane.killSentAt.map (anchorBack secs now)
      clock := clockBack secs now lane.clock })
    { task with
      rounds := task.rounds.map (steppedBackRound secs now)
      clock := clockBack secs now task.clock }

/-- The wall clock was set `secs` back, to `now`. -/
def steppedBack (run : Run) (secs now : ℕ) : Run :=
  let anchor := anchorBack secs now
  { run with
    tasks := run.tasks.map (steppedBackTask secs now)
    waitingSince := run.waitingSince.map anchor
    concurrency := run.concurrency.map fun c =>
      (c.1, ⟨c.2.lastRateLimitAt.map anchor, c.2.lastChangeAt.map anchor⟩)
    design := run.design.map (moveDesign anchor run.state) }

/-! ## What a move of the waits does -/

variable {run : Run} {task : Task} {round : AgentRound} {move move' : ℕ → ℕ}
  {secs now stallAfter i r : ℕ}

theorem endedAt_of_unended (h : unended round) : round.endedAt = none := by
  simp only [unended, Bool.and_eq_true, Option.isNone_iff_eq_none] at h
  exact h.1

@[simp] theorem waits_moveWaits : waits (moveWaits move round) = (waits round).map move := by
  unfold waits moveWaits
  cases round.rateLimitedUntil <;> cases round.deliveryRetryAt <;> cases round.countRetryAt <;>
    cases round.stall <;> cases round.failedTurn <;> rfl

theorem mem_waits_rateLimitedUntil {limited : ℕ} (h : round.rateLimitedUntil = some limited) :
    limited ∈ waits round := by
  simp [waits, h]

@[simp] theorem moveWaits_rateLimitedUntil :
    (moveWaits move round).rateLimitedUntil = round.rateLimitedUntil.map move := rfl

@[simp] theorem moveWaits_lastEvent : (moveWaits move round).lastEvent = round.lastEvent := rfl

theorem roundSpend_moveWaits (stopped : Option ℕ) :
    roundSpend (moveWaits move round) stopped now = roundSpend round stopped now := rfl

/-! ## Sleeps -/

/-- What a sleep should leave a round that has not ended: every deadline still to come at the
    sleep's start keeps the awake time it had left, the silence of an open turn too, and no
    second of the sleep is charged. -/
structure SleepKeeps (stallAfter secs now : ℕ) (stopped stopped' : Option ℕ)
    (round round' : AgentRound) : Prop where
  waits : List.Forall₂ (fun d d' : ℕ => now - secs < d → (d : ℤ) - (now - secs) ≤ d' - now)
    (waits round) (waits round')
  stall : round.turnOpen → now - secs < stallDue round stallAfter →
    (stallDue round stallAfter : ℤ) - (now - secs) ≤ stallDue round' stallAfter - now
  charged : (roundSpend round' stopped' now).secs ≤ (roundSpend round stopped (now - secs)).secs

/-- No deadline passes the last second there is; the stall clock counts from an event before
    the sleep, or from the end of a rate limit that the sleep moves; and the clock was not
    stopped during the sleep, or stopped before there was anything to charge. -/
structure SleepFits (stallAfter secs now : ℕ) (stopped : Option ℕ) (round : AgentRound) :
    Prop where
  waits : ∀ d ∈ waits round, now - secs < d → d + secs < 2 ^ 64
  stall : round.turnOpen → now - secs < stallDue round stallAfter →
    (round.lastEvent ≤ now - secs ∧
      ∀ limited, round.rateLimitedUntil = some limited → limited ≤ round.lastEvent + 1) ∨
    ∃ limited, round.rateLimitedUntil = some limited ∧ round.lastEvent + 1 ≤ limited ∧
      (now - secs < limited ∨ secs = 0)
  charged : ∀ since, stopped = some since →
    since ≤ now - secs ∨ min now since ≤ round.startedAt + round.excusedSecs ∨ secs = 0

theorem later_keeps_iff {d : ℕ} :
    (now - secs < d → (d : ℤ) - (now - secs) ≤ later secs now d - now) ↔
      (now - secs < d → d + secs < 2 ^ 64) := by
  refine imp_congr_right fun hd => ?_
  rw [later, if_pos hd, saturatingAdd]
  omega

theorem waits_sleptRound {stopped : Bool} :
    waits (sleptRound secs now stopped round) = (waits round).map (later secs now) := by
  rw [sleptRound, waits_moveWaits]
  split <;> rfl

theorem asleepAnchor_eq {anchor : ℕ} (hnow : now < 2 ^ 64) :
    asleepAnchor secs now anchor = min (anchor + secs) now := by
  rw [asleepAnchor, saturatingAdd]
  omega

theorem stallDue_eq (round : AgentRound) (stallAfter : ℕ) :
    stallDue round stallAfter =
      max (round.lastEvent + 1) (round.rateLimitedUntil.getD 0) + stallAfter := by
  unfold stallDue notBefore
  cases round.rateLimitedUntil with
  | none => simp only [Option.getD_none]; omega
  | some limited => simp only [Option.getD_some]; omega

/-- The stall clock, as long as no wait passes the last second. -/
theorem stall_sleptRound_iff {stopped : Bool} (hunended : unended round) (hsecs : secs ≤ now)
    (hnow : now < 2 ^ 64) (hwaits : ∀ d ∈ waits round, now - secs < d → d + secs < 2 ^ 64) :
    (stallDue round stallAfter : ℤ) - (now - secs) ≤
        stallDue (sleptRound secs now stopped round) stallAfter - now ↔
      (round.lastEvent ≤ now - secs ∧
        ∀ limited, round.rateLimitedUntil = some limited → limited ≤ round.lastEvent + 1) ∨
      ∃ limited, round.rateLimitedUntil = some limited ∧ round.lastEvent + 1 ≤ limited ∧
        (now - secs < limited ∨ secs = 0) := by
  have hevent : (sleptRound secs now stopped round).lastEvent =
      min (round.lastEvent + secs) now := by
    rw [sleptRound, moveWaits_lastEvent, if_pos hunended, asleepAnchor_eq hnow]
  have hlimited : (sleptRound secs now stopped round).rateLimitedUntil =
      round.rateLimitedUntil.map (later secs now) := by
    rw [sleptRound, moveWaits_rateLimitedUntil, if_pos hunended]
  rw [stallDue_eq, stallDue_eq, hevent, hlimited]
  cases hround : round.rateLimitedUntil with
  | none =>
    simp only [Option.getD_none, Option.map_none, reduceCtorEq, false_implies, forall_const,
      and_true, false_and, exists_false, or_false]
    omega
  | some limited =>
    have hfits := hwaits limited (mem_waits_rateLimitedUntil hround)
    simp only [Option.getD_some, Option.map_some, Option.some.injEq, forall_eq',
      exists_eq_left', later, saturatingAdd]
    split <;> omega

/-- A running clock is excused the whole sleep; a stopped one charges nothing since its stop. -/
theorem charged_sleptRound_iff (stopped : Option ℕ) (hunended : unended round) (hsecs : secs ≤ now)
    (hnow : now < 2 ^ 64) :
    (roundSpend (sleptRound secs now stopped.isSome round) stopped now).secs ≤
        (roundSpend round stopped (now - secs)).secs ↔
      ∀ since, stopped = some since →
        since ≤ now - secs ∨ min now since ≤ round.startedAt + round.excusedSecs ∨ secs = 0 := by
  have hended := endedAt_of_unended hunended
  rw [sleptRound, roundSpend_moveWaits, if_pos hunended]
  cases stopped with
  | none =>
    simp only [roundSpend, hended, Option.getD_none, Option.map_none, Option.isSome_none,
      Bool.false_eq_true, if_false, saturatingAdd, reduceCtorEq, false_implies, implies_true,
      iff_true]
    omega
  | some since =>
    simp only [roundSpend, hended, Option.getD_none, Option.map_some, Option.getD_some,
      Option.isSome_some, if_true, Option.some.injEq, forall_eq']
    omega

theorem sleepKeeps_iff {stopped : Option ℕ} (hunended : unended round) (hsecs : secs ≤ now)
    (hnow : now < 2 ^ 64) :
    SleepKeeps stallAfter secs now stopped stopped round
        (sleptRound secs now stopped.isSome round) ↔
      SleepFits stallAfter secs now stopped round := by
  have hwaits : List.Forall₂
      (fun d d' : ℕ => now - secs < d → (d : ℤ) - (now - secs) ≤ d' - now) (waits round)
      (waits (sleptRound secs now stopped.isSome round)) ↔
      ∀ d ∈ waits round, now - secs < d → d + secs < 2 ^ 64 := by
    rw [waits_sleptRound, List.forall₂_map_right_iff, List.forall₂_same]
    exact forall₂_congr fun d _ => later_keeps_iff
  have hcharged := charged_sleptRound_iff stopped hunended hsecs hnow
  constructor
  · intro h
    have hfits := hwaits.1 h.waits
    exact ⟨hfits, fun hopen hdue =>
      (stall_sleptRound_iff hunended hsecs hnow hfits).1 (h.stall hopen hdue),
      hcharged.1 h.charged⟩
  · intro h
    exact ⟨hwaits.2 h.waits, fun hopen hdue =>
      (stall_sleptRound_iff hunended hsecs hnow h.waits).2 (h.stall hopen hdue),
      hcharged.2 h.charged⟩

/-! ## Corrections -/

/-- What a correction should leave a round that has not ended: every deadline still to come
    keeps the time it had left on the clock before the step, and the charge does not grow. -/
structure StepKeeps (stallAfter secs now : ℕ) (stopped stopped' : Option ℕ)
    (round round' : AgentRound) : Prop where
  waits : List.Forall₂ (fun d d' : ℕ => now + secs < d → (d : ℤ) - (now + secs) ≤ d' - now)
    (waits round) (waits round')
  stall : round.turnOpen → now + secs < stallDue round stallAfter →
    (stallDue round stallAfter : ℤ) - (now + secs) ≤ stallDue round' stallAfter - now
  charged : (roundSpend round' stopped' now).secs ≤ (roundSpend round stopped (now + secs)).secs

/-- The last event of an open turn is not later than the clock before the step, or a rate
    limit ends later still. -/
def StepFits (secs now : ℕ) (round : AgentRound) : Prop :=
  round.turnOpen → round.lastEvent ≤ now + secs ∨
    ∃ limited, round.rateLimitedUntil = some limited ∧ round.lastEvent + 1 ≤ limited

theorem waits_steppedBackRound :
    waits (steppedBackRound secs now round) = (waits round).map (back secs now) := by
  rw [steppedBackRound, waits_moveWaits]
  split <;> rfl

theorem back_keeps {d : ℕ} (hd : now + secs < d) :
    (d : ℤ) - (now + secs) ≤ back secs now d - now := by
  rw [back, saturatingAdd]
  omega

theorem charged_steppedBackRound (stopped : Option ℕ) (hunended : unended round) :
    (roundSpend (steppedBackRound secs now round) (stopped.map (anchorBack secs now)) now).secs ≤
      (roundSpend round stopped (now + secs)).secs := by
  have hended := endedAt_of_unended hunended
  rw [steppedBackRound, roundSpend_moveWaits, if_pos hunended]
  cases stopped with
  | none =>
    simp only [roundSpend, hended, Option.getD_none, Option.map_none]
    omega
  | some since =>
    simp only [roundSpend, hended, Option.getD_none, Option.map_some, Option.getD_some, anchorBack]
    omega

theorem stall_steppedBackRound_iff (hunended : unended round)
    (hevent : round.lastEvent < 2 ^ 64) :
    (now + secs < stallDue round stallAfter → (stallDue round stallAfter : ℤ) - (now + secs) ≤
        stallDue (steppedBackRound secs now round) stallAfter - now) ↔
      (round.lastEvent ≤ now + secs ∨
        ∃ limited, round.rateLimitedUntil = some limited ∧ round.lastEvent + 1 ≤ limited) := by
  have hmoved : (steppedBackRound secs now round).lastEvent =
      min (round.lastEvent - secs) now := by
    rw [steppedBackRound, moveWaits_lastEvent, if_pos hunended, anchorBack]
  have hlimited : (steppedBackRound secs now round).rateLimitedUntil =
      round.rateLimitedUntil.map (back secs now) := by
    rw [steppedBackRound, moveWaits_rateLimitedUntil, if_pos hunended]
  rw [stallDue_eq, stallDue_eq, hmoved, hlimited]
  cases round.rateLimitedUntil with
  | none =>
    simp only [Option.getD_none, Option.map_none, reduceCtorEq, false_and, exists_false, or_false]
    omega
  | some limited =>
    simp only [Option.getD_some, Option.map_some, Option.some.injEq, exists_eq_left', back,
      saturatingAdd]
    omega

theorem stepKeeps_iff {stopped : Option ℕ} (hunended : unended round)
    (hevent : round.lastEvent < 2 ^ 64) :
    StepKeeps stallAfter secs now stopped (stopped.map (anchorBack secs now)) round
        (steppedBackRound secs now round) ↔ StepFits secs now round := by
  constructor
  · intro h hopen
    exact (stall_steppedBackRound_iff hunended hevent).1 (h.stall hopen)
  · intro h
    refine ⟨?_, fun hopen => (stall_steppedBackRound_iff hunended hevent).2 (h hopen),
      charged_steppedBackRound stopped hunended⟩
    rw [waits_steppedBackRound, List.forall₂_map_right_iff, List.forall₂_same]
    exact fun d _ hd => back_keeps hd

/-! ## A forward step and its correction -/

/-- A wait that the sleep moves and the correction moves back. -/
theorem back_later_iff {t d : ℕ} (ht : t + secs < 2 ^ 64) :
    back secs t (later secs (t + secs) d) = d ↔ (t < d → d + secs < 2 ^ 64) := by
  rw [back, later, saturatingAdd, saturatingAdd, Nat.add_sub_cancel]
  split <;> omega

theorem unended_sleptRound {stopped : Bool} :
    unended (sleptRound secs now stopped round) = unended round := by
  rw [sleptRound]
  show unended (if unended round then _ else round) = _
  split <;> rfl

theorem lastEvent_return {t : ℕ} {stopped : Bool} (ht : t + secs < 2 ^ 64)
    (hevent : round.lastEvent ≤ t) :
    (steppedBackRound secs t (sleptRound secs (t + secs) stopped round)).lastEvent =
      round.lastEvent := by
  rw [steppedBackRound, moveWaits_lastEvent, unended_sleptRound]
  by_cases hunended : unended round
  · rw [if_pos hunended]
    show anchorBack secs t (sleptRound secs (t + secs) stopped round).lastEvent = _
    rw [sleptRound, moveWaits_lastEvent, if_pos hunended]
    show anchorBack secs t (asleepAnchor secs (t + secs) round.lastEvent) = _
    rw [anchorBack, asleepAnchor_eq ht]
    omega
  · rw [if_neg hunended, sleptRound, moveWaits_lastEvent, if_neg hunended]

theorem waits_return_iff {t : ℕ} {stopped : Bool} (ht : t + secs < 2 ^ 64) :
    waits (steppedBackRound secs t (sleptRound secs (t + secs) stopped round)) = waits round ↔
      ∀ d ∈ waits round, t < d → d + secs < 2 ^ 64 := by
  rw [waits_steppedBackRound, waits_sleptRound, List.map_map]
  have hmap : (waits round).map (back secs t ∘ later secs (t + secs)) = waits round ↔
      ∀ d ∈ waits round, back secs t (later secs (t + secs) d) = d := by
    conv_lhs => rw [← List.map_id (waits round), List.map_map]
    exact List.map_inj_left
  rw [hmap]
  exact forall₂_congr fun d _ => back_later_iff ht

/-! ## The rounds of a run -/

/-- A round of the run, by its places, with its task. -/
def roundAt (run : Run) (i r : ℕ) : Option (Task × AgentRound) :=
  (run.tasks[i]?).bind fun task => (task.rounds[r]?).map fun round => (task, round)

/-- A round keeps its lane, and every clock moves alike. -/
theorem roundClock_mapLanes {f : Lane → Lane} {g : TaskClock → TaskClock} {rounds : List AgentRound}
    {round' : AgentRound} (hlane : ∀ l, (f l).lane = l.lane) (hclock : ∀ l, (f l).clock = g l.clock)
    (hround : round'.lane = round.lane) :
    roundClock (mapLanes f { task with rounds := rounds, clock := g task.clock }) round' =
      g (roundClock task round) := by
  have hview : viewLane (mapLanes f { task with rounds := rounds, clock := g task.clock })
      round'.lane = viewLane task round.lane := by
    rw [hround]
    unfold viewLane mapLanes
    cases round.lane with
    | none => rfl
    | some lane =>
      cases task.race with
      | none => rfl
      | some race => simp [List.any_map, Function.comp_def, hlane]
  unfold roundClock
  rw [hview]
  cases viewLane task round.lane with
  | none => rfl
  | some lane =>
    cases hrace : task.race with
    | none => simp [mapLanes]
    | some race =>
      simp only [mapLanes, Option.map_some, List.find?_map, Function.comp_def, hlane]
      cases race.lanes.find? (·.lane = lane) with
      | none => rfl
      | some l => exact hclock l

theorem roundAt_slept (h : roundAt run i r = some (task, round)) :
    roundAt (slept run secs now) i r = some (sleptTask secs now task,
      sleptRound secs now (roundClock task round).stopped.isSome round) := by
  obtain ⟨task₀, htask, hround⟩ := Option.bind_eq_some_iff.1 h
  obtain ⟨round₀, hround, heq⟩ := Option.map_eq_some_iff.1 hround
  cases heq
  simp [roundAt, slept, sleptTask, mapLanes, htask, hround]

theorem roundAt_steppedBack (h : roundAt run i r = some (task, round)) :
    roundAt (steppedBack run secs now) i r =
      some (steppedBackTask secs now task, steppedBackRound secs now round) := by
  obtain ⟨task₀, htask, hround⟩ := Option.bind_eq_some_iff.1 h
  obtain ⟨round₀, hround, heq⟩ := Option.map_eq_some_iff.1 hround
  cases heq
  simp [roundAt, steppedBack, steppedBackTask, mapLanes, htask, hround]

theorem sleptRound_lane {stopped : Bool} : (sleptRound secs now stopped round).lane = round.lane := by
  unfold sleptRound moveWaits
  dsimp only
  split <;> rfl

theorem steppedBackRound_lane : (steppedBackRound secs now round).lane = round.lane := by
  unfold steppedBackRound moveWaits
  dsimp only
  split <;> rfl

/-- A sleep moves no clock. -/
theorem roundClock_slept {stopped : Bool} :
    roundClock (sleptTask secs now task) (sleptRound secs now stopped round) =
      roundClock task round :=
  roundClock_mapLanes (g := fun clock => clock) (fun _ => rfl) (fun _ => rfl) sleptRound_lane

theorem roundClock_steppedBack :
    roundClock (steppedBackTask secs now task) (steppedBackRound secs now round) =
      clockBack secs now (roundClock task round) :=
  roundClock_mapLanes (fun _ => rfl) (fun _ => rfl) steppedBackRound_lane

/-- Exactly when a sleep, a correction, and a forward step with its correction, leave a round
    of a run what it had left of its deadlines. -/
theorem clock_steps (h : roundAt run i r = some (task, round)) :
    (∀ stallAfter secs now, unended round → secs ≤ now → now < 2 ^ 64 →
      ∃ task' round', roundAt (slept run secs now) i r = some (task', round') ∧
        (SleepKeeps stallAfter secs now (roundClock task round).stopped
            (roundClock task' round').stopped round round' ↔
          SleepFits stallAfter secs now (roundClock task round).stopped round)) ∧
    (∀ stallAfter secs now, unended round → round.lastEvent < 2 ^ 64 →
      ∃ task' round', roundAt (steppedBack run secs now) i r = some (task', round') ∧
        (StepKeeps stallAfter secs now (roundClock task round).stopped
            (roundClock task' round').stopped round round' ↔ StepFits secs now round)) ∧
    ∀ secs t, t + secs < 2 ^ 64 →
      ∃ task' round', roundAt (steppedBack (slept run secs (t + secs)) secs t) i r =
          some (task', round') ∧
        ((waits round' = waits round ∧
            (round.lastEvent ≤ t → round'.lastEvent = round.lastEvent)) ↔
          ∀ d ∈ waits round, t < d → d + secs < 2 ^ 64) := by
  refine ⟨fun stallAfter secs now hunended hsecs hnow => ?_,
    fun stallAfter secs now hunended hevent => ?_, fun secs t ht => ?_⟩
  · refine ⟨_, _, roundAt_slept h, ?_⟩
    rw [roundClock_slept]
    exact sleepKeeps_iff hunended hsecs hnow
  · refine ⟨_, _, roundAt_steppedBack h, ?_⟩
    rw [roundClock_steppedBack]
    exact stepKeeps_iff hunended hevent
  · refine ⟨_, _, roundAt_steppedBack (roundAt_slept h), ?_⟩
    rw [waits_return_iff ht]
    exact and_iff_left (lastEvent_return ht)

/-- A turn that is silent since its rate limit ended at 100; its task works. -/
def limitedRun : Run where
  id := "r"
  state := .running
  limits := { maxTasks := 1, models := { rows := fun _ => ⟨⟨.claude, none⟩, none, none⟩ } }
  tasks := [
    { spec := { id := "t", owns := ["src/**"] }
      route := ⟨.claude, "", ""⟩
      state := .working
      rounds := [
        { role := .worker
          route := ⟨.claude, "", ""⟩
          windowId := some 1
          turnOpen := true
          lastEvent := 10
          rateLimitedUntil := some 100 }] }]

/-- A minute's sleep at 80, before the rate limit ends, leaves the turn its silence. -/
theorem clock_steps_limited : ∃ task round task' round',
    roundAt limitedRun 0 0 = some (task, round) ∧
    roundAt (slept limitedRun 60 140) 0 0 = some (task', round') ∧
    SleepKeeps 300 60 140 (roundClock task round).stopped (roundClock task' round').stopped round
      round' := by
  obtain ⟨task', round', hslept, hiff⟩ :=
    (@clock_steps limitedRun _ _ 0 0 rfl).1 300 60 140 (by decide) (by decide) (by decide)
  refine ⟨_, _, task', round', rfl, hslept, hiff.2 ⟨?_, fun _ _ => .inr ⟨100, rfl, ?_⟩, ?_⟩⟩
  · decide
  · decide
  · intro since hsince
    cases hsince

/-- A sleep of 1000 seconds at 150: 250 seconds of silence were left, and 161 are. -/
theorem slept_stalls_early : ∃ task round task' round',
    roundAt limitedRun 0 0 = some (task, round) ∧ unended round ∧ round.turnOpen ∧
    roundAt (slept limitedRun 1000 1150) 0 0 = some (task', round') ∧
    stallDue round 300 = 400 ∧ stallDue round' 300 = 1311 ∧
    ¬SleepKeeps 300 1000 1150 (roundClock task round).stopped (roundClock task' round').stopped
      round round' := by
  refine ⟨_, _, _, _, rfl, by decide, by decide, rfl, by decide, by decide, fun h => ?_⟩
  have hstall := h.stall (by decide) (by decide)
  revert hstall
  decide

end Anthrex.Engine
