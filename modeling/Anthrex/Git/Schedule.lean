import Mathlib.Data.List.ReduceOption
import Mathlib.Data.List.TakeWhile
import Mathlib.Order.Lattice
import Mathlib.Tactic.SplitIfs

/-!
# When a root is probed and what is published

The two state machines of a git root (`git/schedule.rs`). The `Scheduler` decides when to run
`git status`: a while after the last accepted event of the watcher, at least once in a poll
interval, one probe at a time; a storm of events trips a breaker, and for a while only the poll
is left. The `Publisher` decides whether what a probe read is worth telling the clients.

Both are functions of the times and the results they are given. Instants and durations are whole
nanoseconds; the difference of two instants stops at zero.
-/

namespace Anthrex.Git

inductive Head
  | branch (name : String)
  | detached (oid : String)
  | unborn (name : String)
  deriving DecidableEq, Repr

inductive GitOperation
  | merge
  | rebase
  | cherryPick
  | revert
  | bisect
  deriving DecidableEq, Repr

/-- What `git status` says of a working tree. -/
structure GitState where
  head : Head
  upstream : Option String
  ahead : ℕ
  behind : ℕ
  dirty : ℕ
  untracked : ℕ
  conflicts : ℕ
  operation : Option GitOperation
  /-- Not what the last probe read, but what the last probe that succeeded did. -/
  stale : Bool
  deriving DecidableEq, Repr

abbrev Instant := ℕ

abbrev Duration := ℕ

def secs (n : ℕ) : Duration := n * 1000000000

/-- The window the breaker counts the events of. -/
def breakerWindow : Duration := secs 10

/-- More events than these in the window trip the breaker. -/
def breakerEvents : ℕ := 200

/-- How long the breaker stays open. -/
def breakerCooldown : Duration := secs 60

/-! ## The scheduler -/

/-- What is to be done now. -/
structure Plan where
  /-- Start a probe. -/
  probe : Bool
  /-- When to ask again. -/
  wakeAt : Instant
  deriving DecidableEq, Repr

structure Scheduler where
  nextPoll : Instant
  /-- When a probe is due for the events so far. -/
  debounce : Option Instant := none
  /-- The accepted events in the breaker's window, oldest first. -/
  events : List Instant := []
  /-- Until when the breaker is open. -/
  breakerUntil : Option Instant := none
  /-- A probe runs. -/
  inFlight : Bool := false
  /-- A further probe is due as soon as none runs. -/
  pending : Bool := false
  pollInterval : Duration
  debounceInterval : Duration
  deriving DecidableEq, Repr

/-- The event is too old to count. -/
def expired (now at_ : Instant) : Bool := breakerWindow ≤ now - at_

namespace Scheduler

def new (now : Instant) (pollInterval debounceInterval : Duration) : Scheduler :=
  { nextPoll := now, pollInterval, debounceInterval }

/-- Closes the breaker when its time is over, and drops the events that left the window. -/
def refresh (s : Scheduler) (now : Instant) : Scheduler :=
  { s with
    breakerUntil := s.breakerUntil.filter (now < ·)
    events := s.events.dropWhile (expired now) }

/-- Takes an accepted event, and says whether it tripped the breaker. -/
def recordEvent (s : Scheduler) (now : Instant) : Scheduler × Bool :=
  let s := s.refresh now
  if s.breakerUntil.isSome then (s, false)
  else
    let events := s.events ++ [now]
    if breakerEvents < events.length then
      ({ s with events := [], debounce := none, breakerUntil := some (now + breakerCooldown) }, true)
    else ({ s with events, debounce := some (now + s.debounceInterval) }, false)

/-- The poll, the events so far or a request ask for a probe. -/
def due (s : Scheduler) (now : Instant) : Bool :=
  s.nextPoll ≤ now || s.debounce.any (· ≤ now) || s.pending

def plan (s : Scheduler) (now : Instant) : Scheduler × Plan :=
  let s := s.refresh now
  let pollDue : Bool := s.nextPoll ≤ now
  let probe := s.due now && !s.inFlight
  let s' := { s with
    debounce := s.debounce.filter (now < ·)
    pending := if s.due now then s.inFlight else s.pending
    inFlight := s.inFlight || s.due now
    nextPoll := if pollDue || probe then now + s.pollInterval else s.nextPoll }
  (s', ⟨probe, match s'.debounce with
    | some d => if d < s'.nextPoll then d else s'.nextPoll
    | none => s'.nextPoll⟩)

/-- Asks for a probe as soon as none runs. -/
def requestProbe (s : Scheduler) : Scheduler := { s with pending := true }

def probeFinished (s : Scheduler) : Scheduler := { s with inFlight := false }

variable {s : Scheduler} {now d : Instant}

/-! ## What the scheduler does -/

/-- The events that left the window are a first part of them. -/
theorem refresh_events (s : Scheduler) (now : Instant) :
    ∃ old, s.events = old ++ (s.refresh now).events ∧ ∀ a ∈ old, expired now a = true :=
  ⟨s.events.takeWhile (expired now), List.takeWhile_append_dropWhile.symm, fun _ =>
    List.mem_takeWhile_imp⟩

/-- An event does one of three things: while the breaker is open, nothing; one too many trips it;
    any other is counted, and puts the probe off. -/
theorem recordEvent_cases (s : Scheduler) (now : Instant) :
    ((s.refresh now).breakerUntil.isSome ∧ s.recordEvent now = (s.refresh now, false)) ∨
      ((s.refresh now).breakerUntil = none ∧ breakerEvents < (s.refresh now).events.length + 1 ∧
        s.recordEvent now = ({ s.refresh now with
          events := [], debounce := none, breakerUntil := some (now + breakerCooldown) }, true)) ∨
      ((s.refresh now).breakerUntil = none ∧ (s.refresh now).events.length + 1 ≤ breakerEvents ∧
        s.recordEvent now = ({ s.refresh now with
          events := (s.refresh now).events ++ [now]
          debounce := some (now + s.debounceInterval) }, false)) := by
  simp only [recordEvent, List.length_append, List.length_singleton]
  split_ifs with hopen hmany
  · exact .inl ⟨hopen, rfl⟩
  · exact .inr (.inl ⟨Option.not_isSome_iff_eq_none.1 hopen, hmany, rfl⟩)
  · exact .inr (.inr ⟨Option.not_isSome_iff_eq_none.1 hopen, not_lt.1 hmany, rfl⟩)

/-- A plan starts a probe when one is due and none runs. -/
theorem plan_probe : (s.plan now).2.probe = (s.due now && !s.inFlight) := rfl

theorem plan_inFlight : (s.plan now).1.inFlight = (s.inFlight || s.due now) := rfl

theorem plan_pending : (s.plan now).1.pending = (s.due now && s.inFlight) := by
  show (if s.due now then s.inFlight else s.pending) = _
  cases hdue : s.due now with
  | true => rfl
  | false => exact (Bool.or_eq_false_iff.1 hdue).2

theorem plan_debounce : (s.plan now).1.debounce = s.debounce.filter (now < ·) := rfl

/-- A poll that comes due, and a probe that starts, put the next poll off. -/
theorem plan_nextPoll : (s.plan now).1.nextPoll =
    if s.nextPoll ≤ now ∨ (s.plan now).2.probe then now + s.pollInterval else s.nextPoll := by
  show (if (decide (s.nextPoll ≤ now) || (s.plan now).2.probe) = true then _ else _) = _
  simp only [Bool.or_eq_true, decide_eq_true_eq]
  rfl

theorem lt_nextPoll_plan (hpoll : 0 < s.pollInterval) : now < (s.plan now).1.nextPoll := by
  rw [plan_nextPoll]
  split_ifs with h
  · exact Nat.lt_add_of_pos_right hpoll
  · exact lt_of_not_ge fun hle => h (.inl hle)

/-- The time to ask again is the earlier of the next poll and what the events wait for. -/
theorem wakeAt_plan : (s.plan now).2.wakeAt =
    ((s.plan now).1.debounce.map (min · (s.plan now).1.nextPoll)).getD (s.plan now).1.nextPoll := by
  show (match (s.plan now).1.debounce with | some d => _ | none => _) = _
  cases (s.plan now).1.debounce with
  | none => rfl
  | some d => exact (min_def_lt d _).symm

/-- It is ahead: who sleeps until then does not spin. -/
theorem lt_wakeAt_plan (hpoll : 0 < s.pollInterval) : now < (s.plan now).2.wakeAt := by
  rw [wakeAt_plan]
  cases hd : (s.plan now).1.debounce with
  | none => exact lt_nextPoll_plan hpoll
  | some d =>
    have hlater : now < d := by
      rw [plan_debounce] at hd
      simpa using (Option.filter_eq_some_iff.1 hd).2
    exact lt_min hlater (lt_nextPoll_plan hpoll)

theorem wakeAt_plan_le : (s.plan now).2.wakeAt ≤ (s.plan now).1.nextPoll := by
  rw [wakeAt_plan]
  cases (s.plan now).1.debounce with
  | none => exact le_rfl
  | some d => exact min_le_right d _

theorem wakeAt_plan_le_debounce (hd : (s.plan now).1.debounce = some d) :
    (s.plan now).2.wakeAt ≤ d := by
  rw [wakeAt_plan, hd]
  exact min_le_left d _

/-- Asked before the time it gave, with nothing in between, a scheduler starts no probe and gives
    the same time. -/
theorem plan_plan {later : Instant} (hlt : later < (s.plan now).2.wakeAt) :
    ((s.plan now).1.plan later).2 = ⟨false, (s.plan now).2.wakeAt⟩ := by
  have hpoll : later < (s.plan now).1.nextPoll := lt_of_lt_of_le hlt wakeAt_plan_le
  have hdebounce : ∀ d, (s.plan now).1.debounce = some d → later < d := fun d hd =>
    lt_of_lt_of_le hlt (wakeAt_plan_le_debounce hd)
  -- Only what waits for the running probe can be due.
  have hidle : ((s.plan now).1.plan later).2.probe = false := by
    have hkept : (s.plan now).1.debounce.any (· ≤ later) = false := by
      cases hd : (s.plan now).1.debounce with
      | none => rfl
      | some d => simpa using hdebounce d hd
    rw [plan_probe, due, plan_pending, plan_inFlight, hkept, decide_eq_false hpoll.not_ge]
    cases s.inFlight <;> simp
  have hnext : ((s.plan now).1.plan later).1.nextPoll = (s.plan now).1.nextPoll := by
    rw [plan_nextPoll, hidle, if_neg (by simpa using hpoll)]
  have hsame : ((s.plan now).1.plan later).1.debounce = (s.plan now).1.debounce := by
    rw [plan_debounce]
    cases hd : (s.plan now).1.debounce with
    | none => rfl
    | some d => simpa using hdebounce d hd
  calc ((s.plan now).1.plan later).2
      = ⟨((s.plan now).1.plan later).2.probe, ((s.plan now).1.plan later).2.wakeAt⟩ := rfl
    _ = ⟨false, (s.plan now).2.wakeAt⟩ := by rw [hidle, wakeAt_plan, hnext, hsame, ← wakeAt_plan]

end Scheduler

/-! ## The publisher -/

structure Publisher where
  /-- What the last probe that succeeded read. -/
  lastGood : Option GitState := none
  /-- What was last published, when anything was. -/
  lastPublished : Option (Option GitState) := none
  deriving DecidableEq, Repr

namespace Publisher

/-- What a probe's result means to a client: a failed one, the last state as a stale one. -/
def candidate (p : Publisher) : Option GitState → Option GitState
  | some state => some state
  | none => p.lastGood.map fun good => { good with stale := true }

/-- What to publish for a probe's result, if anything. -/
def decide (p : Publisher) (result : Option GitState) : Publisher × Option (Option GitState) :=
  let lastGood := result.or p.lastGood
  let candidate := p.candidate result
  if p.lastPublished = some candidate then ({ p with lastGood }, none)
  else (⟨lastGood, some candidate⟩, some candidate)

end Publisher

end Anthrex.Git
