import Anthrex.Data.Lists
import Anthrex.Data.Sorting
import Anthrex.Git.Schedule
import Mathlib.Data.List.Infix

/-!
# A root's task

The loop that watches one working tree (`git/mod.rs`): it plans, starts the probe it planned, and
waits for the probe, the watcher, an event or the time of the plan, whichever comes first.

* `root_fresh`: every probe is started once and ends before the next, and whenever none runs, the
  last one began less than a poll interval ago, and since the events that wait for one less than
  the debounce has passed;
* `clients_told`: what was published are the states that the probes' results stand for, each once,
  and in a tree that stays as it is for a poll interval it is the tree's own state;
* `breaker_trips`: an event trips the breaker when it is the first too many in the window, and not
  in the time after another trip.
-/

namespace Anthrex.Git

open List Lists

/-! ## The loop -/

/-- Why the task woke up. -/
inductive Wake
  /-- The probe ended: what it read, when it could. -/
  | probe (result : Option GitState)
  /-- The watcher was built, or could not be. -/
  | armed (built : Bool)
  /-- An event, with those queued behind it. -/
  | events (queued : ℕ)
  | deadline

structure Root where
  scheduler : Scheduler
  publisher : Publisher := {}
  /-- The probe that runs, by the time it started. -/
  inFlight : Option Instant := none
  arming : Bool := true
  /-- What was published, in order. -/
  published : List (Option GitState) := []
  /-- The time of the last plan, and when it said to plan again. -/
  now : Instant
  wakeAt : Instant

/-- Records an event and those behind it, all at one time. -/
def recordEvents (now : Instant) : ℕ → Scheduler → Scheduler
  | 0, s => s
  | n + 1, s => recordEvents now n (s.recordEvent now).1

namespace Root

/-- A root just registered. -/
def new (began : Instant) (poll debounce : Duration) : Root :=
  { scheduler := .new began poll debounce, now := began, wakeAt := began }

/-- The top of the loop: plans, and starts the probe the plan asks for. -/
def plan (r : Root) (now : Instant) : Root :=
  let (scheduler, plan) := r.scheduler.plan now
  { r with
    scheduler, now
    inFlight := if plan.probe then some now else r.inFlight
    wakeAt := plan.wakeAt }

/-- What the task does about what woke it. -/
def woken (r : Root) (now : Instant) : Wake → Root
  | .probe result =>
    let (publisher, publication) := r.publisher.decide result
    { r with
      scheduler := r.scheduler.probeFinished
      publisher
      inFlight := none
      published := r.published ++ publication.toList }
  | .armed built =>
    { r with
      scheduler := if built then r.scheduler.requestProbe else r.scheduler
      arming := false }
  | .events queued => { r with scheduler := recordEvents now (queued + 1) r.scheduler }
  | .deadline => r

/-- What can wake the task: the probe that runs, with what the tree was at some time since it
    started, unless it failed; the watcher that is being built; an event at any time; and the time
    of the plan once it has come. -/
def Wakes (tree : Instant → Option GitState) (r : Root) (now : Instant) : Wake → Prop
  | .probe result => ∃ start, r.inFlight = some start ∧
      ∀ state, result = some state → ∃ t, start ≤ t ∧ t ≤ now ∧ tree t = some state
  | .armed _ => r.arming
  | .events _ => True
  | .deadline => r.wakeAt ≤ now

end Root

/-! ## What happened -/

/-- What the loop did and was told, which it does not keep itself. -/
structure History where
  /-- When the probes started. -/
  started : List Instant := []
  /-- When the probes that ended started, and their results. -/
  probes : List (Instant × Option GitState) := []
  /-- The last event since a probe started or the breaker tripped. -/
  change : Option Instant := none
  /-- When the breaker last tripped. -/
  tripped : Option Instant := none
  /-- The events counted since. -/
  counted : List Instant := []

namespace History

def plan (h : History) (s : Scheduler) (now : Instant) : History :=
  if (s.plan now).2.probe then { h with started := h.started ++ [now], change := none } else h

/-- An event of a scheduler, unless its breaker is open. -/
def event (h : History) (s : Scheduler) (now : Instant) : History :=
  if (s.refresh now).breakerUntil.isSome then h
  else if (s.recordEvent now).2 then { h with change := none, tripped := some now, counted := [] }
  else { h with change := some now, counted := h.counted ++ [now] }

def events (now : Instant) : ℕ → Scheduler → History → History
  | 0, _, h => h
  | n + 1, s, h => events now n (s.recordEvent now).1 (h.event s now)

def woken (h : History) (r : Root) (now : Instant) : Wake → History
  | .probe result => { h with probes := h.probes ++ (r.inFlight.map (·, result)).toList }
  | .events queued => h.events now (queued + 1) r.scheduler
  | .armed _ | .deadline => h

end History

/-- A root that waits after a plan, with what happened to it. -/
inductive Reach (tree : Instant → Option GitState) (poll debounce : Duration) : Root → History → Prop
  | start {began now : Instant} (hbegan : began ≤ now) :
      Reach tree poll debounce ((Root.new began poll debounce).plan now)
        (History.plan {} (.new began poll debounce) now)
  | pass {r : Root} {h : History} {wake : Wake} {at_ now : Instant}
      (hreach : Reach tree poll debounce r h) (hat : r.now ≤ at_) (hwakes : r.Wakes tree at_ wake)
      (hnow : at_ ≤ now) :
      Reach tree poll debounce ((r.woken at_ wake).plan now)
        ((h.woken r at_ wake).plan (r.woken at_ wake).scheduler now)

variable {tree : Instant → Option GitState} {poll debounce : Duration} {r : Root} {s : Scheduler}
  {h : History} {clock now at_ : Instant} {wake : Wake}

/-! ## When probes run -/

/-- A scheduler whose probes so far are known: of those that started at most the last one runs, the
    next poll is a poll interval after the last start unless a further probe is due anyhow, and so
    is what the events wait for. -/
structure Timed (poll debounce : Duration) (s : Scheduler) (inFlight : Option Instant)
    (h : History) : Prop where
  pollInterval : s.pollInterval = poll
  debounceInterval : s.debounceInterval = debounce
  flight : s.inFlight = inFlight.isSome
  started : h.started = h.probes.map (·.1) ++ inFlight.toList
  polls : ∃ last, h.started.getLast? = some last ∧ (s.pending = false → s.nextPoll = last + poll)
  change : ∀ e, h.change = some e → s.pending = true ∨ s.debounce = some (e + debounce)

namespace Timed

variable {inFlight : Option Instant}

theorem plan (hs : Timed poll debounce s inFlight h) (now : Instant) :
    Timed poll debounce (s.plan now).1 (if (s.plan now).2.probe then some now else inFlight)
      (h.plan s now) := by
  obtain ⟨last, hlast, hpolls⟩ := hs.polls
  cases hprobe : (s.plan now).2.probe with
  | true =>
    -- A probe starts: none runs, and the poll is put off.
    rw [Scheduler.plan_probe, Bool.and_eq_true, Bool.not_eq_true'] at hprobe
    have hplan : h.plan s now = { h with started := h.started ++ [now], change := none } :=
      if_pos (by rw [Scheduler.plan_probe, hprobe.1, hprobe.2]; rfl)
    have hnone : inFlight = none := by simpa [hprobe.2] using hs.flight.symm
    rw [hplan]
    refine ⟨hs.pollInterval, hs.debounceInterval, ?_, ?_, ⟨now, ?_, fun _ => ?_⟩, ?_⟩
    · rw [Scheduler.plan_inFlight, hprobe.1, Bool.or_true]
      rfl
    · simp [hs.started, hnone]
    · exact getLast?_concat
    · rw [Scheduler.plan_nextPoll, Scheduler.plan_probe, hprobe.1, hprobe.2]
      simp [hs.pollInterval]
    · simp
  | false =>
    have hplan : h.plan s now = h := if_neg (by simp [hprobe])
    rw [hplan]
    rw [Scheduler.plan_probe] at hprobe
    refine ⟨hs.pollInterval, hs.debounceInterval, ?_, hs.started, ⟨last, hlast, ?_⟩, ?_⟩
    · rw [Scheduler.plan_inFlight]
      cases hflight : s.inFlight with
      | true => simpa [hflight] using hs.flight
      | false =>
        have hidle : s.due now = false := by simpa [hflight] using hprobe
        simpa [hflight, hidle] using hs.flight
    · intro hpending
      -- Nothing was due, as what is due while a probe runs is pending.
      have hidle : s.due now = false := by
        rw [Scheduler.plan_pending] at hpending
        cases hdue : s.due now with
        | false => rfl
        | true =>
          rw [hdue, Bool.true_and] at hprobe hpending
          simp [hpending] at hprobe
      simp only [Scheduler.due, Bool.or_eq_false_iff, decide_eq_false_iff_not] at hidle
      rw [Scheduler.plan_nextPoll, if_neg (by simp [hidle.1.1, Scheduler.plan_probe, hprobe])]
      exact hpolls hidle.2
    · intro e he
      rw [Scheduler.plan_pending, Scheduler.plan_debounce]
      cases hdue : s.due now with
      | true =>
        refine .inl ?_
        simpa [hdue] using hprobe
      | false =>
        simp only [Scheduler.due, Bool.or_eq_false_iff] at hdue
        rcases hs.change e he with hpending | hdebounce
        · simp [hpending] at hdue
        · refine .inr ?_
          rw [hdebounce] at hdue ⊢
          simpa using hdue.1.2

theorem event (hs : Timed poll debounce s inFlight h) (now : Instant) :
    Timed poll debounce (s.recordEvent now).1 inFlight (h.event s now) := by
  rcases s.recordEvent_cases now with ⟨hopen, heq⟩ | ⟨hclosed, -, heq⟩ | ⟨hclosed, -, heq⟩
  · rw [heq, History.event, if_pos hopen]
    exact ⟨hs.pollInterval, hs.debounceInterval, hs.flight, hs.started, hs.polls, hs.change⟩
  · rw [History.event, heq, if_neg (by simp [hclosed]), if_pos rfl]
    exact ⟨hs.pollInterval, hs.debounceInterval, hs.flight, hs.started, hs.polls, by simp⟩
  · rw [History.event, heq, if_neg (by simp [hclosed]), if_neg Bool.false_ne_true]
    refine ⟨hs.pollInterval, hs.debounceInterval, hs.flight, hs.started, hs.polls, ?_⟩
    rintro e ⟨⟩
    exact .inr (congrArg (fun d => some (now + d)) hs.debounceInterval)

theorem events (hs : Timed poll debounce s inFlight h) (now : Instant) (n : ℕ) :
    Timed poll debounce (recordEvents now n s) inFlight (h.events now n s) := by
  induction n generalizing s h with
  | zero => exact hs
  | succ n ih => exact ih (hs.event now)

theorem woken (hs : Timed poll debounce r.scheduler r.inFlight h) (hwakes : r.Wakes tree at_ wake) :
    Timed poll debounce (r.woken at_ wake).scheduler (r.woken at_ wake).inFlight
      (h.woken r at_ wake) := by
  cases wake with
  | probe result =>
    obtain ⟨start, hstart, -⟩ := hwakes
    refine ⟨hs.pollInterval, hs.debounceInterval, rfl, ?_, hs.polls, hs.change⟩
    simp [History.woken, Root.woken, hs.started, hstart]
  | armed built =>
    obtain ⟨last, hlast, hpolls⟩ := hs.polls
    cases built with
    | true =>
      exact ⟨hs.pollInterval, hs.debounceInterval, hs.flight, hs.started, ⟨last, hlast, by
        simp [Root.woken, Scheduler.requestProbe]⟩, fun _ _ => .inl rfl⟩
    | false => exact hs
  | events queued => exact hs.events at_ (queued + 1)
  | deadline => exact hs

end Timed

theorem Reach.timed (hreach : Reach tree poll debounce r h) :
    Timed poll debounce r.scheduler r.inFlight h := by
  induction hreach with
  | @start began now hbegan =>
    have hprobe : ((Scheduler.new began poll debounce).plan now).2.probe = true := by
      simp [Scheduler.plan_probe, Scheduler.due, Scheduler.new, hbegan]
    have hplan : History.plan {} (.new began poll debounce) now = { started := [now] } :=
      if_pos hprobe
    rw [hplan]
    refine ⟨rfl, rfl, ?_, ?_, ⟨now, rfl, fun _ => ?_⟩, by simp⟩
    · simp [Root.plan, Root.new, Scheduler.plan, Scheduler.due, Scheduler.new, hbegan,
        Scheduler.refresh]
    · simp [Root.plan, Root.new, hprobe]
    · show ((Scheduler.new began poll debounce).plan now).1.nextPoll = now + poll
      rw [Scheduler.plan_nextPoll, if_pos (.inr hprobe)]
      rfl
  | @pass r h wake at_ now _ _ hwakes _ ih => exact (ih.woken hwakes).plan now

/-- A root waits after a plan. -/
theorem Reach.waits (hreach : Reach tree poll debounce r h) : ∃ s : Scheduler,
    s.pollInterval = poll ∧ r.scheduler = (s.plan r.now).1 ∧ r.wakeAt = (s.plan r.now).2.wakeAt := by
  induction hreach with
  | start => exact ⟨_, rfl, rfl, rfl⟩
  | pass hreach _ hwakes => exact ⟨_, (hreach.timed.woken hwakes).pollInterval, rfl, rfl⟩

/-- While no probe runs, the time to plan again is not later than the next poll, nor than what the
    events wait for. -/
theorem Reach.idle (hreach : Reach tree poll debounce r h) (hidle : r.inFlight = none) :
    (∃ last, h.started.getLast? = some last ∧ r.wakeAt ≤ last + poll) ∧
      ∀ e, h.change = some e → r.wakeAt ≤ e + debounce := by
  have hs := hreach.timed
  obtain ⟨last, hlast, hpolls⟩ := hs.polls
  obtain ⟨s, -, hscheduler, hwakeAt⟩ := hreach.waits
  have hpending : r.scheduler.pending = false := by
    have hflight : r.scheduler.inFlight = false := by rw [hs.flight, hidle]; rfl
    rw [hscheduler, Scheduler.plan_inFlight] at hflight
    rw [hscheduler, Scheduler.plan_pending]
    simp [(Bool.or_eq_false_iff.1 hflight).2]
  refine ⟨⟨last, hlast, ?_⟩, fun e he => ?_⟩
  · rw [hwakeAt, ← hpolls hpending, hscheduler]
    exact Scheduler.wakeAt_plan_le
  · rcases hs.change e he with hdue | hdebounce
    · simp [hdue] at hpending
    · rw [hwakeAt]
      exact Scheduler.wakeAt_plan_le_debounce (hscheduler ▸ hdebounce)

/-- Every probe that starts ends, or is the one that runs, and no second one starts beside it. The
    time to plan again is ahead; and while no probe runs, until then the last one began less than a
    poll interval ago, and an event that no probe began after is not older than the debounce, unless
    the breaker tripped at it or was open. -/
theorem root_fresh (hpoll : 0 < poll) (hreach : Reach tree poll debounce r h) :
    h.started = h.probes.map (·.1) ++ r.inFlight.toList ∧ r.now < r.wakeAt ∧
      (r.inFlight = none → (∃ last, h.started.getLast? = some last ∧ r.wakeAt ≤ last + poll) ∧
        ∀ e, h.change = some e → r.wakeAt ≤ e + debounce) := by
  obtain ⟨s, hinterval, -, hwakeAt⟩ := hreach.waits
  exact ⟨hreach.timed.started, hwakeAt ▸ Scheduler.lt_wakeAt_plan (hinterval ▸ hpoll), hreach.idle⟩

/-- A clean working tree. -/
def cleanTree : GitState := ⟨.branch "main", none, 0, 0, 0, 0, 0, none, false⟩

/-- A root whose first probe began at once and ended two nanoseconds later. -/
def probedRoot : Root :=
  (((Root.new 0 5 1).plan 0).woken 2 (.probe (some cleanTree))).plan 2

def probedHistory : History := { started := [0], probes := [(0, some cleanTree)] }

theorem reach_probedRoot : Reach (fun _ => some cleanTree) 5 1 probedRoot probedHistory :=
  .pass (.start le_rfl) (Nat.zero_le 2) ⟨0, rfl, fun _ h => ⟨0, le_rfl, Nat.zero_le 2, h⟩⟩ le_rfl

theorem root_fresh_probedRoot : probedRoot.now < probedRoot.wakeAt ∧ probedRoot.wakeAt ≤ 0 + 5 := by
  obtain ⟨-, hahead, hidle⟩ := root_fresh (by decide) reach_probedRoot
  obtain ⟨⟨last, hlast, hle⟩, -⟩ := hidle rfl
  cases hlast
  exact ⟨hahead, hle⟩

/-! ## What is published -/

/-- What the results so far mean to a client: the last state that was read, a stale one if the last
    probe failed. -/
def view (results : List (Option GitState)) : Option GitState :=
  match results.getLast?.join with
  | some state => some state
  | none => results.reduceOption.getLast?.map fun good => { good with stale := true }

/-- What each result meant when it came. -/
def views (results : List (Option GitState)) : List (Option GitState) :=
  (results.inits.map view).tail

theorem views_concat (results : List (Option GitState)) (result : Option GitState) :
    views (results ++ [result]) = views results ++ [view (results ++ [result])] := by
  have hinits : (results ++ [result]).inits = results.inits ++ [results ++ [result]] := by
    simp [inits_append]
  have hsome : results.inits.map view ≠ [] := by
    simpa using fun hnil => absurd (congrArg length hnil) (by simp)
  rw [views, views, hinits, map_append, tail_append_of_ne_nil hsome]
  rfl

/-- A publisher after the results `results`. -/
structure Told (results : List (Option GitState)) (p : Publisher)
    (published : List (Option GitState)) : Prop where
  lastGood : p.lastGood = results.reduceOption.getLast?
  lastPublished : p.lastPublished = (views results).getLast?
  published : published = (views results).destutter (· ≠ ·)

theorem Told.decide {results published : List (Option GitState)} {p : Publisher}
    (ht : Told results p published) (result : Option GitState) :
    Told (results ++ [result]) (p.decide result).1
      (published ++ (p.decide result).2.toList) := by
  have hgood : result.or p.lastGood = (results ++ [result]).reduceOption.getLast? := by
    rw [ht.lastGood, reduceOption_append, getLast?_append]
    cases result <;> simp [reduceOption]
  have hcandidate : p.candidate result = view (results ++ [result]) := by
    cases result with
    | none => simp [Publisher.candidate, view, ht.lastGood, reduceOption_append]
    | some state => simp [Publisher.candidate, view]
  rw [Publisher.decide, hcandidate, ht.lastPublished]
  split_ifs with hsame
  · refine ⟨hgood, ?_, ?_⟩
    · rw [views_concat, getLast?_concat]
      exact hsame
    · rw [views_concat, destutter_concat, if_pos hsame, ht.published]
      rfl
  · refine ⟨hgood, ?_, ?_⟩
    · rw [views_concat, getLast?_concat]
    · rw [views_concat, destutter_concat, if_neg hsame, ht.published]
      rfl

theorem History.probes_events (h : History) (s : Scheduler) (now : Instant) (n : ℕ) :
    (h.events now n s).probes = h.probes := by
  induction n generalizing s h with
  | zero => rfl
  | succ n ih =>
    refine (ih _ _).trans ?_
    rw [History.event]
    split_ifs <;> rfl

theorem History.probes_plan (h : History) (s : Scheduler) (now : Instant) :
    (h.plan s now).probes = h.probes := by
  rw [History.plan]
  split_ifs <;> rfl

theorem Reach.told (hreach : Reach tree poll debounce r h) :
    Told (h.probes.map (·.2)) r.publisher r.published := by
  induction hreach with
  | start =>
    rw [History.probes_plan]
    exact ⟨rfl, rfl, rfl⟩
  | @pass r h wake at_ now _ _ hwakes _ ih =>
    rw [History.probes_plan]
    cases wake with
    | probe result =>
      obtain ⟨start, hstart, -⟩ := hwakes
      have hprobes : (h.woken r at_ (.probe result)).probes.map (·.2) =
          h.probes.map (·.2) ++ [result] := by
        simp [History.woken, hstart]
      rw [hprobes]
      exact ih.decide result
    | armed | deadline => exact ih
    | events queued =>
      rw [History.woken, History.probes_events]
      exact ih

/-- What a probe read, the tree was at some time since the probe started. -/
theorem Reach.honest (hreach : Reach tree poll debounce r h) {start : Instant} {state : GitState}
    (hmem : (start, some state) ∈ h.probes) :
    ∃ t, start ≤ t ∧ t ≤ r.now ∧ tree t = some state := by
  induction hreach with
  | start => simp [History.probes_plan] at hmem
  | @pass r h wake at_ now _ hat hwakes hnow ih =>
    have hold : (start, some state) ∈ h.probes → ∃ t, start ≤ t ∧ t ≤ now ∧ tree t = some state := by
      intro hmem
      obtain ⟨t, hstart, hle, htree⟩ := ih hmem
      exact ⟨t, hstart, hle.trans (hat.trans hnow), htree⟩
    rw [History.probes_plan] at hmem
    cases wake with
    | probe result =>
      obtain ⟨began, hbegan, hread⟩ := hwakes
      simp only [History.woken, hbegan, Option.map_some, Option.toList_some, mem_append,
        mem_singleton, Prod.mk.injEq] at hmem
      rcases hmem with hmem | ⟨rfl, hresult⟩
      · exact hold hmem
      · obtain ⟨t, hstart, hle, htree⟩ := hread state hresult.symm
        exact ⟨t, hstart, hle.trans hnow, htree⟩
    | armed | deadline => exact hold hmem
    | events queued => exact hold (by simpa [History.woken, History.probes_events] using hmem)

/-- Clients are told what each probe's result means, and nothing twice in a row. While no probe runs
    and the last one succeeded, what they were told last is what the tree is, if it has been so for
    a poll interval. -/
theorem clients_told (hreach : Reach tree poll debounce r h) :
    r.published = (views (h.probes.map (·.2))).destutter (· ≠ ·) ∧
      ∀ t start state, r.inFlight = none → h.probes.getLast? = some (start, some state) →
        r.now ≤ t → t < r.wakeAt → (∀ t', t < t' + poll → t' ≤ t → tree t' = tree t) →
        r.published.getLast? = some (tree t) := by
  refine ⟨hreach.told.published, fun t start state hidle hlast hnow hwake hsame => ?_⟩
  obtain ⟨t', hstart, hle, htree⟩ := hreach.honest (mem_of_getLast? hlast)
  have hbegan : r.wakeAt ≤ start + poll := by
    obtain ⟨⟨last, hgot, hle⟩, -⟩ := hreach.idle hidle
    rw [hreach.timed.started, hidle, Option.toList_none, append_nil, getLast?_map, hlast] at hgot
    have hstart : start = last := Option.some.inj hgot
    rwa [hstart]
  -- The tree has not changed since the probe read it.
  have hread : tree t' = tree t := hsame t'
    (hwake.trans_le (hbegan.trans (Nat.add_le_add_right hstart poll))) (hle.trans hnow)
  have hview : view (h.probes.map (·.2)) = some state := by
    simp [view, getLast?_map, hlast]
  have hviews : (views (h.probes.map (·.2))).getLast? = some (view (h.probes.map (·.2))) := by
    obtain ⟨done, hdone⟩ := getLast?_eq_some_iff.1 hlast
    rw [hdone, map_append, map_singleton, views_concat, getLast?_concat]
  rw [hreach.told.published, getLast?_destutter, hviews, hview, ← htree, hread]

theorem clients_told_probedRoot : probedRoot.published.getLast? = some (some cleanTree) :=
  (clients_told reach_probedRoot).2 3 0 cleanTree rfl rfl (by decide) (by decide) fun _ _ _ => rfl

/-! ## What trips the breaker -/

theorem expired_mono {a b : Instant} (hab : a ≤ b) (hb : expired now b = true) :
    expired now a = true := by
  rw [expired, decide_eq_true_eq] at hb ⊢
  exact hb.trans (Nat.sub_le_sub_left hab now)

theorem expired_later {later a : Instant} (hle : now ≤ later) (ha : expired now a = true) :
    expired later a = true := by
  rw [expired, decide_eq_true_eq] at ha ⊢
  exact ha.trans (Nat.sub_le_sub_right hle a)

/-- A scheduler and the events it counted until `clock`: the ones it still has are those that have
    not left the window, never too many, and its breaker is open for a while after it tripped. -/
structure Counted (s : Scheduler) (h : History) (clock : Instant) : Prop where
  sorted : h.counted.Pairwise (· ≤ ·)
  past : ∀ a ∈ h.counted, a ≤ clock
  window : ∃ old, h.counted = old ++ s.events ∧ ∀ a ∈ old, expired clock a = true
  bounded : s.events.length ≤ breakerEvents
  tripped : ∀ u, h.tripped = some u → s.breakerUntil = some (u + breakerCooldown) ∨
    u + breakerCooldown ≤ clock
  opened : ∀ b, s.breakerUntil = some b → ∃ u, h.tripped = some u ∧ b = u + breakerCooldown

namespace Counted

theorem refresh (hs : Counted s h clock) (hle : clock ≤ now) : Counted (s.refresh now) h now := by
  obtain ⟨old, hcounted, hold⟩ := hs.window
  obtain ⟨gone, hevents, hgone⟩ := s.refresh_events now
  refine ⟨hs.sorted, fun a ha => (hs.past a ha).trans hle, ⟨old ++ gone, ?_, ?_⟩, ?_, ?_, ?_⟩
  · rw [hcounted, hevents, append_assoc]
  · intro a ha
    rcases mem_append.1 ha with ha | ha
    · exact expired_later hle (hold a ha)
    · exact hgone a ha
  · exact (length_dropWhile_le _ _).trans hs.bounded
  · intro u hu
    rcases hs.tripped u hu with hopen | hover
    · by_cases hnow : now < u + breakerCooldown
      · exact .inl (by simp [Scheduler.refresh, hopen, hnow])
      · exact .inr (Nat.le_of_not_lt hnow)
    · exact .inr (hover.trans hle)
  · intro b hb
    exact hs.opened b (Option.filter_eq_some_iff.1 hb).1

/-- The events of a refreshed scheduler are those of the window. -/
theorem events_refresh (hs : Counted s h clock) (hle : clock ≤ now) :
    (s.refresh now).events = h.counted.filter (!expired now ·) := by
  obtain ⟨old, hcounted, hold⟩ := hs.window
  have hsorted : s.events.Pairwise (· ≤ ·) := (pairwise_append.1 (hcounted ▸ hs.sorted)).2.1
  have hnone : old.filter (!expired now ·) = [] := by
    rw [filter_eq_nil_iff]
    intro a ha
    simp [expired_later hle (hold a ha)]
  rw [hcounted, filter_append, hnone, nil_append]
  exact Sorting.dropWhile_eq_filter hsorted fun a b => expired_mono

theorem closed_iff (hs : Counted s h clock) (hle : clock ≤ now) :
    (s.refresh now).breakerUntil = none ↔ ∀ u, h.tripped = some u → u + breakerCooldown ≤ now := by
  constructor
  · intro hclosed u hu
    rcases (hs.refresh hle).tripped u hu with hopen | hover
    · simp [hclosed] at hopen
    · exact hover
  · intro hover
    rw [Option.eq_none_iff_forall_ne_some]
    intro b hb
    obtain ⟨u, hu, rfl⟩ := (hs.refresh hle).opened b hb
    have hlater : now < u + breakerCooldown := by
      simpa using (Option.filter_eq_some_iff.1 hb).2
    exact hlater.not_ge (hover u hu)

theorem event (hs : Counted s h clock) (hle : clock ≤ now) :
    Counted (s.recordEvent now).1 (h.event s now) now := by
  have href := hs.refresh hle
  rcases s.recordEvent_cases now with ⟨hopen, heq⟩ | ⟨hclosed, -, heq⟩ | ⟨hclosed, hfew, heq⟩
  · rw [heq, History.event, if_pos hopen]
    exact href
  · rw [History.event, heq, if_neg (by simp [hclosed]), if_pos rfl]
    refine ⟨.nil, by simp, ⟨[], rfl, by simp⟩, Nat.zero_le _, ?_, ?_⟩
    · rintro u ⟨⟩
      exact .inl rfl
    · rintro b ⟨⟩
      exact ⟨now, rfl, rfl⟩
  · rw [History.event, heq, if_neg (by simp [hclosed]), if_neg Bool.false_ne_true]
    obtain ⟨old, hcounted, hold⟩ := href.window
    refine ⟨?_, ?_, ⟨old, ?_, hold⟩, ?_, href.tripped, href.opened⟩
    · refine pairwise_append.2 ⟨hs.sorted, pairwise_singleton _ _, fun a ha b hb => ?_⟩
      exact mem_singleton.1 hb ▸ href.past a ha
    · intro a ha
      rcases mem_append.1 ha with ha | ha
      · exact href.past a ha
      · exact (mem_singleton.1 ha).le
    · show h.counted ++ [now] = old ++ ((s.refresh now).events ++ [now])
      rw [← append_assoc, ← hcounted]
    · rwa [length_append, length_singleton]

theorem events (hs : Counted s h clock) (hle : clock ≤ now) (n : ℕ) : ∃ clock' ≤ now,
    clock ≤ clock' ∧ Counted (recordEvents now n s) (h.events now n s) clock' := by
  induction n generalizing s h clock with
  | zero => exact ⟨clock, hle, le_rfl, hs⟩
  | succ n ih =>
    obtain ⟨clock', hle', hge, hs'⟩ := ih (hs.event hle) le_rfl
    exact ⟨clock', hle', hle.trans hge, hs'⟩

/-- An event trips the breaker when it is closed and there are too many in the window. -/
theorem trips_iff (hs : Counted s h clock) (hle : clock ≤ now) : (s.recordEvent now).2 = true ↔
    (∀ u, h.tripped = some u → u + breakerCooldown ≤ now) ∧
      breakerEvents < ((h.counted ++ [now]).filter (!expired now ·)).length := by
  have hnew : expired now now = false := by simp [expired, breakerWindow, secs]
  have hlength : ((h.counted ++ [now]).filter (!expired now ·)).length =
      (s.refresh now).events.length + 1 := by
    rw [filter_append, length_append, ← hs.events_refresh hle]
    simp [hnew]
  rw [← hs.closed_iff hle, hlength]
  rcases s.recordEvent_cases now with ⟨hopen, heq⟩ | ⟨hclosed, hmany, heq⟩ | ⟨hclosed, hfew, heq⟩
  · simp [heq, Option.isSome_iff_ne_none.1 hopen]
  · simp [heq, hclosed, hmany]
  · simp [heq, hfew.not_gt]

theorem plan (hs : Counted s h clock) (hle : clock ≤ now) :
    Counted (s.plan now).1 (h.plan s now) now := by
  have href := hs.refresh hle
  have hsame : ∀ h' : History, h'.counted = h.counted → h'.tripped = h.tripped →
      Counted (s.plan now).1 h' now := by
    intro h' hcounted htripped
    exact ⟨hcounted ▸ href.sorted, hcounted ▸ href.past, hcounted ▸ href.window, href.bounded,
      htripped ▸ href.tripped, htripped ▸ href.opened⟩
  rw [History.plan]
  split_ifs
  · exact hsame _ rfl rfl
  · exact hsame h rfl rfl

end Counted

theorem Reach.counted (hreach : Reach tree poll debounce r h) : Counted r.scheduler h r.now := by
  induction hreach with
  | @start began now hbegan =>
    have hnew : Counted (.new began poll debounce) {} began :=
      ⟨.nil, by simp, ⟨[], rfl, by simp⟩, Nat.zero_le _, by simp, by simp [Scheduler.new]⟩
    exact hnew.plan hbegan
  | @pass r h wake at_ now _ hat _ hnow ih =>
    have hle : r.now ≤ now := hat.trans hnow
    cases wake with
    | probe | deadline => exact Counted.plan ⟨ih.sorted, ih.past, ih.window, ih.bounded,
        ih.tripped, ih.opened⟩ hle
    | armed built =>
      cases built <;> exact Counted.plan ⟨ih.sorted, ih.past, ih.window, ih.bounded,
        ih.tripped, ih.opened⟩ hle
    | events queued =>
      obtain ⟨clock, hclock, -, hs⟩ := ih.events hat (queued + 1)
      exact hs.plan (hclock.trans hnow)

/-- An event, the first or one of those behind it, trips the breaker exactly when the last trip is
    over and more events than the breaker allows were counted in the window since, itself included;
    and the scheduler never keeps more of them. -/
theorem breaker_trips (hreach : Reach tree poll debounce r h) (hnow : r.now ≤ now) (n : ℕ) :
    (recordEvents now n r.scheduler).events.length ≤ breakerEvents ∧
      (((recordEvents now n r.scheduler).recordEvent now).2 = true ↔
        (∀ u, (h.events now n r.scheduler).tripped = some u → u + breakerCooldown ≤ now) ∧
          breakerEvents <
            (((h.events now n r.scheduler).counted ++ [now]).filter (!expired now ·)).length) := by
  obtain ⟨clock, hclock, -, hs⟩ := hreach.counted.events hnow n
  exact ⟨hs.bounded, hs.trips_iff hclock⟩

theorem breaker_trips_probedRoot : (probedRoot.scheduler.recordEvent 3).2 = true ↔
    (∀ u, probedHistory.tripped = some u → u + breakerCooldown ≤ 3) ∧
      breakerEvents < ((probedHistory.counted ++ [3]).filter (!expired 3 ·)).length :=
  (breaker_trips reach_probedRoot (by decide) 0).2

end Anthrex.Git
