import Anthrex.Data.Lists
import Anthrex.Engine.Clock
import Mathlib.Logic.Relation

/-!
# What a session is charged for

A task's clock stops while its session has nothing to do and starts again with it (`sync` of
`run/engine/clock.rs`), and at each start every writing round is excused the span it was
stopped. A daemon that starts again stops the clock at the session's last sign of life
(`stopAtRestore`); a session whose launch was lost is launched anew with nothing excused.

No round is excused more than it has lasted (`Sound`), whatever the order of passes, sleeps,
corrections, ends and restarts, as long as a round is resumed, or ended again, no earlier than
it ended.
Between corrections, restores and relaunches the seconds charged never fall.
-/

namespace Anthrex.Engine

open Anthrex.Run hiding id
open Relation

/-! ## The clock of a task -/

/-- The task's latest writing round, by its place. -/
def workerRound (task : Task) : Option ℕ :=
  (task.rounds.zipIdx.reverse.find? fun round => task.writes round.1).map (·.2)

/-- The place of the latest writing round, if it is live with a turn open. -/
def openTurn (task : Task) : Option ℕ :=
  (workerRound task).filter fun r => (task.rounds[r]?).any fun round =>
    round.turnOpen && round.windowId.isSome && !round.ended && !round.retiring

/-- An ended session that can be resumed. -/
def resumable (round : AgentRound) : Bool :=
  round.ended && !round.retiring && round.sessionId.isSome

/-- The round is excused the stop from `since` to `now`. An ended round to be resumed counts as
    ended now; no round is excused more than it has lasted. -/
def restartRound (since now : ℕ) (resumed : Bool) (round : AgentRound) : AgentRound :=
  let start := max since round.startedAt
  let last := round.endedAt.getD now
  let round := if resumed
    then { round with excusedSecs := round.excusedSecs + (now - start), endedAt := some now }
    else { round with excusedSecs := round.excusedSecs + (last - start) }
  { round with
    excusedSecs := min round.excusedSecs (round.endedAt.getD now - round.startedAt) }

/-- The clock starts again at `now` after a stop at `since`. -/
def restart (task : Task) (since now : ℕ) : Task :=
  { task with rounds := task.rounds.zipIdx.map fun round =>
      if task.writes round.1 then
        restartRound since now (resumable round.1 && workerRound task = some round.2) round.1
      else round.1 }

def syncTask (running : Bool) (now : ℕ) (task : Task) : Task :=
  let charging := (running && task.state ∉ [.blocked, .proof, .check, .review, .mergeQueue]) ||
    (openTurn task).isSome
  if task.state.isFinished then { task with clock := { task.clock with stopped := none } }
  else
    match task.clock.stopped, charging with
    | none, false => { task with clock := { task.clock with stopped := some now } }
    | some since, true => restart { task with clock := ⟨none, now⟩ } since now
    | _, _ => task

/-- The clocks of all tasks, at the end of a pass. -/
def sync (run : Run) (now : ℕ) : Run :=
  { run with tasks := run.tasks.map (syncTask (run.state = .running) now) }

/-- The clock stops at the session's last sign of life. -/
def stopAtRestore (task : Task) : Task :=
  if task.clock.stopped.isSome then task
  else
    let stopped := ((workerRound task).bind fun r => task.rounds[r]?).map fun round =>
      let ended := if round.ended then round.endedAt.getD 0 else 0
      max (max (max round.lastEvent round.startedAt) ended) task.clock.restarted
    { task with clock := { task.clock with stopped := stopped } }

/-! ## The lanes of a race -/

/-- A lane still in the race. -/
def liveLane (state : LaneState) : Bool := state ∈ [.preparing, .working, .proof, .check, .review]

/-- The state of the task a lane shows. -/
def laneTaskState : LaneState → TaskState
  | .preparing => .preparing
  | .working => .working
  | .proof => .proof
  | .check => .check
  | .review => .review
  | _ => .cancelled

/-- The task as its lane shows it, on the lane's clock and with the lane's rounds. -/
def laneTask (task : Task) (lane : Lane) : Task :=
  { task with
    state := laneTaskState lane.state
    block := none
    clock := lane.clock
    rounds := task.rounds.filter (·.lane = some lane.lane)
    laneView := some lane.lane }

/-- The rounds a view showed, back among the others. -/
def unpark (lane : RaceLane) : List AgentRound → List AgentRound → List AgentRound
  | [], shown => shown
  | first :: rest, shown =>
    if first.lane = some lane then
      match shown with
      | [] => unpark lane rest []
      | new :: shown => new :: unpark lane rest shown
    else first :: unpark lane rest shown

/-- What a view made of the rounds and the clock. -/
def leaveLane (task : Task) (k : ℕ) (lane : Lane) (view : Task) : Task :=
  { task with
    rounds := unpark lane.lane task.rounds view.rounds
    race := task.race.map fun race =>
      { race with lanes := race.lanes.modify k fun l => { l with clock := view.clock } } }

/-- `f`, on the task as its first lane of that name shows it. -/
def inLane (f : Task → Task) (lane : RaceLane) (task : Task) : Task :=
  match task.race.bind fun race => race.lanes.zipIdx.find? (·.1.lane = lane) with
  | some (l, k) => leaveLane task k l (f (laneTask task l))
  | none => task

/-- A pass over the run with one task in the view of its lane. -/
def syncLane (now : ℕ) (run : Run) (i : ℕ) (lane : RaceLane) : Run :=
  let pass := syncTask (run.state = .running) now
  { run with tasks := run.tasks.zipIdx.map fun task =>
      if task.2 = i then inLane pass lane task.1 else pass task.1 }

/-- The lanes still in the race, by the places of their tasks. -/
def liveLanes (run : Run) : List (ℕ × RaceLane) :=
  run.tasks.zipIdx.flatMap fun task =>
    if task.1.state.isFinished then []
    else (task.1.race.toList.flatMap fun race =>
      (race.lanes.filter fun l => liveLane l.state && race.winner ≠ some l.lane).map
        (·.lane)).map fun lane => (task.2, lane)

/-- The clocks at the end of a scheduler pass: the tasks', then each lane's in its view. -/
def syncPass (run : Run) (now : ℕ) : Run :=
  (liveLanes (sync run now)).foldl (fun run lane => syncLane now run lane.1 lane.2) (sync run now)

/-- Every clock stopped by a restart of the daemon, the lanes' in their views. -/
def restoreClocks (run : Run) : Run :=
  { run with tasks := run.tasks.map fun task =>
      let stopped := stopAtRestore task
      let lanes := stopped.race.toList.flatMap fun race =>
        race.lanes.filterMap fun l => viewLane stopped (some l.lane)
      lanes.foldl (fun task lane => inLane stopAtRestore lane task) stopped }

/-! ## The other changes of a round -/

def modifyRound (i r : ℕ) (f : AgentRound → AgentRound) (run : Run) : Run :=
  run.modifyTask i fun task => { task with rounds := task.rounds.modify r f }

/-- The session ended. -/
def endRound (now : ℕ) (round : AgentRound) : AgentRound :=
  { round with ended := true, interrupted := false, endedAt := some now, turnOpen := false, pid := none }

/-- A message resumes an ended session. -/
def resumeRound (now : ℕ) (round : AgentRound) : AgentRound :=
  { round with ended := false, endedAt := none, turnOpen := true, lastEvent := now }

/-- The session whose launch was lost is launched again. -/
def relaunchRound (now : ℕ) (round : AgentRound) : AgentRound :=
  { round with startedAt := now, excusedSecs := 0, lastEvent := now }

/-- The task gets a new session. -/
def launchRound (now i : ℕ) (round : AgentRound) (run : Run) : Run :=
  run.modifyTask i fun task => { task with rounds := task.rounds ++
    [{ round with ended := false, endedAt := none, startedAt := now, excusedSecs := 0 }] }

/-! ## Runs -/

/-- A round that is charged on its lane's clock is none of the sessions the task's own clock
    excuses. -/
structure Shaped (task : Task) : Prop where
  laneView : task.laneView = none
  viewed : ∀ round ∈ task.rounds, viewLane task round.lane ≠ none → task.writes round = false

/-- The same session, charged alike. -/
structure SameCharge (round round' : AgentRound) : Prop where
  role : round'.role = round.role
  lane : round'.lane = round.lane
  ended : round'.ended = round.ended
  endedAt : round'.endedAt = round.endedAt
  startedAt : round'.startedAt = round.startedAt
  excusedSecs : round'.excusedSecs = round.excusedSecs

/-- What the engine does beside: no round is charged otherwise. -/
def Works (run run' : Run) : Prop :=
  List.Forall₂ (fun task task' => Shaped task' ∧ List.Forall₂ (fun round round' =>
      SameCharge round round' ∧
        (roundClock task' round').stopped = (roundClock task round).stopped)
    task.rounds task'.rounds) run.tasks run'.tasks

/-- One step that takes back none of the charge, from a run at its time to the next; `ok` is
    what the end and the resume of a round ask of its time. -/
inductive Advances (ok : ℕ → AgentRound → Prop) : Run × ℕ → Run × ℕ → Prop
  | work {run run' : Run} {now now' : ℕ} (h : Works run run') (hnow : now ≤ now') :
      Advances ok (run, now) (run', now')
  | pass {run : Run} {now : ℕ} : Advances ok (run, now) (syncPass run now, now)
  | sleep {run : Run} {secs now now' : ℕ} (hnow : now + secs ≤ now') :
      Advances ok (run, now) (slept run secs now', now')
  | ends {run : Run} {now i r : ℕ} {task : Task} {round : AgentRound}
      (hround : roundAt run i r = some (task, round)) (hok : ok now round) :
      Advances ok (run, now) (modifyRound i r (endRound now) run, now)
  | resumes {run : Run} {now i r : ℕ} {task : Task} {round : AgentRound}
      (hround : roundAt run i r = some (task, round)) (hresumable : resumable round)
      (hok : ok now round) : Advances ok (run, now) (modifyRound i r (resumeRound now) run, now)
  | launches {run : Run} {now i : ℕ} {round : AgentRound}
      (hviewed : ∀ task ∈ run.tasks, viewLane task round.lane ≠ none → task.writes round = false) :
      Advances ok (run, now) (launchRound now i round run, now)

/-- One step: a sleep may be told longer than it was, and a correction, a restart of the daemon
    and a relaunch take back some of the charge. -/
inductive Ticks (ok : ℕ → AgentRound → Prop) : Run × ℕ → Run × ℕ → Prop
  | advances {s s' : Run × ℕ} (h : Advances ok s s') : Ticks ok s s'
  | sleep {run : Run} {secs now now' : ℕ} (hsecs : secs ≤ now') (hnow : now ≤ now') :
      Ticks ok (run, now) (slept run secs now', now')
  | back {run : Run} {secs now now' : ℕ} (hnow : now ≤ now' + secs) :
      Ticks ok (run, now) (steppedBack run secs now', now')
  | restores {run : Run} {now now' : ℕ} (hnow : now ≤ now') :
      Ticks ok (run, now) (restoreClocks run, now')
  | relaunches {run : Run} {now i r : ℕ} :
      Ticks ok (run, now) (modifyRound i r (relaunchRound now) run, now)

/-- The time is no earlier than the round's recorded end. -/
def AfterEnd (now : ℕ) (round : AgentRound) : Prop :=
  ∀ ended, round.endedAt = some ended → ended ≤ now

/-! ## No round is excused more than it has lasted -/

variable {run run' : Run} {task task' : Task} {round round' : AgentRound} {lane : RaceLane}
  {i r secs since now now' : ℕ} {running resumed : Bool} {ok : ℕ → AgentRound → Prop}

/-- An ended round has an end, and the round is excused no more than it has lasted. -/
structure SoundRound (now : ℕ) (round : AgentRound) : Prop where
  ended : round.ended → round.endedAt.isSome
  excused : round.excusedSecs ≤ round.endedAt.getD now - round.startedAt

def Sound (run : Run) (now : ℕ) : Prop :=
  ∀ task ∈ run.tasks, ∀ round ∈ task.rounds, SoundRound now round

theorem SoundRound.mono (h : SoundRound now round) (hnow : now ≤ now') : SoundRound now' round := by
  refine ⟨h.ended, h.excused.trans ?_⟩
  cases round.endedAt with
  | none => exact Nat.sub_le_sub_right hnow _
  | some last => exact Nat.le_refl _

theorem SoundRound.sameCharge (h : SoundRound now round) (hsame : SameCharge round round') :
    SoundRound now round' where
  ended := by
    rw [hsame.ended, hsame.endedAt]
    exact h.ended
  excused := by
    rw [hsame.excusedSecs, hsame.endedAt, hsame.startedAt]
    exact h.excused

theorem SoundRound.restartRound (h : SoundRound now round) :
    SoundRound now (restartRound since now resumed round) := by
  refine ⟨?_, Nat.min_le_right _ _⟩
  cases resumed with
  | true => exact fun _ => rfl
  | false => exact h.ended

/-- A round of a task after a pass: as it was, or excused a stop. -/
theorem mem_rounds_syncTask (h : round' ∈ (syncTask running now task).rounds) :
    round' ∈ task.rounds ∨
      ∃ round ∈ task.rounds, ∃ since resumed, round' = restartRound since now resumed round := by
  unfold syncTask at h
  dsimp only at h
  split at h
  · exact .inl h
  split at h
  · exact .inl h
  · obtain ⟨old, hold, heq⟩ := List.mem_map.1 h
    have hmem : old.1 ∈ task.rounds := List.mem_of_getElem? (List.mem_zipIdx_iff_getElem?.1 hold)
    split at heq
    · exact .inr ⟨old.1, hmem, _, _, heq.symm⟩
    · exact .inl (heq ▸ hmem)
  · exact .inl h

theorem mem_unpark {rounds shown : List AgentRound} (h : round ∈ unpark lane rounds shown) :
    round ∈ rounds ∨ round ∈ shown := by
  induction rounds generalizing shown with
  | nil => exact .inr h
  | cons first rest ih =>
    unfold unpark at h
    split at h
    · cases shown with
      | nil => exact (ih h).imp_left (List.mem_cons_of_mem _)
      | cons new shown =>
        rcases List.mem_cons.1 h with rfl | h
        · exact .inr (List.mem_cons_self ..)
        · exact (ih h).imp (List.mem_cons_of_mem _) (List.mem_cons_of_mem _)
    · rcases List.mem_cons.1 h with rfl | h
      · exact .inl (List.mem_cons_self ..)
      · exact (ih h).imp_left (List.mem_cons_of_mem _)

/-- What holds of all rounds, and of all that `f` makes of a task's, holds after a view. -/
theorem forall_rounds_inLane {P : AgentRound → Prop} {f : Task → Task}
    (hf : ∀ task, (∀ round ∈ task.rounds, P round) → ∀ round ∈ (f task).rounds, P round)
    (h : ∀ round ∈ task.rounds, P round) : ∀ round ∈ (inLane f lane task).rounds, P round := by
  unfold inLane
  split
  · intro round hround
    rcases mem_unpark hround with hold | hshown
    · exact h round hold
    · refine hf _ (fun x hx => h x ?_) round hshown
      exact List.mem_of_mem_filter hx
  · exact h

theorem soundRound_syncTask (h : ∀ round ∈ task.rounds, SoundRound now round) :
    ∀ round ∈ (syncTask running now task).rounds, SoundRound now round := by
  intro round hround
  rcases mem_rounds_syncTask hround with hold | ⟨old, hold, since, resumed, rfl⟩
  · exact h round hold
  · exact (h old hold).restartRound

/-- A pass does to every task one after the other what `syncTask` does, in a view or not. -/
theorem forall_tasks_syncPass {P : Task → Prop}
    (hsync : ∀ running task, P task → P (syncTask running now task))
    (hview : ∀ running lane task, P task → P (inLane (syncTask running now) lane task))
    (h : ∀ task ∈ run.tasks, P task) : ∀ task ∈ (syncPass run now).tasks, P task := by
  have hfirst : ∀ task ∈ (sync run now).tasks, P task := by
    intro task htask
    obtain ⟨old, hold, rfl⟩ := List.mem_map.1 htask
    exact hsync _ old (h old hold)
  unfold syncPass
  refine List.foldlRecOn (motive := fun run : Run => ∀ task ∈ run.tasks, P task) _ _ hfirst ?_
  intro run hrun lane _ task htask
  obtain ⟨old, hold, rfl⟩ := List.mem_map.1 htask
  have hmem : old.1 ∈ run.tasks := List.mem_of_getElem? (List.mem_zipIdx_iff_getElem?.1 hold)
  split
  · exact hview _ _ old.1 (hrun _ hmem)
  · exact hsync _ old.1 (hrun _ hmem)

theorem Sound.syncPass (h : Sound run now) : Sound (syncPass run now) now :=
  forall_tasks_syncPass (P := fun task => ∀ round ∈ task.rounds, SoundRound now round)
    (fun _ _ => soundRound_syncTask)
    (fun _ _ _ => forall_rounds_inLane fun _ => soundRound_syncTask) h

theorem rounds_stopAtRestore : (stopAtRestore task).rounds = task.rounds := by
  unfold stopAtRestore
  split <;> rfl

theorem Sound.restoreClocks (h : Sound run now) : Sound (restoreClocks run) now := by
  intro task htask
  obtain ⟨old, hold, rfl⟩ := List.mem_map.1 htask
  have hstopped : ∀ task : Task, (∀ round ∈ task.rounds, SoundRound now round) →
      ∀ round ∈ (stopAtRestore task).rounds, SoundRound now round := by
    intro task h
    rw [rounds_stopAtRestore]
    exact h
  refine List.foldlRecOn (motive := fun task : Task => ∀ round ∈ task.rounds, SoundRound now round)
    _ _ (hstopped old (h old hold)) ?_
  exact fun task htask lane _ => forall_rounds_inLane hstopped htask

theorem SoundRound.sleptRound (h : SoundRound now round) (hnow : now ≤ now') {stopped : Bool} :
    SoundRound now' (sleptRound secs now' stopped round) := by
  have hlater := h.mono hnow
  unfold Engine.sleptRound
  dsimp only
  by_cases hunended : unended round
  · rw [if_pos hunended]
    have hended := endedAt_of_unended hunended
    refine ⟨hlater.ended, ?_⟩
    show (if stopped then round.excusedSecs else _) ≤ round.endedAt.getD now' - round.startedAt
    rw [hended]
    split
    · simpa [hended] using hlater.excused
    · exact Nat.min_le_right _ _
  · rw [if_neg hunended]
    exact ⟨hlater.ended, hlater.excused⟩

/-- What a correction takes from the elapsed time it takes from the excused time too. -/
theorem SoundRound.steppedBackRound (h : SoundRound now round) (hnow : now ≤ now' + secs) :
    SoundRound now' (steppedBackRound secs now' round) := by
  unfold Engine.steppedBackRound
  by_cases hunended : unended round
  · rw [if_pos hunended]
    have hended := endedAt_of_unended hunended
    have hexcused := h.excused
    refine ⟨h.ended, ?_⟩
    show round.excusedSecs - secs ≤ round.endedAt.getD now' - min round.startedAt now'
    rw [hended, Option.getD_none] at hexcused ⊢
    omega
  · rw [if_neg hunended]
    have hended : ∃ last, round.endedAt = some last := by
      rw [← Option.isSome_iff_exists]
      by_cases hflag : round.ended
      · exact h.ended hflag
      · simpa [unended, hflag, Option.isSome_iff_ne_none] using hunended
    obtain ⟨last, hlast⟩ := hended
    refine ⟨h.ended, ?_⟩
    have hexcused := h.excused
    show round.excusedSecs ≤ round.endedAt.getD now' - round.startedAt
    rw [hlast] at hexcused ⊢
    exact hexcused

theorem AfterEnd.le (h : AfterEnd now round) : round.endedAt.getD now ≤ now := by
  cases hended : round.endedAt with
  | none => exact Nat.le_refl _
  | some ended => exact h ended hended

theorem AfterEnd.mono (h : AfterEnd now round) (hnow : now ≤ now') : AfterEnd now' round :=
  fun ended hended => (h ended hended).trans hnow

theorem SoundRound.endRound (h : SoundRound now round) (hafter : AfterEnd now round) :
    SoundRound now (endRound now round) where
  ended := fun _ => rfl
  excused := h.excused.trans (Nat.sub_le_sub_right hafter.le _)

theorem SoundRound.resumeRound (h : SoundRound now round) (hafter : AfterEnd now round) :
    SoundRound now (resumeRound now round) where
  ended := fun hended => absurd hended (by simp [Engine.resumeRound])
  excused := h.excused.trans (Nat.sub_le_sub_right hafter.le _)

/-- A round of a run with one round changed: as it was, or the changed one. -/
theorem Sound.modifyRound {f : AgentRound → AgentRound} (h : Sound run now)
    (hf : ∀ task round, roundAt run i r = some (task, round) → SoundRound now round →
      SoundRound now (f round)) : Sound (modifyRound i r f run) now := by
  intro task htask round hround
  rcases Lists.mem_modify htask with hold | ⟨old, hold, rfl⟩
  · exact h task hold round hround
  have hsound := h old (List.mem_of_getElem? hold)
  rcases Lists.mem_modify hround with hsame | ⟨before, hbefore, rfl⟩
  · exact hsound round hsame
  · refine hf old before ?_ (hsound before (List.mem_of_getElem? hbefore))
    simp [roundAt, hold, hbefore]

theorem Sound.advances (hadvances : Advances AfterEnd (run, now) (run', now')) (h : Sound run now) :
    Sound run' now' := by
  cases hadvances with
  | work hworks hnow =>
    intro task htask round hround
    obtain ⟨old, hold, -, hrounds⟩ := Lists.exists_of_forall₂_mem hworks htask
    obtain ⟨before, hbefore, hsame, -⟩ := Lists.exists_of_forall₂_mem hrounds hround
    exact ((h old hold before hbefore).sameCharge hsame).mono hnow
  | pass => exact h.syncPass
  | sleep hnow =>
    intro task htask round hround
    obtain ⟨old, hold, rfl⟩ := List.mem_map.1 htask
    obtain ⟨before, hbefore, rfl⟩ := List.mem_map.1 hround
    exact (h old hold before hbefore).sleptRound (by omega)
  | ends hround hok =>
    refine h.modifyRound fun task' round' hround' hsound => hsound.endRound ?_
    cases hround.symm.trans hround'
    exact hok
  | resumes hround _ hok =>
    refine h.modifyRound fun task' round' hround' hsound => hsound.resumeRound ?_
    cases hround.symm.trans hround'
    exact hok
  | launches =>
    intro task htask round hround
    rcases Lists.mem_modify htask with hold | ⟨old, hold, rfl⟩
    · exact h task hold round hround
    rcases List.mem_append.1 hround with hsame | hnew
    · exact h old (List.mem_of_getElem? hold) round hsame
    · obtain rfl := List.mem_singleton.1 hnew
      exact ⟨fun hended => absurd hended (by simp), Nat.zero_le _⟩

theorem Sound.ticks (hticks : Ticks AfterEnd (run, now) (run', now')) (h : Sound run now) :
    Sound run' now' := by
  cases hticks with
  | advances hadvances => exact h.advances hadvances
  | sleep _ hnow =>
    intro task htask round hround
    obtain ⟨old, hold, rfl⟩ := List.mem_map.1 htask
    obtain ⟨before, hbefore, rfl⟩ := List.mem_map.1 hround
    exact (h old hold before hbefore).sleptRound hnow
  | back hnow =>
    intro task htask round hround
    obtain ⟨old, hold, rfl⟩ := List.mem_map.1 htask
    obtain ⟨before, hbefore, rfl⟩ := List.mem_map.1 hround
    exact (h old hold before hbefore).steppedBackRound hnow
  | restores hnow =>
    intro task htask round hround
    exact (h.restoreClocks task htask round hround).mono hnow
  | relaunches =>
    exact h.modifyRound fun _ _ _ hsound => ⟨hsound.ended, Nat.zero_le _⟩

/-! ## The charge never falls -/

/-- The seconds a round of a task is charged at `now`. -/
def charged (task : Task) (round : AgentRound) (now : ℕ) : ℕ :=
  (roundSpend round (roundClock task round).stopped now).secs

/-- What becomes of a round on its clock: it stays the same session, and is charged no less. -/
structure Rises (now now' : ℕ) (stopped stopped' : Option ℕ) (round round' : AgentRound) :
    Prop where
  role : round'.role = round.role
  lane : round'.lane = round.lane
  afterEnd : AfterEnd now' round'
  secs : (roundSpend round stopped now).secs ≤ (roundSpend round' stopped' now').secs

/-- The rounds of a task on their clocks, each at its place. -/
structure TaskRises (now now' : ℕ) (task task' : Task) : Prop where
  shaped : Shaped task'
  rounds : List.Forall₂ (fun round round' => Rises now now' (roundClock task round).stopped
    (roundClock task' round').stopped round round') task.rounds task'.rounds

/-- The run at a time no earlier than any of its recorded ends. -/
def Tidy (run : Run) (now : ℕ) : Prop :=
  ∀ task ∈ run.tasks, Shaped task ∧ ∀ round ∈ task.rounds, AfterEnd now round

variable {stopped : Option ℕ}

theorem roundSpend_mono (hlast : round.endedAt.getD now ≤ round'.endedAt.getD now')
    (hstarted : round'.startedAt = round.startedAt) (hexcused : round'.excusedSecs = round.excusedSecs) :
    (roundSpend round stopped now).secs ≤ (roundSpend round' stopped now').secs := by
  unfold roundSpend
  rw [hstarted, hexcused]
  cases stopped with
  | none =>
    simp only [Option.map_none, Option.getD_none]
    omega
  | some since =>
    simp only [Option.map_some, Option.getD_some]
    omega

theorem Rises.refl (h : AfterEnd now round) : Rises now now stopped stopped round round :=
  ⟨rfl, rfl, h, Nat.le_refl _⟩

/-- A clock that stops now has nothing to take off yet; one that forgets its stop takes off
    nothing. -/
theorem Rises.stops (h : AfterEnd now round) : Rises now now none (some now) round round := by
  refine ⟨rfl, rfl, h, ?_⟩
  have hle := h.le
  simp only [roundSpend, Option.map_none, Option.getD_none, Option.map_some, Option.getD_some]
  omega

theorem Rises.forgets (h : AfterEnd now round) : Rises now now stopped none round round := by
  refine ⟨rfl, rfl, h, ?_⟩
  simp only [roundSpend, Option.map_none, Option.getD_none]
  omega

/-- What was taken off while the clock was stopped is excused at its start. -/
theorem Rises.restartRound (h : AfterEnd now round) :
    Rises now now (some since) none round (restartRound since now resumed round) := by
  have hle := h.le
  cases resumed with
  | true =>
    refine ⟨rfl, rfl, fun ended hended => (Option.some.inj hended).ge, ?_⟩
    simp only [roundSpend, Engine.restartRound, if_true, Option.map_none, Option.getD_none,
      Option.map_some, Option.getD_some]
    omega
  | false =>
    refine ⟨rfl, rfl, h, ?_⟩
    simp only [roundSpend, Engine.restartRound, Bool.false_eq_true, if_false, Option.map_none,
      Option.getD_none, Option.map_some, Option.getD_some]
    omega

theorem Rises.sleptRound (h : AfterEnd now round) (hnow : now + secs ≤ now') :
    Rises now now' stopped stopped round (sleptRound secs now' stopped.isSome round) := by
  have hlater : AfterEnd now' round := h.mono (by omega)
  by_cases hunended : unended round
  · have hended := endedAt_of_unended hunended
    refine ⟨?_, sleptRound_lane, ?_, ?_⟩
    · rw [Engine.sleptRound, if_pos hunended]
      rfl
    · rw [Engine.sleptRound, if_pos hunended]
      exact hlater
    rw [Engine.sleptRound, roundSpend_moveWaits, if_pos hunended]
    cases stopped with
    | none =>
      simp only [roundSpend, hended, Option.getD_none, Option.map_none, Option.isSome_none,
        Bool.false_eq_true, if_false, Quota.saturatingAdd]
      omega
    | some since =>
      simp only [roundSpend, hended, Option.getD_none, Option.map_some, Option.getD_some,
        Option.isSome_some, if_true]
      omega
  · rw [Engine.sleptRound, if_neg hunended]
    refine ⟨rfl, rfl, hlater, ?_⟩
    rw [roundSpend_moveWaits]
    refine roundSpend_mono ?_ rfl rfl
    cases round.endedAt with
    | none => exact (Nat.le_add_right ..).trans hnow
    | some last => exact Nat.le_refl _

/-! ### A pass -/

@[simp] theorem race_syncTask : (syncTask running now task).race = task.race := by
  unfold syncTask
  dsimp only
  split
  · rfl
  · split <;> rfl

@[simp] theorem laneView_syncTask : (syncTask running now task).laneView = task.laneView := by
  unfold syncTask
  dsimp only
  split
  · rfl
  · split <;> rfl

/-- Each round on the task's clock, which excuses writing rounds only. -/
theorem syncTask_rises (h : ∀ round ∈ task.rounds, AfterEnd now round) :
    List.Forall₂ (fun round round' =>
        Rises now now task.clock.stopped (syncTask running now task).clock.stopped round round' ∧
          (task.writes round = false → round' = round))
      task.rounds (syncTask running now task).rounds := by
  unfold syncTask
  dsimp only
  split
  · exact List.forall₂_same.2 fun round hround => ⟨.forgets (h round hround), fun _ => rfl⟩
  split
  · next hstopped _ =>
    rw [hstopped]
    exact List.forall₂_same.2 fun round hround => ⟨.stops (h round hround), fun _ => rfl⟩
  · next since hstopped _ =>
    rw [hstopped, restart, List.forall₂_map_right_iff]
    refine List.forall₂_iff_get.2 ⟨by simp, fun k hk hk' => ?_⟩
    have hround := h _ (List.get_mem task.rounds ⟨k, hk⟩)
    simp only [List.get_eq_getElem, List.getElem_zipIdx] at hround ⊢
    split
    · next hwrites =>
      exact ⟨.restartRound hround, fun hnot => absurd (hnot.symm.trans hwrites) (by simp)⟩
    · exact ⟨.forgets hround, fun _ => rfl⟩
  · exact List.forall₂_same.2 fun round hround => ⟨.refl (h round hround), fun _ => rfl⟩

/-- A round with a view: its lane is one of the race, and did not become the task. -/
theorem viewLane_eq_some {l : Option RaceLane} (h : viewLane task l = some lane) :
    ∃ race x, task.race = some race ∧ l = some lane ∧
      race.lanes.find? (·.lane = lane) = some x ∧ (race.crowned && race.winner = some lane) = false := by
  unfold viewLane at h
  split at h
  · next race hrace =>
    split at h
    · next hknown =>
      cases h
      simp only [Bool.and_eq_true, Bool.not_eq_true'] at hknown
      obtain ⟨x, hx⟩ := Option.isSome_iff_exists.1 (List.find?_isSome.2 (List.any_eq_true.1 hknown.1))
      exact ⟨race, x, hrace, rfl, hx, hknown.2⟩
    · cases h
  · cases h

theorem roundClock_of_none (h : viewLane task round.lane = none) :
    roundClock task round = task.clock := by
  rw [roundClock, h]

theorem roundClock_of_some {race : Race} {x : Lane} (h : viewLane task round.lane = some lane)
    (hrace : task.race = some race) (hx : race.lanes.find? (·.lane = lane) = some x) :
    roundClock task round = x.clock := by
  rw [roundClock, h, hrace]
  simp [hx]

theorem viewLane_congr (hrace : task'.race = task.race) (l : Option RaceLane) :
    viewLane task' l = viewLane task l := by
  unfold viewLane
  rw [hrace]

/-- A round on its lane's clock keeps it, whatever becomes of the task's own. -/
theorem roundClock_congr (hrace : task'.race = task.race) (hlane : round'.lane = round.lane)
    (h : viewLane task round.lane ≠ none) : roundClock task' round' = roundClock task round := by
  obtain ⟨lane, hview⟩ := Option.ne_none_iff_exists'.1 h
  obtain ⟨race, x, hsome, -, hx, -⟩ := viewLane_eq_some hview
  have hview' : viewLane task' round'.lane = some lane := by
    rw [viewLane_congr hrace, hlane, hview]
  rw [roundClock_of_some hview hsome hx, roundClock_of_some hview' (hrace.trans hsome) hx]

theorem Shaped.of_rounds (h : Shaped task) (hview : task'.laneView = task.laneView)
    (hlane : ∀ l, viewLane task' l = viewLane task l)
    (hcrowned : task'.crownedLane = task.crownedLane)
    (hrounds : ∀ round' ∈ task'.rounds,
      ∃ round ∈ task.rounds, round'.role = round.role ∧ round'.lane = round.lane) :
    Shaped task' := by
  refine ⟨hview.trans h.laneView, fun round' hround' hviewed => ?_⟩
  obtain ⟨round, hround, hrole, hround'⟩ := hrounds round' hround'
  rw [hlane, hround'] at hviewed
  have hwrites := h.viewed round hround hviewed
  unfold Task.writes at hwrites ⊢
  rw [hrole, hround', hview, hcrowned]
  exact hwrites

theorem exists_of_rises {R : AgentRound → AgentRound → Prop} {rounds rounds' : List AgentRound}
    (h : List.Forall₂ R rounds rounds') (hR : ∀ round round', R round round' →
      round'.role = round.role ∧ round'.lane = round.lane) :
    ∀ round' ∈ rounds', ∃ round ∈ rounds, round'.role = round.role ∧ round'.lane = round.lane := by
  intro round' hround'
  obtain ⟨round, hround, hrises⟩ := Lists.exists_of_forall₂_mem h hround'
  exact ⟨round, hround, hR round round' hrises⟩

theorem TaskRises.syncTask (hshaped : Shaped task) (h : ∀ round ∈ task.rounds, AfterEnd now round) :
    TaskRises now now task (syncTask running now task) := by
  have hrises : List.Forall₂ _ task.rounds (Engine.syncTask running now task).rounds :=
    syncTask_rises h
  refine ⟨hshaped.of_rounds laneView_syncTask (viewLane_congr race_syncTask) ?_
    (exists_of_rises hrises fun _ _ h => ⟨h.1.role, h.1.lane⟩), ?_⟩
  · unfold Task.crownedLane
    rw [race_syncTask]
  have hmem := (List.forall₂_and_left (p := (· ∈ task.rounds)) _ _).2 ⟨fun _ h => h, hrises⟩
  refine hmem.imp ?_
  rintro round round' ⟨hround, hrise, hsame⟩
  by_cases hview : viewLane task round.lane = none
  · rw [roundClock_of_none hview, roundClock_of_none]
    · exact hrise
    · rw [viewLane_congr race_syncTask, hrise.lane, hview]
  · -- a round on its lane's clock does not write the task
    obtain rfl := hsame (hshaped.viewed round hround hview)
    rw [roundClock_congr race_syncTask rfl hview]
    exact .refl (h _ hround)

/-- What a view makes of its rounds, back at their places. -/
theorem forall₂_unpark {R : AgentRound → AgentRound → Prop} {rounds shown : List AgentRound}
    (hrefl : ∀ round ∈ rounds, round.lane ≠ some lane → R round round)
    (h : List.Forall₂ R (rounds.filter (·.lane = some lane)) shown) :
    List.Forall₂ R rounds (unpark lane rounds shown) := by
  induction rounds generalizing shown with
  | nil =>
    cases h
    exact .nil
  | cons first rest ih =>
    have hrest : ∀ round ∈ rest, round.lane ≠ some lane → R round round :=
      fun round hround => hrefl round (List.mem_cons_of_mem _ hround)
    unfold unpark
    by_cases hlane : first.lane = some lane
    · rw [List.filter_cons_of_pos (by simpa using hlane)] at h
      rw [if_pos hlane]
      cases h with
      | cons hfirst h => exact .cons hfirst (ih hrest h)
    · rw [List.filter_cons_of_neg (by simpa using hlane)] at h
      rw [if_neg hlane]
      exact .cons (hrefl first (List.mem_cons_self ..) hlane) (ih hrest h)

/-- The race with the clock of one lane changed. -/
def clockLane (k : ℕ) (clock : TaskClock) (race : Race) : Race :=
  { race with lanes := race.lanes.modify k fun l => { l with clock := clock } }

theorem viewLane_clockLane {k : ℕ} {clock : TaskClock} {race : Race} (hrace : task.race = some race)
    (hrace' : task'.race = some (clockLane k clock race)) (l : Option RaceLane) :
    viewLane task' l = viewLane task l := by
  unfold viewLane
  rw [hrace, hrace']
  cases l with
  | none => rfl
  | some lane =>
    have hany : (clockLane k clock race).lanes.any (·.lane = lane) =
        race.lanes.any (·.lane = lane) := Lists.any_modify fun _ => rfl
    simp only [hany]
    rfl

theorem crownedLane_clockLane {k : ℕ} {clock : TaskClock} {race : Race}
    (hrace : task.race = some race) (hrace' : task'.race = some (clockLane k clock race)) :
    task'.crownedLane = task.crownedLane := by
  unfold Task.crownedLane
  rw [hrace, hrace']
  cases hcrowned : race.crowned with
  | false => simp [Option.filter, clockLane, hcrowned]
  | true =>
    simp only [Option.filter, clockLane, hcrowned, if_true, Option.bind_some]
    exact Lists.map_find?_modify (fun _ => rfl) fun _ => rfl

/-- A round of no lane or another keeps its clock. -/
theorem roundClock_clockLane_of_ne {k : ℕ} {clock : TaskClock} {race : Race} {l : Lane}
    (hrace : task.race = some race) (hrace' : task'.race = some (clockLane k clock race))
    (hclock : task'.clock = task.clock) (hplace : race.lanes[k]? = some l)
    (hlane : round.lane ≠ some l.lane) : roundClock task' round = roundClock task round := by
  have hview := viewLane_clockLane hrace hrace' round.lane
  cases hother : viewLane task round.lane with
  | none =>
    rw [hother] at hview
    rw [roundClock_of_none hother, roundClock_of_none hview, hclock]
  | some other =>
    rw [hother] at hview
    obtain ⟨race₀, x, hrace₀, hround, hx, -⟩ := viewLane_eq_some hother
    cases hrace.symm.trans hrace₀
    have hne : l.lane ≠ other := fun heq => hlane (heq ▸ hround)
    have hx' : (clockLane k clock race).lanes.find? (·.lane = other) = some x := by
      rw [← hx]
      refine Lists.find?_modify_of_not fun y hy => ?_
      cases hplace.symm.trans hy
      simp [hne]
    rw [roundClock_of_some hother hrace hx, roundClock_of_some hview hrace' hx']

/-- A round of the lane, the first of its name, is on the new clock. -/
theorem roundClock_clockLane {k : ℕ} {clock : TaskClock} {race : Race} {l : Lane}
    (hrace' : task'.race = some (clockLane k clock race))
    (hfound : race.lanes.zipIdx.find? (·.1.lane = l.lane) = some (l, k))
    (hview : viewLane task' round.lane = some l.lane) : roundClock task' round = clock := by
  have hx : (clockLane k clock race).lanes.find? (·.lane = l.lane) = some { l with clock := clock } :=
    Lists.find?_modify (k := 0) (by simpa using hfound) (by simp)
  exact roundClock_of_some hview hrace' hx

/-- A pass in the view of a lane that is not the winner. -/
theorem TaskRises.inLane (hshaped : Shaped task) (h : ∀ round ∈ task.rounds, AfterEnd now round)
    (hwinner : ∀ race, task.race = some race → race.winner ≠ some lane) :
    TaskRises now now task (inLane (Engine.syncTask running now) lane task) := by
  unfold Engine.inLane
  split
  · next l k hfound =>
    obtain ⟨race, hrace, hfound⟩ := Option.bind_eq_some_iff.1 hfound
    have hl : l.lane = lane := by simpa using List.find?_some hfound
    subst hl
    have hplace : race.lanes[k]? = some l :=
      List.mem_zipIdx_iff_getElem?.1 (List.mem_of_find?_eq_some hfound)
    have hfirst : race.lanes.find? (·.lane = l.lane) = some l := Lists.find?_of_zipIdx hfound
    have hview : viewLane task (some l.lane) = some l.lane := by
      have hany : race.lanes.any (·.lane = l.lane) :=
        List.any_eq_true.2 (List.find?_isSome.1 (by rw [hfirst]; rfl))
      simp [viewLane, hrace, hwinner race hrace, hany]
    let view := Engine.syncTask running now (laneTask task l)
    have hrace' : (leaveLane task k l view).race = some (clockLane k view.clock race) := by
      simp [leaveLane, hrace, clockLane]
    have hrises : List.Forall₂ (fun round round' => Rises now now (roundClock task round).stopped
        (roundClock (leaveLane task k l view) round').stopped round round') task.rounds
        (leaveLane task k l view).rounds := by
      refine forall₂_unpark ?_ ?_
      · intro round hround hlane
        rw [roundClock_clockLane_of_ne hrace hrace' rfl hplace hlane]
        exact .refl (h round hround)
      · have hshown : List.Forall₂ _ (laneTask task l).rounds view.rounds :=
          syncTask_rises fun round hround => h round (List.mem_of_mem_filter hround)
        have hmem := (List.forall₂_and_left (p := (·.lane = some l.lane)) _ _).2
          ⟨fun round hround => by simpa using (List.mem_filter.1 hround).2, hshown⟩
        refine hmem.imp ?_
        rintro round round' ⟨hlane, hrise, -⟩
        have hround : viewLane task round.lane = some l.lane := by rw [hlane, hview]
        have hround' : viewLane (leaveLane task k l view) round'.lane = some l.lane := by
          rw [viewLane_clockLane hrace hrace', hrise.lane, hround]
        rw [roundClock_of_some hround hrace hfirst, roundClock_clockLane hrace' hfound hround']
        exact hrise
    refine ⟨hshaped.of_rounds rfl (viewLane_clockLane hrace hrace')
      (crownedLane_clockLane hrace hrace') ?_, hrises⟩
    exact exists_of_rises hrises fun _ _ h => ⟨h.role, h.lane⟩
  · exact ⟨hshaped, List.forall₂_same.2 fun round hround => .refl (h round hround)⟩

theorem Rises.trans {now₂ : ℕ} {stopped' stopped₂ : Option ℕ} {round₂ : AgentRound}
    (h : Rises now now' stopped stopped' round round')
    (h' : Rises now' now₂ stopped' stopped₂ round' round₂) :
    Rises now now₂ stopped stopped₂ round round₂ :=
  ⟨h'.role.trans h.role, h'.lane.trans h.lane, h'.afterEnd, h.secs.trans h'.secs⟩

theorem TaskRises.trans {now₂ : ℕ} {task₂ : Task} (h : TaskRises now now' task task')
    (h' : TaskRises now' now₂ task' task₂) : TaskRises now now₂ task task₂ := by
  refine ⟨h'.shaped, ?_⟩
  exact Lists.forall₂_trans (fun _ _ _ hrise hrise' => hrise.trans hrise') h.rounds h'.rounds

theorem TaskRises.afterEnd (h : TaskRises now now' task task') :
    ∀ round ∈ task'.rounds, AfterEnd now' round := by
  intro round hround
  obtain ⟨old, -, hrise⟩ := Lists.exists_of_forall₂_mem h.rounds hround
  exact hrise.afterEnd

theorem Tidy.of_rises (h : List.Forall₂ (TaskRises now now') run.tasks run'.tasks) :
    Tidy run' now' := by
  intro task htask
  obtain ⟨old, -, hrise⟩ := Lists.exists_of_forall₂_mem h htask
  exact ⟨hrise.shaped, hrise.afterEnd⟩

theorem winner_inLane :
    (inLane (syncTask running now) lane task).race.map (·.winner) = task.race.map (·.winner) := by
  unfold inLane
  split
  · next hfound =>
    obtain ⟨race, hrace, -⟩ := Option.bind_eq_some_iff.1 hfound
    simp [leaveLane, hrace]
  · rfl

theorem winner_ne_of_mem_liveLanes (h : (i, lane) ∈ liveLanes run) (htask : run.tasks[i]? = some task) :
    task.race.map (·.winner) ≠ some (some lane) := by
  obtain ⟨⟨old, k⟩, hold, hlanes⟩ := List.mem_flatMap.1 h
  dsimp only at hlanes
  split at hlanes
  · cases hlanes
  obtain ⟨l, hl, heq⟩ := List.mem_map.1 hlanes
  cases heq
  cases (List.mem_zipIdx_iff_getElem?.1 hold).symm.trans htask
  obtain ⟨race, hrace, hl⟩ := List.mem_flatMap.1 hl
  obtain ⟨x, hx, rfl⟩ := List.mem_map.1 hl
  have hne := (List.mem_filter.1 hx).2
  simp only [Bool.and_eq_true, decide_eq_true_eq] at hne
  rw [Option.mem_toList.1 hrace]
  exact fun heq => hne.2 (Option.some.inj heq)

theorem Tidy.sync (h : Tidy run now) :
    List.Forall₂ (TaskRises now now) run.tasks (sync run now).tasks := by
  refine List.forall₂_map_right_iff.2 (List.forall₂_same.2 fun task htask => ?_)
  exact .syncTask (h task htask).1 (h task htask).2

/-- A pass in one view, after what has risen from `task` so far. -/
theorem TaskRises.syncLane (h : TaskRises now now task task')
    (hwinner : task'.race.map (·.winner) = task.race.map (·.winner)) (isView : Prop) [Decidable isView]
    (hlane : isView → task.race.map (·.winner) ≠ some (some lane)) :
    let task₂ := if isView then Engine.inLane (Engine.syncTask running now) lane task'
      else Engine.syncTask running now task'
    TaskRises now now task task₂ ∧ task₂.race.map (·.winner) = task.race.map (·.winner) := by
  intro task₂
  by_cases hview : isView
  · rw [show task₂ = _ from if_pos hview, winner_inLane, hwinner]
    refine ⟨h.trans (.inLane h.shaped h.afterEnd fun race hrace heq => ?_), rfl⟩
    refine hlane hview ?_
    rw [← hwinner, hrace, Option.map_some, heq]
  · rw [show task₂ = _ from if_neg hview, race_syncTask, hwinner]
    exact ⟨h.trans (.syncTask h.shaped h.afterEnd), rfl⟩

/-- A pass, then a pass in the view of each lane still racing. -/
theorem Tidy.syncPass (h : Tidy run now) :
    List.Forall₂ (TaskRises now now) run.tasks (syncPass run now).tasks := by
  have hlanes : List.Forall₂ (fun task task' => TaskRises now now task task' ∧
      task'.race.map (·.winner) = task.race.map (·.winner)) (Engine.sync run now).tasks
      (Engine.syncPass run now).tasks := by
    refine List.foldlRecOn (motive := fun run' : Run => List.Forall₂ (fun task task' =>
      TaskRises now now task task' ∧ task'.race.map (·.winner) = task.race.map (·.winner))
      (Engine.sync run now).tasks run'.tasks) _ _ ?_ ?_
    · refine List.forall₂_same.2 fun task htask => ⟨?_, rfl⟩
      obtain ⟨hshaped, hafter⟩ := Tidy.of_rises h.sync task htask
      exact ⟨hshaped, List.forall₂_same.2 fun round hround => .refl (hafter round hround)⟩
    · intro run' hrun' lane hlane
      refine List.forall₂_map_right_iff.2 (List.forall₂_iff_get.2 ⟨?_, fun k hk hk' => ?_⟩)
      · simpa using hrun'.length_eq
      have hmid : k < run'.tasks.length := hrun'.length_eq ▸ hk
      obtain ⟨hrise, hwinner⟩ := hrun'.get hk hmid
      simp only [List.get_eq_getElem, List.getElem_zipIdx, Nat.zero_add] at hrise hwinner ⊢
      refine hrise.syncLane hwinner (k = lane.1) fun heq => ?_
      subst heq
      exact winner_ne_of_mem_liveLanes hlane (List.getElem?_eq_getElem hk)
  exact Lists.forall₂_trans (fun _ _ _ hrise hlane => hrise.trans hlane.1) h.sync hlanes

/-! ### Every step -/

/-- Every round stays at its places, and is charged no less. -/
def ChargedNoLess (run : Run) (now : ℕ) (run' : Run) (now' : ℕ) : Prop :=
  ∀ i r task round, roundAt run i r = some (task, round) → ∃ task' round',
    roundAt run' i r = some (task', round') ∧ charged task round now ≤ charged task' round' now'

theorem roundAt_eq_some :
    roundAt run i r = some (task, round) ↔ run.tasks[i]? = some task ∧ task.rounds[r]? = some round := by
  unfold roundAt
  rw [Option.bind_eq_some_iff]
  constructor
  · rintro ⟨task', htask, hround⟩
    obtain ⟨round', hround, heq⟩ := Option.map_eq_some_iff.1 hround
    cases heq
    exact ⟨htask, hround⟩
  · rintro ⟨htask, hround⟩
    exact ⟨task, htask, Option.map_eq_some_iff.2 ⟨round, hround, rfl⟩⟩

theorem ChargedNoLess.of_rises (h : List.Forall₂ (TaskRises now now') run.tasks run'.tasks) :
    ChargedNoLess run now run' now' := by
  intro i r task round hround
  obtain ⟨htask, hround⟩ := roundAt_eq_some.1 hround
  obtain ⟨task', htask', hrise⟩ := Lists.getElem?_of_forall₂ h htask
  obtain ⟨round', hround', hrise⟩ := Lists.getElem?_of_forall₂ hrise.rounds hround
  exact ⟨task', round', roundAt_eq_some.2 ⟨htask', hround'⟩, hrise.secs⟩

theorem TaskRises.refl (hshaped : Shaped task) (h : ∀ round ∈ task.rounds, AfterEnd now round) :
    TaskRises now now task task :=
  ⟨hshaped, List.forall₂_same.2 fun round hround => .refl (h round hround)⟩

/-- One round changed on its clock. -/
theorem Tidy.modifyRound {f : AgentRound → AgentRound} (h : Tidy run now)
    (hf : ∀ stopped round, AfterEnd now round → Rises now now stopped stopped round (f round)) :
    List.Forall₂ (TaskRises now now) run.tasks (modifyRound i r f run).tasks := by
  refine Lists.forall₂_modify (fun task htask => .refl (h task htask).1 (h task htask).2) ?_
  intro task htask
  obtain ⟨hshaped, hafter⟩ := h task (List.mem_of_getElem? htask)
  have hrises : List.Forall₂ (fun round round' => Rises now now (roundClock task round).stopped
      (roundClock { task with rounds := task.rounds.modify r f } round').stopped round round')
      task.rounds (task.rounds.modify r f) := by
    refine Lists.forall₂_modify (fun round hround => .refl (hafter round hround)) fun round hround => ?_
    have hrise := hf (roundClock task round).stopped round (hafter round (List.mem_of_getElem? hround))
    have hclock : roundClock { task with rounds := task.rounds.modify r f } (f round) =
        roundClock task round := by
      unfold roundClock viewLane
      rw [hrise.lane]
    rw [hclock]
    exact hrise
  refine ⟨hshaped.of_rounds rfl (viewLane_congr rfl) rfl ?_, hrises⟩
  exact exists_of_rises hrises fun _ _ h => ⟨h.role, h.lane⟩

theorem Tidy.sleeps (h : Tidy run now) (hnow : now + secs ≤ now') :
    List.Forall₂ (TaskRises now now') run.tasks (slept run secs now').tasks := by
  refine List.forall₂_map_right_iff.2 (List.forall₂_same.2 fun task htask => ?_)
  obtain ⟨hshaped, hafter⟩ := h task htask
  have hrises : List.Forall₂ (fun round round' => Rises now now' (roundClock task round).stopped
      (roundClock (sleptTask secs now' task) round').stopped round round')
      task.rounds (sleptTask secs now' task).rounds := by
    refine List.forall₂_map_right_iff.2 (List.forall₂_same.2 fun round hround => ?_)
    rw [roundClock_slept]
    exact .sleptRound (hafter round hround) hnow
  refine ⟨hshaped.of_rounds rfl (fun lane => ?_) ?_
    (exists_of_rises hrises fun _ _ h => ⟨h.role, h.lane⟩), hrises⟩
  · unfold viewLane sleptTask mapLanes
    cases lane with
    | none => rfl
    | some lane =>
      cases task.race with
      | none => rfl
      | some race =>
        simp only [Option.map_some, List.any_map]
        rfl
  · unfold Task.crownedLane sleptTask mapLanes
    cases task.race with
    | none => rfl
    | some race =>
      cases hcrowned : race.crowned with
      | false => simp [Option.filter, hcrowned]
      | true =>
        simp only [Option.map_some, Option.filter, hcrowned, if_true, Option.bind_some,
          List.find?_map, Option.map_map]
        rfl

theorem Tidy.works (h : Tidy run now) (hworks : Works run run') (hnow : now ≤ now') :
    List.Forall₂ (TaskRises now now') run.tasks run'.tasks := by
  have hmem := (List.forall₂_and_left (p := (· ∈ run.tasks)) _ _).2 ⟨fun _ h => h, hworks⟩
  refine hmem.imp ?_
  rintro task task' ⟨htask, hshaped, hrounds⟩
  have hmem := (List.forall₂_and_left (p := (· ∈ task.rounds)) _ _).2 ⟨fun _ h => h, hrounds⟩
  refine ⟨hshaped, hmem.imp ?_⟩
  rintro round round' ⟨hround, hsame, hclock⟩
  have hafter := (h task htask).2 round hround
  refine ⟨hsame.role, hsame.lane, ?_, ?_⟩
  · unfold AfterEnd
    rw [hsame.endedAt]
    exact hafter.mono hnow
  · rw [hclock]
    refine roundSpend_mono ?_ hsame.startedAt hsame.excusedSecs
    rw [hsame.endedAt]
    cases round.endedAt with
    | none => exact hnow
    | some last => exact Nat.le_refl _

/-- A new round is the last of its task. -/
theorem Tidy.launchRound (h : Tidy run now)
    (hviewed : ∀ task ∈ run.tasks, viewLane task round.lane ≠ none → task.writes round = false) :
    Tidy (launchRound now i round run) now ∧ ChargedNoLess run now (launchRound now i round run) now := by
  constructor
  · intro task htask
    rcases Lists.mem_modify htask with hold | ⟨old, hold, rfl⟩
    · exact h task hold
    have hmem := List.mem_of_getElem? hold
    obtain ⟨hshaped, hafter⟩ := h old hmem
    refine ⟨⟨hshaped.laneView, fun round' hround' => ?_⟩, fun round' hround' => ?_⟩
    · rcases List.mem_append.1 hround' with hsame | hnew
      · exact hshaped.viewed round' hsame
      · obtain rfl := List.mem_singleton.1 hnew
        exact hviewed old hmem
    · rcases List.mem_append.1 hround' with hsame | hnew
      · exact hafter round' hsame
      · obtain rfl := List.mem_singleton.1 hnew
        exact fun ended hended => by cases hended
  · intro j r task round₀ hround
    obtain ⟨htask, hplace⟩ := roundAt_eq_some.1 hround
    by_cases hij : i = j
    · subst hij
      refine ⟨{ task with rounds := task.rounds ++
          [{ round with ended := false, endedAt := none, startedAt := now, excusedSecs := 0 }] },
        round₀, roundAt_eq_some.2 ⟨?_, ?_⟩, Nat.le_refl _⟩
      · simp [Engine.launchRound, Run.modifyTask, htask]
      · rw [List.getElem?_append_left (List.getElem?_eq_some_iff.1 hplace).1, hplace]
    · refine ⟨task, round₀, roundAt_eq_some.2 ⟨?_, hplace⟩, Nat.le_refl _⟩
      simp [Engine.launchRound, Run.modifyTask, htask, hij]

theorem Tidy.advances (hadvances : Advances ok (run, now) (run', now')) (h : Tidy run now) :
    Tidy run' now' ∧ ChargedNoLess run now run' now' := by
  have hrises : ∀ {run' now'}, List.Forall₂ (TaskRises now now') run.tasks run'.tasks →
      Tidy run' now' ∧ ChargedNoLess run now run' now' := fun h => ⟨.of_rises h, .of_rises h⟩
  cases hadvances with
  | work hworks hnow => exact hrises (h.works hworks hnow)
  | pass => exact hrises h.syncPass
  | sleep hnow => exact hrises (h.sleeps hnow)
  | ends =>
    refine hrises (h.modifyRound fun stopped round hafter => ⟨rfl, rfl, ?_, ?_⟩)
    · exact fun ended hended => (Option.some.inj hended).ge
    · exact roundSpend_mono hafter.le rfl rfl
  | resumes =>
    refine hrises (h.modifyRound fun stopped round hafter => ⟨rfl, rfl, ?_, ?_⟩)
    · exact fun ended hended => by cases hended
    · exact roundSpend_mono hafter.le rfl rfl
  | launches hviewed => exact h.launchRound hviewed

theorem ChargedNoLess.trans {run₂ : Run} {now₂ : ℕ} (h : ChargedNoLess run now run' now')
    (h' : ChargedNoLess run' now' run₂ now₂) : ChargedNoLess run now run₂ now₂ := by
  intro i r task round hround
  obtain ⟨task', round', hround', hle⟩ := h i r task round hround
  obtain ⟨task₂, round₂, hround₂, hle'⟩ := h' i r task' round' hround'
  exact ⟨task₂, round₂, hround₂, hle.trans hle'⟩

/-- No round is excused more than it has lasted, over every sequence of steps in which no
    round is resumed or ended again at a time before its recorded end; and over every sequence
    without a correction, a restart of the daemon and a relaunch, from a time no earlier than
    any recorded end, no round is charged less than before. -/
theorem excused_run :
    (∀ run now run' now', Sound run now →
      ReflTransGen (Ticks AfterEnd) (run, now) (run', now') → Sound run' now') ∧
    ∀ run now run' now', Tidy run now →
      ReflTransGen (Advances fun _ _ => True) (run, now) (run', now') →
        ChargedNoLess run now run' now' := by
  constructor
  · intro run now run' now' hsound hticks
    have hrun : ∀ s, ReflTransGen (Ticks AfterEnd) (run, now) s → Sound s.1 s.2 := by
      intro s hs
      induction hs with
      | refl => exact hsound
      | tail _ htick ih => exact ih.ticks htick
    exact hrun _ hticks
  · intro run now run' now' htidy hadvances
    have hrun : ∀ s, ReflTransGen (Advances fun _ _ => True) (run, now) s →
        Tidy s.1 s.2 ∧ ChargedNoLess run now s.1 s.2 := by
      intro s hs
      induction hs with
      | refl => exact ⟨htidy, fun _ _ task round hround => ⟨task, round, hround, Nat.le_refl _⟩⟩
      | tail _ hstep ih =>
        obtain ⟨htidy, hcharged⟩ := ih.1.advances hstep
        exact ⟨htidy, ih.2.trans hcharged⟩
    exact (hrun _ hadvances).2

/-- A session of `limitedRun` sleeps for a minute and its clock is set back by 20 seconds. -/
theorem excused_run_limited :
    Sound (steppedBack (slept limitedRun 60 160) 20 140) 140 ∧
      ChargedNoLess limitedRun 100 (slept limitedRun 60 160) 160 := by
  have hsleep : Advances (fun _ _ => True) (limitedRun, 100) (slept limitedRun 60 160, 160) :=
    .sleep (by decide)
  refine ⟨excused_run.1 limitedRun 100 _ _ ?_ ?_, excused_run.2 limitedRun 100 _ _ ?_ (.single hsleep)⟩
  · intro task htask round hround
    obtain rfl := List.mem_singleton.1 htask
    obtain rfl := List.mem_singleton.1 hround
    exact ⟨by decide, by decide⟩
  · exact (ReflTransGen.single (.sleep (by decide) (by decide))).tail (.back (by decide))
  · intro task htask
    obtain rfl := List.mem_singleton.1 htask
    refine ⟨⟨rfl, fun round hround hviewed => ?_⟩, fun round hround ended hended => ?_⟩
    · obtain rfl := List.mem_singleton.1 hround
      exact absurd rfl hviewed
    · obtain rfl := List.mem_singleton.1 hround
      cases hended

/-- A session that has just started and can be resumed. -/
def startedRun : Run :=
  modifyRound 0 0 (fun round => { round with sessionId := some "s", lastEvent := 0 }) limitedRun

/-- A session that sleeps 900 seconds, ends at 1000 and is resumed after the clock was set back
    by 500 is excused 900 of 510 seconds. A relaunch and a restart of the daemon take back what
    a session was charged, and so does a sleep told longer than the time since the last event. -/
theorem resumed_excused_more :
    (∃ run, ReflTransGen (Ticks fun _ _ => True) (startedRun, 0) (run, 510) ∧ ¬Sound run 510) ∧
    ¬ChargedNoLess limitedRun 100 (modifyRound 0 0 (relaunchRound 100) limitedRun) 100 ∧
    ¬ChargedNoLess limitedRun 100 (restoreClocks limitedRun) 100 ∧
    ¬ChargedNoLess limitedRun 100 (slept limitedRun 50 120) 120 := by
  have hfalls : ∀ (run run' : Run) (now' : ℕ) (task task' : Task) (round round' : AgentRound),
      roundAt run 0 0 = some (task, round) → roundAt run' 0 0 = some (task', round') →
      charged task' round' now' < charged task round 100 → ¬ChargedNoLess run 100 run' now' := by
    intro run run' now' task task' round round' hround hround' hlt h
    obtain ⟨task₂, round₂, hround₂, hle⟩ := h 0 0 task round hround
    cases hround'.symm.trans hround₂
    exact absurd hle (Nat.not_le.2 hlt)
  have hslept : Ticks (fun _ _ => True) (startedRun, 0) (slept startedRun 900 1000, 1000) :=
    .sleep (by decide) (by decide)
  have hback : ∀ run, Ticks (fun _ _ => True) (run, 1000) (steppedBack run 500 510, 510) :=
    fun _ => .back (by decide)
  refine ⟨⟨_, ((((ReflTransGen.single hslept).tail
    (.advances (.ends (i := 0) (r := 0) rfl trivial))).tail (hback _)).tail
    (.advances (.resumes (i := 0) (r := 0) rfl (by decide) trivial))), ?_⟩, ?_, ?_, ?_⟩
  · intro h
    have hexcused := (h _ (List.mem_cons_self ..) _ (List.mem_cons_self ..)).excused
    revert hexcused
    decide
  · exact hfalls _ _ _ _ _ _ _ rfl rfl (by decide)
  · exact hfalls _ _ _ _ _ _ _ rfl rfl (by decide)
  · exact hfalls _ _ _ _ _ _ _ rfl rfl (by decide)

end Anthrex.Engine
