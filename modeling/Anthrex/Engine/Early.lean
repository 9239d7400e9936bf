import Anthrex.Data.SortedMap
import Anthrex.Quota.Book
import Anthrex.Run.Model

/-!
# Events that come before their window

The engine learns the window of a session from the result of the operation that launched it,
and a fast session can send signals and tool calls before. They are held under their window
while a launch is in flight (`hold`), given on in order when the window is bound (`replay`), and
discarded when the launches are over or the wait was too long (`sweep`), each call then
answered as it is unheld (`run/engine/early.rs`).

The functions that answer a call and apply a signal to its round are parameters (`Handlers`):
they change the runs, and no session loses its window. Every call is answered exactly once, or
is still held: the calls made are, up to order, the calls answered and the calls held
(`early_run`).
-/

namespace Anthrex.Engine

open Anthrex.Run hiding id
open Anthrex.Quota (saturatingAdd)

/-! ## Events -/

inductive FailureKind
  | rateLimit
  | authentication
  | billing
  | sandboxUnavailable
  | clientError
  | other
  deriving DecidableEq, Repr

inductive TurnOutcome
  | completed
  | failed (error : String) (kind : FailureKind)
  | interrupted
  deriving DecidableEq, Repr

structure TokenUsage where
  input : ℕ
  output : ℕ
  cacheRead : ℕ
  cacheWrite : ℕ
  deriving DecidableEq, Repr

/-- What a session's window reports. -/
inductive AgentSignal
  | init (sessionId : String)
  | turnStarted
  | toolUse (name : String) (target : Option String)
  | turnEnded (outcome : TurnOutcome) (usage : Option TokenUsage) (denials : List String)
  | apiRetry (error : String) (delayMs : ℕ)
  | permissionDenied (tool reason : String)
  | subagentStart (agentId : String)
  | subagentStop (agentId : String)
  | spend (usage : TokenUsage)
  | activity
  | processExited (code : Option ℤ) (killedByEngine : Bool) (pid : ℕ)
  | processStarted (pid : ℕ)
  | startupFailed (reason : String)
  | said (text : String)
  | sandboxBroken (note : String)
  deriving DecidableEq, Repr

/-- A tool call of a session. -/
structure ToolCall where
  runId : String
  taskId : Option String
  role : AgentRole
  windowId : ℕ
  tool : String
  args : String
  epic : Option String := none
  deriving DecidableEq, Repr

inductive HeldEvent
  | signal (signal : AgentSignal)
  | tool (reply : ℕ) (call : ToolCall)
  | orch (reply : ℕ) (call : ToolCall) (refusals : List (Runtime × String))
  deriving DecidableEq, Repr

/-- The events of a window, oldest first, each with the time it came at. -/
structure HeldWindow where
  /-- When the first was held. -/
  since : ℕ
  /-- The launches in flight then: the run and the operation. -/
  launches : List (String × ℕ)
  events : List (HeldEvent × ℕ)
  deriving DecidableEq, Repr

def holdCap : ℕ := 256

def holdWindowsCap : ℕ := 64

def holdLimitSecs : ℕ := 30

/-! ## Launches in flight -/

/-- The operation of the round is in flight, and the round waits for its window. -/
def launching (run : Run) (round : AgentRound) : Bool :=
  !run.state.isTerminal && round.windowId.isNone && !round.ended &&
    (run.pendingOps.find? (·.op = round.launchOp)).any (·.kind = .createWindow)

def roundsOf (run : Run) : List AgentRound := run.tasks.flatMap (·.rounds)

def plannerLaunching (run : Run) (epic : EpicRecord) (session : PlannerSession) : Bool :=
  !run.state.isTerminal && epic.phase = .planning && session.windowId.isNone &&
    session.endedAt.isNone && session.op.any fun op =>
      (run.pendingOps.find? (·.op = op)).any (·.kind = .startPlanner)

def plannerLaunches (run : Run) : List ℕ :=
  run.epics.flatMap fun epic =>
    (epic.sessions.filter (plannerLaunching run epic)).filterMap (·.op)

def designAgents (run : Run) : List DesignAgent :=
  run.design.toList.flatMap fun design => design.brainstormers ++ design.reviewer.toList

/-- The operation starts a design agent that runs and waits for its window. -/
def designLaunching (run : Run) (p : PendingOp) : Bool :=
  !run.state.isTerminal &&
    match p.kind with
    | .startDesignAgent label session _ => (designAgents run).any fun a =>
        a.label = label && a.session = session && a.windowId.isNone && a.state = .running
    | _ => false

def designLaunches (run : Run) : List ℕ := (run.pendingOps.filter (designLaunching run)).map (·.op)

/-- The launches in flight of a run. -/
def launchesOf (run : Run) : List ℕ :=
  ((roundsOf run).filter (launching run)).map (·.launchOp) ++ plannerLaunches run ++
    designLaunches run

/-- Every launch in flight, with its run. -/
def inFlight (runs : SortedMap String Run) : List (String × ℕ) :=
  runs.values.flatMap fun run => (launchesOf run).map fun op => (run.id, op)

def stillInFlight (runs : SortedMap String Run) (launch : String × ℕ) : Bool :=
  (runs.get? launch.1).any fun run => launch.2 ∈ launchesOf run

/-- A round of the run has the window. -/
def hasWindow (run : Run) (window : ℕ) : Bool :=
  run.tasks.any fun task => task.rounds.any (·.windowId = some window)

/-- A round, a sub-planner or a design agent has the window. -/
def bound (runs : SortedMap String Run) (window : ℕ) : Bool :=
  runs.values.any fun run => hasWindow run window ||
    run.epics.any (fun epic => epic.sessions.any (·.windowId = some window)) ||
    (designAgents run).any (·.windowId = some window)

/-! ## The engine around them -/

/-- What the engine does with a signal of a round and with a call, to the runs. No session
    loses its window by it. -/
structure Handlers where
  /-- A signal applied to a round, by the places of its task and its round. -/
  apply : Run → ℕ → ℕ → AgentSignal → ℕ → Run
  /-- A call of a worker, a reviewer or a scout answered. -/
  answer : SortedMap String Run → ℕ → ToolCall → ℕ → SortedMap String Run
  /-- A call of the orchestrator's tools answered. -/
  tool : SortedMap String Run → ℕ → ToolCall → List (Runtime × String) → ℕ → SortedMap String Run
  apply_window : ∀ run i r signal now window,
    hasWindow run window → hasWindow (apply run i r signal now) window
  answer_window : ∀ runs reply call now window, runs.values.any (hasWindow · window) →
    (answer runs reply call now).values.any (hasWindow · window)
  tool_window : ∀ runs reply call refusals now window, runs.values.any (hasWindow · window) →
    (tool runs reply call refusals now).values.any (hasWindow · window)

structure EngineState where
  runs : SortedMap String Run := .empty
  pending : SortedMap ℕ HeldWindow := .empty
  /-- The history: each event given to the function that applies or answers it, and the time
      it was given with. -/
  handed : List (HeldEvent × ℕ) := []

/-- Counters only: the first to make room. -/
def evictable : HeldEvent → Bool
  | .signal (.activity) | .signal (.toolUse _ _) | .signal (.said _) => true
  | _ => false

/-- The entry with one more event, the oldest that may go making room; `none` when there is
    no room. -/
def holdIn (held : HeldWindow) (event : HeldEvent) (now : ℕ) : Option HeldWindow :=
  if held.events.length < holdCap then
    some { held with events := held.events ++ [(event, now)] }
  else (held.events.findIdx? fun e => evictable e.1).map fun k =>
    { held with events := held.events.eraseIdx k ++ [(event, now)] }

/-- The event held under its window; `none` when it is not. -/
def hold (s : EngineState) (window : ℕ) (event : HeldEvent) (now : ℕ) : Option EngineState :=
  let launches := inFlight s.runs
  if launches.isEmpty then none
  else if s.pending.get? window = none ∧ holdWindowsCap ≤ s.pending.entries.length then none
  else
    let held := (s.pending.get? window).getD ⟨now, launches, []⟩
    (holdIn held event now).map fun held => { s with pending := s.pending.insert window held }

/-- A signal of a window no round has: held, or dropped. -/
def holdSignal (s : EngineState) (window : ℕ) (signal : AgentSignal) (now : ℕ) : EngineState :=
  (hold s window (.signal signal) now).getD s

variable (h : Handlers)

/-- The places of the round that has the window: the first task with one, and its last. -/
def findWindow (run : Run) (window : ℕ) : Option (ℕ × ℕ) :=
  run.tasks.zipIdx.findSome? fun task =>
    ((task.1.rounds.zipIdx.reverse.find? (·.1.windowId = some window)).map fun round =>
      (task.2, round.2))

/-- A signal, applied to the round that has its window. -/
def onSignal (s : EngineState) (window : ℕ) (signal : AgentSignal) (now : ℕ) : EngineState :=
  let s := { s with handed := s.handed ++ [(HeldEvent.signal signal, now)] }
  match s.runs.entries.findSome? fun e => (findWindow e.2 window).map fun place => (e, place) with
  | some ((key, run), i, r) =>
    { s with runs := s.runs.insert key (h.apply run i r signal now) }
  | none => holdSignal s window signal now

/-- A held call answered as it is now; a signal is dropped. -/
def answerHeld (s : EngineState) (event : HeldEvent) (now : ℕ) : EngineState :=
  match event with
  | .signal _ => s
  | .tool reply call =>
    { s with runs := h.answer s.runs reply call now, handed := s.handed ++ [(event, now)] }
  | .orch reply call refusals =>
    { s with runs := h.tool s.runs reply call refusals now, handed := s.handed ++ [(event, now)] }

/-- The call held, or answered at once. -/
def holdCall (s : EngineState) (reply : ℕ) (call : ToolCall) (now : ℕ) : EngineState :=
  (hold s call.windowId (.tool reply call) now).getD (answerHeld h s (.tool reply call) now)

/-- A sub-planner's or design agent's call held, or answered at once. -/
def holdPlannerCall (s : EngineState) (reply : ℕ) (call : ToolCall)
    (refusals : List (Runtime × String)) (now : ℕ) : EngineState :=
  (hold s call.windowId (.orch reply call refusals) now).getD
    (answerHeld h s (.orch reply call refusals) now)

/-- A call of a worker, a reviewer or a scout waits for its window: no session has it, and a
    round of the caller's role is being launched for its task. -/
def holdsCall (runs : SortedMap String Run) (call : ToolCall) : Bool :=
  let known := match call.role with
    | .worker | .testWriter | .racer => call.tool ∈ ["task_done", "task_blocked", "task_note"]
    | .reviewer => call.tool = "submit_review"
    | .scout => call.tool = "submit_scout_report"
    | _ => false
  known && !bound runs call.windowId && (runs.get? call.runId).any fun run =>
    (call.taskId.bind run.task?).any fun task =>
      task.rounds.any fun round => round.role = call.role && launching run round

/-- The one write of a sub-planner or of a design agent waits for its window. -/
def holdsPlannerCall (runs : SortedMap String Run) (call : ToolCall) : Bool :=
  let write := match call.role with
    | .planner => call.tool = "submit_epic"
    | .brainstormer => call.tool = "submit_doc"
    | .docReviewer => call.tool = "submit_findings"
    | _ => false
  write && !bound runs call.windowId && (runs.get? call.runId).any fun run =>
    match call.role with
    | .planner => ((run.epics.find? fun epic => some epic.epic = call.epic).bind fun epic =>
        epic.sessions.getLast?.map (plannerLaunching run epic)).getD false
    | _ => run.pendingOps.any fun p => designLaunching run p &&
        match p.kind with
        | .startDesignAgent _ _ role => role = call.role
        | _ => false

/-- A session writes its task. -/
def writesTask : AgentRole → Bool
  | .worker | .testWriter | .racer => true
  | _ => false

/-- A worker's, a reviewer's or a scout's call: held for its window in a running run, or
    answered now. -/
def tool (s : EngineState) (reply : ℕ) (call : ToolCall) (now : ℕ) : EngineState :=
  if (s.runs.get? call.runId).any (·.state = .running) && holdsCall s.runs call then
    holdCall h s reply call now
  else answerHeld h s (.tool reply call) now

/-- A call of the orchestrator's tools, by the role of its caller. -/
def orchTool (s : EngineState) (reply : ℕ) (call : ToolCall) (refusals : List (Runtime × String))
    (now : ℕ) : EngineState :=
  if writesTask call.role then tool h s reply call now
  else if holdsPlannerCall s.runs call then holdPlannerCall h s reply call refusals now
  else answerHeld h s (.orch reply call refusals) now

/-- A held event given on, with its own time. -/
def replayEvent (window : ℕ) (s : EngineState) (e : HeldEvent × ℕ) : EngineState :=
  match e.1 with
  | .signal signal => onSignal h s window signal e.2
  | call => answerHeld h s call e.2

/-- The window is bound: its events in order, each with its own time. -/
def replay (s : EngineState) (window : ℕ) : EngineState :=
  if !bound s.runs window then s
  else
    match s.pending.get? window with
    | none => s
    | some held =>
      held.events.foldl (replayEvent h window) { s with pending := s.pending.erase window }

/-- One entry at a step: kept with the launches still in flight, or discarded. -/
def sweepEntry (now : ℕ) (s : EngineState) (entry : ℕ × HeldWindow) : EngineState :=
  let held := { entry.2 with launches := entry.2.launches.filter (stillInFlight s.runs) }
  if !held.launches.isEmpty && now < saturatingAdd held.since holdLimitSecs then
    { s with pending := s.pending.insert entry.1 held }
  else held.events.foldl (fun s e => answerHeld h s e.1 now) s

def sweep (s : EngineState) (now : ℕ) : EngineState :=
  s.pending.entries.foldl (sweepEntry h now) { s with pending := .empty }

/-! ## Runs -/

/-- A step of the engine that the held events take part in. -/
inductive Act
  /-- Whatever else the engine does to the runs. -/
  | other (runs : SortedMap String Run)
  | signal (window : ℕ) (signal : AgentSignal) (now : ℕ)
  | tool (reply : ℕ) (call : ToolCall) (now : ℕ)
  | orchTool (reply : ℕ) (call : ToolCall) (refusals : List (Runtime × String)) (now : ℕ)
  | holdSignal (window : ℕ) (signal : AgentSignal) (now : ℕ)
  | holdCall (reply : ℕ) (call : ToolCall) (now : ℕ)
  | holdPlannerCall (reply : ℕ) (call : ToolCall) (refusals : List (Runtime × String)) (now : ℕ)
  | replay (window : ℕ)
  | sweep (now : ℕ)

def act (s : EngineState) : Act → EngineState
  | .other runs => { s with runs := runs }
  | .signal window signal now => onSignal h s window signal now
  | .tool reply call now => tool h s reply call now
  | .orchTool reply call refusals now => orchTool h s reply call refusals now
  | .holdSignal window signal now => holdSignal s window signal now
  | .holdCall reply call now => holdCall h s reply call now
  | .holdPlannerCall reply call refusals now => holdPlannerCall h s reply call refusals now
  | .replay window => replay h s window
  | .sweep now => sweep h s now

/-- The reply id of a call and the call. -/
def callOf : HeldEvent → Option (ℕ × ToolCall)
  | .signal _ => none
  | .tool reply call | .orch reply call _ => some (reply, call)

/-- The call a step makes. -/
def Act.call : Act → Option (ℕ × ToolCall)
  | .tool reply call _ | .orchTool reply call _ _ | .holdCall reply call _
  | .holdPlannerCall reply call _ _ => some (reply, call)
  | _ => none

/-- The calls answered, in order. -/
def answered (s : EngineState) : List (ℕ × ToolCall) := s.handed.filterMap fun e => callOf e.1

/-- The calls held. -/
def heldCalls (pending : SortedMap ℕ HeldWindow) : List (ℕ × ToolCall) :=
  pending.values.flatMap fun held => held.events.filterMap fun e => callOf e.1

/-- The calls made, as the answered and the held. -/
def ledger (s : EngineState) : Multiset (ℕ × ToolCall) := answered s + heldCalls s.pending

/-- The call of an event, if it is one. -/
def calls (event : HeldEvent) : Multiset (ℕ × ToolCall) := (callOf event).toList

/-! ## One event held -/

variable {h} {s s' : EngineState} {event : HeldEvent} {held held' : HeldWindow}
  {window now : ℕ} {pending : SortedMap ℕ HeldWindow}

/-- The entry has one event more, and where it was full the oldest that may go is gone. -/
structure Grown (held held' : HeldWindow) (e : HeldEvent × ℕ) : Prop where
  since : held'.since = held.since
  launches : held'.launches = held.launches
  events : held.events.length < holdCap ∧ held'.events = held.events ++ [e] ∨
    ∃ k, held.events.findIdx? (fun e => evictable e.1) = some k ∧
      holdCap ≤ held.events.length ∧ held'.events = held.events.eraseIdx k ++ [e]

theorem grown_of_holdIn (h : holdIn held event now = some held') : Grown held held' (event, now) := by
  unfold holdIn at h
  split at h
  · next hroom =>
    cases h
    exact ⟨rfl, rfl, .inl ⟨hroom, rfl⟩⟩
  · next hfull =>
    obtain ⟨k, hk, rfl⟩ := Option.map_eq_some_iff.1 h
    exact ⟨rfl, rfl, .inr ⟨k, hk, Nat.le_of_not_lt hfull, rfl⟩⟩

theorem hold_eq_some (h : hold s window event now = some s') : ∃ held',
    s' = { s with pending := s.pending.insert window held' } ∧
    (s.pending.get? window = none → s.pending.entries.length < holdWindowsCap) ∧
    Grown ((s.pending.get? window).getD ⟨now, inFlight s.runs, []⟩) held' (event, now) := by
  unfold hold at h
  dsimp only at h
  split at h
  · cases h
  split at h
  · cases h
  · next hcap =>
    obtain ⟨held', hheld, rfl⟩ := Option.map_eq_some_iff.1 h
    refine ⟨held', rfl, fun hnone => ?_, grown_of_holdIn hheld⟩
    exact Nat.lt_of_not_le fun hle => hcap ⟨hnone, hle⟩

theorem heldCalls_perm {entries : List (ℕ × HeldWindow)} (h : pending.entries.Perm entries) :
    (heldCalls pending).Perm
      (entries.flatMap fun e => e.2.events.filterMap fun e => callOf e.1) := by
  unfold heldCalls SortedMap.values
  rw [List.flatMap_map]
  exact h.flatMap_right _

/-- An event that may go is no call. -/
theorem callOf_evictable (h : evictable event) : callOf event = none := by
  cases event with
  | signal => rfl
  | tool => cases h
  | orch => cases h

theorem filterMap_eraseIdx {α β : Type*} {f : α → Option β} {l : List α} {k : ℕ}
    (h : ∀ x, l[k]? = some x → f x = none) : (l.eraseIdx k).filterMap f = l.filterMap f := by
  induction l generalizing k with
  | nil => rfl
  | cons x l ih =>
    cases k with
    | zero => rw [List.eraseIdx_zero, List.tail_cons, List.filterMap_cons_none (h x rfl)]
    | succ k => rw [List.eraseIdx_cons_succ, List.filterMap_cons, List.filterMap_cons, ih h]

theorem Grown.filterMap {e : HeldEvent × ℕ} (h : Grown held held' e) :
    held'.events.filterMap (fun e => callOf e.1) =
      held.events.filterMap (fun e => callOf e.1) ++ (callOf e.1).toList := by
  have hlast : [e].filterMap (fun e => callOf e.1) = (callOf e.1).toList := by
    cases hcall : callOf e.1 <;> simp [hcall]
  rcases h.events with ⟨-, heq⟩ | ⟨k, hk, -, heq⟩
  · rw [heq, List.filterMap_append, hlast]
  · rw [heq, List.filterMap_append, hlast, filterMap_eraseIdx]
    intro x hx
    obtain ⟨hlt, hevict, -⟩ := List.findIdx?_eq_some_iff_getElem.1 hk
    obtain ⟨-, rfl⟩ := List.getElem?_eq_some_iff.1 hx
    exact callOf_evictable hevict

theorem Grown.length {e : HeldEvent × ℕ} (h : Grown held held' e)
    (hcap : held.events.length ≤ holdCap) : held'.events.length ≤ holdCap := by
  rcases h.events with ⟨hlt, heq⟩ | ⟨k, hk, -, heq⟩
  · rw [heq, List.length_append]
    exact hlt
  · obtain ⟨hlt, -⟩ := List.findIdx?_eq_some_iff_getElem.1 hk
    rw [heq, List.length_append, List.length_eraseIdx_of_lt hlt, List.length_singleton]
    omega

/-! ## The ledger of calls -/

/-- The calls of an entry's events. -/
def callsIn (events : List (HeldEvent × ℕ)) : Multiset (ℕ × ToolCall) :=
  events.filterMap fun e => callOf e.1

theorem callsIn_cons {e : HeldEvent × ℕ} {events : List (HeldEvent × ℕ)} :
    callsIn (e :: events) = calls e.1 + callsIn events := by
  unfold callsIn calls
  rw [List.filterMap_cons]
  cases callOf e.1 <;> simp

theorem heldCalls_insert :
    (heldCalls (pending.insert window held) : Multiset (ℕ × ToolCall)) =
      callsIn held.events + heldCalls (pending.erase window) := by
  have hperm := heldCalls_perm (SortedMap.perm_insert (m := pending) (k := window) (v := held))
  rw [Multiset.coe_eq_coe.2 hperm, List.flatMap_cons, ← Multiset.coe_add]
  unfold callsIn heldCalls SortedMap.values
  rw [List.flatMap_map]

theorem heldCalls_erase (h : pending.get? window = some held) :
    (heldCalls pending : Multiset (ℕ × ToolCall)) =
      callsIn held.events + heldCalls (pending.erase window) := by
  rw [Multiset.coe_eq_coe.2 (heldCalls_perm (SortedMap.perm_erase h)), List.flatMap_cons,
    ← Multiset.coe_add]
  unfold callsIn heldCalls SortedMap.values
  rw [List.flatMap_map]

theorem Grown.callsIn {e : HeldEvent × ℕ} (h : Grown held held' e) :
    callsIn held'.events = callsIn held.events + calls e.1 := by
  unfold Engine.callsIn calls
  rw [h.filterMap, ← Multiset.coe_add]

theorem ledger_hold (h : hold s window event now = some s') :
    ledger s' = ledger s + calls event := by
  obtain ⟨held', rfl, -, hgrown⟩ := hold_eq_some h
  have hold : (heldCalls s.pending : Multiset (ℕ × ToolCall)) =
      callsIn ((s.pending.get? window).getD ⟨now, inFlight s.runs, []⟩).events +
        heldCalls (s.pending.erase window) := by
    cases hheld : s.pending.get? window with
    | none =>
      rw [SortedMap.erase_eq_self hheld]
      exact (zero_add _).symm
    | some held => exact heldCalls_erase hheld
  show (answered s : Multiset (ℕ × ToolCall)) + _ = _
  rw [heldCalls_insert, hgrown.callsIn]
  unfold ledger
  rw [hold]
  abel

theorem ledger_answerHeld : ledger (answerHeld h s event now) = ledger s + calls event := by
  cases event with
  | signal signal => exact (add_zero _).symm
  | tool reply call =>
    simp only [ledger, answerHeld, answered, List.filterMap_append, ← Multiset.coe_add]
    exact add_right_comm _ _ _
  | orch reply call refusals =>
    simp only [ledger, answerHeld, answered, List.filterMap_append, ← Multiset.coe_add]
    exact add_right_comm _ _ _

theorem ledger_holdSignal {signal : AgentSignal} :
    ledger (holdSignal s window signal now) = ledger s := by
  unfold holdSignal
  cases hhold : hold s window (.signal signal) now with
  | none => rfl
  | some s' => exact (ledger_hold hhold).trans (add_zero _)

theorem ledger_onSignal {signal : AgentSignal} :
    ledger (onSignal h s window signal now) = ledger s := by
  have hlog : ledger { s with handed := s.handed ++ [(.signal signal, now)] } = ledger s := by
    simp [ledger, answered, callOf]
  unfold onSignal
  dsimp only
  split
  · exact hlog
  · exact ledger_holdSignal.trans hlog

theorem ledger_holdOr (hhold : ledger s' = ledger s + calls event) :
    ledger ((hold s window event now).getD s') = ledger s + calls event := by
  cases h : hold s window event now with
  | none => exact hhold
  | some s' => exact ledger_hold h

theorem ledger_replayEvent {e : HeldEvent × ℕ} :
    ledger (replayEvent h window s e) = ledger s + calls e.1 := by
  obtain ⟨event, time⟩ := e
  cases event with
  | signal signal => exact ledger_onSignal.trans (add_zero _).symm
  | tool => exact ledger_answerHeld
  | orch => exact ledger_answerHeld

/-- What one event adds, event after event. -/
theorem ledger_foldl {f : EngineState → HeldEvent × ℕ → EngineState}
    (hf : ∀ s e, ledger (f s e) = ledger s + calls e.1) (events : List (HeldEvent × ℕ)) :
    ledger (events.foldl f s) = ledger s + callsIn events := by
  induction events generalizing s with
  | nil => exact (add_zero _).symm
  | cons e events ih =>
    rw [List.foldl_cons, ih, hf, callsIn_cons, add_assoc]

theorem ledger_replay : ledger (replay h s window) = ledger s := by
  unfold replay
  split
  · rfl
  split
  · rfl
  · next held hheld =>
    rw [ledger_foldl fun _ _ => ledger_replayEvent]
    unfold ledger
    rw [heldCalls_erase hheld]
    show (answered s : Multiset (ℕ × ToolCall)) + _ + _ = _
    abel

theorem ledger_sweepEntry {entry : ℕ × HeldWindow} (hnew : s.pending.get? entry.1 = none) :
    ledger (sweepEntry h now s entry) = ledger s + callsIn entry.2.events := by
  unfold sweepEntry
  dsimp only
  split
  · unfold ledger
    rw [heldCalls_insert, SortedMap.erase_eq_self hnew]
    show (answered s : Multiset (ℕ × ToolCall)) + _ = _
    abel
  · exact ledger_foldl (fun _ _ => ledger_answerHeld) _

@[simp] theorem pending_answerHeld : (answerHeld h s event now).pending = s.pending := by
  cases event <;> rfl

theorem pending_foldl_answerHeld (events : List (HeldEvent × ℕ)) :
    (events.foldl (fun s e => answerHeld h s e.1 now) s).pending = s.pending := by
  induction events generalizing s with
  | nil => rfl
  | cons e events ih => rw [List.foldl_cons, ih, pending_answerHeld]

/-- An entry is kept as long as a launch of its is in flight and its time is not over. -/
theorem pending_sweepEntry {entry : ℕ × HeldWindow} :
    (sweepEntry h now s entry).pending = s.pending ∨
      ∃ launches, launches ≠ [] ∧ now < entry.2.since + holdLimitSecs ∧
        (sweepEntry h now s entry).pending =
          s.pending.insert entry.1 { entry.2 with launches := launches } := by
  unfold sweepEntry
  dsimp only
  split
  · next hkept =>
    obtain ⟨hlaunches, htime⟩ := Bool.and_eq_true_iff.1 hkept
    refine .inr ⟨_, by simpa using hlaunches, ?_, rfl⟩
    exact (of_decide_eq_true htime).trans_le (Nat.min_le_left ..)
  · exact .inl (pending_foldl_answerHeld _)

/-- What the sweep has kept is what it has kept of the entries so far. -/
theorem sweep_foldl {entries : List (ℕ × HeldWindow)} (hsorted : entries.Pairwise fun a b => a.1 < b.1)
    (hnew : ∀ e ∈ entries, s.pending.get? e.1 = none) :
    ledger (entries.foldl (sweepEntry h now) s) =
      ledger s + callsIn (entries.flatMap fun e => e.2.events) := by
  induction entries generalizing s with
  | nil => exact (add_zero _).symm
  | cons entry entries ih =>
    obtain ⟨hfirst, hsorted⟩ := List.pairwise_cons.1 hsorted
    have hrest : ∀ e ∈ entries, (sweepEntry h now s entry).pending.get? e.1 = none := by
      intro e he
      have hnone := hnew e (List.mem_cons_of_mem _ he)
      have hpending : (sweepEntry h now s entry).pending = s.pending ∨ _ := pending_sweepEntry
      rcases hpending with heq | ⟨launches, -, -, heq⟩
      · rw [heq, hnone]
      · rw [heq, SortedMap.get?_insert_of_ne (hfirst e he).ne', hnone]
    rw [List.foldl_cons, ih hsorted hrest, ledger_sweepEntry (hnew entry (List.mem_cons_self ..)),
      List.flatMap_cons, add_assoc]
    congr 1
    unfold callsIn
    rw [List.filterMap_append, ← Multiset.coe_add]

theorem coe_heldCalls : (heldCalls pending : Multiset (ℕ × ToolCall)) =
    callsIn (pending.entries.flatMap fun e => e.2.events) := by
  unfold heldCalls callsIn SortedMap.values
  rw [List.filterMap_flatMap, List.flatMap_map]

theorem ledger_sweep : ledger (sweep h s now) = ledger s := by
  unfold sweep
  rw [sweep_foldl s.pending.sorted fun _ _ => rfl]
  unfold ledger
  rw [← coe_heldCalls]
  exact congrArg (· + _) (add_zero _)

/-- A step makes its call, and answers or holds it. -/
theorem ledger_act (a : Act) : ledger (act h s a) = ledger s + a.call.toList := by
  have htool : ∀ reply call now, ledger (tool h s reply call now) =
      ledger s + calls (.tool reply call) := by
    intro reply call now
    unfold tool
    split
    · exact ledger_holdOr ledger_answerHeld
    · exact ledger_answerHeld
  cases a with
  | other runs => exact (add_zero _).symm
  | signal window signal now => exact ledger_onSignal.trans (add_zero _).symm
  | tool reply call now => exact htool reply call now
  | orchTool reply call refusals now =>
    show ledger (orchTool h s reply call refusals now) = _
    unfold orchTool
    split
    · exact htool reply call now
    split
    · exact ledger_holdOr ledger_answerHeld
    · exact ledger_answerHeld
  | holdSignal window signal now => exact ledger_holdSignal.trans (add_zero _).symm
  | holdCall reply call now => exact ledger_holdOr ledger_answerHeld
  | holdPlannerCall reply call refusals now => exact ledger_holdOr ledger_answerHeld
  | replay window => exact ledger_replay.trans (add_zero _).symm
  | sweep now => exact ledger_sweep.trans (add_zero _).symm

/-! ## The caps -/

structure Capped (pending : SortedMap ℕ HeldWindow) : Prop where
  windows : pending.entries.length ≤ holdWindowsCap
  events : ∀ e ∈ pending.entries, e.2.events.length ≤ holdCap

theorem Capped.hold (hcapped : Capped s.pending) (h : hold s window event now = some s') :
    Capped s'.pending := by
  obtain ⟨held', rfl, hroom, hgrown⟩ := hold_eq_some h
  have hlength := (SortedMap.perm_insert (m := s.pending) (k := window) (v := held')).length_eq
  have hwindows := hcapped.windows
  refine ⟨?_, fun e he => ?_⟩
  · show (s.pending.insert window held').entries.length ≤ _
    rw [hlength, List.length_cons]
    cases hheld : s.pending.get? window with
    | none =>
      rw [SortedMap.erase_eq_self hheld]
      exact hroom hheld
    | some held =>
      have herase := (SortedMap.perm_erase hheld).length_eq
      rw [List.length_cons] at herase
      omega
  · rcases SortedMap.mem_insert.1 he with rfl | ⟨-, he⟩
    · refine hgrown.length ?_
      cases hheld : s.pending.get? window with
      | none => exact Nat.zero_le _
      | some held => exact hcapped.events _ (SortedMap.get?_eq_some_iff.1 hheld)
    · exact hcapped.events e he

theorem Capped.erase (hcapped : Capped pending) : Capped (pending.erase window) where
  windows := (List.length_filter_le _ _).trans hcapped.windows
  events e he := hcapped.events e (SortedMap.mem_erase.1 he).1

theorem Capped.holdSignal {signal : AgentSignal} (hcapped : Capped s.pending) :
    Capped (holdSignal s window signal now).pending := by
  unfold Engine.holdSignal
  cases hhold : Engine.hold s window (.signal signal) now with
  | none => exact hcapped
  | some s' => exact hcapped.hold hhold

theorem Capped.onSignal {signal : AgentSignal} (hcapped : Capped s.pending) :
    Capped (onSignal h s window signal now).pending := by
  unfold Engine.onSignal
  dsimp only
  split
  · exact hcapped
  · exact Capped.holdSignal hcapped

theorem Capped.replay (hcapped : Capped s.pending) : Capped (replay h s window).pending := by
  unfold Engine.replay
  split
  · exact hcapped
  split
  · exact hcapped
  · refine List.foldlRecOn (motive := fun s : EngineState => Capped s.pending) _ _ hcapped.erase ?_
    intro s hs e _
    obtain ⟨event, time⟩ := e
    cases event with
    | signal signal => exact Capped.onSignal hs
    | tool => exact hs
    | orch => exact hs

/-- What the sweep keeps: an entry with a launch in flight, whose time is not over. -/
theorem mem_pending_sweep {e : ℕ × HeldWindow} (he : e ∈ (sweep h s now).pending.entries) :
    ∃ held launches, (e.1, held) ∈ s.pending.entries ∧ launches ≠ [] ∧
      now < held.since + holdLimitSecs ∧ e.2 = { held with launches := launches } := by
  have hfold : ∀ e ∈ (sweep h s now).pending.entries, ∃ held launches,
      (e.1, held) ∈ s.pending.entries ∧ launches ≠ [] ∧ now < held.since + holdLimitSecs ∧
        e.2 = { held with launches := launches } := by
    refine List.foldlRecOn (motive := fun s' : EngineState => ∀ e ∈ s'.pending.entries,
      ∃ held launches, (e.1, held) ∈ s.pending.entries ∧ launches ≠ [] ∧
        now < held.since + holdLimitSecs ∧ e.2 = { held with launches := launches }) _ _ ?_ ?_
    · exact fun e he => absurd he SortedMap.not_mem_empty
    · intro s' hs' entry hentry e he
      have hpending : (sweepEntry h now s' entry).pending = s'.pending ∨ _ := pending_sweepEntry
      rcases hpending with heq | ⟨launches, hlaunches, htime, heq⟩
      · exact hs' e (heq ▸ he)
      · rw [heq, SortedMap.mem_insert] at he
        rcases he with rfl | ⟨-, he⟩
        · exact ⟨entry.2, launches, hentry, hlaunches, htime, rfl⟩
        · exact hs' e he
  exact hfold e he

theorem Capped.sweep (hcapped : Capped s.pending) : Capped (sweep h s now).pending := by
  refine ⟨?_, fun e he => ?_⟩
  · have hkeys : (Engine.sweep h s now).pending.keys ⊆ s.pending.keys := by
      intro key hkey
      obtain ⟨e, he, rfl⟩ := List.mem_map.1 hkey
      obtain ⟨held, -, hheld, -⟩ := mem_pending_sweep he
      exact List.mem_map.2 ⟨_, hheld, rfl⟩
    have hnodup : (Engine.sweep h s now).pending.keys.Nodup :=
      List.pairwise_map.2 ((Engine.sweep h s now).pending.sorted.imp fun hlt => hlt.ne)
    have hlength := (hnodup.subperm hkeys).length_le
    unfold SortedMap.keys at hlength
    rw [List.length_map, List.length_map] at hlength
    exact hlength.trans hcapped.windows
  · obtain ⟨held, launches, hheld, -, -, heq⟩ := mem_pending_sweep he
    rw [heq]
    exact hcapped.events _ hheld

theorem Capped.holdOr (hcapped : Capped s.pending) :
    Capped ((Engine.hold s window event now).getD (answerHeld h s event now)).pending := by
  cases hhold : Engine.hold s window event now with
  | none =>
    rw [Option.getD_none, pending_answerHeld]
    exact hcapped
  | some s' => exact hcapped.hold hhold

theorem Capped.tool {reply : ℕ} {call : ToolCall} (hcapped : Capped s.pending) :
    Capped (tool h s reply call now).pending := by
  unfold Engine.tool
  split
  · exact hcapped.holdOr
  · exact hcapped

theorem Capped.act (hcapped : Capped s.pending) (a : Act) : Capped (act h s a).pending := by
  cases a with
  | other => exact hcapped
  | signal => exact Capped.onSignal hcapped
  | tool => exact Capped.tool hcapped
  | orchTool reply call refusals now =>
    show Capped (Engine.orchTool h s reply call refusals now).pending
    unfold Engine.orchTool
    split
    · exact Capped.tool hcapped
    split
    · exact hcapped.holdOr
    · exact hcapped
  | holdSignal => exact Capped.holdSignal hcapped
  | holdCall => exact hcapped.holdOr
  | holdPlannerCall => exact hcapped.holdOr
  | replay => exact Capped.replay hcapped
  | sweep => exact Capped.sweep hcapped

/-! ## What a replay gives on -/

theorem handed_holdSignal {signal : AgentSignal} :
    (holdSignal s window signal now).handed = s.handed := by
  unfold holdSignal
  cases hhold : hold s window (.signal signal) now with
  | none => rfl
  | some s' =>
    obtain ⟨held', rfl, -⟩ := hold_eq_some hhold
    rfl

theorem handed_replayEvent {e : HeldEvent × ℕ} :
    (replayEvent h window s e).handed = s.handed ++ [e] := by
  obtain ⟨event, time⟩ := e
  cases event with
  | signal signal =>
    show (onSignal h s window signal time).handed = _
    unfold onSignal
    dsimp only
    split
    · rfl
    · exact handed_holdSignal
  | tool => rfl
  | orch => rfl

theorem handed_foldl (events : List (HeldEvent × ℕ)) :
    (events.foldl (replayEvent h window) s).handed = s.handed ++ events := by
  induction events generalizing s with
  | nil => exact (List.append_nil _).symm
  | cons e events ih =>
    rw [List.foldl_cons, ih, handed_replayEvent, List.append_assoc, List.singleton_append]

theorem findWindow_isSome {run : Run} : (findWindow run window).isSome ↔ hasWindow run window := by
  unfold findWindow hasWindow
  rw [List.findSome?_isSome_iff, List.any_eq_true]
  constructor
  · rintro ⟨⟨task, i⟩, htask, hround⟩
    rw [Option.isSome_map, List.find?_isSome] at hround
    obtain ⟨⟨round, r⟩, hround, heq⟩ := hround
    have htask := List.mem_of_getElem? (List.mem_zipIdx_iff_getElem?.1 htask)
    have hround := List.mem_of_getElem? (List.mem_zipIdx_iff_getElem?.1 (List.mem_reverse.1 hround))
    exact ⟨task, htask, List.any_eq_true.2 ⟨round, hround, heq⟩⟩
  · rintro ⟨task, htask, hround⟩
    obtain ⟨round, hround, heq⟩ := List.any_eq_true.1 hround
    obtain ⟨i, hi⟩ := List.mem_iff_getElem?.1 htask
    obtain ⟨r, hr⟩ := List.mem_iff_getElem?.1 hround
    refine ⟨(task, i), List.mem_zipIdx_iff_getElem?.2 hi, ?_⟩
    rw [Option.isSome_map, List.find?_isSome]
    exact ⟨(round, r), List.mem_reverse.2 (List.mem_zipIdx_iff_getElem?.2 hr), heq⟩

/-- A signal of a window that a round has is applied to it, and the round keeps its window. -/
theorem onSignal_of_hasWindow {signal : AgentSignal}
    (hwindow : s.runs.values.any (hasWindow · window)) :
    (onSignal h s window signal now).pending = s.pending ∧
      (onSignal h s window signal now).runs.values.any (hasWindow · window) := by
  unfold onSignal
  dsimp only
  split
  · next key run i r hfound =>
    obtain ⟨e, -, hplace⟩ := List.exists_of_findSome?_eq_some hfound
    obtain ⟨place, hplace, heq⟩ := Option.map_eq_some_iff.1 hplace
    cases heq
    have hrun : hasWindow run window := findWindow_isSome.1 (by rw [hplace]; rfl)
    refine ⟨rfl, List.any_eq_true.2 ⟨_, List.mem_map.2 ⟨_, SortedMap.mem_insert.2 (.inl rfl), rfl⟩, ?_⟩⟩
    exact h.apply_window run i r signal now window hrun
  · next hnone =>
    -- the round that has the window is found
    obtain ⟨run, hrun, hwindow⟩ := List.any_eq_true.1 hwindow
    obtain ⟨e, he, rfl⟩ := List.mem_map.1 hrun
    have hfound := List.findSome?_eq_none_iff.1 hnone e he
    rw [Option.map_eq_none_iff] at hfound
    have hsome := findWindow_isSome.2 hwindow
    rw [hfound] at hsome
    cases hsome

theorem replay_of_hasWindow (hwindow : s.runs.values.any (hasWindow · window)) :
    (replay h s window).pending = s.pending.erase window := by
  have hbound : bound s.runs window := by
    obtain ⟨run, hrun, hwindow⟩ := List.any_eq_true.1 hwindow
    exact List.any_eq_true.2 ⟨run, hrun, by simp [hwindow]⟩
  unfold replay
  rw [hbound, Bool.not_true, if_neg Bool.false_ne_true]
  split
  · next hnone => exact (SortedMap.erase_eq_self hnone).symm
  · next held _ =>
    let s₀ : EngineState := { s with pending := s.pending.erase window }
    have hstart : s₀.pending = s.pending.erase window ∧ s₀.runs.values.any (hasWindow · window) :=
      ⟨rfl, hwindow⟩
    refine (List.foldlRecOn (motive := fun s' : EngineState =>
      s'.pending = s.pending.erase window ∧ s'.runs.values.any (hasWindow · window))
      held.events (replayEvent h window) hstart ?_).1
    intro s' ⟨hpending, hwindow⟩ e _
    obtain ⟨event, time⟩ := e
    cases event with
    | signal signal =>
      obtain ⟨hsame, hkept⟩ := onSignal_of_hasWindow (h := h) hwindow
      exact ⟨hsame.trans hpending, hkept⟩
    | tool reply call => exact ⟨hpending, h.answer_window _ _ _ _ _ hwindow⟩
    | orch reply call refusals => exact ⟨hpending, h.tool_window _ _ _ _ _ _ hwindow⟩

/-! ## What is held stays held -/

/-- The step neither replays the window nor sweeps. -/
def Spares (window : ℕ) : Act → Prop
  | .replay w => w ≠ window
  | .sweep _ => False
  | _ => True

/-- An entry as it is, or with one event more. -/
def Retained (held held' : HeldWindow) : Prop := held' = held ∨ ∃ e, Grown held held' e

theorem kept_hold {w : ℕ} (hheld : s.pending.get? window = some held)
    (h : hold s w event now = some s') :
    ∃ held', s'.pending.get? window = some held' ∧ Retained held held' ∧ (w ≠ window → held' = held) := by
  obtain ⟨held', rfl, -, hgrown⟩ := hold_eq_some h
  by_cases hw : window = w
  · subst hw
    rw [hheld] at hgrown
    exact ⟨held', SortedMap.get?_insert_self, .inr ⟨_, hgrown⟩, fun hne => absurd rfl hne⟩
  · exact ⟨held, (SortedMap.get?_insert_of_ne hw).trans hheld, .inl rfl, fun _ => rfl⟩

theorem kept_holdOr {w : ℕ} (hheld : s.pending.get? window = some held)
    (hs' : s'.pending = s.pending) : ∃ held',
    ((hold s w event now).getD s').pending.get? window = some held' ∧ Retained held held' ∧
      (w ≠ window → held' = held) := by
  cases hhold : hold s w event now with
  | none => exact ⟨held, by rw [Option.getD_none, hs', hheld], .inl rfl, fun _ => rfl⟩
  | some s' => exact kept_hold hheld hhold

theorem kept_onSignal {w : ℕ} {signal : AgentSignal} (hheld : s.pending.get? window = some held) :
    ∃ held', (onSignal h s w signal now).pending.get? window = some held' ∧ Retained held held' ∧
      (w ≠ window → held' = held) := by
  unfold onSignal
  dsimp only
  split
  · exact ⟨held, hheld, .inl rfl, fun _ => rfl⟩
  · exact kept_holdOr hheld rfl

theorem kept_tool {reply : ℕ} {call : ToolCall} (hheld : s.pending.get? window = some held) :
    ∃ held', (tool h s reply call now).pending.get? window = some held' ∧ Retained held held' := by
  unfold tool
  split
  · obtain ⟨held', hheld', hkept, -⟩ := kept_holdOr hheld pending_answerHeld
    exact ⟨held', hheld', hkept⟩
  · exact ⟨held, hheld, .inl rfl⟩

theorem get?_replay {w : ℕ} (hw : w ≠ window) (hheld : s.pending.get? window = some held) :
    (replay h s w).pending.get? window = some held := by
  unfold replay
  split
  · exact hheld
  split
  · exact hheld
  · refine List.foldlRecOn (motive := fun s : EngineState => s.pending.get? window = some held)
      _ _ ?_ ?_
    · show (s.pending.erase w).get? window = _
      rw [SortedMap.get?_erase, if_neg hw.symm, hheld]
    · intro s hs e _
      obtain ⟨event, time⟩ := e
      cases event with
      | signal signal =>
        obtain ⟨held', hheld', -, heq⟩ := kept_onSignal (h := h) (w := w) hs
        rw [heq hw] at hheld'
        exact hheld'
      | tool => exact hs
      | orch => exact hs

theorem kept_act {a : Act} (hspares : Spares window a) (hheld : s.pending.get? window = some held) :
    ∃ held', (act h s a).pending.get? window = some held' ∧ Retained held held' := by
  have hhold : ∀ {w event now s'}, s'.pending = s.pending → ∃ held',
      ((hold s w event now).getD s').pending.get? window = some held' ∧ Retained held held' := by
    intro w event now s' hs'
    obtain ⟨held', hheld', hkept, -⟩ := kept_holdOr (w := w) hheld hs'
    exact ⟨held', hheld', hkept⟩
  cases a with
  | other => exact ⟨held, hheld, .inl rfl⟩
  | signal w signal now =>
    obtain ⟨held', hheld', hkept, -⟩ := kept_onSignal (h := h) (w := w) hheld
    exact ⟨held', hheld', hkept⟩
  | tool => exact kept_tool hheld
  | orchTool reply call refusals now =>
    show ∃ held', (orchTool h s reply call refusals now).pending.get? window = some held' ∧ _
    unfold orchTool
    split
    · exact kept_tool hheld
    split
    · exact hhold pending_answerHeld
    · exact ⟨held, hheld, .inl rfl⟩
  | holdSignal => exact hhold rfl
  | holdCall => exact hhold pending_answerHeld
  | holdPlannerCall => exact hhold pending_answerHeld
  | replay w => exact ⟨held, get?_replay hspares hheld, .inl rfl⟩
  | sweep => exact absurd hspares not_false

/-! ## Every run -/

theorem ledger_run (acts : List Act) :
    ledger (acts.foldl (act h) s) = ledger s + (acts.filterMap Act.call : List (ℕ × ToolCall)) := by
  induction acts generalizing s with
  | nil => exact (add_zero _).symm
  | cons a acts ih =>
    rw [List.foldl_cons, ih, ledger_act, add_assoc, Multiset.coe_add, List.filterMap_cons]
    cases a.call <;> rfl

theorem capped_run (hcapped : Capped s.pending) (acts : List Act) :
    Capped (acts.foldl (act h) s).pending :=
  List.foldlRecOn (motive := fun s : EngineState => Capped s.pending) _ _ hcapped
    fun _ hs a _ => hs.act a

/-- Whatever the engine does, from no event held: every call made is answered, once, or held;
    the caps hold; a sweep leaves no entry whose time is over; a replay gives on the events of
    its window in order with their own times, and none of a round's window is held again; and
    no other step takes an event from a window but the oldest that may go, from a full one. -/
theorem early_run (h : Handlers) (runs : SortedMap String Run) (acts : List Act) :
    let s := acts.foldl (act h) { runs := runs }
    (acts.filterMap Act.call).Perm (answered s ++ heldCalls s.pending) ∧
    Capped s.pending ∧
    (∀ now, ∀ e ∈ (sweep h s now).pending.entries,
      e.2.launches ≠ [] ∧ now < e.2.since + holdLimitSecs) ∧
    (∀ window held, bound s.runs window → s.pending.get? window = some held →
      (replay h s window).handed = s.handed ++ held.events ∧
        (s.runs.values.any (hasWindow · window) →
          (replay h s window).pending = s.pending.erase window)) ∧
    ∀ a window held, Spares window a → s.pending.get? window = some held →
      ∃ held', (act h s a).pending.get? window = some held' ∧ Retained held held' := by
  intro s
  refine ⟨?_, ?_, ?_, ?_, fun a window held => kept_act⟩
  · have hledger : ledger s = _ := ledger_run (s := { runs := runs }) acts
    have hempty : ledger { runs := runs } = 0 := rfl
    rw [hempty, zero_add] at hledger
    exact Multiset.coe_eq_coe.1 hledger.symm
  · exact capped_run ⟨Nat.zero_le _, fun e he => absurd he SortedMap.not_mem_empty⟩ acts
  · intro now e he
    obtain ⟨held, launches, -, hlaunches, htime, heq⟩ := mem_pending_sweep he
    rw [heq]
    exact ⟨hlaunches, htime⟩
  · intro window held hbound hheld
    refine ⟨?_, replay_of_hasWindow⟩
    unfold replay
    rw [hbound, Bool.not_true, if_neg Bool.false_ne_true, hheld]
    exact handed_foldl held.events

/-- A session of `r` that is being launched, or has its window. -/
def launchedRun (window : Option ℕ) : SortedMap String Run where
  entries := [("r", {
    id := "r"
    state := .running
    limits := { maxTasks := 1, models := { rows := fun _ => ⟨⟨.claude, none⟩, none, none⟩ } }
    pendingOps := [⟨1, some "t", .createWindow⟩]
    tasks := [
      { spec := { id := "t", owns := ["src/**"] }
        route := ⟨.claude, "", ""⟩
        rounds := [
          { role := .worker, route := ⟨.claude, "", ""⟩, launchOp := 1, windowId := window }] }] })]
  sorted := List.pairwise_singleton ..

def idle : Handlers where
  apply run _ _ _ _ := run
  answer runs _ _ _ := runs
  tool runs _ _ _ _ := runs
  apply_window _ _ _ _ _ _ h := h
  answer_window _ _ _ _ _ h := h
  tool_window _ _ _ _ _ _ h := h

def doneCall : ToolCall := ⟨"r", some "t", .worker, 7, "task_done", "", none⟩

/-- The session finishes its turn before its window is known. -/
def earlyActs : List Act :=
  [.tool 1 doneCall 10, .signal 7 (.processExited none false 5) 11, .other (launchedRun (some 7))]

theorem early_run_bound :
    let s := earlyActs.foldl (act idle) { runs := launchedRun none }
    bound s.runs 7 ∧ (s.pending.get? 7).isSome ∧
      (replay idle s 7).handed = s.handed ++
        [(.tool 1 doneCall, 10), (.signal (.processExited none false 5), 11)] := by
  refine ⟨by decide, by decide, ?_⟩
  exact ((early_run idle (launchedRun none) earlyActs).2.2.2.1 7
    ⟨10, [("r", 1)], [(.tool 1 doneCall, 10), (.signal (.processExited none false 5), 11)]⟩
    (by decide) (by decide)).1

end Anthrex.Engine
