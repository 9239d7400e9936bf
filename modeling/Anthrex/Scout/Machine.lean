import Anthrex.Engine.Early
import Anthrex.Quota.Book
import Anthrex.Run.Task
import Mathlib.Data.List.Infix

/-!
# The life of a scout

The machine that drives a scout's session, or a sub-planner's (`scout/machine.rs`): the events of
the session and of a clock in, the messages to send, the kill and the outcome out.

* `scout_run`: so long as a session keeps `Within` its limits it runs and is told `messages`; the
  first event beyond them ends it with the `verdict` of that event, and nothing after changes that;
* `usage_run`: every turn's tokens are counted, the turns after the end too.
-/

namespace Anthrex.Scouts

open List
open Anthrex.Engine (TokenUsage)
open Anthrex.Quota (saturatingAdd)
open Anthrex.Run (Runtime)

/-! ## Texts -/

def minute : ℕ := 60

def hour : ℕ := 60 * minute

def day : ℕ := 24 * hour

/-- A number with at least two digits. -/
def twoDigits (n : ℕ) : String := if n < 10 then s!"0{n}" else toString n

/-- A span in two units, the second padded. -/
def duration (secs : ℕ) : String :=
  if secs < minute then s!"{secs}s"
  else if secs < hour then s!"{secs / minute}m {twoDigits (secs % minute)}s"
  else if secs < day then s!"{secs / hour}h {twoDigits (secs % hour / minute)}m"
  else s!"{secs / day}d {twoDigits (secs % day / hour)}h"

/-- What the machine says, and which tool is the session's submission. -/
structure MachineTexts where
  nudge : String
  wrapUp : ℕ → String
  submitTool : String
  noun : String
  /-- What a failed session never delivered. -/
  missing : String

def scoutNudge : String :=
  "[anthrex] Your turn ended without a report. Call submit_scout_report now with what you found, " ++
    "then stop."

def scoutWrapUp (toolCalls : ℕ) : String :=
  s!"[anthrex] You have used {toolCalls} tool calls. Stop exploring and call submit_scout_report " ++
    "now with what you found."

def plannerNudge : String :=
  "[anthrex] Your turn ended without an accepted epic. Call submit_epic now with every edit, then " ++
    "stop."

def plannerWrapUp (n : ℕ) : String :=
  s!"[anthrex] You have used {n} tool calls. Stop reading and call submit_epic now with the tasks " ++
    "you have."

def scoutTexts : MachineTexts where
  nudge := scoutNudge
  wrapUp := scoutWrapUp
  submitTool := "mcp__anthrex__submit_scout_report"
  noun := "the scout"
  missing := "a report"

def plannerTexts : MachineTexts where
  nudge := plannerNudge
  wrapUp := plannerWrapUp
  submitTool := "mcp__anthrex__submit_epic"
  noun := "the sub-planner"
  missing := "an accepted epic"

structure ScoutLimits where
  timeoutSecs : ℕ
  maxToolCalls : ℕ
  /-- Whether the runtime takes a message while a turn runs. -/
  sendMidTurn : Bool
  /-- Whether a turn that ends without the submission is answered with the nudge. -/
  nudges : Bool
  texts : MachineTexts

/-- The limits of a scout on `runtime`. -/
def ScoutLimits.new (timeoutSecs maxToolCalls : ℕ) (runtime : Runtime) : ScoutLimits where
  timeoutSecs
  maxToolCalls
  sendMidTurn := runtime = .claude
  nudges := true
  texts := scoutTexts

/-! ## The machine -/

inductive ScoutState
  | starting
  | working
  | reported
  | failed
  deriving DecidableEq, Repr

structure ScoutMachine where
  state : ScoutState := .starting
  startedAt : ℕ := 0
  turnsWithoutReport : ℕ := 0
  toolCalls : ℕ := 0
  wrapUpSent : Bool := false
  /-- The wrap-up is owed at the next turn's end. -/
  wrapUpPending : Bool := false
  usage : TokenUsage := ⟨0, 0, 0, 0⟩
  failure : Option String := none
  /-- The first sign that the sandbox could not run a command. -/
  sandboxNote : Option String := none
  unsubmitted : Bool := false
  deriving DecidableEq, Repr

inductive ScoutEvent
  | start (now : ℕ)
  | turnEnded (usage : Option TokenUsage)
  | toolUse
  | exited (code : Option ℤ)
  | startupFailed (reason : String)
  | sandboxBroken (note : String)
  | reportAccepted
  | tick (now : ℕ)
  | stop
  | halt (reason : String)
  deriving DecidableEq, Repr

inductive ScoutEffect
  | send (text : String)
  | kill
  | closeStdin
  | killAfter (secs : ℕ)
  | removeAfter (secs : ℕ)
  | finished (result : Except String Unit)
  deriving DecidableEq, Repr

def interruptGrace : ℕ := 30

def retireAfter : ℕ := 30

/-- The failure of a session that is not nudged. -/
def MachineTexts.unsubmitted (t : MachineTexts) : String := s!"{t.noun} ended its turn without {t.missing}"

def withNote (note : Option String) (reason : String) : String :=
  match note with
  | some note => s!"{reason}; {note}"
  | none => reason

def addUsage (total usage : TokenUsage) : TokenUsage where
  input := saturatingAdd total.input usage.input
  output := saturatingAdd total.output usage.output
  cacheRead := saturatingAdd total.cacheRead usage.cacheRead
  cacheWrite := saturatingAdd total.cacheWrite usage.cacheWrite

def codeText (code : Option ℤ) : String := code.elim "unknown" toString

namespace ScoutMachine

def Live (m : ScoutMachine) : Prop := m.state = .starting ∨ m.state = .working

instance (m : ScoutMachine) : Decidable m.Live := inferInstanceAs (Decidable (_ ∨ _))

/-- Fails the scout: a kill when its process may still run, the outcome, and the removal of its
    window. -/
def fail (m : ScoutMachine) (reason : String) (kill : Bool) : ScoutMachine × List ScoutEffect :=
  let reason := withNote m.sandboxNote reason
  ({ m with state := .failed, failure := some reason, sandboxNote := none },
    (if kill then [.kill] else []) ++ [.finished (.error reason), .removeAfter retireAfter])

/-- The machine with the tokens of a turn that ended. -/
def counted (m : ScoutMachine) : ScoutEvent → ScoutMachine
  | .turnEnded (some usage) => { m with usage := addUsage m.usage usage }
  | _ => m

/-- A step of a scout that runs. -/
def liveStep (l : ScoutLimits) (m : ScoutMachine) : ScoutEvent → ScoutMachine × List ScoutEffect
  | .start now => ({ m with state := .working, startedAt := now }, [])
  | .turnEnded _ =>
    if !l.nudges then
      { m with unsubmitted := true }.fail l.texts.unsubmitted true
    else
      let m := { m with turnsWithoutReport := min (m.turnsWithoutReport + 1) 255 }
      if m.turnsWithoutReport = 1 then
        -- An owed wrap-up goes in the nudge's place.
        let text := if m.wrapUpPending then l.texts.wrapUp m.toolCalls else l.texts.nudge
        ({ m with wrapUpPending := false }, [.send text])
      else m.fail s!"{l.texts.noun} ended two turns without {l.texts.missing}" true
  | .toolUse =>
    let m := { m with toolCalls := m.toolCalls + 1 }
    let n := m.toolCalls
    if l.maxToolCalls * 3 ≤ n * 2 then
      m.fail s!"{l.texts.noun} used {n} tool calls without {l.texts.missing}" true
    else if l.maxToolCalls ≤ n ∧ !m.wrapUpSent then
      let m := { m with wrapUpSent := true }
      if l.sendMidTurn then (m, [.send (l.texts.wrapUp n)])
      else ({ m with wrapUpPending := true }, [])
    else (m, [])
  | .exited code =>
    m.fail s!"{l.texts.noun}'s process exited without {l.texts.missing} (code {codeText code})" false
  | .startupFailed reason => m.fail s!"{l.texts.noun} could not start: {reason}" true
  | .sandboxBroken note => ({ m with sandboxNote := m.sandboxNote.or (some note) }, [])
  | .reportAccepted => ({ m with state := .reported },
      [.finished (.ok ()), .closeStdin, .killAfter interruptGrace, .removeAfter retireAfter])
  | .tick now =>
    if m.state = .working ∧ m.startedAt + l.timeoutSecs ≤ now then
      m.fail s!"{l.texts.noun} ran longer than {duration l.timeoutSecs}" true
    else (m, [])
  | .stop => { m with sandboxNote := none }.fail "stopped by the user" true
  | .halt reason => { m with sandboxNote := none }.fail reason true

/-- One step of a scout's machine. -/
def step (l : ScoutLimits) (m : ScoutMachine) (e : ScoutEvent) : ScoutMachine × List ScoutEffect :=
  let m := m.counted e
  if m.Live then liveStep l m e else (m, [])

/-- What is left of a session that ended so. -/
def EndedWith (m : ScoutMachine) : Except String Unit → Prop
  | .ok () => m.state = .reported ∧ m.failure = none
  | .error reason => m.state = .failed ∧ m.failure = some reason

/-- A run of the machine, with all it asked for. -/
def run (l : ScoutLimits) (m : ScoutMachine) (events : List ScoutEvent) :
    ScoutMachine × List ScoutEffect :=
  events.foldl (fun out e => ((step l out.1 e).1, out.2 ++ (step l out.1 e).2)) (m, [])

variable {l : ScoutLimits} {m : ScoutMachine} {e : ScoutEvent}

@[simp] theorem run_nil : run l m [] = (m, []) := rfl

theorem run_concat (events : List ScoutEvent) (e : ScoutEvent) : run l m (events ++ [e]) =
    ((step l (run l m events).1 e).1, (run l m events).2 ++ (step l (run l m events).1 e).2) := by
  rw [run, foldl_append]
  rfl

@[simp] theorem counted_state : (m.counted e).state = m.state := by
  cases e with
  | turnEnded usage => cases usage <;> rfl
  | _ => rfl

@[simp] theorem counted_failure : (m.counted e).failure = m.failure := by
  cases e with
  | turnEnded usage => cases usage <;> rfl
  | _ => rfl

@[simp] theorem counted_live : (m.counted e).Live ↔ m.Live := by rw [Live, counted_state]; rfl

theorem step_of_live (hlive : m.Live) (e : ScoutEvent) : step l m e = liveStep l (m.counted e) e :=
  if_pos (counted_live.2 hlive)

/-- A scout that ended only counts tokens. -/
theorem step_of_ended (hend : ¬m.Live) (e : ScoutEvent) : step l m e = (m.counted e, []) :=
  if_neg (mt counted_live.1 hend)

end ScoutMachine

/-! ## What a run comes to -/

namespace ScoutEvent

def IsTurnEnded : ScoutEvent → Bool
  | turnEnded _ => true
  | _ => false

/-- Ends a session whatever it did before. -/
def Ends : ScoutEvent → Bool
  | exited _ | startupFailed _ | reportAccepted | stop | halt _ => true
  | _ => false

def note : ScoutEvent → Option String
  | sandboxBroken note => some note
  | _ => none

def tokens : ScoutEvent → Option TokenUsage
  | turnEnded usage => usage
  | _ => none

end ScoutEvent

def turnsEnded (events : List ScoutEvent) : ℕ := events.countP (·.IsTurnEnded)

def toolUses (events : List ScoutEvent) : ℕ := events.count .toolUse

/-- The first sign of a broken sandbox. -/
def noteOf (events : List ScoutEvent) : Option String := (events.filterMap (·.note)).head?

/-- What a session keeps to so long as it runs. -/
structure Within (l : ScoutLimits) (began : ℕ) (events : List ScoutEvent) : Prop where
  ends : ∀ e ∈ events, e.Ends = false
  turns : turnsEnded events ≤ if l.nudges then 1 else 0
  tools : toolUses events = 0 ∨ toolUses events * 2 < l.maxToolCalls * 3
  time : ∀ now, .tick now ∈ events → now < began + l.timeoutSecs

/-- The session used the tool calls it was given. -/
def Spent (l : ScoutLimits) (events : List ScoutEvent) : Prop :=
  toolUses events ≠ 0 ∧ l.maxToolCalls ≤ toolUses events

instance (l : ScoutLimits) (events : List ScoutEvent) : Decidable (Spent l events) :=
  inferInstanceAs (Decidable (_ ∧ _))

/-- What a session within its limits is told at an event after those before. -/
def said (l : ScoutLimits) (before : List ScoutEvent) : ScoutEvent → Option String
  | .turnEnded _ =>
    some (if !l.sendMidTurn ∧ Spent l before then l.texts.wrapUp (toolUses before) else l.texts.nudge)
  | .toolUse =>
    if l.sendMidTurn ∧ toolUses before + 1 = l.maxToolCalls then some (l.texts.wrapUp l.maxToolCalls)
    else none
  | _ => none

/-- What the session is told at the events after those before. -/
def messages (l : ScoutLimits) (before : List ScoutEvent) : List ScoutEvent → List String
  | [] => []
  | e :: events => (said l before e).toList ++ messages l (before ++ [e]) events

/-- How the event that goes beyond the limits ends the session. -/
def verdict (l : ScoutLimits) (before : List ScoutEvent) (e : ScoutEvent) : Except String Unit :=
  let failed reason := .error (withNote (noteOf before) reason)
  match e with
  | .reportAccepted => .ok ()
  | .stop => .error "stopped by the user"
  | .halt reason => .error reason
  | .exited code => failed
    s!"{l.texts.noun}'s process exited without {l.texts.missing} (code {codeText code})"
  | .startupFailed reason => failed s!"{l.texts.noun} could not start: {reason}"
  | .toolUse => failed
    s!"{l.texts.noun} used {toolUses before + 1} tool calls without {l.texts.missing}"
  | .turnEnded _ => failed (if l.nudges then
      s!"{l.texts.noun} ended two turns without {l.texts.missing}" else l.texts.unsubmitted)
  | .tick _ => failed s!"{l.texts.noun} ran longer than {duration l.timeoutSecs}"
  | .start _ | .sandboxBroken _ => .ok ()

/-- What an end asks for: the process of a failed session is killed, unless it exited. -/
def ending (e : ScoutEvent) : Except String Unit → List ScoutEffect
  | .ok () => [.finished (.ok ()), .closeStdin, .killAfter interruptGrace, .removeAfter retireAfter]
  | .error reason => (if e matches .exited _ then [] else [.kill]) ++
      [.finished (.error reason), .removeAfter retireAfter]

namespace ScoutMachine

variable {l : ScoutLimits} {m : ScoutMachine}

/-- What a step of a scout that runs can come to: it runs on and only talks to the session, or it
    ends, once. -/
inductive Steps (state : ScoutState) (e : ScoutEvent) : ScoutMachine × List ScoutEffect → Prop
  | runs {m' : ScoutMachine} (texts : List String)
      (hstate : m'.state = .working ∨ m'.state = state) (hfailure : m'.failure = none)
      (haccepted : e ≠ .reportAccepted) : Steps state e (m', texts.map .send)
  | ends {m' : ScoutMachine} (v : Except String Unit) (hend : m'.EndedWith v)
      (hverdict : v = .ok () ↔ e = .reportAccepted) : Steps state e (m', ending e v)

theorem steps_fail (state : ScoutState) (e : ScoutEvent) (m : ScoutMachine) (reason : String) (kill : Bool)
    (haccepted : e ≠ .reportAccepted) (hkill : kill = !(e matches .exited _)) :
    Steps state e (m.fail reason kill) := by
  have heffects : (m.fail reason kill).2 = ending e (.error (withNote m.sandboxNote reason)) := by
    rw [hkill]
    cases e <;> rfl
  have hsteps : Steps state e ((m.fail reason kill).1, ending e (.error (withNote m.sandboxNote reason))) :=
    .ends _ ⟨rfl, rfl⟩ (by simp [haccepted])
  rwa [← heffects] at hsteps

theorem steps_liveStep (hfailure : m.failure = none) (e : ScoutEvent) :
    Steps m.state e (m.liveStep l e) := by
  cases e with
  | start now => exact .runs [] (.inl rfl) hfailure (by simp)
  | turnEnded usage =>
    simp only [liveStep]
    split_ifs
    · exact steps_fail _ _ _ _ _ (by simp) rfl
    · exact .runs [_] (.inr rfl) hfailure (by simp)
    · exact .runs [_] (.inr rfl) hfailure (by simp)
    · exact steps_fail _ _ _ _ _ (by simp) rfl
  | toolUse =>
    simp only [liveStep]
    split_ifs
    · exact steps_fail _ _ _ _ _ (by simp) rfl
    · exact .runs [_] (.inr rfl) hfailure (by simp)
    · exact .runs [] (.inr rfl) hfailure (by simp)
    · exact .runs [] (.inr rfl) hfailure (by simp)
  | sandboxBroken note => exact .runs [] (.inr rfl) hfailure (by simp)
  | reportAccepted => exact .ends (.ok ()) ⟨rfl, hfailure⟩ (by simp)
  | tick now =>
    simp only [liveStep]
    split_ifs
    · exact steps_fail _ _ _ _ _ (by simp) rfl
    · exact .runs [] (.inr rfl) hfailure (by simp)
  | exited | startupFailed | stop | halt => exact steps_fail _ _ _ _ _ (by simp) rfl

theorem steps_step (hlive : m.Live) (hfailure : m.failure = none) (e : ScoutEvent) :
    Steps m.state e (m.step l e) := by
  rw [step_of_live hlive, ← counted_state (e := e)]
  exact steps_liveStep (counted_failure.trans hfailure) e

end ScoutMachine

section

variable {l : ScoutLimits} {began : ℕ} {before events : List ScoutEvent} {e : ScoutEvent}
  {m : ScoutMachine} {effects : List ScoutEffect}

@[simp] theorem turnsEnded_concat :
    turnsEnded (events ++ [e]) = turnsEnded events + if e.IsTurnEnded then 1 else 0 := by
  rw [turnsEnded, countP_append, countP_singleton]
  rfl

@[simp] theorem toolUses_concat :
    toolUses (events ++ [e]) = toolUses events + if e = .toolUse then 1 else 0 := by
  simp [toolUses, count_append, count_singleton]

@[simp] theorem noteOf_concat : noteOf (events ++ [e]) = (noteOf events).or e.note := by
  rw [noteOf, filterMap_append, head?_append]
  cases hnote : e.note <;> simp [noteOf, hnote]

theorem messages_concat (before events : List ScoutEvent) (e : ScoutEvent) :
    messages l before (events ++ [e]) =
      messages l before events ++ (said l (before ++ events) e).toList := by
  induction events generalizing before with
  | nil => simp [messages]
  | cons x events ih => simp [messages, ih, append_assoc]

theorem within_concat : Within l began (events ++ [e]) ↔
    Within l began events ∧ e.Ends = false ∧
      (e.IsTurnEnded → l.nudges ∧ turnsEnded events = 0) ∧
      (e = .toolUse → (toolUses events + 1) * 2 < l.maxToolCalls * 3) ∧
      ∀ now, e = .tick now → now < began + l.timeoutSecs := by
  constructor
  · rintro ⟨hends, hturns, htools, htime⟩
    rw [turnsEnded_concat] at hturns
    rw [toolUses_concat] at htools
    refine ⟨⟨fun x hx => hends x (mem_append_left _ hx), (Nat.le_add_right _ _).trans hturns, ?_,
      fun now h => htime now (mem_append_left _ h)⟩, hends e (by simp), fun he => ?_, fun he => ?_,
      fun now he => htime now (by simp [he])⟩
    · by_cases he : e = .toolUse
      · rw [if_pos he] at htools
        omega
      · rwa [if_neg he] at htools
    · rw [if_pos he] at hturns
      split_ifs at hturns with hnudges
      · exact ⟨hnudges, by omega⟩
      · omega
    · rw [if_pos he] at htools
      omega
  · rintro ⟨⟨hends, hturns, htools, htime⟩, hend, hturn, htool, htick⟩
    refine ⟨fun x hx => ?_, ?_, ?_, fun now hmem => ?_⟩
    · rcases mem_append.1 hx with hx | hx
      · exact hends x hx
      · exact mem_singleton.1 hx ▸ hend
    · rw [turnsEnded_concat]
      by_cases he : e.IsTurnEnded
      · obtain ⟨hnudges, hnone⟩ := hturn he
        rw [if_pos he, hnone, if_pos hnudges]
      · rw [if_neg he]
        exact hturns
    · rw [toolUses_concat]
      by_cases he : e = .toolUse
      · rw [if_pos he]
        exact .inr (htool he)
      · rw [if_neg he]
        exact htools
    · rcases mem_append.1 hmem with hmem | hmem
      · exact htime now hmem
      · exact htick now (mem_singleton.1 hmem).symm

/-- A machine after `events`, all within the limits, and what it asked for. -/
structure Ran (l : ScoutLimits) (began : ℕ) (events : List ScoutEvent) (m : ScoutMachine)
    (effects : List ScoutEffect) : Prop where
  within : Within l began events
  state : m.state = .working
  startedAt : m.startedAt = began
  failure : m.failure = none
  turns : m.turnsWithoutReport = turnsEnded events
  tools : m.toolCalls = toolUses events
  wrapUpSent : m.wrapUpSent = decide (Spent l events)
  wrapUpPending : turnsEnded events = 0 →
    m.wrapUpPending = (!l.sendMidTurn && decide (Spent l events))
  note : m.sandboxNote = noteOf events
  effects : effects = (messages l [] events).map .send

namespace Ran

open ScoutMachine

theorem live (hran : Ran l began events m effects) : m.Live := .inr hran.state

theorem start : Ran l began [] (step l {} (.start began)).1 [] where
  within := ⟨by simp, by simp [turnsEnded], .inl rfl, by simp⟩
  state := rfl
  startedAt := rfl
  failure := rfl
  turns := rfl
  tools := rfl
  wrapUpSent := rfl
  wrapUpPending _ := by simp [Spent, toolUses, step, Live, liveStep, counted]
  note := rfl
  effects := rfl

/-- The limits at the next tool call, which decide about the wrap-up. -/
theorem spent_concat (hwithin : Within l began (events ++ [.toolUse])) :
    Spent l (events ++ [.toolUse]) ↔ Spent l events ∨ toolUses events + 1 = l.maxToolCalls := by
  obtain ⟨-, -, -, htools, -⟩ := within_concat.1 hwithin
  have := htools rfl
  simp only [Spent, toolUses_concat, if_true]
  omega

theorem spent_concat_of_ne (he : e ≠ .toolUse) : Spent l (events ++ [e]) ↔ Spent l events := by
  simp [Spent, he]

/-- The effects after another event are those before and what is said at it. -/
theorem effects_concat (hran : Ran l began events m effects) {sends : List ScoutEffect}
    (hsends : (said l events e).toList.map .send = sends) :
    effects ++ sends = (messages l [] (events ++ [e])).map .send := by
  rw [messages_concat, map_append, hran.effects, hsends.symm]
  rfl

theorem counted (hran : Ran l began events m effects) (e : ScoutEvent) :
    Ran l began events (m.counted e) effects := by
  cases e with
  | turnEnded usage =>
    cases usage with
    | none => exact hran
    | some usage => exact { hran with }
  | _ => exact hran

theorem turn (hran : Ran l began events m effects) (usage : Option TokenUsage)
    (hwithin : Within l began (events ++ [.turnEnded usage])) :
    Ran l began (events ++ [.turnEnded usage]) (liveStep l m (.turnEnded usage)).1
      (effects ++ (liveStep l m (.turnEnded usage)).2) := by
  obtain ⟨hnudges, hfirst⟩ := (within_concat.1 hwithin).2.2.1 rfl
  have hturns : min (m.turnsWithoutReport + 1) 255 = 1 := by rw [hran.turns, hfirst]; rfl
  have hspent : Spent l (events ++ [.turnEnded usage]) ↔ Spent l events := spent_concat_of_ne (by simp)
  simp only [liveStep, hnudges, hturns, Bool.not_true, Bool.false_eq_true, if_false, if_true]
  exact {
    within := hwithin
    state := hran.state
    startedAt := hran.startedAt
    failure := hran.failure
    turns := by simp [hfirst, ScoutEvent.IsTurnEnded]
    tools := by simp [hran.tools]
    wrapUpSent := by simp only [hran.wrapUpSent, hspent]
    wrapUpPending := fun hnone => by simp [ScoutEvent.IsTurnEnded] at hnone
    note := by simp [hran.note, ScoutEvent.note]
    effects := hran.effects_concat (by simp [said, hran.wrapUpPending hfirst, hran.tools]) }

/-- A machine that counted a tool call, with what it knows of the wrap-up. -/
theorem counts (hran : Ran l began events m effects) (hwithin : Within l began (events ++ [.toolUse]))
    {sent pending : Bool} {sends : List ScoutEffect}
    (hsent : sent = decide (Spent l (events ++ [.toolUse])))
    (hpending : turnsEnded events = 0 →
      pending = (!l.sendMidTurn && decide (Spent l (events ++ [.toolUse]))))
    (hsends : (said l events .toolUse).toList.map .send = sends) :
    Ran l began (events ++ [.toolUse])
      { m with toolCalls := m.toolCalls + 1, wrapUpSent := sent, wrapUpPending := pending }
      (effects ++ sends) where
  within := hwithin
  state := hran.state
  startedAt := hran.startedAt
  failure := hran.failure
  turns := by simp [hran.turns, ScoutEvent.IsTurnEnded]
  tools := by simp [hran.tools]
  wrapUpSent := hsent
  wrapUpPending hnone := hpending (by simpa [ScoutEvent.IsTurnEnded] using hnone)
  note := by simp [hran.note, ScoutEvent.note]
  effects := hran.effects_concat hsends

theorem tool (hran : Ran l began events m effects) (hwithin : Within l began (events ++ [.toolUse])) :
    Ran l began (events ++ [.toolUse]) (liveStep l m .toolUse).1
      (effects ++ (liveStep l m .toolUse).2) := by
  have htools := (within_concat.1 hwithin).2.2.2.1 rfl
  have hspent := spent_concat hwithin
  have hunder : ¬l.maxToolCalls * 3 ≤ (m.toolCalls + 1) * 2 := by
    rw [hran.tools]
    exact Nat.not_le.2 htools
  simp only [ScoutMachine.liveStep, if_neg hunder]
  by_cases hnow : l.maxToolCalls ≤ m.toolCalls + 1 ∧ !m.wrapUpSent
  · -- The wrap-up comes at the call that reaches the limit: the limit is not zero.
    have hlast : toolUses events + 1 = l.maxToolCalls := by
      have hnot : ¬Spent l events := by simpa [hran.wrapUpSent] using hnow.2
      have hle := hran.tools ▸ hnow.1
      simp only [Spent] at hnot
      omega
    have hreached : Spent l (events ++ [.toolUse]) := hspent.2 (.inr hlast)
    rw [if_pos hnow]
    by_cases hmid : l.sendMidTurn
    · rw [if_pos hmid]
      refine hran.counts hwithin (by simp [hreached]) (fun hnone => ?_)
        (by simp [said, hmid, hlast, hran.tools])
      have hnot : ¬Spent l events := by simpa [hran.wrapUpSent] using hnow.2
      simp [hran.wrapUpPending hnone, hmid]
    · rw [if_neg hmid]
      exact hran.counts hwithin (by simp [hreached]) (fun _ => by simp [hreached, hmid])
        (by simp [said, hmid])
  · have hlast : toolUses events + 1 ≠ l.maxToolCalls := fun hlast => by
      have hnot : ¬Spent l events := fun hspent => absurd hspent.2 (by omega)
      exact hnow ⟨by rw [hran.tools, hlast], by simp [hran.wrapUpSent, hnot]⟩
    have hsame : Spent l (events ++ [.toolUse]) ↔ Spent l events := by
      rw [hspent, or_iff_left hlast]
    rw [if_neg hnow]
    exact hran.counts hwithin (by simp [hran.wrapUpSent, hsame])
      (fun hnone => by simp [hran.wrapUpPending hnone, hsame]) (by simp [said, hlast])

/-- An event that is not counted and not answered. -/
theorem passes (hran : Ran l began events m effects) (hwithin : Within l began (events ++ [e]))
    (hturn : e.IsTurnEnded = false) (htool : e ≠ .toolUse) (hsaid : said l events e = none) :
    Ran l began (events ++ [e]) { m with sandboxNote := m.sandboxNote.or e.note } (effects ++ []) where
  within := hwithin
  state := hran.state
  startedAt := hran.startedAt
  failure := hran.failure
  turns := by simp [hran.turns, hturn]
  tools := by simp [hran.tools, htool]
  wrapUpSent := by simp only [hran.wrapUpSent, spent_concat_of_ne htool]
  wrapUpPending hnone := by
    simp only [hran.wrapUpPending (by simpa [hturn] using hnone), spent_concat_of_ne htool]
  note := by simp [hran.note]
  effects := hran.effects_concat (by rw [hsaid]; rfl)

/-- A step within the limits. -/
theorem keeps (hran : Ran l began events m effects) (hstart : ∀ now, e ≠ .start now)
    (hwithin : Within l began (events ++ [e])) :
    Ran l began (events ++ [e]) (liveStep l m e).1 (effects ++ (liveStep l m e).2) := by
  obtain ⟨-, hends, -, -, htime⟩ := within_concat.1 hwithin
  cases e with
  | start now => exact absurd rfl (hstart now)
  | turnEnded usage => exact hran.turn usage hwithin
  | toolUse => exact hran.tool hwithin
  | sandboxBroken note => exact hran.passes hwithin rfl (by simp) rfl
  | tick now =>
    have hearly : ¬(m.state = .working ∧ m.startedAt + l.timeoutSecs ≤ now) := by
      rw [hran.startedAt]
      exact fun hlate => Nat.not_le.2 (htime now rfl) hlate.2
    rw [ScoutMachine.liveStep, if_neg hearly]
    simpa [ScoutEvent.note] using hran.passes hwithin rfl (by simp) rfl
  | exited | startupFailed | reportAccepted | stop | halt => exact absurd hends (by simp [ScoutEvent.Ends])

/-- A step beyond the limits. -/
theorem ends (hran : Ran l began events m effects) (hstart : ∀ now, e ≠ .start now)
    (hend : ¬Within l began (events ++ [e])) :
    (liveStep l m e).1.EndedWith (verdict l events e) ∧
      (liveStep l m e).2 = ending e (verdict l events e) := by
  rw [within_concat] at hend
  have hbeyond := fun h => hend ⟨hran.within, h⟩
  cases e with
  | start now => exact absurd rfl (hstart now)
  | turnEnded usage =>
    by_cases hnudges : l.nudges
    · have hturns : min (m.turnsWithoutReport + 1) 255 ≠ 1 := fun hone => by
        refine hbeyond ⟨rfl, fun _ => ⟨hnudges, ?_⟩, by simp, by simp⟩
        rw [← hran.turns]
        omega
      simp [ScoutMachine.liveStep, hnudges, hturns, fail, verdict, ending, hran.note, EndedWith]
    · simp [ScoutMachine.liveStep, hnudges, fail, verdict, ending, hran.note, EndedWith]
  | toolUse =>
    have hover : l.maxToolCalls * 3 ≤ (toolUses events + 1) * 2 := by
      by_contra hunder
      exact hbeyond ⟨rfl, by simp [ScoutEvent.IsTurnEnded], fun _ => Nat.not_le.1 hunder, by simp⟩
    simp [ScoutMachine.liveStep, hover, fail, verdict, ending, hran.note, hran.tools, EndedWith]
  | sandboxBroken note => exact absurd ⟨rfl, by simp [ScoutEvent.IsTurnEnded]⟩ hbeyond
  | tick now =>
    have hlate : m.state = .working ∧ m.startedAt + l.timeoutSecs ≤ now := by
      refine ⟨hran.state, ?_⟩
      rw [hran.startedAt]
      by_contra hearly
      exact hbeyond ⟨rfl, by simp [ScoutEvent.IsTurnEnded], by simp, by simpa using hearly⟩
    simp [ScoutMachine.liveStep, hlate, fail, verdict, ending, hran.note, EndedWith]
  | exited code => simp [ScoutMachine.liveStep, fail, verdict, ending, hran.note, EndedWith]
  | startupFailed reason =>
    simp [ScoutMachine.liveStep, fail, verdict, ending, hran.note, EndedWith]
  | reportAccepted => simp [ScoutMachine.liveStep, verdict, ending, hran.failure, EndedWith]
  | stop => simp [ScoutMachine.liveStep, fail, verdict, ending, withNote, EndedWith]
  | halt reason => simp [ScoutMachine.liveStep, fail, verdict, ending, withNote, EndedWith]

end Ran

theorem not_live_of_endedWith {v : Except String Unit} (hend : m.EndedWith v) : ¬m.Live := by
  rintro (hstate | hstate) <;> cases v <;>
    simp [ScoutMachine.EndedWith, hstate] at hend

theorem endedWith_counted {v : Except String Unit} (hend : m.EndedWith v) (e : ScoutEvent) :
    (m.counted e).EndedWith v := by
  cases v <;> simpa [ScoutMachine.EndedWith] using hend

/-- So long as a session keeps within its limits it runs, and what it is told is `messages`. The
    first event beyond them ends it, with the verdict of this event; the events after that change
    neither the verdict nor what was asked for. -/
theorem scout_run (l : ScoutLimits) (began : ℕ) {events : List ScoutEvent}
    (hstart : ∀ now, .start now ∉ events) :
    let out := ScoutMachine.run l {} (.start began :: events)
    (Within l began events ∧ out.1.state = .working ∧ out.1.failure = none ∧
        out.2 = (messages l [] events).map .send) ∨
      ∃ before e after, events = before ++ e :: after ∧ Within l began before ∧
        ¬Within l began (before ++ [e]) ∧ out.1.EndedWith (verdict l before e) ∧
        out.2 = (messages l [] before).map .send ++ ending e (verdict l before e) := by
  suffices Ran l began events (ScoutMachine.run l {} (.start began :: events)).1
        (ScoutMachine.run l {} (.start began :: events)).2 ∨
      ∃ before e after, events = before ++ e :: after ∧ Within l began before ∧
        ¬Within l began (before ++ [e]) ∧
        (ScoutMachine.run l {} (.start began :: events)).1.EndedWith (verdict l before e) ∧
        (ScoutMachine.run l {} (.start began :: events)).2 =
          (messages l [] before).map .send ++ ending e (verdict l before e) from
    this.imp (fun hran => ⟨hran.within, hran.state, hran.failure, hran.effects⟩) id
  induction events using List.reverseRecOn with
  | nil => exact .inl Ran.start
  | append_singleton events e ih =>
    have hlast : ∀ now, e ≠ .start now := fun now he => hstart now (by simp [he])
    have hrest := ih fun now hmem => hstart now (mem_append_left _ hmem)
    rw [← cons_append, ScoutMachine.run_concat]
    rcases hrest with hran | ⟨before, x, after, rfl, hwithin, hbeyond, hend, heffects⟩
    · rw [ScoutMachine.step_of_live hran.live]
      by_cases hwithin : Within l began (events ++ [e])
      · exact .inl ((hran.counted e).keeps hlast hwithin)
      · obtain ⟨hend, hasked⟩ := (hran.counted e).ends hlast hwithin
        refine .inr ⟨events, e, [], rfl, hran.within, hwithin, hend, ?_⟩
        rw [hasked, hran.effects]
    · -- The session had ended: only its tokens are counted.
      rw [ScoutMachine.step_of_ended (not_live_of_endedWith hend), append_nil]
      exact .inr ⟨before, x, after ++ [e], by simp, hwithin, hbeyond, endedWith_counted hend e,
        heffects⟩

/-- A scout whose process exits after a tool call fails, whatever else comes. -/
theorem scout_run_exited : ∃ before e after, [.toolUse, .exited none, .stop] = before ++ e :: after ∧
    (ScoutMachine.run (.new 900 120 .claude) {} (.start 0 :: [.toolUse, .exited none, .stop])).1.EndedWith
      (verdict (.new 900 120 .claude) before e) := by
  have hrun := scout_run (.new 900 120 .claude) 0
    (show ∀ now, ScoutEvent.start now ∉ [.toolUse, .exited none, .stop] by simp)
  rcases hrun with hran | ⟨before, e, after, hsplit, -, -, hend, -⟩
  · exact absurd (hran.1.ends (.exited none) (by simp)) (by decide)
  · exact ⟨before, e, after, hsplit, hend⟩

/-! ## What a session is told -/

/-- Where a message can be sent while a turn runs, the wrap-up comes at the call that reaches the
    limit, and the nudge at every turn's end. -/
theorem messages_perm (hmid : l.sendMidTurn) (events : List ScoutEvent) : messages l [] events ~
    (if l.maxToolCalls ≠ 0 ∧ l.maxToolCalls ≤ toolUses events then [l.texts.wrapUp l.maxToolCalls]
      else []) ++ replicate (turnsEnded events) l.texts.nudge := by
  induction events using List.reverseRecOn with
  | nil =>
    have hnone : ¬(l.maxToolCalls ≠ 0 ∧ l.maxToolCalls ≤ toolUses []) := by simp [toolUses]
    rw [if_neg hnone]
    rfl
  | append_singleton events e ih =>
    rw [messages_concat, nil_append, turnsEnded_concat, toolUses_concat]
    refine (ih.append_right _).trans ?_
    rw [append_assoc]
    cases e with
    | turnEnded usage => simp [said, hmid, ScoutEvent.IsTurnEnded, replicate_succ']
    | toolUse =>
      by_cases hlast : toolUses events + 1 = l.maxToolCalls
      · have hnot : ¬(l.maxToolCalls ≠ 0 ∧ l.maxToolCalls ≤ toolUses events) := by omega
        have hnow : l.maxToolCalls ≠ 0 ∧ l.maxToolCalls ≤ toolUses events + 1 := by omega
        simp only [said, hmid, hlast, hnot, ScoutEvent.IsTurnEnded, if_true, if_false,
          Option.toList_some, nil_append, Nat.add_zero, Bool.false_eq_true, le_refl, and_true]
        rw [if_pos (hlast ▸ Nat.succ_ne_zero _)]
        exact perm_append_comm
      · have hsame : l.maxToolCalls ≤ toolUses events + 1 ↔ l.maxToolCalls ≤ toolUses events := by
          omega
        simp [said, hlast, hsame, ScoutEvent.IsTurnEnded]
    | _ => simp [said, ScoutEvent.IsTurnEnded]

/-- Where it cannot, every message is at a turn's end. -/
theorem length_messages (hmid : l.sendMidTurn = false) (before events : List ScoutEvent) :
    (messages l before events).length = turnsEnded events := by
  induction events generalizing before with
  | nil => rfl
  | cons e events ih =>
    rw [messages, length_append, ih, turnsEnded, turnsEnded, countP_cons, Nat.add_comm]
    cases e <;> simp [said, hmid, ScoutEvent.IsTurnEnded]

/-! ## Tokens -/

theorem usage_liveStep : (m.liveStep l e).1.usage = m.usage := by
  cases e with
  | turnEnded | toolUse | tick =>
    simp only [ScoutMachine.liveStep]
    split_ifs <;> rfl
  | _ => rfl

theorem usage_step : (m.step l e).1.usage = (m.counted e).usage := by
  rw [ScoutMachine.step]
  split_ifs
  · exact usage_liveStep
  · rfl

/-- The tokens of all the turns in a field, as far as the counter goes. -/
def tokens (field : TokenUsage → ℕ) (events : List ScoutEvent) : ℕ :=
  min ((events.filterMap (·.tokens)).map field).sum (2 ^ 64 - 1)

theorem tokens_concat (field : TokenUsage → ℕ) (events : List ScoutEvent) (e : ScoutEvent) :
    tokens field (events ++ [e]) =
      e.tokens.elim (tokens field events) fun usage => saturatingAdd (tokens field events) (field usage) := by
  cases hused : e.tokens with
  | none => simp [tokens, hused]
  | some usage =>
    simp only [tokens, filterMap_append, filterMap_cons_some hused, filterMap_nil, map_append,
      sum_append, map_singleton, sum_singleton, Option.elim_some, saturatingAdd]
    omega

/-- The tokens of every turn are counted, of those that end after the session too. -/
theorem usage_run (l : ScoutLimits) (events : List ScoutEvent) :
    (ScoutMachine.run l {} events).1.usage =
      ⟨tokens (·.input) events, tokens (·.output) events, tokens (·.cacheRead) events,
        tokens (·.cacheWrite) events⟩ := by
  induction events using List.reverseRecOn with
  | nil => rfl
  | append_singleton events e ih =>
    rw [ScoutMachine.run_concat, usage_step]
    simp only [tokens_concat]
    cases e with
    | turnEnded usage =>
      cases usage with
      | none => exact ih
      | some usage => simp only [ScoutMachine.counted, ih, ScoutEvent.tokens, Option.elim_some, addUsage]
    | _ => exact ih

end

end Anthrex.Scouts
