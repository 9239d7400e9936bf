import Anthrex.Conversation.Deltas
import Mathlib.Data.List.AList

/-!
# A client's subscriptions

What the daemon answers a client that follows conversations (`manager/conversation.rs`), and what
the task of the client (`server/conversation.rs`) keeps of the answers: the revision that it last
sent of each.

* `Seen`: what a client may hold of a conversation is an earlier moment of it, and stays one
  (`Seen.grows`);
* `Seen.current`: of the revision the conversation is at, that is what it shows now;
* `Seen.delta`: a delta from a moment that is held leads to what it shows now.
-/

namespace Anthrex.Conversation

/-! ## Answers -/

/-- A conversation of a window: its own, or a sub-agent's. -/
abbrev Key := ℕ × Option String

inductive Command
  | subscribe (windowId : ℕ) (agentId : Option String) (fromRev : Option ℕ)
  | unsubscribe (windowId : ℕ) (agentId : Option String)
  deriving DecidableEq, Repr

inductive Msg
  | snapshot (windowId : ℕ) (agentId : Option String) (conversation : Conversation)
  | delta (windowId : ℕ) (agentId : Option String) (fromRev toRev : ℕ) (turns : List TurnPatch)
      (visible : Visible)
  | gone (windowId : ℕ) (agentId : Option String) (reason : String)
  deriving DecidableEq, Repr

def Msg.key : Msg → Key
  | .snapshot windowId agentId _ | .delta windowId agentId .. | .gone windowId agentId _ =>
    (windowId, agentId)

def goneWindowRemoved : String := "window removed"

def goneSubagentUnknown : String := "no such sub-agent in this window"

def goneWindowUnknown : String := "no such window"

def goneTooLarge : String := "conversation too large to send"

namespace ConversationSet

def transcriptPath (s : ConversationSet) : Option String :=
  (s.entry none).bind fun e => e.draft.transcriptPath

/-- What a conversation starts as, where there is none yet. -/
def snapshotOrEmpty (s : ConversationSet) (key : Option String) : Conversation :=
  match s.entry key with
  | some e => e.snapshot
  | none => (Entry.new (.new s.windowId key s.runtime) s.currentDegraded).snapshot

/-- The revision of a conversation, where there is one. -/
def revOr (s : ConversationSet) (key : Option String) : ℕ := (s.rev key).getD 0

/-- The conversations that have a new revision. -/
def advanced (s s' : ConversationSet) : List (Option String × ℕ) :=
  (s'.entries.map fun x => (x.1, s'.revOr x.1)).filter fun x => s.revOr x.1 ≠ x.2

end ConversationSet

/-- A window, as far as its conversations go. -/
structure WindowEntry where
  conversations : ConversationSet
  headless : Bool
  /-- The sub-agents that the tracker has named. -/
  spawned : List String
  deriving DecidableEq, Repr

/-- A revision of a conversation, or (`none`) the end of a window. -/
structure Change where
  windowId : ℕ
  agentId : Option String
  rev : Option ℕ
  deriving DecidableEq, Repr

namespace WindowEntry

variable (entry : WindowEntry)

/-- A key that a client may subscribe to. -/
def knows : Option String → Bool
  | none => true
  | some id => (entry.conversations.rev (some id)).isSome || id ∈ entry.spawned

/-- A delta from a revision that the client has, or everything. -/
def reply (windowId : ℕ) (agentId : Option String) (fromRev : Option ℕ) : Msg :=
  let set := entry.conversations
  let delta := fromRev.bind fun fromRev =>
    if (set.rev agentId).any (fromRev < ·) then
      (set.deltaSince agentId fromRev).bind fun x => (set.visible agentId).map fun visible =>
        Msg.delta windowId agentId fromRev x.1 x.2 visible
    else none
  delta.getD (.snapshot windowId agentId (set.snapshotOrEmpty agentId))

/-- A change of the conversations, and what is told of it. -/
def change (windowId : ℕ) (set : ConversationSet) : WindowEntry × List Change :=
  ({ entry with conversations := set },
    (entry.conversations.advanced set).map fun x => ⟨windowId, x.1, some x.2⟩)

/-- Where there is no transcript to read, the first answer already says so. -/
def beforeReply (windowId : ℕ) : WindowEntry × List Change :=
  if !entry.headless && entry.conversations.transcriptPath.isNone then
    entry.change windowId (entry.conversations.setDegraded (some .noTranscriptPath))
  else (entry, [])

end WindowEntry

section Replies

variable (windows : SortedMap ℕ WindowEntry) (windowId : ℕ) (agentId : Option String)

/-- What brings a client up to date that is subscribed already. -/
def conversationReply (fromRev : Option ℕ) : Msg :=
  match windows.get? windowId with
  | none => .gone windowId agentId goneWindowRemoved
  | some entry =>
    if entry.knows agentId then entry.reply windowId agentId fromRev
    else .gone windowId agentId goneSubagentUnknown

/-- A first subscription: the windows after it, what is told of the change, and the answer. -/
def subscribeConversation (fromRev : Option ℕ) :
    SortedMap ℕ WindowEntry × List Change × Msg :=
  match windows.get? windowId with
  | none => (windows, [], .gone windowId agentId goneWindowUnknown)
  | some entry =>
    if entry.knows agentId then
      let (entry, changes) := entry.beforeReply windowId
      (windows.insert windowId entry, changes, entry.reply windowId agentId fromRev)
    else (windows, [], .gone windowId agentId goneSubagentUnknown)

/-- The patches since a revision, where they are still kept. -/
def conversationDelta (fromRev : ℕ) : Option (ℕ × List TurnPatch × Visible) :=
  (windows.get? windowId).bind fun entry =>
    (entry.conversations.deltaSince agentId fromRev).bind fun x =>
      (entry.conversations.visible agentId).map fun visible => (x.1, x.2, visible)

/-- Brings one key up from a revision, where there is something newer. -/
def update (last : ℕ) : Option Msg :=
  match conversationDelta windows windowId agentId last with
  | some (toRev, turns, visible) =>
    if toRev = last then none else some (.delta windowId agentId last toRev turns visible)
  | none => some (conversationReply windows windowId agentId none)

end Replies

/-! ## The task -/

/-- The revision that each key was last sent. -/
abbrev LastSent := AList fun _ : Key => ℕ

/-- What a message tells the client, and whether it is still subscribed. -/
def record (lastSent : LastSent) (m : Msg) : LastSent :=
  match m with
  | .snapshot _ _ conversation => lastSent.insert m.key conversation.rev
  | .delta _ _ _ toRev _ _ => lastSent.insert m.key toRev
  | .gone .. => lastSent.erase m.key

/-- A message that does not fit in a frame ends the subscription. -/
def fitInFrame (fits : Msg → Bool) (lastSent : LastSent) (m : Msg) : LastSent × Msg :=
  match m with
  | .gone .. => (lastSent, m)
  | .snapshot windowId agentId _ | .delta windowId agentId .. =>
    if fits m then (lastSent, m)
    else
      let gone := Msg.gone windowId agentId goneTooLarge
      (record lastSent gone, gone)

/-- A message is recorded, and sent as far as it fits. -/
def send (fits : Msg → Bool) (lastSent : LastSent) (m : Msg) : LastSent × Msg :=
  fitInFrame fits (record lastSent m) m

/-! ## What a client may hold -/

/-- A conversation after a delta that starts where it is. -/
def afterDelta (c : Conversation) (toRev : ℕ) (patches : List TurnPatch)
    (visible : Visible) : Conversation :=
  { c with
    turns := patches.foldl applyPatch c.turns
    rev := toRev
    sessionId := visible.sessionId
    degraded := visible.degraded
    droppedTurns := visible.droppedTurns
    droppedBy := visible.droppedBy }

/-- An earlier moment of a conversation. Before its first revision only the turns are sure: the
    reason that is shown may change while there is no conversation. -/
structure Seen (s : ConversationSet) (key : Option String) (c : Conversation) : Prop where
  frame : (c.windowId, c.agentId, c.runtime) = (s.windowId, key, s.runtime)
  empty : s.entry key = none → c.rev = 0 ∧ c.turns = []
  moment : ∀ e', s.entry key = some e' → ∃ e, Numbered e.draft ∧ Leads e e' ∧ c.rev = e.rev ∧
    c.turns = e.draft.turns ∧ (e.rev ≠ 0 → c = e.snapshot)

/-- What a conversation shows now. -/
structure Shown (s : ConversationSet) (key : Option String) (c : Conversation) : Prop where
  rev : c.rev = s.revOr key
  turns : c.turns = (s.snapshotOrEmpty key).turns
  all : c.rev ≠ 0 → c = s.snapshotOrEmpty key

section Seen

open ConversationSet

variable {s s' : ConversationSet} {key : Option String} {c : Conversation} {e e' e'' : Entry}
  {toRev : ℕ} {patches : List TurnPatch} {visible : Visible}

theorem Leads.steps (h : Leads e e') (hsteps : Relation.ReflTransGen Advances e' e'') :
    Leads e e'' := by
  induction hsteps with
  | refl => exact h
  | tail _ hstep ih => exact ih.advance hstep

theorem revOr_of_some (h : s.entry key = some e) : s.revOr key = e.rev := by
  rw [revOr, ConversationSet.rev, h]
  rfl

theorem snapshotOrEmpty_of_some (h : s.entry key = some e) :
    s.snapshotOrEmpty key = e.snapshot := by
  rw [snapshotOrEmpty, h]

theorem revOr_of_none (h : s.entry key = none) : s.revOr key = 0 := by
  rw [revOr, ConversationSet.rev, h]
  rfl

/-- Whatever becomes of the set. -/
theorem Seen.grows (h : Seen s key c) (hgrows : Grows s s') : Seen s' key c where
  frame := by rw [h.frame, hgrows.windowId, hgrows.runtime]
  empty := by
    intro hnone'
    cases hnone : s.entry key with
    | none => exact h.empty hnone
    | some e =>
      obtain ⟨e', he', -⟩ := hgrows.kept key e hnone
      simp [hnone'] at he'
  moment := by
    intro e'' he''
    cases hentry : s.entry key with
    | none =>
      obtain ⟨degraded, hsteps⟩ := hgrows.fresh key e'' hentry he''
      obtain ⟨hrev, hturns⟩ := h.empty hentry
      exact ⟨_, numbered_new _ _ _, .of_steps (numbered_new _ _ _) (logged_new _ _) hsteps, hrev,
        hturns, fun hne => absurd rfl hne⟩
    | some e' =>
      obtain ⟨e, hnumbered, hleads, hc⟩ := h.moment e' hentry
      obtain ⟨e₁, he₁, hsteps⟩ := hgrows.kept key e' hentry
      obtain rfl := Option.some.inj (he''.symm.trans he₁)
      exact ⟨e, hnumbered, hleads.steps hsteps, hc⟩

/-- The set as it is now. -/
theorem seen_snapshotOrEmpty (hs : Sound s) : Seen s key (s.snapshotOrEmpty key) := by
  cases hentry : s.entry key with
  | none =>
    have hempty : s.snapshotOrEmpty key =
        (Entry.new (.new s.windowId key s.runtime) s.currentDegraded).snapshot := by
      rw [snapshotOrEmpty, hentry]
    rw [hempty]
    exact ⟨rfl, fun _ => ⟨rfl, rfl⟩, fun e' he' => by simp [hentry] at he'⟩
  | some e =>
    obtain ⟨hnumbered, hlogged, hframe⟩ := hs key e hentry
    rw [snapshotOrEmpty_of_some hentry]
    refine ⟨hframe, fun hnone => by simp [hentry] at hnone, fun e' he' => ?_⟩
    obtain rfl := Option.some.inj (hentry.symm.trans he')
    exact ⟨e, hnumbered, .refl hnumbered hlogged, rfl, rfl, fun _ => rfl⟩

theorem snapshotOrEmpty_rev : (s.snapshotOrEmpty key).rev = s.revOr key := by
  rw [snapshotOrEmpty, revOr, ConversationSet.rev]
  cases s.entry key <;> rfl

theorem Seen.le (h : Seen s key c) : c.rev ≤ s.revOr key := by
  cases hentry : s.entry key with
  | none =>
    rw [(h.empty hentry).1]
    exact Nat.zero_le _
  | some e' =>
    obtain ⟨e, -, hleads, hrev, -⟩ := h.moment e' hentry
    rw [revOr_of_some hentry, hrev]
    exact hleads.le

theorem Seen.current (h : Seen s key c) (hrev : c.rev = s.revOr key) : Shown s key c := by
  cases hentry : s.entry key with
  | none =>
    obtain ⟨hzero, hturns⟩ := h.empty hentry
    refine ⟨hrev, ?_, fun hne => absurd hzero hne⟩
    rw [hturns, snapshotOrEmpty, hentry]
    rfl
  | some e' =>
    obtain ⟨e, hnumbered, hleads, hrev', hturns, hall⟩ := h.moment e' hentry
    have hsame : e'.rev = e.rev := by rw [← hrev', hrev, revOr_of_some hentry]
    have hsnapshot := snapshot_eq_of_leads hleads hnumbered hsame
    refine ⟨hrev, ?_, fun hne => ?_⟩
    · rw [snapshotOrEmpty_of_some hentry, hsnapshot]
      exact hturns
    · rw [snapshotOrEmpty_of_some hentry, hsnapshot]
      exact hall (hrev' ▸ hne)

/-- A delta from the moment that is held. -/
theorem Seen.delta (h : Seen s key c) (hs : Sound s)
    (hdelta : s.deltaSince key c.rev = some (toRev, patches))
    (hvisible : s.visible key = some visible) :
    afterDelta c toRev patches visible = s.snapshotOrEmpty key := by
  cases hentry : s.entry key with
  | none => simp [deltaSince, hentry] at hdelta
  | some e' =>
    obtain ⟨e, hnumbered, hleads, hrev, hturns, -⟩ := h.moment e' hentry
    have hframe : (c.windowId, c.agentId, c.runtime) = e'.draft.frame :=
      h.frame.trans (hs key e' hentry).2.2.symm
    simp only [Draft.frame, Prod.mk.injEq] at hframe
    have hnow : e'.visible = visible := by
      rwa [ConversationSet.visible, hentry, Option.map_some, Option.some.injEq] at hvisible
    simp only [deltaSince, hentry] at hdelta
    split_ifs at hdelta with hwindow
    obtain ⟨rfl, rfl⟩ := Prod.mk.inj (Option.some.inj hdelta)
    have hfold := foldl_applyPatch_of_leads hleads hnumbered (by omega)
    rw [snapshotOrEmpty_of_some hentry, ← hnow]
    simp only [afterDelta, Entry.snapshot, Entry.visible, hturns, hframe.1, hframe.2.1,
      hframe.2.2]
    rw [hrev]
    exact congrArg _ hfold

end Seen

end Anthrex.Conversation
