import Anthrex.Conversation.Build
import Anthrex.Conversation.Enrich

/-!
# Revisions, deltas and caps

The conversations of one window (`conversation/entry.rs`, `conversation/store.rs`). A change
that a client can see is a revision: the turns that differ are patches, and so are the turns
that the caps drop. The last revisions' patches are kept, and a delta is those since a revision,
compacted.
-/

namespace Anthrex.Conversation

open Anthrex.Run (Runtime)

def deltaHistory : ℕ := 64

def maxSubagents : ℕ := 50

def maxConversationsPerWindow : ℕ := maxSubagents + 1

/-! ## One conversation -/

/-- What a client can see beside the turns. -/
structure Visible where
  sessionId : Option String
  degraded : Option DegradeReason
  droppedTurns : ℕ
  droppedBy : Option DropCause
  deriving DecidableEq, Repr

/-- A conversation as a client holds it. -/
structure Conversation where
  windowId : ℕ
  agentId : Option String
  sessionId : Option String
  runtime : Runtime
  rev : ℕ
  degraded : Option DegradeReason
  droppedTurns : ℕ
  droppedBy : Option DropCause
  turns : List Turn
  deriving DecidableEq, Repr

structure PatchBatch where
  rev : ℕ
  patches : List TurnPatch
  deriving DecidableEq, Repr

structure Entry where
  draft : Draft
  rev : ℕ := 0
  /-- The reader's reason. -/
  degraded : Option DegradeReason
  droppedTurns : ℕ := 0
  droppedBy : Option DropCause := none
  oversizeLogged : Bool := false
  oversizeReported : Bool := false
  history : List PatchBatch := []
  deriving DecidableEq, Repr

namespace Entry

/-- A conversation starts with the reason that holds then. -/
def new (draft : Draft) (degraded : Option DegradeReason) : Entry := { draft, degraded }

/-- The reason a client sees: the reader's first. -/
def shownDegraded (e : Entry) : Option DegradeReason :=
  e.degraded.or (if e.draft.enrichment.isMisaligned then some .misaligned else none)

def visible (e : Entry) : Visible :=
  ⟨e.draft.sessionId, e.shownDegraded, e.droppedTurns, e.droppedBy⟩

def snapshot (e : Entry) : Conversation :=
  { windowId := e.draft.windowId
    agentId := e.draft.agentId
    sessionId := e.draft.sessionId
    runtime := e.draft.runtime
    rev := e.rev
    degraded := e.shownDegraded
    droppedTurns := e.droppedTurns
    droppedBy := e.droppedBy
    turns := e.draft.turns }

/-- One more revision. -/
def recordRevision (e : Entry) (patches : List TurnPatch) : Entry :=
  let kept := if e.history.length = deltaHistory then e.history.tail else e.history
  { e with rev := e.rev + 1, history := kept ++ [⟨e.rev + 1, patches⟩] }

/-- Why a turn is to be dropped. The last one never is. -/
def overCap (caps : Caps) (d : Draft) : Option DropCause :=
  if d.turns.length ≤ 1 then none
  else if caps.maxTurns < d.turns.length then some .turns
  else if caps.maxBytes < d.byteSize then some .bytes
  else none

/-- The oldest turn is dropped. -/
def dropTurn (e : Entry) (removed : Turn) (rest : List Turn) (cause : DropCause) : Entry :=
  { e with
    draft := { e.draft with
      turns := rest
      droppedUserTurns := if removed.role = .user then saturatingAdd e.draft.droppedUserTurns 1
        else e.draft.droppedUserTurns
      enrichment := e.draft.enrichment.forgetTurn removed.id }
    droppedTurns := saturatingAdd e.droppedTurns 1
    droppedBy := some cause }

/-- The oldest turns are dropped while a cap is exceeded. -/
def dropOver (caps : Caps) (e : Entry) : (turns : List Turn) → Entry × List TurnPatch
  | [] => (e, [])
  | removed :: rest =>
    match overCap caps e.draft with
    | none => (e, [])
    | some cause =>
      let (e, drops) := dropOver caps (e.dropTurn removed rest cause) rest
      (e, .drop removed.id :: drops)

def enforceCaps (caps : Caps) (e : Entry) : Entry × List TurnPatch :=
  let (e, drops) := dropOver caps e e.draft.turns
  let isOversize : Bool := e.draft.turns.length = 1 ∧ caps.maxBytes < e.draft.byteSize
  ({ e with
     oversizeLogged := isOversize
     oversizeReported := isOversize && e.oversizeReported }, drops)

/-- What a mutation did: whether the draft changed, and whether a client can see it. -/
structure Mutation where
  changed : Bool
  revised : Bool
  deriving DecidableEq, Repr

/-- The turns that are new or differ. -/
def upserts (before after : List Turn) : List TurnPatch :=
  (after.filter fun t => before.reverse.find? (·.id = t.id) ≠ some t).map .upsert

/-- A change of the draft, as one revision where a client can see it. -/
def mutate (e : Entry) (caps : Option Caps) (f : Draft → Draft × Bool) : Entry × Mutation :=
  match f e.draft with
  | (d, false) => ({ e with draft := d }, ⟨false, false⟩)
  | (d, true) =>
    let patches := upserts e.draft.turns d.turns
    let capped := caps.elim ({ e with draft := d }, []) (enforceCaps · { e with draft := d })
    if patches ++ capped.2 ≠ [] ∨ capped.1.visible ≠ e.visible then
      (capped.1.recordRevision (patches ++ capped.2), ⟨true, true⟩)
    else (capped.1, ⟨true, false⟩)

end Entry

def TurnPatch.id : TurnPatch → ℕ
  | .upsert turn => turn.id
  | .drop id => id

/-- A patch that sets turn `id`. -/
def TurnPatch.upserts (id : ℕ) : TurnPatch → Bool
  | .upsert turn => turn.id = id
  | .drop _ => false

/-- Of the patches of a turn that set it, only the last is kept, and none before it is dropped. -/
def compactPatches (patches : List TurnPatch) : List TurnPatch :=
  patches.foldl (fun result patch => result.filter (fun p => !p.upserts patch.id) ++ [patch]) []

/-! ## The conversations of a window -/

structure ConversationSet where
  windowId : ℕ
  runtime : Runtime
  entries : List (Option String × Entry) := []
  currentDegraded : Option DegradeReason := none
  deriving DecidableEq, Repr

namespace ConversationSet

variable (lib : Library)

def entry (s : ConversationSet) (key : Option String) : Option Entry := s.entries.lookup key

def snapshot (s : ConversationSet) (key : Option String) : Option Conversation :=
  (s.entry key).map Entry.snapshot

def rev (s : ConversationSet) (key : Option String) : Option ℕ := (s.entry key).map Entry.rev

def visible (s : ConversationSet) (key : Option String) : Option Visible :=
  (s.entry key).map Entry.visible

/-- The patches since a revision, where they are still kept. -/
def deltaSince (s : ConversationSet) (key : Option String) (fromRev : ℕ) :
    Option (ℕ × List TurnPatch) :=
  match s.entry key with
  | none => none
  | some e =>
    if e.rev < fromRev ∨ deltaHistory < e.rev - fromRev then none
    else some (e.rev, compactPatches
      ((e.history.filter fun b => fromRev < b.rev ∧ b.rev ≤ e.rev).flatMap PatchBatch.patches))

/-- One slot is kept for the root. -/
def hasRoomForANewKey (s : ConversationSet) : Bool :=
  s.entries.length + (if (s.entry none).isSome then 0 else 1) < maxConversationsPerWindow

/-- Where there is no room for a new key, the root stands in. -/
def resolveKey (s : ConversationSet) (key : Option String) : Option String :=
  if key = none ∨ (s.entry key).isSome ∨ s.hasRoomForANewKey then key else none

/-- Every conversation is changed. -/
def mapEntries (s : ConversationSet) (f : Option String → Entry → Entry) : ConversationSet :=
  { s with entries := s.entries.map fun x => (x.1, f x.1 x.2) }

/-- The conversation of a key is replaced. -/
def setEntry (s : ConversationSet) (key : Option String) (e : Entry) : ConversationSet :=
  s.mapEntries fun k old => if k = key then e else old

/-- A change of the draft of a key. A new conversation is kept where its draft changed. -/
def touch (s : ConversationSet) (key : Option String) (caps : Caps) (f : Draft → Draft × Bool) :
    ConversationSet :=
  let resolved := s.resolveKey key
  match s.entry resolved with
  | some e => s.setEntry resolved (e.mutate (some caps) f).1
  | none =>
    let r := (Entry.new (.new s.windowId resolved s.runtime) s.currentDegraded).mutate (some caps) f
    if r.2.changed then { s with entries := s.entries ++ [(resolved, r.1)] } else s

/-- A hook on a draft, with the parked records tried again in the same revision. -/
def hookOnto (runtime : Runtime) (hook : ParsedHook) (spawn : Option SpawnOrigin)
    (nowUnixSecs now : ℕ) (caps : Caps) (d : Draft) : Draft × Bool :=
  let (d, built) := buildApply lib d runtime hook spawn nowUnixSecs now caps
  let (d, retried) := retry d
  (d, built || retried)

/-- The first turn of a sub-agent. -/
def seedTurn (nowUnixSecs : ℕ) (d : Draft) : Draft × Bool :=
  (d.pushTurn .assistant .running [] nowUnixSecs, true)

/-- A hook. The start of a sub-agent is a block of its parent's, and a new conversation where
    there is room. -/
def onHook (s : ConversationSet) (runtime : Runtime) (hook : ParsedHook) (spawn : Option SpawnOrigin)
    (nowUnixSecs now : ℕ) (caps : Caps) : ConversationSet :=
  if hook.kind = .subagentStart then
    let s := s.touch (spawn.bind SpawnOrigin.parentId) caps
      (hookOnto lib runtime hook spawn nowUnixSecs now caps)
    match hook.agentId with
    | none => s
    | some child =>
      if (s.entry (some child)).isNone ∧ s.hasRoomForANewKey then
        s.touch (some child) caps (seedTurn nowUnixSecs)
      else s
  else s.touch hook.agentId caps (hookOnto lib runtime hook spawn nowUnixSecs now caps)

/-- The reader's reason, on one conversation. -/
def degrade (reason : Option DegradeReason) (e : Entry) : Entry :=
  let e' := { e with degraded := reason }
  if e'.visible ≠ e.visible then e'.recordRevision [] else e'

def setDegraded (s : ConversationSet) (reason : Option DegradeReason) : ConversationSet :=
  { s with currentDegraded := reason }.mapEntries fun _ => degrade reason

/-- The records of the root's transcript. -/
def enrich (s : ConversationSet) (records : List Record) (caps : Caps) : ConversationSet :=
  match s.entry none with
  | none => s
  | some e => s.setEntry none (e.mutate (some caps) (enrichApply · records caps)).1

/-- A reset, and a batch. -/
def resetThenApply (records : List Record) (caps : Caps) (d : Draft) : Draft × Bool :=
  let (d, wasReset) := reset d
  let (d, applied) := enrichApply d records caps
  (d, wasReset || applied)

/-- The file is read again from its start. -/
def restartEnrichment (s : ConversationSet) (records : List Record) (caps : Caps) : ConversationSet :=
  s.mapEntries fun key e =>
    if key = none then (e.mutate (some caps) (resetThenApply records caps)).1
    else (e.mutate none reset).1

def resetEnrichment (s : ConversationSet) : ConversationSet :=
  s.mapEntries fun _ e => (e.mutate none reset).1

/-- A reset if asked for, then the open at the file's end, then a batch. -/
def openThenApply (records : List Record) (restart : Bool) (caps : Caps) (d : Draft) : Draft × Bool :=
  let (d, wasReset) := if restart then reset d else (d, false)
  let (d, opened) := openSessionAtEnd d
  let (d, applied) := enrichApply d records caps
  (d, wasReset || opened || applied)

/-- The pass on which a resumed session's file was opened at its end. -/
def openAtEnd (s : ConversationSet) (records : List Record) (restart : Bool) (caps : Caps) :
    ConversationSet :=
  s.mapEntries fun key e =>
    if key = none then (e.mutate (some caps) (openThenApply records restart caps)).1
    else if restart then (e.mutate none reset).1
    else e

end ConversationSet

end Anthrex.Conversation
