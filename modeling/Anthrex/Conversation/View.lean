import Anthrex.Conversation.Store

/-!
# The client's view

What a client keeps of the conversations it shows (`tui/src/conversation.rs`), and what a
snapshot and a delta do to it.
-/

namespace Anthrex.Conversation

/-- One conversation on the trail. -/
structure Level where
  agentId : Option String := none
  conversation : Option Conversation := none
  /-- The blocks that are unfolded, by turn and index. -/
  unfolded : List (ℕ × ℕ) := []
  awaitingSnapshot : Bool := false
  deriving DecidableEq, Repr

/-- The one effect of an update: a subscription to a conversation. -/
structure Subscribe where
  windowId : ℕ
  agentId : Option String
  deriving DecidableEq, Repr

structure ConversationView where
  isOpen : Bool := false
  windowId : ℕ := 0
  levels : List Level := []
  unlinked : Bool := false
  deriving DecidableEq, Repr

/-- The place of a turn among those in order of their ids, or where it would go. -/
def binarySearch (turns : List Turn) (id : ℕ) : Except ℕ ℕ :=
  let place := (turns.takeWhile (·.id < id)).length
  if (turns[place]?).any (·.id = id) then .ok place else .error place

/-- A patch on the turns of a client. -/
def applyPatch (turns : List Turn) : TurnPatch → List Turn
  | .upsert turn =>
    match binarySearch turns turn.id with
    | .ok place => turns.set place turn
    | .error place => turns.insertIdx place turn
  | .drop id => turns.filter (·.id ≠ id)

namespace ConversationView

def levelIndex (v : ConversationView) (windowId : ℕ) (agentId : Option String) : Option ℕ :=
  if !v.isOpen || windowId ≠ v.windowId then none
  else v.levels.findIdx? (·.agentId = agentId)

/-- The conversation held for a key. -/
def held (v : ConversationView) (windowId : ℕ) (agentId : Option String) : Option Conversation :=
  (v.levelIndex windowId agentId).bind fun i => (v.levels[i]?).bind Level.conversation

def setLevel (v : ConversationView) (i : ℕ) (f : Level → Level) : ConversationView :=
  { v with levels := v.levels.modify i f }

/-- A snapshot replaces what is held, in the order of the ids. -/
def onSnapshot (v : ConversationView) (windowId : ℕ) (agentId : Option String)
    (conversation : Conversation) : ConversationView :=
  match v.levelIndex windowId agentId with
  | none => v
  | some i => v.setLevel i fun level =>
    { level with
      conversation := some { conversation with
        turns := conversation.turns.mergeSort fun t u => t.id ≤ u.id }
      awaitingSnapshot := false }

def subscribe (v : ConversationView) (agentId : Option String) : List Subscribe :=
  if v.unlinked then [] else [⟨v.windowId, agentId⟩]

/-- A level after a delta that starts where it is. -/
def patched (conversation : Conversation) (toRev : ℕ) (patches : List TurnPatch) (visible : Visible)
    (level : Level) : Level :=
  { level with
    conversation := some { conversation with
      turns := patches.foldl applyPatch conversation.turns
      rev := toRev
      sessionId := visible.sessionId
      degraded := visible.degraded
      droppedTurns := visible.droppedTurns
      droppedBy := visible.droppedBy }
    unfolded := level.unfolded.filter fun x => .drop x.1 ∉ patches }

/-- A delta that does not start at the revision that is held is answered with a subscription. -/
def onDelta (v : ConversationView) (windowId : ℕ) (agentId : Option String) (fromRev toRev : ℕ)
    (patches : List TurnPatch) (visible : Visible) : ConversationView × List Subscribe :=
  match v.levelIndex windowId agentId with
  | none => (v, [])
  | some i =>
    match v.levels[i]? with
    | none => (v, [])
    | some level =>
      if level.awaitingSnapshot then (v, [])
      else match level.conversation.filter (·.rev = fromRev) with
        | none => (v.setLevel i fun l => { l with awaitingSnapshot := true }, v.subscribe agentId)
        | some conversation => (v.setLevel i (patched conversation toRev patches visible), [])

end ConversationView

end Anthrex.Conversation
