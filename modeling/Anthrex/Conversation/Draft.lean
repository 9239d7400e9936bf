import Anthrex.Conversation.Turns
import Anthrex.Run.Task

/-!
# Drafts

The working state of one conversation (`conversation/mod.rs`): the turns, what is needed to
build on, and what a transcript changed of them (`Enrichment`, of `conversation/enrich.rs`),
with the hooks' own values under each change.
-/

namespace Anthrex.Conversation

open Lists
open Anthrex.Run (Runtime)

def u32Max : ℕ := 4294967295

def saturatingAdd (m n : ℕ) : ℕ := min (m + n) u32Max

/-! ## Enrichment -/

/-- The hooks' values under an enriched call: each is there once a record overwrote it. -/
structure ToolOriginal where
  input : Option (Option Json) := none
  detail : Option (Option String × Bool) := none
  deriving DecidableEq, Repr

/-- A detail that waits for its call or its result. -/
structure PendingTool where
  toolUseId : String
  input : Option Json
  detail : Option (String × Bool)
  deriving DecidableEq, Repr

structure Enrichment where
  /-- The hook's text of each prompt that was replaced, by turn. -/
  prompts : List (ℕ × String) := []
  /-- The turns that start with an inserted text. -/
  prose : List ℕ := []
  tools : List ((ℕ × String) × ToolOriginal) := []
  /-- The first prompt that did not line up. -/
  misalignedAt : Option ℕ := none
  /-- The prompt that was checked last, and lined up. -/
  checked : Option ℕ := none
  pendingTools : List PendingTool := []
  pendingPositional : List Record := []
  deriving DecidableEq, Repr

namespace Enrichment

def isMisaligned (e : Enrichment) : Bool := e.misalignedAt.isSome

def forgetTurn (e : Enrichment) (id : ℕ) : Enrichment :=
  { e with
    prompts := e.prompts.filter (·.1 ≠ id)
    prose := e.prose.filter (· ≠ id)
    tools := e.tools.filter (·.1.1 ≠ id) }

/-- What is kept of call `key` after `f`. -/
def logTool (e : Enrichment) (key : ℕ × String) (f : ToolOriginal → ToolOriginal) : Enrichment :=
  { e with tools :=
      (key, f ((e.tools.lookup key).getD {})) :: e.tools.filter (·.1 ≠ key) }

/-- The prompt of turn `id` is kept, if none is yet. -/
def logPrompt (e : Enrichment) (id : ℕ) (text : String) : Enrichment :=
  match e.prompts.lookup id with
  | some _ => e
  | none => { e with prompts := (id, text) :: e.prompts }

end Enrichment

/-! ## Drafts -/

/-- A call that is still pending is denied. -/
def Block.deny : Block → Block
  | .toolCall call =>
    .toolCall (if call.state = .pending then { call with state := .denied } else call)
  | b => b

structure Draft where
  windowId : ℕ
  agentId : Option String
  runtime : Runtime
  sessionId : Option String := none
  transcriptPath : Option String := none
  turns : List Turn := []
  nextTurnId : ℕ := 1
  /-- The calls that have started, and when. -/
  toolStarted : List (Option String × String × ℕ) := []
  droppedUserTurns : ℕ := 0
  /-- The number of the session's first prompt among the window's. -/
  sessionBase : ℕ := 0
  newSession : Bool := false
  atEndPending : Bool := false
  enrichment : Enrichment := {}
  deriving DecidableEq, Repr

namespace Draft

def new (windowId : ℕ) (agentId : Option String) (runtime : Runtime) : Draft :=
  { windowId, agentId, runtime }

/-- The draft with a change of what it keeps of the transcript. -/
def mapEnrichment (d : Draft) (f : Enrichment → Enrichment) : Draft :=
  { d with enrichment := f d.enrichment }

def openTurnIndex (d : Draft) : Option ℕ := lastIdx? (·.state = .running) d.turns

def pushTurn (d : Draft) (role : Role) (state : TurnState) (blocks : List Block)
    (nowUnixSecs : ℕ) : Draft :=
  { d with
    nextTurnId := d.nextTurnId + 1
    turns := d.turns ++ [⟨d.nextTurnId, role, nowUnixSecs, state, blocks⟩]
    toolStarted := [] }

def ensureOpenAssistantTurn (d : Draft) (nowUnixSecs : ℕ) : Draft × ℕ :=
  match d.openTurnIndex with
  | some i => (d, i)
  | none => (d.pushTurn .assistant .running [] nowUnixSecs, d.turns.length)

def appendToOpenTurn (d : Draft) (block : Block) (nowUnixSecs : ℕ) : Draft :=
  let (d, i) := d.ensureOpenAssistantTurn nowUnixSecs
  { d with turns := d.turns.modify i fun t => { t with blocks := t.blocks ++ [block] } }

def closeOpenTurn (d : Draft) : Draft × Bool :=
  match d.openTurnIndex with
  | none => (d, false)
  | some i =>
    -- the turn was running, so that closing it is a change
    ({ d with
       turns := d.turns.modify i fun t => { t with state := .complete, blocks := t.blocks.map Block.deny }
       toolStarted := [] }, true)

def byteSize (d : Draft) : ℕ := d.turns.foldr (fun t n => t.byteSize + n) 0

/-- The prompts so far, with those that the caps dropped. -/
def userCount (d : Draft) : ℕ :=
  saturatingAdd d.droppedUserTurns ((d.turns.filter (·.role = .user)).length % (u32Max + 1))

/-- The alignment starts over, and says whether that shows. What was enriched stays. -/
def beginSession (d : Draft) : Draft × Bool :=
  (d.mapEnrichment fun e =>
      { e with misalignedAt := none, checked := none, pendingPositional := [] },
    d.enrichment.isMisaligned)

end Draft

end Anthrex.Conversation
