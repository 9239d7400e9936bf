import Anthrex.Conversation.Draft
import Anthrex.Conversation.Summary

/-!
# Building from hooks

One hook onto a draft (`conversation/build.rs`, `conversation/build_failure.rs`). Hooks are
what creates, closes and orders turns, and sets the state of a call. Every function says
whether it changed the draft.
-/

namespace Anthrex.Conversation

open Lists
open Anthrex.Run (Runtime)

variable (lib : Library)

/-! ## Sessions and prompts -/

/-- Whether a start names another session or another file. -/
def switching (d : Draft) (hook : ParsedHook) : Bool :=
  d.sessionId ≠ hook.sessionId || d.transcriptPath ≠ hook.transcriptPath

/-- The sources that promise a new file. -/
def isFresh (source : Option String) : Bool := source = some "startup" || source = some "clear"

/-- Any other file may hold earlier turns, and is read from its end. -/
def opensAtEnd (d : Draft) (hook : ParsedHook) (source : Option String) : Bool :=
  hook.transcriptPath.isSome && switching d hook && !isFresh source

/-- Another session goes on in another file. -/
def cleared (d : Draft) (hook : ParsedHook) : Bool :=
  d.sessionId ≠ hook.sessionId && d.transcriptPath.isSome && hook.transcriptPath.isSome &&
    d.transcriptPath ≠ hook.transcriptPath

/-- The session's prompts count from where the window is. -/
def rebase (d : Draft) (atEnd : Bool) : Draft × Bool :=
  -- a prompt that came before its own session start is counted, and is not of the session
  let reversed := atEnd && d.openTurnIndex.isSome
  { d with
    sessionBase := d.userCount - (if reversed then 1 else 0)
    newSession := true }.beginSession

/-- What a start does before it names its session. -/
def switchSession (d : Draft) (hook : ParsedHook) (source : Option String) : Draft × Bool :=
  let atEnd := opensAtEnd d hook source
  let pending := if hook.transcriptPath.isSome && switching d hook then atEnd else d.atEndPending
  if atEnd || cleared d hook then rebase { d with atEndPending := pending } atEnd
  else ({ d with atEndPending := pending }, false)

def sessionStart (d : Draft) (hook : ParsedHook) (source : Option String) : Draft × Bool :=
  let (d₁, began) := switchSession d hook source
  ({ d₁ with sessionId := hook.sessionId, transcriptPath := hook.transcriptPath },
    began || d.sessionId ≠ hook.sessionId || d.transcriptPath ≠ hook.transcriptPath)

def userPromptSubmit (d : Draft) (hook : ParsedHook) (nowUnixSecs : ℕ) : Draft × Bool :=
  let d := d.closeOpenTurn.1
  let d := d.pushTurn .user .complete [.text (hook.prompt.getD "")] nowUnixSecs
  (d.pushTurn .assistant .running [] nowUnixSecs, true)

/-! ## Calls -/

def preToolUse (d : Draft) (hook : ParsedHook) (nowUnixSecs now : ℕ) (caps : Caps) : Draft × Bool :=
  let name := hook.toolName.getD "tool"
  let d := d.appendToOpenTurn (.toolCall
    { id := hook.toolUseId
      name := name
      summary := forTool lib name hook.toolInput
      input := capInput hook.toolInput caps.maxResultBytes
      result := none
      state := .pending
      durationMs := none }) nowUnixSecs
  ({ d with toolStarted := d.toolStarted ++ [(hook.toolUseId, name, now)] }, true)

/-- The candidate that a result is for: the last one of its id where it has one, else the first
    one of its name. -/
def selectByTier (candidates : List (ℕ × Option String × String)) (toolUseId toolName : Option String) :
    Option ℕ :=
  match toolUseId with
  | some want => (candidates.reverse.find? (·.2.1 = some want)).map (·.1)
  | none => toolName.bind fun want => (candidates.find? (·.2.2 = want)).map (·.1)

/-- The id and the name of a call that is pending. -/
def Block.pendingCall : Block → Option (Option String × String)
  | .toolCall call => if call.state = .pending then some (call.id, call.name) else none
  | _ => none

def findTarget (blocks : List Block) (hook : ParsedHook) : Option ℕ :=
  selectByTier (blocks.zipIdx.filterMap fun b => b.1.pendingCall.map (b.2, ·))
    hook.toolUseId hook.toolName

/-- The start of the call that a result is for, which is then forgotten. -/
def takeToolStart (d : Draft) (hook : ParsedHook) : Draft × Option ℕ :=
  match selectByTier (d.toolStarted.zipIdx.map fun s => (s.2, s.1.1, s.1.2.1))
      hook.toolUseId hook.toolName with
  | some i => ({ d with toolStarted := d.toolStarted.eraseIdx i }, (d.toolStarted[i]?).map (·.2.2))
  | none => (d, none)

/-- The line a result is shown as. -/
def resultSummary (response : Option Json) (max : ℕ) : String :=
  let capped := (capBytes (renderResponse lib response) max).1
  let line := match (response.bind responseText).map fun text => (capBytes text max).1 with
    | some text => (Lessons.strLines text.toList).find? fun l => !(Run.trim l).isEmpty
    | none => (Lessons.strLines capped.toList).head?
  truncateGraphemes lib (String.ofList (line.getD []))

/-- The result a hook reports. -/
def resultOf (hook : ParsedHook) (caps : Caps) : ToolResult :=
  { ok := responseIsOk hook.toolResponse
    summary := resultSummary lib hook.toolResponse caps.maxResultBytes
    detail := none
    truncated := hook.toolResultTruncated = some true ||
      (capBytes (renderResponse lib hook.toolResponse) caps.maxResultBytes).2 }

/-- The milliseconds from `started` to `now`, in nanoseconds. -/
def durationMs (started now : ℕ) : ℕ := min ((now - started) / 1000000) u32Max

/-- A call with its result. -/
def ToolCall.finish (call : ToolCall) (result : ToolResult) (duration : Option ℕ) : ToolCall :=
  { call with
    result := some result
    state := if result.ok then .ok else .failed
    durationMs := duration }

def Block.finish (result : ToolResult) (duration : Option ℕ) : Block → Block
  | .toolCall call => .toolCall (call.finish result duration)
  | b => b

def postToolUse (d : Draft) (hook : ParsedHook) (now : ℕ) (caps : Caps) : Draft × Bool :=
  match d.openTurnIndex with
  | none => (d, false)
  | some i =>
    match (d.turns[i]?).bind fun t => findTarget t.blocks hook with
    | none => (d, false)
    | some j =>
      let (d, started) := takeToolStart d hook
      let block := Block.finish (resultOf lib hook caps) (started.map fun s => durationMs s now)
      ({ d with turns := d.turns.modify i fun t => { t with blocks := t.blocks.modify j block } },
        true)

/-- A failure closes its call as a result that is an error. -/
def postToolUseFailure (d : Draft) (hook : ParsedHook) (now : ℕ) (caps : Caps) : Draft × Bool :=
  let error := hook.error.getD ""
  let text := if (Run.trim error.toList).isEmpty then
      if hook.isInterrupt = some true then "interrupted" else "failed"
    else error
  postToolUse lib d { hook with
    kind := .postToolUse
    toolResponse := some (.object [("error", .string text)]) } now caps

/-! ## Notices and spawns -/

def permissionRequest (d : Draft) (hook : ParsedHook) (nowUnixSecs : ℕ) : Draft × Bool :=
  let text := match hook.toolName with
    | some name => name ++ " needs permission"
    | none => "waiting for permission"
  (d.appendToOpenTurn (.notice .permissionRequest text) nowUnixSecs, true)

def notification (d : Draft) (hook : ParsedHook) (nowUnixSecs : ℕ) : Draft × Bool :=
  if hook.notificationType ≠ some "permission_prompt" then (d, false)
  else (d.appendToOpenTurn (.notice .permissionRequest "waiting for permission") nowUnixSecs, true)

def subagentStart (d : Draft) (hook : ParsedHook) (spawn : Option SpawnOrigin) (nowUnixSecs : ℕ) :
    Draft × Bool :=
  let agentId := hook.agentId.getD ""
  let block := match spawn with
    | some origin => .subagentSpawn agentId origin.kind (origin.label.getD "") origin.model
    | none => .subagentSpawn agentId (hook.agentType.getD "agent") "" none
  (d.appendToOpenTurn block nowUnixSecs, true)

/-! ## Hooks -/

/-- The first hook of the root that names a transcript teaches it, where no session start did. -/
def learn (d : Draft) (hook : ParsedHook) : Draft × Bool :=
  if d.agentId = none ∧ hook.kind ≠ .sessionStart ∧ d.transcriptPath = none ∧
      hook.transcriptPath.isSome then sessionStart d hook none
  else (d, false)

/-- What a hook does by its kind. -/
def handle (d : Draft) (hook : ParsedHook) (spawn : Option SpawnOrigin) (nowUnixSecs now : ℕ)
    (caps : Caps) : Draft × Bool :=
  match hook.kind with
  | .sessionStart => sessionStart d hook hook.sessionSource
  | .userPromptSubmit => userPromptSubmit d hook nowUnixSecs
  | .preToolUse => preToolUse lib d hook nowUnixSecs now caps
  | .postToolUse => postToolUse lib d hook now caps
  | .postToolUseFailure => postToolUseFailure lib d hook now caps
  | .permissionRequest => permissionRequest d hook nowUnixSecs
  | .notification => notification d hook nowUnixSecs
  | .stop | .stopFailure | .sessionEnd | .turnComplete => d.closeOpenTurn
  | .subagentStart => subagentStart d hook spawn nowUnixSecs
  | .subagentStop => d.closeOpenTurn

/-- One hook. -/
def buildApply (d : Draft) (runtime : Runtime) (hook : ParsedHook) (spawn : Option SpawnOrigin)
    (nowUnixSecs now : ℕ) (caps : Caps) : Draft × Bool :=
  let (d, learned) := learn { d with runtime := runtime } hook
  let (d, handled) := handle lib d hook spawn nowUnixSecs now caps
  (d, learned || handled)

end Anthrex.Conversation
