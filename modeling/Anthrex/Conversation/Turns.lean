import Anthrex.Data.Lists
import Mathlib.Data.Int.Notation

/-!
# Turns

What a conversation is made of (`proto/src/conversation.rs`): turns of blocks, and how many
bytes the caps count for each. What arrives for one: a hook of the agent (`hooks.rs`), which
builds the timeline, and a record of its transcript (`transcript/mod.rs`), which enriches it.
-/

namespace Anthrex.Conversation

/-! ## JSON -/

/-- A number of a JSON document: an integer, or a float as it is written. -/
inductive Number
  | int (n : ℤ)
  | float (text : String)
  deriving DecidableEq, Repr

inductive Json
  | null
  | bool (b : Bool)
  | number (n : Number)
  | string (s : String)
  | array (items : List Json)
  | object (fields : List (String × Json))
  deriving Repr

namespace Json

mutual

/-- Whether two documents are the same. -/
def same : (v w : Json) → Decidable (v = w)
  | null, null => .isTrue rfl
  | bool b, bool c => decidable_of_iff (b = c) (by simp)
  | number m, number n => decidable_of_iff (m = n) (by simp)
  | string s, string t => decidable_of_iff (s = t) (by simp)
  | array l, array k =>
    match sameList l k with
    | .isTrue h => .isTrue (by rw [h])
    | .isFalse h => .isFalse (by simpa using h)
  | object l, object k =>
    match sameFields l k with
    | .isTrue h => .isTrue (by rw [h])
    | .isFalse h => .isFalse (by simpa using h)
  | null, bool _ | null, number _ | null, string _ | null, array _ | null, object _
  | bool _, null | bool _, number _ | bool _, string _ | bool _, array _ | bool _, object _
  | number _, null | number _, bool _ | number _, string _ | number _, array _
  | number _, object _
  | string _, null | string _, bool _ | string _, number _ | string _, array _
  | string _, object _
  | array _, null | array _, bool _ | array _, number _ | array _, string _ | array _, object _
  | object _, null | object _, bool _ | object _, number _ | object _, string _
  | object _, array _ => .isFalse nofun

def sameList : (l k : List Json) → Decidable (l = k)
  | [], [] => .isTrue rfl
  | v :: l, w :: k =>
    match same v w, sameList l k with
    | .isTrue h, .isTrue h' => .isTrue (by rw [h, h'])
    | .isFalse h, _ => .isFalse (by simp [h])
    | _, .isFalse h => .isFalse (by simp [h])
  | [], _ :: _ | _ :: _, [] => .isFalse nofun

def sameFields : (l k : List (String × Json)) → Decidable (l = k)
  | [], [] => .isTrue rfl
  | (a, v) :: l, (b, w) :: k =>
    if hname : a = b then
      match same v w, sameFields l k with
      | .isTrue h, .isTrue h' => .isTrue (by rw [hname, h, h'])
      | .isFalse h, _ => .isFalse (by simp [h])
      | _, .isFalse h => .isFalse (by simp [h])
    else .isFalse (by simp [hname])
  | [], _ :: _ | _ :: _, [] => .isFalse nofun

end

instance : DecidableEq Json := same

/-- What a string, an array or a map takes beside its content. -/
def header : ℕ := 5

mutual

/-- What the caps count for a document: at least what a frame carries of it. -/
def byteSize : Json → ℕ
  | null | bool _ => 1
  | number _ => 9
  | string s => header + s.utf8ByteSize
  | array items => header + itemsByteSize items
  | object fields => header + fieldsByteSize fields

def itemsByteSize : List Json → ℕ
  | [] => 0
  | item :: items => byteSize item + itemsByteSize items

def fieldsByteSize : List (String × Json) → ℕ
  | [] => 0
  | (key, item) :: fields => header + key.utf8ByteSize + byteSize item + fieldsByteSize fields

end

def asObject : Json → Option (List (String × Json))
  | object fields => some fields
  | _ => none

def asStr : Json → Option String
  | string s => some s
  | _ => none

def asArray : Json → Option (List Json)
  | array items => some items
  | _ => none

end Json

/-! ## Turns -/

inductive Role
  | user
  | assistant
  | system
  deriving DecidableEq, Repr

inductive TurnState
  | running
  | complete
  deriving DecidableEq, Repr

inductive ToolState
  | pending
  | ok
  | failed
  | denied
  deriving DecidableEq, Repr

inductive NoticeKind
  | permissionRequest
  | error
  | compaction
  deriving DecidableEq, Repr

structure ToolResult where
  ok : Bool
  summary : String
  detail : Option String
  truncated : Bool
  deriving DecidableEq, Repr

structure ToolCall where
  id : Option String
  name : String
  summary : String
  input : Option Json
  result : Option ToolResult
  state : ToolState
  durationMs : Option ℕ
  deriving DecidableEq, Repr

inductive Block
  | text (text : String)
  | toolCall (call : ToolCall)
  | subagentSpawn (agentId kind label : String) (model : Option String)
  | notice (kind : NoticeKind) (text : String)
  deriving DecidableEq, Repr

structure Turn where
  id : ℕ
  role : Role
  atUnixSecs : ℕ
  state : TurnState
  blocks : List Block
  deriving DecidableEq, Repr

inductive TurnPatch
  | upsert (turn : Turn)
  | drop (id : ℕ)
  deriving DecidableEq, Repr

def blockOverhead : ℕ := 144

def turnOverhead : ℕ := 80

/-- The bytes of a text that may be missing. -/
def optionSize (s : Option String) : ℕ := (s.map String.utf8ByteSize).getD 0

def ToolResult.byteSize (r : ToolResult) : ℕ := r.summary.utf8ByteSize + optionSize r.detail

def Block.byteSize (b : Block) : ℕ :=
  blockOverhead + match b with
    | .text content => content.utf8ByteSize
    | .toolCall call => optionSize call.id + call.name.utf8ByteSize + call.summary.utf8ByteSize +
        (call.input.map Json.byteSize).getD 0 + (call.result.map ToolResult.byteSize).getD 0
    | .subagentSpawn agentId kind label model => agentId.utf8ByteSize + kind.utf8ByteSize +
        label.utf8ByteSize + optionSize model
    | .notice _ content => content.utf8ByteSize

def Turn.byteSize (t : Turn) : ℕ := turnOverhead + t.blocks.foldr (fun b n => b.byteSize + n) 0

inductive DropCause
  | turns
  | bytes
  deriving DecidableEq, Repr

inductive DegradeReason
  | noTranscriptPath
  | unreadable
  | unknownFormat
  | tooLarge
  | badRecord
  | misaligned
  deriving DecidableEq, Repr

/-! ## Hooks and records -/

inductive HookKind
  | sessionStart
  | userPromptSubmit
  | preToolUse
  | postToolUse
  | postToolUseFailure
  | permissionRequest
  | notification
  | stop
  | subagentStart
  | subagentStop
  | sessionEnd
  | turnComplete
  | stopFailure
  deriving DecidableEq, Repr

/-- A hook as the daemon read it, with the fields that a conversation reads. -/
structure ParsedHook where
  kind : HookKind
  sessionId : Option String := none
  agentId : Option String := none
  agentType : Option String := none
  toolName : Option String := none
  toolInput : Option Json := none
  notificationType : Option String := none
  transcriptPath : Option String := none
  toolUseId : Option String := none
  toolResponse : Option Json := none
  toolResultTruncated : Option Bool := none
  prompt : Option String := none
  sessionSource : Option String := none
  error : Option String := none
  isInterrupt : Option Bool := none
  deriving DecidableEq, Repr

/-- What the tracker knows of the spawn of a sub-agent. -/
structure SpawnOrigin where
  parentId : Option String
  kind : String
  label : Option String
  model : Option String
  deriving DecidableEq, Repr

/-- A line of a transcript. The positional ones carry the number of the prompt they belong to. -/
inductive Record
  | userText (sessionId : Option String) (ordinal : ℕ) (text : String) (human : Bool)
  | assistantText (sessionId : Option String) (ordinal : ℕ) (text : String)
  | toolDetail (toolUseId : String) (input : Option Json) (detail : Option String)
      (ok : Option Bool)
  deriving DecidableEq, Repr

/-- The `[conversation]` caps. -/
structure Caps where
  maxTurns : ℕ
  maxBytes : ℕ
  maxResultBytes : ℕ
  deriving DecidableEq, Repr

end Anthrex.Conversation
