import Anthrex.Conversation.Store
import Anthrex.Data.MessagePack

/-!
# What a frame carries

A conversation goes to a client in MessagePack, with the names of its fields. What the caps
count for a document, a block or a turn is never less than what it takes there
(`byteSize_bounds`), so a conversation that the caps hold fits a frame.
-/

namespace Anthrex.Conversation

open Anthrex.MessagePack (Value size sizeFields sizeItems sizeNames)

/-! ## On the wire -/

variable (floatBits : String → UInt64)

def optional {α : Type} (f : α → Value) (o : Option α) : Value := o.elim .nil f

/-- A variant with its fields. -/
def variant (name : String) (fields : List (String × Value)) : Value := .map [(name, .map fields)]

def Number.wire : Number → Value
  | .int n => .int n
  | .float text => .float (floatBits text)

mutual

def Json.wire : Json → Value
  | .null => .nil
  | .bool b => .bool b
  | .number n => n.wire floatBits
  | .string s => .str s
  | .array items => .array (wireItems items)
  | .object fields => .map (wireFields fields)

def Json.wireItems : List Json → List Value
  | [] => []
  | item :: items => item.wire :: wireItems items

def Json.wireFields : List (String × Json) → List (String × Value)
  | [] => []
  | (key, item) :: fields => (key, item.wire) :: wireFields fields

end

def Role.wire : Role → Value
  | .user => .str "user"
  | .assistant => .str "assistant"
  | .system => .str "system"

def TurnState.wire : TurnState → Value
  | .running => .str "running"
  | .complete => .str "complete"

def ToolState.wire : ToolState → Value
  | .pending => .str "pending"
  | .ok => .str "ok"
  | .failed => .str "failed"
  | .denied => .str "denied"

def NoticeKind.wire : NoticeKind → Value
  | .permissionRequest => .str "permission_request"
  | .error => .str "error"
  | .compaction => .str "compaction"

def DropCause.wire : DropCause → Value
  | .turns => .str "turns"
  | .bytes => .str "bytes"

def DegradeReason.wire : DegradeReason → Value
  | .noTranscriptPath => .str "no_transcript_path"
  | .unreadable => .str "unreadable"
  | .unknownFormat => .str "unknown_format"
  | .tooLarge => .str "too_large"
  | .badRecord => .str "bad_record"
  | .misaligned => .str "misaligned"

def ToolResult.wire (r : ToolResult) : Value :=
  .map [("ok", .bool r.ok), ("summary", .str r.summary), ("detail", optional .str r.detail),
    ("truncated", .bool r.truncated)]

def Block.wire : Block → Value
  | .text content => variant "text" [("text", .str content)]
  | .toolCall call => variant "tool_call" [("id", optional .str call.id), ("name", .str call.name),
      ("summary", .str call.summary), ("input", optional (Json.wire floatBits) call.input),
      ("result", optional ToolResult.wire call.result), ("state", call.state.wire),
      ("duration_ms", optional (fun ms : ℕ => .int ms) call.durationMs)]
  | .subagentSpawn agentId kind label model => variant "subagent_spawn" [("agent_id", .str agentId),
      ("kind", .str kind), ("label", .str label), ("model", optional .str model)]
  | .notice kind content => variant "notice" [("kind", kind.wire), ("text", .str content)]

def Turn.wire (t : Turn) : Value :=
  .map [("id", .int t.id), ("role", t.role.wire), ("at_unix_secs", .int t.atUnixSecs),
    ("state", t.state.wire), ("blocks", .array (t.blocks.map (Block.wire floatBits)))]

def Conversation.wire (c : Conversation) : Value :=
  .map [("window_id", .int c.windowId), ("agent_id", optional .str c.agentId),
    ("session_id", optional .str c.sessionId), ("runtime", .str c.runtime.label),
    ("rev", .int c.rev), ("degraded", optional DegradeReason.wire c.degraded),
    ("dropped_turns", .int c.droppedTurns), ("dropped_by", optional DropCause.wire c.droppedBy),
    ("turns", .array (c.turns.map (Turn.wire floatBits)))]

/-- What a conversation takes beside its turns, at most: its ids have no bound of their own. -/
def Conversation.headerSize (c : Conversation) : ℕ := 157 + optionSize c.agentId + optionSize c.sessionId

variable {floatBits}

/-! ## Sizes -/

theorem size_optional_str_le (s : Option String) : size (optional .str s) ≤ 5 + optionSize s := by
  cases s with
  | none => simp [optional, optionSize]
  | some s => exact MessagePack.size_str_le s

theorem size_optional_le {α : Type} {f : α → Value} {n : ℕ} (hn : 1 ≤ n) (h : ∀ a, size (f a) ≤ n)
    (o : Option α) : size (optional f o) ≤ n := by
  cases o with
  | none => simpa [optional] using hn
  | some a => exact h a

mutual

theorem Json.size_wire_le : ∀ v : Json, size (v.wire floatBits) ≤ v.byteSize
  | .null => by simp [Json.wire, Json.byteSize]
  | .bool b => by simp [Json.wire, Json.byteSize]
  | .number (.int n) => by
    rw [Json.wire, Number.wire, Json.byteSize]
    exact MessagePack.size_int_le n
  | .number (.float text) => by simp [Json.wire, Number.wire, Json.byteSize]
  | .string s => by
    rw [Json.wire, Json.byteSize]
    exact MessagePack.size_str_le s
  | .array items => by
    rw [Json.wire, Json.byteSize]
    exact (MessagePack.size_array_le _).trans (Nat.add_le_add_left (Json.sizeItems_wire_le items) _)
  | .object fields => by
    rw [Json.wire, Json.byteSize]
    exact (MessagePack.size_map_le _).trans (Nat.add_le_add_left (Json.sizeFields_wire_le fields) _)

theorem Json.sizeItems_wire_le : ∀ items : List Json,
    sizeItems (Json.wireItems floatBits items) ≤ Json.itemsByteSize items
  | [] => by simp [Json.wireItems, Json.itemsByteSize]
  | item :: items => by
    rw [Json.wireItems, MessagePack.sizeItems_cons, Json.itemsByteSize]
    exact Nat.add_le_add (Json.size_wire_le item) (Json.sizeItems_wire_le items)

theorem Json.sizeFields_wire_le : ∀ fields : List (String × Json),
    sizeFields (Json.wireFields floatBits fields) ≤ Json.fieldsByteSize fields
  | [] => by simp [Json.wireFields, Json.fieldsByteSize]
  | (key, item) :: fields => by
    rw [Json.wireFields, MessagePack.sizeFields_cons, Json.fieldsByteSize]
    exact Nat.add_le_add (Nat.add_le_add (MessagePack.size_str_le key) (Json.size_wire_le item))
      (Json.sizeFields_wire_le fields)

end

theorem ToolResult.size_wire_le (r : ToolResult) : size r.wire ≤ 41 + r.byteSize := by
  have hsummary := MessagePack.size_str_le r.summary
  have hdetail := size_optional_str_le r.detail
  rw [ToolResult.wire, MessagePack.size_map (by simp), ToolResult.byteSize]
  have hnames : sizeNames [("ok", .bool r.ok), ("summary", .str r.summary),
    ("detail", optional .str r.detail), ("truncated", .bool r.truncated)] = 28 := rfl
  rw [hnames]
  simp only [List.map_cons, List.map_nil, MessagePack.sizeItems_cons, MessagePack.sizeItems_nil,
    MessagePack.size_bool]
  omega

theorem size_variant {name : String} {fields : List (String × Value)} {n : ℕ}
    (h : fields.length < 0x10) (hn : size (.str name) + sizeNames fields = n) :
    size (variant name fields) = n + 2 + sizeItems (fields.map Prod.snd) := by
  rw [variant, MessagePack.size_map (by simp), ← hn]
  simp only [sizeNames, List.map_cons, List.map_nil, MessagePack.sizeItems_cons,
    MessagePack.sizeItems_nil, MessagePack.size_map h]
  omega

theorem ToolState.size_wire_le (s : ToolState) : size s.wire ≤ 8 := by cases s <;> decide

theorem NoticeKind.size_wire_le (k : NoticeKind) : size k.wire ≤ 19 := by cases k <;> decide

theorem Role.size_wire_le (r : Role) : size r.wire ≤ 10 := by cases r <;> decide

theorem TurnState.size_wire_le (s : TurnState) : size s.wire ≤ 9 := by cases s <;> decide

theorem DropCause.size_wire_le (c : DropCause) : size c.wire ≤ 6 := by cases c <;> decide

theorem DegradeReason.size_wire_le (r : DegradeReason) : size r.wire ≤ 19 := by cases r <;> decide

theorem Block.size_wire_le (b : Block) : size (b.wire floatBits) ≤ b.byteSize := by
  -- the numbers are what the names of each variant take
  cases b with
  | text content =>
    have hcontent := MessagePack.size_str_le content
    rw [Block.wire, size_variant (n := 10) (by simp) rfl, Block.byteSize, blockOverhead]
    simp only [List.map_cons, List.map_nil, MessagePack.sizeItems_cons, MessagePack.sizeItems_nil]
    omega
  | toolCall call =>
    have hid := size_optional_str_le call.id
    have hname := MessagePack.size_str_le call.name
    have hsummary := MessagePack.size_str_le call.summary
    have hstate := call.state.size_wire_le
    have hms : size (optional (fun ms : ℕ => .int ms) call.durationMs) ≤ 9 :=
      size_optional_le (f := fun ms : ℕ => .int ms) (by decide)
        (fun ms => MessagePack.size_int_le ms) _
    have hinput : size (optional (Json.wire floatBits) call.input) ≤
        1 + (call.input.map Json.byteSize).getD 0 := by
      cases call.input with
      | none => exact le_rfl
      | some v => exact (Json.size_wire_le v).trans (Nat.le_add_left _ _)
    have hresult : size (optional ToolResult.wire call.result) ≤
        41 + (call.result.map ToolResult.byteSize).getD 0 := by
      cases call.result with
      | none => exact Nat.le_add_left 1 40
      | some r => exact r.size_wire_le
    rw [Block.wire, size_variant (n := 57) (by simp) rfl, Block.byteSize, blockOverhead]
    simp only [List.map_cons, List.map_nil, MessagePack.sizeItems_cons, MessagePack.sizeItems_nil]
    omega
  | subagentSpawn agentId kind label model =>
    have hid := MessagePack.size_str_le agentId
    have hkind := MessagePack.size_str_le kind
    have hlabel := MessagePack.size_str_le label
    have hmodel := size_optional_str_le model
    rw [Block.wire, size_variant (n := 41) (by simp) rfl, Block.byteSize, blockOverhead]
    simp only [List.map_cons, List.map_nil, MessagePack.sizeItems_cons, MessagePack.sizeItems_nil]
    omega
  | notice kind content =>
    have hkind := kind.size_wire_le
    have hcontent := MessagePack.size_str_le content
    rw [Block.wire, size_variant (n := 17) (by simp) rfl, Block.byteSize, blockOverhead]
    simp only [List.map_cons, List.map_nil, MessagePack.sizeItems_cons, MessagePack.sizeItems_nil]
    omega

theorem Turn.size_wire_le (t : Turn) : size (t.wire floatBits) ≤ t.byteSize := by
  have hid := MessagePack.size_int_le t.id
  have hrole := t.role.size_wire_le
  have hsecs := MessagePack.size_int_le t.atUnixSecs
  have hstate := t.state.size_wire_le
  have hblocks : sizeItems (t.blocks.map (Block.wire floatBits)) ≤
      t.blocks.foldr (fun b n => b.byteSize + n) 0 := by
    induction t.blocks with
    | nil => exact le_rfl
    | cons b blocks ih =>
      rw [List.map_cons, MessagePack.sizeItems_cons, List.foldr_cons]
      exact Nat.add_le_add b.size_wire_le ih
  have harray := MessagePack.size_array_le (t.blocks.map (Block.wire floatBits))
  rw [Turn.wire, MessagePack.size_map (by simp), Turn.byteSize, turnOverhead]
  have hnames : sizeNames [("id", .int t.id), ("role", t.role.wire),
    ("at_unix_secs", .int t.atUnixSecs), ("state", t.state.wire),
    ("blocks", .array (t.blocks.map (Block.wire floatBits)))] = 34 := rfl
  rw [hnames]
  simp only [List.map_cons, List.map_nil, MessagePack.sizeItems_cons, MessagePack.sizeItems_nil]
  omega

theorem sizeItems_turns_le (turns : List Turn) :
    sizeItems (turns.map (Turn.wire floatBits)) ≤ turns.foldr (fun t n => t.byteSize + n) 0 := by
  induction turns with
  | nil => exact le_rfl
  | cons t turns ih =>
    rw [List.map_cons, MessagePack.sizeItems_cons, List.foldr_cons]
    exact Nat.add_le_add t.size_wire_le ih

theorem Conversation.size_wire_le (c : Conversation) : size (c.wire floatBits) ≤
    c.turns.foldr (fun t n => t.byteSize + n) 0 + c.headerSize := by
  have hwindow := MessagePack.size_int_le c.windowId
  have hagent := size_optional_str_le c.agentId
  have hsession := size_optional_str_le c.sessionId
  have hruntime : size (.str c.runtime.label) ≤ 7 := by cases c.runtime <;> decide
  have hrev := MessagePack.size_int_le c.rev
  have hdegraded := size_optional_le (by decide) DegradeReason.size_wire_le c.degraded
  have hdropped := MessagePack.size_int_le c.droppedTurns
  have hcause := size_optional_le (by decide) DropCause.size_wire_le c.droppedBy
  have hturns : sizeItems (c.turns.map (Turn.wire floatBits)) ≤ _ := sizeItems_turns_le c.turns
  have harray := MessagePack.size_array_le (c.turns.map (Turn.wire floatBits))
  rw [Conversation.wire, MessagePack.size_map (by simp), Conversation.headerSize]
  have hnames : sizeNames [("window_id", .int c.windowId),
    ("agent_id", optional .str c.agentId), ("session_id", optional .str c.sessionId),
    ("runtime", .str c.runtime.label), ("rev", .int c.rev),
    ("degraded", optional DegradeReason.wire c.degraded), ("dropped_turns", .int c.droppedTurns),
    ("dropped_by", optional DropCause.wire c.droppedBy),
    ("turns", .array (c.turns.map (Turn.wire floatBits)))] = 82 := rfl
  rw [hnames]
  simp only [List.map_cons, List.map_nil, MessagePack.sizeItems_cons, MessagePack.sizeItems_nil]
  omega

/-! ## Under the caps -/

theorem Entry.overCap_dropOver (caps : Caps) (turns : List Turn) (e : Entry)
    (hturns : e.draft.turns = turns) : overCap caps (dropOver caps e turns).1.draft = none := by
  induction turns generalizing e with
  | nil =>
    rw [dropOver, overCap, hturns]
    rfl
  | cons removed rest ih =>
    rw [dropOver]
    split
    · assumption
    · exact ih _ rfl

/-- What the caps leave is not too large, or is one turn that is said to be. -/
theorem Entry.byteSize_enforceCaps_le {caps : Caps} {e : Entry}
    (h : (e.enforceCaps caps).1.oversizeLogged = false) :
    (e.enforceCaps caps).1.draft.byteSize ≤ caps.maxBytes := by
  have hover := overCap_dropOver caps e.draft.turns e rfl
  simp only [enforceCaps, decide_eq_false_iff_not, not_and, not_lt] at h ⊢
  generalize (dropOver caps e e.draft.turns).1.draft = d at h hover ⊢
  rw [overCap] at hover
  split at hover <;> rename_i hone
  · cases hturns : d.turns with
    | nil => simp [Draft.byteSize, hturns]
    | cons t turns =>
      rw [hturns, List.length_cons] at hone h
      exact h (by omega)
  · split at hover
    · cases hover
    · split at hover
      · cases hover
      · rename_i hbytes
        exact Nat.le_of_not_lt hbytes

/-- What the caps count is what a frame carries, at least. -/
theorem byteSize_bounds (floatBits : String → UInt64) :
    (∀ t : Turn, (MessagePack.encode (t.wire floatBits)).length ≤ t.byteSize) ∧
    (∀ v : Json, (MessagePack.encode (v.wire floatBits)).length ≤ v.byteSize) ∧
    ∀ (caps : Caps) (e : Entry), (e.enforceCaps caps).1.oversizeLogged = false →
      (MessagePack.encode ((e.enforceCaps caps).1.snapshot.wire floatBits)).length ≤
        caps.maxBytes + (e.enforceCaps caps).1.snapshot.headerSize := by
  refine ⟨Turn.size_wire_le, Json.size_wire_le, fun caps e h => ?_⟩
  have hturns := Entry.byteSize_enforceCaps_le h
  exact (Conversation.size_wire_le _).trans (Nat.add_le_add_right hturns _)

end Anthrex.Conversation
