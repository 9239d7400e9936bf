import Anthrex.Conversation.Draft
import Anthrex.Conversation.Summary

/-!
# Enriching from the transcript

Records onto a draft (`conversation/enrich.rs`). A prompt is checked against the hook's before
anything that follows it lands; a detail finds its call by id. A record whose hook has not
landed is parked, and tried again with every hook and every batch. What a record overwrites is
kept, for `reset` to put back.
-/

namespace Anthrex.Conversation

open Lists

def pendingToolsMax : ℕ := 64

def pendingPositionalMax : ℕ := 64

namespace Block

def isText : Block → Bool
  | text _ => true
  | _ => false

def text? : Block → Option String
  | text content => some content
  | _ => none

def call? : Block → Option ToolCall
  | toolCall call => some call
  | _ => none

/-- A call of id `id`. -/
def isCall (id : String) (b : Block) : Bool := b.call?.any (·.id = some id)

end Block

/-! ## Places -/

/-- Where the turn of a prompt is: dropped, not there yet, or at an index. -/
inductive Slot
  | dropped
  | notYet
  | found (index : ℕ)
  deriving DecidableEq, Repr

namespace Draft

def inAlignedRange (d : Draft) (ordinal : ℕ) : Bool :=
  d.enrichment.misalignedAt.all (ordinal < ·)

/-- The indices of the prompts. -/
def userIndices (d : Draft) : List ℕ :=
  (d.turns.zipIdx.filter (·.1.role = .user)).map (·.2)

def userSlot (d : Draft) (ordinal : ℕ) : Slot :=
  let absolute := saturatingAdd ordinal d.sessionBase
  if absolute < d.droppedUserTurns then .dropped
  else match d.userIndices[absolute - d.droppedUserTurns]? with
    | some index => .found index
    | none => .notYet

def userTurnIndex (d : Draft) (ordinal : ℕ) : Option ℕ :=
  match d.userSlot ordinal with
  | .found index => some index
  | _ => none

/-- The prompt as the hook gave it. -/
def hookPrompt (d : Draft) (index : ℕ) : Option String :=
  (d.turns[index]?).bind fun turn =>
    (d.enrichment.prompts.lookup turn.id).or (turn.blocks.findSome? Block.text?)

/-- The last call of an id: its turn, its block, and the call. -/
def lastCall (d : Draft) (id : String) : Option (ℕ × ℕ × ToolCall) :=
  (lastIdx? (fun t => t.blocks.any (·.isCall id)) d.turns).bind fun i =>
    (d.turns[i]?).bind fun turn =>
      (lastIdx? (·.isCall id) turn.blocks).bind fun j =>
        ((turn.blocks[j]?).bind Block.call?).map fun call => (i, j, call)

/-- The draft with another block at a place. -/
def setBlock (d : Draft) (i j : ℕ) (b : Block) : Draft :=
  { d with turns := d.turns.modify i fun t => { t with blocks := t.blocks.set j b } }

/-- The id of the turn at an index. -/
def turnId (d : Draft) (i : ℕ) : ℕ := ((d.turns[i]?).map Turn.id).getD 0

end Draft

/-! ## Prompts and prose -/

/-- A record from another session is of another prompt, whatever its words. -/
def sameSession : (record hook : Option String) → Bool
  | some record, some hook => record = hook
  | _, _ => true

/-- How a prompt of a record lines up with the turn at `index`. -/
def Draft.alignedWith (d : Draft) (sessionId : Option String) (text : String) (human : Bool)
    (index : ℕ) : Alignment :=
  match d.hookPrompt index with
  | some hook => if sameSession sessionId d.sessionId then alignment hook text human else .misaligned
  | none => .misaligned

/-- The prompt of a turn, replaced by the transcript's. -/
def replacePrompt (d : Draft) (text : String) (index : ℕ) : Draft × Bool :=
  match (d.turns[index]?).bind fun t => t.blocks.findIdx? Block.isText with
  | none => (d, false)
  | some j =>
    let current := ((d.turns[index]?).bind fun t => (t.blocks[j]?).bind Block.text?).getD ""
    if current = text then (d, false)
    else ((d.setBlock index j (.text text)).mapEnrichment (·.logPrompt (d.turnId index) current), true)

/-- A checked prompt replaces the hook's text where it is equal to it up to white space. -/
def userText (d : Draft) (sessionId : Option String) (text : String) (human : Bool)
    (ordinal index : ℕ) : Draft × Bool :=
  match d.alignedWith sessionId text human index with
  | .misaligned =>
    (d.mapEnrichment fun e => { e with misalignedAt := some ordinal, checked := none }, true)
  | .contained => (d.mapEnrichment fun e => { e with checked := some ordinal }, false)
  | .exact => replacePrompt (d.mapEnrichment fun e => { e with checked := some ordinal }) text index

/-- A text with more prose. -/
def Block.appendProse (more : String) : Block → Block
  | .text prose => .text (prose ++ "\n\n" ++ more)
  | b => b

/-- Prose goes to the reply to the prompt that was checked last. -/
def assistantText (d : Draft) (ordinal : ℕ) (text : String) : Draft × Bool :=
  if !d.inAlignedRange ordinal || d.enrichment.checked ≠ some ordinal then (d, false)
  else match d.userTurnIndex ordinal with
    | none => (d, false)
    | some i =>
      match d.turns[i + 1]? with
      | none => (d, false)
      | some turn =>
        if turn.role ≠ .assistant then (d, false)
        else if turn.id ∈ d.enrichment.prose then
          ({ d with turns := d.turns.modify (i + 1) fun t =>
               { t with blocks := t.blocks.modify 0 (Block.appendProse text) } }, true)
        else
          ({ d with turns := d.turns.modify (i + 1) fun t =>
               { t with blocks := .text text :: t.blocks } }.mapEnrichment
             fun e => { e with prose := turn.id :: e.prose }, true)

/-- A record behind the parked prompt. Where the queue is full, the prompt's hook does not come:
    nothing is aligned from there. -/
def parkPositional (d : Draft) (record : Record) : Draft × Bool :=
  if d.enrichment.pendingPositional.length < pendingPositionalMax then
    (d.mapEnrichment fun e => { e with pendingPositional := e.pendingPositional ++ [record] }, false)
  else match d.enrichment.pendingPositional with
    | .userText _ first _ _ :: _ =>
      (d.mapEnrichment fun e =>
        { e with
          pendingPositional := []
          checked := none
          misalignedAt := some (e.misalignedAt.elim first (min first)) }, true)
    -- the queue starts with a prompt
    | _ => (d, true)

/-- A record with no queue ahead of it. -/
def positionalRecord (d : Draft) (record : Record) : Draft × Bool :=
  match record with
  | .userText sessionId ordinal text human =>
    if !d.inAlignedRange ordinal then (d, false)
    else match d.userSlot ordinal with
      | .dropped => (d, false)
      | .notYet => parkPositional d record
      | .found index => userText d sessionId text human ordinal index
  | .assistantText _ ordinal text => assistantText d ordinal text
  -- details are not positional
  | .toolDetail .. => (d, false)

/-! ## Details -/

namespace ToolOriginal

def keepInput (input : Option Json) (o : ToolOriginal) : ToolOriginal :=
  { o with input := o.input.or (some input) }

def keepDetail (detail : Option String × Bool) (o : ToolOriginal) : ToolOriginal :=
  { o with detail := o.detail.or (some detail) }

end ToolOriginal

/-- The input of a detail, onto its call at a place. -/
def inputOnto (d : Draft) (i j : ℕ) (call : ToolCall) (pending : PendingTool) :
    Draft × ToolCall × Bool :=
  match pending.input with
  | none => (d, call, false)
  | some input =>
    if call.input = some input then (d, call, false)
    else
      let enriched := { call with input := some input }
      ((d.setBlock i j (.toolCall enriched)).mapEnrichment
          (·.logTool (d.turnId i, pending.toolUseId) (.keepInput call.input)), enriched, true)

/-- The detail of a detail, onto its call at a place, with what has to wait for the result. -/
def detailOnto (d : Draft) (i j : ℕ) (call : ToolCall) (pending : PendingTool) :
    Draft × Bool × Option PendingTool :=
  match pending.detail with
  | none => (d, false, none)
  | some (capped, byteCapped) =>
    match call.result with
    -- a denied call never gets a result
    | none => (d, false, if call.state = .pending then some { pending with input := none } else none)
    | some result =>
      if result.detail = some capped ∧ result.truncated = byteCapped then (d, false, none)
      else
        let enriched := { call with
          result := some { result with detail := some capped, truncated := byteCapped } }
        ((d.setBlock i j (.toolCall enriched)).mapEnrichment
            (·.logTool (d.turnId i, pending.toolUseId) (.keepDetail (result.detail, result.truncated))),
          true, none)

/-- What can be applied of a detail, and what has to wait. -/
def toolDetail (d : Draft) (pending : PendingTool) : Draft × Bool × Option PendingTool :=
  match d.lastCall pending.toolUseId with
  | none => (d, false, if pending.input.isSome || pending.detail.isSome then some pending else none)
  | some (i, j, call) =>
    let (d₁, call₁, changed) := inputOnto d i j call pending
    let (d₂, changed', rest) := detailOnto d₁ i j call₁ pending
    (d₂, changed || changed', rest)

/-- The oldest of a full queue makes way. -/
def parkTool (d : Draft) (rest : PendingTool) : Draft :=
  d.mapEnrichment fun e =>
    { e with pendingTools :=
        (if pendingToolsMax ≤ e.pendingTools.length then e.pendingTools.tail else e.pendingTools) ++
          [rest] }

def toolDetailOrPark (d : Draft) (pending : PendingTool) : Draft × Bool :=
  let r := toolDetail d pending
  (r.2.2.elim r.1 (parkTool r.1), r.2.1)

/-! ## Batches -/

/-- Several steps, and whether one of them changed the draft. -/
def sweep {α : Type*} (step : Draft → α → Draft × Bool) : Draft → List α → Draft × Bool
  | d, [] => (d, false)
  | d, x :: l =>
    let (d₁, changed) := step d x
    let (d₂, changed') := sweep step d₁ l
    (d₂, changed || changed')

def retryTools (d : Draft) : Draft × Bool :=
  sweep toolDetailOrPark (d.mapEnrichment fun e => { e with pendingTools := [] })
    d.enrichment.pendingTools

/-- Whether a record is a prompt whose turn has yet to come. -/
def waits (d : Draft) : Record → Bool
  | .userText _ ordinal _ _ => d.inAlignedRange ordinal && d.userSlot ordinal = .notYet
  | _ => false

/-- The queue, up to the first prompt that still waits. It only gets shorter: `fuel` is its
    length. -/
def retryPositional (d : Draft) : (fuel : ℕ) → Draft × Bool
  | 0 => (d, false)
  | fuel + 1 =>
    match d.enrichment.pendingPositional with
    | [] => (d, false)
    | front :: queue =>
      if waits d front then (d, false)
      else
        let (d₁, changed) :=
          positionalRecord (d.mapEnrichment fun e => { e with pendingPositional := queue }) front
        let (d₂, changed') := retryPositional d₁ fuel
        (d₂, changed || changed')

def retry (d : Draft) : Draft × Bool :=
  let (d₁, changed) := retryTools d
  let (d₂, changed') := retryPositional d₁ d₁.enrichment.pendingPositional.length
  (d₂, changed || changed')

/-- One record of a batch. -/
def applyRecord (caps : Caps) (d : Draft) : Record → Draft × Bool
  | .toolDetail toolUseId input detail _ =>
    toolDetailOrPark d
      { toolUseId := toolUseId
        input := capInput input caps.maxResultBytes
        detail := detail.map (capBytes · caps.maxResultBytes) }
  | positional =>
    if d.enrichment.pendingPositional.isEmpty then positionalRecord d positional
    else parkPositional d positional

/-- A batch of records. -/
def enrichApply (d : Draft) (records : List Record) (caps : Caps) : Draft × Bool :=
  let (d₁, changed) := retry d
  let (d₂, changed') := sweep (applyRecord caps) d₁ records
  (d₂, changed || changed')

/-! ## Sessions and resets -/

/-- A session whose file is read from its end starts at the next prompt. One that came since the
    session started may lie on either side of that end: nothing of the session is aligned. -/
def openSessionAtEnd (d : Draft) : Draft × Bool :=
  let r := { d with sessionBase := d.userCount }.beginSession
  if d.userCount ≠ d.sessionBase then
    (r.1.mapEnrichment fun e => { e with misalignedAt := some 0 }, true)
  else r

namespace ToolOriginal

/-- A call with the hooks' values put back. -/
def restore (o : ToolOriginal) (call : ToolCall) : ToolCall :=
  { call with
    input := o.input.getD call.input
    result := match o.detail with
      | some (detail, truncated) => call.result.map fun r =>
          { r with detail := detail, truncated := truncated }
      | none => call.result }

end ToolOriginal

/-- The calls of a turn with the hooks' values put back, from the last block on: of each id only
    the last one, which is the one that a detail goes to. -/
def restoreCalls (originals : String → Option ToolOriginal) : (restored : List String) →
    (reversed : List Block) → List Block
  | _, [] => []
  | restored, b :: l =>
    match b.call?.bind fun call => call.id.bind fun id => (originals id).map (call, id, ·) with
    | some (call, id, original) =>
      if id ∈ restored then b :: restoreCalls originals restored l
      else .toolCall (original.restore call) :: restoreCalls originals (id :: restored) l
    | none => b :: restoreCalls originals restored l

namespace Enrichment

/-- A turn without what was changed of it. -/
def restorePrompt (e : Enrichment) (t : Turn) : Turn :=
  match e.prompts.lookup t.id, t.blocks.findIdx? Block.isText with
  | some original, some j => { t with blocks := t.blocks.set j (.text original) }
  | _, _ => t

def removeProse (e : Enrichment) (t : Turn) : Turn :=
  if t.id ∈ e.prose ∧ t.blocks.head?.any Block.isText then { t with blocks := t.blocks.tail } else t

def restoreTools (e : Enrichment) (t : Turn) : Turn :=
  { t with blocks :=
      (restoreCalls (fun id => e.tools.lookup (t.id, id)) [] t.blocks.reverse).reverse }

def restoreTurn (e : Enrichment) (t : Turn) : Turn := e.restoreTools (e.removeProse (e.restorePrompt t))

end Enrichment

/-- Every change of a record is undone, and the alignment starts over. -/
def reset (d : Draft) : Draft × Bool :=
  let e := d.enrichment
  ({ d with turns := d.turns.map e.restoreTurn, enrichment := {} },
    !e.prompts.isEmpty || !e.prose.isEmpty || !e.tools.isEmpty || e.isMisaligned)

end Anthrex.Conversation
