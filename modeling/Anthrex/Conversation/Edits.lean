import Anthrex.Conversation.Build
import Anthrex.Conversation.Enrich

/-!
# What an edit of a draft may do

Hooks and records work on a draft in the same few ways: turns are added at the end under the
next ids, and no turn goes or changes places (`Edits.ids`); and what says that it changed
nothing has changed nothing that a client can see (`Edits.quiet`). Revisions rest on this.
-/

namespace Anthrex.Conversation

open Lists
open Anthrex.Run (Runtime)

variable {d d' d'' : Draft} {b b' : Bool}

/-- The fields that no edit changes. -/
def Draft.frame (d : Draft) : ℕ × Option String × Runtime := (d.windowId, d.agentId, d.runtime)

def Draft.ids (d : Draft) : List ℕ := d.turns.map Turn.id

/-- The ids of the turns go up, to below the next one. -/
structure Numbered (d : Draft) : Prop where
  sorted : d.ids.Pairwise (· < ·)
  below : ∀ id ∈ d.ids, id < d.nextTurnId

structure Edits (d : Draft) (r : Draft × Bool) : Prop where
  frame : r.1.frame = d.frame
  ids : d.ids <+: r.1.ids
  numbered : Numbered d → Numbered r.1
  quiet : r.2 = false → r.1.turns = d.turns ∧ r.1.sessionId = d.sessionId ∧
    r.1.enrichment.isMisaligned = d.enrichment.isMisaligned

namespace Edits

/-- An edit that leaves the turns and what shows beside them. -/
theorem silent (hframe : d'.frame = d.frame) (hturns : d'.turns = d.turns)
    (hnext : d'.nextTurnId = d.nextTurnId) (hsession : d'.sessionId = d.sessionId)
    (hmisaligned : d'.enrichment.isMisaligned = d.enrichment.isMisaligned) : Edits d (d', b) where
  frame := hframe
  ids := by simp only [Draft.ids, hturns, List.prefix_rfl]
  numbered h := ⟨by simpa only [Draft.ids, hturns] using h.sorted,
    by simpa only [Draft.ids, hturns, hnext] using h.below⟩
  quiet _ := ⟨hturns, hsession, hmisaligned⟩

theorem refl : Edits d (d, b) := silent rfl rfl rfl rfl rfl

/-- An edit inside the turns. -/
theorem inside (hframe : d'.frame = d.frame) (hids : d'.ids = d.ids)
    (hnext : d'.nextTurnId = d.nextTurnId) : Edits d (d', true) where
  frame := hframe
  ids := by simp only [hids, List.prefix_rfl]
  numbered h := ⟨hids ▸ h.sorted, by simpa only [hids, hnext] using h.below⟩
  quiet h := by simp at h

theorem trans {r : Draft × Bool} (h : Edits d (d', b)) (h' : Edits d' r) :
    Edits d (r.1, b || r.2) where
  frame := h'.frame.trans h.frame
  ids := h.ids.trans h'.ids
  numbered hd := h'.numbered (h.numbered hd)
  quiet hb := by
    obtain ⟨hb, hb'⟩ := Bool.or_eq_false_iff.1 hb
    obtain ⟨hturns, hsession, hmisaligned⟩ := h.quiet hb
    obtain ⟨hturns', hsession', hmisaligned'⟩ := h'.quiet hb'
    exact ⟨hturns'.trans hturns, hsession'.trans hsession, hmisaligned'.trans hmisaligned⟩

/-- More of the same, inside the turns. -/
theorem then_inside (h : Edits d (d', b)) (hframe : d''.frame = d'.frame) (hids : d''.ids = d'.ids)
    (hnext : d''.nextTurnId = d'.nextTurnId) : Edits d (d'', true) := by
  simpa using h.trans (inside hframe hids hnext)

theorem then_silent (h : Edits d (d', b)) (hframe : d''.frame = d'.frame)
    (hturns : d''.turns = d'.turns) (hnext : d''.nextTurnId = d'.nextTurnId)
    (hsession : d''.sessionId = d'.sessionId)
    (hmisaligned : d''.enrichment.isMisaligned = d'.enrichment.isMisaligned) :
    Edits d (d'', b) := by
  simpa using h.trans (silent hframe hturns hnext hsession hmisaligned (b := false))

end Edits

/-! ## Turns -/

theorem map_id_modify {l : List Turn} {i : ℕ} {f : Turn → Turn} (hf : ∀ t, (f t).id = t.id) :
    (l.modify i f).map Turn.id = l.map Turn.id := by
  induction l generalizing i with
  | nil => cases i <;> rfl
  | cons t l ih =>
    cases i with
    | zero => simp [hf]
    | succ i => simp [ih]

theorem pushTurn_edits (d : Draft) (role : Role) (state : TurnState) (blocks : List Block) (now : ℕ) :
    Edits d (d.pushTurn role state blocks now, true) where
  frame := rfl
  ids := ⟨[d.nextTurnId], by simp [Draft.ids, Draft.pushTurn]⟩
  numbered h := by
    have hids : (d.pushTurn role state blocks now).ids = d.ids ++ [d.nextTurnId] := by
      simp [Draft.ids, Draft.pushTurn]
    refine ⟨?_, ?_⟩
    · rw [hids, List.pairwise_append]
      refine ⟨h.sorted, List.pairwise_singleton _ _, fun id hid next hnext => ?_⟩
      rw [List.mem_singleton.1 hnext]
      exact h.below id hid
    · rw [hids]
      intro id hid
      show id < d.nextTurnId + 1
      rcases List.mem_append.1 hid with hid | hid
      · exact Nat.lt_succ_of_lt (h.below id hid)
      · exact Nat.lt_succ_of_le (List.mem_singleton.1 hid).le
  quiet h := by simp at h

theorem appendToOpenTurn_edits (d : Draft) (block : Block) (now : ℕ) :
    Edits d (d.appendToOpenTurn block now, true) := by
  have hopen : Edits d ((d.ensureOpenAssistantTurn now).1, true) := by
    rw [Draft.ensureOpenAssistantTurn]
    split
    · exact .refl
    · exact pushTurn_edits ..
  exact hopen.then_inside rfl (map_id_modify fun _ => rfl) rfl

theorem closeOpenTurn_edits (d : Draft) : Edits d d.closeOpenTurn := by
  rw [Draft.closeOpenTurn]
  split
  · exact .refl
  · exact .inside rfl (map_id_modify fun _ => rfl) rfl

theorem setBlock_ids (d : Draft) (i j : ℕ) (b : Block) : (d.setBlock i j b).ids = d.ids :=
  map_id_modify fun _ => rfl

/-! ## Hooks -/

variable (lib : Library)

theorem beginSession_edits (d : Draft) : Edits d d.beginSession where
  frame := rfl
  ids := List.prefix_rfl
  numbered h := ⟨h.sorted, h.below⟩
  quiet h := ⟨rfl, rfl, h.symm⟩

theorem switchSession_edits (d : Draft) (hook : ParsedHook) (source : Option String) :
    Edits d (switchSession d hook source) := by
  rw [switchSession]
  generalize (if hook.transcriptPath.isSome && switching d hook then _ else _) = pending
  split
  · exact ⟨rfl, List.prefix_rfl, fun h => ⟨h.sorted, h.below⟩, fun h => ⟨rfl, rfl, h.symm⟩⟩
  · exact .silent rfl rfl rfl rfl rfl

theorem sessionStart_edits (d : Draft) (hook : ParsedHook) (source : Option String) :
    Edits d (sessionStart d hook source) := by
  have hswitch := switchSession_edits d hook source
  refine ⟨hswitch.frame, hswitch.ids, fun hd => ?_, fun h => ?_⟩
  · exact ⟨(hswitch.numbered hd).sorted, (hswitch.numbered hd).below⟩
  · simp only [sessionStart, Bool.or_eq_false_iff, decide_eq_false_iff_not, not_not] at h
    obtain ⟨hturns, -, hmisaligned⟩ := hswitch.quiet h.1.1
    exact ⟨hturns, h.1.2.symm, hmisaligned⟩

theorem userPromptSubmit_edits (d : Draft) (hook : ParsedHook) (now : ℕ) :
    Edits d (userPromptSubmit d hook now) := by
  have hclose : Edits d (d.closeOpenTurn.1, d.closeOpenTurn.2) := closeOpenTurn_edits d
  have hpush := (hclose.trans (pushTurn_edits _ .user .complete [.text (hook.prompt.getD "")] now)).trans
    (pushTurn_edits _ .assistant .running [] now)
  rwa [Bool.or_true] at hpush

theorem preToolUse_edits (d : Draft) (hook : ParsedHook) (nowUnixSecs now : ℕ) (caps : Caps) :
    Edits d (preToolUse lib d hook nowUnixSecs now caps) :=
  (appendToOpenTurn_edits d _ nowUnixSecs).then_silent rfl rfl rfl rfl rfl

theorem takeToolStart_edits (d : Draft) (hook : ParsedHook) :
    Edits d ((takeToolStart d hook).1, false) := by
  rw [takeToolStart]
  split
  · exact .silent rfl rfl rfl rfl rfl
  · exact .refl

theorem postToolUse_edits (d : Draft) (hook : ParsedHook) (now : ℕ) (caps : Caps) :
    Edits d (postToolUse lib d hook now caps) := by
  rw [postToolUse]
  split
  · exact .refl
  split
  · exact .refl
  · exact (takeToolStart_edits d hook).then_inside rfl (map_id_modify fun _ => rfl) rfl

theorem notification_edits (d : Draft) (hook : ParsedHook) (now : ℕ) :
    Edits d (notification d hook now) := by
  rw [notification]
  split
  · exact .refl
  · exact appendToOpenTurn_edits ..

theorem learn_edits (d : Draft) (hook : ParsedHook) : Edits d (learn d hook) := by
  rw [learn]
  split
  · exact sessionStart_edits ..
  · exact .refl

theorem handle_edits (d : Draft) (hook : ParsedHook) (spawn : Option SpawnOrigin)
    (nowUnixSecs now : ℕ) (caps : Caps) :
    Edits d (handle lib d hook spawn nowUnixSecs now caps) := by
  rw [handle]
  split
  · exact sessionStart_edits ..
  · exact userPromptSubmit_edits ..
  · exact preToolUse_edits ..
  · exact postToolUse_edits ..
  · exact postToolUse_edits ..
  · exact appendToOpenTurn_edits ..
  · exact notification_edits ..
  · exact closeOpenTurn_edits d
  · exact closeOpenTurn_edits d
  · exact closeOpenTurn_edits d
  · exact closeOpenTurn_edits d
  · exact appendToOpenTurn_edits ..
  · exact closeOpenTurn_edits d

theorem buildApply_edits {runtime : Runtime} (hruntime : d.runtime = runtime) (hook : ParsedHook)
    (spawn : Option SpawnOrigin) (nowUnixSecs now : ℕ) (caps : Caps) :
    Edits d (buildApply lib d runtime hook spawn nowUnixSecs now caps) := by
  subst hruntime
  have hlearn : Edits d ((learn d hook).1, (learn d hook).2) := learn_edits d hook
  exact hlearn.trans (handle_edits lib _ hook spawn nowUnixSecs now caps)

/-! ## Records -/

theorem replacePrompt_edits (d : Draft) (text : String) (index : ℕ) :
    Edits d (replacePrompt d text index) := by
  rw [replacePrompt]
  split
  · exact .refl
  dsimp only
  split
  · exact .refl
  · exact .inside rfl (setBlock_ids ..) rfl

theorem userText_edits (d : Draft) (sessionId : Option String) (text : String) (human : Bool)
    (ordinal index : ℕ) : Edits d (userText d sessionId text human ordinal index) := by
  have hcheck : Edits d (d.mapEnrichment fun e => { e with checked := some ordinal }, false) :=
    .silent rfl rfl rfl rfl rfl
  rw [userText]
  split
  · exact .inside rfl rfl rfl
  · exact hcheck
  · simpa using hcheck.trans (replacePrompt_edits _ text index)

theorem assistantText_edits (d : Draft) (ordinal : ℕ) (text : String) :
    Edits d (assistantText d ordinal text) := by
  rw [assistantText]
  split
  · exact .refl
  split
  · exact .refl
  split
  · exact .refl
  split
  · exact .refl
  split
  · exact .inside rfl (map_id_modify fun _ => rfl) rfl
  · exact .inside rfl (map_id_modify fun _ => rfl) rfl

theorem parkPositional_edits (d : Draft) (record : Record) : Edits d (parkPositional d record) := by
  rw [parkPositional]
  split
  · exact .silent rfl rfl rfl rfl rfl
  split
  · exact .inside rfl rfl rfl
  · exact .refl

theorem positionalRecord_edits (d : Draft) (record : Record) :
    Edits d (positionalRecord d record) := by
  rw [positionalRecord.eq_def]
  split
  · split
    · exact .refl
    split
    · exact .refl
    · exact parkPositional_edits ..
    · exact userText_edits ..
  · exact assistantText_edits ..
  · exact .refl

theorem inputOnto_edits (d : Draft) (i j : ℕ) (call : ToolCall) (pending : PendingTool) :
    Edits d ((inputOnto d i j call pending).1, (inputOnto d i j call pending).2.2) := by
  rw [inputOnto]
  split
  · exact .refl
  split
  · exact .refl
  · exact .inside rfl (setBlock_ids ..) rfl

theorem detailOnto_edits (d : Draft) (i j : ℕ) (call : ToolCall) (pending : PendingTool) :
    Edits d ((detailOnto d i j call pending).1, (detailOnto d i j call pending).2.1) := by
  rw [detailOnto]
  split
  · exact .refl
  split
  · exact .refl
  split
  · exact .refl
  · exact .inside rfl (setBlock_ids ..) rfl

theorem toolDetail_edits (d : Draft) (pending : PendingTool) :
    Edits d ((toolDetail d pending).1, (toolDetail d pending).2.1) := by
  rw [toolDetail]
  split
  · exact .refl
  · exact (inputOnto_edits ..).trans (detailOnto_edits ..)

theorem toolDetailOrPark_edits (d : Draft) (pending : PendingTool) :
    Edits d (toolDetailOrPark d pending) := by
  have hdetail := toolDetail_edits d pending
  rw [toolDetailOrPark]
  cases (toolDetail d pending).2.2 with
  | none => exact hdetail
  | some rest => exact hdetail.then_silent rfl rfl rfl rfl rfl

theorem sweep_edits {α : Type*} {step : Draft → α → Draft × Bool}
    (hstep : ∀ d x, Edits d (step d x)) (d : Draft) (l : List α) : Edits d (sweep step d l) := by
  induction l generalizing d with
  | nil => exact .refl
  | cons x l ih => exact (hstep d x).trans (ih _)

theorem retryTools_edits (d : Draft) : Edits d (retryTools d) := by
  have hempty : Edits d (d.mapEnrichment fun e => { e with pendingTools := [] }, false) :=
    .silent rfl rfl rfl rfl rfl
  have hsweep := hempty.trans (sweep_edits toolDetailOrPark_edits _ d.enrichment.pendingTools)
  rwa [Bool.false_or] at hsweep

theorem retryPositional_edits (d : Draft) (fuel : ℕ) : Edits d (retryPositional d fuel) := by
  induction fuel generalizing d with
  | zero => exact .refl
  | succ fuel ih =>
    rw [retryPositional]
    split
    · exact .refl
    split
    · exact .refl
    rename_i front queue _ _
    have hpop : Edits d (d.mapEnrichment fun e => { e with pendingPositional := queue }, false) :=
      .silent rfl rfl rfl rfl rfl
    have hrest := (hpop.trans (positionalRecord_edits _ front)).trans (ih _)
    rwa [Bool.false_or] at hrest

theorem retry_edits (d : Draft) : Edits d (retry d) :=
  (retryTools_edits d).trans (retryPositional_edits _ _)

theorem applyRecord_edits (caps : Caps) (d : Draft) (record : Record) :
    Edits d (applyRecord caps d record) := by
  rw [applyRecord.eq_def]
  split
  · exact toolDetailOrPark_edits ..
  split
  · exact positionalRecord_edits ..
  · exact parkPositional_edits ..

theorem enrichApply_edits (d : Draft) (records : List Record) (caps : Caps) :
    Edits d (enrichApply d records caps) :=
  (retry_edits d).trans (sweep_edits (applyRecord_edits caps) _ records)

theorem openSessionAtEnd_edits (d : Draft) : Edits d (openSessionAtEnd d) := by
  have hrebased : Edits d { d with sessionBase := d.userCount }.beginSession :=
    ⟨rfl, List.prefix_rfl, fun h => ⟨h.sorted, h.below⟩, fun h => ⟨rfl, rfl, h.symm⟩⟩
  rw [openSessionAtEnd]
  split
  · exact .inside rfl rfl rfl
  · exact hrebased

theorem restoreTurn_id (e : Enrichment) (t : Turn) : (e.restoreTurn t).id = t.id := by
  have hprompt : (e.restorePrompt t).id = t.id := by
    rw [Enrichment.restorePrompt]
    split <;> rfl
  rw [← hprompt]
  show (e.removeProse _).id = _
  rw [Enrichment.removeProse]
  split <;> rfl

theorem restoreCalls_none (restored : List String) (l : List Block) :
    restoreCalls (fun _ => none) restored l = l := by
  induction l with
  | nil => rfl
  | cons b l ih => simp [restoreCalls, ih]

/-- Nothing to restore leaves a turn. -/
theorem restoreTurn_of_empty {e : Enrichment} (hprompts : e.prompts = []) (hprose : e.prose = [])
    (htools : e.tools = []) (t : Turn) : e.restoreTurn t = t := by
  simp [Enrichment.restoreTurn, Enrichment.restorePrompt, Enrichment.removeProse,
    Enrichment.restoreTools, hprompts, hprose, htools, restoreCalls_none]

theorem reset_edits (d : Draft) : Edits d (reset d) where
  frame := rfl
  ids := by
    simp only [Draft.ids, reset, List.map_map, Function.comp_def, restoreTurn_id, List.prefix_rfl]
  numbered h := by
    have hids : (reset d).1.ids = d.ids := by
      simp only [Draft.ids, reset, List.map_map, Function.comp_def, restoreTurn_id]
    exact ⟨hids ▸ h.sorted, by rw [hids]; exact h.below⟩
  quiet h := by
    simp only [reset, Bool.or_eq_false_iff, Bool.not_eq_false', List.isEmpty_iff] at h
    obtain ⟨⟨⟨hprompts, hprose⟩, htools⟩, hmisaligned⟩ := h
    refine ⟨?_, rfl, hmisaligned.symm⟩
    have hturns : d.turns.map d.enrichment.restoreTurn = d.turns.map id :=
      List.map_congr_left fun t _ => restoreTurn_of_empty hprompts hprose htools t
    rwa [List.map_id] at hturns

end Anthrex.Conversation
