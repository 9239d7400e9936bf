import Anthrex.Conversation.Patches
import Mathlib.Logic.Relation

/-!
# Deltas reproduce the snapshot

A client that applies a delta to the snapshot of an earlier revision holds the snapshot of the
later one, whatever the calls on the set in between, and a change that shows is never without a
revision. Along a run, a conversation only takes the steps of `Advances`; what these leave of the
turns, the log and the visible fields is `Leads`.
-/

namespace Anthrex.Conversation

open Anthrex.Run (Runtime)
open Relation SortedMap

variable {e e' e'' : Entry}

/-! ## Several steps of a conversation -/

theorem Logged.congr (h : Logged e) (hrev : e'.rev = e.rev) (hhistory : e'.history = e.history) :
    Logged e' :=
  ⟨by rw [hrev, hhistory]; exact h.length, by rw [hrev, hhistory]; exact h.rev⟩

theorem patchesSince_congr (hrev : e'.rev = e.rev) (hhistory : e'.history = e.history) (r : ℕ) :
    e'.patchesSince r = e.patchesSince r := by
  rw [Entry.patchesSince, Entry.patchesSince, hrev, hhistory]

/-- What a conversation is after several steps. -/
structure Leads (e e' : Entry) : Prop where
  frame : e'.draft.frame = e.draft.frame
  numbered : Numbered e'.draft
  logged : Logged e'
  le : e.rev ≤ e'.rev
  writes : e'.rev - e.rev ≤ deltaHistory → ∀ h, byId e'.draft.turns =
    ((turnMap e.draft.turns h).writes ((e'.patchesSince e.rev).map TurnPatch.toWrite)).entries
  visible : e'.rev = e.rev → e'.visible = e.visible

theorem Leads.refl (hnumbered : Numbered e.draft) (hlogged : Logged e) : Leads e e where
  frame := rfl
  numbered := hnumbered
  logged := hlogged
  le := le_rfl
  writes _ _ := by
    rw [patchesSince_self]
    rfl
  visible _ := rfl

theorem Leads.advance (h : Leads e e') (hstep : Advances e' e'') : Leads e e'' := by
  obtain ⟨hrev, hhistory, hturns, hvisible⟩ | ⟨e₁, patches, rfl, hrev, hhistory, hwrites⟩ := hstep.step
  · refine ⟨hstep.frame.trans h.frame, hstep.numbered, h.logged.congr hrev hhistory, hrev ▸ h.le, ?_, ?_⟩
    · intro hwindow hsorted
      rw [hturns, patchesSince_congr hrev hhistory]
      exact h.writes (hrev ▸ hwindow) hsorted
    · intro hsame
      exact hvisible.trans (h.visible (hrev ▸ hsame))
  · have hlogged : Logged e₁ := h.logged.congr hrev hhistory
    have hnext : (e₁.recordRevision patches).rev = e'.rev + 1 := congrArg (· + 1) hrev
    have hle := h.le
    refine ⟨hstep.frame.trans h.frame, hstep.numbered, hlogged.recordRevision patches, by omega, ?_,
      fun hsame => by omega⟩
    intro hwindow hsorted
    rw [hlogged.patchesSince_recordRevision patches (by omega) (by omega),
      patchesSince_congr hrev hhistory, List.map_append, writes_append,
      hwrites h.numbered.sorted]
    congr 2
    have hbefore := h.writes (by omega) hsorted
    rw [turnMap, SortedMap.mk.injEq]
    exact hbefore

theorem Leads.of_steps (hnumbered : Numbered e.draft) (hlogged : Logged e)
    (h : ReflTransGen Advances e e') : Leads e e' := by
  induction h with
  | refl => exact .refl hnumbered hlogged
  | tail _ hstep ih => exact ih.advance hstep

/-! ## A client -/

theorem snapshot_eq_of_leads (h : Leads e e') (hsorted : Numbered e.draft) (hrev : e'.rev = e.rev) :
    e'.snapshot = e.snapshot := by
  have hturns : e'.draft.turns = e.draft.turns := by
    have hwrites := h.writes (by omega) hsorted.sorted
    rw [← hrev, patchesSince_self] at hwrites
    exact byId_injective hwrites
  have hframe := h.frame
  have hvisible := h.visible hrev
  simp only [Draft.frame, Prod.mk.injEq] at hframe
  simp only [Entry.visible, Visible.mk.injEq] at hvisible
  rw [Entry.snapshot, Entry.snapshot, hrev, hturns, hframe.1, hframe.2.1, hframe.2.2, hvisible.1,
    hvisible.2.1, hvisible.2.2.1, hvisible.2.2.2]

/-- The patches of a delta, on the turns of the earlier revision. -/
theorem foldl_applyPatch_of_leads (h : Leads e e') (hsorted : Numbered e.draft)
    (hwindow : e'.rev - e.rev ≤ deltaHistory) :
    (compactPatches (e'.patchesSince e.rev)).foldl applyPatch e.draft.turns = e'.draft.turns := by
  refine byId_injective ?_
  rw [byId_foldl (m := turnMap e.draft.turns hsorted.sorted) _ rfl, map_compactPatches, writes_compact,
    h.writes hwindow hsorted.sorted]

namespace ConversationView

variable {v : ConversationView} {windowId : ℕ} {key : Option String} {c : Conversation}

/-- A view that holds `c` for a key, and awaits no other. -/
def Holds (v : ConversationView) (windowId : ℕ) (key : Option String) (c : Conversation) : Prop :=
  ∃ i level, v.levelIndex windowId key = some i ∧ v.levels[i]? = some level ∧
    level.conversation = some c ∧ level.awaitingSnapshot = false

theorem levelIndex_setLevel {f : Level → Level} (hf : ∀ level, (f level).agentId = level.agentId)
    (i : ℕ) : (v.setLevel i f).levelIndex windowId key = v.levelIndex windowId key := by
  have hfind : (v.levels.modify i f).findIdx? (·.agentId = key) =
      v.levels.findIdx? (·.agentId = key) := by
    induction v.levels generalizing i with
    | nil => cases i <;> rfl
    | cons level levels ih =>
      cases i with
      | zero => simp [List.findIdx?_cons, hf]
      | succ i => simp [List.findIdx?_cons, ih]
  rw [levelIndex, levelIndex]
  show (if !v.isOpen || windowId ≠ v.windowId then none else _) = _
  rw [← hfind]
  rfl

theorem holds_setLevel {i : ℕ} {level : Level} {f : Level → Level}
    (hi : v.levelIndex windowId key = some i) (hlevel : v.levels[i]? = some level)
    (hf : ∀ level, (f level).agentId = level.agentId) (hc : (f level).conversation = some c)
    (hawaits : (f level).awaitingSnapshot = false) : (v.setLevel i f).Holds windowId key c := by
  refine ⟨i, f level, (levelIndex_setLevel hf i).trans hi, ?_, hc, hawaits⟩
  show (v.levels.modify i f)[i]? = _
  rw [List.getElem?_modify_eq, hlevel]
  rfl

/-- A snapshot in order is held as it is. -/
theorem holds_onSnapshot (hopen : (v.levelIndex windowId key).isSome)
    (hsorted : (c.turns.map Turn.id).Pairwise (· < ·)) :
    (v.onSnapshot windowId key c).Holds windowId key c := by
  obtain ⟨i, hi⟩ := Option.isSome_iff_exists.1 hopen
  have hsort : c.turns.mergeSort (fun t u => t.id ≤ u.id) = c.turns := by
    refine List.mergeSort_of_pairwise ((List.pairwise_map.1 hsorted).imp fun hlt => ?_)
    simpa using hlt.le
  have hlevel : ∃ level, v.levels[i]? = some level := by
    rw [levelIndex] at hi
    split at hi
    · simp at hi
    · exact ⟨_, List.getElem?_eq_getElem (List.findIdx?_eq_some_iff_getElem.1 hi).1⟩
  obtain ⟨level, hlevel⟩ := hlevel
  rw [onSnapshot, hi]
  exact holds_setLevel hi hlevel (fun _ => rfl) (by rw [hsort]) rfl

end ConversationView

/-! ## The set -/

namespace ConversationSet

variable {s s' s'' : ConversationSet}

theorem entry_mapEntries (f : Option String → Entry → Entry) (key : Option String) :
    (s.mapEntries f).entry key = (s.entry key).map (f key) := by
  show (s.entries.map fun x => (x.1, f x.1 x.2)).lookup key = (s.entries.lookup key).map (f key)
  induction s.entries with
  | nil => rfl
  | cons x l ih =>
    rw [List.map_cons, List.lookup_cons, List.lookup_cons, ih]
    split
    · rename_i hkey
      rw [beq_iff_eq.1 hkey]
      rfl
    · rfl

/-- Every conversation is in order, and its frame is that of its key. -/
def Sound (s : ConversationSet) : Prop :=
  ∀ key e, s.entry key = some e →
    Numbered e.draft ∧ Logged e ∧ e.draft.frame = (s.windowId, key, s.runtime)

/-- What a call does: each conversation takes steps, from what it was or from its start. -/
structure Grows (s s' : ConversationSet) : Prop where
  windowId : s'.windowId = s.windowId
  runtime : s'.runtime = s.runtime
  kept : ∀ key e, s.entry key = some e → ∃ e', s'.entry key = some e' ∧ ReflTransGen Advances e e'
  fresh : ∀ key e', s.entry key = none → s'.entry key = some e' → ∃ degraded,
    ReflTransGen Advances (.new (.new s.windowId key s.runtime) degraded) e'

theorem numbered_new (windowId : ℕ) (key : Option String) (runtime : Runtime) :
    Numbered (.new windowId key runtime) :=
  ⟨List.Pairwise.nil, by simp [Draft.ids, Draft.new]⟩

theorem logged_new (d : Draft) (degraded : Option DegradeReason) : Logged (.new d degraded) :=
  ⟨rfl, by simp [Entry.new]⟩

theorem Grows.refl (s : ConversationSet) : Grows s s where
  windowId := rfl
  runtime := rfl
  kept _ e h := ⟨e, h, .refl⟩
  fresh _ _ hnone hsome := by simp [hnone] at hsome

theorem Grows.trans (h : Grows s s') (h' : Grows s' s'') : Grows s s'' where
  windowId := h'.windowId.trans h.windowId
  runtime := h'.runtime.trans h.runtime
  kept key e he := by
    obtain ⟨e', he', hsteps⟩ := h.kept key e he
    obtain ⟨e'', he'', hsteps'⟩ := h'.kept key e' he'
    exact ⟨e'', he'', hsteps.trans hsteps'⟩
  fresh key e'' hnone he'' := by
    cases he' : s'.entry key with
    | none =>
      have hfresh := h'.fresh key e'' he' he''
      rwa [h.windowId, h.runtime] at hfresh
    | some e' =>
      obtain ⟨degraded, hsteps⟩ := h.fresh key e' hnone he'
      obtain ⟨e₁, he₁, hsteps'⟩ := h'.kept key e' he'
      rw [he'', Option.some.injEq] at he₁
      exact ⟨degraded, hsteps.trans (he₁ ▸ hsteps')⟩

theorem Sound.grows (h : Sound s) (hgrows : Grows s s') : Sound s' := by
  intro key e' he'
  rw [hgrows.windowId, hgrows.runtime]
  cases he : s.entry key with
  | none =>
    obtain ⟨degraded, hsteps⟩ := hgrows.fresh key e' he he'
    have hleads := Leads.of_steps (numbered_new _ _ _) (logged_new _ _) hsteps
    exact ⟨hleads.numbered, hleads.logged, hleads.frame⟩
  | some e =>
    obtain ⟨e₁, he₁, hsteps⟩ := hgrows.kept key e he
    rw [he', Option.some.injEq] at he₁
    subst he₁
    obtain ⟨hnumbered, hlogged, hframe⟩ := h key e he
    have hleads := Leads.of_steps hnumbered hlogged hsteps
    exact ⟨hleads.numbered, hleads.logged, hleads.frame.trans hframe⟩

theorem mapEntries_grows (f : Option String → Entry → Entry)
    (hf : ∀ key e, s.entry key = some e → ReflTransGen Advances e (f key e)) :
    Grows s (s.mapEntries f) where
  windowId := rfl
  runtime := rfl
  kept key e he := ⟨f key e, by rw [entry_mapEntries, he]; rfl, hf key e he⟩
  fresh key e' hnone he' := by simp [entry_mapEntries, hnone] at he'

theorem setEntry_grows {key : Option String} (he : s.entry key = some e)
    (hsteps : ReflTransGen Advances e e') : Grows s (s.setEntry key e') := by
  refine mapEntries_grows _ fun k e₁ he₁ => ?_
  split
  · rename_i hk
    rw [hk, he, Option.some.injEq] at he₁
    exact he₁ ▸ hsteps
  · exact .refl

theorem touch_grows (h : Sound s) (key : Option String) (caps : Caps) {f : Draft → Draft × Bool}
    (hf : ∀ d, d.runtime = s.runtime → Edits d (f d)) : Grows s (s.touch key caps f) := by
  rw [touch]
  split
  · rename_i e he
    obtain ⟨hnumbered, -, hframe⟩ := h _ e he
    have hruntime : e.draft.runtime = s.runtime := congrArg (·.2.2) hframe
    exact setEntry_grows he (.single (mutate_advances _ (hf _ hruntime) hnumbered))
  · rename_i hnone
    have hstep : Advances (.new (.new s.windowId (s.resolveKey key) s.runtime) s.currentDegraded)
        (Entry.mutate _ (some caps) f).1 := mutate_advances _ (hf _ rfl) (numbered_new _ _ _)
    dsimp only
    split
    · refine ⟨rfl, rfl, fun k e he => ⟨e, ?_, .refl⟩, fun k e' hk he' => ⟨s.currentDegraded, ?_⟩⟩
      · show (s.entries ++ _).lookup k = _
        rw [List.lookup_append, show s.entries.lookup k = some e from he]
        rfl
      · have hlookup : (s.entries ++ [_]).lookup k = some e' := he'
        rw [List.lookup_append, show s.entries.lookup k = none from hk, Option.none_or,
          List.lookup_cons] at hlookup
        split at hlookup
        · rename_i hkey
          rw [beq_iff_eq.1 hkey]
          exact .single (Option.some.inj hlookup ▸ hstep)
        · simp at hlookup
    · exact .refl s

/-! ## Calls -/

/-- The calls on a set. -/
inductive Call
  | onHook (hook : ParsedHook) (spawn : Option SpawnOrigin) (nowUnixSecs now : ℕ) (caps : Caps)
  | enrich (records : List Record) (caps : Caps)
  | restartEnrichment (records : List Record) (caps : Caps)
  | resetEnrichment
  | openAtEnd (records : List Record) (restart : Bool) (caps : Caps)
  | setDegraded (reason : Option DegradeReason)

variable (lib : Library)

/-- One call. The hooks are of the runtime of the set. -/
def call (s : ConversationSet) : Call → ConversationSet
  | .onHook hook spawn nowUnixSecs now caps => s.onHook lib s.runtime hook spawn nowUnixSecs now caps
  | .enrich records caps => s.enrich records caps
  | .restartEnrichment records caps => s.restartEnrichment records caps
  | .resetEnrichment => s.resetEnrichment
  | .openAtEnd records restart caps => s.openAtEnd records restart caps
  | .setDegraded reason => s.setDegraded reason

def calls (s : ConversationSet) (cs : List Call) : ConversationSet := cs.foldl (call lib) s

theorem hookOnto_edits (hook : ParsedHook) (spawn : Option SpawnOrigin) (nowUnixSecs now : ℕ)
    (caps : Caps) {d : Draft} {runtime : Runtime} (hruntime : d.runtime = runtime) :
    Edits d (hookOnto lib runtime hook spawn nowUnixSecs now caps d) :=
  (buildApply_edits lib hruntime hook spawn nowUnixSecs now caps).trans (retry_edits _)

theorem onHook_grows (h : Sound s) (hook : ParsedHook) (spawn : Option SpawnOrigin)
    (nowUnixSecs now : ℕ) (caps : Caps) :
    Grows s (s.onHook lib s.runtime hook spawn nowUnixSecs now caps) := by
  have htouch : ∀ key, Grows s (s.touch key caps
      (hookOnto lib s.runtime hook spawn nowUnixSecs now caps)) := fun key =>
    touch_grows h key caps fun d hd => hookOnto_edits lib hook spawn nowUnixSecs now caps hd
  rw [onHook]
  split
  · have hparent := htouch (spawn.bind SpawnOrigin.parentId)
    dsimp only
    split
    · exact hparent
    · split
      · exact hparent.trans (touch_grows (h.grows hparent) _ caps fun d _ => pushTurn_edits ..)
      · exact hparent
  · exact htouch hook.agentId

theorem enrich_grows (h : Sound s) (records : List Record) (caps : Caps) :
    Grows s (s.enrich records caps) := by
  rw [enrich]
  split
  · exact .refl s
  · rename_i e he
    exact setEntry_grows he
      (.single (mutate_advances _ (enrichApply_edits _ records caps) (h none e he).1))

/-- A change of every conversation. -/
theorem mutates_grows (h : Sound s) {f : Option String → Entry → Entry}
    (hf : ∀ key e, f key e = e ∨ ∃ caps g, f key e = (Entry.mutate e caps g).1 ∧
      ∀ d, Edits d (g d)) : Grows s (s.mapEntries f) := by
  refine mapEntries_grows f fun key e he => ?_
  obtain hsame | ⟨caps, g, hmutate, hg⟩ := hf key e
  · rw [hsame]
  · rw [hmutate]
    exact .single (mutate_advances caps (hg e.draft) (h key e he).1)

theorem call_grows (h : Sound s) (c : Call) : Grows s (s.call lib c) := by
  cases c with
  | onHook hook spawn nowUnixSecs now caps => exact onHook_grows lib h hook spawn nowUnixSecs now caps
  | enrich records caps => exact enrich_grows h records caps
  | restartEnrichment records caps =>
    rw [call, restartEnrichment]
    refine mutates_grows h fun key e => .inr ?_
    by_cases hkey : key = none
    · exact ⟨_, _, if_pos hkey, fun d => (reset_edits d).trans (enrichApply_edits _ records caps)⟩
    · exact ⟨_, _, if_neg hkey, reset_edits⟩
  | resetEnrichment => exact mutates_grows h fun key e => .inr ⟨_, _, rfl, reset_edits⟩
  | openAtEnd records restart caps =>
    rw [call, openAtEnd]
    refine mutates_grows h fun key e => ?_
    by_cases hkey : key = none
    · refine .inr ⟨_, _, if_pos hkey, fun d => ?_⟩
      have hreset : Edits d (if restart then reset d else (d, false)) := by
        split
        · exact reset_edits d
        · exact .refl
      exact (hreset.trans (openSessionAtEnd_edits _)).trans (enrichApply_edits _ records caps)
    · cases restart with
      | true => exact .inr ⟨_, _, if_neg hkey, reset_edits⟩
      | false => exact .inl (if_neg hkey)
  | setDegraded reason =>
    have hgrows : Grows s (s.mapEntries fun _ => degrade reason) :=
      mapEntries_grows _ fun key e he => .single (degrade_advances reason (h key e he).1)
    exact ⟨hgrows.windowId, hgrows.runtime, hgrows.kept, hgrows.fresh⟩

theorem calls_grows (h : Sound s) (cs : List Call) : Grows s (s.calls lib cs) := by
  induction cs generalizing s with
  | nil => exact .refl s
  | cons c cs ih =>
    have hfirst := call_grows lib h c
    exact hfirst.trans (ih (h.grows hfirst))

/-! ## Deltas -/

theorem onDelta_holds {v : ConversationView} {windowId : ℕ} {key : Option String}
    (h : Leads e e') (hsorted : Numbered e.draft) (hwindow : e'.rev - e.rev ≤ deltaHistory)
    (hholds : v.Holds windowId key e.snapshot) :
    (v.onDelta windowId key e.rev e'.rev (compactPatches (e'.patchesSince e.rev)) e'.visible).1.Holds
      windowId key e'.snapshot := by
  obtain ⟨i, level, hi, hlevel, hconversation, hawaits⟩ := hholds
  have hframe := h.frame
  simp only [Draft.frame, Prod.mk.injEq] at hframe
  have hfilter : level.conversation.filter (·.rev = e.rev) = some e.snapshot := by
    rw [hconversation]
    exact Option.filter_some_pos (by simp [Entry.snapshot])
  rw [ConversationView.onDelta, hi]
  dsimp only
  rw [hlevel]
  dsimp only
  rw [hawaits, if_neg Bool.false_ne_true, hfilter]
  refine ConversationView.holds_setLevel hi hlevel (fun _ => rfl) ?_ hawaits
  simp only [ConversationView.patched, Entry.snapshot, foldl_applyPatch_of_leads h hsorted hwindow,
    hframe.1, hframe.2.1, hframe.2.2, Entry.visible]

/-- A delta is answered as long as the log reaches back, and leads a client from the snapshot of
    one moment to that of a later one; two moments of one revision have the same snapshot. -/
theorem snapshot_of_delta (windowId : ℕ) (runtime : Runtime) (cs cs' : List Call)
    (key : Option String) (c c' : Conversation)
    (hc : (calls lib { windowId, runtime } cs).snapshot key = some c)
    (hc' : (calls lib { windowId, runtime } (cs ++ cs')).snapshot key = some c') :
    c.rev ≤ c'.rev ∧
    (((calls lib { windowId, runtime } (cs ++ cs')).deltaSince key c.rev).isSome ↔
      c'.rev - c.rev ≤ deltaHistory) ∧
    (∀ v : ConversationView, (v.levelIndex windowId key).isSome →
      (v.onSnapshot windowId key c).Holds windowId key c) ∧
    (∀ toRev patches visible,
      (calls lib { windowId, runtime } (cs ++ cs')).deltaSince key c.rev = some (toRev, patches) →
      (calls lib { windowId, runtime } (cs ++ cs')).visible key = some visible →
      ∀ v : ConversationView, v.Holds windowId key c →
        (v.onDelta windowId key c.rev toRev patches visible).1.Holds windowId key c') ∧
    (c'.turns.map Turn.id).Pairwise (· < ·) ∧
    (c'.rev = c.rev → c' = c) := by
  have hstart : Sound { windowId, runtime } := by
    intro key e he
    simp [entry] at he
  have hsound := hstart.grows (calls_grows lib hstart cs)
  have happend : calls lib { windowId, runtime } (cs ++ cs') =
      (calls lib { windowId, runtime } cs).calls lib cs' := List.foldl_append
  rw [happend] at hc' ⊢
  generalize calls lib { windowId, runtime } cs = s at hc hc' hsound ⊢
  have hgrows := calls_grows lib hsound cs'
  generalize s.calls lib cs' = s' at hc' hgrows ⊢
  obtain ⟨e, he, rfl⟩ := Option.map_eq_some_iff.1 hc
  obtain ⟨e', he', rfl⟩ := Option.map_eq_some_iff.1 hc'
  obtain ⟨hnumbered, hlogged, -⟩ := hsound key e he
  -- whatever the calls in between, the conversation took a line of steps
  have hleads : Leads e e' := by
    obtain ⟨e₁, he₁, hsteps⟩ := hgrows.kept key e he
    rw [he', Option.some.injEq] at he₁
    exact he₁ ▸ Leads.of_steps hnumbered hlogged hsteps
  have hle := hleads.le
  have hdelta : s'.deltaSince key e.rev = if e'.rev < e.rev ∨ deltaHistory < e'.rev - e.rev then none
      else some (e'.rev, compactPatches (e'.patchesSince e.rev)) := by
    rw [deltaSince, he']
    rfl
  refine ⟨hle, ?_, fun v hv => ?_, fun toRev patches visible hpatches hvisible v hv => ?_,
    hleads.numbered.sorted, snapshot_eq_of_leads hleads hnumbered⟩
  · show (s'.deltaSince key e.rev).isSome ↔ e'.rev - e.rev ≤ deltaHistory
    rw [hdelta]
    split <;> simp <;> omega
  · exact ConversationView.holds_onSnapshot hv hnumbered.sorted
  · replace hpatches : s'.deltaSince key e.rev = some (toRev, patches) := hpatches
    rw [hdelta] at hpatches
    split at hpatches
    · simp at hpatches
    · rename_i hin
      cases hpatches
      rw [ConversationSet.visible, he', Option.map_some, Option.some.injEq] at hvisible
      subst hvisible
      exact onDelta_holds hleads hnumbered (by omega) hv

/-- A library where each character is a grapheme. -/
def plain : Library := { graphemes := fun s => s.toList.map String.singleton, encode := fun _ => "" }

/-- A conversation after its first prompt. -/
def prompted : Conversation :=
  { windowId := 4, agentId := none, sessionId := none, runtime := .claude, rev := 1, degraded := none,
    droppedTurns := 0, droppedBy := none
    turns := [⟨1, .user, 5, .complete, [.text "go"]⟩, ⟨2, .assistant, 5, .running, []⟩] }

/-- The same, once the reply is over. -/
def stopped : Conversation :=
  { prompted with
    rev := 2
    turns := [⟨1, .user, 5, .complete, [.text "go"]⟩, ⟨2, .assistant, 5, .complete, []⟩] }

theorem snapshot_of_delta_stop :
    ((calls plain { windowId := 4, runtime := .claude }
      ([.onHook { kind := .userPromptSubmit, prompt := some "go" } none 5 0 ⟨8, 100000, 4096⟩] ++
        [.onHook { kind := .stop } none 6 0 ⟨8, 100000, 4096⟩])).deltaSince none 1).isSome :=
  (snapshot_of_delta plain 4 .claude _ _ none prompted stopped (by decide +kernel)
    (by decide +kernel)).2.1.2 (by decide)

end ConversationSet

end Anthrex.Conversation
