import Anthrex.Conversation.Edits
import Anthrex.Conversation.View
import Anthrex.Data.Writes

/-!
# Patches

The turns of a conversation are kept in the order of their ids, so they are a map from ids, and
a patch is a write to it, on the client as in the log. A revision's patches lead from the map
before to the map after (`Advances`), and compaction does not show (`map_compactPatches`).
-/

namespace Anthrex.Conversation

open Anthrex.Run (Runtime)
open SortedMap

/-! ## Turns as a map -/

/-- The turns by id. -/
def byId (turns : List Turn) : List (ℕ × Turn) := turns.map fun t => (t.id, t)

theorem byId_injective {turns turns' : List Turn} (h : byId turns = byId turns') : turns = turns' := by
  have hmap := congrArg (List.map Prod.snd) h
  simpa [byId, Function.comp_def] using hmap

theorem pairwise_byId {turns : List Turn} (h : (turns.map Turn.id).Pairwise (· < ·)) :
    (byId turns).Pairwise fun a b => a.1 < b.1 := by
  rw [byId, List.pairwise_map]
  exact List.pairwise_map.1 h

def turnMap (turns : List Turn) (h : (turns.map Turn.id).Pairwise (· < ·)) : SortedMap ℕ Turn :=
  ⟨byId turns, pairwise_byId h⟩

theorem get?_turnMap {turns : List Turn} (h : (turns.map Turn.id).Pairwise (· < ·)) {id : ℕ}
    {t : Turn} : (turnMap turns h).get? id = some t ↔ t ∈ turns ∧ t.id = id := by
  rw [get?_eq_some_iff]
  show (id, t) ∈ byId turns ↔ _
  simp only [byId, List.mem_map, Prod.mk.injEq]
  constructor
  · rintro ⟨u, hu, hid, rfl⟩
    exact ⟨hu, hid⟩
  · rintro ⟨ht, hid⟩
    exact ⟨t, ht, hid, rfl⟩

/-- What a patch writes. -/
def TurnPatch.toWrite : TurnPatch → ℕ × Option Turn
  | .upsert turn => (turn.id, some turn)
  | .drop id => (id, none)

/-! ## Patches on a client -/

theorem binarySearch_cons_of_lt {u : Turn} {l : List Turn} {id : ℕ} (h : u.id < id) :
    binarySearch (u :: l) id = match binarySearch l id with
      | .ok place => .ok (place + 1)
      | .error place => .error (place + 1) := by
  rw [binarySearch, binarySearch]
  simp only [List.takeWhile_cons, h, decide_true, ite_true, List.length_cons,
    List.getElem?_cons_succ]
  split <;> rfl

theorem binarySearch_cons_of_not_lt {u : Turn} {l : List Turn} {id : ℕ} (h : ¬u.id < id) :
    binarySearch (u :: l) id = if u.id = id then .ok 0 else .error 0 := by
  rw [binarySearch]
  simp only [List.takeWhile_cons, h, decide_false, Bool.false_eq_true, ite_false, List.length_nil,
    List.getElem?_cons_zero, Option.any_some, decide_eq_true_eq]

theorem byId_upsert (turn : Turn) (turns : List Turn) :
    byId (applyPatch turns (.upsert turn)) = insertEntry turn.id turn (byId turns) := by
  induction turns with
  | nil => rfl
  | cons u l ih =>
    show _ = insertEntry turn.id turn ((u.id, u) :: byId l)
    rw [insertEntry, applyPatch]
    split_ifs with hlt heq
    · rw [binarySearch_cons_of_not_lt (by dsimp only at hlt; omega), if_neg (by dsimp only at hlt; omega)]
      rfl
    · dsimp only at heq
      rw [binarySearch_cons_of_not_lt (by omega), if_pos heq.symm]
      rfl
    · rw [binarySearch_cons_of_lt (by dsimp only at hlt heq; omega), ← ih, applyPatch]
      cases binarySearch l turn.id <;> rfl

theorem byId_drop (id : ℕ) (turns : List Turn) :
    byId (applyPatch turns (.drop id)) = (byId turns).filter (·.1 ≠ id) := by
  rw [applyPatch, byId, byId, List.filter_map]
  rfl

/-- A patch on a client's turns is its write. -/
theorem byId_applyPatch {turns : List Turn} (h : (turns.map Turn.id).Pairwise (· < ·))
    (p : TurnPatch) : byId (applyPatch turns p) = ((turnMap turns h).write p.toWrite).entries := by
  cases p with
  | upsert turn => exact byId_upsert turn turns
  | drop id => exact byId_drop id turns

theorem sorted_of_byId {turns : List Turn} {m : SortedMap ℕ Turn} (h : byId turns = m.entries) :
    (turns.map Turn.id).Pairwise (· < ·) := by
  have hsorted := m.sorted
  rw [← h, byId, List.pairwise_map] at hsorted
  exact List.pairwise_map.2 hsorted

theorem byId_foldl {m : SortedMap ℕ Turn} (patches : List TurnPatch) {turns : List Turn}
    (h : byId turns = m.entries) :
    byId (patches.foldl applyPatch turns) = (m.writes (patches.map TurnPatch.toWrite)).entries := by
  induction patches generalizing turns m with
  | nil => exact h
  | cons p patches ih =>
    refine ih ?_
    have hm : turnMap turns (sorted_of_byId h) = m := by
      obtain ⟨entries, hentries⟩ := m
      rw [turnMap, SortedMap.mk.injEq]
      exact h
    rw [byId_applyPatch (sorted_of_byId h), hm]

/-! ## Compaction -/

theorem map_compactPatches (patches : List TurnPatch) :
    (compactPatches patches).map TurnPatch.toWrite =
      compact (·.2.isSome) (patches.map TurnPatch.toWrite) := by
  rw [compactPatches, compact]
  induction patches using List.reverseRecOn with
  | nil => rfl
  | append_singleton patches p ih =>
    rw [List.map_append, List.foldl_append, List.foldl_append, List.map_singleton, List.foldl_cons,
      List.foldl_nil, List.foldl_cons, List.foldl_nil, List.map_append, ← ih, List.filter_map]
    congr 2
    refine List.filter_congr fun x _ => Bool.eq_iff_iff.2 ?_
    cases x <;> cases p <;> simp [TurnPatch.upserts, TurnPatch.toWrite, TurnPatch.id] <;>
      exact decide_eq_decide.2 Iff.rfl

/-! ## Revisions -/

variable {e e' e'' : Entry}

/-- The revisions of the batches are the last ones, and all of them that a delta may need. -/
structure Logged (e : Entry) : Prop where
  length : e.history.length = min e.rev deltaHistory
  rev : ∀ i b, e.history[i]? = some b → b.rev + e.history.length = e.rev + i + 1

/-- The batches that make way for one more. -/
def Entry.surplus (e : Entry) : ℕ := if e.history.length = deltaHistory then 1 else 0

theorem recordRevision_history (e : Entry) (patches : List TurnPatch) :
    (e.recordRevision patches).history = e.history.drop e.surplus ++ [⟨e.rev + 1, patches⟩] := by
  rw [Entry.recordRevision, Entry.surplus]
  split
  · rw [List.drop_one]
  · rfl

theorem Logged.recordRevision (h : Logged e) (patches : List TurnPatch) :
    Logged (e.recordRevision patches) := by
  have hlength := h.length
  have hsurplus : e.history.length - e.surplus + 1 = min (e.rev + 1) deltaHistory := by
    rw [Entry.surplus]
    have : deltaHistory = 64 := rfl
    split <;> omega
  have hle : e.surplus ≤ e.history.length := by
    rw [Entry.surplus]
    have : deltaHistory = 64 := rfl
    split <;> omega
  refine ⟨?_, fun i b hb => ?_⟩
  · rw [recordRevision_history, List.length_append, List.length_drop, List.length_singleton]
    exact hsurplus
  · rw [recordRevision_history] at hb ⊢
    rw [List.length_append, List.length_drop, List.length_singleton]
    show b.rev + _ = e.rev + 1 + i + 1
    rcases Nat.lt_or_ge i (e.history.drop e.surplus).length with hlt | hge
    · rw [List.getElem?_append_left hlt, List.getElem?_drop] at hb
      have hrev := h.rev _ _ hb
      omega
    · rw [List.getElem?_append_right hge, List.getElem?_singleton] at hb
      rw [List.length_drop] at hge hb
      split at hb
      · cases hb
        dsimp only
        omega
      · simp at hb

/-- The patches since a revision. -/
def Entry.patchesSince (e : Entry) (r : ℕ) : List TurnPatch :=
  (e.history.filter fun b => r < b.rev ∧ b.rev ≤ e.rev).flatMap PatchBatch.patches

theorem patchesSince_self (e : Entry) : e.patchesSince e.rev = [] := by
  rw [Entry.patchesSince, List.filter_eq_nil_iff.2]
  · rfl
  · intro b _
    simp only [decide_eq_true_eq]
    omega

/-- One more revision adds its patches, as long as none of those asked for is forgotten. -/
theorem Logged.patchesSince_recordRevision (h : Logged e) (patches : List TurnPatch) {r : ℕ}
    (hr : r ≤ e.rev) (hwindow : e.rev + 1 - r ≤ deltaHistory) :
    (e.recordRevision patches).patchesSince r = e.patchesSince r ++ patches := by
  have hle : ∀ b ∈ e.history, b.rev ≤ e.rev := by
    intro b hb
    obtain ⟨i, hi⟩ := List.getElem?_of_mem hb
    have hrev := h.rev i b hi
    have hlt := (List.getElem?_eq_some_iff.1 hi).1
    omega
  have hfilter : e.history.filter (fun b => r < b.rev ∧ b.rev ≤ e.rev + 1) =
      e.history.filter fun b => r < b.rev ∧ b.rev ≤ e.rev := by
    refine List.filter_congr fun b hb => ?_
    have := hle b hb
    simp only [decide_eq_decide]
    omega
  -- a batch that makes way is not one of those asked for
  have hkept : (e.history.drop e.surplus).filter (fun b => r < b.rev ∧ b.rev ≤ e.rev + 1) =
      e.history.filter (fun b => r < b.rev ∧ b.rev ≤ e.rev + 1) := by
    rw [Entry.surplus]
    split
    · rename_i hfull
      cases hhistory : e.history with
      | nil => rfl
      | cons b history =>
        have hrev := h.rev 0 b (by rw [hhistory]; rfl)
        rw [List.drop_one, List.tail_cons, List.filter_cons_of_neg]
        simp only [decide_eq_true_eq]
        omega
    · rfl
  rw [Entry.patchesSince, recordRevision_history]
  show (List.filter (fun b : PatchBatch => r < b.rev ∧ b.rev ≤ e.rev + 1) _).flatMap _ = _
  rw [List.filter_append, hkept, hfilter, List.flatMap_append, Entry.patchesSince,
    List.filter_cons_of_pos (by simp only [decide_eq_true_eq]; omega)]
  simp

/-! ## What a mutation records -/

theorem find?_reverse_eq_some {l : List Turn} (h : (l.map Turn.id).Pairwise (· < ·)) {id : ℕ}
    {t : Turn} : l.reverse.find? (·.id = id) = some t ↔ t ∈ l ∧ t.id = id := by
  constructor
  · intro hfind
    exact ⟨List.mem_reverse.1 (List.mem_of_find?_eq_some hfind), by
      simpa using List.find?_some hfind⟩
  · rintro ⟨ht, hid⟩
    cases hfind : l.reverse.find? (·.id = id) with
    | none =>
      have hnone := List.find?_eq_none.1 hfind t (List.mem_reverse.2 ht)
      exact absurd hid (by simpa using hnone)
    | some u =>
      have hu := List.mem_reverse.1 (List.mem_of_find?_eq_some hfind)
      have huid : u.id = id := by simpa using List.find?_some hfind
      exact congrArg some (List.inj_on_of_nodup_map (h.imp (fun hlt => hlt.ne)) hu ht
        (huid.trans hid.symm))

theorem lastWrite_upsert (l : List Turn) (id : ℕ) :
    lastWrite ((l.map TurnPatch.upsert).map TurnPatch.toWrite) id =
      (l.reverse.find? (·.id = id)).map some := by
  rw [lastWrite, List.map_map, ← List.map_reverse, List.find?_map, Option.map_map]
  rfl

/-- The turns that differ lead from the turns before to those after, which keep every turn. -/
theorem writes_upserts {before after : List Turn}
    (hbefore : (before.map Turn.id).Pairwise (· < ·)) (hafter : (after.map Turn.id).Pairwise (· < ·))
    (hids : before.map Turn.id <+: after.map Turn.id) :
    (turnMap before hbefore).writes ((Entry.upserts before after).map TurnPatch.toWrite) =
      turnMap after hafter := by
  refine writes_eq fun id => ?_
  have hfilter : ((after.filter fun t => before.reverse.find? (·.id = t.id) ≠ some t).map
      Turn.id).Pairwise (· < ·) := hafter.sublist (List.filter_sublist.map _)
  rw [Entry.upserts, lastWrite_upsert]
  cases hget : (turnMap after hafter).get? id with
  | none =>
    -- no turn of this id after, so none before
    have hno : ∀ t ∈ after, t.id ≠ id := by
      intro t ht hid
      rw [(get?_turnMap hafter).2 ⟨ht, hid⟩] at hget
      exact absurd hget (by simp)
    have hnone : (turnMap before hbefore).get? id = none := by
      refine Option.eq_none_iff_forall_ne_some.2 fun t ht => ?_
      obtain ⟨ht, hid⟩ := (get?_turnMap hbefore).1 ht
      obtain ⟨u, hu, huid⟩ := List.mem_map.1 (hids.subset (List.mem_map_of_mem ht))
      exact hno u hu (huid.trans hid)
    rw [hnone, List.find?_eq_none.2]
    · rfl
    · intro t ht
      have := hno t (List.mem_of_mem_filter (List.mem_reverse.1 ht))
      simpa using this
  | some t =>
    obtain ⟨ht, hid⟩ := (get?_turnMap hafter).1 hget
    by_cases hsame : before.reverse.find? (·.id = t.id) = some t
    · have hbefore' := (find?_reverse_eq_some hbefore).1 hsame
      rw [List.find?_eq_none.2]
      · exact (get?_turnMap hbefore).2 ⟨hbefore'.1, hid⟩
      · intro u hu
        obtain ⟨hu, hdiffers⟩ := List.mem_filter.1 (List.mem_reverse.1 hu)
        simp only [decide_eq_true_eq]
        intro huid
        have hut : u = t := List.inj_on_of_nodup_map (hafter.imp (fun hlt => hlt.ne)) hu ht
          (huid.trans hid.symm)
        rw [hut] at hdiffers
        simp [hsame] at hdiffers
    · rw [(find?_reverse_eq_some hfilter).2 ⟨List.mem_filter.2 ⟨ht, by simpa using hsame⟩, hid⟩]
      rfl

/-- Where the turns are dropped, each is written. -/
theorem dropOver_writes (caps : Caps) (turns : List Turn) (e : Entry) (hturns : e.draft.turns = turns)
    (h : (turns.map Turn.id).Pairwise (· < ·)) :
    byId (Entry.dropOver caps e turns).1.draft.turns =
      ((turnMap turns h).writes ((Entry.dropOver caps e turns).2.map TurnPatch.toWrite)).entries := by
  induction turns generalizing e with
  | nil => rw [Entry.dropOver, hturns]; rfl
  | cons removed rest ih =>
    rw [Entry.dropOver]
    split
    · rw [hturns]
      rfl
    · rename_i cause _
      obtain ⟨hfirst, hrest⟩ := List.pairwise_cons.1 (List.map_cons ▸ h)
      have herase : (turnMap (removed :: rest) h).write (removed.id, none) = turnMap rest hrest := by
        show (turnMap (removed :: rest) h).erase removed.id = _
        rw [SortedMap.erase, SortedMap.filter, turnMap, SortedMap.mk.injEq]
        show List.filter _ ((removed.id, removed) :: byId rest) = byId rest
        rw [List.filter_cons_of_neg (by simp), List.filter_eq_self]
        intro x hx
        obtain ⟨t, ht, rfl⟩ := List.mem_map.1 hx
        have := hfirst t.id (List.mem_map_of_mem ht)
        simp only [decide_eq_true_eq]
        omega
      have hdropped := ih (e.dropTurn removed rest cause) rfl hrest
      rw [hdropped, ← herase]
      rfl

/-- What the caps leave of an entry. -/
structure Trimmed (e e' : Entry) : Prop where
  rev : e'.rev = e.rev
  history : e'.history = e.history
  frame : e'.draft.frame = e.draft.frame
  next : e'.draft.nextTurnId = e.draft.nextTurnId
  turns : e'.draft.turns <:+ e.draft.turns

theorem dropOver_trimmed (caps : Caps) (turns : List Turn) (e : Entry)
    (hturns : e.draft.turns = turns) : Trimmed e (Entry.dropOver caps e turns).1 := by
  induction turns generalizing e with
  | nil => exact ⟨rfl, rfl, rfl, rfl, List.suffix_rfl⟩
  | cons removed rest ih =>
    rw [Entry.dropOver]
    split
    · exact ⟨rfl, rfl, rfl, rfl, List.suffix_rfl⟩
    · rename_i cause _
      have hrest := ih (e.dropTurn removed rest cause) rfl
      refine ⟨hrest.rev, hrest.history, hrest.frame, hrest.next, hrest.turns.trans ?_⟩
      rw [hturns]
      exact List.suffix_cons _ _

theorem Numbered.trimmed (h : Numbered e.draft) (ht : Trimmed e e') : Numbered e'.draft where
  sorted := h.sorted.sublist (ht.turns.sublist.map _)
  below id hid := ht.next ▸ h.below id (ht.turns.map _ |>.subset hid)

/-- What a step does to a conversation: nothing that shows, or one more revision, whose patches
    lead to its turns. -/
structure Advances (e e' : Entry) : Prop where
  frame : e'.draft.frame = e.draft.frame
  numbered : Numbered e'.draft
  step : (e'.rev = e.rev ∧ e'.history = e.history ∧ e'.draft.turns = e.draft.turns ∧
      e'.visible = e.visible) ∨
    ∃ e₁ patches, e' = Entry.recordRevision e₁ patches ∧ e₁.rev = e.rev ∧ e₁.history = e.history ∧
      ∀ h, byId e'.draft.turns =
        ((turnMap e.draft.turns h).writes (patches.map TurnPatch.toWrite)).entries

theorem mutate_advances (caps : Option Caps) {f : Draft → Draft × Bool}
    (hf : Edits e.draft (f e.draft)) (h : Numbered e.draft) : Advances e (e.mutate caps f).1 := by
  rw [Entry.mutate]
  split
  · rename_i d hd
    rw [hd] at hf
    obtain ⟨hturns, hsession, hmisaligned⟩ := hf.quiet rfl
    refine ⟨hf.frame, hf.numbered h, .inl ⟨rfl, rfl, hturns, ?_⟩⟩
    dsimp only at hsession hmisaligned
    simp only [Entry.visible, Entry.shownDegraded, hsession, hmisaligned]
  · rename_i d hd
    rw [hd] at hf
    have hnumbered : Numbered d := hf.numbered h
    -- the caps, where there are some, write what they drop
    obtain ⟨e₁, drops, heq, htrimmed, hdrops⟩ : ∃ e₁ drops,
        caps.elim ({ e with draft := d }, []) (Entry.enforceCaps · { e with draft := d }) =
          (e₁, drops) ∧ Trimmed { e with draft := d } e₁ ∧ byId e₁.draft.turns =
          ((turnMap d.turns hnumbered.sorted).writes (drops.map TurnPatch.toWrite)).entries := by
      cases caps with
      | none => exact ⟨_, _, rfl, ⟨rfl, rfl, rfl, rfl, List.suffix_rfl⟩, rfl⟩
      | some caps =>
        have ht := dropOver_trimmed caps d.turns { e with draft := d } rfl
        exact ⟨_, _, rfl, ⟨ht.rev, ht.history, ht.frame, ht.next, ht.turns⟩,
          dropOver_writes caps d.turns { e with draft := d } rfl hnumbered.sorted⟩
    rw [heq]
    have hwrites : ∀ hsorted, byId e₁.draft.turns = ((turnMap e.draft.turns hsorted).writes
        ((Entry.upserts e.draft.turns d.turns ++ drops).map TurnPatch.toWrite)).entries := by
      intro hsorted
      rw [hdrops, List.map_append, writes_append,
        writes_upserts hsorted hnumbered.sorted hf.ids]
    have hnumbered₁ : Numbered e₁.draft :=
      Numbered.trimmed (e := { e with draft := d }) hnumbered htrimmed
    have hframe : e₁.draft.frame = e.draft.frame := htrimmed.frame.trans hf.frame
    dsimp only
    split
    · exact ⟨hframe, hnumbered₁, .inr ⟨e₁, _, rfl, htrimmed.rev, htrimmed.history, hwrites⟩⟩
    · rename_i hsame
      obtain ⟨hnil, hvisible⟩ := not_or.1 hsame
      rw [not_not] at hnil hvisible
      have hturns := hwrites h.sorted
      rw [hnil] at hturns
      exact ⟨hframe, hnumbered₁, .inl ⟨htrimmed.rev, htrimmed.history, byId_injective hturns, hvisible⟩⟩

theorem degrade_advances (reason : Option DegradeReason) (h : Numbered e.draft) :
    Advances e (ConversationSet.degrade reason e) := by
  rw [ConversationSet.degrade]
  split
  · exact ⟨rfl, h, .inr ⟨_, _, rfl, rfl, rfl, fun _ => rfl⟩⟩
  · rename_i hsame
    exact ⟨rfl, h, .inl ⟨rfl, rfl, rfl, not_not.1 hsame⟩⟩

end Anthrex.Conversation
