import Anthrex.Conversation.Subscriptions
import Anthrex.Data.Channels

/-!
# A client's link

The task that serves one client (`server/conversation.rs`), beside windows whose conversations
change: what it is told of the changes and may miss, the commands it answers, and what the messages
that it sends amount to for a client that takes them in order.

* `link_told`: what a client was told of a conversation is a moment of it, of the revision that the
  task last sent; no delta starts anywhere else. Once the task has heard all that it was told of, it
  is what the conversation shows now.
-/

namespace Anthrex.Conversation

open Relation

/-! ## The task's steps -/

/-- What a client that takes every message holds of a conversation. A delta that starts elsewhere
    leaves it with nothing. -/
def Msg.follow (key : Key) (held : Option Conversation) (m : Msg) : Option Conversation :=
  if key = m.key then
    match m with
    | .snapshot _ _ conversation => some conversation
    | .delta _ _ fromRev toRev turns visible =>
      (held.filter (·.rev = fromRev)).map (afterDelta · toRev turns visible)
    | .gone .. => none
  else held

def WindowEntry.new (windowId : ℕ) (runtime : Run.Runtime) (headless : Bool) : WindowEntry :=
  { conversations := { windowId, runtime }, headless, spawned := [] }

/-- A message that says everything. -/
def Msg.Whole : Msg → Prop
  | .delta .. => False
  | _ => True

structure Link where
  windows : SortedMap ℕ WindowEntry := .empty
  /-- The windows that there were. -/
  removed : List ℕ := []
  lastSent : LastSent := ∅
  /-- What was told of the conversations and the task has not heard. -/
  changes : List Change := []
  /-- The task was too slow, and some of it is lost. -/
  missed : Bool := false
  /-- The messages that are sent and not received. -/
  out : List Msg := []
  /-- What the messages so far amount to, but for what the client has unsubscribed from. -/
  told : Key → Option Conversation := fun _ => none

namespace Link

variable (fits : Msg → Bool) (l : Link)

def emit (m : Msg) : Link :=
  { l with
    lastSent := (send fits l.lastSent m).1
    out := l.out ++ [(send fits l.lastSent m).2]
    told := fun key => (send fits l.lastSent m).2.follow key (l.told key) }

def answer : Command → Link
  | .subscribe windowId agentId fromRev =>
    if (l.lastSent.lookup (windowId, agentId)).isSome then
      l.emit fits (conversationReply l.windows windowId agentId fromRev)
    else
      let (windows, changes, m) := subscribeConversation l.windows windowId agentId fromRev
      { l with windows, changes := l.changes ++ changes }.emit fits m
  | .unsubscribe windowId agentId =>
    { l with
      lastSent := l.lastSent.erase (windowId, agentId)
      told := fun key => if key = (windowId, agentId) then none else l.told key }

/-- A key is brought up from the revision that it was last sent. -/
def bring (key : Key) : Link :=
  match l.lastSent.lookup key with
  | none => l
  | some last => (update l.windows key.1 key.2 last).elim l (l.emit fits)

/-- A revision is told. -/
def hear (key : Key) (rev : ℕ) : Link :=
  if (l.lastSent.lookup key).any (· < rev) then l.bring fits key else l

/-- The end of a window is told, for a key that the client holds of it. -/
def endOf (key : Key) : Link := l.emit fits (.gone key.1 key.2 goneWindowRemoved)

/-- The conversations of a window change, which is told. -/
def change (windowId : ℕ) (entry : WindowEntry) (set : ConversationSet) : Link :=
  { l with
    windows := l.windows.insert windowId (entry.change windowId set).1
    changes := l.changes ++ (entry.change windowId set).2 }

/-- A command names no revision but the one that the client was told. -/
def Honest : Command → Prop
  | .subscribe windowId agentId fromRev =>
    ∀ rev, fromRev = some rev → ∃ c, l.told (windowId, agentId) = some c ∧ c.rev = rev
  | .unsubscribe .. => True

/-- One thing that happens in the daemon. -/
inductive Happens (lib : Library) : Link → Link → Prop
  -- The windows.
  | create {l : Link} {id : ℕ} (hnew : l.windows.get? id = none) (hfresh : id ∉ l.removed)
      (runtime : Run.Runtime) (headless : Bool) :
    Happens lib l { l with windows := l.windows.insert id (.new id runtime headless) }
  | call {l : Link} {id : ℕ} {entry : WindowEntry} (hentry : l.windows.get? id = some entry)
      (c : ConversationSet.Call) :
    Happens lib l (l.change id entry (entry.conversations.call lib c))
  | spawned {l : Link} {id : ℕ} {entry : WindowEntry} (hentry : l.windows.get? id = some entry)
      (spawned : List String) :
    Happens lib l { l with windows := l.windows.insert id { entry with spawned } }
  | remove {l : Link} {id : ℕ} :
    Happens lib l { l with
      windows := l.windows.erase id, removed := id :: l.removed
      changes := l.changes ++ [⟨id, none, none⟩] }
  -- The task.
  | hear {l : Link} {id : ℕ} {agentId : Option String} {rev : ℕ} {rest : List Change}
      (hmissed : l.missed = false) (hchanges : l.changes = ⟨id, agentId, some rev⟩ :: rest) :
    Happens lib l ({ l with changes := rest }.hear fits (id, agentId) rev)
  | hearGone {l : Link} {id : ℕ} {agentId : Option String} {rest : List Change} {keys : List Key}
      (hmissed : l.missed = false) (hchanges : l.changes = ⟨id, agentId, none⟩ :: rest)
      (hkeys : keys.Perm (l.lastSent.keys.filter (·.1 = id))) :
    Happens lib l (keys.foldl (endOf fits) { l with changes := rest })
  | miss {l : Link} (n : ℕ) : Happens lib l { l with changes := l.changes.drop n, missed := true }
  | resync {l : Link} {keys : List Key} (hmissed : l.missed = true)
      (hkeys : keys.Perm l.lastSent.keys) :
    Happens lib l (keys.foldl (bring fits) { l with missed := false })

/-- A new link, to the same windows. -/
def renewed : Link := { windows := l.windows, removed := l.removed }

/-- The windows of a daemon that has just started. -/
def Fresh (windows : SortedMap ℕ WindowEntry) : Prop :=
  ∀ id entry, windows.get? id = some entry →
    ∃ runtime, entry.conversations = { windowId := id, runtime }

/-- One thing that happens, in any order. -/
inductive Step (lib : Library) : Link → Link → Prop
  | happens {l l' : Link} (h : Happens fits lib l l') : Step lib l l'
  | answer {l : Link} (c : Command) (hhonest : l.Honest c) : Step lib l (l.answer fits c)
  | receive {l : Link} {m : Msg} {rest : List Msg} (hout : l.out = m :: rest) :
    Step lib l { l with out := rest }
  | relink {l : Link} : Step lib l l.renewed
  | restart {l : Link} {windows : SortedMap ℕ WindowEntry} (hfresh : Fresh windows) :
    Step lib l { windows }

/-- Whatever happens, from a daemon without windows on. -/
def Reached (lib : Library) (l : Link) : Prop := ReflTransGen (Step fits lib) {} l

end Link

/-! ## What a message does -/

namespace Link

variable {fits : Msg → Bool} {l l' : Link} {key : Key} {m : Msg}

/-- The task knows the revision of what it has told. -/
def Synced (l : Link) : Prop := ∀ key, l.lastSent.lookup key = (l.told key).map (·.rev)

/-- What was told of a conversation is of the revision that it is at. -/
def UpToDate (l : Link) (key : Key) : Prop :=
  ∀ c, l.told key = some c →
    ∃ entry, l.windows.get? key.1 = some entry ∧ c.rev = entry.conversations.revOr key.2

/-- A message that leads from what was told to what the conversation shows now. -/
def Updates (l : Link) : Msg → Prop
  | .snapshot id agentId c =>
    ∃ entry, l.windows.get? id = some entry ∧ c = entry.conversations.snapshotOrEmpty agentId
  | .delta id agentId fromRev toRev turns visible =>
    ∃ entry c, l.windows.get? id = some entry ∧ l.told (id, agentId) = some c ∧ c.rev = fromRev ∧
      afterDelta c toRev turns visible = entry.conversations.snapshotOrEmpty agentId
  | .gone .. => True

/-- What holds of the windows and of what was told, whatever the task has heard. -/
structure Kept (l : Link) : Prop where
  sound : ∀ id entry, l.windows.get? id = some entry → entry.conversations.Sound
  synced : l.Synced
  seen : ∀ key c entry, l.told key = some c → l.windows.get? key.1 = some entry →
    Seen entry.conversations key.2 c
  there : ∀ key c, l.told key = some c → (l.windows.get? key.1).isSome ∨ key.1 ∈ l.removed

theorem follow_of_ne (h : key ≠ m.key) (held : Option Conversation) : m.follow key held = held :=
  if_neg h

theorem key_send (lastSent : LastSent) : (send fits lastSent m).2.key = m.key := by
  cases m with
  | gone => rfl
  | snapshot | delta =>
    simp only [send, fitInFrame]
    split <;> rfl

theorem told_emit_of_ne (h : key ≠ m.key) : (l.emit fits m).told key = l.told key :=
  follow_of_ne (by rwa [key_send]) _

theorem lookup_send_of_ne (lastSent : LastSent) (h : key ≠ m.key) :
    (send fits lastSent m).1.lookup key = lastSent.lookup key := by
  cases m with
  | gone => exact AList.lookup_erase_ne h
  | snapshot | delta =>
    simp only [send, fitInFrame]
    split
    · exact AList.lookup_insert_ne h
    · exact (AList.lookup_erase_ne h).trans (AList.lookup_insert_ne h)

/-- A message that updates a client leaves it with nothing, or with what there is now. -/
theorem emit_cases (fits : Msg → Bool) (h : l.Updates m) :
    ((l.emit fits m).told m.key = none ∧ (l.emit fits m).lastSent.lookup m.key = none ∧
      ∃ reason, (send fits l.lastSent m).2 = .gone m.key.1 m.key.2 reason) ∨
    ∃ entry, l.windows.get? m.key.1 = some entry ∧
      (l.emit fits m).told m.key = some (entry.conversations.snapshotOrEmpty m.key.2) ∧
      (l.emit fits m).lastSent.lookup m.key =
        some (entry.conversations.snapshotOrEmpty m.key.2).rev := by
  have hfollow : ∀ {m' : Msg} {lastSent}, send fits l.lastSent m = (lastSent, m') →
      (l.emit fits m).told m.key = m'.follow m.key (l.told m.key) ∧
      (l.emit fits m).lastSent = lastSent := by
    intro m' lastSent hsend
    simp only [emit, hsend, and_self]
  cases m with
  | gone id agentId reason =>
    obtain ⟨htold, hlast⟩ := hfollow rfl
    exact .inl ⟨htold.trans (if_pos rfl), hlast ▸ AList.lookup_erase _ l.lastSent, _, rfl⟩
  | snapshot id agentId c =>
    obtain ⟨entry, hentry, rfl⟩ := h
    by_cases hfits : fits (.snapshot id agentId (entry.conversations.snapshotOrEmpty agentId))
    · obtain ⟨htold, hlast⟩ := hfollow (if_pos hfits)
      exact .inr ⟨entry, hentry, htold.trans (if_pos rfl), hlast ▸ AList.lookup_insert l.lastSent⟩
    · obtain ⟨htold, hlast⟩ := hfollow (if_neg hfits)
      exact .inl ⟨htold.trans (if_pos rfl),
        hlast ▸ AList.lookup_erase _ (AList.insert _ _ l.lastSent), _,
        congrArg Prod.snd (if_neg hfits)⟩
  | delta id agentId fromRev toRev turns visible =>
    obtain ⟨entry, c, hentry, hc, rfl, hafter⟩ := h
    by_cases hfits : fits (.delta id agentId c.rev toRev turns visible)
    · obtain ⟨htold, hlast⟩ := hfollow (if_pos hfits)
      have hrev : toRev = (entry.conversations.snapshotOrEmpty agentId).rev :=
        congrArg (·.rev) hafter
      refine .inr ⟨entry, hentry, (htold.trans (if_pos rfl)).trans ?_, ?_⟩
      · rw [show l.told (Msg.delta id agentId c.rev toRev turns visible).key = some c from hc]
        simp [hafter, Msg.key]
      · rw [hlast]
        exact (AList.lookup_insert l.lastSent).trans (congrArg some hrev)
    · obtain ⟨htold, hlast⟩ := hfollow (if_neg hfits)
      exact .inl ⟨htold.trans (if_pos rfl),
        hlast ▸ AList.lookup_erase _ (AList.insert _ _ l.lastSent), _,
        congrArg Prod.snd (if_neg hfits)⟩

theorem synced_emit (h : l.Updates m) (hsynced : l.Synced) : (l.emit fits m).Synced := by
  intro key
  by_cases hkey : key = m.key
  · subst hkey
    obtain ⟨htold, hlast, -⟩ | ⟨entry, -, htold, hlast⟩ := emit_cases fits h
    · rw [htold, hlast, Option.map_none]
    · rw [htold, hlast, Option.map_some]
  · rw [told_emit_of_ne hkey]
    exact (lookup_send_of_ne _ hkey).trans (hsynced key)

/-! ## The messages on their way -/

/-- What a client holds of each conversation, one message later. -/
def receive (held : Key → Option Conversation) (m : Msg) : Key → Option Conversation :=
  fun key => m.follow key (held key)

/-- A message for a client that holds something: a delta starts there, a snapshot is in order. -/
def FitsHeld (held : Key → Option Conversation) : Msg → Prop
  | .snapshot _ _ c => (c.turns.map Turn.id).Pairwise (· < ·)
  | .delta id agentId fromRev .. => ∃ c, held (id, agentId) = some c ∧ c.rev = fromRev
  | .gone .. => True

/-- The messages on their way lead from what a client knows to what it was told. -/
structure Stream (known : Key → Option Conversation) (l : Link) : Prop where
  fits : Channels.Fits FitsHeld receive known l.out
  told : ∀ key c, l.told key = some c → l.out.foldl receive known key = some c

/-- A client that follows a conversation, and may await a snapshot of it, will have what it was
    told, unless it is told that there is no more. -/
def Served (l : Link) (key : Key) (awaiting : Bool) : Prop :=
  (∃ reason, .gone key.1 key.2 reason ∈ l.out) ∨
  ((l.told key).isSome ∧ (awaiting → ∃ c, .snapshot key.1 key.2 c ∈ l.out))

/-- Messages are sent, if any. -/
structure Sends (l l' : Link) : Prop where
  stream : ∀ known, Stream known l → Stream known l'
  served : ∀ key awaiting, l.Served key awaiting → l'.Served key awaiting

theorem Sends.same (htold : l'.told = l.told) (hout : l'.out = l.out) : Sends l l' where
  stream known h := ⟨by rw [hout]; exact h.fits, by rw [htold, hout]; exact h.told⟩
  served key awaiting h := by rwa [Served, htold, hout]

theorem Sends.trans {l'' : Link} (h : Sends l l') (h' : Sends l' l'') : Sends l l'' where
  stream known hstream := h'.stream known (h.stream known hstream)
  served key awaiting hserved := h'.served key awaiting (h.served key awaiting hserved)

theorem follow_mono {a b : Option Conversation} (h : ∀ c, a = some c → b = some c)
    {c : Conversation} (hc : m.follow key a = some c) : m.follow key b = some c := by
  cases a with
  | some c' => rwa [h c' rfl]
  | none =>
    by_cases hkey : key = m.key
    · subst hkey
      cases m with
      | snapshot => simpa [Msg.follow] using hc
      | delta | gone => simp [Msg.follow] at hc
    · simp [follow_of_ne hkey] at hc

theorem sent_cases (fits : Msg → Bool) (lastSent : LastSent) (m : Msg) :
    (send fits lastSent m).2 = m ∨
      ∃ reason, (send fits lastSent m).2 = .gone m.key.1 m.key.2 reason := by
  cases m with
  | gone => exact .inl rfl
  | snapshot | delta =>
    simp only [send, fitInFrame]
    split
    · exact .inl rfl
    · exact .inr ⟨_, rfl⟩

theorem sorted_snapshotOrEmpty {s : ConversationSet} (h : s.Sound) (agentId : Option String) :
    ((s.snapshotOrEmpty agentId).turns.map Turn.id).Pairwise (· < ·) := by
  cases hentry : s.entry agentId with
  | none =>
    rw [ConversationSet.snapshotOrEmpty, hentry]
    exact List.Pairwise.nil
  | some e =>
    rw [snapshotOrEmpty_of_some hentry]
    exact (h agentId e hentry).1.sorted

theorem fitsHeld_of_updates {known : Key → Option Conversation} (h : l.Kept) (hm : l.Updates m)
    (hstream : Stream known l) : FitsHeld (l.out.foldl receive known) m := by
  cases m with
  | gone => trivial
  | snapshot id agentId c =>
    obtain ⟨entry, hentry, rfl⟩ := hm
    exact sorted_snapshotOrEmpty (h.sound _ _ hentry) agentId
  | delta id agentId fromRev toRev turns visible =>
    obtain ⟨entry, c, -, htold, hrev, -⟩ := hm
    exact ⟨c, hstream.told _ c htold, hrev⟩

theorem emit_sends (h : l.Kept) (hm : l.Updates m) : Sends l (l.emit fits m) where
  stream known hstream := by
    refine ⟨Channels.fits_concat.2 ⟨hstream.fits, ?_⟩, fun key c htold => ?_⟩
    · obtain hsent | ⟨reason, hsent⟩ := sent_cases fits l.lastSent m
      · rw [hsent]
        exact fitsHeld_of_updates h hm hstream
      · rw [hsent]
        trivial
    · show (l.out ++ [(send fits l.lastSent m).2]).foldl receive known key = some c
      rw [List.foldl_append]
      exact follow_mono (hstream.told key) htold
  served key awaiting hserved := by
    obtain ⟨reason, hmem⟩ | ⟨hsome, hsnapshot⟩ := hserved
    · exact .inl ⟨reason, List.mem_append_left _ hmem⟩
    · have hsnapshot' : awaiting → ∃ c, .snapshot key.1 key.2 c ∈ (l.emit fits m).out :=
        fun hawaiting => (hsnapshot hawaiting).imp fun _ hmem => List.mem_append_left _ hmem
      by_cases hkey : key = m.key
      · subst hkey
        obtain ⟨-, -, reason, hsent⟩ | ⟨entry, -, htold, -⟩ := emit_cases fits hm
        · refine .inl ⟨reason, List.mem_append_right _ ?_⟩
          rw [hsent]
          exact List.mem_singleton_self _
        · exact .inr ⟨by rw [htold]; rfl, hsnapshot'⟩
      · exact .inr ⟨by rwa [told_emit_of_ne hkey], hsnapshot'⟩

/-- An answer with everything serves, whatever was awaited. -/
theorem emit_served (hm : l.Updates m) (hwhole : m.Whole) (awaiting : Bool) :
    (l.emit fits m).Served m.key awaiting := by
  have hgone : ∀ reason, (send fits l.lastSent m).2 = .gone m.key.1 m.key.2 reason →
      (l.emit fits m).Served m.key awaiting := fun reason hsent =>
    .inl ⟨reason, List.mem_append_right _ (by rw [hsent]; exact List.mem_singleton_self _)⟩
  obtain ⟨-, -, reason, hsent⟩ | ⟨entry, -, htold, -⟩ := emit_cases fits hm
  · exact hgone reason hsent
  · obtain hsent | ⟨reason, hsent⟩ := sent_cases fits l.lastSent m
    · refine .inr ⟨by rw [htold]; rfl, fun _ => ?_⟩
      cases m with
      | gone => simp [emit, hsent, Msg.follow] at htold
      | snapshot id agentId c =>
        exact ⟨c, List.mem_append_right _ (by rw [hsent]; exact List.mem_singleton_self _)⟩
      | delta => exact hwhole.elim
    · exact hgone reason hsent

/-! ## Keys that are brought up -/

/-- What brings some keys up leaves all else as it is. -/
structure Brought (keys : List Key) (l l' : Link) : Prop where
  windows : l'.windows = l.windows
  removed : l'.removed = l.removed
  changes : l'.changes = l.changes
  missed : l'.missed = l.missed
  others : ∀ key ∉ keys, l'.told key = l.told key
  kept : l'.Kept
  upToDate : ∀ key ∈ keys, l'.UpToDate key
  sends : Sends l l'

theorem UpToDate.congr (h : l.UpToDate key) (hwindows : l'.windows = l.windows)
    (htold : l'.told key = l.told key) : l'.UpToDate key := by
  intro c hc
  rw [hwindows]
  exact h c (htold.symm.trans hc)

theorem Brought.same (h : l.Kept) (hup : l.UpToDate key) : Brought [key] l l where
  windows := rfl
  removed := rfl
  changes := rfl
  missed := rfl
  others _ _ := rfl
  kept := h
  upToDate _ hkey := List.mem_singleton.1 hkey ▸ hup
  sends := .same rfl rfl

theorem Brought.trans {l'' : Link} {keys keys' : List Key} (h : Brought keys l l')
    (h' : Brought keys' l' l'') : Brought (keys ++ keys') l l'' where
  windows := h'.windows.trans h.windows
  removed := h'.removed.trans h.removed
  changes := h'.changes.trans h.changes
  missed := h'.missed.trans h.missed
  others key hkey := by
    rw [List.mem_append, not_or] at hkey
    exact (h'.others key hkey.2).trans (h.others key hkey.1)
  kept := h'.kept
  upToDate key hkey := by
    by_cases hlater : key ∈ keys'
    · exact h'.upToDate key hlater
    · have hearlier := (List.mem_append.1 hkey).resolve_right hlater
      exact (h.upToDate key hearlier).congr h'.windows (h'.others key hlater)
  sends := h.sends.trans h'.sends

theorem emit_brought (h : l.Kept) (hm : l.Updates m) : Brought [m.key] l (l.emit fits m) where
  windows := rfl
  removed := rfl
  changes := rfl
  missed := rfl
  others _ hkey := told_emit_of_ne fun heq => hkey (List.mem_singleton.2 heq)
  kept := by
    refine ⟨h.sound, synced_emit hm h.synced, fun key c entry htold hentry => ?_,
      fun key c htold => ?_⟩
    · by_cases hkey : key = m.key
      · subst hkey
        obtain ⟨hnone, -⟩ | ⟨entry', hentry', hnow, -⟩ := emit_cases fits hm
        · simp [hnone] at htold
        · obtain rfl := Option.some.inj (hentry.symm.trans hentry')
          obtain rfl := Option.some.inj (htold.symm.trans hnow)
          exact seen_snapshotOrEmpty (h.sound _ _ hentry)
      · exact h.seen key c entry ((told_emit_of_ne hkey).symm.trans htold) hentry
    · by_cases hkey : key = m.key
      · subst hkey
        obtain ⟨hnone, -⟩ | ⟨entry, hentry, -⟩ := emit_cases fits hm
        · simp [hnone] at htold
        · exact .inl (Option.isSome_iff_exists.2 ⟨entry, hentry⟩)
      · exact h.there key c ((told_emit_of_ne hkey).symm.trans htold)
  upToDate := by
    rintro key hkey c htold
    obtain rfl := List.mem_singleton.1 hkey
    obtain ⟨hnone, -⟩ | ⟨entry, hentry, hnow, -⟩ := emit_cases fits hm
    · simp [hnone] at htold
    · obtain rfl := Option.some.inj (htold.symm.trans hnow)
      exact ⟨entry, hentry, snapshotOrEmpty_rev⟩
  sends := emit_sends h hm

theorem foldl_brought {f : Link → Key → Link}
    (hf : ∀ l key, Kept l → Brought [key] l (f l key)) (h : l.Kept) (keys : List Key) :
    Brought keys l (keys.foldl f l) := by
  induction keys generalizing l with
  | nil => exact ⟨rfl, rfl, rfl, rfl, fun _ _ => rfl, h, by simp, .same rfl rfl⟩
  | cons key keys ih => exact (hf l key h).trans (ih (hf l key h).kept)

/-! ## Answers and updates -/

section Replies

variable {id : ℕ} {agentId : Option String} {fromRev : Option ℕ} {entry : WindowEntry}

theorem key_reply : (entry.reply id agentId fromRev).key = (id, agentId) := by
  cases fromRev with
  | none => rfl
  | some rev =>
    simp only [WindowEntry.reply, Option.bind_some]
    split
    · cases entry.conversations.deltaSince agentId rev with
      | none => rfl
      | some x => cases entry.conversations.visible agentId <;> rfl
    · rfl

theorem updates_reply (h : l.Kept) (hentry : l.windows.get? id = some entry)
    (hfrom : ∀ rev, fromRev = some rev → ∃ c, l.told (id, agentId) = some c ∧ c.rev = rev) :
    l.Updates (entry.reply id agentId fromRev) := by
  have hall : l.Updates (.snapshot id agentId (entry.conversations.snapshotOrEmpty agentId)) :=
    ⟨entry, hentry, rfl⟩
  cases fromRev with
  | none => exact hall
  | some rev =>
    obtain ⟨c, htold, rfl⟩ := hfrom rev rfl
    simp only [WindowEntry.reply, Option.bind_some]
    split
    · cases hdelta : entry.conversations.deltaSince agentId c.rev with
      | none => exact hall
      | some x =>
        obtain ⟨toRev, patches⟩ := x
        cases hvisible : entry.conversations.visible agentId with
        | none => exact hall
        | some visible =>
          exact ⟨entry, c, hentry, htold, rfl,
            (h.seen _ c entry htold hentry).delta (h.sound _ _ hentry) hdelta hvisible⟩
    · exact hall

theorem key_conversationReply :
    (conversationReply l.windows id agentId fromRev).key = (id, agentId) := by
  rw [conversationReply]
  split
  · rfl
  · split
    · exact key_reply
    · rfl

theorem whole_conversationReply : (conversationReply l.windows id agentId none).Whole := by
  rw [conversationReply]
  split
  · trivial
  · split <;> trivial

theorem updates_conversationReply (h : l.Kept)
    (hfrom : ∀ rev, fromRev = some rev → ∃ c, l.told (id, agentId) = some c ∧ c.rev = rev) :
    l.Updates (conversationReply l.windows id agentId fromRev) := by
  rw [conversationReply]
  split
  · trivial
  · rename_i hentry
    split
    · exact updates_reply h hentry hfrom
    · trivial

/-- Where there is nothing to send, there is nothing newer. -/
theorem update_cases (h : l.Kept) {c : Conversation} (htold : l.told key = some c) :
    (update l.windows key.1 key.2 c.rev = none ∧ l.UpToDate key) ∨
    ∃ m, update l.windows key.1 key.2 c.rev = some m ∧ m.key = key ∧ l.Updates m := by
  rw [update]
  cases hdelta : conversationDelta l.windows key.1 key.2 c.rev with
  | none =>
    exact .inr ⟨_, rfl, key_conversationReply,
      updates_conversationReply h fun _ hrev => nomatch hrev⟩
  | some x =>
    obtain ⟨toRev, turns, visible⟩ := x
    simp only [conversationDelta, Option.bind_eq_some_iff, Option.map_eq_some_iff,
      Prod.mk.injEq] at hdelta
    obtain ⟨entry, hentry, ⟨toRev', turns'⟩, hpatches, visible', hvisible, rfl, rfl, rfl⟩ := hdelta
    have hnow := (h.seen key c entry htold hentry).delta (h.sound _ _ hentry) hpatches hvisible
    dsimp only
    split
    · rename_i hsame
      refine .inl ⟨rfl, fun c' htold' => ⟨entry, hentry, ?_⟩⟩
      obtain rfl := Option.some.inj (htold.symm.trans htold')
      rw [← hsame, ← snapshotOrEmpty_rev, ← hnow]
      rfl
    · exact .inr ⟨_, rfl, rfl, entry, c, hentry, htold, rfl, hnow⟩

theorem bring_brought (h : l.Kept) (key : Key) : Brought [key] l (l.bring fits key) := by
  have hsynced := h.synced key
  rw [bring]
  cases htold : l.told key with
  | none =>
    rw [htold, Option.map_none] at hsynced
    rw [hsynced]
    exact .same h fun c hc => by simp [htold] at hc
  | some c =>
    rw [htold, Option.map_some] at hsynced
    rw [hsynced]
    dsimp only
    obtain ⟨hnone, hup⟩ | ⟨m, hsome, rfl, hm⟩ := update_cases h htold
    · rw [hnone]
      exact .same h hup
    · rw [hsome]
      exact emit_brought h hm

theorem endOf_brought (h : l.Kept) (key : Key) : Brought [key] l (l.endOf fits key) :=
  emit_brought h (show l.Updates (.gone key.1 key.2 goneWindowRemoved) from trivial)

end Replies

/-! ## The invariant -/

/-- What was told is of the last revision, or that is still to be heard, as is the end of a window
    that there is no more. -/
def Heard (l : Link) (key : Key) (c : Conversation) : Prop :=
  match l.windows.get? key.1 with
  | none => ∃ agentId, ⟨key.1, agentId, none⟩ ∈ l.changes
  | some entry => c.rev = entry.conversations.revOr key.2 ∨
      ⟨key.1, key.2, some (entry.conversations.revOr key.2)⟩ ∈ l.changes

structure Inv (l : Link) : Prop extends Kept l where
  heard : l.missed = false → ∀ key c, l.told key = some c → l.Heard key c

variable {c : Conversation} {keys : List Key}

theorem UpToDate.heard (h : l.UpToDate key) (htold : l.told key = some c) : l.Heard key c := by
  obtain ⟨entry, hentry, hrev⟩ := h c htold
  rw [Heard, hentry]
  exact .inl hrev

theorem Heard.mono (h : l.Heard key c)
    (hwindow : l'.windows.get? key.1 = l.windows.get? key.1) (hchanges : l.changes ⊆ l'.changes) :
    l'.Heard key c := by
  rw [Heard] at h ⊢
  rw [hwindow]
  cases hentry : l.windows.get? key.1 with
  | none =>
    rw [hentry] at h
    exact h.imp fun _ hmem => hchanges hmem
  | some entry =>
    rw [hentry] at h
    exact h.imp_right fun hmem => hchanges hmem

/-- Once some keys are up to date, the others are all that is left. -/
theorem Brought.inv (h : Brought keys l l')
    (hrest : l.missed = false → ∀ key ∉ keys, ∀ c, l.told key = some c → l.Heard key c) :
    l'.Inv := by
  refine ⟨h.kept, fun hmissed key c htold => ?_⟩
  by_cases hkey : key ∈ keys
  · exact (h.upToDate key hkey).heard htold
  · have hheard := hrest (h.missed ▸ hmissed) key hkey c ((h.others key hkey).symm.trans htold)
    exact hheard.mono (by rw [h.windows]) (by rw [h.changes]; exact List.Subset.refl _)

section Windows

open ConversationSet SortedMap

variable {id : ℕ} {entry entry' : WindowEntry} {set : ConversationSet}

/-- A revision that is new is told. -/
theorem mem_change (hgrows : Grows entry.conversations set) {agentId : Option String}
    (hne : set.revOr agentId ≠ entry.conversations.revOr agentId) :
    ⟨id, agentId, some (set.revOr agentId)⟩ ∈ (entry.change id set).2 := by
  cases hnow : set.entry agentId with
  | none =>
    cases hbefore : entry.conversations.entry agentId with
    | none => exact absurd ((revOr_of_none hnow).trans (revOr_of_none hbefore).symm) hne
    | some e =>
      obtain ⟨e', he', -⟩ := hgrows.kept agentId e hbefore
      simp [hnow] at he'
  | some e =>
    obtain ⟨l₁, l₂, hentries, -⟩ := List.lookup_eq_some_iff.1 hnow
    have hmem : (agentId, e) ∈ set.entries := by simp [hentries]
    exact List.mem_map.2 ⟨(agentId, set.revOr agentId), List.mem_filter.2
      ⟨List.mem_map.2 ⟨_, hmem, rfl⟩, by simpa using hne.symm⟩, rfl⟩

/-- A window's entry is another, and what is new of its conversations is told. -/
theorem Inv.put (h : l.Inv) (hentry : l.windows.get? id = some entry)
    (hgrows : Grows entry.conversations entry'.conversations) {changes : List Change}
    (hchanges : l.changes ⊆ changes)
    (htold : ∀ agentId, entry'.conversations.revOr agentId ≠ entry.conversations.revOr agentId →
      ⟨id, agentId, some (entry'.conversations.revOr agentId)⟩ ∈ changes) :
    Inv { l with windows := l.windows.insert id entry', changes } := by
  have hget : ∀ {id' e}, (l.windows.insert id entry').get? id' = some e →
      (id' = id ∧ e = entry') ∨ (id' ≠ id ∧ l.windows.get? id' = some e) := by
    intro id' e he
    rw [get?_insert] at he
    split_ifs at he with hid
    · exact .inl ⟨hid, (Option.some.inj he).symm⟩
    · exact .inr ⟨hid, he⟩
  refine ⟨⟨fun id' e he => ?_, h.synced, fun key c e htold' he => ?_, fun key c htold' => ?_⟩,
    fun hmissed key c htold' => ?_⟩
  · obtain ⟨-, rfl⟩ | ⟨-, he'⟩ := hget he
    · exact (h.sound _ _ hentry).grows hgrows
    · exact h.sound _ _ he'
  · obtain ⟨hid, rfl⟩ | ⟨-, he'⟩ := hget he
    · exact (h.seen key c entry htold' (hid ▸ hentry)).grows hgrows
    · exact h.seen key c e htold' he'
  · refine (h.there key c htold').imp_left fun hsome => ?_
    show ((l.windows.insert id entry').get? key.1).isSome
    rw [get?_insert]
    split_ifs
    · rfl
    · exact hsome
  · have hheard := h.heard hmissed key c htold'
    by_cases hid : key.1 = id
    · rw [Heard, hid, hentry] at hheard
      rw [Heard]
      show match (l.windows.insert id entry').get? key.1 with | none => _ | some entry => _
      rw [hid, get?_insert_self]
      dsimp only at hheard ⊢
      by_cases hsame : entry'.conversations.revOr key.2 = entry.conversations.revOr key.2
      · rw [hsame]
        exact hheard.imp_right fun hmem => hchanges hmem
      · exact .inr (htold key.2 hsame)
    · exact hheard.mono (get?_insert_of_ne hid) hchanges

theorem Inv.change (h : l.Inv) (hentry : l.windows.get? id = some entry)
    (hgrows : Grows entry.conversations set) : (l.change id entry set).Inv :=
  h.put hentry hgrows (List.subset_append_left _ _)
    fun _ hne => List.mem_append_right _ (mem_change hgrows hne)

theorem sound_new {runtime : Run.Runtime} :
    ConversationSet.Sound { windowId := id, runtime } := by
  intro agentId e he
  simp [ConversationSet.entry] at he

theorem Inv.create (h : l.Inv) (hnew : l.windows.get? id = none) (hfresh : id ∉ l.removed)
    (runtime : Run.Runtime) (headless : Bool) :
    Inv { l with windows := l.windows.insert id (.new id runtime headless) } := by
  have hother : ∀ key c, l.told key = some c → key.1 ≠ id := by
    rintro key c htold rfl
    obtain hsome | hremoved := h.there key c htold
    · simp [hnew] at hsome
    · exact hfresh hremoved
  refine ⟨⟨fun id' e he => ?_, h.synced, fun key c e htold he => ?_, fun key c htold => ?_⟩,
    fun hmissed key c htold => ?_⟩
  · replace he : (l.windows.insert id _).get? id' = some e := he
    rw [get?_insert] at he
    split_ifs at he
    · obtain rfl := Option.some.inj he
      exact sound_new
    · exact h.sound _ _ he
  · exact h.seen key c e htold ((get?_insert_of_ne (hother key c htold)).symm.trans he)
  · refine (h.there key c htold).imp_left fun hsome => ?_
    show ((l.windows.insert id _).get? key.1).isSome
    rwa [get?_insert_of_ne (hother key c htold)]
  · exact (h.heard hmissed key c htold).mono (get?_insert_of_ne (hother key c htold))
      (List.Subset.refl _)

theorem Inv.remove (h : l.Inv) :
    Inv { l with
      windows := l.windows.erase id, removed := id :: l.removed
      changes := l.changes ++ [⟨id, none, none⟩] } := by
  have hget : ∀ {id' e}, (l.windows.erase id).get? id' = some e → l.windows.get? id' = some e := by
    intro id' e he
    rw [get?_erase] at he
    split_ifs at he
    exact he
  refine ⟨⟨fun id' e he => h.sound _ _ (hget he), h.synced,
    fun key c e htold he => h.seen key c e htold (hget he), fun key c htold => ?_⟩,
    fun hmissed key c htold => ?_⟩
  · by_cases hid : key.1 = id
    · exact .inr (hid ▸ List.mem_cons_self)
    · refine (h.there key c htold).imp (fun hsome => ?_) (List.mem_cons_of_mem _)
      show ((l.windows.erase id).get? key.1).isSome
      rwa [get?_erase, if_neg hid]
  · by_cases hid : key.1 = id
    · rw [Heard]
      show match (l.windows.erase id).get? key.1 with | none => _ | some entry => _
      rw [get?_erase, if_pos hid]
      exact ⟨none, List.mem_append_right _ (by rw [hid]; exact List.mem_singleton_self _)⟩
    · refine (h.heard hmissed key c htold).mono ?_ (List.subset_append_left _ _)
      show (l.windows.erase id).get? key.1 = _
      rw [get?_erase, if_neg hid]

end Windows

/-! ## The task -/

theorem Kept.congr (h : l.Kept) (hwindows : l'.windows = l.windows)
    (hremoved : l'.removed = l.removed) (hlast : l'.lastSent = l.lastSent)
    (htold : l'.told = l.told) : l'.Kept := by
  refine ⟨?_, ?_, ?_, ?_⟩
  · rw [hwindows]
    exact h.sound
  · rw [Synced, hlast, htold]
    exact h.synced
  · rw [hwindows, htold]
    exact h.seen
  · rw [hwindows, hremoved, htold]
    exact h.there

/-- One key is brought up, and nothing else has to be heard. -/
theorem Inv.emit (h : l.Inv) (hm : l.Updates m) : (l.emit fits m).Inv :=
  (emit_brought h.toKept hm).inv fun hmissed key _ c htold => h.heard hmissed key c htold

/-- A subscription is one message, to windows that are as before but for a reason that shows. -/
theorem subscribe_cases (fits : Msg → Bool) (h : l.Inv) {id : ℕ} {agentId : Option String}
    {fromRev : Option ℕ}
    (hfrom : ∀ rev, fromRev = some rev → ∃ c, l.told (id, agentId) = some c ∧ c.rev = rev) :
    ∃ l₁ m, l.answer fits (.subscribe id agentId fromRev) = l₁.emit fits m ∧ l₁.Inv ∧
      Sends l l₁ ∧ l₁.Updates m ∧ m.key = (id, agentId) ∧ (fromRev = none → m.Whole) := by
  rw [answer]
  split
  · exact ⟨l, _, rfl, h, .same rfl rfl, updates_conversationReply h.toKept hfrom,
      key_conversationReply, fun hnone => hnone ▸ whole_conversationReply⟩
  · -- nothing is told before a gone
    have hsame : Inv { l with changes := l.changes ++ [] } :=
      ⟨h.toKept.congr rfl rfl rfl rfl, fun hmissed key c htold =>
        (h.heard hmissed key c htold).mono rfl (List.subset_append_left _ _)⟩
    cases hentry : l.windows.get? id with
    | none =>
      simp only [subscribeConversation, hentry]
      exact ⟨_, _, rfl, hsame, .same rfl rfl, trivial, rfl, fun _ => trivial⟩
    | some entry =>
      simp only [subscribeConversation, hentry]
      split
      · have hmid : Inv { l with
            windows := l.windows.insert id (entry.beforeReply id).1
            changes := l.changes ++ (entry.beforeReply id).2 } := by
          rw [WindowEntry.beforeReply]
          split
          · exact h.change hentry (ConversationSet.call_grows ConversationSet.plain
              (h.sound _ _ hentry) (.setDegraded (some .noTranscriptPath)))
          · exact h.put hentry (.refl _) (List.subset_append_left _ _) fun _ hne => absurd rfl hne
        exact ⟨_, _, rfl, hmid, .same rfl rfl,
          updates_reply hmid.toKept SortedMap.get?_insert_self hfrom, key_reply,
          fun hnone => hnone ▸ trivial⟩
      · exact ⟨_, _, rfl, hsame, .same rfl rfl, trivial, rfl, fun _ => trivial⟩

theorem Inv.subscribe (h : l.Inv) {id : ℕ} {agentId : Option String} {fromRev : Option ℕ}
    (hfrom : ∀ rev, fromRev = some rev → ∃ c, l.told (id, agentId) = some c ∧ c.rev = rev) :
    (l.answer fits (.subscribe id agentId fromRev)).Inv := by
  obtain ⟨l₁, m, heq, hinv, -, hm, -⟩ := subscribe_cases fits h hfrom
  rw [heq]
  exact hinv.emit hm

/-- A command for everything is answered with everything, or with the end. -/
theorem subscribe_sends (fits : Msg → Bool) (h : l.Inv) (id : ℕ) (agentId : Option String) :
    Sends l (l.answer fits (.subscribe id agentId none)) ∧
      ∀ awaiting, (l.answer fits (.subscribe id agentId none)).Served (id, agentId) awaiting := by
  obtain ⟨l₁, m, heq, hinv, hsends, hm, hkey, hwhole⟩ :=
    subscribe_cases fits h
      (show ∀ rev, none = some rev → ∃ c, l.told (id, agentId) = some c ∧ c.rev = rev
        from fun _ hrev => nomatch hrev)
  rw [heq, ← hkey]
  exact ⟨hsends.trans (emit_sends hinv.toKept hm), emit_served hm (hwhole rfl)⟩

theorem Inv.unsubscribe (h : l.Inv) {id : ℕ} {agentId : Option String} :
    (l.answer fits (.unsubscribe id agentId)).Inv := by
  have htold : ∀ {key c}, (if key = (id, agentId) then none else l.told key) = some c →
      l.told key = some c := by
    intro key c hc
    split_ifs at hc
    exact hc
  refine ⟨⟨h.sound, fun key => ?_, fun key c e hc => h.seen key c e (htold hc),
    fun key c hc => h.there key c (htold hc)⟩,
    fun hmissed key c hc => (h.heard hmissed key c (htold hc)).mono rfl (List.Subset.refl _)⟩
  show (l.lastSent.erase (id, agentId)).lookup key =
    Option.map _ (if key = (id, agentId) then none else l.told key)
  by_cases hkey : key = (id, agentId)
  · subst hkey
    rw [AList.lookup_erase, if_pos rfl]
    rfl
  · rw [AList.lookup_erase_ne hkey, if_neg hkey]
    exact h.synced key

section Changes

variable {id : ℕ} {agentId : Option String} {rest : List Change}

/-- A change that says nothing of a key is not missed. -/
theorem Heard.tail {change : Change} (h : l.Heard key c) (hchanges : l.changes = change :: rest)
    (hid : change.rev = none → change.windowId ≠ key.1)
    (hkey : ∀ entry, l.windows.get? key.1 = some entry →
      ⟨key.1, key.2, some (entry.conversations.revOr key.2)⟩ ≠ change) :
    Heard { l with changes := rest } key c := by
  rw [Heard] at h ⊢
  dsimp only
  cases hentry : l.windows.get? key.1 with
  | none =>
    rw [hentry] at h
    obtain ⟨agentId, hmem⟩ := h
    rw [hchanges] at hmem
    refine ⟨agentId, (List.mem_cons.1 hmem).resolve_left ?_⟩
    rintro rfl
    exact hid rfl rfl
  | some entry =>
    rw [hentry] at h
    refine h.imp_right fun hmem => ?_
    rw [hchanges] at hmem
    exact (List.mem_cons.1 hmem).resolve_left (hkey entry hentry)

theorem Inv.hear (h : l.Inv) {rev : ℕ} (hmissed : l.missed = false)
    (hchanges : l.changes = ⟨id, agentId, some rev⟩ :: rest) :
    (({ l with changes := rest } : Link).hear fits (id, agentId) rev).Inv := by
  have hkept : Kept { l with changes := rest } := h.toKept.congr rfl rfl rfl rfl
  have hothers : ∀ key ≠ (id, agentId), ∀ c, l.told key = some c →
      Heard { l with changes := rest } key c := by
    intro key hkey c htold
    refine (h.heard hmissed key c htold).tail hchanges (fun hrev => nomatch hrev) ?_
    rintro entry - heq
    simp only [Change.mk.injEq] at heq
    exact hkey (Prod.ext heq.1 heq.2.1)
  rw [Link.hear]
  split
  · exact (bring_brought hkept _).inv fun _ key hkey c htold =>
      hothers key (fun heq => hkey (List.mem_singleton.2 heq)) c htold
  · rename_i hnotNewer
    refine ⟨hkept, fun _ key c htold => ?_⟩
    by_cases hkey : key = (id, agentId)
    · subst hkey
      -- what was told is no older than the revision, which is the last
      by_cases hlast : ∃ entry, l.windows.get? id = some entry ∧
          entry.conversations.revOr agentId = rev
      · obtain ⟨entry, hentry, rfl⟩ := hlast
        have hle := (h.seen _ c entry htold hentry).le
        have hnewer : ¬c.rev < entry.conversations.revOr agentId := by
          have hlookup := h.synced (id, agentId)
          rw [show l.told (id, agentId) = some c from htold, Option.map_some] at hlookup
          replace hnotNewer : ¬((l.lastSent.lookup (id, agentId)).any
            (· < entry.conversations.revOr agentId)) = true := hnotNewer
          rw [hlookup] at hnotNewer
          simpa using hnotNewer
        refine UpToDate.heard (fun c' htold' => ⟨entry, hentry, ?_⟩) htold
        obtain rfl := Option.some.inj (htold.symm.trans htold')
        exact le_antisymm hle (not_lt.1 hnewer)
      · refine (h.heard hmissed _ c htold).tail hchanges (fun hrev => nomatch hrev) ?_
        intro entry hentry heq
        simp only [Change.mk.injEq, Option.some.injEq] at heq
        exact hlast ⟨entry, hentry, heq.2.2⟩
    · exact hothers key hkey c htold

theorem Inv.hearGone (h : l.Inv) (hmissed : l.missed = false)
    (hchanges : l.changes = ⟨id, agentId, none⟩ :: rest)
    (hkeys : keys.Perm (l.lastSent.keys.filter (·.1 = id))) :
    (keys.foldl (endOf fits) { l with changes := rest }).Inv := by
  have hkept : Kept { l with changes := rest } := h.toKept.congr rfl rfl rfl rfl
  refine (foldl_brought (f := endOf fits) (fun _ key h => endOf_brought h key) hkept keys).inv ?_
  intro _ key hkey c htold
  refine (h.heard hmissed key c htold).tail hchanges (fun _ hid => hkey ?_) ?_
  · have hlookup := h.synced key
    rw [show l.told key = some c from htold] at hlookup
    have hmem : key ∈ l.lastSent := AList.lookup_isSome.1 (by rw [hlookup]; rfl)
    exact hkeys.mem_iff.2 (List.mem_filter.2 ⟨hmem, decide_eq_true hid.symm⟩)
  · rintro entry - heq
    simp at heq

theorem Inv.resync (h : l.Inv) (hkeys : keys.Perm l.lastSent.keys) :
    (keys.foldl (bring fits) { l with missed := false }).Inv := by
  have hkept : Kept { l with missed := false } := h.toKept.congr rfl rfl rfl rfl
  refine (foldl_brought (f := bring fits) (fun _ key h => bring_brought h key) hkept keys).inv ?_
  intro _ key hkey c htold
  have hlookup := h.synced key
  rw [show l.told key = some c from htold] at hlookup
  exact absurd (hkeys.mem_iff.2 (AList.lookup_isSome.1 (by rw [hlookup]; rfl))) hkey

end Changes

/-! ## Runs -/

variable {lib : Library}

theorem Inv.happens (h : l.Inv) (hstep : Happens fits lib l l') : l'.Inv := by
  cases hstep with
  | create hnew hfresh runtime headless => exact h.create hnew hfresh runtime headless
  | call hentry c =>
    exact h.change hentry (ConversationSet.call_grows lib (h.sound _ _ hentry) c)
  | spawned hentry spawned =>
    refine h.put hentry ?_ (List.Subset.refl _) fun _ hne => absurd rfl hne
    exact .refl _
  | remove => exact h.remove
  | hear hmissed hchanges => exact h.hear hmissed hchanges
  | hearGone hmissed hchanges hkeys => exact h.hearGone hmissed hchanges hkeys
  | miss n => exact ⟨h.toKept.congr rfl rfl rfl rfl, fun hmissed => nomatch hmissed⟩
  | resync _ hkeys => exact h.resync hkeys

theorem Inv.answer (h : l.Inv) {c : Command} (hhonest : l.Honest c) : (l.answer fits c).Inv := by
  cases c with
  | subscribe id agentId fromRev => exact h.subscribe hhonest
  | unsubscribe id agentId => exact h.unsubscribe

theorem Inv.received (h : l.Inv) (out : List Msg) : Inv { l with out } :=
  ⟨h.toKept.congr rfl rfl rfl rfl, fun hmissed key c htold =>
    (h.heard hmissed key c htold).mono rfl (List.Subset.refl _)⟩

theorem Inv.renewed (h : l.Inv) : l.renewed.Inv :=
  ⟨⟨h.sound, fun _ => rfl, fun _ _ _ htold => (nomatch htold), fun _ _ htold => (nomatch htold)⟩,
    fun _ _ _ htold => (nomatch htold)⟩

theorem Fresh.inv {windows : SortedMap ℕ WindowEntry} (h : Fresh windows) : Inv { windows } := by
  refine ⟨⟨fun id entry hentry => ?_, fun _ => rfl, fun _ _ _ htold => (nomatch htold),
    fun _ _ htold => (nomatch htold)⟩, fun _ _ _ htold => (nomatch htold)⟩
  obtain ⟨runtime, heq⟩ := h id entry hentry
  rw [heq]
  exact sound_new

theorem Inv.step (h : l.Inv) (hstep : Step fits lib l l') : l'.Inv := by
  cases hstep with
  | happens hstep => exact h.happens hstep
  | answer c hhonest => exact h.answer hhonest
  | receive => exact h.received _
  | relink => exact h.renewed
  | restart hfresh => exact hfresh.inv

theorem Reached.inv (h : Reached fits lib l) : l.Inv := by
  induction h with
  | refl => exact Fresh.inv fun _ _ hentry => by simp [SortedMap.get?_empty] at hentry
  | tail _ hstep ih => exact ih.step hstep

theorem happens_sends (h : l.Inv) (hstep : Happens fits lib l l') : Sends l l' := by
  have hchanges : ∀ changes, Kept { l with changes } ∧ Sends l { l with changes } := fun _ =>
    ⟨h.toKept.congr rfl rfl rfl rfl, .same rfl rfl⟩
  cases hstep with
  | create | call | spawned | remove | miss => exact .same rfl rfl
  | hear =>
    obtain ⟨hkept, hsends⟩ := hchanges _
    rw [Link.hear]
    split
    · exact hsends.trans (bring_brought hkept _).sends
    · exact hsends
  | hearGone =>
    obtain ⟨hkept, hsends⟩ := hchanges _
    exact hsends.trans
      (foldl_brought (f := endOf fits) (fun _ key h => endOf_brought h key) hkept _).sends
  | resync =>
    have hkept : Kept { l with missed := false } := h.toKept.congr rfl rfl rfl rfl
    have hsame : Sends l { l with missed := false } := .same rfl rfl
    exact hsame.trans
      (foldl_brought (f := bring fits) (fun _ key h => bring_brought h key) hkept _).sends

/-- Of what the task has heard everything of, the client was told what there is now. -/
theorem Inv.current (h : l.Inv) (hmissed : l.missed = false) (hchanges : l.changes = [])
    (htold : l.told key = some c) :
    ∃ entry, l.windows.get? key.1 = some entry ∧ Shown entry.conversations key.2 c := by
  have hheard := h.heard hmissed key c htold
  rw [Heard, hchanges] at hheard
  cases hentry : l.windows.get? key.1 with
  | none => simp [hentry] at hheard
  | some entry =>
    rw [hentry] at hheard
    have hseen := h.seen key c entry htold hentry
    exact ⟨entry, rfl, hseen.current (hheard.resolve_right (by simp))⟩

/-- A headless window whose conversation a client follows from before its first prompt. -/
def followed : Link :=
  ({ windows := SortedMap.empty.insert 4 (.new 4 .claude true) } : Link).answer (fun _ => true)
    (.subscribe 4 none none)

/-- The prompt, which the client has not been told. -/
def prompted : Link :=
  followed.change 4 (.new 4 .claude true) ((WindowEntry.new 4 .claude true).conversations.call
    ConversationSet.plain (.onHook { kind := .userPromptSubmit, prompt := some "go" } none 5 0
      ⟨8, 100000, 4096⟩))

def heardPrompt : Link :=
  ({ prompted with changes := [] } : Link).hear (fun _ => true) (4, none) 1

theorem reached_heardPrompt : Reached (fun _ => true) ConversationSet.plain heardPrompt := by
  have hcreate : Step (fun _ => true) ConversationSet.plain {}
      { windows := SortedMap.empty.insert 4 (.new 4 .claude true) } :=
    .happens (.create rfl List.not_mem_nil .claude true)
  have hfollow : Step (fun _ => true) ConversationSet.plain _ followed :=
    .answer (.subscribe 4 none none) fun _ hrev => nomatch hrev
  have hprompt : Step (fun _ => true) ConversationSet.plain followed prompted :=
    .happens (.call rfl _)
  have hhear : Step (fun _ => true) ConversationSet.plain prompted heardPrompt :=
    .happens (.hear rfl rfl)
  exact (((ReflTransGen.single hcreate).tail hfollow).tail hprompt).tail hhear

end Link

end Anthrex.Conversation
