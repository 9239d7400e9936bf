import Anthrex.Conversation.Link

/-!
# A client and the daemon

The conversations that a client shows (`tui/src/conversation.rs`), the task that serves it
(`server/conversation.rs`), and the commands and messages on their way between them. The client
opens, closes and follows views as it likes, the conversations change, windows are removed, messages
may be too large, and the link may be lost and come back, to a daemon that was restarted.

* `view_current`: once all that was sent is received, every conversation on the trail is shown as
  the daemon has it; no message is ever answered with a new subscription.
-/

namespace Anthrex.Conversation

open Relation

/-! ## The view -/

def Subscribe.toCommand (s : Subscribe) : Command := .subscribe s.windowId s.agentId none

namespace ConversationView

variable (v : ConversationView)

def unsubscribe (agentId : Option String) : List Command :=
  if v.unlinked then [] else [.unsubscribe v.windowId agentId]

/-- Back to closed. -/
def reset : ConversationView := { unlinked := v.unlinked }

def close : ConversationView × List Command :=
  if v.isOpen then (v.reset, v.levels.reverse.flatMap fun level => v.unsubscribe level.agentId)
  else (v, [])

/-- A view of a window's own conversation. -/
def «open» (windowId : ℕ) : ConversationView × List Command :=
  let (v, effects) := v.close
  let v : ConversationView :=
    { isOpen := true, windowId, levels := [{ awaitingSnapshot := true }], unlinked := v.unlinked }
  (v, effects ++ (v.subscribe none).map Subscribe.toCommand)

/-- The sub-agent that a block started. -/
def spawnAt (turnId block : ℕ) : Option String :=
  (v.levels.getLast?.bind Level.conversation).bind fun c =>
    (c.turns.find? (·.id = turnId)).bind fun turn =>
      match turn.blocks[block]? with
      | some (.subagentSpawn agentId ..) => some agentId
      | _ => none

/-- One level deeper, unless the trail has it. -/
def descend (turnId block : ℕ) : ConversationView × List Command :=
  match v.spawnAt turnId block with
  | none => (v, [])
  | some agentId =>
    if v.levels.any (·.agentId = some agentId) then (v, [])
    else
      ({ v with levels := v.levels ++ [{ agentId := some agentId, awaitingSnapshot := true }] },
        (v.subscribe (some agentId)).map Subscribe.toCommand)

/-- One level up, and out of the last one. -/
def back : ConversationView × List Command :=
  if v.levels.length ≤ 1 then v.close
  else ({ v with levels := v.levels.dropLast },
    (v.levels.getLast?.elim [] fun level => v.unsubscribe level.agentId))

/-- The daemon ended a subscription: its level goes, and those below it. -/
def onGone (windowId : ℕ) (agentId : Option String) : ConversationView × List Command :=
  match v.levelIndex windowId agentId with
  | none => (v, [])
  | some i =>
    let effects := (v.levels.drop (i + 1)).reverse.flatMap fun level => v.unsubscribe level.agentId
    (if i = 0 then v.reset else { v with levels := v.levels.take i }, effects)

def linkLost : ConversationView := { v with unlinked := true }

/-- Every level waits for its conversation anew. -/
def relink : ConversationView × List Command :=
  let v := { v with unlinked := false }
  if v.isOpen then
    let v := { v with levels := v.levels.map fun level => { level with awaitingSnapshot := true } }
    (v, v.levels.flatMap fun level => (v.subscribe level.agentId).map Subscribe.toCommand)
  else (v, [])

def receive : Msg → ConversationView × List Command
  | .snapshot windowId agentId conversation => (v.onSnapshot windowId agentId conversation, [])
  | .delta windowId agentId fromRev toRev turns visible =>
    let (v, effects) := v.onDelta windowId agentId fromRev toRev turns visible
    (v, effects.map Subscribe.toCommand)
  | .gone windowId agentId _ => v.onGone windowId agentId

end ConversationView

/-! ## Worlds -/

structure World where
  link : Link := {}
  /-- The commands that are sent and not answered. -/
  commands : List Command := []
  view : ConversationView := {}
  /-- What the messages received on this link amount to. -/
  known : Key → Option Conversation := fun _ => none

namespace World

variable (fits : Msg → Bool) (lib : Library) (w : World)

/-- What the client does, with the commands that come of it. -/
def act (effect : ConversationView × List Command) : World :=
  { w with view := effect.1, commands := w.commands ++ effect.2 }

/-- The client takes a message. -/
def receive (m : Msg) (rest : List Msg) : World :=
  { w with link := { w.link with out := rest }, known := Link.receive w.known m }.act
    (w.view.receive m)

/-- A link without anything on its way. -/
def renewed : World := { link := w.link.renewed, view := w.view }

/-- One thing that happens, in any order. -/
inductive Step : World → World → Prop
  | daemon {w : World} {link : Link} (h : Link.Happens fits lib w.link link) :
    Step w { w with link }
  | answer {w : World} {c : Command} {rest : List Command} (hcommands : w.commands = c :: rest) :
    Step w { w with link := w.link.answer fits c, commands := rest }
  | receive {w : World} {m : Msg} {rest : List Msg} (hout : w.link.out = m :: rest) :
    Step w (w.receive m rest)
  | «open» {w : World} (id : ℕ) : Step w (w.act (w.view.open id))
  | close {w : World} : Step w (w.act w.view.close)
  | descend {w : World} (turnId block : ℕ) : Step w (w.act (w.view.descend turnId block))
  | back {w : World} : Step w (w.act w.view.back)
  | linkLost {w : World} : Step w { w.renewed with view := w.view.linkLost }
  | relink {w : World} (hdown : w.view.unlinked = true) : Step w (w.renewed.act w.view.relink)
  | restart {w : World} (hdown : w.view.unlinked = true) {windows : SortedMap ℕ WindowEntry}
      (hfresh : Link.Fresh windows) : Step w { link := { windows }, view := w.view }

/-- Whatever happens, from the daemon's and the client's start on. -/
def Reached (w : World) : Prop := ReflTransGen (Step fits lib) {} w

end World

/-! ## What was last asked for -/

def Command.key : Command → Key
  | .subscribe windowId agentId _ | .unsubscribe windowId agentId => (windowId, agentId)

/-- The last command on its way for a key. -/
def pending (commands : List Command) (key : Key) : Option Command :=
  (commands.filter (·.key = key)).getLast?

section Pending

variable {commands more rest : List Command} {key : Key} {c : Command}

theorem pending_append_of_ne (h : ∀ c ∈ more, c.key ≠ key) :
    pending (commands ++ more) key = pending commands key := by
  have hnil : more.filter (·.key = key) = [] :=
    List.filter_eq_nil_iff.2 fun c hc => by simpa using h c hc
  rw [pending, List.filter_append, hnil, List.append_nil, pending]

theorem pending_append (hmem : c ∈ more) (hkey : c.key = key)
    (hall : ∀ c' ∈ more, c'.key = key → c' = c) : pending (commands ++ more) key = some c := by
  have hne : more.filter (·.key = key) ≠ [] :=
    List.ne_nil_of_mem (List.mem_filter.2 ⟨hmem, decide_eq_true hkey⟩)
  rw [pending, List.filter_append, List.getLast?_append_of_ne_nil _ hne,
    List.getLast?_eq_some_getLast hne]
  have hlast := List.mem_filter.1 (List.getLast_mem hne)
  rw [hall _ hlast.1 (of_decide_eq_true hlast.2)]

theorem pending_cons_of_ne (h : c.key ≠ key) : pending (c :: rest) key = pending rest key := by
  rw [pending, List.filter_cons_of_neg (by simpa using h), pending]

theorem pending_cons_of_some {c' : Command} (h : pending rest key = some c') :
    pending (c :: rest) key = some c' := by
  by_cases hkey : c.key = key
  · rw [pending] at h
    rw [pending, List.filter_cons_of_pos (by simpa using hkey), List.getLast?_cons, h]
    rfl
  · rwa [pending_cons_of_ne hkey]

theorem pending_cons_of_none (h : pending rest key = none) (hkey : c.key = key) :
    pending (c :: rest) key = some c := by
  rw [pending, List.getLast?_eq_none_iff] at h
  rw [pending, List.filter_cons_of_pos (by simpa using hkey), h]
  rfl

end Pending

/-! ## Levels -/

/-- A level shows what is known of its conversation, unless it awaits it, and it is asked for or
    served. -/
def Follows (link : Link) (known : Key → Option Conversation) (commands : List Command)
    (windowId : ℕ) (level : Level) : Prop :=
  (level.awaitingSnapshot = false →
    ∃ c, known (windowId, level.agentId) = some c ∧ level.conversation = some c) ∧
  (pending commands (windowId, level.agentId) = some (.subscribe windowId level.agentId none) ∨
    (pending commands (windowId, level.agentId) = none ∧
      link.Served (windowId, level.agentId) level.awaitingSnapshot))

section Levels

variable {link link' : Link} {known : Key → Option Conversation} {commands more : List Command}
  {windowId : ℕ} {level : Level}

theorem Follows.quiet (h : Follows link known commands windowId level)
    (hmore : ∀ c ∈ more, c.key ≠ (windowId, level.agentId)) :
    Follows link known (commands ++ more) windowId level := by
  rw [Follows, pending_append_of_ne hmore]
  exact h

theorem Follows.asked (hawaits : level.awaitingSnapshot = true)
    (hmem : .subscribe windowId level.agentId none ∈ more)
    (hall : ∀ c ∈ more, c.key = (windowId, level.agentId) →
      c = .subscribe windowId level.agentId none) :
    Follows link known (commands ++ more) windowId level :=
  ⟨fun hnot => by simp [hawaits] at hnot, .inl (pending_append hmem rfl hall)⟩

theorem Follows.sends (h : Follows link known commands windowId level)
    (hsends : Link.Sends link link') : Follows link' known commands windowId level :=
  ⟨h.1, h.2.imp_right fun hserved => ⟨hserved.1, hsends.served _ _ hserved.2⟩⟩

end Levels

/-! ## The invariant -/

namespace World

variable {fits : Msg → Bool} {lib : Library} {w w' : World}

structure Sound (w : World) : Prop where
  inv : w.link.Inv
  stream : Link.Stream w.known w.link
  whole : ∀ c ∈ w.commands, ∀ id agentId fromRev, c = .subscribe id agentId fromRev → fromRev = none
  opened : w.view.levels ≠ [] → w.view.isOpen = true
  nodup : (w.view.levels.map Level.agentId).Nodup
  follows : w.view.unlinked = false → ∀ level ∈ w.view.levels,
    Follows w.link w.known w.commands w.view.windowId level

/-- A command that ends a subscription of a view. -/
def IsUnsubscribe (windowId : ℕ) (c : Command) : Prop :=
  ∃ agentId, c = .unsubscribe windowId agentId

theorem whole_of_isUnsubscribe {windowId : ℕ} {c : Command} (h : IsUnsubscribe windowId c)
    {id : ℕ} {agentId : Option String} {fromRev : Option ℕ}
    (heq : c = .subscribe id agentId fromRev) : fromRev = none := by
  obtain ⟨_, rfl⟩ := h
  cases heq

theorem mem_unsubscribe {v : ConversationView} {levels : List Level} {c : Command}
    (h : c ∈ levels.flatMap fun level => v.unsubscribe level.agentId) :
    ∃ level ∈ levels, c = .unsubscribe v.windowId level.agentId := by
  obtain ⟨level, hlevel, hc⟩ := List.mem_flatMap.1 h
  rw [ConversationView.unsubscribe] at hc
  split_ifs at hc
  · simp at hc
  · exact ⟨level, hlevel, List.mem_singleton.1 hc⟩

theorem mem_subscribe {v : ConversationView} {agentId : Option String} {c : Command}
    (h : c ∈ (v.subscribe agentId).map Subscribe.toCommand) :
    c = .subscribe v.windowId agentId none := by
  rw [ConversationView.subscribe] at h
  split_ifs at h
  · simp at h
  · simpa [Subscribe.toCommand] using h

theorem subscribe_mem {v : ConversationView} {agentId : Option String} (h : v.unlinked = false) :
    .subscribe v.windowId agentId none ∈ (v.subscribe agentId).map Subscribe.toCommand := by
  simp [ConversationView.subscribe, h, Subscribe.toCommand]

theorem close_effects {v : ConversationView} : ∀ c ∈ v.close.2, IsUnsubscribe v.windowId c := by
  intro c hc
  rw [ConversationView.close] at hc
  split_ifs at hc
  · obtain ⟨level, -, rfl⟩ := mem_unsubscribe hc
    exact ⟨_, rfl⟩
  · simp at hc

theorem close_unlinked {v : ConversationView} : v.close.1.unlinked = v.unlinked := by
  rw [ConversationView.close]
  split_ifs <;> rfl

/-- What the client does, step by step: the levels that stay follow what they did, and those that
    are new ask for it. -/
theorem Sound.act (h : w.Sound) {effect : ConversationView × List Command}
    (hwhole : ∀ c ∈ effect.2, ∀ id agentId fromRev, c = .subscribe id agentId fromRev →
      fromRev = none)
    (hopened : effect.1.levels ≠ [] → effect.1.isOpen = true)
    (hnodup : (effect.1.levels.map Level.agentId).Nodup)
    (hfollows : effect.1.unlinked = false → ∀ level ∈ effect.1.levels,
      Follows w.link w.known (w.commands ++ effect.2) effect.1.windowId level) :
    (w.act effect).Sound where
  inv := h.inv
  stream := h.stream
  whole c hc := (List.mem_append.1 hc).elim (h.whole c) (hwhole c)
  opened := hopened
  nodup := hnodup
  follows := hfollows

theorem Sound.close (h : w.Sound) : (w.act w.view.close).Sound := by
  refine h.act (fun c hc id agentId fromRev => whole_of_isUnsubscribe (close_effects c hc)) ?_ ?_ ?_
  · rw [ConversationView.close]
    split_ifs
    · exact fun hne => absurd rfl hne
    · exact h.opened
  · rw [ConversationView.close]
    split_ifs
    · exact List.nodup_nil
    · exact h.nodup
  · rw [ConversationView.close]
    split_ifs
    · exact fun _ level hlevel => absurd hlevel List.not_mem_nil
    · exact fun hlinked level hlevel => (h.follows hlinked level hlevel).quiet (by simp)

theorem Sound.open (h : w.Sound) (id : ℕ) : (w.act (w.view.open id)).Sound := by
  refine h.act (fun c hc id' agentId fromRev heq => ?_) (fun _ => rfl)
    (by simp [ConversationView.open]) fun hlinked level hlevel => ?_
  · obtain hclose | hopen := List.mem_append.1 hc
    · exact whole_of_isUnsubscribe (close_effects c hclose) heq
    · rw [mem_subscribe hopen] at heq
      cases heq
      rfl
  · obtain rfl := List.mem_singleton.1 hlevel
    replace hlinked : w.view.close.1.unlinked = false := hlinked
    show Follows w.link w.known (w.commands ++ (w.view.close.2 ++ _)) id _
    rw [← List.append_assoc]
    exact .asked rfl (subscribe_mem hlinked) fun c hc _ => mem_subscribe hc

theorem Sound.descend (h : w.Sound) (turnId block : ℕ) :
    (w.act (w.view.descend turnId block)).Sound := by
  have hsame : (w.act (w.view, [])).Sound :=
    h.act (by simp) h.opened h.nodup fun hlinked level hlevel =>
      (h.follows hlinked level hlevel).quiet (by simp)
  rw [ConversationView.descend]
  cases hspawn : w.view.spawnAt turnId block with
  | none => exact hsame
  | some agentId =>
    dsimp only
    split_ifs with hany
    · exact hsame
    · have hfresh : ∀ level ∈ w.view.levels, level.agentId ≠ some agentId := by
        intro level hlevel heq
        exact hany (List.any_eq_true.2 ⟨level, hlevel, decide_eq_true heq⟩)
      refine h.act (fun c hc id' agentId' fromRev heq => ?_) (fun _ => h.opened fun hnil => ?_) ?_
        fun hlinked level hlevel => ?_
      · rw [mem_subscribe hc] at heq
        cases heq
        rfl
      · simp [ConversationView.spawnAt, hnil] at hspawn
      · rw [List.map_append]
        refine List.nodup_append.2 ⟨h.nodup, by simp, ?_⟩
        intro a ha b hb hab
        obtain ⟨level, hlevel, rfl⟩ := List.mem_map.1 ha
        rw [List.map_singleton, List.mem_singleton] at hb
        exact hfresh level hlevel (hab.trans hb)
      · obtain hlevel | hlevel := List.mem_append.1 hlevel
        · refine (h.follows hlinked level hlevel).quiet fun c hc hkey => ?_
          rw [mem_subscribe hc] at hkey
          exact hfresh level hlevel (congrArg Prod.snd hkey).symm
        · obtain rfl := List.mem_singleton.1 hlevel
          exact .asked rfl (subscribe_mem hlinked) fun c hc _ => mem_subscribe hc

/-- The levels that stay, when those below them end their subscriptions. -/
theorem Sound.keep (h : w.Sound) (kept gone : List Level) {effects : List Command}
    (hlevels : (kept ++ gone).Sublist w.view.levels)
    (heffects : ∀ c ∈ effects, ∃ level ∈ gone, c = .unsubscribe w.view.windowId level.agentId) :
    (w.act ({ w.view with levels := kept }, effects)).Sound := by
  have hkept : kept.Sublist w.view.levels := (List.sublist_append_left _ _).trans hlevels
  refine h.act (fun c hc id agentId fromRev heq => ?_)
    (fun hne => h.opened fun hnil => hne (List.sublist_nil.1 (hnil ▸ hkept)))
    (h.nodup.sublist (hkept.map _)) fun hlinked level hlevel => ?_
  · obtain ⟨level, -, rfl⟩ := heffects c hc
    cases heq
  · refine (h.follows hlinked level (hkept.subset hlevel)).quiet fun c hc hkey => ?_
    obtain ⟨level', hlevel', rfl⟩ := heffects c hc
    have hnodup := h.nodup.sublist (hlevels.map Level.agentId)
    rw [List.map_append] at hnodup
    exact (List.nodup_append.1 hnodup).2.2 _ (List.mem_map_of_mem hlevel) _
      (List.mem_map_of_mem hlevel') (congrArg Prod.snd hkey).symm

theorem Sound.back (h : w.Sound) : (w.act w.view.back).Sound := by
  rw [ConversationView.back]
  split_ifs with hlength
  · exact h.close
  · cases hlast : w.view.levels.getLast? with
    | none =>
      rw [List.getLast?_eq_none_iff] at hlast
      simp [hlast] at hlength
    | some last =>
      have hsplit := List.dropLast_append_getLast? last hlast
      refine h.keep _ [last] (by rw [hsplit]) fun c hc => ⟨last, List.mem_singleton_self _, ?_⟩
      have hc' : c ∈ [last].flatMap fun level => w.view.unsubscribe level.agentId := by
        simpa using hc
      obtain ⟨level, hlevel, rfl⟩ := mem_unsubscribe hc'
      rw [List.mem_singleton.1 hlevel]

/-! ## A message -/

section Receive

variable {v : ConversationView} {windowId i : ℕ} {agentId : Option String} {level level' : Level}
  {m : Msg} {rest : List Msg}

theorem levelIndex_eq_some (h : v.levelIndex windowId agentId = some i) :
    windowId = v.windowId ∧ ∃ level, v.levels[i]? = some level ∧ level.agentId = agentId := by
  rw [ConversationView.levelIndex] at h
  split_ifs at h with hnot
  simp only [Bool.or_eq_true, not_or, Bool.not_eq_true', decide_eq_true_eq, not_not] at hnot
  obtain ⟨hlt, hagent, -⟩ := List.findIdx?_eq_some_iff_getElem.1 h
  exact ⟨hnot.2, _, List.getElem?_eq_getElem hlt, of_decide_eq_true hagent⟩

theorem not_mem_of_levelIndex (hopen : v.levels ≠ [] → v.isOpen = true)
    (h : v.levelIndex windowId agentId = none) (hlevel : level ∈ v.levels) :
    (v.windowId, level.agentId) ≠ (windowId, agentId) := by
  rintro heq
  obtain ⟨rfl, rfl⟩ := Prod.mk.inj heq
  rw [ConversationView.levelIndex, if_neg (by simp [hopen (List.ne_nil_of_mem hlevel)]),
    List.findIdx?_eq_none_iff] at h
  simpa using h level hlevel

/-- A change of one level leaves the others, which have other keys. -/
theorem mem_setLevel {f : Level → Level} (hnodup : (v.levels.map Level.agentId).Nodup)
    (hi : v.levels[i]? = some level) (h : level' ∈ (v.setLevel i f).levels) :
    level' = f level ∨ (level' ∈ v.levels ∧ level'.agentId ≠ level.agentId) := by
  obtain ⟨j, hj⟩ := List.mem_iff_getElem?.1 h
  replace hj : (v.levels.modify i f)[j]? = some level' := hj
  rw [List.getElem?_modify] at hj
  obtain ⟨old, hold, hnew⟩ := Option.map_eq_some_iff.1 hj
  by_cases hij : i = j
  · subst hij
    obtain rfl := Option.some.inj (hi.symm.trans hold)
    rw [if_pos rfl] at hnew
    exact .inl hnew.symm
  · rw [if_neg hij] at hnew
    obtain rfl : old = level' := hnew
    refine .inr ⟨List.mem_of_getElem? hold, fun heq => hij ?_⟩
    have hlt : i < (v.levels.map Level.agentId).length := by
      rw [List.length_map]
      exact (List.getElem?_eq_some_iff.1 hi).1
    refine (List.getElem?_inj hlt hnodup).1 ?_
    rw [List.getElem?_map, List.getElem?_map, hi, hold, Option.map_some, Option.map_some, heq]

theorem map_agentId_setLevel {f : Level → Level} (hf : ∀ level, (f level).agentId = level.agentId) :
    (v.setLevel i f).levels.map Level.agentId = v.levels.map Level.agentId := by
  refine List.ext_getElem? fun j => ?_
  show ((v.levels.modify i f).map _)[j]? = _
  rw [List.getElem?_map, List.getElem?_map, List.getElem?_modify]
  cases v.levels[j]? with
  | none => rfl
  | some level =>
    by_cases hij : i = j
    · simp [hij, hf]
    · simp [hij]

theorem levels_setLevel_ne_nil {f : Level → Level} (h : (v.setLevel i f).levels ≠ []) :
    v.levels ≠ [] := by
  rintro hnil
  refine h ?_
  show v.levels.modify i f = []
  rw [hnil]
  cases i <;> rfl

/-- A message that is received serves no other key. -/
theorem served_tail {link : Link} {key : Key} {awaiting awaiting' : Bool}
    (hout : link.out = m :: rest) (h : link.Served key awaiting)
    (hgone : ∀ reason, m ≠ .gone key.1 key.2 reason)
    (hsnapshot : awaiting' → awaiting ∧ ∀ c, m ≠ .snapshot key.1 key.2 c) :
    ({ link with out := rest } : Link).Served key awaiting' := by
  rw [Link.Served, hout] at h
  obtain ⟨reason, hmem⟩ | ⟨hsome, hserved⟩ := h
  · exact .inl ⟨reason, (List.mem_cons.1 hmem).resolve_left fun heq => hgone reason heq.symm⟩
  · refine .inr ⟨hsome, fun hawaits => ?_⟩
    obtain ⟨hawaits, hnot⟩ := hsnapshot hawaits
    exact (hserved hawaits).imp fun c hmem =>
      (List.mem_cons.1 hmem).resolve_left fun heq => hnot c heq.symm

theorem follows_other {link : Link} {known : Key → Option Conversation} {commands : List Command}
    (h : Follows link known commands windowId level) (hout : link.out = m :: rest)
    (hkey : (windowId, level.agentId) ≠ m.key) :
    Follows { link with out := rest } (Link.receive known m) commands windowId level := by
  refine ⟨fun hnot => ?_, h.2.imp_right fun hserved => ⟨hserved.1, ?_⟩⟩
  · rw [Link.receive, Link.follow_of_ne hkey]
    exact h.1 hnot
  · refine served_tail hout hserved.2 (fun reason heq => hkey ?_) fun hawaits =>
      ⟨hawaits, fun c heq => hkey ?_⟩
    · rw [heq]
      rfl
    · rw [heq]
      rfl

theorem onDelta_eq (hindex : v.levelIndex windowId agentId = some i)
    (hi : v.levels[i]? = some level) (fromRev toRev : ℕ) (turns : List TurnPatch)
    (visible : Visible) : v.onDelta windowId agentId fromRev toRev turns visible =
      if level.awaitingSnapshot then (v, [])
      else match level.conversation.filter (·.rev = fromRev) with
        | none => (v.setLevel i fun l => { l with awaitingSnapshot := true }, v.subscribe agentId)
        | some conversation =>
          (v.setLevel i (ConversationView.patched conversation toRev turns visible), []) := by
  split_ifs with hawaits
  · simp [ConversationView.onDelta, hindex, hi, hawaits]
  · cases hfilter : level.conversation.filter (·.rev = fromRev) with
    | none => simp [ConversationView.onDelta, hindex, hi, hawaits, hfilter]
    | some conversation => simp [ConversationView.onDelta, hindex, hi, hawaits, hfilter]

theorem act_nil (v : ConversationView) : w.act (v, []) = { w with view := v } := by
  rw [World.act, List.append_nil]

/-- The client takes a message and answers nothing. -/
theorem Sound.received (h : w.Sound) (hout : w.link.out = m :: rest) (view : ConversationView)
    (hopened : view.levels ≠ [] → view.isOpen = true)
    (hnodup : (view.levels.map Level.agentId).Nodup)
    (hfollows : view.unlinked = false → ∀ level ∈ view.levels,
      Follows { w.link with out := rest } (Link.receive w.known m) w.commands view.windowId level) :
    Sound { w with
      link := { w.link with out := rest }, known := Link.receive w.known m, view } where
  inv := h.inv.received rest
  stream := by
    have hfits := h.stream.fits
    have htold := h.stream.told
    rw [hout] at hfits htold
    exact ⟨hfits.tail, htold⟩
  whole := h.whole
  opened := hopened
  nodup := hnodup
  follows := hfollows

/-- A message of a key that the trail does not have. -/
theorem Sound.ignored (h : w.Sound) (hout : w.link.out = m :: rest)
    (hindex : w.view.levelIndex m.key.1 m.key.2 = none) :
    Sound { w with
      link := { w.link with out := rest }, known := Link.receive w.known m, view := w.view } :=
  h.received hout _ h.opened h.nodup fun hlinked level hlevel =>
    follows_other (h.follows hlinked level hlevel) hout
      (not_mem_of_levelIndex h.opened hindex hlevel)

/-- A message of a key on the trail changes its level. -/
theorem Sound.taken (h : w.Sound) (hout : w.link.out = m :: rest)
    (hi : w.view.levels[i]? = some level) (hkey : (w.view.windowId, level.agentId) = m.key)
    {f : Level → Level} (hf : ∀ level, (f level).agentId = level.agentId)
    (hlevel : w.view.unlinked = false → Follows w.link w.known w.commands w.view.windowId level →
      Follows { w.link with out := rest } (Link.receive w.known m) w.commands w.view.windowId
        (f level)) :
    Sound { w with
      link := { w.link with out := rest }, known := Link.receive w.known m
      view := w.view.setLevel i f } := by
  refine h.received hout _ (fun hne => h.opened (levels_setLevel_ne_nil hne)) ?_
    fun hlinked level' hlevel' => ?_
  · rw [map_agentId_setLevel hf]
    exact h.nodup
  · obtain rfl | ⟨hmem, hne⟩ := mem_setLevel h.nodup hi hlevel'
    · exact hlevel hlinked (h.follows hlinked level (List.mem_of_getElem? hi))
    · refine follows_other (h.follows hlinked level' hmem) hout fun heq => hne ?_
      exact congrArg Prod.snd (heq.trans hkey.symm)

theorem Sound.receive_snapshot (h : w.Sound) {c : Conversation}
    (hout : w.link.out = .snapshot windowId agentId c :: rest) :
    (w.receive (.snapshot windowId agentId c) rest).Sound := by
  have hsorted : (c.turns.map Turn.id).Pairwise (· < ·) := by
    have hfits := h.stream.fits
    rw [hout] at hfits
    exact hfits.head
  have hsort : c.turns.mergeSort (fun t u => t.id ≤ u.id) = c.turns := by
    refine List.mergeSort_of_pairwise ((List.pairwise_map.1 hsorted).imp fun hlt => ?_)
    simpa using hlt.le
  show Sound (World.act _ (w.view.onSnapshot windowId agentId c, []))
  rw [act_nil]
  cases hindex : w.view.levelIndex windowId agentId with
  | none =>
    rw [ConversationView.onSnapshot, hindex]
    exact h.ignored hout hindex
  | some i =>
    obtain ⟨rfl, level, hi, rfl⟩ := levelIndex_eq_some hindex
    rw [ConversationView.onSnapshot, hindex]
    refine h.taken hout hi rfl (fun _ => rfl) fun _ hfollows => ⟨fun _ => ⟨c, if_pos rfl, ?_⟩, ?_⟩
    · rw [hsort]
    · refine hfollows.2.imp_right fun hserved => ⟨hserved.1, ?_⟩
      exact served_tail hout hserved.2 (by simp) fun hawaits => absurd hawaits Bool.false_ne_true

/-- No delta is refused. -/
theorem Sound.receive_delta (h : w.Sound) {fromRev toRev : ℕ} {turns : List TurnPatch}
    {visible : Visible}
    (hout : w.link.out = .delta windowId agentId fromRev toRev turns visible :: rest) :
    (w.receive (.delta windowId agentId fromRev toRev turns visible) rest).Sound ∧
      (w.view.receive (.delta windowId agentId fromRev toRev turns visible)).2 = [] := by
  obtain ⟨c, hc, rfl⟩ : ∃ c, w.known (windowId, agentId) = some c ∧ c.rev = fromRev := by
    have hfits := h.stream.fits
    rw [hout] at hfits
    exact hfits.head
  have hdone : ∀ {view}, w.view.onDelta windowId agentId c.rev toRev turns visible = (view, []) →
      Sound { w with
        link := { w.link with out := rest }
        known := Link.receive w.known (.delta windowId agentId c.rev toRev turns visible), view } →
      (w.receive (.delta windowId agentId c.rev toRev turns visible) rest).Sound ∧
        (w.view.receive (.delta windowId agentId c.rev toRev turns visible)).2 = [] := by
    intro view heq hsound
    simp only [World.receive, ConversationView.receive, heq, List.map_nil, act_nil, and_true]
    exact hsound
  cases hindex : w.view.levelIndex windowId agentId with
  | none =>
    refine hdone ?_ (h.ignored hout hindex)
    rw [ConversationView.onDelta, hindex]
  | some i =>
    obtain ⟨rfl, level, hi, rfl⟩ := levelIndex_eq_some hindex
    have heq := onDelta_eq hindex hi c.rev toRev turns visible
    -- whatever the level awaits, it is served by what comes after the delta
    have hserved : ∀ {awaiting awaiting' : Bool}, (awaiting' → awaiting) →
        w.link.Served (w.view.windowId, level.agentId) awaiting →
        ({ w.link with out := rest } : Link).Served (w.view.windowId, level.agentId) awaiting' :=
      fun hawaits hserved => served_tail hout hserved (by simp)
        fun hawaits' => ⟨hawaits hawaits', by simp⟩
    cases hawaits : level.awaitingSnapshot with
    | true =>
      rw [hawaits, if_pos rfl] at heq
      have hself : w.view.setLevel i (fun level => level) = w.view := by
        rw [ConversationView.setLevel, show (fun level : Level => level) = id from rfl,
          List.modify_id]
      refine hdone heq ?_
      have htaken := h.taken hout hi rfl (f := fun level => level) (fun _ => rfl)
        fun _ hfollows => ⟨fun hnot => by simp [hawaits] at hnot,
          hfollows.2.imp_right fun hserved' => ⟨hserved'.1, hserved (fun h => h) hserved'.2⟩⟩
      rwa [hself] at htaken
    | false =>
      rw [hawaits, if_neg Bool.false_ne_true] at heq
      cases hfilter : level.conversation.filter (·.rev = c.rev) with
      | none =>
        rw [hfilter] at heq
        -- a level that is linked holds what is known
        have hdown : w.view.unlinked = true := by
          cases hlinked : w.view.unlinked with
          | true => rfl
          | false =>
            have hfollows := h.follows hlinked level (List.mem_of_getElem? hi)
            obtain ⟨c', hc', hconversation⟩ := hfollows.1 hawaits
            obtain rfl := Option.some.inj (hc.symm.trans hc')
            simp [hconversation] at hfilter
        have hnone : w.view.subscribe level.agentId = [] := by
          rw [ConversationView.subscribe, if_pos hdown]
        rw [hnone] at heq
        refine hdone heq (h.taken hout hi rfl (fun _ => rfl) fun hlinked => ?_)
        simp [hdown] at hlinked
      | some conversation =>
        rw [hfilter] at heq
        refine hdone heq (h.taken hout hi rfl (fun _ => rfl) fun _ hfollows => ?_)
        obtain ⟨c', hc', hconversation⟩ := hfollows.1 hawaits
        obtain rfl := Option.some.inj (hc.symm.trans hc')
        obtain rfl : c = conversation :=
          Option.some.inj (hconversation.symm.trans (Option.filter_eq_some_iff.1 hfilter).1)
        refine ⟨fun _ => ⟨afterDelta c toRev turns visible, ?_, rfl⟩,
          hfollows.2.imp_right fun hserved' => ⟨hserved'.1, ?_⟩⟩
        · simp [Link.receive, Msg.follow, Msg.key, ConversationView.patched, hc]
        · refine hserved (fun hnot => ?_) hserved'.2
          rw [show (ConversationView.patched c toRev turns visible level).awaitingSnapshot = false
            from hawaits] at hnot
          simp at hnot

theorem Sound.receive_gone (h : w.Sound) {reason : String}
    (hout : w.link.out = .gone windowId agentId reason :: rest) :
    (w.receive (.gone windowId agentId reason) rest).Sound ∧
      ∀ c ∈ (w.view.receive (.gone windowId agentId reason)).2,
        IsUnsubscribe w.view.windowId c := by
  show Sound (World.act _ (w.view.onGone windowId agentId)) ∧
    ∀ c ∈ (w.view.onGone windowId agentId).2, _
  rw [ConversationView.onGone]
  cases hindex : w.view.levelIndex windowId agentId with
  | none =>
    refine ⟨?_, fun c hc => absurd hc List.not_mem_nil⟩
    rw [act_nil]
    exact h.ignored hout hindex
  | some i =>
    obtain ⟨rfl, level, hi, rfl⟩ := levelIndex_eq_some hindex
    have heffects : ∀ c ∈ (w.view.levels.drop (i + 1)).reverse.flatMap fun level =>
        w.view.unsubscribe level.agentId,
        ∃ level ∈ w.view.levels.drop (i + 1), c = .unsubscribe w.view.windowId level.agentId := by
      intro c hc
      obtain ⟨level, hlevel, rfl⟩ := mem_unsubscribe hc
      exact ⟨level, List.mem_reverse.1 hlevel, rfl⟩
    refine ⟨?_, fun c hc => ?_⟩
    · -- first the level goes, then those below it
      have hsub : (w.view.levels.eraseIdx i).Sublist w.view.levels := List.eraseIdx_sublist ..
      have herased := h.received hout { w.view with levels := w.view.levels.eraseIdx i }
        (fun hne => h.opened fun hnil => hne (List.sublist_nil.1 (hnil ▸ hsub)))
        (h.nodup.sublist (hsub.map _)) fun hlinked level' hlevel' => by
          refine follows_other (h.follows hlinked level' (hsub.subset hlevel')) hout fun heq => ?_
          obtain ⟨j, hji, hj⟩ := List.mem_eraseIdx_iff_getElem?.1 hlevel'
          have hlt : i < (w.view.levels.map Level.agentId).length := by
            rw [List.length_map]
            exact (List.getElem?_eq_some_iff.1 hi).1
          refine hji ((List.getElem?_inj hlt h.nodup).1 ?_).symm
          rw [List.getElem?_map, List.getElem?_map, hi, hj, Option.map_some, Option.map_some]
          exact congrArg some (congrArg Prod.snd heq).symm
      have hkept := herased.keep (w.view.levels.take i) (w.view.levels.drop (i + 1))
        (by rw [← List.eraseIdx_eq_take_drop_succ]) heffects
      dsimp only
      split_ifs
      · exact ⟨hkept.inv, hkept.stream, hkept.whole, fun hne => absurd rfl hne, List.nodup_nil,
          fun _ level hlevel => absurd hlevel List.not_mem_nil⟩
      · exact hkept
    · obtain ⟨level, -, rfl⟩ := heffects c hc
      exact ⟨_, rfl⟩

theorem Sound.receive (h : w.Sound) (hout : w.link.out = m :: rest) :
    (w.receive m rest).Sound ∧ ∀ c ∈ (w.view.receive m).2, IsUnsubscribe w.view.windowId c := by
  cases m with
  | snapshot => exact ⟨h.receive_snapshot hout, fun c hc => absurd hc List.not_mem_nil⟩
  | delta =>
    obtain ⟨hsound, hnone⟩ := h.receive_delta hout
    exact ⟨hsound, fun c hc => absurd (hnone ▸ hc) List.not_mem_nil⟩
  | gone => exact h.receive_gone hout

end Receive

/-! ## Runs -/

theorem Sound.answer (h : w.Sound) {c : Command} {rest : List Command}
    (hcommands : w.commands = c :: rest) :
    Sound { w with link := w.link.answer fits c, commands := rest } := by
  have hmem : ∀ {c'}, c' ∈ rest → c' ∈ w.commands := fun hc =>
    hcommands ▸ List.mem_cons_of_mem _ hc
  -- what one command does to a level, whether it is of its key or not
  have hlevels : ∀ {link : Link},
      (∀ key awaiting, c.key ≠ key → w.link.Served key awaiting → link.Served key awaiting) →
      (∀ agentId awaiting, c = .subscribe w.view.windowId agentId none →
        link.Served (w.view.windowId, agentId) awaiting) →
      w.view.unlinked = false → ∀ level ∈ w.view.levels,
        Follows link w.known rest w.view.windowId level := by
    intro link hothers hserved hlinked level hlevel
    obtain ⟨hshows, hasked⟩ := h.follows hlinked level hlevel
    refine ⟨hshows, ?_⟩
    rw [hcommands] at hasked
    cases hrest : pending rest (w.view.windowId, level.agentId) with
    | some c' =>
      rw [pending_cons_of_some hrest] at hasked
      exact .inl (hasked.resolve_right fun hnone => by simp at hnone)
    | none =>
      by_cases hkey : c.key = (w.view.windowId, level.agentId)
      · rw [pending_cons_of_none hrest hkey] at hasked
        obtain hsubscribe | ⟨hnone, -⟩ := hasked
        · exact .inr ⟨rfl, hserved _ _ (Option.some.inj hsubscribe)⟩
        · simp at hnone
      · rw [pending_cons_of_ne hkey, hrest] at hasked
        exact hasked.imp_right fun hold => ⟨rfl, hothers _ _ hkey hold.2⟩
  cases c with
  | subscribe id agentId fromRev =>
    obtain rfl : fromRev = none :=
      h.whole _ (hcommands ▸ List.mem_cons_self) id agentId fromRev rfl
    obtain ⟨hsends, hserved⟩ := Link.subscribe_sends fits h.inv id agentId
    have hinv : (w.link.answer fits (.subscribe id agentId none)).Inv :=
      h.inv.subscribe (by simp)
    refine ⟨hinv, hsends.stream _ h.stream,
      fun c hc => h.whole c (hmem hc), h.opened, h.nodup,
      hlevels (fun key awaiting _ => hsends.served key awaiting) fun agentId awaiting heq => ?_⟩
    cases heq
    exact hserved awaiting
  | unsubscribe id agentId =>
    have hinv : (w.link.answer fits (.unsubscribe id agentId)).Inv := h.inv.unsubscribe
    refine ⟨hinv, ⟨h.stream.fits, fun key c htold => h.stream.told key c ?_⟩,
      fun c hc => h.whole c (hmem hc), h.opened, h.nodup,
      hlevels (fun key awaiting hkey hserved => ?_) (by simp)⟩
    · replace htold : (if key = (id, agentId) then none else w.link.told key) = some c := htold
      split_ifs at htold
      exact htold
    · refine hserved.imp_right fun hsome => ⟨?_, hsome.2⟩
      show (if key = (id, agentId) then none else w.link.told key).isSome
      rw [if_neg fun heq => hkey heq.symm]
      exact hsome.1

/-- While the link is down nothing is on its way. -/
theorem Sound.down (h : w.Sound) {link : Link} {view : ConversationView} (hinv : link.Inv)
    (hout : link.out = []) (htold : link.told = fun _ => none)
    (hlevels : view.levels = w.view.levels) (hopen : view.isOpen = w.view.isOpen)
    (hdown : view.unlinked = true) : Sound { link, view } where
  inv := hinv
  stream := by
    refine ⟨?_, fun _ _ hc => ?_⟩
    · show Channels.Fits _ _ _ link.out
      rw [hout]
      trivial
    · replace hc : link.told _ = some _ := hc
      simp [htold] at hc
  whole _ hc := absurd hc List.not_mem_nil
  opened := by
    rw [hlevels, hopen]
    exact h.opened
  nodup := by
    rw [hlevels]
    exact h.nodup
  follows hlinked := by
    replace hlinked : view.unlinked = false := hlinked
    simp [hdown] at hlinked

theorem Sound.relink (h : w.Sound) (hdown : w.view.unlinked = true) :
    (w.renewed.act w.view.relink).Sound := by
  have hrenewed : w.renewed.Sound := h.down h.inv.renewed rfl rfl rfl rfl hdown
  rw [ConversationView.relink]
  dsimp only
  split_ifs with hopen
  · refine hrenewed.act (fun c hc id agentId fromRev heq => ?_) (fun _ => hopen) ?_
      fun _ level hlevel => ?_
    · obtain ⟨level, -, hc⟩ := List.mem_flatMap.1 hc
      rw [mem_subscribe hc] at heq
      cases heq
      rfl
    · show ((w.view.levels.map _).map Level.agentId).Nodup
      rw [List.map_map]
      exact h.nodup
    · obtain ⟨old, hold, rfl⟩ := List.mem_map.1 hlevel
      refine .asked rfl (List.mem_flatMap.2 ⟨_, hlevel, subscribe_mem rfl⟩) fun c hc hkey => ?_
      obtain ⟨level, -, hc⟩ := List.mem_flatMap.1 hc
      rw [mem_subscribe hc] at hkey ⊢
      exact congrArg (Command.subscribe w.view.windowId · none) (congrArg Prod.snd hkey)
  · refine hrenewed.act (fun c hc => absurd hc List.not_mem_nil) h.opened h.nodup
      fun _ level hlevel => absurd (h.opened (List.ne_nil_of_mem hlevel)) hopen

theorem Sound.step (h : w.Sound) (hstep : Step fits lib w w') : w'.Sound := by
  cases hstep with
  | daemon hlink =>
    have hsends := Link.happens_sends h.inv hlink
    exact ⟨h.inv.happens hlink, hsends.stream _ h.stream, h.whole, h.opened, h.nodup,
      fun hlinked level hlevel => (h.follows hlinked level hlevel).sends hsends⟩
  | answer hcommands => exact h.answer hcommands
  | receive hout => exact (h.receive hout).1
  | «open» id => exact h.open id
  | close => exact h.close
  | descend turnId block => exact h.descend turnId block
  | back => exact h.back
  | linkLost => exact h.down h.inv.renewed rfl rfl rfl rfl rfl
  | relink hdown => exact h.relink hdown
  | restart hdown hfresh => exact h.down hfresh.inv rfl rfl rfl rfl hdown

theorem Reached.sound (h : Reached fits lib w) : w.Sound := by
  induction h with
  | refl =>
    have hlink : Link.Reached fits lib {} := .refl
    exact ⟨hlink.inv, ⟨trivial, fun _ _ htold => by cases htold⟩,
      fun c hc => absurd hc List.not_mem_nil, fun hne => absurd rfl hne, List.nodup_nil,
      fun _ level hlevel => absurd hlevel List.not_mem_nil⟩
  | tail _ hstep ih => exact ih.step hstep

/-- No message is ever answered with a new subscription. Once nothing is on its way, and the daemon
    has told everything, every conversation on the trail of a client that is linked is shown as it
    is now. -/
theorem view_current (h : Reached fits lib w) :
    (∀ m rest, w.link.out = m :: rest →
      ∀ c ∈ (w.view.receive m).2, IsUnsubscribe w.view.windowId c) ∧
    (w.view.unlinked = false → w.commands = [] → w.link.out = [] → w.link.missed = false →
      w.link.changes = [] → ∀ level ∈ w.view.levels, level.awaitingSnapshot = false ∧
        ∃ entry c, w.link.windows.get? w.view.windowId = some entry ∧ level.conversation = some c ∧
          Shown entry.conversations level.agentId c) := by
  refine ⟨fun m rest hout => (h.sound.receive hout).2,
    fun hlinked hcommands hout hmissed hchanges level hlevel => ?_⟩
  obtain ⟨hshows, hasked⟩ := h.sound.follows hlinked level hlevel
  rw [hcommands] at hasked
  obtain ⟨-, hserved⟩ := hasked.resolve_left fun hsome => by simp [pending] at hsome
  rw [Link.Served, hout] at hserved
  obtain ⟨htold, hsnapshot⟩ := hserved.resolve_left fun hgone => by simp at hgone
  have hawaits : level.awaitingSnapshot = false := by
    cases hawaits : level.awaitingSnapshot with
    | false => rfl
    | true =>
      obtain ⟨c, hc⟩ := hsnapshot hawaits
      exact absurd hc List.not_mem_nil
  obtain ⟨c, hknown, hconversation⟩ := hshows hawaits
  obtain ⟨c', hc'⟩ := Option.isSome_iff_exists.1 htold
  have hstream := h.sound.stream.told _ c' hc'
  rw [hout] at hstream
  obtain rfl := Option.some.inj (hknown.symm.trans hstream)
  obtain ⟨entry, hentry, hshown⟩ := h.sound.inv.current hmissed hchanges hc'
  exact ⟨hawaits, entry, c, hentry, hconversation, hshown⟩

/-- The client takes the next message. -/
def next (w : World) : World :=
  match w.link.out with
  | [] => w
  | m :: rest => w.receive m rest

theorem Reached.next (h : Reached fits lib w) : Reached fits lib w.next := by
  rw [World.next]
  split
  · exact h
  · rename_i hout
    exact h.tail (.receive hout)

/-- A headless window that a client opens. -/
def opening : World :=
  ({ link := { windows := SortedMap.empty.insert 4 (.new 4 .claude true) } } : World).act
    (ConversationView.open {} 4)

def answered : World :=
  { opening with
    link := opening.link.answer (fun _ => true) (.subscribe 4 none none), commands := [] }

/-- Its first prompt, once the snapshot is received. -/
def prompting : World :=
  { answered.next with
    link := answered.next.link.change 4 (.new 4 .claude true)
      ((WindowEntry.new 4 .claude true).conversations.call ConversationSet.plain
        (.onHook { kind := .userPromptSubmit, prompt := some "go" } none 5 0 ⟨8, 100000, 4096⟩)) }

def heard : World :=
  { prompting with
    link := ({ prompting.link with changes := [] } : Link).hear (fun _ => true) (4, none) 1 }

theorem reached_heard : Reached (fun _ => true) ConversationSet.plain heard := by
  have hcreate : Step (fun _ => true) ConversationSet.plain {}
      { link := { windows := SortedMap.empty.insert 4 (.new 4 .claude true) } } :=
    .daemon (.create rfl List.not_mem_nil .claude true)
  have hopen : Step (fun _ => true) ConversationSet.plain _ opening := .open 4
  have hanswer : Step (fun _ => true) ConversationSet.plain opening answered := .answer rfl
  have hprompt : Step (fun _ => true) ConversationSet.plain answered.next prompting :=
    .daemon (.call rfl _)
  have hhear : Step (fun _ => true) ConversationSet.plain prompting heard :=
    .daemon (.hear rfl rfl)
  have hanswered : Reached (fun _ => true) ConversationSet.plain answered :=
    ((ReflTransGen.single hcreate).tail hopen).tail hanswer
  exact (hanswered.next.tail hprompt).tail hhear

/-- Before the delta is received the prompt is not shown; then it is. -/
theorem view_current_prompt :
    heard.view.levels.map (fun level => level.conversation.map (·.rev)) = [some 0] ∧
    heard.next.view.levels.map (·.conversation) = [some ConversationSet.prompted] ∧
    ∀ level ∈ heard.next.view.levels, level.awaitingSnapshot = false ∧
      ∃ entry c, heard.next.link.windows.get? heard.next.view.windowId = some entry ∧
        level.conversation = some c ∧ Shown entry.conversations level.agentId c :=
  ⟨by decide +kernel, by decide +kernel,
    (view_current reached_heard.next).2 rfl rfl rfl rfl rfl⟩

end World

end Anthrex.Conversation
