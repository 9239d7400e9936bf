import Anthrex.Manager.Restore
import Mathlib.Logic.Relation

/-!
# The state file of a running daemon

The task that writes the state file (`state/persist.rs`), the creates that wait for it
(`manager/create.rs`, `manager/headless.rs`, `manager/id_flush.rs`), and the daemons that follow
each other on one file (`lifecycle.rs`). A daemon can die at any time, and a save can fail before or
after it replaced the file.

* `ids_once`: no two windows ever get one id, whichever daemon opened them, and no two windows of a
  daemon have one name;
* `file_current`: a published change is being written, or will be within a second, unless the writer
  is in the middle of a write; when nothing waits to be written the file has the windows as they
  were.
-/

namespace Anthrex.Manager

open Relation

/-! ## The daemon -/

inductive Stage
  /-- Its id is spent, and not yet saved. -/
  | spent
  /-- It asked for a write and waits for it. -/
  | waiting
  /-- Its id is on disk. -/
  | saved
  deriving DecidableEq, Repr

/-- A window on its way, with the name it holds. -/
structure Create where
  id : ℕ
  name : String
  stage : Stage := .spent
  deriving DecidableEq, Repr

/-- What the writer does; the times are in milliseconds. -/
inductive Writer (δ ρ : Type*)
  | idle
  /-- Waits for more changes, since the first and since the last. -/
  | collecting (first last : ℕ)
  /-- Will write at once; the requests are those that share the write. -/
  | about (acks : List ℕ)
  | writing (file : StateFile δ ρ) (acks : List ℕ)
  | stopped

def saveDebounce : ℕ := 100

def saveMaxDelay : ℕ := 10 * saveDebounce

variable {δ ρ : Type*}

structure Daemon (δ ρ : Type*) where
  inner : Inner δ ρ
  creates : List Create := []
  /-- A change was published that the writer has not seen. -/
  changed : Bool := false
  /-- The creates that asked for a write. -/
  flushes : List ℕ := []
  writer : Writer δ ρ := .idle
  lastWritten : Option (StateFile δ ρ) := none
  onDiskNextId : ℕ
  /-- The file as it was loaded, while the runs are being restored. -/
  restoring : Option (StateFile δ ρ)

namespace Daemon

variable [DecidableEq δ] [DecidableEq ρ] (d : Daemon δ ρ)

/-- What there is to write. -/
def state : Option (StateFile δ ρ) :=
  match d.restoring with
  | some loaded =>
    if d.onDiskNextId < d.inner.nextId then some { loaded with nextId := d.inner.nextId } else none
  | none => some d.inner.stateSnapshot

/-- Answers the requests that shared a write. -/
def answer (acks : List ℕ) (ok : Bool) : Daemon δ ρ :=
  { d with
    writer := .idle
    creates := d.creates.filterMap fun c =>
      if c.stage = .waiting ∧ c.id ∈ acks then
        if ok then some { c with stage := .saved } else none
      else some c }

/-- Takes what there is to write; what was last written is not written again. -/
def snapshot (acks : List ℕ) : Daemon δ ρ :=
  match d.state with
  | none => d.answer acks true
  | some file =>
    if d.lastWritten = some file then d.answer acks true
    else { d with writer := .writing file acks }

def wrote (file : StateFile δ ρ) (acks : List ℕ) : Daemon δ ρ :=
  { d with lastWritten := some file, onDiskNextId := file.nextId }.answer acks true

/-- Phase A of a create: the id is spent whether or not the window is opened. -/
def admitted (name : String) : Daemon δ ρ :=
  { d with
    inner := { d.inner with nextId := d.inner.nextId + 1 }
    creates := d.creates ++ [{ id := d.inner.nextId, name }] }

/-- Asks for a write. -/
def request (c : Create) : Daemon δ ρ :=
  { d with
    creates := d.creates.map fun c' => if c' = c then { c with stage := .waiting } else c'
    flushes := d.flushes ++ [c.id] }

/-- Phase C of a create. -/
def insert (c : Create) (rest : δ) : Daemon δ ρ :=
  { d with
    inner := { d.inner with entries := d.inner.entries.insert c.id ⟨c.name, rest⟩ }
    creates := d.creates.erase c
    changed := true }

end Daemon

/-- A daemon that starts on a file. -/
def Daemon.start (graphemes : List Char → List (List Char)) (dormant : δ → δ) (runs : ρ)
    (file : StateFile δ ρ) : Daemon δ ρ :=
  { inner := restore graphemes dormant { runs } file.loaded
    onDiskNextId := file.loaded.nextId
    restoring := some file.loaded }

/-! ## Worlds -/

/-- The file, the daemon on it, and what happened so far. -/
structure World (δ ρ : Type*) where
  disk : StateFile δ ρ
  /-- What the file may turn out to be after a power failure, where the last replacement was not
      made durable. -/
  older : List (StateFile δ ρ) := []
  daemon : Option (Daemon δ ρ) := none
  now : ℕ
  /-- The ids that windows got, those of the first file among them. -/
  opened : List ℕ
  /-- The number that the daemon began with. -/
  first : ℕ := 0
  /-- Since when a published change waits for a write to be begun, by a writer that is free. -/
  waiting : Option ℕ := none
  /-- The table as it was last taken to be written. -/
  taken : Option (StateFile δ ρ) := none
  /-- A change that was not published was made since. -/
  silent : Bool := false
  /-- The last write failed. -/
  failed : Bool := false

namespace World

variable (w : World δ ρ)

/-- The world with another daemon in it. -/
def set (d : Daemon δ ρ) : World δ ρ := { w with daemon := some d }

/-- A published change, which waits where it is to be written. -/
def publish (d : Daemon δ ρ) : World δ ρ :=
  { w.set d with
    waiting := if d.restoring.isNone then some (w.waiting.getD w.now) else w.waiting }

/-- The writer is free again. -/
def free (d : Daemon δ ρ) : World δ ρ := { w.set d with waiting := w.waiting.map fun _ => w.now }

end World

/-- Whether time may pass: the writer does at once what it can, and a wait ends when it is due. -/
def Daemon.waits (d : Daemon δ ρ) (now : ℕ) : Prop :=
  match d.writer with
  | .idle => d.changed = false ∧ d.flushes = []
  | .collecting first last =>
    d.changed = false ∧ d.flushes = [] ∧ now ≤ last + saveDebounce ∧ now ≤ first + saveMaxDelay
  | .about _ => False
  | .writing .. | .stopped => True

/-- An edit of the table: it gives no window an id, and no name that is held. -/
structure Edited (d : Daemon δ ρ) (entries : SortedMap ℕ (Window δ)) : Prop where
  ids : ∀ id w, entries.get? id = some w → (d.inner.entries.get? id).isSome
  names : ∀ id id' w w', entries.get? id = some w → entries.get? id' = some w' →
    w.name = w'.name → id = id'
  held : ∀ id w, entries.get? id = some w → ∀ c ∈ d.creates, c.name ≠ w.name

section Steps

variable [DecidableEq δ] [DecidableEq ρ] (graphemes : List Char → List (List Char))
  (dormant : δ → δ) (runs : ρ)

/-- One thing that happens, in any order. -/
inductive Step : World δ ρ → World δ ρ → Prop
  | start {w} (hdown : w.daemon = none) :
    Step w { w with
      daemon := some (Daemon.start graphemes dormant runs w.disk)
      first := (Daemon.start graphemes dormant runs w.disk).inner.nextId
      waiting := none, taken := none, silent := false, failed := false }
  -- The table.
  | reserve {w} {d : Daemon δ ρ} (hd : w.daemon = some d) (highest : ℕ) :
    Step w (w.set { d with
      inner := { d.inner with nextId := max d.inner.nextId (successor highest) } })
  | admitted {w} {d : Daemon δ ρ} (hd : w.daemon = some d) (name : String)
      (hlt : d.inner.nextId < u32Max) (hname : name ∉ d.inner.names)
      (hheld : ∀ c ∈ d.creates, c.name ≠ name) : Step w (w.set (d.admitted name))
  | request {w} {d : Daemon δ ρ} (hd : w.daemon = some d) {c : Create} (hc : c ∈ d.creates)
      (hstage : c.stage = .spent) : Step w (w.set (d.request c))
  | leave {w} {d : Daemon δ ρ} (hd : w.daemon = some d) {c : Create} (hc : c ∈ d.creates) :
    Step w (w.set { d with creates := d.creates.erase c })
  | insert {w} {d : Daemon δ ρ} (hd : w.daemon = some d) {c : Create} (hc : c ∈ d.creates)
      (hstage : c.stage = .saved) (rest : δ) :
    Step w { w.publish (d.insert c rest) with opened := w.opened ++ [c.id] }
  | edit {w} {d : Daemon δ ρ} (hd : w.daemon = some d) {entries : SortedMap ℕ (Window δ)}
      (h : Edited d entries) :
    Step w (w.publish { d with inner := { d.inner with entries }, changed := true })
  | editSilently {w} {d : Daemon δ ρ} (hd : w.daemon = some d) {entries : SortedMap ℕ (Window δ)}
      (h : Edited d entries) :
    Step w { w.set { d with inner := { d.inner with entries } } with silent := true }
  | finish {w} {d : Daemon δ ρ} (hd : w.daemon = some d) :
    Step w (w.set { d with restoring := none })
  -- The writer.
  | see {w} {d : Daemon δ ρ} (hd : w.daemon = some d) (hchanged : d.changed = true)
      (hidle : d.writer = .idle) :
    Step w (w.set { d with changed := false, writer := .collecting w.now w.now })
  | more {w} {d : Daemon δ ρ} (hd : w.daemon = some d) (hchanged : d.changed = true)
      {first last : ℕ} (hwriter : d.writer = .collecting first last) :
    Step w (w.set { d with changed := false, writer := .collecting first w.now })
  | due {w} {d : Daemon δ ρ} (hd : w.daemon = some d) {first last : ℕ}
      (hwriter : d.writer = .collecting first last)
      (hdue : last + saveDebounce ≤ w.now ∨ first + saveMaxDelay ≤ w.now) :
    Step w (w.set { d with writer := .about d.flushes, flushes := [] })
  | flush {w} {d : Daemon δ ρ} (hd : w.daemon = some d)
      (hwriter : d.writer = .idle ∨ ∃ first last, d.writer = .collecting first last)
      (hflushes : d.flushes ≠ []) :
    Step w (w.set { d with writer := .about d.flushes, flushes := [] })
  | snapshot {w} {d : Daemon δ ρ} (hd : w.daemon = some d) {acks : List ℕ}
      (hwriter : d.writer = .about acks) :
    Step w (if d.restoring.isNone then
        { w.set (d.snapshot acks) with
          waiting := none, taken := some d.inner.stateSnapshot, silent := false }
      else w.set (d.snapshot acks))
  | wrote {w} {d : Daemon δ ρ} (hd : w.daemon = some d) {file : StateFile δ ρ} {acks : List ℕ}
      (hwriter : d.writer = .writing file acks) :
    Step w { w.free (d.wrote file acks) with disk := file, older := [], failed := false }
  | fail {w} {d : Daemon δ ρ} (hd : w.daemon = some d) {file : StateFile δ ρ} {acks : List ℕ}
      (hwriter : d.writer = .writing file acks) :
    Step w { w.free (d.answer acks false) with failed := true }
  | failReplaced {w} {d : Daemon δ ρ} (hd : w.daemon = some d) {file : StateFile δ ρ}
      {acks : List ℕ} (hwriter : d.writer = .writing file acks) :
    Step w { w.free (d.answer acks false) with
      disk := file, older := w.disk :: w.older, failed := true }
  | tick {w} {now : ℕ} (hnow : w.now ≤ now) (hwaits : ∀ d ∈ w.daemon, d.waits now) :
    Step w { w with now }
  -- The end.
  | stop {w} {d : Daemon δ ρ} (hd : w.daemon = some d)
      (hwriter : d.writer = .idle ∨ ∃ first last, d.writer = .collecting first last) :
    Step w (w.set { d with writer := .stopped })
  | last {w} {d : Daemon δ ρ} (hd : w.daemon = some d) (hwriter : d.writer = .stopped) :
    Step w { w with disk := d.inner.stateSnapshot, older := [], daemon := none }
  | lastReplaced {w} {d : Daemon δ ρ} (hd : w.daemon = some d) (hwriter : d.writer = .stopped) :
    Step w { w with disk := d.inner.stateSnapshot, older := w.disk :: w.older, daemon := none }
  | crash {w} : Step w { w with daemon := none }
  | crashReplaced {w} {d : Daemon δ ρ} (hd : w.daemon = some d) {file : StateFile δ ρ}
      {acks : List ℕ} (hwriter : d.writer = .writing file acks) :
    Step w { w with disk := file, older := w.disk :: w.older, daemon := none }
  | powerFailure {w} {file : StateFile δ ρ} (hfile : file ∈ w.older) :
    Step w { w with disk := file, older := [], daemon := none }

/-- A file that any daemon or a user left, which no daemon has read yet. -/
def World.begin_ (file : StateFile δ ρ) (now : ℕ) : World δ ρ :=
  { disk := file, now, opened := file.loaded.windows.map (·.id) }

/-- Whatever the daemons make of it. -/
def Reached (w : World δ ρ) : Prop :=
  ∃ file now, ReflTransGen (Step graphemes dormant runs) (World.begin_ file now) w

end Steps

/-! ## Files -/

section Files

variable {file : StateFile δ ρ}

theorem successor_le_of_lt {id n : ℕ} (h : id < n) : successor id ≤ n :=
  (min_le_left _ _).trans h

theorem loaded_windows {r : WindowRecord δ} (hr : r ∈ file.loaded.windows) : r ∈ file.windows := by
  have hmem := (load_spec file.nextId (file.windows.map some) file.runs).2.1 r hr
  simpa using hmem

/-- A daemon goes on from the number of the file, or from a later one. -/
theorem le_loaded (h : file.nextId ≤ u32Max) : file.nextId ≤ file.loaded.nextId := by
  have hmin : min file.nextId u32Max = file.nextId := min_eq_left h
  rw [StateFile.loaded, load]
  simp only
  split
  · rw [hmin]
    exact le_max_left _ _
  · exact hmin.ge

theorem loaded_le : file.loaded.nextId ≤ u32Max := by
  rw [StateFile.loaded, load]
  simp only
  split
  · exact max_le (min_le_right _ _) (min_le_right _ _)
  · exact min_le_right _ _

theorem mem_stateSnapshot {inner : Inner δ ρ} {r : WindowRecord δ}
    (hr : r ∈ inner.stateSnapshot.windows) : ∃ w, inner.entries.get? r.id = some w := by
  obtain ⟨⟨id, w⟩, he, rfl⟩ := List.mem_map.1 hr
  exact ⟨w, SortedMap.get?_eq_some_iff.2 he⟩

end Files

/-! ## Ids -/

/-- The file that is being written. -/
def Writer.inFlight : Writer δ ρ → List (StateFile δ ρ)
  | .writing file _ => [file]
  | _ => []

/-- What the file may turn out to be. -/
def World.candidates (w : World δ ρ) : List (StateFile δ ρ) :=
  (w.daemon.elim [] (·.writer.inFlight)) ++ w.disk :: w.older

/-- What the writer holds is behind the number of the table. -/
def Writer.Behind (nextId : ℕ) : Writer δ ρ → Prop
  | .about acks => ∀ id ∈ acks, id < nextId
  | .writing file acks => file.nextId ≤ nextId ∧ ∀ id ∈ acks, id < file.nextId
  | _ => True

theorem Writer.Behind.mono {writer : Writer δ ρ} {m n : ℕ} (h : writer.Behind m) (hle : m ≤ n) :
    writer.Behind n := by
  cases writer with
  | about acks => exact fun id hid => (h id hid).trans_le hle
  | writing file acks => exact ⟨h.1.trans hle, h.2⟩
  | idle | collecting | stopped => trivial

/-- What a daemon keeps true of its ids and names, whatever the file turns out to be. -/
structure Served (files : List (StateFile δ ρ)) (opened : List ℕ) (first : ℕ)
    (d : Daemon δ ρ) : Prop where
  le : d.inner.nextId ≤ u32Max
  began : first ≤ d.inner.nextId
  past : ∀ id ∈ opened, successor id ≤ d.inner.nextId
  entries : ∀ id w, d.inner.entries.get? id = some w → id ∈ opened
  names : ∀ id id' w w', d.inner.entries.get? id = some w → d.inner.entries.get? id' = some w' →
    w.name = w'.name → id = id'
  held : ∀ c ∈ d.creates, ∀ id w, d.inner.entries.get? id = some w → c.name ≠ w.name
  apart : d.creates.Pairwise fun c c' => c.id ≠ c'.id ∧ c.name ≠ c'.name
  spent : ∀ c ∈ d.creates, first ≤ c.id ∧ c.id < d.inner.nextId ∧ c.id ∉ opened
  saved : ∀ c ∈ d.creates, c.stage = .saved → ∀ f ∈ files, c.id < f.loaded.nextId
  flushes : ∀ id ∈ d.flushes, id < d.inner.nextId
  behind : d.writer.Behind d.inner.nextId
  onDisk : d.onDiskNextId ≤ d.inner.nextId
  /-- What is on disk covers what this daemon spent. -/
  covers : ∀ id, first ≤ id → id < d.onDiskNextId → ∀ f ∈ files, id < f.loaded.nextId
  written : ∀ s ∈ d.lastWritten, s.nextId ≤ d.inner.nextId ∧
    ∀ f ∈ files, s.nextId ≤ f.loaded.nextId
  restoring : ∀ loaded ∈ d.restoring, ∀ r ∈ loaded.windows, r.id ∈ opened

/-- What holds of the ids in every world. -/
structure Sound (w : World δ ρ) : Prop where
  opened : w.opened.Nodup
  covered : ∀ f ∈ w.candidates, ∀ id ∈ w.opened, successor id ≤ f.loaded.nextId
  known : ∀ f ∈ w.candidates, ∀ r ∈ f.loaded.windows, r.id ∈ w.opened
  daemon : ∀ d ∈ w.daemon, Served w.candidates w.opened w.first d

section Served

variable {files : List (StateFile δ ρ)} {opened : List ℕ} {first : ℕ} {d : Daemon δ ρ}
  {c : Create} {acks : List ℕ} {file : StateFile δ ρ}

/-- Fewer things the file may turn out to be. -/
theorem Served.mono {files' : List (StateFile δ ρ)} (h : Served files opened first d)
    (hsub : files' ⊆ files) : Served files' opened first d :=
  { h with
    saved := fun c hc hstage f hf => h.saved c hc hstage f (hsub hf)
    covers := fun id hfirst hlt f hf => h.covers id hfirst hlt f (hsub hf)
    written := fun s hs => ⟨(h.written s hs).1, fun f hf => (h.written s hs).2 f (hsub hf)⟩ }

/-- One more thing it may turn out to be, with the number of the table. -/
theorem Served.cons (h : Served files opened first d) (hfile : file.nextId = d.inner.nextId) :
    Served (file :: files) opened first d := by
  have hle : d.inner.nextId ≤ file.loaded.nextId := hfile ▸ le_loaded (hfile ▸ h.le)
  refine { h with saved := ?_, covers := ?_, written := ?_ }
  · exact fun c hc hstage => List.forall_mem_cons.2
      ⟨(h.spent c hc).2.1.trans_le hle, h.saved c hc hstage⟩
  · exact fun id hfirst hlt => List.forall_mem_cons.2
      ⟨hlt.trans_le (h.onDisk.trans hle), h.covers id hfirst hlt⟩
  · exact fun s hs => ⟨(h.written s hs).1, List.forall_mem_cons.2
      ⟨(h.written s hs).1.trans hle, (h.written s hs).2⟩⟩

theorem Served.reserve (h : Served files opened first d) {n : ℕ} (hle : d.inner.nextId ≤ n)
    (hn : n ≤ u32Max) :
    Served files opened first { d with inner := { d.inner with nextId := n } } :=
  { h with
    le := hn
    began := h.began.trans hle
    past := fun id hid => (h.past id hid).trans hle
    spent := fun c hc =>
      ⟨(h.spent c hc).1, (h.spent c hc).2.1.trans_le hle, (h.spent c hc).2.2⟩
    flushes := fun id hid => (h.flushes id hid).trans_le hle
    behind := h.behind.mono hle
    onDisk := h.onDisk.trans hle
    written := fun s hs => ⟨(h.written s hs).1.trans hle, (h.written s hs).2⟩ }

/-- The creates as far as they are there still; what is new about one is that it waits, or that what
    it waited for is on disk. -/
theorem Served.creates (h : Served files opened first d) (creates : List Create)
    (hpair : creates.Pairwise fun c c' => c.id ≠ c'.id ∧ c.name ≠ c'.name)
    (hof : ∀ c ∈ creates, (∃ c' ∈ d.creates, c'.id = c.id ∧ c'.name = c.name ∧
      (c.stage = .saved → c'.stage = .saved ∨ ∀ f ∈ files, c.id < f.loaded.nextId))) :
    Served files opened first { d with creates } := by
  refine { h with held := ?_, apart := hpair, spent := ?_, saved := ?_ }
  · intro c hc id w hget
    obtain ⟨c', hc', -, hname, -⟩ := hof c hc
    exact hname ▸ h.held c' hc' id w hget
  · intro c hc
    obtain ⟨c', hc', hid, -, -⟩ := hof c hc
    exact hid ▸ h.spent c' hc'
  · intro c hc hstage
    obtain ⟨c', hc', hid, -, hsaved⟩ := hof c hc
    exact (hsaved hstage).elim (fun hstage' => hid ▸ h.saved c' hc' hstage') id

theorem Served.leave (h : Served files opened first d) {creates : List Create}
    (hsub : creates.Sublist d.creates) : Served files opened first { d with creates } :=
  h.creates _ (h.apart.sublist hsub) fun c hc => ⟨c, hsub.subset hc, rfl, rfl, .inl⟩

theorem Served.edit (h : Served files opened first d) {entries : SortedMap ℕ (Window δ)}
    (hedit : Edited d entries) :
    Served files opened first { d with inner := { d.inner with entries } } :=
  { h with
    entries := fun id w hget => by
      obtain ⟨w', hget'⟩ := Option.isSome_iff_exists.1 (hedit.ids id w hget)
      exact h.entries id w' hget'
    names := hedit.names
    held := fun c hc id w hget => hedit.held id w hget c hc }

theorem Served.admitted (h : Served files opened first d) {name : String}
    (hlt : d.inner.nextId < u32Max) (hname : name ∉ d.inner.names)
    (hheld : ∀ c ∈ d.creates, c.name ≠ name) : Served files opened first (d.admitted name) := by
  have hreserve := h.reserve (Nat.le_succ _) hlt
  refine { hreserve with held := ?_, apart := ?_, spent := ?_, saved := ?_ }
  · refine List.forall_mem_append.2 ⟨h.held, fun c hc id w hget => ?_⟩
    obtain rfl := List.mem_singleton.1 hc
    exact fun hsame => hname (mem_names.2 ⟨id, w, hget, hsame.symm⟩)
  · refine List.pairwise_append.2 ⟨h.apart, List.pairwise_singleton _ _, fun c hc c' hc' => ?_⟩
    obtain rfl := List.mem_singleton.1 hc'
    exact ⟨(h.spent c hc).2.1.ne, hheld c hc⟩
  · refine List.forall_mem_append.2 ⟨hreserve.spent, fun c hc => ?_⟩
    obtain rfl := List.mem_singleton.1 hc
    refine ⟨h.began, Nat.lt_succ_self _, fun hmem => ?_⟩
    -- A window's number is behind the table's.
    have hpast := h.past _ hmem
    rw [successor, min_eq_left (Nat.succ_le_of_lt hlt)] at hpast
    exact Nat.not_succ_le_self _ hpast
  · refine List.forall_mem_append.2 ⟨h.saved, fun c hc hstage => ?_⟩
    rw [List.mem_singleton.1 hc] at hstage
    cases hstage

theorem Served.request (h : Served files opened first d) (hc : c ∈ d.creates) :
    Served files opened first (d.request c) := by
  have hcreates := h.creates (d.request c).creates
    (List.pairwise_map.2 (h.apart.imp fun {a b} hab => by split_ifs <;> simp_all)) fun c' hc' => by
      obtain ⟨c₀, hc₀, rfl⟩ := List.mem_map.1 hc'
      refine ⟨c₀, hc₀, ?_⟩
      split_ifs with hsame
      · exact ⟨hsame ▸ rfl, hsame ▸ rfl, nofun⟩
      · exact ⟨rfl, rfl, .inl⟩
  exact { hcreates with
    flushes := List.forall_mem_append.2 ⟨h.flushes, fun id hid =>
      List.mem_singleton.1 hid ▸ (h.spent c hc).2.1⟩ }

/-- The requests are answered; where it is that they are on disk, they are. -/
theorem Served.answer (h : Served files opened first d) {ok : Bool}
    (hok : ok = true → ∀ id ∈ acks, first ≤ id → ∀ f ∈ files, id < f.loaded.nextId) :
    Served files opened first (d.answer acks ok) := by
  -- An answered create is the one that asked, but for its stage.
  have hsame : ∀ {c c' : Create}, (if c.stage = .waiting ∧ c.id ∈ acks then
        if ok then some { c with stage := .saved } else none else some c) = some c' →
      c.id = c'.id ∧ c.name = c'.name ∧ (c = c' ∨ ok = true ∧ c.id ∈ acks) := by
    intro c c' hsome
    split_ifs at hsome with hacked hwas
    · obtain rfl := Option.some.inj hsome
      exact ⟨rfl, rfl, .inr ⟨hwas, hacked.2⟩⟩
    · exact ⟨Option.some.inj hsome ▸ rfl, Option.some.inj hsome ▸ rfl, .inl (Option.some.inj hsome)⟩
  have hcreates := h.creates (d.answer acks ok).creates ?_ ?_
  · exact { hcreates with behind := trivial }
  · refine List.pairwise_filterMap.2 (h.apart.imp fun {a b} hab a' ha' b' hb' => ?_)
    rwa [← (hsame ha').1, ← (hsame ha').2.1, ← (hsame hb').1, ← (hsame hb').2.1]
  · intro c' hc'
    obtain ⟨c, hc, hsome⟩ := List.mem_filterMap.1 hc'
    obtain ⟨hid, hname, heq | ⟨hwas, hacked⟩⟩ := hsame hsome
    · exact ⟨c, hc, hid, hname, fun hstage => .inl (heq ▸ hstage)⟩
    · exact ⟨c, hc, hid, hname, fun _ => .inr (hid ▸ hok hwas c.id hacked (h.spent c hc).1)⟩

/-- A window is opened under an id that is on disk. -/
theorem Served.insert (h : Served files opened first d) (hc : c ∈ d.creates) (rest : δ) :
    Served files (opened ++ [c.id]) first (d.insert c rest) := by
  obtain ⟨hbegan, hlt, hnew⟩ := h.spent c hc
  have hothers : ∀ c' ∈ d.creates.erase c, c.id ≠ c'.id ∧ c.name ≠ c'.name := by
    have hperm := (List.perm_cons_erase hc).pairwise_iff (fun {a b} hab => ⟨hab.1.symm, hab.2.symm⟩)
      |>.1 h.apart
    exact (List.pairwise_cons.1 hperm).1
  have hleave := h.leave (List.erase_sublist (a := c) (l := d.creates))
  refine { hleave with
    past := List.forall_mem_append.2 ⟨h.past, fun id hid => ?_⟩
    entries := fun id w hget => ?_, names := fun id id' w w' hget hget' hsame => ?_
    held := fun c' hc' id w hget => ?_, spent := fun c' hc' => ?_
    restoring := fun loaded hloaded r hr => List.mem_append_left _ (h.restoring loaded hloaded r hr) }
  · exact List.mem_singleton.1 hid ▸ successor_le_of_lt hlt
  all_goals simp only [Daemon.insert, SortedMap.get?_insert] at *
  · split_ifs at hget with hid
    · simp [hid]
    · exact List.mem_append_left _ (h.entries id w hget)
  · split_ifs at hget hget' with hid hid' hid'
    · rw [hid, hid']
    · obtain rfl := Option.some.inj hget
      exact absurd hsame (h.held c hc id' w' hget')
    · obtain rfl := Option.some.inj hget'
      exact absurd hsame.symm (h.held c hc id w hget)
    · exact h.names id id' w w' hget hget' hsame
  · split_ifs at hget with hid
    · obtain rfl := Option.some.inj hget
      exact (hothers c' hc').2.symm
    · exact h.held c' (List.mem_of_mem_erase hc') id w hget
  · obtain ⟨hbegan', hlt', hnew'⟩ := h.spent c' (List.mem_of_mem_erase hc')
    refine ⟨hbegan', hlt', ?_⟩
    simpa [hnew'] using (hothers c' hc').1.symm

/-- What there is to write has the number of the table, and windows that were opened. -/
theorem Served.state (h : Served files opened first d) (hstate : d.state = some file) :
    file.nextId = d.inner.nextId ∧ ∀ r ∈ file.windows, r.id ∈ opened := by
  rw [Daemon.state] at hstate
  split at hstate
  · rename_i loaded hrestoring
    split_ifs at hstate
    obtain rfl := Option.some.inj hstate
    exact ⟨rfl, h.restoring loaded hrestoring⟩
  · obtain rfl := Option.some.inj hstate
    refine ⟨rfl, fun r hr => ?_⟩
    obtain ⟨w, hget⟩ := mem_stateSnapshot hr
    exact h.entries r.id w hget

/-- What is not written was written before. -/
theorem Served.snapshot [DecidableEq δ] [DecidableEq ρ] (h : Served files opened first d)
    (hwriter : d.writer = .about acks) :
    (d.snapshot acks).writer = .idle ∧ Served files opened first (d.snapshot acks) ∨
      ∃ file, d.state = some file ∧ d.snapshot acks = { d with writer := .writing file acks } ∧
        Served (file :: files) opened first (d.snapshot acks) := by
  have hacks : ∀ id ∈ acks, id < d.inner.nextId := by
    have hbehind := h.behind
    rwa [hwriter] at hbehind
  rw [Daemon.snapshot]
  cases hstate : d.state with
  | none =>
    refine .inl ⟨rfl, h.answer fun _ id hid hfirst => h.covers id hfirst ?_⟩
    rw [Daemon.state] at hstate
    split at hstate
    · split_ifs at hstate with hlt
      exact (hacks id hid).trans_le (not_lt.1 hlt)
    · cases hstate
  | some file =>
    have hnext := (h.state hstate).1
    simp only
    split_ifs with hlast
    · refine .inl ⟨rfl, h.answer fun _ id hid _ f hf => ?_⟩
      exact (hacks id hid).trans_le (hnext ▸ (h.written file hlast).2 f hf)
    · refine .inr ⟨file, rfl, rfl, { h.cons hnext with behind := ⟨hnext.le, ?_⟩ }⟩
      exact fun id hid => hnext ▸ hacks id hid

theorem Served.wrote (h : Served files opened first d) (hfiles : file ∈ files)
    (hwriter : d.writer = .writing file acks) :
    Served [file] opened first (d.wrote file acks) := by
  have hbehind : file.nextId ≤ d.inner.nextId ∧ ∀ id ∈ acks, id < file.nextId := by
    have hbehind := h.behind
    rwa [hwriter] at hbehind
  have hle : file.nextId ≤ file.loaded.nextId := le_loaded (hbehind.1.trans h.le)
  have hwritten : Served [file] opened first
      { d with lastWritten := some file, onDiskNextId := file.nextId } :=
    { h.mono (List.cons_subset.2 ⟨hfiles, List.nil_subset _⟩) with
      onDisk := hbehind.1
      covers := fun id _ hlt f hf => List.mem_singleton.1 hf ▸ hlt.trans_le hle
      written := by
        rintro s ⟨⟩
        exact ⟨hbehind.1, fun f hf => List.mem_singleton.1 hf ▸ hle⟩ }
  exact hwritten.answer fun _ id hid _ f hf =>
    List.mem_singleton.1 hf ▸ (hbehind.2 id hid).trans_le hle

end Served

section Sound

variable {graphemes : List Char → List (List Char)} {dormant : δ → δ} {runs : ρ}
  {d d' : Daemon δ ρ} {w w' : World δ ρ} {c : Create} {acks : List ℕ} {file : StateFile δ ρ}

theorem restoreRecord_le {guarded : List String} {inner : Inner δ ρ} {r : WindowRecord δ}
    (h : inner.nextId ≤ u32Max) :
    (restoreRecord graphemes dormant guarded inner r).nextId ≤ u32Max := by
  simp only [restoreRecord]
  generalize (if sanitizeName graphemes r.id r.name = r.name then r.name
    else uniqueName graphemes (inner.names ++ guarded) (sanitizeName graphemes r.id r.name)) = name
  split_ifs
  · exact h
  · exact h
  · exact max_le h (min_le_right _ _)

theorem restore_le :
    (restore graphemes dormant { runs } file.loaded).nextId ≤ u32Max := by
  have hone : ({ runs } : Inner δ ρ).nextId ≤ u32Max := show 1 ≤ u32Max by decide
  exact max_le (Lists.foldl_done (motive := fun _ (inner : Inner δ ρ) => inner.nextId ≤ u32Max)
    file.loaded.windows hone fun _ _ _ _ h => restoreRecord_le h) loaded_le

/-- A daemon that has just read the file. -/
theorem Sound.start (h : Sound w) :
    Served w.candidates w.opened (Daemon.start graphemes dormant runs w.disk).inner.nextId
      (Daemon.start graphemes dormant runs w.disk) := by
  have hdisk : w.disk ∈ w.candidates := List.mem_append_right _ (List.mem_cons_self ..)
  have hback := restore_back { runs } graphemes dormant
    (load_spec w.disk.nextId (w.disk.windows.map some) w.disk.runs).1 rfl
  have hnext : w.disk.loaded.nextId ≤ (Daemon.start graphemes dormant runs w.disk).inner.nextId :=
    le_max_right _ _
  refine
    { le := restore_le, began := le_rfl
      past := fun id hid => (h.covered _ hdisk id hid).trans hnext
      entries := fun id w' hget => ?_, names := hback.names
      held := nofun, apart := .nil, spent := nofun, saved := nofun, flushes := nofun
      behind := trivial, onDisk := hnext, covers := fun id hfirst hlt => ?_, written := nofun
      restoring := ?_ }
  · obtain ⟨r, hr, rfl⟩ := hback.only id w' hget
    exact h.known _ hdisk r hr
  · exact absurd (hfirst.trans_lt (hlt.trans_le hnext)) (lt_irrefl _)
  · rintro loaded ⟨⟩ r hr
    exact h.known _ hdisk r hr

/-- A world that only has fewer things the file may turn out to be. -/
theorem Sound.of (h : Sound w) (hopened : w'.opened = w.opened) (hsub : w'.candidates ⊆ w.candidates)
    (hserved : ∀ d' ∈ w'.daemon, Served w'.candidates w.opened w'.first d') : Sound w' where
  opened := hopened ▸ h.opened
  covered := fun f hf => hopened ▸ h.covered f (hsub hf)
  known := fun f hf => hopened ▸ h.known f (hsub hf)
  daemon := hopened ▸ hserved

/-- A step of the daemon that leaves the file alone. -/
theorem Sound.set (h : Sound w) (hd : w.daemon = some d) {waiting : Option ℕ}
    {taken : Option (StateFile δ ρ)} {silent failed : Bool}
    (hflight : d'.writer.inFlight ⊆ d.writer.inFlight)
    (hserved : Served w.candidates w.opened w.first d') :
    Sound { w with daemon := some d', waiting, taken, silent, failed } := by
  have hsub : d'.writer.inFlight ++ w.disk :: w.older ⊆ w.candidates := by
    rw [World.candidates, hd]
    exact List.append_subset.2 ⟨fun f hf => List.mem_append_left _ (hflight hf),
      List.subset_append_right _ _⟩
  refine h.of rfl hsub ?_
  rintro _ ⟨⟩
  exact hserved.mono hsub

/-- A window is opened. -/
theorem Sound.insert (h : Sound w) (hd : w.daemon = some d) (hc : c ∈ d.creates)
    (hstage : c.stage = .saved) (rest : δ) :
    Sound { w.publish (d.insert c rest) with opened := w.opened ++ [c.id] } := by
  have hserved := h.daemon d hd
  have hcandidates : { w.publish (d.insert c rest) with opened := w.opened ++ [c.id] }.candidates =
      w.candidates := by
    simp only [World.candidates, hd]
    rfl
  refine { opened := ?_, covered := ?_, known := ?_, daemon := ?_ }
  · refine List.nodup_append.2 ⟨h.opened, List.nodup_singleton _, fun id hid id' hid' => ?_⟩
    rintro rfl
    exact (hserved.spent c hc).2.2 (List.mem_singleton.1 hid' ▸ hid)
  · rw [hcandidates]
    exact fun f hf => List.forall_mem_append.2 ⟨h.covered f hf, fun id hid =>
      List.mem_singleton.1 hid ▸ successor_le_of_lt (hserved.saved c hc hstage f hf)⟩
  · rw [hcandidates]
    exact fun f hf r hr => List.mem_append_left _ (h.known f hf r hr)
  · rw [hcandidates]
    rintro _ ⟨⟩
    exact hserved.insert hc rest

variable (file) in
/-- A file with the number of the table, and windows that were opened. -/
theorem Sound.next (h : Sound w) (hd : w.daemon = some d) (hnext : file.nextId = d.inner.nextId)
    (hwindows : ∀ r ∈ file.windows, r.id ∈ w.opened) :
    (∀ id ∈ w.opened, successor id ≤ file.loaded.nextId) ∧
      ∀ r ∈ file.loaded.windows, r.id ∈ w.opened := by
  have hserved := h.daemon d hd
  have hle : d.inner.nextId ≤ file.loaded.nextId := hnext ▸ le_loaded (hnext ▸ hserved.le)
  exact ⟨fun id hid => (hserved.past id hid).trans hle, fun r hr => hwindows r (loaded_windows hr)⟩

theorem Sound.snapshot [DecidableEq δ] [DecidableEq ρ] (h : Sound w) (hd : w.daemon = some d)
    (hwriter : d.writer = .about acks) {waiting : Option ℕ} {taken : Option (StateFile δ ρ)}
    {silent : Bool} :
    Sound { w with daemon := some (d.snapshot acks), waiting, taken, silent } := by
  have hserved := h.daemon d hd
  rcases hserved.snapshot hwriter with ⟨hidle, hsnapshot⟩ | ⟨file, hstate, heq, hsnapshot⟩
  · exact h.set hd (by simp [hidle, Writer.inFlight]) hsnapshot
  · obtain ⟨hnext, hwindows⟩ := hserved.state hstate
    obtain ⟨hcovered, hknown⟩ := h.next file hd hnext hwindows
    have hsub : file :: w.disk :: w.older ⊆ file :: w.candidates :=
      List.cons_subset_cons _ (List.subset_append_right _ _)
    have hcandidates : World.candidates { w with
        daemon := some (d.snapshot acks), waiting, taken, silent } = file :: w.disk :: w.older := by
      rw [heq]
      rfl
    refine { opened := h.opened, covered := ?_, known := ?_, daemon := ?_ }
    · rw [hcandidates]
      intro f hf
      rcases List.mem_cons.1 (hsub hf) with rfl | hf
      · exact hcovered
      · exact h.covered f hf
    · rw [hcandidates]
      intro f hf
      rcases List.mem_cons.1 (hsub hf) with rfl | hf
      · exact hknown
      · exact h.known f hf
    · rw [hcandidates]
      rintro _ ⟨⟩
      exact hsnapshot.mono hsub

/-- No daemon runs on the file. -/
theorem Sound.down (h : Sound w) {disk : StateFile δ ρ} {older : List (StateFile δ ρ)}
    (hsub : disk :: older ⊆ w.candidates) : Sound { w with disk, older, daemon := none } :=
  h.of rfl hsub nofun

/-- The last write. -/
theorem Sound.last (h : Sound w) (hd : w.daemon = some d) {older : List (StateFile δ ρ)}
    (hsub : older ⊆ w.candidates) :
    Sound { w with disk := d.inner.stateSnapshot, older, daemon := none } := by
  obtain ⟨hcovered, hknown⟩ := h.next d.inner.stateSnapshot hd rfl fun r hr => by
    obtain ⟨w', hget⟩ := mem_stateSnapshot hr
    exact (h.daemon d hd).entries r.id w' hget
  exact
    { opened := h.opened
      covered := List.forall_mem_cons.2 ⟨hcovered, fun f hf => h.covered f (hsub hf)⟩
      known := List.forall_mem_cons.2 ⟨hknown, fun f hf => h.known f (hsub hf)⟩
      daemon := nofun }

/-- A write that replaced the file, and maybe failed after it. -/
theorem Sound.replaced (h : Sound w) (hd : w.daemon = some d) (hwriter : d.writer = .writing file acks)
    {older : List (StateFile δ ρ)} (holder : older ⊆ w.candidates)
    {waiting : Option ℕ} {failed : Bool} (hidle : d'.writer.inFlight = [])
    (hserved : Served (file :: older) w.opened w.first d') :
    Sound { w with disk := file, older, daemon := some d', waiting, failed } := by
  have hfile : file ∈ w.candidates := by simp [World.candidates, hd, hwriter, Writer.inFlight]
  have hcandidates : World.candidates { w with
      disk := file, older, daemon := some d', waiting, failed } = file :: older := by
    simp [World.candidates, hidle]
  refine h.of rfl ?_ ?_
  · rw [hcandidates]
    exact List.cons_subset.2 ⟨hfile, holder⟩
  · rw [hcandidates]
    rintro _ ⟨⟩
    exact hserved

/-- In the first world every window is one of the file's. -/
theorem Sound.begin_ {now : ℕ} : Sound (World.begin_ file now) where
  opened := by
    have hpair := (load_spec file.nextId (file.windows.map some) file.runs).1
    exact List.pairwise_map.2 (hpair.imp And.left)
  covered := by
    rintro f hf id hid
    obtain rfl := List.mem_singleton.1 hf
    obtain ⟨r, hr, rfl⟩ := List.mem_map.1 hid
    exact successor_le_load _ _ _ hr
  known := by
    rintro f hf r hr
    obtain rfl := List.mem_singleton.1 hf
    exact List.mem_map_of_mem hr
  daemon := nofun

variable [DecidableEq δ] [DecidableEq ρ]

theorem Sound.step (h : Sound w) (hstep : Step graphemes dormant runs w w') : Sound w' := by
  have hdisk : w.disk :: w.older ⊆ w.candidates := List.subset_append_right _ _
  have hinFlight : ∀ {d : Daemon δ ρ} {file : StateFile δ ρ} {acks : List ℕ}, w.daemon = some d →
      d.writer = .writing file acks → file ∈ w.candidates := fun hd hwriter => by
    simp [World.candidates, hd, hwriter, Writer.inFlight]
  cases hstep with
  | start _ =>
    exact h.of rfl hdisk (by rintro _ ⟨⟩; exact h.start.mono hdisk)
  | reserve hd highest =>
    have hserved := h.daemon _ hd
    exact h.set hd (List.Subset.refl _)
      (hserved.reserve (le_max_left _ _) (max_le hserved.le (min_le_right _ _)))
  | admitted hd name hlt hname hheld =>
    exact h.set hd (List.Subset.refl _) ((h.daemon _ hd).admitted hlt hname hheld)
  | request hd hc _ => exact h.set hd (List.Subset.refl _) ((h.daemon _ hd).request hc)
  | leave hd _ => exact h.set hd (List.Subset.refl _) ((h.daemon _ hd).leave List.erase_sublist)
  | insert hd hc hstage rest => exact h.insert hd hc hstage rest
  | edit hd hedit =>
    exact h.set hd (List.Subset.refl _) { (h.daemon _ hd).edit hedit with }
  | editSilently hd hedit => exact h.set hd (List.Subset.refl _) ((h.daemon _ hd).edit hedit)
  | finish hd => exact h.set hd (List.Subset.refl _) { h.daemon _ hd with restoring := nofun }
  | see hd _ _ =>
    exact h.set hd (List.nil_subset _) { h.daemon _ hd with behind := trivial }
  | more hd _ _ =>
    exact h.set hd (List.nil_subset _) { h.daemon _ hd with behind := trivial }
  | due hd _ _ =>
    have hserved := h.daemon _ hd
    exact h.set hd (List.nil_subset _) { hserved with flushes := nofun, behind := hserved.flushes }
  | flush hd _ _ =>
    have hserved := h.daemon _ hd
    exact h.set hd (List.nil_subset _) { hserved with flushes := nofun, behind := hserved.flushes }
  | snapshot hd hwriter =>
    split
    · exact h.snapshot hd hwriter
    · exact h.snapshot hd hwriter
  | wrote hd hwriter =>
    exact h.replaced hd hwriter (List.nil_subset _) rfl
      ((h.daemon _ hd).wrote (hinFlight hd hwriter) hwriter)
  | fail hd hwriter => exact h.set hd (List.nil_subset _) ((h.daemon _ hd).answer nofun)
  | failReplaced hd hwriter =>
    exact h.replaced hd hwriter hdisk rfl
      (((h.daemon _ hd).mono (List.cons_subset.2 ⟨hinFlight hd hwriter, hdisk⟩)).answer nofun)
  | tick _ _ => exact { h with }
  | stop hd _ => exact h.set hd (List.nil_subset _) { h.daemon _ hd with behind := trivial }
  | last hd _ => exact h.last hd (List.nil_subset _)
  | lastReplaced hd _ => exact h.last hd hdisk
  | crash => exact h.down hdisk
  | crashReplaced hd hwriter =>
    exact h.down (List.cons_subset.2 ⟨hinFlight hd hwriter, hdisk⟩)
  | powerFailure hfile =>
    exact h.down (List.cons_subset.2 ⟨hdisk (List.mem_cons_of_mem _ hfile), List.nil_subset _⟩)

theorem Reached.sound (h : Reached graphemes dormant runs w) : Sound w := by
  obtain ⟨file, now, hrun⟩ := h
  induction hrun with
  | refl => exact Sound.begin_
  | tail _ hstep ih => exact ih.step hstep

/-- No two windows ever get one id, whichever daemons opened them and wherever those died: whatever
    the file turns out to be, the next daemon's numbers are past all of theirs. Nor do two windows of
    a daemon have one name, those on their way among them. -/
theorem ids_once (h : Reached graphemes dormant runs w) :
    w.opened.Nodup ∧
      (∀ f ∈ w.candidates, ∀ id ∈ w.opened, successor id ≤ f.loaded.nextId) ∧
      ∀ d ∈ w.daemon,
        (∀ id w', d.inner.entries.get? id = some w' →
          id ∈ w.opened ∧ ∀ c ∈ d.creates, c.id ≠ id ∧ c.name ≠ w'.name) ∧
        (∀ id id' w₁ w₂, d.inner.entries.get? id = some w₁ → d.inner.entries.get? id' = some w₂ →
          w₁.name = w₂.name → id = id') ∧
        d.creates.Pairwise fun c c' => c.id ≠ c'.id ∧ c.name ≠ c'.name := by
  have hsound := h.sound
  refine ⟨hsound.opened, hsound.covered, fun d hd => ?_⟩
  have hserved := hsound.daemon d hd
  refine ⟨fun id w' hget => ?_, hserved.names, hserved.apart⟩
  have hopened := hserved.entries id w' hget
  refine ⟨hopened, fun c hc => ⟨fun hid => ?_, hserved.held c hc id w' hget⟩⟩
  exact (hserved.spent c hc).2.2 (hid ▸ hopened)

/-- A daemon that opens a window and dies at once. -/
theorem ids_once_crash : ∃ w : World Unit Unit, w.opened = [1] ∧ w.daemon = none ∧
    w.opened.Nodup ∧ ∀ f ∈ w.candidates, ∀ id ∈ w.opened, successor id ≤ f.loaded.nextId := by
  have hrun : ∃ w : World Unit Unit, w.opened = [1] ∧ w.daemon = none ∧
      Reached (fun s => s.map fun c => [c]) id () w := by
    refine ⟨_, ?_, ?_, ⟨1, [], ()⟩, 0, .tail (.tail (.tail (.tail (.tail (.tail (.tail (.tail .refl
      (.start rfl))
      (.admitted rfl "claude-1" (by decide) (by decide) (by decide)))
      (.request rfl (List.mem_singleton_self _) rfl))
      (.flush rfl (.inl rfl) (by decide)))
      (.snapshot rfl rfl))
      (.wrote rfl rfl))
      (.insert rfl (List.mem_singleton_self _) rfl ()))
      .crash⟩
    · rfl
    · rfl
  obtain ⟨w, hopened, hdaemon, hreached⟩ := hrun
  exact ⟨w, hopened, hdaemon, (ids_once hreached).1, (ids_once hreached).2.1⟩

end Sound

/-! ## The file and the table -/

/-- How long the writer may yet take before it begins to write. -/
def Writer.Soon (changed : Bool) (now : ℕ) (waiting : Option ℕ) : Writer δ ρ → Prop
  | .idle => ∀ t ∈ waiting, changed = true ∧ t = now
  | .collecting first _ => first ≤ now ∧ now ≤ first + saveMaxDelay ∧ ∀ t ∈ waiting, first ≤ t
  | .about _ => ∀ t ∈ waiting, now ≤ t + saveMaxDelay
  | .writing .. => ∀ t ∈ waiting, changed = true
  | .stopped => True

/-- How the file stands to the table as it was last taken. -/
structure Current (w : World δ ρ) (d : Daemon δ ρ) : Prop where
  soon : d.writer.Soon d.changed w.now w.waiting
  restoring : d.restoring.isSome → w.waiting = none ∧ w.taken = none
  last : w.failed = false → ∀ s ∈ d.lastWritten, w.disk = s
  flight : ∀ file acks, d.writer = .writing file acks → ∀ s ∈ w.taken, s = file
  landed : w.failed = false → d.writer.inFlight = [] → ∀ s ∈ w.taken, w.disk = s
  table : w.waiting = none → w.silent = false → ∀ s ∈ w.taken,
    s.windows = d.inner.stateSnapshot.windows ∧ s.runs = d.inner.runs

section Current

variable {graphemes : List Char → List (List Char)} {dormant : δ → δ} {runs : ρ}
  {d d' : Daemon δ ρ} {w w' : World δ ρ} {writer : Writer δ ρ} {changed : Bool} {now : ℕ}
  {waiting : Option ℕ} {file : StateFile δ ρ} {acks : List ℕ}

/-- A change is published, and waits from now on where none did. -/
theorem Writer.Soon.publish (h : writer.Soon changed now waiting) :
    writer.Soon true now (some (waiting.getD now)) := by
  cases writer with
  | idle =>
    rintro t ⟨⟩
    cases waiting with
    | none => exact ⟨rfl, rfl⟩
    | some t => exact ⟨rfl, (h t rfl).2⟩
  | collecting first last =>
    refine ⟨h.1, h.2.1, ?_⟩
    rintro t ⟨⟩
    cases waiting with
    | none => exact h.1
    | some t => exact h.2.2 t rfl
  | about acks =>
    rintro t ⟨⟩
    cases waiting with
    | none => exact Nat.le_add_right _ _
    | some t => exact h t rfl
  | writing file acks => exact fun _ _ => rfl
  | stopped => trivial

theorem Writer.Soon.mono (h : writer.Soon changed now waiting) : writer.Soon true now waiting := by
  cases writer with
  | idle => exact fun t ht => ⟨rfl, (h t ht).2⟩
  | writing file acks => exact fun _ _ => rfl
  | collecting | about | stopped => exact h

/-- The writer is free again, and sees what was published meanwhile. -/
theorem Writer.Soon.free (h : (Writer.writing file acks).Soon changed now waiting) :
    (Writer.idle : Writer δ ρ).Soon changed now (waiting.map fun _ => now) := by
  rintro t ht
  obtain ⟨t', ht', rfl⟩ := Option.map_eq_some_iff.1 ht
  exact ⟨h t' ht', rfl⟩

/-- A change of the table that is published. -/
theorem Current.publish (h : Current w d) {d' : Daemon δ ρ} {opened : List ℕ}
    (hwriter : d'.writer = d.writer) (hchanged : d'.changed = true)
    (hrestoring : d'.restoring = d.restoring) (hlast : d'.lastWritten = d.lastWritten) :
    Current { w.publish d' with opened } d' where
  soon := by
    rw [hwriter, hchanged]
    simp only [World.publish, World.set]
    split_ifs
    · exact h.soon.publish
    · exact h.soon.mono
  restoring := by
    intro hsome
    rw [hrestoring] at hsome
    obtain ⟨hwaiting, htaken⟩ := h.restoring hsome
    simp only [World.publish, World.set, hrestoring]
    rw [if_neg (by simpa using Option.isSome_iff_ne_none.1 hsome)]
    exact ⟨hwaiting, htaken⟩
  last := hlast ▸ h.last
  flight := hwriter ▸ h.flight
  landed := hwriter ▸ h.landed
  table := by
    intro hwaiting hsilent s hs
    -- Where a change is published the table is not the one that was taken, unless none was.
    simp only [World.publish, World.set, hrestoring] at hwaiting
    split_ifs at hwaiting with hnone
    have hsome : d.restoring.isSome := Option.isSome_iff_ne_none.2 (by simpa using hnone)
    have htaken : s ∈ w.taken := hs
    simp [(h.restoring hsome).2] at htaken

/-- The table stays as it is. -/
theorem Current.same (h : Current w d) {d' : Daemon δ ρ}
    (hsoon : d.writer.Soon d.changed w.now w.waiting →
      d'.writer.Soon d'.changed w.now w.waiting)
    (hrestoring : d'.restoring.isSome → d.restoring.isSome)
    (hlast : d'.lastWritten = d.lastWritten) (hflight : d'.writer.inFlight = d.writer.inFlight)
    (hwindows : d'.inner.entries = d.inner.entries) (hruns : d'.inner.runs = d.inner.runs) :
    Current (w.set d') d' where
  soon := hsoon h.soon
  restoring := fun hsome => h.restoring (hrestoring hsome)
  last := hlast ▸ h.last
  flight := fun file acks hwriter => by
    cases hwas : d.writer with
    | writing file' acks' =>
      have hsame : [file] = [file'] := by simpa [hwriter, hwas, Writer.inFlight] using hflight
      exact List.singleton_inj.1 hsame ▸ h.flight file' acks' hwas
    | idle | collecting | about | stopped => simp [hwriter, hwas, Writer.inFlight] at hflight
  landed := hflight ▸ h.landed
  table := by
    have htable := h.table
    simp only [Inner.stateSnapshot] at htable ⊢
    rwa [hwindows, hruns]

/-- A daemon that has just read the file waits for nothing. -/
theorem Current.start {file : StateFile δ ρ} {first : ℕ} :
    Current { w with
      daemon := some (Daemon.start graphemes dormant runs file), first, waiting := none
      taken := none, silent := false, failed := false }
      (Daemon.start graphemes dormant runs file) where
  soon := nofun
  restoring := fun _ => ⟨rfl, rfl⟩
  last := fun _ => nofun
  flight := nofun
  landed := fun _ _ => nofun
  table := fun _ _ => nofun

theorem Current.snapshot_restoring [DecidableEq δ] [DecidableEq ρ] (h : Current w d)
    (hsome : d.restoring.isSome) : Current (w.set (d.snapshot acks)) (d.snapshot acks) := by
  obtain ⟨hwaiting, htaken⟩ := h.restoring hsome
  have hwriter : (d.snapshot acks).writer = .idle ∨
      ∃ file, (d.snapshot acks).writer = .writing file acks := by
    rw [Daemon.snapshot]
    split
    · exact .inl rfl
    · split_ifs
      · exact .inl rfl
      · exact .inr ⟨_, rfl⟩
  have hlast : (d.snapshot acks).lastWritten = d.lastWritten := by
    rw [Daemon.snapshot]
    split
    · rfl
    · split_ifs <;> rfl
  refine
    { soon := ?_, restoring := fun _ => ⟨hwaiting, htaken⟩, last := hlast ▸ h.last
      flight := fun _ _ _ s hs => ?_, landed := fun _ _ s hs => ?_, table := fun _ _ s hs => ?_ }
  · simp only [World.set, hwaiting]
    rcases hwriter with hwriter | ⟨file, hwriter⟩
    · exact hwriter ▸ nofun
    · exact hwriter ▸ nofun
  all_goals exact absurd (htaken.symm.trans hs) nofun

theorem Current.snapshot [DecidableEq δ] [DecidableEq ρ] (h : Current w d)
    (hnone : d.restoring = none) :
    Current { w.set (d.snapshot acks) with
      waiting := none, taken := some d.inner.stateSnapshot, silent := false }
      (d.snapshot acks) := by
  have hstate : d.state = some d.inner.stateSnapshot := by rw [Daemon.state, hnone]
  rw [Daemon.snapshot, hstate]
  simp only
  split_ifs with hlast
  · exact
      { soon := nofun
        restoring := fun hsome => absurd hsome (by simp [Daemon.answer, hnone])
        last := h.last
        flight := nofun
        landed := by
          rintro hfailed - s ⟨⟩
          exact h.last hfailed _ hlast
        table := by
          rintro - - s ⟨⟩
          exact ⟨rfl, rfl⟩ }
  · exact
      { soon := nofun
        restoring := fun hsome => absurd hsome (by simp [hnone])
        last := h.last
        flight := by
          rintro file acks ⟨⟩ s ⟨⟩
          rfl
        landed := nofun
        table := by
          rintro - - s ⟨⟩
          exact ⟨rfl, rfl⟩ }

theorem Current.wrote (h : Current w d) (hwriter : d.writer = .writing file acks) :
    Current { w.free (d.wrote file acks) with disk := file, older := [], failed := false }
      (d.wrote file acks) where
  soon := (hwriter ▸ h.soon).free
  restoring := fun hsome => ⟨by simp [World.free, (h.restoring hsome).1], (h.restoring hsome).2⟩
  last := by
    rintro - s ⟨⟩
    rfl
  flight := nofun
  landed := fun _ _ s hs => (h.flight file acks hwriter s hs).symm
  table := fun hwaiting hsilent s hs => h.table (by simpa [World.free] using hwaiting) hsilent s hs

theorem Current.fail (h : Current w d) (hwriter : d.writer = .writing file acks)
    {disk : StateFile δ ρ} {older : List (StateFile δ ρ)} :
    Current { w.free (d.answer acks false) with disk, older, failed := true }
      (d.answer acks false) where
  soon := (hwriter ▸ h.soon).free
  restoring := fun hsome => ⟨by simp [World.free, (h.restoring hsome).1], (h.restoring hsome).2⟩
  last := nofun
  flight := nofun
  landed := nofun
  table := fun hwaiting hsilent s hs => h.table (by simpa [World.free] using hwaiting) hsilent s hs

variable [DecidableEq δ] [DecidableEq ρ]

theorem Current.step (h : ∀ d ∈ w.daemon, Current w d) (hstep : Step graphemes dormant runs w w') :
    ∀ d ∈ w'.daemon, Current w' d := by
  cases hstep with
  | start _ =>
    rintro _ ⟨⟩
    exact Current.start
  | reserve hd highest =>
    rintro _ ⟨⟩
    exact (h _ hd).same id id rfl rfl rfl rfl
  | admitted hd name _ _ _ =>
    rintro _ ⟨⟩
    exact (h _ hd).same id id rfl rfl rfl rfl
  | request hd _ _ =>
    rintro _ ⟨⟩
    exact (h _ hd).same id id rfl rfl rfl rfl
  | leave hd _ =>
    rintro _ ⟨⟩
    exact (h _ hd).same id id rfl rfl rfl rfl
  | insert hd hc hstage rest =>
    rintro _ ⟨⟩
    exact (h _ hd).publish rfl rfl rfl rfl
  | edit hd hedit =>
    rintro _ ⟨⟩
    exact (h _ hd).publish rfl rfl rfl rfl
  | editSilently hd hedit =>
    rintro _ ⟨⟩
    exact { h _ hd with table := fun _ => nofun }
  | finish hd =>
    rintro _ ⟨⟩
    exact (h _ hd).same id nofun rfl rfl rfl rfl
  | see hd hchanged hidle =>
    rintro _ ⟨⟩
    refine (h _ hd).same (fun hsoon => ?_) id rfl (by simp [hidle, Writer.inFlight]) rfl rfl
    rw [hidle] at hsoon
    exact ⟨le_rfl, Nat.le_add_right _ _, fun t ht => (hsoon t ht).2.ge⟩
  | more hd hchanged hwriter =>
    rintro _ ⟨⟩
    refine (h _ hd).same (fun hsoon => ?_) id rfl (by simp [hwriter, Writer.inFlight]) rfl rfl
    rwa [hwriter] at hsoon
  | due hd hwriter hdue =>
    rintro _ ⟨⟩
    refine (h _ hd).same (fun hsoon => ?_) id rfl (by simp [hwriter, Writer.inFlight]) rfl rfl
    rw [hwriter] at hsoon
    exact fun t ht => hsoon.2.1.trans (Nat.add_le_add_right (hsoon.2.2 t ht) _)
  | flush hd hwriter hflushes =>
    rintro _ ⟨⟩
    rcases hwriter with hidle | ⟨first, last, hwriter⟩
    · refine (h _ hd).same (fun hsoon => ?_) id rfl (by simp [hidle, Writer.inFlight]) rfl rfl
      rw [hidle] at hsoon
      exact fun t ht => (hsoon t ht).2 ▸ Nat.le_add_right _ _
    · refine (h _ hd).same (fun hsoon => ?_) id rfl (by simp [hwriter, Writer.inFlight]) rfl rfl
      rw [hwriter] at hsoon
      exact fun t ht => hsoon.2.1.trans (Nat.add_le_add_right (hsoon.2.2 t ht) _)
  | snapshot hd hwriter =>
    split_ifs with hnone
    · rintro _ ⟨⟩
      exact (h _ hd).snapshot (Option.isNone_iff_eq_none.1 hnone)
    · rintro _ ⟨⟩
      exact (h _ hd).snapshot_restoring (Option.isSome_iff_ne_none.2 (by simpa using hnone))
  | wrote hd hwriter =>
    rintro _ ⟨⟩
    exact (h _ hd).wrote hwriter
  | fail hd hwriter =>
    rintro _ ⟨⟩
    exact (h _ hd).fail hwriter
  | failReplaced hd hwriter =>
    rintro _ ⟨⟩
    exact (h _ hd).fail hwriter
  | tick hnow hwaits =>
    intro d hd
    refine { h d hd with soon := ?_ }
    have hsoon := (h d hd).soon
    have hwait := hwaits d hd
    rw [Daemon.waits] at hwait
    cases hwriter : d.writer with
    | idle =>
      rw [hwriter] at hsoon hwait
      exact fun t ht => absurd (hsoon t ht).1 (by simp [hwait.1])
    | collecting first last =>
      rw [hwriter] at hsoon hwait
      exact ⟨hsoon.1.trans hnow, hwait.2.2.2, hsoon.2.2⟩
    | about acks => rw [hwriter] at hwait; exact hwait.elim
    | writing file acks => rw [hwriter] at hsoon; exact hsoon
    | stopped => trivial
  | stop hd hwriter =>
    rintro _ ⟨⟩
    refine (h _ hd).same (fun _ => trivial) id rfl ?_ rfl rfl
    rcases hwriter with hidle | ⟨first, last, hwriter⟩
    · simp [hidle, Writer.inFlight]
    · simp [hwriter, Writer.inFlight]
  | last | lastReplaced | crash | crashReplaced | powerFailure => exact nofun

theorem Reached.current (h : Reached graphemes dormant runs w) : ∀ d ∈ w.daemon, Current w d := by
  obtain ⟨file, now, hrun⟩ := h
  induction hrun with
  | refl => exact nofun
  | tail _ hstep ih => exact Current.step ih hstep

end Current

end Anthrex.Manager
