import Anthrex.TargetPool.Book

/-!
# Runs of the pool's book

What holds of a `PoolBook` after any calls from a new pool (`lease_run`): an owner
holds at most one directory, a record has an owner exactly while it is leased, a
lease never hands out a directory of another owner or one being wiped, and a
directory whose last lease ended without a clean is wiped before its next one.

The last part is about the past: a `Session` is a book with, for each directory, how
its last lease ended (`Ended`), or that it was wiped since.
-/

namespace Anthrex.TargetPool

/-- How the last lease of a directory ended, or that it was wiped since. -/
inductive Ended
  | released (how : Released)
  | vanished
  | swept
  deriving DecidableEq, Repr

/-- The directory was left as it was: it is wiped before its next lease. -/
def Ended.owes : Ended → Bool
  | released .notCleaned | vanished => true
  | released .cleaned | released .wiped | swept => false

/-- A call of the book. -/
inductive Call
  | lease (cls : PoolClass) (owner run : String) (now : ℕ)
  | unlease (owner : String)
  | release (owner : String) (how : Released) (now : ℕ)
  | reconcile («exists» : String → Bool) (leasedBefore : ℕ)
  | forgetRuns (known : String → Bool)
  | beginWipe (id : DirId) (now idleSecs : ℕ)
  | endWipe (id : DirId)

/-- A book with how the last lease of each directory ended. -/
structure Session where
  book : PoolBook
  ended : DirId → Option Ended

namespace Session

def new (taskDirs engineDirs : ℕ) : Session := ⟨.new taskDirs engineDirs, fun _ => none⟩

/-- The directories `ids` were freed, their owners gone. -/
def vanish (ended : DirId → Option Ended) (ids : List DirId) : DirId → Option Ended :=
  fun id => if id ∈ ids then some .vanished else ended id

def step (s : Session) : Call → Session
  | .lease cls owner run now => { s with book := (s.book.lease cls owner run now).1 }
  | .unlease owner => { s with book := s.book.unlease owner }
  | .release owner how now =>
    let (book, freed) := s.book.release owner how now
    ⟨book, fun id => if freed = some id then some (.released how) else s.ended id⟩
  | .reconcile «exists» leasedBefore =>
    let (book, freed) := s.book.reconcile «exists» leasedBefore
    ⟨book, vanish s.ended freed⟩
  | .forgetRuns known =>
    let (book, freed) := s.book.forgetRuns known
    ⟨book, vanish s.ended freed⟩
  | .beginWipe id now idleSecs => { s with book := (s.book.beginWipe id now idleSecs).1 }
  | .endWipe id =>
    ⟨s.book.endWipe id, fun id' =>
      if id' = id ∧ (s.book.dirs.get? id).any (·.state = .wiping) then some .swept
      else s.ended id'⟩

def run (s : Session) (calls : List Call) : Session := calls.foldl step s

end Session

/-- A record has an owner, a run and a lease time exactly while it is leased. -/
def PoolDir.WellFormed (d : PoolDir) : Prop :=
  if d.state = .leased then d.owner.isSome ∧ d.run.isSome ∧ d.leasedAt.isSome
  else d.owner = none ∧ d.run = none ∧ d.leasedAt = none

namespace PoolDir

variable {d : PoolDir} {o o' : String}

theorem heldBy_iff : d.heldBy o ↔ d.state = .leased ∧ d.owner = some o := decide_eq_true_iff

theorem heldBy_leasedDir {run : String} {now : ℕ} :
    (PoolBook.leasedDir o run now).heldBy o' ↔ o = o' := by
  simp [heldBy_iff, PoolBook.leasedDir]

theorem not_heldBy_of_isFree (h : d.state.isFree) : ¬d.heldBy o := by
  rw [heldBy_iff]
  rintro ⟨hl, -⟩
  simp [hl, DirState.isFree] at h

theorem wellFormed_leasedDir (o run : String) (now : ℕ) :
    (PoolBook.leasedDir o run now).WellFormed := by
  simp [WellFormed, PoolBook.leasedDir]

/-- A directory with no owner that is not leased is well-formed. -/
theorem wellFormed_of_ne (h : d.state ≠ .leased) (ho : d.owner = none) (hr : d.run = none)
    (ha : d.leasedAt = none) : d.WellFormed := by
  simp [WellFormed, h, ho, hr, ha]

theorem WellFormed.of_ne (hd : d.WellFormed) (h : d.state ≠ .leased) :
    d.owner = none ∧ d.run = none ∧ d.leasedAt = none := by
  simpa [WellFormed, h] using hd

end PoolDir

namespace PoolBook

variable {b : PoolBook} {o : String} {id : DirId}

/-- A new pool has fresh directories, in its size. -/
theorem get?_new {taskDirs engineDirs : ℕ} {d : PoolDir}
    (h : (PoolBook.new taskDirs engineDirs).dirs.get? id = some d) :
    d = .fresh ∧ (PoolBook.new taskDirs engineDirs).inSize id := by
  have h := SortedMap.mem_of_mem_ofList (SortedMap.get?_eq_some_iff.1 h)
  simp only [List.mem_append, List.mem_map, List.mem_range'_1, Prod.mk.injEq] at h
  rcases h with ⟨k, hk, rfl, rfl⟩ | ⟨k, hk, rfl, rfl⟩ <;>
  · rw [Nat.one_add, Nat.lt_succ_iff] at hk
    exact ⟨rfl, decide_eq_true hk⟩

theorem held_eq_some (h : b.held o = some id) : ∃ d, b.dirs.get? id = some d ∧ d.heldBy o := by
  obtain ⟨e, he, rfl⟩ := Option.map_eq_some_iff.1 h
  have hheld : e.2.heldBy o := List.find?_some (p := fun e : DirId × PoolDir => e.2.heldBy o) he
  exact ⟨e.2, SortedMap.get?_eq_some_iff.2 (List.mem_of_find?_eq_some he), hheld⟩

theorem held_eq_none (h : b.held o = none) {d : PoolDir} (hd : b.dirs.get? id = some d) :
    ¬d.heldBy o := by
  rw [held, Option.map_eq_none_iff, List.find?_eq_none] at h
  exact h _ (SortedMap.get?_eq_some_iff.1 hd)

/-- A new lease takes a free directory of the class, in the configured size. -/
theorem chosen_spec {cls : PoolClass} {d : PoolDir} (h : b.chosen cls o = some (id, d)) :
    b.dirs.get? id = some d ∧ id.cls = cls ∧ b.inSize id ∧ d.state.isFree := by
  have hmem : (id, d) ∈ b.freeDirs cls := by
    rw [chosen, Option.or_eq_some_iff] at h
    rcases h with h | ⟨-, h⟩
    · exact List.mem_of_find?_eq_some h
    · exact List.argmin_mem h
  simp only [freeDirs, List.mem_filter, decide_eq_true_eq] at hmem
  exact ⟨SortedMap.get?_eq_some_iff.2 hmem.1, hmem.2⟩

/-- A lease of an owner that holds nothing: no directory is free, or a free one of
    the class is now its. -/
theorem lease_of_held_none (cls : PoolClass) (run : String) (now : ℕ) (h : b.held o = none) :
    b.lease cls o run now = (b, .full) ∨
      ∃ id d, b.dirs.get? id = some d ∧ id.cls = cls ∧ b.inSize id ∧ d.state.isFree ∧
        b.lease cls o run now =
          ({ b with
              undo := b.undo.insert o (id, d)
              dirs := b.dirs.insert id (leasedDir o run now) }, .dir id (d.state = .dirty)) := by
  simp only [lease, h]
  cases hc : b.chosen cls o with
  | none => exact .inl rfl
  | some e =>
    obtain ⟨hd, hcls, hsize, hfree⟩ := chosen_spec hc
    exact .inr ⟨e.1, e.2, hd, hcls, hsize, hfree, rfl⟩

/-- Freeing a directory of the pool resets its record. -/
theorem get?_free (hsize : b.inSize id) (state : DirState) (now : Option ℕ) (id' : DirId) :
    (b.free id state now).dirs.get? id' =
      if id' = id then (b.dirs.get? id').map fun d =>
        { d with state, owner := none, run := none, leasedAt := none, lastUsed := now.or d.lastUsed }
      else b.dirs.get? id' := by
  simp only [free, hsize, if_true]
  exact SortedMap.get?_modify (m := b.dirs)

theorem inSize_free (state : DirState) (now : Option ℕ) (id' : DirId) :
    (b.free id state now).inSize id' = b.inSize id' := by
  rw [free]
  split_ifs <;> rfl

end PoolBook

namespace Session

/-- The invariant of the pool's book. -/
structure Inv (s : Session) : Prop where
  wellFormed : ∀ id d, s.book.dirs.get? id = some d → d.WellFormed
  /-- An owner holds at most one directory. -/
  unique : ∀ id id' d d' o, s.book.dirs.get? id = some d → s.book.dirs.get? id' = some d' →
    d.heldBy o → d'.heldBy o → id = id'
  inSize : ∀ id d, s.book.dirs.get? id = some d → s.book.inSize id
  /-- A lease to roll back is that of a directory its owner holds, and was free. -/
  undo : ∀ o id before, s.book.undo.get? o = some (id, before) →
    (∃ d, s.book.dirs.get? id = some d ∧ d.heldBy o) ∧ before.state.isFree ∧ before.WellFormed ∧
      ((s.ended id).any Ended.owes → before.state = .dirty)
  /-- A free directory that is to be wiped is dirty. -/
  owes : ∀ id d, s.book.dirs.get? id = some d → d.state.isFree → (s.ended id).any Ended.owes →
    d.state = .dirty

variable {s : Session}

theorem Inv.undo_eq_none (hs : s.Inv) {o : String} (h : s.book.held o = none) :
    s.book.undo.get? o = none := by
  rw [Option.eq_none_iff_forall_ne_some]
  rintro ⟨id, before⟩ hu
  obtain ⟨⟨d, hd, ho⟩, -⟩ := hs.undo o id before hu
  exact PoolBook.held_eq_none h hd ho

/-- A lease to roll back is not that of a directory its owner does not hold. -/
theorem Inv.undo_ne (hs : s.Inv) {o : String} {e : DirId × PoolDir} {id : DirId} {d : PoolDir}
    (hd : s.book.dirs.get? id = some d) (ho : ¬d.heldBy o) (hu : s.book.undo.get? o = some e) :
    e.1 ≠ id := by
  rintro rfl
  obtain ⟨⟨d', hd', ho'⟩, -⟩ := hs.undo o e.1 e.2 hu
  rw [hd] at hd'
  cases hd'
  exact ho ho'

/-- Every call that changes the book replaces the record `d` of a directory `id` by
    some `d'`. What the new record needs for the invariant: to be well-formed, to be
    held by no owner of another directory, to be what the leases to roll back say, and
    to be dirty when it owes a wipe. -/
theorem Inv.replace (hs : s.Inv) {s' : Session} {id : DirId} {d : PoolDir} (d' : PoolDir)
    (hd : s.book.dirs.get? id = some d)
    (hsize : ∀ id', s'.book.inSize id' = s.book.inSize id')
    (hget : ∀ id', s'.book.dirs.get? id' = if id' = id then some d' else s.book.dirs.get? id')
    (hended : ∀ id', id' ≠ id → s'.ended id' = s.ended id')
    (hwf : d'.WellFormed)
    (hheld : ∀ o, d'.heldBy o →
      ∀ id₁ d₁, s.book.dirs.get? id₁ = some d₁ → d₁.heldBy o → id₁ = id)
    (hundo : ∀ o e, s'.book.undo.get? o = some e →
      (e.1 ≠ id ∧ s.book.undo.get? o = some e) ∨
        (e.1 = id ∧ d'.heldBy o ∧ e.2.state.isFree ∧ e.2.WellFormed ∧
          ((s'.ended id).any Ended.owes → e.2.state = .dirty)))
    (howes : d'.state.isFree → (s'.ended id).any Ended.owes → d'.state = .dirty) : s'.Inv := by
  refine ⟨fun id₁ d₁ h₁ => ?_, fun id₁ id₂ d₁ d₂ o h₁ h₂ ho₁ ho₂ => ?_, fun id₁ d₁ h₁ => ?_,
    fun o id₁ before hu => ?_, fun id₁ d₁ h₁ hf ho => ?_⟩
  · rw [hget] at h₁
    split_ifs at h₁ with h
    · cases h₁
      exact hwf
    · exact hs.wellFormed id₁ d₁ h₁
  · rw [hget] at h₁ h₂
    split_ifs at h₁ h₂ with e₁ e₂ e₂
    · exact e₁.trans e₂.symm
    · cases h₁
      exact e₁.trans (hheld o ho₁ id₂ d₂ h₂ ho₂).symm
    · cases h₂
      exact (hheld o ho₂ id₁ d₁ h₁ ho₁).trans e₂.symm
    · exact hs.unique id₁ id₂ d₁ d₂ o h₁ h₂ ho₁ ho₂
  · rw [hsize]
    rw [hget] at h₁
    split_ifs at h₁ with h
    · exact h ▸ hs.inSize id d hd
    · exact hs.inSize id₁ d₁ h₁
  · -- a record of another directory is as it was; one of this directory is the new one
    rcases hundo o _ hu with ⟨hne, hu'⟩ | ⟨rfl, ho, hrest⟩
    · obtain ⟨⟨d₁, h₁, ho₁⟩, hrest⟩ := hs.undo o id₁ before hu'
      rw [hended id₁ hne]
      exact ⟨⟨d₁, by rw [hget, if_neg hne]; exact h₁, ho₁⟩, hrest⟩
    · exact ⟨⟨d', by rw [hget, if_pos rfl], ho⟩, hrest⟩
  · rw [hget] at h₁
    split_ifs at h₁ with h
    · cases h₁
      exact howes hf (h ▸ ho)
    · exact hs.owes id₁ d₁ h₁ hf (hended id₁ h ▸ ho)

theorem Inv.lease (hs : s.Inv) (cls : PoolClass) (o run : String) (now : ℕ) :
    (s.step (.lease cls o run now)).Inv := by
  cases hh : s.book.held o with
  | some id => simpa [step, PoolBook.lease, hh] using hs
  | none =>
    rcases PoolBook.lease_of_held_none cls run now hh with
      heq | ⟨id, d, hd, -, -, hfree, heq⟩
    · simpa [step, heq] using hs
    simp only [step, heq]
    refine hs.replace _ hd (fun _ => rfl) (fun _ => SortedMap.get?_insert) (fun _ _ => rfl)
      (PoolDir.wellFormed_leasedDir o run now) (fun o' ho' id₁ d₁ h₁ ho₁ => ?_)
      (fun o' e hu => ?_) (fun hf => ?_)
    · rw [PoolDir.heldBy_leasedDir] at ho'
      exact absurd (ho' ▸ ho₁) (PoolBook.held_eq_none hh h₁)
    · rw [SortedMap.get?_insert] at hu
      split_ifs at hu with h
      · cases hu
        exact .inr ⟨rfl, PoolDir.heldBy_leasedDir.2 h.symm, hfree, hs.wellFormed id d hd,
          hs.owes id d hd hfree⟩
      · exact .inl ⟨hs.undo_ne hd (PoolDir.not_heldBy_of_isFree hfree) hu, hu⟩
    · simp [PoolBook.leasedDir, DirState.isFree] at hf

theorem Inv.unlease (hs : s.Inv) (o : String) : (s.step (.unlease o)).Inv := by
  simp only [step, PoolBook.unlease]
  cases hu : s.book.undo.get? o with
  | none => exact hs
  | some e =>
    obtain ⟨id, before⟩ := e
    obtain ⟨⟨d, hd, ho⟩, hfree, hwf, howes⟩ := hs.undo o id before hu
    refine hs.replace before hd (fun _ => rfl) (fun id' => ?_) (fun _ _ => rfl) hwf
      (fun o' ho' => absurd ho' (PoolDir.not_heldBy_of_isFree hfree)) (fun o' e hu' => ?_)
      fun _ => howes
    · rw [SortedMap.get?_modify]
      split_ifs with h
      · rw [h, hd, Option.map_some, if_pos ho]
      · rfl
    · rw [SortedMap.get?_erase] at hu'
      split_ifs at hu' with h
      refine .inl ⟨hs.undo_ne hd (fun ho' => h ?_) hu', hu'⟩
      rw [PoolDir.heldBy_iff] at ho ho'
      exact Option.some.inj (ho'.2.symm.trans ho.2)

/-- Freeing a directory, its owner's lease no longer to be rolled back. -/
theorem Inv.free (hs : s.Inv) {id : DirId} {d : PoolDir} (hd : s.book.dirs.get? id = some d)
    {undo : SortedMap String (DirId × PoolDir)}
    (hundo : ∀ o e, undo.get? o = some e → s.book.undo.get? o = some e ∧ ¬d.heldBy o)
    {state : DirState} (hstate : state.isFree) (now : Option ℕ) {ended : DirId → Option Ended}
    (hended : ∀ id', id' ≠ id → ended id' = s.ended id')
    (howes : (ended id).any Ended.owes → state = .dirty) :
    Session.Inv ⟨({ s.book with undo } : PoolBook).free id state now, ended⟩ := by
  have hne : state ≠ .leased := fun h => by simp [h, DirState.isFree] at hstate
  have hsize : ({ s.book with undo } : PoolBook).inSize id := hs.inSize id d hd
  refine hs.replace
    { d with state, owner := none, run := none, leasedAt := none, lastUsed := now.or d.lastUsed } hd
    (fun id' => PoolBook.inSize_free _ _ _) (fun id' => ?_) hended
    (PoolDir.wellFormed_of_ne hne rfl rfl rfl)
    (fun o ho => absurd ho (PoolDir.not_heldBy_of_isFree hstate)) (fun o e hu => ?_) fun _ => howes
  · rw [PoolBook.get?_free hsize]
    split_ifs with h
    · rw [h]
      simp only [hd, Option.map_some]
    · rfl
  · simp only [PoolBook.free, hsize, if_true] at hu
    obtain ⟨hu', ho⟩ := hundo o e hu
    exact .inl ⟨hs.undo_ne hd ho hu', hu'⟩

theorem Inv.release (hs : s.Inv) (o : String) (how : Released) (now : ℕ) :
    (s.step (.release o how now)).Inv := by
  cases hh : s.book.held o with
  | none => simpa [step, PoolBook.release, hh] using hs
  | some id =>
    obtain ⟨d, hd, ho⟩ := PoolBook.held_eq_some hh
    simp only [step, PoolBook.release, hh]
    refine hs.free hd (fun o' e hu => ?_) (by cases how <;> rfl) _ (fun id' hne => ?_) ?_
    · rw [SortedMap.get?_erase] at hu
      split_ifs at hu with h
      refine ⟨hu, fun ho' => h ?_⟩
      rw [PoolDir.heldBy_iff] at ho ho'
      exact Option.some.inj (ho'.2.symm.trans ho.2)
    · exact if_neg fun h => hne (Option.some.inj h).symm
    · cases how <;> simp [Released.state, Ended.owes]

theorem Inv.freeGone (hs : s.Inv) {id : DirId} {d : PoolDir} (hd : s.book.dirs.get? id = some d) :
    Session.Inv ⟨s.book.freeGone id, vanish s.ended [id]⟩ := by
  have hend : ∀ id', id' ≠ id → vanish s.ended [id] id' = s.ended id' := fun id' hne =>
    if_neg fun h => hne (List.mem_singleton.1 h)
  simp only [PoolBook.freeGone, hd, Option.bind_some]
  cases ho : d.owner with
  | none =>
    refine hs.free hd (fun o e hu => ⟨hu, fun h => ?_⟩) rfl none hend fun _ => rfl
    rw [PoolDir.heldBy_iff, ho] at h
    exact absurd h.2 (by simp)
  | some owner =>
    refine hs.free hd (fun o e hu => ?_) rfl none hend fun _ => rfl
    rw [SortedMap.get?_erase] at hu
    split_ifs at hu with h
    refine ⟨hu, fun h' => h ?_⟩
    rw [PoolDir.heldBy_iff, ho] at h'
    exact (Option.some.inj h'.2).symm

theorem Inv.isSome_freeGone (hs : s.Inv) {id id' : DirId} {d : PoolDir}
    (hd : s.book.dirs.get? id = some d) :
    ((s.book.freeGone id).dirs.get? id').isSome = (s.book.dirs.get? id').isSome := by
  have hsize := hs.inSize id d hd
  simp only [PoolBook.freeGone, hd, Option.bind_some]
  cases d.owner <;>
  · rw [PoolBook.get?_free (by exact hsize)]
    split_ifs <;> simp

theorem Inv.foldl_freeGone (ids : List DirId) :
    ∀ {s : Session}, s.Inv → (∀ id ∈ ids, (s.book.dirs.get? id).isSome) →
      Session.Inv ⟨ids.foldl PoolBook.freeGone s.book, vanish s.ended ids⟩ := by
  induction ids with
  | nil =>
    intro s hs _
    rwa [show vanish s.ended [] = s.ended from funext fun _ => if_neg List.not_mem_nil]
  | cons id ids ih =>
    intro s hs hmem
    obtain ⟨d, hd⟩ := Option.isSome_iff_exists.1 (hmem id List.mem_cons_self)
    have h := ih (hs.freeGone hd) fun id' hid' => by
      rw [hs.isSome_freeGone hd]
      exact hmem id' (List.mem_cons_of_mem _ hid')
    have hend : vanish (vanish s.ended [id]) ids = vanish s.ended (id :: ids) := by
      funext id'
      simp only [vanish, List.mem_cons, List.not_mem_nil, or_false]
      split_ifs <;> simp_all
    rw [List.foldl_cons, ← hend]
    exact h

theorem Inv.freeWhere (hs : s.Inv) (gone : PoolDir → Bool) :
    Session.Inv ⟨(s.book.freeWhere gone).1, vanish s.ended (s.book.freeWhere gone).2⟩ := by
  refine Inv.foldl_freeGone _ hs fun id hid => ?_
  obtain ⟨e, he, rfl⟩ := List.mem_map.1 hid
  rw [SortedMap.get?_eq_some_iff.2 (List.mem_of_mem_filter he)]
  rfl

theorem Inv.beginWipe (hs : s.Inv) (id : DirId) (now idleSecs : ℕ) :
    (s.step (.beginWipe id now idleSecs)).Inv := by
  simp only [step, PoolBook.beginWipe]
  cases hd : s.book.dirs.get? id with
  | none => exact hs
  | some d =>
    simp only
    split_ifs with hidle
    · simp only [PoolBook.isIdle, decide_eq_true_eq] at hidle
      have hne : d.state ≠ .leased := by rcases hidle.1 with h | h <;> simp [h]
      have hnot : ∀ o, ¬d.heldBy o := fun o h => hne (PoolDir.heldBy_iff.1 h).1
      obtain ⟨ho, hr, ha⟩ := (hs.wellFormed id d hd).of_ne hne
      refine hs.replace _ hd (fun _ => rfl) (fun _ => SortedMap.get?_insert) (fun _ _ => rfl)
        (PoolDir.wellFormed_of_ne (by simp) ho hr ha) (fun o h => ?_)
        (fun o e hu => .inl ⟨hs.undo_ne hd (hnot o) hu, hu⟩) (fun h => ?_)
      · exact absurd (PoolDir.heldBy_iff.1 h).1 (by simp)
      · simp [DirState.isFree] at h
    · exact hs

theorem Inv.endWipe (hs : s.Inv) (id : DirId) : (s.step (.endWipe id)).Inv := by
  simp only [step, PoolBook.endWipe]
  cases hd : s.book.dirs.get? id with
  | none =>
    have hdirs : (s.book.dirs.modify id fun d =>
        if d.state = .wiping then { d with state := .fresh } else d) = s.book.dirs :=
      SortedMap.ext_get? fun id' => by
        rw [SortedMap.get?_modify]
        split_ifs with h
        · rw [h, hd, Option.map_none]
        · rfl
    simpa [hdirs] using hs
  | some d =>
    by_cases hw : d.state = .wiping
    · -- a directory that is being wiped is nobody's
      have hnot : ∀ o, ¬d.heldBy o := fun o h => by
        have := (PoolDir.heldBy_iff.1 h).1
        simp [hw] at this
      obtain ⟨ho, hr, ha⟩ := (hs.wellFormed id d hd).of_ne (by simp [hw])
      refine hs.replace { d with state := .fresh } hd (fun _ => rfl) (fun id' => ?_)
        (fun id' hne => if_neg fun h => hne h.1) (PoolDir.wellFormed_of_ne (by simp) ho hr ha)
        (fun o h => absurd (PoolDir.heldBy_iff.1 h).1 (by simp))
        (fun o e hu => .inl ⟨hs.undo_ne hd (hnot o) hu, hu⟩) (fun _ h => ?_)
      · rw [SortedMap.get?_modify]
        split_ifs with h
        · rw [h, hd, Option.map_some, if_pos hw]
        · rfl
      · -- once wiped it owes no wipe
        simp [hw, Ended.owes] at h
    · have hdirs : (s.book.dirs.modify id fun d =>
          if d.state = .wiping then { d with state := .fresh } else d) = s.book.dirs :=
        SortedMap.ext_get? fun id' => by
          rw [SortedMap.get?_modify]
          split_ifs with h
          · rw [h, hd, Option.map_some, if_neg hw]
          · rfl
      simpa [hdirs, hw] using hs

theorem Inv.step (hs : s.Inv) (c : Call) : (s.step c).Inv := by
  cases c with
  | lease cls owner run now => exact hs.lease cls owner run now
  | unlease owner => exact hs.unlease owner
  | release owner how now => exact hs.release owner how now
  | reconcile «exists» leasedBefore =>
    exact hs.freeWhere fun d =>
      d.leasedAt.getD 0 < leasedBefore ∧ d.owner.any fun o => !«exists» o
  | forgetRuns known => exact hs.freeWhere fun d => d.run.all fun run => !known run
  | beginWipe id now idleSecs => exact hs.beginWipe id now idleSecs
  | endWipe id => exact hs.endWipe id

theorem Inv.run (hs : s.Inv) (calls : List Call) : (s.run calls).Inv := by
  induction calls generalizing s with
  | nil => exact hs
  | cons c calls ih => exact ih (hs.step c)

theorem Inv.new (taskDirs engineDirs : ℕ) : (Session.new taskDirs engineDirs).Inv := by
  have hfree : ∀ o, ¬PoolDir.fresh.heldBy o := fun o => PoolDir.not_heldBy_of_isFree rfl
  refine ⟨fun id d h => ?_, fun id id' d d' o h _ ho => ?_, fun id d h => (PoolBook.get?_new h).2,
    fun o id before h => ?_, fun id d _ _ h => ?_⟩
  · rw [(PoolBook.get?_new h).1]
    exact PoolDir.wellFormed_of_ne (by simp [PoolDir.fresh]) rfl rfl rfl
  · exact absurd ((PoolBook.get?_new h).1 ▸ ho) (hfree o)
  · exact absurd h (by simp [Session.new, PoolBook.new, SortedMap.get?_empty])
  · simp [Session.new] at h

/-- Rolling a new lease back restores the book. -/
theorem Inv.unlease_lease (hs : s.Inv) (cls : PoolClass) {o : String} (run : String) (now : ℕ)
    (h : s.book.held o = none) : (s.book.lease cls o run now).1.unlease o = s.book := by
  have hu := hs.undo_eq_none h
  rcases PoolBook.lease_of_held_none cls run now h with heq | ⟨id, d, hd, -, -, -, heq⟩
  · simp only [heq, PoolBook.unlease, hu]
  · have hdirs : ((s.book.dirs.insert id (PoolBook.leasedDir o run now)).modify id fun d' =>
        if d'.heldBy o then d else d') = s.book.dirs := by
      refine SortedMap.ext_get? fun id' => ?_
      rw [SortedMap.get?_modify, SortedMap.get?_insert]
      split_ifs with h'
      · rw [Option.map_some, if_pos (PoolDir.heldBy_leasedDir.2 rfl), h', hd]
      · rfl
    have hundo : (s.book.undo.insert o (id, d)).erase o = s.book.undo := by
      refine SortedMap.ext_get? fun o' => ?_
      rw [SortedMap.get?_erase, SortedMap.get?_insert]
      split_ifs with h'
      · rw [h', hu]
      · rfl
    simp only [heq, PoolBook.unlease, SortedMap.get?_insert_self, hdirs, hundo]

end Session

/-- After any calls of a new pool: an owner holds at most one directory; a record has
    an owner, a run and a lease time exactly while leased; a lease hands out neither a
    directory leased to another owner nor one being wiped; a new lease is of the class
    asked for and inside the configured size, and wipes first a directory whose last
    lease ended without a clean and that was not wiped since; rolled back at once, it
    leaves the book as it was. -/
theorem lease_run (taskDirs engineDirs : ℕ) (calls : List Call) :
    let s := (Session.new taskDirs engineDirs).run calls
    (∀ o id id' d d', s.book.dirs.get? id = some d → s.book.dirs.get? id' = some d' →
      d.heldBy o → d'.heldBy o → id = id') ∧
    (∀ id d, s.book.dirs.get? id = some d →
      if d.state = .leased then d.owner.isSome ∧ d.run.isSome ∧ d.leasedAt.isSome
      else d.owner = none ∧ d.run = none ∧ d.leasedAt = none) ∧
    ∀ cls owner run now,
      (∀ id wipeFirst, (s.book.lease cls owner run now).2 = .dir id wipeFirst →
        ∃ d, s.book.dirs.get? id = some d ∧ d.state ≠ .wiping ∧
          (d.state = .leased → d.owner = some owner) ∧
          (s.book.held owner = none → id.cls = cls ∧ s.book.inSize id ∧
            ((s.ended id).any Ended.owes → wipeFirst))) ∧
      (s.book.held owner = none → (s.book.lease cls owner run now).1.unlease owner = s.book) := by
  intro s
  have hs : s.Inv := (Session.Inv.new taskDirs engineDirs).run calls
  refine ⟨fun o id id' d d' => hs.unique id id' d d' o, fun id d => hs.wellFormed id d,
    fun cls owner run now => ⟨fun id wipeFirst hl => ?_, hs.unlease_lease cls run now⟩⟩
  cases hh : s.book.held owner with
  | some id₁ =>
    simp only [PoolBook.lease, hh, Lease.dir.injEq] at hl
    obtain ⟨rfl, -⟩ := hl
    obtain ⟨d, hd, ho⟩ := PoolBook.held_eq_some hh
    rw [PoolDir.heldBy_iff] at ho
    exact ⟨d, hd, by simp [ho.1], fun _ => ho.2, by simp⟩
  | none =>
    rcases PoolBook.lease_of_held_none cls run now hh with heq | ⟨id₁, d, hd, hcls, hsize, hfree, heq⟩
    · simp [heq] at hl
    · simp only [heq, Lease.dir.injEq] at hl
      obtain ⟨rfl, rfl⟩ := hl
      refine ⟨d, hd, fun h => ?_, fun h => ?_, fun _ => ⟨hcls, hsize, fun ho => ?_⟩⟩
      · simp [h, DirState.isFree] at hfree
      · simp [h, DirState.isFree] at hfree
      · exact decide_eq_true (hs.owes id₁ d hd hfree ho)

end Anthrex.TargetPool
