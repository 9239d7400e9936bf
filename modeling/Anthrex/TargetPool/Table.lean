import Anthrex.TargetPool.Ledger

/-!
# The pool's table on disk

`leases.json` (`run/target_pool/book_file.rs`): the form a book is saved in
(`PoolBook.toFile`) and the book it is read back as (`PoolBook.fromFile`), and what a
restart does with it (`upkeep.rs`): leases end without a clean, and nothing else
(`PoolBook.Ends`).
-/

namespace Anthrex.TargetPool

/-- One directory in `leases.json`. -/
structure LeasedDir where
  cls : PoolClass
  k : ℕ
  state : DirState
  owner : Option String
  run : Option String
  leasedAt : Option ℕ
  lastOwner : Option String
  lastUsed : Option ℕ
  deriving DecidableEq, Repr

/-- `leases.json`. -/
structure LeasesFile where
  version : ℕ
  dirs : List LeasedDir
  deriving DecidableEq, Repr

def leasesVersion : ℕ := 1

/-- The entry of the directory `id`; one being wiped is saved as dirty. -/
def PoolDir.toEntry (id : DirId) (d : PoolDir) : LeasedDir :=
  let leased := d.state = .leased
  { cls := id.cls
    k := id.k
    state := if d.state = .wiping then .dirty else d.state
    owner := d.owner.filter fun _ => leased
    run := d.run.filter fun _ => leased
    leasedAt := d.leasedAt.filter fun _ => leased
    lastOwner := d.lastOwner
    lastUsed := d.lastUsed }

namespace PoolBook

/-- The book as `leases.json` holds it. -/
def toFile (b : PoolBook) : LeasesFile :=
  ⟨leasesVersion, b.dirs.entries.map fun e => e.2.toEntry e.1⟩

/-- The directory an entry records: none when its number is zero, or when it is free
    and past the size; a leased one without an owner is dirty. -/
def ofEntry (b : PoolBook) (e : LeasedDir) : Option (DirId × PoolDir) :=
  let id : DirId := ⟨e.cls, e.k⟩
  let leased := e.state = .leased ∧ e.owner.isSome
  if e.k = 0 then none
  else if ¬leased ∧ ¬b.inSize id then none
  else some (id,
    { state := match e.state with
        | .wiping => .dirty
        | .leased => if leased then .leased else .dirty
        | state => state
      owner := e.owner.filter fun _ => leased
      run := e.run.filter fun _ => leased
      leasedAt := e.leasedAt.filter fun _ => leased
      lastOwner := e.lastOwner
      lastUsed := e.lastUsed })

/-- The book `file` records, of `taskDirs` and `engineDirs` directories. -/
def fromFile (file : LeasesFile) (taskDirs engineDirs : ℕ) : PoolBook :=
  let b := PoolBook.new taskDirs engineDirs
  { b with dirs := (file.dirs.filterMap b.ofEntry).foldl (fun m e => m.insert e.1 e.2) b.dirs }

/-- The book a table on disk loads as: a missing one is an empty pool. -/
def load (saved : Option LeasesFile) (taskDirs engineDirs : ℕ) : PoolBook :=
  match saved with
  | none => PoolBook.new taskDirs engineDirs
  | some file => fromFile file taskDirs engineDirs

end PoolBook

/-! ## Reloading the book -/

/-- The invariant of a book, whatever its past. -/
def PoolBook.Inv (b : PoolBook) : Prop := Session.Inv ⟨b, fun _ => none⟩

theorem Session.Inv.book {s : Session} (hs : s.Inv) : s.book.Inv where
  wellFormed := hs.wellFormed
  unique := hs.unique
  inSize := hs.inSize
  undo o id before hu :=
    let ⟨h, hf, hwf, _⟩ := hs.undo o id before hu
    ⟨h, hf, hwf, by simp⟩
  owes _ _ _ _ h := by simp at h

namespace PoolBook

variable {b : PoolBook} {id : DirId} {d : PoolDir} {o : String}

theorem Inv.new (taskDirs engineDirs : ℕ) : (PoolBook.new taskDirs engineDirs).Inv :=
  Session.Inv.new taskDirs engineDirs

theorem Inv.lease (hb : b.Inv) (cls : PoolClass) (o run : String) (now : ℕ) :
    (b.lease cls o run now).1.Inv := Session.Inv.lease hb cls o run now

theorem Inv.release (hb : b.Inv) (o : String) (how : Released) (now : ℕ) :
    (b.release o how now).1.Inv := (Session.Inv.release hb o how now).book

theorem Inv.freeWhere (hb : b.Inv) (gone : PoolDir → Bool) : (b.freeWhere gone).1.Inv :=
  (Session.Inv.freeWhere hb gone).book

theorem Inv.freeGone (hb : b.Inv) (hd : b.dirs.get? id = some d) : (b.freeGone id).Inv :=
  (Session.Inv.freeGone hb hd).book

/-- The holder of a directory is the one of its record. -/
theorem Inv.held_eq (hb : b.Inv) (hd : b.dirs.get? id = some d) (ho : d.heldBy o) :
    b.held o = some id := by
  cases hh : b.held o with
  | none => exact absurd ho (held_eq_none hh hd)
  | some id' =>
    obtain ⟨d', hd', ho'⟩ := held_eq_some hh
    rw [hb.unique id' id d' d o hd' hd ho' ho]

/-- A directory as it is read back from the table. -/
def reload (d : PoolDir) : PoolDir :=
  { d with state := if d.state = .wiping then .dirty else d.state }

theorem heldBy_reload : (reload d).heldBy o ↔ d.heldBy o := by
  rw [PoolDir.heldBy_iff, PoolDir.heldBy_iff, reload]
  by_cases h : d.state = .wiping <;> simp [h]

theorem wellFormed_reload (hd : d.WellFormed) : (reload d).WellFormed := by
  by_cases h : d.state = .wiping
  · obtain ⟨ho, hr, ha⟩ := hd.of_ne (by simp [h])
    exact PoolDir.wellFormed_of_ne (by simp [reload, h]) ho hr ha
  · simpa only [reload, h, if_false] using hd

theorem ofEntry_toEntry (hd : d.WellFormed) (hsize : b.inSize id) :
    b.ofEntry (d.toEntry id) = some (id, reload d) := by
  have hk : id.k ≠ 0 := by
    rw [inSize, decide_eq_true_eq] at hsize
    omega
  obtain ⟨state, owner, run, leasedAt, lastOwner, lastUsed⟩ := d
  have htrue : ∀ {α : Type} (x : Option α), x.filter (fun _ => true) = x := fun x => by
    cases x <;> rfl
  cases state <;> simp_all [ofEntry, PoolDir.toEntry, PoolDir.WellFormed, reload]

/-- A saved book reads back directory by directory. -/
theorem get?_fromFile_toFile (hb : b.Inv) (id : DirId) :
    (fromFile b.toFile b.taskDirs b.engineDirs).dirs.get? id =
      ((b.dirs.get? id).map reload).or ((PoolBook.new b.taskDirs b.engineDirs).dirs.get? id) := by
  have hentries : b.toFile.dirs.filterMap (PoolBook.new b.taskDirs b.engineDirs).ofEntry =
      (b.dirs.mapVal fun _ => reload).entries := by
    show _ = b.dirs.entries.map fun e => (e.1, reload e.2)
    rw [toFile, List.filterMap_map, ← List.filterMap_eq_map]
    refine List.filterMap_congr fun e hmem => ?_
    have hd := SortedMap.get?_eq_some_iff.2 hmem
    exact ofEntry_toEntry (hb.wellFormed e.1 e.2 hd) (hb.inSize e.1 e.2 hd)
  simp only [fromFile, hentries]
  rw [SortedMap.get?_foldl_insert ((SortedMap.sorted _).imp fun h => h.ne),
    ← SortedMap.get?_mapVal (f := fun _ => reload)]
  rfl

theorem get?_fromFile_cases (hb : b.Inv)
    (h : (fromFile b.toFile b.taskDirs b.engineDirs).dirs.get? id = some d) :
    (∃ d₀, b.dirs.get? id = some d₀ ∧ d = reload d₀) ∨
      b.dirs.get? id = none ∧ (PoolBook.new b.taskDirs b.engineDirs).dirs.get? id = some d := by
  rw [get?_fromFile_toFile hb, Option.or_eq_some_iff] at h
  rcases h with h | ⟨h, h'⟩
  · obtain ⟨d₀, hd₀, rfl⟩ := Option.map_eq_some_iff.1 h
    exact .inl ⟨d₀, hd₀, rfl⟩
  · exact .inr ⟨Option.map_eq_none_iff.1 h, h'⟩

/-- A lease read back is one of the book. -/
theorem held_of_fromFile (hb : b.Inv)
    (h : (fromFile b.toFile b.taskDirs b.engineDirs).dirs.get? id = some d) (ho : d.heldBy o) :
    ∃ d₀, b.dirs.get? id = some d₀ ∧ d₀.heldBy o := by
  rcases get?_fromFile_cases hb h with ⟨d₀, hd₀, rfl⟩ | ⟨-, h⟩
  · exact ⟨d₀, hd₀, heldBy_reload.1 ho⟩
  · rw [(get?_new h).1] at ho
    exact absurd ho (PoolDir.not_heldBy_of_isFree rfl)

/-- A book read back from its table: the leases and the free directories are those of
    the book. -/
theorem Inv.fromFile_toFile (hb : b.Inv) :
    (fromFile b.toFile b.taskDirs b.engineDirs).Inv := by
  refine ⟨fun id d h => ?_, fun id id' d d' o h h' ho ho' => ?_, fun id d h => ?_,
    fun o id before h => ?_, fun _ _ _ _ h => by simp at h⟩
  · rcases get?_fromFile_cases hb h with ⟨d₀, hd₀, rfl⟩ | ⟨-, h⟩
    · exact wellFormed_reload (hb.wellFormed id d₀ hd₀)
    · rw [(get?_new h).1]
      exact PoolDir.wellFormed_of_ne (by simp [PoolDir.fresh]) rfl rfl rfl
  · obtain ⟨d₀, hd₀, ho₀⟩ := held_of_fromFile hb h ho
    obtain ⟨d₁, hd₁, ho₁⟩ := held_of_fromFile hb h' ho'
    exact hb.unique id id' d₀ d₁ o hd₀ hd₁ ho₀ ho₁
  · rcases get?_fromFile_cases hb h with ⟨d₀, hd₀, -⟩ | ⟨-, h⟩
    · exact hb.inSize id d₀ hd₀
    · exact (get?_new h).2
  · simp [fromFile, PoolBook.new, SortedMap.get?_empty] at h

/-! ## Ended leases -/

/-- The configured size of a book. -/
def size (b : PoolBook) : ℕ × ℕ := (b.taskDirs, b.engineDirs)

theorem size_free (state : DirState) (now : Option ℕ) : (b.free id state now).size = b.size := by
  rw [free]
  split_ifs <;> rfl

theorem size_lease (cls : PoolClass) (o run : String) (now : ℕ) :
    (b.lease cls o run now).1.size = b.size := by
  rw [lease]
  cases b.held o with
  | some id => rfl
  | none =>
    simp only
    cases b.chosen cls o <;> rfl

theorem size_release (o : String) (how : Released) (now : ℕ) :
    (b.release o how now).1.size = b.size := by
  rw [release]
  cases b.held o with
  | none => rfl
  | some id => exact size_free _ _

theorem size_freeGone (b : PoolBook) (id : DirId) : (b.freeGone id).size = b.size := by
  rw [freeGone, size_free]
  cases (b.dirs.get? id).bind (·.owner) <;> rfl

theorem size_freeWhere (gone : PoolDir → Bool) : (b.freeWhere gone).1.size = b.size := by
  simp only [freeWhere]
  generalize List.map _ _ = ids
  induction ids generalizing b with
  | nil => rfl
  | cons id ids ih => rw [List.foldl_cons, ih, size_freeGone]

theorem get?_release (how : Released) (now : ℕ) (hb : b.Inv) (h : b.held o = some id)
    (id' : DirId) :
    (b.release o how now).1.dirs.get? id' =
      if id' = id then (b.dirs.get? id').map fun d =>
        { d with
          state := how.state, owner := none, run := none, leasedAt := none, lastUsed := some now }
      else b.dirs.get? id' := by
  obtain ⟨d, hd, -⟩ := held_eq_some h
  simp only [release, h]
  exact get?_free (b := { b with undo := b.undo.erase o }) (hb.inSize id d hd) _ _ _

/-- Between `b` and `b'`, leases ended without a clean, and nothing else. -/
structure Ends (b b' : PoolBook) : Prop where
  none : ∀ id, b'.dirs.get? id = none → b.dirs.get? id = none
  some : ∀ id d, b'.dirs.get? id = some d → b.dirs.get? id = some d ∨ d.state = .dirty

theorem Ends.refl (b : PoolBook) : b.Ends b := ⟨fun _ h => h, fun _ _ h => .inl h⟩

theorem Ends.trans {b' b'' : PoolBook} (h : b.Ends b') (h' : b'.Ends b'') : b.Ends b'' where
  none id hn := h.none id (h'.none id hn)
  some id d hd := (h'.some id d hd).elim (h.some id d) .inr

theorem ends_freeGone (hb : b.Inv) (hd : b.dirs.get? id = some d) : b.Ends (b.freeGone id) := by
  have hsize := hb.inSize id d hd
  have hget : ∀ id', (b.freeGone id).dirs.get? id' =
      if id' = id then (b.dirs.get? id').map fun d =>
        { d with state := .dirty, owner := .none, run := .none, leasedAt := .none }
      else b.dirs.get? id' := by
    intro id'
    rw [freeGone, hd, Option.bind_some]
    cases d.owner <;> exact get?_free (by exact hsize) _ _ _
  refine ⟨fun id' h => ?_, fun id' d' h => ?_⟩ <;> rw [hget] at h <;> split_ifs at h with he
  · exact Option.map_eq_none_iff.1 h
  · exact h
  · obtain ⟨d₀, -, rfl⟩ := Option.map_eq_some_iff.1 h
    exact .inr rfl
  · exact .inl h

theorem ends_freeWhere (hb : b.Inv) (gone : PoolDir → Bool) : b.Ends (b.freeWhere gone).1 := by
  have hmem : ∀ id ∈ (b.dirs.entries.filter fun e => e.2.state = .leased ∧ gone e.2).map (·.1),
      (b.dirs.get? id).isSome := by
    intro id hid
    obtain ⟨e, he, rfl⟩ := List.mem_map.1 hid
    rw [SortedMap.get?_eq_some_iff.2 (List.mem_of_mem_filter he)]
    rfl
  simp only [freeWhere]
  generalize List.map _ _ = ids at hmem
  induction ids generalizing b with
  | nil => exact .refl b
  | cons id ids ih =>
    obtain ⟨d, hd⟩ := Option.isSome_iff_exists.1 (hmem id List.mem_cons_self)
    have hends := ends_freeGone hb hd
    refine hends.trans (ih (hb.freeGone hd) fun id' hid' => ?_)
    have hne := mt (hends.none id') (Option.isSome_iff_ne_none.1
      (hmem id' (List.mem_cons_of_mem _ hid')))
    exact Option.isSome_iff_ne_none.2 hne

end PoolBook

end Anthrex.TargetPool
