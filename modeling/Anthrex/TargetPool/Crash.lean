import Anthrex.TargetPool.Table

/-!
# Leases across a stop of the daemon

The pool's I/O layer (`run/target_pool/mod.rs`, `release_clean.rs`, `upkeep.rs`) over
its book: the calls `lease_why` and `release` of the checkouts of one repository, cut
where they let go of the table's lock, so that calls of different checkouts interleave,
and a stop of the daemon, after which it restarts from the table saved last.

A lease is saved before its directory is prepared, that is, wiped when the lease says
so. The saved table then shows the directory as leased, no longer as dirty: when the
daemon stops in between, the holder's next lease finds its directory in the table and
does not wipe it. `dirty_output_after_stop` is such a run. Short of it, a lease never
returns a directory with what another checkout built in it (`given_own_output`): the
daemon must not stop, and the checkout make no other call, while a lease that wipes
first is in the saved table and its wipe is still due.
-/

namespace Anthrex.TargetPool

/-! ## Calls in flight -/

/-- A call of a checkout past its first locked part, with the directory it is about. -/
inductive Flight
  /-- `lease_why` with its lease saved, before the directory is prepared. -/
  | leasing (owner : String) (id : DirId) (wipeFirst : Bool)
  /-- `lease_why` whose directory could not be prepared, before it is freed. -/
  | unprepared (owner : String) (id : DirId)
  /-- `release` before the directory's lock. -/
  | releasing (owner : String) (id : DirId)
  /-- `release` holding the directory's lock, cleaned or not as `how` says. -/
  | cleaned (owner : String) (id : DirId) (how : Released)
  deriving DecidableEq, Repr

def Flight.owner : Flight → String
  | leasing o _ _ | unprepared o _ | releasing o _ | cleaned o _ _ => o

def Flight.dir : Flight → DirId
  | leasing _ id _ | unprepared _ id | releasing _ id | cleaned _ id _ => id

/-- The call holds the lock of its directory between steps. -/
def Flight.locks : Flight → Bool
  | cleaned .. => true
  | leasing .. | unprepared .. | releasing .. => false

/-- A directory returned to `owner`, with the checkouts that used it since it was last
    wiped or cleaned. -/
structure Given where
  owner : String
  dir : DirId
  users : List String
  deriving DecidableEq, Repr

/-- The pool of one repository: the daemon's memory, its calls in flight, the table on
    disk, the directories (who used each since its last wipe or clean) and, for the
    record, the wipes that are due and the directories returned so far. -/
structure Pool where
  taskDirs : ℕ
  engineDirs : ℕ
  book : PoolBook
  fellBack : List String
  flights : List Flight
  saved : Option LeasesFile
  users : DirId → List String
  /-- The directories leased to be wiped first, and neither wiped nor cleaned since. -/
  due : List DirId
  given : List Given

inductive Step
  /-- `lease_why` of a checkout, up to the table's lock. -/
  | lease (cls : PoolClass) (owner run : String) (now : ℕ) (saves : Bool)
  /-- `lease_why` under the directory's lock. -/
  | prepare (owner : String) (id : DirId) (wipeFirst prepares : Bool)
  /-- `lease_why` giving up a directory it could not prepare. -/
  | giveUp (owner : String) (id : DirId) (now : ℕ) (saves : Bool)
  /-- `release` of a checkout, up to the directory's lock. -/
  | release (owner : String)
  /-- `release` cleaning or wiping the directory, or neither. -/
  | clean (owner : String) (id : DirId) (how : Released)
  /-- `release` ending the lease. -/
  | free (owner : String) (id : DirId) (how : Released) (now : ℕ) (saves : Bool)
  /-- The daemon stops, and restarts at `started` from the saved table. -/
  | restart («exists» known : String → Bool) (started : ℕ) (saves : Bool)

namespace Pool

def new (taskDirs engineDirs : ℕ) : Pool where
  taskDirs := taskDirs
  engineDirs := engineDirs
  book := .new taskDirs engineDirs
  fellBack := []
  flights := []
  saved := none
  users _ := []
  due := []
  given := []

/-- Saves the table, unless that fails. -/
def save (p : Pool) (saves : Bool) : Pool :=
  if saves then { p with saved := some p.book.toFile } else p

/-- The directory `id` is wiped or cleaned. -/
def wipe (p : Pool) (id : DirId) : Pool :=
  { p with users := Function.update p.users id [], due := p.due.filter (· ≠ id) }

/-- Whether a call holds the lock of `id`. -/
def locked (p : Pool) (id : DirId) : Bool := p.flights.any fun f => f.locks ∧ f.dir = id

/-- The checkout falls back to its own build directory until it is released. -/
def fallBack (p : Pool) (owner : String) : Pool := { p with fellBack := owner :: p.fellBack }

/-- The part of `lease_why` under the table's lock: nothing for a checkout that fell
    back; else the book's lease and, when it is a new one, its save, rolled back when
    it fails. -/
def lease (p : Pool) (cls : PoolClass) (owner run : String) (now : ℕ) (saves : Bool) : Pool :=
  if owner ∈ p.fellBack then p
  else
    match p.book.lease cls owner run now with
    | (_, .full) => p.fallBack owner
    | (book, .dir id wipeFirst) =>
      let isNew := book.dirs ≠ p.book.dirs
      if isNew ∧ !saves then { p with book := book.unlease owner }.fallBack owner
      else
        let p := { p with book, flights := .leasing owner id wipeFirst :: p.flights }
        let p := if wipeFirst then { p with due := id :: p.due } else p
        p.save isNew

/-- The part of `lease_why` under the directory's lock: the lease stands only while
    the book still says so. -/
def prepare (p : Pool) (owner : String) (id : DirId) (wipeFirst prepares : Bool) : Pool :=
  let p := { p with flights := p.flights.erase (.leasing owner id wipeFirst) }
  if (p.book.dirs.get? id).any (·.heldBy owner) then
    if prepares then
      let p := if wipeFirst then p.wipe id else p
      { p with
        given := ⟨owner, id, p.users id⟩ :: p.given
        users := Function.update p.users id (owner :: p.users id) }
    else { p with flights := .unprepared owner id :: p.flights }
  else p.fallBack owner

/-- One step; `none` when the call is not in flight, or another holds its lock. -/
def step (p : Pool) : Step → Option Pool
  | .lease cls owner run now saves => some (p.lease cls owner run now saves)
  | .prepare owner id wipeFirst prepares =>
    if .leasing owner id wipeFirst ∈ p.flights ∧ ¬p.locked id then
      some (p.prepare owner id wipeFirst prepares)
    else none
  | .giveUp owner id now saves =>
    if .unprepared owner id ∈ p.flights then
      let p := { p with
        flights := p.flights.erase (.unprepared owner id)
        book := (p.book.release owner .notCleaned now).1 }
      some ((p.save saves).fallBack owner)
    else none
  | .release owner =>
    let p := { p with fellBack := p.fellBack.filter (· ≠ owner) }
    match p.book.held owner with
    | none => some p
    | some id => some { p with flights := .releasing owner id :: p.flights }
  | .clean owner id how =>
    if .releasing owner id ∈ p.flights ∧ ¬p.locked id then
      let p := { p with
        flights := .cleaned owner id how :: p.flights.erase (.releasing owner id) }
      some (if how = .notCleaned then p else p.wipe id)
    else none
  | .free owner id how now saves =>
    if .cleaned owner id how ∈ p.flights then
      let p := { p with
        flights := p.flights.erase (.cleaned owner id how)
        book := (p.book.release owner how now).1 }
      some (p.save saves)
    else none
  | .restart «exists» known started saves =>
    let book := PoolBook.load p.saved p.taskDirs p.engineDirs
    let book := (book.reconcile «exists» started).1
    let book := (book.forgetRuns known).1
    some ({ p with book, fellBack := [], flights := [] }.save saves)

/-- Whether the saved table shows `id` as leased. -/
def savedLeased (p : Pool) (id : DirId) : Bool :=
  p.saved.any fun file => file.dirs.any fun e => e.state = .leased ∧ (⟨e.cls, e.k⟩ : DirId) = id

/-- A checkout starts a call only when it has none in flight, and the daemon stops only
    when no wipe is due of a directory the saved table shows as leased. -/
def orderly (p : Pool) : Step → Bool
  | .lease _ owner _ _ _ | .release owner => ∀ f ∈ p.flights, f.owner ≠ owner
  | .restart .. => ∀ id ∈ p.due, ¬p.savedLeased id
  | _ => true

def run (p : Pool) (steps : List Step) : Option Pool := steps.foldlM step p

/-- Every step of a run is orderly. -/
def orderlyRun : Pool → List Step → Bool
  | _, [] => true
  | p, s :: l => p.orderly s ∧ (p.step s).all fun p' => p'.orderlyRun l

end Pool

/-- `/wt/a` leaves its output in the only directory, `/wt/b` leases it to be wiped, and
    the daemon stops before the wipe: `/wt/b` finds the directory in the table and is
    given it with the output of `/wt/a`. -/
def stopBeforeWipe : List Step :=
  let id : DirId := ⟨.task, 1⟩
  [.lease .task "/wt/a" "r1" 1 true, .prepare "/wt/a" id false true,
    .release "/wt/a", .clean "/wt/a" id .notCleaned, .free "/wt/a" id .notCleaned 2 true,
    .lease .task "/wt/b" "r1" 3 true,
    .restart (fun _ => true) (fun _ => true) 4 true,
    .lease .task "/wt/b" "r1" 5 true, .prepare "/wt/b" id false true]

theorem dirty_output_after_stop :
    ¬∀ taskDirs engineDirs steps p, (Pool.new taskDirs engineDirs).run steps = some p →
      ∀ g ∈ p.given, ∀ u ∈ g.users, u = g.owner := by
  intro h
  have hrun : ((Pool.new 1 0).run stopBeforeWipe).map (·.given.head?) =
      some (some ⟨"/wt/b", ⟨.task, 1⟩, ["/wt/a"]⟩) := by decide
  obtain ⟨p, hp, hg⟩ := Option.map_eq_some_iff.1 hrun
  have hmem := List.mem_of_mem_head? hg
  exact absurd (h 1 0 stopBeforeWipe p hp _ hmem "/wt/a" List.mem_cons_self) (by decide)

/-! ## Orderly runs -/

/-- What a book says of its directories is true: one it has free and not dirty, or
    does not know, holds no output, and a leased one whose wipe is not due holds only
    its owner's. -/
structure Tidy (b : PoolBook) (users : DirId → List String) (due : List DirId) : Prop where
  unknown : ∀ id, b.dirs.get? id = none → users id = [] ∧ id ∉ due
  free : ∀ id d, b.dirs.get? id = some d → d.state = .fresh ∨ d.state = .clean →
    users id = [] ∧ id ∉ due
  leased : ∀ id d o, b.dirs.get? id = some d → d.heldBy o → id ∉ due → ∀ u ∈ users id, u = o

namespace Tidy

variable {b b' : PoolBook} {users : DirId → List String} {due : List DirId}

theorem of_ends (h : Tidy b users due) (he : b.Ends b') : Tidy b' users due where
  unknown id hn := h.unknown id (he.none id hn)
  free id d hd hs := by
    rcases he.some id d hd with hd | hd
    · exact h.free id d hd hs
    · simp [hd] at hs
  leased id d o hd ho := by
    rcases he.some id d hd with hd | hd
    · exact h.leased id d o hd ho
    · rw [PoolDir.heldBy_iff, hd] at ho
      exact absurd ho.1 (by simp)

/-- A wipe leaves every book true. -/
theorem wipe (h : Tidy b users due) (id : DirId) :
    Tidy b (Function.update users id []) (due.filter (· ≠ id)) := by
  have hwiped : ∀ id', users id' = [] ∧ id' ∉ due →
      Function.update users id [] id' = [] ∧ id' ∉ due.filter (· ≠ id) := fun id' ⟨hu, hd⟩ => by
    refine ⟨?_, fun hmem => hd (List.mem_of_mem_filter hmem)⟩
    by_cases he : id' = id
    · rw [he, Function.update_self]
    · rw [Function.update_of_ne he, hu]
  refine ⟨fun id' hn => hwiped id' (h.unknown id' hn), fun id' d hd hs => hwiped id' (h.free id' d hd hs),
    fun id' d o hd ho hdue u hu => ?_⟩
  by_cases he : id' = id
  · rw [he, Function.update_self] at hu
    exact absurd hu List.not_mem_nil
  · rw [Function.update_of_ne he] at hu
    refine h.leased id' d o hd ho (fun hmem => hdue ?_) u hu
    exact List.mem_filter.2 ⟨hmem, by simpa using he⟩

/-- The holder of a directory uses it. -/
theorem use (h : Tidy b users due) {id : DirId} {d : PoolDir} {o : String}
    (hd : b.dirs.get? id = some d) (ho : d.heldBy o) (hu : ∀ u ∈ users id, u = o) :
    Tidy b (Function.update users id (o :: users id)) due := by
  have hne : ∀ id', users id' = [] ∧ id' ∉ due → id' ≠ id →
      Function.update users id (o :: users id) id' = [] ∧ id' ∉ due := fun id' h he => by
    rwa [Function.update_of_ne he]
  refine ⟨fun id' hn => hne id' (h.unknown id' hn) ?_, fun id' d' hd' hs =>
    hne id' (h.free id' d' hd' hs) ?_, fun id' d' o' hd' ho' hdue u hu' => ?_⟩
  · rintro rfl
    rw [hd] at hn
    cases hn
  · rintro rfl
    rw [hd] at hd'
    cases hd'
    simp [(PoolDir.heldBy_iff.1 ho).1] at hs
  · by_cases he : id' = id
    · subst he
      rw [hd] at hd'
      cases hd'
      rw [PoolDir.heldBy_iff] at ho ho'
      rw [Function.update_self, List.mem_cons] at hu'
      exact (hu'.elim id (hu u)).trans (Option.some.inj (ho.2.symm.trans ho'.2))
    · rw [Function.update_of_ne he] at hu'
      exact h.leased id' d' o' hd' ho' hdue u hu'

end Tidy

namespace Pool

variable {p : Pool}

/-- The saved table is that of `b`: it may be older than the book, but has every lease
    of it. -/
structure Backed (p : Pool) (b : PoolBook) : Prop where
  inv : b.Inv
  size : b.size = (p.taskDirs, p.engineDirs)
  holds : p.saved = some b.toFile ∨ p.saved = none ∧ b = .new p.taskDirs p.engineDirs
  tidy : Tidy b p.users p.due
  leased : ∀ id d o, p.book.dirs.get? id = some d → d.heldBy o →
    ∃ d', b.dirs.get? id = some d' ∧ d'.heldBy o

/-- The invariant of an orderly run. -/
structure Inv (p : Pool) : Prop where
  inv : p.book.Inv
  size : p.book.size = (p.taskDirs, p.engineDirs)
  tidy : Tidy p.book p.users p.due
  backed : ∃ b, p.Backed b
  /-- A call in flight is about the directory its checkout holds. -/
  flights : ∀ f ∈ p.flights, ∃ d, p.book.dirs.get? f.dir = some d ∧ d.heldBy f.owner
  owners : (p.flights.map Flight.owner).Nodup
  leasing : ∀ o id, .leasing o id false ∈ p.flights → id ∉ p.due
  cleaned : ∀ o id how, .cleaned o id how ∈ p.flights → how ≠ .notCleaned →
    p.users id = [] ∧ id ∉ p.due
  /-- A wipe that is due of a leased directory is that of a call in flight. -/
  due : ∀ id ∈ p.due, ∀ d o, p.book.dirs.get? id = some d → d.heldBy o →
    ∃ f ∈ p.flights, f.owner = o
  given : ∀ g ∈ p.given, ∀ u ∈ g.users, u = g.owner

theorem Inv.save (hp : p.Inv) (saves : Bool) : (p.save saves).Inv := by
  cases saves with
  | false => exact hp
  | true =>
    refine ⟨hp.inv, hp.size, hp.tidy, ⟨p.book, hp.inv, hp.size, .inl rfl, hp.tidy,
      fun id d o hd ho => ⟨d, hd, ho⟩⟩, hp.flights, hp.owners, hp.leasing, hp.cleaned, hp.due,
      hp.given⟩

theorem Inv.fallBack (hp : p.Inv) (owner : String) : (p.fallBack owner).Inv :=
  let ⟨b, hb⟩ := hp.backed
  ⟨hp.inv, hp.size, hp.tidy, ⟨b, hb.inv, hb.size, hb.holds, hb.tidy, hb.leased⟩, hp.flights,
    hp.owners, hp.leasing, hp.cleaned, hp.due, hp.given⟩

theorem Inv.wipe (hp : p.Inv) (id : DirId) : (p.wipe id).Inv := by
  have hsub : ∀ id' ∈ (p.wipe id).due, id' ∈ p.due := fun _ h => List.mem_of_mem_filter h
  obtain ⟨b, hb⟩ := hp.backed
  refine ⟨hp.inv, hp.size, hp.tidy.wipe id, ⟨b, hb.inv, hb.size, hb.holds, hb.tidy.wipe id,
    hb.leased⟩, hp.flights, hp.owners, fun o id' h hd => hp.leasing o id' h (hsub id' hd),
    fun o id' how h hh => ?_, fun id' h => hp.due id' (hsub id' h), hp.given⟩
  obtain ⟨hu, hd⟩ := hp.cleaned o id' how h hh
  refine ⟨?_, fun h => hd (hsub id' h)⟩
  by_cases he : id' = id
  · exact he ▸ Function.update_self ..
  · exact (Function.update_of_ne he ..).trans hu

/-- A checkout with a call in flight has no other, and holds no other directory. -/
theorem Inv.eq_of_owner (hp : p.Inv) {f f' : Flight} (hf : f ∈ p.flights) (hf' : f' ∈ p.flights)
    (h : f.owner = f'.owner) : f = f' :=
  List.inj_on_of_nodup_map hp.owners hf hf' h

theorem Inv.dir_eq (hp : p.Inv) {f : Flight} (hf : f ∈ p.flights) {id : DirId} {d : PoolDir}
    (hd : p.book.dirs.get? id = some d) (ho : d.heldBy f.owner) : id = f.dir := by
  obtain ⟨d', hd', ho'⟩ := hp.flights f hf
  exact hp.inv.unique id f.dir d d' f.owner hd hd' ho ho'

/-- The other calls in flight are of other checkouts, about other directories. -/
theorem Inv.dir_ne (hp : p.Inv) {f f' : Flight} (hf : f ∈ p.flights)
    (hf' : f' ∈ p.flights.erase f) : f' ∈ p.flights ∧ f'.owner ≠ f.owner ∧ f'.dir ≠ f.dir := by
  have hnodup : p.flights.Nodup := .of_map _ hp.owners
  obtain ⟨hne, hmem⟩ := (List.Nodup.mem_erase_iff hnodup).1 hf'
  have howner : f'.owner ≠ f.owner := fun h => hne (hp.eq_of_owner hmem hf h)
  refine ⟨hmem, howner, fun h => howner ?_⟩
  obtain ⟨d, hd, ho⟩ := hp.flights f hf
  obtain ⟨d', hd', ho'⟩ := hp.flights f' hmem
  rw [h, hd] at hd'
  cases hd'
  rw [PoolDir.heldBy_iff] at ho ho'
  exact Option.some.inj (ho'.2.symm.trans ho.2)

/-- A call in flight ends, when no wipe is due of its directory. -/
theorem Inv.remove (hp : p.Inv) {f : Flight} (hdue : f.dir ∉ p.due) :
    Inv { p with flights := p.flights.erase f } := by
  obtain ⟨b, hb⟩ := hp.backed
  have hsub : ∀ f' ∈ p.flights.erase f, f' ∈ p.flights := fun f' h => List.mem_of_mem_erase h
  refine ⟨hp.inv, hp.size, hp.tidy, ⟨b, hb.inv, hb.size, hb.holds, hb.tidy, hb.leased⟩,
    fun f' h => hp.flights f' (hsub f' h), hp.owners.sublist (List.erase_sublist.map _),
    fun o id h => hp.leasing o id (hsub _ h), fun o id how h => hp.cleaned o id how (hsub _ h),
    fun id h d o hd ho => ?_, hp.given⟩
  obtain ⟨f', hf', rfl⟩ := hp.due id h d o hd ho
  refine ⟨f', (List.mem_erase_of_ne fun he => hdue ?_).2 hf', rfl⟩
  rwa [← he, ← hp.dir_eq hf' hd ho]

/-- A call in flight begins: it is about the directory its checkout holds. -/
theorem Inv.begin (hp : p.Inv) {f : Flight} (hnone : ∀ f' ∈ p.flights, f'.owner ≠ f.owner)
    (hheld : ∃ d, p.book.dirs.get? f.dir = some d ∧ d.heldBy f.owner)
    (hleasing : ∀ o id, f = .leasing o id false → id ∉ p.due)
    (hcleaned : ∀ o id how, f = .cleaned o id how → how ≠ .notCleaned →
      p.users id = [] ∧ id ∉ p.due) : Inv { p with flights := f :: p.flights } := by
  obtain ⟨b, hb⟩ := hp.backed
  refine ⟨hp.inv, hp.size, hp.tidy, ⟨b, hb.inv, hb.size, hb.holds, hb.tidy, hb.leased⟩,
    List.forall_mem_cons.2 ⟨hheld, hp.flights⟩, ?_, fun o id h => ?_, fun o id how h => ?_,
    fun id h d o hd ho => ?_, hp.given⟩
  · refine List.nodup_cons.2 ⟨fun h => ?_, hp.owners⟩
    obtain ⟨f', hf', he⟩ := List.mem_map.1 h
    exact hnone f' hf' he
  · rcases List.mem_cons.1 h with h | h
    · exact hleasing o id h.symm
    · exact hp.leasing o id h
  · rcases List.mem_cons.1 h with h | h
    · exact hcleaned o id how h.symm
    · exact hp.cleaned o id how h
  · obtain ⟨f', hf', rfl⟩ := hp.due id h d o hd ho
    exact ⟨f', List.mem_cons_of_mem _ hf', rfl⟩

/-- A call in flight goes on: the next part of it is about the same directory, is not
    that of a lease, and has cleaned the directory when it says so. -/
theorem Inv.next (hp : p.Inv) {f f' : Flight} (hf : f ∈ p.flights) (howner : f'.owner = f.owner)
    (hdir : f'.dir = f.dir) (hleasing : ∀ o id, f' ≠ .leasing o id false)
    (hcleaned : ∀ o id how, f' = .cleaned o id how → how ≠ .notCleaned →
      p.users id = [] ∧ id ∉ p.due) : Inv { p with flights := f' :: p.flights.erase f } := by
  obtain ⟨b, hb⟩ := hp.backed
  have hsub : ∀ g ∈ p.flights.erase f, g ∈ p.flights := fun g h => List.mem_of_mem_erase h
  refine ⟨hp.inv, hp.size, hp.tidy, ⟨b, hb.inv, hb.size, hb.holds, hb.tidy, hb.leased⟩, ?_, ?_,
    fun o id h => ?_, fun o id how h => ?_, fun id h d o hd ho => ?_, hp.given⟩
  · refine List.forall_mem_cons.2 ⟨?_, fun g h => hp.flights g (hsub g h)⟩
    rw [howner, hdir]
    exact hp.flights f hf
  · refine List.nodup_cons.2 ⟨fun h => ?_, hp.owners.sublist (List.erase_sublist.map _)⟩
    obtain ⟨g, hg, he⟩ := List.mem_map.1 h
    exact (hp.dir_ne hf hg).2.1 (he.trans howner)
  · rcases List.mem_cons.1 h with h | h
    · exact absurd h.symm (hleasing o id)
    · exact hp.leasing o id (hsub _ h)
  · rcases List.mem_cons.1 h with h | h
    · exact hcleaned o id how h.symm
    · exact hp.cleaned o id how (hsub _ h)
  · obtain ⟨g, hg, rfl⟩ := hp.due id h d o hd ho
    by_cases he : g = f
    · exact ⟨f', List.mem_cons_self, howner.trans (congrArg _ he.symm)⟩
    · exact ⟨g, List.mem_cons_of_mem _ ((List.mem_erase_of_ne he).2 hg), rfl⟩

/-- The holder of a directory is given it, and uses it. -/
theorem Inv.give (hp : p.Inv) {id : DirId} {d : PoolDir} {o : String}
    (hd : p.book.dirs.get? id = some d) (ho : d.heldBy o)
    (hnone : ∀ f ∈ p.flights, f.dir ≠ id) (hu : ∀ u ∈ p.users id, u = o) :
    Inv { p with
      given := ⟨o, id, p.users id⟩ :: p.given
      users := Function.update p.users id (o :: p.users id) } := by
  obtain ⟨b, hb⟩ := hp.backed
  obtain ⟨d', hd', ho'⟩ := hb.leased id d o hd ho
  refine ⟨hp.inv, hp.size, hp.tidy.use hd ho hu, ⟨b, hb.inv, hb.size, hb.holds,
    hb.tidy.use hd' ho' hu, hb.leased⟩, hp.flights, hp.owners, hp.leasing,
    fun o' id' how h hh => ?_, hp.due, List.forall_mem_cons.2 ⟨hu, hp.given⟩⟩
  have hne : id' ≠ id := hnone _ h
  simp only [Function.update_of_ne hne]
  exact hp.cleaned o' id' how h hh

/-- A call in flight ends with the lease of its checkout. -/
theorem Inv.endLease (hp : p.Inv) {f : Flight} (hf : f ∈ p.flights) (how : Released) (now : ℕ)
    (hhow : how ≠ .notCleaned → p.users f.dir = [] ∧ f.dir ∉ p.due) :
    Inv { p with
      flights := p.flights.erase f
      book := (p.book.release f.owner how now).1 } := by
  obtain ⟨b, hb⟩ := hp.backed
  obtain ⟨d, hd, ho⟩ := hp.flights f hf
  have hget := PoolBook.get?_release how now hp.inv (hp.inv.held_eq hd ho)
  -- the release changes one directory, and leaves it free
  have hnone : ∀ id, (p.book.release f.owner how now).1.dirs.get? id = none →
      p.book.dirs.get? id = none := by
    intro id h
    rw [hget] at h
    split_ifs at h with he
    · exact Option.map_eq_none_iff.1 h
    · exact h
  have hleased : ∀ id d o, (p.book.release f.owner how now).1.dirs.get? id = some d →
      d.heldBy o → id ≠ f.dir ∧ p.book.dirs.get? id = some d := by
    intro id d' o h ho'
    rw [hget] at h
    split_ifs at h with he
    · obtain ⟨d₀, -, rfl⟩ := Option.map_eq_some_iff.1 h
      exact absurd ho' (PoolDir.not_heldBy_of_isFree (by cases how <;> rfl))
    · exact ⟨he, h⟩
  refine ⟨hp.inv.release f.owner how now, (PoolBook.size_release _ _ _).trans hp.size,
    ⟨fun id h => hp.tidy.unknown id (hnone id h), fun id d' h hs => ?_, fun id d' o h ho' =>
      hp.tidy.leased id d' o (hleased id d' o h ho').2 ho'⟩,
    ⟨b, hb.inv, hb.size, hb.holds, hb.tidy, fun id d' o h ho' =>
      hb.leased id d' o (hleased id d' o h ho').2 ho'⟩, fun f' h => ?_,
    hp.owners.sublist (List.erase_sublist.map _),
    fun o id h => hp.leasing o id (List.mem_of_mem_erase h),
    fun o id how' h => hp.cleaned o id how' (List.mem_of_mem_erase h),
    fun id h d' o h' ho' => ?_, hp.given⟩
  · rw [hget] at h
    split_ifs at h with he
    · obtain ⟨d₀, -, rfl⟩ := Option.map_eq_some_iff.1 h
      rw [he]
      -- it is free and clean only if it was cleaned, when nobody used it
      refine hhow fun hn => ?_
      simp [hn, Released.state] at hs
    · exact hp.tidy.free id d' h hs
  · obtain ⟨hmem, -, hne⟩ := hp.dir_ne hf h
    simp only [hget, if_neg hne]
    exact hp.flights f' hmem
  · -- a wipe that is due belongs to another flight, whose directory is another one
    obtain ⟨hne, h'⟩ := hleased id d' o h' ho'
    obtain ⟨f', hf', rfl⟩ := hp.due id h d' o h' ho'
    refine ⟨f', (List.mem_erase_of_ne fun he => hne ?_).2 hf', rfl⟩
    rw [hp.dir_eq hf' h' ho', he]

/-- A new lease of a free directory, saved: its wipe is due when the directory is
    dirty. -/
theorem Inv.newLease (hp : p.Inv) (cls : PoolClass) {o : String} (run : String) (now : ℕ)
    {id : DirId} {d : PoolDir} {book : PoolBook} (hnone : ∀ f ∈ p.flights, f.owner ≠ o)
    (hd : p.book.dirs.get? id = some d) (hfree : d.state.isFree)
    (hbook : book = (p.book.lease cls o run now).1)
    (hdirs : book.dirs = p.book.dirs.insert id (PoolBook.leasedDir o run now)) :
    Inv { p with
      book
      flights := .leasing o id (d.state = .dirty) :: p.flights
      due := if d.state = .dirty then id :: p.due else p.due
      saved := some book.toFile } := by
  have hinv : book.Inv := hbook ▸ hp.inv.lease cls o run now
  have hsize : book.size = (p.taskDirs, p.engineDirs) :=
    hbook ▸ (PoolBook.size_lease cls o run now).trans hp.size
  have hget : ∀ id', book.dirs.get? id' =
      if id' = id then some (PoolBook.leasedDir o run now) else p.book.dirs.get? id' :=
    fun id' => hdirs ▸ SortedMap.get?_insert
  have hdue : ∀ id', id' ≠ id →
      (id' ∈ (if d.state = .dirty then id :: p.due else p.due) ↔ id' ∈ p.due) := by
    intro id' hne
    split_ifs <;> simp [hne]
  -- A directory that is not to be wiped first is fresh or clean, hence empty.
  have hempty : d.state ≠ .dirty → p.users id = [] ∧ id ∉ p.due := fun h =>
    hp.tidy.free id d hd (by cases hs : d.state <;> simp_all [DirState.isFree])
  have hflight : ∀ f ∈ p.flights, f.dir ≠ id := by
    rintro f hf rfl
    obtain ⟨d', hd', ho'⟩ := hp.flights f hf
    rw [hd] at hd'
    cases hd'
    exact PoolDir.not_heldBy_of_isFree hfree ho'
  have htidy : Tidy book p.users (if d.state = .dirty then id :: p.due else p.due) := by
    refine ⟨fun id' h => ?_, fun id' d' h hs => ?_, fun id' d' o' h ho' hdue' => ?_⟩ <;>
      rw [hget] at h <;> split_ifs at h with he
    · rw [hdue id' he]
      exact hp.tidy.unknown id' h
    · cases h
      simp [PoolBook.leasedDir] at hs
    · rw [hdue id' he]
      exact hp.tidy.free id' d' h hs
    · intro u hu
      have hclean : d.state ≠ .dirty := fun hs => hdue' (by simp [hs, he])
      rw [he, (hempty hclean).1] at hu
      exact absurd hu List.not_mem_nil
    · exact hp.tidy.leased id' d' o' h ho' (mt (hdue id' he).2 hdue')
  refine ⟨hinv, hsize, htidy, ⟨book, hinv, hsize, .inl rfl, htidy, fun _ d' _ h ho => ⟨d', h, ho⟩⟩,
    List.forall_mem_cons.2 ⟨⟨_, (hget id).trans (if_pos rfl), PoolDir.heldBy_leasedDir.2 rfl⟩,
      fun f hf => ?_⟩, List.nodup_cons.2 ⟨fun h => ?_, hp.owners⟩, fun o' id' h => ?_,
    fun o' id' how h hh => ?_, fun id' h d' o' h' ho' => ?_, hp.given⟩
  · simp only [hget, if_neg (hflight f hf)]
    exact hp.flights f hf
  · obtain ⟨f, hf, he⟩ := List.mem_map.1 h
    exact hnone f hf he
  · rcases List.mem_cons.1 h with h | h
    · obtain ⟨-, rfl, hs⟩ := Flight.leasing.inj h
      have hs : d.state ≠ .dirty := of_decide_eq_false hs.symm
      simpa only [if_neg hs] using (hempty hs).2
    · rw [hdue id' (hflight _ h)]
      exact hp.leasing o' id' h
  · have h := (List.mem_cons.1 h).resolve_left (by simp)
    rw [hdue id' (hflight _ h)]
    exact hp.cleaned o' id' how h hh
  · rw [hget] at h'
    split_ifs at h' with he
    · cases h'
      exact ⟨_, List.mem_cons_self, PoolDir.heldBy_leasedDir.1 ho'⟩
    · obtain ⟨f, hf, rfl⟩ := hp.due id' ((hdue id' he).1 h) d' o' h' ho'
      exact ⟨f, List.mem_cons_of_mem _ hf, rfl⟩

theorem Inv.lease (hp : p.Inv) (cls : PoolClass) {o : String} (run : String) (now : ℕ)
    (saves : Bool) (hnone : ∀ f ∈ p.flights, f.owner ≠ o) : (p.lease cls o run now saves).Inv := by
  rw [Pool.lease]
  split_ifs with hfell
  · exact hp
  cases hh : p.book.held o with
  | some id =>
    -- The holder's re-lease: nothing is saved, and no wipe of the directory is due.
    obtain ⟨d, hd, ho⟩ := PoolBook.held_eq_some hh
    have hdue : id ∉ p.due := fun h =>
      let ⟨f, hf, he⟩ := hp.due id h d o hd ho
      hnone f hf he
    simp only [PoolBook.lease, hh, ne_eq, not_true_eq_false, false_and, if_false, decide_false,
      Pool.save, Bool.false_eq_true]
    refine hp.begin hnone ⟨d, hd, ho⟩ (fun o' id' h => ?_) (by simp)
    obtain ⟨-, rfl, -⟩ := Flight.leasing.inj h
    exact hdue
  | none =>
    rcases PoolBook.lease_of_held_none cls run now hh with
      heq | ⟨id, d, hd, -, -, hfree, heq⟩
    · simp only [heq]
      exact hp.fallBack o
    have hundo := Session.Inv.unlease_lease hp.inv cls run now hh
    have hnew := hp.newLease cls run now hnone hd hfree rfl
      (by rw [heq])
    simp only [heq] at hundo hnew ⊢
    have hne : p.book.dirs.insert id (PoolBook.leasedDir o run now) ≠ p.book.dirs := fun h => by
      have hget := congrArg (·.get? id) h
      simp only [SortedMap.get?_insert_self, hd, Option.some.injEq] at hget
      rw [← hget] at hfree
      cases hfree
    cases saves with
    | false =>
      simp only [ne_eq, hne, not_false_eq_true, Bool.not_false, and_self, if_true, hundo]
      exact hp.fallBack o
    | true =>
      simp only [ne_eq, hne, not_false_eq_true, Bool.not_true, Bool.false_eq_true, and_false,
        if_false, decide_true, Pool.save, if_true, decide_eq_true_eq]
      split_ifs at hnew ⊢ <;> exact hnew

theorem Inv.prepare (hp : p.Inv) {o : String} {id : DirId} {wipeFirst : Bool}
    (hf : .leasing o id wipeFirst ∈ p.flights) (prepares : Bool) :
    (p.prepare o id wipeFirst prepares).Inv := by
  obtain ⟨d, hd, ho⟩ := hp.flights _ hf
  have hstill : (p.book.dirs.get? id).any (·.heldBy o) := by
    rw [show p.book.dirs.get? id = some d from hd]
    exact ho
  have hne : ∀ f ∈ p.flights.erase (.leasing o id wipeFirst), f.dir ≠ id := fun f h =>
    (hp.dir_ne hf h).2.2
  simp only [Pool.prepare, hstill, if_true]
  cases prepares with
  | false => exact hp.next hf rfl rfl (by simp) (by simp)
  | true =>
    cases wipeFirst with
    | false =>
      have hdue := hp.leasing o id hf
      exact (hp.remove (f := .leasing o id false) hdue).give hd ho hne
        (hp.tidy.leased id d o hd ho hdue)
    | true =>
      have hdue : id ∉ (p.wipe id).due := fun h => by simpa using List.of_mem_filter h
      refine ((hp.wipe id).remove (f := .leasing o id true) hdue).give hd ho hne fun u hu => ?_
      simp [Pool.wipe] at hu

/-- What a restart reads from the table: a book of the saved leases, of which what it
    says is true. -/
theorem Backed.load {b : PoolBook} (hb : p.Backed b) :
    let book := PoolBook.load p.saved p.taskDirs p.engineDirs
    book.Inv ∧ book.size = (p.taskDirs, p.engineDirs) ∧ Tidy book p.users p.due ∧
      ∀ id d o, book.dirs.get? id = some d → d.heldBy o →
        ∃ d', b.dirs.get? id = some d' ∧ d'.heldBy o := by
  rcases hb.holds with hs | ⟨hs, hnew⟩
  · obtain ⟨ht, he⟩ := Prod.mk.inj hb.size
    simp only [hs, PoolBook.load, ← ht, ← he]
    refine ⟨hb.inv.fromFile_toFile, rfl, ⟨fun id h => ?_, fun id d h hf => ?_,
      fun id d o h ho hdue => ?_⟩, fun id d o => PoolBook.held_of_fromFile hb.inv⟩
    · rw [PoolBook.get?_fromFile_toFile hb.inv, Option.or_eq_none_iff, Option.map_eq_none_iff] at h
      exact hb.tidy.unknown id h.1
    · rcases PoolBook.get?_fromFile_cases hb.inv h with ⟨d₀, hd₀, rfl⟩ | ⟨hn, -⟩
      · refine hb.tidy.free id d₀ hd₀ ?_
        by_cases hw : d₀.state = .wiping
        · simp [PoolBook.reload, hw] at hf
        · simpa [PoolBook.reload, hw] using hf
      · exact hb.tidy.unknown id hn
    · obtain ⟨d₀, hd₀, ho₀⟩ := PoolBook.held_of_fromFile hb.inv h ho
      exact hb.tidy.leased id d₀ o hd₀ ho₀ hdue
  · simp only [hs, PoolBook.load, ← hnew]
    exact ⟨hb.inv, hb.size, hb.tidy, fun id d o h ho => ⟨d, h, ho⟩⟩

/-- A lease of the saved table is one it shows. -/
theorem Backed.savedLeased {b : PoolBook} (hb : p.Backed b) {id : DirId} {d : PoolDir} {o : String}
    (hd : b.dirs.get? id = some d) (ho : d.heldBy o) : p.savedLeased id := by
  rw [PoolDir.heldBy_iff] at ho
  rcases hb.holds with hs | ⟨-, rfl⟩
  · rw [Pool.savedLeased, hs, Option.any_some, List.any_eq_true]
    refine ⟨d.toEntry id, List.mem_map.2 ⟨_, SortedMap.get?_eq_some_iff.1 hd, rfl⟩, ?_⟩
    simp [PoolDir.toEntry, ho.1]
  · rw [(PoolBook.get?_new hd).1] at ho
    exact absurd ho.1 (by simp [PoolDir.fresh])

theorem Inv.restart (hp : p.Inv) («exists» known : String → Bool) (started : ℕ)
    (hdue : ∀ id ∈ p.due, ¬p.savedLeased id) :
    Inv { p with
      book := (((PoolBook.load p.saved p.taskDirs p.engineDirs).reconcile «exists»
        started).1.forgetRuns known).1
      fellBack := []
      flights := [] } := by
  obtain ⟨b, hb⟩ := hp.backed
  obtain ⟨hinv, hsize, htidy, hleased⟩ := hb.load
  generalize PoolBook.load p.saved p.taskDirs p.engineDirs = book at hinv hsize htidy hleased ⊢
  have hinv₁ : (book.reconcile «exists» started).1.Inv := hinv.freeWhere _
  have hinv₂ : ((book.reconcile «exists» started).1.forgetRuns known).1.Inv := hinv₁.freeWhere _
  have hsize₁ : (book.reconcile «exists» started).1.size = book.size := PoolBook.size_freeWhere _
  have hsize₂ : ((book.reconcile «exists» started).1.forgetRuns known).1.size = book.size :=
    (PoolBook.size_freeWhere _).trans hsize₁
  have hends : book.Ends ((book.reconcile «exists» started).1.forgetRuns known).1 :=
    (PoolBook.ends_freeWhere hinv _).trans (PoolBook.ends_freeWhere hinv₁ _)
  have hheld : ∀ id d o, ((book.reconcile «exists» started).1.forgetRuns known).1.dirs.get? id =
      some d → d.heldBy o → ∃ d', b.dirs.get? id = some d' ∧ d'.heldBy o := by
    intro id d o hd ho
    rcases hends.some id d hd with hd | hs
    · exact hleased id d o hd ho
    · rw [PoolDir.heldBy_iff, hs] at ho
      exact absurd ho.1 (by simp)
  refine ⟨hinv₂, hsize₂.trans hsize, htidy.of_ends hends, ⟨b, hb.inv, hb.size, hb.holds, hb.tidy,
    hheld⟩, by simp, by simp, by simp, by simp, fun id h d o hd ho => ?_, hp.given⟩
  obtain ⟨d', hd', ho'⟩ := hheld id d o hd ho
  exact absurd (hb.savedLeased hd' ho') (hdue id h)

/-- An orderly step keeps the invariant. -/
theorem Inv.step (hp : p.Inv) {s : Step} (hs : p.orderly s) {p' : Pool} (h : p.step s = some p') :
    p'.Inv := by
  cases s with
  | lease cls owner run now saves =>
    rw [Pool.step, Option.some.injEq] at h
    exact h ▸ hp.lease cls run now saves (by simpa [orderly] using hs)
  | prepare owner id wipeFirst prepares =>
    simp only [Pool.step, Option.ite_none_right_eq_some, Option.some.injEq] at h
    exact h.2 ▸ hp.prepare h.1.1 prepares
  | giveUp owner id now saves =>
    simp only [Pool.step, Option.ite_none_right_eq_some, Option.some.injEq] at h
    obtain ⟨hf, rfl⟩ := h
    -- a lease that is given up never cleaned its directory
    exact ((hp.endLease hf .notCleaned now (by simp)).save saves).fallBack owner
  | release owner =>
    have hp' : Inv { p with fellBack := p.fellBack.filter (· ≠ owner) } :=
      let ⟨b, hb⟩ := hp.backed
      ⟨hp.inv, hp.size, hp.tidy, ⟨b, hb.inv, hb.size, hb.holds, hb.tidy, hb.leased⟩, hp.flights,
        hp.owners, hp.leasing, hp.cleaned, hp.due, hp.given⟩
    simp only [Pool.step] at h
    split at h
    case h_1 hh =>
      exact Option.some.inj h ▸ hp'
    case h_2 id hh =>
      obtain ⟨d, hd, ho⟩ := PoolBook.held_eq_some hh
      rw [← Option.some.inj h]
      have hnone : ∀ f ∈ p.flights, f.owner ≠ owner := by simpa [orderly] using hs
      exact hp'.begin (f := .releasing owner id) hnone ⟨d, hd, ho⟩ (by simp) (by simp)
  | clean owner id how =>
    simp only [Pool.step, Option.ite_none_right_eq_some, Option.some.injEq] at h
    obtain ⟨⟨hf, -⟩, rfl⟩ := h
    split_ifs with hh
    · refine hp.next hf rfl rfl (by simp) fun o id' how' he hn => ?_
      cases he
      exact absurd hh hn
    · refine (hp.wipe id).next hf rfl rfl (by simp) fun o id' how' he _ => ?_
      cases he
      simp [Pool.wipe]
  | free owner id how now saves =>
    simp only [Pool.step, Option.ite_none_right_eq_some, Option.some.injEq] at h
    obtain ⟨hf, rfl⟩ := h
    exact (hp.endLease hf how now (hp.cleaned owner id how hf)).save saves
  | restart «exists» known started saves =>
    simp only [Pool.step, Option.some.injEq] at h
    exact h ▸ (hp.restart «exists» known started (by simpa [orderly] using hs)).save saves

theorem Inv.run {steps : List Step} (hp : p.Inv) (hs : p.orderlyRun steps) {p' : Pool}
    (h : p.run steps = some p') : p'.Inv := by
  induction steps generalizing p with
  | nil => exact Option.some.inj h ▸ hp
  | cons s steps ih =>
    rw [Pool.run, List.foldlM_cons, Option.bind_eq_bind, Option.bind_eq_some_iff] at h
    obtain ⟨p₁, hstep, hrest⟩ := h
    rw [orderlyRun, hstep, Option.all_some, decide_eq_true_eq] at hs
    exact ih (hp.step hs.1 hstep) hs.2 hrest

theorem Inv.new (taskDirs engineDirs : ℕ) : (Pool.new taskDirs engineDirs).Inv := by
  have hinv := PoolBook.Inv.new taskDirs engineDirs
  have htidy : Tidy (PoolBook.new taskDirs engineDirs) (fun _ => []) [] :=
    ⟨by simp, by simp, by simp⟩
  exact ⟨hinv, rfl, htidy, ⟨_, hinv, rfl, .inr ⟨rfl, rfl⟩, htidy, fun _ d _ h ho => ⟨d, h, ho⟩⟩,
    by simp [Pool.new], by simp [Pool.new], by simp [Pool.new], by simp [Pool.new],
    by simp [Pool.new], by simp [Pool.new]⟩

end Pool

/-- In a run whose steps are orderly, a lease returns a directory in which no other
    checkout left output since it was last wiped or cleaned. -/
theorem given_own_output (taskDirs engineDirs : ℕ) (steps : List Step) (p : Pool)
    (hrun : (Pool.new taskDirs engineDirs).run steps = some p)
    (horderly : (Pool.new taskDirs engineDirs).orderlyRun steps) :
    ∀ g ∈ p.given, ∀ u ∈ g.users, u = g.owner :=
  ((Pool.Inv.new taskDirs engineDirs).run horderly hrun).given

/-- `/wt/b` leases the directory `/wt/a` left its output in, and the daemon stops once
    it is wiped. -/
def stopAfterWipe : List Step :=
  let id : DirId := ⟨.task, 1⟩
  [.lease .task "/wt/a" "r1" 1 true, .prepare "/wt/a" id false true,
    .release "/wt/a", .clean "/wt/a" id .notCleaned, .free "/wt/a" id .notCleaned 2 true,
    .lease .task "/wt/b" "r1" 3 true, .prepare "/wt/b" id true true,
    .restart (fun _ => true) (fun _ => true) 4 true,
    .lease .task "/wt/b" "r1" 5 true, .prepare "/wt/b" id false true]

theorem given_own_output_stopAfterWipe :
    ∃ p, (Pool.new 1 0).run stopAfterWipe = some p ∧
      p.given.map (fun g => (g.owner, g.users)) =
        [("/wt/b", ["/wt/b"]), ("/wt/b", []), ("/wt/a", [])] ∧
      ∀ g ∈ p.given, ∀ u ∈ g.users, u = g.owner := by
  have hrun : ((Pool.new 1 0).run stopAfterWipe).map
      (fun p => p.given.map fun g => (g.owner, g.users)) =
        some [("/wt/b", ["/wt/b"]), ("/wt/b", []), ("/wt/a", [])] := by decide
  obtain ⟨p, hp, hg⟩ := Option.map_eq_some_iff.1 hrun
  exact ⟨p, hp, hg, given_own_output 1 0 stopAfterWipe p hp (by decide)⟩

end Anthrex.TargetPool
