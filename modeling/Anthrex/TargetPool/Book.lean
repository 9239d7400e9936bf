import Anthrex.Data.SortedMap

/-!
# The target pool's book

The leases of a repository's build directories (`run/target_pool/book.rs`). A
checkout, the *owner*, leases one of the pool's directories and releases it:

* `PoolBook.lease` gives an owner the directory it holds, else a free one of the class,
  its own last one first, then the one used least recently;
* `PoolBook.unlease` rolls back a lease whose save failed, from the record kept in `undo`;
* `PoolBook.release` ends a lease, the directory cleaned, wiped or neither;
* `PoolBook.reconcile` and `PoolBook.forgetRuns` free the directories of owners that
  vanished;
* `PoolBook.beginWipe` and `PoolBook.endWipe` are the sweep's, around the wipe of an
  idle directory.

Paths are compared as given, and times are seconds passed in.
-/

namespace Anthrex.TargetPool

/-- The two classes of directories, which never cross. -/
inductive PoolClass
  | task
  | engine
  deriving DecidableEq, Repr

def PoolClass.rank : PoolClass → ℕ
  | task => 0
  | engine => 1

/-- One pool directory, `<class>-<k>`, `k` from 1. -/
structure DirId where
  cls : PoolClass
  k : ℕ
  deriving DecidableEq, Repr

/-- The order of the directories: by class, then by number. -/
def DirId.key (id : DirId) : ℕ ×ₗ ℕ := toLex (id.cls.rank, id.k)

theorem DirId.key_injective : Function.Injective DirId.key := by
  rintro ⟨a, k⟩ ⟨b, k'⟩ h
  have h' : (a.rank, k) = (b.rank, k') := toLex.injective h
  rw [Prod.mk.injEq] at h'
  obtain ⟨hr, rfl⟩ := h'
  cases a <;> cases b <;> simp_all [PoolClass.rank]

instance : LinearOrder DirId := LinearOrder.lift' DirId.key DirId.key_injective

/-- A directory's state. `fresh`: empty. `clean`: its last owner's packages were
    cleaned. `dirty`: released without a clean, or its owner vanished; wiped before
    its next lease. `wiping`: the sweep is wiping it. -/
inductive DirState
  | fresh
  | clean
  | leased
  | dirty
  | wiping
  deriving DecidableEq, Repr

def DirState.isFree : DirState → Bool
  | fresh | clean | dirty => true
  | leased | wiping => false

/-- What a lease decided: a directory, wiped before its use when `wipeFirst`, or none. -/
inductive Lease
  | dir (id : DirId) (wipeFirst : Bool)
  | full
  deriving DecidableEq, Repr

/-- How a release left the directory. -/
inductive Released
  | cleaned
  | wiped
  | notCleaned
  deriving DecidableEq, Repr

def Released.state : Released → DirState
  | cleaned => .clean
  | wiped => .fresh
  | notCleaned => .dirty

/-- One directory's record. -/
structure PoolDir where
  state : DirState
  owner : Option String
  run : Option String
  leasedAt : Option ℕ
  lastOwner : Option String
  /-- `none`: never used, which counts as the oldest. -/
  lastUsed : Option ℕ
  deriving DecidableEq, Repr

namespace PoolDir

def fresh : PoolDir := ⟨.fresh, none, none, none, none, none⟩

def heldBy (d : PoolDir) (owner : String) : Bool := d.state = .leased ∧ d.owner = some owner

/-- When a directory was last used, for the least recent one: never comes first. -/
def recency (d : PoolDir) : ℕ := d.lastUsed.elim 0 (· + 1)

end PoolDir

/-- One repository's pool: its configured size, its directories and, for each new
    lease, the directory as it was before it. -/
structure PoolBook where
  taskDirs : ℕ
  engineDirs : ℕ
  dirs : SortedMap DirId PoolDir
  undo : SortedMap String (DirId × PoolDir)
  deriving DecidableEq

namespace PoolBook

/-- A pool of `taskDirs` task and `engineDirs` engine directories, all fresh. -/
def new (taskDirs engineDirs : ℕ) : PoolBook where
  taskDirs := taskDirs
  engineDirs := engineDirs
  dirs := .ofList <|
    ((List.range' 1 taskDirs).map fun k => (⟨.task, k⟩, .fresh)) ++
      (List.range' 1 engineDirs).map fun k => (⟨.engine, k⟩, .fresh)
  undo := .empty

def inSize (b : PoolBook) (id : DirId) : Bool :=
  let size := match id.cls with
    | .task => b.taskDirs
    | .engine => b.engineDirs
  1 ≤ id.k ∧ id.k ≤ size

/-- The directory `owner` holds. -/
def held (b : PoolBook) (owner : String) : Option DirId :=
  (b.dirs.entries.find? fun e => e.2.heldBy owner).map (·.1)

/-- The free directories of the class `cls`, in order. -/
def freeDirs (b : PoolBook) (cls : PoolClass) : List (DirId × PoolDir) :=
  b.dirs.entries.filter fun e => e.1.cls = cls ∧ b.inSize e.1 ∧ e.2.state.isFree

/-- The free directory a new lease of `owner` takes: its own last one, else the one
    used least recently, ties to the lowest number. -/
def chosen (b : PoolBook) (cls : PoolClass) (owner : String) : Option (DirId × PoolDir) :=
  let free := b.freeDirs cls
  (free.find? fun e => e.2.lastOwner = some owner).or
    (free.argmin fun e => toLex (e.2.recency, e.1.k))

/-- The record of a directory leased to `owner`. -/
def leasedDir (owner run : String) (now : ℕ) : PoolDir :=
  ⟨.leased, some owner, some run, some now, some owner, some now⟩

/-- The directory `owner` holds, else a new lease of a free one of the class. -/
def lease (b : PoolBook) (cls : PoolClass) (owner run : String) (now : ℕ) : PoolBook × Lease :=
  match b.held owner with
  | some id => (b, .dir id false)
  | none =>
    match b.chosen cls owner with
    | none => (b, .full)
    | some (id, dir) =>
      ({ b with
          undo := b.undo.insert owner (id, dir)
          dirs := b.dirs.insert id (leasedDir owner run now) },
        .dir id (dir.state = .dirty))

/-- Rolls back `owner`'s last new lease: the directory is free again in the state it
    had before. -/
def unlease (b : PoolBook) (owner : String) : PoolBook :=
  match b.undo.get? owner with
  | none => b
  | some (id, before) =>
    let b := { b with undo := b.undo.erase owner }
    { b with dirs := b.dirs.modify id fun d => if d.heldBy owner then before else d }

/-- Frees `id` in `state`; `now`, when given, is its last use. A directory past the
    configured size leaves the book. -/
def free (b : PoolBook) (id : DirId) (state : DirState) (now : Option ℕ) : PoolBook :=
  if b.inSize id then
    { b with dirs := b.dirs.modify id fun d =>
        { d with state, owner := none, run := none, leasedAt := none, lastUsed := now.or d.lastUsed } }
  else
    { b with dirs := b.dirs.erase id }

/-- Ends `owner`'s lease as `how` says: the directory it held, if any. -/
def release (b : PoolBook) (owner : String) (how : Released) (now : ℕ) : PoolBook × Option DirId :=
  match b.held owner with
  | none => (b, none)
  | some id =>
    let b := { b with undo := b.undo.erase owner }
    (b.free id how.state (some now), some id)

/-- Frees `id` as dirty, its owner's last lease no longer to be rolled back. -/
def freeGone (b : PoolBook) (id : DirId) : PoolBook :=
  let b := match (b.dirs.get? id).bind (·.owner) with
    | some owner => { b with undo := b.undo.erase owner }
    | none => b
  b.free id .dirty none

/-- Frees, as dirty, the leased directories `gone` tells. -/
def freeWhere (b : PoolBook) (gone : PoolDir → Bool) : PoolBook × List DirId :=
  let ids := (b.dirs.entries.filter fun e => e.2.state = .leased ∧ gone e.2).map (·.1)
  (ids.foldl freeGone b, ids)

/-- Frees, as dirty, absent owners leased before `leasedBefore`. -/
def reconcile (b : PoolBook) («exists» : String → Bool) (leasedBefore : ℕ) :
    PoolBook × List DirId :=
  b.freeWhere fun d => d.leasedAt.getD 0 < leasedBefore ∧ d.owner.any fun o => !«exists» o

/-- Frees, as dirty, leases whose run `known` does not know. -/
def forgetRuns (b : PoolBook) (known : String → Bool) : PoolBook × List DirId :=
  b.freeWhere fun d => d.run.all fun run => !known run

def isIdle (d : PoolDir) (now idleSecs : ℕ) : Bool :=
  (d.state = .clean ∨ d.state = .dirty) ∧ d.lastUsed.all fun used => idleSecs < now - used

/-- Marks `id` as being wiped when it is still free and idle. -/
def beginWipe (b : PoolBook) (id : DirId) (now idleSecs : ℕ) : PoolBook × Bool :=
  match b.dirs.get? id with
  | some d =>
    if isIdle d now idleSecs then
      ({ b with dirs := b.dirs.insert id { d with state := .wiping } }, true)
    else (b, false)
  | none => (b, false)

/-- A sweep's wipe is done: the directory is fresh. -/
def endWipe (b : PoolBook) (id : DirId) : PoolBook :=
  { b with dirs := b.dirs.modify id fun d =>
      if d.state = .wiping then { d with state := .fresh } else d }

end PoolBook

end Anthrex.TargetPool
