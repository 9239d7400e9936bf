import Anthrex.Data.SortedMap
import Anthrex.Run.Task

/-!
# The quota brake's book

The readings of the runtimes' usage windows and the windows they trip
(`run/engine/quota_book.rs`, over the wire types of `proto/src/brakes.rs`). For each
runtime the book keeps each window's newest reading and the windows it tripped:

* `QuotaBook.record` stores a sample's readings and trips or clears their windows;
* `QuotaBook.reconfigure` derives the trips anew under other thresholds;
* `QuotaBook.verdict` says whether a session may start, and drops expired trips;
* `QuotaBook.info` reports each runtime's quota, and changes nothing.

Times are seconds, of 64 bits, and usage is in per mille.
-/

namespace Anthrex.Quota

open Anthrex.Run (Runtime)

/-- A usage window both runtimes report. -/
inductive QuotaWindow
  | fiveHour
  | sevenDay
  deriving DecidableEq, Repr

namespace QuotaWindow

def rank : QuotaWindow → ℕ
  | fiveHour => 0
  | sevenDay => 1

theorem rank_injective : Function.Injective rank := by
  intro a b h
  cases a <;> cases b <;> simp_all [rank]

instance : LinearOrder QuotaWindow := LinearOrder.lift' rank rank_injective

/-- The window's length. -/
def secs : QuotaWindow → ℕ
  | fiveHour => 18000
  | sevenDay => 604800

end QuotaWindow

/-- Usage in per mille, 0 to 1000. -/
abbrev Permille := ℕ

namespace Permille

def full : Permille := 1000

/-- Whether the usage is at or over `percent`. -/
def atLeast (p : Permille) (percent : ℕ) : Bool := percent * 10 ≤ p

end Permille

/-- `u64::saturating_add`. -/
def saturatingAdd (a b : ℕ) : ℕ := min (a + b) (2 ^ 64 - 1)

/-- The brake's configuration; the thresholds are percentages. -/
structure BrakeConfig where
  quotaBrake : Bool
  pause5hPercent : ℕ
  pause7dPercent : ℕ
  freshSecs : ℕ
  deriving DecidableEq, Repr

/-- The window's pause threshold, in percent. -/
def BrakeConfig.threshold (cfg : BrakeConfig) : QuotaWindow → ℕ
  | .fiveHour => cfg.pause5hPercent
  | .sevenDay => cfg.pause7dPercent

/-- The default is off. -/
def BrakeConfig.default : BrakeConfig := ⟨false, 90, 95, 600⟩

/-- One reading of a runtime's windows: each window's usage and, when known, its
    reset; `rejected` is a window that counts as full whatever its usage. -/
structure QuotaSample where
  windows : List (QuotaWindow × Permille × Option ℕ)
  rejected : Option QuotaWindow
  deriving DecidableEq, Repr

/-- A tripped window. -/
structure Trip where
  window : QuotaWindow
  used : Permille
  thresholdPercent : ℕ
  «until» : ℕ
  readAt : ℕ
  deriving DecidableEq, Repr

/-- What `info` tells of a trip. -/
structure BrakeTripInfo where
  window : QuotaWindow
  used : Permille
  thresholdPercent : ℕ
  «until» : ℕ
  deriving DecidableEq, Repr

def Trip.info (t : Trip) : BrakeTripInfo := ⟨t.window, t.used, t.thresholdPercent, t.until⟩

/-- What the book says about starting a session of a runtime now: `blind` is allowed,
    with no fresh reading. -/
inductive Verdict
  | allowed
  | blind
  | braked (trip : Trip)
  deriving DecidableEq, Repr

/-- One window's newest reading. -/
structure Reading where
  used : Permille
  resetsAt : Option ℕ
  readAt : ℕ
  deriving DecidableEq, Repr

/-- One runtime's readings and trips, and the newest reading's time. -/
structure Book where
  readings : SortedMap QuotaWindow Reading
  trips : SortedMap QuotaWindow Trip
  readAt : Option ℕ
  deriving DecidableEq

def Book.empty : Book := ⟨.empty, .empty, none⟩

structure QuotaBook where
  books : SortedMap Runtime Book
  deriving DecidableEq

def QuotaBook.empty : QuotaBook := ⟨.empty⟩

/-- The runtimes that have a quota. -/
def runtimes : List Runtime := [.claude, .codex]

/-- The trip `reading` makes under `cfg`, if it is at or over its threshold. -/
def trip (window : QuotaWindow) (reading : Reading) (cfg : BrakeConfig) : Option Trip :=
  let threshold := cfg.threshold window
  if reading.used.atLeast threshold then
    let longest := saturatingAdd reading.readAt window.secs
    some
      { window
        used := reading.used
        thresholdPercent := threshold
        «until» := min (reading.resetsAt.getD longest) longest
        readAt := reading.readAt }
  else none

/-- The unexpired trip that holds longest. -/
def longest (book : Book) (now : ℕ) : Option Trip :=
  (book.trips.values.filter fun t => now < t.until).argmax fun t => toLex (t.until, t.window)

/-- Whether the newest reading is at most `freshSecs` old. -/
def fresh (book : Book) (now : ℕ) (cfg : BrakeConfig) : Bool :=
  book.readAt.any fun at_ => now - at_ ≤ cfg.freshSecs

/-- The readings of a sample: a rejected window is one of them, and full. -/
def QuotaSample.readings (sample : QuotaSample) (now : ℕ) : List (QuotaWindow × Reading) :=
  let windows := match sample.rejected with
    | some rejected =>
      if sample.windows.any fun w => w.1 = rejected then sample.windows
      else sample.windows ++ [(rejected, Permille.full, none)]
    | none => sample.windows
  windows.map fun (window, used, resetsAt) =>
    (window, ⟨if sample.rejected = some window then Permille.full else used, resetsAt, now⟩)

/-- The trips once `reading` is stored: only a reading newer than a trip's releases it. -/
def Book.tripsWith (book : Book) (window : QuotaWindow) (reading : Reading) (cfg : BrakeConfig) :
    SortedMap QuotaWindow Trip :=
  match trip window reading cfg with
  | some t => book.trips.insert window t
  | none =>
    if (book.trips.get? window).any fun t => t.readAt < reading.readAt then book.trips.erase window
    else book.trips

/-- Stores one reading, unless a newer one of its window, or in the same second one as
    full, is there, and trips or clears the window. -/
def Book.record (book : Book) (window : QuotaWindow) (reading : Reading) (cfg : BrakeConfig) :
    Book :=
  let now := reading.readAt
  let stands : Bool := (book.readings.get? window).any fun old =>
    now < old.readAt ∨ old.readAt = now ∧ reading.used ≤ old.used
  if stands then book
  else
    { readings := book.readings.insert window reading
      readAt := some (book.readAt.elim now fun at_ => max at_ now)
      trips := book.tripsWith window reading cfg }

namespace QuotaBook

/-- Records `sample`, read at `now`, for `runtime`. -/
def record (q : QuotaBook) (runtime : Runtime) (sample : QuotaSample) (now : ℕ)
    (cfg : BrakeConfig) : QuotaBook :=
  let book := (q.books.get? runtime).getD .empty
  ⟨q.books.insert runtime <|
    (sample.readings now).foldl (fun b (window, reading) => b.record window reading cfg) book⟩

/-- Derives every trip anew from the stored readings. -/
def reconfigure (q : QuotaBook) (cfg : BrakeConfig) : QuotaBook :=
  ⟨q.books.mapVal fun _ book =>
    { book with trips := book.readings.filterMapVal fun w r => trip w r cfg }⟩

/-- The runtime's verdict at `now`; drops the trips that have expired. -/
def verdict (q : QuotaBook) (runtime : Runtime) (now : ℕ) (cfg : BrakeConfig) :
    QuotaBook × Verdict :=
  if ¬cfg.quotaBrake ∨ runtime ∉ runtimes then (q, .allowed)
  else
    match q.books.get? runtime with
    | none => (q, .blind)
    | some book =>
      let book := { book with trips := book.trips.filter fun _ t => now < t.until }
      let q := ⟨q.books.insert runtime book⟩
      match longest book now with
      | some t => (q, .braked t)
      | none => (q, if fresh book now cfg then .allowed else .blind)

end QuotaBook

/-- Where a runtime's quota stands. -/
inductive QuotaState
  | unmeasured
  | fresh
  | stale
  | braked
  deriving DecidableEq, Repr

/-- One runtime's quota: its windows' newest readings, and its trip. -/
structure QuotaInfo where
  runtime : Runtime
  state : QuotaState
  windows : List (QuotaWindow × Permille × Option ℕ)
  readAt : Option ℕ
  trip : Option BrakeTripInfo
  deriving DecidableEq, Repr

/-- The quota of one runtime at `now`. -/
def QuotaBook.infoOf (q : QuotaBook) (runtime : Runtime) (now : ℕ) (cfg : BrakeConfig) :
    QuotaInfo :=
  match q.books.get? runtime with
  | none => ⟨runtime, .unmeasured, [], none, none⟩
  | some book =>
    let trip := if cfg.quotaBrake then (longest book now).map Trip.info else none
    { runtime
      state :=
        if trip.isSome then .braked
        else if book.readAt.isNone then .unmeasured
        else if fresh book now cfg then .fresh
        else .stale
      windows := book.readings.entries.map fun (w, r) => (w, r.used, r.resetsAt)
      readAt := book.readAt
      trip }

/-- Each runtime's quota at `now`. -/
def QuotaBook.info (q : QuotaBook) (now : ℕ) (cfg : BrakeConfig) : List QuotaInfo :=
  runtimes.map fun runtime => q.infoOf runtime now cfg

end Anthrex.Quota
