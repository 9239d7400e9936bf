import Anthrex.Data.Sorting
import Anthrex.Globs
import Anthrex.Lessons.Lesson

/-!
# Known failures

A signature that enough runs carried within a window of days is a known failure
(`lessons/consolidate.rs`). It has lives: one forms at the hit that completes the runs of a
window, holds every later hit, and ends when enough clean runs over its files came after it
formed, or when it was not seen for too long; only the hits after an end can form the next
life, and a known failure is returned for a life that has not ended.

`known` derives them in one pass over the hits of a signature: it keeps the runs of the window
in a map, and counts the clean runs again only when the files of the life grew. The definition
it has to agree with is in `Anthrex.Lessons.Oracle`.
-/

namespace Anthrex.Lessons

open Anthrex.Globs Anthrex.History

/-- A task record and a signature it carries. -/
abbrev Hit := TaskRecord × SigRef

/-- `hits[first..end]`. -/
def slice {α : Type*} (l : List α) (first stop : ℕ) : List α := (l.drop first).take (stop - first)

def knownFilesMax : ℕ := 8

def headlinesMax : ℕ := 3

def knownTitleMax : ℕ := 120

/-! ## The days of the calendar -/

/-- The year, the month and the day of a count of days since 1970-01-01. -/
def civilFromDays (days : ℕ) : ℕ × ℕ × ℕ :=
  let z := days + 719468
  let era := z / 146097
  let doe := z - era * 146097
  let yoe := (doe - doe / 1460 + doe / 36524 - doe / 146096) / 365
  let y := yoe + era * 400
  let doy := doe - (365 * yoe + yoe / 4 - yoe / 100)
  let mp := (5 * doy + 2) / 153
  let d := doy - (153 * mp + 2) / 5 + 1
  let m := if mp < 10 then mp + 3 else mp - 9
  (if m ≤ 2 then y + 1 else y, m, d)

def padded (width n : ℕ) : String := String.ofList (List.leftpad width '0' (Nat.toDigits 10 n))

def formatUtc (unix : ℕ) : String :=
  let (y, m, d) := civilFromDays (unix / 86400)
  let secs := unix % 86400
  padded 4 y ++ "-" ++ padded 2 m ++ "-" ++ padded 2 d ++ " " ++ padded 2 (secs / 3600) ++ ":" ++
    padded 2 (secs % 3600 / 60) ++ ":" ++ padded 2 (secs % 60) ++ "Z"

example : formatUtc 1791814079 = "2026-10-12 14:07:59Z" := by decide +kernel

/-! ## One known failure -/

/-- The characters before and after each match of `word` in a text, the matches not
    overlapping: those of the last match still to pass are `skip` many. -/
def matchEdges (word : List Char) :
    (skip : ℕ) → (before : Option Char) → List Char → List (Option Char × Option Char)
  | _, _, [] => []
  | skip + 1, _, c :: text => matchEdges word skip (some c) text
  | 0, before, c :: text =>
    if word <+: c :: text then
      (before, ((c :: text).drop word.length).head?) :: matchEdges word (word.length - 1) (some c) text
    else matchEdges word 0 (some c) text

/-- Whether `word` occurs in `text` with no letter, digit or `_` on either side. What a letter
    or a digit is, Unicode says. -/
def wholeWord (isAlphanumeric : Char → Bool) (text word : String) : Bool :=
  let isWord c := isAlphanumeric c || c == '_'
  !word.toList.isEmpty && (matchEdges word.toList 0 none text.toList).any fun (before, after) =>
    !before.any isWord && !after.any isWord

def gateName : SigGate → String
  | .check => "check"
  | .tier1 => "tier1"
  | .tier2 => "tier2"
  | .proof => "proof"

/-- The `owns` of a task added to a life's files, and whether any was added. -/
def addFiles (files : List String) (task : TaskRecord) : List String × Bool :=
  let added := task.owns.foldl (fun files own =>
    if files.length < knownFilesMax ∧ own ∉ files then files ++ [own] else files) files
  (added, files.length < added.length)

/-- The distinct headlines, files and runs of the hits, the first seen first. -/
def gather (hits : List Hit) : List String × List String × List String :=
  let step (acc : List String × List String × List String) (hit : Hit) :=
    let (headlines, files, runs) := acc
    (if headlines.length < headlinesMax ∧ hit.2.headline ∉ headlines then
        headlines ++ [hit.2.headline] else headlines,
      (addFiles files hit.1).1,
      if hit.1.runId ∈ runs then runs else runs ++ [hit.1.runId])
  hits.foldl step ([], [], [])

/-- The known failure of the hits of a life, unless a flaky test ends it. -/
def knownFailure (isAlphanumeric : Char → Bool) (fp : String) (hits : List Hit)
    (flaky : List String) : Option Lesson := do
  let (first, sig) ← hits.head?
  let (newest, newestSig) ← hits.getLast?
  let lastSeen := newest.time
  let (headlines, files, runs) := gather hits
  if headlines.any fun h => flaky.any (wholeWord isAlphanumeric h) then none
  else
    let body := "Seen " ++ toString hits.length ++ " times in " ++ toString runs.length ++
      " runs (last " ++ String.ofList ((formatUtc lastSeen).toList.take 10) ++ ", gate " ++
      gateName newestSig.gate ++ "): " ++ sig.headline
    some
      { id := "kf-" ++ fp
        layer := .episodic
        status := .known
        origin := .signature
        title := String.ofList (("Known failure: " ++ sig.headline).toList.take knownTitleMax)
        body
        files
        createdAt := first.time
        lastSeen
        trialStart := none
        runs := runs.drop (runs.length - runsMax)
        reconfirmed := 0
        retiredReason := none
        queued := none
        green := 0
        outcomes := 0
        headlines }

/-! ## The list -/

def taskRecords (history : List HistoryLine) : List TaskRecord :=
  history.filterMap fun
    | .task t => some t
    | _ => none

/-- A merged task with a check. -/
def isClean (t : TaskRecord) : Bool :=
  (t.outcome = .merged ∨ t.outcome = .mergedWithoutApproval) ∧ 1 ≤ t.checks

/-- The candidates for clean runs, the oldest first. -/
def cleanCandidates (tasks : List TaskRecord) : List TaskRecord :=
  Sorting.byKey (·.time) (tasks.filter isClean)

/-- The hits of each fingerprint, in the order of the history. -/
def hitsByFp (tasks : List TaskRecord) : SortedMap String (List Hit) :=
  tasks.foldl (fun m task =>
    task.signatures.foldl (fun m sig =>
      m.insert sig.fp ((m.get? sig.fp).getD [] ++ [(task, sig)])) m) .empty

/-- The newest first, then by id. -/
def newestFirst (a b : Lesson) : Prop :=
  b.lastSeen < a.lastSeen ∨ a.lastSeen = b.lastSeen ∧ a.id ≤ b.id

instance : DecidableRel newestFirst := fun _ _ => inferInstanceAs (Decidable (_ ∨ _))

/-- The known failures, where `live` gives the range of a fingerprint's hits, sorted by time,
    that its living life holds. -/
def knownBy (isAlphanumeric : Char → Bool) (history : List HistoryLine) (tasks : List TaskRecord)
    (store : Store) (live : String → List Hit → Option (ℕ × ℕ)) : List Lesson :=
  let flaky := history.filterMap fun
    | .flaky f => some f.test
    | _ => none
  let found := ((hitsByFp tasks).entries.filter fun e => e.1 ∉ store.dismissed).filterMap
    fun (fp, hits) =>
      let hits := Sorting.byKey (·.1.time) hits
      (live fp hits).bind fun (first, stop) =>
        knownFailure isAlphanumeric fp (slice hits first stop) flaky
  found.insertionSort newestFirst

/-! ## A life -/

/-- The time of the task that completes `n` distinct runs. -/
def nthRun (n : ℕ) : Finset String → List TaskRecord → Option ℕ
  | _, [] => none
  | runs, t :: tasks =>
    let runs := insert t.runId runs
    if n ≤ runs.card then some t.time else nthRun n runs tasks

def hitRuns (hits : List Hit) : Finset String := (hits.map (·.1.runId)).toFinset

/-- When the last of the clean runs that end a life came: a clean task owns some of the files,
    in a run that never carried `fp`. The candidates are sorted by time. -/
def supersededAt (cfg : Config) (fp : String) (formedAt : ℕ) (clean : List TaskRecord)
    (hitRuns : Finset String) (files : List String) : Option ℕ :=
  let later := clean.drop (Sorting.partitionPoint (·.time ≤ formedAt) clean)
  nthRun cfg.knownCleanRuns ∅ (later.filter fun t =>
    t.runId ∉ hitRuns ∧ anyIntersect t.owns files ∧ !t.signatures.any (·.fp = fp))

/-- How often each run has a hit in the window. -/
abbrev RunCounts := SortedMap String ℕ

def RunCounts.count (runs : RunCounts) (run : String) : RunCounts :=
  runs.insert run ((runs.get? run).getD 0 + 1)

/-- A hit of a run leaves the window, and the run with its last. -/
def RunCounts.uncount (runs : RunCounts) (run : String) : RunCounts :=
  match runs.get? run with
  | none => runs
  | some n => if n - 1 = 0 then runs.erase run else runs.insert run (n - 1)

/-- The first hit of the window moves up to the first that is not too old at `stop`. -/
def slide (window stop : ℕ) : List Hit → ℕ × RunCounts → ℕ × RunCounts
  | [], s => s
  | hit :: hits, (first, runs) =>
    if window < stop - hit.1.time then slide window stop hits (first + 1, runs.uncount hit.1.runId)
    else (first, runs)

/-- Whether hit `j`, at time `stop`, comes so long after the hit before it that that one expired. -/
def isGap (expiry : ℕ) (hits : List Hit) (j stop : ℕ) : Bool :=
  0 < j ∧ hits[j - 1]?.any fun previous => expiry < stop - previous.1.time

/-- The loop of `formation`, at the hit `j` of `hits`. -/
def formationFrom (cfg : Config) (hits : List Hit) :
    List Hit → (j : ℕ) → ℕ × RunCounts → Option (ℕ × ℕ)
  | [], _, _ => none
  | hit :: rest, j, s =>
    let stop := hit.1.time
    let (first, runs) := if isGap (cfg.expiryDays * daySecs) hits j stop then (j, .empty) else s
    let (first, runs) := slide (cfg.knownWindowDays * daySecs) stop (hits.drop first)
      (first, RunCounts.count runs hit.1.runId)
    if cfg.knownMin ≤ runs.entries.length then some (first, j)
    else formationFrom cfg hits rest (j + 1) (first, runs)

/-- How a life forms from the hits: its first hit, and the hit that completed `known_min` runs
    inside one window. -/
def formation (cfg : Config) (hits : List Hit) : Option (ℕ × ℕ) :=
  formationFrom cfg hits hits 0 (0, .empty)

/-- How the hits that a life can hold came to an end. -/
inductive Grown
  /-- The life ended before the hit `after`. -/
  | ended (after : ℕ)
  /-- It ended after its last hit. -/
  | over
  /-- It lives, and holds the hits up to `stop`. -/
  | alive (stop : ℕ)
  deriving DecidableEq, Repr

/-- A life takes the hits from `stop` on until it ends. -/
def grow (superseded : List String → Option ℕ) (now expiry : ℕ) :
    List Hit → (last stop : ℕ) → (files : List String) → (supersededBy : Option ℕ) → Grown
  | [], last, stop, _, supersededBy =>
    if supersededBy.isSome ∨ expiry < now - last then .over else .alive stop
  | next :: rest, last, stop, files, supersededBy =>
    if (supersededBy.any (· < next.1.time)) ∨ expiry < next.1.time - last then .ended stop
    else
      let (files, added) := addFiles files next.1
      grow superseded now expiry rest next.1.time (stop + 1) files
        (if added then superseded files else supersededBy)

theorem lt_of_grow_ended {superseded : List String → Option ℕ} {now expiry last stop after : ℕ}
    {rest : List Hit} {files : List String} {supersededBy : Option ℕ}
    (h : grow superseded now expiry rest last stop files supersededBy = .ended after) :
    stop ≤ after ∧ after < stop + rest.length := by
  induction rest generalizing last stop files supersededBy with
  | nil =>
    rw [grow] at h
    split at h <;> cases h
  | cons next rest ih =>
    rw [grow] at h
    split at h
    · cases h
      simp
    · have := ih h
      rw [List.length_cons]
      omega

/-- The lives that the hits from `after` on make. -/
def liveFrom (cfg : Config) (fp : String) (hits : List Hit) (clean : List TaskRecord) (now after : ℕ) :
    Option (ℕ × ℕ) :=
  match formation cfg (hits.drop after) with
  | none => none
  | some (first, formed) =>
    match hrest : hits.drop (after + formed) with
    | [] => none
    | hit :: rest =>
      let superseded := supersededAt cfg fp hit.1.time clean (hitRuns hits)
      let held := slice hits (after + first) (after + formed + 1)
      let files := held.foldl (fun files hit => (addFiles files hit.1).1) []
      match hgrow : grow superseded now (cfg.expiryDays * daySecs) rest hit.1.time
          (after + formed + 1) files (superseded files) with
      | .ended next => liveFrom cfg fp hits clean now next
      | .over => none
      | .alive stop => some (after + first, stop)
termination_by hits.length - after
decreasing_by
  have hlt := lt_of_grow_ended hgrow
  have hlength : (hits.drop (after + formed)).length = rest.length + 1 := by rw [hrest]; rfl
  rw [List.length_drop] at hlength
  omega

/-- The range of a fingerprint's hits that its living known failure holds. -/
def live (cfg : Config) (clean : List TaskRecord) (now : ℕ) (fp : String) (hits : List Hit) :
    Option (ℕ × ℕ) :=
  liveFrom cfg fp hits clean now 0

/-- The living known failures, the newest first. -/
def known (isAlphanumeric : Char → Bool) (history : List HistoryLine) (store : Store) (now : ℕ)
    (cfg : Config) : List Lesson :=
  let tasks := taskRecords history
  knownBy isAlphanumeric history tasks store (live cfg (cleanCandidates tasks) now)

end Anthrex.Lessons
