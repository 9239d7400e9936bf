import Anthrex.Data.Lines
import Anthrex.Data.Lists
import Anthrex.Data.Utf8
import Anthrex.Globs
import Anthrex.Lessons.Lesson

/-!
# The lessons store

The lines of `lessons.jsonl` and the store they fold to (`lessons/fold.rs`): the last line of
each record id, at its own place, is applied in the order of the file. A line that does not
parse is skipped, and is a problem unless it is blank.
-/

namespace Anthrex.Lessons

open Anthrex.Globs (isWhitespace)

/-! ## Lines -/

/-- A lesson as the distiller wrote it. -/
structure LessonDraft where
  layer : LessonLayer
  title : String
  body : String
  files : List String := []
  deriving DecidableEq, Repr

structure QueuedLine where
  recordId : String
  time : ℕ
  runId : String
  taskId : Option String := none
  cause : DistillCause
  fps : List String := []
  deriving DecidableEq, Repr

/-- One call of the distiller for the entry `queued`. -/
structure AttemptLine where
  recordId : String
  time : ℕ
  queued : String
  deriving DecidableEq, Repr

/-- The distiller's answer, which closes the entry `queued`. -/
structure DistilledLine where
  recordId : String
  time : ℕ
  queued : String
  items : List LessonDraft := []
  deriving DecidableEq, Repr

structure GaveUpLine where
  recordId : String
  time : ℕ
  queued : String
  deriving DecidableEq, Repr

structure VerdictLine where
  recordId : String
  time : ℕ
  id : String
  approved : Bool
  deriving DecidableEq, Repr

structure RetiredLine where
  recordId : String
  time : ℕ
  id : String
  reason : String
  deriving DecidableEq, Repr

structure DismissedLine where
  recordId : String
  time : ℕ
  fp : String
  deriving DecidableEq, Repr

inductive LessonLine
  | queued (line : QueuedLine)
  | attempt (line : AttemptLine)
  | distilled (line : DistilledLine)
  | gaveUp (line : GaveUpLine)
  | verdict (line : VerdictLine)
  | retired (line : RetiredLine)
  | dismissed (line : DismissedLine)
  deriving DecidableEq, Repr

def LessonLine.recordId : LessonLine → String
  | queued l => l.recordId
  | attempt l => l.recordId
  | distilled l => l.recordId
  | gaveUp l => l.recordId
  | verdict l => l.recordId
  | retired l => l.recordId
  | dismissed l => l.recordId

/-- What the store takes from libraries: a line read from JSON, the tables of Unicode, and a
    digest in hexadecimal. -/
structure Library where
  fromStr : List Char → Except String LessonLine
  toLowercase : List Char → List Char
  isAlphanumeric : Char → Bool
  sha256 : List Char → List Char

/-- JSON may end with white space, of which a carriage return is, and is never white space
    alone. -/
structure Library.Lawful (lib : Library) : Prop where
  fromStr_cr : ∀ text line, lib.fromStr (text ++ ['\r']) = .ok line ↔ lib.fromStr text = .ok line
  not_blank : ∀ text line, text.all isWhitespace → lib.fromStr text ≠ .ok line

variable (lib : Library)

/-! ## The fold -/

def fpChars : ℕ := 16

/-- The fingerprint of a title: of its words, lowercased, with one space between them. -/
def titleFp (title : String) : String :=
  let words := ((lib.toLowercase title.toList).splitOnP (!lib.isAlphanumeric ·)).filter (!·.isEmpty)
  String.ofList ((lib.sha256 ([' '].intercalate words)).take fpChars)

/-- `run` added once, the newest last, the oldest dropped past `runsMax`. -/
def addRun (runs : List String) (run : String) : List String :=
  if run ∈ runs then runs
  else if runsMax < (runs ++ [run]).length then (runs ++ [run]).drop 1
  else runs ++ [run]

/-- A distilled item makes its lesson, or confirms the one there is. -/
def distil (lessons : SortedMap String Lesson) (item : LessonDraft) (time : ℕ) (queued : String)
    (run : Option String) : SortedMap String Lesson :=
  let id := "l-" ++ titleFp lib item.title
  match lessons.get? id with
  | some lesson =>
    if lesson.status = .rejected ∨ lesson.status = .retired then lessons
    else lessons.insert id
      { lesson with
        reconfirmed := lesson.reconfirmed + 1
        lastSeen := time
        trialStart := if lesson.layer = .episodic then some time else lesson.trialStart
        runs := run.elim lesson.runs (addRun lesson.runs) }
  | none =>
    lessons.insert id
      { id
        layer := item.layer
        status := if item.layer = .episodic then .onTrial else .proposed
        origin := .distilled
        title := item.title
        body := item.body
        files := item.files
        createdAt := time
        lastSeen := time
        trialStart := if item.layer = .episodic then some time else none
        runs := run.elim [] (addRun [])
        reconfirmed := 0
        retiredReason := none
        queued := some queued
        green := 0
        outcomes := 0
        headlines := [] }

def apply (store : Store) : LessonLine → Store
  | .queued q =>
    if (store.queued.get? q.recordId).isSome then store
    else
      { store with
        queued := store.queued.insert q.recordId
          { recordId := q.recordId
            time := q.time
            runId := q.runId
            taskId := q.taskId
            cause := q.cause
            fps := q.fps
            opened := true
            attempts := 0 } }
  | .attempt a =>
    { store with
      queued := store.queued.modify a.queued fun entry =>
        { entry with attempts := entry.attempts + 1 } }
  | .distilled d =>
    let run := (store.queued.get? d.queued).map (·.runId)
    { store with
      queued := store.queued.modify d.queued fun entry => { entry with opened := false }
      lessons := d.items.foldl (fun lessons item => distil lib lessons item d.time d.queued run)
        store.lessons }
  | .gaveUp g =>
    { store with
      queued := store.queued.modify g.queued fun entry => { entry with opened := false } }
  | .verdict v =>
    { store with
      lessons := store.lessons.modify v.id fun lesson =>
        if lesson.status = .proposed ∨ lesson.status = .onTrial then
          { lesson with status := if v.approved then .approved else .rejected }
        else lesson }
  | .retired r =>
    { store with
      lessons := store.lessons.modify r.id fun lesson =>
        if lesson.status = .rejected ∨ lesson.status = .retired then lesson
        else { lesson with status := .retired, retiredReason := some r.reason } }
  | .dismissed d => { store with dismissed := store.dismissed.add d.fp }

/-- The lines applied in order. -/
def fold (lines : List LessonLine) : Store := lines.foldl (apply lib) {}

/-! ## Parsing -/

/-- A line without the carriage return at its end. -/
def stripCr (line : List Char) : List Char :=
  if line.getLast? = some '\r' then line.dropLast else line

/-- `str::lines`: a carriage return before the newline goes with it, one at the end of a text
    that no newline ends stays. -/
def strLines (text : List Char) : List (List Char) :=
  (Lines.ended '\n' text).map stripCr ++
    if (Lines.torn '\n' text).isEmpty then [] else [Lines.torn '\n' text]

/-- The lines so far, with a gap for each that a later one of its record id replaced. -/
structure Parsing where
  lines : List (Option LessonLine) := []
  last : SortedMap String ℕ := .empty
  problems : List String := []

/-- The lines, with a gap at the one of record id `id`. -/
def Parsing.blank (s : Parsing) (id : String) : List (Option LessonLine) :=
  match s.last.get? id with
  | some earlier => s.lines.set earlier none
  | none => s.lines

def parseStep (origin : String) (s : Parsing) (raw : List Char × ℕ) : Parsing :=
  if raw.1.all isWhitespace then s
  else
    match lib.fromStr raw.1 with
    | .ok line =>
      { s with
        lines := s.blank line.recordId ++ [some line]
        last := s.last.insert line.recordId s.lines.length }
    | .error error =>
      { s with
        problems := s.problems ++ [origin ++ " line " ++ toString (raw.2 + 1) ++ ": " ++ error] }

/-- Every line that parses, the last of each record id at its place, and the problems. -/
def parse (text : List Char) (origin : String) : List LessonLine × List String :=
  let s := (strLines text).zipIdx.foldl (parseStep lib origin) {}
  (s.lines.reduceOption, s.problems)

/-- The line that a raw line parses to. -/
def readLine (raw : List Char) : Option LessonLine :=
  if raw.all isWhitespace then none else (lib.fromStr raw).toOption

/-- The lines so far are the last of each record id, and the map has their places. -/
structure Parsing.Of (s : Parsing) (lines : List LessonLine) : Prop where
  lines_eq : s.lines.reduceOption = Lists.lastBy LessonLine.recordId lines
  last_eq : ∀ id n, s.last.get? id = some n ↔
    ∃ line, s.lines[n]? = some (some line) ∧ line.recordId = id

theorem reduceOption_map_filter {α : Type*} (p : α → Bool) (l : List (Option α)) :
    (l.map (Option.filter p)).reduceOption = l.reduceOption.filter p := by
  induction l with
  | nil => rfl
  | cons o l ih =>
    cases o with
    | none => simpa using ih
    | some x => by_cases hx : p x <;> simp [Option.filter, hx, ih]

/-- A line of the same record id leaves a gap where the one before it was. -/
theorem Parsing.Of.blank_eq {s : Parsing} {lines : List LessonLine} (h : s.Of lines) (id : String) :
    s.blank id = s.lines.map (Option.filter (·.recordId ≠ id)) := by
  refine List.ext_getElem? fun n => ?_
  rw [List.getElem?_map, Parsing.blank]
  cases hid : s.last.get? id with
  | none =>
    dsimp only
    cases hn : s.lines[n]? with
    | none => rfl
    | some o =>
      cases o with
      | none => rfl
      | some line =>
        -- no line has this record id, or the table would have its place
        have hne : line.recordId ≠ id := fun he => by
          rw [(h.last_eq id n).2 ⟨line, hn, he⟩] at hid
          cases hid
        simp [Option.filter, hne]
  | some earlier =>
    dsimp only
    obtain ⟨line, hline, heq⟩ := (h.last_eq id earlier).1 hid
    rw [List.getElem?_set]
    by_cases hn : earlier = n
    · subst hn
      rw [if_pos rfl, if_pos (List.getElem?_eq_some_iff.1 hline).1, hline]
      simp [heq, Option.filter]
    · rw [if_neg hn]
      cases hn' : s.lines[n]? with
      | none => rfl
      | some o =>
        cases o with
        | none => rfl
        | some line' =>
          -- the table has the place of the one line with this record id
          have hne : line'.recordId ≠ id := fun he => by
            have hlast := (h.last_eq id n).2 ⟨line', hn', he⟩
            rw [hid] at hlast
            exact hn (Option.some.inj hlast)
          simp [Option.filter, hne]

theorem Parsing.Of.getElem?_blank {s : Parsing} {lines : List LessonLine} (h : s.Of lines)
    {id : String} {n : ℕ} {line : LessonLine} : (s.blank id)[n]? = some (some line) ↔
      s.lines[n]? = some (some line) ∧ line.recordId ≠ id := by
  rw [h.blank_eq, List.getElem?_map, Option.map_eq_some_iff]
  constructor
  · rintro ⟨o, ho, hfilter⟩
    obtain ⟨rfl, hne⟩ := Option.filter_eq_some_iff.1 hfilter
    exact ⟨ho, by simpa using hne⟩
  · rintro ⟨hline, hne⟩
    exact ⟨some line, hline, by simpa [Option.filter] using hne⟩

theorem Parsing.Of.push {s : Parsing} {lines : List LessonLine} (h : s.Of lines) (line : LessonLine) :
    Parsing.Of
      { s with
        lines := s.blank line.recordId ++ [some line]
        last := s.last.insert line.recordId s.lines.length } (lines ++ [line]) where
  lines_eq := by
    dsimp only
    rw [h.blank_eq, List.reduceOption_append, reduceOption_map_filter, h.lines_eq, Lists.lastBy_concat]
    rfl
  last_eq id n := by
    have hlength : (s.blank line.recordId).length = s.lines.length := by
      rw [h.blank_eq, List.length_map]
    dsimp only
    rw [SortedMap.get?_insert, List.getElem?_append, hlength]
    -- a place before the new line, or the new line
    by_cases hn : n < s.lines.length
    · simp only [if_pos hn, h.getElem?_blank]
      split
      · -- the new line is at the end, and no other has its record id
        rename_i hid
        simp only [hid, Option.some.injEq]
        constructor
        · intro he
          omega
        · rintro ⟨line', ⟨_, hne⟩, he⟩
          exact absurd he hne
      · rename_i hid
        rw [h.last_eq]
        constructor
        · rintro ⟨line', hline', rfl⟩
          exact ⟨line', ⟨hline', hid⟩, rfl⟩
        · rintro ⟨line', ⟨hline', _⟩, rfl⟩
          exact ⟨line', hline', rfl⟩
    · have hlast : s.last.get? id ≠ some n := by
        intro he
        obtain ⟨_, hget, _⟩ := (h.last_eq id n).1 he
        exact hn (List.getElem?_eq_some_iff.1 hget).1
      simp only [if_neg hn]
      split
      · rename_i hid
        rw [Option.some.injEq]
        constructor
        · rintro rfl
          exact ⟨line, by simp, hid.symm⟩
        · rintro ⟨line', hget, _⟩
          have := (List.getElem?_eq_some_iff.1 hget).1
          simp only [List.length_singleton] at this
          omega
      · rename_i hid
        refine ⟨fun he => absurd he hlast, ?_⟩
        rintro ⟨line', hget, rfl⟩
        have hmem := List.mem_of_getElem? hget
        rw [List.mem_singleton, Option.some.injEq] at hmem
        exact absurd (congrArg _ hmem) hid

theorem Parsing.Of.step {s : Parsing} {lines : List LessonLine} (h : s.Of lines) (origin : String)
    (raw : List Char × ℕ) :
    (parseStep lib origin s raw).Of (lines ++ (readLine lib raw.1).toList) := by
  rw [parseStep, readLine]
  split
  · simpa using h
  · cases hraw : lib.fromStr raw.1 with
    | ok line => exact h.push line
    | error error =>
      simp only [Except.toOption, Option.toList_none, List.append_nil]
      exact ⟨h.lines_eq, h.last_eq⟩

theorem parse_fst (text : List Char) (origin : String) : (parse lib text origin).1 =
    Lists.lastBy LessonLine.recordId ((strLines text).filterMap (readLine lib)) := by
  have hempty : Parsing.Of {} [] := ⟨rfl, fun id n => by simp [SortedMap.get?_empty]⟩
  have hfold : ∀ (raws : List (List Char × ℕ)) (s : Parsing) (lines : List LessonLine), s.Of lines →
      (raws.foldl (parseStep lib origin) s).Of (lines ++ raws.filterMap (readLine lib ·.1)) := by
    intro raws
    induction raws with
    | nil => intro s lines h; simpa using h
    | cons raw raws ih =>
      intro s lines h
      have hstep := ih _ _ (h.step lib origin raw)
      rw [List.append_assoc] at hstep
      rw [List.foldl_cons, List.filterMap_cons]
      cases hraw : readLine lib raw.1 <;> simpa [hraw] using hstep
  have hlines := (hfold (strLines text).zipIdx _ _ hempty).lines_eq
  have hfst : (strLines text).zipIdx.filterMap (readLine lib ·.1) =
      (strLines text).filterMap (readLine lib) := by
    rw [show (fun raw : List Char × ℕ => readLine lib raw.1) = readLine lib ∘ Prod.fst from rfl,
      ← List.filterMap_map, List.zipIdx_map_fst]
  rw [parse, hlines, List.nil_append, hfst]

def foldText (text : List Char) (origin : String) : Store :=
  let (lines, problems) := parse lib text origin
  { fold lib lines with problems }

end Anthrex.Lessons
