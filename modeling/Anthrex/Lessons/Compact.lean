import Anthrex.Lessons.Fold

/-!
# Compacting the store

A store that has grown is written again without the lines that a later one of their record id
replaced, and without the old attempts of closed entries (`lessons/store.rs`). The file is taken
apart byte by byte here, and as text where it is read; both find the same lines
(`map_readLine_strLines`).
-/

namespace Anthrex.Lessons

variable (lib : Library)

def newline : UInt8 := 10

def carriageReturn : UInt8 := 13

/-- `bytes.split_inclusive(b'\n')`. -/
def segments (bytes : List UInt8) : List (List UInt8) :=
  (Lines.ended newline bytes).map (· ++ [newline]) ++
    if (Lines.torn newline bytes).isEmpty then [] else [Lines.torn newline bytes]

def stripSuffix (b : UInt8) (raw : List UInt8) : List UInt8 :=
  if raw.getLast? = some b then raw.dropLast else raw

def parseSegment (raw : List UInt8) : Option LessonLine :=
  (lib.fromStr (Utf8.lossy (stripSuffix carriageReturn (stripSuffix newline raw)))).toOption

/-- The place of a line, put for its record id. -/
def placed (last : SortedMap String ℕ) (entry : Option LessonLine × ℕ) : SortedMap String ℕ :=
  match entry.1 with
  | some line => last.insert line.recordId entry.2
  | none => last

/-- The place of the last line of each record id. -/
def lastPlaces (parsed : List (Option LessonLine)) : SortedMap String ℕ :=
  parsed.zipIdx.foldl placed .empty

/-- Whether the line at a place is the last of its record id. -/
def liveAt (last : SortedMap String ℕ) (n : ℕ) (line : LessonLine) : Bool :=
  last.get? line.recordId = some n

/-- The entry that a line closes. -/
def closes : LessonLine → Option String
  | .distilled d => some d.queued
  | .gaveUp g => some g.queued
  | _ => none

/-- Whether a line stays that is the last of its record id. -/
def survives (closed : List String) (now : ℕ) : LessonLine → Bool
  | .attempt a => !(a.queued ∈ closed ∧ daySecs ≤ now - a.time)
  | _ => true

def keptAt (last : SortedMap String ℕ) (closed : List String) (now : ℕ) :
    Option LessonLine × ℕ → Bool
  | (none, _) => true
  | (some line, n) => liveAt last n line && survives closed now line

/-- Which lines of the store are kept. -/
def kept (segments : List (List UInt8)) (now : ℕ) : List Bool :=
  let parsed := segments.map (parseSegment lib)
  let last := lastPlaces parsed
  let closed := parsed.zipIdx.filterMap fun entry =>
    entry.1.bind fun line => if liveAt last entry.2 line then closes line else none
  parsed.zipIdx.map (keptAt last closed now)

/-- The kept lines. -/
def select {α : Type*} (l : List α) (keep : List Bool) : List α :=
  ((l.zip keep).filter (·.2)).map (·.1)

/-- The bytes of the kept lines. -/
def rewritten (bytes : List UInt8) (now : ℕ) : List UInt8 :=
  (select (segments bytes) (kept lib (segments bytes) now)).flatten

/-- The size below which the store is left alone. -/
def lessonsCompactBytes : ℕ := 1024 * 1024

inductive Compacted
  | skipped
  | rewrote (before after : ℕ)
  deriving DecidableEq, Repr

/-- What a compaction did, and the file after it. -/
def compact (bytes : List UInt8) (now : ℕ) : Compacted × List UInt8 :=
  if bytes.length < lessonsCompactBytes then (.skipped, bytes)
  else
    let before := (segments bytes).length
    let after := ((kept lib (segments bytes) now).filter id).length
    if (before - after) * 4 < before then (.skipped, bytes)
    else (.rewrote before after, rewritten lib bytes now)

/-! ## The file as bytes and as text -/

theorem lossy_joined (lines : List (List UInt8)) (t : List UInt8) :
    Utf8.lossy (Lines.joined newline lines ++ t) =
      Lines.joined '\n' (lines.map Utf8.lossy) ++ Utf8.lossy t := by
  induction lines with
  | nil => rfl
  | cons line lines ih =>
    rw [Lines.joined_cons, List.append_assoc, List.cons_append,
      Utf8.lossy_append_cons (by decide), ih, List.map_cons, Lines.joined_cons, List.append_assoc,
      List.cons_append]
    rfl

theorem newline_not_mem_lossy {line : List UInt8} (h : newline ∉ line) : '\n' ∉ Utf8.lossy line :=
  Utf8.not_mem_lossy (b := newline) (by decide) (by decide) h

theorem segments_joined {lines : List (List UInt8)} {t : List UInt8}
    (hlines : ∀ line ∈ lines, newline ∉ line) (ht : newline ∉ t) :
    segments (Lines.joined newline lines ++ t) =
      lines.map (· ++ [newline]) ++ if t.isEmpty then [] else [t] := by
  rw [segments, Lines.ended_joined_append hlines, Lines.torn_joined_append hlines,
    Lines.ended_of_not_mem ht, Lines.torn_of_not_mem ht, List.append_nil]

variable {lib}

section

variable (hlib : lib.Lawful)

include hlib

theorem readLine_eq (raw : List Char) : readLine lib raw = (lib.fromStr raw).toOption := by
  rw [readLine]
  split
  · rename_i hblank
    cases hraw : lib.fromStr raw with
    | ok line => exact absurd hraw (hlib.not_blank raw line hblank)
    | error _ => rfl
  · rfl

theorem toOption_fromStr_cr (text : List Char) :
    (lib.fromStr (text ++ ['\r'])).toOption = (lib.fromStr text).toOption := by
  refine Option.ext fun line => ?_
  have hcr := hlib.fromStr_cr text line
  cases h : lib.fromStr (text ++ ['\r']) <;> cases h' : lib.fromStr text <;>
    simp_all [Except.toOption]

theorem toOption_fromStr_stripCr (text : List Char) :
    (lib.fromStr (stripCr text)).toOption = (lib.fromStr text).toOption := by
  rw [stripCr]
  split
  · rename_i hlast
    obtain ⟨text, rfl⟩ := List.getLast?_eq_some_iff.1 hlast
    rw [List.dropLast_concat, toOption_fromStr_cr hlib]
  · rfl

theorem toOption_fromStr_stripSuffix (raw : List UInt8) :
    (lib.fromStr (Utf8.lossy (stripSuffix carriageReturn raw))).toOption =
      (lib.fromStr (Utf8.lossy raw)).toOption := by
  rw [stripSuffix]
  split
  · rename_i hlast
    obtain ⟨raw, rfl⟩ := List.getLast?_eq_some_iff.1 hlast
    rw [List.dropLast_concat, Utf8.lossy_append_cons (by decide)]
    exact (toOption_fromStr_cr hlib _).symm
  · rfl

/-- Both readings of the file have the same lines, and the same ones of them parse. -/
theorem map_readLine_strLines (bytes : List UInt8) :
    (strLines (Utf8.lossy bytes)).map (readLine lib) = (segments bytes).map (parseSegment lib) := by
  induction bytes using Lines.rec_lines newline with
  | h lines t ht hlines =>
    have hlines' : ∀ line ∈ lines.map Utf8.lossy, '\n' ∉ line := by
      intro line hline
      obtain ⟨raw, hraw, rfl⟩ := List.mem_map.1 hline
      exact newline_not_mem_lossy (hlines raw hraw)
    rw [segments_joined hlines ht, strLines, lossy_joined, Lines.ended_joined_append hlines',
      Lines.torn_joined_append hlines', Lines.ended_of_not_mem (newline_not_mem_lossy ht),
      Lines.torn_of_not_mem (newline_not_mem_lossy ht), List.append_nil, List.map_append,
      List.map_append, List.map_map, List.map_map, List.map_map]
    congr 1
    · refine List.map_congr_left fun raw _ => ?_
      have hstrip : stripSuffix newline (raw ++ [newline]) = raw := by simp [stripSuffix]
      simp only [Function.comp_apply]
      rw [readLine_eq hlib, toOption_fromStr_stripCr hlib, parseSegment, hstrip,
        toOption_fromStr_stripSuffix hlib]
    · by_cases hempty : t = []
      · subst hempty
        rfl
      · -- a torn line has no newline to strip, and a carriage return at its end is white space
        have hstrip : stripSuffix newline t = t := by
          rw [stripSuffix, if_neg fun h => ht (List.mem_of_getLast? h)]
        rw [if_neg (by simpa [Utf8.lossy_eq_nil_iff] using hempty), if_neg (by simpa using hempty),
          List.map_singleton, List.map_singleton, readLine_eq hlib, parseSegment, hstrip,
          toOption_fromStr_stripSuffix hlib]

end

/-! ## The kept lines -/

/-- Whether a line of record id `id` is among the parsed ones. -/
def has (id : String) (parsed : List (Option LessonLine)) : Prop :=
  ∃ line ∈ parsed.reduceOption, line.recordId = id

instance (id : String) (parsed : List (Option LessonLine)) : Decidable (has id parsed) :=
  inferInstanceAs (Decidable (∃ line ∈ _, _))

/-- The kept lines, one after the other: each is judged by those after it. -/
def mask (closed : List String) (now : ℕ) : List (Option LessonLine) → List Bool
  | [] => []
  | none :: parsed => true :: mask closed now parsed
  | some line :: parsed =>
    (decide (¬has line.recordId parsed) && survives closed now line) :: mask closed now parsed

/-- Later lines put their own places for their record ids, and leave the others. -/
theorem get?_foldl_placed (parsed : List (Option LessonLine)) (k : ℕ) (last : SortedMap String ℕ)
    (id : String) : (has id parsed → ∃ n, k ≤ n ∧
        ((parsed.zipIdx k).foldl placed last).get? id = some n) ∧
      (¬has id parsed → ((parsed.zipIdx k).foldl placed last).get? id = last.get? id) := by
  induction parsed generalizing k last with
  | nil => exact ⟨fun ⟨_, h, _⟩ => absurd h List.not_mem_nil, fun _ => rfl⟩
  | cons o parsed ih =>
    rw [List.zipIdx_cons, List.foldl_cons]
    obtain ⟨hhas, hnot⟩ := ih (k + 1) (placed last (o, k))
    cases o with
    | none =>
      refine ⟨fun h => ?_, fun h => ?_⟩
      · obtain ⟨n, hn, hget⟩ := hhas (by simpa [has] using h)
        exact ⟨n, by omega, hget⟩
      · exact hnot (by simpa [has] using h)
    | some line =>
      refine ⟨fun h => ?_, fun h => ?_⟩
      · by_cases hlater : has id parsed
        · obtain ⟨n, hn, hget⟩ := hhas hlater
          exact ⟨n, by omega, hget⟩
        · have hid : id = line.recordId := by
            obtain ⟨line', hmem, rfl⟩ := h
            rw [List.reduceOption_cons_of_some, List.mem_cons] at hmem
            rcases hmem with rfl | hmem
            · rfl
            · exact absurd ⟨line', hmem, rfl⟩ hlater
          refine ⟨k, le_rfl, ?_⟩
          rw [hnot hlater, hid]
          exact SortedMap.get?_insert_self
      · have hlater : ¬has id parsed := fun ⟨line', hmem, he⟩ =>
          h ⟨line', by rw [List.reduceOption_cons_of_some]; exact List.mem_cons_of_mem _ hmem, he⟩
        have hne : id ≠ line.recordId := fun he =>
          h ⟨line, by rw [List.reduceOption_cons_of_some]; exact List.mem_cons_self .., he.symm⟩
        rw [hnot hlater]
        exact SortedMap.get?_insert_of_ne hne

/-- A line is live when no later one has its record id. -/
theorem liveAt_lastPlaces (before after : List (Option LessonLine)) (line : LessonLine) :
    liveAt (lastPlaces (before ++ some line :: after)) before.length line =
      decide (¬has line.recordId after) := by
  rw [liveAt, decide_eq_decide]
  rw [lastPlaces, List.zipIdx_append, List.foldl_append, List.zipIdx_cons, List.foldl_cons]
  obtain ⟨hhas, hnot⟩ := get?_foldl_placed after (0 + before.length + 1)
    (placed (before.zipIdx.foldl placed .empty) (some line, 0 + before.length)) line.recordId
  constructor
  · intro hget hlater
    obtain ⟨n, hn, hget'⟩ := hhas hlater
    rw [hget] at hget'
    have := Option.some.inj hget'
    omega
  · intro hlater
    rw [hnot hlater, Nat.zero_add]
    exact SortedMap.get?_insert_self

/-- The entries closed by the last lines of their record ids. -/
def closedBy (lines : List LessonLine) : List String := lines.filterMap closes

theorem filterMap_liveAt (before after : List (Option LessonLine)) :
    (after.zipIdx before.length).filterMap (fun entry => entry.1.bind fun line =>
      if liveAt (lastPlaces (before ++ after)) entry.2 line then closes line else none) =
      closedBy (Lists.lastBy LessonLine.recordId after.reduceOption) := by
  induction after generalizing before with
  | nil => rfl
  | cons o after ih =>
    have hih := ih (before ++ [o])
    rw [List.length_append, List.length_singleton, List.append_assoc, List.singleton_append] at hih
    rw [List.zipIdx_cons, List.filterMap_cons, hih]
    cases o with
    | none => rfl
    | some line =>
      dsimp only [Option.bind_some]
      rw [liveAt_lastPlaces, List.reduceOption_cons_of_some, Lists.lastBy_cons]
      by_cases hlater : ∃ y ∈ after.reduceOption, y.recordId = line.recordId
      · rw [if_neg (by simpa [has] using hlater), if_pos hlater]
      · rw [if_pos (by simpa [has] using hlater), if_neg hlater, closedBy, closedBy,
          List.filterMap_cons]

theorem map_keptAt (closed : List String) (now : ℕ) (before after : List (Option LessonLine)) :
    (after.zipIdx before.length).map (keptAt (lastPlaces (before ++ after)) closed now) =
      mask closed now after := by
  induction after generalizing before with
  | nil => rfl
  | cons o after ih =>
    have hih := ih (before ++ [o])
    rw [List.length_append, List.length_singleton, List.append_assoc, List.singleton_append] at hih
    rw [List.zipIdx_cons, List.map_cons, hih]
    cases o with
    | none => rfl
    | some line => rw [mask, keptAt, liveAt_lastPlaces]

theorem kept_eq (lib : Library) (segs : List (List UInt8)) (now : ℕ) :
    kept lib segs now = mask (closedBy (Lists.lastBy LessonLine.recordId
      (segs.map (parseSegment lib)).reduceOption)) now (segs.map (parseSegment lib)) := by
  have hclosed := filterMap_liveAt [] (segs.map (parseSegment lib))
  have hmap := map_keptAt (closedBy (Lists.lastBy LessonLine.recordId
    (segs.map (parseSegment lib)).reduceOption)) now [] (segs.map (parseSegment lib))
  rw [← hclosed] at hmap ⊢
  exact hmap

theorem select_cons {α : Type*} (x : α) (l : List α) (k : Bool) (keep : List Bool) :
    select (x :: l) (k :: keep) = if k then x :: select l keep else select l keep := by
  cases k <;> rfl

theorem map_select {α β : Type*} (f : α → β) (l : List α) (keep : List Bool) :
    (select l keep).map f = select (l.map f) keep := by
  induction l generalizing keep with
  | nil => rfl
  | cons x l ih =>
    cases keep with
    | nil => rfl
    | cons k keep =>
      rw [List.map_cons, select_cons, select_cons, apply_ite (List.map f), List.map_cons, ih]

theorem select_sublist {α : Type*} (l : List α) (keep : List Bool) : (select l keep).Sublist l := by
  induction l generalizing keep with
  | nil => exact .slnil
  | cons x l ih =>
    cases keep with
    | nil => exact List.nil_sublist _
    | cons k keep =>
      rw [select_cons]
      split
      · exact (ih keep).cons_cons x
      · exact (ih keep).cons x

section

variable (closed : List String) (now : ℕ)

/-- What is kept of the lines that parse: the last of each record id, but old attempts. -/
theorem reduceOption_select_mask (parsed : List (Option LessonLine)) :
    (select parsed (mask closed now parsed)).reduceOption =
      (Lists.lastBy LessonLine.recordId parsed.reduceOption).filter (survives closed now) := by
  induction parsed with
  | nil => rfl
  | cons o parsed ih =>
    cases o with
    | none => rw [mask, select_cons, if_pos rfl, List.reduceOption_cons_of_none,
        List.reduceOption_cons_of_none, ih]
    | some line =>
      rw [mask, select_cons, List.reduceOption_cons_of_some, Lists.lastBy_cons]
      by_cases hlater : ∃ y ∈ parsed.reduceOption, y.recordId = line.recordId
      · rw [if_neg (by simpa [has] using fun h => absurd hlater (by simpa using h)), if_pos hlater, ih]
      · rw [if_neg hlater, List.filter_cons, ← ih]
        have hnot : decide (¬has line.recordId parsed) = true := by simpa [has] using hlater
        rw [hnot, Bool.true_and]
        split
        · rw [List.reduceOption_cons_of_some]
        · rfl

/-- Every line that does not parse is kept, in its order. -/
theorem filter_select_mask {α : Type*} (read : α → Option LessonLine) (l : List α) :
    (select l (mask closed now (l.map read))).filter (fun x => (read x).isNone) =
      l.filter fun x => (read x).isNone := by
  induction l with
  | nil => rfl
  | cons x l ih =>
    rw [List.map_cons]
    cases hx : read x with
    | none => rw [mask, select_cons, if_pos rfl, List.filter_cons_of_pos (by simp [hx]),
        List.filter_cons_of_pos (by simp [hx]), ih]
    | some line =>
      rw [mask, select_cons, List.filter_cons_of_neg (a := x) (by simp [hx]), ← ih]
      split
      · rw [List.filter_cons_of_neg (by simp [hx])]
      · rfl

/-- Lines of distinct record ids that survive are all kept. -/
theorem mask_eq_replicate {parsed : List (Option LessonLine)}
    (hdistinct : parsed.reduceOption.Pairwise fun a b => a.recordId ≠ b.recordId)
    (hsurvive : ∀ line ∈ parsed.reduceOption, survives closed now line) :
    mask closed now parsed = List.replicate parsed.length true := by
  induction parsed with
  | nil => rfl
  | cons o parsed ih =>
    rw [List.length_cons, List.replicate_succ]
    cases o with
    | none => rw [mask, ih hdistinct hsurvive]
    | some line =>
      rw [List.reduceOption_cons_of_some] at hdistinct hsurvive
      obtain ⟨hline, hdistinct⟩ := List.pairwise_cons.1 hdistinct
      have hnot : ¬has line.recordId parsed := fun ⟨later, hmem, he⟩ => hline later hmem he.symm
      rw [mask, ih hdistinct fun l hl => hsurvive l (List.mem_cons_of_mem _ hl), decide_eq_true hnot,
        hsurvive line (List.mem_cons_self ..)]
      rfl

end

/-- The lines of a file, some left out, are the lines of what is left. -/
theorem segments_flatten {bytes : List UInt8} {segs : List (List UInt8)}
    (h : segs.Sublist (segments bytes)) : segments segs.flatten = segs := by
  induction bytes using Lines.rec_lines newline with
  | h lines t ht hlines =>
    rw [segments_joined hlines ht] at h
    obtain ⟨ended, torn, rfl, hended, htorn⟩ := List.sublist_append_iff.1 h
    obtain ⟨lines', hlines', rfl⟩ := List.sublist_map_iff.1 hended
    have hjoined : (lines'.map (· ++ [newline])).flatten = Lines.joined newline lines' :=
      List.flatMap_def.symm
    have hnot : ∀ line ∈ lines', newline ∉ line := fun line hline => hlines line (hlines'.subset hline)
    rw [List.flatten_append, hjoined]
    by_cases hempty : t.isEmpty
    · rw [if_pos hempty, List.sublist_nil] at htorn
      rw [htorn, List.flatten_nil, segments_joined hnot List.not_mem_nil]
      rfl
    · rw [if_neg hempty] at htorn
      rcases List.sublist_singleton.1 htorn with rfl | rfl
      · rw [List.flatten_nil, segments_joined hnot List.not_mem_nil]
        rfl
      · rw [List.flatten_singleton, segments_joined hnot ht, if_neg hempty]

/-! ## What the fold reads -/

/-- An entry but for its attempts. -/
def Queued.still (entry : Queued) : Queued := { entry with attempts := 0 }

/-- Two stores that differ in the attempts of their entries only. -/
structure Store.Alike (s s' : Store) : Prop where
  lessons : s'.lessons = s.lessons
  dismissed : s'.dismissed = s.dismissed
  queued : ∀ id, (s'.queued.get? id).map Queued.still = (s.queued.get? id).map Queued.still

variable {s s' : Store}

theorem Store.Alike.refl (s : Store) : s.Alike s := ⟨rfl, rfl, fun _ => rfl⟩

theorem Store.Alike.modify (h : s.Alike s') (id : String) {f : Queued → Queued}
    (hf : ∀ q q', q.still = q'.still → (f q).still = (f q').still) (id' : String) :
    ((s'.queued.modify id f).get? id').map Queued.still =
      ((s.queued.modify id f).get? id').map Queued.still := by
  have hid := h.queued id'
  rw [SortedMap.get?_modify, SortedMap.get?_modify]
  split
  · cases hs : s.queued.get? id' <;> cases hs' : s'.queued.get? id' <;>
      simp only [hs, hs', Option.map_some, Option.map_none, Option.some.injEq, reduceCtorEq] at hid ⊢
    exact hf _ _ hid
  · exact hid

theorem Store.Alike.isSome_get? (h : s.Alike s') (id : String) :
    (s'.queued.get? id).isSome = (s.queued.get? id).isSome := by
  rw [← Option.isSome_map (f := Queued.still), h.queued id, Option.isSome_map]

theorem Store.Alike.map_runId (h : s.Alike s') (id : String) :
    (s'.queued.get? id).map (·.runId) = (s.queued.get? id).map (·.runId) := by
  have hid := congrArg (Option.map (·.runId)) (h.queued id)
  rwa [Option.map_map, Option.map_map] at hid

theorem still_opened (q q' : Queued) (h : q.still = q'.still) :
    ({ q with opened := false } : Queued).still = ({ q' with opened := false } : Queued).still := by
  have := congrArg (fun q : Queued => { q with opened := false }) h
  exact this

theorem Store.Alike.apply (h : s.Alike s') (line : LessonLine) :
    (apply lib s line).Alike (apply lib s' line) := by
  cases line with
  | queued q =>
    rw [Lessons.apply, Lessons.apply, h.isSome_get?]
    split
    · exact h
    · refine ⟨h.lessons, h.dismissed, fun id => ?_⟩
      rw [SortedMap.get?_insert, SortedMap.get?_insert]
      split
      · rfl
      · exact h.queued id
  | attempt a => exact ⟨h.lessons, h.dismissed, h.modify a.queued fun _ _ hq => hq⟩
  | distilled d =>
    refine ⟨?_, h.dismissed, h.modify d.queued still_opened⟩
    dsimp only [Lessons.apply]
    rw [h.map_runId, h.lessons]
  | gaveUp g => exact ⟨h.lessons, h.dismissed, h.modify g.queued still_opened⟩
  | verdict v => exact ⟨by dsimp only [Lessons.apply]; rw [h.lessons], h.dismissed, h.queued⟩
  | retired r => exact ⟨by dsimp only [Lessons.apply]; rw [h.lessons], h.dismissed, h.queued⟩
  | dismissed d => exact ⟨h.lessons, by dsimp only [Lessons.apply]; rw [h.dismissed], h.queued⟩

/-- An attempt changes nothing but a count. -/
theorem Store.Alike.attempt (h : s.Alike s') (a : AttemptLine) :
    (Lessons.apply lib s (.attempt a)).Alike s' := by
  refine ⟨h.lessons, h.dismissed, fun id => ?_⟩
  dsimp only [Lessons.apply]
  rw [SortedMap.get?_modify, h.queued id]
  split
  · rw [Option.map_map]
    rfl
  · rfl

/-- Whether a line is no attempt, or one that `p` keeps. -/
theorem foldl_filter_alike {p : LessonLine → Bool}
    (hp : ∀ line, p line = false → ∃ a, line = .attempt a) (lines : List LessonLine)
    (h : s.Alike s') :
    (lines.foldl (Lessons.apply lib) s).Alike ((lines.filter p).foldl (Lessons.apply lib) s') := by
  induction lines generalizing s s' with
  | nil => exact h
  | cons line lines ih =>
    by_cases hline : p line
    · rw [List.filter_cons_of_pos hline]
      exact ih (h.apply line)
    · rw [List.filter_cons_of_neg hline]
      obtain ⟨a, rfl⟩ := hp line (Bool.not_eq_true _ ▸ hline)
      exact ih (h.attempt a)

/-! ## The attempts -/

/-- The attempt of an entry that a line is. -/
def attemptOf (id : String) : LessonLine → Option AttemptLine
  | .attempt a => if a.queued = id then some a else none
  | _ => none

def attemptsOf (id : String) (lines : List LessonLine) : List AttemptLine :=
  lines.filterMap (attemptOf id)

/-- Whether a line is the `queued` line of an entry. -/
def opens (id : String) : LessonLine → Bool
  | .queued q => q.recordId = id
  | _ => false

/-- The attempts that the fold counts for an entry, those after its `queued` line. -/
def counted (id : String) : List LessonLine → List AttemptLine
  | [] => []
  | line :: lines => if opens id line then attemptsOf id lines else counted id lines

section

variable {id : String} {lines : List LessonLine}

theorem counted_cons (line : LessonLine) (lines : List LessonLine) : counted id (line :: lines) =
    if opens id line then attemptsOf id lines else counted id lines := rfl

variable (lib) in
/-- A line counts for an entry there is when it is an attempt of it. -/
theorem get?_apply_of_some {q : Queued} (hq : s.queued.get? id = some q) (line : LessonLine) :
    ∃ q', (Lessons.apply lib s line).queued.get? id = some q' ∧
      q'.attempts = q.attempts + (attemptOf id line).toList.length := by
  cases line with
  | queued q₀ =>
    rw [Lessons.apply]
    split
    · exact ⟨q, hq, rfl⟩
    · rename_i hnone
      have hne : id ≠ q₀.recordId := by
        rintro rfl
        simp [hq] at hnone
      exact ⟨q, by rw [SortedMap.get?_insert_of_ne hne, hq], rfl⟩
  | attempt a =>
    dsimp only [Lessons.apply]
    rw [SortedMap.get?_modify, hq]
    by_cases ha : id = a.queued
    · exact ⟨_, if_pos ha, by simp [attemptOf, ha]⟩
    · exact ⟨q, if_neg ha, by simp [attemptOf, Ne.symm ha]⟩
  | distilled d =>
    dsimp only [Lessons.apply]
    rw [SortedMap.get?_modify, hq]
    split
    · exact ⟨_, rfl, rfl⟩
    · exact ⟨q, rfl, rfl⟩
  | gaveUp g =>
    dsimp only [Lessons.apply]
    rw [SortedMap.get?_modify, hq]
    split
    · exact ⟨_, rfl, rfl⟩
    · exact ⟨q, rfl, rfl⟩
  | verdict v => exact ⟨q, hq, rfl⟩
  | retired r => exact ⟨q, hq, rfl⟩
  | dismissed d => exact ⟨q, hq, rfl⟩

theorem attemptsOf_cons (line : LessonLine) (lines : List LessonLine) :
    attemptsOf id (line :: lines) = (attemptOf id line).toList ++ attemptsOf id lines := by
  rw [attemptsOf, attemptsOf, List.filterMap_cons]
  cases attemptOf id line <;> rfl

variable (lib) in
theorem get?_foldl_of_some (lines : List LessonLine) {q : Queued} (hq : s.queued.get? id = some q) :
    ∃ q', (lines.foldl (Lessons.apply lib) s).queued.get? id = some q' ∧
      q'.attempts = q.attempts + (attemptsOf id lines).length := by
  induction lines generalizing s q with
  | nil => exact ⟨q, hq, rfl⟩
  | cons line lines ih =>
    obtain ⟨q₁, hq₁, hcount₁⟩ := get?_apply_of_some lib hq line
    obtain ⟨q₂, hq₂, hcount₂⟩ := ih hq₁
    refine ⟨q₂, hq₂, ?_⟩
    rw [hcount₂, hcount₁, attemptsOf_cons, List.length_append, Nat.add_assoc]

/-- An entry has as many attempts as the fold counted for it. -/
theorem attempts_foldl (hnone : s.queued.get? id = none) {q : Queued}
    (hq : (lines.foldl (Lessons.apply lib) s).queued.get? id = some q) :
    q.attempts = (counted id lines).length := by
  induction lines generalizing s with
  | nil =>
    rw [List.foldl_nil, hnone] at hq
    cases hq
  | cons line lines ih =>
    rw [List.foldl_cons] at hq
    -- until its `queued` line, nothing makes the entry
    have hmodify : ∀ id' f, (s.queued.modify id' f).get? id = none := by
      intro id' f
      rw [SortedMap.get?_modify, hnone]
      split <;> rfl
    rw [counted_cons]
    cases line with
    | queued q₀ =>
      by_cases hid : q₀.recordId = id
      · subst hid
        have hget : (Lessons.apply lib s (.queued q₀)).queued.get? q₀.recordId = some
            { recordId := q₀.recordId, time := q₀.time, runId := q₀.runId, taskId := q₀.taskId,
              cause := q₀.cause, fps := q₀.fps, opened := true, attempts := 0 } := by
          rw [Lessons.apply, if_neg (by simp [hnone])]
          exact SortedMap.get?_insert_self
        obtain ⟨q', hq', hcount⟩ := get?_foldl_of_some lib lines hget
        rw [hq] at hq'
        rw [Option.some.inj hq', hcount, Nat.zero_add, if_pos (by simp [opens])]
      · rw [if_neg (by simpa [opens] using hid)]
        refine ih ?_ hq
        rw [Lessons.apply]
        split
        · exact hnone
        · rw [SortedMap.get?_insert_of_ne (Ne.symm hid), hnone]
    | attempt a => exact ih (hmodify _ _) hq
    | distilled d => exact ih (hmodify _ _) hq
    | gaveUp g => exact ih (hmodify _ _) hq
    | verdict v => exact ih (s := Lessons.apply lib s (.verdict v)) hnone hq
    | retired r => exact ih (s := Lessons.apply lib s (.retired r)) hnone hq
    | dismissed d => exact ih (s := Lessons.apply lib s (.dismissed d)) hnone hq

theorem attempts_fold {q : Queued} (hq : (fold lib lines).queued.get? id = some q) :
    q.attempts = (counted id lines).length :=
  attempts_foldl SortedMap.get?_empty hq

theorem queued_of_mem_counted {a : AttemptLine} (ha : a ∈ counted id lines) : a.queued = id := by
  induction lines with
  | nil => cases ha
  | cons line lines ih =>
    rw [counted_cons] at ha
    split at ha
    · obtain ⟨line', _, ha⟩ := List.mem_filterMap.1 ha
      cases line' with
      | attempt a' =>
        rw [attemptOf] at ha
        split at ha
        · rename_i hid
          exact Option.some.inj ha ▸ hid
        · cases ha
      | _ => cases ha
    · exact ih ha

theorem attemptsOf_filter (p : LessonLine → Bool) (lines : List LessonLine) :
    attemptsOf id (lines.filter p) = (attemptsOf id lines).filter fun a => p (.attempt a) := by
  rw [attemptsOf, attemptsOf, List.filterMap_filter, List.filter_filterMap]
  refine List.filterMap_congr fun line _ => ?_
  cases line with
  | attempt a =>
    by_cases ha : a.queued = id <;> by_cases hp : p (.attempt a) <;>
      simp [attemptOf, Option.filter, ha, hp]
  | _ => simp [attemptOf]

theorem counted_filter {p : LessonLine → Bool}
    (hp : ∀ line, p line = false → ∃ a, line = .attempt a) (lines : List LessonLine) :
    counted id (lines.filter p) = (counted id lines).filter fun a => p (.attempt a) := by
  induction lines with
  | nil => rfl
  | cons line lines ih =>
    rw [counted_cons]
    by_cases hopens : opens id line
    · have hline : p line := by
        by_contra hfalse
        obtain ⟨a, rfl⟩ := hp line (Bool.not_eq_true _ ▸ hfalse)
        cases hopens
      rw [List.filter_cons_of_pos hline, counted_cons, if_pos hopens, if_pos hopens,
        attemptsOf_filter]
    · rw [if_neg hopens]
      by_cases hline : p line
      · rw [List.filter_cons_of_pos hline, counted_cons, if_neg hopens, ih]
      · rw [List.filter_cons_of_neg hline, ih]

end

/-! ## A compaction -/

section

variable (lib : Library) (text : List Char) (origin : String)

theorem foldText_lessons :
    (foldText lib text origin).lessons = (fold lib (parse lib text origin).1).lessons := rfl

theorem foldText_dismissed :
    (foldText lib text origin).dismissed = (fold lib (parse lib text origin).1).dismissed := rfl

theorem foldText_queued :
    (foldText lib text origin).queued = (fold lib (parse lib text origin).1).queued := rfl

end

theorem not_survives {closed : List String} {now : ℕ} {line : LessonLine}
    (h : survives closed now line = false) : ∃ a, line = .attempt a := by
  cases line with
  | attempt a => exact ⟨a, rfl⟩
  | _ => cases h

/-- The file `after` reads as the file `before`, where the old attempts of closed entries may be
    gone. -/
structure Preserved (lib : Library) (origin : String) (now : ℕ) (before after : List UInt8) : Prop where
  /-- Lessons, dismissals and entries are the same, but for the attempts. -/
  alike : (foldText lib (Utf8.lossy before) origin).Alike (foldText lib (Utf8.lossy after) origin)
  /-- A closed entry loses the attempts that are a day old, any other none. -/
  attempts : ∀ id entry entry',
    (foldText lib (Utf8.lossy before) origin).queued.get? id = some entry →
    (foldText lib (Utf8.lossy after) origin).queued.get? id = some entry' →
    entry.attempts = entry'.attempts +
      if id ∈ closedBy (parse lib (Utf8.lossy before) origin).1 then
        ((counted id (parse lib (Utf8.lossy before) origin).1).filter
          (daySecs ≤ now - ·.time)).length
      else 0
  /-- A younger attempt that was counted is there and counted still. -/
  young : ∀ id,
    (counted id (parse lib (Utf8.lossy after) origin).1).filter (now - ·.time < daySecs) =
      (counted id (parse lib (Utf8.lossy before) origin).1).filter (now - ·.time < daySecs)
  /-- What does not parse is there byte for byte, in its order. -/
  unparsed : (segments after).filter (fun raw => (parseSegment lib raw).isNone) =
    (segments before).filter fun raw => (parseSegment lib raw).isNone
  /-- The two parses of the file agree. -/
  agree : (strLines (Utf8.lossy before)).map (readLine lib) = (segments before).map (parseSegment lib)
  /-- A second compaction at the same time keeps every line. -/
  again : kept lib (segments after) now = List.replicate (segments after).length true

section

variable (bytes : List UInt8) (now : ℕ) (origin : String)

/-- The lines of the rewritten file. -/
theorem segments_rewritten (lib : Library) : segments (rewritten lib bytes now) =
    select (segments bytes) (kept lib (segments bytes) now) :=
  segments_flatten (select_sublist _ _)

/-- A compaction closes no entry, and opens none. -/
theorem closedBy_filter (closed : List String) (lines : List LessonLine) :
    closedBy (lines.filter (survives closed now)) = closedBy lines := by
  induction lines with
  | nil => rfl
  | cons line lines ih =>
    rw [List.filter_cons]
    split
    · rw [closedBy, closedBy, List.filterMap_cons, List.filterMap_cons, ← closedBy, ih, ← closedBy]
    · rename_i hline
      obtain ⟨a, rfl⟩ := not_survives (Bool.not_eq_true _ ▸ hline)
      rw [ih, closedBy, closedBy, List.filterMap_cons]
      rfl

variable (hlib : lib.Lawful)

include hlib

theorem parse_lossy : (parse lib (Utf8.lossy bytes) origin).1 = Lists.lastBy LessonLine.recordId
    ((segments bytes).map (parseSegment lib)).reduceOption := by
  rw [parse_fst, ← map_readLine_strLines hlib, List.reduceOption, List.filterMap_map]
  rfl

theorem reduceOption_rewritten :
    ((segments (rewritten lib bytes now)).map (parseSegment lib)).reduceOption =
      (parse lib (Utf8.lossy bytes) origin).1.filter
        (survives (closedBy (parse lib (Utf8.lossy bytes) origin).1) now) := by
  rw [segments_rewritten, map_select, kept_eq, reduceOption_select_mask,
    parse_lossy bytes origin hlib]

theorem parse_rewritten : (parse lib (Utf8.lossy (rewritten lib bytes now)) origin).1 =
    (parse lib (Utf8.lossy bytes) origin).1.filter
      (survives (closedBy (parse lib (Utf8.lossy bytes) origin).1) now) := by
  rw [parse_lossy _ origin hlib, reduceOption_rewritten bytes now origin hlib]
  refine Lists.lastBy_eq_self (.filter _ ?_)
  rw [parse_lossy bytes origin hlib]
  exact Lists.pairwise_lastBy _ _

theorem pairwise_parse : (parse lib (Utf8.lossy bytes) origin).1.Pairwise
    fun a b => a.recordId ≠ b.recordId := by
  rw [parse_lossy bytes origin hlib]
  exact Lists.pairwise_lastBy _ _

theorem alike_rewritten : (foldText lib (Utf8.lossy bytes) origin).Alike
    (foldText lib (Utf8.lossy (rewritten lib bytes now)) origin) := by
  have hdrop : ∀ line, survives (closedBy (parse lib (Utf8.lossy bytes) origin).1) now line = false →
      ∃ a, line = .attempt a := fun _ => not_survives
  have halike : (fold lib _).Alike (fold lib _) :=
    foldl_filter_alike hdrop (parse lib (Utf8.lossy bytes) origin).1 (.refl {})
  rw [← parse_rewritten bytes now origin hlib] at halike
  refine ⟨?_, ?_, ?_⟩
  · rw [foldText_lessons, foldText_lessons, halike.lessons]
  · rw [foldText_dismissed, foldText_dismissed, halike.dismissed]
  · intro id
    rw [foldText_queued, foldText_queued, halike.queued]

theorem counted_rewritten (id : String) :
    counted id (parse lib (Utf8.lossy (rewritten lib bytes now)) origin).1 =
      (counted id (parse lib (Utf8.lossy bytes) origin).1).filter fun a =>
        !(id ∈ closedBy (parse lib (Utf8.lossy bytes) origin).1 ∧ daySecs ≤ now - a.time) := by
  rw [parse_rewritten bytes now origin hlib, counted_filter fun _ => not_survives]
  refine List.filter_congr fun a ha => ?_
  rw [survives, queued_of_mem_counted ha]

theorem attempts_rewritten {id : String} {entry entry' : Queued}
    (h : (foldText lib (Utf8.lossy bytes) origin).queued.get? id = some entry)
    (h' : (foldText lib (Utf8.lossy (rewritten lib bytes now)) origin).queued.get? id = some entry') :
    entry.attempts = entry'.attempts +
      if id ∈ closedBy (parse lib (Utf8.lossy bytes) origin).1 then
        ((counted id (parse lib (Utf8.lossy bytes) origin).1).filter
          (daySecs ≤ now - ·.time)).length
      else 0 := by
  rw [foldText_queued] at h h'
  rw [attempts_fold h, attempts_fold h', counted_rewritten bytes now origin hlib]
  split
  · rename_i hclosed
    rw [List.length_eq_length_filter_add (daySecs ≤ now - ·.time), Nat.add_comm]
    simp [hclosed]
  · rename_i hclosed
    simp [hclosed]

theorem rewritten_preserved :
    Preserved lib origin now bytes (rewritten lib bytes now) ∧
      ((compact lib bytes now).2 = bytes ∨ (compact lib bytes now).2 = rewritten lib bytes now) := by
  refine ⟨⟨alike_rewritten bytes now origin hlib, fun id entry entry' =>
    attempts_rewritten bytes now origin hlib, ?_, ?_, map_readLine_strLines hlib bytes, ?_⟩, ?_⟩
  · intro id
    rw [counted_rewritten bytes now origin hlib, List.filter_filter]
    refine List.filter_congr fun a _ => ?_
    rw [Bool.eq_iff_iff]
    simp only [Bool.and_eq_true, decide_eq_true_eq, Bool.not_eq_true', decide_eq_false_iff_not]
    omega
  · rw [segments_rewritten, kept_eq]
    exact filter_select_mask _ _ _ _
  · -- what is left has one line of each record id, and closes the same entries
    rw [kept_eq, mask_eq_replicate, List.length_map]
    · rw [reduceOption_rewritten bytes now origin hlib]
      exact (pairwise_parse bytes origin hlib).filter _
    · intro line hline
      rw [← parse_lossy _ origin hlib, parse_rewritten bytes now origin hlib, closedBy_filter]
      rw [reduceOption_rewritten bytes now origin hlib] at hline
      exact (List.mem_filter.1 hline).2
  · rw [compact]
    split
    · exact .inl rfl
    · dsimp only
      split
      · exact .inl rfl
      · exact .inr rfl

end

/-! A store with a closed entry, whose attempt of two days ago goes. -/

/-- A reader that knows the lines of a table. -/
def tableLibrary (table : List (List Char × LessonLine)) : Library where
  fromStr text :=
    match table.find? (·.1 = text.rdropWhile (· = '\r')) with
    | some entry => .ok entry.2
    | none => .error "expected value"
  toLowercase text := text.map Char.toLower
  isAlphanumeric := Char.isAlphanum
  sha256 := id

theorem tableLibrary_lawful {table : List (List Char × LessonLine)}
    (htable : ∀ entry ∈ table, ¬entry.1.all Globs.isWhitespace) : (tableLibrary table).Lawful where
  fromStr_cr text line := by
    dsimp only [tableLibrary]
    rw [List.rdropWhile_concat_pos _ _ _ (by simp)]
  not_blank text line hblank := by
    dsimp only [tableLibrary]
    split
    · rename_i entry hfind
      have hmem := List.mem_of_find?_eq_some hfind
      have hkey : entry.1 = text.rdropWhile (· = '\r') := by simpa using List.find?_some hfind
      refine absurd ?_ (htable entry hmem)
      rw [hkey, List.all_eq_true]
      intro c hc
      exact List.all_eq_true.1 hblank c ((List.rdropWhile_prefix _ _).subset hc)
    · intro h
      cases h

def closedTable : List (List Char × LessonLine) :=
  [("\x7b\"type\":\"queued\",\"v\":1,\"record_id\":\"r/t/distill\",\"at\":0,\"run_id\":\"r\",\"task_id\":\"t\",\"cause\":\"task_blocked\",\"dossier\":\"\",\"fps\":[]\x7d".toList,
      .queued { recordId := "r/t/distill", time := 0, runId := "r", taskId := some "t", cause := .taskBlocked }),
    ("\x7b\"type\":\"attempt\",\"v\":1,\"record_id\":\"r/t/distill/attempt/1\",\"at\":0,\"queued\":\"r/t/distill\",\"n\":1\x7d".toList,
      .attempt { recordId := "r/t/distill/attempt/1", time := 0, queued := "r/t/distill" }),
    ("\x7b\"type\":\"gave_up\",\"v\":1,\"record_id\":\"r/t/distill/gave_up\",\"at\":0,\"queued\":\"r/t/distill\",\"reason\":\"no answer\"\x7d".toList,
      .gaveUp { recordId := "r/t/distill/gave_up", time := 0, queued := "r/t/distill" })]

/-- The lines of the table, and a torn one. -/
def closedStore : List UInt8 :=
  closedTable.flatMap (fun entry => entry.1.map (fun c => c.toNat.toUInt8) ++ [newline]) ++ [123, 34, 0xE2]

theorem rewritten_preserved_closedStore :
    kept (tableLibrary closedTable) (segments closedStore) (2 * daySecs) = [true, false, true, true] ∧
      Preserved (tableLibrary closedTable) "lessons.jsonl" (2 * daySecs) closedStore
        (rewritten (tableLibrary closedTable) closedStore (2 * daySecs)) :=
  ⟨by decide +kernel, (rewritten_preserved closedStore (2 * daySecs) "lessons.jsonl"
    (tableLibrary_lawful (by decide +kernel))).1⟩

end Anthrex.Lessons
