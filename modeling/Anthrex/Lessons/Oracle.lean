import Anthrex.Lessons.Known

/-!
# Known failures by definition

The known failures derived again from scratch at every hit (`lessons/consolidate_oracle.rs`),
and that the one pass of `Anthrex.Lessons.Known` derives the same ones
(`known_eq_oracle`). Each of its caches has its lemma:

* `supersededAt_eq`: the candidates that are filtered and sorted once, and searched from the time
  the life formed;
* `grow_eq`: the files of a life and its supersession, computed again only when a hit adds files;
* `formation_eq`: the window of a forming life, whose first hit only moves forward, and the
  counts of its runs (`Counts`).
-/

namespace Anthrex.Lessons

open Anthrex.Globs Anthrex.History

namespace Oracle

/-- When the last of the clean runs that end a life came, searched among all tasks. -/
def supersededAt (cfg : Config) (fp : String) (formedAt : ℕ) (tasks : List TaskRecord)
    (hitRuns : Finset String) (files : List String) : Option ℕ :=
  let clean := (tasks.filter fun t => formedAt < t.time ∧ t.runId ∉ hitRuns).filter fun t =>
    isClean t ∧ anyIntersect t.owns files ∧ !t.signatures.any (·.fp = fp)
  nthRun cfg.knownCleanRuns ∅ (Sorting.byKey (·.time) clean)

def filesOf (hits : List Hit) : List String :=
  hits.foldl (fun files hit => hit.1.owns.foldl (fun files own =>
    if files.length < knownFilesMax ∧ own ∉ files then files ++ [own] else files) files) []

/-- The loop of `formation`, at the hit `j` of `hits`: the hits from `alive` on have not expired. -/
def formationFrom (cfg : Config) (hits : List Hit) :
    List Hit → (j alive : ℕ) → Option (ℕ × ℕ)
  | [], _, _ => none
  | hit :: rest, j, alive =>
    let stop := hit.1.time
    let alive := if isGap (cfg.expiryDays * daySecs) hits j stop then j else alive
    let first := ((List.range' alive (j + 1 - alive)).find? fun k =>
      hits[k]?.any fun hit => stop - hit.1.time ≤ cfg.knownWindowDays * daySecs).getD j
    let runs := ((slice hits first (j + 1)).map (·.1.runId)).toFinset
    if cfg.knownMin ≤ runs.card then some (first, j) else formationFrom cfg hits rest (j + 1) alive

def formation (cfg : Config) (hits : List Hit) : Option (ℕ × ℕ) := formationFrom cfg hits hits 0 0

/-- A life that started at the hit `start` takes the hits from `stop` on until it ends. -/
def grow (superseded : List String → Option ℕ) (now expiry : ℕ) (hits : List Hit) (start : ℕ) :
    List Hit → (last stop : ℕ) → Grown
  | rest, last, stop =>
    let supersededBy := superseded (filesOf (slice hits start stop))
    match rest with
    | [] => if supersededBy.isSome ∨ expiry < now - last then .over else .alive stop
    | next :: rest =>
      if (supersededBy.any (· < next.1.time)) ∨ expiry < next.1.time - last then .ended stop
      else grow superseded now expiry hits start rest next.1.time (stop + 1)

theorem lt_of_grow_ended {superseded : List String → Option ℕ} {now expiry start last stop after : ℕ}
    {hits rest : List Hit}
    (h : grow superseded now expiry hits start rest last stop = .ended after) :
    stop ≤ after ∧ after < stop + rest.length := by
  induction rest generalizing last stop with
  | nil =>
    rw [grow] at h
    split at h <;> cases h
  | cons next rest ih =>
    rw [grow] at h
    split at h
    · cases h
      simp
    · have := ih h
      rw [List.length_cons]
      omega

/-- The lives that the hits from `after` on make. -/
def liveFrom (cfg : Config) (fp : String) (hits : List Hit) (tasks : List TaskRecord) (now after : ℕ) :
    Option (ℕ × ℕ) :=
  match formation cfg (hits.drop after) with
  | none => none
  | some (first, formed) =>
    match hrest : hits.drop (after + formed) with
    | [] => none
    | hit :: rest =>
      match hgrow : grow (supersededAt cfg fp hit.1.time tasks (hitRuns hits)) now
          (cfg.expiryDays * daySecs) hits (after + first) rest hit.1.time (after + formed + 1) with
      | .ended next => liveFrom cfg fp hits tasks now next
      | .over => none
      | .alive stop => some (after + first, stop)
termination_by hits.length - after
decreasing_by
  have hlt := lt_of_grow_ended hgrow
  have hlength : (hits.drop (after + formed)).length = rest.length + 1 := by rw [hrest]; rfl
  rw [List.length_drop] at hlength
  omega

def live (cfg : Config) (tasks : List TaskRecord) (now : ℕ) (fp : String) (hits : List Hit) :
    Option (ℕ × ℕ) :=
  liveFrom cfg fp hits tasks now 0

def known (isAlphanumeric : Char → Bool) (history : List HistoryLine) (store : Store) (now : ℕ)
    (cfg : Config) : List Lesson :=
  let tasks := taskRecords history
  knownBy isAlphanumeric history tasks store (live cfg tasks now)

end Oracle

/-! ## Clean runs -/

theorem supersededAt_eq (cfg : Config) (fp : String) (formedAt : ℕ) (tasks : List TaskRecord)
    (hitRuns : Finset String) (files : List String) :
    supersededAt cfg fp formedAt (cleanCandidates tasks) hitRuns files =
      Oracle.supersededAt cfg fp formedAt tasks hitRuns files := by
  rw [supersededAt, Oracle.supersededAt, cleanCandidates, Sorting.drop_partitionPoint (Sorting.pairwise_byKey _ _),
    Sorting.filter_byKey, Sorting.filter_byKey, List.filter_filter, List.filter_filter,
    List.filter_filter]
  congr 2
  refine List.filter_congr fun t _ => ?_
  rw [Bool.eq_iff_iff]
  simp only [Bool.and_eq_true, decide_eq_true_eq]
  tauto

/-! ## The files of a life -/

theorem addFiles_fst (files : List String) (task : TaskRecord) : (addFiles files task).1 =
    task.owns.foldl (fun files own =>
      if files.length < knownFilesMax ∧ own ∉ files then files ++ [own] else files) files := rfl

/-- Files are only ever added at the end. -/
theorem prefix_addFiles (files : List String) (task : TaskRecord) :
    files <+: (addFiles files task).1 := by
  rw [addFiles_fst]
  induction task.owns generalizing files with
  | nil => exact List.prefix_rfl
  | cons own owns ih =>
    rw [List.foldl_cons]
    refine .trans ?_ (ih _)
    split
    · exact List.prefix_append _ _
    · exact List.prefix_rfl

theorem addFiles_of_not_added {files : List String} {task : TaskRecord}
    (h : (addFiles files task).2 = false) : (addFiles files task).1 = files := by
  have hle : (addFiles files task).1.length ≤ files.length := by
    simpa [addFiles] using h
  exact ((prefix_addFiles files task).eq_of_length_le hle).symm

theorem filesOf_concat (hits : List Hit) (hit : Hit) :
    Oracle.filesOf (hits ++ [hit]) = (addFiles (Oracle.filesOf hits) hit.1).1 := by
  rw [Oracle.filesOf, Oracle.filesOf, List.foldl_append]
  rfl

theorem slice_concat {α : Type*} {l rest : List α} {x : α} {start stop : ℕ} (hle : start ≤ stop)
    (hrest : l.drop stop = x :: rest) : slice l start (stop + 1) = slice l start stop ++ [x] := by
  have hlt : stop < l.length := by
    by_contra hge
    rw [List.drop_eq_nil_of_le (by omega)] at hrest
    cases hrest
  have hx : (l.drop start)[stop - start]? = some x := by
    rw [List.getElem?_drop, Nat.add_sub_cancel' hle]
    have h0 := congrArg (·[0]?) hrest
    simpa using h0
  rw [slice, slice, show stop + 1 - start = stop - start + 1 by omega, List.take_add_one, hx]
  rfl

/-- The life that keeps its files and its supersession grows as the one that computes both again
    at every hit. -/
theorem grow_eq {superseded : List String → Option ℕ} {now expiry last start stop : ℕ}
    {hits rest : List Hit} (hle : start ≤ stop) (hrest : hits.drop stop = rest) :
    grow superseded now expiry rest last stop (Oracle.filesOf (slice hits start stop))
        (superseded (Oracle.filesOf (slice hits start stop))) =
      Oracle.grow superseded now expiry hits start rest last stop := by
  induction rest generalizing last stop with
  | nil => rw [grow, Oracle.grow]
  | cons next rest ih =>
    rw [grow, Oracle.grow]
    dsimp only
    split
    · rfl
    · -- the files are those of one more hit, and so is the supersession, computed again or not
      have hfiles := filesOf_concat (slice hits start stop) next
      rw [← slice_concat hle hrest] at hfiles
      have hby : (if (addFiles (Oracle.filesOf (slice hits start stop)) next.1).2 then
          superseded (addFiles (Oracle.filesOf (slice hits start stop)) next.1).1 else
          superseded (Oracle.filesOf (slice hits start stop))) =
          superseded (Oracle.filesOf (slice hits start (stop + 1))) := by
        rw [hfiles]
        split
        · rfl
        · rename_i hadded
          rw [addFiles_of_not_added (Bool.not_eq_true _ ▸ hadded)]
      rw [hby, ← hfiles]
      refine ih (Nat.le_succ_of_le hle) ?_
      rw [← List.drop_drop, hrest, List.drop_one, List.tail_cons]

/-! ## The window of a forming life -/

/-- The counts are those of the runs of a list. -/
def Counts (counts : RunCounts) (runs : List String) : Prop :=
  ∀ run, counts.get? run = if runs.count run = 0 then none else some (runs.count run)

theorem Counts.nil : Counts .empty [] := fun _ => rfl

theorem Counts.count {counts : RunCounts} {runs : List String} (h : Counts counts runs)
    (run : String) : Counts (counts.count run) (runs ++ [run]) := by
  intro run'
  rw [RunCounts.count, SortedMap.get?_insert, h run, List.count_append, List.count_singleton]
  by_cases heq : run' = run
  · subst heq
    by_cases hzero : runs.count run' = 0 <;> simp [hzero]
  · have hne : (run == run') = false := by simpa using Ne.symm heq
    rw [if_neg heq, h run', hne]
    rfl

theorem Counts.uncount {counts : RunCounts} {runs : List String} {run : String}
    (h : Counts counts (run :: runs)) : Counts (counts.uncount run) runs := by
  have hrun : counts.get? run = some (runs.count run + 1) := by
    rw [h run, List.count_cons_self, if_neg (Nat.succ_ne_zero _)]
  intro run'
  have hrun' := h run'
  rw [RunCounts.uncount, hrun]
  dsimp only
  rw [Nat.add_sub_cancel]
  by_cases heq : run' = run
  · subst heq
    split
    · rw [SortedMap.get?_erase, if_pos rfl]
    · rw [SortedMap.get?_insert_self]
  · rw [List.count_cons_of_ne (Ne.symm heq)] at hrun'
    split
    · rw [SortedMap.get?_erase, if_neg heq, hrun']
    · rw [SortedMap.get?_insert_of_ne heq, hrun']

theorem Counts.length {counts : RunCounts} {runs : List String} (h : Counts counts runs) :
    counts.entries.length = runs.toFinset.card := by
  have hnodup : (counts.entries.map (·.1)).Nodup :=
    List.pairwise_map.2 (counts.sorted.imp fun hlt => hlt.ne)
  have hkeys : (counts.entries.map (·.1)).toFinset = runs.toFinset := by
    ext run
    rw [List.mem_toFinset, List.mem_toFinset, List.mem_map, ← List.count_pos_iff]
    have hrun := h run
    constructor
    · rintro ⟨⟨_, n⟩, hmem, rfl⟩
      rw [SortedMap.get?_eq_some_iff.2 hmem] at hrun
      by_contra hzero
      rw [if_pos (by omega)] at hrun
      cases hrun
    · intro hpos
      rw [if_neg (by omega)] at hrun
      exact ⟨_, SortedMap.get?_eq_some_iff.1 hrun, rfl⟩
  rw [← hkeys, List.toFinset_card_of_nodup hnodup, List.length_map]

/-- Whether a hit is out of the window that ends at `stop`. -/
def far (window stop : ℕ) (hit : Hit) : Bool := window < stop - hit.1.time

section

variable {window stop : ℕ} {runs : RunCounts}

theorem exists_near_of_far {hit : Hit} {span : List Hit} (hfar : far window stop hit)
    (hnear : ∃ hit' ∈ hit :: span, far window stop hit' = false) :
    ∃ hit' ∈ span, far window stop hit' = false := by
  obtain ⟨hit', hmem, hfalse⟩ := hnear
  rcases List.mem_cons.1 hmem with rfl | hmem
  · rw [hfar] at hfalse
    cases hfalse
  · exact ⟨hit', hmem, hfalse⟩

/-- The window slides past the hits of `span` that are too old, and their runs leave the counts. -/
theorem slide_eq (first : ℕ) {span : List Hit} (more : List Hit) (hruns : Counts runs (span.map (·.1.runId)))
    (hnear : ∃ hit ∈ span, far window stop hit = false) :
    ∃ runs', slide window stop (span ++ more) (first, runs) =
        (first + (span.takeWhile (far window stop)).length, runs') ∧
      Counts runs' ((span.dropWhile (far window stop)).map (·.1.runId)) := by
  induction span generalizing first runs with
  | nil =>
    obtain ⟨_, hmem, _⟩ := hnear
    cases hmem
  | cons hit span ih =>
    rw [List.cons_append, slide]
    by_cases hfar : far window stop hit
    · have hlater : ∃ hit ∈ span, far window stop hit = false :=
        exists_near_of_far hfar hnear
      obtain ⟨runs', hslide, hcounts⟩ := ih (first + 1) hruns.uncount hlater
      rw [if_pos (by simpa [far] using hfar), hslide, List.takeWhile_cons_of_pos hfar,
        List.dropWhile_cons_of_pos hfar, List.length_cons]
      exact ⟨runs', by rw [Nat.add_right_comm, Nat.add_assoc], hcounts⟩
    · rw [if_neg (by simpa [far] using hfar), List.takeWhile_cons_of_neg hfar,
        List.dropWhile_cons_of_neg hfar]
      exact ⟨runs, rfl, hruns⟩

/-- The first hit of the window, found among those that have not expired. -/
theorem find?_range' (before : List Hit) {span : List Hit} (more : List Hit)
    (hnear : ∃ hit ∈ span, far window stop hit = false) :
    (List.range' before.length span.length).find? (fun k =>
      (before ++ span ++ more)[k]?.any fun hit => stop - hit.1.time ≤ window) =
        some (before.length + (span.takeWhile (far window stop)).length) := by
  induction span generalizing before with
  | nil =>
    obtain ⟨_, hmem, _⟩ := hnear
    cases hmem
  | cons hit span ih =>
    have hget : (before ++ hit :: span ++ more)[before.length]? = some hit := by simp
    rw [List.length_cons, List.range'_succ]
    by_cases hfar : far window stop hit
    · have hlater : ∃ hit ∈ span, far window stop hit = false :=
        exists_near_of_far hfar hnear
      have hih := ih (before ++ [hit]) hlater
      rw [List.find?_cons_of_neg, List.takeWhile_cons_of_pos hfar]
      · rw [List.length_append, List.length_singleton, List.append_assoc before] at hih
        rw [List.length_cons, ← Nat.add_assoc, Nat.add_right_comm]
        exact hih
      · rw [hget]
        simpa [far, Nat.lt_sub_iff_add_lt] using hfar
    · rw [List.find?_cons_of_pos, List.takeWhile_cons_of_neg hfar]
      · rfl
      · rw [hget]
        simpa [far] using hfar

/-- The window at the next hit: both loops find its first hit, and the counts are those of its
    runs. -/
theorem window_step {hits before gone span rest : List Hit} {hit : Hit}
    (hhits : hits = before ++ gone ++ span ++ hit :: rest)
    (hgone : ∀ old ∈ gone, far window hit.1.time old)
    (hruns : Counts runs (span.map (·.1.runId))) :
    ∃ gone' span' runs', before ++ gone' ++ span' = before ++ gone ++ span ++ [hit] ∧
      (∀ old ∈ gone', far window hit.1.time old) ∧ Counts runs' (span'.map (·.1.runId)) ∧
      slide window hit.1.time (hits.drop (before.length + gone.length))
          (before.length + gone.length, runs.count hit.1.runId) =
        (before.length + gone'.length, runs') ∧
      (List.range' before.length ((before ++ gone ++ span).length + 1 - before.length)).find? (fun k =>
          hits[k]?.any fun hit' => hit.1.time - hit'.1.time ≤ window) =
        some (before.length + gone'.length) ∧
      slice hits (before.length + gone'.length) ((before ++ gone ++ span).length + 1) = span' := by
  have hnear : ∃ hit' ∈ span ++ [hit], far window hit.1.time hit' = false :=
    ⟨hit, by simp, by simp [far]⟩
  have hnear' : ∃ hit' ∈ gone ++ (span ++ [hit]), far window hit.1.time hit' = false :=
    ⟨hit, by simp, by simp [far]⟩
  have hcounts : Counts (runs.count hit.1.runId) ((span ++ [hit]).map (·.1.runId)) := by
    rw [List.map_append]
    exact hruns.count hit.1.runId
  obtain ⟨runs', hslide, hruns'⟩ := slide_eq (before.length + gone.length) rest hcounts hnear
  have hfind := find?_range' before rest hnear'
  -- everything out of the window before is still out of it
  rw [List.takeWhile_append_of_pos hgone] at hfind
  have hout : ∀ old ∈ (span ++ [hit]).takeWhile (far window hit.1.time), far window hit.1.time old :=
    fun _ hold => List.mem_takeWhile_imp hold
  have hsplit : (span ++ [hit]).takeWhile (far window hit.1.time) ++
      (span ++ [hit]).dropWhile (far window hit.1.time) = span ++ [hit] :=
    List.takeWhile_append_dropWhile
  generalize (span ++ [hit]).takeWhile (far window hit.1.time) = out at hfind hslide hsplit hout
  generalize (span ++ [hit]).dropWhile (far window hit.1.time) = span' at hruns' hsplit
  have hdrop : hits.drop (before.length + gone.length) = span ++ [hit] ++ rest := by
    rw [hhits, ← List.length_append, List.append_assoc (before ++ gone), List.drop_left]
    simp
  have hhits' : hits = before ++ (gone ++ (span ++ [hit])) ++ rest := by simp [hhits]
  refine ⟨gone ++ out, span', runs', ?_, ?_, hruns', ?_, ?_, ?_⟩
  · rw [← List.append_assoc, List.append_assoc (before ++ gone), hsplit]
    simp
  · intro old hold
    rcases List.mem_append.1 hold with hold | hold
    · exact hgone old hold
    · exact hout old hold
  · rw [hdrop, hslide, List.length_append, Nat.add_assoc]
  · rw [hhits', show (before ++ gone ++ span).length + 1 - before.length =
      (gone ++ (span ++ [hit])).length by simp only [List.length_append, List.length_singleton]; omega]
    exact hfind
  · have hhits'' : hits = (before ++ (gone ++ out)) ++ (span' ++ rest) := by
      rw [hhits', ← hsplit]
      simp
    have hlength := congrArg List.length hsplit
    rw [slice, hhits'', ← List.length_append, List.drop_left, List.take_left']
    simp only [List.length_append, List.length_singleton] at hlength ⊢
    omega

/-- At the hit `j`, those before it are the expired ones, those out of the window and those in
    it; the last are counted. Both loops then form the same life. -/
theorem formationFrom_eq {cfg : Config} {hits rest : List Hit} (before gone span : List Hit)
    (hhits : hits = before ++ gone ++ span ++ rest)
    (hsorted : hits.Pairwise (·.1.time ≤ ·.1.time))
    (hgone : ∀ old ∈ gone, ∀ hit ∈ rest, far (cfg.knownWindowDays * daySecs) hit.1.time old)
    (hruns : Counts runs (span.map (·.1.runId))) :
    formationFrom cfg hits rest (before ++ gone ++ span).length (before.length + gone.length, runs) =
      Oracle.formationFrom cfg hits rest (before ++ gone ++ span).length before.length := by
  induction rest generalizing before gone span runs with
  | nil => rfl
  | cons hit rest ih =>
    have hlater : ∀ hit' ∈ rest, hit.1.time ≤ hit'.1.time := by
      rw [hhits] at hsorted
      exact (List.pairwise_cons.1 (List.pairwise_append.1 hsorted).2.1).1
    -- the rest of the step, once a gap has expired what came before it
    have hstep : ∀ (before gone span : List Hit) (runs : RunCounts) (j : ℕ),
        hits = before ++ gone ++ span ++ hit :: rest → j = (before ++ gone ++ span).length →
        (∀ old ∈ gone, ∀ hit' ∈ hit :: rest,
          far (cfg.knownWindowDays * daySecs) hit'.1.time old) →
        Counts runs (span.map (·.1.runId)) →
        (let s := slide (cfg.knownWindowDays * daySecs) hit.1.time
            (hits.drop (before.length + gone.length))
            (before.length + gone.length, runs.count hit.1.runId)
          if cfg.knownMin ≤ s.2.entries.length then some (s.1, j)
          else formationFrom cfg hits rest (j + 1) s) =
        (let first := ((List.range' before.length (j + 1 - before.length)).find? fun k =>
            hits[k]?.any fun hit' =>
              hit.1.time - hit'.1.time ≤ cfg.knownWindowDays * daySecs).getD j
          let runs := ((slice hits first (j + 1)).map (·.1.runId)).toFinset
          if cfg.knownMin ≤ runs.card then some (first, j)
          else Oracle.formationFrom cfg hits rest (j + 1) before.length) := by
      intro before gone span runs j hhits hj hgone hruns
      subst hj
      obtain ⟨gone', span', runs', hall, hgone', hruns', hslide, hfind, hslice⟩ := window_step hhits
        (fun old hold => hgone old hold hit (List.mem_cons_self ..)) hruns
      rw [hslide, hfind]
      dsimp only [Option.getD_some]
      rw [hslice, hruns'.length]
      split
      · rfl
      · have hlength : (before ++ gone ++ span).length + 1 = (before ++ gone' ++ span').length := by
          rw [hall, ← List.length_concat, List.concat_eq_append]
        rw [hlength]
        refine ih before gone' span' ?_ (fun old hold hit' hhit' => ?_) hruns'
        · rw [hall, hhits, List.append_assoc _ [hit]]
          rfl
        · have hfar := hgone' old hold
          simp only [far, decide_eq_true_eq] at hfar ⊢
          have := hlater hit' hhit'
          omega
    rw [formationFrom, Oracle.formationFrom]
    dsimp only
    split
    · have hgap := hstep (before ++ gone ++ span) [] [] .empty (before ++ gone ++ span).length
        (by simpa using hhits) (by simp) (by simp) .nil
      simpa using hgap
    · exact hstep before gone span runs _ hhits rfl hgone hruns

end

theorem formation_eq (cfg : Config) {hits : List Hit}
    (hsorted : hits.Pairwise (·.1.time ≤ ·.1.time)) :
    formation cfg hits = Oracle.formation cfg hits :=
  formationFrom_eq [] [] [] rfl hsorted (by simp) .nil

/-! ## The lives -/

theorem le_of_formationFrom {cfg : Config} {hits rest : List Hit} {j alive first formed : ℕ}
    (h : Oracle.formationFrom cfg hits rest j alive = some (first, formed)) : first ≤ formed := by
  induction rest generalizing j alive with
  | nil => cases h
  | cons hit rest ih =>
    rw [Oracle.formationFrom] at h
    generalize (if isGap _ hits j hit.1.time then j else alive) = alive' at h
    split at h
    · obtain ⟨rfl, rfl⟩ := Prod.mk.inj (Option.some.inj h)
      cases hfind : (List.range' alive' (j + 1 - alive')).find? _ with
      | none => exact le_rfl
      | some k =>
        have hk := List.mem_range'_1.1 (List.mem_of_find?_eq_some hfind)
        rw [Option.getD_some]
        omega
    · exact ih h

section

variable (cfg : Config) (fp : String) {hits rest : List Hit} (tasks : List TaskRecord)
  (now after : ℕ) {first formed : ℕ} {hit : Hit}

/-- The life that formed grows alike. -/
theorem grow_formed (hsorted : hits.Pairwise (·.1.time ≤ ·.1.time))
    (hsome : formation cfg (hits.drop after) = some (first, formed))
    (hrest : hits.drop (after + formed) = hit :: rest) :
    let superseded := supersededAt cfg fp hit.1.time (cleanCandidates tasks) (hitRuns hits)
    let files := (slice hits (after + first) (after + formed + 1)).foldl
      (fun files hit => (addFiles files hit.1).1) []
    grow superseded now (cfg.expiryDays * daySecs) rest hit.1.time (after + formed + 1) files
        (superseded files) =
      Oracle.grow (Oracle.supersededAt cfg fp hit.1.time tasks (hitRuns hits)) now
        (cfg.expiryDays * daySecs) hits (after + first) rest hit.1.time (after + formed + 1) := by
  have hsuperseded : supersededAt cfg fp hit.1.time (cleanCandidates tasks) (hitRuns hits) =
      Oracle.supersededAt cfg fp hit.1.time tasks (hitRuns hits) :=
    funext fun files => supersededAt_eq cfg fp hit.1.time tasks (hitRuns hits) files
  rw [formation_eq cfg (hsorted.sublist (List.drop_sublist after hits))] at hsome
  have hle := le_of_formationFrom hsome
  dsimp only
  rw [hsuperseded]
  refine grow_eq (by omega) ?_
  rw [← List.drop_drop, hrest, List.drop_one, List.tail_cons]

/-- What the oracle does at a life that formed. -/
theorem Oracle.liveFrom_formed (hsome : Oracle.formation cfg (hits.drop after) = some (first, formed))
    (hrest : hits.drop (after + formed) = hit :: rest) {grown : Grown}
    (hgrown : Oracle.grow (Oracle.supersededAt cfg fp hit.1.time tasks (hitRuns hits)) now
        (cfg.expiryDays * daySecs) hits (after + first) rest hit.1.time (after + formed + 1) = grown) :
    (∀ next, grown = .ended next → Oracle.liveFrom cfg fp hits tasks now after =
        Oracle.liveFrom cfg fp hits tasks now next) ∧
      (grown = .over → Oracle.liveFrom cfg fp hits tasks now after = none) ∧
      ∀ stop, grown = .alive stop →
        Oracle.liveFrom cfg fp hits tasks now after = some (after + first, stop) := by
  rw [Oracle.liveFrom]
  simp only [hsome]
  split
  · rename_i heq
    rw [hrest] at heq
    cases heq
  · rename_i heq
    rw [hrest] at heq
    obtain ⟨rfl, rfl⟩ := List.cons.inj heq
    split
    all_goals
      rename_i hgrow
      rw [hgrown] at hgrow
      subst hgrow
      simp

theorem liveFrom_eq (hsorted : hits.Pairwise (·.1.time ≤ ·.1.time)) :
    liveFrom cfg fp hits (cleanCandidates tasks) now after =
      Oracle.liveFrom cfg fp hits tasks now after := by
  have hform : ∀ after, formation cfg (hits.drop after) = Oracle.formation cfg (hits.drop after) :=
    fun after => formation_eq cfg (hsorted.sublist (List.drop_sublist after hits))
  fun_induction liveFrom cfg fp hits (cleanCandidates tasks) now after with
  | case1 after hnone =>
    rw [Oracle.liveFrom, ← hform, hnone]
  | case2 after first formed hsome hrest =>
    rw [Oracle.liveFrom, ← hform, hsome]
    dsimp only
    split
    · rfl
    · simp_all
  | case3 after first formed hsome hit rest hrest superseded held files next hgrow ih =>
    have hgrow' := (grow_formed cfg fp tasks now after hsorted hsome hrest).symm.trans hgrow
    rw [hform] at hsome
    rw [ih, (Oracle.liveFrom_formed cfg fp tasks now after hsome hrest hgrow').1 next rfl]
  | case4 after first formed hsome hit rest hrest superseded held files hgrow =>
    have hgrow' := (grow_formed cfg fp tasks now after hsorted hsome hrest).symm.trans hgrow
    rw [hform] at hsome
    rw [(Oracle.liveFrom_formed cfg fp tasks now after hsome hrest hgrow').2.1 rfl]
  | case5 after first formed hsome hit rest hrest superseded held files stop hgrow =>
    have hgrow' := (grow_formed cfg fp tasks now after hsorted hsome hrest).symm.trans hgrow
    rw [hform] at hsome
    rw [(Oracle.liveFrom_formed cfg fp tasks now after hsome hrest hgrow').2.2 stop rfl]

end

theorem known_eq_oracle (isAlphanumeric : Char → Bool) (history : List HistoryLine) (store : Store)
    (now : ℕ) (cfg : Config) :
    known isAlphanumeric history store now cfg =
      Oracle.known isAlphanumeric history store now cfg := by
  rw [known, Oracle.known, knownBy, knownBy]
  congr 1
  refine List.filterMap_congr fun ⟨fp, hits⟩ _ => ?_
  dsimp only
  rw [live, Oracle.live, liveFrom_eq cfg fp _ now 0 (Sorting.pairwise_byKey _ _)]

end Anthrex.Lessons
