import Anthrex.History.Reverts

/-!
# Passes over a growing log

A base branch's log grows, and passes read it now and then. `reverts` is the single pass that
reads the whole of it; each pass finds what the single one finds in the commits that are new to it
(`detectReverts_grown`), as long as commits that name a same commit are read together
(`ReadTogether`).
-/

namespace Anthrex.History

/-! ## Names -/

/-- A sha fits a commit id that it is, or abbreviates. -/
def Fits (sha id : String) : Prop :=
  asciiLowercase sha = id ∨
    minAbbrev ≤ (asciiLowercase sha).toList.length ∧ (asciiLowercase sha).toList <+: id.toList

instance (sha id : String) : Decidable (Fits sha id) := inferInstanceAs (Decidable (_ ∨ _))

/-- A commit whose message names another as reverted. -/
def Names (c : Commit) (id : String) : Prop := ∃ sha ∈ revertedShas c.body, Fits sha id

instance (c : Commit) (id : String) : Decidable (Names c id) :=
  inferInstanceAs (Decidable (∃ sha ∈ _, _))

variable {wanted wanted' : Wanted} {sha : String} {hit : String × String × Option String}

/-- A sha names a candidate that it fits. -/
theorem of_candidateOf (h : candidateOf wanted sha = some hit) :
    Fits sha hit.1 ∧ wanted.get? hit.1 = some hit.2 := by
  rw [candidateOf] at h
  split at h
  · rename_i hget
    cases h
    exact ⟨.inl rfl, hget⟩
  · split at h
    · cases h
    · rename_i hlength
      split at h
      · rename_i hit' hfilter
        cases h
        have hmem := List.mem_singleton_self hit
        rw [← hfilter] at hmem
        obtain ⟨hmem, hprefix⟩ := List.mem_filter.1 hmem
        exact ⟨.inr ⟨Nat.le_of_not_lt hlength, by simpa using hprefix⟩,
          SortedMap.get?_eq_some_iff.2 hmem⟩
      · cases h

/-- What a sha names depends on the candidates that it fits only. -/
theorem candidateOf_congr (h : ∀ id, Fits sha id → wanted.get? id = wanted'.get? id) :
    candidateOf wanted sha = candidateOf wanted' sha := by
  rw [candidateOf, candidateOf, h _ (.inl rfl)]
  split
  · rfl
  · split
    · rfl
    · rename_i hlength
      have hfilter : wanted.filter (fun id _ => (asciiLowercase sha).toList <+: id.toList) =
          wanted'.filter fun id _ => (asciiLowercase sha).toList <+: id.toList := by
        refine SortedMap.ext_get? fun id => ?_
        rw [SortedMap.get?_filter, SortedMap.get?_filter]
        by_cases hid : (asciiLowercase sha).toList <+: id.toList
        · rw [h id (.inr ⟨Nat.le_of_not_lt hlength, hid⟩)]
        · simp [hid]
      have hentries := congrArg SortedMap.entries hfilter
      dsimp only [SortedMap.filter] at hentries
      rw [hentries]

theorem candidateOf_eq_none (h : ∀ id, Fits sha id → wanted.get? id = none) :
    candidateOf wanted sha = none := by
  cases hhit : candidateOf wanted sha with
  | none => rfl
  | some hit =>
    obtain ⟨hfits, hget⟩ := of_candidateOf hhit
    rw [h _ hfits] at hget
    cases hget

/-! ## One pass -/

/-- The record without the time of the pass that wrote it. -/
def RevertRecord.timeless (r : RevertRecord) : RevertRecord := { r with time := 0 }

/-- The candidates with the reverts found. -/
def withReverts (wanted : Wanted) (found : List RevertRecord) : Wanted :=
  found.foldl (fun m r => m.insert r.revertCommit (r.runId, r.taskId)) wanted

variable {recorded recorded' : List String} {now : ℕ} {log log' : List Commit}

theorem reverts_cons (c : Commit) (log : List Commit) (wanted : Wanted) :
    reverts recorded now (c :: log) wanted =
      if !isCommitId c.id ∨ revertId c.id ∈ recorded then reverts recorded now log wanted
      else
        match (revertedShas c.body).findSome? (candidateOf wanted) with
        | none => reverts recorded now log wanted
        | some (reverted, runId, taskId) =>
          { recordId := revertId c.id
            time := now
            runId
            taskId
            reverted
            revertCommit := c.id } :: reverts recorded now log (wanted.insert c.id (runId, taskId)) :=
  rfl

/-- A record is of the first commit, which names a candidate, or of the rest of the log. -/
theorem mem_reverts_cons {c : Commit} {r : RevertRecord}
    (hr : r ∈ reverts recorded now (c :: log) wanted) :
    r ∈ reverts recorded now log wanted ∨
      ∃ sha ∈ revertedShas c.body, ∃ hit, candidateOf wanted sha = some hit ∧
        (r = ⟨revertId c.id, now, hit.2.1, hit.2.2, hit.1, c.id⟩ ∨
          r ∈ reverts recorded now log (wanted.insert c.id hit.2)) := by
  rw [reverts_cons] at hr
  split at hr
  · exact .inl hr
  · split at hr
    · exact .inl hr
    · rename_i reverted runId taskId hhit
      obtain ⟨sha, hsha, hcandidate⟩ := List.exists_of_findSome?_eq_some hhit
      exact .inr ⟨sha, hsha, _, hcandidate, List.mem_cons.1 hr⟩

theorem reverts_append (recorded : List String) (now : ℕ) (log log' : List Commit) (wanted : Wanted) :
    reverts recorded now (log ++ log') wanted = reverts recorded now log wanted ++
      reverts recorded now log' (withReverts wanted (reverts recorded now log wanted)) := by
  induction log generalizing wanted with
  | nil => rfl
  | cons c log ih =>
    rw [List.cons_append, reverts_cons, reverts_cons]
    split
    · exact ih wanted
    · split
      · exact ih wanted
      · rw [ih, List.cons_append]
        rfl

theorem map_timeless_reverts (recorded : List String) (now : ℕ) (log : List Commit)
    (wanted : Wanted) : (reverts recorded now log wanted).map RevertRecord.timeless =
      reverts recorded 0 log wanted := by
  induction log generalizing wanted with
  | nil => rfl
  | cons c log ih =>
    rw [reverts_cons, reverts_cons]
    split
    · exact ih wanted
    · split
      · exact ih wanted
      · rw [List.map_cons, ih]
        rfl

theorem withReverts_timeless (wanted : Wanted) (found : List RevertRecord) :
    withReverts wanted (found.map RevertRecord.timeless) = withReverts wanted found := by
  rw [withReverts, List.foldl_map]
  rfl

/-- Where a record comes from: a commit that names what it reverts. -/
theorem of_mem_reverts {r : RevertRecord} (hr : r ∈ reverts recorded now log wanted) :
    ∃ c ∈ log, r.revertCommit = c.id ∧ r.recordId = revertId c.id ∧ Names c r.reverted := by
  induction log generalizing wanted with
  | nil => cases hr
  | cons c log ih =>
    have hlater : ∀ {wanted}, r ∈ reverts recorded now log wanted →
        ∃ c' ∈ c :: log, r.revertCommit = c'.id ∧ r.recordId = revertId c'.id ∧
          Names c' r.reverted := by
      intro wanted hr
      obtain ⟨c', hc', h⟩ := ih hr
      exact ⟨c', List.mem_cons_of_mem _ hc', h⟩
    rcases mem_reverts_cons hr with hr | ⟨sha, hsha, hit, hcandidate, rfl | hr⟩
    · exact hlater hr
    · exact ⟨c, List.mem_cons_self .., rfl, rfl, sha, hsha, (of_candidateOf hcandidate).1⟩
    · exact hlater hr

/-- What is reverted is a candidate that the pass started with, or a commit of the log. -/
theorem reverted_of_mem_reverts {r : RevertRecord} (hr : r ∈ reverts recorded now log wanted) :
    (∃ hit, wanted.get? r.reverted = some hit) ∨ ∃ c ∈ log, c.id = r.reverted := by
  induction log generalizing wanted with
  | nil => cases hr
  | cons c log ih =>
    rcases mem_reverts_cons hr with hr | ⟨sha, -, hit, hcandidate, rfl | hr⟩
    · exact (ih hr).imp_right fun ⟨c', hc', h⟩ => ⟨c', List.mem_cons_of_mem _ hc', h⟩
    · exact .inl ⟨_, (of_candidateOf hcandidate).2⟩
    · rcases ih hr with ⟨hit', hget⟩ | ⟨c', hc', hid⟩
      · rw [SortedMap.get?_insert] at hget
        split at hget
        · rename_i hid
          exact .inr ⟨c, List.mem_cons_self .., hid.symm⟩
        · exact .inl ⟨hit', hget⟩
      · exact .inr ⟨c', List.mem_cons_of_mem _ hc', hid⟩

/-- The candidates of a pass are only ever of the runs it started with. -/
theorem runId_of_mem_reverts {runs : SortedSet String}
    (hruns : ∀ id hit, wanted.get? id = some hit → hit.1 ∈ runs) {r : RevertRecord}
    (hr : r ∈ reverts recorded now log wanted) : r.runId ∈ runs := by
  induction log generalizing wanted with
  | nil => cases hr
  | cons c log ih =>
    rcases mem_reverts_cons hr with hr | ⟨sha, -, hit, hcandidate, hr⟩
    · exact ih hruns hr
    · have hrun : hit.2.1 ∈ runs := hruns _ _ (of_candidateOf hcandidate).2
      rcases hr with rfl | hr
      · exact hrun
      · refine ih (fun id hit' hget => ?_) hr
        rw [SortedMap.get?_insert] at hget
        split at hget
        · cases hget
          exact hrun
        · exact hruns id hit' hget

theorem get?_withReverts {found : List RevertRecord} {id : String}
    (h : ∀ r ∈ found, r.revertCommit ≠ id) : (withReverts wanted found).get? id = wanted.get? id := by
  induction found generalizing wanted with
  | nil => rfl
  | cons r found ih =>
    rw [withReverts, List.foldl_cons, ← withReverts, ih fun r' hr' => h r' (List.mem_cons_of_mem _ hr'),
      SortedMap.get?_insert_of_ne (h r (List.mem_cons_self ..)).symm]

theorem reverts_eq_nil (h : ∀ c ∈ log, isCommitId c.id → revertId c.id ∉ recorded →
    ∀ sha ∈ revertedShas c.body, candidateOf wanted sha = none) :
    reverts recorded now log wanted = [] := by
  induction log with
  | nil => rfl
  | cons c log ih =>
    have hlog := ih fun c' hc' => h c' (List.mem_cons_of_mem _ hc')
    rw [reverts_cons]
    split
    · exact hlog
    · rename_i hskip
      simp only [Bool.not_eq_true', not_or, Bool.not_eq_false] at hskip
      have hnone : (revertedShas c.body).findSome? (candidateOf wanted) = none :=
        List.findSome?_eq_none_iff.2 (h c (List.mem_cons_self ..) hskip.1 hskip.2)
      rw [hnone]
      exact hlog

/-! ## The candidates of a pass -/

section

variable {base : String} {history : List HistoryLine} {found : List RevertRecord}

theorem revertsOf_append (history : List HistoryLine) (found : List RevertRecord) :
    revertsOf (history ++ found.map .revert) = revertsOf history ++ found := by
  rw [revertsOf, revertsOf, List.filterMap_append, List.filterMap_map]
  congr 1
  exact List.filterMap_some

theorem filterMap_append_reverts {β : Type*} {f : HistoryLine → Option β}
    (hf : ∀ r, f (.revert r) = none) (history : List HistoryLine) (found : List RevertRecord) :
    (history ++ found.map HistoryLine.revert).filterMap f = history.filterMap f := by
  have hnil : found.filterMap (f ∘ HistoryLine.revert) = [] :=
    List.filterMap_eq_nil_iff.2 fun r _ => hf r
  rw [List.filterMap_append, List.filterMap_map, hnil, List.append_nil]

theorem acceptedRuns_append : acceptedRuns base now (history ++ found.map .revert) =
    acceptedRuns base now history := by
  rw [acceptedRuns, acceptedRuns, filterMap_append_reverts fun _ => rfl]

theorem merges_append : merges base now (history ++ found.map .revert) = merges base now history := by
  rw [merges, merges, filterMap_append_reverts fun _ => rfl, filterMap_append_reverts fun _ => rfl,
    acceptedRuns_append]

theorem get?_foldl_erase (m : Wanted) (ids : List String) (id : String) :
    (ids.foldl SortedMap.erase m).get? id = if id ∈ ids then none else m.get? id := by
  induction ids generalizing m with
  | nil => rfl
  | cons id' ids ih =>
    rw [List.foldl_cons, ih, SortedMap.get?_erase]
    by_cases hid : id = id'
    · simp [hid]
    · simp [hid]

/-- The candidates after some passes: those of the first and the reverts found, less what these
    reverted. -/
theorem get?_candidates (hnone : revertsOf history = [])
    (hruns : ∀ r ∈ found, r.runId ∈ acceptedRuns base now history) (id : String) :
    (candidates base now (history ++ found.map .revert)).get? id =
      if id ∈ found.map (·.reverted) then none
      else (withReverts (merges base now history) found).get? id := by
  have hfold : ∀ m : Wanted, found.foldl (fun m r =>
      if r.runId ∈ acceptedRuns base now history then m.insert r.revertCommit (r.runId, r.taskId)
      else m) m = withReverts m found := by
    intro m
    rw [withReverts]
    refine List.foldl_ext _ _ _ fun m r hr => ?_
    rw [if_pos (hruns r hr)]
  rw [candidates, revertsOf_append, hnone, List.nil_append, merges_append, acceptedRuns_append, hfold,
    ← get?_foldl_erase, List.foldl_map]

/-- A merge that the history has, of a run or of a task. -/
def HasMerge (history : List HistoryLine) (id : String) : Prop :=
  (∃ r, .run r ∈ history ∧ r.acceptedCommit = some id) ∨
    ∃ t, .task t ∈ history ∧ t.mergeCommit = some id

theorem of_acceptedIn {line : HistoryLine} {accepted : String × String}
    (h : acceptedIn base now line = some accepted) :
    ∃ r, line = .run r ∧ r.acceptedCommit = some accepted.2 := by
  cases line with
  | run r =>
    rw [acceptedIn] at h
    split at h
    · obtain ⟨id, hid, rfl⟩ := Option.map_eq_some_iff.1 h
      exact ⟨r, rfl, hid⟩
    · cases h
  | _ => cases h

theorem of_mergedTask {line : HistoryLine} {merged : String × String × String}
    (h : mergedTask line = some merged) : ∃ t, line = .task t ∧ t.mergeCommit = some merged.2.2 := by
  cases line with
  | task t =>
    obtain ⟨id, hid, rfl⟩ := Option.map_eq_some_iff.1 h
    exact ⟨t, rfl, hid⟩
  | _ => cases h

/-- The candidates of a first pass are merges that the history has, of accepted runs. -/
theorem of_get?_merges : ∀ {id : String} {hit : String × Option String},
    (merges base now history).get? id = some hit →
      hit.1 ∈ acceptedRuns base now history ∧ HasMerge history id := by
  refine List.foldlRecOn (motive := fun m : Wanted => ∀ {id hit}, m.get? id = some hit →
    hit.1 ∈ acceptedRuns base now history ∧ HasMerge history id) _ _ ?_ ?_
  · refine List.foldlRecOn (motive := fun m : Wanted => ∀ {id hit}, m.get? id = some hit →
      hit.1 ∈ acceptedRuns base now history ∧ HasMerge history id) _ _ ?_ ?_
    · intro id hit hget
      cases hget
    · intro m hm accepted haccepted id hit hget
      rw [SortedMap.get?_insert] at hget
      split at hget
      · rename_i hid
        cases hget
        obtain ⟨line, hline, hacc⟩ := List.mem_filterMap.1 haccepted
        obtain ⟨r, rfl, hr⟩ := of_acceptedIn hacc
        refine ⟨?_, .inl ⟨r, hline, hid ▸ hr⟩⟩
        rw [acceptedRuns, SortedSet.mem_ofKeys]
        exact List.mem_map_of_mem haccepted
      · exact hm hget
  · intro m hm merged hmerged id hit hget
    split at hget
    · rename_i hrun
      rw [SortedMap.get?_insert] at hget
      split at hget
      · rename_i hid
        cases hget
        obtain ⟨line, hline, hmerge⟩ := List.mem_filterMap.1 hmerged
        obtain ⟨t, rfl, ht⟩ := of_mergedTask hmerge
        exact ⟨hrun, .inr ⟨t, hline, hid ▸ ht⟩⟩
      · exact hm hget
    · exact hm hget

end

/-! ## A pass over a log that has grown -/

theorem revertId_inj {id id' : String} (h : revertId id = revertId id') : id = id' := by
  have hlist := congrArg String.toList h
  rw [revertId, revertId, String.toList_append, String.toList_append] at hlist
  exact String.toList_inj.1 (List.append_cancel_left hlist)

/-- A commit of the log that is not recorded names no candidate there was then. -/
theorem candidateOf_of_not_recorded {before after : List Commit} {c : Commit}
    (hid : isCommitId c.id) (hrecorded : revertId c.id ∉ recorded)
    (hnot : ∀ r ∈ reverts recorded now (before ++ c :: after) wanted, r.revertCommit ≠ c.id) :
    (∀ sha ∈ revertedShas c.body,
      candidateOf (withReverts wanted (reverts recorded now before wanted)) sha = none) ∧
    reverts recorded now (before ++ c :: after) wanted = reverts recorded now before wanted ++
      reverts recorded now after (withReverts wanted (reverts recorded now before wanted)) := by
  rw [reverts_append, reverts_cons, if_neg (by simp [hid, hrecorded])] at hnot ⊢
  cases hhit : (revertedShas c.body).findSome?
      (candidateOf (withReverts wanted (reverts recorded now before wanted))) with
  | none => exact ⟨List.findSome?_eq_none_iff.1 hhit, rfl⟩
  | some hit =>
    rw [hhit] at hnot
    exact absurd rfl (hnot _ (List.mem_append_right _ (List.mem_cons_self ..)))

theorem findSome?_congr {α β : Type*} {f g : α → Option β} {l : List α} (h : ∀ x ∈ l, f x = g x) :
    l.findSome? f = l.findSome? g := by
  induction l with
  | nil => rfl
  | cons x l ih =>
    rw [List.findSome?_cons, List.findSome?_cons, h x (List.mem_cons_self ..),
      ih fun y hy => h y (List.mem_cons_of_mem _ hy)]

/-- Two walks over commits that name nothing the one lacks find the same. -/
theorem reverts_congr {gone : List String} {block : List Commit}
    (hrecorded : ∀ c ∈ block, revertId c.id ∈ recorded ↔ revertId c.id ∈ recorded')
    (hids : ∀ c ∈ block, c.id ∉ gone) (hnames : ∀ c ∈ block, ∀ id ∈ gone, ¬Names c id)
    (hget : ∀ id, wanted.get? id = if id ∈ gone then none else wanted'.get? id) :
    reverts recorded now block wanted = reverts recorded' now block wanted' := by
  induction block generalizing wanted wanted' with
  | nil => rfl
  | cons c block ih =>
    rw [List.forall_mem_cons] at hrecorded hids hnames
    have hfind : (revertedShas c.body).findSome? (candidateOf wanted) =
        (revertedShas c.body).findSome? (candidateOf wanted') := by
      refine findSome?_congr fun sha hsha => candidateOf_congr fun id hfits => ?_
      rw [hget, if_neg fun hgone => hnames.1 id hgone ⟨sha, hsha, hfits⟩]
    rw [reverts_cons, reverts_cons, hfind]
    simp only [hrecorded.1]
    split
    · exact ih hrecorded.2 hids.2 hnames.2 hget
    · split
      · exact ih hrecorded.2 hids.2 hnames.2 hget
      · rename_i reverted runId taskId hhit
        congr 1
        refine ih hrecorded.2 hids.2 hnames.2 fun id => ?_
        rw [SortedMap.get?_insert, SortedMap.get?_insert, hget]
        by_cases hid : id = c.id
        · rw [if_pos hid, if_pos hid, if_neg (hid ▸ hids.1)]
        · rw [if_neg hid, if_neg hid]

section

variable {base : String} {history : List HistoryLine} {done block : List Commit}
  {found : List RevertRecord}

/-- What a message may name: a merge that the history has, or a commit of the log. -/
def Known (history : List HistoryLine) (log : List Commit) (id : String) : Prop :=
  HasMerge history id ∨ ∃ c ∈ log, c.id = id

/-- The single pass over a log. -/
def singlePass (base : String) (now : ℕ) (history : List HistoryLine) (log : List Commit) :
    List RevertRecord :=
  reverts (history.map HistoryLine.recordId) 0 log (merges base now history)

/-- What the passes over a log found is what a single one finds, but for the time. -/
structure Found (base : String) (now : ℕ) (history : List HistoryLine) (log : List Commit)
    (found : List RevertRecord) : Prop where
  eq : found.map RevertRecord.timeless = singlePass base now history log

theorem Found.exists_commit (h : Found base now history done found) {r : RevertRecord}
    (hr : r ∈ found) : ∃ c ∈ done, r.revertCommit = c.id ∧ r.recordId = revertId c.id ∧
      Names c r.reverted :=
  of_mem_reverts (r := r.timeless) (h.eq ▸ List.mem_map_of_mem hr)

theorem Found.known_reverted (h : Found base now history done found) {r : RevertRecord}
    (hr : r ∈ found) : Known history done r.reverted := by
  have hmem : r.timeless ∈ singlePass base now history done := h.eq ▸ List.mem_map_of_mem hr
  rcases reverted_of_mem_reverts hmem with ⟨hit, hget⟩ | hlog
  · exact .inl (of_get?_merges hget).2
  · exact .inr hlog

theorem Found.runId_mem (h : Found base now history done found) {r : RevertRecord}
    (hr : r ∈ found) : r.runId ∈ acceptedRuns base now history :=
  runId_of_mem_reverts (r := r.timeless) (fun _ _ hget => (of_get?_merges hget).1)
    (h.eq ▸ List.mem_map_of_mem hr)

theorem Found.get?_candidates (h : Found base now history done found)
    (hnone : revertsOf history = []) (id : String) :
    (candidates base now (history ++ found.map .revert)).get? id =
      if id ∈ found.map (·.reverted) then none
      else (withReverts (merges base now history) (singlePass base now history done)).get? id := by
  rw [History.get?_candidates hnone (fun r => h.runId_mem), ← h.eq, withReverts_timeless]

/-- Two commits of a log name the same commit only by shas that fit no other. -/
def Unmistakable (history : List HistoryLine) (log : List Commit) : Prop :=
  ∀ c ∈ log, ∀ d ∈ log, c ≠ d → ∀ id, Known history log id → Names d id →
    ∀ sha ∈ revertedShas c.body, Fits sha id → ∀ id', Known history log id' → Fits sha id' → id' = id

theorem Found.known (h : Found base now history done found) (hnone : revertsOf history = [])
    {id : String} {hit : String × Option String}
    (hget : (candidates base now (history ++ found.map .revert)).get? id = some hit) :
    Known history done id := by
  rw [h.get?_candidates hnone] at hget
  split at hget
  · cases hget
  · by_cases hfound : ∃ r ∈ singlePass base now history done, r.revertCommit = id
    · obtain ⟨r, hr, rfl⟩ := hfound
      obtain ⟨c, hc, hrc, _⟩ := of_mem_reverts hr
      exact .inr ⟨c, hc, hrc.symm⟩
    · rw [get?_withReverts fun r hr hrid => hfound ⟨r, hr, hrid⟩] at hget
      exact .inl (of_get?_merges hget).2

/-- A commit of the log that no pass so far found to revert anything still does not. -/
theorem Found.candidateOf_eq_none (h : Found base now history done found)
    (hnone : revertsOf history = [])
    (holder : done.Pairwise fun c d => ¬Names c d.id) (hclear : Unmistakable history done) {c : Commit}
    (hc : c ∈ done) (hid : isCommitId c.id)
    (hrecorded : revertId c.id ∉ (history ++ found.map HistoryLine.revert).map HistoryLine.recordId) :
    ∀ sha ∈ revertedShas c.body,
      candidateOf (candidates base now (history ++ found.map .revert)) sha = none := by
  rw [List.map_append, List.mem_append, not_or] at hrecorded
  have hnot : ∀ r ∈ found, r.revertCommit ≠ c.id := by
    intro r hr hrc
    obtain ⟨c', _, hc', hr', _⟩ := h.exists_commit hr
    refine hrecorded.2 (List.mem_map.2 ⟨.revert r, List.mem_map_of_mem hr, ?_⟩)
    rw [HistoryLine.recordId, hr', ← hc', hrc]
  obtain ⟨before, after, rfl⟩ := List.append_of_mem hc
  have hnot' : ∀ r ∈ singlePass base now history (before ++ c :: after), r.revertCommit ≠ c.id := by
    intro r hr
    rw [← h.eq] at hr
    obtain ⟨r', hr', rfl⟩ := List.mem_map.1 hr
    exact hnot r' hr'
  obtain ⟨hthen, hsplit⟩ := candidateOf_of_not_recorded hid hrecorded.1 hnot'
  intro sha hsha
  -- the candidates that the sha fits are those of then, but for what was reverted since
  have hget : ∀ id, Fits sha id →
      (candidates base now (history ++ found.map .revert)).get? id =
        if id ∈ found.map (·.reverted) then none
        else (withReverts (merges base now history)
          (singlePass base now history before)).get? id := by
    intro id hfits
    rw [h.get?_candidates hnone]
    split
    · rfl
    · rw [singlePass, hsplit, withReverts, List.foldl_append, ← withReverts, ← withReverts,
        get?_withReverts, singlePass]
      intro r hr hrid
      obtain ⟨d, hd, hrd, _⟩ := of_mem_reverts hr
      have hcd := (List.pairwise_cons.1 (List.pairwise_append.1 holder).2.1).1 d hd
      exact hcd ⟨sha, hsha, by rwa [← hrd, hrid]⟩
  by_cases hlost : ∃ id, Fits sha id ∧ id ∈ found.map (·.reverted)
  · -- another commit named it, so the sha fits nothing else
    obtain ⟨id, hfits, hmem⟩ := hlost
    obtain ⟨r, hr, rfl⟩ := List.mem_map.1 hmem
    obtain ⟨d, hd, hrd, _, hnames⟩ := h.exists_commit hr
    have hne : c ≠ d := by
      rintro rfl
      exact hnot r hr hrd
    refine History.candidateOf_eq_none fun id' hfits' => ?_
    cases hget' : (candidates base now (history ++ found.map .revert)).get? id' with
    | none => rfl
    | some hit =>
      have hid' := hclear c hc d hd hne r.reverted (h.known_reverted hr) hnames sha hsha hfits id'
        (h.known hnone hget') hfits'
      rw [hget id' hfits', if_pos (hid' ▸ hmem)] at hget'
      cases hget'
  · push Not at hlost
    rw [candidateOf_congr fun id hfits => (hget id hfits).trans (if_neg (hlost id hfits))]
    exact hthen sha hsha

/-- A pass over a log that has grown finds what a single pass finds in what is new. -/
theorem Found.grown (h : Found base now history done found) (hnone : revertsOf history = [])
    (hlength : (done ++ block).length ≤ revertLogMax) (hids : ((done ++ block).map Commit.id).Nodup)
    (holder : (done ++ block).Pairwise fun c d => ¬Names c d.id) (hclear : Unmistakable history done)
    (hapart : ∀ c ∈ done, ∀ d ∈ block, ∀ id, Known history done id → ¬(Names c id ∧ Names d id)) :
    Found base now history (done ++ block) (found ++
      detectReverts (done ++ block).reverse base (history ++ found.map .revert) now) := by
  obtain ⟨holder, -, hnew⟩ := List.pairwise_append.1 holder
  have hsingle : singlePass base now history (done ++ block) =
      singlePass base now history done ++ reverts (history.map HistoryLine.recordId) 0 block
        (withReverts (merges base now history) (singlePass base now history done)) :=
    reverts_append ..
  refine ⟨?_⟩
  rw [List.map_append, h.eq, hsingle]
  congr 1
  -- read again, the old commits revert nothing more
  have hdone : ∀ now', reverts ((history ++ found.map HistoryLine.revert).map HistoryLine.recordId) now' done
      (candidates base now (history ++ found.map .revert)) = [] := fun now' =>
    reverts_eq_nil fun c hc hid hrecorded =>
      h.candidateOf_eq_none hnone holder hclear hc hid hrecorded
  -- the new commits find what the single pass finds there: a candidate that is gone from it is none
  -- that they name
  have hblock : reverts ((history ++ found.map HistoryLine.revert).map HistoryLine.recordId) 0 block
      (candidates base now (history ++ found.map .revert)) =
        reverts (history.map HistoryLine.recordId) 0 block
          (withReverts (merges base now history) (singlePass base now history done)) := by
    refine reverts_congr ?_ ?_ ?_ (h.get?_candidates hnone)
    · intro d hd
      rw [List.map_append, List.mem_append, or_iff_left]
      intro hmem
      obtain ⟨_, hline, hid⟩ := List.mem_map.1 hmem
      obtain ⟨r, hr, rfl⟩ := List.mem_map.1 hline
      obtain ⟨c, hc, _, hrc, _⟩ := h.exists_commit hr
      rw [List.map_append] at hids
      refine (List.nodup_append.1 hids).2.2 _ (List.mem_map_of_mem hc) _ (List.mem_map_of_mem hd) ?_
      exact revertId_inj (hrc.symm.trans hid)
    · intro d hd hgone
      obtain ⟨r, hr, hid⟩ := List.mem_map.1 hgone
      obtain ⟨c, hc, _, _, hnames⟩ := h.exists_commit hr
      exact hnew c hc d hd (hid ▸ hnames)
    · intro d hd id hgone hnames
      obtain ⟨r, hr, rfl⟩ := List.mem_map.1 hgone
      obtain ⟨c, hc, _, _, hnames'⟩ := h.exists_commit hr
      exact hapart c hc d hd _ (h.known_reverted hr) ⟨hnames', hnames⟩
  rw [← hblock, detectReverts]
  split
  · -- without candidates there is nothing to find
    rename_i hempty
    rw [reverts_eq_nil]
    · rfl
    · intro c _ _ _ sha _
      refine History.candidateOf_eq_none fun id _ => ?_
      rw [SortedMap.get?_eq_none_iff, List.isEmpty_iff.1 hempty]
      exact fun _ => List.not_mem_nil
  · -- the whole log is short enough to be read at once
    rw [List.take_of_length_le (by rwa [List.length_reverse]), List.reverse_reverse, reverts_append, hdone,
      List.nil_append, map_timeless_reverts]
    rfl

end

/-! ## The passes -/

section

variable {base : String} {history : List HistoryLine} {log : List Commit}

theorem mem_acceptedRuns {runId : String} (h : runId ∈ acceptedRuns base now history) :
    ∃ r, .run r ∈ history ∧ r.acceptedCommit.isSome ∧ r.baseBranch = base := by
  rw [acceptedRuns, SortedSet.mem_ofKeys] at h
  obtain ⟨accepted, haccepted, _⟩ := List.mem_map.1 h
  obtain ⟨line, hline, hacc⟩ := List.mem_filterMap.1 haccepted
  cases line with
  | run r =>
    rw [acceptedIn] at hacc
    split at hacc
    · rename_i hbranch
      obtain ⟨id, hid, _⟩ := Option.map_eq_some_iff.1 hacc
      exact ⟨r, hline, by rw [hid]; rfl, hbranch.1⟩
    · cases hacc
  | _ => cases hacc

/-- No accepted run, no candidate. -/
theorem detectReverts_eq_nil (h : ∀ runId, runId ∉ acceptedRuns base now history) :
    detectReverts log base history now = [] := by
  have hmerges : ∀ id, (merges base now history).get? id = none := by
    intro id
    cases hget : (merges base now history).get? id with
    | none => rfl
    | some hit => exact absurd (of_get?_merges hget).1 (h _)
  have hfold : ∀ (found : List RevertRecord) (m : Wanted), found.foldl (fun m r =>
      if r.runId ∈ acceptedRuns base now history then m.insert r.revertCommit (r.runId, r.taskId)
      else m) m = m := by
    intro found m
    induction found with
    | nil => rfl
    | cons r found ih => rw [List.foldl_cons, if_neg (h r.runId), ih]
  have hcandidates : candidates base now history = .empty := by
    refine SortedMap.ext_get? fun id => ?_
    rw [candidates, hfold, ← List.foldl_map (f := fun r : RevertRecord => r.reverted)
      (g := SortedMap.erase), get?_foldl_erase, hmerges]
    split <;> rfl
  rw [detectReverts, hcandidates]
  rfl

/-- With one base branch, a pass reads its log. -/
theorem recordReverts_eq (hbranch : ∀ r, .run r ∈ history → r.acceptedCommit.isSome →
    r.baseBranch = base) : recordReverts (fun _ => log) history now =
      history ++ (detectReverts log base history now).map .revert := by
  have hkeys : ∀ branch ∈ (SortedSet.ofKeys (history.filterMap acceptedBranch)).keys,
      branch = base := by
    intro branch hmem
    rw [SortedSet.mem_keys, SortedSet.mem_ofKeys] at hmem
    obtain ⟨line, hline, hacc⟩ := List.mem_filterMap.1 hmem
    cases line with
    | run r =>
      rw [acceptedBranch] at hacc
      split at hacc
      · rename_i hsome
        cases hacc
        exact hbranch r hline hsome
      · cases hacc
    | _ => cases hacc
  have hnodup : (SortedSet.ofKeys (history.filterMap acceptedBranch)).keys.Nodup :=
    List.pairwise_map.2 ((SortedSet.ofKeys _).sorted.imp fun hlt => hlt.ne)
  rw [recordReverts]
  congr 1
  cases hlist : (SortedSet.ofKeys (history.filterMap acceptedBranch)).keys with
  | nil =>
    -- no branch has an accepted run, and no run has a candidate
    rw [detectReverts_eq_nil]
    · rfl
    · intro runId hrun
      obtain ⟨r, hr, hsome, _⟩ := mem_acceptedRuns hrun
      have hmem : r.baseBranch ∈ (SortedSet.ofKeys (history.filterMap acceptedBranch)).keys := by
        rw [SortedSet.mem_keys, SortedSet.mem_ofKeys]
        exact List.mem_filterMap.2 ⟨_, hr, if_pos hsome⟩
      rw [hlist] at hmem
      cases hmem
  | cons branch branches =>
    rw [hlist] at hkeys hnodup
    rw [List.forall_mem_cons] at hkeys
    cases branches with
    | nil => rw [hkeys.1, List.flatMap_singleton]
    | cons branch' branches =>
      -- two branches would both be the base
      have hbranch' := hkeys.2 branch' (List.mem_cons_self ..)
      rw [hkeys.1, hbranch'] at hnodup
      exact absurd (List.mem_cons_self ..) (List.nodup_cons.1 hnodup).1

/-- Within the window, the time of a pass does not matter. -/
theorem acceptedIn_congr {now' : ℕ} {line : HistoryLine}
    (h : ∀ r, line = .run r → r.acceptedCommit.isSome →
      now - r.time ≤ revertWindowSecs ∧ now' - r.time ≤ revertWindowSecs) :
    acceptedIn base now line = acceptedIn base now' line := by
  cases line with
  | run r =>
    rw [acceptedIn, acceptedIn]
    cases haccepted : r.acceptedCommit with
    | none => split <;> split <;> rfl
    | some id =>
      obtain ⟨hnow, hnow'⟩ := h r rfl (by rw [haccepted]; rfl)
      simp only [hnow, hnow']
  | _ => rfl

theorem merges_congr {now' : ℕ}
    (h : ∀ r, .run r ∈ history → r.acceptedCommit.isSome →
      now - r.time ≤ revertWindowSecs ∧ now' - r.time ≤ revertWindowSecs) :
    merges base now history = merges base now' history := by
  have haccepted : history.filterMap (acceptedIn base now) =
      history.filterMap (acceptedIn base now') :=
    List.filterMap_congr fun line hline => acceptedIn_congr fun r hr => h r (hr ▸ hline)
  rw [merges, merges, acceptedRuns, acceptedRuns, haccepted]

end

/-- The commits that came since the pass before, and the time of a pass. -/
abbrev Cut := List Commit × ℕ

/-- The log after the passes, oldest commit first. -/
def grownLog (cuts : List Cut) : List Commit := cuts.flatMap (·.1)

/-- A pass over the log so far. -/
def pass (s : List Commit × List HistoryLine) (cut : Cut) : List Commit × List HistoryLine :=
  (s.1 ++ cut.1, recordReverts (fun _ => (s.1 ++ cut.1).reverse) s.2 cut.2)

/-- The history after the passes. -/
def passes (history : List HistoryLine) (cuts : List Cut) : List HistoryLine :=
  (cuts.foldl pass ([], history)).2

/-- A history of runs accepted into one branch not long ago, whose log only grows: its commits
    are distinct, and name older ones. -/
structure Growing (base : String) (history : List HistoryLine) (cuts : List Cut) : Prop where
  revertsOf_eq : revertsOf history = []
  branch : ∀ r, .run r ∈ history → r.acceptedCommit.isSome → r.baseBranch = base
  window : ∀ cut ∈ cuts, ∀ r, .run r ∈ history → r.acceptedCommit.isSome →
    cut.2 - r.time ≤ revertWindowSecs
  length_lt : (grownLog cuts).length < revertLogMax
  nodup : ((grownLog cuts).map Commit.id).Nodup
  older : (grownLog cuts).Pairwise fun c d => ¬Names c d.id

/-- Commits that name a same commit are new to the same pass, and unless that is the last one they
    name it by shas that fit nothing else. -/
structure ReadTogether (history : List HistoryLine) (cuts : List Cut) : Prop where
  apart : cuts.Pairwise fun cut cut' => ∀ c ∈ cut.1, ∀ d ∈ cut'.1,
    ∀ id, Known history (grownLog cuts) id → ¬(Names c id ∧ Names d id)
  unmistakable : Unmistakable history (grownLog cuts.dropLast)

section

variable {base : String} {history : List HistoryLine} {cuts rest : List Cut}

theorem Known.mono {log log' : List Commit} (hsub : log' ⊆ log) {id : String}
    (h : Known history log' id) : Known history log id :=
  h.imp_right fun ⟨e, he, hid⟩ => ⟨e, hsub he, hid⟩

theorem Unmistakable.of_subset {log log' : List Commit} (h : Unmistakable history log)
    (hsub : log' ⊆ log) : Unmistakable history log' := by
  intro c hc d hd hne id hknown hnames sha hsha hfits id' hknown'
  exact h c (hsub hc) d (hsub hd) hne id (hknown.mono hsub) hnames sha hsha hfits id'
    (hknown'.mono hsub)

theorem Found.congr {now' : ℕ} {log : List Commit} {found : List RevertRecord}
    (h : Found base now history log found)
    (hwindow : ∀ r, .run r ∈ history → r.acceptedCommit.isSome →
      now - r.time ≤ revertWindowSecs ∧ now' - r.time ≤ revertWindowSecs) :
    Found base now' history log found :=
  ⟨by rw [h.eq, singlePass, singlePass, merges_congr hwindow]⟩

theorem grownLog_append (before rest : List Cut) :
    grownLog (before ++ rest) = grownLog before ++ grownLog rest :=
  List.flatMap_append

theorem grownLog_concat (before : List Cut) (cut : Cut) :
    grownLog (before ++ [cut]) = grownLog before ++ cut.1 := by
  rw [grownLog_append, grownLog, grownLog, List.flatMap_singleton]

/-- The passes so far have found what a single pass over the log so far finds. -/
theorem Growing.foldl_pass (before : List Cut) (found : List RevertRecord)
    (hgrowing : Growing base history (before ++ rest))
    (hwindow : ∀ r, .run r ∈ history → r.acceptedCommit.isSome → now - r.time ≤ revertWindowSecs)
    (htogether : ReadTogether history (before ++ rest))
    (h : Found base now history (grownLog before) found) :
    ∃ found', rest.foldl pass (grownLog before, history ++ found.map .revert) =
        (grownLog (before ++ rest), history ++ found'.map .revert) ∧
      Found base now history (grownLog (before ++ rest)) found' := by
  induction rest generalizing before found with
  | nil => exact ⟨found, by rw [List.foldl_nil, List.append_nil], by rwa [List.append_nil]⟩
  | cons cut rest ih =>
    have hcut : cut ∈ before ++ cut :: rest := List.mem_append_right _ (List.mem_cons_self ..)
    have hboth : ∀ r, .run r ∈ history → r.acceptedCommit.isSome →
        now - r.time ≤ revertWindowSecs ∧ cut.2 - r.time ≤ revertWindowSecs :=
      fun r hr hsome => ⟨hwindow r hr hsome, hgrowing.window cut hcut r hr hsome⟩
    have hlog : grownLog (before ++ cut :: rest) = grownLog before ++ cut.1 ++ grownLog rest := by
      rw [List.append_cons before, grownLog_append, grownLog_concat]
    have hlength := hgrowing.length_lt
    have hnodup := hgrowing.nodup
    have holder := hgrowing.older
    rw [hlog, List.length_append] at hlength
    rw [hlog, List.map_append] at hnodup
    rw [hlog] at holder
    -- what was read before this pass was read by a pass that is not the last
    have hclear : Unmistakable history (grownLog before) := by
      refine htogether.unmistakable.of_subset ?_
      rw [List.dropLast_append_cons, grownLog_append]
      exact List.subset_append_left _ _
    have hapart : ∀ c ∈ grownLog before, ∀ d ∈ cut.1, ∀ id, Known history (grownLog before) id →
        ¬(Names c id ∧ Names d id) := by
      intro c hc d hd id hknown
      obtain ⟨cut', hcut', hc⟩ := List.mem_flatMap.1 hc
      refine (List.pairwise_append.1 htogether.apart).2.2 cut' hcut' cut (List.mem_cons_self ..)
        c hc d hd id (hknown.mono ?_)
      rw [grownLog_append]
      exact List.subset_append_left _ _
    have hgrown := (h.congr hboth).grown hgrowing.revertsOf_eq (by omega)
      (List.nodup_append.1 hnodup).1 (List.pairwise_append.1 holder).1 hclear hapart
    have hbranch : ∀ r, .run r ∈ history ++ found.map .revert → r.acceptedCommit.isSome →
        r.baseBranch = base := by
      intro r hr
      rcases List.mem_append.1 hr with hr | hr
      · exact hgrowing.branch r hr
      · obtain ⟨_, _, hr⟩ := List.mem_map.1 hr
        cases hr
    have hpass : pass (grownLog before, history ++ found.map .revert) cut =
        (grownLog (before ++ [cut]), history ++ (found ++ detectReverts (grownLog before ++ cut.1).reverse
          base (history ++ found.map .revert) cut.2).map .revert) := by
      rw [pass, recordReverts_eq hbranch, grownLog_concat, List.map_append, List.append_assoc]
    rw [List.foldl_cons, hpass, List.append_cons before cut rest]
    rw [List.append_cons before cut rest] at hgrowing htogether
    refine ih _ _ hgrowing htogether ?_
    rw [grownLog_concat]
    exact hgrown.congr fun r hr hsome => (hboth r hr hsome).symm

theorem Growing.exists_found (hgrowing : Growing base history cuts)
    (htogether : ReadTogether history cuts)
    (hwindow : ∀ r, .run r ∈ history → r.acceptedCommit.isSome → now - r.time ≤ revertWindowSecs) :
    ∃ found, passes history cuts = history ++ found.map .revert ∧
      Found base now history (grownLog cuts) found := by
  obtain ⟨found, hfold, hfound⟩ := hgrowing.foldl_pass [] [] hwindow
    htogether ⟨rfl⟩
  refine ⟨found, ?_, hfound⟩
  rw [List.map_nil, List.append_nil] at hfold
  exact congrArg Prod.snd hfold

/-- A single pass over the whole log. -/
theorem Growing.exists_single (hgrowing : Growing base history cuts)
    (hwindow : ∀ r, .run r ∈ history → r.acceptedCommit.isSome → now - r.time ≤ revertWindowSecs) :
    ∃ found, recordReverts (fun _ => (grownLog cuts).reverse) history now =
        history ++ found.map .revert ∧ Found base now history (grownLog cuts) found := by
  have hlog : grownLog [(grownLog cuts, now)] = grownLog cuts := by
    rw [grownLog, List.flatMap_singleton]
  have hgrowing' : Growing base history [(grownLog cuts, now)] := by
    refine ⟨hgrowing.revertsOf_eq, hgrowing.branch, fun cut hcut => ?_, ?_, ?_, ?_⟩
    · rw [List.mem_singleton.1 hcut]
      exact hwindow
    · rw [hlog]
      exact hgrowing.length_lt
    · rw [hlog]
      exact hgrowing.nodup
    · rw [hlog]
      exact hgrowing.older
  have htogether : ReadTogether history [(grownLog cuts, now)] :=
    ⟨List.pairwise_singleton .., fun c hc => absurd hc List.not_mem_nil⟩
  obtain ⟨found, hpasses, hfound⟩ := hgrowing'.exists_found htogether hwindow
  rw [hlog] at hfound
  exact ⟨found, hpasses, hfound⟩

/-! ## Reverts in effect -/

section

variable {f : RevertRecord → RevertRecord} (hcommit : ∀ r, (f r).revertCommit = r.revertCommit)
  (hreverted : ∀ r, (f r).reverted = r.reverted)

include hcommit hreverted

theorem inEffect_map (reverts : List RevertRecord) (depth : ℕ) (r : RevertRecord)
    (known : SortedMap String Bool) :
    inEffect (reverts.map f) depth (f r) known = inEffect reverts depth r known := by
  induction depth generalizing r known with
  | zero => rw [inEffect, inEffect, hcommit]
  | succ depth ih =>
    have hfilter : (reverts.map f).filter (·.reverted = r.revertCommit) =
        (reverts.filter (·.reverted = r.revertCommit)).map f := by
      rw [List.filter_map]
      simp only [Function.comp_def, hreverted]
    rw [inEffect, inEffect, hcommit, hfilter, List.foldl_map]
    simp only [ih]

theorem inEffectAmong_map (reverts some : List RevertRecord) (known : SortedMap String Bool) :
    inEffectAmong (reverts.map f) (some.map f) known = (inEffectAmong reverts some known).map f := by
  induction some generalizing known with
  | nil => rfl
  | cons r some ih =>
    rw [List.map_cons, inEffectAmong, inEffectAmong, List.length_map, inEffect_map hcommit hreverted]
    dsimp only
    rw [ih]
    split <;> rfl

end

theorem effectiveReverts_map {lines lines' : List HistoryLine}
    (h : (revertsOf lines).map RevertRecord.timeless = (revertsOf lines').map RevertRecord.timeless) :
    (effectiveReverts lines).map RevertRecord.timeless =
      (effectiveReverts lines').map RevertRecord.timeless := by
  have heffective : ∀ lines : List HistoryLine, (effectiveReverts lines).map RevertRecord.timeless =
      inEffectAmong ((revertsOf lines).map RevertRecord.timeless)
        (((revertsOf lines).map RevertRecord.timeless).filter fun r =>
          r.reverted ∉ ((revertsOf lines).map RevertRecord.timeless).map (·.revertCommit)) .empty := by
    intro lines
    have hmap := inEffectAmong_map (f := RevertRecord.timeless) (fun _ => rfl) (fun _ => rfl)
    rw [effectiveReverts, ← hmap, List.filter_map, List.map_map]
    rfl
  rw [heffective, heffective, h]

/-! ## The theorem -/

theorem recordReverts_passes (hgrowing : Growing base history cuts)
    (htogether : ReadTogether history cuts)
    (hwindow : ∀ r, .run r ∈ history → r.acceptedCommit.isSome → now - r.time ≤ revertWindowSecs) :
    (revertsOf (passes history cuts)).map RevertRecord.timeless =
        (revertsOf (recordReverts (fun _ => (grownLog cuts).reverse) history now)).map
          RevertRecord.timeless ∧
      (effectiveReverts (passes history cuts)).map RevertRecord.timeless =
        (effectiveReverts (recordReverts (fun _ => (grownLog cuts).reverse) history now)).map
          RevertRecord.timeless := by
  obtain ⟨found, hpasses, hfound⟩ := hgrowing.exists_found htogether hwindow
  obtain ⟨found', hsingle, hfound'⟩ := hgrowing.exists_single hwindow
  have hreverts : (revertsOf (passes history cuts)).map RevertRecord.timeless =
      (revertsOf (recordReverts (fun _ => (grownLog cuts).reverse) history now)).map
        RevertRecord.timeless := by
    rw [hpasses, hsingle, revertsOf_append, revertsOf_append, hgrowing.revertsOf_eq, List.nil_append,
      List.nil_append, hfound.eq, hfound'.eq]
  exact ⟨hreverts, effectiveReverts_map hreverts⟩

end

/-! A merge that is reverted, brought back by a revert of the revert, and reverted once more: the
last commit names the merge again, which a pass before it has recorded as reverted. -/

def idOf (c : Char) : String := String.ofList (List.replicate 40 c)

def revertOf (c : Char) (id : String) : Commit := ⟨idOf c, "This reverts commit " ++ id ++ "."⟩

def revertedTwice : List HistoryLine :=
  [.run { time := 0, runId := "r1", baseBranch := "main", acceptedCommit := some (idOf 'a') }]

theorem window_revertedTwice {now : ℕ} (hnow : now ≤ revertWindowSecs) (r : RunRecord)
    (_ : .run r ∈ revertedTwice) (_ : r.acceptedCommit.isSome) :
    now - r.time ≤ revertWindowSecs :=
  (Nat.sub_le ..).trans hnow

theorem growing_revertedTwice {cuts : List Cut} (hwindow : ∀ cut ∈ cuts, cut.2 ≤ revertWindowSecs)
    (hlength : (grownLog cuts).length < revertLogMax)
    (hnodup : ((grownLog cuts).map Commit.id).Nodup)
    (holder : (grownLog cuts).Pairwise fun c d => ¬Names c d.id) :
    Growing "main" revertedTwice cuts where
  revertsOf_eq := rfl
  branch r hr _ := by
    simp only [revertedTwice, List.mem_singleton, HistoryLine.run.injEq] at hr
    rw [hr]
  window cut hcut r hr hsome := window_revertedTwice (hwindow cut hcut) r hr hsome
  length_lt := hlength
  nodup := hnodup
  older := holder

theorem recordReverts_revertedTwice :
    let cuts := [([revertOf '1' (idOf 'a'), revertOf '2' (idOf '1')], 1),
      ([revertOf '3' (idOf 'a')], 2)]
    let single := recordReverts (fun _ => (grownLog cuts).reverse) revertedTwice 2
    Growing "main" revertedTwice cuts ∧
      (revertsOf (passes revertedTwice cuts)).map (·.revertCommit) = [idOf '1', idOf '2'] ∧
      (revertsOf single).map (·.revertCommit) = [idOf '1', idOf '2', idOf '3'] ∧
      effectiveReverts (passes revertedTwice cuts) = [] ∧
      (effectiveReverts single).map (·.reverted) = [idOf 'a'] :=
  ⟨growing_revertedTwice (by decide +kernel) (by decide +kernel) (by decide +kernel)
      (by decide +kernel), by decide +kernel, by decide +kernel, by decide +kernel, by decide +kernel⟩

theorem known_revertedTwice {log : List Commit} {id : String} (h : Known revertedTwice log id) :
    id = idOf 'a' ∨ id ∈ log.map Commit.id := by
  rcases h with (⟨r, hr, hid⟩ | ⟨t, ht, _⟩) | ⟨c, hc, hid⟩
  · simp only [revertedTwice, List.mem_singleton, HistoryLine.run.injEq] at hr
    rw [hr] at hid
    exact .inl (Option.some.inj hid).symm
  · simp only [revertedTwice, List.mem_singleton, reduceCtorEq] at ht
  · exact .inr (List.mem_map.2 ⟨c, hc, hid⟩)

/-- Read by one pass, both reverts of the merge are found. -/
theorem recordReverts_passes_together :
    let cuts := [([revertOf '1' (idOf 'a'), revertOf '3' (idOf 'a')], 1), ([revertOf '2' (idOf '1')], 2)]
    (revertsOf (passes revertedTwice cuts)).map RevertRecord.timeless =
        (revertsOf (recordReverts (fun _ => (grownLog cuts).reverse) revertedTwice 2)).map
          RevertRecord.timeless ∧
      (effectiveReverts (passes revertedTwice cuts)).map RevertRecord.timeless =
        (effectiveReverts (recordReverts (fun _ => (grownLog cuts).reverse) revertedTwice 2)).map
          RevertRecord.timeless := by
  have hapart : ∀ c ∈ [revertOf '1' (idOf 'a'), revertOf '3' (idOf 'a')],
      ∀ d ∈ [revertOf '2' (idOf '1')], ∀ id ∈ [idOf 'a', idOf '1', idOf '3', idOf '2'],
        ¬(Names c id ∧ Names d id) := by decide +kernel
  have hclear : ∀ c ∈ [revertOf '1' (idOf 'a'), revertOf '3' (idOf 'a')],
      ∀ sha ∈ revertedShas c.body, ∀ id ∈ [idOf 'a', idOf '1', idOf '3'], Fits sha id →
        id = idOf 'a' := by decide +kernel
  refine recordReverts_passes (growing_revertedTwice (by decide +kernel) (by decide +kernel)
    (by decide +kernel) (by decide +kernel)) ⟨?_, ?_⟩ (window_revertedTwice (by decide +kernel))
  · refine List.pairwise_cons.2 ⟨fun cut' hcut' c hc d hd id hknown => ?_, List.pairwise_singleton ..⟩
    rw [List.mem_singleton.1 hcut'] at hd
    refine hapart c hc d hd id ?_
    exact List.mem_cons.2 (known_revertedTwice hknown)
  · intro c hc d _ _ id hknown _ sha hsha hfits id' hknown' hfits'
    have hmem := List.mem_cons.2 (known_revertedTwice hknown)
    have hmem' := List.mem_cons.2 (known_revertedTwice hknown')
    exact (hclear c hc sha hsha id' hmem' hfits').trans (hclear c hc sha hsha id hmem hfits).symm

end Anthrex.History
