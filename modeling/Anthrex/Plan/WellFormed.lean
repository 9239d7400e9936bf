import Anthrex.Plan.Held

/-!
# Well-formed plans

The ids of a well-formed plan are distinct, the dependencies of an unfinished task are tasks of
no later stage, the stages are `1..n`, and no unfinished task waits for itself. The rules at the
end of a batch look at the unfinished tasks, each against the ones before it, so that they miss
one thing: a split puts its children in the middle of the plan, and a child with the id of a
finished task after it goes through. An accepted batch keeps the plan well formed if and only if
the tasks it names are new ones (`wellFormed_applyEdits`).
-/

namespace Anthrex.Plan

open Anthrex.Run hiding id
open Anthrex.Globs Graph Lists

structure WellFormed (tasks : List Task) : Prop where
  ids : (tasks.map Task.id).Nodup
  deps : ∀ t ∈ tasks, t.isActive → ∀ d ∈ t.spec.deps,
    ∃ x ∈ tasks, x.id = d ∧ x.spec.stage ≤ t.spec.stage
  stages : ∃ n ≤ stagesMax, ∀ k, (∃ t ∈ tasks, t.spec.stage = k) ↔ 1 ≤ k ∧ k ≤ n
  acyclic : Acyclic (Edge (activeEdges (tasks.filter Task.isActive) true))

/-- The task waits for nothing: what it declares is of an earlier round, merged or reported, and
    what it waits for by its files is finished. -/
structure Ready (tasks : List Task) (t : Task) : Prop where
  declared : ∀ d ∈ t.spec.deps, ∃ x ∈ tasks, x.id = d ∧
    (x.round < t.round ∨ x.state = .merged ∨ x.state = .reported)
  implicit : ∀ d ∈ t.implicitDeps, ∀ x ∈ tasks, x.id = d → x.state.isFinished

/-- Every finished task keeps its state and what it leaves. -/
def FinishedKept (tasks tasks' : List Task) : Prop :=
  ∀ t ∈ tasks, t.state.isFinished → ∃ t' ∈ tasks', t'.state = t.state ∧ record t' = record t

/-- The ids of the tasks that a batch adds. -/
def newIds (edits : List PlanEdit) : List String := edits.flatMap fun e => (newSpecs e).map (·.id)

variable {d d' : Draft} {new news : List String} {t t' u x : Task} {tasks tasks' : List Task}
  {i : ℕ} {id : String}

/-! ## What becomes of a task -/

/-- A task and what a move makes of it. -/
structure Descends (t t' : Task) : Prop where
  id : t'.id = t.id
  stage : StageOk t.spec → StageOk t'.spec
  finished : t.state.isFinished → t'.state = t.state ∧ record t' = record t

theorem Descends.refl (t : Task) : Descends t t := ⟨rfl, fun h => h, fun _ => ⟨rfl, rfl⟩⟩

theorem Descends.trans (h : Descends t t') (h' : Descends t' u) : Descends t u where
  id := h'.id.trans h.id
  stage := fun hstage => h'.stage (h.stage hstage)
  finished := fun hfinished => by
    obtain ⟨hstate, hrecord⟩ := h.finished hfinished
    obtain ⟨hstate', hrecord'⟩ := h'.finished (hstate ▸ hfinished)
    exact ⟨hstate'.trans hstate, hrecord'.trans hrecord⟩

theorem descends_of_unfinished (hid : t'.id = t.id) (hstage : t'.spec.stage = t.spec.stage)
    (hopen : t.state.isFinished = false) : Descends t t' where
  id := hid
  stage := fun h => by rwa [StageOk, hstage]
  finished := fun hfinished => by
    rw [hopen] at hfinished
    cases hfinished

theorem InPlace.descends (h : InPlace t t') : Descends t t' where
  id := h.id
  stage := fun hstage => h.stage.elim (fun heq => by rwa [StageOk, heq]) fun hok => hok
  finished := fun hfinished => ⟨h.state, h.finished hfinished⟩

theorem blockDependent_descends : Descends t (Batch.blockDependent id t) := by
  unfold Batch.blockDependent
  split
  · exact .refl t
  · next hopen =>
    refine descends_of_unfinished rfl rfl ?_
    simp only [Bool.or_eq_true, not_or] at hopen
    simpa using hopen.1

theorem replaceDep_descends {children : List String} :
    Descends t (Batch.replaceDep id children t) := by
  unfold Batch.replaceDep
  split
  · exact .refl t
  · next hopen =>
    refine descends_of_unfinished rfl rfl ?_
    simp only [Bool.or_eq_true, not_or] at hopen
    simpa using hopen.1

theorem cancelIn_descends (ht : tasks[i]? = some t) (hopen : t.state.isFinished = false) :
    List.Forall₂ Descends tasks (cancelIn tasks i t.id) := by
  refine (forall₂_cancelIn ht).imp fun u u' hu => ?_
  rcases hu with ⟨rfl, rfl⟩ | rfl
  exacts [descends_of_unfinished rfl rfl hopen, blockDependent_descends]

theorem modify_descends {f : Task → Task} (ht : tasks[i]? = some t) (hf : Descends t (f t)) :
    List.Forall₂ Descends tasks (tasks.modify i f) := by
  refine forall₂_modify (fun u _ => .refl u) fun u hu => ?_
  rw [← Option.some.inj (ht.symm.trans hu)]
  exact hf

/-- A move changes the tasks one by one, and puts in the new ones. -/
theorem Move.descends (h : Move d new d') : ∃ (tasks children : List Task) (i : ℕ),
    List.Forall₂ Descends d.tasks tasks ∧ children.map Task.id = new ∧
      (∀ c ∈ children, StageOk c.spec) ∧ d'.tasks = tasks.take i ++ children ++ tasks.drop i := by
  have hsame : ∀ tasks : List Task, tasks = tasks.take 0 ++ [] ++ tasks.drop 0 := by simp
  cases h with
  | place h hadded =>
    exact ⟨d'.tasks, [], 0, h.imp fun _ _ hu => hu.descends, rfl, by simp, hsame _⟩
  | works ht hstate =>
    refine ⟨_, [], 0, modify_descends ht (descends_of_unfinished rfl rfl ?_), rfl, by simp, hsame _⟩
    rcases hstate with hstate | ⟨hstate, -⟩ <;> rw [hstate] <;> rfl
  | pauses ht hstate hblock =>
    refine ⟨_, [], 0, modify_descends ht (descends_of_unfinished rfl rfl ?_), rfl, by simp, hsame _⟩
    rcases hstate with hstate | hstate
    · rw [hstate]
      rfl
    · simp only [Task.isPaused, Bool.and_eq_true, decide_eq_true_eq] at hstate
      rw [hstate.1]
      rfl
  | cancels ht hopen =>
    exact ⟨_, [], 0, cancelIn_descends ht.1 hopen, rfl, by simp, hsame _⟩
  | @adds _ t ht htasks hadded =>
    -- a new task is put in at the end
    refine ⟨d.tasks, [t], d.tasks.length, List.forall₂_same.2 fun u _ => .refl u, rfl, ?_, ?_⟩
    · exact fun c hc => List.mem_singleton.1 hc ▸ ht.stage
    · simpa using htasks
  | redeps ht hopen htasks hid hround hstage hstate hdeps hadded =>
    exact ⟨_, [], 0, modify_descends ht (descends_of_unfinished hid hstage hopen), rfl, by simp,
      htasks.trans (hsame _)⟩
  | @splits _ i t children tasks ht hopen hchildren hparent htasks hadded =>
    -- the children are put in right after their parent
    refine ⟨tasks, children, i + 1, ?_, rfl, fun c hc => (hchildren c hc).stage, htasks⟩
    have hreplaced : List.Forall₂ Descends d.tasks
        (d.tasks.map (Batch.replaceDep t.id (children.map Task.id))) :=
      forall₂_map fun u _ => replaceDep_descends
    refine forall₂_trans (fun _ _ _ h h' => h.trans h') hreplaced ?_
    rcases hparent with rfl | hplace
    · have hplace : (d.tasks.map (Batch.replaceDep t.id (children.map Task.id)))[i]? =
          some (Batch.replaceDep t.id (children.map Task.id) t) := by
        rw [List.getElem?_map, ht.1]
        rfl
      have hcancel := cancelIn_descends hplace (by rwa [(replaceDep_same _).2])
      rwa [(replaceDep_same _).1] at hcancel
    · exact hplace.imp fun _ _ hu => hu.descends

/-! ## What the moves of a batch keep -/

theorem ids_of_descends (h : List.Forall₂ Descends tasks tasks') :
    tasks'.map Task.id = tasks.map Task.id :=
  map_eq_of_forall₂ (h.imp fun _ _ hu => hu.id)

/-- The ids afterwards are those before and the new ones. -/
theorem Moves.ids (h : Moves d news d') :
    (d'.tasks.map Task.id).Perm (d.tasks.map Task.id ++ news) := by
  induction h with
  | refl => simp
  | @step d d' d₂ new news hmove _ ih =>
    obtain ⟨tasks, children, i, hdescends, rfl, -, htasks⟩ := hmove.descends
    have hperm : (d'.tasks.map Task.id).Perm (d.tasks.map Task.id ++ children.map Task.id) := by
      rw [htasks, ← ids_of_descends hdescends, ← List.map_append]
      have hlast : (tasks.take i ++ (children ++ tasks.drop i)).Perm
          (tasks.take i ++ (tasks.drop i ++ children)) := List.perm_append_comm.append_left _
      rw [← List.append_assoc, ← List.append_assoc, List.take_append_drop] at hlast
      exact hlast.map _
    rw [← List.append_assoc]
    exact ih.trans (hperm.append_right news)

theorem Moves.stages (h : Moves d news d') (hstages : ∀ t ∈ d.tasks, StageOk t.spec) :
    ∀ t ∈ d'.tasks, StageOk t.spec := by
  induction h with
  | refl => exact hstages
  | @step d d' d₂ new news hmove _ ih =>
    refine ih fun t' ht' => ?_
    obtain ⟨tasks, children, i, hdescends, -, hchildren, htasks⟩ := hmove.descends
    rw [htasks, List.append_assoc, List.mem_append, List.mem_append] at ht'
    have hold : ∀ u ∈ tasks, StageOk u.spec := by
      intro u hu
      obtain ⟨t, ht, hfrom⟩ := exists_of_forall₂_mem hdescends hu
      exact hfrom.stage (hstages t ht)
    rcases ht' with ht' | ht' | ht'
    exacts [hold t' (List.mem_of_mem_take ht'), hchildren t' ht', hold t' (List.mem_of_mem_drop ht')]

theorem Moves.finishedKept (h : Moves d news d') : FinishedKept d.tasks d'.tasks := by
  induction h with
  | refl => exact fun t ht _ => ⟨t, ht, rfl, rfl⟩
  | @step d d' d₂ new news hmove _ ih =>
    intro t ht hfinished
    obtain ⟨tasks, children, i, hdescends, -, -, htasks⟩ := hmove.descends
    obtain ⟨t', ht', hto⟩ := exists_of_forall₂_mem hdescends.flip ht
    obtain ⟨hstate, hrecord⟩ := hto.finished hfinished
    have hmem : t' ∈ d'.tasks := by
      rw [← List.take_append_drop i tasks, List.mem_append] at ht'
      rw [htasks, List.append_assoc, List.mem_append, List.mem_append]
      exact ht'.imp_right .inr
    obtain ⟨t₂, ht₂, hstate₂, hrecord₂⟩ := ih t' hmem (hstate ▸ hfinished)
    exact ⟨t₂, ht₂, hstate₂.trans hstate, hrecord₂.trans hrecord⟩

/-! ## What the rules at the end give -/

variable {models : RunModels} {touched : List String} {scope : EditScope} {maxTasks round : ℕ}
  {addedDeps : Option (List (String × String))}

/-- The rules of the plan: a dependency is a task of no later stage. -/
theorem deps_of_validate
    (h : validateTasksWith models tasks touched addedDeps scope maxTasks round = [])
    (ht : t ∈ tasks) (hactive : t.isActive) (hd : id ∈ t.spec.deps) :
    ∃ x ∈ tasks, x.id = id ∧ x.spec.stage ≤ t.spec.stage := by
  obtain ⟨k, hk⟩ := List.mem_iff_getElem?.1 ht
  have hnil := taskErrors_eq_nil h hk hactive
  simp only [taskErrors, List.append_eq_nil_iff, depErrors, List.flatMap_eq_nil_iff] at hnil
  have hdep := hnil.1.1.1.2 id hd
  cases hx : byId tasks id with
  | none => simp [hx] at hdep
  | some x =>
    refine ⟨x, (mem_of_byId hx).1, (mem_of_byId hx).2, ?_⟩
    simp only [validateTasksWith, stageRules, List.append_eq_nil_iff, List.flatMap_eq_nil_iff] at h
    have hlate := h.1.1.1.2.1.1 t (List.mem_filter.2 ⟨ht, hactive⟩) id hd
    simpa [hx] using hlate

/-- The rules of the plan: with every stage in its range, the stages are `1..n`. -/
theorem stages_of_validate
    (h : validateTasksWith models tasks touched addedDeps scope maxTasks round = [])
    (hstages : ∀ t ∈ tasks, StageOk t.spec) :
    ∃ n ≤ stagesMax, ∀ k, (∃ t ∈ tasks, t.spec.stage = k) ↔ 1 ≤ k ∧ k ≤ n := by
  simp only [validateTasksWith, stageRules, List.append_eq_nil_iff] at h
  have hgaps := h.1.1.1.2.1.2
  have hused : (tasks.map (·.spec.stage)).filter (fun s => 1 ≤ s && s ≤ stagesMax) =
      tasks.map (·.spec.stage) := by
    refine List.filter_eq_self.2 fun s hs => ?_
    obtain ⟨t, ht, rfl⟩ := List.mem_map.1 hs
    simpa [StageOk] using hstages t ht
  rw [hused] at hgaps
  have hmem : ∀ k, (∃ t ∈ tasks, t.spec.stage = k) ↔ k ∈ tasks.map (·.spec.stage) := fun k =>
    List.mem_map.symm
  simp only [hmem]
  by_cases hnil : tasks.map (·.spec.stage) = []
  · refine ⟨0, Nat.zero_le _, fun k => ?_⟩
    rw [hnil]
    simp
    omega
  · obtain ⟨last, hlast, htop⟩ := List.mem_map.1 (List.max_mem hnil)
    have hmax : (tasks.map (·.spec.stage)).foldl max 0 = last.spec.stage := by
      rw [List.foldl_max_eq_max hnil, htop, Nat.zero_max]
    refine ⟨last.spec.stage, (hstages last hlast).2, fun k => ⟨fun hk => ?_, fun hk => ?_⟩⟩
    · obtain ⟨t, ht, rfl⟩ := List.mem_map.1 hk
      exact ⟨(hstages t ht).1, htop ▸ List.le_max_of_mem hk⟩
    · rcases Nat.lt_or_ge k last.spec.stage with hlt | hge
      · have hgap := List.flatMap_eq_nil_iff.1 hgaps k (List.mem_range.2 (hmax ▸ hlt))
        simpa [hk.1] using hgap
      · rw [Nat.le_antisymm hk.2 hge]
        exact List.mem_map_of_mem hlast

/-! ## An accepted batch -/

theorem FinishedKept.trans {tasks₂ : List Task} (h : FinishedKept tasks tasks')
    (h' : FinishedKept tasks' tasks₂) : FinishedKept tasks tasks₂ := by
  intro t ht hfinished
  obtain ⟨t', ht', hstate, hrecord⟩ := h t ht hfinished
  obtain ⟨t₂, ht₂, hstate₂, hrecord₂⟩ := h' t' ht' (hstate ▸ hfinished)
  exact ⟨t₂, ht₂, hstate₂.trans hstate, hrecord₂.trans hrecord⟩

theorem finishedKept_of_afterBatch (h : List.Forall₂ AfterBatch tasks tasks') :
    FinishedKept tasks tasks' := by
  intro t ht hfinished
  obtain ⟨t', ht', hafter⟩ := exists_of_forall₂_mem h.flip ht
  refine ⟨t', ht', hafter.state.resolve_right fun hqueued => ?_, hafter.record⟩
  rw [hqueued.1] at hfinished
  cases hfinished

theorem ready_of_not_isHeldBack (hids : (tasks.map Task.id).Nodup)
    (h : isHeldBack tasks t = false) : Ready tasks t := by
  simp only [isHeldBack, Bool.or_eq_false_iff, List.any_eq_false] at h
  refine ⟨fun d hd => ?_, fun d hd x hx hid => ?_⟩
  · have hdep := h.1 d hd
    simp only [Bool.and_eq_true, Bool.not_eq_true', not_and, Bool.not_eq_false] at hdep
    by_cases hearlier : (tasks.any fun x => x.id = d && x.round < t.round) = true
    · obtain ⟨x, hx, hx'⟩ := List.any_eq_true.1 hearlier
      simp only [Bool.and_eq_true, decide_eq_true_eq] at hx'
      exact ⟨x, hx, hx'.1, .inl hx'.2⟩
    · have hdone := hdep (by simpa using hearlier)
      cases hx : byId tasks d with
      | none => simp [hx] at hdone
      | some x =>
        refine ⟨x, (mem_of_byId hx).1, (mem_of_byId hx).2, .inr ?_⟩
        simpa [hx] using hdone
  · have himplicit := h.2 d hd
    have hfound : (byId tasks d).isSome := by
      rw [byId, List.find?_isSome]
      exact ⟨x, hx, by simpa using hid⟩
    obtain ⟨y, hy⟩ := Option.isSome_iff_exists.1 hfound
    -- the first with the id is the only one
    obtain rfl : y = x :=
      List.inj_on_of_nodup_map hids (mem_of_byId hy).1 hx ((mem_of_byId hy).2.trans hid.symm)
    simpa [hy] using himplicit

/-- A queued task of the run that a batch leads to is ready: one that waited is pending again. -/
theorem queued_settleBatch (b : Batch) (run : Run)
    (hids : ((settleBatch b run).tasks.map Task.id).Nodup) :
    ∀ t ∈ (settleBatch b run).tasks, t.state = .queued → Ready (settleBatch b run).tasks t := by
  unfold settleBatch requeueWaiting at *
  dsimp only at *
  generalize fillImplicit (noteUnbacked b.run run b.source).tasks = filled at *
  intro t' ht' hqueued
  obtain ⟨t, ht, rfl⟩ := List.mem_map.1 ht'
  have hids' : (filled.map Task.id).Nodup := by
    rw [List.map_map] at hids
    refine (List.map_congr_left fun u _ => ?_) ▸ hids
    rw [Function.comp]
    split
    exacts [rfl, rfl]
  split at hqueued
  · -- a task that is put back is pending
    cases hqueued
  · next hfree =>
    have hheld : isHeldBack filled t = false := by simpa [hqueued] using hfree
    rw [if_neg hfree]
    obtain ⟨hdeclared, himplicit⟩ := ready_of_not_isHeldBack hids' hheld
    refine ⟨fun d hd => ?_, fun d hd x' hx' hid => ?_⟩
    · -- what a queued task waited for is done, and nothing that is done is put back
      obtain ⟨x, hx, hid, hdone⟩ := hdeclared d hd
      refine ⟨_, List.mem_map_of_mem hx, ?_⟩
      split
      · next hwaits =>
        have hstate : x.state = .queued := by
          simp only [Bool.and_eq_true, decide_eq_true_eq] at hwaits
          exact hwaits.1
        refine ⟨hid, hdone.imp_right fun hdone => ?_⟩
        simp [hstate] at hdone
      · exact ⟨hid, hdone⟩
    · obtain ⟨x, hx, rfl⟩ := List.mem_map.1 hx'
      split at hid
      · next hwaits =>
        have hfinished := himplicit d hd x hx hid
        simp only [Bool.and_eq_true, decide_eq_true_eq] at hwaits
        rw [hwaits.1] at hfinished
        cases hfinished
      · next hstays =>
        rw [if_neg hstays]
        exact himplicit d hd x hx hid

/-- An accepted batch keeps a well-formed plan so, leaves no queued task that waits, and keeps
    every finished task, if and only if the tasks it adds have new ids. -/
theorem wellFormed_applyEdits {L : Lib} {run run' : Run} {edits : List PlanEdit} {source : EditSource}
    {now : ℕ} {consequences : List EditConsequence} (h : WellFormed run.tasks)
    (haccepted : applyEdits L run edits scope source now = .ok (run', consequences)) :
    (WellFormed run'.tasks ∧ (∀ t ∈ run'.tasks, t.state = .queued → Ready run'.tasks t) ∧
      FinishedKept run.tasks run'.tasks) ↔ (run.tasks.map Task.id ++ newIds edits).Nodup := by
  obtain ⟨-, herrors, hrules, hcycles, rfl, -⟩ := applyEdits_eq_ok.1 haccepted
  simp only [batchErrors, List.append_eq_nil_iff] at hrules
  have hmoves := moves_runBatch herrors
  generalize runBatch L run edits source now = b at *
  have hafter := settleBatch_afterBatch b run
  have hids : ((settleBatch b run).tasks.map Task.id).Nodup ↔
      (run.tasks.map Task.id ++ newIds edits).Nodup := by
    rw [map_eq_of_forall₂ (hafter.imp fun _ _ ht => ht.id_eq)]
    exact hmoves.ids.nodup_iff
  refine ⟨fun hkept => hids.1 hkept.1.ids, fun hnodup => ?_⟩
  have hdistinct := hids.2 hnodup
  have hspec : ∀ {t}, t ∈ b.run.tasks → ∃ t' ∈ (settleBatch b run).tasks, t'.spec = t.spec := by
    intro t ht
    obtain ⟨t', ht', hsettled⟩ := exists_of_forall₂_mem hafter.flip ht
    exact ⟨t', ht', hsettled.spec⟩
  refine ⟨⟨hdistinct, fun t' ht' hactive d hd => ?_, ?_, acyclic_of_cyclesOver hcycles⟩,
    queued_settleBatch b run hdistinct,
    hmoves.finishedKept.trans (finishedKept_of_afterBatch hafter)⟩
  · -- the rules asked for the dependencies of the tasks before the batch was settled
    obtain ⟨t, ht, hsettled⟩ := exists_of_forall₂_mem hafter ht'
    have hactive' : t.isActive := by rwa [Task.isActive, ← hsettled.isFinished]
    obtain ⟨x, hx, hid, hstage⟩ := deps_of_validate hrules.1.1 ht hactive' (hsettled.spec ▸ hd)
    obtain ⟨x', hx', hxspec⟩ := hspec hx
    refine ⟨x', hx', by rw [Task.id, hxspec]; exact hid, ?_⟩
    rw [hxspec, hsettled.spec]
    exact hstage
  · -- the stages in use are still the first ones
    obtain ⟨n, hn, hstages⟩ := h.stages
    have hok : ∀ t ∈ run.tasks, StageOk t.spec := fun t ht =>
      ⟨((hstages _).1 ⟨t, ht, rfl⟩).1, ((hstages _).1 ⟨t, ht, rfl⟩).2.trans hn⟩
    obtain ⟨n', hn', hstages'⟩ := stages_of_validate hrules.1.1 (hmoves.stages hok)
    refine ⟨n', hn', fun k => ?_⟩
    rw [← hstages' k]
    constructor
    · rintro ⟨t', ht', hk⟩
      obtain ⟨t, ht, hsettled⟩ := exists_of_forall₂_mem hafter ht'
      exact ⟨t, ht, hsettled.spec ▸ hk⟩
    · rintro ⟨t, ht, hk⟩
      obtain ⟨t', ht', hspec'⟩ := hspec ht
      exact ⟨t', ht', hspec' ▸ hk⟩

/-- A task to do, and one that is merged. -/
def mergedRun : Run := sampleRun [sampleTask "p" [] .pending none, sampleTask "x" [] .merged none]

theorem wellFormed_mergedRun : WellFormed mergedRun.tasks := by
  refine ⟨by decide, by decide, ⟨1, by decide, fun k => ?_⟩, acyclic_of_cyclesOver (by decide)⟩
  simp [mergedRun, sampleRun, sampleTask]
  omega

/-- A task split into one with another id. -/
def splitInto (id : String) : PlanEdit := .splitTask "p" [(sampleTask id [] .pending none).spec]

theorem wellFormed_applyEdits_split :
    WellFormed (edited mergedRun [splitInto "q"]).tasks ∧
      (∀ t ∈ (edited mergedRun [splitInto "q"]).tasks, t.state = .queued →
        Ready (edited mergedRun [splitInto "q"]).tasks t) ∧
      FinishedKept mergedRun.tasks (edited mergedRun [splitInto "q"]).tasks := by
  have haccepted : applyEdits sampleLib mergedRun [splitInto "q"] .run .user 0 =
      .ok (edited mergedRun [splitInto "q"], []) :=
    applyEdits_eq_ok.2 ⟨by decide, by decide, by decide, by decide, rfl, by decide⟩
  exact (wellFormed_applyEdits wellFormed_mergedRun haccepted).2 (by decide)

/-- A task split into one with the id of a merged task after it: the plan has the id twice, and
    the new task the branch of the merged one. -/
theorem split_into_merged :
    WellFormed mergedRun.tasks ∧
    applyEdits sampleLib mergedRun [splitInto "x"] .run .user 0 =
      .ok (edited mergedRun [splitInto "x"], []) ∧
    ¬WellFormed (edited mergedRun [splitInto "x"]).tasks ∧
    (edited mergedRun [splitInto "x"]).tasks.map (fun t => (t.state, t.branch)) =
      [(.cancelled, "anthrex/r/p"), (.pending, "anthrex/r/x"), (.merged, "anthrex/r/x")] := by
  refine ⟨wellFormed_mergedRun, ?_, fun hwell => ?_, by decide⟩
  · exact applyEdits_eq_ok.2 ⟨by decide, by decide, by decide, by decide, rfl, by decide⟩
  · exact absurd hwell.ids (by decide)

end Anthrex.Plan
