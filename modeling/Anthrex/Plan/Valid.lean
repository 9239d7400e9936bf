import Anthrex.Plan.Held

/-!
# Plans that stay valid

A plan is valid when its own rules find nothing wrong with it, with nothing touched. It stays
so when its tasks keep their specs and none becomes active or comes back from a cancel
(`Thins`), and the implicit dependencies filled in anew close no cycle then
(`combinedCycles_of_validate`).
-/

namespace Anthrex.Plan

open Anthrex.Run hiding id
open Graph Lists

variable {tasks tasks' : List Task} {t t' : Task} {i j : ℕ} {id : String}

/-! ## Cycles among the unfinished tasks -/

/-- The task at the place is not finished. -/
def ActiveAt (tasks : List Task) (i : ℕ) : Prop := ∃ t, tasks[i]? = some t ∧ t.isActive

theorem firstIds_of_unshadowed (h : Unshadowed tasks) : FirstIds tasks := by
  intro i t ht hactive
  obtain ⟨hi, rfl⟩ := List.getElem?_eq_some_iff.1 ht
  rw [indexOf, List.findIdx?_eq_some_iff_getElem]
  refine ⟨hi, by simp, fun j hj heq => ?_⟩
  refine unshadowed_iff.1 h j i _ _ hj (List.getElem?_eq_getElem (by omega)) ht ?_ (by simpa using heq)
  simpa [Task.isActive] using hactive

/-- Of two unfinished tasks with one id. -/
theorem FirstIds.eq_of_id_eq (h : FirstIds tasks) (ht : t ∈ tasks) (ht' : t' ∈ tasks)
    (hactive : t.isActive) (hactive' : t'.isActive) (hid : t.id = t'.id) : t = t' := by
  obtain ⟨i, hi⟩ := List.mem_iff_getElem?.1 ht
  obtain ⟨j, hj⟩ := List.mem_iff_getElem?.1 ht'
  have hplace := h i t hi hactive
  rw [hid, h j t' hj hactive'] at hplace
  rw [← Option.some.inj hplace, hj] at hi
  exact (Option.some.inj hi).symm

/-- The place among the unfinished tasks of the task at a place of the plan. -/
def activePlace (tasks : List Task) (i : ℕ) : ℕ :=
  ((tasks[i]?.map Task.id).bind (indexOf (tasks.filter Task.isActive))).getD 0

theorem activePlace_eq (hfirst : FirstIds tasks) (ht : tasks[i]? = some t) (hactive : t.isActive) :
    (tasks.filter Task.isActive)[activePlace tasks i]? = some t ∧
      indexOf (tasks.filter Task.isActive) t.id = some (activePlace tasks i) := by
  have hmem : t ∈ tasks.filter Task.isActive :=
    List.mem_filter.2 ⟨List.mem_of_getElem? ht, hactive⟩
  have hsome : (indexOf (tasks.filter Task.isActive) t.id).isSome := by
    rw [indexOf, List.findIdx?_isSome]
    exact List.any_eq_true.2 ⟨t, hmem, by simp⟩
  obtain ⟨k, hk⟩ := Option.isSome_iff_exists.1 hsome
  have hplace : activePlace tasks i = k := by simp [activePlace, ht, hk]
  obtain ⟨u, hu, hid⟩ := indexOf_eq_some hk
  obtain ⟨hu', hactive'⟩ := List.mem_filter.1 (List.mem_of_getElem? hu)
  rw [hplace, ← hfirst.eq_of_id_eq hu' (List.mem_of_getElem? ht) hactive' hactive hid]
  exact ⟨hu, hid ▸ hk⟩

/-- With no cycle reported, the declared dependencies have none among the unfinished tasks. -/
theorem acyclic_of_cycles (hfirst : FirstIds tasks) (h : cycles tasks = []) :
    Acyclic (Within (ActiveAt tasks) (Edge (declaredEdges tasks))) := by
  refine (acyclic_of_cyclesOver h).lift (activePlace tasks) ?_
  rintro i j ⟨hedge, ⟨a, ha, hactive⟩, b, hb, hactive'⟩
  obtain ⟨id, hid, hindex⟩ := (mem_declaredEdges ha).1 hedge
  obtain ⟨b', hb', rfl⟩ := indexOf_eq_some hindex
  obtain rfl := Option.some.inj (hb.symm.trans hb')
  obtain ⟨ha₁, -⟩ := activePlace_eq hfirst ha hactive
  obtain ⟨-, hb₁⟩ := activePlace_eq hfirst hb hactive'
  exact (mem_activeEdges ha₁).2 ⟨b.id, .inl hid, hb₁⟩

theorem cycles_eq_nil (hfirst : FirstIds tasks)
    (h : Acyclic (Within (ActiveAt tasks) (Edge (declaredEdges tasks)))) : cycles tasks = [] := by
  refine cyclesOver_eq_nil (h.lift (place tasks (tasks.filter Task.isActive)) fun i j hij => ?_)
  obtain ⟨a, b, id, ha, hb, rfl, hid⟩ := edge_activeEdges hij
  obtain ⟨ha', -⟩ := place_eq hfirst ha
  obtain ⟨hb', hindex⟩ := place_eq hfirst hb
  refine ⟨(mem_declaredEdges ha').2 ⟨b.id, hid.resolve_right (by simp), hindex⟩, ⟨a, ha', ?_⟩, b, hb', ?_⟩
  · exact (List.mem_filter.1 (List.mem_of_getElem? ha)).2
  · exact (List.mem_filter.1 (List.mem_of_getElem? hb)).2

theorem activeAt_fillImplicit (h : ActiveAt (fillImplicit tasks) i) : ActiveAt tasks i := by
  obtain ⟨t, ht, hactive⟩ := h
  obtain ⟨u, deps, hu, -, rfl⟩ := List.getElem?_zipWith_eq_some.1 ht
  exact ⟨u, hu, hactive⟩

/-- Implicit dependencies close no cycle among the unfinished tasks. -/
theorem acyclic_fillImplicit (hfirst : FirstIds tasks)
    (h : Acyclic (Within (ActiveAt tasks) (Edge (declaredEdges tasks)))) :
    Acyclic (Edge (activeEdges ((fillImplicit tasks).filter Task.isActive) true)) := by
  have hfirst' := firstIds_fillImplicit hfirst
  refine (waits_inv.acyclic (ActiveAt tasks) h).lift
    (place (fillImplicit tasks) ((fillImplicit tasks).filter Task.isActive)) fun i j hij => ?_
  obtain ⟨a, b, id, ha, hb, rfl, hid⟩ := edge_activeEdges hij
  obtain ⟨ha', -⟩ := place_eq hfirst' ha
  obtain ⟨hb', hindex⟩ := place_eq hfirst' hb
  have hedge := (mem_waitEdges ha').2 ⟨b.id, hid.imp_right And.right, hindex⟩
  refine ⟨(edge_waitEdges_fillImplicit hfirst).1 hedge, ?_, ?_⟩
  · exact activeAt_fillImplicit ⟨a, ha', (List.mem_filter.1 (List.mem_of_getElem? ha)).2⟩
  · exact activeAt_fillImplicit ⟨b, hb', (List.mem_filter.1 (List.mem_of_getElem? hb)).2⟩

/-! ## What the rules say with nothing touched -/

variable {models : RunModels} {maxTasks round : ℕ}

/-- Nothing is wrong with a list of tasks in which nothing is new. -/
structure Valid (maxTasks round : ℕ) (tasks : List Task) : Prop where
  count : (tasks.filter fun t => t.state ≠ .cancelled && t.round = round).length ≤ maxTasks
  ids : Unshadowed tasks
  deps : ∀ t ∈ tasks, t.isActive → ∀ d ∈ t.spec.deps,
    ∃ x, byId tasks d = some x ∧ x.spec.stage ≤ t.spec.stage
  gaps : ∀ k < ((tasks.map (·.spec.stage)).filter fun s => 1 ≤ s && s ≤ stagesMax).foldl max 0, 1 ≤ k →
    k ∈ (tasks.map (·.spec.stage)).filter fun s => 1 ≤ s && s ≤ stagesMax
  atomic : (tasks.filter fun t => t.spec.atomic && t.state ≠ .cancelled).Pairwise
    fun t t' => t.spec.stage ≠ t'.spec.stage
  cycles : cycles tasks = []
  briefs : briefsTotal tasks = []

theorem taskErrors_untouched {before : List Task} :
    taskErrors models tasks [] (some []) .run before t = [] ↔
      t.id ∉ before.map Task.id ∧ ∀ d ∈ t.spec.deps, (byId tasks d).isSome := by
  have hruntimes : (before.filter Task.isActive).filterMap (runtimesError models [] t) = [] :=
    List.filterMap_eq_nil_iff.2 fun earlier _ => by simp [runtimesError]
  simp only [taskErrors, hruntimes, List.append_eq_nil_iff, errorIf_eq_nil, List.not_mem_nil,
    decide_false, Bool.false_and, Bool.and_false, depErrors, List.flatMap_eq_nil_iff,
    decide_eq_false_iff_not, Bool.false_eq_true, if_false, and_true]
  refine and_congr_right fun _ => forall₂_congr fun d _ => ?_
  cases byId tasks d <;> simp

theorem stageRules_eq_nil : stageRules tasks = [] ↔
    (∀ t ∈ tasks, t.isActive → ∀ d ∈ t.spec.deps, ∀ x, byId tasks d = some x →
      x.spec.stage ≤ t.spec.stage) ∧
    (∀ k < ((tasks.map (·.spec.stage)).filter fun s => 1 ≤ s && s ≤ stagesMax).foldl max 0, 1 ≤ k →
      k ∈ (tasks.map (·.spec.stage)).filter fun s => 1 ≤ s && s ≤ stagesMax) ∧
    (tasks.filter fun t => t.spec.atomic && t.state ≠ .cancelled).Pairwise
      fun t t' => t.spec.stage ≠ t'.spec.stage := by
  simp only [stageRules, List.append_eq_nil_iff, List.flatMap_eq_nil_iff, and_assoc]
  refine and_congr ?_ (and_congr ?_ ?_)
  · simp only [List.mem_filter, and_imp]
    refine forall₃_congr fun t _ _ => forall₂_congr fun d _ => ?_
    cases byId tasks d <;> simp
  · simp only [List.mem_range, errorIf_eq_nil, Bool.and_eq_false_imp, decide_eq_true_eq,
      decide_eq_false_iff_not, not_not]
  · generalize (tasks.filter fun t => t.spec.atomic && t.state ≠ .cancelled) = atomic
    rw [pairwise_iff_getElem?]
    constructor
    · intro h j k u v hlt hu hv heq
      have hnone := h (v, k) (List.mem_zipIdx_iff_getElem?.2 hv)
      split at hnone
      · next hfind => exact absurd (List.find?_eq_none.1 hfind u (mem_take_of_lt hlt hu)) (by simp [heq])
      · cases hnone
    · rintro h ⟨v, k⟩ hv
      split
      · rfl
      · next other hfind =>
        obtain ⟨j, hlt, hj⟩ := lt_of_mem_take (List.mem_of_find?_eq_some hfind)
        have hne := h j k other v hlt hj (List.mem_zipIdx_iff_getElem?.1 hv)
        exact absurd (by simpa using List.find?_some hfind) hne

theorem validateTasksWith_eq_nil :
    validateTasksWith models tasks [] (some []) .run maxTasks round = [] ↔
      Valid maxTasks round tasks := by
  have hpatterns : patterns tasks [] = [] := by simp [patterns]
  constructor
  · intro h
    have hids := unshadowed_of_validate h
    have hdeps : ∀ t ∈ tasks, t.isActive → ∀ d ∈ t.spec.deps, (byId tasks d).isSome := by
      intro t ht hactive
      obtain ⟨k, hk⟩ := List.mem_iff_getElem?.1 ht
      exact (taskErrors_untouched.1 (taskErrors_eq_nil h hk hactive)).2
    simp only [validateTasksWith, List.append_eq_nil_iff] at h
    obtain ⟨⟨⟨⟨⟨⟨hcount, -⟩, -⟩, hstages⟩, -⟩, hcycles⟩, hbriefs⟩ := h
    obtain ⟨hlate, hgaps, hatomic⟩ := stageRules_eq_nil.1 hstages
    refine ⟨?_, hids, fun t ht hactive d hd => ?_, hgaps, hatomic, hcycles, hbriefs⟩
    · simpa [countErrors] using hcount
    · obtain ⟨x, hx⟩ := Option.isSome_iff_exists.1 (hdeps t ht hactive d hd)
      exact ⟨x, hx, hlate t ht hactive d hd x hx⟩
  · intro h
    simp only [validateTasksWith, List.append_eq_nil_iff, hpatterns, and_true]
    refine ⟨⟨⟨⟨⟨?_, rfl⟩, List.flatMap_eq_nil_iff.2 ?_⟩, stageRules_eq_nil.2 ⟨?_, h.gaps, h.atomic⟩⟩,
      h.cycles⟩, h.briefs⟩
    · simpa [countErrors] using h.count
    · rintro ⟨t, k⟩ hk
      have ht := List.mem_zipIdx_iff_getElem?.1 hk
      split
      · next hactive =>
        refine taskErrors_untouched.2 ⟨fun hmem => ?_, fun d hd => ?_⟩
        · obtain ⟨u, hu, hid⟩ := List.mem_map.1 hmem
          obtain ⟨j, hlt, hj⟩ := lt_of_mem_take hu
          exact unshadowed_iff.1 h.ids j k u t hlt hj ht (by simpa [Task.isActive] using hactive) hid
        · obtain ⟨x, hx, -⟩ := h.deps t (List.mem_of_getElem? ht) hactive d hd
          simp [hx]
      · rfl
    · intro t ht hactive d hd x hx
      obtain ⟨y, hy, hstage⟩ := h.deps t ht hactive d hd
      rw [Option.some.inj (hx.symm.trans hy)]
      exact hstage

/-! ## What keeps a plan valid -/

/-- The task keeps its spec, and neither becomes active nor comes back from a cancel. -/
structure Thins (t t' : Task) : Prop where
  spec : t'.spec = t.spec
  round : t'.round = t.round
  active : t'.isActive → t.isActive
  cancelled : t.state = .cancelled → t'.state = .cancelled

theorem Thins.refl (t : Task) : Thins t t := ⟨rfl, rfl, fun h => h, fun h => h⟩

theorem Thins.trans {u : Task} (h : Thins t t') (h' : Thins t' u) : Thins t u :=
  ⟨h'.spec.trans h.spec, h'.round.trans h.round, fun hactive => h.active (h'.active hactive),
    fun hcancelled => h'.cancelled (h.cancelled hcancelled)⟩

/-- A task that is not finished may go into any state. -/
theorem thins_of_active (hspec : t'.spec = t.spec) (hround : t'.round = t.round)
    (hactive : t.isActive) : Thins t t' := by
  refine ⟨hspec, hround, fun _ => hactive, fun hcancelled => ?_⟩
  simp [Task.isActive, hcancelled, TaskState.isFinished] at hactive

theorem map_spec_of_thins {β : Type*} (h : List.Forall₂ Thins tasks tasks') (f : PlanTask → β) :
    tasks'.map (fun t => f t.spec) = tasks.map fun t => f t.spec :=
  map_eq_of_forall₂ (h.imp fun _ _ ht => by rw [ht.spec])

theorem Thins.id_eq (h : Thins t t') : t'.id = t.id := by rw [Task.id, h.spec, Task.id]

theorem Unshadowed.thins (h : Unshadowed tasks) (hthins : List.Forall₂ Thins tasks tasks') :
    Unshadowed tasks' := by
  refine pairwise_of_forall₂ hthins.flip (fun u' v' u v hu hv hpair hopen => ?_) h
  have hactive := hv.active (by simpa [Task.isActive] using hopen)
  rw [hu.id_eq, hv.id_eq]
  exact hpair (by simpa [Task.isActive] using hactive)

theorem declaredEdges_of_thins (hthins : List.Forall₂ Thins tasks tasks') :
    declaredEdges tasks' = declaredEdges tasks := by
  have hids : tasks'.map Task.id = tasks.map Task.id := map_spec_of_thins hthins (·.id)
  have hindex : indexOf tasks' = indexOf tasks := by
    funext d
    have hmap : ∀ l : List Task, indexOf l d = (l.map Task.id).findIdx? (· = d) := by
      intro l
      rw [List.findIdx?_map]
      rfl
    rw [hmap, hmap, hids]
  rw [declaredEdges, declaredEdges, hindex]
  exact map_spec_of_thins hthins fun spec => spec.deps.filterMap (indexOf tasks)

theorem ActiveAt.of_thins (hthins : List.Forall₂ Thins tasks tasks') (h : ActiveAt tasks' i) :
    ActiveAt tasks i := by
  obtain ⟨t', ht', hactive⟩ := h
  obtain ⟨t, ht, hthin⟩ := getElem?_of_forall₂ hthins.flip ht'
  exact ⟨t, ht, hthin.active hactive⟩

theorem Valid.thins (h : Valid maxTasks round tasks) (hthins : List.Forall₂ Thins tasks tasks') :
    Valid maxTasks round tasks' := by
  have hstages : tasks'.map (·.spec.stage) = tasks.map (·.spec.stage) :=
    map_spec_of_thins hthins (·.stage)
  have hids := h.ids.thins hthins
  refine ⟨?_, hids, fun t' ht' hactive d hd => ?_, ?_, ?_, ?_, ?_⟩
  · refine (length_filter_le_of_forall₂ hthins fun t t' ht hcounted => ?_).trans h.count
    simp only [Bool.and_eq_true, decide_eq_true_eq] at hcounted ⊢
    exact ⟨fun hcancelled => hcounted.1 (ht.cancelled hcancelled), ht.round ▸ hcounted.2⟩
  · obtain ⟨t, ht, hthin⟩ := exists_of_forall₂_mem hthins ht'
    obtain ⟨x, hx, hstage⟩ := h.deps t ht (hthin.active hactive) d (hthin.spec ▸ hd)
    have hid : ∀ y' y, Thins y y' → decide (y.id = d) = decide (y'.id = d) := fun y' y hy => by
      rw [hy.id_eq]
    obtain ⟨x', hx', hxthin⟩ := find?_of_forall₂ hthins.flip hid hx
    refine ⟨x', hx', ?_⟩
    rw [hxthin.spec, hthin.spec]
    exact hstage
  · rw [hstages]
    exact h.gaps
  · have hatomic := h.atomic
    rw [List.pairwise_filter] at hatomic ⊢
    refine pairwise_of_forall₂ hthins.flip (fun u' v' u v hu hv hpair hu' hv' => ?_) hatomic
    have hstays : ∀ {y y'}, Thins y y' → (y'.spec.atomic && decide (y'.state ≠ .cancelled)) = true →
        (y.spec.atomic && decide (y.state ≠ .cancelled)) = true := by
      intro y y' hy hkept
      simp only [Bool.and_eq_true, decide_eq_true_eq] at hkept ⊢
      exact ⟨hy.spec ▸ hkept.1, fun hcancelled => hkept.2 (hy.cancelled hcancelled)⟩
    rw [hu.spec, hv.spec]
    exact hpair (hstays hu hu') (hstays hv hv')
  · refine cycles_eq_nil (firstIds_of_unshadowed hids) ?_
    rw [declaredEdges_of_thins hthins]
    refine (acyclic_of_cycles (firstIds_of_unshadowed h.ids) h.cycles).mono ?_
    exact fun i j hij => ⟨hij.1, hij.2.1.of_thins hthins, hij.2.2.of_thins hthins⟩
  · have hbriefs := map_spec_of_thins hthins (·.brief.utf8ByteSize)
    rw [briefsTotal, hbriefs]
    exact h.briefs

/-! ## Batches of the user's that touch nothing -/

/-- The run keeps what the rules look at besides its tasks, and its tasks thin out. -/
structure Alike (run run' : Run) : Prop where
  limits : run'.limits = run.limits
  rounds : run'.rounds = run.rounds
  stageLayout : run'.stageLayout = run.stageLayout
  state : run'.state = run.state
  tasks : List.Forall₂ Thins run.tasks run'.tasks

variable {run run' run₂ : Run} {b : Batch} {L : Lib} {edits : List PlanEdit} {now : ℕ}

theorem Alike.refl (run : Run) : Alike run run :=
  ⟨rfl, rfl, rfl, rfl, List.forall₂_same.2 fun t _ => .refl t⟩

theorem Alike.trans (h : Alike run run') (h' : Alike run' run₂) : Alike run run₂ :=
  ⟨h'.limits.trans h.limits, h'.rounds.trans h.rounds, h'.stageLayout.trans h.stageLayout,
    h'.state.trans h.state, forall₂_trans (fun _ _ _ h h' => h.trans h') h.tasks h'.tasks⟩

theorem alike_modifyTask {f : Task → Task} (h : ∀ t, run.tasks[i]? = some t → Thins t (f t)) :
    Alike run (run.modifyTask i f) :=
  ⟨rfl, rfl, rfl, rfl, forall₂_modify (fun t _ => .refl t) h⟩

/-- The plan of the run passes its own rules, with nothing touched. -/
structure ValidRun (run : Run) : Prop where
  tasks : validateTasksWith run.models run.tasks [] (some []) .run run.limits.maxTasks run.round = []
  layout : singleLayoutRule run = []

theorem ValidRun.alike (h : ValidRun run) (halike : Alike run run') : ValidRun run' := by
  have hround : run'.round = run.round := by rw [Run.round, halike.rounds, Run.round]
  refine ⟨?_, ?_⟩
  · rw [validateTasksWith_eq_nil, halike.limits, hround]
    exact (validateTasksWith_eq_nil.1 h.tasks).thins halike.tasks
  · have hlayout := h.layout
    unfold singleLayoutRule at hlayout ⊢
    rw [halike.stageLayout, halike.state]
    split at hlayout
    · next hskip => rw [if_pos hskip]
    · next hskip =>
      rw [if_neg hskip]
      rw [List.map_eq_nil_iff, List.filter_eq_nil_iff] at hlayout ⊢
      intro t' ht' hlate
      obtain ⟨t, ht, hthin⟩ := exists_of_forall₂_mem halike.tasks ht'
      simp only [Bool.and_eq_true] at hlate
      refine hlayout t ht ?_
      simp only [Bool.and_eq_true]
      exact ⟨hthin.active hlate.1, hthin.spec ▸ hlate.2⟩

/-- The implicit dependencies of a valid plan close no cycle. -/
theorem Valid.acyclic_fillImplicit (h : Valid maxTasks round tasks) :
    Acyclic (Edge (activeEdges ((fillImplicit tasks).filter Task.isActive) true)) :=
  Plan.acyclic_fillImplicit (firstIds_of_unshadowed h.ids)
    (acyclic_of_cycles (firstIds_of_unshadowed h.ids) h.cycles)

theorem activeEdges_map {f : Task → Task} (hspec : ∀ t, (f t).spec = t.spec)
    (himplicit : ∀ t, (f t).implicitDeps = t.implicitDeps) (active : List Task) (withImplicit : Bool) :
    activeEdges (active.map f) withImplicit = activeEdges active withImplicit := by
  have hindex : indexOf (active.map f) = indexOf active := by
    funext d
    rw [indexOf, List.findIdx?_map]
    refine congrArg (active.findIdx? ·) (funext fun t => ?_)
    show decide ((f t).spec.id = d) = decide (t.spec.id = d)
    rw [hspec]
  rw [activeEdges, activeEdges, hindex, List.map_map]
  refine List.map_congr_left fun t _ => ?_
  simp only [Function.comp, hspec, himplicit]

/-- Queued tasks that go back to pending close no cycle. -/
theorem acyclic_requeueWaiting
    (h : Acyclic (Edge (activeEdges (run.tasks.filter Task.isActive) true))) :
    Acyclic (Edge (activeEdges ((requeueWaiting run).tasks.filter Task.isActive) true)) := by
  unfold requeueWaiting
  dsimp only
  rw [List.filter_map]
  have hsame : ∀ t, Task.isActive (if t.state = .queued && isHeldBack run.tasks t then
      { t with state := .pending } else t) = t.isActive := by
    intro t
    split
    · next hqueued =>
      simp only [Bool.and_eq_true, decide_eq_true_eq] at hqueued
      simp [Task.isActive, hqueued.1, TaskState.isFinished]
    · rfl
  rw [activeEdges_map]
  · rwa [show (Task.isActive ∘ fun t => if t.state = .queued && isHeldBack run.tasks t then
      { t with state := .pending } else t) = Task.isActive from funext hsame]
  · intro t
    split
    exacts [rfl, rfl]
  · intro t
    split
    exacts [rfl, rfl]

/-- A batch of the user's that touches nothing. -/
structure Mild (run : Run) (b : Batch) : Prop where
  source : b.source = .user
  touched : b.touched = []
  addedDeps : b.addedDeps = []
  alike : Alike run b.run

/-- The rules at the end of a mild batch find nothing. -/
theorem Mild.rules (hvalid : ValidRun run) (h : Mild run b) :
    batchErrors b run .run = [] ∧ combinedCycles (settleBatch b run).tasks = [] := by
  have hvalid' := hvalid.alike h.alike
  have hnoted : noteUnbacked b.run run b.source = b.run := by simp [noteUnbacked, h.source]
  constructor
  · simp only [batchErrors, h.touched, h.addedDeps, hvalid'.tasks, hvalid'.layout, h.source, checkBatch,
      if_true, List.append_nil]
  · refine cyclesOver_eq_nil ?_
    rw [settleBatch, hnoted]
    exact acyclic_requeueWaiting (validateTasksWith_eq_nil.1 hvalid'.tasks).acyclic_fillImplicit

/-- Whether a mild batch goes through is what its edits say. -/
theorem Mild.applyEdits (hvalid : ValidRun run) (h : Mild run (runBatch L run edits .user now))
    (hround : earlierRound run edits = none) :
    Plan.applyEdits L run edits .run .user now =
      if (runBatch L run edits .user now).errors = [] then
        .ok (settleBatch (runBatch L run edits .user now) run,
          (runBatch L run edits .user now).consequences)
      else .error (runBatch L run edits .user now).errors := by
  obtain ⟨hrules, hcycles⟩ := h.rules hvalid
  unfold Plan.applyEdits
  simp only [hround, hrules, List.append_nil]
  generalize runBatch L run edits .user now = b at *
  by_cases herrors : b.errors = []
  · simp [herrors, hcycles]
  · simp [herrors]

end Anthrex.Plan
