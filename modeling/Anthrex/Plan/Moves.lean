import Anthrex.Plan.Provenance

/-!
# What an accepted batch does to the tasks

An edit that goes through is a few moves of the list of tasks: a task changed in place, put to
work, paused or cancelled with its dependents blocked, a new one at the end, new dependencies,
and a task split into others right after it. A move says all that the rules on dependencies,
ids and finished tasks rest on; what holds of every move holds of every batch
(`moves_runBatch`).
-/

namespace Anthrex.Plan

open Anthrex.Run hiding id
open Anthrex.Globs Lists

/-- The tasks of a batch, and the dependencies it has added. -/
structure Draft where
  tasks : List Task
  addedDeps : List (String × String)

/-- The first task with its id. -/
def FirstAt (tasks : List Task) (i : ℕ) (t : Task) : Prop :=
  tasks[i]? = some t ∧ ∀ u ∈ tasks.take i, u.id ≠ t.id

def StageOk (spec : PlanTask) : Prop := 1 ≤ spec.stage ∧ spec.stage ≤ stagesMax

/-- What a finished task leaves besides its state: its spec, its route, its branch with its head,
    the commit of its merge, and its round. -/
def record (t : Task) : PlanTask × Route × String × Option String × Option String × ℕ :=
  (t.spec, t.route, t.branch, t.head, t.mergeCommit, t.round)

/-- The task changed in place: it keeps what it waits for and the state it is in. -/
structure InPlace (t t' : Task) : Prop where
  id : t'.id = t.id
  deps : t'.spec.deps = t.spec.deps
  state : t'.state = t.state
  block : t'.block = t.block
  round : t'.round = t.round
  stage : t'.spec.stage = t.spec.stage ∨ StageOk t'.spec
  finished : t.state.isFinished → record t' = record t

/-- A new task: all its dependencies are added by the batch. -/
structure New (addedDeps : List (String × String)) (t : Task) : Prop where
  state : t.state = .pending
  deps : ∀ d ∈ t.spec.deps, (t.id, d) ∈ addedDeps
  stage : StageOk t.spec

/-- The task cancelled, and its dependents blocked. -/
def cancelIn (tasks : List Task) (i : ℕ) (id : String) : List Task :=
  (tasks.modify i fun t => { t with state := .cancelled, block := none }).zipIdx.map fun t =>
    if t.2 = i then t.1 else Batch.blockDependent id t.1

/-- One move, with the ids of the tasks it adds. -/
inductive Move : Draft → List String → Draft → Prop
  | place {d d' : Draft} (h : List.Forall₂ InPlace d.tasks d'.tasks)
      (hadded : ∀ p ∈ d.addedDeps, p ∈ d'.addedDeps) : Move d [] d'
  | works {d : Draft} {i : ℕ} {t : Task} (ht : d.tasks[i]? = some t)
      (hstate : t.state = .working ∨
        t.state = .blocked ∧ (t.blockedFor .question ∨ t.blockedFor .messagePause)) :
      Move d [] { d with
        tasks := d.tasks.modify i fun t => { t with state := .working, block := none } }
  | pauses {d : Draft} {i : ℕ} {t : Task} {block : BlockInfo} (ht : d.tasks[i]? = some t)
      (hstate : t.state = .working ∨ t.isPaused) (hblock : block.reason = .messagePause) :
      Move d [] { d with
        tasks := d.tasks.modify i fun t => { t with state := .blocked, block := some block } }
  | cancels {d : Draft} {i : ℕ} {t : Task} (ht : FirstAt d.tasks i t)
      (hopen : t.state.isFinished = false) :
      Move d [] { d with tasks := cancelIn d.tasks i t.id }
  | adds {d d' : Draft} {t : Task} (ht : New d'.addedDeps t) (htasks : d'.tasks = d.tasks ++ [t])
      (hadded : ∀ p ∈ d.addedDeps, p ∈ d'.addedDeps) : Move d [t.id] d'
  | redeps {d d' : Draft} {i : ℕ} {t t' : Task} (ht : d.tasks[i]? = some t)
      (hopen : t.state.isFinished = false)
      (htasks : d'.tasks = d.tasks.modify i fun _ => t') (hid : t'.id = t.id)
      (hround : t'.round = t.round) (hstage : t'.spec.stage = t.spec.stage)
      (hstate : t'.state = t.state ∧ t'.block = t.block ∨ t'.state = .pending)
      (hdeps : ∀ d₀ ∈ t'.spec.deps, (t.id, d₀) ∈ d'.addedDeps ∨
        d₀ ∈ t.spec.deps ∧ t'.state = t.state ∧ t'.block = t.block)
      (hadded : ∀ p ∈ d.addedDeps, p ∈ d'.addedDeps) : Move d [] d'
  | splits {d d' : Draft} {i : ℕ} {t : Task} {children tasks : List Task}
      (ht : FirstAt d.tasks i t) (hopen : t.state.isFinished = false)
      (hchildren : ∀ c ∈ children, New d'.addedDeps c)
      (hparent : tasks = cancelIn (d.tasks.map (Batch.replaceDep t.id (children.map Task.id))) i t.id ∨
        List.Forall₂ InPlace (d.tasks.map (Batch.replaceDep t.id (children.map Task.id))) tasks)
      (htasks : d'.tasks = tasks.take (i + 1) ++ children ++ tasks.drop (i + 1))
      (hadded : ∀ p ∈ d.addedDeps, p ∈ d'.addedDeps) : Move d (children.map Task.id) d'

/-- Moves one after the other, with the ids of all tasks they add. -/
inductive Moves : Draft → List String → Draft → Prop
  | refl (d : Draft) : Moves d [] d
  | step {d d' d₂ : Draft} {new news : List String} (h : Move d new d') (h' : Moves d' news d₂) :
      Moves d (new ++ news) d₂

variable {d d' d₂ : Draft} {new news : List String} {t t' : Task} {L : Lib} {b b' b₂ : Batch}
  {id : String} {i : ℕ}

theorem Moves.single (h : Move d new d') : Moves d new d' := by
  have hstep := Moves.step h (.refl d')
  rwa [List.append_nil] at hstep

theorem Moves.trans (h : Moves d new d') (h' : Moves d' news d₂) : Moves d (new ++ news) d₂ := by
  induction h with
  | refl => exact h'
  | step hmove _ ih =>
    rw [List.append_assoc]
    exact .step hmove (ih h')

theorem InPlace.refl (t : Task) : InPlace t t :=
  ⟨rfl, rfl, rfl, rfl, rfl, .inl rfl, fun _ => rfl⟩

theorem forall₂_inPlace_refl (tasks : List Task) : List.Forall₂ InPlace tasks tasks :=
  List.forall₂_same.2 fun t _ => .refl t

/-! ## Edits that go through -/

def Batch.draft (b : Batch) : Draft := ⟨b.run.tasks, b.addedDeps⟩

/-- If nothing is wrong after it, nothing was wrong before, and the tasks have moved. -/
def Leads (b : Batch) (new : List String) (b' : Batch) : Prop :=
  b'.errors = [] → b.errors = [] ∧ Moves b.draft new b'.draft

theorem Leads.refl (b : Batch) : Leads b [] b := fun h => ⟨h, .refl _⟩

theorem Leads.trans (h : Leads b new b') (h' : Leads b' news b₂) : Leads b (new ++ news) b₂ := by
  intro herrors
  obtain ⟨hmid, hmoves'⟩ := h' herrors
  obtain ⟨hstart, hmoves⟩ := h hmid
  exact ⟨hstart, hmoves.trans hmoves'⟩

theorem Leads.trans_nil (h : Leads b [] b') (h' : Leads b' news b₂) : Leads b news b₂ := h.trans h'

/-- The tasks move, and no error is found. -/
theorem Leads.move (h : Move b.draft new b'.draft) (herrors : b'.errors = b.errors) :
    Leads b new b' :=
  fun hnil => ⟨herrors ▸ hnil, .single h⟩

/-- The tasks stay as they are. -/
structure Idles (b b' : Batch) : Prop where
  tasks : b'.run.tasks = b.run.tasks
  addedDeps : ∀ p ∈ b.addedDeps, p ∈ b'.addedDeps
  errors : ∃ more, b'.errors = b.errors ++ more

theorem Idles.refl (b : Batch) : Idles b b := ⟨rfl, fun _ h => h, [], (List.append_nil _).symm⟩

theorem Idles.trans (h : Idles b b') (h' : Idles b' b₂) : Idles b b₂ := by
  refine ⟨h'.tasks.trans h.tasks, fun p hp => h'.addedDeps p (h.addedDeps p hp), ?_⟩
  obtain ⟨more, hmore⟩ := h.errors
  obtain ⟨more', hmore'⟩ := h'.errors
  exact ⟨more ++ more', by rw [hmore', hmore, List.append_assoc]⟩

theorem Idles.errors_eq_nil (h : Idles b b') (herrors : b'.errors = []) : b.errors = [] := by
  obtain ⟨more, hmore⟩ := h.errors
  rw [hmore, List.append_eq_nil_iff] at herrors
  exact herrors.1

theorem Idles.leads (h : Idles b b') : Leads b [] b' := by
  intro herrors
  refine ⟨h.errors_eq_nil herrors, .single (.place ?_ h.addedDeps)⟩
  show List.Forall₂ InPlace b.run.tasks b'.run.tasks
  rw [h.tasks]
  exact forall₂_inPlace_refl _

theorem Idles.foldl {α : Type*} {g : Batch → α → Batch} (h : ∀ b x, Idles b (g b x)) (l : List α)
    (b : Batch) : Idles b (l.foldl g b) := by
  induction l generalizing b with
  | nil => exact .refl b
  | cons x l ih => exact (h b x).trans (ih (g b x))

theorem firstAt_of_find {tasks : List Task}
    (h : tasks.zipIdx.find? (·.1.id = id) = some (t, i)) : FirstAt tasks i t := by
  have hid : t.id = id := by simpa using List.find?_some h
  refine ⟨List.mem_zipIdx_iff_getElem?.1 (List.mem_of_find?_eq_some h), fun u hu heq => ?_⟩
  have hnot : decide (u.id = id) = false :=
    not_of_mem_take (p := (·.id = id)) (k := 0) (by simpa using h) u hu
  simp [heq, hid] at hnot

namespace Batch

/-- A refused edit leads nowhere. -/
theorem fail_leads (b : Batch) {errors : List PlanError} (h : errors ≠ []) :
    Leads b new (b.fail errors) := by
  intro hnil
  exact absurd (List.append_eq_nil_iff.1 hnil).2 h

theorem fail_idles (b : Batch) (errors : List PlanError) : Idles b (b.fail errors) :=
  ⟨rfl, fun _ h => h, errors, rfl⟩

theorem consequence_idles (b : Batch) (c : EditConsequence) : Idles b (b.consequence c) :=
  ⟨rfl, fun _ h => h, [], (List.append_nil _).symm⟩

/-- One task changed in place. -/
theorem modifyTask_leads {f : Task → Task} (h : ∀ t, b.run.tasks[i]? = some t → InPlace t (f t)) :
    Leads b [] (b.modifyTask i f) :=
  .move (.place (forall₂_modify (fun t _ => .refl t) h) fun _ h => h) rfl

/-- Naming a task: it is not there, or the first with its id is given. -/
theorem withTask_leads {k : ℕ → Task → Batch}
    (hfound : ∀ i t, FirstAt b.run.tasks i t → t.id = id → Leads b new (k i t)) :
    Leads b new (b.withTask id k) := by
  unfold withTask
  split
  · rename_i t i hfind
    have hid : t.id = id := by simpa using List.find?_some hfind
    exact hfound i t (firstAt_of_find hfind) hid
  · exact fail_leads b (by simp)

/-! ### Cancelling -/

/-- What a cancel leaves of the tasks: the task cancelled, or marked while its merge runs. -/
theorem cancelAt_eq (b : Batch) (i : ℕ) (t : Task) :
    (b.cancelAt i t).addedDeps = b.addedDeps ∧ (b.cancelAt i t).errors = b.errors ∧
      ((b.cancelAt i t).run.tasks = cancelIn b.run.tasks i t.id ∨
        List.Forall₂ InPlace b.run.tasks (b.cancelAt i t).run.tasks) := by
  unfold cancelAt
  split
  · refine ⟨rfl, rfl, .inr (forall₂_modify (fun t _ => .refl t) fun u _ => ?_)⟩
    exact ⟨rfl, rfl, rfl, rfl, rfl, .inl rfl, fun _ => rfl⟩
  · dsimp only
    split
    exacts [⟨rfl, rfl, .inl rfl⟩, ⟨rfl, rfl, .inl rfl⟩]

theorem cancelAt_leads (ht : FirstAt b.run.tasks i t) (hopen : t.state.isFinished = false) :
    Leads b [] (b.cancelAt i t) := by
  obtain ⟨hadded, herrors, htasks | htasks⟩ := cancelAt_eq b i t
  · have hdraft : (b.cancelAt i t).draft = { b.draft with tasks := cancelIn b.run.tasks i t.id } := by
      rw [draft, htasks, hadded]
      rfl
    refine .move ?_ herrors
    rw [hdraft]
    exact .cancels ht hopen
  · refine .move (.place htasks fun p hp => ?_) herrors
    show p ∈ (b.cancelAt i t).addedDeps
    rw [hadded]
    exact hp

theorem cancel_leads (b : Batch) (id : String) : Leads b [] (b.cancel id) := by
  refine withTask_leads fun i t ht _ => ?_
  split
  · exact fail_leads b (by simp)
  · next hopen =>
    split
    · exact fail_leads b (by simp)
    · exact cancelAt_leads ht (by simpa using hopen)

theorem cancelReplaced_leads (b : Batch) (id : String) : Leads b [] (b.cancelReplaced id) := by
  unfold cancelReplaced
  split
  · next t i hfind =>
    split
    · next hblocked => exact cancelAt_leads (firstAt_of_find hfind) (by simp [hblocked, TaskState.isFinished])
    · exact .refl b
  · exact .refl b

theorem foldl_leads {α : Type*} {g : Batch → α → Batch} (h : ∀ b x, Leads b [] (g b x)) (l : List α)
    (b : Batch) : Leads b [] (l.foldl g b) := by
  induction l generalizing b with
  | nil => exact .refl b
  | cons x l ih => exact (h b x).trans_nil (ih (g b x))

theorem storeReplaces_leads (b : Batch) (newId : String) (ids : List String) :
    Leads b [] (b.storeReplaces newId ids) := by
  unfold storeReplaces
  split
  · exact modifyTask_leads fun u _ => ⟨rfl, rfl, rfl, rfl, rfl, .inl rfl, fun _ => rfl⟩
  · exact .refl b

theorem replaces_leads (b : Batch) (newId : String) (ids : List String) :
    Leads b [] (b.replaces newId ids) := by
  unfold replaces
  split
  · exact .refl b
  split
  · exact fail_leads b (by simp)
  dsimp only
  split
  · next hrefused => exact fail_leads b (by simpa using hrefused)
  split
  · exact .refl b
  refine (storeReplaces_leads b newId ids).trans_nil ?_
  split
  · exact fail_leads _ (by simp)
  · exact foldl_leads cancelReplaced_leads ids _

/-! ### Adding -/

theorem routeIgnored_idles (b : Batch) (sent : RouteSpec) : Idles b (b.routeIgnored sent) := by
  unfold routeIgnored
  split
  exacts [consequence_idles b _, .refl b]

theorem unrouted_idles (b : Batch) (spec : PlanTask) : Idles b (b.unrouted spec).1 := by
  unfold unrouted
  split
  exacts [routeIgnored_idles b _, .refl b]

theorem unrouted_spec (b : Batch) (spec : PlanTask) :
    (b.unrouted spec).2.id = spec.id ∧ (b.unrouted spec).2.deps = spec.deps := by
  unfold unrouted
  split
  exacts [⟨rfl, rfl⟩, ⟨rfl, rfl⟩]

theorem resolve_idles (b : Batch) (spec : PlanTask) : Idles b (b.resolve L spec).1 :=
  ⟨rfl, fun _ h => h, _, List.append_assoc _ _ _⟩

/-- A spec resolved without an error is in a stage there can be. -/
theorem stageOk_of_resolve (spec : PlanTask) (h : (b.resolve L spec).1.errors = []) :
    StageOk spec := by
  have hfields : checkFields L spec = [] := by
    simp only [resolve, resolveTaskLenient, List.append_eq_nil_iff] at h
    exact h.1.2.1.1.1
  have hstage : checkStageFields spec = [] := by
    simp only [checkFields, List.append_eq_nil_iff] at hfields
    tauto
  simp only [checkStageFields, List.append_eq_nil_iff, errorIf_eq_nil, Bool.not_eq_false',
    Bool.and_eq_true, decide_eq_true_eq] at hstage
  exact hstage.1

theorem resolve_task (b : Batch) (spec : PlanTask) :
    (b.resolve L spec).2.spec = spec ∧ (b.resolve L spec).2.state = .pending := by
  refine ⟨(resolve_fits b spec).spec, ?_⟩
  unfold resolve
  dsimp only
  obtain ⟨origin, fixes, heq⟩ := applyThreads_eq b.run.delivery
    { (resolveTaskLenient L b.run.profile b.run.limits spec).1 with
      branch := taskBranch b.run.id spec.id
      notes := (resolveTaskLenient L b.run.profile b.run.limits spec).1.notes ++
        protectedNotes L spec.owns b.run.protectedFiles }
    b.source ((b.run.task? spec.id).map (·.spec.addresses))
  rw [heq]
  rfl

theorem addTask_leads (b : Batch) (spec : PlanTask) : Leads b [spec.id] (b.addTask L spec) := by
  unfold addTask
  have hunrouted := unrouted_idles b spec
  have hid := (unrouted_spec b spec).1
  generalize b.unrouted spec = unrouted at hunrouted hid ⊢
  obtain ⟨b₁, spec₁⟩ := unrouted
  dsimp only at hunrouted hid ⊢
  have hresolve := (hunrouted.trans (fail_idles b₁ (reservedNewId spec₁.id))).trans
    (resolve_idles (L := L) _ spec₁)
  have hstage := stageOk_of_resolve (L := L) (b := b₁.fail (reservedNewId spec₁.id)) spec₁
  obtain ⟨hspec, hstate⟩ := resolve_task (L := L) (b₁.fail (reservedNewId spec₁.id)) spec₁
  generalize (b₁.fail (reservedNewId spec₁.id)).resolve L spec₁ = resolved
    at hresolve hstage hspec hstate ⊢
  obtain ⟨b₂, task⟩ := resolved
  dsimp only at hresolve hstage hspec hstate ⊢
  have htask : task.id = spec.id := by rw [Task.id, hspec, hid]
  refine hresolve.leads.trans_nil fun herrors => ⟨herrors, ?_⟩
  rw [← htask]
  refine .single (.adds ⟨hstate, fun d hd => ?_, ?_⟩ rfl fun p hp => List.mem_append_left _ hp)
  · exact List.mem_append_right _ (List.mem_map.2 ⟨d, hd, rfl⟩)
  · rw [hspec]
    exact hstage herrors

theorem owned_idles (b : Batch) (spec : PlanTask) : Idles b (b.owned spec).1 ∧
    ((b.owned spec).1.errors = [] → ∃ own, (b.owned spec).2 = some own ∧ own.id = spec.id) := by
  unfold owned
  cases b.source with
  | planner epic =>
    dsimp only
    split_ifs
    · exact ⟨fail_idles b _, fun hnil => absurd (List.append_eq_nil_iff.1 hnil).2 (by simp)⟩
    · exact ⟨.refl b, fun _ => ⟨_, rfl, rfl⟩⟩
  | user => exact ⟨.refl b, fun _ => ⟨_, rfl, rfl⟩⟩
  | orchestrator => exact ⟨.refl b, fun _ => ⟨_, rfl, rfl⟩⟩

theorem addOwned_leads (b : Batch) (spec : PlanTask) : Leads b [spec.id] (b.addOwned L spec) := by
  obtain ⟨hidles, howned⟩ := owned_idles b spec
  unfold addOwned
  generalize b.owned spec = owned at hidles howned ⊢
  obtain ⟨b₁, _ | own⟩ := owned
  · intro herrors
    obtain ⟨own, hown, -⟩ := howned herrors
    cases hown
  · intro herrors
    obtain ⟨hstart, hadd⟩ := addTask_leads b₁ own herrors
    obtain ⟨own', hown', hid⟩ := howned hstart
    cases hown'
    rw [← hid]
    exact (hidles.leads.trans_nil (addTask_leads b₁ own)) herrors

/-! ### Splitting -/

/-- A list gathered one by one while the tasks stay as they are. -/
theorem gather_idles {α β : Type} {g : Batch → α → Batch × β} {P : α → β → Prop}
    (hg : ∀ b x, Idles b (g b x).1) (hP : ∀ b x, (g b x).1.errors = [] → P x (g b x).2)
    (l : List α) (s : Batch × List β) :
    let r := l.foldl (fun s x => ((g s.1 x).1, s.2 ++ [(g s.1 x).2])) s
    Idles s.1 r.1 ∧ (r.1.errors = [] → ∃ l', r.2 = s.2 ++ l' ∧ List.Forall₂ P l l') := by
  induction l generalizing s with
  | nil => exact ⟨.refl _, fun _ => ⟨[], (List.append_nil _).symm, .nil⟩⟩
  | cons x l ih =>
    obtain ⟨hrest, hmem⟩ := ih ((g s.1 x).1, s.2 ++ [(g s.1 x).2])
    refine ⟨(hg s.1 x).trans hrest, fun herrors => ?_⟩
    obtain ⟨l', heq, hforall⟩ := hmem herrors
    refine ⟨(g s.1 x).2 :: l', ?_, .cons (hP s.1 x (hrest.errors_eq_nil herrors)) hforall⟩
    rw [List.foldl_cons, heq, List.append_assoc, List.singleton_append]

theorem unroutedAll_idles (b : Batch) (specs : List PlanTask) :
    Idles b (b.unroutedAll specs).1 ∧ ((b.unroutedAll specs).1.errors = [] →
      (b.unroutedAll specs).2.map (·.id) = specs.map (·.id)) := by
  obtain ⟨hidles, hmem⟩ := gather_idles (g := unrouted) (P := fun spec own => own.id = spec.id)
    unrouted_idles (fun b spec _ => (unrouted_spec b spec).1) specs (b, [])
  refine ⟨hidles, fun herrors => ?_⟩
  obtain ⟨l', heq, hforall⟩ := hmem herrors
  unfold unroutedAll
  rw [heq, List.nil_append]
  exact map_eq_of_forall₂ hforall

theorem resolveAll_idles (b : Batch) (specs : List PlanTask) :
    Idles b (b.resolveAll L specs).1 ∧ ((b.resolveAll L specs).1.errors = [] →
      List.Forall₂ (fun spec c => c.spec = spec ∧ c.state = .pending ∧ StageOk spec) specs
        (b.resolveAll L specs).2) := by
  obtain ⟨hidles, hmem⟩ := gather_idles (g := resolve L)
    (P := fun spec c => c.spec = spec ∧ c.state = .pending ∧ StageOk spec) resolve_idles
    (fun b spec herrors => ⟨(resolve_task b spec).1, (resolve_task b spec).2,
      stageOk_of_resolve _ herrors⟩) specs (b, [])
  refine ⟨hidles, fun herrors => ?_⟩
  obtain ⟨l', heq, hforall⟩ := hmem herrors
  unfold resolveAll
  rw [heq, List.nil_append]
  exact hforall

theorem ownedAll_idles (b : Batch) (specs : List PlanTask) :
    Idles b (b.ownedAll specs).1 ∧ ((b.ownedAll specs).1.errors = [] →
      ∃ own, (b.ownedAll specs).2 = some own ∧ own.map (·.id) = specs.map (·.id)) := by
  have key : ∀ (specs : List PlanTask) (s : Batch × Option (List PlanTask)),
      let r := specs.foldl (fun s spec => ((s.1.owned spec).1,
        s.2.bind fun l => (s.1.owned spec).2.map fun own => l ++ [own])) s
      Idles s.1 r.1 ∧ (r.1.errors = [] → ∀ l₀, s.2 = some l₀ →
        ∃ own, r.2 = some own ∧ own.map (·.id) = l₀.map (·.id) ++ specs.map (·.id)) := by
    intro specs
    induction specs with
    | nil =>
      exact fun s => ⟨.refl _, fun _ l₀ hl₀ => ⟨l₀, hl₀, (List.append_nil _).symm⟩⟩
    | cons spec specs ih =>
      intro s
      obtain ⟨hrest, hmem⟩ := ih ((s.1.owned spec).1,
        s.2.bind fun l => (s.1.owned spec).2.map fun own => l ++ [own])
      obtain ⟨hidles, howned⟩ := owned_idles s.1 spec
      refine ⟨hidles.trans hrest, fun herrors l₀ hl₀ => ?_⟩
      obtain ⟨first, hfirst, hid⟩ := howned (hrest.errors_eq_nil herrors)
      obtain ⟨own, hown, hids⟩ := hmem herrors (l₀ ++ [first]) (by simp [hl₀, hfirst])
      refine ⟨own, hown, ?_⟩
      rw [hids, List.map_append, List.append_assoc, List.map_cons, hid]
      rfl
  obtain ⟨hidles, hmem⟩ := key specs (b, some [])
  exact ⟨hidles, fun herrors => hmem herrors [] rfl⟩

theorem addDepsOf_foldl (children : List Task) (b : Batch) :
    Idles b (children.foldl addDepsOf b) ∧
      ∀ c ∈ children, ∀ d ∈ c.spec.deps, (c.id, d) ∈ (children.foldl addDepsOf b).addedDeps := by
  have hidles : ∀ (b : Batch) (c : Task), Idles b (b.addDepsOf c) := fun b c =>
    ⟨rfl, fun _ h => List.mem_append_left _ h, [], (List.append_nil _).symm⟩
  induction children generalizing b with
  | nil => exact ⟨.refl b, fun c hc => absurd hc List.not_mem_nil⟩
  | cons c children ih =>
    obtain ⟨hrest, hmem⟩ := ih (b.addDepsOf c)
    refine ⟨(hidles b c).trans hrest, fun c' hc' d hd => ?_⟩
    rcases List.mem_cons.1 hc' with rfl | hc'
    · exact hrest.addedDeps _ (List.mem_append_right _ (List.mem_map.2 ⟨d, hd, rfl⟩))
    · exact hmem c' hc' d hd

theorem splitAt_leads {into : List PlanTask} (ht : FirstAt b.run.tasks i t)
    (hopen : t.state.isFinished = false) :
    Leads b (into.map (·.id)) (b.splitAt L t.id into i t) := by
  unfold splitAt
  -- each stage of a split is taken apart by its lemma, and then hidden behind a name
  obtain ⟨hunrouted, hids⟩ := unroutedAll_idles b into
  generalize b.unroutedAll into = unrouted at hunrouted hids ⊢
  obtain ⟨b₁, specs⟩ := unrouted
  dsimp only at hunrouted hids ⊢
  generalize hplaced : specs.map (splitChild t.spec.stage) = placed
  have hfail := fail_idles b₁ (placed.flatMap fun c => reservedNewId c.1.id ++ c.2)
  obtain ⟨hresolve, hchildren⟩ := resolveAll_idles (L := L)
    (b₁.fail (placed.flatMap fun c => reservedNewId c.1.id ++ c.2)) (placed.map (·.1))
  have hidles := hfail.trans hresolve
  generalize (b₁.fail (placed.flatMap fun c => reservedNewId c.1.id ++ c.2)).resolveAll L
    (placed.map (·.1)) = resolved at hidles hchildren ⊢
  obtain ⟨b₂, children⟩ := resolved
  dsimp only at hidles hchildren ⊢
  obtain ⟨hdeps, hadded⟩ := addDepsOf_foldl children b₂
  generalize children.foldl addDepsOf b₂ = b₃ at hdeps hadded ⊢
  have hstart := (hunrouted.trans hidles).trans hdeps
  obtain ⟨hcancelAdded, hcancelErrors, hcancelTasks⟩ := cancelAt_eq { b₃ with run := { b₃.run with
    tasks := b₃.run.tasks.map (replaceDep t.id (children.map Task.id)) } } i t
  generalize cancelAt _ i t = b₄ at hcancelAdded hcancelErrors hcancelTasks ⊢
  intro herrors
  have herrors₃ : b₃.errors = [] := hcancelErrors ▸ herrors
  have herrors₂ := hdeps.errors_eq_nil herrors₃
  have hforall := hchildren herrors₂
  -- nothing on the way changes the ids that the split gave its children
  have hnames : (children.map fun c => { c with replaces := [t.id] }).map Task.id =
      into.map (·.id) := by
    have hchild : children.map Task.id = (placed.map (·.1)).map (·.id) :=
      map_eq_of_forall₂ (hforall.imp fun spec c h => by rw [Task.id, h.1])
    have hspecs : (placed.map (·.1)).map (·.id) = specs.map (·.id) := by
      rw [← hplaced, List.map_map, List.map_map]
      rfl
    rw [← hids (hidles.errors_eq_nil herrors₂), ← hspecs, ← hchild, List.map_map]
    rfl
  have hnew : ∀ c ∈ children, New b₃.addedDeps { c with replaces := [t.id] } := by
    intro c hc
    obtain ⟨spec, -, hspec, hstate, hstage⟩ := exists_of_forall₂_mem hforall hc
    exact ⟨hstate, hadded c hc, hspec ▸ hstage⟩
  have hsame : children.map Task.id =
      (children.map fun c => { c with replaces := [t.id] }).map Task.id := by
    rw [List.map_map]
    rfl
  refine ⟨hstart.errors_eq_nil herrors₃, ?_⟩
  rw [← hnames]
  refine .single (.splits ht hopen ?_ ?_ rfl fun p hp => ?_)
  · intro c hc
    obtain ⟨child, hchild, rfl⟩ := List.mem_map.1 hc
    show New b₄.addedDeps _
    rw [hcancelAdded]
    exact hnew child hchild
  · show b₄.run.tasks = _ ∨ List.Forall₂ InPlace _ b₄.run.tasks
    rw [← hsame, show b.draft.tasks = b₃.run.tasks from hstart.tasks.symm]
    exact hcancelTasks
  · show p ∈ b₄.addedDeps
    rw [hcancelAdded]
    exact hstart.addedDeps p hp

theorem isFinished_of_notStarted (h : t.notStarted) : t.state.isFinished = false := by
  have hactive := isActive_of_notStarted h
  simpa [Task.isActive] using hactive

theorem split_leads (b : Batch) (id : String) (into : List PlanTask) :
    Leads b (into.map (·.id)) (b.split L id into) := by
  refine withTask_leads fun i t ht hid => ?_
  split
  · exact fail_leads b (by simp)
  · next hwaits =>
    split
    · exact fail_leads b (by simp)
    split
    · exact fail_leads b (by simp)
    · rw [← hid]
      exact splitAt_leads ht (isFinished_of_notStarted (by simpa using hwaits))

theorem splitOwned_leads (b : Batch) (id : String) (into : List PlanTask) :
    Leads b (into.map (·.id)) (b.splitOwned L id into) := by
  obtain ⟨hidles, howned⟩ := ownedAll_idles b into
  have hnone : ∀ b₁, b.ownedAll into = (b₁, none) → Leads b (into.map (·.id)) b₁ := by
    intro b₁ heq herrors
    rw [heq] at howned
    obtain ⟨own, hown, -⟩ := howned herrors
    cases hown
  have hsome : ∀ b₁ own, b.ownedAll into = (b₁, some own) →
      Leads b (into.map (·.id)) (b₁.split L id own) := by
    intro b₁ own heq herrors
    rw [heq] at hidles howned
    obtain ⟨hstart, -⟩ := split_leads b₁ id own herrors
    obtain ⟨own', hown', hids⟩ := howned hstart
    cases hown'
    rw [← hids]
    exact (hidles.leads.trans_nil (split_leads b₁ id own)) herrors
  refine withTask_leads fun i t _ _ => ?_
  dsimp only
  split
  · next hplanned => exact fail_leads b (by simpa using hplanned)
  split
  · split
    · next hforeign => exact fail_leads b (by simpa using hforeign)
    split
    exacts [hsome _ _ ‹_›, hnone _ ‹_›]
  · rw [if_neg (by simp)]
    split
    exacts [hsome _ _ ‹_›, hnone _ ‹_›]

/-! ### Amending -/

theorem amendSpec_id (a : Amend) (spec : PlanTask) :
    (amendSpec a spec).id = spec.id ∧ (amendSpec a spec).deps = spec.deps := ⟨rfl, rfl⟩

/-- The task resolved again in place. -/
theorem reresolve_leads (hi : b.run.tasks[i]? = some t) (hopen : t.state.isFinished = false)
    (a : Amend) (routeNamed : Bool) :
    Leads b [] (b.reresolve L i t (amendSpec a t.spec) routeNamed) := by
  unfold reresolve
  dsimp only
  generalize hspec : amendSpec a t.spec = spec
  generalize hsized : ({ spec with size := spec.size.max (t.raisedSize.getD .s) } : PlanTask) = sized
  have hidles := resolve_idles (L := L) b sized
  have hstage := stageOk_of_resolve (L := L) (b := b) sized
  have htasks : (b.resolve L sized).1.run.tasks = b.run.tasks := hidles.tasks
  generalize b.resolve L sized = resolved at hidles hstage htasks ⊢
  obtain ⟨b₁, resolved⟩ := resolved
  dsimp only at hidles hstage htasks ⊢
  intro herrors
  refine hidles.leads.trans_nil (modifyTask_leads fun u hu => ?_) herrors
  rw [htasks] at hu
  obtain rfl := Option.some.inj (hi.symm.trans hu)
  have hok := hstage herrors
  rw [← hsized] at hok
  refine ⟨?_, ?_, rfl, rfl, rfl, .inr hok, fun hfinished => ?_⟩
  · show spec.id = t.spec.id
    rw [← hspec, (amendSpec_id a t.spec).1]
  · show spec.deps = t.spec.deps
    rw [← hspec, (amendSpec_id a t.spec).2]
  · rw [hopen] at hfinished
    cases hfinished

theorem respec_leads (hi : b.run.tasks[i]? = some t) (hopen : t.state.isFinished = false)
    (a : Amend) : Leads b [] (b.respec L i (amendSpec a t.spec)) := by
  unfold respec
  generalize hspec : amendSpec a t.spec = spec
  have hidles := resolve_idles (L := L) b spec
  have hstage := stageOk_of_resolve (L := L) (b := b) spec
  have htasks : (b.resolve L spec).1.run.tasks = b.run.tasks := hidles.tasks
  have hsame := (resolve_task (L := L) b spec).1
  generalize b.resolve L spec = resolved at hidles hstage htasks hsame ⊢
  obtain ⟨b₁, resolved⟩ := resolved
  dsimp only at hidles hstage htasks hsame ⊢
  intro herrors
  refine hidles.leads.trans_nil (modifyTask_leads fun u hu => ?_) herrors
  rw [htasks] at hu
  obtain rfl := Option.some.inj (hi.symm.trans hu)
  rw [hsame]
  refine ⟨?_, ?_, rfl, rfl, rfl, .inr (hstage herrors), fun hfinished => ?_⟩
  · show spec.id = t.spec.id
    rw [← hspec, (amendSpec_id a t.spec).1]
  · show spec.deps = t.spec.deps
    rw [← hspec, (amendSpec_id a t.spec).2]
  · rw [hopen] at hfinished
    cases hfinished

/-- A task blocked for a cancelled dependency is pending again where no new one is. -/
theorem amendDeps_leads (b : Batch) (i : ℕ) (deps : List String) :
    Leads b [] (b.amendDeps i deps) := by
  unfold amendDeps
  split
  · exact .refl b
  · next t ht =>
    dsimp only
    split
    · exact fun herrors => absurd (List.append_eq_nil_iff.1 herrors).2 (by simp)
    · next hwaits =>
      have hopen := isFinished_of_notStarted (t := t) (by simpa using hwaits)
      intro herrors
      refine ⟨herrors, .single (.redeps ht hopen (modify_eq_of_getElem? ht rfl) ?_ ?_ ?_ ?_ ?_ ?_)⟩
      · split <;> rfl
      · split <;> rfl
      · split <;> rfl
      · split
        exacts [.inr rfl, .inl ⟨rfl, rfl⟩]
      · intro d hd
        refine .inl (List.mem_append_right _ (List.mem_map.2 ⟨d, ?_, rfl⟩))
        refine List.mem_eraseDups.1 ?_
        split at hd <;> exact hd
      · exact fun p hp => List.mem_append_left _ hp

/-- A paused task works again; another stays as it is. -/
theorem release_leads (b : Batch) (i : ℕ) : Leads b [] (b.modifyTask i release) := by
  cases ht : b.run.tasks[i]? with
  | none =>
    refine modifyTask_leads fun t ht' => ?_
    rw [ht] at ht'
    cases ht'
  | some t =>
    by_cases hpaused : t.isPaused
    · have hstate : t.state = .blocked ∧ t.blockedFor .messagePause := by
        simpa [Task.isPaused] using hpaused
      refine .move ?_ rfl
      have hmove : Move b.draft [] _ := .works ht (.inr ⟨hstate.1, .inr hstate.2⟩)
      have hrelease : (b.modifyTask i release).draft = { b.draft with
          tasks := b.run.tasks.modify i fun t => { t with state := .working, block := none } } := by
        have hmodify : b.run.tasks.modify i release =
            b.run.tasks.modify i fun t => { t with state := .working, block := none } :=
          modify_eq_of_getElem? ht (by rw [release, if_pos hpaused])
        show (⟨b.run.tasks.modify i release, _⟩ : Draft) = _
        rw [hmodify]
        rfl
      rw [hrelease]
      exact hmove
    · refine modifyTask_leads fun u hu => ?_
      obtain rfl := Option.some.inj (ht.symm.trans hu)
      rw [release, if_neg hpaused]
      exact .refl t

theorem tellWorker_leads (b : Batch) (i : ℕ) : Leads b [] (b.tellWorker i) := by
  unfold tellWorker
  split
  · exact .refl b
  · next t ht =>
    split
    · exact (consequence_idles b (.deliver t.id (amendMessage t))).leads.trans_nil (release_leads _ i)
    · exact .refl b

theorem amendAt_leads (hi : b.run.tasks[i]? = some t) (hopen : t.state.isFinished = false)
    (a : Amend) : Leads b [] (b.amendAt L i t a) := by
  unfold amendAt
  dsimp only
  have hspec : Leads b [] (if reresolves a then
      b.reresolve L i t (amendSpec a t.spec) a.route.isSome
      else b.respec L i (amendSpec a t.spec)) := by
    split
    exacts [reresolve_leads hi hopen a _, respec_leads hi hopen a]
  generalize (if reresolves a then b.reresolve L i t (amendSpec a t.spec) a.route.isSome
    else b.respec L i (amendSpec a t.spec)) = b₁ at hspec ⊢
  have hdeps : Leads b₁ [] (a.deps.elim b₁ (b₁.amendDeps i)) := by
    cases a.deps with
    | none => exact .refl b₁
    | some deps => exact amendDeps_leads b₁ i deps
  refine hspec.trans_nil (hdeps.trans_nil ?_)
  split
  exacts [tellWorker_leads _ i, .refl _]

theorem amendErrors_of_finished (a : Amend) (hfinished : t.state.isFinished) :
    b.amendErrors L id t a ≠ [] := by
  unfold amendErrors
  rw [if_pos hfinished]
  simp

theorem amendTask_leads (b : Batch) (id : String) (a : Amend) : Leads b [] (b.amendTask L id a) := by
  refine withTask_leads fun i t ht _ => ?_
  dsimp only
  generalize hb : (if a.route.isSome && decide (b.source ≠ .user) then a.route.elim b b.routeIgnored
    else b) = b₁
  have hidles : Idles b b₁ := by
    rw [← hb]
    split
    · cases a.route with
      | none => exact .refl b
      | some route => exact routeIgnored_idles b route
    · exact .refl b
  generalize (if a.route.isSome && decide (b.source ≠ .user) then { a with route := none } else a) = a₁
  refine hidles.leads.trans_nil ?_
  split
  · split
    · exact .refl b₁
    · exact fail_leads b₁ (by simp)
  split
  · next herrors => exact fail_leads b₁ (by simpa using herrors)
  · next herrors =>
    have hopen : t.state.isFinished = false := by
      by_contra hfinished
      exact amendErrors_of_finished a₁ (by simpa using hfinished) (by simpa using herrors)
    exact amendAt_leads (hidles.tasks ▸ ht.1) hopen a₁

/-! ### The other edits -/

theorem addDep_leads (b : Batch) (id dep : String) : Leads b [] (b.addDep id dep) := by
  refine withTask_leads fun i t ht hid => ?_
  dsimp only
  split
  · next hplanned => exact fail_leads b (by simpa using hplanned)
  split
  · exact fail_leads b (by simp)
  · next hwaits =>
    have hopen := isFinished_of_notStarted (t := t) (by simpa using hwaits)
    intro herrors
    refine ⟨herrors, .single (.redeps ht.1 hopen (modify_eq_of_getElem? ht.1 rfl) ?_ ?_ ?_ ?_ ?_ ?_)⟩
    · split <;> rfl
    · split <;> rfl
    · split <;> rfl
    · split
      exacts [.inl ⟨rfl, rfl⟩, .inl ⟨rfl, rfl⟩]
    · intro d hd
      split at hd
      · next hmem => exact .inr ⟨hd, by rw [if_pos hmem], by rw [if_pos hmem]⟩
      · next hmem =>
        rcases List.mem_append.1 hd with hold | hnew
        · exact .inr ⟨hold, by rw [if_neg hmem], by rw [if_neg hmem]⟩
        · rw [List.mem_singleton.1 hnew, hid]
          exact .inl (List.mem_append_right _ (List.mem_singleton_self _))
    · exact fun p hp => List.mem_append_left _ hp

theorem answer_leads (b : Batch) (id text : String) : Leads b [] (b.answer id text) := by
  refine withTask_leads fun i t ht _ => ?_
  split
  · exact fail_leads b (by simp)
  · next hopen =>
    have hstate : t.state = .working ∨
        t.state = .blocked ∧ (t.blockedFor .question ∨ t.blockedFor .messagePause) := by
      by_cases hworking : t.state = .working
      · exact .inl hworking
      · have hblocked : t.state = .blocked ∧ t.blockedFor .question := by
          simpa [hworking] using hopen
        exact .inr ⟨hblocked.1, .inl hblocked.2⟩
    have hworks : Leads b [] (b.modifyTask i fun t => { t with state := .working, block := none }) :=
      .move (.works ht.1 hstate) rfl
    exact hworks.trans_nil (consequence_idles _ _).leads

theorem refresh_leads (b : Batch) (id : String) : Leads b [] (b.refresh id) := by
  unfold refresh
  split
  · exact fail_leads b (by simp)
  · next run hrun =>
    obtain ⟨i, rfl⟩ := exists_of_applyRefresh hrun
    exact modifyTask_leads fun u _ => ⟨rfl, rfl, rfl, rfl, rfl, .inl rfl, fun _ => rfl⟩

theorem reply_leads (b : Batch) (pr : ℕ) (thread body : String) :
    Leads b [] (b.reply pr thread body) := by
  unfold reply
  split
  · exact fail_leads b (by simp)
  · exact Idles.leads ⟨rfl, fun _ h => h, [], (List.append_nil _).symm⟩

/-! ### Messages -/

/-- The message is taken by a task it can stop, or stops none. -/
def Stoppable (kind : MessageKind) (t : Task) : Prop :=
  kind = .stopAndWait → t.state = .working ∨ t.isPaused

theorem stoppable_of_takes {kind : MessageKind} {limit : ℕ} {how : Takes}
    (h : takes t kind limit = .ok how) : Stoppable kind t := by
  intro hkind
  unfold takes at h
  split at h
  · cases h
  split at h
  · cases h
  split at h
  · cases h
  cases hhow : takesHow t kind with
  | error text =>
    rw [hhow] at h
    cases h
  | ok how' =>
    simp only [hhow] at h
    split at h
    · cases h
    · next hstate => exact .inl (by simpa [hkind] using hstate)

theorem stoppable_of_planMessage {run : Run} {to' : MessageTarget} {kind : MessageKind} {limit : ℕ}
    {takers : List (ℕ × Takes)} {refused : List (String × String)}
    (h : planMessage run to' kind limit = .ok (takers, refused)) :
    ∀ taker ∈ takers, ∀ t, run.tasks[taker.1]? = some t → Stoppable kind t := by
  unfold planMessage at h
  split at h
  · cases h
  dsimp only at h
  split at h
  · cases h
  cases h
  intro taker htaker t ht
  obtain ⟨x, hx, hleft⟩ := List.mem_filterMap.1 htaker
  obtain ⟨id, _, rfl⟩ := List.mem_map.1 hx
  cases hpos : run.position id with
  | none => simp [hpos] at hleft
  | some i =>
    cases htask : run.tasks[i]? with
    | none => simp [hpos, htask] at hleft
    | some u =>
      cases htakes : takes u kind limit with
      | error reason => simp [hpos, htask, htakes] at hleft
      | ok how =>
        simp only [hpos, htask, Option.map_some, htakes, Sum.getLeft?_inl, Option.some.injEq] at hleft
        subst hleft
        rw [htask] at ht
        cases ht
        exact stoppable_of_takes htakes

/-- A task that took a message can be stopped by one of its kind. -/
theorem stoppable_takeMessage (message : TaskMessage) (how : Takes) (t : Task) :
    Stoppable message.kind (takeMessage message how t) := by
  intro hkind
  refine .inr ?_
  simp [takeMessage, hkind, Task.isPaused, Task.blockedFor]

theorem modifyTask_comp (b : Batch) (i : ℕ) (f g : Task → Task) :
    b.modifyTask i (fun t => f (g t)) = (b.modifyTask i g).modifyTask i f := by
  show ({ b with run := { b.run with tasks := _ } } : Batch) = _
  rw [show (fun t => f (g t)) = f ∘ g from rfl, ← List.modify_modify_eq]
  rfl

/-- A message that stops the task pauses it whether or not it was let work again before. -/
theorem takeMessage_stop {message : TaskMessage} (hkind : message.kind = .stopAndWait)
    (how : Takes) (t : Task) :
    takeMessage message how t = { t with
      messages := t.messages ++ [message]
      state := .blocked
      block := some ⟨.messagePause, "asked to stop and wait: " ++
        String.ofList (message.text.toList.take 120), false⟩ } := by
  simp only [takeMessage, hkind, if_true, release]
  split
  · split
    exacts [rfl, rfl]
  · rfl

theorem takeMessage_leads {message : TaskMessage} (how : Takes)
    (h : ∀ t, b.run.tasks[i]? = some t → Stoppable message.kind t) :
    Leads b [] (b.modifyTask i (takeMessage message how)) := by
  have htold : Leads b [] (b.modifyTask i fun t => { t with messages := t.messages ++ [message] }) :=
    modifyTask_leads fun t _ => ⟨rfl, rfl, rfl, rfl, rfl, .inl rfl, fun _ => rfl⟩
  by_cases hkind : message.kind = .stopAndWait
  · -- a message that stops is told first, and pauses then
    rw [show takeMessage message how = _ from funext (takeMessage_stop hkind how)]
    rw [modifyTask_comp b i (fun t => { t with
      state := .blocked
      block := some ⟨.messagePause, "asked to stop and wait: " ++
        String.ofList (message.text.toList.take 120), false⟩ })
      fun t => { t with messages := t.messages ++ [message] }]
    refine htold.trans_nil ?_
    cases ht : b.run.tasks[i]? with
    | none =>
      refine modifyTask_leads fun t ht' => ?_
      simp [Batch.modifyTask, Run.modifyTask, ht] at ht'
    | some t =>
      refine .move (.pauses (t := { t with messages := t.messages ++ [message] }) ?_ ?_ rfl) rfl
      · simp [Batch.draft, Batch.modifyTask, Run.modifyTask, ht]
      · exact h t ht hkind
  · by_cases hhow : how = .release
    · have heq : takeMessage message how =
          fun t => release { t with messages := t.messages ++ [message] } := by
        funext t
        simp only [takeMessage, hkind, hhow, if_true, if_false]
      rw [heq, modifyTask_comp b i release]
      exact htold.trans_nil (release_leads _ i)
    · have heq : takeMessage message how = fun t => { t with messages := t.messages ++ [message] } := by
        funext t
        simp only [takeMessage, hkind, hhow, if_false]
      rw [heq]
      exact htold

/-- The tasks that take a message, one after the other. A task named twice is stopped once and
    found paused then. -/
theorem recordMessage_leads {message : TaskMessage} (takers : List (ℕ × Takes)) (b : Batch)
    (s : Run × MessageOutcome)
    (h : ∀ taker ∈ takers, ∀ t, s.1.tasks[taker.1]? = some t → Stoppable message.kind t) :
    Leads { b with run := s.1 } [] { b with run := (takers.foldl (recordMessage message) s).1 } := by
  induction takers generalizing s with
  | nil => exact .refl _
  | cons taker takers ih =>
    have htake : Leads { b with run := s.1 } []
        (Batch.modifyTask { b with run := s.1 } taker.1 (takeMessage message taker.2)) :=
      takeMessage_leads _ (h taker (.head _))
    refine htake.trans_nil (ih (recordMessage message s taker) fun taker' htaker' t ht => ?_)
    have ht' : (s.1.tasks.modify taker.1 (takeMessage message taker.2))[taker'.1]? = some t := ht
    rw [List.getElem?_modify] at ht'
    split at ht'
    · obtain ⟨u, _, rfl⟩ := Option.map_eq_some_iff.1 ht'
      exact stoppable_takeMessage message taker.2 u
    · exact h taker' (.tail _ htaker') t (by simpa using ht')

theorem message_leads (b : Batch) (to' : MessageTarget) (text : String) (kind : MessageKind) :
    Leads b [] (b.message to' text kind) := by
  unfold message
  split
  · exact fail_leads b (by simp)
  · next run outcome happly =>
    have hleads : Leads b [] { b with run := run } := by
      unfold applyMessage at happly
      dsimp only at happly
      split at happly
      · cases happly
      split at happly
      · cases happly
      split at happly
      · cases happly
      · next takers refused hplan =>
        have hrun := congrArg Prod.fst (Except.ok.inj happly)
        subst hrun
        exact recordMessage_leads takers b _ (stoppable_of_planMessage hplan)
    exact hleads.trans_nil (Idles.leads ⟨rfl, fun _ h => h, [], (List.append_nil _).symm⟩)

/-! ### The whole batch -/

/-- An edit that goes through moves the tasks, and adds just the tasks it names. -/
theorem apply_leads (b : Batch) (edit : PlanEdit) :
    Leads b ((newSpecs edit).map (·.id)) (b.apply L edit) := by
  cases edit with
  | addTask task replaced => 
    have h := (addOwned_leads (L := L) b task).trans (replaces_leads (b.addOwned L task) task.id replaced)
    rw [List.append_nil] at h
    exact h
  | splitTask id into => exact splitOwned_leads b id into
  | cancelTask id => exact cancel_leads b id
  | message to' text kind => exact message_leads b to' text kind
  | refresh id => exact refresh_leads b id
  | amendTask id amend => exact amendTask_leads b id amend
  | addDep id dep => exact addDep_leads b id dep
  | answer id text => exact answer_leads b id text
  | pause => exact (consequence_idles b _).leads
  | resume => exact (consequence_idles b _).leads
  | finish => exact (consequence_idles b _).leads
  | replyComment pr thread body => exact reply_leads b pr thread body
  | iterate => exact fail_leads b (by simp)
  | retry => exact fail_leads b (by simp)
  | override => exact fail_leads b (by simp)
  | resumeRun => exact fail_leads b (by simp)
  | approveHold => exact fail_leads b (by simp)
  | acceptRed => exact fail_leads b (by simp)

end Batch

/-- A batch that finds nothing wrong moves the tasks of the run, and adds just the tasks its edits
    name. -/
theorem moves_runBatch {run : Run} {edits : List PlanEdit} {source : EditSource} {now : ℕ}
    (h : (runBatch L run edits source now).errors = []) :
    Moves ⟨run.tasks, []⟩ (edits.flatMap fun e => (newSpecs e).map (·.id))
      (runBatch L run edits source now).draft := by
  have hfold : ∀ (edits : List PlanEdit) (b : Batch),
      Leads b (edits.flatMap fun e => (newSpecs e).map (·.id))
        (edits.foldl (fun b edit => b.apply L edit) b) := by
    intro edits
    induction edits with
    | nil => exact fun b => .refl b
    | cons edit edits ih => exact fun b => (Batch.apply_leads b edit).trans (ih (b.apply L edit))
  exact (hfold edits { source := source, run := run, now := now } h).2

/-! ### After the batch -/

/-- What follows the batch changes of a task: its notes, its implicit dependencies, and its state
    if it is queued and waits. -/
structure AfterBatch (t t' : Task) : Prop where
  record : record t' = record t
  block : t'.block = t.block
  state : t'.state = t.state ∨ t.state = .queued ∧ t'.state = .pending

theorem AfterBatch.refl (t : Task) : AfterBatch t t := ⟨rfl, rfl, .inl rfl⟩

theorem AfterBatch.of_state {u : Task} (h : AfterBatch t t') (hstate : t'.state = t.state)
    (h' : AfterBatch t' u) : AfterBatch t u where
  record := h'.record.trans h.record
  block := h'.block.trans h.block
  state := hstate ▸ h'.state

theorem AfterBatch.spec (h : AfterBatch t t') : t'.spec = t.spec := congrArg Prod.fst h.record

theorem AfterBatch.id_eq (h : AfterBatch t t') : t'.id = t.id := by rw [Task.id, h.spec, Task.id]

theorem AfterBatch.round (h : AfterBatch t t') : t'.round = t.round :=
  congrArg (fun r => r.2.2.2.2.2) h.record

theorem AfterBatch.isFinished (h : AfterBatch t t') : t'.state.isFinished = t.state.isFinished := by
  rcases h.state with hstate | ⟨hstate, hstate'⟩
  · rw [hstate]
  · rw [hstate, hstate']
    rfl

theorem settleBatch_afterBatch (b : Batch) (run : Run) :
    List.Forall₂ AfterBatch b.run.tasks (settleBatch b run).tasks := by
  have hnoted : List.Forall₂ (fun t t' => AfterBatch t t' ∧ t'.state = t.state) b.run.tasks
      (noteUnbacked b.run run b.source).tasks := by
    unfold noteUnbacked
    split
    · exact List.forall₂_same.2 fun t _ => ⟨.refl t, rfl⟩
    · refine forall₂_map fun t _ => ?_
      split
      exacts [⟨⟨rfl, rfl, .inl rfl⟩, rfl⟩, ⟨.refl t, rfl⟩]
  have hfilled : ∀ tasks : List Task,
      List.Forall₂ (fun t t' => AfterBatch t t' ∧ t'.state = t.state) tasks (fillImplicit tasks) := by
    refine fun tasks => forall₂_of_getElem? length_fillImplicit fun i t t' ht ht' => ?_
    obtain ⟨u, deps, hu, -, rfl⟩ := List.getElem?_zipWith_eq_some.1 ht'
    obtain rfl := Option.some.inj (ht.symm.trans hu)
    exact ⟨⟨rfl, rfl, .inl rfl⟩, rfl⟩
  refine forall₂_trans (fun t u t' h h' => h.1.of_state h.2 h') hnoted ?_
  refine forall₂_trans (fun t u t' h h' => h.1.of_state h.2 h') (hfilled _) (forall₂_map fun t _ => ?_)
  split
  · next hqueued =>
    have hstate : t.state = .queued := by
      simp only [Bool.and_eq_true, decide_eq_true_eq] at hqueued
      exact hqueued.1
    exact ⟨rfl, rfl, .inr ⟨hstate, rfl⟩⟩
  · exact .refl t

theorem getElem?_cancelIn_of_ne {tasks : List Task} {j : ℕ} (hij : j ≠ i) :
    (cancelIn tasks i id)[j]? = tasks[j]?.map (Batch.blockDependent id) := by
  simp only [cancelIn, List.getElem?_map, List.getElem?_zipIdx, List.getElem?_modify, Nat.zero_add,
    hij.symm, if_false, Option.map_eq_map, Option.map_map]
  cases tasks[j]? with
  | none => rfl
  | some u => simp [hij]

/-- The task cancelled, and what becomes of the others. -/
theorem forall₂_cancelIn {tasks : List Task} (ht : tasks[i]? = some t) :
    List.Forall₂ (fun u u' => u = t ∧ u' = { u with state := .cancelled, block := none } ∨
      u' = Batch.blockDependent t.id u) tasks (cancelIn tasks i t.id) := by
  refine forall₂_of_getElem? (by simp [cancelIn]) fun j u u' hu hu' => ?_
  by_cases hij : j = i
  · subst hij
    simp only [cancelIn, List.getElem?_map, List.getElem?_zipIdx, List.getElem?_modify, hu,
      Nat.zero_add, Option.map_eq_map, Option.map_some, Option.some.injEq, if_true] at hu'
    exact .inl ⟨Option.some.inj (hu.symm.trans ht), hu'.symm⟩
  · rw [getElem?_cancelIn_of_ne hij, hu] at hu'
    exact .inr (Option.some.inj hu').symm

end Anthrex.Plan
