import Anthrex.Engine.Failover
import Anthrex.Globs.Overlap
import Anthrex.Plan.Provenance
import Mathlib.Logic.Relation

/-!
# Which runtimes share files

Three checks keep tasks that own the same files on one runtime: rule 9 of the plan, at a batch
of edits, on the runtimes the plan gives them; the overlap rule at a failover, and the same
rule at rung 2, on the runtimes they are on. The planned runtimes agree in every run
(`Agree`). The runtimes the tasks are on (`Shared`) agree too, as long as no batch resolves a
task beside one that the engine has moved: rule 9 does not look at the moved one's runtime, so
that a failover or an escalation never blocks the plan's later edits.
-/

namespace Anthrex.Engine

open Anthrex.Run hiding id
open Anthrex.Plan Anthrex.Globs Graph Lists Relation

/-! ## Runs -/

/-- The engine moved the task away from the runtime of its plan. -/
def Moved (run : Run) (t : Task) : Prop := t.route.runtime ≠ plannedRuntime run.models t

/-- The batch resolves no task beside one that was moved; an amend that resolves its task
    without naming a route finds it on the route of its plan. -/
structure Clear (L : Lib) (run : Run) (edits : List PlanEdit) (who : EditSource) : Prop where
  new : ∀ edit ∈ edits, ∀ spec ∈ newSpecs edit, ∀ v ∈ run.tasks, v.isActive → Moved run v →
    ¬anyIntersect spec.owns v.spec.owns
  amended : ∀ id a, .amendTask id a ∈ edits → Batch.reresolves (named who a) →
    ∀ t ∈ run.tasks, t.id = id → t.isActive → ∀ v ∈ run.tasks, v.isActive → Moved run v →
      v.id ≠ id → ¬anyIntersect t.spec.owns v.spec.owns
  renews : Renews L run edits who

/-- One step of a run: an accepted batch of edits that meets `ok`, a failover of a task's
    worker, an escalation by rung 2, or any work on the tasks that leaves their routes alone. -/
inductive Step (L : Lib) (agents : Run → List Runtime)
    (ok : Run → List PlanEdit → EditSource → Prop) : Run → Run → Prop
  | edits {run run' : Run} {edits : List PlanEdit} {scope : EditScope} {who : EditSource} {now : ℕ}
      {consequences : List EditConsequence} (hok : ok run edits who)
      (h : applyEdits L run edits scope who now = .ok (run', consequences)) :
      Step L agents ok run run'
  | failover {run : Run} {gate : Gate} {i : ℕ} {role : Role} {current : Route} {f : Failover}
      (h : admitSession L agents gate run (.worker i) role current = .failOver f) :
      Step L agents ok run (record run (.worker i) f)
  | rung2 {run : Run} {i : ℕ} {task : Task} (h : run.tasks[i]? = some task) :
      Step L agents ok run (rung2 run i task)
  | work {run run' : Run} (hlimits : run'.limits = run.limits) (hprofile : run'.profile = run.profile)
      (h : Kept run.tasks run'.tasks) : Step L agents ok run run'

/-- Unfinished tasks that own the same files have the same planned runtime. -/
def Agree (run : Run) : Prop :=
  ∀ a ∈ run.tasks, ∀ b ∈ run.tasks, a.isActive → b.isActive →
    anyIntersect a.spec.owns b.spec.owns →
      plannedRuntime run.models a = plannedRuntime run.models b

/-- Unfinished tasks that own the same files are on the same runtime. -/
def Shared (run : Run) : Prop :=
  ∀ a ∈ run.tasks, ∀ b ∈ run.tasks, a.isActive → b.isActive →
    anyIntersect a.spec.owns b.spec.owns → a.route.runtime = b.route.runtime

/-- No task was raised in size. -/
def Unraised (run : Run) : Prop := ∀ t ∈ run.tasks, t.raisedSize = none

variable {L : Lib} {agents : Run → List Runtime} {run run' : Run} {i : ℕ} {task : Task}

/-! ## Work that keeps the routes -/

theorem Agree.kept (h : Agree run) (hlimits : run'.limits = run.limits)
    (hkept : Kept run.tasks run'.tasks) : Agree run' := by
  intro a' ha' b' hb' hactive hactive' howns
  obtain ⟨a, ha, hsame⟩ := hkept a' ha'
  obtain ⟨b, hb, hsame'⟩ := hkept b' hb'
  rw [← hsame.spec.owns, ← hsame'.spec.owns] at howns
  have hab := h a ha b hb (hsame.active hactive) (hsame'.active hactive') howns
  rw [Run.models, hlimits, ← hsame.plannedRuntime, ← hsame'.plannedRuntime]
  exact hab

theorem Shared.kept (h : Shared run) (hkept : Kept run.tasks run'.tasks) : Shared run' := by
  intro a' ha' b' hb' hactive hactive' howns
  obtain ⟨a, ha, hsame⟩ := hkept a' ha'
  obtain ⟨b, hb, hsame'⟩ := hkept b' hb'
  rw [← hsame.spec.owns, ← hsame'.spec.owns] at howns
  rw [← hsame.route, ← hsame'.route]
  exact h a ha b hb (hsame.active hactive) (hsame'.active hactive') howns

theorem Unraised.kept (h : Unraised run) (hkept : Kept run.tasks run'.tasks) : Unraised run' := by
  intro t' ht'
  obtain ⟨t, ht, hsame⟩ := hkept t' ht'
  rw [← hsame.raisedSize]
  exact h t ht

/-! ## Moves of the engine -/

/-- The task at `i` gets another route. -/
def reroute (run : Run) (i : ℕ) (route : Route) (reviewRoute : Task → Option Route) : Run :=
  run.modifyTask i fun t => { t with route := route, reviewRoute := reviewRoute t }

variable {route : Route} {reviewRoute : Task → Option Route}

theorem Agree.reroute (h : Agree run) : Agree (reroute run i route reviewRoute) := by
  have key : ∀ t' ∈ (Engine.reroute run i route reviewRoute).tasks, ∃ t ∈ run.tasks,
      t.spec = t'.spec ∧ t.isActive = t'.isActive ∧
        plannedRuntime run.models t = plannedRuntime run.models t' := by
    intro t' ht'
    rcases mem_modify ht' with hmem | ⟨t, ht, rfl⟩
    · exact ⟨t', hmem, rfl, rfl, rfl⟩
    · exact ⟨t, List.mem_of_getElem? ht, rfl, rfl, rfl⟩
  intro a' ha' b' hb' hactive hactive' howns
  obtain ⟨a, ha, hspec, hsame, hplanned⟩ := key a' ha'
  obtain ⟨b, hb, hspec', hsame', hplanned'⟩ := key b' hb'
  rw [← hspec, ← hspec'] at howns
  have hab := h a ha b hb (hsame ▸ hactive) (hsame' ▸ hactive') howns
  rw [hplanned, hplanned'] at hab
  exact hab

theorem Unraised.reroute (h : Unraised run) : Unraised (reroute run i route reviewRoute) := by
  intro t' ht'
  rcases mem_modify ht' with hmem | ⟨t, ht, rfl⟩
  · exact h t' hmem
  · exact h t (List.mem_of_getElem? ht)

/-- What the overlap rule says of a move: every other task that owns files of the moved one is
    on the runtime it moves to. -/
theorem runtime_eq_of_runtimeOpen (h : Shared run) (htask : run.tasks[i]? = some task)
    (hopen : runtimeOpen run i task route.runtime .worker) (hactive : task.isActive) {j : ℕ}
    {t : Task} (ht : run.tasks[j]? = some t) (hji : j ≠ i) (hactive' : t.isActive)
    (howns : anyIntersect t.spec.owns task.spec.owns) : t.route.runtime = route.runtime := by
  simp only [runtimeOpen, Bool.or_eq_true, decide_eq_true_eq, Bool.not_eq_true',
    Bool.or_eq_false_iff] at hopen
  rcases hopen with hown | ⟨-, hothers⟩
  · rw [hown]
    exact h t (List.mem_of_getElem? ht) task (List.mem_of_getElem? htask) hactive' hactive howns
  · have hmem : t ∈ alongside run.tasks i .worker := by
      refine List.mem_map.2 ⟨(t, j), List.mem_filter.2 ⟨List.mem_zipIdx_iff_getElem?.2 ht, ?_⟩, rfl⟩
      have hempty : j ∉ (SortedMap.empty : SortedSet ℕ) := by simp
      have hunfinished : t.state.isFinished = false := by simpa [Task.isActive] using hactive'
      simp [hji, hunfinished, hempty]
    by_contra hne
    have hpair := List.any_eq_false.1 hothers t hmem
    simp [hne, Run.overlap, howns] at hpair

theorem Shared.reroute (h : Shared run) (htask : run.tasks[i]? = some task)
    (hopen : runtimeOpen run i task route.runtime .worker) :
    Shared (reroute run i route reviewRoute) := by
  -- the moved task against another one, at any two places of the list
  have key : ∀ {j k : ℕ} {a b : Task}, (Engine.reroute run i route reviewRoute).tasks[j]? = some a →
      (Engine.reroute run i route reviewRoute).tasks[k]? = some b → a.isActive → b.isActive →
      anyIntersect a.spec.owns b.spec.owns → k ≠ i → a.route.runtime = b.route.runtime := by
    intro j k a b ha hb hactive hactive' howns hki
    change (run.tasks.modify i _)[j]? = some a at ha
    change (run.tasks.modify i _)[k]? = some b at hb
    rw [List.getElem?_modify] at ha hb
    obtain ⟨b₀, hb₀, rfl⟩ := Option.map_eq_some_iff.1 hb
    obtain ⟨a₀, ha₀, rfl⟩ := Option.map_eq_some_iff.1 ha
    simp only [hki.symm, if_false] at hactive' howns ⊢
    by_cases hij : i = j
    · subst hij
      obtain rfl : task = a₀ := Option.some.inj (htask.symm.trans ha₀)
      simp only [if_true] at hactive howns ⊢
      rw [anyIntersect_comm] at howns
      exact (runtime_eq_of_runtimeOpen h htask hopen hactive hb₀ hki hactive' howns).symm
    · simp only [hij, if_false] at hactive howns ⊢
      exact h a₀ (List.mem_of_getElem? ha₀) b₀ (List.mem_of_getElem? hb₀) hactive hactive' howns
  intro a ha b hb hactive hactive' howns
  obtain ⟨j, hj⟩ := List.mem_iff_getElem?.1 ha
  obtain ⟨k, hk⟩ := List.mem_iff_getElem?.1 hb
  by_cases hki : k = i
  · by_cases hji : j = i
    · rw [hji] at hj
      rw [hki] at hk
      rw [Option.some.inj (hj.symm.trans hk)]
    · exact (key hk hj hactive' hactive (anyIntersect_comm a.spec.owns _ ▸ howns) hji).symm
  · exact key hj hk hactive hactive' howns hki

theorem sameModel_refl (models : RunModels) (route : Route) : models.sameModel route route := by
  simp [RunModels.sameModel, RunModels.sameModelRef]

/-- Rung 2 stays on the task's runtime, or goes to one the overlap rule leaves open. -/
theorem runtimeOpen_rung2Route (run : Run) (i : ℕ) (task : Task) :
    runtimeOpen run i task (rung2Route run i task).runtime .worker := by
  unfold rung2Route
  cases hstep : step run task (RunModels.taskRole task) task.route
      fun runtime => runtimeOpen run i task runtime .worker with
  | none => simp [runtimeOpen]
  | some next =>
    rw [Option.getD_some]
    unfold step escalate at hstep
    by_contra hclosed
    -- a route the rule refuses is among those skipped
    have hskipped := List.find?_some hstep
    simp only [failedIn, Bool.not_eq_true', List.any_eq_false, List.mem_append,
      List.mem_filter] at hskipped
    refine hskipped next (.inr ⟨List.mem_of_find?_eq_some hstep, ?_⟩) (sameModel_refl _ next)
    simpa using hclosed

/-- A worker fails over only where the overlap rule lets it. -/
theorem runtimeOpen_of_failOver {gate : Gate} {role : Role} {current : Route} {f : Failover}
    (h : admitSession L agents gate run (.worker i) role current = .failOver f)
    (htask : run.tasks[i]? = some task) : runtimeOpen run i task f.dst.runtime .worker := by
  unfold admitSession at h
  split at h
  · cases h
  · cases h
  · cases h
  dsimp only at h
  split at h
  · rename_i dst _ hall
    simp only [Bool.and_eq_true] at hall
    have hkeeps := hall.1.1.2
    obtain rfl := Admit.failOver.inj h
    simpa [keepsOverlap, Starter.task, Starter.place, htask] using hkeeps
  · cases h

/-- A place that no task is at. -/
theorem kept_reroute (h : run.tasks[i]? = none) :
    Kept run.tasks (reroute run i route reviewRoute).tasks :=
  .modify fun t ht => by simp [h] at ht

/-! ## Batches -/

variable {edits : List PlanEdit} {scope : EditScope} {who : EditSource} {now : ℕ}
  {consequences : List EditConsequence}

/-- What an accepted batch tells of the run it leads to: its tasks are those of the batch,
    which the rules accepted. -/
theorem kept_of_applyEdits (h : applyEdits L run edits scope who now = .ok (run', consequences)) :
    run'.limits = (runBatch L run edits who now).run.limits ∧
      run'.profile = (runBatch L run edits who now).run.profile ∧
      Kept (runBatch L run edits who now).run.tasks run'.tasks ∧
      validateTasksWith (runBatch L run edits who now).run.models
        (runBatch L run edits who now).run.tasks (runBatch L run edits who now).touched
        (some (runBatch L run edits who now).addedDeps) scope
        (runBatch L run edits who now).run.limits.maxTasks
        (runBatch L run edits who now).run.round = [] := by
  obtain ⟨-, -, hrules, -, rfl, -⟩ := applyEdits_eq_ok.1 h
  generalize runBatch L run edits who now = b at hrules ⊢
  have hnoted : (noteUnbacked b.run run b.source).limits = b.run.limits ∧
      (noteUnbacked b.run run b.source).profile = b.run.profile := by
    unfold noteUnbacked
    split
    exacts [⟨rfl, rfl⟩, ⟨rfl, rfl⟩]
  simp only [batchErrors, List.append_eq_nil_iff] at hrules
  exact ⟨hnoted.1, hnoted.2, settleBatch_kept b run, hrules.1.1⟩

theorem Agree.batch (h : Agree run) {b : Batch}
    (hgoes : Goes L run edits who { source := who, run := run, now := now } b)
    {addedDeps : Option (List (String × String))} {maxTasks round : ℕ}
    (hvalid : validateTasksWith b.run.models b.run.tasks b.touched addedDeps scope maxTasks round =
      []) : Agree b.run := by
  intro x hx y hy hactive hactive' howns
  rcases hgoes.tasks x hx with ⟨x₀, hx₀, hsame⟩ | hplaced
  · rcases hgoes.tasks y hy with ⟨y₀, hy₀, hsame'⟩ | hplaced
    · rw [← hsame.spec.owns, ← hsame'.spec.owns] at howns
      have hold := h x₀ hx₀ y₀ hy₀ (hsame.active hactive) (hsame'.active hactive') howns
      rw [Run.models, hgoes.limits, ← hsame.plannedRuntime, ← hsame'.plannedRuntime]
      exact hold
    · exact plannedRuntime_eq hvalid hx hy hactive hactive' (.inr hplaced.touched) howns
  · exact plannedRuntime_eq hvalid hx hy hactive hactive' (.inl hplaced.touched) howns

theorem Unraised.batch (h : Unraised run) {b : Batch}
    (hgoes : Goes L run edits who { source := who, run := run, now := now } b) :
    Unraised b.run := by
  intro x hx
  rcases hgoes.tasks x hx with ⟨x₀, hx₀, hsame⟩ | hplaced
  · rw [← hsame.raisedSize]
    exact h x₀ hx₀
  · exact hplaced.raisedSize

/-- A task resolved by a clear batch is not beside a moved one, other than itself. -/
theorem Clear.not_moved (hclear : Clear L run edits who) {x v : Task} (hputs : Puts run edits who x)
    (hv : v ∈ run.tasks) (hactive : v.isActive) (hid : v.id ≠ x.id)
    (howns : anyIntersect x.spec.owns v.spec.owns) : ¬Moved run v := by
  intro hmoved
  cases hputs with
  | new edit hedit spec hspec heq =>
    exact hclear.new edit hedit spec hspec v hv hactive hmoved (heq ▸ howns)
  | amended a hedit hresolved old hold holdActive hid' heq =>
    exact hclear.amended x.id a hedit hresolved old hold hid' holdActive v hv hactive hmoved hid
      (heq ▸ howns)

theorem Shared.batch (h : Shared run) (hclear : Clear L run edits who) {b : Batch}
    (hgoes : Goes L run edits who { source := who, run := run, now := now } b)
    {addedDeps : Option (List (String × String))} {maxTasks round : ℕ}
    (hvalid : validateTasksWith b.run.models b.run.tasks b.touched addedDeps scope maxTasks round =
      []) : Shared b.run := by
  have hmodels : b.run.models = run.models := congrArg RunLimits.models hgoes.limits
  -- a task the batch resolved is on the planned runtime, and so is what it shares files with
  have key : ∀ {x y : Task}, x ∈ b.run.tasks → y ∈ b.run.tasks → x.isActive → y.isActive →
      anyIntersect x.spec.owns y.spec.owns → Placed L run edits who b x →
      x.route.runtime = y.route.runtime := by
    intro x y hx hy hactive hactive' howns hplaced
    have hrule := plannedRuntime_eq hvalid hx hy hactive hactive' (.inl hplaced.touched) howns
    rw [hmodels] at hrule
    have hx' : x.route.runtime = plannedRuntime run.models x :=
      (hplaced.onPlan hclear.renews).runtime
    rcases hgoes.tasks y hy with ⟨v, hv, hsame⟩ | hplaced'
    · by_cases hid : v.id = x.id
      · obtain ⟨j, hj⟩ := List.mem_iff_getElem?.1 hx
        obtain ⟨k, hk⟩ := List.mem_iff_getElem?.1 hy
        obtain rfl := eq_of_id_eq hvalid hj hk hactive hactive' (hid.symm.trans hsame.id)
        rw [Option.some.inj (hj.symm.trans hk)]
      · have hunmoved := hclear.not_moved hplaced.puts hv (hsame.active hactive') hid
          (hsame.spec.owns ▸ howns)
        rw [hx', hrule, ← hsame.plannedRuntime, ← hsame.route]
        exact (not_not.1 hunmoved).symm
    · rw [hx', hrule]
      exact (hplaced'.onPlan hclear.renews).runtime.symm
  intro x hx y hy hactive hactive' howns
  rcases hgoes.tasks x hx with ⟨x₀, hx₀, hsame⟩ | hplaced
  · rcases hgoes.tasks y hy with ⟨y₀, hy₀, hsame'⟩ | hplaced
    · rw [← hsame.spec.owns, ← hsame'.spec.owns] at howns
      rw [← hsame.route, ← hsame'.route]
      exact h x₀ hx₀ y₀ hy₀ (hsame.active hactive) (hsame'.active hactive') howns
    · rw [anyIntersect_comm] at howns
      exact (key hy hx hactive' hactive howns hplaced).symm
  · exact key hx hy hactive hactive' howns hplaced

/-! ## Whole runs -/

variable {ok : Run → List PlanEdit → EditSource → Prop}

theorem Unraised.step (h : Unraised run) (hstep : Step L agents ok run run') : Unraised run' := by
  cases hstep with
  | edits hok haccepted =>
    obtain ⟨-, -, hkept, -⟩ := kept_of_applyEdits haccepted
    exact (h.batch (runBatch_goes h _)).kept hkept
  | failover hfailOver =>
    exact h.reroute
  | rung2 htask => exact h.reroute
  | work hlimits hprofile hkept => exact h.kept hkept

theorem Agree.step (h : Agree run) (hsize : Unraised run) (hstep : Step L agents ok run run') :
    Agree run' := by
  cases hstep with
  | edits hok haccepted =>
    obtain ⟨hlimits, -, hkept, hvalid⟩ := kept_of_applyEdits haccepted
    exact (h.batch (runBatch_goes hsize _) hvalid).kept hlimits hkept
  | failover hfailOver => exact h.reroute
  | rung2 htask => exact h.reroute
  | work hlimits hprofile hkept => exact h.kept hlimits hkept

theorem Shared.step (h : Shared run) (hsize : Unraised run)
    (hstep : Step L agents (Clear L) run run') : Shared run' := by
  cases hstep with
  | edits hclear haccepted =>
    obtain ⟨-, -, hkept, hvalid⟩ := kept_of_applyEdits haccepted
    exact (h.batch hclear (runBatch_goes hsize _) hvalid).kept hkept
  | @failover gate i role current f hfailOver =>
    cases htask : run.tasks[i]? with
    | none => exact h.kept (kept_reroute htask)
    | some task => exact h.reroute htask (runtimeOpen_of_failOver hfailOver htask)
  | @rung2 i task htask => exact h.reroute htask (runtimeOpen_rung2Route run i task)
  | work hlimits hprofile hkept => exact h.kept hkept

/-- An accepted plan starts with every task on the route of its plan. -/
theorem start_of_buildRun {planErrors : List PlanError} {base : Run} {specs : List PlanTask}
    (h : buildRun L planErrors base specs = .ok run) : Unraised run ∧ Agree run ∧ Shared run := by
  obtain ⟨-, -, hvalid, -, rfl⟩ := buildRun_eq_ok.1 h
  have hfits : ∀ t ∈ specs.map fun spec => (buildTask L base spec).1, ∃ spec,
      Fits L base.profile base.limits spec t := by
    intro t ht
    obtain ⟨spec, -, rfl⟩ := List.mem_map.1 ht
    exact ⟨{ spec with route := {} }, rfl, rfl, rfl, rfl, rfl⟩
  generalize (specs.map fun spec => (buildTask L base spec).1) = tasks at hvalid hfits
  have hsize : Unraised { base with tasks := tasks } := by
    intro t ht
    obtain ⟨spec, hspec⟩ := hfits t ht
    exact hspec.raisedSize
  have hagree : Agree { base with tasks := tasks } := by
    intro a ha b hb hactive hactive' howns
    exact plannedRuntime_eq hvalid ha hb hactive hactive' (.inl (List.mem_map_of_mem ha)) howns
  have hshared : Shared { base with tasks := tasks } := by
    intro a ha b hb hactive hactive' howns
    obtain ⟨spec, hspec⟩ := hfits a ha
    obtain ⟨spec', hspec'⟩ := hfits b hb
    rw [hspec.onPlan.runtime, hspec'.onPlan.runtime]
    exact hagree a ha b hb hactive hactive' howns
  have hkept := fillImplicit_kept tasks
  exact ⟨hsize.kept hkept, hagree.kept rfl hkept, hshared.kept hkept⟩

/-- From every accepted plan on: tasks that own the same files have one planned runtime after
    any run of edits, failovers and escalations, and are on one runtime after any run whose
    batches are clear. -/
theorem runtimes_run {planErrors : List PlanError} {base run₀ : Run} {specs : List PlanTask}
    (h : buildRun L planErrors base specs = .ok run₀) :
    (∀ run, ReflTransGen (Step L agents fun _ _ _ => True) run₀ run → Agree run) ∧
      ∀ run, ReflTransGen (Step L agents (Clear L)) run₀ run → Shared run := by
  obtain ⟨hsize, hagree, hshared⟩ := start_of_buildRun h
  refine ⟨fun run hrun => ?_, fun run hrun => ?_⟩
  · have key : Unraised run ∧ Agree run := by
      induction hrun with
      | refl => exact ⟨hsize, hagree⟩
      | tail _ hstep ih => exact ⟨ih.1.step hstep, ih.2.step ih.1 hstep⟩
    exact key.2
  · have key : Unraised run ∧ Shared run := by
      induction hrun with
      | refl => exact ⟨hsize, hshared⟩
      | tail _ hstep ih => exact ⟨ih.1.step hstep, ih.2.step ih.1 hstep⟩
    exact key.2

/-! ## A task moved by its failover -/

def lib : Lib := ⟨literalGlobset, fun text => text⟩

/-- Every row is a claude model with a codex one to fall back on. -/
def base : Run where
  id := "r"
  limits := {
    maxTasks := 10
    models := { rows := fun _ => ⟨⟨.claude, some "opus"⟩, none, some ⟨.codex, some "gpt"⟩⟩ } }

def planned (id : String) (owns : List String) : PlanTask :=
  { id := id, title := "t", brief := "b", acceptance := ["done"], owns := owns }

/-- The run of a plan. -/
def started (specs : List PlanTask) : Run :=
  { base with tasks := fillImplicit (specs.map fun spec => (buildTask lib base spec).1) }

/-- Claude's five-hour window is used up. -/
def claudeBraked : Gate :=
  ⟨false, fun runtime => if runtime = .claude then some ⟨.fiveHour, 900, 80, 100, 0⟩ else none⟩

def toCodex : Failover :=
  ⟨⟨.claude, "opus", ""⟩, ⟨.codex, "gpt", ""⟩, ⟨.fiveHour, 900, 80, 100, 0⟩⟩

/-- The user adds one task to the run. -/
def adding (run : Run) (spec : PlanTask) : Run :=
  settleBatch (runBatch lib run [.addTask spec []] .user 0) run

/-- The plan of two tasks on the same files and one on others. -/
def threeSpecs : List PlanTask :=
  [planned "a" ["src/**"], planned "b" ["src/a.rs"], planned "c" ["docs/**"]]

/-- The third task fails over, and a task on other files is added. -/
theorem runtimes_run_failover :
    Shared (adding (record (started threeSpecs) (.worker 2) toCodex) (planned "d" ["tests/d.rs"])) ∧
      (adding (record (started threeSpecs) (.worker 2) toCodex)
        (planned "d" ["tests/d.rs"])).tasks.map (fun t => (t.id, t.route.runtime)) =
      [("a", .claude), ("b", .claude), ("c", .codex), ("d", .claude)] := by
  have hbuilt : buildRun lib [] base threeSpecs = .ok (started threeSpecs) :=
    buildRun_eq_ok.2 ⟨rfl, by decide, by decide, by decide, rfl⟩
  have hfailOver : admitSession lib (fun _ => []) claudeBraked (started threeSpecs) (.worker 2)
      .implementerSmall ⟨.claude, "opus", ""⟩ = .failOver toCodex := by decide
  have hclear : Clear lib (record (started threeSpecs) (.worker 2) toCodex)
      [.addTask (planned "d" ["tests/d.rs"]) []] .user := by
    refine ⟨?_, fun id a hmem => by simp at hmem, fun id a hmem => by simp at hmem⟩
    have hapart : ∀ v ∈ (record (started threeSpecs) (.worker 2) toCodex).tasks,
        ¬anyIntersect ["tests/d.rs"] v.spec.owns := by decide
    intro edit hedit spec hspec v hv _ _
    rw [List.mem_singleton.1 hedit] at hspec
    rw [List.mem_singleton.1 hspec]
    exact hapart v hv
  have hadded : applyEdits lib (record (started threeSpecs) (.worker 2) toCodex)
      [.addTask (planned "d" ["tests/d.rs"]) []] .run .user 0 =
      .ok (adding (record (started threeSpecs) (.worker 2) toCodex) (planned "d" ["tests/d.rs"]),
        []) :=
    applyEdits_eq_ok.2 ⟨by decide, by decide, by decide, by decide, rfl, by decide⟩
  have hrun : ReflTransGen (Step lib (fun _ => []) (Clear lib)) (started threeSpecs)
      (adding (record (started threeSpecs) (.worker 2) toCodex) (planned "d" ["tests/d.rs"])) :=
    (ReflTransGen.single (.failover hfailOver)).tail (.edits hclear hadded)
  exact ⟨(runtimes_run hbuilt).2 _ hrun, by decide⟩

/-- A task on files of a moved one is accepted, on another runtime and with no wait between
    the two. -/
theorem added_beside_moved :
    buildRun lib [] base [planned "a" ["src/**"]] = .ok (started [planned "a" ["src/**"]]) ∧
    admitSession lib (fun _ => []) claudeBraked (started [planned "a" ["src/**"]]) (.worker 0)
      .implementerSmall ⟨.claude, "opus", ""⟩ = .failOver toCodex ∧
    ∃ run, applyEdits lib (record (started [planned "a" ["src/**"]]) (.worker 0) toCodex)
        [.addTask (planned "b" ["src/a.rs"]) []] .run .user 0 = .ok (run, []) ∧
      ∃ a b, run.tasks[0]? = some a ∧ run.tasks[1]? = some b ∧ a.isActive ∧ b.isActive ∧
        a.isReader = false ∧ b.isReader = false ∧ anyIntersect a.spec.owns b.spec.owns ∧
        a.route.runtime ≠ b.route.runtime ∧ ¬Reach (waitEdges run.tasks) 0 1 ∧
        ¬Reach (waitEdges run.tasks) 1 0 := by
  refine ⟨buildRun_eq_ok.2 ⟨rfl, by decide, by decide, by decide, rfl⟩, by decide, _,
    applyEdits_eq_ok.2 ⟨by decide, by decide, by decide, by decide, rfl, by decide⟩,
    _, _, rfl, rfl, by decide, by decide, by decide, by decide, by decide, by decide, ?_, ?_⟩
  · rw [← reaches_iff]
    decide
  · rw [← reaches_iff]
    decide

end Anthrex.Engine
