import Anthrex.Globs.Area
import Anthrex.Plan.Moves
import Mathlib.Logic.Relation

/-!
# The area of a sub-planner

A sub-planner's batches are applied in the scope of its area, and `insideErrors` asks that what
every touched task owns is inside it. A task the batch resolves has its globs validated then; a
task that only gets a dependency was validated when it was planned, split in or added by the
engine. So in every run all globs are valid (`OwnsValid`), and the area's test on literal
prefixes decides where the paths under them are.
-/

namespace Anthrex.Plan

open Anthrex.Run hiding id
open Anthrex.Globs Lists Relation

variable {L : Lib} {run run' : Run} {tasks tasks' : List Task} {b b' : Batch} {t : Task}
  {spec : PlanTask} {i : ℕ} {id : String}

/-- The globs of every task are valid. -/
def OwnsValid (L : Lib) (tasks : List Task) : Prop :=
  ∀ t ∈ tasks, ∀ g ∈ t.spec.owns, validateGlob L.globs g = .ok ()

/-! ## What keeps the globs valid -/

theorem OwnsValid.of_owns (h : OwnsValid L tasks)
    (howns : ∀ t' ∈ tasks', ∃ t ∈ tasks, t'.spec.owns = t.spec.owns) : OwnsValid L tasks' := by
  intro t' ht' g hg
  obtain ⟨t, ht, heq⟩ := howns t' ht'
  exact h t ht g (heq ▸ hg)

theorem OwnsValid.kept (h : OwnsValid L tasks) (hkept : Kept tasks tasks') : OwnsValid L tasks' := by
  refine h.of_owns fun t' ht' => ?_
  obtain ⟨t, ht, hsame⟩ := hkept t' ht'
  exact ⟨t, ht, hsame.spec.owns.symm⟩

theorem OwnsValid.modify {f : Task → Task} (h : OwnsValid L tasks)
    (hf : ∀ t, tasks[i]? = some t → (f t).spec.owns = t.spec.owns) :
    OwnsValid L (tasks.modify i f) := by
  refine h.of_owns fun t' ht' => ?_
  rcases mem_modify ht' with hmem | ⟨t, ht, rfl⟩
  · exact ⟨t', hmem, rfl⟩
  · exact ⟨t, List.mem_of_getElem? ht, hf t ht⟩

theorem ownsValid_append {more : List Task} :
    OwnsValid L (tasks ++ more) ↔ OwnsValid L tasks ∧ OwnsValid L more := by
  simp only [OwnsValid, List.mem_append, or_imp, forall_and]

theorem validateGlob_of_checkFields (h : checkFields L spec = []) :
    ∀ g ∈ spec.owns, validateGlob L.globs g = .ok () := by
  intro g hg
  simp only [checkFields, List.append_eq_nil_iff, List.flatMap_eq_nil_iff] at h
  have hglob := h.2 g hg
  split at hglob
  · assumption
  · cases hglob

namespace Batch

/-! ## The edits that resolve a task -/

theorem ownsValid_of_resolve (b : Batch) (spec : PlanTask)
    (h : (b.resolve L spec).1.errors = []) : OwnsValid L [(b.resolve L spec).2] := by
  have hfields : checkFields L spec = [] := by
    simp only [resolve, resolveTaskLenient, List.append_eq_nil_iff] at h
    exact h.1.2.1.1.1
  intro t ht g hg
  rw [List.mem_singleton.1 ht, (resolve_task b spec).1] at hg
  exact validateGlob_of_checkFields hfields g hg

theorem addTask_ownsValid (b : Batch) (spec : PlanTask) (h : OwnsValid L b.run.tasks)
    (herrors : (b.addTask L spec).errors = []) : OwnsValid L (b.addTask L spec).run.tasks := by
  have htasks := (unrouted_idles b spec).tasks
  unfold addTask at herrors ⊢
  generalize b.unrouted spec = unrouted at htasks herrors ⊢
  obtain ⟨b₁, spec₁⟩ := unrouted
  dsimp only at htasks herrors ⊢
  have hnew := ownsValid_of_resolve (L := L) (b₁.fail (reservedNewId spec₁.id)) spec₁
  have hidles := resolve_idles (L := L) (b₁.fail (reservedNewId spec₁.id)) spec₁
  generalize (b₁.fail (reservedNewId spec₁.id)).resolve L spec₁ = resolved
    at hnew hidles herrors ⊢
  obtain ⟨b₂, task⟩ := resolved
  refine ownsValid_append.2 ⟨?_, hnew herrors⟩
  show OwnsValid L b₂.run.tasks
  rw [hidles.tasks, show (b₁.fail (reservedNewId spec₁.id)).run.tasks = b.run.tasks from htasks]
  exact h

theorem addOwned_ownsValid (b : Batch) (spec : PlanTask) (h : OwnsValid L b.run.tasks)
    (herrors : (b.addOwned L spec).errors = []) : OwnsValid L (b.addOwned L spec).run.tasks := by
  have htasks := (owned_idles b spec).1.tasks
  unfold addOwned at herrors ⊢
  generalize b.owned spec = owned at htasks herrors ⊢
  obtain ⟨b₁, _ | own⟩ := owned
  · exact htasks ▸ h
  · exact addTask_ownsValid b₁ own (htasks ▸ h) herrors

theorem resolveAll_ownsValid (b : Batch) (specs : List PlanTask)
    (h : (b.resolveAll L specs).1.errors = []) : OwnsValid L (b.resolveAll L specs).2 := by
  obtain ⟨-, hmem⟩ := gather_idles (g := resolve L) (P := fun _ c => OwnsValid L [c]) resolve_idles
    (fun b spec herrors => ownsValid_of_resolve b spec herrors) specs (b, [])
  obtain ⟨l, heq, hforall⟩ := hmem h
  intro c hc
  change c ∈ (specs.foldl _ (b, [])).2 at hc
  rw [heq] at hc
  obtain ⟨spec, -, hc'⟩ := exists_of_forall₂_mem hforall hc
  exact hc' c (List.mem_singleton_self c)

theorem splitAt_ownsValid (b : Batch) (into : List PlanTask) (i : ℕ) (t : Task)
    (h : OwnsValid L b.run.tasks) (herrors : (b.splitAt L id into i t).errors = []) :
    OwnsValid L (b.splitAt L id into i t).run.tasks := by
  have hunrouted := (unroutedAll_idles b into).1
  unfold splitAt at herrors ⊢
  generalize b.unroutedAll into = unrouted at hunrouted herrors ⊢
  obtain ⟨b₁, specs⟩ := unrouted
  dsimp only at hunrouted herrors ⊢
  generalize specs.map (splitChild t.spec.stage) = placed at herrors ⊢
  have hfail := fail_idles b₁ (placed.flatMap fun c => reservedNewId c.1.id ++ c.2)
  have hresolve := (resolveAll_idles (L := L)
    (b₁.fail (placed.flatMap fun c => reservedNewId c.1.id ++ c.2)) (placed.map (·.1))).1
  have hchildren := resolveAll_ownsValid (L := L)
    (b₁.fail (placed.flatMap fun c => reservedNewId c.1.id ++ c.2)) (placed.map (·.1))
  have hidles := hunrouted.trans (hfail.trans hresolve)
  generalize (b₁.fail (placed.flatMap fun c => reservedNewId c.1.id ++ c.2)).resolveAll L
    (placed.map (·.1)) = resolved at hidles hchildren herrors ⊢
  obtain ⟨b₂, children⟩ := resolved
  dsimp only at hidles hchildren herrors ⊢
  have hdeps := (addDepsOf_foldl children b₂).1
  generalize children.foldl addDepsOf b₂ = b₃ at hdeps herrors ⊢
  have herrors₄ := (cancelAt_eq { b₃ with run := { b₃.run with
    tasks := b₃.run.tasks.map (replaceDep id (children.map Task.id)) } } i t).2.1
  have hcalm := cancelAt_calm { b₃ with run := { b₃.run with
    tasks := b₃.run.tasks.map (replaceDep id (children.map Task.id)) } } i t
  generalize cancelAt _ i t = b₄ at herrors₄ hcalm herrors ⊢
  -- the tasks there were, and the children
  have hold : OwnsValid L b₄.run.tasks := by
    refine OwnsValid.kept ?_ hcalm.kept
    have hb₃ : OwnsValid L b₃.run.tasks := by
      rw [(hidles.trans hdeps).tasks]
      exact h
    exact hb₃.kept (.map fun t _ => replaceDep_same _ t)
  have hnew : OwnsValid L children :=
    hchildren (hdeps.errors_eq_nil (herrors₄.symm.trans herrors))
  refine ownsValid_append.2 ⟨ownsValid_append.2 ⟨?_, ?_⟩, ?_⟩
  · exact fun t ht => hold t (List.mem_of_mem_take ht)
  · refine hnew.of_owns fun t ht => ?_
    obtain ⟨c, hc, rfl⟩ := List.mem_map.1 ht
    exact ⟨c, hc, rfl⟩
  · exact fun t ht => hold t (List.mem_of_mem_drop ht)

theorem split_ownsValid (b : Batch) (id : String) (into : List PlanTask)
    (h : OwnsValid L b.run.tasks) (herrors : (b.split L id into).errors = []) :
    OwnsValid L (b.split L id into).run.tasks := by
  revert herrors
  refine withTask_cases (P := fun b' => b'.errors = [] → OwnsValid L b'.run.tasks)
    (fun _ _ => h) fun i t _ _ => ?_
  split
  · exact fun _ => h
  split
  · exact fun _ => h
  split
  · exact fun _ => h
  · exact splitAt_ownsValid b into i t h

theorem splitOwned_ownsValid (b : Batch) (id : String) (into : List PlanTask)
    (h : OwnsValid L b.run.tasks) (herrors : (b.splitOwned L id into).errors = []) :
    OwnsValid L (b.splitOwned L id into).run.tasks := by
  have hall : ∀ {b₁ : Batch} {own : Option (List PlanTask)}, b.ownedAll into = (b₁, own) →
      OwnsValid L b₁.run.tasks := by
    intro b₁ own heq
    have htasks := (ownedAll_idles b into).1.tasks
    rw [heq] at htasks
    exact htasks ▸ h
  revert herrors
  refine withTask_cases (P := fun b' => b'.errors = [] → OwnsValid L b'.run.tasks)
    (fun _ _ => h) fun i t _ _ => ?_
  dsimp only
  split
  · exact fun _ => h
  split
  · split
    · exact fun _ => h
    · split
      · exact split_ownsValid _ id _ (hall ‹_›)
      · exact fun _ => hall ‹_›
  · split
    · exact fun _ => h
    · split
      · exact split_ownsValid _ id _ (hall ‹_›)
      · exact fun _ => hall ‹_›

/-- An amend keeps what its task owns. -/
theorem amendAt_ownsValid (b : Batch) (a : Amend) (hi : b.run.tasks[i]? = some t)
    (h : OwnsValid L b.run.tasks) : OwnsValid L (b.amendAt L i t a).run.tasks := by
  have hspec : OwnsValid L (if reresolves a then
      b.reresolve L i t (amendSpec a t.spec) a.route.isSome
      else b.respec L i (amendSpec a t.spec)).run.tasks := by
    split
    · refine h.modify fun t' ht' => ?_
      rw [← Option.some.inj (hi.symm.trans ht')]
      rfl
    · refine h.modify fun t' ht' => ?_
      rw [← Option.some.inj (hi.symm.trans ht')]
      show (b.resolve L (amendSpec a t.spec)).2.spec.owns = _
      rw [(resolve_task b (amendSpec a t.spec)).1]
      rfl
  unfold amendAt
  dsimp only
  generalize (if reresolves a then b.reresolve L i t (amendSpec a t.spec) a.route.isSome
    else b.respec L i (amendSpec a t.spec)) = b₁ at hspec ⊢
  have hdeps : OwnsValid L (a.deps.elim b₁ (b₁.amendDeps i)).run.tasks := by
    cases a.deps with
    | none => exact hspec
    | some deps => exact hspec.kept (amendDeps_calm b₁ i deps).kept
  split
  · exact hdeps.kept (tellWorker_calm _ i).kept
  · exact hdeps

theorem amendTask_ownsValid (b : Batch) (id : String) (a : Amend) (h : OwnsValid L b.run.tasks) :
    OwnsValid L (b.amendTask L id a).run.tasks := by
  refine withTask_cases (P := fun b' => OwnsValid L b'.run.tasks) (fun _ => h) fun i t hi _ => ?_
  dsimp only
  have htasks := (ignored_calm b a.route (a.route.isSome && b.source ≠ .user)).2
  generalize (if a.route.isSome && b.source ≠ .user then a.route.elim b b.routeIgnored else b) = b₁
    at htasks ⊢
  generalize (if a.route.isSome && b.source ≠ .user then { a with route := none } else a) = a₁
  rw [← htasks] at h hi
  split
  · split
    · exact h
    · exact h
  split
  · exact h
  · exact amendAt_ownsValid b₁ a₁ hi h

/-! ## A whole batch -/

/-- One edit that goes through. -/
theorem apply_ownsValid (b : Batch) (edit : PlanEdit) (h : OwnsValid L b.run.tasks)
    (herrors : (b.apply L edit).errors = []) : OwnsValid L (b.apply L edit).run.tasks := by
  cases edit with
  | addTask task replaced =>
    have hadd := (replaces_leads (b.addOwned L task) task.id replaced herrors).1
    exact (addOwned_ownsValid b task h hadd).kept (replaces_calm _ task.id replaced).kept
  | splitTask id into => exact splitOwned_ownsValid b id into h herrors
  | cancelTask id => exact h.kept (cancel_calm b id).kept
  | message to' text kind => exact h.kept (message_calm b to' text kind).kept
  | refresh id => exact h.kept (refresh_calm b id).kept
  | amendTask id amend => exact amendTask_ownsValid b id amend h
  | addDep id dep => exact h.kept (addDep_calm b id dep).kept
  | answer id text => exact h.kept (answer_calm b id text).kept
  | replyComment pr thread body => exact h.kept (reply_calm b pr thread body).kept
  | pause | resume | finish | iterate | retry | override | resumeRun | approveHold | acceptRed =>
    exact h

end Batch

theorem ownsValid_runBatch {edits : List PlanEdit} {source : EditSource} {now : ℕ}
    (h : OwnsValid L run.tasks) (herrors : (runBatch L run edits source now).errors = []) :
    OwnsValid L (runBatch L run edits source now).run.tasks := by
  -- an error of one edit would be one of the whole batch
  have hleads : ∀ (edits : List PlanEdit) (b : Batch),
      (edits.foldl (fun b edit => b.apply L edit) b).errors = [] → b.errors = [] := by
    intro edits
    induction edits with
    | nil => exact fun b h => h
    | cons edit edits ih => exact fun b h => (Batch.apply_leads b edit (ih _ h)).1
  have hfold : ∀ (edits : List PlanEdit) (b : Batch), OwnsValid L b.run.tasks →
      (edits.foldl (fun b edit => b.apply L edit) b).errors = [] →
        OwnsValid L (edits.foldl (fun b edit => b.apply L edit) b).run.tasks := by
    intro edits
    induction edits with
    | nil => exact fun b h _ => h
    | cons edit edits ih =>
      intro b h herrors
      exact ih _ (Batch.apply_ownsValid b edit h (hleads edits _ herrors)) herrors
  exact hfold edits { source := source, run := run, now := now } h herrors

/-- An accepted batch keeps every glob valid. -/
theorem ownsValid_applyEdits {edits : List PlanEdit} {scope : EditScope} {source : EditSource}
    {now : ℕ} {consequences : List EditConsequence} (h : OwnsValid L run.tasks)
    (hok : applyEdits L run edits scope source now = .ok (run', consequences)) :
    OwnsValid L run'.tasks := by
  obtain ⟨-, herrors, -, -, rfl, -⟩ := applyEdits_eq_ok.1 hok
  refine (ownsValid_runBatch h herrors).of_owns fun t' ht' => ?_
  obtain ⟨t, ht, hafter⟩ := exists_of_forall₂_mem
    (settleBatch_afterBatch (runBatch L run edits source now) run) ht'
  exact ⟨t, ht, by rw [hafter.spec]⟩

/-- The tasks of an accepted plan own valid globs. -/
theorem ownsValid_buildRun {planErrors : List PlanError} {base : Run} {specs : List PlanTask}
    (h : buildRun L planErrors base specs = .ok run) : OwnsValid L run.tasks := by
  obtain ⟨-, herrors, -, -, rfl⟩ := buildRun_eq_ok.1 h
  have hplanned : OwnsValid L (specs.map fun spec => (buildTask L base spec).1) := by
    intro t ht
    obtain ⟨spec, hspec, rfl⟩ := List.mem_map.1 ht
    have hnil := List.flatMap_eq_nil_iff.1 herrors spec hspec
    simp only [buildTask, resolveTaskLenient, List.append_eq_nil_iff] at hnil
    exact validateGlob_of_checkFields hnil.1.1.1.1
  exact hplanned.kept (fillImplicit_kept _)

/-! ## Runs -/

/-- One step of a run, as far as what its tasks own: an accepted batch, a task the engine adds
    (a fix task, whose fields are checked, or an integration review, which owns nothing), or
    work that leaves what every task owns. -/
inductive PlanStep (L : Lib) : Run → Run → Prop
  | edits {run run' : Run} {edits : List PlanEdit} {scope : EditScope} {source : EditSource}
      {now : ℕ} {consequences : List EditConsequence}
      (h : applyEdits L run edits scope source now = .ok (run', consequences)) :
      PlanStep L run run'
  | adds {run run' : Run} {spec : PlanTask} (hspec : checkFields L spec = [] ∨ spec.owns = [])
      (h : ∀ t' ∈ run'.tasks, (∃ t ∈ run.tasks, t'.spec.owns = t.spec.owns) ∨
        t'.spec.owns = spec.owns) : PlanStep L run run'
  | work {run run' : Run} (h : ∀ t' ∈ run'.tasks, ∃ t ∈ run.tasks, t'.spec.owns = t.spec.owns) :
      PlanStep L run run'

theorem OwnsValid.step (h : OwnsValid L run.tasks) (hstep : PlanStep L run run') :
    OwnsValid L run'.tasks := by
  cases hstep with
  | edits hok => exact ownsValid_applyEdits h hok
  | work howns => exact h.of_owns howns
  | adds hspec howns =>
    intro t' ht' g hg
    rcases howns t' ht' with ⟨t, ht, heq⟩ | heq
    · exact h t ht g (heq ▸ hg)
    · rw [heq] at hg
      rcases hspec with hfields | hnil
      · exact validateGlob_of_checkFields hfields g hg
      · rw [hnil] at hg
        cases hg

theorem ownsValid_run {planErrors : List PlanError} {base run₀ : Run} {specs : List PlanTask}
    (h : buildRun L planErrors base specs = .ok run₀)
    (hrun : ReflTransGen (PlanStep L) run₀ run) : OwnsValid L run.tasks := by
  induction hrun with
  | refl => exact ownsValid_buildRun h
  | tail _ hstep ih => exact ih.step hstep

/-- What the rules say of a touched task that is not finished, in the scope of an area. -/
theorem insideArea_of_validate {models : RunModels} {touched area : List String}
    {addedDeps : Option (List (String × String))} {maxTasks round : ℕ}
    (h : validateTasksWith models tasks touched addedDeps (.area area) maxTasks round = [])
    (ht : t ∈ tasks) (hactive : t.isActive) (htouched : t.id ∈ touched) :
    (∀ a ∈ area, isValidAreaGlob a) ∧ ∀ g ∈ t.spec.owns, insideArea g area := by
  obtain ⟨k, hk⟩ := List.mem_iff_getElem?.1 ht
  have htask := taskErrors_eq_nil h hk hactive
  simp only [validateTasksWith, List.append_eq_nil_iff] at h
  obtain ⟨⟨⟨⟨⟨⟨-, harea⟩, -⟩, -⟩, -⟩, -⟩, -⟩ := h
  simp only [taskErrors, List.append_eq_nil_iff, htouched, decide_true, if_true] at htask
  have hinside := htask.2
  simp only [areaErrors, List.flatMap_eq_nil_iff, errorIf_eq_nil, Bool.not_eq_false'] at harea
  simp only [insideErrors, List.flatMap_eq_nil_iff, errorIf_eq_nil, Bool.not_eq_false'] at hinside
  exact ⟨harea, hinside⟩

/-- In every run, and for every batch accepted in the scope of an area without braces: every path
    under what a touched task owns that is not finished is a path the area names, or lies below
    one. -/
theorem area_run (hG : L.globs.Lawful) {planErrors : List PlanError} {base run₀ : Run}
    {specs : List PlanTask} (hstart : buildRun L planErrors base specs = .ok run₀)
    (hrun : ReflTransGen (PlanStep L) run₀ run) {edits : List PlanEdit} {area : List String}
    {source : EditSource} {now : ℕ} {consequences : List EditConsequence}
    (hok : applyEdits L run edits (.area area) source now = .ok (run', consequences))
    (hbrace : ∀ a ∈ area, Braceless a) (ht : t ∈ run'.tasks) (hactive : t.isActive)
    (htouched : t.id ∈ (runBatch L run edits source now).touched) {m : OwnsMatcher} {path : String}
    (hm : OwnsMatcher.new L.globs t.spec.owns = .ok m) (hpath : m.matches L.globs path) :
    ∃ a ∈ area, Below (areaLiteral a) path := by
  obtain ⟨-, herrors, hrules, -, rfl, -⟩ := applyEdits_eq_ok.1 hok
  -- the task as the rules saw it
  obtain ⟨u, hu, hafter⟩ := exists_of_forall₂_mem
    (settleBatch_afterBatch (runBatch L run edits source now) run) ht
  have hvalid := ownsValid_runBatch (ownsValid_run hstart hrun) herrors u hu
  have hactive' : u.isActive := by
    simpa only [Task.isActive, hafter.isFinished] using hactive
  simp only [batchErrors, List.append_eq_nil_iff] at hrules
  obtain ⟨harea, hinside⟩ := insideArea_of_validate hrules.1.1 hu hactive'
    (hafter.id_eq ▸ htouched)
  rw [hafter.spec] at hm
  exact below_of_matches hG hvalid harea hbrace hinside hm hpath

/-! ## A sub-planner of one epic -/

def areaLib : Lib := ⟨literalGlobset, fun text => text⟩

/-- A run whose epic `e` is being planned. -/
def epicBase : Run where
  id := "r"
  limits := {
    maxTasks := 10
    plannerTaskCap := 5
    models := { rows := fun _ => ⟨⟨.claude, some "opus"⟩, none, none⟩ } }
  epics := [⟨"e", .planning, ⟨.claude, "opus", ""⟩, []⟩]

def epicSpec (id : String) (owns deps : List String) : PlanTask :=
  { id := id, title := "t", brief := "b", acceptance := ["done"], owns := owns, deps := deps
    epic := some "e" }

def epicRun : Run :=
  { epicBase with tasks := fillImplicit [(buildTask areaLib epicBase (epicSpec "a" ["src/a/"] [])).1] }

/-- The sub-planner adds a task, and a dependency on it to the task there is. -/
def epicEdits : List PlanEdit :=
  [.addTask (epicSpec "b" ["src/b/x.rs"] []) [], .addDep "a" "b"]

def epicResult : Run :=
  settleBatch (runBatch areaLib epicRun epicEdits (.planner "e") 0) epicRun

theorem area_run_epic :
    (∃ a ∈ ["docs", "src/**"], Below (areaLiteral a) "src/b/x.rs") ∧
      ∃ a ∈ ["docs", "src/**"], Below (areaLiteral a) "src/a/y.rs" := by
  have hstart : buildRun areaLib [] epicBase [epicSpec "a" ["src/a/"] []] = .ok epicRun :=
    buildRun_eq_ok.2 ⟨rfl, by decide, by decide, by decide, rfl⟩
  have hok : applyEdits areaLib epicRun epicEdits (.area ["docs", "src/**"]) (.planner "e") 0 =
      .ok (epicResult, []) :=
    applyEdits_eq_ok.2 ⟨by decide, by decide, by decide, by decide, rfl, by decide⟩
  have hbrace : ∀ a ∈ ["docs", "src/**"], Braceless a := by decide
  have htasks : ∃ t u, epicResult.tasks = [t, u] ∧ t.isActive ∧ u.isActive ∧
      t.id = "a" ∧ u.id = "b" ∧ t.spec.owns = ["src/a/"] ∧ u.spec.owns = ["src/b/x.rs"] :=
    ⟨_, _, rfl, by decide, by decide, by decide, by decide, by decide, by decide⟩
  obtain ⟨t, u, heq, ht, hu, hid, hid', howns, howns'⟩ := htasks
  refine ⟨area_run literalGlobset_lawful hstart .refl hok hbrace (t := u) (by simp [heq]) hu ?_
      (m := ⟨false, ["src/b/x.rs", "src/b/x.rs/**"]⟩) ?_ ?_,
    area_run literalGlobset_lawful hstart .refl hok hbrace (t := t) (by simp [heq]) ht ?_
      (m := ⟨false, ["src/a", "src/a/**"]⟩) ?_ ?_⟩
  · rw [hid']
    decide
  · rw [howns']
    rfl
  · decide
  · rw [hid]
    decide
  · rw [howns]
    rfl
  · decide

end Anthrex.Plan
