import Anthrex.Globs.Overlap
import Anthrex.Plan.Moves

/-!
# Dependents of a cancelled task

A task that declares a cancelled one of its own or a later round cannot run: it is blocked, for
a reason that neither an answer nor a message lifts. The rule is kept in three places: a cancel
blocks the dependents it finds, a dependency that a batch adds must not be cancelled when the
batch ends, and new dependencies may let a task go back to pending. Between two edits a task may
so be free only by a dependency that the batch added (`Held`), and the rules of the plan refuse
the batch that ends there.
-/

namespace Anthrex.Plan

open Anthrex.Run hiding id
open Anthrex.Globs Lists

/-- Blocked, and neither for a question, which an answer lifts, nor by a message, which the next
    one lifts. -/
def Stuck (t : Task) : Prop :=
  t.state = .blocked ∧ t.blockedFor .question = false ∧ t.blockedFor .messagePause = false

instance : DecidablePred Stuck := fun _ => inferInstanceAs (Decidable (_ ∧ _))

/-- Every unfinished task that declares a dependency on a cancelled one of its own or a later
    round is as `P` says. -/
def DepCancelled (P : Task → Prop) (tasks : List Task) : Prop :=
  ∀ t ∈ tasks, t.state.isFinished = false → ∀ d ∈ t.spec.deps, ∀ x ∈ byId tasks d,
    x.state = .cancelled → t.round ≤ x.round → P t

instance (P : Task → Prop) [DecidablePred P] (tasks : List Task) :
    Decidable (DepCancelled P tasks) :=
  inferInstanceAs (Decidable (∀ t ∈ tasks, t.state.isFinished = false → ∀ d ∈ t.spec.deps,
    ∀ x ∈ byId tasks d, x.state = .cancelled → t.round ≤ x.round → P t))

/-- Dep-clean: the task is blocked. -/
def DepClean (run : Run) : Prop := DepCancelled (·.state = .blocked) run.tasks

/-- The task is blocked until its dependencies change. -/
def DepStuck (run : Run) : Prop := DepCancelled Stuck run.tasks

instance (run : Run) : Decidable (DepClean run) :=
  inferInstanceAs (Decidable (DepCancelled _ run.tasks))

instance (run : Run) : Decidable (DepStuck run) :=
  inferInstanceAs (Decidable (DepCancelled _ run.tasks))

/-- In a batch: a task that declares a cancelled one is stuck, or the batch added the dependency.
    The dependencies in `skip` are not looked at. -/
def Held (skip : String → Prop) (tasks : List Task) (added : List (String × String)) : Prop :=
  ∀ t ∈ tasks, t.state.isFinished = false → ∀ d ∈ t.spec.deps, ¬skip d → ∀ x, byId tasks d = some x →
    x.state = .cancelled → t.round ≤ x.round → Stuck t ∨ (t.id, d) ∈ added

/-- Every unfinished task is the first with its id. -/
def Unshadowed (tasks : List Task) : Prop :=
  tasks.Pairwise fun u t => t.state.isFinished = false → u.id ≠ t.id

variable {d d' : Draft} {new news : List String} {t t' x : Task} {tasks tasks' : List Task}
  {added added' : List (String × String)} {skip gone : String → Prop} {i : ℕ} {id : String}

/-! ## What a change of the tasks keeps -/

/-- What happens to one task: it may be cancelled if its id is `gone`, and is free of a dependency
    it had only as it was before. -/
structure Fate (skip gone : String → Prop) (added : List (String × String)) (t t' : Task) :
    Prop where
  id : t'.id = t.id
  round : t'.round = t.round
  cancelled : t'.state = .cancelled → t.state = .cancelled ∨ gone t.id
  unfinished : t'.state.isFinished = false → t.state.isFinished = false
  deps : t'.state.isFinished = false → ∀ d ∈ t'.spec.deps, skip d ∨ (t'.id, d) ∈ added ∨ Stuck t' ∨
    d ∈ t.spec.deps ∧ ¬gone d ∧ (Stuck t → Stuck t')

theorem Held.forall₂ (h : Held skip tasks added) (hadded : ∀ p ∈ added, p ∈ added')
    (htasks : List.Forall₂ (Fate skip gone added') tasks tasks') : Held skip tasks' added' := by
  intro t' ht' hopen d hd hskip x' hx' hcancelled hround
  obtain ⟨t, ht, hfate⟩ := exists_of_forall₂_mem htasks ht'
  have hid : ∀ y y', Fate skip gone added' y y' → decide (y'.id = d) = decide (y.id = d) :=
    fun y y' hy => by rw [hy.id]
  obtain ⟨x, hx, hxfate⟩ := find?_of_forall₂ htasks hid hx'
  have hxid : x.id = d := by simpa using List.find?_some hx
  rcases hfate.deps hopen d hd with hs | hnew | hstuck | ⟨hold, hgone, hkeeps⟩
  · exact absurd hs hskip
  · exact .inr hnew
  · exact .inl hstuck
  · rcases hxfate.cancelled hcancelled with hxc | hxg
    · rw [hfate.round, hxfate.round] at hround
      rcases h t ht (hfate.unfinished hopen) d hold hskip x hx hxc hround with hstuck | hin
      · exact .inl (hkeeps hstuck)
      · exact .inr (hfate.id ▸ hadded _ hin)
    · exact absurd (hxid ▸ hxg) hgone

theorem InPlace.fate (h : InPlace t t') : Fate skip (fun _ => False) added t t' where
  id := h.id
  round := h.round
  cancelled hstate := .inl (h.state ▸ hstate)
  unfinished hopen := h.state ▸ hopen
  deps _ d hd := .inr (.inr (.inr ⟨h.deps ▸ hd, fun h => h, fun hstuck => by
    simpa [Stuck, Task.blockedFor, h.state, h.block] using hstuck⟩))

/-- A task that is not stuck and stays unfinished, with the dependencies it had. -/
theorem fate_of_not_stuck (hid : t'.id = t.id) (hround : t'.round = t.round)
    (hdeps : t'.spec.deps = t.spec.deps) (hopen : t.state.isFinished = false)
    (hopen' : t'.state.isFinished = false) (hfree : ¬Stuck t) :
    Fate skip (fun _ => False) added t t' where
  id := hid
  round := hround
  cancelled hstate := by simp [hstate, TaskState.isFinished] at hopen'
  unfinished _ := hopen
  deps _ d hd := .inr (.inr (.inr ⟨hdeps ▸ hd, fun h => h, fun hstuck => absurd hstuck hfree⟩))

theorem AfterBatch.fate (h : AfterBatch t t') : Fate skip (fun _ => False) added t t' := by
  rcases h.state with hstate | ⟨hqueued, hpending⟩
  · have hplace : InPlace t t' :=
      ⟨h.id_eq, by rw [h.spec], hstate, h.block, h.round, .inl (by rw [h.spec]),
        fun _ => h.record⟩
    exact hplace.fate
  · refine fate_of_not_stuck h.id_eq h.round (by rw [h.spec]) ?_ ?_ fun hstuck => ?_
    · rw [hqueued]
      rfl
    · rw [hpending]
      rfl
    · rw [Stuck, hqueued] at hstuck
      cases hstuck.1

/-- The task at one place changes, the others stay. -/
theorem Held.modify {f : Task → Task} (h : Held skip tasks added) (ht : tasks[i]? = some t)
    (hadded : ∀ p ∈ added, p ∈ added') (hfate : Fate skip (fun _ => False) added' t (f t)) :
    Held skip (tasks.modify i f) added' := by
  refine h.forall₂ hadded (forall₂_modify (fun u _ => (InPlace.refl u).fate) fun u hu => ?_)
  rw [← Option.some.inj (ht.symm.trans hu)]
  exact hfate

theorem blockDependent_same :
    (Batch.blockDependent id t).id = t.id ∧ (Batch.blockDependent id t).round = t.round := by
  unfold Batch.blockDependent
  split
  exacts [⟨rfl, rfl⟩, ⟨rfl, rfl⟩]

theorem isFinished_blockDependent :
    (Batch.blockDependent id t).state.isFinished = t.state.isFinished := by
  unfold Batch.blockDependent
  split
  · rfl
  · next hopen =>
    have hstate : t.state.isFinished = false := by
      simp only [Bool.or_eq_true, not_or] at hopen
      simpa using hopen.1
    rw [hstate]
    rfl

/-- A cancel blocks every dependent. -/
theorem fate_blockDependent : Fate skip (· = id) added t (Batch.blockDependent id t) where
  id := blockDependent_same.1
  round := blockDependent_same.2
  cancelled hstate := by
    unfold Batch.blockDependent at hstate
    split at hstate
    · exact .inl hstate
    · cases hstate
  unfinished hopen := isFinished_blockDependent ▸ hopen
  deps hopen d hd := by
    rw [isFinished_blockDependent] at hopen
    unfold Batch.blockDependent at hd ⊢
    split at hd
    · next hnot =>
      have hid : id ∉ t.spec.deps := by simpa [hopen] using hnot
      rw [if_pos hnot]
      exact .inr (.inr (.inr ⟨hd, fun heq => hid (heq ▸ hd), fun hstuck => hstuck⟩))
    · next hdep =>
      rw [if_neg hdep]
      exact .inr (.inr (.inl ⟨rfl, rfl, rfl⟩))

theorem forall₂_fate_cancelIn (ht : tasks[i]? = some t) :
    List.Forall₂ (Fate skip (· = t.id) added) tasks (cancelIn tasks i t.id) := by
  refine (forall₂_cancelIn ht).imp fun u u' hu => ?_
  rcases hu with ⟨rfl, rfl⟩ | rfl
  · refine ⟨rfl, rfl, fun _ => .inr rfl, fun hopen => ?_, fun hopen => ?_⟩ <;>
      simp [TaskState.isFinished] at hopen
  · exact fate_blockDependent

theorem Held.cancelIn (h : Held skip tasks added) (ht : tasks[i]? = some t) :
    Held skip (cancelIn tasks i t.id) added :=
  h.forall₂ (fun _ hp => hp) (forall₂_fate_cancelIn ht)

/-! ## New tasks -/

theorem byId_append_left {l l' : List Task} (hx : byId l id = some x) :
    byId (l ++ l') id = some x := by
  rw [byId, List.find?_append]
  exact Option.or_eq_some_iff.2 (.inl hx)

theorem mem_of_byId (hx : byId tasks id = some x) : x ∈ tasks ∧ x.id = id :=
  ⟨List.mem_of_find?_eq_some hx, by simpa using List.find?_some hx⟩

/-- A new task is found by its id: an earlier task with it would shadow the new one. -/
theorem Unshadowed.byId_child {before children after : List Task}
    (h : Unshadowed (before ++ children ++ after)) {c : Task} (hc : c ∈ children)
    (hopen : ∀ c ∈ children, c.state.isFinished = false) :
    ∃ c' ∈ children, byId (before ++ children ++ after) c.id = some c' := by
  have hbefore : byId before c.id = none := by
    refine List.find?_eq_none.2 fun u hu => ?_
    have hpair := (List.pairwise_append.1 (List.pairwise_append.1 h).1).2.2 u hu c hc (hopen c hc)
    simpa using hpair
  have hsome : (byId children c.id).isSome := by
    rw [byId, List.find?_isSome]
    exact ⟨c, hc, by simp⟩
  obtain ⟨c', hc'⟩ := Option.isSome_iff_exists.1 hsome
  refine ⟨c', (mem_of_byId hc').1, byId_append_left ?_⟩
  rw [byId, List.find?_append, ← byId, hbefore]
  exact hc'

/-- New tasks come in at one place: whatever is found by another id was found before. -/
theorem Held.insert {before children after : List Task}
    (h : Held (· ∈ children.map Task.id) (before ++ after) added)
    (hunshadowed : Unshadowed (before ++ children ++ after))
    (hnew : ∀ c ∈ children, New added c) :
    Held (fun _ => False) (before ++ children ++ after) added := by
  have hopen : ∀ c ∈ children, c.state.isFinished = false := fun c hc => by
    rw [(hnew c hc).state]
    rfl
  intro t ht hunfinished d hd _ x hx hcancelled hround
  by_cases hchild : t ∈ children
  · exact .inr ((hnew t hchild).deps d hd)
  have hd' : d ∉ children.map Task.id := by
    intro hmem
    obtain ⟨c, hc, rfl⟩ := List.mem_map.1 hmem
    obtain ⟨c', hc', hfound⟩ := hunshadowed.byId_child hc hopen
    obtain rfl := Option.some.inj (hfound.symm.trans hx)
    rw [(hnew c' hc').state] at hcancelled
    cases hcancelled
  refine h t ?_ hunfinished d hd hd' x ?_ hcancelled hround
  · simp only [List.mem_append] at ht ⊢
    tauto
  · have hnone : byId children d = none := by
      refine List.find?_eq_none.2 fun c hc heq => hd' (List.mem_map.2 ⟨c, hc, by simpa using heq⟩)
    unfold byId at hx hnone ⊢
    rw [List.find?_append, List.find?_append, hnone, Option.or_none] at hx
    rw [List.find?_append]
    exact hx

theorem Held.mono (h : Held (fun _ => False) tasks added) (hadded : ∀ p ∈ added, p ∈ added') :
    Held skip tasks added' := by
  intro t ht hopen d hd _ x hx hcancelled hround
  rcases h t ht hopen d hd (fun h => h) x hx hcancelled hround with hstuck | hin
  exacts [.inl hstuck, .inr (hadded _ hin)]

theorem replaceDep_same (children : List String) :
    (Batch.replaceDep id children t).id = t.id ∧ (Batch.replaceDep id children t).state = t.state := by
  unfold Batch.replaceDep
  split
  exacts [⟨rfl, rfl⟩, ⟨rfl, rfl⟩]

/-- The dependents of a split task depend on its children. -/
theorem fate_replaceDep {children : List String} :
    Fate (· ∈ children) (fun _ => False) added t (Batch.replaceDep id children t) := by
  unfold Batch.replaceDep
  split
  · exact (InPlace.refl t).fate
  · refine ⟨rfl, rfl, fun hstate => .inl hstate, fun hopen => hopen, fun _ d hd => ?_⟩
    obtain ⟨d₀, hd₀, hmem⟩ := List.mem_flatMap.1 (List.mem_eraseDups.1 hd)
    split at hmem
    · exact .inl hmem
    · obtain rfl := List.mem_singleton.1 hmem
      exact .inr (.inr (.inr ⟨hd₀, fun h => h, fun hstuck => hstuck⟩))

/-! ## What the moves keep -/

theorem Held.move (hmove : Move d new d') (hunshadowed : Unshadowed d'.tasks)
    (h : Held (fun _ => False) d.tasks d.addedDeps) :
    Held (fun _ => False) d'.tasks d'.addedDeps := by
  cases hmove with
  | place hplace hadded => exact h.forall₂ hadded (hplace.imp fun _ _ hu => hu.fate)
  | works ht hstate =>
    -- neither an answer nor a message lifts the block of a task that is stuck
    refine h.modify ht (fun _ hp => hp) (fate_of_not_stuck rfl rfl rfl ?_ rfl ?_)
    · rcases hstate with hstate | ⟨hstate, -⟩ <;> rw [hstate] <;> rfl
    · rintro ⟨hblocked, hquestion, hpause⟩
      rcases hstate with hstate | ⟨-, hstate | hstate⟩
      · rw [hstate] at hblocked
        cases hblocked
      · simp [hquestion] at hstate
      · simp [hpause] at hstate
  | pauses ht hstate hblock =>
    refine h.modify ht (fun _ hp => hp) (fate_of_not_stuck rfl rfl rfl ?_ rfl ?_)
    · rcases hstate with hstate | hstate
      · rw [hstate]
        rfl
      · simp only [Task.isPaused, Bool.and_eq_true, decide_eq_true_eq] at hstate
        rw [hstate.1]
        rfl
    · rintro ⟨hblocked, -, hpause⟩
      rcases hstate with hstate | hstate
      · rw [hstate] at hblocked
        cases hblocked
      · simp [Task.isPaused, hpause] at hstate
  | cancels ht hopen => exact h.cancelIn ht.1
  | adds ht htasks hadded =>
    rw [htasks, ← List.append_nil (_ ++ _)] at hunshadowed ⊢
    refine Held.insert ?_ hunshadowed fun c hc => List.mem_singleton.1 hc ▸ ht
    rw [List.append_nil]
    exact h.mono hadded
  | redeps ht hopen htasks hid hround hstage hstate hdeps hadded =>
    rw [htasks]
    -- a dependency is one the batch added, or an old one of a task that stays as blocked as it was
    refine h.modify ht hadded ⟨hid, hround, fun hcancelled => ?_, fun _ => hopen, fun _ d₀ hd₀ => ?_⟩
    · rcases hstate with ⟨hstate, -⟩ | hstate
      · exact .inl (hstate ▸ hcancelled)
      · rw [hstate] at hcancelled
        cases hcancelled
    · rcases hdeps d₀ hd₀ with hnew | ⟨hold, hsame, hblock⟩
      · exact .inr (.inl (hid ▸ hnew))
      · refine .inr (.inr (.inr ⟨hold, fun h => h, fun hstuck => ?_⟩))
        simpa [Stuck, Task.blockedFor, hsame, hblock] using hstuck
  | @splits _ i t children tasks ht hopen hchildren hparent htasks hadded =>
    -- the children are in for the parent wherever it was named, and are no part of the plan yet
    have hreplaced : Held (· ∈ children.map Task.id)
        (d.tasks.map (Batch.replaceDep t.id (children.map Task.id))) d'.addedDeps :=
      (h.mono hadded).forall₂ (fun _ hp => hp) (forall₂_map fun u _ => fate_replaceDep)
    -- the parent goes as by a cancel, unless it was finished
    have hcancelled : Held (· ∈ children.map Task.id) tasks d'.addedDeps := by
      rcases hparent with rfl | hplace
      · have hid : (Batch.replaceDep t.id (children.map Task.id) t).id = t.id :=
          (replaceDep_same _).1
        have hplace : (d.tasks.map (Batch.replaceDep t.id (children.map Task.id)))[i]? =
            some (Batch.replaceDep t.id (children.map Task.id) t) := by
          rw [List.getElem?_map, ht.1]
          rfl
        have hcancel := hreplaced.cancelIn hplace
        rwa [hid] at hcancel
      · exact hreplaced.forall₂ (fun _ hp => hp) (hplace.imp fun _ _ hu => hu.fate)
    rw [htasks] at hunshadowed ⊢
    refine Held.insert ?_ hunshadowed hchildren
    rwa [List.take_append_drop]

theorem Unshadowed.forall₂ {R : Task → Task → Prop} (htasks : List.Forall₂ R tasks tasks')
    (hR : ∀ u u', R u u' → u'.id = u.id ∧
      (u.state.isFinished = false → u'.state.isFinished = false))
    (h : Unshadowed tasks') : Unshadowed tasks := by
  refine pairwise_of_forall₂ htasks (fun u v u' v' hu hv hpair hopen => ?_) h
  have hne := hpair ((hR v v' hv).2 hopen)
  rwa [(hR u u' hu).1, (hR v v' hv).1] at hne

theorem Unshadowed.modify {f : Task → Task} (ht : tasks[i]? = some t) (hid : (f t).id = t.id)
    (hopen : (f t).state.isFinished = false) (h : Unshadowed (tasks.modify i f)) :
    Unshadowed tasks := by
  refine h.forall₂ (forall₂_modify (R := fun u u' => u'.id = u.id ∧
    (u.state.isFinished = false → u'.state.isFinished = false)) (fun u _ => ⟨rfl, fun h => h⟩)
    fun u hu => ?_) fun u u' hu => hu
  rw [← Option.some.inj (ht.symm.trans hu)]
  exact ⟨hid, fun _ => hopen⟩

theorem unshadowed_iff : Unshadowed tasks ↔ ∀ (j k : ℕ) (u v : Task), j < k → tasks[j]? = some u →
    tasks[k]? = some v → v.state.isFinished = false → u.id ≠ v.id :=
  pairwise_iff_getElem?

/-- Only the first task with an id is cancelled, so a shadowed one stays shadowed. -/
theorem Unshadowed.cancelIn (ht : FirstAt tasks i t) (h : Unshadowed (cancelIn tasks i t.id)) :
    Unshadowed tasks := by
  rw [unshadowed_iff] at h ⊢
  intro j k u v hlt hu hv hopen
  by_cases hk : k = i
  · subst hk
    rw [Option.some.inj (hv.symm.trans ht.1)]
    exact ht.2 u (mem_take_of_lt hlt hu)
  · obtain ⟨u', hu', hcases⟩ := getElem?_of_forall₂ (forall₂_cancelIn ht.1) hu
    have hid : u'.id = u.id := by
      rcases hcases with ⟨-, rfl⟩ | rfl
      exacts [rfl, blockDependent_same.1]
    have hv' : (Plan.cancelIn tasks i t.id)[k]? = some (Batch.blockDependent t.id v) := by
      rw [getElem?_cancelIn_of_ne hk, hv]
      rfl
    have hne := h j k u' _ hlt hu' hv' (by rwa [isFinished_blockDependent])
    rwa [hid, blockDependent_same.1] at hne

/-- A task shadowed before a move is shadowed after it. -/
theorem Unshadowed.move (hmove : Move d new d') (h : Unshadowed d'.tasks) : Unshadowed d.tasks := by
  have hplaces : ∀ {tasks tasks' : List Task}, List.Forall₂ InPlace tasks tasks' →
      Unshadowed tasks' → Unshadowed tasks := fun hplace hafter =>
    hafter.forall₂ hplace fun u u' hu => ⟨hu.id, fun hopen => hu.state ▸ hopen⟩
  cases hmove with
  | place hplace hadded => exact hplaces hplace h
  | works ht hstate => exact h.modify ht rfl rfl
  | pauses ht hstate hblock => exact h.modify ht rfl rfl
  | cancels ht hopen => exact h.cancelIn ht
  | adds ht htasks hadded =>
    rw [htasks] at h
    exact h.sublist (List.sublist_append_left ..)
  | redeps ht hopen htasks hid hround hstage hstate hdeps hadded =>
    rw [htasks] at h
    refine h.modify ht hid ?_
    rcases hstate with ⟨hstate, -⟩ | hstate
    · rwa [hstate]
    · rw [hstate]
      rfl
  | @splits _ i t children tasks ht hopen hchildren hparent htasks hadded =>
    have hkept : Unshadowed tasks := by
      rw [htasks] at h
      rw [← List.take_append_drop (i + 1) tasks]
      exact h.sublist ((List.sublist_append_left ..).append (.refl _))
    -- what the split does to the other tasks changes neither an id nor a state
    have hreplaced : Unshadowed (d.tasks.map (Batch.replaceDep t.id (children.map Task.id))) := by
      rcases hparent with rfl | hplace
      · have hfirst : FirstAt (d.tasks.map (Batch.replaceDep t.id (children.map Task.id))) i
            (Batch.replaceDep t.id (children.map Task.id) t) := by
          refine ⟨by rw [List.getElem?_map, ht.1]; rfl, fun u hu => ?_⟩
          rw [← List.map_take] at hu
          obtain ⟨v, hv, rfl⟩ := List.mem_map.1 hu
          rw [(replaceDep_same _).1, (replaceDep_same _).1]
          exact ht.2 v hv
        refine Unshadowed.cancelIn hfirst ?_
        rwa [(replaceDep_same _).1]
      · exact hplaces hplace hkept
    refine hreplaced.forall₂ (forall₂_map (R := fun u u' => u'.id = u.id ∧ u'.state = u.state)
      fun u _ => replaceDep_same _) fun u u' hu => ⟨hu.1, fun hopen => ?_⟩
    rwa [hu.2]

/-- What the moves of a batch keep, if no task is shadowed at its end. -/
theorem Held.moves (hmoves : Moves d news d') (hunshadowed : Unshadowed d'.tasks) :
    Unshadowed d.tasks ∧ (Held (fun _ => False) d.tasks d.addedDeps →
      Held (fun _ => False) d'.tasks d'.addedDeps) := by
  induction hmoves with
  | refl => exact ⟨hunshadowed, fun h => h⟩
  | step hmove _ ih =>
    obtain ⟨hmid, hheld⟩ := ih hunshadowed
    exact ⟨hmid.move hmove, fun h => hheld (h.move hmove hmid)⟩

/-! ## An accepted batch -/

/-- The rules of the plan: no unfinished task has the id of an earlier one. -/
theorem unshadowed_of_validate {models : RunModels} {touched : List String}
    {addedDeps : Option (List (String × String))} {scope : EditScope} {maxTasks round : ℕ}
    (h : validateTasksWith models tasks touched addedDeps scope maxTasks round = []) :
    Unshadowed tasks := by
  refine unshadowed_iff.2 fun j k u v hlt hu hv hopen hid => ?_
  have hnil := taskErrors_eq_nil h hv (by simpa [Task.isActive] using hopen)
  simp only [taskErrors, List.append_eq_nil_iff, errorIf_eq_nil, decide_eq_false_iff_not] at hnil
  exact hnil.1.1.1.1 (List.mem_map.2 ⟨u, mem_take_of_lt hlt hu, hid⟩)

/-- The rules of the plan: a dependency the batch added is not on a cancelled task. -/
theorem not_added_of_validate {models : RunModels} {touched : List String} {scope : EditScope}
    {maxTasks round : ℕ} {dep : String}
    (h : validateTasksWith models tasks touched (some added) scope maxTasks round = [])
    (ht : t ∈ tasks) (hopen : t.state.isFinished = false) (hdep : dep ∈ t.spec.deps)
    (hx : byId tasks dep = some x) (hcancelled : x.state = .cancelled) (hround : t.round ≤ x.round) :
    (t.id, dep) ∉ added := by
  obtain ⟨k, hk⟩ := List.mem_iff_getElem?.1 ht
  have hnil := taskErrors_eq_nil h hk (by simpa [Task.isActive] using hopen)
  simp only [taskErrors, List.append_eq_nil_iff, depErrors, List.flatMap_eq_nil_iff] at hnil
  have hdepNil := hnil.1.1.1.2 dep hdep
  simpa [hx, hcancelled, hround] using hdepNil

/-- An accepted batch keeps every dependent of a cancelled task stuck. -/
theorem depStuck_applyEdits {L : Lib} {run run' : Run} {edits : List PlanEdit} {scope : EditScope}
    {source : EditSource} {now : ℕ} {consequences : List EditConsequence} (h : DepStuck run)
    (haccepted : applyEdits L run edits scope source now = .ok (run', consequences)) :
    DepStuck run' := by
  obtain ⟨-, herrors, hrules, -, rfl, -⟩ := applyEdits_eq_ok.1 haccepted
  simp only [batchErrors, List.append_eq_nil_iff] at hrules
  have hmoves := moves_runBatch herrors
  generalize runBatch L run edits source now = b at *
  have hstart : Held (fun _ => False) run.tasks [] := fun t ht hopen d hd _ x hx hcancelled hround =>
    .inl (h t ht hopen d hd x hx hcancelled hround)
  have hheld := (Held.moves hmoves (unshadowed_of_validate hrules.1.1)).2 hstart
  have hstuck : Held (fun _ => False) b.run.tasks [] := by
    intro t ht hopen d hd hskip x hx hcancelled hround
    refine (hheld t ht hopen d hd hskip x hx hcancelled hround).imp_right fun hin => ?_
    exact absurd hin (not_added_of_validate hrules.1.1 ht hopen hd hx hcancelled hround)
  have hsettled : Held (fun _ => False) (settleBatch b run).tasks [] := by
    exact hstuck.forall₂ (fun _ hp => hp) ((settleBatch_afterBatch b run).imp fun t t' ht => ht.fate)
  intro t ht hopen d hd x hx hcancelled hround
  exact (hsettled t ht hopen d hd (fun h => h) x hx hcancelled hround).resolve_right (by simp)

def sampleTask (id : String) (deps : List String) (state : TaskState) (block : Option BlockReason) :
    Task where
  spec := { id := id, title := "t", brief := "b", acceptance := ["done"], owns := [id], deps := deps }
  route := ⟨.claude, "opus", ""⟩
  branch := taskBranch "r" id
  state := state
  block := block.map fun reason => ⟨reason, "", false⟩

def sampleRun (tasks : List Task) : Run where
  id := "r"
  limits := { maxTasks := 10, models := { rows := fun _ => ⟨⟨.claude, some "opus"⟩, none, none⟩ } }
  tasks := tasks

def sampleLib : Lib := ⟨literalGlobset, fun text => text⟩

/-- The run that the user's edits lead to. -/
def edited (run : Run) (edits : List PlanEdit) : Run :=
  settleBatch (runBatch sampleLib run edits .user 0) run

/-- A task works, and the next one waits for it. -/
def waitingRun : Run := sampleRun [sampleTask "a" [] .working none, sampleTask "b" ["a"] .queued none]

/-- A cancel blocks the task that waits for the cancelled one. -/
theorem depStuck_applyEdits_cancel :
    DepStuck (edited waitingRun [.cancelTask "a"]) ∧
      (edited waitingRun [.cancelTask "a"]).tasks.map (fun t => (t.state, t.block.map (·.reason))) =
        [(.cancelled, none), (.blocked, some .depCancelled)] := by
  have haccepted : applyEdits sampleLib waitingRun [.cancelTask "a"] .run .user 0 =
      .ok (edited waitingRun [.cancelTask "a"], [.cancelLive "a"]) :=
    applyEdits_eq_ok.2 ⟨by decide, by decide, by decide, by decide, rfl, by decide⟩
  exact ⟨depStuck_applyEdits (by decide) haccepted, by decide⟩

/-- A task asks a question while the task it declares is cancelled. -/
def askingRun : Run :=
  sampleRun [sampleTask "a" [] .cancelled none, sampleTask "b" ["a"] .blocked (some .question)]

/-- An answer lets a task work whose dependency is cancelled. -/
theorem answered_not_depClean :
    DepClean askingRun ∧
    applyEdits sampleLib askingRun [.answer "b" "yes"] .run .user 0 =
      .ok (edited askingRun [.answer "b" "yes"],
        [.deliver "b" "[anthrex] Answer to your question: yes"]) ∧
    ¬DepClean (edited askingRun [.answer "b" "yes"]) := by
  refine ⟨by decide, ?_, by decide⟩
  exact applyEdits_eq_ok.2 ⟨by decide, by decide, by decide, by decide, rfl, by decide⟩

end Anthrex.Plan
