import Anthrex.Data.Lists
import Anthrex.Plan.Edits

/-!
# Edits that leave the routes alone

A task that is `Same` has kept its place in the plan and its route; a batch is `Calm` while all
its tasks are. Most edits are: a cancel, an answer, a message, a refresh, a reply, a new
dependency, and what an amend does beside resolving its task.
-/

namespace Anthrex.Plan

open Anthrex.Run hiding id
open Anthrex.Globs Lists

/-! ## Tasks that stay as they are -/

/-- The task `t'` is `t` in all that its place in the plan and its route rest on, and is not
    finished only if `t` is not. -/
structure Same (t t' : Task) : Prop where
  spec : SameRouting t.spec t'.spec
  size : t.size = t'.size
  hub : t.hub = t'.hub
  route : t.route = t'.route
  raisedSize : t.raisedSize = t'.raisedSize
  active : t'.isActive → t.isActive

variable {t t' t'' : Task}

theorem Same.refl (t : Task) : Same t t := ⟨.refl _, rfl, rfl, rfl, rfl, fun h => h⟩

theorem Same.trans (h : Same t t') (h' : Same t' t'') : Same t t'' :=
  ⟨h.spec.trans h'.spec, h.size.trans h'.size, h.hub.trans h'.hub, h.route.trans h'.route,
    h.raisedSize.trans h'.raisedSize, fun hactive => h.active (h'.active hactive)⟩

theorem Same.id (h : Same t t') : t.id = t'.id := h.spec.id

theorem Same.plannedRuntime (models : RunModels) (h : Same t t') :
    plannedRuntime models t = plannedRuntime models t' := by
  unfold Plan.plannedRuntime RunModels.taskRole
  rw [h.spec.route, h.spec.kind, h.hub, h.size]

/-- Only the state changed, and the task was not finished. -/
theorem Same.of_state {state : TaskState} {block : Option BlockInfo} (h : t.isActive) :
    Same t { t with state := state, block := block } :=
  ⟨.refl _, rfl, rfl, rfl, rfl, fun _ => h⟩

theorem Same.cancelled (t : Task) : Same t { t with state := .cancelled, block := none } :=
  ⟨.refl _, rfl, rfl, rfl, rfl, fun h => by simp [Task.isActive, TaskState.isFinished] at h⟩

/-- Every task is one of the old ones. -/
def Kept (tasks tasks' : List Task) : Prop := ∀ t' ∈ tasks', ∃ t ∈ tasks, Same t t'

variable {tasks tasks' tasks'' : List Task} {i : ℕ} {f : Task → Task}

theorem Kept.refl (tasks : List Task) : Kept tasks tasks := fun t ht => ⟨t, ht, .refl t⟩

theorem Kept.trans (h : Kept tasks tasks') (h' : Kept tasks' tasks'') : Kept tasks tasks'' := by
  intro t'' ht''
  obtain ⟨t', ht', hsame'⟩ := h' t'' ht''
  obtain ⟨t, ht, hsame⟩ := h t' ht'
  exact ⟨t, ht, hsame.trans hsame'⟩

theorem Kept.map (h : ∀ t ∈ tasks, Same t (f t)) : Kept tasks (tasks.map f) := by
  intro t' ht'
  obtain ⟨t, ht, rfl⟩ := List.mem_map.1 ht'
  exact ⟨t, ht, h t ht⟩

theorem Kept.modify (h : ∀ t, tasks[i]? = some t → Same t (f t)) : Kept tasks (tasks.modify i f) := by
  intro t' ht'
  rcases mem_modify ht' with hmem | ⟨t, ht, rfl⟩
  · exact ⟨t', hmem, .refl t'⟩
  · exact ⟨t, List.mem_of_getElem? ht, h t ht⟩

/-! ## Edits that change no route -/

/-- The batch went on without a new task and without a new route. -/
structure Calm (b b' : Batch) : Prop where
  source : b'.source = b.source
  limits : b'.run.limits = b.run.limits
  profile : b'.run.profile = b.run.profile
  touched : ∀ id ∈ b.touched, id ∈ b'.touched
  kept : Kept b.run.tasks b'.run.tasks

variable {L : Lib} {b b' b'' : Batch} {id : String}

theorem Calm.refl (b : Batch) : Calm b b := ⟨rfl, rfl, rfl, fun _ h => h, .refl _⟩

theorem Calm.trans (h : Calm b b') (h' : Calm b' b'') : Calm b b'' :=
  ⟨h'.source.trans h.source, h'.limits.trans h.limits, h'.profile.trans h.profile,
    fun id hid => h'.touched id (h.touched id hid), h.kept.trans h'.kept⟩

theorem Calm.foldl {α : Type*} {g : Batch → α → Batch} (h : ∀ b x, Calm b (g b x)) (l : List α)
    (b : Batch) : Calm b (l.foldl g b) := by
  induction l generalizing b with
  | nil => exact .refl b
  | cons x l ih => exact (h b x).trans (ih (g b x))

namespace Batch

theorem fail_calm (b : Batch) (errors : List PlanError) : Calm b (b.fail errors) :=
  ⟨rfl, rfl, rfl, fun _ h => h, .refl _⟩

theorem consequence_calm (b : Batch) (c : EditConsequence) : Calm b (b.consequence c) :=
  ⟨rfl, rfl, rfl, fun _ h => h, .refl _⟩

theorem modifyTask_calm (h : ∀ t, b.run.tasks[i]? = some t → Same t (f t)) :
    Calm b (b.modifyTask i f) :=
  ⟨rfl, rfl, rfl, fun _ h => h, .modify h⟩

/-- Naming a task: it is not there, or it is the one given. -/
theorem withTask_cases {P : Batch → Prop} {k : ℕ → Task → Batch}
    (hfail : ∀ errors, P (b.fail errors))
    (hfound : ∀ i t, b.run.tasks[i]? = some t → t.id = id → P (k i t)) : P (b.withTask id k) := by
  unfold withTask
  split
  · rename_i t i hfind
    have hmem := List.mem_of_find?_eq_some hfind
    have hid := List.find?_some hfind
    exact hfound i t (List.mem_zipIdx_iff_getElem?.1 hmem) (by simpa using hid)
  · exact hfail _

theorem blockDependent_same (t : Task) : Same t (blockDependent id t) := by
  unfold blockDependent
  split
  · exact .refl t
  · rename_i hopen
    simp only [Bool.or_eq_true, not_or, Bool.not_eq_true] at hopen
    exact .of_state (by simp [Task.isActive, hopen.1])

theorem cancelAt_calm (b : Batch) (i : ℕ) (task : Task) : Calm b (b.cancelAt i task) := by
  unfold cancelAt
  split
  · exact modifyTask_calm fun t _ => ⟨.refl _, rfl, rfl, rfl, rfl, fun h => h⟩
  · have hlive : Calm b
        (if task.isLive || task.race.isSome then b.consequence (.cancelLive task.id) else b) := by
      split
      exacts [consequence_calm b _, .refl b]
    have hcancel := fun b : Batch => modifyTask_calm (b := b) (i := i)
      (f := fun t => { t with state := .cancelled, block := none }) fun t _ => Same.cancelled t
    refine (hlive.trans (hcancel _)).trans ⟨rfl, rfl, rfl, fun _ h => h, ?_⟩
    intro t' ht'
    obtain ⟨t, ht, rfl⟩ := List.mem_map.1 ht'
    refine ⟨t.1, (List.mem_zipIdx_iff_getElem?.1 ht |> List.mem_of_getElem?), ?_⟩
    split
    exacts [.refl t.1, blockDependent_same t.1]

theorem cancel_calm (b : Batch) (id : String) : Calm b (b.cancel id) := by
  refine withTask_cases (fail_calm b) fun i t ht _ => ?_
  split
  · exact fail_calm b _
  · split
    exacts [fail_calm b _, cancelAt_calm b i t]

theorem storeReplaces_calm (b : Batch) (newId : String) (ids : List String) :
    Calm b (b.storeReplaces newId ids) := by
  unfold storeReplaces
  split
  · exact modifyTask_calm fun t _ => ⟨.refl _, rfl, rfl, rfl, rfl, fun h => h⟩
  · exact .refl b

theorem cancelReplaced_calm (b : Batch) (id : String) : Calm b (b.cancelReplaced id) := by
  unfold cancelReplaced
  split
  · split
    exacts [cancelAt_calm b _ _, .refl b]
  · exact .refl b

theorem replaces_calm (b : Batch) (newId : String) (ids : List String) :
    Calm b (b.replaces newId ids) := by
  unfold replaces
  split
  · exact .refl b
  split
  · exact fail_calm b _
  dsimp only
  split
  · exact fail_calm b _
  split
  · exact .refl b
  refine (storeReplaces_calm b newId ids).trans ?_
  split
  · exact fail_calm _ _
  · exact .foldl cancelReplaced_calm ids _

theorem routeIgnored_calm (b : Batch) (sent : RouteSpec) : Calm b (b.routeIgnored sent) := by
  unfold routeIgnored
  split
  exacts [consequence_calm b _, .refl b]

theorem release_same (t : Task) : Same t (release t) := by
  unfold release
  split
  · rename_i hpaused
    have hblocked : t.state = .blocked := by
      simp only [Task.isPaused, Bool.and_eq_true, decide_eq_true_eq] at hpaused
      exact hpaused.1
    exact .of_state (by simp [Task.isActive, hblocked, TaskState.isFinished])
  · exact .refl t

theorem tellWorker_calm (b : Batch) (i : ℕ) : Calm b (b.tellWorker i) := by
  unfold tellWorker
  split
  · exact .refl b
  · split
    · exact (consequence_calm b _).trans (modifyTask_calm fun t _ => release_same t)
    · exact .refl b

/-- A task that may still change its dependencies is not finished. -/
theorem isActive_of_notStarted (h : t.notStarted) : t.isActive := by
  simp only [Task.notStarted, Task.isWaiting, Bool.and_eq_true, decide_eq_true_eq] at h
  have hstate := h.1.1
  simp only [List.mem_cons, List.not_mem_nil, or_false] at hstate
  rcases hstate with h | h | h <;> simp [Task.isActive, h, TaskState.isFinished]

theorem amendDeps_calm (b : Batch) (i : ℕ) (deps : List String) : Calm b (b.amendDeps i deps) := by
  unfold amendDeps
  split
  · exact .refl b
  rename_i task htask
  have hadd : Calm b { b with addedDeps := b.addedDeps ++ deps.map fun d => (task.id, d) } :=
    ⟨rfl, rfl, rfl, fun _ h => h, .refl _⟩
  dsimp only
  split
  · exact hadd.trans (fail_calm _ _)
  rename_i hwaits
  simp only [Bool.not_eq_true', Bool.not_eq_false] at hwaits
  refine hadd.trans (modifyTask_calm fun t ht => ?_)
  have hactive : t.isActive := by
    rw [← Option.some.inj (htask.symm.trans ht)]
    exact isActive_of_notStarted hwaits
  split
  · exact ⟨⟨rfl, rfl, rfl, rfl, rfl, rfl, rfl⟩, rfl, rfl, rfl, rfl, fun _ => hactive⟩
  · exact ⟨⟨rfl, rfl, rfl, rfl, rfl, rfl, rfl⟩, rfl, rfl, rfl, rfl, fun h => h⟩

theorem addDep_calm (b : Batch) (id dep : String) : Calm b (b.addDep id dep) := by
  refine withTask_cases (fail_calm b) fun i task _ _ => ?_
  dsimp only
  split
  · exact fail_calm b _
  split
  · exact fail_calm b _
  refine (modifyTask_calm (b := b) (i := i) fun t _ => ?_).trans
    ⟨rfl, rfl, rfl, fun _ h => List.mem_append_left _ h, .refl _⟩
  split
  · exact .refl t
  · exact ⟨⟨rfl, rfl, rfl, rfl, rfl, rfl, rfl⟩, rfl, rfl, rfl, rfl, fun h => h⟩

theorem answer_calm (b : Batch) (id text : String) : Calm b (b.answer id text) := by
  refine withTask_cases (fail_calm b) fun i task htask _ => ?_
  split
  · exact fail_calm b _
  rename_i hopen
  refine (modifyTask_calm fun t ht => ?_).trans (consequence_calm _ _)
  rw [Option.some.inj (ht.symm.trans htask)]
  refine .of_state ?_
  by_cases hworking : task.state = .working
  · simp [Task.isActive, hworking, TaskState.isFinished]
  · by_cases hblocked : task.state = .blocked
    · simp [Task.isActive, hblocked, TaskState.isFinished]
    · simp [hworking, hblocked] at hopen

theorem exists_of_applyRefresh {run run' : Run} {source : EditSource}
    (h : applyRefresh run id source = .ok run') :
    ∃ i, run' = run.modifyTask i fun t => { t with refresh := some .due } := by
  unfold applyRefresh at h
  split at h
  · cases h
  split at h
  · cases h
  · exact ⟨_, (Except.ok.inj h).symm⟩
  · cases h

theorem refresh_calm (b : Batch) (id : String) : Calm b (b.refresh id) := by
  unfold refresh
  split
  · exact fail_calm b _
  · rename_i run hrun
    obtain ⟨i, rfl⟩ := exists_of_applyRefresh hrun
    exact ⟨rfl, rfl, rfl, fun _ h => h,
      .modify fun t _ => ⟨.refl _, rfl, rfl, rfl, rfl, fun h => h⟩⟩

theorem reply_calm (b : Batch) (pr : ℕ) (thread body : String) : Calm b (b.reply pr thread body) := by
  unfold reply
  split
  · exact fail_calm b _
  · exact ⟨rfl, rfl, rfl, fun _ h => h, .refl _⟩

/-- A task takes a message in a state it can leave. -/
theorem isActive_of_takes {kind : MessageKind} {limit : ℕ} {how : Takes}
    (h : takes t kind limit = .ok how) : t.isActive := by
  have hhow : ∃ how, takesHow t kind = .ok how := by
    unfold takes at h
    split at h
    · cases h
    split at h
    · cases h
    split at h
    · cases h
    split at h
    · cases h
    · exact ⟨_, ‹_›⟩
  obtain ⟨how, hhow⟩ := hhow
  cases hstate : t.state <;>
    simp_all [takesHow, Task.isActive, Task.isPaused, TaskState.isFinished]

theorem takeMessage_same (m : TaskMessage) (how : Takes) (h : t.isActive) :
    Same t (takeMessage m how t) := by
  have hmessages : Same t { t with messages := t.messages ++ [m] } :=
    ⟨.refl _, rfl, rfl, rfl, rfl, fun h => h⟩
  unfold takeMessage
  have hreleased : Same t (if how = .release then release { t with messages := t.messages ++ [m] }
      else { t with messages := t.messages ++ [m] }) := by
    split
    exacts [hmessages.trans (release_same _), hmessages]
  dsimp only
  split
  · exact ⟨hreleased.spec, hreleased.size, hreleased.hub, hreleased.route, hreleased.raisedSize,
      fun _ => h⟩
  · exact hreleased

theorem isActive_takeMessage (m : TaskMessage) (how : Takes) (h : t.isActive) :
    (takeMessage m how t).isActive := by
  have hrelease : ∀ t : Task, t.isActive → (release t).isActive := by
    intro t h
    unfold release
    split
    · rfl
    · exact h
  unfold takeMessage
  dsimp only
  split
  · rfl
  split
  exacts [hrelease _ h, h]

/-- The takers of a message, each of them unfinished, take it in place. -/
theorem recordMessage_kept (m : TaskMessage) (takers : List (ℕ × Takes))
    (s : Run × MessageOutcome)
    (h : ∀ taker ∈ takers, ∀ t, s.1.tasks[taker.1]? = some t → t.isActive) :
    (takers.foldl (recordMessage m) s).1.limits = s.1.limits ∧
      (takers.foldl (recordMessage m) s).1.profile = s.1.profile ∧
      Kept s.1.tasks (takers.foldl (recordMessage m) s).1.tasks := by
  induction takers generalizing s with
  | nil => exact ⟨rfl, rfl, .refl _⟩
  | cons taker takers ih =>
    have hhead := h taker (List.mem_cons_self ..)
    obtain ⟨hlimits, hprofile, hkept⟩ := ih (recordMessage m s taker) fun next hnext t ht => by
      -- a position that takes the message twice is still unfinished the second time
      change (s.1.tasks.modify taker.1 (takeMessage m taker.2))[next.1]? = some t at ht
      rw [List.getElem?_modify] at ht
      obtain ⟨t₀, ht₀, rfl⟩ := Option.map_eq_some_iff.1 ht
      have hactive := h next (List.mem_cons_of_mem _ hnext) t₀ ht₀
      split
      exacts [isActive_takeMessage m _ hactive, hactive]
    refine ⟨hlimits, hprofile, Kept.trans ?_ hkept⟩
    exact .modify fun t ht => takeMessage_same m taker.2 (hhead t ht)

theorem isActive_of_planMessage {run : Run} {to' : MessageTarget} {kind : MessageKind} {limit : ℕ}
    {takers : List (ℕ × Takes)} {refused : List (String × String)}
    (h : planMessage run to' kind limit = .ok (takers, refused)) :
    ∀ taker ∈ takers, ∀ t, run.tasks[taker.1]? = some t → t.isActive := by
  unfold planMessage at h
  split at h
  · cases h
  dsimp only at h
  split at h
  · cases h
  simp only [Except.ok.injEq, Prod.mk.injEq] at h
  rintro taker htaker t ht
  rw [← h.1, List.mem_filterMap] at htaker
  obtain ⟨sorted, hsorted, hleft⟩ := htaker
  obtain ⟨id, -, rfl⟩ := List.mem_map.1 hsorted
  split at hleft
  · cases hleft
  split at hleft
  · rename_i i _ hpos how htakes
    cases hleft
    obtain ⟨t₀, ht₀, htakes⟩ := Option.map_eq_some_iff.1 htakes
    rw [← Option.some.inj (ht₀.symm.trans ht)]
    exact isActive_of_takes htakes
  · cases hleft
  · cases hleft

theorem message_calm (b : Batch) (to' : MessageTarget) (text : String) (kind : MessageKind) :
    Calm b (b.message to' text kind) := by
  unfold message
  split
  · exact fail_calm b _
  rename_i run outcome hsent
  unfold applyMessage at hsent
  dsimp only at hsent
  split at hsent
  · cases hsent
  split at hsent
  · cases hsent
  split at hsent
  · cases hsent
  rename_i takers refused hplan
  obtain ⟨hlimits, hprofile, hkept⟩ := recordMessage_kept
    ⟨b.now, b.source, kind, String.ofList (oneLine text.toList), false, none⟩ takers
    (b.run, { text := String.ofList (oneLine text.toList), refused := refused })
    (isActive_of_planMessage hplan)
  rw [Except.ok.inj hsent] at hlimits hprofile hkept
  exact ⟨rfl, hlimits, hprofile, fun _ h => h, hkept⟩

end Batch

end Anthrex.Plan
