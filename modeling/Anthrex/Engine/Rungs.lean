import Anthrex.Engine.Runtimes
import Anthrex.Plan.Moves

/-!
# Amends and the rungs of a task

An amend resolves its task again, and is not to undo what the engine changed of it: the route
rung 2 escalated to, the size rung 3 raised (`reresolve` of `run/edits_amend.rs`, the rungs of
`run/engine/ladder.rs`). The size is recorded, and stays a floor. Whether the route is the
engine's is not recorded: it is told from what the spec resolves to, and that changes with the
amends before. So an escalated route that an earlier amend made the plan's goes with the next
amend (`amended_escalated`), and stays in every other run (`amended_run`).
-/

namespace Anthrex.Engine

open Anthrex.Run hiding id
open Anthrex.Plan Anthrex.Plan.Batch Anthrex.Globs Lists

/-! ## Rung 3 -/

def raisedNote : String := "size raised by rung 3 (decision 38)"

def maxOrchRetries : ℕ := 2

/-- What depends on the size is resolved again for the size the task has now. -/
def reresolveSize (L : Lib) (run : Run) (t : Task) : Task :=
  let resolved := (resolveTaskLenient L run.profile run.limits
    { t.spec with size := t.spec.size.max t.size }).1
  { t with
    reviewLevel := resolved.reviewLevel
    reviewRoute := resolved.reviewLevel.map fun _ => (run.models.reviewerRoute t.route).1
    budget := resolved.budget }

/-- The block of a task whose size was wrong, for the cause `text`. After the orchestrator's
    last retry the user decides. -/
def blockMisSized (text : String) (t : Task) : Task :=
  let capped : Bool := maxOrchRetries ≤ t.orchRetries
  let text := if capped then text ++ " · the orchestrator retried it " ++
    toString maxOrchRetries ++ " times; the user decides" else text
  { t with
    state := .blocked
    block := some ⟨.misSized, text, capped⟩
    rounds := t.rounds.map fun r => if r.stall.isInterrupted then { r with stall := .watching } else r }

/-- The size is raised one step, and the task blocked. -/
def rung3 (L : Lib) (run : Run) (i : ℕ) (text : String) : Run :=
  run.modifyTask i fun t =>
    let t := reresolveSize L run
      { t with size := t.size.raised, raisedSize := some t.size.raised, rung := 3 }
    let notes := if raisedNote ∈ t.notes then t.notes else t.notes ++ [raisedNote]
    blockMisSized text { t with freshSession := none, notes := notes }

/-! ## Runs of one task -/

/-- The specs agree in all that the resolution rests on. -/
structure SameResolving (a b : PlanTask) : Prop where
  routing : SameRouting a b
  testMode : a.testMode = b.testMode
  budget : a.budget = b.budget

/-- The task `t'` is `t` in all that was resolved for it, and has its notes. -/
structure Settled (t t' : Task) : Prop where
  spec : SameResolving t.spec t'.spec
  size : t'.size = t.size
  raisedSize : t'.raisedSize = t.raisedSize
  testMode : t'.testMode = t.testMode
  reviewLevel : t'.reviewLevel = t.reviewLevel
  budget : t'.budget = t.budget
  route : t'.route = t.route
  notes : t.notes ⊆ t'.notes

/-- The spec with the size that the engine raised the task to, at least. -/
def floored (spec : PlanTask) (raised : Option Size) : PlanTask :=
  { spec with size := spec.size.max (raised.getD .s) }

/-- A note that no rule writes when a task is resolved. -/
def EngineNote (note : String) : Prop :=
  ∀ (L : Lib) (profile : Profile) (limits : RunLimits) (spec : PlanTask),
    note ∉ (resolveTaskLenient L profile limits spec).1.notes

section Runs

variable (L : Lib) (ok : Run → Option Route → Task → Amend → Prop) (i : ℕ)

/-- The edits of a batch for the task at `i`: amends of it that meet `ok`, and others that keep
    what was resolved. Of a route that was chosen, what an amend that names one leaves. -/
inductive Batched : Batch → Option Route → List PlanEdit → Option Route → Prop
  | nil (b : Batch) (chosen : Option Route) : Batched b chosen [] chosen
  | amend {b : Batch} {chosen chosen' : Option Route} {t : Task} {a : Amend} {edits : List PlanEdit}
      (ht : b.run.tasks[i]? = some t) (hfirst : b.run.position t.id = some i)
      (hok : ok b.run chosen t (named b.source a))
      (h : Batched (b.apply L (.amendTask t.id a))
        (if (named b.source a).route.isSome then none else chosen) edits chosen') :
      Batched b chosen (.amendTask t.id a :: edits) chosen'
  | other {b : Batch} {chosen chosen' : Option Route} {t t' : Task} {edit : PlanEdit}
      {edits : List PlanEdit} (ht : b.run.tasks[i]? = some t)
      (ht' : (b.apply L edit).run.tasks[i]? = some t') (hsettled : Settled t t')
      (hprofile : (b.apply L edit).run.profile = b.run.profile)
      (hlimits : (b.apply L edit).run.limits = b.run.limits)
      (h : Batched (b.apply L edit) chosen edits chosen') : Batched b chosen (edit :: edits) chosen'

/-- The runs of the task at `i` from `start`: escalations, raises, accepted batches, and any other
    work that keeps what was resolved. `chosen` is the route of the last escalation, unless an
    amend has named one since; `added` are the notes of the engine. -/
inductive Reach (start : Run) : Run → Option Route → List String → Prop
  | start : Reach start start none []
  | rung2 {run : Run} {chosen : Option Route} {added : List String} {t : Task}
      (h : Reach start run chosen added) (ht : run.tasks[i]? = some t) :
      Reach start (rung2 run i t) (some (rung2Route run i t)) added
  | rung3 {run : Run} {chosen : Option Route} {added : List String}
      (h : Reach start run chosen added) (text : String) :
      Reach start (rung3 L run i text) chosen (raisedNote :: added)
  | edits {run run' : Run} {chosen chosen' : Option Route} {added : List String}
      {edits : List PlanEdit} {who : EditSource} {scope : EditScope} {now : ℕ}
      {consequences : List EditConsequence} (h : Reach start run chosen added)
      (haccepted : applyEdits L run edits scope who now = .ok (run', consequences))
      (hbatched : Batched L ok i { source := who, run := run, now := now } chosen edits chosen') :
      Reach start run' chosen' added
  | work {run run' : Run} {chosen : Option Route} {added more : List String} {t t' : Task}
      (h : Reach start run chosen added) (ht : run.tasks[i]? = some t)
      (ht' : run'.tasks[i]? = some t') (hsettled : Settled t t')
      (hmore : ∀ note ∈ more, EngineNote note ∧ note ∈ t'.notes)
      (hprofile : run'.profile = run.profile) (hlimits : run'.limits = run.limits) :
      Reach start run' chosen (more ++ added)

end Runs

/-- The task is as it was first resolved. -/
structure Fresh (L : Lib) (run : Run) (t : Task) : Prop where
  raisedSize : t.raisedSize = none
  testMode : t.testMode = (resolveTaskLenient L run.profile run.limits t.spec).1.testMode
  reviewLevel : t.reviewLevel = (resolveTaskLenient L run.profile run.limits t.spec).1.reviewLevel
  budget : t.budget = (resolveTaskLenient L run.profile run.limits t.spec).1.budget

/-- What the engine changed of the task is as it left it, and the rest is what its spec resolves
    to, at the size it was raised to at least. -/
structure Standing (L : Lib) (run : Run) (chosen : Option Route) (added : List String) (t : Task) :
    Prop where
  route : ∀ r ∈ chosen, t.route = r
  size : ∀ raised ∈ t.raisedSize, raised.rank ≤ t.size.rank
  notes : ∀ note ∈ added, EngineNote note ∧ note ∈ t.notes
  reviewLevel : t.reviewLevel =
    (resolveTaskLenient L run.profile run.limits (floored t.spec t.raisedSize)).1.reviewLevel
  budget : t.budget =
    (resolveTaskLenient L run.profile run.limits (floored t.spec t.raisedSize)).1.budget
  testMode : t.testMode =
    (resolveTaskLenient L run.profile run.limits (floored t.spec t.raisedSize)).1.testMode

/-- An amend that names no route finds an escalated task off the route its spec resolves to, or
    resolves it to the route it is on. -/
def KeepsRoute (L : Lib) (run : Run) (chosen : Option Route) (t : Task) (a : Amend) : Prop :=
  chosen.isSome → reresolves a → a.route = none →
    t.route ≠ plannedRoute L run.profile run.limits t.spec ∨
      plannedRoute L run.profile run.limits (floored (amendSpec a t.spec) t.raisedSize) = t.route

variable {L : Lib} {profile : Profile} {limits : RunLimits} {run run' start : Run} {i : ℕ}
  {t t' t'' : Task} {a b : PlanTask} {chosen : Option Route} {added : List String}

/-! ## What the resolution rests on -/

theorem SameResolving.refl (a : PlanTask) : SameResolving a a := ⟨.refl a, rfl, rfl⟩

theorem SameResolving.trans {c : PlanTask} (h : SameResolving a b) (h' : SameResolving b c) :
    SameResolving a c :=
  ⟨h.routing.trans h'.routing, h.testMode.trans h'.testMode, h.budget.trans h'.budget⟩

theorem SameResolving.floored (h : SameResolving a b) (raised : Option Size) :
    SameResolving (floored a raised) (floored b raised) where
  routing := { h.routing with size := by rw [Engine.floored, Engine.floored, h.routing.size] }
  testMode := h.testMode
  budget := h.budget

/-- The notes and errors of a test mode aside. -/
theorem mode_resolvedMode_congr (hkind : a.kind = b.kind) (hmode : a.testMode = b.testMode)
    (profile : Profile) (hub source : Bool) :
    (resolvedMode a profile hub source).mode = (resolvedMode b profile hub source).mode ∧
      (resolvedMode a profile hub source).rule83 = (resolvedMode b profile hub source).rule83 := by
  have hforced : (forcedMode a hub source).mode = (forcedMode b hub source).mode ∧
      (forcedMode a hub source).rule83 = (forcedMode b hub source).rule83 := by
    have hdeclared : declaredMode a = declaredMode b := by rw [declaredMode, declaredMode, hkind, hmode]
    unfold forcedMode
    rw [hkind, hdeclared]
    dsimp only
    split
    · exact ⟨rfl, rfl⟩
    · split
      · exact ⟨rfl, rfl⟩
      · exact ⟨rfl, rfl⟩
  unfold resolvedMode
  dsimp only
  rw [hforced.1]
  split
  · exact ⟨rfl, rfl⟩
  · split
    · exact ⟨rfl, hforced.2⟩
    · exact hforced

theorem SameResolving.resolved (h : SameResolving a b) (L : Lib) (profile : Profile)
    (limits : RunLimits) :
    (resolveTaskLenient L profile limits a).1.size = (resolveTaskLenient L profile limits b).1.size ∧
    (resolveTaskLenient L profile limits a).1.testMode =
      (resolveTaskLenient L profile limits b).1.testMode ∧
    (resolveTaskLenient L profile limits a).1.reviewLevel =
      (resolveTaskLenient L profile limits b).1.reviewLevel ∧
    (resolveTaskLenient L profile limits a).1.budget =
      (resolveTaskLenient L profile limits b).1.budget := by
  have hsize : resolvedSize a profile = resolvedSize b profile := resolvedSize_congr h.routing
  have hhub : isHub a profile = isHub b profile := isHub_congr h.routing
  have hmode := mode_resolvedMode_congr h.routing.kind h.testMode profile
  unfold resolveTaskLenient
  dsimp only
  rw [hsize, hhub, h.routing.owns, (hmode _ _).1, (hmode _ _).2]
  refine ⟨rfl, rfl, rfl, ?_⟩
  rw [resolvedBudget, resolvedBudget, h.budget, h.routing.id]

/-- The size of the spec decides nothing about its test mode. -/
theorem testMode_resolve_size (size : Size) :
    (resolveTaskLenient L profile limits { a with size := size }).1.testMode =
      (resolveTaskLenient L profile limits a).1.testMode :=
  (mode_resolvedMode_congr rfl rfl _ _ _).1

theorem rank_le_raiseSize (size target : Size) (why : String) :
    size.rank ≤ (raiseSize size target why).1.rank := by
  rw [raiseSize]
  split <;> rename_i h
  · exact h.le
  · exact le_rfl

/-- The rules only raise a size. -/
theorem rank_le_resolvedSize (a : PlanTask) : a.size.rank ≤ (resolvedSize a profile).1.rank := by
  have hspanned : a.size.rank ≤ (spannedSize a profile).1.rank := by
    unfold spannedSize
    split
    · exact le_rfl
    · split <;> exact rank_le_raiseSize _ _ _
  unfold resolvedSize
  dsimp only
  split
  · exact hspanned.trans (rank_le_raiseSize _ _ _)
  · exact hspanned

theorem rank_le_max (x y : Size) : y.rank ≤ (x.max y).rank := by cases x <;> cases y <;> decide

theorem eq_append_of_mem_raiseSize {size target : Size} {why note : String}
    (h : note ∈ (raiseSize size target why).2) : ∃ rest, note = "size raised from " ++ rest := by
  rw [raiseSize] at h
  split at h
  · refine ⟨size.label ++ (" to " ++ (target.label ++ (": " ++ why))), ?_⟩
    rw [List.mem_singleton.1 h]
    simp only [String.append_assoc]
  · cases h

theorem eq_append_of_mem_resolvedSize {note : String} (h : note ∈ (resolvedSize a profile).2) :
    ∃ rest, note = "size raised from " ++ rest := by
  have hspanned : note ∈ (spannedSize a profile).2 → ∃ rest, note = "size raised from " ++ rest := by
    unfold spannedSize
    split
    · exact nofun
    · split <;> exact eq_append_of_mem_raiseSize
  unfold resolvedSize at h
  dsimp only at h
  split at h
  · rcases List.mem_append.1 h with h | h
    · exact hspanned h
    · exact eq_append_of_mem_raiseSize h
  · exact hspanned h

theorem raisedNote_notMem_forcedMode (a : PlanTask) (hub source : Bool) :
    raisedNote ∉ (forcedMode a hub source).notes := by
  unfold forcedMode
  dsimp only
  split
  · decide
  · split
    · decide
    · exact List.not_mem_nil

theorem raisedNote_notMem : EngineNote raisedNote := by
  intro L profile limits a h
  rcases List.mem_append.1 h with h | h
  · obtain ⟨rest, hrest⟩ := eq_append_of_mem_resolvedSize h
    have hchars : raisedNote.toList[12]? = ("size raised from ".toList ++ rest.toList)[12]? := by
      rw [hrest, String.toList_append]
    rw [List.getElem?_append_left (by decide)] at hchars
    exact absurd hchars (by decide)
  · have hforced := raisedNote_notMem_forcedMode a (isHub a profile)
      (anyIntersect a.owns profile.source)
    unfold resolvedMode at h
    dsimp only at h
    split at h
    · exact (List.mem_append.1 h).elim hforced (by decide)
    · split at h
      · exact (List.mem_append.1 h).elim hforced (by decide)
      · exact hforced h

/-! ## Work that keeps what was resolved -/

theorem Settled.refl (t : Task) : Settled t t :=
  ⟨.refl _, rfl, rfl, rfl, rfl, rfl, rfl, fun _ h => h⟩

theorem Settled.trans (h : Settled t t') (h' : Settled t' t'') : Settled t t'' where
  spec := h.spec.trans h'.spec
  size := h'.size.trans h.size
  raisedSize := h'.raisedSize.trans h.raisedSize
  testMode := h'.testMode.trans h.testMode
  reviewLevel := h'.reviewLevel.trans h.reviewLevel
  budget := h'.budget.trans h.budget
  route := h'.route.trans h.route
  notes := fun _ hn => h'.notes (h.notes hn)

theorem Standing.settled (h : Standing L run chosen added t) (hsettled : Settled t t')
    (hprofile : run'.profile = run.profile) (hlimits : run'.limits = run.limits) :
    Standing L run' chosen added t' := by
  have hresolved := (hsettled.spec.floored t.raisedSize).resolved L run.profile run.limits
  rw [← hsettled.raisedSize] at hresolved
  constructor
  · rw [hsettled.route]
    exact h.route
  · rw [hsettled.raisedSize, hsettled.size]
    exact h.size
  · exact fun note hnote => ⟨(h.notes note hnote).1, hsettled.notes (h.notes note hnote).2⟩
  · rw [hsettled.reviewLevel, h.reviewLevel, hprofile, hlimits, ← hsettled.raisedSize,
      hresolved.2.2.1]
  · rw [hsettled.budget, h.budget, hprofile, hlimits, ← hsettled.raisedSize, hresolved.2.2.2]
  · rw [hsettled.testMode, h.testMode, hprofile, hlimits, ← hsettled.raisedSize, hresolved.2.1]

theorem Fresh.standing (h : Fresh L run t) : Standing L run none [] t := by
  have hfloored : floored t.spec t.raisedSize = t.spec := by
    rw [floored, h.raisedSize, Option.getD_none, max_s]
  constructor
  · exact fun r hr => absurd hr (Option.not_mem_none r)
  · rw [h.raisedSize]
    exact fun raised hraised => absurd hraised (Option.not_mem_none raised)
  · exact fun note hnote => absurd hnote List.not_mem_nil
  · rw [hfloored]
    exact h.reviewLevel
  · rw [hfloored]
    exact h.budget
  · rw [hfloored]
    exact h.testMode

/-- What follows a batch changes nothing that was resolved. -/
theorem settleBatch_settled (b : Batch) (run : Run) :
    List.Forall₂ Settled b.run.tasks (settleBatch b run).tasks := by
  have hnoted : List.Forall₂ Settled b.run.tasks (noteUnbacked b.run run b.source).tasks := by
    unfold noteUnbacked
    split
    · exact List.forall₂_same.2 fun t _ => .refl t
    · refine forall₂_map fun t _ => ?_
      split
      · exact { Settled.refl t with notes := fun n hn => List.mem_append_left _ hn }
      · exact .refl t
  have hfilled : ∀ tasks : List Task, List.Forall₂ Settled tasks (fillImplicit tasks) := by
    refine fun tasks => forall₂_of_getElem? length_fillImplicit fun i t t' ht ht' => ?_
    obtain ⟨u, deps, hu, -, rfl⟩ := List.getElem?_zipWith_eq_some.1 ht'
    obtain rfl := Option.some.inj (ht.symm.trans hu)
    exact { Settled.refl t with }
  have htrans : ∀ t u t', Settled t u → Settled u t' → Settled t t' := fun _ _ _ => .trans
  refine forall₂_trans htrans hnoted (forall₂_trans htrans (hfilled _) (forall₂_map fun t _ => ?_))
  split
  · exact { Settled.refl t with }
  · exact .refl t

/-! ## The rungs -/

theorem getElem?_modifyTask (run : Run) (f : Task → Task) (ht : run.tasks[i]? = some t) :
    (run.modifyTask i f).tasks[i]? = some (f t) := by
  rw [Run.modifyTask, List.getElem?_modify_eq, ht]
  rfl

theorem Standing.rung2 (h : Standing L run chosen added t) (r : Route)
    (hprofile : run'.profile = run.profile) (hlimits : run'.limits = run.limits) :
    Standing L run' (some r) added { t with route := r } := by
  obtain ⟨-, hsize, hnotes, hlevel, hbudget, hmode⟩ := h
  rw [← hprofile, ← hlimits] at hlevel hbudget hmode
  exact ⟨fun _ hr => Option.some.inj hr, hsize, hnotes, hlevel, hbudget, hmode⟩

/-- The raised size is the floor from then on. -/
theorem Standing.rung3 (h : Standing L run chosen added t) (ht : run.tasks[i]? = some t) (text : String) :
    ∃ t', (rung3 L run i text).tasks[i]? = some t' ∧
      Standing L (Engine.rung3 L run i text) chosen (raisedNote :: added) t' := by
  refine ⟨_, getElem?_modifyTask run _ ht, ?_⟩
  constructor
  · exact h.route
  · rintro raised ⟨⟩
    exact le_rfl
  · dsimp only [blockMisSized]
    split <;> rename_i hmem
    · exact List.forall_mem_cons.2 ⟨⟨raisedNote_notMem, hmem⟩, h.notes⟩
    · exact List.forall_mem_cons.2
        ⟨⟨raisedNote_notMem, List.mem_append_right _ (List.mem_singleton_self _)⟩,
          fun note hnote => ⟨(h.notes note hnote).1, List.mem_append_left _ (h.notes note hnote).2⟩⟩
  · rfl
  · rfl
  · exact h.testMode.trans ((testMode_resolve_size _).trans (testMode_resolve_size _).symm)

/-! ## Amends -/

/-- The task `t'` is `t` resolved again as amended. -/
structure Amended (L : Lib) (run : Run) (a : Amend) (t t' : Task) : Prop where
  spec : SameResolving (amendSpec a t.spec) t'.spec
  raisedSize : t'.raisedSize = t.raisedSize
  size : t'.size = (resolveTaskLenient L run.profile run.limits
    (floored (amendSpec a t.spec) t.raisedSize)).1.size
  testMode : t'.testMode = (resolveTaskLenient L run.profile run.limits
    (floored (amendSpec a t.spec) t.raisedSize)).1.testMode
  reviewLevel : t'.reviewLevel = (resolveTaskLenient L run.profile run.limits
    (floored (amendSpec a t.spec) t.raisedSize)).1.reviewLevel
  budget : t'.budget = (resolveTaskLenient L run.profile run.limits
    (floored (amendSpec a t.spec) t.raisedSize)).1.budget
  route : t'.route =
    if t.route ≠ plannedRoute L run.profile run.limits t.spec ∧ a.route = none then t.route
    else plannedRoute L run.profile run.limits (floored (amendSpec a t.spec) t.raisedSize)
  notes : ∀ n ∈ t.notes, n ∉ (resolveTaskLenient L run.profile run.limits t.spec).1.notes →
    n ∈ t'.notes

variable {amend : Amend} {batch : Batch}

theorem Amended.rests (h : Amended L run' amend t t') (hprofile : run'.profile = run.profile)
    (hlimits : run'.limits = run.limits) : Amended L run amend t t' := by
  obtain ⟨hspec, hraised, hsize, hmode, hlevel, hbudget, hroute, hnotes⟩ := h
  rw [hprofile, hlimits] at hsize hmode hlevel hbudget hroute hnotes
  exact ⟨hspec, hraised, hsize, hmode, hlevel, hbudget, hroute, hnotes⟩

theorem Amended.settled (h : Amended L run amend t t') (h' : Settled t' t'') :
    Amended L run amend t t'' where
  spec := h.spec.trans h'.spec
  raisedSize := h'.raisedSize.trans h.raisedSize
  size := h'.size.trans h.size
  testMode := h'.testMode.trans h.testMode
  reviewLevel := h'.reviewLevel.trans h.reviewLevel
  budget := h'.budget.trans h.budget
  route := h'.route.trans h.route
  notes := fun n hn hplanned => h'.notes (h.notes n hn hplanned)

theorem Standing.amended (h : Standing L run chosen added t) (hamended : Amended L run amend t t')
    (hre : reresolves amend) (hok : KeepsRoute L run chosen t amend)
    (hprofile : run'.profile = run.profile) (hlimits : run'.limits = run.limits) :
    Standing L run' (if amend.route.isSome then none else chosen) added t' := by
  have hresolved := (hamended.spec.floored t.raisedSize).resolved L run.profile run.limits
  constructor
  · -- the chosen route stays unless the amend names one
    intro r hr
    split at hr
    · cases hr
    · rename_i hnamed
      have hnone : amend.route = none := by simpa using hnamed
      rw [hamended.route, ← h.route r hr]
      split
      · rfl
      · rename_i hplan
        rcases hok (Option.isSome_of_mem hr) hre hnone with hoff | hon
        · exact absurd ⟨hoff, hnone⟩ hplan
        · exact hon
  · rw [hamended.raisedSize, hamended.size]
    intro raised hraised
    -- the size raised is a floor of the size asked for, and that one of the size resolved
    refine le_trans ?_ (rank_le_resolvedSize _)
    rw [floored, hraised, Option.getD_some]
    exact rank_le_max _ _
  · intro note hnote
    obtain ⟨hengine, hmem⟩ := h.notes note hnote
    exact ⟨hengine, hamended.notes note hmem (hengine _ _ _ _)⟩
  · rw [hamended.reviewLevel, hprofile, hlimits, hamended.raisedSize, hresolved.2.2.1]
  · rw [hamended.budget, hprofile, hlimits, hamended.raisedSize, hresolved.2.2.2]
  · rw [hamended.testMode, hprofile, hlimits, hamended.raisedSize, hresolved.2.1]

theorem mem_foldl_notes (engine notes : List String) :
    notes ⊆ engine.foldl (fun notes n => if n ∈ notes then notes else notes ++ [n]) notes ∧
      ∀ n ∈ engine, n ∈ engine.foldl (fun notes n => if n ∈ notes then notes else notes ++ [n]) notes := by
  induction engine generalizing notes with
  | nil => exact ⟨fun _ h => h, fun _ hn => absurd hn List.not_mem_nil⟩
  | cons m engine ih =>
    rw [List.foldl_cons]
    obtain ⟨hkept, hall⟩ := ih (if m ∈ notes then notes else notes ++ [m])
    have hm : notes ⊆ (if m ∈ notes then notes else notes ++ [m]) ∧
        m ∈ (if m ∈ notes then notes else notes ++ [m]) := by
      split <;> rename_i hmem
      · exact ⟨fun _ h => h, hmem⟩
      · exact ⟨fun _ h => List.mem_append_left _ h, List.mem_append_right _ (List.mem_singleton_self _)⟩
    exact ⟨fun n hn => hkept (hm.1 hn), List.forall_mem_cons.2 ⟨hkept hm.2, hall⟩⟩

theorem resolve_resolved (b : Batch) (spec : PlanTask) :
    (b.resolve L spec).2.testMode =
      (resolveTaskLenient L b.run.profile b.run.limits spec).1.testMode ∧
    (b.resolve L spec).2.reviewLevel =
      (resolveTaskLenient L b.run.profile b.run.limits spec).1.reviewLevel ∧
    (b.resolve L spec).2.budget =
      (resolveTaskLenient L b.run.profile b.run.limits spec).1.budget := by
  unfold Batch.resolve
  dsimp only
  obtain ⟨origin, fixes, heq⟩ := applyThreads_eq b.run.delivery
    { (resolveTaskLenient L b.run.profile b.run.limits spec).1 with
      branch := taskBranch b.run.id spec.id
      notes := (resolveTaskLenient L b.run.profile b.run.limits spec).1.notes ++
        protectedNotes L spec.owns b.run.protectedFiles }
    b.source ((b.run.task? spec.id).map (·.spec.addresses))
  rw [heq]
  exact ⟨rfl, rfl, rfl⟩

/-- A task as the plan resolves it. -/
theorem fresh_buildTask (run : Run) (spec : PlanTask) : Fresh L run (buildTask L run spec).1 :=
  ⟨rfl, rfl, rfl, rfl⟩

/-- A task as an edit resolves it. -/
theorem fresh_resolve (b : Batch) (spec : PlanTask) : Fresh L b.run (b.resolve L spec).2 := by
  have hfits := resolve_fits (L := L) b spec
  obtain ⟨hmode, hlevel, hbudget⟩ := resolve_resolved (L := L) b spec
  constructor
  · exact hfits.raisedSize
  · rw [hfits.spec]
    exact hmode
  · rw [hfits.spec]
    exact hlevel
  · rw [hfits.spec]
    exact hbudget

theorem reresolve_amended (ht : batch.run.tasks[i]? = some t) (a : Amend) :
    ∃ t', (batch.reresolve L i t (amendSpec a t.spec) a.route.isSome).run.tasks[i]? = some t' ∧
      Amended L batch.run a t t' := by
  have hfits := resolve_fits (L := L) batch (floored (amendSpec a t.spec) t.raisedSize)
  have hresolved := resolve_resolved (L := L) batch (floored (amendSpec a t.spec) t.raisedSize)
  refine ⟨_, getElem?_modifyTask _ _ ht, ?_⟩
  constructor
  · exact .refl _
  · rfl
  · exact hfits.size
  · exact hresolved.1
  · exact hresolved.2.1
  · exact hresolved.2.2
  · show (if (decide (t.route ≠ plannedRoute L batch.run.profile batch.run.limits t.spec) &&
      !a.route.isSome) = true then t.route else
        (batch.resolve L (floored (amendSpec a t.spec) t.raisedSize)).2.route) = _
    rw [hfits.route]
    simp
  · intro n hn hplanned
    exact (mem_foldl_notes _ _).2 n (List.mem_filter.2 ⟨hn, by simpa using hplanned⟩)

/-- An amend that names nothing the resolution rests on. -/
theorem respec_settled (ht : batch.run.tasks[i]? = some t) (a : Amend) (ha : reresolves a = false) :
    ∃ t', (batch.respec L i (amendSpec a t.spec)).run.tasks[i]? = some t' ∧ Settled t t' := by
  simp only [reresolves, Bool.or_eq_false_iff, Option.isSome_eq_false_iff,
    Option.isNone_iff_eq_none] at ha
  obtain ⟨⟨⟨hroute, hmode⟩, -⟩, hsize⟩ := ha
  have hfits := resolve_fits (L := L) batch (amendSpec a t.spec)
  refine ⟨_, getElem?_modifyTask _ _ ht, { Settled.refl t with spec := ?_ }⟩
  show SameResolving t.spec (batch.resolve L (amendSpec a t.spec)).2.spec
  rw [hfits.spec]
  exact ⟨⟨rfl, rfl, by simp [amendSpec, hsize], rfl, rfl, by simp [amendSpec, hroute], rfl⟩,
    by simp [amendSpec, hmode], rfl⟩

theorem amendDeps_settled (ht : batch.run.tasks[i]? = some t) (deps : List String) :
    ∃ t', (batch.amendDeps i deps).run.tasks[i]? = some t' ∧ Settled t t' := by
  have hspec : Settled t { t with spec := { t.spec with deps := deps.eraseDups } } :=
    { Settled.refl t with spec := ⟨⟨rfl, rfl, rfl, rfl, rfl, rfl, rfl⟩, rfl, rfl⟩ }
  unfold amendDeps
  rw [ht]
  dsimp only
  split
  · exact ⟨t, ht, .refl t⟩
  · refine ⟨_, getElem?_modifyTask _ _ ht, ?_⟩
    split
    · exact { hspec with }
    · exact hspec

theorem tellWorker_settled (ht : batch.run.tasks[i]? = some t) :
    ∃ t', (batch.tellWorker i).run.tasks[i]? = some t' ∧ Settled t t' := by
  unfold tellWorker
  rw [ht]
  dsimp only
  split
  · refine ⟨_, getElem?_modifyTask _ _ ht, ?_⟩
    unfold release
    split
    · exact { Settled.refl t with }
    · exact .refl t
  · exact ⟨t, ht, .refl t⟩

theorem amendAt_amended (ht : batch.run.tasks[i]? = some t) (a : Amend) :
    ∃ t', (batch.amendAt L i t a).run.tasks[i]? = some t' ∧
      if reresolves a then Amended L batch.run a t t' else Settled t t' := by
  have hspec : ∃ t', (if reresolves a then
      batch.reresolve L i t (amendSpec a t.spec) a.route.isSome
      else batch.respec L i (amendSpec a t.spec)).run.tasks[i]? = some t' ∧
        if reresolves a then Amended L batch.run a t t' else Settled t t' := by
    split <;> rename_i ha
    · exact reresolve_amended ht a
    · exact respec_settled ht a (eq_false_of_ne_true ha)
  have hstep : ∀ {t₁ t₂ : Task}, (if reresolves a then Amended L batch.run a t t₁ else Settled t t₁) →
      Settled t₁ t₂ → if reresolves a then Amended L batch.run a t t₂ else Settled t t₂ := by
    intro t₁ t₂ h h'
    split <;> rename_i ha
    · rw [if_pos ha] at h
      exact h.settled h'
    · rw [if_neg ha] at h
      exact h.trans h'
  -- the new dependencies and the word to the worker change nothing that was resolved
  unfold amendAt
  dsimp only
  generalize (if reresolves a then batch.reresolve L i t (amendSpec a t.spec) a.route.isSome
    else batch.respec L i (amendSpec a t.spec)) = b₁ at hspec ⊢
  obtain ⟨t₁, ht₁, h₁⟩ := hspec
  have hdeps : ∃ t₂, (a.deps.elim b₁ (b₁.amendDeps i)).run.tasks[i]? = some t₂ ∧ Settled t₁ t₂ := by
    cases a.deps with
    | none => exact ⟨t₁, ht₁, .refl t₁⟩
    | some deps => exact amendDeps_settled ht₁ deps
  obtain ⟨t₂, ht₂, h₂⟩ := hdeps
  split
  · obtain ⟨t₃, ht₃, h₃⟩ := tellWorker_settled ht₂
    exact ⟨t₃, ht₃, hstep h₁ (h₂.trans h₃)⟩
  · exact ⟨t₂, ht₂, hstep h₁ h₂⟩

theorem withTask_eq {id : String} {k : ℕ → Task → Batch} (ht : batch.run.tasks[i]? = some t)
    (hfirst : batch.run.position id = some i) : batch.withTask id k = k i t := by
  obtain ⟨hi, hid, hbefore⟩ := List.findIdx?_eq_some_iff_getElem.1 hfirst
  have hget : batch.run.tasks[i] = t := (List.getElem?_eq_some_iff.1 ht).2
  have hfind : batch.run.tasks.zipIdx.find? (·.1.id = id) = some (t, i) := by
    rw [List.find?_eq_some_iff_getElem]
    refine ⟨by simpa [hget] using hid, i, by simpa using hi, by simp [hget], fun j hj => ?_⟩
    simpa using hbefore j hj
  rw [withTask, hfind]

/-- What a task is resolved from besides its spec stays. -/
theorem amendAt_rests (b : Batch) (t : Task) (a : Amend) :
    (b.amendAt L i t a).run.profile = b.run.profile ∧
      (b.amendAt L i t a).run.limits = b.run.limits := by
  have hdeps : ∀ b₁ : Batch, Calm b₁ (a.deps.elim b₁ (b₁.amendDeps i)) := by
    intro b₁
    cases a.deps with
    | none => exact .refl b₁
    | some deps => exact amendDeps_calm b₁ i deps
  have htell : ∀ b₁ : Batch, Calm b₁
      (if a.brief.isSome || a.acceptance.isSome then b₁.tellWorker i else b₁) := by
    intro b₁
    split
    · exact tellWorker_calm b₁ i
    · exact .refl b₁
  have hspec : (if reresolves a then b.reresolve L i t (amendSpec a t.spec) a.route.isSome
      else b.respec L i (amendSpec a t.spec)).run.profile = b.run.profile ∧
      (if reresolves a then b.reresolve L i t (amendSpec a t.spec) a.route.isSome
        else b.respec L i (amendSpec a t.spec)).run.limits = b.run.limits := by
    split
    · exact ⟨rfl, rfl⟩
    · exact ⟨rfl, rfl⟩
  have hcalm := (hdeps (if reresolves a then
    b.reresolve L i t (amendSpec a t.spec) a.route.isSome
    else b.respec L i (amendSpec a t.spec))).trans (htell _)
  exact ⟨hcalm.profile.trans hspec.1, hcalm.limits.trans hspec.2⟩

/-- An amend that a batch took, of a task that it found at its place. -/
theorem amendTask_amended (ht : batch.run.tasks[i]? = some t)
    (hfirst : batch.run.position t.id = some i) (a : Amend)
    (herrors : (batch.amendTask L t.id a).errors = []) :
    ((batch.amendTask L t.id a).run.profile = batch.run.profile ∧
      (batch.amendTask L t.id a).run.limits = batch.run.limits) ∧
    ∃ t', (batch.amendTask L t.id a).run.tasks[i]? = some t' ∧
      if reresolves (named batch.source a) then Amended L batch.run (named batch.source a) t t'
      else Settled t t' := by
  have hnamed : (if a.route.isSome && batch.source ≠ .user then { a with route := none } else a) =
      named batch.source a := rfl
  unfold amendTask at herrors ⊢
  rw [withTask_eq ht hfirst] at herrors ⊢
  dsimp only at herrors ⊢
  rw [hnamed] at herrors ⊢
  obtain ⟨hignored, htasks⟩ := ignored_calm batch a.route (a.route.isSome && batch.source ≠ .user)
  generalize (if a.route.isSome && batch.source ≠ .user then a.route.elim batch batch.routeIgnored
    else batch) = b₁ at hignored htasks herrors ⊢
  rw [← htasks] at ht
  by_cases hamends : !amends (named batch.source a)
  · -- only the route was named, and it was dropped
    rw [if_pos hamends] at herrors ⊢
    have hempty : named batch.source a = {} := by simpa [amends] using hamends
    by_cases hdropped : a.route.isSome && batch.source ≠ .user
    · rw [if_pos hdropped, hempty]
      exact ⟨⟨hignored.profile, hignored.limits⟩, t, ht, .refl t⟩
    · rw [if_neg hdropped] at herrors
      exact absurd (List.append_eq_nil_iff.1 herrors).2 (List.cons_ne_nil _ _)
  · rw [if_neg hamends] at herrors ⊢
    by_cases hrefused : !(b₁.amendErrors L t.id t (named batch.source a)).isEmpty
    · rw [if_pos hrefused] at herrors
      -- a refused amend is an error
      rw [(List.append_eq_nil_iff.1 herrors).2] at hrefused
      cases hrefused
    · rw [if_neg hrefused]
      -- the amend goes on from the batch that noted a dropped route
      obtain ⟨hprofile, hlimits⟩ := amendAt_rests (L := L) (i := i) b₁ t (named batch.source a)
      refine ⟨⟨hprofile.trans hignored.profile, hlimits.trans hignored.limits⟩, ?_⟩
      obtain ⟨t', ht', h⟩ := amendAt_amended (L := L) ht (named batch.source a)
      refine ⟨t', ht', ?_⟩
      split <;> rename_i hre
      · rw [if_pos hre] at h
        exact h.rests hignored.profile hignored.limits
      · rw [if_neg hre] at h
        exact h

theorem Standing.amendTask (h : Standing L batch.run chosen added t) (ht : batch.run.tasks[i]? = some t)
    (hfirst : batch.run.position t.id = some i) {a : Amend}
    (hok : KeepsRoute L batch.run chosen t (named batch.source a))
    (herrors : (batch.amendTask L t.id a).errors = []) :
    ∃ t', (batch.amendTask L t.id a).run.tasks[i]? = some t' ∧
      Standing L (batch.amendTask L t.id a).run
        (if (named batch.source a).route.isSome then none else chosen) added t' := by
  obtain ⟨⟨hprofile, hlimits⟩, t', ht', hamended⟩ := amendTask_amended ht hfirst a herrors
  refine ⟨t', ht', ?_⟩
  split at hamended <;> rename_i hre
  · exact h.amended hamended hre hok hprofile hlimits
  · have hnone : (named batch.source a).route.isSome = false := by
      simp only [reresolves, Bool.or_eq_true, not_or, Bool.not_eq_true] at hre
      exact hre.1.1.1
    rw [hnone]
    exact h.settled hamended hprofile hlimits

theorem errors_eq_nil_of_foldl {edits : List PlanEdit} {b : Batch}
    (h : (edits.foldl (fun b edit => b.apply L edit) b).errors = []) : b.errors = [] := by
  induction edits generalizing b with
  | nil => exact h
  | cons edit edits ih => exact (apply_leads b edit (ih h)).1

/-- The edits of a batch that finds nothing wrong, one after the other. -/
theorem Batched.standing {b : Batch} {chosen' : Option Route} {edits : List PlanEdit}
    (h : Batched L (KeepsRoute L) i b chosen edits chosen')
    (herrors : (edits.foldl (fun b edit => b.apply L edit) b).errors = [])
    (ht : ∃ t, b.run.tasks[i]? = some t ∧ Standing L b.run chosen added t) :
    ∃ t, (edits.foldl (fun b edit => b.apply L edit) b).run.tasks[i]? = some t ∧
      Standing L (edits.foldl (fun b edit => b.apply L edit) b).run chosen' added t := by
  induction h with
  | nil => exact ht
  | amend ht' hfirst hok _ ih =>
    obtain ⟨t, ht, h⟩ := ht
    obtain rfl := Option.some.inj (ht'.symm.trans ht)
    exact ih herrors (h.amendTask ht hfirst hok (errors_eq_nil_of_foldl herrors))
  | other ht₀ ht' hsettled hprofile hlimits _ ih =>
    obtain ⟨t, ht, h⟩ := ht
    obtain rfl := Option.some.inj (ht₀.symm.trans ht)
    exact ih herrors ⟨_, ht', h.settled hsettled hprofile hlimits⟩

/-! ## Whole runs -/

/-- Work on the task that the engine writes no note of. -/
theorem Reach.modify {ok : Run → Option Route → Task → Amend → Prop} {f : Task → Task}
    (h : Reach L ok i start run chosen added) (ht : run.tasks[i]? = some t)
    (hsettled : Settled t (f t)) : Reach L ok i start (run.modifyTask i f) chosen added :=
  Reach.work h ht (getElem?_modifyTask run f ht) hsettled (List.forall_mem_nil _) rfl rfl

/-- A task that no amend took off an escalated route keeps what the engine changed of it, and is
    resolved for the rest from the spec it has now. -/
theorem amended_run (hstart : ∃ t, start.tasks[i]? = some t ∧ Fresh L start t)
    (h : Reach L (KeepsRoute L) i start run chosen added) :
    ∃ t, run.tasks[i]? = some t ∧ Standing L run chosen added t := by
  induction h with
  | start =>
    obtain ⟨t, ht, hfresh⟩ := hstart
    exact ⟨t, ht, hfresh.standing⟩
  | @rung2 run _ _ t _ ht ih =>
    obtain ⟨t', ht', h⟩ := ih
    obtain rfl := Option.some.inj (ht.symm.trans ht')
    exact ⟨_, getElem?_modifyTask run _ ht, h.rung2 _ rfl rfl⟩
  | rung3 _ text ih =>
    obtain ⟨t, ht, h⟩ := ih
    exact h.rung3 ht text
  | @edits run _ _ _ _ edits who _ now _ _ haccepted hbatched ih =>
    -- edit by edit, and what settles the batch changes nothing more
    obtain ⟨-, herrors, -, -, hsettled, -⟩ := applyEdits_eq_ok.1 haccepted
    obtain ⟨hlimits, hprofile, -⟩ := kept_of_applyEdits haccepted
    obtain ⟨t, ht, h⟩ := hbatched.standing herrors ih
    have hafter := settleBatch_settled (runBatch L run edits who now) run
    rw [hsettled] at hafter
    obtain ⟨t', ht', h'⟩ := getElem?_of_forall₂ hafter ht
    exact ⟨t', ht', h.settled h' hprofile hlimits⟩
  | work _ ht ht' hsettled hmore hprofile hlimits ih =>
    obtain ⟨t₀, ht₀, h⟩ := ih
    obtain rfl := Option.some.inj (ht.symm.trans ht₀)
    have hkept := h.settled hsettled hprofile hlimits
    exact ⟨_, ht', { hkept with notes := List.forall_mem_append.2 ⟨hmore, hkept.notes⟩ }⟩

/-! ## A task amended twice after its escalation -/

/-- Medium tasks are codex's, and all others fall back on its model. -/
def tieredBase : Run where
  id := "r"
  limits := {
    maxTasks := 10
    models := { rows := fun role =>
      if role = .implementerMedium then ⟨⟨.codex, some "gpt"⟩, none, none⟩
      else ⟨⟨.claude, some "opus"⟩, none, some ⟨.codex, some "gpt"⟩⟩ } }

def smallStart : Run :=
  { tieredBase with tasks := fillImplicit [(buildTask lib tieredBase (planned "a" ["src/**"])).1] }

/-- The task is worked on, and escalated. -/
def escalated : Run :=
  let working := smallStart.modifyTask 0 fun t => { t with state := .working }
  (working.tasks[0]?).elim working (working.rung2 0)

def raised : Run := rung3 lib escalated 0 "too large"

/-- The worker asks a question. -/
def asking : Run := escalated.modifyTask 0 fun t =>
  { t with state := .blocked, block := some ⟨.question, "which one?", false⟩ }

/-- The user amends the size of the task. -/
def resized (run : Run) (size : Size) : Run :=
  settleBatch (runBatch lib run [.amendTask "a" { size := some size }] .user 0) run

theorem fresh_smallStart : ∃ t, smallStart.tasks[0]? = some t ∧ Fresh lib smallStart t :=
  ⟨_, rfl, rfl, by decide, by decide, by decide⟩

theorem reach_escalated {ok : Run → Option Route → Task → Amend → Prop} :
    Reach lib ok 0 smallStart escalated (some ⟨.codex, "gpt", ""⟩) [] := by
  have hworking : Reach lib ok 0 smallStart
      (smallStart.modifyTask 0 fun t => { t with state := .working }) none [] :=
    Reach.modify .start rfl { Settled.refl _ with }
  exact .rung2 hworking rfl

theorem reach_resized {ok : Run → Option Route → Task → Amend → Prop} {run : Run}
    {chosen : Option Route} {added : List String} {size : Size} {t : Task}
    (h : Reach lib ok 0 smallStart run chosen added)
    (haccepted : applyEdits lib run [.amendTask "a" { size := some size }] .run .user 0 =
      .ok (resized run size, [])) (ht : run.tasks[0]? = some t) (hid : t.id = "a")
    (hok : ok run chosen t { size := some size }) :
    Reach lib ok 0 smallStart (resized run size) chosen added := by
  refine .edits h haccepted (hid ▸ .amend ht ?_ hok (.nil _ _))
  have hpos : 0 < run.tasks.length := (List.getElem?_eq_some_iff.1 ht).1
  rw [Run.position, List.findIdx?_eq_some_iff_getElem]
  refine ⟨hpos, ?_, nofun⟩
  rw [(List.getElem?_eq_some_iff.1 ht).2]
  exact decide_eq_true rfl

/-- The smaller size stays below the raised one, and the escalated route stays. -/
theorem amended_run_raised :
    ∃ t, (resized raised .s).tasks[0]? = some t ∧
      Standing lib (resized raised .s) (some ⟨.codex, "gpt", ""⟩) [raisedNote] t := by
  have haccepted : applyEdits lib raised [.amendTask "a" { size := some .s }] .run .user 0 =
      .ok (resized raised .s, []) :=
    applyEdits_eq_ok.2 ⟨by decide, by decide, by decide, by decide, rfl, by decide⟩
  have hreach : Reach lib (KeepsRoute lib) 0 smallStart (resized raised .s)
      (some ⟨.codex, "gpt", ""⟩) [raisedNote] := by
    refine reach_resized (reach_escalated.rung3 "too large") haccepted rfl rfl fun _ _ _ => ?_
    -- the plan of a small task is still claude's
    exact .inl (by decide)
  exact amended_run fresh_smallStart hreach

/-- The route of an escalation goes with the second amend: after the first the spec resolves to
    it. -/
theorem amended_escalated :
    (∃ t, smallStart.tasks[0]? = some t ∧ Fresh lib smallStart t) ∧
      Reach lib (fun _ _ _ _ => True) 0 smallStart (resized (resized asking .m) .s)
        (some ⟨.codex, "gpt", ""⟩) [] ∧
      ((resized (resized asking .m) .s).tasks.map fun t => t.route) = [⟨.claude, "opus", ""⟩] := by
  have hmedium : applyEdits lib asking [.amendTask "a" { size := some .m }] .run .user 0 =
      .ok (resized asking .m, []) :=
    applyEdits_eq_ok.2 ⟨by decide, by decide, by decide, by decide, rfl, by decide⟩
  have hsmall : applyEdits lib (resized asking .m) [.amendTask "a" { size := some .s }] .run .user 0 =
      .ok (resized (resized asking .m) .s, []) :=
    applyEdits_eq_ok.2 ⟨by decide, by decide, by decide, by decide, rfl, by decide⟩
  have hasking : Reach lib (fun _ _ _ _ => True) 0 smallStart asking
      (some ⟨.codex, "gpt", ""⟩) [] :=
    reach_escalated.modify rfl { Settled.refl _ with }
  exact ⟨fresh_smallStart,
    reach_resized (reach_resized hasking hmedium rfl rfl trivial) hsmall rfl rfl trivial, by decide⟩

end Anthrex.Engine
