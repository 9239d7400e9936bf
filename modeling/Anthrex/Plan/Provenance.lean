import Anthrex.Plan.Kept

/-!
# Where the tasks of a batch come from

Three edits do more than change a task in place: an added task and the tasks of a split are
new, and an amend of the route, the size or the test mode resolves its task again. Every task
a batch leads to is an old one that kept its route, or was `Placed` by one of these on the
route of its plan, and is then among the tasks the rules check.
-/

namespace Anthrex.Plan

open Anthrex.Run hiding id
open Anthrex.Globs Lists

variable {t t' : Task} {L : Lib} {b b' b'' : Batch} {id : String} {i : ℕ}

/-! ## Tasks on the route of their plan -/

/-- The task is a spec as it is resolved. -/
structure Fits (L : Lib) (profile : Profile) (limits : RunLimits) (planned : PlanTask) (t : Task) :
    Prop where
  spec : t.spec = planned
  size : t.size = (resolveTaskLenient L profile limits planned).1.size
  hub : t.hub = (resolveTaskLenient L profile limits planned).1.hub
  route : t.route = plannedRoute L profile limits planned
  raisedSize : t.raisedSize = none

/-- The task is on the route its plan resolves to, and on the runtime of that. -/
structure OnPlan (L : Lib) (profile : Profile) (limits : RunLimits) (t : Task) : Prop where
  route : t.route = plannedRoute L profile limits t.spec
  runtime : t.route.runtime = plannedRuntime limits.models t

variable {profile : Profile} {limits : RunLimits} {spec : PlanTask}

theorem runtime_plannedRoute (hspec : t.spec.route = spec.route) (hkind : t.spec.kind = spec.kind)
    (hsize : t.size = (resolveTaskLenient L profile limits spec).1.size)
    (hhub : t.hub = (resolveTaskLenient L profile limits spec).1.hub) :
    (plannedRoute L profile limits spec).runtime = plannedRuntime limits.models t := by
  refine runtime_resolveRoute hspec ?_
  rw [RunModels.taskRole, hkind, hsize, hhub]
  rfl

theorem Fits.onPlan (h : Fits L profile limits spec t) : OnPlan L profile limits t where
  route := by rw [h.route, h.spec]
  runtime := by
    rw [h.route]
    exact runtime_plannedRoute (by rw [h.spec]) (by rw [h.spec]) h.size h.hub

theorem OnPlan.same (h : OnPlan L profile limits t) (hsame : Same t t') :
    OnPlan L profile limits t' where
  route := by rw [← hsame.route, h.route, plannedRoute_congr hsame.spec]
  runtime := by rw [← hsame.route, h.runtime, hsame.plannedRuntime]

/-- The threads of a task say nothing of its route. -/
theorem applyThreads_eq (d : RunDelivery) (task : Task) (source : EditSource)
    (before : Option (List String)) :
    ∃ origin fixes, (applyThreads d task source before).2.1 =
      { task with origin := origin, fixes := fixes } := by
  have hsame : ∃ origin fixes, task = { task with origin := origin, fixes := fixes } :=
    ⟨task.origin, task.fixes, rfl⟩
  have haddresses : ∀ before, ∃ origin fixes, (addresses d task source before).2.1 =
      { task with origin := origin, fixes := fixes } := by
    intro before
    unfold addresses
    dsimp only
    split
    · exact hsame
    split
    · exact hsame
    · exact hsame
    · split
      exacts [hsame, ⟨_, _, rfl⟩]
  cases before with
  | none =>
    unfold applyThreads
    dsimp only
    split
    · exact hsame
    split
    exacts [hsame, haddresses []]
  | some before =>
    unfold applyThreads amendedThreads
    dsimp only
    split
    · exact hsame
    split
    · exact hsame
    split
    · exact hsame
    split
    exacts [⟨_, _, rfl⟩, haddresses before]

namespace Batch

theorem resolve_calm (b : Batch) (spec : PlanTask) : Calm b (b.resolve L spec).1 :=
  ⟨rfl, rfl, rfl, fun _ h => List.mem_append_left _ h, .refl _⟩

theorem mem_touched_resolve (b : Batch) (spec : PlanTask) :
    spec.id ∈ (b.resolve L spec).1.touched :=
  List.mem_append_right _ (List.mem_singleton_self _)

theorem resolve_fits (b : Batch) (spec : PlanTask) :
    Fits L b.run.profile b.run.limits spec (b.resolve L spec).2 := by
  unfold resolve
  dsimp only
  obtain ⟨origin, fixes, heq⟩ := applyThreads_eq b.run.delivery
    { (resolveTaskLenient L b.run.profile b.run.limits spec).1 with
      branch := taskBranch b.run.id spec.id
      notes := (resolveTaskLenient L b.run.profile b.run.limits spec).1.notes ++
        protectedNotes L spec.owns b.run.protectedFiles }
    b.source ((b.run.task? spec.id).map (·.spec.addresses))
  rw [heq]
  exact ⟨rfl, rfl, rfl, rfl, rfl⟩

end Batch

/-! ## Where a task comes from -/

/-- The tasks an edit plans anew. -/
def newSpecs : PlanEdit → List PlanTask
  | .addTask task _ => [task]
  | .splitTask _ into => into
  | _ => []

/-- What an amend names: only a user's names a route. -/
def named (source : EditSource) (a : Amend) : Amend :=
  if a.route.isSome && source ≠ .user then { a with route := none } else a

section Start

variable (L : Lib) (run : Run) (edits : List PlanEdit) (who : EditSource)

/-- Why a batch resolves a task: it is new, or an unfinished task of the run is amended. -/
inductive Puts (t : Task) : Prop
  | new (edit : PlanEdit) (hedit : edit ∈ edits) (spec : PlanTask) (hspec : spec ∈ newSpecs edit)
    (howns : t.spec.owns = spec.owns)
  | amended (a : Amend) (hedit : .amendTask t.id a ∈ edits)
    (hresolved : Batch.reresolves (named who a)) (old : Task) (hold : old ∈ run.tasks)
    (hactive : old.isActive) (hid : old.id = t.id) (howns : t.spec.owns = old.spec.owns)

/-- An amend that resolves its task again names a route for it, or finds it on the route of its
    plan. -/
def Renews : Prop :=
  ∀ id a, .amendTask id a ∈ edits → Batch.reresolves (named who a) →
    (named who a).route = none → ∀ t ∈ run.tasks, t.id = id →
      t.route = plannedRoute L run.profile run.limits t.spec

/-- The task was resolved by the batch. -/
structure Placed (b : Batch) (t : Task) : Prop where
  touched : t.id ∈ b.touched
  puts : Puts run edits who t
  raisedSize : t.raisedSize = none
  onPlan : Renews L run edits who → OnPlan L run.profile run.limits t

/-- The batch went on: every task is an old one, or was resolved by it. -/
structure Goes (b b' : Batch) : Prop where
  source : b'.source = b.source
  limits : b'.run.limits = b.run.limits
  profile : b'.run.profile = b.run.profile
  touched : ∀ id ∈ b.touched, id ∈ b'.touched
  tasks : ∀ t' ∈ b'.run.tasks,
    (∃ t ∈ b.run.tasks, Same t t') ∨ Placed L run edits who b' t'

end Start

variable {run : Run} {edits : List PlanEdit} {who : EditSource}

theorem Puts.same (h : Puts run edits who t) (hsame : Same t t') :
    Puts run edits who t' := by
  have hid := hsame.id
  cases h with
  | new edit hedit spec hspec howns =>
    exact .new edit hedit spec hspec (hsame.spec.owns.symm.trans howns)
  | amended a hedit hresolved old hold hactive hid' howns =>
    exact .amended a (hid ▸ hedit) hresolved old hold hactive (hid'.trans hid)
      (hsame.spec.owns.symm.trans howns)

theorem Placed.same (h : Placed L run edits who b t) (hsame : Same t t')
    (htouched : ∀ id ∈ b.touched, id ∈ b'.touched) : Placed L run edits who b' t' where
  touched := htouched _ (hsame.id ▸ h.touched)
  puts := h.puts.same hsame
  raisedSize := hsame.raisedSize.symm.trans h.raisedSize
  onPlan := fun hrenews => (h.onPlan hrenews).same hsame

theorem Calm.goes (h : Calm b b') : Goes L run edits who b b' :=
  ⟨h.source, h.limits, h.profile, h.touched, fun t' ht' => .inl (h.kept t' ht')⟩

theorem Goes.trans (h : Goes L run edits who b b') (h' : Goes L run edits who b' b'') :
    Goes L run edits who b b'' where
  source := h'.source.trans h.source
  limits := h'.limits.trans h.limits
  profile := h'.profile.trans h.profile
  touched := fun id hid => h'.touched id (h.touched id hid)
  tasks := by
    intro t'' ht''
    rcases h'.tasks t'' ht'' with ⟨t', ht', hsame'⟩ | hplaced
    · rcases h.tasks t' ht' with ⟨t, ht, hsame⟩ | hplaced
      · exact .inl ⟨t, ht, hsame.trans hsame'⟩
      · exact .inr (hplaced.same hsame' h'.touched)
    · exact .inr hplaced

/-- A new task of an edit, resolved. -/
theorem Fits.placed (h : Fits L run.profile run.limits spec t) {edit : PlanEdit}
    (hedit : edit ∈ edits) (hspec : ∃ planned ∈ newSpecs edit, spec.owns = planned.owns)
    (htouched : spec.id ∈ b.touched) :
    Placed L run edits who b t := by
  obtain ⟨planned, hplanned, howns⟩ := hspec
  refine ⟨?_, .new edit hedit planned hplanned ?_, h.raisedSize, fun _ => h.onPlan⟩
  · rw [Task.id, h.spec]
    exact htouched
  · rw [h.spec, howns]

/-! ## The edits that resolve a task -/

namespace Batch

variable {edit : PlanEdit} {into : List PlanTask}

theorem owned_calm (b : Batch) (spec : PlanTask) : Calm b (b.owned spec).1 := by
  unfold owned
  split
  · split
    exacts [fail_calm b _, .refl b]
  · exact .refl b

theorem owns_of_owned {own : PlanTask} (h : (b.owned spec).2 = some own) :
    own.owns = spec.owns := by
  unfold owned at h
  split at h
  · split at h
    · cases h
    · rw [← Option.some.inj h]
  · rw [← Option.some.inj h]

theorem unrouted_calm (b : Batch) (spec : PlanTask) : Calm b (b.unrouted spec).1 := by
  unfold unrouted
  split
  exacts [routeIgnored_calm b _, .refl b]

theorem owns_unrouted (b : Batch) (spec : PlanTask) : (b.unrouted spec).2.owns = spec.owns := by
  unfold unrouted
  split <;> rfl

theorem addDepsOf_calm (b : Batch) (task : Task) : Calm b (b.addDepsOf task) :=
  ⟨rfl, rfl, rfl, fun _ h => h, .refl _⟩

theorem addTask_goes (hlimits : b.run.limits = run.limits) (hprofile : b.run.profile = run.profile)
    (hedit : edit ∈ edits) (hspec : ∃ planned ∈ newSpecs edit, spec.owns = planned.owns) :
    Goes L run edits who b (b.addTask L spec) := by
  unfold addTask
  have howns := owns_unrouted b spec
  have hunrouted := unrouted_calm b spec
  generalize b.unrouted spec = unrouted at howns hunrouted ⊢
  obtain ⟨b₁, spec₁⟩ := unrouted
  dsimp only at howns hunrouted ⊢
  have hfail := hunrouted.trans (fail_calm b₁ (reservedNewId spec₁.id))
  have hresolve := hfail.trans (resolve_calm (L := L) _ spec₁)
  have hfits := resolve_fits (L := L) (b₁.fail (reservedNewId spec₁.id)) spec₁
  have htouched := mem_touched_resolve (L := L) (b₁.fail (reservedNewId spec₁.id)) spec₁
  rw [hfail.limits, hfail.profile, hlimits, hprofile] at hfits
  generalize (b₁.fail (reservedNewId spec₁.id)).resolve L spec₁ = resolved
    at hresolve hfits htouched ⊢
  refine hresolve.goes.trans ⟨rfl, rfl, rfl, fun _ h => h, fun t ht => ?_⟩
  rcases List.mem_append.1 ht with hold | hnew
  · exact .inl ⟨t, hold, .refl t⟩
  · rw [List.mem_singleton.1 hnew]
    exact .inr (hfits.placed hedit (howns ▸ hspec) htouched)

theorem addOwned_goes (hlimits : b.run.limits = run.limits)
    (hprofile : b.run.profile = run.profile) (hedit : edit ∈ edits) (hspec : spec ∈ newSpecs edit) :
    Goes L run edits who b (b.addOwned L spec) := by
  unfold addOwned
  have hcalm := owned_calm b spec
  have howns : ∀ own, (b.owned spec).2 = some own → own.owns = spec.owns :=
    fun _ => owns_of_owned
  generalize b.owned spec = owned at hcalm howns ⊢
  rcases owned with ⟨b₁, _ | own⟩
  · exact hcalm.goes
  · exact hcalm.goes.trans (addTask_goes (hcalm.limits.trans hlimits)
      (hcalm.profile.trans hprofile) hedit ⟨spec, hspec, howns own rfl⟩)

/-- A list gathered one by one while the batch goes on, each with what still holds of it at
    the end. -/
theorem gather {α β : Type} {g : Batch → α → Batch × β} {P : Batch → α → β → Prop}
    (hcalm : ∀ b x, Calm b (g b x).1) (hP : ∀ b x, P (g b x).1 x (g b x).2)
    (hkeep : ∀ {b b' : Batch} {x y}, Calm b b' → P b x y → P b' x y) (l : List α)
    (s : Batch × List β) :
    let r := l.foldl (fun s x => ((g s.1 x).1, s.2 ++ [(g s.1 x).2])) s
    Calm s.1 r.1 ∧ ∀ y ∈ r.2, y ∈ s.2 ∨ ∃ x ∈ l, P r.1 x y := by
  induction l generalizing s with
  | nil => exact ⟨.refl _, fun y hy => .inl hy⟩
  | cons x l ih =>
    obtain ⟨hrest, hmem⟩ := ih ((g s.1 x).1, s.2 ++ [(g s.1 x).2])
    refine ⟨(hcalm s.1 x).trans hrest, fun y hy => ?_⟩
    rcases hmem y hy with hold | ⟨z, hz, hPz⟩
    · rcases List.mem_append.1 hold with hs | hnew
      · exact .inl hs
      · rw [List.mem_singleton.1 hnew]
        exact .inr ⟨x, List.mem_cons_self .., hkeep hrest (hP s.1 x)⟩
    · exact .inr ⟨z, List.mem_cons_of_mem x hz, hPz⟩

theorem unroutedAll_calm (b : Batch) (specs : List PlanTask) :
    Calm b (b.unroutedAll specs).1 ∧
      ∀ own ∈ (b.unroutedAll specs).2, ∃ spec ∈ specs, own.owns = spec.owns := by
  obtain ⟨hcalm, hmem⟩ := gather (g := unrouted) (P := fun _ spec own => own.owns = spec.owns)
    unrouted_calm owns_unrouted (fun _ h => h) specs (b, [])
  exact ⟨hcalm, fun own hown => (hmem own hown).resolve_left List.not_mem_nil⟩

theorem resolveAll_calm (b : Batch) (specs : List PlanTask) :
    Calm b (b.resolveAll L specs).1 ∧
      ∀ c ∈ (b.resolveAll L specs).2, ∃ spec ∈ specs,
        Fits L b.run.profile b.run.limits spec c ∧ spec.id ∈ (b.resolveAll L specs).1.touched := by
  obtain ⟨hcalm, hmem⟩ := gather (g := resolve L)
    (P := fun b spec c => Fits L b.run.profile b.run.limits spec c ∧ spec.id ∈ b.touched)
    resolve_calm (fun b spec => ⟨resolve_fits b spec, mem_touched_resolve b spec⟩)
    (fun h hfits => by
      rw [h.profile, h.limits]
      exact ⟨hfits.1, h.touched _ hfits.2⟩) specs (b, [])
  refine ⟨hcalm, fun c hc => ?_⟩
  obtain ⟨spec, hspec, hfits, htouched⟩ := (hmem c hc).resolve_left List.not_mem_nil
  rw [hcalm.profile, hcalm.limits] at hfits
  exact ⟨spec, hspec, hfits, htouched⟩

theorem ownedAll_calm (b : Batch) (specs : List PlanTask) :
    Calm b (b.ownedAll specs).1 ∧ ∀ l, (b.ownedAll specs).2 = some l →
      ∀ own ∈ l, ∃ spec ∈ specs, own.owns = spec.owns := by
  have key : ∀ (specs : List PlanTask) (s : Batch × Option (List PlanTask)),
      let r := specs.foldl (fun s spec => ((s.1.owned spec).1,
        s.2.bind fun l => (s.1.owned spec).2.map fun own => l ++ [own])) s
      Calm s.1 r.1 ∧ ∀ l, r.2 = some l → ∃ l₀, s.2 = some l₀ ∧
        ∀ own ∈ l, own ∈ l₀ ∨ ∃ spec ∈ specs, own.owns = spec.owns := by
    intro specs
    induction specs with
    | nil => exact fun s => ⟨.refl _, fun l hl => ⟨l, hl, fun own hown => .inl hown⟩⟩
    | cons spec specs ih =>
      intro s
      obtain ⟨hcalm, hmem⟩ := ih ((s.1.owned spec).1,
        s.2.bind fun l => (s.1.owned spec).2.map fun own => l ++ [own])
      refine ⟨(owned_calm s.1 spec).trans hcalm, fun l hl => ?_⟩
      obtain ⟨l₁, hl₁, hown⟩ := hmem l hl
      obtain ⟨l₀, hl₀, hmap⟩ := Option.bind_eq_some_iff.1 hl₁
      obtain ⟨new, hnew, rfl⟩ := Option.map_eq_some_iff.1 hmap
      refine ⟨l₀, hl₀, fun own h => ?_⟩
      rcases hown own h with hold | ⟨spec', hspec', heq⟩
      · rcases List.mem_append.1 hold with hin | hin
        · exact .inl hin
        · rw [List.mem_singleton.1 hin]
          exact .inr ⟨spec, List.mem_cons_self .., owns_of_owned hnew⟩
      · exact .inr ⟨spec', List.mem_cons_of_mem spec hspec', heq⟩
  obtain ⟨hcalm, hmem⟩ := key specs (b, some [])
  refine ⟨hcalm, fun l hl own hown => ?_⟩
  obtain ⟨l₀, hl₀, hin⟩ := hmem l hl
  rw [← Option.some.inj hl₀] at hin
  exact (hin own hown).resolve_left List.not_mem_nil

theorem replaceDep_same (children : List String) (t : Task) : Same t (replaceDep id children t) := by
  unfold replaceDep
  split
  · exact .refl t
  · exact ⟨⟨rfl, rfl, rfl, rfl, rfl, rfl, rfl⟩, rfl, rfl, rfl, rfl, fun h => h⟩

theorem splitAt_goes (hlimits : b.run.limits = run.limits) (hprofile : b.run.profile = run.profile)
    (hedit : edit ∈ edits) (hinto : ∀ spec ∈ into, ∃ planned ∈ newSpecs edit,
      spec.owns = planned.owns) (i : ℕ) (task : Task) :
    Goes L run edits who b (b.splitAt L id into i task) := by
  unfold splitAt
  obtain ⟨hunrouted, howns⟩ := unroutedAll_calm b into
  generalize b.unroutedAll into = unrouted at hunrouted howns ⊢
  obtain ⟨b₁, specs⟩ := unrouted
  dsimp only at hunrouted howns ⊢
  generalize hplaced : specs.map (splitChild task.spec.stage) = placed
  have hfail := hunrouted.trans
    (fail_calm b₁ (placed.flatMap fun c => reservedNewId c.1.id ++ c.2))
  obtain ⟨hresolve, hfits⟩ := resolveAll_calm (L := L)
    (b₁.fail (placed.flatMap fun c => reservedNewId c.1.id ++ c.2)) (placed.map (·.1))
  rw [hfail.limits, hfail.profile, hlimits, hprofile] at hfits
  generalize (b₁.fail (placed.flatMap fun c => reservedNewId c.1.id ++ c.2)).resolveAll L
    (placed.map (·.1)) = resolved at hresolve hfits ⊢
  obtain ⟨b₂, children⟩ := resolved
  dsimp only at hresolve hfits ⊢
  have hdeps : Calm b₂ (children.foldl addDepsOf b₂) := .foldl addDepsOf_calm children b₂
  generalize children.foldl addDepsOf b₂ = b₃ at hdeps ⊢
  have hreplaced : Calm b₃ { b₃ with run := { b₃.run with
      tasks := b₃.run.tasks.map (replaceDep id (children.map Task.id)) } } :=
    ⟨rfl, rfl, rfl, fun _ h => h, .map fun t _ => replaceDep_same _ t⟩
  have hcancel := hreplaced.trans (cancelAt_calm _ i task)
  generalize cancelAt _ i task = b₄ at hcancel ⊢
  refine ((hfail.trans hresolve).trans (hdeps.trans hcancel)).goes.trans
    ⟨rfl, rfl, rfl, fun _ h => h, fun t ht => ?_⟩
  rcases List.mem_append.1 ht with hfirst | hlast
  · rcases List.mem_append.1 hfirst with hfirst | hchild
    · exact .inl ⟨t, List.mem_of_mem_take hfirst, .refl t⟩
    · obtain ⟨c, hc, rfl⟩ := List.mem_map.1 hchild
      obtain ⟨spec, hspec, hfits, htouched⟩ := hfits c hc
      -- a child owns what the spec it was split into owns
      have hspecs : ∃ planned ∈ newSpecs edit, spec.owns = planned.owns := by
        rw [← hplaced, List.map_map] at hspec
        obtain ⟨own, hown, rfl⟩ := List.mem_map.1 hspec
        obtain ⟨spec, hspec, heq⟩ := howns own hown
        obtain ⟨planned, hplanned, heq'⟩ := hinto spec hspec
        exact ⟨planned, hplanned, heq.trans heq'⟩
      have hchild : Fits L run.profile run.limits spec { c with replaces := [id] } :=
        ⟨hfits.spec, hfits.size, hfits.hub, hfits.route, hfits.raisedSize⟩
      exact .inr (hchild.placed hedit hspecs ((hdeps.trans hcancel).touched _ htouched))
  · exact .inl ⟨t, List.mem_of_mem_drop hlast, .refl t⟩

theorem splitOwned_goes (hlimits : b.run.limits = run.limits)
    (hprofile : b.run.profile = run.profile) (hedit : .splitTask id into ∈ edits) :
    Goes L run edits who b (b.splitOwned L id into) := by
  have hnone : ∀ b₁, b.ownedAll into = (b₁, none) → Goes L run edits who b b₁ := by
    intro b₁ heq
    have hcalm := (ownedAll_calm b into).1
    rw [heq] at hcalm
    exact hcalm.goes
  have hsome : ∀ b₁ own, b.ownedAll into = (b₁, some own) →
      Goes L run edits who b (b₁.split L id own) := by
    intro b₁ own heq
    obtain ⟨hcalm, howns⟩ := ownedAll_calm b into
    rw [heq] at hcalm howns
    refine hcalm.goes.trans (withTask_cases (fun _ => (fail_calm b₁ _).goes) fun i task _ _ => ?_)
    split
    · exact (fail_calm b₁ _).goes
    split
    · exact (fail_calm b₁ _).goes
    split
    · exact (fail_calm b₁ _).goes
    · exact splitAt_goes (hcalm.limits.trans hlimits) (hcalm.profile.trans hprofile) hedit
        (howns own rfl) i task
  refine withTask_cases (fun _ => (fail_calm b _).goes) fun i task _ _ => ?_
  dsimp only
  split
  · exact (fail_calm b _).goes
  split
  · -- only a sub-planner is refused a task that is not of its epic
    split
    · exact (fail_calm b _).goes
    split
    · exact hsome _ _ ‹_›
    · exact hnone _ ‹_›
  · rw [if_neg (by simp)]
    split
    · exact hsome _ _ ‹_›
    · exact hnone _ ‹_›

theorem max_s (size : Size) : size.max .s = size := by
  cases size <;> rfl

/-- An amend that names nothing a route rests on. -/
theorem respec_calm {a : Amend} (hi : b.run.tasks[i]? = some t) (ha : reresolves a = false) :
    Calm b (b.respec L i (amendSpec a t.spec)) := by
  simp only [reresolves, Bool.or_eq_false_iff, Option.isSome_eq_false_iff,
    Option.isNone_iff_eq_none] at ha
  obtain ⟨⟨⟨hroute, -⟩, -⟩, hsize⟩ := ha
  have hspec : SameRouting t.spec (amendSpec a t.spec) :=
    ⟨rfl, rfl, by simp [amendSpec, hsize], rfl, rfl, by simp [amendSpec, hroute], rfl⟩
  unfold respec
  have hcalm := resolve_calm (L := L) b (amendSpec a t.spec)
  have hfits := resolve_fits (L := L) b (amendSpec a t.spec)
  have htasks : (b.resolve L (amendSpec a t.spec)).1.run.tasks = b.run.tasks := rfl
  generalize b.resolve L (amendSpec a t.spec) = resolved at hcalm hfits htasks ⊢
  refine hcalm.trans (modifyTask_calm fun t' ht' => ?_)
  rw [htasks] at ht'
  rw [← Option.some.inj (hi.symm.trans ht'), hfits.spec]
  exact ⟨hspec, rfl, rfl, rfl, rfl, fun h => h⟩

/-- A task of the batch comes from the run, or was resolved by the batch. -/
theorem puts_amended {a : Amend} (hedit : .amendTask t.id a ∈ edits)
    (hresolved : reresolves (named who a)) (hactive : t.isActive)
    (hfrom : (∃ old ∈ run.tasks, Same old t) ∨ Placed L run edits who b t)
    (hid : t'.id = t.id) (howns : t'.spec.owns = t.spec.owns) : Puts run edits who t' := by
  rcases hfrom with ⟨old, hold, hsame⟩ | hplaced
  · exact .amended a (hid ▸ hedit) hresolved old hold (hsame.active hactive)
      (hsame.id.trans hid.symm) (howns.trans hsame.spec.owns.symm)
  · cases hplaced.puts with
    | new edit hedit spec hspec heq => exact .new edit hedit spec hspec (howns.trans heq)
    | amended a hedit hresolved old hold hactive hid' heq =>
      exact .amended a (hid ▸ hedit) hresolved old hold hactive (hid'.trans hid.symm)
        (howns.trans heq)

theorem reresolve_goes {a : Amend} (hlimits : b.run.limits = run.limits)
    (hprofile : b.run.profile = run.profile) (hi : b.run.tasks[i]? = some t)
    (hedit : .amendTask t.id a ∈ edits) (hresolved : reresolves (named who a))
    (hactive : t.isActive) (hsize : t.raisedSize = none)
    (hfrom : (∃ old ∈ run.tasks, Same old t) ∨ Placed L run edits who b t) :
    Goes L run edits who b
      (b.reresolve L i t (amendSpec (named who a) t.spec) (named who a).route.isSome) := by
  -- the size the engine raised to is the floor of the size resolved, and there is none
  have hfloor : { amendSpec (named who a) t.spec with
      size := (amendSpec (named who a) t.spec).size.max (t.raisedSize.getD .s) } =
      amendSpec (named who a) t.spec := by
    rw [hsize, Option.getD_none, max_s]
  unfold reresolve
  dsimp only
  rw [hfloor]
  have hcalm := resolve_calm (L := L) b (amendSpec (named who a) t.spec)
  have hfits := resolve_fits (L := L) b (amendSpec (named who a) t.spec)
  have htouched := mem_touched_resolve (L := L) b (amendSpec (named who a) t.spec)
  have htasks : (b.resolve L (amendSpec (named who a) t.spec)).1.run.tasks = b.run.tasks := rfl
  generalize b.resolve L (amendSpec (named who a) t.spec) = resolved
    at hcalm hfits htouched htasks ⊢
  obtain ⟨b₁, task⟩ := resolved
  dsimp only at hcalm hfits htouched htasks ⊢
  refine hcalm.goes.trans ⟨rfl, rfl, rfl, fun _ h => h, fun t' ht' => ?_⟩
  rcases mem_modify ht' with hmem | ⟨t₁, ht₁, rfl⟩
  · exact .inl ⟨t', hmem, .refl t'⟩
  rw [htasks] at ht₁
  obtain rfl : t = t₁ := Option.some.inj (hi.symm.trans ht₁)
  refine .inr ⟨htouched, puts_amended hedit hresolved hactive hfrom rfl rfl, hsize,
    fun hrenews => ?_⟩
  rw [hlimits, hprofile] at hfits ⊢
  -- the task takes the route it resolves to: the amend names one, or it was on its plan's
  have hroute : (if (decide (t.route ≠
      (resolveTaskLenient L run.profile run.limits t.spec).1.route) &&
        !(named who a).route.isSome) then t.route else task.route) = task.route := by
    refine if_neg ?_
    intro hkept
    simp only [Bool.and_eq_true, decide_eq_true_eq, Bool.not_eq_true', Option.isSome_eq_false_iff,
      Option.isNone_iff_eq_none] at hkept
    refine hkept.1 ?_
    rcases hfrom with ⟨old, hold, hsame⟩ | hplaced
    · rw [← hsame.route, hrenews t.id a hedit hresolved hkept.2 old hold hsame.id]
      exact plannedRoute_congr hsame.spec
    · exact (hplaced.onPlan hrenews).route
  refine ⟨?_, ?_⟩
  · show (if _ then _ else _) = _
    rw [hroute, hfits.route]
  · show (if _ then _ else _ : Route).runtime = _
    rw [hroute, hfits.route]
    exact runtime_plannedRoute rfl rfl hfits.size hfits.hub

theorem isActive_of_amendErrors {a : Amend} (h : (b.amendErrors L id t a).isEmpty) :
    t.isActive := by
  unfold amendErrors at h
  split at h
  · cases h
  · rename_i hactive
    simpa [Task.isActive] using hactive

theorem amendAt_goes {a : Amend} (hlimits : b.run.limits = run.limits)
    (hprofile : b.run.profile = run.profile) (hi : b.run.tasks[i]? = some t)
    (hedit : .amendTask t.id a ∈ edits) (hactive : t.isActive) (hsize : t.raisedSize = none)
    (hfrom : (∃ old ∈ run.tasks, Same old t) ∨ Placed L run edits who b t) :
    Goes L run edits who b (b.amendAt L i t (named who a)) := by
  unfold amendAt
  dsimp only
  have hresolved : Goes L run edits who b (if reresolves (named who a) then
      b.reresolve L i t (amendSpec (named who a) t.spec) (named who a).route.isSome
      else b.respec L i (amendSpec (named who a) t.spec)) := by
    split
    · rename_i hre
      exact reresolve_goes hlimits hprofile hi hedit hre hactive hsize hfrom
    · rename_i hre
      exact (respec_calm hi (by simpa using hre)).goes
  have hdeps : ∀ b : Batch, Calm b ((named who a).deps.elim b (b.amendDeps i)) := by
    intro b
    cases (named who a).deps with
    | none => exact .refl b
    | some deps => exact amendDeps_calm b i deps
  have htell : ∀ b : Batch, Calm b
      (if (named who a).brief.isSome || (named who a).acceptance.isSome then b.tellWorker i
        else b) := by
    intro b
    split
    exacts [tellWorker_calm b i, .refl b]
  exact hresolved.trans ((hdeps _).trans (htell _)).goes

/-- The route of an amend is dropped with a note, unless the user sent it. -/
theorem ignored_calm (b : Batch) (route : Option RouteSpec) (ignored : Bool) :
    Calm b (if ignored then route.elim b b.routeIgnored else b) ∧
      (if ignored then route.elim b b.routeIgnored else b).run.tasks = b.run.tasks := by
  cases ignored with
  | false => exact ⟨.refl b, rfl⟩
  | true =>
    cases route with
    | none => exact ⟨.refl b, rfl⟩
    | some sent =>
      refine ⟨routeIgnored_calm b sent, ?_⟩
      show (b.routeIgnored sent).run.tasks = _
      unfold routeIgnored
      split <;> rfl

variable {now : ℕ}

theorem amendTask_goes (hgoes : Goes L run edits who { source := who, run := run, now := now } b)
    (hsize : ∀ t ∈ run.tasks, t.raisedSize = none) {a : Amend} (hedit : .amendTask id a ∈ edits) :
    Goes L run edits who b (b.amendTask L id a) := by
  refine withTask_cases (fun _ => (fail_calm b _).goes) fun i t hi hid => ?_
  dsimp only
  have hnamed : (if a.route.isSome && b.source ≠ .user then { a with route := none } else a) =
      named who a := by
    rw [hgoes.source]
    rfl
  rw [hnamed]
  obtain ⟨hignored, htasks⟩ := ignored_calm b a.route (a.route.isSome && b.source ≠ .user)
  generalize (if a.route.isSome && b.source ≠ .user then a.route.elim b b.routeIgnored else b) = b₁
    at hignored htasks ⊢
  split
  · split
    exacts [hignored.goes, hignored.goes.trans (fail_calm b₁ _).goes]
  split
  · exact hignored.goes.trans (fail_calm b₁ _).goes
  rename_i herrors
  simp only [Bool.not_eq_true', Bool.not_eq_false] at herrors
  have hgoes₁ := hgoes.trans hignored.goes
  rw [← htasks] at hi
  have hfrom := hgoes₁.tasks t (List.mem_of_getElem? hi)
  have hraised : t.raisedSize = none := by
    rcases hfrom with ⟨old, hold, hsame⟩ | hplaced
    · rw [← hsame.raisedSize]
      exact hsize old hold
    · exact hplaced.raisedSize
  exact hignored.goes.trans (amendAt_goes hgoes₁.limits hgoes₁.profile hi (hid ▸ hedit)
    (isActive_of_amendErrors herrors) hraised hfrom)

/-- One edit of the batch. -/
theorem apply_goes (hgoes : Goes L run edits who { source := who, run := run, now := now } b)
    (hsize : ∀ t ∈ run.tasks, t.raisedSize = none) (hedit : edit ∈ edits) :
    Goes L run edits who b (b.apply L edit) := by
  cases edit with
  | addTask task replaced =>
    exact (addOwned_goes hgoes.limits hgoes.profile hedit (List.mem_singleton_self task)).trans
      (replaces_calm _ task.id replaced).goes
  | splitTask id into => exact splitOwned_goes hgoes.limits hgoes.profile hedit
  | amendTask id a => exact amendTask_goes hgoes hsize hedit
  | cancelTask id => exact (cancel_calm b id).goes
  | addDep id dep => exact (addDep_calm b id dep).goes
  | answer id text => exact (answer_calm b id text).goes
  | message to' text kind => exact (message_calm b to' text kind).goes
  | refresh id => exact (refresh_calm b id).goes
  | replyComment pr thread body => exact (reply_calm b pr thread body).goes
  | pause | resume | finish => exact (consequence_calm b _).goes
  | iterate _ | retry _ _ | override _ _ | resumeRun _ _ | approveHold _ _ | acceptRed _ _ =>
    exact (fail_calm b _).goes

end Batch

/-- A whole batch. -/
theorem runBatch_goes (hsize : ∀ t ∈ run.tasks, t.raisedSize = none) (now : ℕ) :
    Goes L run edits who { source := who, run := run, now := now }
      (runBatch L run edits who now) := by
  have key : ∀ (rest : List PlanEdit) (b : Batch), (∀ edit ∈ rest, edit ∈ edits) →
      Goes L run edits who { source := who, run := run, now := now } b →
      Goes L run edits who { source := who, run := run, now := now }
        (rest.foldl (fun b edit => b.apply L edit) b) := by
    intro rest
    induction rest with
    | nil => exact fun b _ hgoes => hgoes
    | cons edit rest ih =>
      intro b hrest hgoes
      refine ih _ (fun e he => hrest e (List.mem_cons_of_mem edit he)) ?_
      exact hgoes.trans (Batch.apply_goes hgoes hsize (hrest edit (List.mem_cons_self ..)))
  exact key edits _ (fun _ h => h) (Calm.refl _).goes

theorem fillImplicit_kept (tasks : List Task) : Kept tasks (fillImplicit tasks) := by
  intro t' ht'
  obtain ⟨i, hi⟩ := List.mem_iff_getElem?.1 ht'
  obtain ⟨t, deps, ht, -, rfl⟩ := List.getElem?_zipWith_eq_some.1 hi
  exact ⟨t, List.mem_of_getElem? ht, .refl _, rfl, rfl, rfl, rfl, fun h => h⟩

/-- What follows the batch keeps every task. -/
theorem settleBatch_kept (b : Batch) (run : Run) : Kept b.run.tasks (settleBatch b run).tasks := by
  have hnoted : Kept b.run.tasks (noteUnbacked b.run run b.source).tasks := by
    unfold noteUnbacked
    split
    · exact .refl _
    · refine .map fun t _ => ?_
      split
      · exact ⟨.refl _, rfl, rfl, rfl, rfl, fun h => h⟩
      · exact .refl t
  refine hnoted.trans ((fillImplicit_kept _).trans (.map fun t _ => ?_))
  split
  · rename_i hqueued
    simp only [Bool.and_eq_true, decide_eq_true_eq] at hqueued
    exact ⟨.refl _, rfl, rfl, rfl, rfl,
      fun _ => by simp [Task.isActive, hqueued.1, TaskState.isFinished]⟩
  · exact .refl t

end Anthrex.Plan
