import Anthrex.Data.Ladder
import Anthrex.Run.Models
import Anthrex.Run.SafeText

/-!
# Climbing the escalation ladder

`escalate` computes the routes above the current one from scratch at every step
(`run/role_step.rs`). They make a ladder all the same: above a route of the list is the rest
of the list, so that a task which escalates again and again climbs one finite list, whatever
fails on the way.
-/

namespace Anthrex.Run

/-- `<runtime>:<id>` or `<runtime>:default`; `debug` quotes a text. -/
def ModelRef.parse (debug : String → String) (text : String) : Except String ModelRef :=
  let chars := text.toList
  if ':' ∈ chars then
    let name := String.ofList (chars.takeWhile (· ≠ ':'))
    let id := String.ofList ((chars.dropWhile (· ≠ ':')).drop 1)
    let model := fun runtime =>
      if id = "default" then .ok ⟨runtime, none⟩
      else
        match modelIdProblem debug id with
        | some problem => .error problem
        | none => .ok ⟨runtime, some id⟩
    if name = "claude" then model .claude
    else if name = "codex" then model .codex
    else .error (debug name ++ " is not claude or codex")
  else .error (debug text ++ " is not <runtime>:<model>")

/-- A model with a name of its own, or the default of its runtime. -/
def ModelRef.Named (m : ModelRef) : Prop := m.id ≠ some ""

/-- The efforts the table knows a model by have no repeated names. -/
def RunModels.EffortsNodup (models : RunModels) : Prop := ∀ e ∈ models.efforts, e.2.efforts.Nodup

/-- Where `n` escalations lead from a route, with what failed before each. -/
def climb (models : RunModels) (role : Role) (failed : ℕ → List Route) (start : Route) (n : ℕ) :
    Option Route :=
  Ladder.climb (fun k route => escalate models role route (failed k)) start n

/-- A model that was read from a text is named. -/
theorem ModelRef.named_of_parse {debug : String → String} {text : String} {m : ModelRef}
    (h : ModelRef.parse debug text = .ok m) : m.Named := by
  have hmodel : ∀ {runtime id}, (if id = "default" then Except.ok ⟨runtime, none⟩
      else match modelIdProblem debug id with
        | some problem => .error problem
        | none => .ok ⟨runtime, some id⟩) = Except.ok m → m.Named := by
    intro runtime id h
    split at h
    · rw [← Except.ok.inj h]
      exact nofun
    · split at h
      · cases h
      · rename_i hid
        rw [← Except.ok.inj h]
        intro hempty
        rw [Option.some.inj hempty] at hid
        simp [modelIdProblem] at hid
  dsimp only [ModelRef.parse] at h
  split_ifs at h
  · rw [← Except.ok.inj h]
    exact nofun
  · exact hmodel ((if_neg (by assumption)).trans h)
  · rw [← Except.ok.inj h]
    exact nofun
  · exact hmodel ((if_neg (by assumption)).trans h)

variable {models : RunModels} {role : Role} {m f own : ModelRef} {r start : Route}

/-! ## Models of routes -/

theorem modelOf_routeOf (hm : m.Named) (effort : Option String) :
    RunModels.modelOf (RunModels.routeOf m effort) = m := by
  obtain ⟨runtime, id⟩ := m
  cases id with
  | none => rfl
  | some id =>
    have hne : id ≠ "" := fun h => hm (congrArg some h)
    simp [RunModels.modelOf, RunModels.routeOf, ModelRef.routeModel, hne]

theorem named_modelOf (r : Route) : (RunModels.modelOf r).Named := by
  rw [ModelRef.Named, RunModels.modelOf]
  split
  · exact nofun
  · rename_i hne
    exact fun h => hne (Option.some.inj h)

theorem sameModelRef_self (m : ModelRef) : models.sameModelRef m m := by
  simp [RunModels.sameModelRef]

/-! ## One model's efforts -/

/-- The efforts of a model that escalation climbs, in order. -/
def climbed (known : ModelEfforts) : List String :=
  (known.efforts.filter fun e => (ladderRank e).isSome).insertionSort
    fun a b => (ladderRank a).getD 0 ≤ (ladderRank b).getD 0

/-- What stands above an effort of the list is what follows it. -/
theorem drop_findIdx?_of_nodup {l pre post : List String} {x : String} (hl : l.Nodup)
    (h : l = pre ++ x :: post) :
    l.drop (((l.findIdx? (· = x)).map (· + 1)).getD l.length) = post := by
  subst h
  have hx : x ∉ pre := fun hmem => by
    rw [List.nodup_append] at hl
    exact hl.2.2 x hmem x List.mem_cons_self rfl
  have hfind : (pre ++ x :: post).findIdx? (· = x) = some pre.length := by
    rw [List.findIdx?_append]
    have hnone : pre.findIdx? (· = x) = none := by
      rw [List.findIdx?_eq_none_iff]
      intro y hy
      simpa using fun he : y = x => hx (he ▸ hy)
    simp [hnone, List.findIdx?_cons]
  rw [hfind, Option.map_some, Option.getD_some, List.drop_append]
  simp

theorem nodup_climbed {known : ModelEfforts} (h : known.efforts.Nodup) : (climbed known).Nodup :=
  (List.perm_insertionSort _ _).nodup_iff.2 (h.filter _)

theorem ne_empty_of_mem_climbed {known : ModelEfforts} {x : String} (h : x ∈ climbed known) :
    x ≠ "" := by
  rintro rfl
  rw [climbed, List.mem_insertionSort, List.mem_filter] at h
  exact absurd h.2 (by decide)

theorem nodup_of_effortsOf (h : models.EffortsNodup) {known : ModelEfforts}
    (hknown : models.effortsOf m = some known) : known.efforts.Nodup := by
  rw [RunModels.effortsOf, Option.or_eq_some_iff] at hknown
  rcases hknown with hown | ⟨-, halias⟩
  · obtain ⟨l₁, l₂, he, -⟩ := List.lookup_eq_some_iff.1 hown
    refine h (m, known) ?_
    rw [he]
    simp
  · obtain ⟨e, he, rfl⟩ := Option.map_eq_some_iff.1 halias
    exact h e (List.mem_of_find?_eq_some he)

/-- The routes of a model above one of them are the rest, and climb that model. -/
theorem above_split (h : models.EffortsNodup) (hm : m.Named) {effort : String}
    {pre post : List Route} (hsplit : above models m effort = pre ++ r :: post) :
    RunModels.modelOf r = m ∧ above models m r.effort = post := by
  cases hknown : models.effortsOf m with
  | none => simp [above, hknown] at hsplit
  | some known =>
    have habove : ∀ e, above models m e = ((climbed known).drop
        (if e = "" then
          match known.default with
          | some d => if (ladderRank d).isNone then (climbed known).length
            else (((climbed known).findIdx? (· = d)).map (· + 1)).getD 0
          | none => 0
        else (((climbed known).findIdx? (· = e)).map (· + 1)).getD (climbed known).length)).map
          fun e => RunModels.routeOf m (some e) := by
      intro e
      simp only [above, hknown]
      rfl
    rw [habove] at hsplit
    obtain ⟨pre', post', hdrop, hpre, hpost⟩ := List.map_eq_append_iff.1 hsplit
    obtain ⟨x, post'', rfl, rfl, rfl⟩ := List.map_eq_cons_iff.1 hpost
    have hx : x ∈ climbed known := by
      have hmem : x ∈ pre' ++ x :: post'' := by simp
      rw [← hdrop] at hmem
      exact List.mem_of_mem_drop hmem
    have hne := ne_empty_of_mem_climbed hx
    refine ⟨modelOf_routeOf hm _, ?_⟩
    have heffort : (RunModels.routeOf m (some x)).effort = x := rfl
    rw [heffort, habove, if_neg hne]
    obtain ⟨taken, htaken⟩ : ∃ taken, climbed known = taken ++ x :: post'' :=
      ⟨_ ++ pre', by rw [List.append_assoc, ← hdrop, List.take_append_drop]⟩
    rw [drop_findIdx?_of_nodup (nodup_climbed (nodup_of_effortsOf h hknown)) htaken]

/-! ## The ladder -/

/-- What escalation takes after the efforts of the current model. -/
def beyond (models : RunModels) (role : Role) (own : ModelRef) : List Route :=
  match (models.choice role).fallback.filter (!models.sameModelRef · own) with
  | some f => RunModels.routeOf f none :: above models f ""
  | none => []

theorem ladder_eq (models : RunModels) (role : Role) (r : Route) :
    ladder models role r =
      above models (RunModels.modelOf r) r.effort ++ beyond models role (RunModels.modelOf r) := by
  rw [ladder, beyond]
  congr 1
  cases hf : (models.choice role).fallback.filter
      (!models.sameModelRef · (RunModels.modelOf r)) with
  | none => rfl
  | some f =>
    -- a fallback that is another model is not the current one
    obtain ⟨hsome, hother⟩ := Option.filter_eq_some_iff.1 hf
    simp only [Bool.not_eq_true'] at hother
    simp [hsome, hother]

/-- Nothing is beyond the fallback. -/
theorem beyond_fallback (hf : (models.choice role).fallback = some f) :
    beyond models role f = [] := by
  have hnone : (models.choice role).fallback.filter (!models.sameModelRef · f) = none := by
    rw [hf, Option.filter_some, sameModelRef_self]
    rfl
  rw [beyond, hnone]

theorem beyond_eq (models : RunModels) (role : Role) (own : ModelRef) :
    beyond models role own = [] ∨
      ∃ f, (models.choice role).fallback = some f ∧ models.sameModelRef f own = false ∧
        beyond models role own = RunModels.routeOf f none :: above models f "" := by
  cases hf : (models.choice role).fallback.filter (!models.sameModelRef · own) with
  | none =>
    left
    rw [beyond, hf]
  | some f =>
    obtain ⟨hsome, hother⟩ := Option.filter_eq_some_iff.1 hf
    right
    exact ⟨f, hsome, by simpa using hother, by rw [beyond, hf]⟩

section Ladder

variable (hefforts : models.EffortsNodup) (hnamed : ∀ f ∈ (models.choice role).fallback, f.Named)
include hefforts hnamed

/-- A route beyond a model is on the fallback, with the rest of them above it. -/
theorem beyond_split {pre post : List Route} (h : beyond models role own = pre ++ r :: post) :
    (models.choice role).fallback = some (RunModels.modelOf r) ∧ ladder models role r = post := by
  rcases beyond_eq models role own with hnil | ⟨f, hf, -, heq⟩
  · rw [hnil] at h
    simp at h
  · have hfn := hnamed f hf
    rw [heq] at h
    cases pre with
    | nil =>
      obtain ⟨rfl, rfl⟩ := List.cons.inj h
      rw [ladder_eq, modelOf_routeOf hfn, beyond_fallback hf, List.append_nil]
      exact ⟨hf, rfl⟩
    | cons x pre =>
      obtain ⟨hmodel, hpost⟩ := above_split hefforts hfn (List.cons.inj h).2
      rw [ladder_eq, hmodel, beyond_fallback hf, List.append_nil]
      exact ⟨hf, hpost⟩

/-- A route of the ladder is on the current model or on the fallback, with the rest of the
    ladder above it. -/
theorem ladder_split {pre post : List Route} (h : ladder models role start = pre ++ r :: post) :
    (RunModels.modelOf r = RunModels.modelOf start ∨
      (models.choice role).fallback = some (RunModels.modelOf r)) ∧
    ladder models role r = post := by
  rw [ladder_eq] at h
  rcases List.append_eq_append_iff.1 h with ⟨mid, -, hbeyond⟩ | ⟨mid, habove, hrest⟩
  · obtain ⟨hf, hpost⟩ := beyond_split hefforts hnamed hbeyond
    exact ⟨.inr hf, hpost⟩
  · cases mid with
    | nil =>
      have hbeyond : beyond models role (RunModels.modelOf start) = [] ++ r :: post := hrest.symm
      obtain ⟨hf, hpost⟩ := beyond_split hefforts hnamed hbeyond
      exact ⟨.inr hf, hpost⟩
    | cons x mid =>
      obtain ⟨rfl, rfl⟩ := List.cons.inj hrest
      obtain ⟨hmodel, hpost⟩ := above_split hefforts (named_modelOf start) habove
      refine ⟨.inl hmodel, ?_⟩
      rw [ladder_eq, hmodel, hpost]
      rfl

theorem ladder_stepped : Ladder.Stepped (ladder models role) :=
  fun _ _ _ _ h => (ladder_split hefforts hnamed h).2

end Ladder

/-! ## Climbing it -/

/-- Escalation climbs one finite list, of the start's own model and the row's fallback: with
    nothing failed it takes every route of it in order, with the same failures every time those
    that did not fail, and with failures that change a part of it in order; it comes to no
    route twice. -/
theorem climb_steps (hefforts : models.EffortsNodup)
    (hnamed : ∀ f ∈ (models.choice role).fallback, f.Named) :
    (∀ n, climb models role (fun _ => []) start n = (start :: steps models role start)[n]?) ∧
    (start :: steps models role start).Nodup ∧
    (∀ r ∈ steps models role start, RunModels.modelOf r = RunModels.modelOf start ∨
      (models.choice role).fallback = some (RunModels.modelOf r)) ∧
    (∀ failed, escalate models role start failed =
      (steps models role start).find? fun r => !failed.any (models.sameModel · r)) ∧
    (∀ failed n, climb models role (fun _ => failed) start n =
      (start :: (steps models role start).filter fun r =>
        !failed.any (models.sameModel · r))[n]?) ∧
    ∀ failed : ℕ → List Route, ∃ visited, visited.Sublist (steps models role start) ∧
      ∀ n, climb models role failed start n = (start :: visited)[n]? := by
  have hstep := ladder_stepped hefforts hnamed
  have hfilter : ∀ failed n, climb models role (fun _ => failed) start n =
      (start :: (steps models role start).filter fun r =>
        !failed.any (models.sameModel · r))[n]? := fun failed n =>
    hstep.climb_filter (fun r => !failedIn models failed r) start n
  refine ⟨fun n => ?_, hstep.nodup start, fun r hr => ?_, fun _ => rfl, hfilter, fun failed => ?_⟩
  · rw [hfilter]
    simp
  · obtain ⟨pre, post, hsplit⟩ := List.append_of_mem hr
    exact (ladder_split hefforts hnamed hsplit).1
  · exact hstep.climb_sublist (fun k r => !failedIn models (failed k) r) start

/-- A table whose only row falls back from one model to another, each of two efforts. -/
def relayModels : RunModels where
  rows _ := ⟨⟨.claude, some "opus"⟩, none, some ⟨.codex, none⟩⟩
  efforts := [(⟨.claude, some "opus"⟩, ⟨["high", "low"], some "low"⟩),
    (⟨.codex, none⟩, ⟨["ultra", "medium"], none⟩)]

/-- The first model at its high effort, then the fallback at its default and at its medium one. -/
theorem climb_steps_relay :
    (List.range 5).map (climb relayModels .planner (fun _ => []) ⟨.claude, "opus", ""⟩) =
      [some ⟨.claude, "opus", ""⟩, some ⟨.claude, "opus", "high"⟩, some ⟨.codex, "", ""⟩,
        some ⟨.codex, "", "medium"⟩, none] := by
  have hefforts : ∀ e ∈ relayModels.efforts, e.2.efforts.Nodup := by decide
  have hnamed : ∀ f ∈ (relayModels.choice .planner).fallback, f.Named := by
    intro f hf
    cases hf
    exact nofun
  rw [funext (climb_steps hefforts hnamed).1]
  decide

end Anthrex.Run
