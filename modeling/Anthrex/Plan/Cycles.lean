import Anthrex.Plan.Implicit
import Anthrex.Plan.Tarjan
import Mathlib.Data.List.Sort

/-!
# Cycles

Every cycle among the unfinished tasks is one error (`cycles_over` of
`run/validate_graph.rs`): a strongly connected component with more than one task, or with
one that depends on itself. `combinedCycles` takes the implicit dependencies too, as the
backstop after they were filled in. It never has anything to report there
(`combinedCycles_fillImplicit`), as long as no unfinished task repeats an id.
-/

namespace Anthrex.Plan

open Anthrex.Run Graph

/-- The walk back to `start`: each node of the path (the last one first) with the number
    of its edges tried. -/
def walkBack (edges : List (List ℕ)) (members : List ℕ) (start : ℕ) :
    ℕ → List (ℕ × ℕ) → List ℕ → List ℕ
  | 0, _, _ => [start, start]
  | _ + 1, [], _ => [start, start]
  | fuel + 1, (node, cursor) :: path, visited =>
    match (edges.getD node [])[cursor]? with
    | none => walkBack edges members start fuel path visited
    | some next =>
      if next = start then (start :: node :: path.map Prod.fst).reverse
      else if next ∈ members ∧ next ∉ visited then
        walkBack edges members start fuel ((next, 0) :: (node, cursor + 1) :: path)
          (next :: visited)
      else walkBack edges members start fuel ((node, cursor + 1) :: path) visited

/-- A path from `start` back to itself inside one component, depth first. -/
def pathBack (edges : List (List ℕ)) (members : List ℕ) (start : ℕ) : List ℕ :=
  walkBack edges members start (edges.flatten.length + edges.length + 1) [(start, 0)] [start]

/-- What each unfinished task waits for among the unfinished ones. -/
def activeEdges (active : List Task) (withImplicit : Bool) : List (List ℕ) :=
  active.map fun t =>
    (t.spec.deps ++ if withImplicit then t.implicitDeps else []).filterMap (indexOf active)

/-- The components, each sorted, in the order of their first members. -/
def components (edges : List (List ℕ)) : List (List ℕ) :=
  ((Tarjan.run edges).map (List.insertionSort (· ≤ ·))).insertionSort
    fun c d => c.headD 0 ≤ d.headD 0

/-- The error for a component that is a cycle. -/
def cycleError (active : List Task) (edges : List (List ℕ)) (comp : List ℕ) : Option PlanError :=
  let start := comp.headD 0
  if 1 < comp.length ∨ start ∈ edges.getD start [] then
    let names := (pathBack edges comp start).map fun i => (active[i]?.map Task.id).getD ""
    some ⟨none, "deps", "12.1", "cycle " ++ " -> ".intercalate names⟩
  else none

def cyclesOver (tasks : List Task) (withImplicit : Bool) : List PlanError :=
  let active := tasks.filter Task.isActive
  let edges := activeEdges active withImplicit
  (components edges).filterMap (cycleError active edges)

def cycles (tasks : List Task) : List PlanError := cyclesOver tasks false

def combinedCycles (tasks : List Task) : List PlanError := cyclesOver tasks true

/-! ## Acyclic graphs -/

variable {tasks active : List Task} {edges : List (List ℕ)} {withImplicit : Bool} {i j : ℕ}

theorem indexOf_eq_some {id : String} (h : indexOf tasks id = some j) :
    ∃ t, tasks[j]? = some t ∧ t.id = id := by
  obtain ⟨hj, ht, -⟩ := List.findIdx?_eq_some_iff_getElem.1 h
  exact ⟨tasks[j], List.getElem?_eq_getElem hj, by simpa using ht⟩

theorem mem_activeEdges {a : Task} (ha : active[i]? = some a) :
    Edge (activeEdges active withImplicit) i j ↔
      ∃ id, (id ∈ a.spec.deps ∨ withImplicit ∧ id ∈ a.implicitDeps) ∧ indexOf active id = some j := by
  simp only [Edge, activeEdges, List.getD_eq_getElem?_getD, List.getElem?_map, ha, Option.map_some,
    Option.getD_some, List.mem_filterMap, List.mem_append]
  cases withImplicit with
  | true => simp
  | false => simp

theorem edge_activeEdges (h : Edge (activeEdges active withImplicit) i j) :
    ∃ a b id, active[i]? = some a ∧ active[j]? = some b ∧ b.id = id ∧
      (id ∈ a.spec.deps ∨ withImplicit ∧ id ∈ a.implicitDeps) := by
  have hi := lt_length_of_edge h
  rw [activeEdges, List.length_map] at hi
  have ha := List.getElem?_eq_getElem hi
  obtain ⟨id, hid, hindex⟩ := (mem_activeEdges ha).1 h
  obtain ⟨b, hb, hbid⟩ := indexOf_eq_some hindex
  exact ⟨_, b, id, ha, hb, hbid, hid⟩

theorem lt_length_of_edge_activeEdges (h : Edge (activeEdges active withImplicit) i j) :
    j < (activeEdges active withImplicit).length := by
  obtain ⟨a, b, id, -, hb, -⟩ := edge_activeEdges h
  rw [activeEdges, List.length_map]
  exact (List.getElem?_eq_some_iff.1 hb).1

/-- In a graph with no cycle no component is one. -/
theorem cycleError_eq_none (hrange : ∀ a b, Edge edges a b → b < edges.length)
    (hacyclic : Acyclic (Edge edges)) {comp : List ℕ} (hcomp : comp ∈ components edges) :
    cycleError active edges comp = none := by
  obtain ⟨c, hc, rfl⟩ := List.mem_map.1 ((List.perm_insertionSort _ _).mem_iff.1 hcomp)
  obtain ⟨-, hnodup, hstrong⟩ := Tarjan.run_strong hrange c hc
  have hle : c.length ≤ 1 := by
    rcases c with _ | ⟨a, _ | ⟨b, l⟩⟩
    · simp
    · simp
    · have hab := hacyclic.eq_of_reach (hstrong a (by simp) b (by simp))
        (hstrong b (by simp) a (by simp))
      simp [hab] at hnodup
  rw [cycleError, if_neg]
  rw [not_or, List.length_insertionSort]
  exact ⟨by omega, fun hself => hacyclic _ (.single hself)⟩

theorem cyclesOver_eq_nil
    (h : Acyclic (Edge (activeEdges (tasks.filter Task.isActive) withImplicit))) :
    cyclesOver tasks withImplicit = [] := by
  rw [cyclesOver, List.filterMap_eq_nil_iff]
  exact fun comp hcomp => cycleError_eq_none (fun _ _ => lt_length_of_edge_activeEdges) h hcomp

theorem eq_singleton_of_mem {c : List ℕ} {a : ℕ} (hlength : c.length ≤ 1) (ha : a ∈ c) : c = [a] := by
  rcases c with _ | ⟨x, _ | ⟨y, l⟩⟩
  · cases ha
  · rw [List.mem_singleton.1 ha]
  · simp at hlength

/-- Where no component is a cycle, an edge leads to a component closed before. -/
theorem acyclic_of_components (hrange : ∀ a b, Edge edges a b → b < edges.length)
    (h : ∀ c ∈ Tarjan.run edges, c.length ≤ 1 ∧ ∀ a ∈ c, ¬Edge edges a a) : Acyclic (Edge edges) := by
  obtain ⟨hcovered, hearlier⟩ := Tarjan.run_ordered hrange
  refine .of_rank (fun v => (Tarjan.run edges).findIdx (v ∈ ·)) fun a b hab => ?_
  obtain ⟨c₀, hc₀, hac₀⟩ := List.mem_flatten.1 (hcovered a (lt_length_of_edge hab))
  have hlt : (Tarjan.run edges).findIdx (a ∈ ·) < (Tarjan.run edges).length :=
    List.findIdx_lt_length_of_exists ⟨c₀, hc₀, by simpa using hac₀⟩
  generalize hi : (Tarjan.run edges).findIdx (a ∈ ·) = i at hlt ⊢
  have ha : a ∈ (Tarjan.run edges)[i] := by
    subst hi
    simpa using List.findIdx_getElem (w := hlt)
  have hsplit : Tarjan.run edges = (Tarjan.run edges).take i ++ (Tarjan.run edges)[i] ::
      (Tarjan.run edges).drop (i + 1) := by
    rw [← List.drop_eq_getElem_cons hlt, List.take_append_drop]
  have hb := hearlier _ _ _ hsplit a ha b hab
  rw [List.flatten_append, List.mem_append, List.flatten_singleton] at hb
  rcases hb with hb | hb
  · obtain ⟨c, hc, hbc⟩ := List.mem_flatten.1 hb
    obtain ⟨j, hj, rfl⟩ := List.mem_take_iff_getElem.1 hc
    have hle : (Tarjan.run edges).findIdx (b ∈ ·) ≤ j := by
      by_contra hgt
      have hnot := List.not_of_lt_findIdx (Nat.lt_of_not_le hgt)
      simp [hbc] at hnot
    omega
  · -- the one node of its component would lead to itself
    obtain ⟨hlength, hself⟩ := h _ (List.getElem_mem hlt)
    rw [eq_singleton_of_mem hlength ha] at hb
    exact absurd (List.mem_singleton.1 hb ▸ hab) (hself a ha)

/-- A plan with no cycle reported has none. -/
theorem acyclic_of_cyclesOver (h : cyclesOver tasks withImplicit = []) :
    Acyclic (Edge (activeEdges (tasks.filter Task.isActive) withImplicit)) := by
  rw [cyclesOver, List.filterMap_eq_nil_iff] at h
  refine acyclic_of_components (fun _ _ => lt_length_of_edge_activeEdges) fun c hc => ?_
  have hcomp : c.insertionSort (· ≤ ·) ∈
      components (activeEdges (tasks.filter Task.isActive) withImplicit) :=
    (List.perm_insertionSort _ _).mem_iff.2 (List.mem_map_of_mem hc)
  have hnone := h _ hcomp
  simp only [cycleError, ite_eq_right_iff, reduceCtorEq, imp_false, not_or, not_lt,
    List.length_insertionSort] at hnone
  refine ⟨hnone.1, fun a ha => ?_⟩
  rw [eq_singleton_of_mem hnone.1 ha] at hnone
  exact hnone.2

/-- The place in the plan of a task's first namesake. -/
def place (tasks active : List Task) (i : ℕ) : ℕ :=
  ((active[i]?.map Task.id).bind (indexOf tasks)).getD 0

theorem place_eq (hfirst : FirstIds tasks) {a : Task}
    (ha : (tasks.filter Task.isActive)[i]? = some a) :
    tasks[place tasks (tasks.filter Task.isActive) i]? = some a ∧
      indexOf tasks a.id = some (place tasks (tasks.filter Task.isActive) i) := by
  obtain ⟨hmem, hactive⟩ := List.mem_filter.1 (List.mem_of_getElem? ha)
  obtain ⟨k, hk⟩ := List.mem_iff_getElem?.1 hmem
  have hindex := hfirst k a hk hactive
  have hplace : place tasks (tasks.filter Task.isActive) i = k := by simp [place, ha, hindex]
  rw [hplace]
  exact ⟨hk, hindex⟩

/-- The graph of the unfinished tasks is part of the graph of all. -/
theorem acyclic_activeEdges (hfirst : FirstIds tasks) (h : Acyclic (Edge (waitEdges tasks))) :
    Acyclic (Edge (activeEdges (tasks.filter Task.isActive) withImplicit)) := by
  refine h.lift (place tasks (tasks.filter Task.isActive)) fun i j hij => ?_
  obtain ⟨a, b, id, ha, hb, rfl, hid⟩ := edge_activeEdges hij
  obtain ⟨ha', -⟩ := place_eq hfirst ha
  obtain ⟨-, hb'⟩ := place_eq hfirst hb
  exact (mem_waitEdges ha').2 ⟨b.id, hid.imp_right And.right, hb'⟩

theorem firstIds_fillImplicit (h : FirstIds tasks) : FirstIds (fillImplicit tasks) := by
  intro i t ht hactive
  have hi := (List.getElem?_eq_some_iff.1 ht).1
  rw [length_fillImplicit] at hi
  have ha := List.getElem?_eq_getElem hi
  rw [getElem?_fillImplicit ha, Option.some.injEq] at ht
  subst ht
  rw [indexOf_fillImplicit]
  exact h i tasks[i] ha hactive

/-- When no unfinished task repeats an id and the declared dependencies have no cycle,
    neither have the declared and the implicit ones together, and the check after the
    implicit ones were filled in reports nothing. -/
theorem combinedCycles_fillImplicit (hfirst : FirstIds tasks)
    (hdeclared : Acyclic (Edge (declaredEdges tasks))) :
    Acyclic (Edge (waitEdges (fillImplicit tasks))) ∧
      combinedCycles (fillImplicit tasks) = [] := by
  have hacyclic := acyclic_waitEdges_fillImplicit hfirst hdeclared
  exact ⟨hacyclic,
    cyclesOver_eq_nil (acyclic_activeEdges (firstIds_fillImplicit hfirst) hacyclic)⟩

theorem combinedCycles_fillImplicit_threeTasks :
    combinedCycles (fillImplicit threeTasks) = [] := by
  refine (combinedCycles_fillImplicit (firstIds_of_nodup (by decide)) ?_).2
  refine .of_rank id fun a b hab => ?_
  have hlt : ∀ a < 3, ∀ b ∈ (declaredEdges threeTasks).getD a [], b < a := by decide
  exact hlt a (lt_length_of_edge hab) b hab

/-- Two tasks with one id, the first of them of the later stage. -/
def twins : List Task :=
  [{ spec := { id := "x", owns := ["src"], stage := 2 }, route := ⟨.claude, "", ""⟩ },
    { spec := { id := "x", owns := ["src"], stage := 1 }, route := ⟨.claude, "", ""⟩ }]

/-- The first waits for the second by its id, which is its own. -/
theorem combinedCycles_twins :
    Acyclic (Edge (declaredEdges twins)) ∧ ¬Acyclic (Edge (waitEdges (fillImplicit twins))) ∧
      combinedCycles (fillImplicit twins) = [⟨none, "deps", "12.1", "cycle x -> x"⟩] := by
  refine ⟨.of_rank id fun a b hab => ?_, fun h => h 0 (.single (by decide)), by decide⟩
  have hnone : ∀ a < 2, ∀ b ∈ (declaredEdges twins).getD a [], b < a := by decide
  exact hnone a (lt_length_of_edge hab) b hab

end Anthrex.Plan
