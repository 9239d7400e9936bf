import Anthrex.Data.Graph
import Anthrex.Globs
import Anthrex.Run.Task

/-!
# Implicit dependencies

Two unfinished tasks on one runtime whose `owns` intersect never run at once: one waits
for the other (`implicit_deps` of `run/validate_graph.rs`). The pairs are taken in plan
order, and a wait is left out when the waiter declares the other task already, or when
the other one reaches the waiter through the declared dependencies and the waits given
so far.

What is given is said once, in `Granted`, and what holds while the pairs are taken, in
`Waits.Inv`; that the waits close no cycle, and that they order every pair, both follow.
-/

namespace Anthrex.Plan

open Anthrex.Run Anthrex.Globs Graph

/-- The first task with the id. -/
def indexOf (tasks : List Task) (id : String) : Option ℕ := tasks.findIdx? (·.id = id)

/-- What each task waits for by its plan. -/
def declaredEdges (tasks : List Task) : List (List ℕ) :=
  tasks.map fun t => t.spec.deps.filterMap (indexOf tasks)

/-- Who waits in a pair, and for whom; `earlier` comes first in plan order. -/
def waiter (earlier task : Task) (j i : ℕ) : Option (ℕ × ℕ) :=
  match compare earlier.spec.stage task.spec.stage, earlier.underWay, task.underWay with
  | .lt, _, true => none
  | .gt, true, _ => none
  | .lt, _, false => some (i, j)
  | .gt, false, _ => some (j, i)
  | .eq, true, true => none
  | .eq, false, true => some (j, i)
  | .eq, _, _ => some (i, j)

/-- The waits decided so far: all edges, and the ids of the implicit ones. -/
structure Waits where
  edges : List (List ℕ)
  out : List (List String)
  deriving DecidableEq, Repr

/-- One pair of tasks, each with its index. -/
def Waits.pair (tasks : List Task) (s : Waits) (task earlier : Task × ℕ) : Waits :=
  if !earlier.1.isActive || earlier.1.route.runtime ≠ task.1.route.runtime ||
      !anyIntersect earlier.1.spec.owns task.1.spec.owns then s
  else
    match waiter earlier.1 task.1 earlier.2 task.2 with
    | none => s
    | some (w, on) =>
      let onId := (tasks[on]?.map Task.id).getD ""
      if onId ∈ (tasks[w]?.map (·.spec.deps)).getD [] || reaches s.edges on w then s
      else ⟨push s.edges w on, s.out.modify w (· ++ [onId])⟩

/-- All pairs of one task with the tasks before it. -/
def Waits.task (tasks : List Task) (s : Waits) (task : Task × ℕ) : Waits :=
  if task.1.isActive then (tasks.take task.2).zipIdx.foldl (fun s e => s.pair tasks task e) s
  else s

def waits (tasks : List Task) : Waits :=
  tasks.zipIdx.foldl (Waits.task tasks) ⟨declaredEdges tasks, tasks.map fun _ => []⟩

def implicitDeps (tasks : List Task) : List (List String) := (waits tasks).out

/-! ## One pair -/

variable {tasks : List Task} {s : Waits} {w on i j : ℕ}

/-- Tasks that may not run at once. -/
structure Conflict (a b : Task) : Prop where
  active : a.isActive ∧ b.isActive
  runtime : a.route.runtime = b.route.runtime
  owns : anyIntersect a.spec.owns b.spec.owns

theorem Conflict.symm {a b : Task} (h : Conflict a b) : Conflict b a :=
  ⟨h.active.symm, h.runtime.symm, anyIntersect_comm a.spec.owns b.spec.owns ▸ h.owns⟩

/-- The task `w` is given the wait for `on`, named `id`. -/
structure Granted (tasks : List Task) (w on : ℕ) (id : String) : Prop where
  wait : ∃ a b, tasks[w]? = some a ∧ tasks[on]? = some b ∧ Conflict a b ∧ ¬a.underWay ∧
    b.spec.stage ≤ a.spec.stage ∧ b.id ∉ a.spec.deps ∧ b.id = id

/-- No wait can order the two: each has started, or the one of the later stage has. -/
def TooLate (a b : Task) : Prop :=
  (a.spec.stage = b.spec.stage ∧ a.underWay ∧ b.underWay) ∨
    (a.spec.stage < b.spec.stage ∧ b.underWay) ∨ (b.spec.stage < a.spec.stage ∧ a.underWay)

theorem waiter_none {earlier task : Task} (h : waiter earlier task j i = none) :
    TooLate earlier task := by
  rcases lt_trichotomy earlier.spec.stage task.spec.stage with hlt | heq | hgt
  · cases htask : task.underWay with
    | true => exact .inr (.inl ⟨hlt, htask⟩)
    | false => simp [waiter, Nat.compare_eq_lt.2 hlt, htask] at h
  · cases hearlier : earlier.underWay <;> cases htask : task.underWay <;>
      simp [waiter, heq, hearlier, htask] at h
    exact .inl ⟨heq, hearlier, htask⟩
  · cases hearlier : earlier.underWay with
    | true => exact .inr (.inr ⟨hgt, hearlier⟩)
    | false => simp [waiter, Nat.compare_eq_gt.2 hgt, hearlier] at h

/-- The waiter has not started, and is not of the earlier stage. -/
theorem waiter_some {earlier task : Task} (h : waiter earlier task j i = some (w, on)) :
    (w = i ∧ on = j ∧ ¬task.underWay ∧ earlier.spec.stage ≤ task.spec.stage) ∨
      (w = j ∧ on = i ∧ ¬earlier.underWay ∧ task.spec.stage ≤ earlier.spec.stage) := by
  rcases lt_trichotomy earlier.spec.stage task.spec.stage with hlt | heq | hgt
  · cases htask : task.underWay <;> simp [waiter, Nat.compare_eq_lt.2 hlt, htask] at h
    exact .inl ⟨h.1.symm, h.2.symm, by simp, hlt.le⟩
  · cases hearlier : earlier.underWay <;> cases htask : task.underWay <;>
      simp [waiter, heq, hearlier, htask] at h
    · exact .inl ⟨h.1.symm, h.2.symm, by simp, heq.le⟩
    · exact .inr ⟨h.1.symm, h.2.symm, by simp, heq.ge⟩
    · exact .inl ⟨h.1.symm, h.2.symm, by simp, heq.le⟩
  · cases hearlier : earlier.underWay <;> simp [waiter, Nat.compare_eq_gt.2 hgt, hearlier] at h
    exact .inr ⟨h.1.symm, h.2.symm, by simp, hgt.le⟩

/-- What one pair does: nothing, when the two may run at once, when it is too late to
    order them, or when they are ordered already; else it gives one of them a wait. -/
theorem Waits.pair_cases {task earlier : Task} (hi : tasks[i]? = some task)
    (hj : tasks[j]? = some earlier) (hactive : task.isActive) :
    (s.pair tasks (task, i) (earlier, j) = s ∧
      (Conflict earlier task → TooLate earlier task)) ∨
    ∃ w on a b, tasks[w]? = some a ∧ tasks[on]? = some b ∧
      ((w = i ∧ on = j) ∨ (w = j ∧ on = i)) ∧
      ((s.pair tasks (task, i) (earlier, j) = s ∧
          (b.id ∈ a.spec.deps ∨ Reach s.edges on w)) ∨
        (s.pair tasks (task, i) (earlier, j) =
            ⟨push s.edges w on, s.out.modify w (· ++ [b.id])⟩ ∧
          Granted tasks w on b.id ∧ ¬Reach s.edges on w)) := by
  unfold Waits.pair
  split_ifs with hskip
  · refine .inl ⟨rfl, fun h => ?_⟩
    simp [h.active.1, h.runtime, h.owns] at hskip
  · have hconflict : Conflict earlier task := by
      simp only [Bool.or_eq_true, Bool.not_eq_true', decide_eq_true_eq, not_or, not_not,
        Bool.not_eq_false] at hskip
      exact ⟨⟨hskip.1.1, hactive⟩, hskip.1.2, hskip.2⟩
    split
    · rename_i hnone
      exact .inl ⟨rfl, fun _ => waiter_none hnone⟩
    · rename_i w on hsome
      refine .inr ⟨w, on, ?_⟩
      obtain ⟨a, b, ha, hb, hwho, hwait⟩ : ∃ a b, tasks[w]? = some a ∧ tasks[on]? = some b ∧
          ((w = i ∧ on = j) ∨ (w = j ∧ on = i)) ∧
          Conflict a b ∧ ¬a.underWay ∧ b.spec.stage ≤ a.spec.stage := by
        rcases waiter_some hsome with ⟨rfl, rfl, hw, hs⟩ | ⟨rfl, rfl, hw, hs⟩
        · exact ⟨task, earlier, hi, hj, .inl ⟨rfl, rfl⟩, hconflict.symm, hw, hs⟩
        · exact ⟨earlier, task, hj, hi, .inr ⟨rfl, rfl⟩, hconflict, hw, hs⟩
      refine ⟨a, b, ha, hb, hwho, ?_⟩
      simp only [ha, hb, Option.map_some, Option.getD_some]
      by_cases hdone : b.id ∈ a.spec.deps ∨ reaches s.edges on w = true
      · rw [if_pos (by simpa using hdone)]
        exact .inl ⟨rfl, hdone.imp_right reaches_iff.1⟩
      · rw [if_neg (by simpa using hdone)]
        rw [not_or, reaches_iff] at hdone
        exact .inr ⟨rfl, ⟨a, b, ha, hb, hwait.1, hwait.2.1, hwait.2.2, hdone.1, rfl⟩, hdone.2⟩

/-! ## All pairs -/

/-- The pairs in the order they are taken. -/
def pairs (tasks : List Task) : List ((Task × ℕ) × Task × ℕ) :=
  tasks.zipIdx.flatMap fun t =>
    if t.1.isActive then (tasks.take t.2).zipIdx.map fun e => (t, e) else []

theorem waits_eq_foldl_pairs : waits tasks =
    (pairs tasks).foldl (fun s p => s.pair tasks p.1 p.2)
      ⟨declaredEdges tasks, tasks.map fun _ => []⟩ := by
  rw [waits, pairs, List.foldl_flatMap]
  congr 1
  funext s t
  rw [Waits.task]
  split_ifs
  · rw [List.foldl_map]
  · rfl

theorem mem_pairs {task earlier : Task} :
    ((task, i), (earlier, j)) ∈ pairs tasks ↔
      tasks[i]? = some task ∧ task.isActive ∧ j < i ∧ tasks[j]? = some earlier := by
  simp only [pairs, List.mem_flatMap, List.mem_zipIdx_iff_getElem?]
  constructor
  · rintro ⟨t, ht, hmem⟩
    split_ifs at hmem with hactive
    · obtain ⟨e, he, heq⟩ := List.mem_map.1 hmem
      cases heq
      rw [List.mem_zipIdx_iff_getElem?, List.getElem?_take] at he
      split_ifs at he with hlt
      exact ⟨ht, hactive, hlt, he⟩
    · cases hmem
  · rintro ⟨hi, hactive, hlt, hj⟩
    refine ⟨(task, i), hi, ?_⟩
    rw [if_pos hactive, List.mem_map]
    refine ⟨(earlier, j), ?_, rfl⟩
    rw [List.mem_zipIdx_iff_getElem?, List.getElem?_take, if_pos hlt]
    exact hj

/-- What holds of the waits decided so far. -/
structure Waits.Inv (tasks : List Task) (s : Waits) : Prop where
  length_edges : s.edges.length = tasks.length
  length_out : s.out.length = tasks.length
  declared : ∀ a b, Edge (declaredEdges tasks) a b → Edge s.edges a b
  edge : ∀ a b, Edge s.edges a b → Edge (declaredEdges tasks) a b ∨
    ∃ id ∈ s.out.getD a [], Granted tasks a b id
  granted : ∀ a, ∀ id ∈ s.out.getD a [], ∃ b, Edge s.edges a b ∧ Granted tasks a b id
  acyclic : ∀ S, Acyclic (Within S (Edge (declaredEdges tasks))) → Acyclic (Within S (Edge s.edges))

theorem Waits.Inv.start : Waits.Inv tasks ⟨declaredEdges tasks, tasks.map fun _ => []⟩ := by
  refine ⟨by simp [declaredEdges], by simp, fun _ _ => id, fun _ _ => .inl, fun a id hid => ?_,
    fun _ => id⟩
  exfalso
  simp only [List.getD_eq_getElem?_getD, List.getElem?_map] at hid
  cases h : tasks[a]? <;> simp [h] at hid

theorem Waits.Inv.grant {id : String} (h : Waits.Inv tasks s) (hgrant : Granted tasks w on id)
    (hreach : ¬Reach s.edges on w) :
    Waits.Inv tasks ⟨push s.edges w on, s.out.modify w (· ++ [id])⟩ := by
  obtain ⟨a, b, ha, -⟩ := hgrant.wait
  have hw : w < tasks.length := (List.getElem?_eq_some_iff.1 ha).1
  have hedges : w < s.edges.length := h.length_edges ▸ hw
  have hout : w < s.out.length := h.length_out ▸ hw
  refine ⟨by simp [h.length_edges], by simp [h.length_out], fun a b hab => ?_, fun a b hab => ?_,
    fun a id' hid => ?_, fun S hacyclic => ?_⟩
  · exact (edge_push hedges).2 (.inl (h.declared a b hab))
  · rcases (edge_push hedges).1 hab with hab | ⟨rfl, rfl⟩
    · refine (h.edge a b hab).imp_right ?_
      rintro ⟨id', hid, hgrant'⟩
      exact ⟨id', (mem_getD_modify hout).2 (.inl hid), hgrant'⟩
    · exact .inr ⟨id, (mem_getD_modify hout).2 (.inr ⟨rfl, rfl⟩), hgrant⟩
  · rcases (mem_getD_modify hout).1 hid with hid | ⟨rfl, rfl⟩
    · obtain ⟨b, hab, hgrant'⟩ := h.granted a id' hid
      exact ⟨b, (edge_push hedges).2 (.inl hab), hgrant'⟩
    · exact ⟨on, (edge_push hedges).2 (.inr ⟨rfl, rfl⟩), hgrant⟩
  · refine ((h.acyclic S hacyclic).addEdge fun hback => hreach (reach_of_within hback)).mono ?_
    rintro a b ⟨hab, ha, hb⟩
    exact ((edge_push hedges).1 hab).imp_left fun hab => ⟨hab, ha, hb⟩

theorem Waits.Inv.pair {task earlier : Task} (h : Waits.Inv tasks s)
    (hmem : ((task, i), (earlier, j)) ∈ pairs tasks) :
    Waits.Inv tasks (s.pair tasks (task, i) (earlier, j)) := by
  obtain ⟨hi, hactive, -, hj⟩ := mem_pairs.1 hmem
  rcases Waits.pair_cases (s := s) hi hj hactive with
    ⟨heq, -⟩ | ⟨w, on, a, b, -, -, -, ⟨heq, -⟩ | ⟨heq, hgrant, hreach⟩⟩
  · rwa [heq]
  · rwa [heq]
  · rw [heq]
    exact h.grant hgrant hreach

/-- Waits are never taken back. -/
theorem Waits.edge_pair {task earlier : Task} (h : Waits.Inv tasks s)
    (hmem : ((task, i), (earlier, j)) ∈ pairs tasks) {a b : ℕ} (hab : Edge s.edges a b) :
    Edge (s.pair tasks (task, i) (earlier, j)).edges a b := by
  obtain ⟨hi, hactive, -, hj⟩ := mem_pairs.1 hmem
  rcases Waits.pair_cases (s := s) hi hj hactive with
    ⟨heq, -⟩ | ⟨w, on, a', b', ha', -, -, ⟨heq, -⟩ | ⟨heq, -, -⟩⟩
  · rwa [heq]
  · rwa [heq]
  · rw [heq]
    have hw : w < s.edges.length := h.length_edges ▸ (List.getElem?_eq_some_iff.1 ha').1
    exact (edge_push hw).2 (.inl hab)

/-- What a loop brings about for each item and keeps, it has brought about for all. -/
theorem foldl_settles {σ α : Type*} {f : σ → α → σ} {l : List α} (inv : σ → Prop)
    (settled : α → σ → Prop) (hstep : ∀ s, inv s → ∀ x ∈ l, inv (f s x) ∧ settled x (f s x))
    (hkeep : ∀ s, inv s → ∀ x ∈ l, ∀ y, settled y s → settled y (f s x)) {s : σ} (hs : inv s) :
    ∀ x ∈ l, settled x (l.foldl f s) := by
  have hafter : ∀ l' ⊆ l, ∀ s, inv s → ∀ y, settled y s → settled y (l'.foldl f s) := by
    intro l' hl' s hs y hy
    induction l' generalizing s with
    | nil => exact hy
    | cons x l' ih =>
      have hx := hl' List.mem_cons_self
      exact ih (fun z hz => hl' (List.mem_cons_of_mem _ hz)) _ (hstep s hs x hx).1
        (hkeep s hs x hx y hy)
  have hmain : ∀ l' ⊆ l, ∀ s, inv s → ∀ x ∈ l', settled x (l'.foldl f s) := by
    intro l' hl' s hs x hx
    induction l' generalizing s with
    | nil => cases hx
    | cons y l' ih =>
      have hstep' := hstep s hs y (hl' List.mem_cons_self)
      have hl'' : l' ⊆ l := fun z hz => hl' (List.mem_cons_of_mem _ hz)
      rcases List.mem_cons.1 hx with rfl | hx
      · exact hafter l' hl'' _ hstep'.1 x hstep'.2
      · exact ih hl'' _ hstep'.1 hx
  exact hmain l (List.Subset.refl l) s hs

theorem waits_inv : Waits.Inv tasks (waits tasks) := by
  rw [waits_eq_foldl_pairs]
  exact List.foldlRecOn (motive := Waits.Inv tasks) _ _ Waits.Inv.start
    fun s hs p hp => Waits.Inv.pair hs hp

/-! ## The graph the scheduler waits on -/

/-- The tasks with their implicit dependencies. -/
def fillImplicit (tasks : List Task) : List Task :=
  List.zipWith (fun t deps => { t with implicitDeps := deps }) tasks (implicitDeps tasks)

/-- What each task waits for, declared and implicit. -/
def waitEdges (tasks : List Task) : List (List ℕ) :=
  tasks.map fun t => (t.spec.deps ++ t.implicitDeps).filterMap (indexOf tasks)

/-- No unfinished task has the id of an earlier one: rule `id` of the plan. -/
def FirstIds (tasks : List Task) : Prop :=
  ∀ i t, tasks[i]? = some t → t.isActive → indexOf tasks t.id = some i

theorem firstIds_of_nodup (h : (tasks.map Task.id).Nodup) : FirstIds tasks := by
  intro i t ht _
  obtain ⟨hi, rfl⟩ := List.getElem?_eq_some_iff.1 ht
  rw [indexOf, List.findIdx?_eq_some_iff_getElem]
  refine ⟨hi, by simp, fun j hj heq => ?_⟩
  have hids := (List.nodup_iff_injective_getElem.1 h).eq_iff
    (a := ⟨j, by simp; omega⟩) (b := ⟨i, by simpa using hi⟩)
  simp only [List.getElem_map, Fin.mk.injEq] at hids
  exact absurd (hids.1 (by simpa using heq)) (by omega)

theorem length_fillImplicit : (fillImplicit tasks).length = tasks.length := by
  rw [fillImplicit, List.length_zipWith, implicitDeps, waits_inv.length_out, min_self]

theorem getElem?_fillImplicit {a : Task} (ha : tasks[i]? = some a) :
    (fillImplicit tasks)[i]? =
      some { a with implicitDeps := (implicitDeps tasks).getD i [] } := by
  have hi : i < (implicitDeps tasks).length := by
    rw [implicitDeps, waits_inv.length_out]
    exact (List.getElem?_eq_some_iff.1 ha).1
  simp [fillImplicit, List.getElem?_zipWith, ha, hi]

theorem map_id_fillImplicit (tasks : List Task) :
    (fillImplicit tasks).map Task.id = tasks.map Task.id := by
  refine List.ext_getElem? fun i => ?_
  rw [List.getElem?_map, List.getElem?_map]
  cases ha : tasks[i]? with
  | none =>
    have hlen := List.getElem?_eq_none_iff.1 ha
    rw [← length_fillImplicit] at hlen
    rw [List.getElem?_eq_none hlen]
  | some a =>
    rw [getElem?_fillImplicit ha]
    rfl

theorem indexOf_fillImplicit (id : String) : indexOf (fillImplicit tasks) id = indexOf tasks id := by
  have hmap : ∀ l : List Task, indexOf l id = (l.map Task.id).findIdx? (· = id) := by
    intro l
    rw [List.findIdx?_map]
    rfl
  rw [hmap, hmap, map_id_fillImplicit]

theorem mem_waitEdges {a : Task} (ha : tasks[i]? = some a) :
    Edge (waitEdges tasks) i j ↔
      ∃ id, (id ∈ a.spec.deps ∨ id ∈ a.implicitDeps) ∧ indexOf tasks id = some j := by
  simp [Edge, waitEdges, ha, or_and_right, exists_or]

theorem mem_declaredEdges {a : Task} (ha : tasks[i]? = some a) :
    Edge (declaredEdges tasks) i j ↔ ∃ id ∈ a.spec.deps, indexOf tasks id = some j := by
  simp [Edge, declaredEdges, ha]

theorem Granted.indexOf_eq {id : String} (hfirst : FirstIds tasks) (h : Granted tasks w on id) :
    indexOf tasks id = some on := by
  obtain ⟨a, b, -, hb, hconflict, -, -, -, rfl⟩ := h.wait
  exact hfirst on b hb hconflict.active.2

/-- The ids of the waits stand for the waits that were decided. -/
theorem edge_waitEdges_fillImplicit (hfirst : FirstIds tasks) :
    Edge (waitEdges (fillImplicit tasks)) i j ↔ Edge (waits tasks).edges i j := by
  cases ha : tasks[i]? with
  | none =>
    have hlen := List.getElem?_eq_none_iff.1 ha
    constructor
    · intro h
      have := lt_length_of_edge h
      rw [waitEdges, List.length_map, length_fillImplicit] at this
      omega
    · intro h
      have := lt_length_of_edge h
      rw [waits_inv.length_edges] at this
      omega
  | some a =>
    rw [mem_waitEdges (getElem?_fillImplicit ha)]
    simp only [indexOf_fillImplicit]
    constructor
    · rintro ⟨id, hdep | hout, hindex⟩
      · exact waits_inv.declared i j ((mem_declaredEdges ha).2 ⟨id, hdep, hindex⟩)
      · obtain ⟨b, hab, hgrant⟩ := waits_inv.granted i id hout
        rw [hgrant.indexOf_eq hfirst, Option.some.injEq] at hindex
        rwa [← hindex]
    · intro h
      rcases waits_inv.edge i j h with hdeclared | ⟨id, hout, hgrant⟩
      · obtain ⟨id, hdep, hindex⟩ := (mem_declaredEdges ha).1 hdeclared
        exact ⟨id, .inl hdep, hindex⟩
      · exact ⟨id, .inr hout, hgrant.indexOf_eq hfirst⟩

theorem reach_waitEdges_fillImplicit (hfirst : FirstIds tasks) :
    Reach (waitEdges (fillImplicit tasks)) i j ↔ Reach (waits tasks).edges i j := by
  have hrel : Edge (waitEdges (fillImplicit tasks)) = Edge (waits tasks).edges := by
    funext i j
    exact propext (edge_waitEdges_fillImplicit hfirst)
  rw [Reach, Reach, hrel]

/-- Implicit dependencies close no cycle. -/
theorem acyclic_waitEdges_fillImplicit (hfirst : FirstIds tasks)
    (h : Acyclic (Edge (declaredEdges tasks))) :
    Acyclic (Edge (waitEdges (fillImplicit tasks))) := by
  have hwaits := waits_inv.acyclic (fun _ => True) (h.mono fun _ _ hab => hab.1)
  exact hwaits.mono fun _ _ hab => ⟨(edge_waitEdges_fillImplicit hfirst).1 hab, trivial, trivial⟩

/-! ## Every conflict is ordered -/

/-- A pair that is ordered by the waits so far, or never will be. -/
def Settled (edges : List (List ℕ)) (p : (Task × ℕ) × Task × ℕ) : Prop :=
  Conflict p.2.1 p.1.1 → Reach edges p.1.2 p.2.2 ∨ Reach edges p.2.2 p.1.2 ∨ TooLate p.2.1 p.1.1

theorem Waits.settled_pair {task earlier : Task} (hfirst : FirstIds tasks) (h : Waits.Inv tasks s)
    (hmem : ((task, i), (earlier, j)) ∈ pairs tasks) :
    Settled (s.pair tasks (task, i) (earlier, j)).edges ((task, i), (earlier, j)) := by
  intro hconflict
  obtain ⟨hi, hactive, -, hj⟩ := mem_pairs.1 hmem
  rcases Waits.pair_cases (s := s) hi hj hactive with
    ⟨-, hlate⟩ | ⟨w, on, a, b, ha, hb, hwho, hdo⟩
  · exact .inr (.inr (hlate hconflict))
  · -- either way, one of the two now reaches the other
    have hreach : Reach (s.pair tasks (task, i) (earlier, j)).edges w on ∨
        Reach (s.pair tasks (task, i) (earlier, j)).edges on w := by
      rcases hdo with ⟨heq, hdep | hreach⟩ | ⟨heq, hgrant, -⟩
      · have hb' : b.isActive := by
          rcases hwho with ⟨-, rfl⟩ | ⟨-, rfl⟩
          · rw [hj, Option.some.injEq] at hb
            exact hb ▸ hconflict.active.1
          · rw [hi, Option.some.injEq] at hb
            exact hb ▸ hactive
        rw [heq]
        exact .inl (.single (h.declared w on
          ((mem_declaredEdges ha).2 ⟨b.id, hdep, hfirst on b hb hb'⟩)))
      · rw [heq]
        exact .inr hreach
      · have hw : w < s.edges.length := h.length_edges ▸ (List.getElem?_eq_some_iff.1 ha).1
        rw [heq]
        exact .inl (.single ((edge_push hw).2 (.inr ⟨rfl, rfl⟩)))
    rcases hwho with ⟨rfl, rfl⟩ | ⟨rfl, rfl⟩
    · exact hreach.elim .inl fun h => .inr (.inl h)
    · exact hreach.elim (fun h => .inr (.inl h)) .inl

theorem settled_waits (hfirst : FirstIds tasks) :
    ∀ p ∈ pairs tasks, Settled (waits tasks).edges p := by
  rw [waits_eq_foldl_pairs]
  refine foldl_settles (Waits.Inv tasks) (fun p s => Settled s.edges p) ?_ ?_ Waits.Inv.start
  · intro s hs p hp
    exact ⟨hs.pair hp, Waits.settled_pair hfirst hs hp⟩
  · intro s hs p hp q hq hconflict
    have hmono : ∀ {a b : ℕ}, Reach s.edges a b → Reach (s.pair tasks p.1 p.2).edges a b :=
      fun h => Relation.ReflTransGen.mono (fun _ _ hab => Waits.edge_pair hs hp hab) _ _ h
    exact (hq hconflict).imp hmono (Or.imp_left hmono)

/-- With distinct ids, any two unfinished tasks on one runtime whose `owns` intersect are
    ordered by what they wait for, unless both have started, or the one of the later stage
    has; and a task given a wait has not started, waits for no later stage, and did not
    declare the wait. -/
theorem implicitDeps_serialise (hids : (tasks.map Task.id).Nodup) :
    (∀ i j (a b : Task), i ≠ j → tasks[i]? = some a → tasks[j]? = some b →
      a.isActive → b.isActive → a.route.runtime = b.route.runtime →
      anyIntersect a.spec.owns b.spec.owns →
      Reach (waitEdges (fillImplicit tasks)) i j ∨ Reach (waitEdges (fillImplicit tasks)) j i ∨
        (a.spec.stage = b.spec.stage ∧ a.underWay ∧ b.underWay) ∨
        (a.spec.stage < b.spec.stage ∧ b.underWay) ∨
        (b.spec.stage < a.spec.stage ∧ a.underWay)) ∧
    ∀ i (a : Task), tasks[i]? = some a → ∀ id ∈ (implicitDeps tasks).getD i [],
      ¬a.underWay ∧ id ∉ a.spec.deps ∧
        ∃ (j : ℕ) (b : Task), tasks[j]? = some b ∧ b.id = id ∧
          b.spec.stage ≤ a.spec.stage := by
  have hfirst := firstIds_of_nodup hids
  refine ⟨fun i j a b hne ha hb hactive hactive' hruntime howns => ?_, fun i a ha id hid => ?_⟩
  · have hconflict : Conflict a b := ⟨⟨hactive, hactive'⟩, hruntime, howns⟩
    simp only [reach_waitEdges_fillImplicit hfirst]
    rcases Nat.lt_or_gt_of_ne hne with hlt | hlt
    · -- `a` comes first
      rcases settled_waits hfirst _ (mem_pairs.2 ⟨hb, hactive', hlt, ha⟩) hconflict with h | h | h
      exacts [.inr (.inl h), .inl h, .inr (.inr h)]
    · rcases settled_waits hfirst _ (mem_pairs.2 ⟨ha, hactive, hlt, hb⟩) hconflict.symm with
        h | h | h
      · exact .inl h
      · exact .inr (.inl h)
      · refine .inr (.inr ?_)
        rcases h with ⟨hs, hub, hua⟩ | h | h
        exacts [.inl ⟨hs.symm, hua, hub⟩, .inr (.inr h), .inr (.inl h)]
  · obtain ⟨j, -, hgrant⟩ := waits_inv.granted i id hid
    obtain ⟨a', b, ha', hb, -, hstarted, hstage, hdep, rfl⟩ := hgrant.wait
    rw [ha, Option.some.injEq] at ha'
    subst ha'
    exact ⟨hstarted, hdep, j, b, hb, rfl, hstage⟩

/-- A task under way, one before it in the plan, and one of the next stage. -/
def threeTasks : List Task :=
  [{ spec := { id := "a", owns := ["src/a.rs"] }, route := ⟨.claude, "", ""⟩ },
    { spec := { id := "b", owns := ["src/**"] }, route := ⟨.claude, "", ""⟩, state := .working },
    { spec := { id := "c", owns := ["src/c.rs"], deps := ["a"], stage := 2 }
      route := ⟨.claude, "", ""⟩ }]

/-- The waits go to the task under way. -/
theorem implicitDeps_serialise_threeTasks :
    (Reach (waitEdges (fillImplicit threeTasks)) 0 1 ∨
      Reach (waitEdges (fillImplicit threeTasks)) 1 0) ∧
    implicitDeps threeTasks = [["b"], [], ["b"]] := by
  refine ⟨?_, by decide⟩
  rcases (@implicitDeps_serialise threeTasks (by decide)).1 0 1 _ _ (by decide) rfl rfl (by decide)
    (by decide) (by decide) (by decide) with h | h | ⟨-, h, -⟩ | ⟨h, -⟩ | ⟨h, -⟩
  · exact .inl h
  · exact .inr h
  · exact absurd h (by decide)
  · exact absurd h (by decide)
  · exact absurd h (by decide)

end Anthrex.Plan
