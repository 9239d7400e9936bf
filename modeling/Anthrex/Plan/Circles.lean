import Anthrex.Plan.Cycles

/-!
# The cycles reported

What the report of `cycles_over` says (`run/validate_graph.rs`), for tasks with distinct ids. There
is one error for each component of unfinished tasks that wait for each other, in the order of the
components' first tasks, and its path goes from the first task back to it along what each task
waits for (`cyclesOver_exact`).

The walk back goes depth first through the component. It cannot end without an edge back: what it
has been to and left leads nowhere else in the component (`Walking`), and from there the start is
reached.
-/

namespace Anthrex.Plan

open Anthrex.Run Graph Relation

/-! ## The walk back -/

variable {edges : List (List ℕ)} {members : List ℕ} {start : ℕ} {path : List (ℕ × ℕ)}
  {visited : List ℕ} {v : ℕ}

/-- From a node back to itself, along edges. -/
structure Closes (r : ℕ → ℕ → Prop) (start : ℕ) (walk : List ℕ) : Prop where
  head : walk.head? = some start
  last : walk.getLast? = some start
  moves : 1 < walk.length
  along : walk.IsChain r

/-- All nodes of such a walk reach each other. -/
theorem Closes.mutual {r : ℕ → ℕ → Prop} {walk : List ℕ} {j : ℕ} (h : Closes r start walk)
    (hj : j ∈ walk) : ReflTransGen r start j ∧ ReflTransGen r j start := by
  obtain ⟨pre, post, rfl⟩ := List.append_of_mem hj
  have hhead := h.head
  have hlast := h.last
  have halong := h.along
  rw [List.append_cons] at hhead halong
  rw [List.getLast?_append_of_ne_nil _ (List.cons_ne_nil _ _)] at hlast
  have hbefore := List.relationReflTransGen_of_exists_isChain _ halong.left_of_append
    (List.append_ne_nil_of_right_ne_nil _ (List.cons_ne_nil _ _))
  have hafter := List.relationReflTransGen_of_exists_isChain _ h.along.right_of_append
    (List.cons_ne_nil _ _)
  rw [List.head?_append_of_ne_nil _ (by simp)] at hhead
  rw [(List.head_eq_iff_head?_eq_some _).2 hhead, List.getLast_concat] at hbefore
  rw [List.head_cons, (List.getLast_eq_iff_getLast?_eq_some _).2 hlast] at hafter
  exact ⟨hbefore, hafter⟩

/-- An edge that the walk takes or has to take: not back to the start, and in the component only
    to what it has been to. -/
def Spent (members visited : List ℕ) (start next : ℕ) : Prop :=
  next ≠ start ∧ (next ∈ members → next ∈ visited)

/-- The walk so far. -/
structure Walking (edges : List (List ℕ)) (members : List ℕ) (start : ℕ) (path : List (ℕ × ℕ))
    (visited : List ℕ) : Prop where
  started : start ∈ visited
  first : path ≠ [] → (path.map Prod.fst).getLast? = some start
  along : (path.map Prod.fst).IsChain fun b a => Edge edges a b
  tried : ∀ p ∈ path, ∀ k < p.2, ∀ next, (edges.getD p.1 [])[k]? = some next →
    Spent members visited start next
  left : ∀ v ∈ visited, v ∉ path.map Prod.fst → ∀ next, Edge edges v next →
    Spent members visited start next

theorem Spent.mono {visited' : List ℕ} {next : ℕ} (h : Spent members visited start next)
    (hsub : visited ⊆ visited') : Spent members visited' start next :=
  h.imp_right fun hmem hnext => hsub (hmem hnext)

theorem Walking.begin (edges : List (List ℕ)) (members : List ℕ) (start : ℕ) :
    Walking edges members start [(start, 0)] [start] := by
  refine ⟨List.mem_singleton_self _, fun _ => rfl, List.isChain_singleton _, ?_, ?_⟩
  · intro p hp k hk
    rw [List.mem_singleton.1 hp] at hk
    exact absurd hk (Nat.not_lt_zero _)
  · intro v hv hnot
    exact absurd (by simpa using hv) hnot

variable {node cursor next : ℕ}

/-- All edges of the last node are tried. -/
theorem Walking.leave (h : Walking edges members start ((node, cursor) :: path) visited)
    (hnone : (edges.getD node [])[cursor]? = none) : Walking edges members start path visited := by
  refine ⟨h.started, fun hne => ?_, h.along.tail, fun p hp => h.tried p (List.mem_cons_of_mem _ hp),
    fun v hv hnot next hedge => ?_⟩
  · have hfirst := h.first (List.cons_ne_nil _ _)
    rwa [List.map_cons, List.getLast?_cons_of_ne_nil (by simpa using hne)] at hfirst
  · by_cases hnode : v = node
    · obtain ⟨k, hk⟩ := List.mem_iff_getElem?.1 hedge
      have hlt := (List.getElem?_eq_some_iff.1 hk).1
      rw [hnode] at hk hlt
      rw [List.getElem?_eq_none_iff] at hnone
      exact h.tried _ List.mem_cons_self k (by omega) next hk
    · refine h.left v hv ?_ next hedge
      rw [List.map_cons, List.mem_cons, not_or]
      exact ⟨hnode, hnot⟩

/-- An edge of the last node leads nowhere new. -/
theorem Walking.skip (h : Walking edges members start ((node, cursor) :: path) visited)
    (hnext : (edges.getD node [])[cursor]? = some next) (hspent : Spent members visited start next) :
    Walking edges members start ((node, cursor + 1) :: path) visited := by
  refine ⟨h.started, fun _ => h.first (List.cons_ne_nil _ _), h.along, ?_, h.left⟩
  rw [List.forall_mem_cons]
  refine ⟨fun k hk other hother => ?_, fun p hp => h.tried p (List.mem_cons_of_mem _ hp)⟩
  rcases Nat.lt_succ_iff_lt_or_eq.1 hk with hlt | rfl
  · exact h.tried _ List.mem_cons_self k hlt other hother
  · rw [hnext, Option.some.injEq] at hother
    exact hother ▸ hspent

/-- An edge of the last node leads on. -/
theorem Walking.enter (h : Walking edges members start ((node, cursor) :: path) visited)
    (hnext : (edges.getD node [])[cursor]? = some next) (hne : next ≠ start) :
    Walking edges members start ((next, 0) :: (node, cursor + 1) :: path) (next :: visited) := by
  have hedge : Edge edges node next := List.mem_of_getElem? hnext
  have hsub : visited ⊆ next :: visited := List.subset_cons_self _ _
  have hspent : Spent members (next :: visited) start next := ⟨hne, fun _ => List.mem_cons_self⟩
  refine ⟨hsub h.started, fun _ => ?_, ?_, ?_, fun v hv hnot other hother => ?_⟩
  · have hfirst := h.first (List.cons_ne_nil _ _)
    rw [List.map_cons, List.getLast?_cons_of_ne_nil (by simp)]
    exact hfirst
  · exact List.isChain_cons_cons.2 ⟨hedge, h.along⟩
  · rw [List.forall_mem_cons, List.forall_mem_cons]
    refine ⟨fun k hk => absurd hk (Nat.not_lt_zero _), fun k hk other hother => ?_,
      fun p hp k hk other hother => (h.tried p (List.mem_cons_of_mem _ hp) k hk other hother).mono hsub⟩
    rcases Nat.lt_succ_iff_lt_or_eq.1 hk with hlt | rfl
    · exact (h.tried _ List.mem_cons_self k hlt other hother).mono hsub
    · rw [hnext, Option.some.injEq] at hother
      exact hother ▸ hspent
  · rw [List.map_cons, List.mem_cons, not_or] at hnot
    exact (h.left v ((List.mem_cons.1 hv).resolve_left hnot.1) hnot.2 other hother).mono hsub

/-- The edges of the path to try, and the nodes of it to leave. -/
def untried (edges : List (List ℕ)) : List (ℕ × ℕ) → ℕ
  | [] => 0
  | (node, cursor) :: path => (edges.getD node []).length - cursor + 1 + untried edges path

/-- The edges and the nodes the walk has not come to: of each node its edges, and one more. -/
def ahead (edges : List (List ℕ)) (visited : List ℕ) : ℕ := pending (edges.map (0 :: ·)) visited

theorem ahead_cons (hlt : node < edges.length) (hnew : node ∉ visited) :
    (edges.getD node []).length + 1 + ahead edges (node :: visited) = ahead edges visited := by
  have hpending := pending_cons (edges.map (0 :: ·)) hnew
  have hlength : ((edges.map (0 :: ·)).getD node []).length = (edges.getD node []).length + 1 := by
    simp [List.getD_eq_getElem?_getD, List.getElem?_eq_getElem hlt]
  rw [ahead, ahead, ← hpending, hlength]

theorem ahead_nil : ahead edges [] = edges.flatten.length + edges.length := by
  rw [ahead, pending_nil]
  induction edges with
  | nil => rfl
  | cons l edges ih =>
    simp only [List.map_cons, List.flatten_cons, List.length_append, List.length_cons] at ih ⊢
    omega

/-- The walk comes back, when what it may come to is not all without an edge back. -/
theorem Walking.walkBack (hrange : ∀ a b, Edge edges a b → b < edges.length)
    (hback : ∀ visited : List ℕ, start ∈ visited →
      ¬∀ v ∈ visited, ∀ next, Edge edges v next → Spent members visited start next)
    {fuel : ℕ} (h : Walking edges members start path visited)
    (hfuel : untried edges path + ahead edges visited < fuel) :
    Closes (Edge edges) start (walkBack edges members start fuel path visited) := by
  induction fuel generalizing path visited with
  | zero => omega
  | succ fuel ih =>
    rcases path with _ | ⟨⟨node, cursor⟩, path⟩
    · -- an empty path has left all it visited, and a component has an edge back from one of those
      exact absurd (fun v hv => h.left v hv List.not_mem_nil) (hback visited h.started)
    · rw [Plan.walkBack]
      rw [untried] at hfuel
      cases hnext : (edges.getD node [])[cursor]? with
      | none => exact ih (h.leave hnext) (by omega)
      | some next =>
        have hcursor := (List.getElem?_eq_some_iff.1 hnext).1
        have hedge : Edge edges node next := List.mem_of_getElem? hnext
        show Closes (Edge edges) start (if next = start then _ else if _ then _ else _)
        split_ifs with hstart hnew
        · -- back at the start
          have hfirst := h.first (List.cons_ne_nil _ _)
          refine ⟨?_, ?_, ?_, ?_⟩
          · rw [List.head?_reverse, List.getLast?_cons_of_ne_nil (List.cons_ne_nil _ _)]
            exact hfirst
          · rw [List.getLast?_reverse, List.head?_cons]
          · rw [List.length_reverse, List.length_cons, List.length_cons]
            omega
          · rw [List.isChain_reverse]
            exact List.isChain_cons_cons.2 ⟨hstart ▸ hedge, h.along⟩
        · -- on to a node of the component that was not visited
          refine ih (h.enter hnext hstart) ?_
          have hahead := ahead_cons (hrange node next hedge) hnew.2
          rw [untried, untried]
          omega
        · -- another node, or one already visited, leads nowhere new
          refine ih (h.skip hnext ⟨hstart, fun hmem => ?_⟩) ?_
          · by_contra hnot
            exact hnew ⟨hmem, hnot⟩
          · rw [untried]
            omega

/-! ## The components -/

variable {comp : List ℕ}

/-- A component is sorted, and it is all that its nodes reach and are reached from. -/
theorem component_spec (hrange : ∀ a b, Edge edges a b → b < edges.length)
    (hcomp : comp ∈ components edges) :
    comp ≠ [] ∧ comp.Pairwise (· < ·) ∧
      ∀ a ∈ comp, a < edges.length ∧ ∀ b, b ∈ comp ↔ Reach edges a b ∧ Reach edges b a := by
  obtain ⟨c, hc, rfl⟩ := List.mem_map.1 ((List.perm_insertionSort _ _).mem_iff.1 hcomp)
  have hperm := List.perm_insertionSort (· ≤ ·) c
  obtain ⟨hne, hnodup, hstrong⟩ := Tarjan.run_strong hrange c hc
  have hsorted : (c.insertionSort (· ≤ ·)).Pairwise (· ≤ ·) := List.pairwise_insertionSort _ c
  refine ⟨fun hnil => hne ?_, ?_, fun a ha => ⟨?_, fun b => ⟨fun hb => ?_, fun hab => ?_⟩⟩⟩
  · rw [hnil] at hperm
    exact hperm.symm.eq_nil
  · exact hsorted.imp₂ (fun _ _ hle hne => lt_of_le_of_ne hle hne) (hperm.nodup_iff.2 hnodup)
  · exact (Tarjan.run_apart hrange).2 a (List.mem_flatten.2 ⟨c, hc, hperm.mem_iff.1 ha⟩)
  · rw [hperm.mem_iff] at ha hb
    exact ⟨hstrong a ha b hb, hstrong b hb a ha⟩
  · rw [hperm.mem_iff] at ha ⊢
    exact Tarjan.run_maximal hrange hc ha hab.1 hab.2

theorem mem_component (hlt : v < edges.length)
    (hrange : ∀ a b, Edge edges a b → b < edges.length) : ∃ comp ∈ components edges, v ∈ comp := by
  obtain ⟨c, hc, hv⟩ := List.mem_flatten.1 ((Tarjan.run_ordered hrange).1 v hlt)
  refine ⟨c.insertionSort (· ≤ ·), ?_, (List.perm_insertionSort _ _).mem_iff.2 hv⟩
  exact (List.perm_insertionSort _ _).mem_iff.2 (List.mem_map_of_mem hc)

theorem head_mem (hne : comp ≠ []) : comp.headD 0 ∈ comp := by
  cases comp with
  | nil => exact absurd rfl hne
  | cons a l => exact List.mem_cons_self

theorem head_le (hsorted : comp.Pairwise (· < ·)) {b : ℕ} (hb : b ∈ comp) : comp.headD 0 ≤ b := by
  cases comp with
  | nil => cases hb
  | cons a l =>
    rcases List.mem_cons.1 hb with rfl | hb
    · exact le_rfl
    · exact ((List.pairwise_cons.1 hsorted).1 b hb).le

/-- The components stand in the order of their first nodes. -/
theorem pairwise_components (hrange : ∀ a b, Edge edges a b → b < edges.length) :
    (components edges).Pairwise fun c d => c.headD 0 < d.headD 0 := by
  have hle : (components edges).Pairwise fun c d => c.headD 0 ≤ d.headD 0 :=
    List.pairwise_insertionSort _ _
  have hapart : ((Tarjan.run edges).map (List.insertionSort (· ≤ ·))).Pairwise
      fun c d => c.headD 0 ≠ d.headD 0 := by
    rw [List.pairwise_map]
    refine (List.nodup_flatten.1 (Tarjan.run_apart hrange).1).2.imp_of_mem ?_
    intro c d hc hd hdisjoint heq
    have hhead : ∀ c ∈ Tarjan.run edges, (c.insertionSort (· ≤ ·)).headD 0 ∈ c := fun c hc =>
      (List.perm_insertionSort _ _).mem_iff.1 (head_mem fun hnil =>
        (Tarjan.run_strong hrange c hc).1 (hnil ▸ List.perm_insertionSort (· ≤ ·) c).symm.eq_nil)
    exact hdisjoint (hhead c hc) (heq ▸ hhead d hd)
  have hne : (components edges).Pairwise fun c d => c.headD 0 ≠ d.headD 0 :=
    ((List.perm_insertionSort _ _).pairwise_iff Ne.symm).2 hapart
  exact hle.imp₂ (fun _ _ hle hne => lt_of_le_of_ne hle hne) hne

/-- A component is a cycle when it has more than one node, or one that leads to itself. -/
theorem cyclic_iff (hrange : ∀ a b, Edge edges a b → b < edges.length)
    (hcomp : comp ∈ components edges) :
    (1 < comp.length ∨ comp.headD 0 ∈ edges.getD (comp.headD 0) []) ↔
      TransGen (Edge edges) (comp.headD 0) (comp.headD 0) := by
  obtain ⟨hne, hsorted, hmem⟩ := component_spec hrange hcomp
  have hhead := head_mem hne
  constructor
  · rintro (hlength | hself)
    · obtain ⟨a, b, l, rfl⟩ : ∃ a b l, comp = a :: b :: l := by
        rcases comp with _ | ⟨a, _ | ⟨b, l⟩⟩
        · simp at hlength
        · simp at hlength
        · exact ⟨a, b, l, rfl⟩
      obtain ⟨hab, hba⟩ := ((hmem a hhead).2 b).1 (by simp)
      have hlt : a < b := (List.pairwise_cons.1 hsorted).1 b List.mem_cons_self
      exact ((reflTransGen_iff_eq_or_transGen.1 hab).resolve_left hlt.ne').trans_left hba
    · exact .single hself
  · intro hcycle
    obtain ⟨next, hedge, hreach⟩ := TransGen.head'_iff.1 hcycle
    by_cases hnext : next = comp.headD 0
    · rw [hnext] at hedge
      exact .inr hedge
    · have hin : next ∈ comp := ((hmem _ hhead).2 next).2 ⟨.single hedge, hreach⟩
      refine .inl ?_
      by_contra hle
      rw [eq_singleton_of_mem (by omega) hin] at hnext
      exact hnext rfl

/-- The walk back of a component with a cycle comes back. -/
theorem closes_pathBack (hrange : ∀ a b, Edge edges a b → b < edges.length)
    (hcomp : comp ∈ components edges)
    (hcycle : TransGen (Edge edges) (comp.headD 0) (comp.headD 0)) :
    Closes (Edge edges) (comp.headD 0) (pathBack edges comp (comp.headD 0)) := by
  obtain ⟨hne, -, hmem⟩ := component_spec hrange hcomp
  have hhead := head_mem hne
  generalize comp.headD 0 = start at hcycle hhead ⊢
  refine (Walking.begin edges comp start).walkBack hrange ?_ ?_
  · -- what stays in what the walk has been to comes to a node before the start
    intro visited hstart hspent
    have hvisited : ∀ x, Reach edges start x → Reach edges x start → x ∈ visited := by
      intro x hx
      induction hx with
      | refl => exact fun _ => hstart
      | tail hy hedge ih =>
        intro hback
        have hin := ((hmem start hhead).2 _).2 ⟨hy.tail hedge, hback⟩
        exact (hspent _ (ih (.head hedge hback)) _ hedge).2 hin
    obtain ⟨last, hreach, hedge⟩ := TransGen.tail'_iff.1 hcycle
    exact (hspent last (hvisited last hreach (.single hedge)) start hedge).1 rfl
  · have hlt := (hmem start hhead).1
    have hahead := ahead_cons hlt (List.not_mem_nil (a := start))
    rw [ahead_nil] at hahead
    rw [untried, untried]
    omega

/-! ## The report -/

variable {tasks : List Task} {withImplicit : Bool} {i j : ℕ}

/-- An unfinished task waits for another, by their places among the unfinished ones. -/
def WaitsFor (tasks : List Task) (withImplicit : Bool) (i j : ℕ) : Prop :=
  ∃ a b, (tasks.filter Task.isActive)[i]? = some a ∧ (tasks.filter Task.isActive)[j]? = some b ∧
    (b.id ∈ a.spec.deps ∨ withImplicit ∧ b.id ∈ a.implicitDeps)

/-- A task on a cycle, the first in the plan of those it waits for and that wait for it. -/
def FirstOnCycle (tasks : List Task) (withImplicit : Bool) (i : ℕ) : Prop :=
  TransGen (WaitsFor tasks withImplicit) i i ∧
    ∀ j < i, ¬(ReflTransGen (WaitsFor tasks withImplicit) i j ∧
      ReflTransGen (WaitsFor tasks withImplicit) j i)

/-- The error that names the tasks of a walk. -/
def cycleAlong (tasks : List Task) (walk : List ℕ) : PlanError :=
  ⟨none, "deps", "12.1", "cycle " ++ " -> ".intercalate
    (walk.map fun i => ((tasks.filter Task.isActive)[i]?.map Task.id).getD "")⟩

theorem edge_eq_waitsFor (hdistinct : (tasks.map Task.id).Nodup) :
    Edge (activeEdges (tasks.filter Task.isActive) withImplicit) = WaitsFor tasks withImplicit := by
  have hfirst : FirstIds (tasks.filter Task.isActive) :=
    firstIds_of_nodup (hdistinct.sublist (List.filter_sublist.map _))
  funext i j
  refine propext ⟨fun h => ?_, ?_⟩
  · obtain ⟨a, b, id, ha, hb, rfl, hid⟩ := edge_activeEdges h
    exact ⟨a, b, ha, hb, hid⟩
  · rintro ⟨a, b, ha, hb, hid⟩
    have hactive : b.isActive := (List.mem_filter.1 (List.mem_of_getElem? hb)).2
    exact (mem_activeEdges ha).2 ⟨b.id, hid, hfirst j b hb hactive⟩

/-- The first node of a component with a cycle. -/
def firstOf (edges : List (List ℕ)) (comp : List ℕ) : Option ℕ :=
  if 1 < comp.length ∨ comp.headD 0 ∈ edges.getD (comp.headD 0) [] then some (comp.headD 0) else none

theorem mem_filterMap_firstOf (hrange : ∀ a b, Edge edges a b → b < edges.length) :
    i ∈ (components edges).filterMap (firstOf edges) ↔
      TransGen (Edge edges) i i ∧ ∀ j < i, ¬(Reach edges i j ∧ Reach edges j i) := by
  rw [List.mem_filterMap]
  constructor
  · rintro ⟨comp, hcomp, hfirst⟩
    rw [firstOf, Option.ite_none_right_eq_some, Option.some.injEq] at hfirst
    obtain ⟨hcyclic, rfl⟩ := hfirst
    obtain ⟨hne, hsorted, hmem⟩ := component_spec hrange hcomp
    refine ⟨(cyclic_iff hrange hcomp).1 hcyclic, fun j hj hreach => ?_⟩
    have hle := head_le hsorted (((hmem _ (head_mem hne)).2 j).2 hreach)
    omega
  · rintro ⟨hcycle, hbefore⟩
    obtain ⟨next, hedge, -⟩ := TransGen.head'_iff.1 hcycle
    obtain ⟨comp, hcomp, hi⟩ := mem_component (lt_length_of_edge hedge) hrange
    obtain ⟨hne, hsorted, hmem⟩ := component_spec hrange hcomp
    have hhead : comp.headD 0 = i := by
      refine (head_le hsorted hi).antisymm (not_lt.1 fun hlt => ?_)
      exact hbefore _ hlt (((hmem i hi).2 _).1 (head_mem hne))
    refine ⟨comp, hcomp, ?_⟩
    rw [firstOf, if_pos ((cyclic_iff hrange hcomp).2 (hhead.symm ▸ hcycle)), hhead]

/-- The report names exactly the cycles: nothing where there is none, else one walk for each
    component with a cycle, from its first task back to it. -/
theorem cyclesOver_exact (hdistinct : (tasks.map Task.id).Nodup) (withImplicit : Bool) :
    (cyclesOver tasks withImplicit = [] ↔ Acyclic (WaitsFor tasks withImplicit)) ∧
      ∃ firsts : List ℕ, firsts.Pairwise (· < ·) ∧
        (∀ i, i ∈ firsts ↔ FirstOnCycle tasks withImplicit i) ∧
        List.Forall₂ (fun i error => ∃ walk, Closes (WaitsFor tasks withImplicit) i walk ∧
          (∀ j ∈ walk, ReflTransGen (WaitsFor tasks withImplicit) i j ∧
            ReflTransGen (WaitsFor tasks withImplicit) j i) ∧
          error = cycleAlong tasks walk) firsts (cyclesOver tasks withImplicit) := by
  have hedges : Edge (activeEdges (tasks.filter Task.isActive) withImplicit) =
      WaitsFor tasks withImplicit := edge_eq_waitsFor hdistinct
  have hrange : ∀ a b, Edge (activeEdges (tasks.filter Task.isActive) withImplicit) a b →
      b < (activeEdges (tasks.filter Task.isActive) withImplicit).length :=
    fun _ _ => lt_length_of_edge_activeEdges
  refine ⟨⟨fun h => hedges ▸ acyclic_of_cyclesOver h, fun h => cyclesOver_eq_nil (hedges.symm ▸ h)⟩,
    (components (activeEdges (tasks.filter Task.isActive) withImplicit)).filterMap
      (firstOf (activeEdges (tasks.filter Task.isActive) withImplicit)),
    ?_, fun i => ?_, ?_⟩
  · -- components come in the order of their first tasks
    refine (pairwise_components hrange).filterMap _ fun c d hlt i hi j hj => ?_
    rw [firstOf, Option.ite_none_right_eq_some, Option.some.injEq] at hi hj
    exact hi.2 ▸ hj.2 ▸ hlt
  · rw [mem_filterMap_firstOf hrange, Reach, hedges]
    rfl
  · -- error by error, along the list of components
    rw [cyclesOver]
    refine List.rel_filterMap (R := fun c d => c = d ∧ c ∈ components _) ?_
      (List.forall₂_same.2 fun comp hcomp => ⟨rfl, hcomp⟩)
    rintro comp _ ⟨rfl, hcomp⟩
    rw [firstOf, cycleError]
    by_cases hcyclic : 1 < comp.length ∨
        comp.headD 0 ∈ (activeEdges (tasks.filter Task.isActive) withImplicit).getD (comp.headD 0) []
    · rw [if_pos hcyclic, if_pos hcyclic]
      have hcloses := closes_pathBack hrange hcomp ((cyclic_iff hrange hcomp).1 hcyclic)
      rw [hedges] at hcloses
      exact .some ⟨_, hcloses, fun j hj => hcloses.mutual hj, rfl⟩
    · rw [if_neg hcyclic, if_neg hcyclic]
      exact .none

/-- Two tasks that wait for each other, a third one that one of them waits for too. -/
def ring : List Task :=
  [{ spec := { id := "x", owns := [], deps := ["y", "z"] }, route := ⟨.claude, "", ""⟩ },
    { spec := { id := "y", owns := [], deps := ["x"] }, route := ⟨.claude, "", ""⟩ },
    { spec := { id := "z", owns := [] }, route := ⟨.claude, "", ""⟩ }]

theorem cyclesOver_exact_ring :
    cyclesOver ring false = [⟨none, "deps", "12.1", "cycle x -> y -> x"⟩] ∧
      ¬Acyclic (WaitsFor ring false) := by
  have hreport : cyclesOver ring false = [⟨none, "deps", "12.1", "cycle x -> y -> x"⟩] := by decide
  refine ⟨hreport, fun hacyclic => ?_⟩
  have hnone := (cyclesOver_exact (by decide) false).1.2 hacyclic
  rw [hreport] at hnone
  cases hnone

end Anthrex.Plan
