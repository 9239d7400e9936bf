import Anthrex.Data.Graph
import Anthrex.Data.Lists
import Mathlib.Data.List.Nodup

/-!
# Strongly connected components

Tarjan's algorithm as `run/validate_graph.rs` has it: a depth-first visit numbers the
nodes, keeps on a stack the ones whose component is open, and in `low` the lowest number
on the stack that a node is known to lead to. A node that leads to none below its own
closes its component.

The nodes being visited are a path of the graph that the stack holds: from each of them
all that is above it on the stack is reached, and from each node on the stack one of them
below it (`Tarjan.Inv`). So the nodes of a component reach each other (`run_strong`).

A node whose visit ended leads to closed components, and on the stack to nothing below what
`low` says (`Tarjan.Closed`). So an edge leads from a component to itself or to one closed
before it, and every node is in one (`run_ordered`), no node in two (`run_apart`). So the nodes
that reach each other are in one component (`run_maximal`).
-/

namespace Anthrex.Plan

open Graph

/-- The state of a run; the stack has its top first. -/
structure Tarjan where
  index : ℕ → Option ℕ
  low : ℕ → ℕ
  onStack : ℕ → Bool
  stack : List ℕ
  next : ℕ
  out : List (List ℕ)

namespace Tarjan

def new : Tarjan := ⟨fun _ => none, fun _ => 0, fun _ => false, [], 0, []⟩

/-- The visit of `v` begins. -/
def enter (s : Tarjan) (v : ℕ) : Tarjan :=
  { s with
    index := Function.update s.index v (some s.next)
    low := Function.update s.low v s.next
    next := s.next + 1
    stack := v :: s.stack
    onStack := Function.update s.onStack v true }

/-- `low[v] = low[v].min(k)`. -/
def lower (s : Tarjan) (v k : ℕ) : Tarjan :=
  { s with low := Function.update s.low v (min (s.low v) k) }

/-- `low[v] = low[v].min(low[w])`. -/
def lowerBy (s : Tarjan) (v w : ℕ) : Tarjan := s.lower v (s.low w)

/-- The component popped off a stack down to `v`, and what is left. -/
def popTo (v : ℕ) : List ℕ → List ℕ × List ℕ
  | [] => ([], [])
  | w :: stack => if w = v then ([w], stack) else ((w :: (popTo v stack).1), (popTo v stack).2)

/-- The visit of `v` ends: its component is closed if it leads to nothing below it. -/
def finish (s : Tarjan) (v : ℕ) : Tarjan :=
  if some (s.low v) = s.index v then
    { s with
      stack := (popTo v s.stack).2
      onStack := fun w => s.onStack w && w ∉ (popTo v s.stack).1
      out := s.out ++ [(popTo v s.stack).1] }
  else s

/-- The visit of `v`; the fuel bounds the depth of the recursion. -/
def visit (edges : List (List ℕ)) : ℕ → ℕ → Tarjan → Tarjan
  | 0, _, s => s
  | fuel + 1, v, s =>
    ((edges.getD v []).foldl
      (fun s w =>
        match s.index w with
        | none => (visit edges fuel w s).lowerBy v w
        | some iw => if s.onStack w then s.lower v iw else s)
      (s.enter v)).finish v

def run (edges : List (List ℕ)) : List (List ℕ) :=
  ((List.range edges.length).foldl
    (fun s v => if (s.index v).isNone then visit edges edges.length v s else s) new).out

/-! ## The stack -/

/-- The number of a node, once it has one. -/
def idx (s : Tarjan) (w : ℕ) : ℕ := (s.index w).getD 0

theorem popTo_append {v : ℕ} {seg rest : List ℕ} (hv : v ∉ seg) :
    popTo v (seg ++ v :: rest) = (seg ++ [v], rest) := by
  induction seg with
  | nil => simp [popTo]
  | cons w seg ih =>
    rw [List.mem_cons, not_or] at hv
    rw [List.cons_append, popTo, if_neg (Ne.symm hv.1), ih hv.2]
    rfl

/-- What holds while the nodes of `path` are being visited. -/
structure Inv (edges : List (List ℕ)) (path : List ℕ) (s : Tarjan) : Prop where
  lt_next : ∀ w i, s.index w = some i → i < s.next
  indexed : ∀ w ∈ s.stack, (s.index w).isSome
  sorted : s.stack.Pairwise fun a b => s.idx b < s.idx a
  onStack : ∀ w, s.onStack w = true ↔ w ∈ s.stack
  mem_stack : ∀ g ∈ path, g ∈ s.stack
  down : ∀ g ∈ path, ∀ y ∈ s.stack, s.idx g ≤ s.idx y → Reach edges g y
  up : ∀ y ∈ s.stack, ∃ g ∈ path, s.idx g ≤ s.idx y ∧ Reach edges y g
  out : ∀ c ∈ s.out, c ≠ [] ∧ c.Nodup ∧ ∀ a ∈ c, ∀ b ∈ c, Reach edges a b

/-- What a visit leaves as it was: the numbers given, `low` of the nodes that had one, and
    what was on the stack. -/
structure Extends (s t : Tarjan) : Prop where
  index : ∀ w i, s.index w = some i → t.index w = some i
  low : ∀ w, (s.index w).isSome → t.low w = s.low w
  stack : s.stack <:+ t.stack

variable {edges : List (List ℕ)} {path : List ℕ} {s t : Tarjan} {v w k : ℕ}

theorem Extends.refl (s : Tarjan) : Extends s s := ⟨fun _ _ => id, fun _ _ => rfl, List.suffix_rfl⟩

theorem Extends.isSome (h : Extends s t) (hw : (s.index w).isSome) : (t.index w).isSome := by
  obtain ⟨i, hi⟩ := Option.isSome_iff_exists.1 hw
  rw [h.index w i hi]
  rfl

theorem Extends.idx_eq (h : Extends s t) (hw : (s.index w).isSome) : t.idx w = s.idx w := by
  obtain ⟨i, hi⟩ := Option.isSome_iff_exists.1 hw
  rw [idx, idx, h.index w i hi, hi]

theorem Extends.trans {u : Tarjan} (h : Extends s t) (h' : Extends t u) : Extends s u :=
  ⟨fun w i hi => h'.index w i (h.index w i hi),
    fun w hw => (h'.low w (h.isSome hw)).trans (h.low w hw), h.stack.trans h'.stack⟩

theorem Inv.idx_lt_next (h : Inv edges path s) (hw : w ∈ s.stack) : s.idx w < s.next := by
  obtain ⟨i, hi⟩ := Option.isSome_iff_exists.1 (h.indexed w hw)
  rw [idx, hi]
  exact h.lt_next w i hi

@[simp] theorem enter_index_self : (s.enter v).index v = some s.next := by simp [enter]

@[simp] theorem enter_index_of_ne (hw : w ≠ v) : (s.enter v).index w = s.index w := by
  simp [enter, hw]

@[simp] theorem enter_onStack_self : (s.enter v).onStack v = true := by simp [enter]

@[simp] theorem enter_onStack_of_ne (hw : w ≠ v) : (s.enter v).onStack w = s.onStack w := by
  simp [enter, hw]

@[simp] theorem enter_stack : (s.enter v).stack = v :: s.stack := rfl

@[simp] theorem enter_next : (s.enter v).next = s.next + 1 := rfl

@[simp] theorem idx_enter_self : (s.enter v).idx v = s.next := by simp [idx]

theorem idx_enter_of_ne (hw : w ≠ v) : (s.enter v).idx w = s.idx w := by simp [idx, hw]

/-- A node that all nodes being visited lead to joins them. -/
theorem Inv.enter (h : Inv edges path s) (hv : s.index v = none)
    (hpath : ∀ g ∈ path, Reach edges g v) : Inv edges (v :: path) (s.enter v) := by
  have hne : ∀ w ∈ s.stack, w ≠ v := by
    rintro w hw rfl
    have := h.indexed w hw
    simp [hv] at this
  refine ⟨fun w i hi => ?_, fun w hw => ?_, ?_, fun w => ?_, fun g hg => ?_, fun g hg y hy hle => ?_,
    fun y hy => ?_, h.out⟩
  · -- numbers: the new one is the largest
    by_cases hw : w = v
    · subst hw
      rw [enter_index_self, Option.some.injEq] at hi
      simp [← hi]
    · rw [enter_index_of_ne hw] at hi
      exact Nat.lt_succ_of_lt (h.lt_next w i hi)
  · by_cases hwv : w = v
    · simp [hwv]
    · have hw' : w ∈ s.stack := (List.mem_cons.1 hw).resolve_left hwv
      simpa [hwv] using h.indexed w hw'
  · refine List.pairwise_cons.2 ⟨fun w hw => ?_, h.sorted.imp_of_mem fun {a b} ha hb hab => ?_⟩
    · rw [idx_enter_self, idx_enter_of_ne (hne w hw)]
      exact h.idx_lt_next hw
    · rwa [idx_enter_of_ne (hne a ha), idx_enter_of_ne (hne b hb)]
  · by_cases hwv : w = v
    · simp [hwv]
    · simpa [hwv] using h.onStack w
  · rcases List.mem_cons.1 hg with rfl | hg
    · exact List.mem_cons_self
    · exact List.mem_cons_of_mem _ (h.mem_stack g hg)
  · rcases List.mem_cons.1 hg with rfl | hg
    · -- nothing is above the new node
      rcases List.mem_cons.1 hy with rfl | hy
      · -- the only node at or above the new one is itself
        exact .refl
      · rw [idx_enter_self, idx_enter_of_ne (hne y hy)] at hle
        exact absurd (h.idx_lt_next hy) (by omega)
    · rcases List.mem_cons.1 hy with hy | hy
      · exact hy ▸ hpath g hg
      · rw [idx_enter_of_ne (hne g (h.mem_stack g hg)), idx_enter_of_ne (hne y hy)] at hle
        exact h.down g hg y hy hle
  · rcases List.mem_cons.1 hy with rfl | hy
    · exact ⟨y, List.mem_cons_self, le_rfl, .refl⟩
    · obtain ⟨g, hg, hle, hreach⟩ := h.up y hy
      refine ⟨g, List.mem_cons_of_mem _ hg, ?_, hreach⟩
      rwa [idx_enter_of_ne (hne g (h.mem_stack g hg)), idx_enter_of_ne (hne y hy)]

theorem extends_enter (hv : s.index v = none) : Extends s (s.enter v) := by
  refine ⟨fun w i hi => ?_, fun w hw => ?_, List.suffix_cons v s.stack⟩
  · have hwv : w ≠ v := by
      rintro rfl
      simp [hv] at hi
    simpa [enter, hwv] using hi
  · have hwv : w ≠ v := by
      rintro rfl
      simp [hv] at hw
    simp [enter, hwv]

/-! ## A visit -/

/-- The visit of `v`, begun in `s`, on its way. -/
structure Visiting (edges : List (List ℕ)) (path : List ℕ) (v : ℕ) (s t : Tarjan) : Prop where
  inv : Inv edges (v :: path) t
  new : s.index v = none
  kept : Extends s t
  index_self : t.index v = some s.next
  stack : v :: s.stack <:+ t.stack
  low : ∃ u ∈ v :: s.stack, t.idx u = t.low v ∧ Reach edges v u

/-- What the visit of `v` does to `s`. -/
structure Visited (edges : List (List ℕ)) (path : List ℕ) (v : ℕ) (s t : Tarjan) : Prop where
  inv : Inv edges path t
  kept : Extends s t
  indexed : (t.index v).isSome
  low : s.next ≤ t.low v ∨ ∃ u ∈ s.stack, s.idx u = t.low v ∧ Reach edges v u

theorem Visiting.enter (h : Inv edges path s) (hv : s.index v = none)
    (hpath : ∀ g ∈ path, Reach edges g v) : Visiting edges path v s (s.enter v) := by
  refine ⟨h.enter hv hpath, hv, extends_enter hv, by simp, List.suffix_rfl, v, List.mem_cons_self,
    ?_, .refl⟩
  rw [idx_enter_self]
  simp [Tarjan.enter]

theorem Visiting.idx_self (h : Visiting edges path v s t) : t.idx v = s.next := by
  rw [idx, h.index_self]
  rfl

/-- Below `v` on the stack is what was there. -/
theorem Visiting.mem_of_idx_lt (h : Visiting edges path v s t) (hw : w ∈ t.stack)
    (hlt : t.idx w < s.next) : w ∈ s.stack := by
  obtain ⟨seg, hseg⟩ := h.stack
  have hsorted := h.inv.sorted
  rw [← hseg] at hw hsorted
  rcases List.mem_append.1 hw with hw | hw
  · have := (List.pairwise_append.1 hsorted).2.2 w hw v List.mem_cons_self
    rw [h.idx_self] at this
    omega
  · refine (List.mem_cons.1 hw).resolve_left ?_
    rintro rfl
    rw [h.idx_self] at hlt
    omega

theorem Visiting.idx_le (h : Visiting edges path v s t) (hs : Inv edges path s)
    (hw : w ∈ v :: s.stack) : t.idx w ≤ s.next := by
  rcases List.mem_cons.1 hw with rfl | hw
  · exact h.idx_self.le
  · rw [h.kept.idx_eq (hs.indexed w hw)]
    exact (hs.idx_lt_next hw).le

theorem Visiting.lower (h : Visiting edges path v s t) (hs : Inv edges path s)
    (hk : s.next ≤ k ∨ ∃ u ∈ t.stack, t.idx u = k ∧ Reach edges v u) :
    Visiting edges path v s (t.lower v k) := by
  refine ⟨⟨h.inv.lt_next, h.inv.indexed, h.inv.sorted, h.inv.onStack, h.inv.mem_stack, h.inv.down,
    h.inv.up, h.inv.out⟩, h.new, ⟨h.kept.index, fun w hw => ?_, h.kept.stack⟩, h.index_self, h.stack,
    ?_⟩
  · have hwv : w ≠ v := by
      rintro rfl
      simp [h.new] at hw
    simpa [Tarjan.lower, hwv] using h.kept.low w hw
  · obtain ⟨u, hu, hidx, hreach⟩ := h.low
    have hlow : (t.lower v k).low v = min (t.low v) k := by simp [Tarjan.lower]
    rw [hlow]
    by_cases hle : t.low v ≤ k
    · exact ⟨u, hu, hidx.trans (min_eq_left hle).symm, hreach⟩
    · have hnext := h.idx_le hs hu
      obtain ⟨u', hu', hidx', hreach'⟩ := hk.resolve_left (by omega)
      refine ⟨u', List.mem_cons_of_mem _ (h.mem_of_idx_lt hu' (by omega)), ?_, hreach'⟩
      exact hidx'.trans (min_eq_right (by omega)).symm

/-- A successor visited within the visit of `v`. -/
theorem Visiting.lowerBy {t' : Tarjan} (h : Visiting edges path v s t) (hs : Inv edges path s)
    (hedge : Edge edges v w) (hw : Visited edges (v :: path) w t t') :
    Visiting edges path v s (t'.lowerBy v w) := by
  have hstack : ∀ u ∈ v :: s.stack, u ∈ t.stack := fun u hu => h.stack.subset hu
  have ht' : Visiting edges path v s t' := by
    refine ⟨hw.inv, h.new, h.kept.trans hw.kept, hw.kept.index v _ h.index_self,
      h.stack.trans hw.kept.stack, ?_⟩
    obtain ⟨u, hu, hidx, hreach⟩ := h.low
    refine ⟨u, hu, ?_, hreach⟩
    rw [hw.kept.idx_eq (h.inv.indexed u (hstack u hu)), hidx, hw.kept.low v]
    rw [h.index_self]
    rfl
  refine ht'.lower hs ?_
  rcases hw.low with hnext | ⟨u, hu, hidx, hreach⟩
  · have := h.inv.lt_next v _ h.index_self
    exact .inl (by omega)
  · refine .inr ⟨u, hw.kept.stack.subset hu, ?_, .head hedge hreach⟩
    rw [hw.kept.idx_eq (h.inv.indexed u hu), hidx]

/-- All nodes from `v` up on the stack reach each other. -/
theorem Visiting.strong {seg : List ℕ} (h : Visiting edges path v s t)
    (hs : Inv edges path s) (hseg : t.stack = seg ++ v :: s.stack) :
    ∀ a ∈ seg ++ [v], ∀ b ∈ seg ++ [v], Reach edges a b := by
  have hmem : ∀ a ∈ seg ++ [v], a ∈ t.stack := by
    intro a ha
    rw [hseg]
    rcases List.mem_append.1 ha with ha | ha
    · exact List.mem_append_left _ ha
    · exact List.mem_append_right _ (List.mem_singleton.1 ha ▸ List.mem_cons_self)
  have habove : ∀ a ∈ seg ++ [v], t.idx v ≤ t.idx a := by
    intro a ha
    rcases List.mem_append.1 ha with ha | ha
    · have hsorted := h.inv.sorted
      rw [hseg] at hsorted
      exact ((List.pairwise_append.1 hsorted).2.2 a ha v List.mem_cons_self).le
    · rw [List.mem_singleton.1 ha]
  have hv : v ∈ t.stack := hmem v (by simp)
  intro a ha b hb
  -- from `a` to a node being visited, from there to `v`, and up to `b`
  obtain ⟨g, hg, -, hag⟩ := h.inv.up a (hmem a ha)
  have hgv : Reach edges g v := by
    rcases List.mem_cons.1 hg with rfl | hg'
    · exact .refl
    · refine h.inv.down g hg v hv ?_
      rw [h.idx_self]
      exact h.idx_le hs (List.mem_cons_of_mem _ (hs.mem_stack g hg'))
  exact hag.trans (hgv.trans (h.inv.down v List.mem_cons_self b (hmem b hb) (habove b hb)))

theorem Inv.nodup (h : Inv edges path s) : s.stack.Nodup :=
  h.sorted.imp fun hab he => by simp [he] at hab

/-- A node being visited that is not above `w` is not `v`, when `w` is below `v`. -/
theorem Visiting.up_below (h : Visiting edges path v s t) (hw : w ∈ t.stack)
    (hlt : t.idx w < s.next) : ∃ g ∈ path, t.idx g ≤ t.idx w ∧ Reach edges w g := by
  obtain ⟨g, hg, hle, hreach⟩ := h.inv.up w hw
  refine ⟨g, (List.mem_cons.1 hg).resolve_left ?_, hle, hreach⟩
  rintro rfl
  rw [h.idx_self] at hle
  omega

/-- The visit ends with the component of `v` closed. -/
theorem Visiting.close (h : Visiting edges path v s t) (hs : Inv edges path s)
    (hlow : some (t.low v) = t.index v) : Visited edges path v s (t.finish v) := by
  obtain ⟨seg, hseg⟩ := h.stack
  have hnodup := h.inv.nodup
  rw [← hseg] at hnodup
  have hdisjoint : ∀ w ∈ s.stack, w ∉ seg ++ [v] := by
    rw [List.append_cons, List.nodup_append] at hnodup
    exact fun w hw hmem => hnodup.2.2 w hmem w hw rfl
  have hpop : popTo v t.stack = (seg ++ [v], s.stack) := by
    rw [← hseg, popTo_append]
    intro hv
    rw [List.nodup_append] at hnodup
    exact hnodup.2.2 v hv v List.mem_cons_self rfl
  have hsub : ∀ w ∈ s.stack, w ∈ t.stack := fun w hw => h.kept.stack.subset hw
  have hfinish : t.finish v = { t with
      stack := s.stack
      onStack := fun w => t.onStack w && w ∉ seg ++ [v]
      out := t.out ++ [seg ++ [v]] } := by
    rw [Tarjan.finish, if_pos hlow, hpop]
  -- what is left of the stack was there before the visit, where the invariant held
  rw [hfinish]
  refine ⟨⟨h.inv.lt_next, fun w hw => h.kept.isSome (hs.indexed w hw),
    h.inv.sorted.sublist h.kept.stack.sublist, fun w => ?_, hs.mem_stack,
    fun g hg y hy => h.inv.down g (List.mem_cons_of_mem _ hg) y (hsub y hy), fun y hy => ?_,
    fun c hc => ?_⟩, ⟨h.kept.index, h.kept.low, List.suffix_rfl⟩, by simp [h.index_self], .inl ?_⟩
  · rw [Bool.and_eq_true, decide_eq_true_eq, h.inv.onStack, ← hseg]
    constructor
    · rintro ⟨hw, hnot⟩
      simp only [List.mem_append, List.mem_cons, List.not_mem_nil, or_false] at hw hnot
      tauto
    · exact fun hw => ⟨hseg ▸ hsub w hw, hdisjoint w hw⟩
  · -- a node left on the stack is older than `v`, and reaches one still being visited
    refine h.up_below (hsub y hy) ?_
    rw [h.kept.idx_eq (hs.indexed y hy)]
    exact hs.idx_lt_next hy
  · rcases List.mem_append.1 hc with hc | hc
    · exact h.inv.out c hc
    · rw [List.mem_singleton.1 hc]
      refine ⟨by simp, ?_, h.strong hs hseg.symm⟩
      rw [List.append_cons, List.nodup_append] at hnodup
      exact hnodup.1
  · rw [h.index_self, Option.some.injEq] at hlow
    exact hlow.ge

/-- The visit ends with `v` left on the stack, since it leads below itself. -/
theorem Visiting.leave (h : Visiting edges path v s t) (hs : Inv edges path s)
    (hlow : some (t.low v) ≠ t.index v) : Visited edges path v s (t.finish v) := by
  rw [Tarjan.finish, if_neg hlow]
  obtain ⟨u, hu, hidx, hreach⟩ := h.low
  rw [h.index_self, Ne, Option.some.injEq] at hlow
  have hlt : t.idx u < s.next := by
    have := h.idx_le hs hu
    omega
  have hmem : u ∈ t.stack := h.stack.subset hu
  have hu' := h.mem_of_idx_lt hmem hlt
  refine ⟨⟨h.inv.lt_next, h.inv.indexed, h.inv.sorted, h.inv.onStack,
    fun g hg => h.inv.mem_stack g (List.mem_cons_of_mem _ hg),
    fun g hg => h.inv.down g (List.mem_cons_of_mem _ hg), fun y hy => ?_, h.inv.out⟩, h.kept,
    by simp [h.index_self], .inr ⟨u, hu', ?_, hreach⟩⟩
  · obtain ⟨g, hg, hle, hyg⟩ := h.inv.up y hy
    rcases List.mem_cons.1 hg with rfl | hg
    · -- what reached `v` reaches on, to what `v` leads to below it
      obtain ⟨g', hg', hle', hug'⟩ := h.up_below hmem hlt
      refine ⟨g', hg', ?_, hyg.trans (hreach.trans hug')⟩
      have := h.idx_self
      omega
    · exact ⟨g, hg, hle, hyg⟩
  · rw [← h.kept.idx_eq (hs.indexed u hu'), hidx]

theorem Visiting.finish (h : Visiting edges path v s t) (hs : Inv edges path s) :
    Visited edges path v s (t.finish v) := by
  by_cases hlow : some (t.low v) = t.index v
  · exact h.close hs hlow
  · exact h.leave hs hlow

/-! ## The order of the components -/

/-- Every node with a number is in a component or on the stack, and an edge leads from a component
    to itself or to an earlier one. -/
structure Ordered (edges : List (List ℕ)) (s : Tarjan) : Prop where
  covered : ∀ w, (s.index w).isSome → w ∈ s.out.flatten ∨ w ∈ s.stack
  earlier : ∀ pre c post, s.out = pre ++ c :: post → ∀ a ∈ c, ∀ b, Edge edges a b →
    b ∈ (pre ++ [c]).flatten

/-- The node is in a component, or on the stack and not below `k`. -/
def Known (s : Tarjan) (k w : ℕ) : Prop := w ∈ s.out.flatten ∨ w ∈ s.stack ∧ k ≤ s.idx w

/-- The visit of `v`, begun in `s`, has gone over the successors `done`: all that it has met
    leads to nothing on the stack below its `low`. -/
structure Closing (edges : List (List ℕ)) (v : ℕ) (done : List ℕ) (s t : Tarjan) : Prop where
  ordered : Ordered edges t
  out : s.out <+: t.out
  met : ∀ w ∈ done, Known t (t.low v) w
  above : ∀ y ∈ t.stack, s.next < t.idx y → ∀ w, Edge edges y w → Known t (t.low v) w

/-- What the visit of `v` has done to `s`. -/
structure Closed (edges : List (List ℕ)) (v : ℕ) (s t : Tarjan) : Prop where
  ordered : Ordered edges t
  out : s.out <+: t.out
  low_le : t.low v ≤ t.idx v
  mem_stack : ∀ y ∈ t.stack, t.idx y < s.next → y ∈ s.stack
  above : ∀ y ∈ t.stack, s.next ≤ t.idx y → ∀ w, Edge edges y w → Known t (t.low v) w

theorem Known.mono {k' : ℕ} (h : Known s k w) (hkept : Extends s t) (hout : s.out <+: t.out)
    (hindexed : ∀ w ∈ s.stack, (s.index w).isSome) (hk : k' ≤ k) : Known t k' w := by
  rcases h with hclosed | ⟨hstack, hle⟩
  · obtain ⟨more, hmore⟩ := hout
    rw [Known, ← hmore, List.flatten_append]
    exact .inl (List.mem_append_left _ hclosed)
  · refine .inr ⟨hkept.stack.subset hstack, ?_⟩
    rw [hkept.idx_eq (hindexed w hstack)]
    omega

theorem Known.lower (h : Known s (s.low v) w) : Known (s.lower v k) ((s.lower v k).low v) w := by
  rw [show (s.lower v k).low v = min (s.low v) k by simp [Tarjan.lower]]
  exact h.imp_right fun hstack => ⟨hstack.1, (min_le_left _ _).trans hstack.2⟩

theorem Closing.enter (h : Inv edges path s) (hordered : Ordered edges s) :
    Closing edges v [] s (s.enter v) := by
  refine ⟨⟨fun w hw => ?_, hordered.earlier⟩, List.prefix_rfl, by simp, fun y hy hlt => ?_⟩
  · by_cases hwv : w = v
    · exact .inr (by simp [hwv])
    · rw [enter_index_of_ne hwv] at hw
      exact (hordered.covered w hw).imp_right (List.mem_cons_of_mem v)
  · -- nothing is above the new node
    by_cases hyv : y = v
    · rw [hyv, idx_enter_self] at hlt
      omega
    · have hy' : y ∈ s.stack := (List.mem_cons.1 hy).resolve_left hyv
      rw [idx_enter_of_ne hyv] at hlt
      exact absurd (h.idx_lt_next hy') (by omega)

/-- A lower `low` bounds less. -/
theorem Closing.lower {done : List ℕ} (h : Closing edges v done s t) :
    Closing edges v done s (t.lower v k) :=
  ⟨⟨h.ordered.covered, h.ordered.earlier⟩, h.out, fun w hw => (h.met w hw).lower,
    fun y hy hlt w hedge => (h.above y hy hlt w hedge).lower⟩

theorem Closing.meet {done : List ℕ} (h : Closing edges v done s t) (hw : Known t (t.low v) w) :
    Closing edges v (done ++ [w]) s t := by
  refine ⟨h.ordered, h.out, fun w' hw' => ?_, h.above⟩
  rcases List.mem_append.1 hw' with hw' | hw'
  · exact h.met w' hw'
  · exact List.mem_singleton.1 hw' ▸ hw

/-- A successor visited within the visit of `v`. -/
theorem Closing.visited {done : List ℕ} {t' : Tarjan} (h : Closing edges v done s t)
    (hvisiting : Visiting edges path v s t) (hw : Visited edges (v :: path) w t t')
    (hclosed : Closed edges w t t') : Closing edges v (done ++ [w]) s (t'.lowerBy v w) := by
  have hlow : t'.low v = t.low v := hw.kept.low v (by rw [hvisiting.index_self]; rfl)
  have hmono : ∀ {k k' x}, Known t k x → k' ≤ k → Known t' k' x := fun hx hk =>
    hx.mono hw.kept hclosed.out hvisiting.inv.indexed hk
  have hmin : (t'.lowerBy v w).low v = min (t.low v) (t'.low w) := by
    simp [Tarjan.lowerBy, Tarjan.lower, hlow]
  have hknown : ∀ {k x}, Known t' k x → min (t.low v) (t'.low w) ≤ k →
      Known (t'.lowerBy v w) ((t'.lowerBy v w).low v) x := by
    intro k x hx hk
    rw [hmin]
    exact hx.imp_right fun hstack => ⟨hstack.1, hk.trans hstack.2⟩
  refine ⟨⟨hclosed.ordered.covered, hclosed.ordered.earlier⟩, h.out.trans hclosed.out,
    fun x hx => ?_, fun y hy hlt x hedge => ?_⟩
  · rcases List.mem_append.1 hx with hx | hx
    · exact hknown (hmono (h.met x hx) le_rfl) (min_le_left _ _)
    · rw [List.mem_singleton.1 hx]
      refine hknown (k := t'.low w) ?_ (min_le_right _ _)
      exact (hclosed.ordered.covered w hw.indexed).imp_right fun hstack => ⟨hstack, hclosed.low_le⟩
  · by_cases hnext : t.next ≤ t'.idx y
    · exact hknown (hclosed.above y hy hnext x hedge) (min_le_right _ _)
    · have hy' := hclosed.mem_stack y hy (by omega)
      have hidx := hw.kept.idx_eq (hvisiting.inv.indexed y hy')
      have hlt' : s.next < t.idx y := hidx ▸ hlt
      exact hknown (hmono (h.above y hy' hlt' x hedge) le_rfl) (min_le_left _ _)

/-- What is on the stack during the visit of `v`: above it, itself, and what was there. -/
theorem Visiting.mem_stack_cases (h : Visiting edges path v s t) (hs : Inv edges path s)
    (hw : w ∈ t.stack) : s.next < t.idx w ∨ w = v ∨ w ∈ s.stack ∧ t.idx w < s.next := by
  rcases Nat.lt_or_ge (t.idx w) s.next with hlt | hge
  · exact .inr (.inr ⟨h.mem_of_idx_lt hw hlt, hlt⟩)
  · rcases Nat.lt_or_ge s.next (t.idx w) with hlt | hle
    · exact .inl hlt
    · refine .inr (.inl ?_)
      obtain ⟨seg, hseg⟩ := h.stack
      have hsorted := h.inv.sorted
      rw [← hseg] at hw hsorted
      rcases List.mem_append.1 hw with hw | hw
      · have habove := (List.pairwise_append.1 hsorted).2.2 w hw v List.mem_cons_self
        rw [h.idx_self] at habove
        omega
      · rcases List.mem_cons.1 hw with hw | hw
        · exact hw
        · have hbelow := hs.idx_lt_next hw
          rw [← h.kept.idx_eq (hs.indexed w hw)] at hbelow
          omega

theorem Closing.above_self {done : List ℕ} (h : Closing edges v done s t)
    (hvisiting : Visiting edges path v s t) (hs : Inv edges path s)
    (hdone : ∀ w, Edge edges v w → w ∈ done) :
    ∀ y ∈ t.stack, s.next ≤ t.idx y → ∀ w, Edge edges y w → Known t (t.low v) w := by
  intro y hy hle w hedge
  rcases hvisiting.mem_stack_cases hs hy with hlt | rfl | ⟨-, hlt⟩
  · exact h.above y hy hlt w hedge
  · exact h.met w (hdone w hedge)
  · omega

theorem Closing.close {done : List ℕ} (h : Closing edges v done s t)
    (hvisiting : Visiting edges path v s t) (hs : Inv edges path s)
    (hdone : ∀ w, Edge edges v w → w ∈ done) (hlow : some (t.low v) = t.index v) :
    Closed edges v s (t.finish v) := by
  obtain ⟨seg, hseg⟩ := hvisiting.stack
  have hnodup := hvisiting.inv.nodup
  rw [← hseg] at hnodup
  have hpop : popTo v t.stack = (seg ++ [v], s.stack) := by
    rw [← hseg, popTo_append]
    intro hv
    rw [List.nodup_append] at hnodup
    exact hnodup.2.2 v hv v List.mem_cons_self rfl
  have hfinish : t.finish v = { t with
      stack := s.stack
      onStack := fun w => t.onStack w && w ∉ seg ++ [v]
      out := t.out ++ [seg ++ [v]] } := by
    rw [Tarjan.finish, if_pos hlow, hpop]
  -- the stack is cut where the component of `v` starts: below are older numbers, above younger
  have hself : t.low v = s.next := by
    rw [hvisiting.index_self, Option.some.injEq] at hlow
    exact hlow
  have hmem : ∀ y, y ∈ t.stack ↔ y ∈ seg ++ [v] ∨ y ∈ s.stack := by
    intro y
    rw [← hseg]
    simp only [List.mem_append, List.mem_cons, List.not_mem_nil, or_false]
    tauto
  have hbelow : ∀ y ∈ s.stack, t.idx y < s.next := fun y hy => by
    rw [hvisiting.kept.idx_eq (hs.indexed y hy)]
    exact hs.idx_lt_next hy
  have hsorted := hvisiting.inv.sorted
  rw [← hseg, List.append_cons] at hsorted
  have habove : ∀ y ∈ seg ++ [v], s.next ≤ t.idx y := by
    intro y hy
    rcases List.mem_append.1 hy with hy | hy
    · have hlt := (List.pairwise_append.1 (List.pairwise_append.1 hsorted).1).2.2 y hy v (by simp)
      rw [hvisiting.idx_self] at hlt
      omega
    · rw [List.mem_singleton.1 hy, hvisiting.idx_self]
  rw [hfinish]
  refine ⟨⟨fun w hw => ?_, fun pre c post hout a ha b hedge => ?_⟩,
    h.out.trans (List.prefix_append _ _), ?_, fun y hy _ => hy,
    fun y hy hle => absurd (hbelow y hy) (not_lt.2 hle)⟩
  · rw [List.flatten_append, List.mem_append, List.flatten_singleton]
    -- a numbered node is in a closed component or on the stack, on either side of the cut
    rcases h.ordered.covered w hw with hclosed | hstack
    · exact .inl (.inl hclosed)
    · exact ((hmem w).1 hstack).elim (fun hw => .inl (.inr hw)) .inr
  · rcases List.eq_nil_or_concat post with rfl | ⟨post, last, rfl⟩
    · -- the component just closed
      obtain ⟨rfl, hc⟩ := List.append_inj' hout rfl
      obtain rfl := (List.cons.inj hc).1
      rw [List.flatten_append, List.mem_append, List.flatten_singleton]
      have hle := habove a ha
      refine (h.above_self hvisiting hs hdone a ((hmem a).2 (.inl ha)) hle b hedge).imp_right fun hb => ?_
      refine ((hmem b).1 hb.1).resolve_right fun hb' => ?_
      have := hbelow b hb'
      omega
    · have hout' : t.out = pre ++ c :: post := by
        rw [List.concat_eq_append, ← List.cons_append, ← List.append_assoc] at hout
        exact (List.append_inj' hout rfl).1
      -- an older component, whose edges lead where they did
      exact h.ordered.earlier pre c post hout' a ha b hedge
  · rw [hself]
    exact hvisiting.idx_self.ge

theorem Closing.finish {done : List ℕ} (h : Closing edges v done s t)
    (hvisiting : Visiting edges path v s t) (hs : Inv edges path s)
    (hdone : ∀ w, Edge edges v w → w ∈ done) : Closed edges v s (t.finish v) := by
  by_cases hlow : some (t.low v) = t.index v
  · exact h.close hvisiting hs hdone hlow
  · rw [Tarjan.finish, if_neg hlow]
    refine ⟨h.ordered, h.out, ?_, fun y hy hlt => hvisiting.mem_of_idx_lt hy hlt,
      h.above_self hvisiting hs hdone⟩
    obtain ⟨u, hu, hidx, -⟩ := hvisiting.low
    rw [← hidx, hvisiting.idx_self]
    exact hvisiting.idx_le hs hu

/-! ## A run -/

/-- The nodes below `n` without a number. -/
def whites (n : ℕ) (s : Tarjan) : ℕ := ((Finset.range n).filter (s.index · = none)).card

theorem whites_lt {n : ℕ} (h : Extends s t) (hv : v < n) (hnew : s.index v = none)
    (hindex : (t.index v).isSome) : whites n t < whites n s := by
  refine Finset.card_lt_card ((Finset.ssubset_iff_of_subset fun w hw => ?_).2 ⟨v, ?_, ?_⟩)
  · rw [Finset.mem_filter] at hw ⊢
    refine ⟨hw.1, Option.not_isSome_iff_eq_none.1 fun hsome => ?_⟩
    have := h.isSome hsome
    simp [hw.2] at this
  · simp [hv, hnew]
  · rw [Finset.mem_filter, not_and, ← Option.not_isSome_iff_eq_none, not_not]
    exact fun _ => hindex

theorem visit_spec (hrange : ∀ a b, Edge edges a b → b < edges.length) {fuel : ℕ}
    (h : Inv edges path s) (hordered : Ordered edges s) (hv : s.index v = none)
    (hpath : ∀ g ∈ path, Reach edges g v) (hlt : v < edges.length)
    (hfuel : whites edges.length s ≤ fuel) :
    Visited edges path v s (visit edges fuel v s) ∧ Closed edges v s (visit edges fuel v s) := by
  induction fuel generalizing path v s with
  | zero =>
    -- a node without a number is white, and there is no fuel only if there is none
    have hmem : v ∈ (Finset.range edges.length).filter (s.index · = none) := by simp [hlt, hv]
    rw [Nat.le_zero, whites, Finset.card_eq_zero] at hfuel
    simp [hfuel] at hmem
  | succ fuel ih =>
    rw [visit]
    suffices hfold : Visiting edges path v s _ ∧ Closing edges v (edges.getD v []) s _ from
      ⟨hfold.1.finish h, hfold.2.finish hfold.1 h fun w hw => hw⟩
    refine Lists.foldl_done (motive := fun done t => Visiting edges path v s t ∧
      Closing edges v done s t) _ ⟨.enter h hv hpath, .enter h hordered⟩ ?_
    rintro done w hw t ⟨ht, hclosing⟩
    cases hindex : t.index w with
    | none =>
      have hvisit := ih ht.inv hclosing.ordered hindex (fun g hg => ?_) (hrange v w hw) ?_
      · -- a tree edge: the visit of `w` ends, and hands its low number on
        exact ⟨ht.lowerBy h hw hvisit.1, hclosing.visited ht hvisit.1 hvisit.2⟩
      · -- the nodes being visited lead to `v`, and so to `w`
        refine .tail ?_ hw
        rcases List.mem_cons.1 hg with rfl | hg'
        · exact .refl
        · refine ht.inv.down g hg v (ht.stack.subset List.mem_cons_self) ?_
          rw [ht.idx_self]
          exact ht.idx_le h (List.mem_cons_of_mem _ (h.mem_stack g hg'))
      · have := whites_lt ht.kept hlt hv (by simp [ht.index_self])
        omega
    | some iw =>
      have hidx : t.idx w = iw := by
        rw [idx, hindex]
        rfl
      split_ifs with hon
      · -- an edge back to a node on the stack
        have hstack := (ht.inv.onStack w).1 hon
        refine ⟨ht.lower h (.inr ⟨w, hstack, hidx, .single hw⟩), hclosing.lower.meet (.inr ⟨hstack, ?_⟩)⟩
        have hmin : (t.lower v iw).low v ≤ iw := by simp [Tarjan.lower]
        exact hmin.trans hidx.ge
      · -- an edge to a closed component
        refine ⟨ht, hclosing.meet (.inl ?_)⟩
        refine (hclosing.ordered.covered w (by rw [hindex]; rfl)).resolve_right fun hstack => ?_
        exact hon ((ht.inv.onStack w).2 hstack)

theorem whites_le (n : ℕ) (s : Tarjan) : whites n s ≤ n := by
  refine (Finset.card_filter_le _ _).trans ?_
  rw [Finset.card_range]

theorem new_inv : Inv edges [] new := by
  refine ⟨?_, ?_, ?_, ?_, ?_, ?_, ?_, ?_⟩ <;> simp [new]

theorem new_ordered : Ordered edges new := by
  refine ⟨?_, ?_⟩ <;> simp [new]

/-- The state a run ends in. -/
theorem run_spec (hrange : ∀ a b, Edge edges a b → b < edges.length) :
    ∃ s : Tarjan, s.out = run edges ∧ Inv edges [] s ∧ Ordered edges s ∧
      ∀ v < edges.length, (s.index v).isSome := by
  suffices hfold : Inv edges [] _ ∧ Ordered edges _ ∧ ∀ v ∈ List.range edges.length, _ from
    ⟨_, rfl, hfold.1, hfold.2.1, fun v hv => hfold.2.2 v (List.mem_range.2 hv)⟩
  refine Lists.foldl_done (motive := fun done s => Inv edges [] s ∧ Ordered edges s ∧
    ∀ v ∈ done, (s.index v).isSome) _ ⟨new_inv, new_ordered, by simp⟩ ?_
  rintro done v hv s ⟨hs, hordered, hdone⟩
  split_ifs with hnew
  · obtain ⟨hvisited, hclosed⟩ := visit_spec hrange hs hordered (Option.isNone_iff_eq_none.1 hnew)
      (by simp) (List.mem_range.1 hv) (whites_le _ _)
    refine ⟨hvisited.inv, hclosed.ordered, fun w hw => ?_⟩
    rcases List.mem_append.1 hw with hw | hw
    · exact hvisited.kept.isSome (hdone w hw)
    · exact List.mem_singleton.1 hw ▸ hvisited.indexed
  · refine ⟨hs, hordered, fun w hw => ?_⟩
    rcases List.mem_append.1 hw with hw | hw
    · exact hdone w hw
    · rw [List.mem_singleton.1 hw]
      exact Option.isSome_iff_ne_none.2 fun hnone => hnew (by simp [hnone])

/-- The components have no node twice, and the nodes of each reach each other. -/
theorem run_strong (hrange : ∀ a b, Edge edges a b → b < edges.length) :
    ∀ c ∈ run edges, c ≠ [] ∧ c.Nodup ∧ ∀ a ∈ c, ∀ b ∈ c, Reach edges a b := by
  obtain ⟨s, hrun, hs, -⟩ := run_spec hrange
  exact hrun ▸ hs.out

/-- Every node is in a component, and an edge leads from a component to itself or to an earlier
    one. -/
theorem run_ordered (hrange : ∀ a b, Edge edges a b → b < edges.length) :
    (∀ v < edges.length, v ∈ (run edges).flatten) ∧
      ∀ pre c post, run edges = pre ++ c :: post → ∀ a ∈ c, ∀ b, Edge edges a b →
        b ∈ (pre ++ [c]).flatten := by
  obtain ⟨s, hrun, hs, hordered, hindexed⟩ := run_spec hrange
  refine ⟨fun v hv => ?_, hrun ▸ hordered.earlier⟩
  refine hrun ▸ (hordered.covered v (hindexed v hv)).resolve_right fun hstack => ?_
  -- nothing is being visited any more, so nothing is on the stack
  obtain ⟨g, hg, -⟩ := hs.up v hstack
  cases hg

/-! ## The components apart -/

/-- No node is twice in the components or on the stack, and what is there has a number. -/
structure Apart (n : ℕ) (s : Tarjan) : Prop where
  nodup : (s.out.flatten ++ s.stack).Nodup
  indexed : ∀ w ∈ s.out.flatten ++ s.stack, (s.index w).isSome ∧ w < n

theorem popTo_eq (v : ℕ) (stack : List ℕ) : (popTo v stack).1 ++ (popTo v stack).2 = stack := by
  induction stack with
  | nil => rfl
  | cons w stack ih =>
    rw [popTo]
    split_ifs
    · rfl
    · rw [List.cons_append, ih]

theorem Apart.enter {n : ℕ} (h : Apart n s) (hv : s.index v = none) (hlt : v < n) :
    Apart n (s.enter v) := by
  have hperm : (s.out.flatten ++ v :: s.stack).Perm (v :: (s.out.flatten ++ s.stack)) :=
    List.perm_middle
  refine ⟨hperm.nodup_iff.2 (List.nodup_cons.2 ⟨fun hmem => ?_, h.nodup⟩), fun w hw => ?_⟩
  · have hindexed := (h.indexed v hmem).1
    rw [hv] at hindexed
    cases hindexed
  · by_cases hwv : w = v
    · rw [hwv, enter_index_self]
      exact ⟨rfl, hlt⟩
    · rw [enter_index_of_ne hwv]
      exact h.indexed w ((List.mem_cons.1 (hperm.mem_iff.1 hw)).resolve_left hwv)

theorem Apart.finish {n : ℕ} (h : Apart n s) (v : ℕ) : Apart n (s.finish v) := by
  rw [Tarjan.finish]
  split_ifs
  · have hsame : (s.out ++ [(popTo v s.stack).1]).flatten ++ (popTo v s.stack).2 =
        s.out.flatten ++ s.stack := by
      rw [List.flatten_append, List.flatten_singleton, List.append_assoc, popTo_eq]
    exact ⟨hsame ▸ h.nodup, hsame ▸ h.indexed⟩
  · exact h

theorem Apart.visit {n : ℕ} (hrange : ∀ a b, Edge edges a b → b < n) {fuel : ℕ} (h : Apart n s)
    (hv : s.index v = none) (hlt : v < n) : Apart n (visit edges fuel v s) := by
  induction fuel generalizing v s with
  | zero => exact h
  | succ fuel ih =>
    rw [Tarjan.visit]
    refine .finish (Lists.foldl_done (motive := fun _ t => Apart n t) _ (h.enter hv hlt) ?_) v
    rintro done w hw t ht
    cases hindex : t.index w with
    | none =>
      -- `low` alone changes after the visit of `w`
      have hvisit := ih ht hindex (hrange v w hw)
      exact ⟨hvisit.nodup, hvisit.indexed⟩
    | some iw =>
      show Apart n (if t.onStack w then t.lower v iw else t)
      split_ifs
      · exact ⟨ht.nodup, ht.indexed⟩
      · exact ht

/-- No node is in two components. -/
theorem run_apart (hrange : ∀ a b, Edge edges a b → b < edges.length) :
    (run edges).flatten.Nodup ∧ ∀ v ∈ (run edges).flatten, v < edges.length := by
  have hnew : Apart edges.length new := ⟨by simp [new], by simp [new]⟩
  have hrun : Apart edges.length ((List.range edges.length).foldl
      (fun s v => if (s.index v).isNone then visit edges edges.length v s else s) new) := by
    refine Lists.foldl_done (motive := fun _ t => Apart edges.length t) _ hnew ?_
    rintro done v hv s hs
    split_ifs with hindex
    · exact hs.visit hrange (Option.isNone_iff_eq_none.1 hindex) (List.mem_range.1 hv)
    · exact hs
  exact ⟨(List.nodup_append.1 hrun.nodup).1,
    fun v hv => (hrun.indexed v (List.mem_append_left _ hv)).2⟩

/-- What the first components lead to is in them. -/
theorem run_closed (hrange : ∀ a b, Edge edges a b → b < edges.length) {pre post : List (List ℕ)}
    (hrun : run edges = pre ++ post) {a b : ℕ} (ha : a ∈ pre.flatten) (hab : Reach edges a b) :
    b ∈ pre.flatten := by
  induction hab with
  | refl => exact ha
  | tail _ hedge ih =>
    obtain ⟨c, hc, hac⟩ := List.mem_flatten.1 ih
    obtain ⟨before, after, rfl⟩ := List.append_of_mem hc
    have hb := (run_ordered hrange).2 before c (after ++ post) (by rw [hrun]; simp) _ hac _ hedge
    rw [List.flatten_append, List.mem_append, List.flatten_singleton] at hb
    rw [List.flatten_append, List.mem_append, List.flatten_cons, List.mem_append]
    tauto

/-- Nodes that reach each other are in one component. -/
theorem run_maximal (hrange : ∀ a b, Edge edges a b → b < edges.length) {c : List ℕ}
    (hc : c ∈ run edges) {a b : ℕ} (ha : a ∈ c) (hab : Reach edges a b) (hba : Reach edges b a) :
    b ∈ c := by
  obtain ⟨pre, post, hrun⟩ := List.append_of_mem hc
  have hsplit : run edges = (pre ++ [c]) ++ post := by rw [hrun, List.append_assoc, List.singleton_append]
  have hfirst : b ∈ (pre ++ [c]).flatten := by
    refine run_closed hrange hsplit ?_ hab
    rw [List.flatten_append, List.mem_append, List.flatten_singleton]
    exact .inr ha
  rw [List.flatten_append, List.mem_append, List.flatten_singleton] at hfirst
  refine hfirst.resolve_left fun hpre => ?_
  -- else `a` would be in an earlier component too
  have hnodup := (run_apart hrange).1
  rw [hrun, List.flatten_append, List.nodup_append, List.flatten_cons] at hnodup
  exact hnodup.2.2 a (run_closed hrange hrun hpre hba) a (List.mem_append_left _ ha) rfl

end Tarjan

end Anthrex.Plan
