import Mathlib.Algebra.BigOperators.Group.Finset.Basic
import Mathlib.Algebra.Order.BigOperators.Group.Finset
import Mathlib.Logic.Relation

/-!
# Graphs

Acyclic relations, what keeps them acyclic (an edge whose target does not reach its source), and
how far a node of one leads (`Graph.rank`). A graph given by the list of the successors of each
node, and a depth-first search of it, which decides reachability (`Graph.reaches_iff`).
-/

namespace Graph

open Relation

section Acyclic

variable {α β : Type*} {r : α → α → Prop} {r' : β → β → Prop}

/-- No node comes back to itself. -/
def Acyclic (r : α → α → Prop) : Prop := ∀ a, ¬TransGen r a a

theorem Acyclic.lift (f : α → β) (hf : ∀ a b, r a b → r' (f a) (f b)) (h : Acyclic r') :
    Acyclic r :=
  fun a ha => h (f a) (ha.lift f hf)

theorem Acyclic.mono {s : α → α → Prop} (hs : ∀ a b, r a b → s a b) (h : Acyclic s) :
    Acyclic r :=
  h.lift id hs

/-- Edges that go down in a rank close no cycle. -/
theorem Acyclic.of_rank (rank : α → ℕ) (h : ∀ a b, r a b → rank b < rank a) : Acyclic r := by
  have hlt : ∀ a b, TransGen r a b → rank b < rank a := by
    intro a b hab
    induction hab with
    | single hab => exact h _ _ hab
    | tail _ hbc ih => exact (h _ _ hbc).trans ih
  exact fun a ha => lt_irrefl _ (hlt a a ha)

/-- Nodes that reach each other are one node. -/
theorem Acyclic.eq_of_reach {a b : α} (h : Acyclic r) (hab : ReflTransGen r a b)
    (hba : ReflTransGen r b a) : a = b := by
  rcases reflTransGen_iff_eq_or_transGen.1 hab with he | hab
  · exact he.symm
  · exact absurd (hab.trans_left hba) (h a)

/-- A path with one more edge `u → v` goes without it, or through it once. -/
theorem TransGen.of_addEdge {u v : α} (hvu : ¬ReflTransGen r v u) {a b : α}
    (h : TransGen (fun a b => r a b ∨ a = u ∧ b = v) a b) :
    TransGen r a b ∨ ReflTransGen r a u ∧ ReflTransGen r v b := by
  induction h with
  | single h =>
    rcases h with h | ⟨rfl, rfl⟩
    · exact .inl (.single h)
    · exact .inr ⟨.refl, .refl⟩
  | tail _ h ih =>
    rcases h with h | ⟨rfl, rfl⟩
    · rcases ih with ih | ⟨hau, hvc⟩
      · exact .inl (ih.tail h)
      · exact .inr ⟨hau, hvc.tail h⟩
    · rcases ih with ih | ⟨-, hvc⟩
      · exact .inr ⟨ih.to_reflTransGen, .refl⟩
      · exact absurd hvc hvu

/-- The edges between the nodes of `S`. -/
def Within (S : α → Prop) (r : α → α → Prop) (a b : α) : Prop := r a b ∧ S a ∧ S b

theorem reach_of_within {S : α → Prop} {a b : α} (h : ReflTransGen (Within S r) a b) :
    ReflTransGen r a b :=
  ReflTransGen.mono (fun _ _ hab => hab.1) _ _ h

theorem Acyclic.addEdge {u v : α} (h : Acyclic r) (hvu : ¬ReflTransGen r v u) :
    Acyclic fun a b => r a b ∨ a = u ∧ b = v := by
  intro a ha
  rcases TransGen.of_addEdge hvu ha with ha | ⟨hau, hva⟩
  · exact h a ha
  · exact hvu (hva.trans hau)

/-! ## Rank -/

variable [DecidableEq α] {l : List α} {next : α → List α} {a b : α}

open Classical in
/-- How many of `l` a node leads to, in any number of steps. -/
noncomputable def rank (l : List α) (next : α → List α) (a : α) : ℕ :=
  (l.toFinset.filter (TransGen (fun x y => y ∈ next x) a)).card

/-- A node leads to all that its successor leads to, and to that one. -/
theorem rank_lt (hacyclic : Acyclic fun x y => y ∈ next x) (hb : b ∈ l) (hnext : b ∈ next a) :
    rank l next b < rank l next a := by
  classical
  refine Finset.card_lt_card (Finset.ssubset_iff_of_subset ?_ |>.2 ⟨b, ?_, ?_⟩)
  · intro x hx
    rw [Finset.mem_filter] at hx ⊢
    exact ⟨hx.1, .trans (.single hnext) hx.2⟩
  · exact Finset.mem_filter.2 ⟨List.mem_toFinset.2 hb, .single hnext⟩
  · exact fun hself => hacyclic b (Finset.mem_filter.1 hself).2

theorem rank_lt_length (hacyclic : Acyclic fun x y => y ∈ next x) (ha : a ∈ l) :
    rank l next a < l.length := by
  classical
  have hproper : rank l next a < l.toFinset.card := by
    refine Finset.card_lt_card (Finset.ssubset_iff_of_subset (Finset.filter_subset _ _) |>.2 ?_)
    exact ⟨a, List.mem_toFinset.2 ha, fun hself => hacyclic a (Finset.mem_filter.1 hself).2⟩
  exact hproper.trans_le l.toFinset_card_le

theorem next_eq_nil (hacyclic : Acyclic fun x y => y ∈ next x) (hmem : next a ⊆ l)
    (hrank : rank l next a ≤ 0) : next a = [] := by
  refine List.eq_nil_iff_forall_not_mem.2 fun b hb => ?_
  have hlt := rank_lt hacyclic (hmem hb) hb
  omega

end Acyclic

/-! ## Lists of successors -/

/-- `b` is a successor of `a`. -/
def Edge (edges : List (List ℕ)) (a b : ℕ) : Prop := b ∈ edges.getD a []

instance (edges : List (List ℕ)) (a b : ℕ) : Decidable (Edge edges a b) :=
  inferInstanceAs (Decidable (_ ∈ _))

abbrev Reach (edges : List (List ℕ)) : ℕ → ℕ → Prop := ReflTransGen (Edge edges)

/-- The graph with `b` as the last successor of `a`. -/
def push (edges : List (List ℕ)) (a b : ℕ) : List (List ℕ) := edges.modify a (· ++ [b])

variable {edges : List (List ℕ)}

@[simp] theorem length_push (a b : ℕ) : (push edges a b).length = edges.length := by
  simp [push]

theorem mem_getD_modify {α : Type*} {lists : List (List α)} {u k : ℕ} {x y : α}
    (hu : u < lists.length) :
    y ∈ (lists.modify u (· ++ [x])).getD k [] ↔ y ∈ lists.getD k [] ∨ k = u ∧ y = x := by
  simp only [List.getD_eq_getElem?_getD, List.getElem?_modify]
  by_cases hk : u = k
  · subst hk
    simp [List.getElem?_eq_getElem hu]
  · simp [hk, Ne.symm hk]

theorem edge_push {u v a b : ℕ} (hu : u < edges.length) :
    Edge (push edges u v) a b ↔ Edge edges a b ∨ a = u ∧ b = v :=
  mem_getD_modify hu

theorem lt_length_of_edge {a b : ℕ} (h : Edge edges a b) : a < edges.length := by
  by_contra ha
  rw [Edge, List.getD_eq_getElem?_getD, List.getElem?_eq_none (by omega)] at h
  cases h

/-! ## Search -/

/-- Whether the search meets `goal`, from a stack of nodes (its top first) and the nodes
    expanded so far. -/
def search (edges : List (List ℕ)) (goal : ℕ) : ℕ → List ℕ → List ℕ → Bool
  | 0, _, _ => false
  | _ + 1, [], _ => false
  | fuel + 1, k :: stack, seen =>
    if k = goal then true
    else if k ∈ seen then search edges goal fuel stack seen
    else search edges goal fuel ((edges.getD k []).reverse ++ stack) (k :: seen)

/-- The successors of the nodes not expanded yet. -/
def pending (edges : List (List ℕ)) (seen : List ℕ) : ℕ :=
  ∑ k ∈ Finset.range edges.length with k ∉ seen, (edges.getD k []).length

def reaches (edges : List (List ℕ)) (src goal : ℕ) : Bool :=
  search edges goal (edges.flatten.length + 2) [src] []

theorem pending_cons (edges : List (List ℕ)) {k : ℕ} {seen : List ℕ} (hk : k ∉ seen) :
    (edges.getD k []).length + pending edges (k :: seen) = pending edges seen := by
  have hfilter : ((Finset.range edges.length).filter (· ∉ k :: seen)) =
      ((Finset.range edges.length).filter (· ∉ seen)).erase k := by
    ext j
    simp only [Finset.mem_filter, Finset.mem_erase, List.mem_cons, not_or]
    tauto
  rw [pending, pending, hfilter]
  by_cases hlt : k < edges.length
  · exact Finset.add_sum_erase _ (fun j => (edges.getD j []).length)
      (Finset.mem_filter.2 ⟨Finset.mem_range.2 hlt, hk⟩)
  · rw [Finset.erase_eq_of_notMem (by simp [hlt]), List.getD_eq_getElem?_getD,
      List.getElem?_eq_none (by omega)]
    simp

theorem pending_nil : pending edges [] = edges.flatten.length := by
  rw [pending, Finset.filter_true_of_mem (by simp), List.length_flatten]
  induction edges with
  | nil => rfl
  | cons l edges ih =>
    rw [List.length_cons, Finset.sum_range_succ']
    simp [← ih, add_comm]

/-- The search so far: what is met is reachable, and the successors of what is expanded
    are met. -/
structure Searching (edges : List (List ℕ)) (src goal : ℕ) (stack seen : List ℕ) : Prop where
  started : src ∈ stack ∨ src ∈ seen
  reached : ∀ k ∈ stack, Reach edges src k
  expanded : ∀ k ∈ seen, Reach edges src k
  closed : ∀ k ∈ seen, ∀ j, Edge edges k j → j ∈ stack ∨ j ∈ seen
  missed : goal ∉ seen

variable {src goal : ℕ} {stack seen : List ℕ}

theorem Searching.skip {k : ℕ} (h : Searching edges src goal (k :: stack) seen) (hk : k ∈ seen) :
    Searching edges src goal stack seen := by
  have hmem : ∀ j, j ∈ k :: stack ∨ j ∈ seen → j ∈ stack ∨ j ∈ seen := by
    rintro j (hj | hj)
    · rcases List.mem_cons.1 hj with rfl | hj
      exacts [.inr hk, .inl hj]
    · exact .inr hj
  exact ⟨hmem _ h.started, fun j hj => h.reached j (List.mem_cons_of_mem _ hj), h.expanded,
    fun i hi j hij => hmem j (h.closed i hi j hij), h.missed⟩

theorem Searching.expand {k : ℕ} (h : Searching edges src goal (k :: stack) seen) (hk : k ≠ goal) :
    Searching edges src goal ((edges.getD k []).reverse ++ stack) (k :: seen) := by
  have hreach := h.reached k List.mem_cons_self
  have hmem : ∀ j, j ∈ k :: stack ∨ j ∈ seen →
      j ∈ (edges.getD k []).reverse ++ stack ∨ j ∈ k :: seen := by
    simp only [List.mem_cons, List.mem_append]
    tauto
  refine ⟨hmem _ h.started, fun j hj => ?_, fun j hj => ?_, fun i hi j hij => ?_, ?_⟩
  · rcases List.mem_append.1 hj with hj | hj
    · exact hreach.tail (List.mem_reverse.1 hj)
    · exact h.reached j (List.mem_cons_of_mem _ hj)
  · rcases List.mem_cons.1 hj with rfl | hj
    exacts [hreach, h.expanded j hj]
  · rcases List.mem_cons.1 hi with rfl | hi
    · exact .inl (List.mem_append_left _ (List.mem_reverse.2 hij))
    · exact hmem j (h.closed i hi j hij)
  · rw [List.mem_cons, not_or]
    exact ⟨hk.symm, h.missed⟩

theorem Searching.search_iff {fuel : ℕ} (h : Searching edges src goal stack seen)
    (hfuel : stack.length + pending edges seen < fuel) :
    search edges goal fuel stack seen ↔ Reach edges src goal := by
  induction fuel generalizing stack seen with
  | zero => omega
  | succ fuel ih =>
    cases stack with
    | nil =>
      -- what is expanded has the source, and leads nowhere else
      have hclosed : ∀ k, Reach edges src k → k ∈ seen := by
        intro k hk
        induction hk with
        | refl => exact h.started.resolve_left List.not_mem_nil
        | tail _ hstep ih => exact (h.closed _ ih _ hstep).resolve_left List.not_mem_nil
      simp only [search, Bool.false_eq_true, false_iff]
      exact fun hgoal => h.missed (hclosed _ hgoal)
    | cons k stack =>
      rw [search]
      by_cases hgoal : k = goal
      · rw [if_pos hgoal]
        simpa using hgoal ▸ h.reached k List.mem_cons_self
      · rw [if_neg hgoal]
        by_cases hseen : k ∈ seen
        · rw [if_pos hseen]
          refine ih (h.skip hseen) ?_
          rw [List.length_cons] at hfuel
          omega
        · rw [if_neg hseen]
          refine ih (h.expand hgoal) ?_
          have hpending := pending_cons edges hseen
          rw [List.length_append, List.length_reverse]
          rw [List.length_cons] at hfuel
          omega

/-- The search decides reachability. -/
theorem reaches_iff : reaches edges src goal ↔ Reach edges src goal := by
  refine Searching.search_iff ⟨?_, ?_, ?_, ?_, ?_⟩ ?_
  · simp
  · simp only [List.mem_singleton, forall_eq]
    exact .refl
  · simp
  · simp
  · simp
  · rw [pending_nil, List.length_singleton]
    omega

end Graph
