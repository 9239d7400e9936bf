import Anthrex.Data.SortedMap

/-!
# Worklists

Sets as sorted lists, and the loop that explores a graph from a set of nodes: it takes a
node off a stack, and puts each successor not yet seen on it. Given the nodes that can
ever be found, it ends, and finds exactly what is reachable
(`Worklist.mem_closure_iff`).
-/

/-- A finite set, as the sorted list of its elements. -/
abbrev SortedSet (κ : Type*) [LinearOrder κ] := SortedMap κ Unit

namespace SortedSet

variable {κ : Type*} [LinearOrder κ]

instance : Membership κ (SortedSet κ) := ⟨fun s k => (s.get? k).isSome⟩

instance (k : κ) (s : SortedSet κ) : Decidable (k ∈ s) := inferInstanceAs (Decidable (_ = true))

/-- The set with `k`. -/
def add (s : SortedSet κ) (k : κ) : SortedSet κ := s.insert k ()

def ofKeys (l : List κ) : SortedSet κ := l.foldl add .empty

theorem mem_iff {s : SortedSet κ} {k : κ} : k ∈ s ↔ (k, ()) ∈ s.entries := by
  show (s.get? k).isSome ↔ _
  rw [Option.isSome_iff_exists]
  simp only [SortedMap.get?_eq_some_iff]
  exact ⟨fun ⟨_, h⟩ => h, fun h => ⟨(), h⟩⟩

@[simp] theorem not_mem_empty (k : κ) : k ∉ (.empty : SortedSet κ) := by
  rw [mem_iff]
  exact SortedMap.not_mem_empty

@[simp] theorem mem_add {s : SortedSet κ} {k k' : κ} : k' ∈ s.add k ↔ k' = k ∨ k' ∈ s := by
  rw [mem_iff, mem_iff, add, SortedMap.mem_insert]
  simp only [Prod.mk.injEq, and_true]
  by_cases h : k' = k <;> simp [h]

theorem mem_foldl_add {s : SortedSet κ} {l : List κ} {k : κ} :
    k ∈ l.foldl add s ↔ k ∈ s ∨ k ∈ l := by
  induction l generalizing s with
  | nil => simp
  | cons a l ih =>
    rw [List.foldl_cons, ih, mem_add, List.mem_cons]
    tauto

@[simp] theorem mem_ofKeys {l : List κ} {k : κ} : k ∈ ofKeys l ↔ k ∈ l := by
  simp [ofKeys, mem_foldl_add]

@[simp] theorem mem_keys {s : SortedSet κ} {k : κ} : k ∈ s.keys ↔ k ∈ s := by
  rw [mem_iff, SortedMap.keys, List.mem_map]
  exact ⟨fun ⟨⟨_, _⟩, h, he⟩ => he ▸ h, fun h => ⟨_, h, rfl⟩⟩

end SortedSet

namespace Worklist

variable {κ : Type*} [LinearOrder κ]

/-- A successor: seen, or now on the stack. -/
def push (s : SortedSet κ × List κ) (k : κ) : SortedSet κ × List κ :=
  if k ∈ s.1 then s else (s.1.add k, k :: s.2)

/-- The nodes seen once the stack is worked off, or the fuel used up. -/
def explore (next : κ → List κ) : ℕ → List κ → SortedSet κ → SortedSet κ
  | 0, _, out => out
  | _ + 1, [], out => out
  | fuel + 1, k :: stack, out =>
    let s := (next k).foldl push (out, stack)
    explore next fuel s.2 s.1

/-- What can be found from `start`, whose successors are all in `nodes`. -/
def closure (next : κ → List κ) (nodes : List κ) (start : SortedSet κ) : SortedSet κ :=
  explore next (start.keys.length + nodes.length) start.keys.reverse start

variable {next : κ → List κ} {nodes : List κ} {out : SortedSet κ} {stack : List κ}

/-- The nodes still to be found. -/
def missing (nodes : List κ) (out : SortedSet κ) : List κ := nodes.filter (· ∉ out)

theorem mem_foldl_push {l : List κ} {k : κ} :
    k ∈ (l.foldl push (out, stack)).1 ↔ k ∈ out ∨ k ∈ l := by
  induction l generalizing out stack with
  | nil => simp
  | cons a l ih =>
    rw [List.foldl_cons, push]
    split_ifs with h
    · rw [ih, List.mem_cons]
      constructor
      · tauto
      · rintro (h' | rfl | h')
        exacts [.inl h', .inl h, .inr h']
    · rw [ih, SortedSet.mem_add, List.mem_cons]
      tauto

/-- The new nodes are on the stack, over what was there. -/
theorem mem_stack_foldl_push {l : List κ} {k : κ} :
    k ∈ (l.foldl push (out, stack)).2 ↔ k ∈ stack ∨ k ∈ l ∧ k ∉ out := by
  induction l generalizing out stack with
  | nil => simp
  | cons a l ih =>
    rw [List.foldl_cons, push]
    split_ifs with h
    · rw [ih, List.mem_cons]
      constructor
      · tauto
      · rintro (h' | ⟨rfl | h', hk⟩)
        exacts [.inl h', absurd h hk, .inr ⟨h', hk⟩]
    · rw [ih, SortedSet.mem_add, List.mem_cons, List.mem_cons]
      by_cases hk : k = a
      · simp [hk, h]
      · simp [hk]

/-- A node leaves `missing` for each one put on the stack. -/
theorem length_foldl_push_le (out : SortedSet κ) (stack : List κ) {l : List κ}
    (hl : ∀ k ∈ l, k ∈ nodes) :
    (l.foldl push (out, stack)).2.length + (missing nodes (l.foldl push (out, stack)).1).length ≤
      stack.length + (missing nodes out).length := by
  induction l generalizing out stack with
  | nil => exact le_rfl
  | cons a l ih =>
    rw [List.forall_mem_cons] at hl
    rw [List.foldl_cons, push]
    split_ifs with h
    · exact ih _ _ hl.2
    · refine (ih _ _ hl.2).trans ?_
      have hfilter : missing nodes (out.add a) = (missing nodes out).filter (· ≠ a) := by
        simp only [missing, List.filter_filter, SortedSet.mem_add, not_or]
        exact List.filter_congr fun k _ => by simp
      have hlt : (missing nodes (out.add a)).length < (missing nodes out).length := by
        rw [hfilter, List.length_filter_lt_length_iff_exists]
        exact ⟨a, List.mem_filter.2 ⟨hl.1, by simpa using h⟩, by simp⟩
      simp only [List.length_cons]
      omega

/-- The exploration so far: what is seen is reachable, and has its successors seen
    unless it is still on the stack. -/
structure Exploring (next : κ → List κ) (start : κ → Prop) (out : SortedSet κ) (stack : List κ) :
    Prop where
  stacked : ∀ k ∈ stack, k ∈ out
  started : ∀ k, start k → k ∈ out
  reached : ∀ k ∈ out, ∃ s, start s ∧ Relation.ReflTransGen (fun a b => b ∈ next a) s k
  closed : ∀ k ∈ out, k ∈ stack ∨ ∀ k' ∈ next k, k' ∈ out

variable {start : κ → Prop}

theorem Exploring.step {k : κ} (h : Exploring next start out (k :: stack)) :
    Exploring next start ((next k).foldl push (out, stack)).1
      ((next k).foldl push (out, stack)).2 := by
  have hk := h.stacked k List.mem_cons_self
  refine ⟨fun k' hk' => ?_, fun s hs => mem_foldl_push.2 (.inl (h.started s hs)), fun k' hk' => ?_,
    fun k' hk' => ?_⟩
  · rw [mem_stack_foldl_push] at hk'
    rw [mem_foldl_push]
    exact hk'.imp (fun hs => h.stacked k' (List.mem_cons_of_mem _ hs)) And.left
  · rcases mem_foldl_push.1 hk' with hk' | hk'
    · exact h.reached k' hk'
    · obtain ⟨s, hs, hsk⟩ := h.reached k hk
      exact ⟨s, hs, hsk.tail hk'⟩
  · rw [mem_stack_foldl_push]
    simp only [mem_foldl_push]
    by_cases hout : k' ∈ out
    · rcases h.closed k' hout with hstack | hnext
      · rcases List.mem_cons.1 hstack with rfl | hstack
        · exact .inr fun _ => .inr
        · exact .inl (.inl hstack)
      · exact .inr fun k'' hk'' => .inl (hnext k'' hk'')
    · exact .inl (.inr ⟨(mem_foldl_push.1 hk').resolve_left hout, hout⟩)

/-- With fuel for the stack and all that is missing, the stack is worked off. -/
theorem Exploring.explore {fuel : ℕ} (h : Exploring next start out stack)
    (hnodes : ∀ k, ∀ k' ∈ next k, k' ∈ nodes)
    (hfuel : stack.length + (missing nodes out).length ≤ fuel) :
    Exploring next start (explore next fuel stack out) [] := by
  induction fuel generalizing out stack with
  | zero =>
    have hstack : stack = [] := List.length_eq_zero_iff.1 (by omega)
    rw [Worklist.explore]
    exact hstack ▸ h
  | succ fuel ih =>
    cases stack with
    | nil =>
      rw [Worklist.explore]
      exact h
    | cons k stack =>
      have hle := length_foldl_push_le out stack (hnodes k)
      rw [Worklist.explore]
      refine ih h.step (hle.trans ?_)
      simp only [List.length_cons] at hfuel
      omega

/-- A worklist finds what is reachable from its start. -/
theorem mem_closure_iff {start : SortedSet κ} (hnodes : ∀ k, ∀ k' ∈ next k, k' ∈ nodes) {k : κ} :
    k ∈ closure next nodes start ↔
      ∃ s ∈ start, Relation.ReflTransGen (fun a b => b ∈ next a) s k := by
  have hstart : Exploring next (· ∈ start) start start.keys.reverse :=
    ⟨fun k hk => by simpa using hk, fun _ => id, fun k hk => ⟨k, hk, .refl⟩,
      fun k hk => .inl (by simpa using hk)⟩
  have hfuel : start.keys.reverse.length + (missing nodes start).length ≤
      start.keys.length + nodes.length := by
    rw [List.length_reverse]
    exact Nat.add_le_add_left (List.length_filter_le _ _) _
  have hend := hstart.explore hnodes hfuel
  constructor
  · exact hend.reached k
  · rintro ⟨s, hs, hsk⟩
    induction hsk with
    | refl => exact hend.started s hs
    | tail _ hstep ih => exact (hend.closed _ ih).resolve_left List.not_mem_nil _ hstep

end Worklist
