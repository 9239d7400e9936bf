import Mathlib.Data.List.Sort

/-!
# Cuts

Items are cut until they cost little enough: the longest first, the last of equals, and each by
what is still too much. What the cuts take off is a sum over the items in that order (`taken`),
and a cut of the longest item is its first term (`taken_cut`).
-/

namespace Anthrex.Cuts

variable {α : Type*} (len cost : α → ℕ) (cut : ℕ → α → α)

/-- The items in the order they are cut in. -/
def longestFirst (l : List α) : List α := l.insertionSort fun a b => len b < len a

/-- What is taken off the items, one after the other, to take off `excess` at least. -/
def taken (excess : ℕ) : List α → ℕ
  | [] => 0
  | a :: l =>
    let off := cost a - cost (cut (len a - excess) a)
    off + taken (excess - off) l

/-- A cut to `n` leaves a length of `n` at most, and takes off the cost of all it cuts. -/
structure Lawful : Prop where
  len_cut : ∀ n a, len (cut n a) ≤ n
  cost_cut : ∀ n a, cost (cut n a) + (len a - n) ≤ cost a
  cut_len : ∀ a, cut (len a) a = a

variable {len cost cut} {excess : ℕ} {a : α} {before after : List α}

theorem longestFirst_eq (hbefore : ∀ b ∈ before, len b ≤ len a) (hafter : ∀ b ∈ after, len b < len a) :
    longestFirst len (before ++ a :: after) = a :: longestFirst len (before ++ after) := by
  induction before with
  | nil =>
    exact List.insertionSort_cons_of_forall_rel _ hafter
  | cons b before ih =>
    obtain ⟨hb, hbefore⟩ := List.forall_mem_cons.1 hbefore
    rw [List.cons_append, List.cons_append, longestFirst, longestFirst, List.insertionSort_cons,
      List.insertionSort_cons]
    rw [longestFirst, longestFirst] at ih
    rw [ih hbefore, List.orderedInsert_of_not_le]
    exact Nat.not_lt.2 hb

namespace Lawful

variable (h : Lawful len cost cut)

include h

theorem taken_zero (l : List α) : taken len cost cut 0 l = 0 := by
  induction l with
  | nil => rfl
  | cons a l ih => rw [taken, Nat.sub_zero, h.cut_len, Nat.sub_self, Nat.sub_zero, ih]

theorem cost_cut_le (n : ℕ) (a : α) : cost (cut n a) ≤ cost a := (Nat.le_add_right ..).trans (h.cost_cut n a)

/-- A cut that does not take off enough leaves nothing. -/
theorem len_cut_eq_zero (hoff : cost a - cost (cut (len a - excess) a) < excess) :
    len (cut (len a - excess) a) = 0 := by
  have hcost := h.cost_cut (len a - excess) a
  have hlen := h.len_cut (len a - excess) a
  omega

/-- After the cut of the longest item, what is left of it is not cut again. -/
theorem taken_cut (hbefore : ∀ b ∈ before, len b ≤ len a) (hafter : ∀ b ∈ after, len b < len a)
    {rest : List α}
    (hrest : len (cut (len a - excess) a) = 0 → rest = before ++ after) :
    taken len cost cut excess (longestFirst len (before ++ a :: after)) =
      cost a - cost (cut (len a - excess) a) +
        taken len cost cut (excess - (cost a - cost (cut (len a - excess) a))) (longestFirst len rest) := by
  rw [longestFirst_eq hbefore hafter, taken]
  by_cases hoff : cost a - cost (cut (len a - excess) a) < excess
  · rw [hrest (h.len_cut_eq_zero hoff)]
  · rw [Nat.sub_eq_zero_of_le (Nat.not_lt.1 hoff), h.taken_zero, h.taken_zero]

end Lawful

end Anthrex.Cuts
