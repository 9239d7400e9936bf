import Anthrex.Data.Graph

/-!
# Kernels

A kernel of a finite relation holds a member exactly when it holds none of the member's attackers.
A relation with a cycle may have none or several. One without has exactly one, and `solve` finds
it, down to any depth from the number of members on: a member's attackers have fewer members
above them than it has itself (`Graph.rank_lt`), so no line of attackers is longer than that.
-/

namespace Anthrex.Kernel

open Graph Relation

variable {α : Type*} [DecidableEq α] {l : List α} {attackers : α → List α} {a b : α} {n m : ℕ}

/-- Whether `e` holds a member exactly when it holds none of its attackers. -/
def IsKernel (l : List α) (attackers : α → List α) (e : α → Bool) : Prop :=
  ∀ a ∈ l, e a = !(attackers a).any e

/-- The kernel, as far as `n` attacks above a member tell. -/
def solve (attackers : α → List α) : ℕ → α → Bool
  | 0, _ => true
  | n + 1, a => !(attackers a).any (solve attackers n)

omit [DecidableEq α] in
theorem any_attackers {p q : α → Bool} {as : List α} (h : ∀ b ∈ as, p b = q b) :
    as.any p = as.any q := by
  rw [Bool.eq_iff_iff, List.any_eq_true, List.any_eq_true]
  exact exists_congr fun b => and_congr_right fun hb => by rw [h b hb]

omit [DecidableEq α] in
theorem solve_of_nil (h : attackers a = []) : solve attackers n a = true := by
  cases n with
  | zero => rfl
  | succ n => rw [solve, h, List.any_nil, Bool.not_false]

/-- What `solve` finds does not depend on the depth. -/
theorem solve_eq_solve (hacyclic : Acyclic fun x y => y ∈ attackers x) (hmem : ∀ a, attackers a ⊆ l)
    (hn : rank l attackers a ≤ n) (hm : rank l attackers a ≤ m) :
    solve attackers n a = solve attackers m a := by
  induction n generalizing a m with
  | zero =>
    have hnone := next_eq_nil hacyclic (hmem a) hn
    rw [solve_of_nil hnone, solve_of_nil hnone]
  | succ n ih =>
    cases m with
    | zero =>
      have hnone := next_eq_nil hacyclic (hmem a) hm
      rw [solve_of_nil hnone, solve_of_nil hnone]
    | succ m =>
      rw [solve, solve]
      refine congrArg _ (any_attackers fun b hb => ?_)
      have hlt := rank_lt hacyclic (hmem a hb) hb
      exact ih (by omega) (by omega)

/-- In enough depth, what `solve` finds is a kernel. -/
theorem isKernel_solve (hacyclic : Acyclic fun x y => y ∈ attackers x)
    (hmem : ∀ a, attackers a ⊆ l) (hn : l.length ≤ n) : IsKernel l attackers (solve attackers n) := by
  intro a ha
  have hrank := rank_lt_length hacyclic ha
  have hnext : solve attackers n a = solve attackers (n + 1) a :=
    solve_eq_solve hacyclic hmem (by omega) (by omega)
  exact hnext

/-- A kernel is what `solve` finds. -/
theorem IsKernel.eq_solve {e : α → Bool} (h : IsKernel l attackers e)
    (hacyclic : Acyclic fun x y => y ∈ attackers x) (hmem : ∀ a, attackers a ⊆ l) (ha : a ∈ l)
    (hn : rank l attackers a ≤ n) : e a = solve attackers n a := by
  induction n generalizing a with
  | zero =>
    have hnone := next_eq_nil hacyclic (hmem a) hn
    rw [h a ha, hnone, solve, List.any_nil, Bool.not_false]
  | succ n ih =>
    rw [h a ha, solve]
    refine congrArg _ (any_attackers fun b hb => ih (hmem a hb) ?_)
    have hlt := rank_lt hacyclic (hmem a hb) hb
    omega

end Anthrex.Kernel
