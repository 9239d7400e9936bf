import Mathlib.Algebra.BigOperators.Group.List.Basic
import Mathlib.Algebra.Order.BigOperators.Group.List
import Mathlib.Algebra.Order.Monoid.Unbundled.Basic
import Mathlib.Algebra.Order.Ring.Nat

/-!
# Spans of time

What a system was like over time, as a list of spans, and how long a condition lasted in all
(`lasted`). A condition lasts as long as its cases do together (`lasted_split`, `sum_lasted`), and
never longer than a weaker one (`lasted_mono`).
-/

namespace Anthrex.Spans

variable {α β : Type*} {p q : α → Bool} {log : List (α × ℕ)}

/-- How long a condition lasted in all: each span has what it was like and its length. -/
def lasted (p : α → Bool) (log : List (α × ℕ)) : ℕ :=
  (log.map fun s => if p s.1 then s.2 else 0).sum

@[simp]
theorem lasted_nil (p : α → Bool) : lasted p [] = 0 := rfl

@[simp]
theorem lasted_cons (p : α → Bool) (a : α) (secs : ℕ) (log : List (α × ℕ)) :
    lasted p ((a, secs) :: log) = (if p a then secs else 0) + lasted p log := rfl

theorem lasted_congr (h : ∀ s ∈ log, p s.1 = q s.1) : lasted p log = lasted q log := by
  rw [lasted, lasted]
  congr 1
  exact List.map_congr_left fun s hs => by rw [h s hs]

theorem lasted_mono (h : ∀ s ∈ log, p s.1 → q s.1) : lasted p log ≤ lasted q log := by
  refine List.sum_le_sum fun s hs => ?_
  by_cases hp : p s.1
  · rw [if_pos hp, if_pos (h s hs hp)]
  · rw [if_neg hp]
    exact Nat.zero_le _

theorem lasted_eq_zero (h : ∀ s ∈ log, ¬p s.1) : lasted p log = 0 := by
  refine List.sum_eq_zero fun n hn => ?_
  obtain ⟨s, hs, rfl⟩ := List.mem_map.1 hn
  exact if_neg (h s hs)

/-- A condition lasts while another holds, and while it does not. -/
theorem lasted_split (p q : α → Bool) (log : List (α × ℕ)) :
    lasted p log = lasted (fun a => p a && q a) log + lasted (fun a => p a && !q a) log := by
  induction log with
  | nil => rfl
  | cons s log ih =>
    obtain ⟨a, secs⟩ := s
    rw [lasted_cons, lasted_cons, lasted_cons, ih]
    cases p a <;> cases q a <;> simp <;> omega

/-- What takes one of several values lasts as long as each of them does. -/
theorem sum_lasted [DecidableEq β] {f : α → Option β} {values : List β} (h : values.Nodup) :
    (values.map fun b => lasted (fun a => f a = some b) log).sum =
      lasted (fun a => (f a).any (· ∈ values)) log := by
  induction values with
  | nil => exact (lasted_eq_zero fun s _ => by cases f s.1 <;> simp).symm
  | cons b values ih =>
    obtain ⟨hb, hvalues⟩ := List.nodup_cons.1 h
    rw [List.map_cons, List.sum_cons, ih hvalues,
      lasted_split (fun a => (f a).any (· ∈ b :: values)) (fun a => f a = some b)]
    congr 1
    · refine lasted_congr fun s _ => ?_
      cases hf : f s.1 with
      | none => rfl
      | some c => simpa using Or.inl
    · refine lasted_congr fun s _ => ?_
      cases hf : f s.1 with
      | none => rfl
      | some c =>
        by_cases hc : c = b
        · simp [hc, hb]
        · simp [hc]

end Anthrex.Spans
