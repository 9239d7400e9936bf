import Mathlib.Data.List.Induction
import Mathlib.Order.MinMax

/-!
# Maximal runs of a symbol

A list is cut at the maximal runs of one symbol: what stands before a run holds no such
symbol, and what follows it does not start with one. `longest` measures the runs in one pass
(`replicate_infix_iff`).
-/

namespace Anthrex.Runs

variable {α : Type*} {c : α}

/-- A list is a text without the symbol, or goes on behind a first maximal run of it. -/
theorem cut [DecidableEq α] (c : α) (l : List α) :
    c ∉ l ∨ ∃ t n rest, c ∉ t ∧ rest.head? ≠ some c ∧
      l = t ++ List.replicate (n + 1) c ++ rest := by
  induction l with
  | nil => exact .inl List.not_mem_nil
  | cons x l ih =>
    rcases ih with hl | ⟨t, n, rest, ht, hrest, rfl⟩
    · by_cases hx : x = c
      · subst hx
        refine .inr ⟨[], 0, l, List.not_mem_nil, fun h => hl (List.mem_of_mem_head? h), rfl⟩
      · exact .inl (by simp [hl, Ne.symm hx])
    · by_cases hx : x = c
      · subst hx
        cases t with
        | nil => exact .inr ⟨[], n + 1, rest, List.not_mem_nil, hrest, rfl⟩
        | cons y t =>
          refine .inr ⟨[], 0, y :: t ++ List.replicate (n + 1) x ++ rest, List.not_mem_nil, ?_, rfl⟩
          rintro h
          exact ht (Option.some.inj h ▸ List.mem_cons_self)
      · refine .inr ⟨x :: t, n, rest, ?_, hrest, rfl⟩
        rw [List.mem_cons, not_or]
        exact ⟨Ne.symm hx, ht⟩

/-- Induction from one maximal run to what follows it. -/
theorem induction_runs [DecidableEq α] (c : α) {motive : List α → Prop}
    (text : ∀ t, c ∉ t → motive t)
    (run : ∀ t n rest, c ∉ t → rest.head? ≠ some c → motive rest →
      motive (t ++ List.replicate (n + 1) c ++ rest)) (l : List α) : motive l := by
  induction hn : l.length using Nat.strongRecOn generalizing l with
  | _ n ih =>
    rcases cut c l with hl | ⟨t, k, rest, ht, hrest, rfl⟩
    · exact text l hl
    · refine run t k rest ht hrest (ih _ ?_ rest rfl)
      simp only [List.length_append, List.length_replicate] at hn
      omega

theorem takeWhile_run [DecidableEq α] {n : ℕ} {rest : List α} (h : rest.head? ≠ some c) :
    (List.replicate n c ++ rest).takeWhile (· = c) = List.replicate n c := by
  induction n with
  | zero =>
    cases rest with
    | nil => rfl
    | cons x rest =>
      have hx : x ≠ c := fun he => h (by rw [he]; rfl)
      simp [hx]
  | succ n ih =>
    rw [List.replicate_succ, List.cons_append, List.takeWhile_cons_of_pos (by simp), ih]

theorem dropWhile_run [DecidableEq α] {n : ℕ} {rest : List α} (h : rest.head? ≠ some c) :
    (List.replicate n c ++ rest).dropWhile (· = c) = rest := by
  induction n with
  | zero =>
    cases rest with
    | nil => rfl
    | cons x rest =>
      have hx : x ≠ c := fun he => h (by rw [he]; rfl)
      simp [hx]
  | succ n ih =>
    rw [List.replicate_succ, List.cons_append, List.dropWhile_cons_of_pos (by simp), ih]

/-! ## The longest run -/

/-- One more item: the longest run so far, and the one that goes on. -/
def measure [DecidableEq α] (c : α) (s : ℕ × ℕ) (x : α) : ℕ × ℕ :=
  if x = c then (max s.1 (s.2 + 1), s.2 + 1) else (s.1, 0)

/-- How long the longest run is. -/
def longest [DecidableEq α] (c : α) (l : List α) : ℕ := (l.foldl (measure c) (0, 0)).1

theorem replicate_suffix_concat_iff {n : ℕ} {l : List α} {x : α} :
    List.replicate (n + 1) c <:+ l ++ [x] ↔ x = c ∧ List.replicate n c <:+ l := by
  rw [List.replicate_succ', List.suffix_concat_iff]
  constructor
  · rintro (h | ⟨t, ht, hl⟩)
    · simp at h
    · obtain ⟨ht, hx⟩ := List.append_inj' ht rfl
      rw [ht]
      exact ⟨(List.singleton_inj.1 hx).symm, hl⟩
  · rintro ⟨rfl, hl⟩
    exact .inr ⟨_, rfl, hl⟩

/-- The pass knows the longest run, and the one that its end is. -/
theorem replicate_iff_foldl [DecidableEq α] (l : List α) :
    (∀ n, List.replicate n c <:+: l ↔ n ≤ (l.foldl (measure c) (0, 0)).1) ∧
      ∀ n, List.replicate n c <:+ l ↔ n ≤ (l.foldl (measure c) (0, 0)).2 := by
  induction l using List.reverseRecOn with
  | nil => simp
  | append_singleton l x ih =>
    obtain ⟨hinner, hsuffix⟩ := ih
    rw [List.foldl_append, List.foldl_cons, List.foldl_nil, measure]
    have hlast : ∀ n, List.replicate n c <:+ l ++ [x] ↔
        n ≤ if x = c then (l.foldl (measure c) (0, 0)).2 + 1 else 0 := by
      intro n
      cases n with
      | zero => simp
      | succ n =>
        rw [replicate_suffix_concat_iff, hsuffix]
        split <;> rename_i hx <;> simp [hx]
    refine ⟨fun n => ?_, fun n => ?_⟩
    · rw [List.infix_concat_iff, hinner, hlast]
      split
      · rw [le_max_iff, or_comm]
      · dsimp only
        omega
    · rw [hlast]
      split <;> rfl

theorem replicate_infix_iff [DecidableEq α] {n : ℕ} {l : List α} :
    List.replicate n c <:+: l ↔ n ≤ longest c l :=
  (replicate_iff_foldl l).1 n

/-- A part of a list has no longer runs. -/
theorem longest_mono [DecidableEq α] {l l' : List α} (h : l <:+: l') : longest c l ≤ longest c l' :=
  replicate_infix_iff.1 ((replicate_infix_iff.2 le_rfl).trans h)

end Anthrex.Runs
