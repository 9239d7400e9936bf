import Mathlib.Data.List.Sort

/-!
# Stable sorting

A stable sort keeps the order of the elements it compares as equal, so it commutes with
leaving elements out; and what a threshold on the key keeps of a sorted list is a suffix
of it.
-/

namespace Sorting

variable {α : Type*} {r : α → α → Prop} [DecidableRel r]

/-- The stable sort by a key. -/
def byKey (key : α → ℕ) (l : List α) : List α := l.insertionSort (key · ≤ key ·)

/-- The number of leading elements with `p`, all those with `p` of a list that `p` parts. -/
def partitionPoint (p : α → Bool) (l : List α) : ℕ := (l.takeWhile p).length

theorem filter_orderedInsert [IsTrans α r] (p : α → Bool) (a : α) {l : List α}
    (hl : l.Pairwise r) : (l.orderedInsert r a).filter p =
      if p a then (l.filter p).orderedInsert r a else l.filter p := by
  induction l with
  | nil => by_cases ha : p a <;> simp [ha]
  | cons b l ih =>
    obtain ⟨hb, hl⟩ := List.pairwise_cons.1 hl
    by_cases hab : r a b
    · rw [List.orderedInsert_cons_of_le _ _ hab]
      by_cases ha : p a
      · -- what is left of `b :: l` still starts at or after `a`
        rw [if_pos ha, List.filter_cons_of_pos ha]
        have hall : ∀ c ∈ (b :: l).filter p, r a c := by
          intro c hc
          rcases List.mem_cons.1 (List.mem_of_mem_filter hc) with rfl | hc
          · exact hab
          · exact trans_of r hab (hb c hc)
        cases hf : (b :: l).filter p with
        | nil => rfl
        | cons c t =>
          rw [List.orderedInsert_cons_of_le _ _ (hall c (by simp [hf]))]
      · rw [if_neg ha, List.filter_cons_of_neg ha]
    · rw [List.orderedInsert_of_not_le _ _ hab]
      by_cases hpb : p b
      · rw [List.filter_cons_of_pos hpb, List.filter_cons_of_pos hpb, ih hl,
          List.orderedInsert_of_not_le _ _ hab]
        split <;> rfl
      · rw [List.filter_cons_of_neg hpb, List.filter_cons_of_neg hpb, ih hl]

theorem filter_insertionSort [IsTrans α r] [Std.Total r] (p : α → Bool) (l : List α) :
    (l.insertionSort r).filter p = (l.filter p).insertionSort r := by
  induction l with
  | nil => rfl
  | cons a l ih =>
    rw [List.insertionSort_cons, filter_orderedInsert p a (List.pairwise_insertionSort r l), ih]
    by_cases ha : p a
    · rw [if_pos ha, List.filter_cons_of_pos ha, List.insertionSort_cons]
    · rw [if_neg ha, List.filter_cons_of_neg ha]

variable {key : α → ℕ}

theorem pairwise_byKey (key : α → ℕ) (l : List α) :
    (byKey key l).Pairwise (key · ≤ key ·) :=
  haveI : Std.Total (key · ≤ key · : α → α → Prop) := ⟨fun a b => Nat.le_total (key a) (key b)⟩
  haveI : IsTrans α (key · ≤ key ·) := ⟨fun _ _ _ => Nat.le_trans⟩
  List.pairwise_insertionSort _ l

theorem filter_byKey (p : α → Bool) (l : List α) :
    (byKey key l).filter p = byKey key (l.filter p) :=
  haveI : Std.Total (key · ≤ key · : α → α → Prop) := ⟨fun a b => Nat.le_total (key a) (key b)⟩
  haveI : IsTrans α (key · ≤ key ·) := ⟨fun _ _ _ => Nat.le_trans⟩
  filter_insertionSort p l

/-- Past the partition point of a threshold stands everything above it. -/
theorem drop_partitionPoint {l : List α} (hl : l.Pairwise (key · ≤ key ·)) (n : ℕ) :
    l.drop (partitionPoint (key · ≤ n) l) = l.filter (n < key ·) := by
  induction l with
  | nil => rfl
  | cons a l ih =>
    obtain ⟨ha, hl⟩ := List.pairwise_cons.1 hl
    by_cases hn : key a ≤ n
    · rw [partitionPoint, List.takeWhile_cons_of_pos (by simpa using hn), List.length_cons,
        List.drop_succ_cons, List.filter_cons_of_neg (by simpa using hn)]
      exact ih hl
    · have hall : ∀ b ∈ a :: l, n < key b := by
        intro b hb
        rcases List.mem_cons.1 hb with rfl | hb
        · exact Nat.lt_of_not_le hn
        · exact (Nat.lt_of_not_le hn).trans_le (ha b hb)
      rw [partitionPoint, List.takeWhile_cons_of_neg (by simpa using hn),
        List.filter_eq_self.2 fun b hb => by simpa using hall b hb]
      rfl

/-- In a list sorted by `s`, what is left after the elements of a part closed downwards are those
    that are not in it. -/
theorem dropWhile_eq_filter {s : α → α → Prop} {p : α → Bool} {l : List α} (hl : l.Pairwise s)
    (hp : ∀ a b, s a b → p b = true → p a = true) : l.dropWhile p = l.filter (!p ·) := by
  induction l with
  | nil => rfl
  | cons a l ih =>
    obtain ⟨ha, hl⟩ := List.pairwise_cons.1 hl
    by_cases hpa : p a = true
    · rw [List.dropWhile_cons_of_pos hpa, List.filter_cons_of_neg (by simpa using hpa), ih hl]
    · rw [List.dropWhile_cons_of_neg hpa, List.filter_cons_of_pos (by simpa using hpa),
        List.filter_eq_self.2 fun b hb => by simpa using fun hpb => hpa (hp a b (ha b hb) hpb)]

end Sorting
