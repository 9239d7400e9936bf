import Mathlib.Data.List.Chain
import Mathlib.Order.MinMax

/-!
# Longest chains

What the heaviest chain from a node weighs, a chain going from a node to one it is related to: the
node's own weight, and the heaviest chain from one of those (`heaviest_of_next`).
-/

namespace Anthrex.Longest

variable {α : Type*} {r : α → α → Prop} {w : α → ℕ} {a : α} {v v' : ℕ}

/-- What a chain weighs. -/
def total (w : α → ℕ) : List α → ℕ
  | [] => 0
  | a :: l => w a + total w l

/-- A chain from `a` weighs `v`, and none weighs more. -/
structure Heaviest (r : α → α → Prop) (w : α → ℕ) (a : α) (v : ℕ) : Prop where
  reached : ∃ l, (a :: l).IsChain r ∧ total w (a :: l) = v
  bound : ∀ l, (a :: l).IsChain r → total w (a :: l) ≤ v

theorem Heaviest.unique (h : Heaviest r w a v) (h' : Heaviest r w a v') : v = v' := by
  obtain ⟨l, hl, rfl⟩ := h.reached
  obtain ⟨l', hl', rfl⟩ := h'.reached
  exact (h'.bound l hl).antisymm (h.bound l' hl')

/-- The greatest value of a list's members, `m` at least. -/
def greatest (f : α → ℕ) (l : List α) (m : ℕ) : ℕ := l.foldl (fun m a => max m (f a)) m

theorem greatest_cons (f : α → ℕ) (l : List α) (m : ℕ) :
    greatest f (a :: l) m = greatest f l (max m (f a)) := rfl

theorem le_greatest (f : α → ℕ) (l : List α) (m : ℕ) :
    m ≤ greatest f l m ∧ ∀ a ∈ l, f a ≤ greatest f l m := by
  induction l generalizing m with
  | nil => exact ⟨le_rfl, nofun⟩
  | cons b l ih =>
    rw [greatest_cons, List.forall_mem_cons]
    obtain ⟨hm, hl⟩ := ih (max m (f b))
    exact ⟨(le_max_left _ _).trans hm, (le_max_right _ _).trans hm, hl⟩

theorem greatest_eq (f : α → ℕ) (l : List α) (m : ℕ) :
    greatest f l m = m ∨ ∃ a ∈ l, greatest f l m = f a := by
  induction l generalizing m with
  | nil => exact .inl rfl
  | cons b l ih =>
    rw [greatest_cons]
    rcases ih (max m (f b)) with h | ⟨a, ha, h⟩
    · rcases max_choice m (f b) with hm | hb
      · exact .inl (h.trans hm)
      · exact .inr ⟨b, List.mem_cons_self, h.trans hb⟩
    · exact .inr ⟨a, List.mem_cons_of_mem _ ha, h⟩

/-- The heaviest chain from a node goes on with the heaviest from one it is related to. -/
theorem heaviest_of_next {next : List α} (hnext : ∀ b, b ∈ next ↔ r a b) {f : α → ℕ}
    (hf : ∀ b ∈ next, Heaviest r w b (f b)) : Heaviest r w a (w a + greatest f next 0) := by
  obtain ⟨-, hle⟩ := le_greatest f next 0
  refine ⟨?_, fun l hl => ?_⟩
  · rcases greatest_eq f next 0 with h | ⟨b, hb, h⟩
    · exact ⟨[], List.isChain_singleton a, by rw [h]; rfl⟩
    · obtain ⟨l, hl, htotal⟩ := (hf b hb).reached
      refine ⟨b :: l, List.isChain_cons_cons.2 ⟨(hnext b).1 hb, hl⟩, ?_⟩
      rw [h, ← htotal]
      rfl
  · cases l with
    | nil => exact Nat.add_le_add_left (Nat.zero_le _) _
    | cons b l =>
      obtain ⟨hab, hl⟩ := List.isChain_cons_cons.1 hl
      have hb := (hnext b).2 hab
      exact Nat.add_le_add_left (((hf b hb).bound l hl).trans (hle b hb)) _

/-- Where what a node is related to has a lower rank, there is a heaviest chain from each. -/
theorem exists_heaviest {next : α → List α} (hnext : ∀ a b, b ∈ next a ↔ r a b) {rank : α → ℕ}
    (hrank : ∀ a b, r a b → rank b < rank a) (a : α) : ∃ v, Heaviest r w a v := by
  induction hn : rank a using Nat.strong_induction_on generalizing a with
  | _ n ih =>
    have hlater : ∀ b, ∃ v, b ∈ next a → Heaviest r w b v := by
      intro b
      by_cases hb : b ∈ next a
      · obtain ⟨v, hv⟩ := ih (rank b) (hn ▸ hrank a b ((hnext a b).1 hb)) b rfl
        exact ⟨v, fun _ => hv⟩
      · exact ⟨0, fun h => absurd h hb⟩
    choose f hf using hlater
    exact ⟨_, heaviest_of_next (hnext a) hf⟩

theorem greatest_concat (f : α → ℕ) (l : List α) (a : α) (m : ℕ) :
    greatest f (l ++ [a]) m = max (greatest f l m) (f a) := by
  rw [greatest, List.foldl_append]
  rfl

/-- A node weighs no more than the heaviest chain from one related to it leaves. -/
theorem Heaviest.add_le {b : α} (h : Heaviest r w a v) (h' : Heaviest r w b v') (hab : r a b) :
    w a + v' ≤ v := by
  obtain ⟨l, hl, rfl⟩ := h'.reached
  exact h.bound (b :: l) (List.isChain_cons_cons.2 ⟨hab, hl⟩)

end Anthrex.Longest
