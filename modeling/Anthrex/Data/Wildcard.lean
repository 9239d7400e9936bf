import Mathlib.Data.List.Basic

/-!
# Patterns with wildcards over two lists

A pattern is a list of symbols, of which some (`any`) match any number of letters and the
others one letter each. `overlap` decides whether two patterns may match a common word,
given a test of two symbols that both match one letter. It may say so of patterns that do
not, when the test does, but never the other way round.
-/

namespace Anthrex.Wildcard

variable {α β : Type*} (any : α → Bool)

/-- The words a pattern matches, where `M` says what a single symbol does. -/
inductive Matches (M : α → β → Prop) : List α → List β → Prop
  | nil : Matches M [] []
  | skip {x l q} : any x → Matches M l q → Matches M (x :: l) q
  | eat {x l d q} : any x → Matches M (x :: l) q → Matches M (x :: l) (d :: q)
  | one {x l d q} : ¬ any x → M x d → Matches M l q → Matches M (x :: l) (d :: q)

/-- Whether some word matches both patterns. -/
def overlap (meets : α → α → Bool) : List α → List α → Bool
  | [], [] => true
  | [], y :: b => any y && overlap meets [] b
  | x :: a, [] => any x && overlap meets a []
  | x :: a, y :: b =>
    if any x then overlap meets a (y :: b) || overlap meets (x :: a) b
    else if any y then overlap meets (x :: a) b || overlap meets a (y :: b)
    else meets x y && overlap meets a b
termination_by a b => a.length + b.length

variable {any} {meets : α → α → Bool} {M N : α → β → Prop} {a b : List α} {x y : α}

theorem matches_any (hx : any x) (q : List β) : Matches any M [x] q := by
  induction q with
  | nil => exact .skip hx .nil
  | cons d q ih => exact .eat hx ih

theorem overlap_left (hx : any x) :
    overlap any meets (x :: a) b ↔
      overlap any meets a b ∨ ∃ y b', b = y :: b' ∧ overlap any meets (x :: a) b' := by
  cases b with
  | nil => simp [overlap, hx]
  | cons y b => simp [overlap, hx]

theorem overlap_right (hx : ¬ any x) (hy : any y) :
    overlap any meets (x :: a) (y :: b) ↔
      overlap any meets (x :: a) b ∨ overlap any meets a (y :: b) := by
  conv_lhs => rw [overlap, if_neg hx, if_pos hy]
  exact Bool.or_eq_true_iff

theorem overlap_one (hx : ¬ any x) (hy : ¬ any y) :
    overlap any meets (x :: a) (y :: b) ↔ meets x y ∧ overlap any meets a b := by
  rw [overlap, if_neg hx, if_neg hy]
  exact Bool.and_eq_true_iff

/-- A pattern of the empty word overlaps the empty pattern. -/
theorem overlap_nil_of_matches (hb : Matches any N b ([] : List β)) :
    overlap any meets [] b := by
  induction b with
  | nil => rw [overlap]
  | cons y b ih =>
    cases hb with
    | skip hy hb =>
      rw [overlap]
      exact Bool.and_eq_true_iff.2 ⟨hy, ih hb⟩

/-- Two patterns of one word overlap. -/
theorem overlap_of_matches {q : List β}
    (hmeets : ∀ {x y d}, x ∈ a → y ∈ b → ¬ any x → ¬ any y → M x d → N y d → meets x y)
    (ha : Matches any M a q) (hb : Matches any N b q) : overlap any meets a b := by
  induction ha generalizing b with
  | nil => exact overlap_nil_of_matches hb
  | skip hx _ ih =>
    exact (overlap_left hx).2 (.inl (ih (fun hxa => hmeets (List.mem_cons_of_mem _ hxa)) hb))
  | eat hx _ ih =>
    -- the second pattern skips symbols until one of them takes the letter
    induction b with
    | nil => cases hb
    | cons y b ihb =>
      have htail : ∀ {z}, z ∈ b → z ∈ y :: b := List.mem_cons_of_mem _
      refine (overlap_left hx).2 ?_
      cases hb with
      | skip hy hb => exact .inr ⟨y, b, rfl, ihb (fun hxa hyb => hmeets hxa (htail hyb)) hb⟩
      | eat hy hb => exact (overlap_left hx).1 (ih hmeets hb)
      | one hy hd hb => exact .inr ⟨y, b, rfl, ih (fun hxa hyb => hmeets hxa (htail hyb)) hb⟩
  | @one x a d q hx hd _ ih =>
    have hinit : ∀ {z}, z ∈ a → z ∈ x :: a := List.mem_cons_of_mem _
    induction b with
    | nil => cases hb
    | cons y b ihb =>
      have htail : ∀ {z}, z ∈ b → z ∈ y :: b := List.mem_cons_of_mem _
      cases hb with
      | skip hy hb =>
        exact (overlap_right hx hy).2 (.inl (ihb (fun hxa hyb => hmeets hxa (htail hyb)) hb))
      | eat hy hb => exact (overlap_right hx hy).2 (.inr (ih (fun hxa => hmeets (hinit hxa)) hb))
      | one hy hd' hb =>
        exact (overlap_one hx hy).2
          ⟨hmeets List.mem_cons_self List.mem_cons_self hx hy hd hd',
            ih (fun hxa hyb => hmeets (hinit hxa) (htail hyb)) hb⟩

end Anthrex.Wildcard
