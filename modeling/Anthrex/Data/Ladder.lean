import Mathlib.Data.List.Basic
import Mathlib.Data.List.Nodup

/-!
# Ladders

Every place has a list of places above it, computed from scratch (`up`). The lists make
ladders when what is above a place of a list is the rest of that list (`Stepped`). Then a
climb that takes the first place above that is open, again and again, visits places of the
first list only, in order, and ends.
-/

namespace Anthrex.Ladder

variable {α : Type*}

/-- Above a place of the list above another is the rest of that list. -/
def Stepped (up : α → List α) : Prop := ∀ a b pre post, up a = pre ++ b :: post → up b = post

/-- Where `n` steps lead from `a`, while there are steps. -/
def climb (next : ℕ → α → Option α) (a : α) : ℕ → Option α
  | 0 => some a
  | n + 1 => (next 0 a).bind fun b => climb (fun k => next (k + 1)) b n

variable {up : α → List α}

/-- No ladder passes a place twice, nor comes back to where it starts. -/
theorem Stepped.nodup (h : Stepped up) (a : α) : (a :: up a).Nodup := by
  induction hn : (up a).length generalizing a with
  | zero => simp [List.length_eq_zero_iff.1 hn]
  | succ n ih =>
    obtain ⟨b, l, hl⟩ := List.exists_cons_of_length_eq_add_one hn
    have hb : up b = l := h a b [] l hl
    have hnodup := ih b (by simpa [hb, hl] using hn)
    rw [hb] at hnodup
    rw [List.nodup_cons, hl]
    refine ⟨fun hmem => ?_, hnodup⟩
    -- the ladder from `a` would be its own part after `a`
    obtain ⟨pre, post, hsplit⟩ := List.append_of_mem hmem
    have hpost := h a a pre post (hl.trans hsplit)
    have hlen : (up a).length = pre.length + (post.length + 1) := by
      rw [hl, hsplit, List.length_append, List.length_cons]
    rw [hpost] at hlen
    omega

/-- A climb visits places of the list above its start, in order, and ends, whatever is open at
    each step. -/
theorem Stepped.climb_sublist (h : Stepped up) (p : ℕ → α → Bool) (a : α) :
    ∃ visited, visited.Sublist (up a) ∧
      ∀ n, climb (fun k b => (up b).find? (p k)) a n = (a :: visited)[n]? := by
  induction hn : (up a).length using Nat.strongRecOn generalizing a p with
  | _ n ih =>
    cases hfind : (up a).find? (p 0) with
    | none =>
      refine ⟨[], List.nil_sublist _, fun n => ?_⟩
      cases n with
      | zero => rfl
      | succ n => simp [climb, hfind]
    | some b =>
      obtain ⟨-, pre, post, hl, -⟩ := List.find?_eq_some_iff_append.1 hfind
      have hb := h a b pre post hl
      have hlt : (up b).length < n := by
        rw [hb, ← hn, hl, List.length_append, List.length_cons]
        omega
      obtain ⟨visited, hsub, hclimb⟩ := ih _ hlt (fun k => p (k + 1)) b rfl
      refine ⟨b :: visited, ?_, fun n => ?_⟩
      · rw [hl]
        exact ((hb ▸ hsub).cons_cons b).trans (List.sublist_append_right _ _)
      · cases n with
        | zero => rfl
        | succ n =>
          rw [climb, hfind, Option.bind_some, hclimb, List.getElem?_cons_succ]

/-- When the same places are open at every step, the climb visits all of them. -/
theorem Stepped.climb_filter (h : Stepped up) (p : α → Bool) (a : α) (n : ℕ) :
    climb (fun _ b => (up b).find? p) a n = (a :: (up a).filter p)[n]? := by
  induction n generalizing a with
  | zero => rfl
  | succ n ih =>
    rw [climb, List.getElem?_cons_succ]
    cases hfind : (up a).find? p with
    | none =>
      have hnone : (up a).filter p = [] := by
        rw [List.filter_eq_nil_iff]
        exact List.find?_eq_none.1 hfind
      rw [hnone]
      rfl
    | some b =>
      obtain ⟨hpb, pre, post, hl, hpre⟩ := List.find?_eq_some_iff_append.1 hfind
      have hskip : pre.filter p = [] := List.filter_eq_nil_iff.2 fun x hx => by simpa using hpre x hx
      rw [Option.bind_some, ih, h a b pre post hl, hl, List.filter_append, hskip, List.nil_append,
        List.filter_cons_of_pos hpb]

end Anthrex.Ladder
