import Mathlib.Data.List.Basic
import Mathlib.Data.List.DropRight
import Mathlib.Tactic.SplitIfs

/-!
# Text in fields

Lists of characters with fields that a separator ends: cutting a text at the first
separator, and that texts of fields are equal only field by field.
-/

namespace Text

variable {α : Type*} [DecidableEq α]

/-- The text before the first `sep` and the text after it. -/
def cut (sep : α) : List α → Option (List α × List α)
  | [] => none
  | x :: l => if x = sep then some ([], l) else (cut sep l).map fun p => (x :: p.1, p.2)

theorem cut_cons (sep x : α) (l : List α) : cut sep (x :: l) =
    if x = sep then some ([], l) else (cut sep l).map fun p => (x :: p.1, p.2) := rfl

theorem cut_eq_some {sep : α} {l a b : List α} (h : cut sep l = some (a, b)) :
    sep ∉ a ∧ l = a ++ sep :: b := by
  induction l generalizing a with
  | nil => cases h
  | cons x l ih =>
    rw [cut_cons] at h
    split_ifs at h with hx
    · cases h
      simp [hx]
    · obtain ⟨⟨a', b'⟩, hcut, he⟩ := Option.map_eq_some_iff.1 h
      cases he
      obtain ⟨ha, rfl⟩ := ih hcut
      exact ⟨by simp [ha, Ne.symm hx], rfl⟩

theorem cut_of_not_mem {sep : α} {l : List α} (hl : sep ∉ l) : cut sep l = none := by
  induction l with
  | nil => rfl
  | cons x l ih =>
    rw [List.mem_cons, not_or] at hl
    rw [cut_cons, if_neg (Ne.symm hl.1), ih hl.2]
    rfl

theorem cut_append_cons {sep : α} {a b : List α} (ha : sep ∉ a) :
    cut sep (a ++ sep :: b) = some (a, b) := by
  induction a with
  | nil => rw [List.nil_append, cut_cons, if_pos rfl]
  | cons x a ih =>
    rw [List.mem_cons, not_or] at ha
    rw [List.cons_append, cut_cons, if_neg (Ne.symm ha.1), ih ha.2]
    rfl

omit [DecidableEq α] in
/-- Fields without their separator are told apart. -/
theorem append_cons_inj {sep : α} {a a' b b' : List α} (ha : sep ∉ a) (ha' : sep ∉ a')
    (h : a ++ sep :: b = a' ++ sep :: b') : a = a' ∧ b = b' := by
  induction a generalizing a' with
  | nil =>
    cases a' with
    | nil => exact ⟨rfl, (List.cons.inj h).2⟩
    | cons x a' =>
      obtain ⟨rfl, -⟩ := List.cons.inj h
      exact absurd List.mem_cons_self ha'
  | cons x a ih =>
    cases a' with
    | nil =>
      obtain ⟨rfl, -⟩ := List.cons.inj h
      exact absurd List.mem_cons_self ha
    | cons y a' =>
      obtain ⟨rfl, h'⟩ := List.cons.inj h
      obtain ⟨rfl, rfl⟩ := ih (fun hm => ha (List.mem_cons_of_mem _ hm))
        (fun hm => ha' (List.mem_cons_of_mem _ hm)) h'
      exact ⟨rfl, rfl⟩

theorem not_mem_of_mem_splitOn {sep : α} {l a : List α} (h : a ∈ l.splitOn sep) : sep ∉ a := by
  induction l generalizing a with
  | nil =>
    rw [List.splitOn_nil, List.mem_singleton] at h
    simp [h]
  | cons x l ih =>
    rw [List.splitOn_cons_eq_if_modifyHead] at h
    split_ifs at h with hx
    · rcases List.mem_cons.1 h with rfl | h
      · simp
      · exact ih h
    · cases hs : l.splitOn sep with
      | nil => exact absurd hs (List.splitOn_ne_nil sep l)
      | cons y ys =>
        rw [hs, List.modifyHead_cons] at h
        rcases List.mem_cons.1 h with rfl | h
        · rw [List.mem_cons, not_or]
          refine ⟨fun he => hx (by simp [he]), ih ?_⟩
          rw [hs]
          exact List.mem_cons_self
        · refine ih ?_
          rw [hs]
          exact List.mem_cons_of_mem _ h

/-- The first of the texts between separators, and the text after it. -/
theorem splitOn_eq_cons {sep : α} {l a : List α} {s : List (List α)}
    (h : l.splitOn sep = a :: s) :
    (l = a ∧ s = []) ∨ ∃ rest, l = a ++ sep :: rest ∧ rest.splitOn sep = s := by
  by_cases hl : sep ∈ l
  · obtain ⟨a', rest, rfl, ha'⟩ := List.eq_append_cons_of_mem hl
    rw [List.splitOn_append_cons_self_of_not_mem ha'] at h
    obtain ⟨rfl, rfl⟩ := List.cons.inj h
    exact .inr ⟨rest, rfl, rfl⟩
  · rw [List.splitOn_eq_singleton hl] at h
    obtain ⟨rfl, rfl⟩ := List.cons.inj h
    exact .inl ⟨rfl, rfl⟩

theorem subset_of_mem_splitOn {sep : α} {l a : List α} (h : a ∈ l.splitOn sep) : a ⊆ l := by
  induction hs : l.splitOn sep generalizing l with
  | nil => exact absurd hs (List.splitOn_ne_nil sep l)
  | cons b s ih =>
    rw [hs] at h
    rcases splitOn_eq_cons hs with ⟨rfl, rfl⟩ | ⟨rest, rfl, hrest⟩
    · rw [List.mem_singleton.1 h]
      exact List.Subset.refl _
    · rcases List.mem_cons.1 h with rfl | h
      · exact List.subset_append_left _ _
      · intro x hx
        exact List.mem_append_right _ (List.mem_cons_of_mem _ (ih (hrest ▸ h) hrest hx))

/-- Separators at the end of a text only end it with empty texts. -/
theorem prefix_splitOn_rdropWhile {sep : α} {l : List α} {u : List (List α)} (hu : [] ∉ u)
    (h : u <+: l.splitOn sep) : u <+: (l.rdropWhile (· = sep)).splitOn sep := by
  induction l using List.reverseRecOn with
  | nil => simpa using h
  | append_singleton l x ih =>
    by_cases hx : x = sep
    · rw [List.rdropWhile_concat_pos _ _ _ (by simpa using hx)]
      refine ih ?_
      rw [hx, List.splitOn_append_cons_self, List.splitOn_nil, List.prefix_concat_iff] at h
      refine h.resolve_left fun he => hu ?_
      rw [he]
      exact List.mem_append_right _ List.mem_cons_self
    · rwa [List.rdropWhile_concat_neg _ _ _ (by simpa using hx)]

omit [DecidableEq α] in
/-- Two lists of texts, joined. -/
theorem intercalate_append {sep : α} {u v : List (List α)} (hu : u ≠ []) (hv : v ≠ []) :
    [sep].intercalate (u ++ v) = [sep].intercalate u ++ sep :: [sep].intercalate v := by
  induction u with
  | nil => exact absurd rfl hu
  | cons a u ih =>
    cases u with
    | nil =>
      rw [List.singleton_append, List.intercalate_cons_of_ne_nil hv, List.intercalate_singleton,
        List.append_assoc, List.singleton_append]
    | cons b u =>
      rw [List.cons_append, List.intercalate_cons_of_ne_nil (by simp), ih (by simp),
        List.intercalate_cons_of_ne_nil (List.cons_ne_nil b u)]
      simp only [List.append_assoc]

theorem splitOn_rdropWhile_prefix (sep : α) (l : List α) :
    (l.rdropWhile (· = sep)).splitOn sep <+: l.splitOn sep := by
  induction l using List.reverseRecOn with
  | nil => simp
  | append_singleton l x ih =>
    by_cases hx : x = sep
    · rw [List.rdropWhile_concat_pos _ _ _ (by simpa using hx), hx, List.splitOn_append_cons_self]
      exact ih.trans (List.prefix_append _ _)
    · have hkeep := List.rdropWhile_concat_neg (fun y => decide (y = sep)) l x (by simpa using hx)
      simp only [hkeep, List.prefix_rfl]

/-- A text that does not end in a separator has a last part. -/
theorem eq_nil_of_splitOn_rdropWhile {sep : α} {l : List α} {u : List (List α)}
    (h : (l.rdropWhile (· = sep)).splitOn sep = u ++ [[]]) : u = [] := by
  by_contra hu
  have hjoin : l.rdropWhile (· = sep) = [sep].intercalate u ++ [sep] := by
    have hparts : [sep].intercalate ((l.rdropWhile (· = sep)).splitOn sep) =
        l.rdropWhile (· = sep) := List.intercalate_splitOn sep
    rw [← hparts, h, intercalate_append hu (by simp), List.intercalate_singleton]
  have hne : l.rdropWhile (· = sep) ≠ [] := by simp [hjoin]
  have hlast := List.rdropWhile_last_not (fun x => decide (x = sep)) l hne
  simp [hjoin] at hlast

end Text
