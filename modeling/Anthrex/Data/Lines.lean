import Anthrex.Data.Text

/-!
# Lines

A file of lines is a list of bytes in which a separator ends each line. What comes after the
last separator is a line that was not written to its end, or nothing. `ended` and `torn` take a
file apart, `joined` puts the lines together, and these are inverse to each other (`joined_ended`,
`ended_joined_append`).
-/

namespace Lines

variable {α : Type*} [DecidableEq α] {sep : α} {l t : List α} {lines : List (List α)}

/-- The lines that a separator ends, and what comes after the last one. -/
def cut (sep : α) : List α → List (List α) × List α
  | [] => ([], [])
  | x :: l =>
    if x = sep then ([] :: (cut sep l).1, (cut sep l).2)
    else
      match (cut sep l).1 with
      | [] => ([], x :: (cut sep l).2)
      | line :: lines => ((x :: line) :: lines, (cut sep l).2)

/-- The lines that a separator ends. -/
def ended (sep : α) (l : List α) : List (List α) := (cut sep l).1

/-- What comes after the last separator. -/
def torn (sep : α) (l : List α) : List α := (cut sep l).2

/-- The lines, each with its separator. -/
def joined (sep : α) (lines : List (List α)) : List α := lines.flatMap (· ++ [sep])

omit [DecidableEq α] in
@[simp]
theorem joined_nil : joined sep [] = [] := rfl

omit [DecidableEq α] in
@[simp]
theorem joined_cons {line : List α} : joined sep (line :: lines) = line ++ sep :: joined sep lines := by
  simp [joined]

omit [DecidableEq α] in
@[simp]
theorem joined_append {lines' : List (List α)} :
    joined sep (lines ++ lines') = joined sep lines ++ joined sep lines' :=
  List.flatMap_append

omit [DecidableEq α] in
theorem length_le_joined (lines : List (List α)) : lines.length ≤ (joined sep lines).length := by
  induction lines with
  | nil => exact le_rfl
  | cons line lines ih =>
    rw [joined_cons, List.length_append, List.length_cons, List.length_cons]
    omega

theorem cut_cons_self (l : List α) : cut sep (sep :: l) = ([] :: ended sep l, torn sep l) :=
  if_pos rfl

theorem cut_cons_of_ne {x : α} (hx : x ≠ sep) :
    cut sep (x :: l) =
      match ended sep l with
      | [] => ([], x :: torn sep l)
      | line :: lines => ((x :: line) :: lines, torn sep l) :=
  if_neg hx

theorem cut_of_not_mem (ht : sep ∉ t) : cut sep t = ([], t) := by
  induction t with
  | nil => rfl
  | cons x t ih =>
    rw [List.mem_cons, not_or] at ht
    rw [cut_cons_of_ne (Ne.symm ht.1), ended, torn, ih ht.2]

theorem cut_append_cons {line : List α} (hline : sep ∉ line) :
    cut sep (line ++ sep :: l) = (line :: ended sep l, torn sep l) := by
  induction line with
  | nil => rw [List.nil_append, cut_cons_self]
  | cons x line ih =>
    rw [List.mem_cons, not_or] at hline
    rw [List.cons_append, cut_cons_of_ne (Ne.symm hline.1), ended, torn, ih hline.2]

theorem cut_joined_append (hlines : ∀ line ∈ lines, sep ∉ line) :
    cut sep (joined sep lines ++ t) = (lines ++ ended sep t, torn sep t) := by
  induction lines with
  | nil => rfl
  | cons line lines ih =>
    have hcut := ih fun line' h => hlines line' (List.mem_cons_of_mem _ h)
    rw [joined_cons, List.append_assoc, List.cons_append,
      cut_append_cons (hlines line List.mem_cons_self), ended, torn, hcut]
    rfl

theorem ended_joined_append (hlines : ∀ line ∈ lines, sep ∉ line) :
    ended sep (joined sep lines ++ t) = lines ++ ended sep t := by
  rw [ended, cut_joined_append hlines]

theorem torn_joined_append (hlines : ∀ line ∈ lines, sep ∉ line) :
    torn sep (joined sep lines ++ t) = torn sep t := by
  rw [torn, cut_joined_append hlines]

theorem ended_of_not_mem (ht : sep ∉ t) : ended sep t = [] := by rw [ended, cut_of_not_mem ht]

theorem torn_of_not_mem (ht : sep ∉ t) : torn sep t = t := by rw [torn, cut_of_not_mem ht]

/-- A list is its lines and its torn end, and the separator is only between them. -/
theorem exists_lines (sep : α) (l : List α) : ∃ lines t, l = joined sep lines ++ t ∧ sep ∉ t ∧
    ∀ line ∈ lines, sep ∉ line := by
  induction l with
  | nil => exact ⟨[], [], rfl, List.not_mem_nil, fun _ h => absurd h List.not_mem_nil⟩
  | cons x l ih =>
    obtain ⟨lines, t, rfl, ht, hlines⟩ := ih
    by_cases hx : x = sep
    · subst hx
      refine ⟨[] :: lines, t, by simp, ht, fun line h => ?_⟩
      rcases List.mem_cons.1 h with rfl | h
      · exact List.not_mem_nil
      · exact hlines line h
    · cases lines with
      | nil =>
        refine ⟨[], x :: t, rfl, ?_, fun _ h => absurd h List.not_mem_nil⟩
        rw [List.mem_cons, not_or]
        exact ⟨Ne.symm hx, ht⟩
      | cons line lines =>
        refine ⟨(x :: line) :: lines, t, by simp, ht, fun line' h => ?_⟩
        rcases List.mem_cons.1 h with rfl | h
        · rw [List.mem_cons, not_or]
          exact ⟨Ne.symm hx, hlines line List.mem_cons_self⟩
        · exact hlines line' (List.mem_cons_of_mem _ h)

/-- An induction over files: the lines and the torn end stand for the list. -/
theorem rec_lines {P : List α → Prop} (sep : α)
    (h : ∀ lines t, sep ∉ t → (∀ line ∈ lines, sep ∉ line) → P (joined sep lines ++ t)) (l : List α) :
    P l := by
  obtain ⟨lines, t, rfl, ht, hlines⟩ := exists_lines sep l
  exact h lines t ht hlines

theorem not_mem_of_mem_ended {line : List α} (h : line ∈ ended sep l) : sep ∉ line := by
  induction l using rec_lines sep with
  | h lines t ht hlines =>
    rw [ended_joined_append hlines, ended_of_not_mem ht, List.append_nil] at h
    exact hlines line h

theorem joined_ended (l : List α) : joined sep (ended sep l) ++ torn sep l = l := by
  induction l using rec_lines sep with
  | h lines t ht hlines =>
    rw [ended_joined_append hlines, torn_joined_append hlines, ended_of_not_mem ht,
      torn_of_not_mem ht, List.append_nil]

theorem not_mem_torn (l : List α) : sep ∉ torn sep l := by
  induction l using rec_lines sep with
  | h lines t ht hlines => rwa [torn_joined_append hlines, torn_of_not_mem ht]

/-- More of a line that is not ended yet. -/
theorem cut_append_of_not_mem (l : List α) (ht : sep ∉ t) :
    cut sep (l ++ t) = (ended sep l, torn sep l ++ t) := by
  induction l using rec_lines sep with
  | h lines t' ht' hlines =>
    have hboth : sep ∉ t' ++ t := by simp [ht, ht']
    rw [List.append_assoc, cut_joined_append hlines, ended_joined_append hlines,
      torn_joined_append hlines, ended_of_not_mem hboth, torn_of_not_mem hboth,
      ended_of_not_mem ht', torn_of_not_mem ht']

/-- The end of a line. -/
theorem cut_append_sep (l : List α) : cut sep (l ++ [sep]) = (ended sep l ++ [torn sep l], []) := by
  induction l using rec_lines sep with
  | h lines t ht hlines =>
    rw [List.append_assoc, cut_joined_append hlines, ended_joined_append hlines,
      torn_joined_append hlines, ended_of_not_mem ht, torn_of_not_mem ht, ended, torn,
      cut_append_cons ht]
    simp [ended, torn, cut]

end Lines
