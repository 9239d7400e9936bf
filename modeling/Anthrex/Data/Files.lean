import Mathlib.Data.List.Infix
import Mathlib.Logic.Function.Basic

/-!
# Numbered files

A directory whose files have numbers for names. A file has its bytes whether it has a name or not:
one that was open when its name was taken away keeps them, for whoever has it open.
-/

namespace Anthrex

structure Files where
  /-- The file under a number. -/
  names : ℕ → Option ℕ
  bytes : ℕ → List UInt8
  /-- The file created next. -/
  next : ℕ
  fresh : ∀ i f, names i = some f → f < next
  apart : ∀ i j f, names i = some f → names j = some f → i = j

namespace Files

def empty : Files := ⟨fun _ => none, fun _ => [], 0, by simp, by simp⟩

/-- The bytes of the file under a number. -/
def content (d : Files) (i : ℕ) : Option (List UInt8) := (d.names i).map d.bytes

def remove (d : Files) (i : ℕ) : Files where
  names := Function.update d.names i none
  bytes := d.bytes
  next := d.next
  fresh j f hj := by
    rw [Function.update_apply] at hj
    split_ifs at hj
    exact d.fresh j f hj
  apart j k f hj hk := by
    rw [Function.update_apply] at hj hk
    split_ifs at hj hk
    exact d.apart j k f hj hk

/-- A file gets the number `j` instead of `i`; one that had it has no name any more. -/
def rename (d : Files) (i j : ℕ) : Files where
  names k := if k = j then d.names i else if k = i then none else d.names k
  bytes := d.bytes
  next := d.next
  fresh k f hk := by
    split_ifs at hk
    · exact d.fresh i f hk
    · exact d.fresh k f hk
  apart k l f hk hl := by
    split_ifs at hk hl with hkj hlj hli hki hlj
    · rw [hkj, hlj]
    · exact absurd (d.apart l i f hl hk) hli
    · exact absurd (d.apart k i f hk hl) hki
    · exact d.apart k l f hk hl

/-- An empty file under a number that had none. -/
def create (d : Files) (i : ℕ) : Files :=
  if hi : d.names i = none then
    { names := Function.update d.names i (some d.next)
      bytes := Function.update d.bytes d.next []
      next := d.next + 1
      fresh j f hj := by
        rw [Function.update_apply] at hj
        split_ifs at hj
        · rw [← Option.some.inj hj]
          exact Nat.lt_succ_self _
        · exact (d.fresh j f hj).trans (Nat.lt_succ_self _)
      apart j k f hj hk := by
        rw [Function.update_apply] at hj hk
        split_ifs at hj hk with hji hki hki
        · rw [hji, hki]
        · exact absurd (d.fresh k f hk) (Option.some.inj hj).le.not_gt
        · exact absurd (d.fresh j f hj) (Option.some.inj hk).le.not_gt
        · exact d.apart j k f hj hk }
  else d

/-- The file under a number, once it is created. -/
def opened (d : Files) (i : ℕ) : ℕ := (d.names i).getD d.next

def append (d : Files) (f : ℕ) (bytes : List UInt8) : Files :=
  { d with bytes := Function.update d.bytes f (d.bytes f ++ bytes) }

/-- The files below a number one after the other, the highest number first. -/
def read (d : Files) : ℕ → List UInt8
  | 0 => []
  | n + 1 => (d.content n).getD [] ++ d.read n

variable {d : Files} {i j k n f : ℕ}

/-! ## What an operation does to the contents -/

theorem names_remove : (d.remove i).names k = if k = i then none else d.names k :=
  Function.update_apply _ _ _ _

theorem names_rename : (d.rename i j).names k =
    if k = j then d.names i else if k = i then none else d.names k := rfl

theorem content_remove : (d.remove i).content k = if k = i then none else d.content k := by
  rw [content, names_remove]
  split_ifs <;> rfl

theorem content_rename : (d.rename i j).content k =
    if k = j then d.content i else if k = i then none else d.content k := by
  rw [content, names_rename]
  split_ifs <;> rfl

theorem names_create : (d.create i).names k =
    if k = i then some (d.opened i) else d.names k := by
  rw [create, opened]
  by_cases hi : d.names i = none
  · rw [dif_pos hi, hi]
    exact Function.update_apply _ _ _ _
  · obtain ⟨g, hg⟩ := Option.ne_none_iff_exists'.1 hi
    rw [dif_neg hi, hg]
    split_ifs with hk
    · rw [hk, hg]
      rfl
    · rfl

theorem content_create : (d.create i).content k =
    if k = i then some ((d.content i).getD []) else d.content k := by
  rw [create]
  by_cases hi : d.names i = none
  · rw [dif_pos hi, content, content, content, hi]
    dsimp only
    rw [Function.update_apply]
    split_ifs
    · simp
    · cases hk : d.names k with
      | none => rfl
      | some g =>
        rw [Option.map_some, Option.map_some, Function.update_of_ne (d.fresh k g hk).ne]
  · obtain ⟨g, hg⟩ := Option.ne_none_iff_exists'.1 hi
    rw [dif_neg hi]
    split_ifs with hk
    · rw [hk, content, hg]
      rfl
    · rfl

/-- Bytes appended to a file are in it under its only number. -/
theorem content_append (hi : d.names i = some f) (bytes : List UInt8) : (d.append f bytes).content k =
    if k = i then some (d.bytes f ++ bytes) else d.content k := by
  rw [content, content]
  show (d.names k).map (Function.update d.bytes f _) = _
  split_ifs with hk
  · rw [hk, hi, Option.map_some, Function.update_self]
  · cases hname : d.names k with
    | none => rfl
    | some g =>
      have hne : g ≠ f := by
        rintro rfl
        exact hk (d.apart k i g hname hi)
      rw [Option.map_some, Option.map_some, Function.update_of_ne hne]

theorem content_eq_none : d.content i = none ↔ d.names i = none := Option.map_eq_none_iff

theorem content_of_names (hi : d.names i = some f) : d.content i = some (d.bytes f) := by
  rw [content, hi]
  rfl

/-! ## Reading -/

theorem read_succ : d.read (n + 1) = (d.content n).getD [] ++ d.read n := rfl

theorem read_congr {e : Files} (h : ∀ i < n, d.content i = e.content i) : d.read n = e.read n := by
  induction n with
  | zero => rfl
  | succ n ih =>
    rw [read_succ, read_succ, h n (Nat.lt_succ_self n),
      ih fun i hi => h i (hi.trans (Nat.lt_succ_self n))]

theorem read_eq_nil (h : ∀ i < n, d.names i = none) : d.read n = [] := by
  induction n with
  | zero => rfl
  | succ n ih =>
    rw [read_succ, content_eq_none.2 (h n (Nat.lt_succ_self n)),
      ih fun i hi => h i (hi.trans (Nat.lt_succ_self n))]
    rfl

/-- Bytes appended to the file with the lowest number are read last. -/
theorem read_append (hi : d.names i = some f) (hlt : i < n) (hbelow : ∀ j < i, d.names j = none)
    (bytes : List UInt8) : (d.append f bytes).read n = d.read n ++ bytes := by
  induction n with
  | zero => omega
  | succ n ih =>
    rw [read_succ, read_succ, content_append hi]
    by_cases hn : n = i
    · have hempty : (d.append f bytes).read n = [] := read_eq_nil (hn ▸ hbelow)
      have hempty' : d.read n = [] := read_eq_nil (hn ▸ hbelow)
      rw [if_pos hn, hempty, hempty', hn, content_of_names hi, List.append_nil, List.append_nil]
      rfl
    · rw [if_neg hn, ih (by omega), List.append_assoc]

theorem read_create : (d.create 0).read n = d.read n := by
  induction n with
  | zero => rfl
  | succ n ih =>
    rw [read_succ, read_succ, ih, content_create]
    split_ifs with hn
    · rw [hn]
      rfl
    · rfl

/-- Without the highest file the rest is left. -/
theorem read_remove : (d.remove n).read (n + 1) = d.read n := by
  rw [read_succ, content_remove, if_pos rfl]
  exact read_congr fun i hi => by rw [content_remove, if_neg hi.ne]

/-- A file that takes the next number, from one that had no file, is read at the same place. -/
theorem read_rename : (d.rename n (n + 1)).read (n + 2) = d.read (n + 1) := by
  rw [read_succ, read_succ, read_succ, content_rename, content_rename, if_pos rfl,
    if_neg (Nat.lt_succ_self n).ne, if_pos rfl]
  refine congrArg _ (read_congr fun i hi => ?_)
  rw [content_rename, if_neg (by omega), if_neg (by omega)]

/-- The lowest file takes the next number, which none had. -/
theorem read_rename_zero (hnone : d.names 1 = none) : (d.rename 0 1).read (n + 2) = d.read (n + 2) := by
  induction n with
  | zero =>
    have hsame : d.read 2 = d.read 1 := by
      rw [read_succ, content_eq_none.2 hnone]
      rfl
    rw [hsame, read_rename]
  | succ n ih => rw [read_succ, ih, content_rename, if_neg (by omega), if_neg (by omega), ← read_succ]

end Files

end Anthrex
