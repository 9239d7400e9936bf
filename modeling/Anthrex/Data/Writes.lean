import Anthrex.Data.SortedMap

/-!
# Writes to a map

A write sets a key of a map to a value, or removes it. Of several writes in a row only the last
one to each key matters (`writes_congr`), so a log of writes can be compacted: an earlier write
to a key may go whenever a later one is kept (`writes_compact`). A log between two maps is read
off their lookups (`writes_eq`).
-/

namespace SortedMap

variable {κ ν : Type*} [LinearOrder κ] {m m' : SortedMap κ ν} {k : κ}
  {l l' : List (κ × Option ν)}

/-- The map with a key set, or removed. -/
def write (m : SortedMap κ ν) (w : κ × Option ν) : SortedMap κ ν :=
  match w.2 with
  | some v => m.insert w.1 v
  | none => m.erase w.1

/-- The map after writes, in order. -/
def writes (m : SortedMap κ ν) (l : List (κ × Option ν)) : SortedMap κ ν := l.foldl write m

/-- The last write to a key. -/
def lastWrite (l : List (κ × Option ν)) (k : κ) : Option (Option ν) :=
  (l.reverse.find? (·.1 = k)).map (·.2)

theorem get?_write (w : κ × Option ν) :
    (m.write w).get? k = if k = w.1 then w.2 else m.get? k := by
  obtain ⟨a, v⟩ := w
  cases v with
  | some v => exact get?_insert
  | none => exact get?_erase

@[simp]
theorem lastWrite_nil : lastWrite ([] : List (κ × Option ν)) k = none := rfl

theorem lastWrite_concat (l : List (κ × Option ν)) (w : κ × Option ν) :
    lastWrite (l ++ [w]) k = if k = w.1 then some w.2 else lastWrite l k := by
  rw [lastWrite, List.reverse_append, List.reverse_singleton, List.singleton_append,
    List.find?_cons]
  by_cases h : k = w.1
  · simp [h]
  · simp [h, Ne.symm h, lastWrite]

theorem lastWrite_append : lastWrite (l ++ l') k = (lastWrite l' k).or (lastWrite l k) := by
  rw [lastWrite, List.reverse_append, List.find?_append, Option.map_or]
  rfl

theorem get?_writes (m : SortedMap κ ν) (l : List (κ × Option ν)) (k : κ) :
    (m.writes l).get? k = (lastWrite l k).getD (m.get? k) := by
  induction l using List.reverseRecOn with
  | nil => rfl
  | append_singleton l w ih =>
    rw [writes, List.foldl_append, List.foldl_cons, List.foldl_nil, get?_write, lastWrite_concat]
    split_ifs
    · rfl
    · exact ih

theorem writes_append : m.writes (l ++ l') = (m.writes l).writes l' := List.foldl_append

/-- Writes that end alike do the same. -/
theorem writes_congr (h : ∀ k, lastWrite l k = lastWrite l' k) : m.writes l = m.writes l' := by
  refine ext_get? fun k => ?_
  rw [get?_writes, get?_writes, h]

/-- Writes that give each key its value in `m'` give `m'`. -/
theorem writes_eq (h : ∀ k, (lastWrite l k).getD (m.get? k) = m'.get? k) : m.writes l = m' := by
  refine ext_get? fun k => ?_
  rw [get?_writes, h]

/-- The writes, without the earlier ones to a key of a later one where `stale` says so. -/
def compact (stale : κ × Option ν → Bool) (l : List (κ × Option ν)) : List (κ × Option ν) :=
  l.foldl (fun acc w => acc.filter (fun x => !(stale x && x.1 = w.1)) ++ [w]) []

theorem lastWrite_filter {p : κ × Option ν → Bool} (hp : ∀ w, w.1 = k → p w) :
    lastWrite (l.filter p) k = lastWrite l k := by
  rw [lastWrite, lastWrite, ← List.filter_reverse, List.find?_filter]
  congr 2
  funext w
  by_cases h : w.1 = k
  · simp [h, hp w h]
  · simp [h]

theorem lastWrite_compact (stale : κ × Option ν → Bool) (l : List (κ × Option ν)) :
    lastWrite (compact stale l) k = lastWrite l k := by
  induction l using List.reverseRecOn with
  | nil => rfl
  | append_singleton l w ih =>
    have hstep : compact stale (l ++ [w]) =
        (compact stale l).filter (fun x => !(stale x && x.1 = w.1)) ++ [w] := by
      rw [compact, List.foldl_append]
      rfl
    rw [hstep, lastWrite_concat, lastWrite_concat]
    split_ifs with h
    · rfl
    · rw [lastWrite_filter, ih]
      intro x hx
      simp [hx, h]

/-- Compaction does not show. -/
theorem writes_compact (stale : κ × Option ν → Bool) :
    m.writes (compact stale l) = m.writes l :=
  writes_congr fun _ => lastWrite_compact stale l

end SortedMap
