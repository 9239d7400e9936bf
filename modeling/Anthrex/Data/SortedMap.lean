import Mathlib

/-!
# Sorted maps

A finite map kept as the list of its entries, by increasing key: the value of an
ordered map, iterated in key order. The order is a field of the structure, so that
a map has at most one entry for a key, and two maps with the same lookups are
equal (`SortedMap.ext_get?`).

Everything is read off through membership of the entries: `get?_eq_some_iff`
reduces a lookup to it, and each operation says what its entries are
(`mem_insert`, `mem_erase`, `mem_filter`, `mem_mapVal`).
-/

/-- A map from `κ` to `ν`, as its entries by increasing key. -/
structure SortedMap (κ ν : Type*) [LinearOrder κ] where
  /-- The entries, in order. -/
  entries : List (κ × ν)
  sorted : entries.Pairwise fun a b => a.1 < b.1

namespace SortedMap

variable {κ ν ν' : Type*} [LinearOrder κ]

instance [DecidableEq ν] : DecidableEq (SortedMap κ ν) := fun a b =>
  decidable_of_iff (a.entries = b.entries) ⟨fun h => by cases a; cases b; cases h; rfl, (· ▸ rfl)⟩

/-- The map without entries. -/
def empty : SortedMap κ ν := ⟨[], .nil⟩

instance : Inhabited (SortedMap κ ν) := ⟨empty⟩

/-- The value of the key `k`. -/
def get? (m : SortedMap κ ν) (k : κ) : Option ν := (m.entries.find? (·.1 = k)).map (·.2)

/-- The entries with `k` set to `v`, in order. -/
def insertEntry (k : κ) (v : ν) : List (κ × ν) → List (κ × ν)
  | [] => [(k, v)]
  | e :: l =>
    if k < e.1 then (k, v) :: e :: l
    else if k = e.1 then (k, v) :: l
    else e :: insertEntry k v l

theorem mem_insertEntry {k : κ} {v : ν} {l : List (κ × ν)}
    (hl : l.Pairwise fun a b => a.1 < b.1) {e : κ × ν} :
    e ∈ insertEntry k v l ↔ e = (k, v) ∨ (e.1 ≠ k ∧ e ∈ l) := by
  induction l with
  | nil => simp [insertEntry]
  | cons a l ih =>
    rw [List.pairwise_cons] at hl
    rw [insertEntry]
    split_ifs with hlt heq
    · -- `k` comes before every entry: none of them is its.
      have hne : ∀ x ∈ a :: l, x.1 ≠ k := by
        rintro x hx rfl
        rcases List.mem_cons.1 hx with rfl | hx
        · exact lt_irrefl _ hlt
        · exact lt_asymm hlt (hl.1 x hx)
      rw [List.mem_cons]
      exact or_congr_right ⟨fun h => ⟨hne e h, h⟩, (·.2)⟩
    · subst heq
      have hne : ∀ x ∈ l, x.1 ≠ a.1 := fun x hx => (hl.1 x hx).ne'
      rw [List.mem_cons, List.mem_cons]
      refine or_congr_right ⟨fun h => ⟨hne e h, .inr h⟩, ?_⟩
      rintro ⟨h, rfl | h'⟩
      · exact absurd rfl h
      · exact h'
    · rw [List.mem_cons, ih hl.2, List.mem_cons]
      constructor
      · rintro (rfl | rfl | ⟨h, h'⟩)
        · exact .inr ⟨fun h => heq h.symm, .inl rfl⟩
        · exact .inl rfl
        · exact .inr ⟨h, .inr h'⟩
      · rintro (rfl | ⟨h, rfl | h'⟩)
        · exact .inr (.inl rfl)
        · exact .inl rfl
        · exact .inr (.inr ⟨h, h'⟩)

theorem pairwise_insertEntry (k : κ) (v : ν) {l : List (κ × ν)}
    (hl : l.Pairwise fun a b => a.1 < b.1) :
    (insertEntry k v l).Pairwise fun a b => a.1 < b.1 := by
  induction l with
  | nil => simp [insertEntry]
  | cons a l ih =>
    have hl' := List.pairwise_cons.1 hl
    rw [insertEntry]
    split_ifs with hlt heq
    · refine List.pairwise_cons.2 ⟨fun x hx => ?_, hl⟩
      rcases List.mem_cons.1 hx with rfl | hx
      · exact hlt
      · exact hlt.trans (hl'.1 x hx)
    · exact List.pairwise_cons.2 ⟨heq ▸ hl'.1, hl'.2⟩
    · refine List.pairwise_cons.2 ⟨fun x hx => ?_, ih hl'.2⟩
      rcases (mem_insertEntry hl'.2).1 hx with rfl | ⟨_, hx⟩
      · exact lt_of_le_of_ne (not_lt.1 hlt) fun h => heq h.symm
      · exact hl'.1 x hx

/-- The map with `k` set to `v`. -/
def insert (m : SortedMap κ ν) (k : κ) (v : ν) : SortedMap κ ν :=
  ⟨insertEntry k v m.entries, pairwise_insertEntry k v m.sorted⟩

/-- The entries satisfying `p`. -/
def filter (m : SortedMap κ ν) (p : κ → ν → Bool) : SortedMap κ ν :=
  ⟨m.entries.filter fun e => p e.1 e.2, m.sorted.filter _⟩

/-- The map without the key `k`. -/
def erase (m : SortedMap κ ν) (k : κ) : SortedMap κ ν := m.filter fun k' _ => k' ≠ k

/-- The map with `f` applied to each value. -/
def mapVal (m : SortedMap κ ν) (f : κ → ν → ν') : SortedMap κ ν' :=
  ⟨m.entries.map fun e => (e.1, f e.1 e.2), List.pairwise_map.2 m.sorted⟩

/-- The map with `f` applied to each value, and the entries left out where it gives none. -/
def filterMapVal (m : SortedMap κ ν) (f : κ → ν → Option ν') : SortedMap κ ν' :=
  ⟨m.entries.filterMap fun e => (f e.1 e.2).map fun w => (e.1, w),
    m.sorted.filterMap _ fun a b hab a' ha b' hb => by
      obtain ⟨w, -, rfl⟩ := Option.map_eq_some_iff.1 ha
      obtain ⟨w', -, rfl⟩ := Option.map_eq_some_iff.1 hb
      exact hab⟩

/-- The map with `f` applied to the value of `k`, when it has one. -/
def modify (m : SortedMap κ ν) (k : κ) (f : ν → ν) : SortedMap κ ν :=
  m.mapVal fun k' v => if k' = k then f v else v

/-- The map of the pairs `l`, a later one replacing an earlier one of the same key. -/
def ofList (l : List (κ × ν)) : SortedMap κ ν := l.foldl (fun m e => m.insert e.1 e.2) empty

/-- The values, in the order of their keys. -/
def values (m : SortedMap κ ν) : List ν := m.entries.map (·.2)

/-- The keys, in order. -/
def keys (m : SortedMap κ ν) : List κ := m.entries.map (·.1)

variable {m : SortedMap κ ν} {k k' : κ} {v v' : ν}

/-! ## Entries -/

theorem eq_of_mem (h : (k, v) ∈ m.entries) (h' : (k, v') ∈ m.entries) : v = v' := by
  obtain ⟨l, hl⟩ := m
  simp only at h h'
  induction l with
  | nil => exact absurd h List.not_mem_nil
  | cons a l ih =>
    rw [List.pairwise_cons] at hl
    rcases List.mem_cons.1 h with rfl | h₁ <;> rcases List.mem_cons.1 h' with h₂ | h₂
    · exact (congrArg Prod.snd h₂).symm
    · exact absurd (hl.1 _ h₂) (lt_irrefl k)
    · subst h₂
      exact absurd (hl.1 _ h₁) (lt_irrefl k)
    · exact ih hl.2 h₁ h₂

theorem get?_eq_some_iff : m.get? k = some v ↔ (k, v) ∈ m.entries := by
  rw [get?, Option.map_eq_some_iff]
  constructor
  · rintro ⟨⟨k', v'⟩, h, rfl⟩
    have hk : k' = k := by simpa using List.find?_some h
    exact hk ▸ List.mem_of_find?_eq_some h
  · intro h
    have hex : (m.entries.find? (·.1 = k)).isSome := by
      rw [List.find?_isSome]
      exact ⟨_, h, by simp⟩
    obtain ⟨⟨k', v'⟩, he⟩ := Option.isSome_iff_exists.1 hex
    have hk : k' = k := by simpa using List.find?_some he
    subst hk
    exact ⟨_, he, eq_of_mem (List.mem_of_find?_eq_some he) h⟩

theorem get?_eq_none_iff : m.get? k = none ↔ ∀ v, (k, v) ∉ m.entries := by
  rw [Option.eq_none_iff_forall_ne_some]
  simp only [ne_eq, get?_eq_some_iff]

/-- Maps with the same lookups are equal. -/
theorem ext_get? {m₁ m₂ : SortedMap κ ν} (h : ∀ k, m₁.get? k = m₂.get? k) : m₁ = m₂ := by
  have hmem : ∀ e, e ∈ m₁.entries ↔ e ∈ m₂.entries := fun e => by
    rw [← Prod.mk.eta (p := e), ← get?_eq_some_iff, ← get?_eq_some_iff, h]
  have hn₁ : m₁.entries.Nodup := m₁.sorted.imp fun h e => h.ne (congrArg Prod.fst e)
  have hn₂ : m₂.entries.Nodup := m₂.sorted.imp fun h e => h.ne (congrArg Prod.fst e)
  have hp := (List.perm_ext_iff_of_nodup hn₁ hn₂).2 hmem
  have he := hp.eq_of_pairwise (fun a b _ _ hab hba => absurd hab hba.asymm) m₁.sorted m₂.sorted
  cases m₁; cases m₂; cases he; rfl

@[simp] theorem not_mem_empty {e : κ × ν} : e ∉ (empty : SortedMap κ ν).entries := List.not_mem_nil

@[simp] theorem mem_insert {e : κ × ν} :
    e ∈ (m.insert k v).entries ↔ e = (k, v) ∨ (e.1 ≠ k ∧ e ∈ m.entries) :=
  mem_insertEntry m.sorted

@[simp] theorem mem_filter {p : κ → ν → Bool} {e : κ × ν} :
    e ∈ (m.filter p).entries ↔ e ∈ m.entries ∧ p e.1 e.2 := List.mem_filter

@[simp] theorem mem_erase {e : κ × ν} : e ∈ (m.erase k).entries ↔ e ∈ m.entries ∧ e.1 ≠ k := by
  simp [erase]

theorem mem_mapVal {f : κ → ν → ν'} {w : ν'} :
    (k, w) ∈ (m.mapVal f).entries ↔ ∃ v, (k, v) ∈ m.entries ∧ f k v = w := by
  simp only [mapVal, List.mem_map, Prod.mk.injEq, Prod.exists]
  constructor
  · rintro ⟨k', v, h, rfl, rfl⟩
    exact ⟨v, h, rfl⟩
  · rintro ⟨v, h, rfl⟩
    exact ⟨k, v, h, rfl, rfl⟩

theorem mem_of_mem_foldl_insert {l : List (κ × ν)} {e : κ × ν}
    (h : e ∈ (l.foldl (fun m e => m.insert e.1 e.2) m).entries) : e ∈ m.entries ∨ e ∈ l := by
  induction l generalizing m with
  | nil => exact .inl h
  | cons a l ih =>
    rcases ih h with h | h
    · exact (mem_insert.1 h).elim (fun h => .inr (h ▸ List.mem_cons_self)) fun h => .inl h.2
    · exact .inr (List.mem_cons_of_mem _ h)

theorem mem_of_mem_ofList {l : List (κ × ν)} {e : κ × ν} (h : e ∈ (ofList l).entries) : e ∈ l :=
  (mem_of_mem_foldl_insert h).resolve_left not_mem_empty

/-! ## Lookups -/

theorem get?_empty : (empty : SortedMap κ ν).get? k = none := rfl

theorem get?_insert [Decidable (k' = k)] :
    (m.insert k v).get? k' = if k' = k then some v else m.get? k' := by
  ext w
  rw [get?_eq_some_iff, mem_insert]
  split_ifs with h
  · subst h; simp [eq_comm]
  · simp [h, get?_eq_some_iff]

theorem get?_insert_self : (m.insert k v).get? k = some v := by simp [get?_insert]

theorem get?_insert_of_ne (h : k' ≠ k) : (m.insert k v).get? k' = m.get? k' := by
  simp [get?_insert, h]

theorem get?_erase [Decidable (k' = k)] :
    (m.erase k).get? k' = if k' = k then none else m.get? k' := by
  ext w
  rw [get?_eq_some_iff, mem_erase]
  split_ifs with h
  · simp [h]
  · simp [h, get?_eq_some_iff]

theorem get?_filter {p : κ → ν → Bool} :
    (m.filter p).get? k = (m.get? k).filter (p k) := by
  ext w
  rw [get?_eq_some_iff, mem_filter, Option.filter_eq_some_iff, get?_eq_some_iff]

theorem get?_mapVal {f : κ → ν → ν'} : (m.mapVal f).get? k = (m.get? k).map (f k) := by
  ext w
  rw [get?_eq_some_iff, mem_mapVal, Option.map_eq_some_iff]
  simp only [get?_eq_some_iff]

theorem get?_filterMapVal {f : κ → ν → Option ν'} :
    (m.filterMapVal f).get? k = (m.get? k).bind (f k) := by
  ext w
  simp only [get?_eq_some_iff, filterMapVal, List.mem_filterMap, Option.map_eq_some_iff,
    Prod.mk.injEq, Option.bind_eq_some_iff, Prod.exists]
  constructor
  · rintro ⟨k', v, h, w', hw, rfl, rfl⟩
    exact ⟨v, h, hw⟩
  · rintro ⟨v, h, hw⟩
    exact ⟨k, v, h, w, hw, rfl, rfl⟩

theorem get?_modify [Decidable (k' = k)] {f : ν → ν} :
    (m.modify k f).get? k' = if k' = k then (m.get? k').map f else m.get? k' := by
  rw [modify, get?_mapVal]
  by_cases h : k' = k
  · simp only [h, if_true]
  · simp only [h, if_false, Option.map_id']

theorem get?_foldl_insert {l : List (κ × ν)} (hl : l.Pairwise fun a b => a.1 ≠ b.1) :
    (l.foldl (fun m e => m.insert e.1 e.2) m).get? k =
      ((l.find? (·.1 = k)).map (·.2)).or (m.get? k) := by
  induction l generalizing m with
  | nil => rfl
  | cons a l ih =>
    rw [List.pairwise_cons] at hl
    rw [List.foldl_cons, ih hl.2, get?_insert]
    by_cases h : k = a.1
    · have hnone : l.find? (·.1 = k) = none := by
        rw [List.find?_eq_none]
        intro e he
        simpa [h] using (hl.1 e he).symm
      rw [hnone, if_pos h, List.find?_cons_of_pos (by simpa using h.symm)]
      rfl
    · rw [if_neg h, List.find?_cons_of_neg (by simpa using fun e => h e.symm)]

/-! ## The entries up to order -/

theorem nodup_entries (m : SortedMap κ ν) : m.entries.Nodup :=
  m.sorted.imp fun h e => h.ne (congrArg Prod.fst e)

theorem perm_insert : (m.insert k v).entries.Perm ((k, v) :: (m.erase k).entries) := by
  have hnodup : ((k, v) :: (m.erase k).entries).Nodup :=
    List.nodup_cons.2 ⟨fun h => (mem_erase.1 h).2 rfl, nodup_entries _⟩
  refine (List.perm_ext_iff_of_nodup (nodup_entries _) hnodup).2 fun e => ?_
  rw [mem_insert, List.mem_cons, mem_erase, and_comm]

theorem perm_erase (h : m.get? k = some v) : m.entries.Perm ((k, v) :: (m.erase k).entries) := by
  have hnodup : ((k, v) :: (m.erase k).entries).Nodup :=
    List.nodup_cons.2 ⟨fun h => (mem_erase.1 h).2 rfl, nodup_entries _⟩
  refine (List.perm_ext_iff_of_nodup (nodup_entries _) hnodup).2 fun e => ?_
  rw [List.mem_cons, mem_erase]
  rw [get?_eq_some_iff] at h
  constructor
  · intro he
    by_cases hk : e.1 = k
    · exact .inl (Prod.ext hk (eq_of_mem (k := k) (hk ▸ he) h))
    · exact .inr ⟨he, hk⟩
  · rintro (rfl | he)
    · exact h
    · exact he.1

theorem erase_eq_self (h : m.get? k = none) : m.erase k = m := by
  refine ext_get? fun k' => ?_
  rw [get?_erase]
  split
  · next hk => rw [hk, h]
  · rfl

/-! ## Sums of the values -/

theorem sum_values_insert {m : SortedMap κ ℕ} {n : ℕ} (h : m.get? k = none) :
    (m.insert k n).values.sum = m.values.sum + n := by
  rw [get?_eq_none_iff] at h
  obtain ⟨l, hl⟩ := m
  simp only [values, insert] at h ⊢
  induction l with
  | nil => simp [insertEntry]
  | cons a l ih =>
    have hne : k ≠ a.1 := fun hk => h a.2 (by rw [hk]; exact List.mem_cons_self)
    have := ih (List.pairwise_cons.1 hl).2 fun v hv => h v (List.mem_cons_of_mem _ hv)
    rw [insertEntry]
    split_ifs
    · simp only [List.map_cons, List.sum_cons]; omega
    · simp only [List.map_cons, List.sum_cons, this]; omega

theorem sum_values_erase {m : SortedMap κ ℕ} {n : ℕ} (h : m.get? k = some n) :
    (m.erase k).values.sum + n = m.values.sum := by
  rw [get?_eq_some_iff] at h
  obtain ⟨l, hl⟩ := m
  simp only [values, erase, filter] at h ⊢
  induction l with
  | nil => exact absurd h List.not_mem_nil
  | cons a l ih =>
    have hl' := List.pairwise_cons.1 hl
    rcases List.mem_cons.1 h with rfl | h'
    · -- The entry of `k` comes first: no later one has its key.
      have hid : (l.filter fun e => decide (e.1 ≠ k)) = l :=
        List.filter_eq_self.2 fun e he => by simpa using (hl'.1 e he).ne'
      rw [List.filter_cons_of_neg (by simp), hid, List.map_cons, List.sum_cons, Nat.add_comm]
    · have hne : a.1 ≠ k := (hl'.1 _ h').ne
      have := ih hl'.2 h'
      rw [List.filter_cons_of_pos (by simpa using hne)]
      simp only [List.map_cons, List.sum_cons]; omega

theorem le_sum_values {m : SortedMap κ ℕ} {n : ℕ} (h : (k, n) ∈ m.entries) :
    n ≤ m.values.sum :=
  List.single_le_sum (fun _ _ => Nat.zero_le _) _ (List.mem_map.2 ⟨_, h, rfl⟩)

end SortedMap
