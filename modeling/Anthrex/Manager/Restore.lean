import Anthrex.Data.Lists
import Anthrex.Data.SortedMap
import Anthrex.Data.Text
import Anthrex.Run.SafeText
import Std.Data.String.ToNat

/-!
# The windows a restart brings back

The windows of a state file (`state/load.rs`), and the table the daemon makes of them
(`manager/restore.rs`). A file may have been edited: a record that repeats an id or a name is left
out of it, and a name that a window could not have been given is repaired, and numbered where
another window has it.

* `uniqueName_notMem`: the numbers run out of names no sooner than the windows do;
* `restore_load`: every record that the file does not give another's id or name comes back under its
  id, with its name where that needs no repair, and no two windows have one name.
-/

namespace Anthrex.Manager

open Anthrex.Run (isControl trim within)

/-! ## State files -/

def u32Max : ℕ := 2 ^ 32 - 1

/-- `id.saturating_add(1)`. -/
def successor (id : ℕ) : ℕ := min (id + 1) u32Max

/-- A window as the file has it; what is neither its id nor its name is `rest`. -/
structure WindowRecord (δ : Type*) where
  id : ℕ
  name : String
  rest : δ
  deriving DecidableEq

structure StateFile (δ ρ : Type*) where
  nextId : ℕ
  windows : List (WindowRecord δ)
  runs : ρ
  deriving DecidableEq

variable {δ ρ : Type*}

/-- Keeps a record that could be read, unless an earlier one has its id or its name. -/
def loadRecord (windows : List (WindowRecord δ)) (record : Option (WindowRecord δ)) :
    List (WindowRecord δ) :=
  match record with
  | some r => if windows.any fun w => w.id = r.id || w.name = r.name then windows else windows ++ [r]
  | none => windows

/-- The file's windows, and a number for the next one past all of theirs. -/
def load (savedNextId : ℕ) (records : List (Option (WindowRecord δ))) (runs : ρ) :
    StateFile δ ρ :=
  let windows := records.foldl loadRecord []
  let nextId :=
    match (windows.map (·.id)).max? with
    | some maxId => max (min savedNextId u32Max) (successor maxId)
    | none => min savedNextId u32Max
  { nextId, windows, runs }

/-- What a daemon reads of a file that one wrote. -/
def StateFile.loaded (file : StateFile δ ρ) : StateFile δ ρ :=
  load file.nextId (file.windows.map some) file.runs

/-! ## Names -/

def isBidiOverride (c : Char) : Bool := within [(0x202a, 0x202e), (0x2066, 0x2069)] c

def isDisallowedNameChar (c : Char) : Bool := isControl c || isBidiOverride c

def nameMax : ℕ := 64

section Names

-- How a text is cut into what a reader takes for characters.
variable (graphemes : List Char → List (List Char))

/-- At most so many graphemes of a text. -/
def shorten (n : ℕ) (s : List Char) : List Char := ((graphemes s).take n).flatten

def sanitizeName (id : ℕ) (name : String) : String :=
  let trimmed := trim name.toList
  if trimmed = [] then s!"window-{id}"
  else
    let cleaned := trimmed.map fun c => if isDisallowedNameChar c then '_' else c
    let truncated := trim (shorten graphemes nameMax cleaned)
    if truncated = [] then s!"window-{id}" else String.ofList truncated

/-- A name with a number, which leaves room for it. -/
def suffixed (base : String) (n : ℕ) : String :=
  let suffix := '-' :: (toString n).toList
  let budget := max (nameMax - (graphemes suffix).length) 1
  String.ofList (shorten graphemes budget base.toList ++ suffix)

/-- The first number from `n` on that gives a free name. -/
def firstFree (taken : List String) (base : String) : ℕ → ℕ → String
  | 0, n => suffixed graphemes base n
  | fuel + 1, n =>
    if suffixed graphemes base n ∈ taken then firstFree taken base fuel (n + 1)
    else suffixed graphemes base n

def uniqueName (taken : List String) (base : String) : String :=
  if base ∈ taken then firstFree graphemes taken base taken.length 2 else base

end Names

/-! ## The table -/

structure Window (δ : Type*) where
  name : String
  rest : δ
  deriving DecidableEq

/-- What the manager has of its windows. -/
structure Inner (δ ρ : Type*) where
  nextId : ℕ := 1
  entries : SortedMap ℕ (Window δ) := .empty
  runs : ρ

def Inner.names (inner : Inner δ ρ) : List String := inner.entries.values.map (·.name)

/-- The table as a file. -/
def Inner.stateSnapshot (inner : Inner δ ρ) : StateFile δ ρ :=
  { nextId := inner.nextId
    windows := inner.entries.entries.map fun e => ⟨e.1, e.2.name, e.2.rest⟩
    runs := inner.runs }

section Restore

variable (graphemes : List Char → List (List Char)) (dormant : δ → δ)

/-- The names that no repair may take. -/
def protectedNames (inner : Inner δ ρ) (windows : List (WindowRecord δ)) : List String :=
  (windows.filter fun r =>
    (inner.entries.get? r.id).isNone && sanitizeName graphemes r.id r.name = r.name).map (·.name)

def restoreRecord (guarded : List String) (inner : Inner δ ρ) (r : WindowRecord δ) : Inner δ ρ :=
  if (inner.entries.get? r.id).isSome then inner
  else
    let sanitized := sanitizeName graphemes r.id r.name
    let name :=
      if sanitized = r.name then r.name
      else uniqueName graphemes (inner.names ++ guarded) sanitized
    if name ∈ inner.names then inner
    else
      { inner with
        nextId := max inner.nextId (successor r.id)
        entries := inner.entries.insert r.id ⟨name, dormant r.rest⟩ }

/-- Every window of the file, dormant. -/
def restore (inner : Inner δ ρ) (state : StateFile δ ρ) : Inner δ ρ :=
  let guarded := protectedNames graphemes inner state.windows
  let restored := state.windows.foldl (restoreRecord graphemes dormant guarded) inner
  { restored with nextId := max restored.nextId state.nextId, runs := state.runs }

end Restore

/-! ## Names apart -/

section Apart

variable {graphemes : List Char → List (List Char)} {base : String} {taken : List String} {m n : ℕ}

theorem dash_notMem_digits (n : ℕ) : '-' ∉ (toString n).toList := by
  intro h
  rw [show toString n = Nat.repr n from rfl, Nat.toList_repr] at h
  exact absurd (Nat.isDigit_of_mem_toDigits (by decide) (by decide) h) (by decide)

/-- A name with another number is another name. -/
theorem suffixed_injective : Function.Injective (suffixed graphemes base) := by
  intro m n h
  -- What comes after the last dash is the number.
  have hlist := congrArg List.reverse (String.ofList_inj.1 h)
  simp only [List.reverse_append, List.reverse_cons, List.append_assoc, List.cons_append,
    List.nil_append] at hlist
  have hdigits := (Text.append_cons_inj (by simpa using dash_notMem_digits m)
    (by simpa using dash_notMem_digits n) hlist).1
  exact Nat.repr_injective (String.toList_inj.1 (List.reverse_injective hdigits))

theorem firstFree_notMem {fuel : ℕ} (h : ∃ k ≤ fuel, suffixed graphemes base (n + k) ∉ taken) :
    firstFree graphemes taken base fuel n ∉ taken := by
  induction fuel generalizing n with
  | zero =>
    obtain ⟨k, hk, hfree⟩ := h
    rwa [Nat.le_zero.1 hk] at hfree
  | succ fuel ih =>
    rw [firstFree]
    split_ifs with hmem
    · obtain ⟨k, hk, hfree⟩ := h
      cases k with
      | zero => exact absurd hmem hfree
      | succ k => exact ih ⟨k, Nat.le_of_succ_le_succ hk, by rwa [Nat.add_right_comm]⟩
    · exact hmem

/-- A name that no window has, and none keeps. -/
theorem uniqueName_notMem : uniqueName graphemes taken base ∉ taken := by
  rw [uniqueName]
  split_ifs with hmem
  · refine firstFree_notMem ?_
    -- There are more numbers than names.
    by_contra hall
    push Not at hall
    have hnodup : ((List.range (taken.length + 1)).map
        fun k => suffixed graphemes base (2 + k)).Nodup :=
      (List.nodup_range).map fun k k' h => Nat.add_left_cancel (suffixed_injective h)
    have hsubset : ((List.range (taken.length + 1)).map
        fun k => suffixed graphemes base (2 + k)) ⊆ taken := by
      intro name hname
      obtain ⟨k, hk, rfl⟩ := List.mem_map.1 hname
      exact hall k (Nat.le_of_lt_succ (List.mem_range.1 hk))
    have hlength := (List.subperm_of_subset hnodup hsubset).length_le
    rw [List.length_map, List.length_range] at hlength
    exact absurd hlength (Nat.not_succ_le_self _)
  · exact hmem

end Apart

/-! ## What the file gives -/

variable {records : List (Option (WindowRecord δ))} {r r' : WindowRecord δ} {inner : Inner δ ρ}
  {state : StateFile δ ρ}

/-- Two records that can both be windows. -/
def Apart (r r' : WindowRecord δ) : Prop := r.id ≠ r'.id ∧ r.name ≠ r'.name

/-- The records a file keeps are apart, and one is left out only for another. -/
theorem load_spec (savedNextId : ℕ) (records : List (Option (WindowRecord δ))) (runs : ρ) :
    (load savedNextId records runs).windows.Pairwise Apart ∧
      (∀ r ∈ (load savedNextId records runs).windows, some r ∈ records) ∧
      ∀ r, some r ∈ records → r ∉ (load savedNextId records runs).windows →
        ∃ w ∈ (load savedNextId records runs).windows, ¬Apart w r := by
  refine Lists.foldl_done (motive := fun done (windows : List (WindowRecord δ)) =>
    windows.Pairwise Apart ∧ (∀ r ∈ windows, some r ∈ done) ∧ ∀ r, some r ∈ done → r ∉ windows →
      ∃ w ∈ windows, ¬Apart w r) records ⟨.nil, by simp, by simp⟩ ?_
  rintro done record - windows ⟨hpair, hmem, hleft⟩
  cases record with
  | none =>
    exact ⟨hpair, fun r hr => List.mem_append_left _ (hmem r hr), by simpa [loadRecord] using hleft⟩
  | some r =>
    rw [loadRecord]
    split_ifs with hany
    · obtain ⟨w, hw, hsame⟩ := List.any_eq_true.1 hany
      refine ⟨hpair, fun r hr => List.mem_append_left _ (hmem r hr), fun r' hr' hnot => ?_⟩
      rcases List.mem_append.1 hr' with hr' | hr'
      · exact hleft r' hr' hnot
      · obtain rfl : r' = r := by simpa using hr'
        refine ⟨w, hw, fun hapart => ?_⟩
        simp [hapart.1, hapart.2] at hsame
    · have hapart : ∀ w ∈ windows, Apart w r := fun w hw =>
        ⟨fun hid => hany (List.any_eq_true.2 ⟨w, hw, by simp [hid]⟩),
          fun hname => hany (List.any_eq_true.2 ⟨w, hw, by simp [hname]⟩)⟩
      refine ⟨List.pairwise_append.2 ⟨hpair, List.pairwise_singleton _ _, ?_⟩, ?_, ?_⟩
      · exact fun w hw r' hr' => List.mem_singleton.1 hr' ▸ hapart w hw
      · exact List.forall_mem_append.2 ⟨fun r' hr' => List.mem_append_left _ (hmem r' hr'),
          by simp⟩
      · intro r' hr' hnot
        rcases List.mem_append.1 hr' with hr' | hr'
        · obtain ⟨w, hw, hsame⟩ := hleft r' hr' fun h => hnot (List.mem_append_left _ h)
          exact ⟨w, List.mem_append_left _ hw, hsame⟩
        · obtain rfl : r' = r := by simpa using hr'
          exact absurd (List.mem_append_right _ (List.mem_singleton_self _)) hnot

/-! ## What comes back -/

section Back

variable {graphemes : List Char → List (List Char)} {dormant : δ → δ} {guarded : List String}
  {done : List (WindowRecord δ)}

/-- The table, once some records came back: each under its id, with its name where it may keep
    that, and no two under one name. -/
structure Back (graphemes : List Char → List (List Char)) (dormant : δ → δ) (guarded : List String)
    (done : List (WindowRecord δ)) (inner : Inner δ ρ) : Prop where
  back : ∀ r ∈ done, ∃ w, inner.entries.get? r.id = some w ∧ w.rest = dormant r.rest ∧
    if sanitizeName graphemes r.id r.name = r.name then w.name = r.name else w.name ∉ guarded
  only : ∀ id w, inner.entries.get? id = some w → ∃ r ∈ done, r.id = id
  names : ∀ id id' w w', inner.entries.get? id = some w → inner.entries.get? id' = some w' →
    w.name = w'.name → id = id'

theorem mem_names {name : String} :
    name ∈ inner.names ↔ ∃ id w, inner.entries.get? id = some w ∧ w.name = name := by
  simp [Inner.names, SortedMap.values, SortedMap.get?_eq_some_iff]

/-- One record more, apart from those before it. -/
theorem Back.record (h : Back graphemes dormant guarded done inner) (hapart : ∀ r' ∈ done, Apart r' r)
    (hguarded : sanitizeName graphemes r.id r.name = r.name → r.name ∈ guarded) :
    Back graphemes dormant guarded (done ++ [r]) (restoreRecord graphemes dormant guarded inner r) := by
  have hnew : inner.entries.get? r.id = none := by
    cases hget : inner.entries.get? r.id with
    | none => rfl
    | some w =>
      obtain ⟨r', hr', hid⟩ := h.only _ _ hget
      exact absurd hid (hapart r' hr').1
  obtain ⟨name, hname, hfree, hkeep⟩ : ∃ name,
      (if sanitizeName graphemes r.id r.name = r.name then r.name
        else uniqueName graphemes (inner.names ++ guarded) (sanitizeName graphemes r.id r.name)) =
          name ∧ name ∉ inner.names ∧
      if sanitizeName graphemes r.id r.name = r.name then name = r.name else name ∉ guarded := by
    refine ⟨_, rfl, ?_⟩
    split_ifs with hvalid
    · refine ⟨fun hmem => ?_, rfl⟩
      -- A name that needs no repair is no other window's: a repaired one would not have taken it.
      obtain ⟨id, w, hget, hw⟩ := mem_names.1 hmem
      obtain ⟨r', hr', rfl⟩ := h.only id w hget
      obtain ⟨w', hget', -, hname'⟩ := h.back r' hr'
      obtain rfl : w = w' := Option.some.inj (hget.symm.trans hget')
      split_ifs at hname' with hvalid'
      · exact (hapart r' hr').2 (hname'.symm.trans hw)
      · exact hname' (hw ▸ hguarded hvalid)
    · have hunique : uniqueName graphemes (inner.names ++ guarded)
          (sanitizeName graphemes r.id r.name) ∉ inner.names ++ guarded := uniqueName_notMem
      rwa [List.mem_append, not_or] at hunique
  have hrestored : restoreRecord graphemes dormant guarded inner r = { inner with
      nextId := max inner.nextId (successor r.id)
      entries := inner.entries.insert r.id ⟨name, dormant r.rest⟩ } := by
    simp only [restoreRecord, hnew, hname, if_neg hfree]
    rfl
  rw [hrestored]
  refine ⟨?_, ?_, ?_⟩
  · refine List.forall_mem_append.2 ⟨fun r' hr' => ?_, fun r' hr' => ?_⟩
    · obtain ⟨w, hget, hw⟩ := h.back r' hr'
      exact ⟨w, (SortedMap.get?_insert_of_ne (hapart r' hr').1).trans hget, hw⟩
    · rw [List.mem_singleton.1 hr']
      exact ⟨_, SortedMap.get?_insert_self, rfl, hkeep⟩
  · intro id w hget
    rw [SortedMap.get?_insert] at hget
    split_ifs at hget with hid
    · exact ⟨r, by simp, hid.symm⟩
    · obtain ⟨r', hr', hid'⟩ := h.only id w hget
      exact ⟨r', List.mem_append_left _ hr', hid'⟩
  · intro id id' w w' hget hget' hsame
    rw [SortedMap.get?_insert] at hget hget'
    split_ifs at hget hget' with hid hid' hid'
    · rw [hid, hid']
    · obtain rfl := Option.some.inj hget
      exact absurd (mem_names.2 ⟨id', w', hget', hsame.symm⟩) hfree
    · obtain rfl := Option.some.inj hget'
      exact absurd (mem_names.2 ⟨id, w, hget, hsame⟩) hfree
    · exact h.names id id' w w' hget hget' hsame

variable (inner graphemes dormant) in
theorem restore_back (h : state.windows.Pairwise Apart) (hempty : inner.entries = .empty) :
    Back graphemes dormant (protectedNames graphemes inner state.windows) state.windows
      (restore graphemes dormant inner state) := by
  have hnone : ∀ id, inner.entries.get? id = none := fun id => by
    rw [hempty, SortedMap.get?_empty]
  have hguarded : ∀ r ∈ state.windows, sanitizeName graphemes r.id r.name = r.name →
      r.name ∈ protectedNames graphemes inner state.windows := fun r hr hvalid =>
    List.mem_map.2 ⟨r, List.mem_filter.2 ⟨hr, by simp [hnone, hvalid]⟩, rfl⟩
  have hback : Back graphemes dormant (protectedNames graphemes inner state.windows) state.windows
      (state.windows.foldl
        (restoreRecord graphemes dormant (protectedNames graphemes inner state.windows)) inner) := by
    have hprefix : ∀ done, done <+: state.windows → Back graphemes dormant
        (protectedNames graphemes inner state.windows) done (done.foldl
          (restoreRecord graphemes dormant (protectedNames graphemes inner state.windows))
          inner) := by
      intro done hdone
      induction done using List.reverseRecOn with
      | nil => exact ⟨nofun, by simp [hnone], by simp [hnone]⟩
      | append_singleton done r ih =>
        have hr : r ∈ state.windows := hdone.subset (by simp)
        have hapart : ∀ r' ∈ done, Apart r' r := fun r' hr' =>
          (List.pairwise_append.1 (h.sublist hdone.sublist)).2.2 r' hr' r (by simp)
        rw [List.foldl_concat]
        exact (ih ((List.prefix_append done [r]).trans hdone)).record hapart (hguarded r hr)
    exact hprefix _ List.prefix_rfl
  exact ⟨hback.back, hback.only, hback.names⟩

/-- The next window's number is past every one of the file's. -/
theorem successor_le_load (savedNextId : ℕ) (records : List (Option (WindowRecord δ))) (runs : ρ)
    (hr : r ∈ (load savedNextId records runs).windows) :
    successor r.id ≤ (load savedNextId records runs).nextId := by
  have hmem : r.id ∈ (records.foldl loadRecord []).map (·.id) := List.mem_map_of_mem hr
  rw [load]
  cases hmax : ((records.foldl loadRecord []).map (·.id)).max? with
  | none => simp [List.max?_eq_none_iff.1 hmax] at hmem
  | some maxId =>
    have hle : r.id ≤ maxId := (List.max?_eq_some_iff.1 hmax).2 _ hmem
    refine le_max_of_le_right ?_
    simp only [successor]
    omega

end Back

end Anthrex.Manager
