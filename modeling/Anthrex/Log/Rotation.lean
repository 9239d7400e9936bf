import Anthrex.Data.Files

/-!
# Log rotation

A log that rotates itself by size (`common/src/logfile.rs`): before a write that would take it past
its limit, its file becomes `.1`, that one `.2` and so on, and what was the last one is gone. Any
call to the file system on the way may fail. Then the file that is open stays, or the current one is
opened again, and the bytes are written all the same.

While nothing fails for good the open file is the current one. Where neither the new current file
nor the old one can be opened it is left under the name it got, and each rotation that fails from
then on moves it further up. The writes are kept as long as none takes its last name away without a
current file to go on with (`Spared`): what the files hold is what was written last
(`write_kept`).
-/

namespace Anthrex.Log

/-- Which of the calls of a write succeed, if they are made. -/
structure Calls where
  remove : Bool
  /-- By the number of the file renamed. -/
  rename : ℕ → Bool
  create : Bool
  reopen : Bool
  metadata : Bool

/-- A log and the directory it is in: the current file has the number 0, and `.1` the number 1. No
    file comes near the length that a `u64` cannot tell. -/
structure RotatingFile where
  maxBytes : ℕ
  keep : ℕ
  files : Files
  file : ℕ
  len : ℕ
  rotationFailureReported : Bool := false

namespace RotatingFile

/-- Opens the current file, and creates it if need be. -/
def openCurrent (s : RotatingFile) : RotatingFile :=
  { s with files := s.files.create 0, file := s.files.opened 0 }

/-- A log in a directory that has none. -/
def start (maxBytes keep : ℕ) : RotatingFile :=
  openCurrent { maxBytes, keep, files := .empty, file := 0, len := 0 }

/-- Each file up to the `i`th takes the next number, from the last one down. -/
def shift (renamed : ℕ → Bool) : ℕ → Files → Bool × Files
  | 0, d => (true, d)
  | i + 1, d =>
    if (d.names (i + 1)).isSome then
      if renamed (i + 1) then shift renamed i (d.rename (i + 1) (i + 2)) else (false, d)
    else shift renamed i d

/-- The rotation up to where the current file has no name any more. -/
def makeRoom (calls : Calls) (s : RotatingFile) : Bool × Files :=
  if 2 ≤ s.keep then
    let removed := if calls.remove then s.files.remove (s.keep - 1) else s.files
    let shifted := shift calls.rename (s.keep - 2) removed
    if shifted.1 ∧ (shifted.2.names 0).isSome ∧ calls.rename 0 then (true, shifted.2.rename 0 1)
    else (false, shifted.2)
  else if (s.files.names 0).isSome ∧ calls.remove then (true, s.files.remove 0)
  else (false, s.files)

def rotate (calls : Calls) (s : RotatingFile) : Bool × RotatingFile :=
  let room := makeRoom calls s
  let s := { s with files := room.2 }
  if room.1 ∧ calls.create then (true, { s.openCurrent with len := 0 }) else (false, s)

def recoverFromFailedRotation (calls : Calls) (s : RotatingFile) : RotatingFile :=
  let s := if calls.reopen then s.openCurrent else s
  { s with
    len := if calls.metadata then (s.files.bytes s.file).length else s.len
    rotationFailureReported := true }

def rotateIfNeeded (calls : Calls) (incoming : ℕ) (s : RotatingFile) : RotatingFile :=
  if 0 < s.len ∧ s.maxBytes < s.len + incoming then
    let rotated := rotate calls s
    if rotated.1 then { rotated.2 with rotationFailureReported := false }
    else recoverFromFailedRotation calls rotated.2
  else s

def write (s : RotatingFile) (calls : Calls) (buf : List UInt8) : RotatingFile :=
  let s := rotateIfNeeded calls buf.length s
  { s with files := s.files.append s.file buf, len := s.len + buf.length }

/-! ## The files moved up -/

variable {renamed : ℕ → Bool} {d : Files} {i k h f : ℕ}

theorem shift_succ : shift renamed (k + 1) d =
    if (d.names (k + 1)).isSome then
      if renamed (k + 1) then shift renamed k (d.rename (k + 1) (k + 2)) else (false, d)
    else shift renamed k d := rfl

theorem shift_of_none (hnone : ∀ j, 1 ≤ j → j ≤ k → d.names j = none) :
    shift renamed k d = (true, d) := by
  induction k with
  | zero => rfl
  | succ k ih =>
    rw [shift_succ, hnone (k + 1) (by omega) le_rfl, Option.isSome_none, if_neg Bool.false_ne_true]
    exact ih fun j hj hle => hnone j hj (by omega)

theorem shift_ok (hrenamed : ∀ i, renamed i) : (shift renamed k d).1 = true := by
  induction k generalizing d with
  | zero => rfl
  | succ k ih =>
    rw [shift_succ]
    split_ifs with _ hok
    · exact ih
    · exact absurd (hrenamed _) hok
    · exact ih

/-- Neither the current file nor what is above the files is moved. -/
theorem names_shift (hi : i = 0 ∨ k + 1 < i) : (shift renamed k d).2.names i = d.names i := by
  induction k generalizing d with
  | zero => rfl
  | succ k ih =>
    rw [shift_succ]
    split_ifs
    · rw [ih (by omega), Files.names_rename, if_neg (by omega), if_neg (by omega)]
    · rfl
    · exact ih (by omega)

theorem content_shift (hi : i = 0 ∨ k + 1 < i) : (shift renamed k d).2.content i = d.content i := by
  induction k generalizing d with
  | zero => rfl
  | succ k ih =>
    rw [shift_succ]
    split_ifs
    · rw [ih (by omega), Files.content_rename, if_neg (by omega), if_neg (by omega)]
    · rfl
    · exact ih (by omega)

theorem exists_of_content_shift {c : List UInt8} (hc : (shift renamed k d).2.content i = some c) :
    ∃ j, d.content j = some c := by
  induction k generalizing d with
  | zero => exact ⟨i, hc⟩
  | succ k ih =>
    rw [shift_succ] at hc
    split_ifs at hc
    · obtain ⟨j, hj⟩ := ih hc
      rw [Files.content_rename] at hj
      split_ifs at hj
      · exact ⟨k + 1, hj⟩
      · exact ⟨j, hj⟩
    · exact ⟨i, hc⟩
    · exact ih hc

/-- What the files hold is left as it was, but for the last one when another took its number. -/
theorem read_shift : (shift renamed k d).2.read (k + 2) = d.read (k + 2) ∨
    (shift renamed k d).2.read (k + 2) = d.read (k + 1) := by
  induction k generalizing d with
  | zero => exact .inl rfl
  | succ k ih =>
    rw [shift_succ]
    split_ifs with hsome
    · -- the number left is taken by the next one
      have hempty : (d.rename (k + 1) (k + 2)).content (k + 1) = none := by
        rw [Files.content_rename, if_neg (by omega), if_pos rfl]
      have hlower : (d.rename (k + 1) (k + 2)).read (k + 2) =
          (d.rename (k + 1) (k + 2)).read (k + 1) := by
        rw [Files.read_succ, hempty]
        rfl
      have hread := ih (d := d.rename (k + 1) (k + 2))
      rw [hlower, or_self] at hread
      refine .inr ?_
      rw [Files.read_succ, content_shift (by omega), hread, ← hlower, ← Files.read_succ,
        Files.read_rename]
    · exact .inl rfl
    · have hread := ih (d := d)
      have hsame : d.read (k + 2) = d.read (k + 1) := by
        rw [Files.read_succ, Files.content_eq_none.2 (Option.not_isSome_iff_eq_none.1 hsome)]
        rfl
      rw [← hsame, or_self] at hread
      refine .inl ?_
      rw [Files.read_succ, content_shift (by omega), hread, ← Files.read_succ]

/-- The file with the lowest number stays, or takes the next one. -/
theorem lowest_shift (hname : d.names h = some f) (hbelow : ∀ j < h, d.names j = none)
    (hle : h ≤ k + 1) :
    ∃ h' ≤ k + 1, (h' = 0 ↔ h = 0) ∧ (shift renamed k d).2.names h' = some f ∧
      ∀ j < h', (shift renamed k d).2.names j = none := by
  induction k generalizing d h with
  | zero => exact ⟨h, hle, Iff.rfl, hname, hbelow⟩
  | succ k ih =>
    by_cases hlast : h = k + 2
    · rw [shift_of_none fun j _ hj => hbelow j (by omega)]
      exact ⟨h, hle, Iff.rfl, hname, hbelow⟩
    · rw [shift_succ]
      split_ifs with hsome hok
      · by_cases hmoved : h = k + 1
        · -- it is the one that moves, and nothing is below it
          have hnone : ∀ j < k + 2, (d.rename (k + 1) (k + 2)).names j = none := by
            intro j hj
            rw [Files.names_rename, if_neg (by omega)]
            split_ifs with hjk
            · rfl
            · exact hbelow j (by omega)
          rw [shift_of_none fun j _ hj => hnone j (by omega)]
          refine ⟨k + 2, le_rfl, by omega, ?_, hnone⟩
          rw [Files.names_rename, if_pos rfl, ← hmoved, hname]
        · have hother : ∀ j ≤ h, (d.rename (k + 1) (k + 2)).names j = d.names j := by
            intro j hj
            rw [Files.names_rename, if_neg (by omega), if_neg (by omega)]
          obtain ⟨h', hle', hzero, hname', hbelow'⟩ := ih (d := d.rename (k + 1) (k + 2))
            ((hother h le_rfl).trans hname) (fun j hj => (hother j hj.le).trans (hbelow j hj))
            (by omega)
          exact ⟨h', by omega, hzero, hname', hbelow'⟩
      · exact ⟨h, hle, Iff.rfl, hname, hbelow⟩
      · have hne : h ≠ k + 1 := by
          rintro rfl
          exact hsome (hname ▸ rfl)
        obtain ⟨h', hle', hzero, hname', hbelow'⟩ := ih hname hbelow (by omega)
        exact ⟨h', by omega, hzero, hname', hbelow'⟩

/-- With all files moved up, `.1` is no longer there. -/
theorem names_one_shift (hk : 1 ≤ k) (hshifted : (shift renamed k d).1 = true) :
    (shift renamed k d).2.names 1 = none := by
  induction k generalizing d with
  | zero => omega
  | succ k ih =>
    rw [shift_succ] at hshifted ⊢
    split_ifs at hshifted ⊢ with hsome hok
    · rcases Nat.eq_zero_or_pos k with rfl | hk
      · show (d.rename 1 2).names 1 = none
        rw [Files.names_rename, if_neg (by omega), if_pos rfl]
      · exact ih hk hshifted
    · rcases Nat.eq_zero_or_pos k with rfl | hk
      · exact Option.not_isSome_iff_eq_none.1 hsome
      · exact ih hk hshifted

/-! ## Room for a new file -/

variable {s : RotatingFile} {calls : Calls}

/-- The lowest number is the open file's, and none is past those kept. -/
structure Held (s : RotatingFile) (i : ℕ) : Prop where
  lt_keep : i < s.keep
  name : s.files.names i = some s.file
  below : ∀ j < i, s.files.names j = none
  bounded : ∀ j, s.keep ≤ j → s.files.names j = none

/-- The directory of a rotation once the oldest file is removed, if it is. -/
def removed (calls : Calls) (s : RotatingFile) : Files :=
  if calls.remove then s.files.remove (s.keep - 1) else s.files

/-- The files moved up, with the current one still in its place. -/
def shifted (calls : Calls) (s : RotatingFile) : Bool × Files :=
  shift calls.rename (s.keep - 2) (removed calls s)

theorem makeRoom_eq (hkeep : s.keep = k + 2) : makeRoom calls s =
    if (shifted calls s).1 ∧ ((shifted calls s).2.names 0).isSome ∧ calls.rename 0 then
      (true, (shifted calls s).2.rename 0 1)
    else (false, (shifted calls s).2) := by
  rw [makeRoom, if_pos (by omega)]
  rfl

theorem removed_eq (hkeep : s.keep = k + 2) :
    removed calls s = if calls.remove then s.files.remove (k + 1) else s.files := by
  rw [removed, hkeep]
  rfl

theorem shifted_eq (hkeep : s.keep = k + 2) :
    shifted calls s = shift calls.rename k (removed calls s) := by
  rw [shifted, hkeep]
  rfl

theorem names_removed (hkeep : s.keep = k + 2) (hi : i ≠ k + 1) :
    (removed calls s).names i = s.files.names i := by
  rw [removed_eq hkeep]
  split_ifs
  · rw [Files.names_remove, if_neg hi]
  · rfl

theorem content_removed (hkeep : s.keep = k + 2) (hi : i ≠ k + 1) :
    (removed calls s).content i = s.files.content i := by
  rw [removed_eq hkeep]
  split_ifs
  · rw [Files.content_remove, if_neg hi]
  · rfl

theorem exists_of_content_removed (hkeep : s.keep = k + 2) {c : List UInt8}
    (hc : (removed calls s).content i = some c) : ∃ j, s.files.content j = some c := by
  rw [removed_eq hkeep] at hc
  split_ifs at hc
  · rw [Files.content_remove] at hc
    split_ifs at hc
    exact ⟨i, hc⟩
  · exact ⟨i, hc⟩

theorem read_removed (hkeep : s.keep = k + 2) :
    (removed calls s).read (k + 2) <:+ s.files.read (k + 2) := by
  have hlower : (removed calls s).read (k + 1) = s.files.read (k + 1) :=
    Files.read_congr fun i hi => content_removed hkeep hi.ne
  rw [Files.read_succ (n := k + 1), Files.read_succ (n := k + 1), hlower, removed_eq hkeep]
  split_ifs
  · rw [Files.content_remove, if_pos rfl]
    exact List.suffix_append _ _
  · exact List.suffix_rfl

theorem read_shifted (hkeep : s.keep = k + 2) :
    (shifted calls s).2.read (k + 2) <:+ s.files.read (k + 2) := by
  have hremoved : (removed calls s).read (k + 2) <:+ s.files.read (k + 2) := read_removed hkeep
  refine List.IsSuffix.trans ?_ hremoved
  rw [shifted_eq hkeep]
  rcases read_shift (k := k) (d := removed calls s) with hread | hread
  · exact hread ▸ List.suffix_rfl
  · rw [hread, Files.read_succ (n := k + 1)]
    exact List.suffix_append _ _

theorem read_makeRoom (hkeep : s.keep = k + 2) :
    (makeRoom calls s).2.read (k + 2) <:+ s.files.read (k + 2) := by
  have hshifted : (shifted calls s).2.read (k + 2) <:+ s.files.read (k + 2) := read_shifted hkeep
  refine List.IsSuffix.trans ?_ hshifted
  rw [makeRoom_eq hkeep]
  split_ifs with hroom
  · rcases Nat.eq_zero_or_pos k with rfl | hk
    · -- `.1` is the oldest file too
      rw [Files.read_rename, Files.read_succ (n := 1)]
      exact List.suffix_append _ _
    · rw [Files.read_rename_zero]
      rw [shifted_eq hkeep] at hroom ⊢
      exact names_one_shift hk hroom.1
  · exact List.suffix_rfl

theorem exists_of_content_makeRoom (hkeep : s.keep = k + 2) {c : List UInt8}
    (hc : (makeRoom calls s).2.content i = some c) : ∃ j, s.files.content j = some c := by
  obtain ⟨j, hj⟩ : ∃ j, (shifted calls s).2.content j = some c := by
    rw [makeRoom_eq hkeep] at hc
    split_ifs at hc
    · rw [Files.content_rename] at hc
      split_ifs at hc
      · exact ⟨0, hc⟩
      · exact ⟨i, hc⟩
    · exact ⟨i, hc⟩
  rw [shifted_eq hkeep] at hj
  obtain ⟨j', hj'⟩ := exists_of_content_shift hj
  exact exists_of_content_removed hkeep hj'

theorem bounded_makeRoom (h : Held s i) (hkeep : s.keep = k + 2) {j : ℕ} (hj : s.keep ≤ j) :
    (makeRoom calls s).2.names j = none := by
  have hshifted : (shifted calls s).2.names j = none := by
    rw [shifted_eq hkeep, names_shift (by omega), names_removed hkeep (by omega), h.bounded j hj]
  rw [makeRoom_eq hkeep]
  split_ifs
  · rw [Files.names_rename, if_neg (by omega), if_neg (by omega), hshifted]
  · exact hshifted

/-- The open file keeps a name, below which there is none, unless it was the oldest and is
    removed. -/
theorem lowest_makeRoom (h : Held s i) (hkeep : s.keep = k + 2) (hleft : i = k + 1 → ¬calls.remove) :
    ∃ i' < s.keep, (makeRoom calls s).2.names i' = some s.file ∧
      ∀ j < i', (makeRoom calls s).2.names j = none := by
  have hlt := h.lt_keep
  have hname : (removed calls s).names i = some s.file := by
    rw [removed_eq hkeep]
    split_ifs with hremove
    · rw [Files.names_remove, if_neg fun hi => hleft hi hremove, h.name]
    · exact h.name
  have hbelow : ∀ j < i, (removed calls s).names j = none := fun j hj => by
    rw [names_removed hkeep (by omega), h.below j hj]
  obtain ⟨i', hle, -, hname', hbelow'⟩ : ∃ i' ≤ k + 1, (i' = 0 ↔ i = 0) ∧
      (shifted calls s).2.names i' = some s.file ∧
      ∀ j < i', (shifted calls s).2.names j = none := by
    rw [shifted_eq hkeep]
    exact lowest_shift hname hbelow (by omega)
  rw [makeRoom_eq hkeep]
  split_ifs with hroom
  · -- the current file is the open one, and takes `.1`
    obtain rfl : i' = 0 := by
      by_contra hpos
      rw [hbelow' 0 (by omega)] at hroom
      exact absurd hroom.2.1 (by simp)
    refine ⟨1, by omega, ?_, fun j hj => ?_⟩
    · rw [Files.names_rename, if_pos rfl, hname']
    · obtain rfl : j = 0 := by omega
      rw [Files.names_rename, if_neg (by omega), if_pos rfl]
  · exact ⟨i', by omega, hname', hbelow'⟩

/-- Without a current file no rotation succeeds. -/
theorem makeRoom_of_none (hkeep : s.keep = k + 2) (hnone : s.files.names 0 = none) :
    (makeRoom calls s).1 = false := by
  have hshifted : (shifted calls s).2.names 0 = none := by
    rw [shifted_eq hkeep, names_shift (.inl rfl), names_removed hkeep (by omega), hnone]
  rw [makeRoom_eq hkeep, hshifted, if_neg (by simp)]

/-! ## A write -/

variable {buf : List UInt8} {incoming : ℕ}

/-- Once there is room, and the current file is opened: the open file has the lowest number there
    is, and of what the files hold at most the oldest part is gone. -/
theorem held_openCurrent (s' : RotatingFile) (h : Held s i) (hkeep : s.keep = k + 2)
    (hfiles : s'.files = (makeRoom calls s).2) (hsame : s'.keep = s.keep) :
    Held s'.openCurrent 0 ∧ s'.openCurrent.files.read (k + 2) <:+ s.files.read (k + 2) := by
  have hread : (s'.files.create 0).read (k + 2) <:+ s.files.read (k + 2) := by
    rw [Files.read_create, hfiles]
    exact read_makeRoom hkeep
  refine ⟨⟨?_, ?_, by simp, fun j hj => ?_⟩, hread⟩
  · show 0 < s'.keep
    omega
  · exact (Files.names_create).trans (if_pos rfl)
  · have hbound : s.keep ≤ j := hsame ▸ hj
    refine (Files.names_create).trans ?_
    rw [if_neg (by omega), hfiles]
    exact bounded_makeRoom h hkeep hbound

theorem rotate_eq : rotate calls s =
    if (makeRoom calls s).1 ∧ calls.create then
      (true, { ({ s with files := (makeRoom calls s).2 } : RotatingFile).openCurrent with len := 0 })
    else (false, { s with files := (makeRoom calls s).2 }) := rfl

theorem rotateIfNeeded_of_pos (hneeded : 0 < s.len ∧ s.maxBytes < s.len + incoming) :
    rotateIfNeeded calls incoming s =
      if (rotate calls s).1 then { (rotate calls s).2 with rotationFailureReported := false }
      else recoverFromFailedRotation calls (rotate calls s).2 := if_pos hneeded

/-- The oldest file is the open one, a rotation removes it, and the current one is not opened. -/
def LetsGo (calls : Calls) (incoming : ℕ) (s : RotatingFile) : Prop :=
  (0 < s.len ∧ s.maxBytes < s.len + incoming) ∧ s.files.names (s.keep - 1) = some s.file ∧
    calls.remove ∧ !calls.reopen

/-- A rotation, or a failed one, leaves a file open that has a name, and of what the files hold
    at most the oldest part is gone. -/
theorem held_rotateIfNeeded (h : Held s i) (hkeep : s.keep = k + 2)
    (hspared : ¬LetsGo calls incoming s) :
    ∃ i', Held (rotateIfNeeded calls incoming s) i' ∧
      (rotateIfNeeded calls incoming s).keep = s.keep ∧
      (rotateIfNeeded calls incoming s).files.read (k + 2) <:+ s.files.read (k + 2) := by
  by_cases hneeded : 0 < s.len ∧ s.maxBytes < s.len + incoming
  · rw [rotateIfNeeded_of_pos hneeded, rotate_eq]
    by_cases hrotated : (makeRoom calls s).1 ∧ calls.create
    · rw [if_pos hrotated, if_pos rfl]
      obtain ⟨hheld, hread⟩ := held_openCurrent { s with files := (makeRoom calls s).2 } h
        hkeep rfl rfl
      exact ⟨0, ⟨hheld.lt_keep, hheld.name, hheld.below, hheld.bounded⟩, rfl, hread⟩
    · rw [if_neg hrotated, if_neg Bool.false_ne_true, recoverFromFailedRotation]
      by_cases hreopen : calls.reopen
      · rw [if_pos hreopen]
        obtain ⟨hheld, hread⟩ := held_openCurrent { s with files := (makeRoom calls s).2 } h
          hkeep rfl rfl
        exact ⟨0, ⟨hheld.lt_keep, hheld.name, hheld.below, hheld.bounded⟩, rfl, hread⟩
      · -- the open file stays, under the name it got
        rw [if_neg hreopen]
        have hleft : i = k + 1 → ¬calls.remove := by
          rintro rfl hremove
          refine hspared ⟨hneeded, ?_, hremove, by simpa using hreopen⟩
          rw [hkeep]
          exact h.name
        obtain ⟨i', hlt, hname, hbelow⟩ := lowest_makeRoom h hkeep hleft
        exact ⟨i', ⟨hlt, hname, hbelow, fun j hj => bounded_makeRoom h hkeep hj⟩, rfl,
          read_makeRoom hkeep⟩
  · rw [rotateIfNeeded, if_neg hneeded]
    exact ⟨i, h, rfl, List.suffix_rfl⟩

theorem Held.append (h : Held s i) (n : ℕ) :
    Held { s with files := s.files.append s.file buf, len := n } i :=
  ⟨h.lt_keep, h.name, h.below, h.bounded⟩

/-- The bytes of a write are the last ones of a file with a name, and the last ones read. -/
theorem held_write (h : Held s i) (hkeep : s.keep = k + 2) (hspared : ¬LetsGo calls buf.length s) :
    ∃ i', Held (s.write calls buf) i' ∧ (s.write calls buf).keep = s.keep ∧
      (s.write calls buf).files.read (k + 2) <:+ s.files.read (k + 2) ++ buf ∧
      ∃ c, (s.write calls buf).files.content i' = some c ∧ buf <:+ c := by
  obtain ⟨i', hheld, hsame, hread⟩ := held_rotateIfNeeded h hkeep hspared
  refine ⟨i', hheld.append _, hsame, ?_, ?_⟩
  · have hlt := hheld.lt_keep
    show ((rotateIfNeeded calls buf.length s).files.append _ buf).read (k + 2) <:+ _
    rw [Files.read_append hheld.name (by omega) hheld.below]
    obtain ⟨gone, hgone⟩ := hread
    exact ⟨gone, by rw [← List.append_assoc, hgone]⟩
  · refine ⟨_, (Files.content_append hheld.name buf).trans (if_pos rfl), List.suffix_append _ _⟩

/-! ## A run -/

/-- A log after some writes. -/
def writes (s : RotatingFile) (ws : List (Calls × List UInt8)) : RotatingFile :=
  ws.foldl (fun s w => s.write w.1 w.2) s

/-- The bytes accepted, in the order of the writes. -/
def accepted (ws : List (Calls × List UInt8)) : List UInt8 := ws.flatMap (·.2)

/-- No write of a run lets the open file go. -/
def Spared : RotatingFile → List (Calls × List UInt8) → Prop
  | _, [] => True
  | s, w :: ws => ¬LetsGo w.1 w.2.length s ∧ Spared (s.write w.1 w.2) ws

theorem Spared.of_append {ws ws' : List (Calls × List UInt8)} (h : Spared s (ws ++ ws')) :
    Spared s ws := by
  induction ws generalizing s with
  | nil => trivial
  | cons w ws ih => exact ⟨h.1, ih h.2⟩

theorem Spared.last {ws : List (Calls × List UInt8)} {w : Calls × List UInt8}
    (h : Spared s (ws ++ [w])) : ¬LetsGo w.1 w.2.length (writes s ws) := by
  induction ws generalizing s with
  | nil => exact h.1
  | cons v ws ih => exact ih h.2

theorem writes_concat (s : RotatingFile) (ws : List (Calls × List UInt8)) (w : Calls × List UInt8) :
    writes s (ws ++ [w]) = (writes s ws).write w.1 w.2 := by
  rw [writes, List.foldl_append]
  rfl

theorem accepted_concat (ws : List (Calls × List UInt8)) (w : Calls × List UInt8) :
    accepted (ws ++ [w]) = accepted ws ++ w.2 := by simp [accepted]

theorem held_start {maxBytes : ℕ} : Held (start maxBytes (k + 2)) 0 := by
  have hnames : ∀ j, (Files.empty.create 0).names j =
      if j = 0 then some (Files.empty.opened 0) else none := fun _ => Files.names_create
  refine ⟨Nat.succ_pos _, hnames 0, by simp, fun j hj => ?_⟩
  have hpos : k + 2 ≤ j := hj
  exact (hnames j).trans (if_neg (by omega))

/-- A run that lets no file go has the bytes written last in its files, oldest first. -/
theorem held_writes {maxBytes : ℕ} {ws : List (Calls × List UInt8)}
    (hspared : Spared (start maxBytes (k + 2)) ws) :
    ∃ i, Held (writes (start maxBytes (k + 2)) ws) i ∧
      (writes (start maxBytes (k + 2)) ws).keep = k + 2 ∧
      (writes (start maxBytes (k + 2)) ws).files.read (k + 2) <:+ accepted ws := by
  induction ws using List.reverseRecOn with
  | nil =>
    refine ⟨0, held_start, rfl, ?_⟩
    have hempty : (Files.empty.create 0).read (k + 2) = [] := by
      rw [Files.read_create]
      exact Files.read_eq_nil fun _ _ => rfl
    exact hempty ▸ List.nil_suffix
  | append_singleton ws w ih =>
    obtain ⟨i, hheld, hkeep, hread⟩ := ih hspared.of_append
    obtain ⟨i', hheld', hkeep', hread', -⟩ := held_write hheld hkeep hspared.last
    rw [writes_concat, accepted_concat]
    refine ⟨i', hheld', hkeep'.trans hkeep, hread'.trans ?_⟩
    obtain ⟨gone, hgone⟩ := hread
    exact ⟨gone, by rw [← List.append_assoc, hgone]⟩

/-! ## Without a failure -/

/-- Every call that is made succeeds. -/
def Calls.Succeed (calls : Calls) : Prop :=
  calls.remove ∧ (∀ i, calls.rename i) ∧ calls.create ∧ calls.reopen ∧ calls.metadata

/-- The open file is the current one, of the length known, and no file is past the limit but one of
    a single write. -/
structure Capped (s : RotatingFile) (ws : List (Calls × List UInt8)) : Prop where
  current : s.files.names 0 = some s.file
  length : s.len = (s.files.bytes s.file).length
  capped : ∀ i c, s.files.content i = some c → c.length ≤ s.maxBytes ∨ ∃ w ∈ ws, c = w.2

theorem capped_rotateIfNeeded {ws : List (Calls × List UInt8)} (incoming : ℕ) (h : Capped s ws)
    (hkeep : s.keep = k + 2) (hcalls : Calls.Succeed calls) :
    Capped (rotateIfNeeded calls incoming s) ws ∧
      (rotateIfNeeded calls incoming s).maxBytes = s.maxBytes ∧
      ((rotateIfNeeded calls incoming s).len = 0 ∨
        (rotateIfNeeded calls incoming s).len + incoming ≤ s.maxBytes) := by
  by_cases hneeded : 0 < s.len ∧ s.maxBytes < s.len + incoming
  · have hroom : makeRoom calls s = (true, (shifted calls s).2.rename 0 1) := by
      rw [makeRoom_eq hkeep]
      refine if_pos ⟨?_, ?_, hcalls.2.1 0⟩
      · rw [shifted_eq hkeep]
        exact shift_ok hcalls.2.1
      · rw [shifted_eq hkeep, names_shift (.inl rfl), names_removed hkeep (by omega), h.current]
        rfl
    have hcontent : ∀ i c, (makeRoom calls s).2.content i = some c →
        c.length ≤ s.maxBytes ∨ ∃ w ∈ ws, c = w.2 := fun i c hc => by
      obtain ⟨j, hj⟩ := exists_of_content_makeRoom hkeep hc
      exact h.capped j c hj
    have hnone : (makeRoom calls s).2.content 0 = none := by
      rw [hroom, Files.content_rename, if_neg (by omega), if_pos rfl]
    have hrotated : (makeRoom calls s).1 ∧ calls.create := ⟨by rw [hroom], hcalls.2.2.1⟩
    rw [rotateIfNeeded_of_pos hneeded, rotate_eq, if_pos hrotated, if_pos rfl]
    have hname : ((makeRoom calls s).2.create 0).names 0 = some ((makeRoom calls s).2.opened 0) :=
      Files.names_create.trans (if_pos rfl)
    have hbytes : ((makeRoom calls s).2.create 0).bytes ((makeRoom calls s).2.opened 0) = [] := by
      have hopened := Files.content_of_names hname
      rw [Files.content_create, if_pos rfl, hnone] at hopened
      exact (Option.some.inj hopened).symm
    refine ⟨⟨hname, (congrArg List.length hbytes).symm, fun i c hc => ?_⟩, rfl, .inl rfl⟩
    have hcreated : ((makeRoom calls s).2.create 0).content i = some c := hc
    rw [Files.content_create, hnone] at hcreated
    split_ifs at hcreated
    · rw [← Option.some.inj hcreated]
      exact .inl (Nat.zero_le _)
    · exact hcontent i c hcreated
  · rw [rotateIfNeeded, if_neg hneeded]
    refine ⟨h, rfl, ?_⟩
    omega

theorem capped_write {ws : List (Calls × List UInt8)} (buf : List UInt8) (h : Capped s ws)
    (hkeep : s.keep = k + 2) (hcalls : Calls.Succeed calls) : Capped (s.write calls buf) (ws ++ [(calls, buf)]) ∧
      (s.write calls buf).maxBytes = s.maxBytes := by
  obtain ⟨hcapped, hmax, hroom⟩ := capped_rotateIfNeeded buf.length h hkeep hcalls
  rw [write]
  generalize rotateIfNeeded calls buf.length s = s' at hcapped hmax hroom ⊢
  refine ⟨⟨hcapped.current, ?_, fun i c hc => ?_⟩, hmax⟩
  · show s'.len + buf.length = (Function.update s'.files.bytes s'.file _ s'.file).length
    rw [Function.update_self, List.length_append, hcapped.length]
  · have happended : (s'.files.append s'.file buf).content i = some c := hc
    rw [Files.content_append hcapped.current] at happended
    show c.length ≤ s'.maxBytes ∨ _
    split_ifs at happended
    · obtain rfl := Option.some.inj happended
      rcases hroom with hlen | hlen
      · -- the file is that write alone
        have hempty : s'.files.bytes s'.file = [] :=
          List.eq_nil_of_length_eq_zero (hcapped.length.symm.trans hlen)
        exact .inr ⟨(calls, buf), by simp, by rw [hempty, List.nil_append]⟩
      · rw [hcapped.length] at hlen
        rw [List.length_append, hmax]
        exact .inl hlen
    · rcases hcapped.capped i c happended with hle | ⟨w, hw, hc⟩
      · exact .inl hle
      · exact .inr ⟨w, List.mem_append_left _ hw, hc⟩

theorem capped_writes {maxBytes : ℕ} {ws : List (Calls × List UInt8)}
    (hspared : Spared (start maxBytes (k + 2)) ws) (hcalls : ∀ w ∈ ws, Calls.Succeed w.1) :
    Capped (writes (start maxBytes (k + 2)) ws) ws ∧
      (writes (start maxBytes (k + 2)) ws).maxBytes = maxBytes := by
  induction ws using List.reverseRecOn with
  | nil =>
    refine ⟨⟨held_start.name, rfl, fun i c hc => .inl ?_⟩, rfl⟩
    have hcontent : (Files.empty.create 0).content i = some c := hc
    rw [Files.content_create] at hcontent
    split_ifs at hcontent
    · rw [← Option.some.inj hcontent]
      exact Nat.zero_le _
    · cases hcontent
  | append_singleton ws w ih =>
    obtain ⟨hcapped, hmax⟩ := ih hspared.of_append fun v hv => hcalls v (List.mem_append_left _ hv)
    obtain ⟨-, -, hkeep, -⟩ := held_writes hspared.of_append
    obtain ⟨hcapped', hmax'⟩ := capped_write w.2 hcapped hkeep (hcalls w (by simp))
    rw [writes_concat]
    exact ⟨hcapped', hmax'.trans hmax⟩

/-! ## What is kept -/

/-- The bytes of each write are in a file right after it; the files hold, oldest first, some of the
    bytes accepted in their order; and where nothing failed these are the last ones, in at most
    `keep` files of which only one of a single write is past the limit. -/
def Lossless (maxBytes keep : ℕ) (ws : List (Calls × List UInt8)) : Prop :=
  (∀ before w after, ws = before ++ w :: after →
    ∃ i < keep, ∃ c, (writes (start maxBytes keep) (before ++ [w])).files.content i = some c ∧
      w.2 <:+ c) ∧
  ((writes (start maxBytes keep) ws).files.read keep).Sublist (accepted ws) ∧
  ((∀ w ∈ ws, Calls.Succeed w.1) →
    (writes (start maxBytes keep) ws).files.read keep <:+ accepted ws ∧
    (∀ i, keep ≤ i → (writes (start maxBytes keep) ws).files.content i = none) ∧
    ∀ i c, (writes (start maxBytes keep) ws).files.content i = some c →
      c.length ≤ maxBytes ∨ ∃ w ∈ ws, c = w.2)

/-- A run in which no write lets the open file go loses nothing but the oldest files. -/
theorem write_kept {maxBytes keep : ℕ} {ws : List (Calls × List UInt8)} (hkeep : 2 ≤ keep)
    (hspared : Spared (start maxBytes keep) ws) : Lossless maxBytes keep ws := by
  obtain ⟨k, rfl⟩ := Nat.exists_eq_add_of_le' hkeep
  obtain ⟨i, hheld, hsame, hread⟩ := held_writes hspared
  refine ⟨?_, hread.sublist, fun hcalls => ⟨hread, fun j hj => ?_, ?_⟩⟩
  · rintro before w after rfl
    rw [List.append_cons] at hspared
    obtain ⟨_, hbefore, hsame, -⟩ := held_writes hspared.of_append.of_append
    obtain ⟨i, hheld, hsame', -, c, hc, hsuffix⟩ :=
      held_write hbefore hsame hspared.of_append.last
    have hlt := hheld.lt_keep
    rw [writes_concat]
    exact ⟨i, by omega, c, hc, hsuffix⟩
  · exact Files.content_eq_none.2 (hheld.bounded j (by omega))
  · obtain ⟨hcapped, hmax⟩ := capped_writes hspared hcalls
    intro j c hc
    have hcap := hcapped.capped j c hc
    rwa [hmax] at hcap

/-- What can be opened again is never let go. -/
theorem Spared.of_reopen {ws : List (Calls × List UInt8)} (h : ∀ w ∈ ws, w.1.reopen) :
    Spared s ws := by
  induction ws generalizing s with
  | nil => trivial
  | cons w ws ih =>
    rw [List.forall_mem_cons] at h
    refine ⟨fun hgo => ?_, ih h.2⟩
    have hnot := hgo.2.2.2
    rw [h.1] at hnot
    cases hnot

/-- Nothing fails. -/
def sound : Calls := ⟨true, fun _ => true, true, true, true⟩

/-- No file is created. -/
def full : Calls := ⟨true, fun _ => true, false, false, true⟩

theorem write_kept_twice : Lossless 1 2 [(sound, [97]), ({ sound with create := false }, [98])] :=
  write_kept le_rfl (Spared.of_reopen (by decide))

/-- Moved to `.1`, the open file is removed by the next rotation, and what is written goes to no
    file. -/
theorem not_lossless : ¬∀ maxBytes keep ws, 2 ≤ keep → Lossless maxBytes keep ws := by
  intro h
  obtain ⟨i, hi, c, hc, -⟩ := (h 1 2 [(sound, [97]), (full, [98]), (full, [99])] le_rfl).1
    [(sound, [97]), (full, [98])] (full, [99]) [] rfl
  have hnone : ∀ i < 2, ((writes (start 1 2)
      [(sound, [97]), (full, [98]), (full, [99])]).files.content i).isNone := by decide
  have hgone := hnone i hi
  rw [List.cons_append, List.cons_append, List.nil_append] at hc
  rw [hc] at hgone
  cases hgone

end RotatingFile

end Anthrex.Log
