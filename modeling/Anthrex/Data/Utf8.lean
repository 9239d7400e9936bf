import Mathlib.Data.List.Basic
import Mathlib.Tactic.SplitIfs

/-!
# Lossy UTF-8

Any bytes as text: what is no UTF-8 reads as the replacement character, one for each longest
start of a character. The decoder goes byte by byte, with the start of a character that it has
read (`Pending`); an ASCII byte is never part of one, so that the text of two pieces with an
ASCII byte between them is that of the one and that of the other (`lossy_append_cons`).
-/

namespace Utf8

/-- Which bytes may follow within a character: the second byte of some characters is
    restricted, every later one is not. -/
inductive Tail
  | any
  | fromA0
  | to9F
  | from90
  | to8F
  deriving DecidableEq, Repr

namespace Tail

/-- The least six bits that the byte may hold. -/
def lo : Tail → ℕ
  | any | to9F | to8F => 0
  | fromA0 => 0x20
  | from90 => 0x10

/-- The greatest. -/
def hi : Tail → ℕ
  | any | fromA0 | from90 => 0x3F
  | to9F => 0x1F
  | to8F => 0x0F

def accepts (t : Tail) (b : UInt8) : Bool :=
  b.toNat / 64 = 2 ∧ t.lo ≤ b.toNat % 64 ∧ b.toNat % 64 ≤ t.hi

theorem accepts_of_lt {t : Tail} {b : UInt8} (hb : b.toNat < 0x80) : t.accepts b = false := by
  simp only [accepts, decide_eq_false_iff_not, not_and]
  omega

end Tail

/-- The least code point of a character with the bits `value` so far and these bytes to come. -/
def least (value : ℕ) : List Tail → ℕ
  | [] => value
  | t :: tails => least (value * 64 + t.lo) tails

theorem least_mono {v w : ℕ} (h : v ≤ w) (tails : List Tail) : least v tails ≤ least w tails := by
  induction tails generalizing v w with
  | nil => exact h
  | cons t tails ih =>
    rw [least, least]
    exact ih (Nat.add_le_add_right (Nat.mul_le_mul_right 64 h) _)

/-- A character of more than one byte, read up to `next`. It is no ASCII character. -/
structure Pending where
  value : ℕ
  next : Tail
  rest : List Tail
  le_least : 0x80 ≤ least value (next :: rest)

def replacement : Char := '\uFFFD'

/-- What a byte that is not ASCII starts: a character, or nothing. -/
def lead (b : UInt8) : Option Pending :=
  let n := b.toNat
  if h : 0xC2 ≤ n ∧ n ≤ 0xDF then some ⟨n - 0xC0, .any, [], by simp only [least, Tail.lo]; omega⟩
  else if n = 0xE0 then some ⟨0, .fromA0, [.any], by decide⟩
  else if h : 0xE1 ≤ n ∧ n ≤ 0xEC then some ⟨n - 0xE0, .any, [.any], by simp only [least, Tail.lo]; omega⟩
  else if n = 0xED then some ⟨0xD, .to9F, [.any], by decide⟩
  else if h : 0xEE ≤ n ∧ n ≤ 0xEF then some ⟨n - 0xE0, .any, [.any], by simp only [least, Tail.lo]; omega⟩
  else if n = 0xF0 then some ⟨0, .from90, [.any, .any], by decide⟩
  else if h : 0xF1 ≤ n ∧ n ≤ 0xF3 then
    some ⟨n - 0xF0, .any, [.any, .any], by simp only [least, Tail.lo]; omega⟩
  else if n = 0xF4 then some ⟨4, .to8F, [.any, .any], by decide⟩
  else none

/-- A byte outside of a character: what it adds to the text, and what it starts. -/
def start (b : UInt8) : List Char × Option Pending :=
  if b.toNat < 0x80 then ([Char.ofNat b.toNat], none)
  else
    match lead b with
    | none => ([replacement], none)
    | some p => ([], some p)

/-- A byte after the start `p` of a character: it goes on with it, or the start stands alone. -/
def Pending.step (p : Pending) (b : UInt8) : List Char × Option Pending :=
  if h : p.next.accepts b then
    match p with
    | ⟨value, _, [], _⟩ => ([Char.ofNat (value * 64 + b.toNat % 64)], none)
    | ⟨value, next, t :: rest, hle⟩ =>
      ([], some ⟨value * 64 + b.toNat % 64, t, rest, by
        have hb : next.lo ≤ b.toNat % 64 := by simp only [Tail.accepts, decide_eq_true_eq] at h; exact h.2.1
        exact Nat.le_trans hle (least_mono (by omega) (t :: rest))⟩)
  else (replacement :: (start b).1, (start b).2)

/-- The text of the bytes after what is pending. -/
def lossyFrom : Option Pending → List UInt8 → List Char
  | none, [] => []
  | some _, [] => [replacement]
  | none, b :: bytes => (start b).1 ++ lossyFrom (start b).2 bytes
  | some p, b :: bytes => (p.step b).1 ++ lossyFrom (p.step b).2 bytes

/-- `String::from_utf8_lossy`. -/
def lossy (bytes : List UInt8) : List Char := lossyFrom none bytes

theorem lossyFrom_none_cons (b : UInt8) (bytes : List UInt8) :
    lossyFrom none (b :: bytes) = (start b).1 ++ lossyFrom (start b).2 bytes := rfl

theorem lossyFrom_some_cons (p : Pending) (b : UInt8) (bytes : List UInt8) :
    lossyFrom (some p) (b :: bytes) = (p.step b).1 ++ lossyFrom (p.step b).2 bytes := rfl

theorem start_of_lt {b : UInt8} (hb : b.toNat < 0x80) : start b = ([Char.ofNat b.toNat], none) := by
  rw [start, if_pos hb]

theorem lossyFrom_append_cons {b : UInt8} (hb : b.toNat < 0x80) (s : Option Pending)
    (bytes more : List UInt8) : lossyFrom s (bytes ++ b :: more) =
      lossyFrom s bytes ++ Char.ofNat b.toNat :: lossy more := by
  induction bytes generalizing s with
  | nil =>
    cases s with
    | none => rw [List.nil_append, lossyFrom_none_cons, start_of_lt hb]; rfl
    | some p =>
      -- no start of a character goes on with an ASCII byte
      have hstep : p.step b = (replacement :: (start b).1, (start b).2) := by
        rw [Pending.step, dif_neg (by rw [Tail.accepts_of_lt hb]; exact Bool.false_ne_true)]
      rw [List.nil_append, lossyFrom_some_cons, hstep, start_of_lt hb]
      rfl
  | cons c bytes ih =>
    cases s with
    | none => rw [List.cons_append, lossyFrom_none_cons, ih, ← List.append_assoc]; rfl
    | some p => rw [List.cons_append, lossyFrom_some_cons, ih, ← List.append_assoc]; rfl

theorem lossy_append_cons {b : UInt8} (hb : b.toNat < 0x80) (bytes more : List UInt8) :
    lossy (bytes ++ b :: more) = lossy bytes ++ Char.ofNat b.toNat :: lossy more :=
  lossyFrom_append_cons hb none bytes more

theorem lossyFrom_some_ne_nil (p : Pending) (bytes : List UInt8) : lossyFrom (some p) bytes ≠ [] := by
  induction bytes generalizing p with
  | nil => exact List.cons_ne_nil _ _
  | cons b bytes ih =>
    rw [lossyFrom_some_cons, Ne, List.append_eq_nil_iff, not_and]
    intro hnil
    cases hp : (p.step b).2 with
    | some p' => exact ih p'
    | none =>
      -- a step that leaves nothing pending adds to the text
      obtain ⟨value, next, rest, hle⟩ := p
      by_cases h : next.accepts b
      · rw [Pending.step, dif_pos h] at hnil hp
        cases rest with
        | nil => cases hnil
        | cons t rest => cases hp
      · rw [Pending.step, dif_neg h] at hnil
        cases hnil

theorem lossy_eq_nil_iff {bytes : List UInt8} : lossy bytes = [] ↔ bytes = [] := by
  refine ⟨fun h => ?_, fun h => h ▸ rfl⟩
  cases bytes with
  | nil => rfl
  | cons b bytes =>
    rw [lossy, lossyFrom_none_cons, List.append_eq_nil_iff, start] at h
    split at h
    · cases h.1
    · split at h
      · cases h.1
      · exact absurd h.2 (lossyFrom_some_ne_nil _ _)

-- A start without its end, and a byte that starts nothing.
example : lossy [0x61, 0xE2, 0x82, 0x0A, 0xC0, 0xC3, 0xA9] = "a\uFFFD\n\uFFFDé".toList := by decide

theorem toNat_ofNat (n : ℕ) : (Char.ofNat n).toNat = n ∨ (Char.ofNat n).toNat = 0 := by
  by_cases h : n.isValidChar
  · rw [Char.ofNat, dif_pos h]
    exact .inl rfl
  · rw [Char.ofNat, dif_neg h]
    exact .inr rfl

section

variable {b : UInt8} (hb : b.toNat < 0x80) (hpos : 0 < b.toNat)

include hb hpos

theorem ofNat_eq_iff {n : ℕ} : Char.ofNat n = Char.ofNat b.toNat ↔ n = b.toNat := by
  refine ⟨fun h => ?_, fun h => h ▸ rfl⟩
  have hvalid : (Char.ofNat b.toNat).toNat = b.toNat := by
    rw [Char.ofNat, dif_pos (.inl (by omega))]
    rfl
  have htoNat := congrArg Char.toNat h
  rw [hvalid] at htoNat
  rcases toNat_ofNat n with hn | hn <;> omega

theorem ne_replacement : Char.ofNat b.toNat ≠ replacement := by
  intro h
  have := (ofNat_eq_iff hb hpos (n := 0xFFFD)).1 h.symm
  omega

theorem not_mem_start {c : UInt8} (hc : c ≠ b) : Char.ofNat b.toNat ∉ (start c).1 := by
  rw [start]
  split
  · rw [List.mem_singleton, eq_comm, ofNat_eq_iff hb hpos]
    exact fun h => hc (UInt8.toNat_inj.1 h)
  · split
    · rw [List.mem_singleton]
      exact ne_replacement hb hpos
    · exact List.not_mem_nil

/-- A character of more than one byte is no ASCII character. -/
theorem not_mem_step {c : UInt8} (hc : c ≠ b) (p : Pending) :
    Char.ofNat b.toNat ∉ (p.step c).1 := by
  obtain ⟨value, next, rest, hle⟩ := p
  by_cases h : next.accepts c
  · rw [Pending.step, dif_pos h]
    cases rest with
    | nil =>
      rw [List.mem_singleton, eq_comm, ofNat_eq_iff hb hpos]
      simp only [Tail.accepts, decide_eq_true_eq] at h
      simp only [least] at hle
      omega
    | cons t rest => exact List.not_mem_nil
  · rw [Pending.step, dif_neg h, List.mem_cons, not_or]
    exact ⟨ne_replacement hb hpos, not_mem_start hb hpos hc⟩

theorem not_mem_lossyFrom {bytes : List UInt8} (hmem : b ∉ bytes) (s : Option Pending) :
    Char.ofNat b.toNat ∉ lossyFrom s bytes := by
  induction bytes generalizing s with
  | nil =>
    cases s with
    | none => exact List.not_mem_nil
    | some p =>
      rw [lossyFrom, List.mem_singleton]
      exact ne_replacement hb hpos
  | cons c bytes ih =>
    rw [List.mem_cons, not_or] at hmem
    cases s with
    | none =>
      rw [lossyFrom_none_cons, List.mem_append, not_or]
      exact ⟨not_mem_start hb hpos (Ne.symm hmem.1), ih hmem.2 _⟩
    | some p =>
      rw [lossyFrom_some_cons, List.mem_append, not_or]
      exact ⟨not_mem_step hb hpos (Ne.symm hmem.1) p, ih hmem.2 _⟩

theorem not_mem_lossy {bytes : List UInt8} (hmem : b ∉ bytes) :
    Char.ofNat b.toNat ∉ lossy bytes :=
  not_mem_lossyFrom hb hpos hmem none

end

end Utf8
