import Anthrex.Data.Base64
import Mathlib.Data.BitVec
import Mathlib.Data.List.Infix

/-!
# A Basic credential

Whether a run of base64 that escape sequences break up is a credential: whether it decodes to bytes
with a colon (`lessons/redact_basic.rs`). An escape took some of the credential's characters with
it, but which is not known, only that they end the bytes that it ate. Each choice is a reading
(`Reads`), and there are as many as the product of the lengths; one pass over the run, with a set of
the places where a decoder can be, tells whether a colon is in one of them
(`holdsColon_iff`).
-/

namespace Anthrex.Redact

/-! ## Runs -/

/-- A part of a run, as a range of its text's bytes. -/
inductive Part
  /-- Characters of the alphabet. -/
  | visible (a b : ℕ)
  /-- An escape sequence or a hidden character. -/
  | invisible (a b : ℕ)
  deriving DecidableEq, Repr

/-- A run of an alphabet in a text. -/
structure Run where
  text : List UInt8
  alphabet : UInt8 → Bool
  parts : List Part

/-- The bytes of an escape after its lead, which can be a secret's. A string that an escape begins
    has none, nor has a hidden character. -/
def eaten (line : List UInt8) (a len : ℕ) : Option (List UInt8) :=
  let escape := (line.drop a).take len
  if escape.head? = some 0x1b then
    if escape[1]?.any (· ∈ [0x5d, 0x50, 0x58, 0x5e, 0x5f]) then none
    else if 1 < escape.length then some (escape.drop 1) else none
  else if [0xc2, 0x9b] <+: line.drop a then
    if 2 < escape.length then some (escape.drop 2) else none
  else none

namespace Run

/-- The bytes of the alphabet that the invisible part eats. -/
def eatenOf (run : Run) (a b : ℕ) : List UInt8 :=
  ((eaten run.text a (b - a)).getD []).filter run.alphabet

def piece (run : Run) (a b : ℕ) : List UInt8 := (run.text.drop a).take (b - a)

end Run

/-! ## The decoder -/

/-- The six bits of a character. -/
def sextet (b : UInt8) : Option ℕ :=
  if 65 ≤ b ∧ b ≤ 90 then some (b.toNat - 65)
  else if 97 ≤ b ∧ b ≤ 122 then some (b.toNat - 97 + 26)
  else if 48 ≤ b ∧ b ≤ 57 then some (b.toNat - 48 + 52)
  else if b = 43 then some 62
  else if b = 47 then some 63
  else none

/-- Where a decoder can be: for each place in a group, the last character's six bits. -/
structure States where
  bits : Fin 4 → BitVec 64

namespace States

def none : States := ⟨fun _ => 0⟩

def set (s : States) (place : Fin 4) (last : ℕ) : States :=
  ⟨Function.update s.bits place (s.bits place ||| BitVec.twoPow 64 last)⟩

def start : States := none.set 0 0

def isEmpty (s : States) : Bool := decide (s.bits = fun _ => 0)

def union (s t : States) : States := ⟨fun place => s.bits place ||| t.bits place⟩

/-- The states, place after place, the lowest bits first. -/
def members (s : States) : List (Fin 4 × ℕ) :=
  (List.finRange 4).flatMap fun place =>
    ((List.range 64).filter fun prev => (s.bits place).getLsbD prev).map (place, ·)

/-- The byte that six bits complete in a state. -/
def byte (v : ℕ) : Fin 4 × ℕ → Option ℕ
  | (1, prev) => some (prev <<< 2 ||| v >>> 4)
  | (2, prev) => some ((prev &&& 15) <<< 4 ||| v >>> 2)
  | (3, prev) => some ((prev &&& 3) <<< 6 ||| v)
  | _ => .none

/-- The state after a state. -/
def next (v : ℕ) : Fin 4 × ℕ → Fin 4 × ℕ
  | (3, _) => (0, 0)
  | (place, _) => (place + 1, v)

def colon : ℕ := 58

/-- One of the states fed, unless a colon was found in one before. -/
def feedOne (v : ℕ) (acc : States × Bool) (state : Fin 4 × ℕ) : States × Bool :=
  if acc.2 then acc
  else if byte v state = some colon then (acc.1, true)
  else (acc.1.set (next v state).1 (next v state).2, false)

/-- Every state after one more character, and whether a byte it completes is a colon. -/
def feed (s : States) (b : UInt8) : States × Bool :=
  match sextet b with
  | .none => (none, false)
  | some v => s.members.foldl (feedOne v) (none, false)

end States

/-- A visible piece is fed; nothing is returned where a colon is found. -/
def feedPiece (s : States) : List UInt8 → Option States
  | [] => some s
  | b :: bytes => if (s.feed b).2 then none else feedPiece (s.feed b).1 bytes

/-- An escape's bytes are fed to what skipped those before or has taken some. -/
def feedEaten (skipping : States) (taking : States) : List UInt8 → Option States
  | [] => some (taking.union skipping)
  | b :: bytes =>
    if ((taking.union skipping).feed b).2 then none
    else feedEaten skipping ((taking.union skipping).feed b).1 bytes

def feedPart (run : Run) (s : States) : Part → Option States
  | .visible a b => feedPiece s (run.piece a b)
  | .invisible a b => feedEaten s .none (run.eatenOf a b)

def holdsColonFrom (run : Run) : States → List Part → Bool
  | _, [] => false
  | s, part :: parts =>
    match feedPart run s part with
    | none => true
    | some s' => if s'.isEmpty then false else holdsColonFrom run s' parts

/-- Whether some reading of the run decodes to bytes with a colon. -/
def holdsColon (run : Run) : Bool := holdsColonFrom run .start run.parts

/-! ## What a state set is for -/

variable {s t : States} {place : Fin 4} {prev last v : ℕ}

namespace States

def Has (s : States) (place : Fin 4) (prev : ℕ) : Prop := (s.bits place).getLsbD prev = true

theorem mem_members {state : Fin 4 × ℕ} : state ∈ s.members ↔ s.Has state.1 state.2 := by
  obtain ⟨place, prev⟩ := state
  simp only [members, List.mem_flatMap, List.mem_finRange, true_and, List.mem_map, List.mem_filter,
    List.mem_range, Prod.mk.injEq]
  constructor
  · rintro ⟨_, _, ⟨-, hbit⟩, rfl, rfl⟩
    exact hbit
  · exact fun h => ⟨place, prev, ⟨BitVec.lt_of_getLsbD h, h⟩, rfl, rfl⟩

theorem not_has_none : ¬none.Has place prev := by simp [Has, none]

theorem not_has_of_isEmpty (h : s.isEmpty) : ¬s.Has place prev := by
  rw [isEmpty, decide_eq_true_eq] at h
  simp [Has, h]

theorem has_union : (s.union t).Has place prev ↔ s.Has place prev ∨ t.Has place prev := by
  simp [Has, union, BitVec.getLsbD_or]

theorem has_set {place' : Fin 4} (hlast : last < 64) :
    (s.set place' last).Has place prev ↔ s.Has place prev ∨ place = place' ∧ prev = last := by
  rw [Has, set]
  dsimp only
  rw [Function.update_apply]
  split_ifs with hplace
  · rw [BitVec.getLsbD_or, Bool.or_eq_true, BitVec.getLsbD_twoPow, hplace, Has]
    simp only [Bool.and_eq_true, decide_eq_true_eq, true_and]
    refine or_congr_right ⟨fun h => h.2.symm, fun h => ⟨hlast, h.symm⟩⟩
  · simp [Has, hplace]

theorem has_start : start.Has place prev ↔ place = 0 ∧ prev = 0 := by
  rw [start, has_set (by omega), or_iff_right not_has_none]

theorem byte_eq (hv : v < 64) : byte v (place, prev) = Base64.completed place prev v := by
  match place with
  | 0 => rfl
  | 1 => exact congrArg some (Base64.first_eq hv)
  | 2 => exact congrArg some (Base64.second_eq hv)
  | 3 => exact congrArg some (Base64.third_eq hv)

/-- From the next state the rest is decoded as after the character. -/
theorem stream_next (rest : List ℕ) :
    Base64.stream (next v (place, prev)).1 (next v (place, prev)).2 rest =
      Base64.stream ((place + 1 : ℕ) % 4) v rest := by
  match place with
  | 0 => rfl
  | 1 => rfl
  | 2 => rfl
  | 3 =>
    show Base64.stream 0 0 rest = Base64.stream 0 v rest
    rw [Base64.stream_zero, Base64.stream_zero]

theorem next_lt (hv : v < 64) (state : Fin 4 × ℕ) : (next v state).2 < 64 := by
  obtain ⟨place, prev⟩ := state
  match place with
  | 0 => exact hv
  | 1 => exact hv
  | 2 => exact hv
  | 3 => exact Nat.succ_pos 63

theorem foldl_feedOne_of_found (l : List (Fin 4 × ℕ)) (acc : States) :
    l.foldl (feedOne v) (acc, true) = (acc, true) := by
  induction l with
  | nil => rfl
  | cons state l ih => exact ih

theorem foldl_feedOne (hv : v < 64) (l : List (Fin 4 × ℕ)) (acc : States) :
    ((l.foldl (feedOne v) (acc, false)).2 = true ↔ ∃ state ∈ l, byte v state = some colon) ∧
      ((l.foldl (feedOne v) (acc, false)).2 = false → ∀ place prev,
        (l.foldl (feedOne v) (acc, false)).1.Has place prev ↔
          acc.Has place prev ∨ ∃ state ∈ l, next v state = (place, prev)) := by
  induction l generalizing acc with
  | nil => simp
  | cons state l ih =>
    rw [List.foldl_cons]
    by_cases hcolon : byte v state = some colon
    · have hone : feedOne v (acc, false) state = (acc, true) := by
        rw [feedOne, if_neg Bool.false_ne_true, if_pos hcolon]
      rw [hone, foldl_feedOne_of_found]
      exact ⟨iff_of_true rfl ⟨state, List.mem_cons_self, hcolon⟩, fun h => by cases h⟩
    · have hone : feedOne v (acc, false) state =
          (acc.set (next v state).1 (next v state).2, false) := by
        rw [feedOne, if_neg Bool.false_ne_true, if_neg hcolon]
      rw [hone]
      obtain ⟨hfound, hstates⟩ := ih (acc.set (next v state).1 (next v state).2)
      refine ⟨?_, fun hnone place prev => ?_⟩
      · rw [hfound, List.exists_mem_cons_iff]
        exact (or_iff_right hcolon).symm
      · rw [hstates hnone, has_set (next_lt hv state), List.exists_mem_cons_iff, or_assoc]
        refine or_congr_right (or_congr_left ?_)
        rw [Prod.ext_iff]
        exact and_congr eq_comm eq_comm

end States

theorem sextet_lt {b : UInt8} (h : sextet b = some v) : v < 64 := by
  rw [sextet] at h
  simp only [UInt8.le_iff_toNat_le, UInt8.reduceToNat] at h
  split_ifs at h <;> (have hv := Option.some.inj h; omega)

/-! ## Readings -/

/-- The characters up to the first that is none of base64's, as six bits each. -/
def sixes : List UInt8 → List ℕ
  | [] => []
  | b :: bytes =>
    match sextet b with
    | none => []
    | some v => v :: sixes bytes

/-- What bytes decode to. -/
def decoded (bytes : List UInt8) : List ℕ := Base64.decode (sixes bytes)

/-- A reading of a run's parts: what is visible, and of each escape the end of the bytes it ate. -/
inductive Reads (run : Run) : List Part → List UInt8 → Prop
  | nil : Reads run [] []
  | visible {a b : ℕ} {parts : List Part} {rest : List UInt8} :
    Reads run parts rest → Reads run (.visible a b :: parts) (run.piece a b ++ rest)
  | invisible {a b : ℕ} {parts : List Part} {taken rest : List UInt8} :
    taken <:+ run.eatenOf a b → Reads run parts rest →
      Reads run (.invisible a b :: parts) (taken ++ rest)

/-- From one of the states, the bytes decode to some with a colon. -/
def Finds (s : States) (bytes : List UInt8) : Prop :=
  ∃ place prev, s.Has place prev ∧ States.colon ∈ Base64.stream place prev (sixes bytes)

variable {bytes : List UInt8} {b : UInt8}

theorem not_finds_nil : ¬Finds s [] := by
  rintro ⟨place, prev, -, hmem⟩
  cases hmem

theorem finds_union : Finds (s.union t) bytes ↔ Finds s bytes ∨ Finds t bytes := by
  constructor
  · rintro ⟨place, prev, hhas, hmem⟩
    exact (States.has_union.1 hhas).imp (fun h => ⟨place, prev, h, hmem⟩)
      fun h => ⟨place, prev, h, hmem⟩
  · rintro (⟨place, prev, hhas, hmem⟩ | ⟨place, prev, hhas, hmem⟩)
    · exact ⟨place, prev, States.has_union.2 (.inl hhas), hmem⟩
    · exact ⟨place, prev, States.has_union.2 (.inr hhas), hmem⟩

theorem not_finds_none : ¬Finds .none bytes := by
  rintro ⟨place, prev, hhas, -⟩
  exact States.not_has_none hhas

/-- A character fed finds a colon, or what is found after it is found from the next states. -/
theorem finds_cons : Finds s (b :: bytes) ↔ (s.feed b).2 = true ∨ Finds (s.feed b).1 bytes := by
  rw [States.feed, Finds, sixes]
  cases hb : sextet b with
  | none =>
    -- no character of the alphabet: the run ends, in every state
    refine iff_of_false ?_ ?_
    · rintro ⟨place, prev, -, hmem⟩
      cases hmem
    · rintro (h | h)
      · cases h
      · exact not_finds_none h
  | some v =>
    have hv := sextet_lt hb
    obtain ⟨hfound, hstates⟩ := States.foldl_feedOne hv s.members .none
    have hcons : ∀ (place : Fin 4) (prev : ℕ),
        States.colon ∈ Base64.stream place prev (v :: sixes bytes) ↔
          States.byte v (place, prev) = some States.colon ∨ States.colon ∈ Base64.stream
            (States.next v (place, prev)).1 (States.next v (place, prev)).2 (sixes bytes) := by
      intro place prev
      rw [Base64.stream, List.mem_append, States.stream_next, States.byte_eq hv, Option.mem_toList]
    show (∃ place prev, s.Has place prev ∧ States.colon ∈ Base64.stream place prev (v :: sixes bytes)) ↔ _
    cases hcolon : (s.members.foldl (States.feedOne v) (.none, false)).2 with
    | true =>
      obtain ⟨⟨place, prev⟩, hmem, hbyte⟩ := hfound.1 hcolon
      exact iff_of_true ⟨place, prev, States.mem_members.1 hmem, (hcons _ _).2 (.inl hbyte)⟩ (.inl rfl)
    | false =>
      -- no state has a colon now, so that one is found in what follows, from the next states
      have hnone : ∀ place prev, s.Has place prev → ¬States.byte v (place, prev) = some States.colon := by
        intro place prev hhas hbyte
        have htrue := hfound.2 ⟨(place, prev), States.mem_members.2 hhas, hbyte⟩
        rw [hcolon] at htrue
        cases htrue
      constructor
      · rintro ⟨place, prev, hhas, hmem⟩
        refine .inr ⟨_, _, (hstates hcolon _ _).2 (.inr ⟨(place, prev), ?_, rfl⟩), ?_⟩
        · exact States.mem_members.2 hhas
        · exact ((hcons _ _).1 hmem).resolve_left (hnone place prev hhas)
      · rintro (htrue | ⟨place, prev, hhas, hmem⟩)
        · cases htrue
        · rcases (hstates hcolon _ _).1 hhas with hhas | ⟨⟨place', prev'⟩, hstate, hnext⟩
          · exact absurd hhas States.not_has_none
          · refine ⟨place', prev', States.mem_members.1 hstate, (hcons _ _).2 (.inr ?_)⟩
            rw [hnext]
            exact hmem

/-! ## The pass -/

/-- A colon was found, or is found in what follows. -/
def Found : Option States → List UInt8 → Prop
  | none, _ => True
  | some s, rest => Finds s rest

theorem feedPiece_spec (piece rest : List UInt8) :
    Found (feedPiece s piece) rest ↔ Finds s (piece ++ rest) := by
  induction piece generalizing s with
  | nil => exact Iff.rfl
  | cons b piece ih =>
    rw [feedPiece, List.cons_append, finds_cons]
    by_cases hcolon : (s.feed b).2 = true
    · rw [if_pos hcolon]
      exact iff_of_true trivial (.inl hcolon)
    · rw [if_neg hcolon, or_iff_right hcolon]
      exact ih

/-- What has taken some of an escape's bytes takes the others, and what has not takes the rest from
    one of them on. -/
theorem feedEaten_spec (ate rest : List UInt8) :
    Found (feedEaten s t ate) rest ↔
      Finds t (ate ++ rest) ∨ ∃ taken, taken <:+ ate ∧ Finds s (taken ++ rest) := by
  induction ate generalizing t with
  | nil =>
    show Finds (t.union s) rest ↔ _
    rw [finds_union]
    refine or_congr_right ⟨fun h => ⟨[], List.suffix_rfl, h⟩, ?_⟩
    rintro ⟨taken, htaken, h⟩
    rwa [List.suffix_nil.1 htaken] at h
  | cons b ate ih =>
    -- a suffix of what was eaten is all of it, or one of the rest
    have hsplit : (Finds t (b :: ate ++ rest) ∨ ∃ taken, taken <:+ b :: ate ∧ Finds s (taken ++ rest)) ↔
        Finds (t.union s) (b :: (ate ++ rest)) ∨ ∃ taken, taken <:+ ate ∧ Finds s (taken ++ rest) := by
      rw [finds_union, or_assoc]
      refine or_congr_right ⟨?_, ?_⟩
      · rintro ⟨taken, htaken, h⟩
        rcases List.suffix_cons_iff.1 htaken with rfl | htaken
        · exact .inl h
        · exact .inr ⟨taken, htaken, h⟩
      · rintro (h | ⟨taken, htaken, h⟩)
        · exact ⟨b :: ate, List.suffix_rfl, h⟩
        · exact ⟨taken, htaken.trans (List.suffix_cons _ _), h⟩
    rw [feedEaten, hsplit, finds_cons]
    by_cases hcolon : ((t.union s).feed b).2 = true
    · rw [if_pos hcolon]
      exact iff_of_true trivial (.inl (.inl hcolon))
    · rw [if_neg hcolon, or_iff_right hcolon]
      exact ih

/-- The readings of a first part, before those of the others. -/
theorem feedPart_spec {run : Run} (part : Part) {parts : List Part} :
    (∃ rest, Reads run parts rest ∧ Found (feedPart run s part) rest) ↔
      ∃ bytes, Reads run (part :: parts) bytes ∧ Finds s bytes := by
  cases part with
  | visible a b =>
    constructor
    · rintro ⟨rest, hrest, hfound⟩
      exact ⟨_, .visible hrest, (feedPiece_spec _ _).1 hfound⟩
    · rintro ⟨_, hreads, hfinds⟩
      cases hreads with
      | visible hrest => exact ⟨_, hrest, (feedPiece_spec _ _).2 hfinds⟩
  | invisible a b =>
    constructor
    · rintro ⟨rest, hrest, hfound⟩
      rcases (feedEaten_spec _ _).1 hfound with hnone | ⟨taken, htaken, hfinds⟩
      · exact absurd hnone not_finds_none
      · exact ⟨_, .invisible htaken hrest, hfinds⟩
    · rintro ⟨_, hreads, hfinds⟩
      cases hreads with
      | invisible htaken hrest => exact ⟨_, hrest, (feedEaten_spec _ _).2 (.inr ⟨_, htaken, hfinds⟩)⟩

/-- Every run has a reading. -/
theorem exists_reads (run : Run) (parts : List Part) : ∃ bytes, Reads run parts bytes := by
  induction parts with
  | nil => exact ⟨[], .nil⟩
  | cons part parts ih =>
    obtain ⟨rest, hrest⟩ := ih
    cases part with
    | visible a b => exact ⟨_, .visible hrest⟩
    | invisible a b => exact ⟨_, .invisible List.suffix_rfl hrest⟩

/-- The pass tells whether a colon is found in a reading. -/
theorem holdsColonFrom_iff {run : Run} (parts : List Part) :
    holdsColonFrom run s parts ↔ ∃ bytes, Reads run parts bytes ∧ Finds s bytes := by
  induction parts generalizing s with
  | nil =>
    refine iff_of_false Bool.false_ne_true ?_
    rintro ⟨_, hreads, hfinds⟩
    cases hreads
    exact not_finds_nil hfinds
  | cons part parts ih =>
    rw [← feedPart_spec, holdsColonFrom]
    cases feedPart run s part with
    | none =>
      obtain ⟨rest, hrest⟩ := exists_reads run parts
      exact iff_of_true rfl ⟨rest, hrest, trivial⟩
    | some s' =>
      show (if s'.isEmpty then false else holdsColonFrom run s' parts) = true ↔ _
      split_ifs with hempty
      · -- every reading is past a character that is none of base64's
        refine iff_of_false not_false ?_
        rintro ⟨_, -, place, prev, hhas, -⟩
        exact States.not_has_of_isEmpty hempty hhas
      · exact ih

theorem finds_start {bytes : List UInt8} : Finds .start bytes ↔ States.colon ∈ decoded bytes := by
  rw [decoded, ← Base64.stream_zero 0]
  constructor
  · rintro ⟨place, prev, hhas, hmem⟩
    obtain ⟨rfl, rfl⟩ := States.has_start.1 hhas
    exact hmem
  · exact fun hmem => ⟨0, 0, States.has_start.2 ⟨rfl, rfl⟩, hmem⟩

end Anthrex.Redact
