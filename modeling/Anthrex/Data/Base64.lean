import Mathlib.Data.Nat.Bitwise

/-!
# Base64

The bytes that sixes of bits make, four for three bytes, an incomplete last group's finished bytes
included (`decode`); and the same one by one, by a decoder that knows its place in a group and the
six bits before (`stream`).
-/

namespace Anthrex.Base64

/-- Each group of four sixes is three bytes. -/
def decode : List ℕ → List ℕ
  | a :: b :: c :: d :: rest =>
    (a * 4 + b / 16) :: (b % 16 * 16 + c / 4) :: (c % 4 * 64 + d) :: decode rest
  | [a, b, c] => [a * 4 + b / 16, b % 16 * 16 + c / 4]
  | [a, b] => [a * 4 + b / 16]
  | _ => []

/-- The byte that six bits complete, at a place of a group and after other six. -/
def completed (place prev v : ℕ) : Option ℕ :=
  match place with
  | 1 => some (prev * 4 + v / 16)
  | 2 => some (prev % 16 * 16 + v / 4)
  | 3 => some (prev % 4 * 64 + v)
  | _ => none

/-- The bytes that sixes complete, from a place of a group on. -/
def stream (place prev : ℕ) : List ℕ → List ℕ
  | [] => []
  | v :: rest => (completed place prev v).toList ++ stream ((place + 1) % 4) v rest

/-- At the start of a group what was before does not count. -/
theorem stream_zero (prev : ℕ) (sixes : List ℕ) : stream 0 prev sixes = decode sixes := by
  induction sixes using decode.induct generalizing prev with
  | case1 a b c d rest ih =>
    rw [decode, ← ih d]
    rfl
  | case2 a b c => rfl
  | case3 a b => rfl
  | case4 sixes hfour hthree htwo =>
    rcases sixes with _ | ⟨a, _ | ⟨b, _ | ⟨c, _ | ⟨d, rest⟩⟩⟩⟩
    · rfl
    · rfl
    · exact absurd rfl (htwo a b)
    · exact absurd rfl (hthree a b c)
    · exact absurd rfl (hfour a b c d rest)

/-! ## In bits -/

theorem shiftLeft_or {i b : ℕ} (a : ℕ) (hb : b < 2 ^ i) : a <<< i ||| b = a * 2 ^ i + b := by
  rw [← Nat.shiftLeft_add_eq_or_of_lt hb, Nat.shiftLeft_eq]

theorem first_eq {prev v : ℕ} (hv : v < 64) : prev <<< 2 ||| v >>> 4 = prev * 4 + v / 16 := by
  rw [Nat.shiftRight_eq_div_pow]
  exact shiftLeft_or prev (by omega)

theorem second_eq {prev v : ℕ} (hv : v < 64) :
    (prev &&& 15) <<< 4 ||| v >>> 2 = prev % 16 * 16 + v / 4 := by
  rw [Nat.shiftRight_eq_div_pow, show prev &&& 15 = prev % 16 from Nat.and_two_pow_sub_one_eq_mod prev 4]
  exact shiftLeft_or _ (by omega)

theorem third_eq {prev v : ℕ} (hv : v < 64) : (prev &&& 3) <<< 6 ||| v = prev % 4 * 64 + v := by
  rw [show prev &&& 3 = prev % 4 from Nat.and_two_pow_sub_one_eq_mod prev 2]
  exact shiftLeft_or _ (by omega)

end Anthrex.Base64
