import Mathlib.Data.Int.Notation
import Mathlib.Data.Nat.Notation
import Mathlib.Tactic.SplitIfs

/-!
# MessagePack

Values in the MessagePack format, with strings as the keys of maps, and how many bytes each
takes (`length_encode_str_le` and its kin). Numbers and lengths are written in the shortest
form they fit; a length that fits none is written in its last four bytes.
-/

namespace Anthrex.MessagePack

inductive Value
  | nil
  | bool (b : Bool)
  | int (n : ℤ)
  | float (bits : UInt64)
  | str (s : String)
  | array (items : List Value)
  | map (fields : List (String × Value))

/-- The last `k` bytes of a number, the greatest first. -/
def bytes : (k : ℕ) → ℕ → List UInt8
  | 0, _ => []
  | k + 1, n => bytes k (n / 256) ++ [UInt8.ofNat n]

def uint (n : ℕ) : List UInt8 :=
  if n < 0x80 then [UInt8.ofNat n]
  else if n < 0x100 then 0xcc :: bytes 1 n
  else if n < 0x10000 then 0xcd :: bytes 2 n
  else if n < 0x100000000 then 0xce :: bytes 4 n
  else 0xcf :: bytes 8 n

/-- A negative number as its complement. -/
def sint (n : ℤ) : List UInt8 :=
  if 0 ≤ n then uint n.toNat
  else if -0x20 ≤ n then [UInt8.ofNat (n + 0x100).toNat]
  else if -0x80 ≤ n then 0xd0 :: bytes 1 (n + 0x100).toNat
  else if -0x8000 ≤ n then 0xd1 :: bytes 2 (n + 0x10000).toNat
  else if -0x80000000 ≤ n then 0xd2 :: bytes 4 (n + 0x100000000).toNat
  else 0xd3 :: bytes 8 (n + 0x10000000000000000).toNat

def strHeader (n : ℕ) : List UInt8 :=
  if n < 0x20 then [UInt8.ofNat (0xa0 + n)]
  else if n < 0x100 then 0xd9 :: bytes 1 n
  else if n < 0x10000 then 0xda :: bytes 2 n
  else 0xdb :: bytes 4 n

/-- The header of a collection: a marker that holds the length, or one before it. -/
def header (short medium long : UInt8) (n : ℕ) : List UInt8 :=
  if n < 0x10 then [short + UInt8.ofNat n]
  else if n < 0x10000 then medium :: bytes 2 n
  else long :: bytes 4 n

mutual

def encode : Value → List UInt8
  | .nil => [0xc0]
  | .bool b => [if b then 0xc3 else 0xc2]
  | .int n => sint n
  | .float bits => 0xcb :: bytes 8 bits.toNat
  | .str s => strHeader s.utf8ByteSize ++ s.toByteArray.data.toList
  | .array items => header 0x90 0xdc 0xdd items.length ++ encodeItems items
  | .map fields => header 0x80 0xde 0xdf fields.length ++ encodeFields fields

def encodeItems : List Value → List UInt8
  | [] => []
  | item :: items => encode item ++ encodeItems items

def encodeFields : List (String × Value) → List UInt8
  | [] => []
  | (key, item) :: fields => strHeader key.utf8ByteSize ++ key.toByteArray.data.toList ++
      encode item ++ encodeFields fields

end

theorem encode_str (s : String) :
    encode (.str s) = strHeader s.utf8ByteSize ++ s.toByteArray.data.toList := rfl

theorem encode_array (items : List Value) :
    encode (.array items) = header 0x90 0xdc 0xdd items.length ++ encodeItems items := rfl

theorem encode_map (fields : List (String × Value)) :
    encode (.map fields) = header 0x80 0xde 0xdf fields.length ++ encodeFields fields := rfl

theorem encodeItems_cons (item : Value) (items : List Value) :
    encodeItems (item :: items) = encode item ++ encodeItems items := rfl

theorem encodeFields_cons (key : String) (item : Value) (fields : List (String × Value)) :
    encodeFields ((key, item) :: fields) = encode (.str key) ++ encode item ++ encodeFields fields :=
  rfl

/-! ## Sizes -/

/-- How many bytes a value takes. -/
def size (v : Value) : ℕ := (encode v).length

def sizeItems (items : List Value) : ℕ := (encodeItems items).length

def sizeFields (fields : List (String × Value)) : ℕ := (encodeFields fields).length

variable {n k : ℕ} {s : String}

@[simp]
theorem length_bytes : (bytes k n).length = k := by
  induction k generalizing n with
  | zero => rfl
  | succ k ih => rw [bytes, List.length_append, ih, List.length_singleton]

theorem length_uint_le (n : ℕ) : (uint n).length ≤ 9 := by
  rw [uint]
  split_ifs <;> simp

theorem length_sint_le (n : ℤ) : (sint n).length ≤ 9 := by
  rw [sint]
  split_ifs <;> simp [length_uint_le]

theorem length_strHeader_le (n : ℕ) : (strHeader n).length ≤ 5 := by
  rw [strHeader]
  split_ifs <;> simp

theorem length_strHeader (h : n < 0x20) : (strHeader n).length = 1 := by
  rw [strHeader, if_pos h, List.length_singleton]

theorem length_header_le (a b c : UInt8) (n : ℕ) : (header a b c n).length ≤ 5 := by
  rw [header]
  split_ifs <;> simp

theorem length_header (a b c : UInt8) (h : n < 0x10) : (header a b c n).length = 1 := by
  rw [header, if_pos h, List.length_singleton]

theorem length_utf8 (s : String) : s.toByteArray.data.toList.length = s.utf8ByteSize := rfl

@[simp] theorem size_nil : size .nil = 1 := rfl

@[simp] theorem size_bool (b : Bool) : size (.bool b) = 1 := rfl

theorem size_int_le (n : ℤ) : size (.int n) ≤ 9 := length_sint_le n

@[simp]
theorem size_float (bits : UInt64) : size (.float bits) = 9 :=
  congrArg (· + 1) (length_bytes (k := 8))

theorem size_str_le (s : String) : size (.str s) ≤ 5 + s.utf8ByteSize := by
  rw [size, encode_str, List.length_append, length_utf8]
  exact Nat.add_le_add_right (length_strHeader_le _) _

/-- A short text has a header of one byte. -/
theorem size_str (h : s.utf8ByteSize < 0x20) : size (.str s) = 1 + s.utf8ByteSize := by
  rw [size, encode_str, List.length_append, length_utf8, length_strHeader h]

@[simp] theorem sizeItems_nil : sizeItems [] = 0 := rfl

@[simp]
theorem sizeItems_cons (v : Value) (items : List Value) :
    sizeItems (v :: items) = size v + sizeItems items := by
  rw [sizeItems, encodeItems_cons, List.length_append]
  rfl

@[simp] theorem sizeFields_nil : sizeFields [] = 0 := rfl

@[simp]
theorem sizeFields_cons (key : String) (v : Value) (fields : List (String × Value)) :
    sizeFields ((key, v) :: fields) = size (.str key) + size v + sizeFields fields := by
  rw [sizeFields, encodeFields_cons, List.length_append, List.length_append]
  rfl

theorem size_array_le (items : List Value) : size (.array items) ≤ 5 + sizeItems items := by
  rw [size, encode_array, List.length_append]
  exact Nat.add_le_add_right (length_header_le _ _ _ _) _

theorem size_map_le (fields : List (String × Value)) :
    size (.map fields) ≤ 5 + sizeFields fields := by
  rw [size, encode_map, List.length_append]
  exact Nat.add_le_add_right (length_header_le _ _ _ _) _

/-- What the names of a record take. -/
def sizeNames : List (String × Value) → ℕ
  | [] => 0
  | (key, _) :: fields => size (.str key) + sizeNames fields

theorem sizeFields_eq (fields : List (String × Value)) :
    sizeFields fields = sizeNames fields + sizeItems (fields.map Prod.snd) := by
  induction fields with
  | nil => rfl
  | cons field fields ih =>
    obtain ⟨key, v⟩ := field
    rw [sizeFields_cons, ih, sizeNames, List.map_cons, sizeItems_cons]
    dsimp only
    omega

/-- A record of few fields has a header of one byte. -/
theorem size_map {fields : List (String × Value)} (h : fields.length < 0x10) :
    size (.map fields) = 1 + sizeNames fields + sizeItems (fields.map Prod.snd) := by
  rw [size, encode_map, List.length_append, length_header _ _ _ h, Nat.add_assoc, ← sizeFields_eq]
  rfl

end Anthrex.MessagePack
