import Anthrex.Conversation.Summary
import Anthrex.Data.Cuts

/-!
# JSON texts

The compact encoding of a JSON value, and what the strings in it take: a value is as long as it
is with all its strings emptied, and what their characters are escaped to (`encodedLen_eq`).
-/

namespace Anthrex.Conversation

open Cuts

/-- The bytes of a text. -/
def byteLen : List Char → ℕ
  | [] => 0
  | c :: l => c.utf8Size + byteLen l

/-- A character as it stands in a JSON string. -/
def escapeJson (c : Char) : List Char :=
  if c = '\x22' then ['\\', '\x22']
  else if c = '\\' then ['\\', '\\']
  else if c = '\x08' then ['\\', 'b']
  else if c = '\x0c' then ['\\', 'f']
  else if c = '\n' then ['\\', 'n']
  else if c = '\r' then ['\\', 'r']
  else if c = '\t' then ['\\', 't']
  else if c.toNat < 0x20 then
    ['\\', 'u', '0', '0', (c.toNat / 16).digitChar, (c.toNat % 16).digitChar]
  else [c]

def escaped (s : String) : List Char := s.toList.flatMap escapeJson

def quoted (s : String) : List Char := '\x22' :: escaped s ++ ['\x22']

namespace Json

mutual

def encode : Json → List Char
  | null => "null".toList
  | bool b => if b then "true".toList else "false".toList
  | number (.int n) => (toString n).toList
  | number (.float text) => text.toList
  | string s => quoted s
  | array items => '[' :: [','].intercalate (encodeItems items) ++ [']']
  | object fields => '\x7b' :: [','].intercalate (encodeFields fields) ++ ['\x7d']

def encodeItems : List Json → List (List Char)
  | [] => []
  | item :: items => encode item :: encodeItems items

def encodeFields : List (String × Json) → List (List Char)
  | [] => []
  | (key, item) :: fields => (quoted key ++ ':' :: encode item) :: encodeFields fields

end

def encodedLen (v : Json) : ℕ := byteLen (encode v)

mutual

/-- The strings in a value that are not empty, depth first. -/
def leaves : Json → List String
  | string s => if s = "" then [] else [s]
  | array items => leavesItems items
  | object fields => leavesFields fields
  | null | bool _ | number _ => []

def leavesItems : List Json → List String
  | [] => []
  | item :: items => leaves item ++ leavesItems items

def leavesFields : List (String × Json) → List String
  | [] => []
  | (_, item) :: fields => leaves item ++ leavesFields fields

end

mutual

/-- The value with all its strings emptied. -/
def skeleton : Json → Json
  | string _ => string ""
  | array items => array (skeletonItems items)
  | object fields => object (skeletonFields fields)
  | null => null
  | bool b => bool b
  | number n => number n

def skeletonItems : List Json → List Json
  | [] => []
  | item :: items => skeleton item :: skeletonItems items

def skeletonFields : List (String × Json) → List (String × Json)
  | [] => []
  | (key, item) :: fields => (key, skeleton item) :: skeletonFields fields

end

end Json

open Json

/-- What the characters of a string take in an encoding. -/
def escapedLen (s : String) : ℕ := byteLen (escaped s)

/-- A string cut to `n` bytes, whole characters of them. -/
def cutBytes (n : ℕ) (s : String) : String := String.ofList (takeBytes n s.toList)

variable {s t : String} {v w : Json} {l l' : List Char} {n : ℕ}

/-! ## Lengths of texts -/

@[simp] theorem byteLen_nil : byteLen [] = 0 := rfl

@[simp] theorem byteLen_cons (c : Char) (l : List Char) : byteLen (c :: l) = c.utf8Size + byteLen l :=
  rfl

@[simp]
theorem byteLen_append (l l' : List Char) : byteLen (l ++ l') = byteLen l + byteLen l' := by
  induction l with
  | nil => exact (Nat.zero_add _).symm
  | cons c l ih => rw [List.cons_append, byteLen_cons, byteLen_cons, ih, Nat.add_assoc]

theorem takeBytes_cons (n : ℕ) (c : Char) (l : List Char) : takeBytes n (c :: l) =
    if c.utf8Size ≤ n then c :: takeBytes (n - c.utf8Size) l else [] := rfl

theorem utf8ByteSize_ofList (l : List Char) : (String.ofList l).utf8ByteSize = byteLen l := by
  induction l with
  | nil => rfl
  | cons c l ih =>
    rw [String.ofList_cons, String.utf8ByteSize_append, String.utf8ByteSize_singleton, ih, byteLen_cons]

theorem byteLen_toList (s : String) : byteLen s.toList = s.utf8ByteSize := by
  rw [← utf8ByteSize_ofList, String.ofList_toList]

theorem byteLen_takeBytes_le (n : ℕ) (l : List Char) : byteLen (takeBytes n l) ≤ n := by
  induction l generalizing n with
  | nil => exact Nat.zero_le _
  | cons c l ih =>
    rw [takeBytes_cons]
    split <;> rename_i hc
    · have := ih (n - c.utf8Size)
      rw [byteLen_cons]
      omega
    · exact Nat.zero_le _

theorem takeBytes_byteLen (l : List Char) : takeBytes (byteLen l) l = l := by
  induction l with
  | nil => rfl
  | cons c l ih =>
    rw [byteLen_cons, takeBytes_cons, if_pos (Nat.le_add_right _ _), Nat.add_sub_cancel_left, ih]

theorem utf8Size_le_escapeJson (c : Char) : c.utf8Size ≤ byteLen (escapeJson c) := by
  have hfour : ∀ l, 4 ≤ byteLen ('\\' :: 'u' :: '0' :: '0' :: l) := fun l =>
    show 4 ≤ 1 + (1 + (1 + (1 + byteLen l))) by omega
  unfold escapeJson
  split_ifs with h₁ h₂ h₃ h₄ h₅ h₆ h₇ h₈
  · subst h₁; decide
  · subst h₂; decide
  · subst h₃; decide
  · subst h₄; decide
  · subst h₅; decide
  · subst h₆; decide
  · subst h₇; decide
  · exact c.utf8Size_le_four.trans (hfour _)
  · exact Nat.le_add_right _ _

/-- What is cut off takes at least its own bytes. -/
theorem byteLen_escape_takeBytes (n : ℕ) (l : List Char) :
    byteLen ((takeBytes n l).flatMap escapeJson) + (byteLen l - n) ≤
      byteLen (l.flatMap escapeJson) := by
  induction l generalizing n with
  | nil => simp [takeBytes]
  | cons c l ih =>
    have hc := utf8Size_le_escapeJson c
    rw [takeBytes_cons, List.flatMap_cons, byteLen_append, byteLen_cons]
    split <;> rename_i hfits
    · have := ih (n - c.utf8Size)
      rw [List.flatMap_cons, byteLen_append]
      omega
    · have := ih 0
      have hnone : byteLen ((takeBytes 0 l).flatMap escapeJson) = 0 := by
        cases l with
        | nil => rfl
        | cons d l => rw [takeBytes_cons, if_neg (Nat.not_le.2 d.utf8Size_pos)]; rfl
      rw [List.flatMap_nil, byteLen_nil]
      omega

theorem cutBytes_lawful : Lawful String.utf8ByteSize escapedLen cutBytes where
  len_cut n s := by
    rw [cutBytes, utf8ByteSize_ofList]
    exact byteLen_takeBytes_le n _
  cost_cut n s := by
    have := byteLen_escape_takeBytes n s.toList
    rw [byteLen_toList] at this
    rwa [escapedLen, escapedLen, escaped, escaped, cutBytes, String.toList_ofList]
  cut_len s := by rw [cutBytes, ← byteLen_toList, takeBytes_byteLen, String.ofList_toList]

/-! ## Lengths of values -/

theorem byteLen_quoted (s : String) : byteLen (quoted s) = 2 + escapedLen s := by
  rw [quoted, List.cons_append, byteLen_cons, byteLen_append, escapedLen]
  show 1 + (_ + 1) = _
  omega

theorem byteLen_intercalate (texts : List (List Char)) :
    byteLen ([','].intercalate texts) = (texts.map byteLen).sum + (texts.length - 1) := by
  induction texts with
  | nil => rfl
  | cons l texts ih =>
    cases texts with
    | nil => rw [List.intercalate_singleton]; simp
    | cons l' texts =>
      rw [List.intercalate_cons_cons, byteLen_append, byteLen_append, ih]
      simp only [List.map_cons, List.sum_cons, List.length_cons]
      have hcomma : byteLen [','] = 1 := rfl
      omega

theorem encodedLen_string (s : String) : encodedLen (.string s) = 2 + escapedLen s := byteLen_quoted s

theorem encodedLen_array (items : List Json) :
    encodedLen (.array items) =
      2 + ((encodeItems items).map byteLen).sum + ((encodeItems items).length - 1) := by
  rw [encodedLen, encode, List.cons_append, byteLen_cons, byteLen_append, byteLen_intercalate]
  show 1 + (_ + 1) = _
  omega

theorem encodedLen_object (fields : List (String × Json)) :
    encodedLen (.object fields) =
      2 + ((encodeFields fields).map byteLen).sum + ((encodeFields fields).length - 1) := by
  rw [encodedLen, encode, List.cons_append, byteLen_cons, byteLen_append, byteLen_intercalate]
  show 1 + (_ + 1) = _
  omega

theorem length_skeletonItems (items : List Json) :
    (encodeItems (skeletonItems items)).length = (encodeItems items).length := by
  induction items with
  | nil => rfl
  | cons item items ih => rw [skeletonItems, encodeItems, encodeItems, List.length_cons, ih, List.length_cons]

theorem length_skeletonFields (fields : List (String × Json)) :
    (encodeFields (skeletonFields fields)).length = (encodeFields fields).length := by
  induction fields with
  | nil => rfl
  | cons field fields ih =>
    rw [skeletonFields, encodeFields, encodeFields, List.length_cons, ih, List.length_cons]

mutual

theorem encodedLen_eq (v : Json) :
    encodedLen v = encodedLen (skeleton v) + ((leaves v).map escapedLen).sum := by
  match v with
  | .null | .bool _ | .number _ => simp [skeleton, leaves]
  | .string s =>
    rw [skeleton, leaves, encodedLen_string, encodedLen_string]
    split <;> rename_i hs
    · rw [hs]; rfl
    · simp [escapedLen, escaped]
  | .array items =>
    rw [skeleton, leaves, encodedLen_array, encodedLen_array, encodedLen_items items,
      length_skeletonItems]
    omega
  | .object fields =>
    rw [skeleton, leaves, encodedLen_object, encodedLen_object, encodedLen_fields fields,
      length_skeletonFields]
    omega

theorem encodedLen_items (items : List Json) :
    ((encodeItems items).map byteLen).sum =
      ((encodeItems (skeletonItems items)).map byteLen).sum +
        ((leavesItems items).map escapedLen).sum := by
  match items with
  | [] => rfl
  | item :: items =>
    have hitem := encodedLen_eq item
    have hitems := encodedLen_items items
    rw [encodedLen, encodedLen] at hitem
    rw [skeletonItems, leavesItems, encodeItems, encodeItems, List.map_cons, List.sum_cons,
      List.map_cons, List.sum_cons, List.map_append, List.sum_append]
    omega

theorem encodedLen_fields (fields : List (String × Json)) :
    ((encodeFields fields).map byteLen).sum =
      ((encodeFields (skeletonFields fields)).map byteLen).sum +
        ((leavesFields fields).map escapedLen).sum := by
  match fields with
  | [] => rfl
  | (key, item) :: fields =>
    have hitem := encodedLen_eq item
    have hitems := encodedLen_fields fields
    rw [encodedLen, encodedLen] at hitem
    rw [skeletonFields, leavesFields, encodeFields, encodeFields, List.map_cons, List.sum_cons,
      List.map_cons, List.sum_cons, List.map_append, List.sum_append, byteLen_append, byteLen_append,
      byteLen, byteLen]
    omega

end

mutual

/-- A value with nothing to cut in it. -/
theorem skeleton_eq_self (v : Json) (h : leaves v = []) : skeleton v = v := by
  match v with
  | .null | .bool _ | .number _ => rfl
  | .string s =>
    rw [leaves] at h
    split at h <;> rename_i hs
    · rw [hs]; rfl
    · cases h
  | .array items => rw [skeleton, skeletonItems_eq_self items h]
  | .object fields => rw [skeleton, skeletonFields_eq_self fields h]

theorem skeletonItems_eq_self (items : List Json) (h : leavesItems items = []) :
    skeletonItems items = items := by
  match items with
  | [] => rfl
  | item :: items =>
    obtain ⟨hitem, hitems⟩ := List.append_eq_nil_iff.1 h
    rw [skeletonItems, skeleton_eq_self item hitem, skeletonItems_eq_self items hitems]

theorem skeletonFields_eq_self (fields : List (String × Json)) (h : leavesFields fields = []) :
    skeletonFields fields = fields := by
  match fields with
  | [] => rfl
  | (key, item) :: fields =>
    obtain ⟨hitem, hitems⟩ := List.append_eq_nil_iff.1 h
    rw [skeletonFields, skeleton_eq_self item hitem, skeletonFields_eq_self fields hitems]

end

end Anthrex.Conversation
