import Anthrex.Conversation.Encoding

/-!
# The bound on a tool's response

What a hook carries of a tool's response (`bound_tool_response_value` of
`proto/src/conversation.rs`). An object that is too long is built again key by key, `error` and
`success` first, each value cut at its longest strings until the whole fits. Only the values of
other keys are dropped. So an error may take all the room there is, and a `success` after it does
not fit however it is cut (`bound_error_only`); every other response keeps its verdict and its
bound (`keeps_iff_roomy`).
-/

namespace Anthrex.Conversation

open Cuts Json

def toolResultSummaryMax : ℕ := 4 * 1024

/-- A string of a value, and the value with another in its place. -/
abbrev Leaf (α : Type) : Type := String × (String → α)

/-- The longer leaf of two parts of a value, the last of equals. -/
def longer {α β γ : Type} (join : α → β → γ) (a : α) (b : β) :
    Option (Leaf α) → Option (Leaf β) → Option (Leaf γ)
  | none, none => none
  | some (s, put), none => some (s, fun x => join (put x) b)
  | none, some (t, put) => some (t, fun x => join a (put x))
  | some (s, put), some (t, put') =>
    if s.utf8ByteSize ≤ t.utf8ByteSize then some (t, fun x => join a (put' x))
    else some (s, fun x => join (put x) b)

mutual

/-- The longest string in a value, if one is not empty. -/
def largestStringLeaf : Json → Option (Leaf Json)
  | .string s => if s = "" then none else some (s, .string)
  | .array items => (largestOfItems items).map fun leaf => (leaf.1, fun x => .array (leaf.2 x))
  | .object fields => (largestOfFields fields).map fun leaf => (leaf.1, fun x => .object (leaf.2 x))
  | .null | .bool _ | .number _ => none

def largestOfItems : List Json → Option (Leaf (List Json))
  | [] => none
  | item :: items => longer List.cons item items (largestStringLeaf item) (largestOfItems items)

def largestOfFields : List (String × Json) → Option (Leaf (List (String × Json)))
  | [] => none
  | (key, item) :: fields =>
    longer (fun item fields => (key, item) :: fields) item fields (largestStringLeaf item)
      (largestOfFields fields)

end

/-- A string, an array or an object: what a value is once it was cut. -/
def Composite : Json → Prop
  | .string _ | .array _ | .object _ => True
  | .null | .bool _ | .number _ => False

/-! ## The longest string -/

variable {α β γ σ τ ρ : Type} {leaves : α → List String} {shape : α → σ} {a : α} {b : β} {s : String}
  {put : String → α} {v w : Json}

/-- The string `s` is the longest of `leaves a`, the last of equals, and another in its place
    changes nothing else. -/
structure Longest (leaves : α → List String) (shape : α → σ) (a : α) (s : String)
    (put : String → α) : Prop where
  ne_empty : s ≠ ""
  place : ∃ before after, leaves a = before ++ s :: after ∧
    (∀ b ∈ before, b.utf8ByteSize ≤ s.utf8ByteSize) ∧
    (∀ b ∈ after, b.utf8ByteSize < s.utf8ByteSize) ∧
    ∀ x, leaves (put x) = before ++ Json.leaves (.string x) ++ after
  shape : ∀ x, shape (put x) = shape a

def Found (leaves : α → List String) (shape : α → σ) (a : α) : Option (Leaf α) → Prop
  | none => leaves a = []
  | some (s, put) => Longest leaves shape a s put

theorem Found.longer {join : α → β → γ} {leavesB : β → List String} {leavesC : γ → List String}
    {shapeB : β → τ} {shapeC : γ → ρ} {x : Option (Leaf α)} {y : Option (Leaf β)}
    (hx : Found leaves shape a x) (hy : Found leavesB shapeB b y)
    (hleaves : ∀ a b, leavesC (join a b) = leaves a ++ leavesB b)
    (hshape : ∀ {a b a' b'}, shape a = shape a' → shapeB b = shapeB b' →
      shapeC (join a b) = shapeC (join a' b')) :
    Found leavesC shapeC (join a b) (Conversation.longer join a b x y) := by
  -- the longest of the first part
  have hfirst : ∀ {s put}, Longest leaves shape a s put →
      (∀ t ∈ leavesB b, t.utf8ByteSize < s.utf8ByteSize) →
      Longest leavesC shapeC (join a b) s fun x => join (put x) b := by
    rintro s put ⟨hne, ⟨before, after, heq, hbefore, hafter, hput⟩, hsame⟩ hless
    refine ⟨hne, ⟨before, after ++ leavesB b, ?_, hbefore, ?_, fun x => ?_⟩,
      fun x => hshape (hsame x) rfl⟩
    · rw [hleaves, heq, List.append_assoc, List.cons_append]
    · exact List.forall_mem_append.2 ⟨hafter, hless⟩
    · rw [hleaves, hput, List.append_assoc _ after]
  -- and of the second
  have hsecond : ∀ {t put}, Longest leavesB shapeB b t put →
      (∀ s ∈ leaves a, s.utf8ByteSize ≤ t.utf8ByteSize) →
      Longest leavesC shapeC (join a b) t fun x => join a (put x) := by
    rintro t put ⟨hne, ⟨before, after, heq, hbefore, hafter, hput⟩, hsame⟩ hless
    refine ⟨hne, ⟨leaves a ++ before, after, ?_, ?_, hafter, fun x => ?_⟩,
      fun x => hshape rfl (hsame x)⟩
    · rw [hleaves, heq, List.append_assoc]
    · exact List.forall_mem_append.2 ⟨hless, hbefore⟩
    · rw [hleaves, hput, List.append_assoc, List.append_assoc, List.append_assoc]
  match x, y with
  | none, none =>
    show leavesC _ = []
    rw [hleaves, show leaves a = [] from hx, show leavesB b = [] from hy, List.nil_append]
  | some (s, put), none =>
    refine hfirst hx fun t ht => ?_
    rw [show leavesB b = [] from hy] at ht
    cases ht
  | none, some (t, put) =>
    refine hsecond hy fun s hs => ?_
    rw [show leaves a = [] from hx] at hs
    cases hs
  | some (s, put), some (t, put') =>
    have hx' : Longest leaves shape a s put := hx
    have hy' : Longest leavesB shapeB b t put' := hy
    obtain ⟨before, after, heq, hbefore, hafter, -⟩ := hx'.place
    obtain ⟨before', after', heq', hbefore', hafter', -⟩ := hy'.place
    rw [Conversation.longer]
    split <;> rename_i hle
    · refine hsecond hy' ?_
      rw [heq]
      refine List.forall_mem_append.2 ⟨fun b hb => (hbefore b hb).trans hle,
        List.forall_mem_cons.2 ⟨hle, fun b hb => (hafter b hb).le.trans hle⟩⟩
    · refine hfirst hx' ?_
      rw [heq']
      exact List.forall_mem_append.2 ⟨fun b hb => (hbefore' b hb).trans_lt (Nat.not_le.1 hle),
        List.forall_mem_cons.2 ⟨Nat.not_le.1 hle, fun b hb => (hafter' b hb).trans (Nat.not_le.1 hle)⟩⟩

theorem Found.map {leavesB : β → List String} {shapeB : β → τ} {f : α → β} {x : Option (Leaf α)}
    (h : Found leaves shape a x) (hleaves : ∀ a, leavesB (f a) = leaves a)
    (hshape : ∀ {a a'}, shape a = shape a' → shapeB (f a) = shapeB (f a')) :
    Found leavesB shapeB (f a) (x.map fun leaf => (leaf.1, fun t => f (leaf.2 t))) := by
  match x with
  | none => exact (hleaves a).trans h
  | some (s, put) =>
    obtain ⟨hne, ⟨before, after, heq, hbefore, hafter, hput⟩, hsame⟩ := (h : Longest leaves shape a s put)
    exact ⟨hne, ⟨before, after, (hleaves a).trans heq, hbefore, hafter, fun x => (hleaves _).trans (hput x)⟩,
      fun x => hshape (hsame x)⟩

mutual

theorem found_largestStringLeaf (v : Json) : Found Json.leaves skeleton v (largestStringLeaf v) := by
  match v with
  | .null | .bool _ | .number _ => rfl
  | .string s =>
    rw [largestStringLeaf]
    split <;> rename_i hs
    · rw [hs]
      rfl
    · exact ⟨hs, ⟨[], [], if_neg hs, nofun, nofun, fun x => (List.append_nil _).symm⟩, fun _ => rfl⟩
  | .array items =>
    exact (found_largestOfItems items).map (fun _ => rfl) fun h => congrArg Json.array h
  | .object fields =>
    exact (found_largestOfFields fields).map (fun _ => rfl) fun h => congrArg Json.object h

theorem found_largestOfItems (items : List Json) :
    Found leavesItems skeletonItems items (largestOfItems items) := by
  match items with
  | [] => rfl
  | item :: items =>
    refine (found_largestStringLeaf item).longer (found_largestOfItems items) (fun _ _ => rfl)
      fun h h' => ?_
    rw [skeletonItems, skeletonItems, h, h']

theorem found_largestOfFields (fields : List (String × Json)) :
    Found leavesFields skeletonFields fields (largestOfFields fields) := by
  match fields with
  | [] => rfl
  | (key, item) :: fields =>
    refine (found_largestStringLeaf item).longer (found_largestOfFields fields) (fun _ _ => rfl)
      fun h h' => ?_
    rw [skeletonFields, skeletonFields, h, h']

end

/-! ## Keys that are inserted -/

def leafBytes (v : Json) : ℕ := ((Json.leaves v).map String.utf8ByteSize).sum

def kind (v : Json) : ℕ := if v.asStr.isSome then 0 else 1

theorem leafBytes_string (s : String) : leafBytes (.string s) = s.utf8ByteSize := by
  rw [leafBytes, Json.leaves]
  split <;> rename_i hs
  · rw [hs]
    rfl
  · rfl

theorem Longest.leafBytes_lt {put : String → Json} (h : Longest Json.leaves skeleton v s put)
    {x : String} (hx : x.utf8ByteSize < s.utf8ByteSize) : leafBytes (put x) < leafBytes v := by
  obtain ⟨before, after, heq, -, -, hput⟩ := h.place
  have hleaf := leafBytes_string x
  rw [leafBytes] at hleaf
  rw [leafBytes, leafBytes, heq, hput]
  simp only [List.map_append, List.sum_append, List.map_cons, List.sum_cons, hleaf]
  omega

theorem utf8ByteSize_pos (hs : s ≠ "") : 0 < s.utf8ByteSize :=
  Nat.pos_of_ne_zero fun h => hs (String.utf8ByteSize_eq_zero_iff.1 h)

theorem longest_of_largestStringLeaf {leaf : Leaf Json} (h : largestStringLeaf v = some leaf) :
    Longest Json.leaves skeleton v leaf.1 leaf.2 := by
  have hfound := found_largestStringLeaf v
  rwa [h] at hfound

/-- A cut shortens the longest string of a value, and leaves a string a string. -/
theorem cut_decreases {leaf : Leaf Json} (h : largestStringLeaf v = some leaf) {excess : ℕ}
    (hexcess : 0 < excess) :
    leafBytes (leaf.2 (cutBytes (leaf.1.utf8ByteSize - excess) leaf.1)) < leafBytes v ∧
      kind (leaf.2 (cutBytes (leaf.1.utf8ByteSize - excess) leaf.1)) = kind v ∧
      Composite (leaf.2 (cutBytes (leaf.1.utf8ByteSize - excess) leaf.1)) := by
  have hlongest := longest_of_largestStringLeaf h
  have hpos := utf8ByteSize_pos hlongest.ne_empty
  have hlen := cutBytes_lawful.len_cut (leaf.1.utf8ByteSize - excess) leaf.1
  refine ⟨hlongest.leafBytes_lt (by omega), ?_⟩
  cases v with
  | null => cases h
  | bool => cases h
  | number => cases h
  | string s =>
    rw [largestStringLeaf] at h
    split at h
    · cases h
    · cases h
      exact ⟨rfl, trivial⟩
  | array items =>
    obtain ⟨leaf, -, rfl⟩ := Option.map_eq_some_iff.1 h
    exact ⟨rfl, trivial⟩
  | object fields =>
    obtain ⟨leaf, -, rfl⟩ := Option.map_eq_some_iff.1 h
    exact ⟨rfl, trivial⟩

/-- An object that is built again, and whether a value of it is no longer what it was. -/
structure Rebuilt where
  result : SortedMap String Json
  truncated : Bool

/-- The key with its value cut until the whole fits, and whether it is there. -/
def insertShrinking (result : SortedMap String Json) (key : String) (allowDrop : Bool) (value : Json)
    (truncated : Bool) : Rebuilt × Bool :=
  let whole := result.insert key value
  let current := encodedLen (.object whole.entries)
  if hfits : current ≤ toolResultSummaryMax then (⟨whole, truncated⟩, true)
  else
    let overage := current - toolResultSummaryMax
    match hleaf : largestStringLeaf value with
    | some leaf =>
      insertShrinking result key allowDrop
        (leaf.2 (cutBytes (leaf.1.utf8ByteSize - overage) leaf.1)) true
    | none =>
      if allowDrop then (⟨whole.erase key, true⟩, false)
      else if hstring : value.asStr.isSome then (⟨whole, true⟩, true)
      else insertShrinking result key allowDrop (.string (String.ofList (encode value))) true
termination_by (kind value, leafBytes value)
decreasing_by
  · obtain ⟨hless, hkind, -⟩ := cut_decreases hleaf (Nat.sub_pos_of_lt (Nat.not_le.1 hfits))
    rw [hkind]
    exact Prod.Lex.right _ hless
  · refine Prod.Lex.left _ _ ?_
    rw [kind, kind, if_neg hstring]
    exact Nat.zero_lt_one

/-- A key that is not dropped: `error` or `success`. -/
def insertKey (fields : List (String × Json)) (r : Rebuilt) (key : String) : Rebuilt :=
  (fields.lookup key).elim r fun value => (insertShrinking r.result key false value r.truncated).1

/-- The object with the keys of the verdict, before any other. -/
def verdictOf (fields : List (String × Json)) : Rebuilt :=
  ["error", "success"].foldl (insertKey fields) ⟨.empty, false⟩

/-- The other keys, up to the first that does not fit. -/
def insertRest : List (String × Json) → Rebuilt → Rebuilt
  | [], r => r
  | (key, value) :: fields, r =>
    if key = "error" || key = "success" then insertRest fields r
    else
      let inserted := insertShrinking r.result key true value r.truncated
      if inserted.2 then insertRest fields inserted.1 else inserted.1

def boundObject (fields : List (String × Json)) : Json × Bool × Bool :=
  if encodedLen (.object fields) ≤ toolResultSummaryMax then (.object fields, false, false)
  else
    let r := insertRest fields (verdictOf fields)
    (.object r.result.entries, r.truncated, false)

/-- The value within the bound, whether it was truncated, and whether it became a text. -/
def boundToolResponseValue : Json → Json × Bool × Bool
  | .string s =>
    if s.utf8ByteSize ≤ toolResultSummaryMax then (.string s, false, false)
    else (.string (cutBytes toolResultSummaryMax s), true, false)
  | .object fields => boundObject fields
  | other =>
    let encoded := String.ofList (encode other)
    if encoded.utf8ByteSize ≤ toolResultSummaryMax then (other, false, false)
    else (.string (cutBytes toolResultSummaryMax encoded), true, true)

/-! ## What is kept -/

/-- The bytes that are bounded: the content of a string, the encoding of anything else. -/
def responseLen : Json → ℕ
  | .string s => s.utf8ByteSize
  | other => encodedLen other

/-- The keys of an object, and none of anything else. -/
def fieldsOf (v : Json) : List (String × Json) := v.asObject.getD []

/-- What the bound keeps of a value. -/
structure Keeps (v : Json) : Prop where
  size : responseLen (boundToolResponseValue v).1 ≤ toolResultSummaryMax
  object : v.asObject.isSome → (boundToolResponseValue v).1.asObject.isSome
  ok : responseIsOk (boundToolResponseValue v).1 = responseIsOk v
  keys : ∀ key ∈ (fieldsOf (boundToolResponseValue v).1).map (·.1), key ∈ (fieldsOf v).map (·.1)
  verdict : ∀ key ∈ ["error", "success"], key ∈ (fieldsOf v).map (·.1) →
    key ∈ (fieldsOf (boundToolResponseValue v).1).map (·.1)
  failed : (fieldsOf v).lookup "success" = some (.bool false) →
    (fieldsOf (boundToolResponseValue v).1).lookup "success" = some (.bool false)
  truncated : (boundToolResponseValue v).2.1 = false ↔ (boundToolResponseValue v).1 = v
  again : boundToolResponseValue (boundToolResponseValue v).1 = ((boundToolResponseValue v).1, false, false)

/-- The keys of an object stand in order. -/
def Sorted (v : Json) : Prop := (fieldsOf v).Pairwise (·.1 < ·.1)

instance (v : Json) : Decidable (Sorted v) := inferInstanceAs (Decidable (List.Pairwise _ _))

/-- The length of a value once its strings were cut to take off what it has over `room`. -/
def cutOnce (room : ℕ) (v : Json) : ℕ :=
  encodedLen v - taken String.utf8ByteSize escapedLen cutBytes (encodedLen v - room)
    (longestFirst String.utf8ByteSize (Json.leaves v))

/-- The length of a value that is cut to `room` bytes: at its strings, or else as the text of what
    is left of it. -/
def cutLen (room : ℕ) (v : Json) : ℕ :=
  if cutOnce room v ≤ room then cutOnce room v
  else cutOnce room (.string (String.ofList (encode (skeleton v))))

/-- There is room for `success` beside `error`, the error cut to what fits alone: for the success as
    it is, or emptied if it is not `false`. -/
def RoomFor (fields : List (String × Json)) : Prop :=
  ∀ error ∈ fields.lookup "error", ∀ success ∈ fields.lookup "success",
    let used := 10 + cutLen (toolResultSummaryMax - 10) error
    used + 11 + encodedLen success ≤ toolResultSummaryMax ∨
      success ≠ .bool false ∧ used + 13 ≤ toolResultSummaryMax

/-- An object that is too long has room for its verdict. -/
def Roomy (v : Json) : Prop :=
  v.asObject.isSome → toolResultSummaryMax < encodedLen v → RoomFor (fieldsOf v)

/-! ## Lengths of what is built -/

variable {result : SortedMap String Json} {key : String} {allowDrop truncated : Bool} {room : ℕ}
  {r : Rebuilt} {fields : List (String × Json)}

/-- The length of the object, with a value in it. -/
def lenWith (result : SortedMap String Json) (key : String) (v : Json) : ℕ :=
  encodedLen (.object (result.insert key v).entries)

/-- What the object takes beside the value of a new key. -/
def frame (result : SortedMap String Json) (key : String) : ℕ :=
  encodedLen (.object result.entries) + (if result.entries = [] then 0 else 1) + 1 +
    byteLen (quoted key)

theorem encodeFields_eq (fields : List (String × Json)) :
    encodeFields fields = fields.map fun e => quoted e.1 ++ ':' :: encode e.2 := by
  induction fields with
  | nil => rfl
  | cons e fields ih => rw [encodeFields, ih, List.map_cons]

theorem lenWith_eq (h : result.get? key = none) (v : Json) :
    lenWith result key v = frame result key + encodedLen v := by
  have hperm := SortedMap.perm_insert (m := result) (k := key) (v := v)
  rw [SortedMap.erase_eq_self h] at hperm
  have hfields := hperm.map fun e : String × Json => quoted e.1 ++ ':' :: encode e.2
  rw [← encodeFields_eq, ← encodeFields_eq] at hfields
  have hsum := (hfields.map byteLen).sum_eq
  have hlength := hfields.length_eq
  have hkey : byteLen (quoted key ++ ':' :: encode v) = byteLen (quoted key) + (1 + encodedLen v) := by
    rw [byteLen_append]
    rfl
  rw [encodeFields, List.map_cons, List.sum_cons, hkey] at hsum
  rw [encodeFields, List.length_cons, encodeFields_eq, encodeFields_eq, List.length_map,
    List.length_map] at hlength
  rw [lenWith, frame, encodedLen_object, encodedLen_object, hsum, encodeFields_eq, encodeFields_eq,
    List.length_map, List.length_map, hlength]
  split <;> rename_i hempty
  · rw [hempty]
    simp only [List.length_nil]
    omega
  · have := List.length_pos_iff.2 hempty
    omega

theorem two_le_encodedLen (h : Composite v) : 2 ≤ encodedLen v := by
  match v with
  | .string s =>
    rw [encodedLen_string]
    omega
  | .array items =>
    rw [encodedLen_array]
    omega
  | .object fields =>
    rw [encodedLen_object]
    omega

theorem encodedLen_empty : encodedLen (.string "") = 2 := rfl

/-! ## Cuts of one value -/

/-- What a cut of the longest string leaves is cut as the whole value is. -/
theorem cutOnce_cut {leaf : Leaf Json} (h : largestStringLeaf v = some leaf)
    (hlong : room < encodedLen v) :
    cutOnce room (leaf.2 (cutBytes (leaf.1.utf8ByteSize - (encodedLen v - room)) leaf.1)) =
      cutOnce room v := by
  have hlongest := longest_of_largestStringLeaf h
  obtain ⟨s, put⟩ := leaf
  obtain ⟨before, after, heq, hbefore, hafter, hput⟩ := hlongest.place
  dsimp only at *
  generalize hx : cutBytes (s.utf8ByteSize - (encodedLen v - room)) s = x
  have hcost := hx ▸ cutBytes_lawful.cost_cut_le (s.utf8ByteSize - (encodedLen v - room)) s
  have hleaf : ((Json.leaves (.string x)).map escapedLen).sum = escapedLen x := by
    rw [Json.leaves]
    split <;> rename_i hempty
    · rw [hempty]
      rfl
    · rfl
  have hv := encodedLen_eq v
  have hcut := encodedLen_eq (put x)
  rw [heq] at hv
  rw [hlongest.shape, hput] at hcut
  simp only [List.map_append, List.sum_append, List.map_cons, List.sum_cons, hleaf] at hv hcut
  have hrest : (cutBytes (s.utf8ByteSize - (encodedLen v - room)) s).utf8ByteSize = 0 →
      before ++ Json.leaves (.string x) ++ after = before ++ after := by
    intro hzero
    rw [hx, String.utf8ByteSize_eq_zero_iff] at hzero
    rw [hzero, Json.leaves, if_pos rfl, List.append_nil]
  have htaken := cutBytes_lawful.taken_cut hbefore hafter hrest
  rw [hx] at htaken
  have hexcess : encodedLen (put x) - room = encodedLen v - room - (escapedLen s - escapedLen x) := by
    omega
  rw [cutOnce, cutOnce, hput, heq, htaken, hexcess]
  omega

theorem cutOnce_of_le (h : encodedLen v ≤ room) : cutOnce room v = encodedLen v := by
  rw [cutOnce, Nat.sub_eq_zero_of_le h, cutBytes_lawful.taken_zero, Nat.sub_zero]

theorem cutOnce_of_leaves (h : Json.leaves v = []) : cutOnce room v = encodedLen v := by
  rw [cutOnce, h]
  rfl

/-- A text can be cut to any room for its quotes. -/
theorem cutOnce_string_le (hroom : 2 ≤ room) (s : String) : cutOnce room (.string s) ≤ room := by
  have hlen := encodedLen_string s
  rw [cutOnce, Json.leaves]
  split <;> rename_i hs
  · rw [hs]
    exact hroom
  · show encodedLen (.string s) - (_ - escapedLen (cutBytes _ s) + 0) ≤ room
    by_cases hoff : escapedLen s - escapedLen (cutBytes (s.utf8ByteSize -
        (encodedLen (.string s) - room)) s) < encodedLen (.string s) - room
    · -- all of the text is cut
      have hempty := cutBytes_lawful.len_cut_eq_zero hoff
      rw [String.utf8ByteSize_eq_zero_iff.1 hempty] at hoff ⊢
      have hzero : escapedLen "" = 0 := rfl
      omega
    · omega

theorem cutLen_string (hroom : 2 ≤ room) (s : String) :
    cutLen room (.string s) = cutOnce room (.string s) :=
  if_pos (cutOnce_string_le hroom s)

theorem cutLen_of_le (h : encodedLen v ≤ room) : cutLen room v = encodedLen v := by
  rw [cutLen, cutOnce_of_le h, if_pos h]

theorem cutLen_cut {leaf : Leaf Json} (h : largestStringLeaf v = some leaf)
    (hlong : room < encodedLen v) :
    cutLen room (leaf.2 (cutBytes (leaf.1.utf8ByteSize - (encodedLen v - room)) leaf.1)) =
      cutLen room v := by
  rw [cutLen, cutLen, cutOnce_cut h hlong, (longest_of_largestStringLeaf h).shape]

theorem cutLen_none (h : largestStringLeaf v = none) (hlong : room < encodedLen v) (hroom : 2 ≤ room) :
    cutLen room (.string (String.ofList (encode v))) = cutLen room v := by
  have hleaves : Json.leaves v = [] := by
    have hfound := found_largestStringLeaf v
    rwa [h] at hfound
  rw [cutLen_string hroom, cutLen, cutOnce_of_leaves hleaves, if_neg (Nat.not_le.2 hlong),
    skeleton_eq_self v hleaves]

/-! ## Outcomes -/

/-- A value is inserted as it is, or cut, or dropped. -/
inductive Inserted (result : SortedMap String Json) (key : String) (allowDrop : Bool) (value : Json)
    (truncated : Bool) : Rebuilt × Bool → Prop
  | whole (hfits : lenWith result key value ≤ toolResultSummaryMax) :
      Inserted result key allowDrop value truncated (⟨result.insert key value, truncated⟩, true)
  | cut {v : Json} (hlong : toolResultSummaryMax < lenWith result key value) (hcomposite : Composite v)
      (hfits : lenWith result key v ≤ toolResultSummaryMax ∨
        allowDrop = false ∧ toolResultSummaryMax < lenWith result key (.string "")) :
      Inserted result key allowDrop value truncated (⟨result.insert key v, true⟩, true)
  | dropped (hlong : toolResultSummaryMax < lenWith result key value) (hdrop : allowDrop = true) :
      Inserted result key allowDrop value truncated (⟨result, true⟩, false)

theorem Inserted.of_next {next : Json} {out : Rebuilt × Bool}
    (h : Inserted result key allowDrop next true out)
    (hlong : toolResultSummaryMax < lenWith result key v) (hnext : Composite next) :
    Inserted result key allowDrop v truncated out := by
  cases h with
  | whole hfits => exact .cut hlong hnext (.inl hfits)
  | cut _ hcomposite hfits => exact .cut hlong hcomposite hfits
  | dropped _ hdrop => exact .dropped hlong hdrop

theorem erase_insert (h : result.get? key = none) : (result.insert key v).erase key = result := by
  refine SortedMap.ext_get? fun k => ?_
  rw [SortedMap.get?_erase, SortedMap.get?_insert]
  split <;> rename_i hk
  · rw [hk, h]
  · rfl

theorem insertShrinking_whole (h : lenWith result key v ≤ toolResultSummaryMax) :
    insertShrinking result key allowDrop v truncated = (⟨result.insert key v, truncated⟩, true) := by
  rw [insertShrinking]
  exact dif_pos h

theorem insertShrinking_cut {leaf : Leaf Json} (h : toolResultSummaryMax < lenWith result key v)
    (hleaf : largestStringLeaf v = some leaf) :
    insertShrinking result key allowDrop v truncated = insertShrinking result key allowDrop
      (leaf.2 (cutBytes (leaf.1.utf8ByteSize - (lenWith result key v - toolResultSummaryMax)) leaf.1))
        true := by
  rw [insertShrinking]
  refine (dif_neg (Nat.not_le.2 h)).trans ?_
  split <;> rename_i heq
  · rw [hleaf] at heq
    obtain rfl := Option.some.inj heq
    rfl
  · rw [hleaf] at heq
    cases heq

theorem insertShrinking_none (h : toolResultSummaryMax < lenWith result key v)
    (hleaf : largestStringLeaf v = none) :
    insertShrinking result key allowDrop v truncated =
      if allowDrop then (⟨(result.insert key v).erase key, true⟩, false)
      else if v.asStr.isSome then (⟨result.insert key v, true⟩, true)
      else insertShrinking result key allowDrop (.string (String.ofList (encode v))) true := by
  rw [insertShrinking]
  refine (dif_neg (Nat.not_le.2 h)).trans ?_
  split <;> rename_i heq
  · rw [hleaf] at heq
    cases heq
  · split
    · rfl
    · split <;> rfl

/-- A text with nothing to cut in it. -/
theorem eq_empty_of_leaf (hstring : v.asStr.isSome) (hleaf : largestStringLeaf v = none) :
    v = .string "" := by
  match v with
  | .string s =>
    rw [largestStringLeaf] at hleaf
    split at hleaf <;> rename_i hs
    · rw [hs]
    · cases hleaf

theorem inserted_insertShrinking (h : result.get? key = none) (v : Json) (truncated : Bool) :
    Inserted result key allowDrop v truncated (insertShrinking result key allowDrop v truncated) := by
  induction v, truncated using insertShrinking.induct result key allowDrop with
  | case1 v truncated whole current hfits =>
    rw [insertShrinking_whole hfits]
    exact .whole hfits
  | case2 v truncated whole current hlong overage leaf hleaf ih =>
    rw [insertShrinking_cut (Nat.not_le.1 hlong) hleaf]
    exact ih.of_next (Nat.not_le.1 hlong)
      (cut_decreases hleaf (Nat.sub_pos_of_lt (Nat.not_le.1 hlong))).2.2
  | case3 v truncated whole current hlong hleaf hdrop =>
    rw [insertShrinking_none (Nat.not_le.1 hlong) hleaf, if_pos hdrop, erase_insert h]
    exact .dropped (Nat.not_le.1 hlong) hdrop
  | case4 v truncated whole current hlong hleaf hdrop hstring =>
    rw [insertShrinking_none (Nat.not_le.1 hlong) hleaf, if_neg hdrop, if_pos hstring]
    obtain rfl := eq_empty_of_leaf hstring hleaf
    exact .cut (Nat.not_le.1 hlong) trivial (.inr ⟨eq_false_of_ne_true hdrop, Nat.not_le.1 hlong⟩)
  | case5 v truncated whole current hlong hleaf hdrop hstring ih =>
    rw [insertShrinking_none (Nat.not_le.1 hlong) hleaf, if_neg hdrop, if_neg hstring]
    exact ih.of_next (Nat.not_le.1 hlong) trivial

/-- The value of a key that has room for its quotes, and is not dropped. -/
theorem cutLen_insertShrinking (h : result.get? key = none)
    (hframe : frame result key + 2 ≤ toolResultSummaryMax) (v : Json) (truncated : Bool) :
    ∃ w, (insertShrinking result key false v truncated).1.result = result.insert key w ∧
      encodedLen w = cutLen (toolResultSummaryMax - frame result key) v := by
  have hlen := lenWith_eq h
  -- what the object is over the bound, the value is over its room
  have hexcess : ∀ v, lenWith result key v - toolResultSummaryMax =
      encodedLen v - (toolResultSummaryMax - frame result key) := by
    intro v
    have := hlen v
    omega
  have hroom : ∀ {v}, ¬lenWith result key v ≤ toolResultSummaryMax →
      toolResultSummaryMax - frame result key < encodedLen v := by
    intro v hlong
    have := hlen v
    omega
  induction v, truncated using insertShrinking.induct result key false with
  | case1 v truncated whole current hfits =>
    rw [insertShrinking_whole hfits]
    refine ⟨v, rfl, (cutLen_of_le ?_).symm⟩
    have := hexcess v
    have : lenWith result key v ≤ toolResultSummaryMax := hfits
    omega
  | case2 v truncated whole current hlong overage leaf hleaf ih =>
    rw [insertShrinking_cut (Nat.not_le.1 hlong) hleaf]
    obtain ⟨w, hw, hcut⟩ := ih
    refine ⟨w, hw, hcut.trans ?_⟩
    rw [← cutLen_cut hleaf (hroom hlong), ← hexcess]
    rfl
  | case3 v truncated whole current hlong hleaf hdrop => cases hdrop
  | case4 v truncated whole current hlong hleaf hdrop hstring =>
    obtain rfl := eq_empty_of_leaf hstring hleaf
    have := hroom hlong
    rw [encodedLen_empty] at this
    omega
  | case5 v truncated whole current hlong hleaf hdrop hstring ih =>
    rw [insertShrinking_none (Nat.not_le.1 hlong) hleaf, if_neg hdrop, if_neg hstring]
    obtain ⟨w, hw, hcut⟩ := ih
    exact ⟨w, hw, hcut.trans (cutLen_none hleaf (hroom hlong) (by omega))⟩

/-! ## Whole objects -/

def Rebuilt.len (r : Rebuilt) : ℕ := encodedLen (.object r.result.entries)

theorem len_le_frame (result : SortedMap String Json) (key : String) :
    encodedLen (.object result.entries) ≤ frame result key := by
  rw [frame]
  omega

theorem len_le_lenWith (h : result.get? key = none) (v : Json) :
    encodedLen (.object result.entries) ≤ lenWith result key v := by
  rw [lenWith_eq h]
  exact (len_le_frame result key).trans (Nat.le_add_right _ _)

/-- What the other keys of an object add to the rebuilt one. -/
structure Grown (rest : List (String × Json)) (r r' : Rebuilt) : Prop where
  get?_eq : ∀ key, key = "error" ∨ key = "success" ∨ key ∉ rest.map (·.1) →
    r'.result.get? key = r.result.get? key
  len_le : r.len ≤ r'.len
  fits : r.len ≤ toolResultSummaryMax → r'.len ≤ toolResultSummaryMax
  whole : r'.truncated = false → r.truncated = false ∧
    ∀ e ∈ rest, e.1 ≠ "error" → e.1 ≠ "success" → r'.result.get? e.1 = some e.2

theorem grown_insertRest {rest : List (String × Json)} {r : Rebuilt}
    (hkeys : rest.Pairwise (·.1 < ·.1))
    (hnew : ∀ e ∈ rest, e.1 ≠ "error" → e.1 ≠ "success" → r.result.get? e.1 = none) :
    Grown rest r (insertRest rest r) := by
  induction rest generalizing r with
  | nil => exact ⟨fun _ _ => rfl, le_rfl, id, fun h => ⟨h, nofun⟩⟩
  | cons e rest ih =>
    obtain ⟨key, value⟩ := e
    obtain ⟨hhead, hkeys⟩ := List.pairwise_cons.1 hkeys
    obtain ⟨hkey, hnew⟩ := List.forall_mem_cons.1 hnew
    rw [insertRest]
    split <;> rename_i hverdict
    · -- the keys of the verdict are in already
      have hverdict : key = "error" ∨ key = "success" := by simpa using hverdict
      obtain ⟨hget, hlen, hfits, hwhole⟩ := ih hkeys hnew
      refine ⟨fun k hk => hget k ?_, hlen, hfits, fun h => ⟨(hwhole h).1, ?_⟩⟩
      · exact hk.imp_right fun hk => hk.imp_right fun hk hmem => hk (List.mem_cons_of_mem _ hmem)
      · refine List.forall_mem_cons.2 ⟨fun herror hsuccess => ?_, (hwhole h).2⟩
        exact absurd hverdict (not_or.2 ⟨herror, hsuccess⟩)
    · have hother : key ≠ "error" ∧ key ≠ "success" := by simpa using hverdict
      have hfresh : r.result.get? key = none := hkey hother.1 hother.2
      -- the rest goes on with the key in
      have hnext : ∀ (v : Json) (truncated : Bool), lenWith r.result key v ≤ toolResultSummaryMax →
          (truncated = false → r.truncated = false ∧ v = value) →
          Grown ((key, value) :: rest) r (insertRest rest ⟨r.result.insert key v, truncated⟩) := by
        intro v truncated hfits hsame
        have hrest : ∀ e ∈ rest, e.1 ≠ "error" → e.1 ≠ "success" →
            (r.result.insert key v).get? e.1 = none := by
          intro e he herror hsuccess
          rw [SortedMap.get?_insert_of_ne (hhead e he).ne']
          exact hnew e he herror hsuccess
        have hnotMem : key ∉ rest.map (·.1) := by
          intro hmem
          obtain ⟨e, he, heq⟩ := List.mem_map.1 hmem
          exact (hhead e he).ne heq.symm
        have hgrown := ih (r := ⟨r.result.insert key v, truncated⟩) hkeys hrest
        refine ⟨fun k hk => ?_, ?_, fun _ => hgrown.fits hfits, fun h => ?_⟩
        · have hne : k ≠ key := by
            rintro rfl
            rcases hk with hk | hk | hk
            · exact hother.1 hk
            · exact hother.2 hk
            · exact hk (List.mem_cons_self ..)
          rw [hgrown.get?_eq k (hk.imp_right fun hk => hk.imp_right fun hk hmem =>
            hk (List.mem_cons_of_mem _ hmem))]
          exact SortedMap.get?_insert_of_ne hne
        · exact (len_le_lenWith hfresh v).trans hgrown.len_le
        · obtain ⟨htruncated, hall⟩ := hgrown.whole h
          obtain ⟨hr, rfl⟩ := hsame htruncated
          refine ⟨hr, List.forall_mem_cons.2 ⟨fun _ _ => ?_, hall⟩⟩
          rw [hgrown.get?_eq key (.inr (.inr hnotMem))]
          exact SortedMap.get?_insert_self
      have hinserted : Inserted r.result key true value r.truncated _ :=
        inserted_insertShrinking hfresh value r.truncated
      generalize insertShrinking r.result key true value r.truncated = out at hinserted ⊢
      cases hinserted with
      | whole hfits => exact hnext value r.truncated hfits fun h => ⟨h, rfl⟩
      | cut _ _ hfits => exact hnext _ true (hfits.resolve_right fun h => nomatch h.1) nofun
      | dropped => exact ⟨fun _ _ => rfl, le_rfl, id, nofun⟩

/-- A key of the verdict as it was, or cut. -/
structure Judged (result : SortedMap String Json) (key : String) (value : Json) (truncated : Bool)
    (r : Rebuilt) (v : Json) : Prop where
  inserted : r.result = result.insert key v
  value : v = value ∧ r.truncated = truncated ∧ lenWith result key value ≤ toolResultSummaryMax ∨
    Composite v ∧ r.truncated = true ∧ toolResultSummaryMax < lenWith result key value

theorem judged_insertShrinking (h : result.get? key = none) (v : Json) (truncated : Bool) :
    ∃ w, Judged result key v truncated (insertShrinking result key false v truncated).1 w ∧
      (lenWith result key w ≤ toolResultSummaryMax ↔ lenWith result key v ≤ toolResultSummaryMax ∨
        lenWith result key (.string "") ≤ toolResultSummaryMax) := by
  have hinserted : Inserted result key false v truncated _ := inserted_insertShrinking h v truncated
  generalize insertShrinking result key false v truncated = out at hinserted ⊢
  cases hinserted with
  | whole hfits => exact ⟨v, ⟨rfl, .inl ⟨rfl, rfl, hfits⟩⟩, fun h => .inl h, fun _ => hfits⟩
  | @cut w hlong hcomposite hfits =>
    refine ⟨w, ⟨rfl, .inr ⟨hcomposite, rfl, hlong⟩⟩, fun hw => .inr ?_, fun hor => ?_⟩
    · -- nothing that was cut is shorter than an empty string
      have := two_le_encodedLen hcomposite
      rw [lenWith_eq h] at hw ⊢
      rw [encodedLen_empty]
      omega
    · rcases hfits with hfits | ⟨-, hempty⟩
      · exact hfits
      · rcases hor with hv | hv
        · exact absurd hlong (Nat.not_lt.2 hv)
        · exact absurd hempty (Nat.not_lt.2 hv)
  | dropped _ hdrop => cases hdrop

/-! ### The verdict -/

theorem lookup_entries (m : SortedMap String Json) (key : String) :
    m.entries.lookup key = m.get? key := by
  rw [SortedMap.get?]
  induction m.entries with
  | nil => rfl
  | cons e l ih =>
    rw [List.lookup_cons, List.find?_cons]
    by_cases he : e.1 = key
    · simp [he]
    · have hne : (key == e.1) = false := by simpa using Ne.symm he
      simpa [he, hne] using ih

/-- The rebuilt object has the verdict of `fields`. -/
structure Verdict (fields : List (String × Json)) (r : Rebuilt) : Prop where
  error : r.result.get? "error" = fields.lookup "error" ∨
    ∃ e v, fields.lookup "error" = some e ∧ e ≠ .null ∧ r.result.get? "error" = some v ∧ Composite v
  success : r.result.get? "success" = fields.lookup "success" ∨
    ∃ e v, fields.lookup "success" = some e ∧ e ≠ .bool false ∧ r.result.get? "success" = some v ∧
      Composite v
  fits : r.len ≤ toolResultSummaryMax
  whole : r.truncated = false → r.result.get? "error" = fields.lookup "error" ∧
    r.result.get? "success" = fields.lookup "success"

theorem frame_error : frame .empty "error" = 10 := by decide

theorem frame_success : frame .empty "success" = 12 := by decide

theorem frame_success_of_error (v : Json) :
    frame (SortedMap.empty.insert "error" v) "success" = 10 + encodedLen v + 11 := by
  have hlen : encodedLen (.object (SortedMap.empty.insert "error" v).entries) = 10 + encodedLen v := by
    rw [← frame_error]
    exact lenWith_eq rfl v
  have hkey : byteLen (quoted "success") = 9 := by decide
  rw [frame, hlen, hkey]
  rfl

theorem fresh_success (v : Json) : (SortedMap.empty.insert "error" v).get? "success" = none := by
  rw [SortedMap.get?_insert_of_ne (by decide)]
  rfl

theorem lenWith_success (v w : Json) :
    lenWith (SortedMap.empty.insert "error" v) "success" w = 10 + encodedLen v + 11 + encodedLen w := by
  rw [lenWith_eq (fresh_success v), frame_success_of_error]

/-- The error comes first, cut to what fits alone. -/
theorem judged_error {error : Json} (h : fields.lookup "error" = some error) :
    ∃ v, Judged .empty "error" error false (insertKey fields ⟨.empty, false⟩ "error") v ∧
      encodedLen v = cutLen (toolResultSummaryMax - 10) error ∧ 10 + encodedLen v ≤ toolResultSummaryMax := by
  have hfresh : (SortedMap.empty : SortedMap String Json).get? "error" = none := rfl
  obtain ⟨v, hjudged, hfits⟩ := judged_insertShrinking hfresh error false
  obtain ⟨w, hw, hcut⟩ := cutLen_insertShrinking hfresh (by rw [frame_error]; decide) error false
  have hsame : v = w := by
    have hget := congrArg (fun m => SortedMap.get? m "error") (hjudged.inserted.symm.trans hw)
    simpa [SortedMap.get?_insert_self] using hget
  rw [frame_error] at hcut
  rw [insertKey, h]
  refine ⟨v, hjudged, hsame ▸ hcut, ?_⟩
  rw [lenWith_eq hfresh, lenWith_eq hfresh, lenWith_eq hfresh, frame_error, encodedLen_empty] at hfits
  exact hfits.2 (.inr (by decide))

/-- Both keys, one after the other. -/
theorem judged_both {error success : Json} (herror : fields.lookup "error" = some error)
    (hsuccess : fields.lookup "success" = some success) :
    ∃ v w truncated, (v = error ∧ truncated = false ∨ Composite v ∧ truncated = true ∧ error ≠ .null) ∧
      Judged (SortedMap.empty.insert "error" v) "success" success truncated (verdictOf fields) w ∧
      encodedLen v = cutLen (toolResultSummaryMax - 10) error ∧
      ((verdictOf fields).len ≤ toolResultSummaryMax ↔
        10 + encodedLen v + 11 + encodedLen success ≤ toolResultSummaryMax ∨
          10 + encodedLen v + 13 ≤ toolResultSummaryMax) := by
  obtain ⟨v, hjudged, hcut, -⟩ := judged_error herror
  obtain ⟨w, hw, hfits⟩ := judged_insertShrinking (fresh_success v) success
    (insertKey fields ⟨.empty, false⟩ "error").truncated
  have heq : verdictOf fields = (insertShrinking (SortedMap.empty.insert "error" v) "success" false
      success (insertKey fields ⟨.empty, false⟩ "error").truncated).1 := by
    rw [← hjudged.inserted, verdictOf, List.foldl_cons, List.foldl_cons, List.foldl_nil]
    exact congrArg (fun o => Option.elim o _ _) hsuccess
  rw [← heq] at hw
  refine ⟨v, w, _, ?_, hw, hcut, ?_⟩
  · rcases hjudged.value with ⟨hv, htruncated, -⟩ | ⟨hv, htruncated, hlong⟩
    · exact .inl ⟨hv, htruncated⟩
    · refine .inr ⟨hv, htruncated, ?_⟩
      rintro rfl
      exact absurd hlong (by decide)
  · rw [Rebuilt.len, hw.inserted]
    rw [lenWith_success, lenWith_success, lenWith_success, encodedLen_empty] at hfits
    rw [← lenWith, lenWith_success]
    exact hfits

/-- What the object shows of its verdict tells the room there was for it. -/
theorem roomFor_of_fits (hfits : (verdictOf fields).len ≤ toolResultSummaryMax)
    (hfailed : fields.lookup "success" = some (.bool false) →
      (verdictOf fields).result.get? "success" = some (.bool false)) : RoomFor fields := by
  intro error herror success hsuccess
  obtain ⟨v, w, truncated, -, hw, hcut, hlen⟩ := judged_both herror hsuccess
  dsimp only
  rw [← hcut]
  rcases hlen.1 hfits with h | h
  · exact .inl h
  by_cases hfalse : success = .bool false
  · left
    subst hfalse
    have hget := hfailed hsuccess
    rw [hw.inserted, SortedMap.get?_insert_self] at hget
    obtain rfl := Option.some.inj hget
    rcases hw.value with ⟨-, -, hwhole⟩ | ⟨hcomposite, -⟩
    · rwa [lenWith_success] at hwhole
    · cases hcomposite
  · exact .inr ⟨hfalse, h⟩

/-- A key of the verdict is as it was, unless it does not fit so. -/
theorem Judged.get? {value w : Json} (h : Judged result key value truncated r w)
    (hlookup : fields.lookup key = some value) (keep : Json)
    (hkeep : value = keep → lenWith result key value ≤ toolResultSummaryMax) :
    (r.result.get? key = fields.lookup key ∨
      ∃ e v, fields.lookup key = some e ∧ e ≠ keep ∧ r.result.get? key = some v ∧ Composite v) ∧
      (r.truncated = false → r.result.get? key = fields.lookup key ∧ truncated = false) := by
  rw [h.inserted, SortedMap.get?_insert_self, hlookup]
  rcases h.value with ⟨rfl, htruncated, -⟩ | ⟨hcomposite, htruncated, hlong⟩
  · exact ⟨.inl rfl, fun hfalse => ⟨rfl, htruncated ▸ hfalse⟩⟩
  · refine ⟨.inr ⟨value, w, rfl, fun heq => ?_, rfl, hcomposite⟩, fun hfalse => ?_⟩
    · exact absurd hlong (Nat.not_lt.2 (hkeep heq))
    · rw [htruncated] at hfalse
      cases hfalse

theorem verdictOf_eq : verdictOf fields = (fields.lookup "success").elim
    (insertKey fields ⟨.empty, false⟩ "error") fun value => (insertShrinking
      (insertKey fields ⟨.empty, false⟩ "error").result "success" false value
      (insertKey fields ⟨.empty, false⟩ "error").truncated).1 := rfl

/-- A success alone has all the room it needs. -/
theorem verdict_of_success (herror : fields.lookup "error" = none) {success : Json}
    (hsuccess : fields.lookup "success" = some success) : Verdict fields (verdictOf fields) := by
  have hfirst : insertKey fields ⟨.empty, false⟩ "error" = ⟨.empty, false⟩ := by
    rw [insertKey, herror]
    rfl
  have hfresh : (SortedMap.empty : SortedMap String Json).get? "success" = none := rfl
  obtain ⟨w, hw, hfits⟩ := judged_insertShrinking hfresh success false
  have heq : verdictOf fields = (insertShrinking .empty "success" false success false).1 := by
    rw [verdictOf_eq, hsuccess, hfirst, Option.elim_some]
  rw [← heq] at hw
  obtain ⟨hget, hwhole⟩ := hw.get? hsuccess (.bool false) (fun heq => heq ▸ by decide)
  have hnone : (verdictOf fields).result.get? "error" = fields.lookup "error" := by
    rw [hw.inserted, herror, SortedMap.get?_insert_of_ne (by decide)]
    rfl
  refine ⟨.inl hnone, hget, ?_, fun hf => ⟨hnone, (hwhole hf).1⟩⟩
  rw [Rebuilt.len, hw.inserted, ← lenWith]
  exact hfits.2 (.inr (by decide))

/-- And so does an error alone. -/
theorem verdict_of_error {error : Json} (herror : fields.lookup "error" = some error)
    (hsuccess : fields.lookup "success" = none) : Verdict fields (verdictOf fields) := by
  obtain ⟨v, hjudged, hcut, hlen⟩ := judged_error herror
  have heq : verdictOf fields = insertKey fields ⟨.empty, false⟩ "error" := by
    rw [verdictOf_eq, hsuccess, Option.elim_none]
  rw [← heq] at hjudged
  obtain ⟨hget, hwhole⟩ := hjudged.get? herror .null (fun heq => heq ▸ by decide)
  have hnone : (verdictOf fields).result.get? "success" = fields.lookup "success" := by
    rw [hjudged.inserted, hsuccess, SortedMap.get?_insert_of_ne (by decide)]
    rfl
  refine ⟨hget, .inl hnone, ?_, fun hf => ⟨(hwhole hf).1, hnone⟩⟩
  rw [Rebuilt.len, hjudged.inserted, ← lenWith, lenWith_eq rfl, frame_error]
  exact hlen

/-- Both together have it where there is room for the second. -/
theorem verdict_of_both {error success : Json} (herror : fields.lookup "error" = some error)
    (hsuccess : fields.lookup "success" = some success) (h : RoomFor fields) :
    Verdict fields (verdictOf fields) := by
  obtain ⟨v, w, truncated, hv, hw, hcut, hfits⟩ := judged_both herror hsuccess
  have hroom := h error herror success hsuccess
  dsimp only at hroom
  rw [← hcut] at hroom
  obtain ⟨hget, hwhole⟩ := hw.get? hsuccess (.bool false) fun heq => by
    rw [lenWith_success]
    exact hroom.resolve_right fun hcut => hcut.1 heq
  have hgetError : (verdictOf fields).result.get? "error" = some v := by
    rw [hw.inserted, SortedMap.get?_insert_of_ne (by decide), SortedMap.get?_insert_self]
  refine ⟨?_, hget, hfits.2 (hroom.imp_right (·.2)), fun hf => ⟨?_, (hwhole hf).1⟩⟩
  · rcases hv with ⟨rfl, -⟩ | ⟨hcomposite, -, hnull⟩
    · exact .inl (hgetError.trans herror.symm)
    · exact .inr ⟨error, v, herror, hnull, hgetError, hcomposite⟩
  · -- an error that was cut has left its mark, which the success does not take away
    rcases hv with ⟨rfl, -⟩ | ⟨-, htruncated, -⟩
    · exact hgetError.trans herror.symm
    · rw [(hwhole hf).2] at htruncated
      cases htruncated

theorem verdict_of_roomFor (h : RoomFor fields) : Verdict fields (verdictOf fields) := by
  cases herror : fields.lookup "error" with
  | none =>
    cases hsuccess : fields.lookup "success" with
    | none =>
      have heq : verdictOf fields = ⟨.empty, false⟩ := by
        rw [verdictOf_eq, hsuccess, Option.elim_none, insertKey, herror]
        rfl
      rw [heq]
      exact ⟨.inl herror.symm, .inl hsuccess.symm, by decide, fun _ => ⟨herror.symm, hsuccess.symm⟩⟩
    | some success => exact verdict_of_success herror hsuccess
  | some error =>
    cases hsuccess : fields.lookup "success" with
    | none => exact verdict_of_error herror hsuccess
    | some success => exact verdict_of_both herror hsuccess h

/-! ### The other keys -/

theorem get?_insertKey {k : String} (h : r.result.get? key = none) (hk : k ≠ key) :
    (insertKey fields r key).result.get? k = r.result.get? k := by
  rw [insertKey]
  cases fields.lookup key with
  | none => rfl
  | some value =>
    obtain ⟨v, hjudged, -⟩ := judged_insertShrinking h value r.truncated
    rw [Option.elim_some, hjudged.inserted, SortedMap.get?_insert_of_ne hk]

theorem get?_verdictOf {k : String} (herror : k ≠ "error") (hsuccess : k ≠ "success") :
    (verdictOf fields).result.get? k = none := by
  have hfresh : (insertKey fields ⟨.empty, false⟩ "error").result.get? "success" = none :=
    get?_insertKey rfl (by decide)
  exact (get?_insertKey hfresh hsuccess).trans (get?_insertKey rfl herror)

theorem mem_keys_iff : key ∈ fields.map (·.1) ↔ (fields.lookup key).isSome := by
  induction fields with
  | nil => simp
  | cons e fields ih =>
    rw [List.map_cons, List.mem_cons, List.lookup_cons]
    by_cases he : key = e.1
    · simp [he]
    · have hne : (key == e.1) = false := by simpa using he
      simp [he, hne, ih]

theorem responseIsOk_iff : responseIsOk (some (.object fields)) = true ↔
    (fields.lookup "error" = none ∨ fields.lookup "error" = some .null) ∧
      fields.lookup "success" ≠ some (.bool false) := by
  rw [responseIsOk]
  cases fields.lookup "error" with
  | none => simp
  | some e => cases e <;> simp

theorem isSome_verdict_iff {keep : Json} {got had : Option Json}
    (h : got = had ∨ ∃ e v, had = some e ∧ e ≠ keep ∧ got = some v ∧ Composite v) :
    got.isSome ↔ had.isSome := by
  rcases h with rfl | ⟨e, w, rfl, -, rfl, -⟩
  · exact Iff.rfl
  · exact ⟨fun _ => rfl, fun _ => rfl⟩

theorem boundObject_of_long (h : toolResultSummaryMax < encodedLen (.object fields)) :
    boundObject fields = (.object (insertRest fields (verdictOf fields)).result.entries,
      (insertRest fields (verdictOf fields)).truncated, false) := by
  rw [boundObject, if_neg (Nat.not_le.2 h)]

section Objects

variable (hsorted : fields.Pairwise (·.1 < ·.1))

include hsorted

theorem grown_verdictOf : Grown fields (verdictOf fields) (insertRest fields (verdictOf fields)) :=
  grown_insertRest hsorted fun _ _ herror hsuccess => get?_verdictOf herror hsuccess

variable (h : Verdict fields (verdictOf fields))

include h

/-- An object that is too long loses something. -/
theorem Verdict.truncated_of_long (hlong : toolResultSummaryMax < encodedLen (.object fields)) :
    (insertRest fields (verdictOf fields)).truncated = true := by
  have hgrown := grown_verdictOf hsorted
  by_contra hfalse
  obtain ⟨hkept, hall⟩ := hgrown.whole (eq_false_of_ne_true hfalse)
  have hsame : (insertRest fields (verdictOf fields)).result = ⟨fields, hsorted⟩ := by
    refine SortedMap.ext_get? fun k => ?_
    rw [← lookup_entries ⟨fields, hsorted⟩]
    show _ = fields.lookup k
    by_cases hverdict : k = "error" ∨ k = "success"
    · rw [hgrown.get?_eq k (hverdict.imp_right .inl)]
      rcases hverdict with rfl | rfl
      · exact (h.whole hkept).1
      · exact (h.whole hkept).2
    · obtain ⟨herror, hsuccess⟩ := not_or.1 hverdict
      by_cases hk : k ∈ fields.map (·.1)
      · obtain ⟨e, he, rfl⟩ := List.mem_map.1 hk
        rw [hall e he herror hsuccess]
        exact (SortedMap.get?_eq_some_iff.2 he).symm.trans (lookup_entries ⟨fields, hsorted⟩ e.1).symm
      · rw [hgrown.get?_eq k (.inr (.inr hk)), get?_verdictOf herror hsuccess]
        rw [mem_keys_iff, Option.isSome_iff_ne_none, not_not] at hk
        exact hk.symm
  have hfits := hgrown.fits h.fits
  rw [Rebuilt.len, hsame] at hfits
  exact absurd hlong (Nat.not_lt.2 hfits)

theorem keeps_of_verdict (hlong : toolResultSummaryMax < encodedLen (.object fields)) :
    Keeps (.object fields) := by
  have hgrown := grown_verdictOf hsorted
  have htruncated := h.truncated_of_long hsorted hlong
  have hbound := boundObject_of_long hlong
  have hfits := hgrown.fits h.fits
  -- the verdict stays what it is while the other keys come in
  have herror := h.error
  have hsuccess := h.success
  have hothers : ∀ k, k ≠ "error" → k ≠ "success" → k ∉ fields.map (·.1) →
      (insertRest fields (verdictOf fields)).result.get? k = none := by
    intro k hk hk' hmem
    rw [hgrown.get?_eq k (.inr (.inr hmem)), get?_verdictOf hk hk']
  rw [← hgrown.get?_eq "error" (.inl rfl)] at herror
  rw [← hgrown.get?_eq "success" (.inr (.inl rfl))] at hsuccess
  generalize insertRest fields (verdictOf fields) = r at *
  rw [← lookup_entries] at herror hsuccess
  have hvalue : boundToolResponseValue (.object fields) = (.object r.result.entries, r.truncated, false) :=
    hbound
  constructor
  · rw [hvalue]
    exact hfits
  · rw [hvalue]
    exact fun _ => rfl
  · rw [hvalue, Bool.eq_iff_iff, responseIsOk_iff, responseIsOk_iff]
    refine and_congr ?_ (not_congr ?_)
    · rcases herror with heq | ⟨e, w, he, hnull, hw, hcomposite⟩
      · rw [heq]
      · rw [he, hw]
        cases w <;> simp_all [Composite]
    · rcases hsuccess with heq | ⟨e, w, he, hnull, hw, hcomposite⟩
      · rw [heq]
      · rw [he, hw]
        cases w <;> simp_all [Composite]
  · rw [hvalue]
    intro k hk
    have hk : k ∈ r.result.entries.map (·.1) := hk
    show k ∈ fields.map (·.1)
    by_contra hnot
    rw [mem_keys_iff] at hk
    by_cases hkerror : k = "error"
    · rw [mem_keys_iff, hkerror] at hnot
      exact hnot ((isSome_verdict_iff herror).1 (hkerror ▸ hk))
    by_cases hksuccess : k = "success"
    · rw [mem_keys_iff, hksuccess] at hnot
      exact hnot ((isSome_verdict_iff hsuccess).1 (hksuccess ▸ hk))
    · rw [lookup_entries, hothers k hkerror hksuccess hnot] at hk
      cases hk
  · rw [hvalue]
    intro k hk hmem
    have hmem : k ∈ fields.map (·.1) := hmem
    show k ∈ r.result.entries.map (·.1)
    rw [mem_keys_iff] at hmem ⊢
    rcases List.mem_cons.1 hk with rfl | hk
    · exact (isSome_verdict_iff herror).2 hmem
    · obtain rfl := List.mem_singleton.1 hk
      exact (isSome_verdict_iff hsuccess).2 hmem
  · rw [hvalue]
    intro hfalse
    have hfalse : fields.lookup "success" = some (.bool false) := hfalse
    show r.result.entries.lookup "success" = _
    rcases hsuccess with heq | ⟨e, w, he, hne, -⟩
    · exact heq.trans hfalse
    · exact absurd (Option.some.inj (he.symm.trans hfalse)) hne
  · rw [hvalue, htruncated]
    refine ⟨nofun, fun heq => ?_⟩
    have hlen : encodedLen (.object fields) = r.len := by rw [← heq, Rebuilt.len]
    rw [hlen] at hlong
    exact absurd hlong (Nat.not_lt.2 hfits)
  · rw [hvalue]
    exact if_pos hfits

end Objects

/-- A value that is within the bound is returned as it is. -/
theorem keeps_of_eq (h : boundToolResponseValue v = (v, false, false))
    (hsize : responseLen v ≤ toolResultSummaryMax) : Keeps v := by
  constructor <;> rw [h]
  · exact hsize
  · exact id
  · exact fun _ => id
  · exact fun _ _ => id
  · exact id
  · simp
  · exact h

/-- A string that is too long is cut, and anything else that is no object becomes a text that is. -/
theorem keeps_of_text {text : String} {stringified : Bool}
    (h : boundToolResponseValue v = (.string (cutBytes toolResultSummaryMax text), true, stringified))
    (hv : v.asObject = none) (hne : v ≠ .string (cutBytes toolResultSummaryMax text)) : Keeps v := by
  have hlen := cutBytes_lawful.len_cut toolResultSummaryMax text
  constructor <;> rw [h]
  · exact hlen
  · rw [hv]
    exact nofun
  · cases v with
    | object => cases hv
    | _ => rfl
  · exact nofun
  · rw [fieldsOf, hv]
    exact nofun
  · rw [fieldsOf, hv]
    exact nofun
  · exact ⟨nofun, fun heq => absurd heq.symm hne⟩
  · exact if_pos hlen

/-- A value that is neither a string nor an object. -/
theorem keeps_of_other (h : boundToolResponseValue v =
      if (String.ofList (encode v)).utf8ByteSize ≤ toolResultSummaryMax then (v, false, false)
      else (.string (cutBytes toolResultSummaryMax (String.ofList (encode v))), true, true))
    (hlen : responseLen v = encodedLen v) (hstring : v.asStr = none) (hobject : v.asObject = none) :
    Keeps v := by
  split at h <;> rename_i hfits
  · refine keeps_of_eq h ?_
    rwa [hlen, encodedLen, ← utf8ByteSize_ofList]
  · refine keeps_of_text h hobject fun heq => ?_
    rw [heq] at hstring
    cases hstring

theorem roomFor_of_keeps (hsorted : fields.Pairwise (·.1 < ·.1)) (h : Keeps (.object fields))
    (hlong : toolResultSummaryMax < encodedLen (.object fields)) : RoomFor fields := by
  have hgrown := grown_verdictOf hsorted
  have hvalue : boundToolResponseValue (.object fields) =
      (.object (insertRest fields (verdictOf fields)).result.entries,
        (insertRest fields (verdictOf fields)).truncated, false) := boundObject_of_long hlong
  have hsize := h.size
  have hfailed := h.failed
  rw [hvalue] at hsize hfailed
  refine roomFor_of_fits (hgrown.len_le.trans hsize) fun hfalse => ?_
  rw [← hgrown.get?_eq "success" (.inr (.inl rfl)), ← lookup_entries]
  exact hfailed hfalse

/-- The bound keeps all it promises of a value, unless the value is an object that is too long and
    has no room for its verdict. -/
theorem keeps_iff_roomy (v : Json) (hsorted : Sorted v) : Keeps v ↔ Roomy v := by
  have hroomy : v.asObject = none → Roomy v := fun hobject h => by
    rw [hobject] at h
    cases h
  cases v with
  | null => exact iff_of_true (keeps_of_other rfl rfl rfl rfl) (hroomy rfl)
  | bool => exact iff_of_true (keeps_of_other rfl rfl rfl rfl) (hroomy rfl)
  | number => exact iff_of_true (keeps_of_other rfl rfl rfl rfl) (hroomy rfl)
  | array => exact iff_of_true (keeps_of_other rfl rfl rfl rfl) (hroomy rfl)
  | string s =>
    refine iff_of_true ?_ (hroomy rfl)
    by_cases hfits : s.utf8ByteSize ≤ toolResultSummaryMax
    · exact keeps_of_eq (if_pos hfits) hfits
    · refine keeps_of_text (if_neg hfits) rfl fun heq => hfits ?_
      rw [Json.string.inj heq]
      exact cutBytes_lawful.len_cut _ _
  | object fields =>
    by_cases hfits : encodedLen (.object fields) ≤ toolResultSummaryMax
    · exact iff_of_true (keeps_of_eq (if_pos hfits) hfits)
        fun _ hlong => absurd hlong (Nat.not_lt.2 hfits)
    · have hlong := Nat.not_le.1 hfits
      exact ⟨fun h _ _ => roomFor_of_keeps hsorted h hlong,
        fun h => keeps_of_verdict hsorted (verdict_of_roomFor (h rfl hlong)) hlong⟩

/-! ## A long text -/

/-- A text of `n` characters that take a byte each. -/
def xs (n : ℕ) : String := String.ofList (List.replicate n 'x')

theorem escapedLen_xs (n : ℕ) : escapedLen (xs n) = n := by
  rw [escapedLen, escaped, xs, String.toList_ofList]
  induction n with
  | zero => rfl
  | succ n ih =>
    rw [List.replicate_succ, List.flatMap_cons, byteLen_append, ih]
    show 1 + n = n + 1
    omega

theorem cutBytes_xs {k n : ℕ} (h : k ≤ n) : cutBytes k (xs n) = xs k := by
  have htake : ∀ k n, k ≤ n → takeBytes k (List.replicate n 'x') = List.replicate k 'x' := by
    intro k n
    induction n generalizing k with
    | zero =>
      intro h
      rw [Nat.le_zero.1 h]
      rfl
    | succ n ih =>
      intro h
      cases k with
      | zero => rfl
      | succ k =>
        rw [List.replicate_succ, takeBytes, if_pos (show 'x'.utf8Size ≤ k + 1 from Nat.le_add_left 1 k)]
        exact congrArg ('x' :: ·) (ih k (Nat.le_of_succ_le_succ h))
  rw [cutBytes, xs, String.toList_ofList, htake k n h, xs]

theorem utf8ByteSize_xs (n : ℕ) : (xs n).utf8ByteSize = n := by
  rw [xs, utf8ByteSize_ofList]
  induction n with
  | zero => rfl
  | succ n ih =>
    rw [List.replicate_succ, byteLen, ih]
    show 1 + n = n + 1
    omega

theorem cutLen_xs {n : ℕ} (hroom : 2 ≤ room) (h : room < n) : cutLen room (.string (xs n)) = room := by
  have hne : xs n ≠ "" := by
    intro heq
    have hsize := utf8ByteSize_xs n
    rw [heq, String.utf8ByteSize_empty] at hsize
    omega
  rw [cutLen_string hroom, cutOnce, Json.leaves, if_neg hne, encodedLen_string, escapedLen_xs]
  show 2 + n - (escapedLen (xs n) - escapedLen (cutBytes ((xs n).utf8ByteSize - (2 + n - room)) (xs n)) + 0)
    = room
  rw [utf8ByteSize_xs, cutBytes_xs (by omega), escapedLen_xs, escapedLen_xs]
  omega

/-- A failure with a long output is bounded, and is a failure still. -/
theorem keeps_iff_roomy_output :
    Keeps (.object [("error", .string "no"), ("output", .string (xs 6000)), ("success", .bool false)]) := by
  refine (keeps_iff_roomy _ ?_).2 fun _ _ => ?_
  · decide
  · rintro error ⟨⟩ success ⟨⟩
    exact .inl (by decide)

/-- A failure with a long error: the error takes all the room. -/
theorem not_keeps_of_long {n : ℕ} (h : toolResultSummaryMax < n) :
    ¬Keeps (.object [("error", .string (xs n)), ("success", .bool false)]) := by
  intro hkeeps
  have hsorted : List.Pairwise (·.1 < ·.1) [("error", Json.string (xs n)), ("success", .bool false)] := by
    simp only [List.pairwise_cons, List.mem_singleton, forall_eq]
    exact ⟨by decide, nofun, .nil⟩
  have hlen : byteLen (encode (.string (xs n))) = 2 + n := by
    rw [← encodedLen, encodedLen_string, escapedLen_xs]
  have hlong : toolResultSummaryMax <
      encodedLen (.object [("error", .string (xs n)), ("success", .bool false)]) := by
    rw [encodedLen_object]
    simp only [encodeFields, List.map_cons, List.sum_cons, byteLen_append, byteLen_cons, hlen]
    omega
  have hroom := roomFor_of_keeps hsorted hkeeps hlong (.string (xs n)) rfl (.bool false) rfl
  rw [cutLen_xs (by decide) (by omega)] at hroom
  exact absurd hroom (by decide)

/-- The object is too long with any `success` beside such an error. -/
theorem bound_error_only :
    Sorted (.object [("error", .string (xs 6000)), ("success", .bool false)]) ∧
      ¬Keeps (.object [("error", .string (xs 6000)), ("success", .bool false)]) :=
  ⟨by decide, not_keeps_of_long (by decide)⟩

end Anthrex.Conversation
