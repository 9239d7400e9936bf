import Anthrex.Data.Wildcard
import Anthrex.Globs.Area
import Anthrex.Globs.Protected
import Mathlib

/-!
# Entries that may cover a protected path

A task on the fast path has no plan to approve, so its `owns` may not reach a protected
path (`may_cover_protected` of `run/globs.rs`). An entry and a protected pattern are
compared component by component: two literal components must be equal, a literal one must
match the other, and two with wildcards need literal heads and tails that agree.

The comparison misses no common path of two patterns that are readable as far as it goes:
their components are plain text, wildcards and classes that list what they match. It takes
braces and escapes for text, and a class for one that matches neither a separator nor, in
another case, less than before, and can miss a path where that is wrong.
-/

namespace Anthrex.Globs

/-! ## The comparison -/

/-- The pattern without the `**/` before it. -/
def anchored : List Char → List Char
  | '*' :: '*' :: '/' :: rest => anchored rest
  | pattern => pattern

/-- What a protected entry guards at the root. -/
def guarded (entry : String) : List String :=
  (entry :: (guardedDir entry).toList).map fun pattern => String.ofList (anchored pattern.toList)

def lower (s : List Char) : List Char := s.map Char.toLower

/-- The text before the first wildcard. -/
def head (s : List Char) : List Char := s.takeWhile (· ∉ wildcardChars)

/-- The text after the last wildcard or class. -/
def tail (s : List Char) : List Char := s.rtakeWhile (· ∉ ['*', '?', '[', ']'])

/-- Whether one component may match what the other does. -/
def componentsMeet (G : Globset) (a b : String) : Bool :=
  let «matches» (glob literal : String) :=
    (G.error true glob).isSome || G.isMatch true glob literal
  match isLiteralComponent a, isLiteralComponent b with
  | true, true => lower a.toList = lower b.toList
  | true, false => «matches» b a
  | false, true => «matches» a b
  | false, false =>
    let a := lower a.toList
    let b := lower b.toList
    ((head b).isPrefixOf (head a) || (head a).isPrefixOf (head b)) &&
      ((tail b).isSuffixOf (tail a) || (tail a).isSuffixOf (tail b))

/-- Whether some path matches both component lists. -/
def overlap (G : Globset) (a b : List String) : Bool :=
  Wildcard.overlap (fun c => c = "**") (componentsMeet G) a b

def mayCoverProtected (G : Globset) (entry protectedEntry : String) : Bool :=
  (matchPatterns entry).any fun owned =>
    (guarded protectedEntry).any fun g => overlap G (split owned) (split g)

/-! ## Patterns read by components -/

/-- Where a scan of a component stands: in plain text, at the start of a class, or behind an
    item of it, where `lo` is where the last range starts, perhaps with a `-` after it. -/
inductive Scan
  | text
  | opened
  | item (lo : Char)
  | range (lo : Char)
  deriving DecidableEq, Repr

/-- One character of a component that has no braces, no escapes, and only classes that list
    what they match, which is never the separator. -/
def Scan.next : Scan → Char → Option Scan
  | .text, c =>
    if c = '[' then some .opened else if c ∈ ['{', '}', '\\', '/'] then none else some .text
  | .opened, c => if c ∈ ['!', '^', '/'] then none else some (.item c)
  | .item lo, c =>
    if c = ']' then some .text
    else if c = '-' then some (.range lo)
    else if c = '/' then none
    else some (.item c)
  | .range lo, c =>
    if c = ']' then some .text
    else if c = '/' ∨ lo ≤ '/' ∧ '/' ≤ c then none
    else some (.item lo)

/-- The component is plain text, wildcards and closed classes of listed characters. -/
def ReadableComponent (c : String) : Prop := c.toList.foldlM Scan.next .text = some .text

instance (c : String) : Decidable (ReadableComponent c) := inferInstanceAs (Decidable (_ = _))

def Readable (pattern : String) : Prop := ∀ c ∈ split pattern, ReadableComponent c

instance (pattern : String) : Decidable (Readable pattern) :=
  inferInstanceAs (Decidable (∀ _ ∈ _, _))

/-- Text as a matcher compares it. -/
def fold (caseInsensitive : Bool) (s : String) : List Char :=
  if caseInsensitive then lower s.toList else s.toList

/-- What `globset` documents: a readable component matches within a component of the path,
    `**/` any number of components, ordinary text itself, and a matcher that ignores case
    what differs in case only. -/
structure Globset.Documented (G : Globset) : Prop where
  name : ∀ {i c p}, ReadableComponent c → c ≠ "**" → G.isMatch i c p → '/' ∉ p.toList
  component : ∀ {i c rest p}, ReadableComponent c → c ≠ "**" → G.isMatch i (c ++ "/" ++ rest) p →
    ∃ d q, p = d ++ "/" ++ q ∧ G.isMatch i c d ∧ G.isMatch i rest q
  globstar : ∀ {i rest p}, G.isMatch i ("**" ++ "/" ++ rest) p → G.isMatch i rest p ∨
    ∃ d q, p = d ++ "/" ++ q ∧ '/' ∉ d.toList ∧ G.isMatch i ("**" ++ "/" ++ rest) q
  literal : ∀ {i c d}, ReadableComponent c → (∀ x ∈ c.toList, x ∉ special) → G.isMatch i c d →
    fold i d = fold i c
  literalHead : ∀ {i c d h w}, ReadableComponent c → c = h ++ w → (∀ x ∈ h.toList, x ∉ special) →
    G.isMatch i c d → fold i h <+: fold i d
  literalTail : ∀ {i c d w t}, ReadableComponent c → c = w ++ t →
    (∀ x ∈ t.toList, x ∉ ']' :: special) → G.isMatch i c d → fold i t <:+ fold i d
  ignoresCase : ∀ {c d d'}, ReadableComponent c → G.isMatch false c d →
    lower d.toList = lower d'.toList → G.isMatch true c d'

/-- Two names that differ in more than case. -/
def Differ (x y : String) : Prop :=
  isLiteralComponent x ∧ isLiteralComponent y ∧ lower x.toList ≠ lower y.toList

instance (x y : String) : Decidable (Differ x y) := inferInstanceAs (Decidable (_ ∧ _))

/-- Up to the first place where two names differ, the components of both are readable. -/
def ReadAlike : List String → List String → Prop
  | x :: a, y :: b =>
    ReadableComponent x ∧ ReadableComponent y ∧
      if x = "**" ∨ y = "**" then
        (∀ c ∈ a, ReadableComponent c) ∧ ∀ c ∈ b, ReadableComponent c
      else Differ x y ∨ ReadAlike a b
  | a, b => (∀ c ∈ a, ReadableComponent c) ∧ ∀ c ∈ b, ReadableComponent c

variable {G : Globset} {a b c p : String}

/-! ## Scanning -/

/-- A scan leaves plain text at a `[` only, and stops at braces, escapes and separators. -/
theorem scan_text {l : List Char} {s : Scan} (hl : '[' ∉ l)
    (h : l.foldlM Scan.next .text = some s) :
    s = .text ∧ ∀ x ∈ l, x ∉ ['{', '}', '\\', '/'] := by
  induction l with
  | nil =>
    cases h
    simp
  | cons x l ih =>
    rw [List.mem_cons, not_or] at hl
    rw [List.foldlM_cons, Scan.next, if_neg (Ne.symm hl.1)] at h
    split_ifs at h with hx
    · cases h
    · obtain ⟨hs, hmem⟩ := ih hl.2 h
      exact ⟨hs, List.forall_mem_cons.2 ⟨hx, hmem⟩⟩

/-- A class ends at a `]` only. -/
theorem scan_class {l : List Char} {s : Scan} (hl : ']' ∉ l) (hs : s ≠ .text) :
    l.foldlM Scan.next s ≠ some .text := by
  induction l generalizing s with
  | nil => simpa using hs
  | cons x l ih =>
    rw [List.mem_cons, not_or] at hl
    rw [List.foldlM_cons]
    cases hnext : s.next x with
    | none => simp
    | some s' =>
      refine ih hl.2 ?_
      rintro rfl
      cases s with
      | text => exact hs rfl
      | opened => simp [Scan.next] at hnext
      | item lo =>
        rw [Scan.next, if_neg (Ne.symm hl.1)] at hnext
        split_ifs at hnext <;> cases hnext
      | range lo =>
        rw [Scan.next, if_neg (Ne.symm hl.1)] at hnext
        split_ifs at hnext
        cases hnext

/-- No component holds a separator. -/
theorem scan_slash {l : List Char} {s s' : Scan} (h : l.foldlM Scan.next s = some s') :
    '/' ∉ l := by
  induction l generalizing s with
  | nil => simp
  | cons x l ih =>
    rw [List.foldlM_cons] at h
    obtain ⟨k, hk, h⟩ := Option.bind_eq_some_iff.1 h
    rw [List.mem_cons, not_or]
    refine ⟨?_, ih h⟩
    rintro rfl
    cases s <;> simp [Scan.next] at hk

theorem slash_notMem_of_readable (hc : ReadableComponent c) : '/' ∉ c.toList := scan_slash hc

theorem special_of_wildcard {x : Char} (hx : x ∉ wildcardChars)
    (hx' : x ∉ ['{', '}', '\\', '/']) : x ∉ special := by
  simp only [wildcardChars, special, List.mem_cons, List.not_mem_nil, or_false, not_or] at *
  exact ⟨hx.1, hx.2.1, hx.2.2, hx'⟩

/-- The text before the first wildcard of a readable component is plain. -/
theorem head_plain {w h : List Char} (hc : (h ++ w).foldlM Scan.next .text = some .text)
    (hwild : ∀ x ∈ h, x ∉ wildcardChars) : ∀ x ∈ h, x ∉ special := by
  rw [List.foldlM_append] at hc
  obtain ⟨s, hs, -⟩ := Option.bind_eq_some_iff.1 hc
  have hclass : '[' ∉ h := fun hmem => hwild _ hmem (by decide)
  exact fun x hx => special_of_wildcard (hwild x hx) ((scan_text hclass hs).2 x hx)

/-- As is the text after the last wildcard or class. -/
theorem tail_plain {w t : List Char} (hc : (w ++ t).foldlM Scan.next .text = some .text)
    (hwild : ∀ x ∈ t, x ∉ ['*', '?', '[', ']']) : ∀ x ∈ t, x ∉ ']' :: special := by
  rw [List.foldlM_append] at hc
  obtain ⟨s, -, hs⟩ := Option.bind_eq_some_iff.1 hc
  have hclosed : s = .text := by
    by_contra hne
    exact scan_class (fun hmem => hwild _ hmem (by decide)) hne hs
  subst hclosed
  have hplain := (scan_text (fun hmem => hwild _ hmem (by decide)) hs).2
  intro x hx
  have hx' := hwild x hx
  simp only [List.mem_cons, List.not_mem_nil, or_false, not_or] at hx'
  have hspecial : x ∉ special :=
    special_of_wildcard (by simp [wildcardChars, hx']) (hplain x hx)
  simp [hx', hspecial]

theorem plain_of_isLiteral (hc : ReadableComponent c) (hlit : isLiteralComponent c) :
    ∀ x ∈ c.toList, x ∉ special := by
  have hwild : ∀ x ∈ c.toList, x ∉ wildcardChars := by
    simpa [isLiteralComponent, containsAny] using hlit
  refine head_plain (w := []) ?_ hwild
  rwa [List.append_nil]

/-! ## Case -/

theorem toLower_eq_iff {x s : Char} (hs : s.isAlpha = false) : x.toLower = s ↔ x = s := by
  simp only [Char.isAlpha, Char.isUpper, Char.isLower, Bool.or_eq_false_iff,
    decide_eq_false_iff_not] at hs
  unfold Char.toLower
  split
  · rename_i h
    constructor
    · rintro rfl
      simp only [UInt32.le_iff_toNat_le, UInt32.toNat_add] at hs h
      simp at hs h
      omega
    · rintro rfl
      exact absurd h hs.1
  · rfl

theorem toLower_mem_iff {x : Char} {l : List Char} (hl : ∀ s ∈ l, s.isAlpha = false) :
    x.toLower ∈ l ↔ x ∈ l := by
  constructor
  · intro h
    rwa [(toLower_eq_iff (hl _ h)).1 rfl]
  · intro h
    rwa [(toLower_eq_iff (hl _ h)).2 rfl]

theorem head_lower (s : List Char) : head (lower s) = lower (head s) := by
  have hwild : ∀ s ∈ wildcardChars, s.isAlpha = false := by
    simp [wildcardChars, Char.isAlpha, Char.isUpper, Char.isLower]
  rw [head, lower, List.takeWhile_map, head, lower]
  congr 2
  funext x
  simp only [Function.comp_apply, toLower_mem_iff hwild]

theorem tail_lower (s : List Char) : tail (lower s) = lower (tail s) := by
  have hwild : ∀ s ∈ ['*', '?', '[', ']'], s.isAlpha = false := by
    simp [Char.isAlpha, Char.isUpper, Char.isLower]
  rw [tail, lower, tail, lower, List.rtakeWhile, ← List.map_reverse, List.takeWhile_map,
    List.rtakeWhile, ← List.map_reverse]
  congr 3
  funext x
  simp only [Function.comp_apply, toLower_mem_iff hwild]

theorem lower_prefix_of_fold {i : Bool} {s t : String} (h : fold i s <+: fold i t) :
    lower s.toList <+: lower t.toList := by
  cases i with
  | false => exact h.map Char.toLower
  | true => exact h

theorem lower_suffix_of_fold {i : Bool} {s t : String} (h : fold i s <:+ fold i t) :
    lower s.toList <:+ lower t.toList := by
  cases i with
  | false => exact h.map Char.toLower
  | true => exact h

theorem lower_eq_of_fold {i : Bool} {s t : String} (h : fold i s = fold i t) :
    lower s.toList = lower t.toList := by
  cases i with
  | false => exact congrArg lower h
  | true => exact h

/-! ## Two components of one path -/

namespace Globset.Documented

variable (hG : G.Documented)
include hG

/-- What a readable component matches starts with its head. -/
theorem head_prefix {i : Bool} {d : String} (hc : ReadableComponent c) (h : G.isMatch i c d) :
    head (lower c.toList) <+: lower d.toList := by
  have hsplit : head c.toList ++ c.toList.dropWhile (· ∉ wildcardChars) = c.toList :=
    List.takeWhile_append_dropWhile
  have hplain : ∀ x ∈ head c.toList, x ∉ special := by
    refine head_plain (w := c.toList.dropWhile (· ∉ wildcardChars)) ?_ fun x hx => ?_
    · rwa [hsplit]
    · simpa using List.mem_takeWhile_imp hx
  have hcut : c = String.ofList (head c.toList) ++
      String.ofList (c.toList.dropWhile (· ∉ wildcardChars)) := by
    rw [← String.toList_inj, String.toList_append, String.toList_ofList, String.toList_ofList]
    exact hsplit.symm
  rw [head_lower, ← String.toList_ofList (l := head c.toList)]
  refine lower_prefix_of_fold (hG.literalHead hc hcut ?_ h)
  rwa [String.toList_ofList]

/-- And ends with its tail. -/
theorem tail_suffix {i : Bool} {d : String} (hc : ReadableComponent c) (h : G.isMatch i c d) :
    tail (lower c.toList) <:+ lower d.toList := by
  have hsplit : c.toList.rdropWhile (· ∉ ['*', '?', '[', ']']) ++ tail c.toList = c.toList :=
    List.rdropWhile_append_rtakeWhile
  have hplain : ∀ x ∈ tail c.toList, x ∉ ']' :: special := by
    refine tail_plain (w := c.toList.rdropWhile (· ∉ ['*', '?', '[', ']'])) ?_ fun x hx => ?_
    · rwa [hsplit]
    · simpa using List.mem_rtakeWhile_imp hx
  have hcut : c = String.ofList (c.toList.rdropWhile (· ∉ ['*', '?', '[', ']'])) ++
      String.ofList (tail c.toList) := by
    rw [← String.toList_inj, String.toList_append, String.toList_ofList, String.toList_ofList]
    exact hsplit.symm
  rw [tail_lower, ← String.toList_ofList (l := tail c.toList)]
  refine lower_suffix_of_fold (hG.literalTail hc hcut ?_ h)
  rwa [String.toList_ofList]

/-- Two readable components of one path meet. -/
theorem componentsMeet {d : String} (ha : ReadableComponent a) (hb : ReadableComponent b)
    (hda : G.isMatch false a d) (hdb : G.isMatch true b d) : componentsMeet G a b := by
  unfold Globs.componentsMeet
  split
  · rename_i hla hlb
    -- both are the component itself
    have hd : lower d.toList = lower a.toList :=
      lower_eq_of_fold (hG.literal ha (plain_of_isLiteral ha hla) hda)
    have hd' : lower d.toList = lower b.toList :=
      lower_eq_of_fold (hG.literal hb (plain_of_isLiteral hb hlb) hdb)
    exact decide_eq_true (hd.symm.trans hd')
  · rename_i hla hlb
    have hd : d.toList = a.toList := hG.literal ha (plain_of_isLiteral ha hla) hda
    rw [String.toList_inj] at hd
    subst hd
    exact Bool.or_eq_true_iff.2 (.inr hdb)
  · rename_i hla hlb
    have hd : lower d.toList = lower b.toList :=
      lower_eq_of_fold (hG.literal hb (plain_of_isLiteral hb hlb) hdb)
    exact Bool.or_eq_true_iff.2 (.inr (hG.ignoresCase ha hda hd))
  · have hhead := List.prefix_or_prefix_of_prefix (hG.head_prefix hb hdb) (hG.head_prefix ha hda)
    have htail := List.suffix_or_suffix_of_suffix (hG.tail_suffix hb hdb) (hG.tail_suffix ha hda)
    simpa [List.isPrefixOf_iff_prefix, List.isSuffixOf_iff_suffix] using And.intro hhead htail

end Globset.Documented

/-! ## A path by components -/

theorem split_of_slash_notMem (hc : '/' ∉ c.toList) : split c = [c] := by
  rw [split, List.splitOn_eq_singleton hc]
  simp

theorem split_slash {q : String} (hc : '/' ∉ c.toList) : split (c ++ "/" ++ q) = c :: split q := by
  rw [split, String.toList_append, String.toList_append, List.append_assoc,
    show "/".toList ++ q.toList = '/' :: q.toList from rfl,
    List.splitOn_append_cons_self_of_not_mem hc]
  simp [split]

/-- A pattern is its last component, or a first one with the others after it. -/
theorem split_eq_cons {t x : String} {l : List String} (h : split t = x :: l) :
    '/' ∉ x.toList ∧ (t = x ∧ l = [] ∨ ∃ rest, t = x ++ "/" ++ rest ∧ split rest = l) := by
  have hsplit := splitOn_of_split_eq h
  have hx : x.toList ∈ t.toList.splitOn '/' := by
    rw [hsplit]
    exact List.mem_cons_self
  refine ⟨Text.not_mem_of_mem_splitOn hx, ?_⟩
  rcases Text.splitOn_eq_cons hsplit with ⟨ht, hl⟩ | ⟨rest, ht, hl⟩
  · exact .inl ⟨String.toList_inj.1 ht, List.map_eq_nil_iff.1 hl⟩
  · refine .inr ⟨String.ofList rest, ?_, ?_⟩
    · rw [← String.toList_inj, ht]
      simp
    · rw [split, String.toList_ofList, hl]
      simp [Function.comp_def]

theorem slash_mem (d q : String) : '/' ∈ (d ++ "/" ++ q).toList := by
  simp

theorem slash_inj {d d' q q' : String} (hd : '/' ∉ d.toList) (hd' : '/' ∉ d'.toList)
    (h : d ++ "/" ++ q = d' ++ "/" ++ q') : d = d' ∧ q = q' := by
  have hlist : d.toList ++ '/' :: q.toList = d'.toList ++ '/' :: q'.toList := by
    simpa [String.toList_append] using congrArg String.toList h
  obtain ⟨hleft, hright⟩ := Text.append_cons_inj hd hd' hlist
  exact ⟨String.toList_inj.1 hleft, String.toList_inj.1 hright⟩

namespace Globset.Documented

variable (hG : G.Documented)
include hG

/-- A pattern behind `**/` matches the rest of a path from some component on. -/
theorem matches_globstar {i : Bool} {rest : String}
    (hrest : ∀ {p}, G.isMatch i rest p → Wildcard.Matches (fun c => c = "**")
      (fun c d => G.isMatch i c d) (split rest) (split p))
    (hp : G.isMatch i ("**" ++ "/" ++ rest) p) :
    Wildcard.Matches (fun c => c = "**") (fun c d => G.isMatch i c d) ("**" :: split rest)
      (split p) := by
  induction hn : (split p).length generalizing p with
  | zero => exact absurd (List.length_eq_zero_iff.1 hn) (split_ne_nil p)
  | succ n ih =>
    rcases hG.globstar hp with h | ⟨d, q, rfl, hd, hq⟩
    · exact .skip (by decide) (hrest h)
    · rw [split_slash hd] at hn ⊢
      exact .eat (by decide) (ih hq (by simpa using hn))

/-- A readable pattern matches a path component by component. -/
theorem matches_of_isMatch {i : Bool} {t : String} (ht : Readable t) (hp : G.isMatch i t p) :
    Wildcard.Matches (fun c => c = "**") (fun c d => G.isMatch i c d) (split t) (split p) := by
  induction hl : split t generalizing t p with
  | nil => exact absurd hl (split_ne_nil t)
  | cons x l ih =>
    have hx : ReadableComponent x := ht x (hl ▸ List.mem_cons_self)
    obtain ⟨hslash, ⟨rfl, rfl⟩ | ⟨rest, rfl, hrest⟩⟩ := split_eq_cons hl
    · by_cases hany : t = "**"
      · exact Wildcard.matches_any (by simpa using hany) _
      · rw [split_of_slash_notMem (hG.name hx hany hp)]
        exact .one (by simpa using hany) hp .nil
    · have hreadable : Readable rest := fun c hc =>
        ht c (hl ▸ List.mem_cons_of_mem _ (hrest ▸ hc))
      by_cases hany : x = "**"
      · subst hany
        rw [← hrest]
        exact hG.matches_globstar (fun h => hrest ▸ ih hreadable h hrest) hp
      · obtain ⟨d, q, rfl, hd, hq⟩ := hG.component hx hany hp
        rw [split_slash (hG.name hx hany hd)]
        exact .one (by simpa using hany) hd (ih hreadable hq hrest)

/-- Two readable patterns of one path overlap. -/
theorem overlap_of_readable {t g : String} (ht : Readable t) (hg : Readable g)
    (htp : G.isMatch false t p) (hgp : G.isMatch true g p) : overlap G (split t) (split g) := by
  refine Wildcard.overlap_of_matches (fun ha hb _ _ hda hdb => ?_)
    (hG.matches_of_isMatch ht htp) (hG.matches_of_isMatch hg hgp)
  exact hG.componentsMeet (ht _ ha) (hg _ hb) hda hdb

/-- Two names that differ match no common component. -/
theorem not_differ {x y d : String} (hx : ReadableComponent x) (hy : ReadableComponent y)
    (hdx : G.isMatch false x d) (hdy : G.isMatch true y d) : ¬ Differ x y := by
  rintro ⟨hlx, hly, hne⟩
  have hd : lower d.toList = lower x.toList :=
    lower_eq_of_fold (hG.literal hx (plain_of_isLiteral hx hlx) hdx)
  have hd' : lower d.toList = lower y.toList :=
    lower_eq_of_fold (hG.literal hy (plain_of_isLiteral hy hly) hdy)
  exact hne (hd.symm.trans hd')

/-- Two patterns of one path overlap, when they are readable as far as they are compared. -/
theorem overlap_of_readAlike {t g : String} (h : ReadAlike (split t) (split g))
    (htp : G.isMatch false t p) (hgp : G.isMatch true g p) : overlap G (split t) (split g) := by
  induction hl : split t generalizing t g p with
  | nil => exact absurd hl (split_ne_nil t)
  | cons x a ih =>
    obtain ⟨y, b, hr⟩ := List.exists_cons_of_ne_nil (split_ne_nil g)
    rw [hl, hr, ReadAlike] at h
    obtain ⟨hx, hy, h⟩ := h
    rw [← hl]
    by_cases hany : x = "**" ∨ y = "**"
    · rw [if_pos hany] at h
      refine hG.overlap_of_readable (fun c hc => ?_) (fun c hc => ?_) htp hgp
      · rw [hl] at hc
        exact List.forall_mem_cons.2 ⟨hx, h.1⟩ c hc
      · rw [hr] at hc
        exact List.forall_mem_cons.2 ⟨hy, h.2⟩ c hc
    · rw [if_neg hany] at h
      rw [not_or] at hany
      obtain ⟨hxs, ht⟩ := split_eq_cons hl
      obtain ⟨hys, hg⟩ := split_eq_cons hr
      have hone : ∀ {d}, G.isMatch false x d → G.isMatch true y d →
          (¬ Differ x y → overlap G a b) → overlap G (x :: a) (y :: b) := fun hdx hdy hab =>
        (Wildcard.overlap_one (by simpa using hany.1) (by simpa using hany.2)).2
          ⟨hG.componentsMeet hx hy hdx hdy, hab (hG.not_differ hx hy hdx hdy)⟩
      rw [hl, hr]
      obtain ⟨rfl, rfl⟩ | ⟨t, rfl, rfl⟩ := ht <;> obtain ⟨rfl, rfl⟩ | ⟨g, rfl, rfl⟩ := hg
      · exact hone htp hgp fun _ => by simp [overlap, Wildcard.overlap]
      · -- one component against several
        obtain ⟨d, q, rfl, -, -⟩ := hG.component hy hany.2 hgp
        exact absurd (slash_mem d q) (hG.name hx hany.1 htp)
      · obtain ⟨d, q, rfl, -, -⟩ := hG.component hx hany.1 htp
        exact absurd (slash_mem d q) (hG.name hy hany.2 hgp)
      · obtain ⟨d, q, rfl, hd, hq⟩ := hG.component hx hany.1 htp
        obtain ⟨d', q', he, hd', hq'⟩ := hG.component hy hany.2 hgp
        obtain ⟨rfl, rfl⟩ := slash_inj (hG.name hx hany.1 hd) (hG.name hy hany.2 hd') he
        exact hone hd hd' fun hne => ih (h.resolve_left hne) hq hq' rfl

end Globset.Documented

/-! ## Readable patterns -/

theorem readable_below {t : String} (h : Readable t) : Readable (t ++ "/**") := by
  intro c hc
  rw [split_below, List.mem_append, List.mem_singleton] at hc
  rcases hc with hc | rfl
  · exact h c hc
  · decide

theorem readable_matchPatterns {t : String} (h : Readable p) (ht : t ∈ matchPatterns p) :
    Readable t := by
  have htrim : Readable (trimSlashes p) := by
    intro c hc
    refine h c ?_
    have hsub := (Text.splitOn_rdropWhile_prefix '/' p.toList).subset
    rw [split, trimSlashes, String.toList_ofList] at hc
    exact List.map_subset _ hsub hc
  rw [matchPatterns] at ht
  split at ht
  · rcases List.mem_pair.1 ht with rfl | rfl
    · exact htrim
    · exact readable_below htrim
  · rw [List.mem_singleton.1 ht]
    exact htrim

theorem split_anchored (s : List Char) :
    split (String.ofList (anchored s)) ⊆ split (String.ofList s) := by
  fun_induction anchored s with
  | case1 rest ih =>
    have hsplit : ('*' :: '*' :: '/' :: rest).splitOn '/' = ['*', '*'] :: rest.splitOn '/' :=
      List.splitOn_append_cons_self_of_not_mem (by decide : '/' ∉ ['*', '*']) rest
    rw [split, split, String.toList_ofList, String.toList_ofList] at ih
    rw [split, split, String.toList_ofList, String.toList_ofList, hsplit, List.map_cons]
    exact List.subset_cons_of_subset _ ih
  | case2 => exact List.Subset.refl _

theorem readable_anchored (h : Readable p) : Readable (String.ofList (anchored p.toList)) := by
  intro c hc
  have hsub := split_anchored p.toList hc
  rw [String.ofList_toList] at hsub
  exact h c hsub

theorem eq_append_of_guardedDir {dir : String} (h : guardedDir p = some dir) :
    p = dir ++ "/**" := by
  obtain ⟨l, hl, hdir⟩ := Option.bind_eq_some_iff.1 h
  rw [List.dropSuffix?_eq_some_iff] at hl
  obtain ⟨k, hk, hbeq⟩ := hl
  split_ifs at hdir
  cases hdir
  rw [← String.toList_inj, hk, String.toList_append, String.toList_ofList, beq_iff_eq.1 hbeq]

theorem readable_guarded {g : String} (h : Readable p) (hg : g ∈ guarded p) : Readable g := by
  rw [guarded, List.mem_map] at hg
  obtain ⟨t, ht, rfl⟩ := hg
  rcases List.mem_cons.1 ht with rfl | hdir
  · exact readable_anchored h
  · refine readable_anchored fun c hc => h c ?_
    rw [eq_append_of_guardedDir (Option.mem_toList.1 hdir), split_below]
    exact List.mem_append_left _ hc

theorem readAlike_of_readable {l k : List String} (hl : ∀ c ∈ l, ReadableComponent c)
    (hk : ∀ c ∈ k, ReadableComponent c) : ReadAlike l k := by
  induction l generalizing k with
  | nil => exact ⟨hl, hk⟩
  | cons x l ih =>
    cases k with
    | nil => exact ⟨hl, hk⟩
    | cons y k =>
      rw [List.forall_mem_cons] at hl hk
      refine ⟨hl.1, hk.1, ?_⟩
      split
      · exact ⟨hl.2, hk.2⟩
      · exact .inr (ih hl.2 hk.2)

/-! ## A common path -/

/-- The entry and the protected entry are readable as far as they are compared. -/
def ReadTogether (entry protectedEntry : String) : Prop :=
  ∀ owned ∈ matchPatterns entry, ∀ g ∈ guarded protectedEntry, ReadAlike (split owned) (split g)

/-- Patterns with no braces, no escapes and only classes that list what they match are. -/
theorem readTogether_of_readable {entry protectedEntry : String} (hentry : Readable entry)
    (hprotected : Readable protectedEntry) : ReadTogether entry protectedEntry :=
  fun _ ht _ hg =>
    readAlike_of_readable (readable_matchPatterns hentry ht) (readable_guarded hprotected hg)

/-- The patterns that a pattern with one pair of braces stands for. -/
def alternatives (s : List Char) : List (List Char) :=
  match s.dropWhile (· ≠ '{') with
  | [] => [s]
  | _ :: rest =>
    ((rest.takeWhile (· ≠ '}')).splitOn ',').map fun alternative =>
      s.takeWhile (· ≠ '{') ++ alternative ++ (rest.dropWhile (· ≠ '}')).drop 1

/-- Components match themselves, perhaps in another case; `**` matches any number of them, and
    at the end at least one. -/
def matchFolded (i : Bool) : List String → List String → Bool
  | [], q => q = []
  | c :: l, q =>
    if c = "**" then if l = [] then q ≠ [] else q.tails.any (matchFolded i l)
    else match q with
      | [] => false
      | d :: q => fold i c = fold i d && matchFolded i l q

/-- `globset` on patterns with no metacharacter but `**` and one pair of braces. -/
def braceGlobset : Globset where
  error _ _ := none
  setError _ := none
  isMatch i pattern path := '[' ∉ pattern.toList &&
    (alternatives pattern.toList).any fun t =>
      matchFolded i (split (String.ofList t)) (split path)

theorem alternatives_append {u s : List Char} (hu : '{' ∉ u) :
    alternatives (u ++ s) = (alternatives s).map (u ++ ·) := by
  have htrue : ∀ x ∈ u, decide (x ≠ '{') = true := by
    intro x hx
    simpa using fun he : x = '{' => hu (he ▸ hx)
  rw [alternatives, alternatives, List.dropWhile_append_of_pos htrue,
    List.takeWhile_append_of_pos htrue]
  split
  · simp
  · simp

theorem alternatives_of_notMem {s : List Char} (hs : '{' ∉ s) : alternatives s = [s] := by
  have h := alternatives_append (s := []) hs
  simpa [alternatives] using h

theorem brace_notMem {c : String} (hc : ReadableComponent c) (h : '[' ∉ c.toList) :
    '{' ∉ c.toList :=
  fun hmem => (scan_text h hc).2 _ hmem (by decide)

theorem nil_matchFolded {i : Bool} {q : List String} : matchFolded i [] q = decide (q = []) := rfl

theorem matchFolded_cons {i : Bool} {d : String} {l q : List String} (hne : c ≠ "**") :
    matchFolded i (c :: l) (d :: q) = (fold i c = fold i d && matchFolded i l q) := if_neg hne

theorem matchFolded_nil {i : Bool} {l : List String} (hl : l ≠ []) : ¬ matchFolded i l [] := by
  induction l with
  | nil => exact absurd rfl hl
  | cons c l ih =>
    rw [matchFolded]
    split_ifs with _ hnil
    · simp
    · simpa using ih hnil
    · simp

theorem matchFolded_star {i : Bool} {l q : List String} (hl : l ≠ []) :
    matchFolded i ("**" :: l) q ↔ ∃ s, s <:+ q ∧ matchFolded i l s := by
  simp [matchFolded, hl, List.mem_tails]

/-- There is no plain text in a component of two stars. -/
theorem fold_of_stars {i : Bool} {s : String} (hsub : s.toList ⊆ "**".toList)
    (hs : ∀ x ∈ s.toList, x ∉ special) : fold i s = [] := by
  have hnil : s = "" := by
    rw [← String.toList_eq_nil_iff, List.eq_nil_iff_forall_not_mem]
    intro x hx
    obtain rfl : x = '*' := by simpa using hsub hx
    exact hs '*' hx (by decide)
  subst hnil
  cases i <;> rfl

/-- The braces of a pattern that starts with a component are in what is left of it. -/
theorem isMatch_slash {i : Bool} {c rest : String} (hc : ReadableComponent c) :
    braceGlobset.isMatch i (c ++ "/" ++ rest) p ↔
      '[' ∉ c.toList ∧ '[' ∉ rest.toList ∧ ∃ t ∈ alternatives rest.toList,
        matchFolded i (c :: split (String.ofList t)) (split p) := by
  have hlist : (c ++ "/" ++ rest).toList = (c.toList ++ ['/']) ++ rest.toList := by
    simp
  have hsplit : ∀ t, split (String.ofList ((c.toList ++ ['/']) ++ t)) =
      c :: split (String.ofList t) := by
    intro t
    rw [← split_slash (slash_notMem_of_readable hc)]
    congr 1
    rw [← String.toList_inj]
    simp
  simp only [braceGlobset, Bool.and_eq_true, decide_eq_true_eq, hlist, List.mem_append, not_or]
  constructor
  · rintro ⟨⟨⟨hclass, -⟩, hclass'⟩, hany⟩
    have hbrace : '{' ∉ c.toList ++ ['/'] := by
      simpa using brace_notMem hc hclass
    rw [alternatives_append hbrace, List.any_map, List.any_eq_true] at hany
    obtain ⟨t, ht, hmatch⟩ := hany
    rw [Function.comp_apply, hsplit t] at hmatch
    exact ⟨hclass, hclass', t, ht, hmatch⟩
  · rintro ⟨hclass, hclass', t, ht, hmatch⟩
    have hbrace : '{' ∉ c.toList ++ ['/'] := by
      simpa using brace_notMem hc hclass
    refine ⟨⟨⟨hclass, by decide⟩, hclass'⟩, ?_⟩
    rw [alternatives_append hbrace, List.any_map, List.any_eq_true]
    refine ⟨t, ht, ?_⟩
    rw [Function.comp_apply, hsplit t]
    exact hmatch

theorem isMatch_component {i : Bool} {d : String} (hc : ReadableComponent c) (hne : c ≠ "**") :
    braceGlobset.isMatch i c d ↔ '[' ∉ c.toList ∧ '/' ∉ d.toList ∧ fold i c = fold i d := by
  simp only [braceGlobset, Bool.and_eq_true, decide_eq_true_eq]
  refine and_congr_right fun hclass => ?_
  rw [alternatives_of_notMem (brace_notMem hc hclass), List.any_cons, List.any_nil, Bool.or_false,
    String.ofList_toList, split_of_slash_notMem (slash_notMem_of_readable hc)]
  obtain ⟨x, l, hd⟩ := List.exists_cons_of_ne_nil (split_ne_nil d)
  rw [hd, matchFolded_cons hne, nil_matchFolded]
  simp only [Bool.and_eq_true, decide_eq_true_eq]
  constructor
  · rintro ⟨hfold, rfl⟩
    obtain ⟨hx, ⟨rfl, -⟩ | ⟨rest, -, hrest⟩⟩ := split_eq_cons hd
    · exact ⟨hx, hfold⟩
    · exact absurd hrest (split_ne_nil rest)
  · rintro ⟨hslash, hfold⟩
    rw [split_of_slash_notMem hslash] at hd
    obtain ⟨rfl, rfl⟩ := List.cons.inj hd
    exact ⟨hfold, rfl⟩

theorem fold_append (i : Bool) (s t : String) : fold i (s ++ t) = fold i s ++ fold i t := by
  cases i with
  | false => simp [fold]
  | true => simp [fold, lower]

theorem braceGlobset_documented : braceGlobset.Documented where
  name hc hne h := ((isMatch_component hc hne).1 h).2.1
  component := by
    intro i c rest p hc hne h
    obtain ⟨hclass, hclass', t, ht, hmatch⟩ := (isMatch_slash hc).1 h
    obtain ⟨d, q, hp⟩ := List.exists_cons_of_ne_nil (split_ne_nil p)
    rw [hp, matchFolded_cons hne] at hmatch
    simp only [Bool.and_eq_true, decide_eq_true_eq] at hmatch
    obtain ⟨hd, ⟨-, rfl⟩ | ⟨q', rfl, rfl⟩⟩ := split_eq_cons hp
    · exact absurd hmatch.2 (matchFolded_nil (split_ne_nil _))
    · refine ⟨d, q', rfl, (isMatch_component hc hne).2 ⟨hclass, hd, hmatch.1⟩, ?_⟩
      simp only [braceGlobset, Bool.and_eq_true, decide_eq_true_eq, List.any_eq_true]
      exact ⟨hclass', t, ht, hmatch.2⟩
  globstar := by
    intro i rest p h
    have hstar : ReadableComponent "**" := by decide
    obtain ⟨hclass, hclass', t, ht, hmatch⟩ := (isMatch_slash hstar).1 h
    obtain ⟨s, ⟨u, hu⟩, htail⟩ := (matchFolded_star (split_ne_nil _)).1 hmatch
    cases u with
    | nil =>
      left
      simp only [braceGlobset, Bool.and_eq_true, decide_eq_true_eq, List.any_eq_true]
      exact ⟨hclass', t, ht, hu ▸ htail⟩
    | cons d u =>
      right
      obtain ⟨hd, ⟨-, hnil⟩ | ⟨q, rfl, hq⟩⟩ := split_eq_cons hu.symm
      · rw [(List.append_eq_nil_iff.1 hnil).2] at htail
        exact absurd htail (matchFolded_nil (split_ne_nil _))
      · refine ⟨d, q, rfl, hd, (isMatch_slash hstar).2 ⟨hclass, hclass', t, ht, ?_⟩⟩
        exact (matchFolded_star (split_ne_nil _)).2 ⟨s, ⟨u, hq.symm⟩, htail⟩
  literal := by
    intro i c d hc hplain h
    have hne : c ≠ "**" := by
      rintro rfl
      exact hplain '*' (by decide) (by decide)
    exact ((isMatch_component hc hne).1 h).2.2.symm
  literalHead := by
    intro i c d h w hc hcut hplain hd
    by_cases hne : c = "**"
    · have hsub : h.toList ⊆ "**".toList := by
        rw [← hne, hcut, String.toList_append]
        exact List.subset_append_left _ _
      rw [fold_of_stars hsub hplain]
      exact List.nil_prefix
    · rw [← ((isMatch_component hc hne).1 hd).2.2, hcut, fold_append]
      exact List.prefix_append _ _
  literalTail := by
    intro i c d w t hc hcut hplain hd
    by_cases hne : c = "**"
    · have hsub : t.toList ⊆ "**".toList := by
        rw [← hne, hcut, String.toList_append]
        exact List.subset_append_right _ _
      rw [fold_of_stars hsub fun x hx hmem => hplain x hx (List.mem_cons_of_mem _ hmem)]
      exact List.nil_suffix
    · rw [← ((isMatch_component hc hne).1 hd).2.2, hcut, fold_append]
      exact List.suffix_append _ _
  ignoresCase := by
    intro c d d' hc hd hlower
    by_cases hne : c = "**"
    · subst hne
      simp [braceGlobset, alternatives, matchFolded, split_ne_nil,
        split_of_slash_notMem (by decide : '/' ∉ "**".toList)]
    · obtain ⟨hclass, hslash, hfold⟩ := (isMatch_component hc hne).1 hd
      refine (isMatch_component hc hne).2 ⟨hclass, fun hmem => hslash ?_, ?_⟩
      · have hmem' : '/' ∈ lower d.toList := by
          rw [hlower]
          exact List.mem_map.2 ⟨'/', hmem, rfl⟩
        obtain ⟨x, hx, he⟩ := List.mem_map.1 hmem'
        rwa [← (toLower_eq_iff (by decide)).1 he]
      · exact (congrArg lower hfold).trans hlower

end Anthrex.Globs
