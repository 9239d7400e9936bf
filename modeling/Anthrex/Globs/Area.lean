import Anthrex.Globs.Overlap

/-!
# Areas

`insideArea` compares the literal prefix of a glob with those of the area's globs. An area
glob is a literal path, perhaps with `/**` after it, so that its literal prefix is the whole
path: a path under a valid glob inside the area is that path, or lies below it.
-/

namespace Anthrex.Globs

/-- The path an area glob names, which a trailing `/` is no part of. -/
def areaLiteral (glob : String) : String :=
  let chars := glob.toList
  trimSlashes
    (if "/**".toList <:+ chars then String.ofList (chars.take (chars.length - 3)) else glob)

/-- The path is `dir`, or lies below it. -/
def Below (dir path : String) : Prop := path = dir ∨ ∃ rest, path = dir ++ "/" ++ rest

def Braceless (glob : String) : Prop := '{' ∉ glob.toList ∧ '}' ∉ glob.toList

instance (glob : String) : Decidable (Braceless glob) := inferInstanceAs (Decidable (_ ∧ _))

variable {G : Globset} {a g p : String}

/-! ## Paths that start alike -/

/-- A path whose components start with those of another is that one, or lies below it. -/
theorem below_of_prefix_split {dir path : String} (h : split dir <+: split path) :
    Below dir path := by
  rw [prefix_split_iff] at h
  have hdir : (split dir).map String.toList = dir.toList.splitOn '/' := by
    simp [split, Function.comp_def]
  rw [hdir] at h
  obtain ⟨rest, hrest⟩ := h
  have hpath : ['/'].intercalate (dir.toList.splitOn '/' ++ rest) = path.toList := by
    rw [hrest, List.intercalate_splitOn]
  cases rest with
  | nil =>
    refine .inl (String.toList_inj.1 ?_)
    rw [← hpath, List.append_nil, List.intercalate_splitOn]
  | cons c rest =>
    refine .inr ⟨String.ofList (['/'].intercalate (c :: rest)), String.toList_inj.1 ?_⟩
    rw [← hpath, Text.intercalate_append (List.splitOn_ne_nil _ _) (by simp),
      List.intercalate_splitOn]
    simp

/-! ## What an area glob names -/

theorem literalPrefix_eq_split (h : (literalPrefix g).length = (split g).length) :
    literalPrefix g = split g :=
  (List.takeWhile_prefix _).eq_of_length h

theorem split_below (s : String) : split (s ++ "/**") = split s ++ ["**"] := by
  rw [split, String.toList_append, show "/**".toList = '/' :: "**".toList from rfl,
    List.splitOn_append_cons_self, List.map_append]
  rfl

/-- The literal prefix of a valid area glob is the whole path it names, with what is trimmed of
    it. -/
theorem literalPrefix_of_isValidAreaGlob (h : isValidAreaGlob a) :
    ∃ lit, areaLiteral a = trimSlashes lit ∧ literalPrefix a = split lit ∧
      lit.toList ⊆ a.toList := by
  simp only [isValidAreaGlob, Bool.and_eq_true, decide_eq_true_eq] at h
  obtain ⟨-, hlen⟩ := h
  unfold areaLiteral
  split at hlen
  · rename_i hsuffix
    obtain ⟨l, hl⟩ := hsuffix
    have htake : a.toList.take (a.toList.length - 3) = l := by
      rw [← hl, List.length_append, show "/**".toList.length = 3 from rfl, Nat.add_sub_cancel,
        List.take_left]
    refine ⟨String.ofList l, ?_, ?_, ?_⟩
    · dsimp only
      rw [if_pos ⟨l, hl⟩, htake]
    · rw [htake] at hlen
      have hstart := literalPrefix_eq_split hlen
      have ha : a = String.ofList l ++ "/**" := by
        rw [← String.toList_inj, String.toList_append, String.toList_ofList]
        exact hl.symm
      rw [literalPrefix, ha, split_below, ← hstart, literalPrefix]
      have hall : ∀ c ∈ (split (String.ofList l)).takeWhile isLiteralComponent,
          isLiteralComponent c := fun c hc => List.mem_takeWhile_imp hc
      rw [List.takeWhile_append_of_pos hall]
      simp [isLiteralComponent, containsAny, wildcardChars]
    · rw [String.toList_ofList, ← hl]
      exact List.subset_append_left _ _
  · rename_i hsuffix
    refine ⟨a, ?_, literalPrefix_eq_split hlen, fun _ hc => hc⟩
    dsimp only
    rw [if_neg hsuffix]

/-! ## Components of a valid glob -/

theorem split_body_of_validateGlob (h : validateGlob G g = .ok ()) : "" ∉ split (body g) := by
  intro hmem
  unfold validateGlob at h
  split_ifs at h

/-- A valid glob starts with a name. -/
theorem head?_split_of_validateGlob (h : validateGlob G g = .ok ()) : (split g).head? ≠ some "" := by
  intro hhead
  have hslash : g.toList.head? ≠ some '/' := by
    intro habs
    unfold validateGlob at h
    split_ifs at h
  have hblank : g.toList ≠ [] := by
    intro hnil
    unfold validateGlob at h
    simp [hnil] at h
  obtain ⟨s, hs⟩ := List.head?_eq_some_iff.1 hhead
  rcases Text.splitOn_eq_cons (splitOn_of_split_eq hs) with ⟨hnil, -⟩ | ⟨rest, heq, -⟩
  · exact hblank hnil
  · exact hslash (by simp [heq])

/-- Only the last component of a valid glob is empty, where it ends in `/`. -/
theorem dropLast_split_of_validateGlob (h : validateGlob G g = .ok ()) :
    "" ∉ (split g).dropLast := by
  have hbody := split_body_of_validateGlob h
  unfold body at hbody
  split at hbody
  · rename_i hlast
    have hg : g.toList = g.toList.dropLast ++ ['/'] := by
      rw [List.getLast?_eq_some_iff] at hlast
      obtain ⟨l, hl⟩ := hlast
      rw [hl, List.dropLast_concat]
    have hsplit : split g = split (String.ofList g.toList.dropLast) ++ [""] := by
      rw [split, hg, List.splitOn_append_cons_self, List.map_append]
      simp [split]
    rwa [hsplit, List.dropLast_concat]
  · exact fun hmem => hbody (List.dropLast_subset _ hmem)

/-- The components a valid glob starts with are names, when they are those of a trimmed path. -/
theorem not_mem_split_trimSlashes {lit : String} (h : validateGlob G g = .ok ())
    (hstart : split (trimSlashes lit) <+: split g) : "" ∉ split (trimSlashes lit) := by
  obtain ⟨u, c, hu⟩ : ∃ u c, split (trimSlashes lit) = u ++ [c] :=
    ⟨_, _, (List.dropLast_append_getLast (split_ne_nil _)).symm⟩
  rw [hu] at hstart ⊢
  have hinit : u <+: (split g).dropLast := by
    obtain ⟨s, hs⟩ := hstart
    rw [← hs, List.dropLast_append, List.dropLast_concat]
    split
    · exact List.prefix_rfl
    · rw [List.append_assoc]
      exact List.prefix_append _ _
  rw [List.mem_append, List.mem_singleton]
  rintro (hmem | rfl)
  · exact dropLast_split_of_validateGlob h (hinit.subset hmem)
  · -- an empty last component of a trimmed path is its only one
    have hsplit := splitOn_of_split_eq hu
    rw [trimSlashes, String.toList_ofList, List.map_append] at hsplit
    have hnil : u = [] := List.map_eq_nil_iff.1 (Text.eq_nil_of_splitOn_rdropWhile hsplit)
    obtain ⟨s, hs⟩ := hstart
    refine head?_split_of_validateGlob h ?_
    rw [← hs, hnil]
    rfl

/-! ## Inside an area -/

/-- A path under a valid glob inside the area of one area glob. -/
theorem below_of_isMatch {t : String} (hG : G.Lawful) (hg : validateGlob G g = .ok ())
    (ha : isValidAreaGlob a) (hbrace : Braceless a) (hinside : literalPrefix a <+: literalPrefix g)
    (ht : t ∈ matchPatterns g) (hp : G.isMatch false t p) : Below (areaLiteral a) p := by
  obtain ⟨lit, hlit, hsplit, hsubset⟩ := literalPrefix_of_isValidAreaGlob ha
  have htrim : split (trimSlashes lit) <+: split lit := by
    have hstart := (Text.splitOn_rdropWhile_prefix '/' lit.toList).map String.ofList
    rwa [trimSlashes, split, String.toList_ofList]
  have hglob : split (trimSlashes lit) <+: literalPrefix g := htrim.trans (hsplit ▸ hinside)
  have hnames : ∀ c ∈ split (trimSlashes lit), NamesComponent c := by
    intro c hc
    have hchars : c.toList ⊆ a.toList := by
      obtain ⟨l, hl, rfl⟩ := List.mem_map.1 (htrim.subset hc)
      rw [String.toList_ofList]
      exact List.Subset.trans (Text.subset_of_mem_splitOn hl) hsubset
    refine ⟨?_, fun hc => hbrace.1 (hchars hc), fun hc => hbrace.2 (hchars hc)⟩
    rintro rfl
    exact not_mem_split_trimSlashes hg (hglob.trans (List.takeWhile_prefix _)) hc
  rw [hlit]
  exact below_of_prefix_split (prefix_split_of_isMatch hG hg ht hp hglob hnames)

/-- Every path under valid globs inside the area is below what an area glob names. -/
theorem below_of_matches {owns area : List String} {m : OwnsMatcher} (hG : G.Lawful)
    (howns : ∀ g ∈ owns, validateGlob G g = .ok ()) (harea : ∀ a ∈ area, isValidAreaGlob a)
    (hbrace : ∀ a ∈ area, Braceless a) (hinside : ∀ g ∈ owns, insideArea g area)
    (hm : OwnsMatcher.new G owns = .ok m) (hp : m.matches G p) :
    ∃ a ∈ area, Below (areaLiteral a) p := by
  obtain ⟨g, hg, t, ht, hmatch⟩ := OwnsMatcher.exists_of_matches hm hp
  obtain ⟨a, ha, hstart⟩ := List.any_eq_true.1 (hinside g hg)
  exact ⟨a, ha, below_of_isMatch hG (howns g hg) (harea a ha) (hbrace a ha) (by simpa using hstart)
    ht hmatch⟩

end Anthrex.Globs
