import Anthrex.Data.Text
import Anthrex.Globs

/-!
# Overlapping globs

`intersects` compares the text of two literal prefixes, `OwnsMatcher` matches paths. A
path under two globs starts with the literal prefix of each, so the prefixes agree as far
as both go, and the globs intersect. This holds of prefixes whose components are the ones
of a path: a trailing `/`, which the matcher drops, is an empty last component of the
prefix, and a brace, which opens alternatives in the matcher, is an ordinary character.
-/

namespace Anthrex.Globs

/-- The characters with a meaning in a pattern. -/
def special : List Char := ['*', '?', '[', '{', '}', '\\', '/']

/-- A component that matches itself only. -/
def Plain (c : String) : Prop := c ≠ "" ∧ ∀ x ∈ c.toList, x ∉ special

instance (c : String) : Decidable (Plain c) := inferInstanceAs (Decidable (_ ∧ _))

/-- What `globset` documents of ordinary text: it matches itself, and a component of it
    matches the first component of a path. -/
structure Globset.Lawful (G : Globset) : Prop where
  literal : ∀ {c p}, Plain c → G.isMatch false c p → p = c
  component : ∀ {c rest p}, Plain c → G.isMatch false (c ++ "/" ++ rest) p →
    ∃ q, p = c ++ "/" ++ q ∧ G.isMatch false rest q

/-- The components up to the first place where two lists differ, if they do. -/
def divergence : List String → List String → Option (List String × List String)
  | x :: l, y :: m =>
    if x = y then (divergence l m).map fun d => (x :: d.1, y :: d.2) else some ([x], [y])
  | _, _ => none

/-- A component of a literal prefix that the matcher reads as a component of a path. -/
def NamesComponent (c : String) : Prop := c ≠ "" ∧ '{' ∉ c.toList ∧ '}' ∉ c.toList

instance (c : String) : Decidable (NamesComponent c) := inferInstanceAs (Decidable (_ ∧ _))

/-- Where the literal prefixes of two globs differ, they do so in names. -/
def DifferInNames (a b : String) : Prop :=
  ∀ d ∈ divergence (literalPrefix a) (literalPrefix b),
    (∀ c ∈ d.1, NamesComponent c) ∧ ∀ c ∈ d.2, NamesComponent c

instance (a b : String) : Decidable (DifferInNames a b) := by
  unfold DifferInNames
  infer_instance

/-! ## Prefixes that differ -/

theorem prefix_or_of_divergence_eq_none {l m : List String} (h : divergence l m = none) :
    m <+: l ∨ l <+: m := by
  induction l generalizing m with
  | nil => exact .inr List.nil_prefix
  | cons x l ih =>
    cases m with
    | nil => exact .inl List.nil_prefix
    | cons y m =>
      rw [divergence] at h
      by_cases hxy : x = y
      · rw [if_pos hxy, Option.map_eq_none_iff] at h
        subst hxy
        exact (ih h).imp (List.cons_prefix_cons.2 ⟨rfl, ·⟩) (List.cons_prefix_cons.2 ⟨rfl, ·⟩)
      · rw [if_neg hxy] at h
        cases h

/-- The diverging parts are prefixes of one length, and differ. -/
theorem divergence_spec {l m u v : List String} (h : divergence l m = some (u, v)) :
    u <+: l ∧ v <+: m ∧ u.length = v.length ∧ u ≠ v := by
  induction l generalizing m u v with
  | nil => cases h
  | cons x l ih =>
    cases m with
    | nil => cases h
    | cons y m =>
      rw [divergence] at h
      by_cases hxy : x = y
      · rw [if_pos hxy] at h
        obtain ⟨⟨u', v'⟩, hd, he⟩ := Option.map_eq_some_iff.1 h
        cases he
        obtain ⟨hu, hv, hlen, hne⟩ := ih hd
        refine ⟨List.cons_prefix_cons.2 ⟨rfl, hu⟩, List.cons_prefix_cons.2 ⟨rfl, hv⟩, ?_, ?_⟩
        · simp [hlen]
        · exact fun he => hne (List.cons.inj he).2
      · rw [if_neg hxy] at h
        cases h
        exact ⟨by simp, by simp, rfl, by simpa using hxy⟩

/-! ## From a pattern to a path -/

theorem splitOn_of_split_eq {t : String} {l : List String} (h : split t = l) :
    t.toList.splitOn '/' = l.map String.toList := by
  rw [← h, split]
  simp [Function.comp_def]

theorem prefix_split_iff {u : List String} {t : String} :
    u <+: split t ↔ u.map String.toList <+: t.toList.splitOn '/' := by
  constructor
  · intro h
    simpa [split, Function.comp_def] using h.map String.toList
  · intro h
    simpa [split, Function.comp_def] using h.map String.ofList

theorem nil_notMem_map_toList {u : List String} (hu : ∀ c ∈ u, c ≠ "") :
    [] ∉ u.map String.toList := by
  rw [List.mem_map]
  rintro ⟨c, hc, he⟩
  exact hu c hc (String.toList_eq_nil_iff.1 he)

/-- The patterns of a glob start with what the glob starts with. -/
theorem prefix_split_matchPatterns {u : List String} {a t : String} (hu : ∀ c ∈ u, c ≠ "")
    (h : u <+: split a) (ht : t ∈ matchPatterns a) : u <+: split t := by
  rw [prefix_split_iff] at h
  have htrim : u.map String.toList <+: (trimSlashes a).toList.splitOn '/' := by
    rw [trimSlashes, String.toList_ofList]
    exact Text.prefix_splitOn_rdropWhile (nil_notMem_map_toList hu) h
  have hbelow : u.map String.toList <+: (trimSlashes a ++ "/**").toList.splitOn '/' := by
    rw [String.toList_append, show "/**".toList = '/' :: "**".toList from rfl,
      List.splitOn_append_cons_self]
    exact htrim.trans (List.prefix_append _ _)
  rw [prefix_split_iff]
  rw [matchPatterns] at ht
  split at ht
  · rcases List.mem_pair.1 ht with rfl | rfl
    · exact htrim
    · exact hbelow
  · rw [List.mem_singleton.1 ht]
    exact htrim

theorem slash_notMem_of_plain {c : String} (h : Plain c) : '/' ∉ c.toList :=
  fun hc => h.2 _ hc (by decide)

theorem split_of_plain {c : String} (h : Plain c) : split c = [c] := by
  rw [split, List.splitOn_eq_singleton (slash_notMem_of_plain h)]
  simp

theorem split_plain_slash {c q : String} (h : Plain c) :
    split (c ++ "/" ++ q) = c :: split q := by
  rw [split, String.toList_append, String.toList_append, List.append_assoc,
    show "/".toList ++ q.toList = '/' :: q.toList from rfl,
    List.splitOn_append_cons_self_of_not_mem (slash_notMem_of_plain h)]
  simp [split]

/-- A path starts with the plain components that a pattern matching it starts with. -/
theorem Globset.Lawful.prefix_split {G : Globset} (hG : G.Lawful) {u : List String} {t p : String}
    (hu : ∀ c ∈ u, Plain c) (h : u <+: split t) (hp : G.isMatch false t p) : u <+: split p := by
  induction u generalizing t p with
  | nil => exact List.nil_prefix
  | cons c u ih =>
    rw [List.forall_mem_cons] at hu
    obtain ⟨hc, hu⟩ := hu
    obtain ⟨s, hs⟩ := h
    rcases Text.splitOn_eq_cons (splitOn_of_split_eq hs.symm) with ⟨ht, hnil⟩ | ⟨rest, ht, hrest⟩
    · -- the pattern is the component itself
      obtain rfl := String.toList_inj.1 ht
      obtain rfl : u = [] := by simp_all
      have hp' : split p = [t] := by rw [hG.literal hc hp, split_of_plain hc]
      exact hp' ▸ List.prefix_rfl
    · have ht' : t = c ++ "/" ++ String.ofList rest := by
        rw [← String.toList_inj, ht]
        simp
      obtain ⟨q, rfl, hq⟩ := hG.component hc (ht' ▸ hp)
      rw [split_plain_slash hc]
      refine List.cons_prefix_cons.2 ⟨rfl, ih hu ⟨s, ?_⟩ hq⟩
      rw [split, String.toList_ofList, hrest]
      simp [Function.comp_def]

/-! ## Two globs over one path -/

variable {G : Globset} {a b p : String}

/-- A matcher accepts what a pattern of one of its globs matches. -/
theorem OwnsMatcher.exists_of_matches {owns : List String} {m : OwnsMatcher}
    (hm : OwnsMatcher.new G owns = .ok m) (hp : m.matches G p) :
    ∃ a ∈ owns, ∃ t ∈ matchPatterns a, G.isMatch false t p := by
  have hm' : m = ⟨false, owns.flatMap matchPatterns⟩ := by
    simp only [OwnsMatcher.new, OwnsMatcher.build] at hm
    split at hm
    · cases hm
    · split at hm
      · cases hm
      · exact (Except.ok.inj hm).symm
  subst hm'
  obtain ⟨t, ht, hmatch⟩ := List.any_eq_true.1 hp
  obtain ⟨a, ha, hta⟩ := List.mem_flatMap.1 ht
  exact ⟨a, ha, t, hta, hmatch⟩

theorem backslash_notMem_of_validateGlob (h : validateGlob G a = .ok ()) : '\\' ∉ a.toList := by
  intro hmem
  unfold validateGlob at h
  split_ifs at h

/-- The named components of the literal prefix of a valid glob are plain. -/
theorem plain_of_mem_literalPrefix {c : String} (ha : validateGlob G a = .ok ())
    (hc : c ∈ literalPrefix a) (hname : NamesComponent c) : Plain c := by
  have hlit : isLiteralComponent c := List.mem_takeWhile_imp hc
  have hsplit : c.toList ∈ a.toList.splitOn '/' := by
    obtain ⟨l, hl, rfl⟩ := List.mem_map.1 (List.takeWhile_subset _ hc)
    rwa [String.toList_ofList]
  refine ⟨hname.1, fun x hx => ?_⟩
  simp only [special, List.mem_cons, List.not_mem_nil, or_false, not_or]
  simp only [isLiteralComponent, containsAny, wildcardChars, Bool.not_eq_true', List.any_eq_false,
    decide_eq_true_eq, List.mem_cons, List.not_mem_nil, or_false, not_or] at hlit
  obtain ⟨hstar, hquest, hclass⟩ := hlit x hx
  refine ⟨hstar, hquest, hclass, fun he => hname.2.1 (he ▸ hx), fun he => hname.2.2 (he ▸ hx),
    fun he => ?_, fun he => Text.not_mem_of_mem_splitOn hsplit (he ▸ hx)⟩
  exact backslash_notMem_of_validateGlob ha (he ▸ Text.subset_of_mem_splitOn hsplit hx)

/-- A path under a glob starts with the names that the glob starts with. -/
theorem prefix_split_of_isMatch {u : List String} {t : String} (hG : G.Lawful)
    (ha : validateGlob G a = .ok ()) (ht : t ∈ matchPatterns a) (hp : G.isMatch false t p)
    (hu : u <+: literalPrefix a) (hname : ∀ c ∈ u, NamesComponent c) : u <+: split p := by
  refine hG.prefix_split (fun c hc => ?_) ?_ hp
  · exact plain_of_mem_literalPrefix ha (hu.subset hc) (hname c hc)
  · exact prefix_split_matchPatterns (fun c hc => (hname c hc).1)
      (hu.trans (List.takeWhile_prefix _)) ht

theorem intersects_of_isMatch {t t' : String} (hG : G.Lawful)
    (ha : validateGlob G a = .ok ()) (hb : validateGlob G b = .ok ()) (hab : DifferInNames a b)
    (ht : t ∈ matchPatterns a) (ht' : t' ∈ matchPatterns b)
    (hp : G.isMatch false t p) (hp' : G.isMatch false t' p) : intersects a b := by
  cases hd : divergence (literalPrefix a) (literalPrefix b) with
  | none => simpa [intersects] using prefix_or_of_divergence_eq_none hd
  | some d =>
    obtain ⟨u, v⟩ := d
    obtain ⟨hu, hv, hlen, hne⟩ := divergence_spec hd
    obtain ⟨hnu, hnv⟩ := hab _ hd
    -- the path would start with both parts
    have hup := prefix_split_of_isMatch hG ha ht hp hu hnu
    have hvp := prefix_split_of_isMatch hG hb ht' hp' hv hnv
    exact absurd ((List.prefix_of_prefix_length_le hup hvp hlen.le).eq_of_length hlen) hne

/-- Lists of valid globs with a common path intersect, as do two globs by themselves, when
    the literal prefixes of no two differ in more than names. -/
theorem anyIntersect_of_matches (hG : G.Lawful) {A B : List String} {m n : OwnsMatcher}
    (hA : ∀ a ∈ A, validateGlob G a = .ok ()) (hB : ∀ b ∈ B, validateGlob G b = .ok ())
    (hAB : ∀ a ∈ A, ∀ b ∈ B, DifferInNames a b)
    (hm : OwnsMatcher.new G A = .ok m) (hn : OwnsMatcher.new G B = .ok n)
    (hp : m.matches G p) (hp' : n.matches G p) :
    anyIntersect A B ∧ ∀ a b, A = [a] → B = [b] → intersects a b := by
  obtain ⟨a, ha, t, ht, hmatch⟩ := OwnsMatcher.exists_of_matches hm hp
  obtain ⟨b, hb, t', ht', hmatch'⟩ := OwnsMatcher.exists_of_matches hn hp'
  have hab := intersects_of_isMatch hG (hA a ha) (hB b hb) (hAB a ha b hb) ht ht' hmatch hmatch'
  refine ⟨List.any_eq_true.2 ⟨a, ha, List.any_eq_true.2 ⟨b, hb, hab⟩⟩, ?_⟩
  rintro a' b' rfl rfl
  rwa [List.mem_singleton.1 ha, List.mem_singleton.1 hb] at hab

/-! ## A matcher of literal components -/

/-- Components match themselves; a last `**` matches one or more. -/
def matchComponents : List String → List String → Bool
  | [], q => q = []
  | c :: l, q =>
    if c = "**" ∧ l = [] then q ≠ []
    else match q with
      | [] => false
      | d :: q => c = d && matchComponents l q

/-- `globset` on patterns with no metacharacter but a last `**`. -/
def literalGlobset : Globset where
  error _ _ := none
  setError _ := none
  isMatch _ pattern path := matchComponents (split pattern) (split path)

theorem ne_of_plain {c : String} (h : Plain c) : c ≠ "**" := by
  rintro rfl
  exact h.2 '*' (by decide) (by decide)

theorem matchComponents_cons {c d : String} {l q : List String} (hne : c ≠ "**") :
    matchComponents (c :: l) (d :: q) = (c = d && matchComponents l q) :=
  if_neg fun h => hne h.1

theorem ne_nil_of_matchComponents {l q : List String} (hl : l ≠ []) (h : matchComponents l q) :
    q ≠ [] := by
  rintro rfl
  cases l with
  | nil => exact hl rfl
  | cons c l => simp [matchComponents] at h

theorem matchComponents_plain {c : String} {l q : List String} (hc : Plain c)
    (h : matchComponents (c :: l) q) : ∃ q', q = c :: q' ∧ matchComponents l q' := by
  cases q with
  | nil => exact absurd rfl (ne_nil_of_matchComponents (List.cons_ne_nil c l) h)
  | cons d q =>
    rw [matchComponents_cons (ne_of_plain hc), Bool.and_eq_true, decide_eq_true_eq] at h
    exact ⟨q, by rw [h.1], h.2⟩

theorem split_ne_nil (s : String) : split s ≠ [] := by
  rw [split, Ne, List.map_eq_nil_iff]
  exact List.splitOn_ne_nil _ _

theorem literalGlobset_lawful : literalGlobset.Lawful where
  literal := by
    intro c p hc h
    change matchComponents (split c) (split p) at h
    rw [split_of_plain hc] at h
    obtain ⟨q, hq, hnil⟩ := matchComponents_plain hc h
    obtain rfl := of_decide_eq_true hnil
    rcases Text.splitOn_eq_cons (splitOn_of_split_eq hq) with ⟨hpc, -⟩ | ⟨rest, -, hrest⟩
    · exact String.toList_inj.1 hpc
    · exact absurd hrest (List.splitOn_ne_nil _ _)
  component := by
    intro c rest p hc h
    change matchComponents (split (c ++ "/" ++ rest)) (split p) at h
    rw [split_plain_slash hc] at h
    obtain ⟨q, hq, hmatch⟩ := matchComponents_plain hc h
    rcases Text.splitOn_eq_cons (splitOn_of_split_eq hq) with ⟨-, hnil⟩ | ⟨r, hr, hsplit⟩
    · exact absurd (List.map_eq_nil_iff.1 hnil)
        (ne_nil_of_matchComponents (split_ne_nil rest) hmatch)
    · refine ⟨String.ofList r, ?_, ?_⟩
      · rw [← String.toList_inj, hr]
        simp
      · change matchComponents (split rest) (split (String.ofList r))
        have hrest : split (String.ofList r) = q := by
          rw [split, String.toList_ofList, hsplit]
          simp [Function.comp_def]
        rwa [hrest]

/-- Beside the file `src/a.rs`, the glob `src/**` is told to intersect. -/
theorem anyIntersect_of_matches_file : anyIntersect ["src/a.rs"] ["docs/x.md", "src/**"] :=
  (anyIntersect_of_matches literalGlobset_lawful (p := "src/a.rs")
    (m := ⟨false, ["src/a.rs", "src/a.rs/**"]⟩)
    (n := ⟨false, ["docs/x.md", "docs/x.md/**", "src/**"]⟩) (by decide) (by decide) (by decide)
    rfl rfl (by decide) (by decide)).1

/-- A directory written with a trailing `/` owns the file, and is told to be apart from it. -/
theorem trailing_slash_apart : literalGlobset.Lawful ∧
    validateGlob literalGlobset "src/" = .ok () ∧
    validateGlob literalGlobset "src/a.rs" = .ok () ∧
    (∀ c ∈ split "src/a.rs", c ≠ "" ∧ c ≠ "." ∧ c ≠ "..") ∧
    (∃ m, OwnsMatcher.new literalGlobset ["src/"] = .ok m ∧
      m.matches literalGlobset "src/a.rs") ∧
    (∃ m, OwnsMatcher.new literalGlobset ["src/a.rs"] = .ok m ∧
      m.matches literalGlobset "src/a.rs") ∧
    intersects "src/" "src/a.rs" = false := by
  refine ⟨literalGlobset_lawful, by decide, by decide, by decide, ?_, ?_, by decide⟩
  · exact ⟨⟨false, ["src", "src/**"]⟩, rfl, by decide⟩
  · exact ⟨⟨false, ["src/a.rs", "src/a.rs/**"]⟩, rfl, by decide⟩

end Anthrex.Globs
