import Anthrex.Globs.Overlap

/-!
# Protected paths and their grants

A task may change a protected path only when its `owns` names the path exactly
(`run/globs.rs`). Two readings of `owns` decide this: the done gate drops the changed paths
that `namesLiterally` finds (`splitProtected`), and the grants the user approves are the
literals of `owns` that the matcher guards (`literalProtected`). The gate also guards a
symbolic link that leads to protected paths, which the grants do not count: a link that
`owns` names passes the gate with no grant. Everywhere else the two agree, when no entry
starts with `./` twice.
-/

namespace Anthrex.Globs

/-- Every metacharacter as a class of one character, so that the glob names the path. -/
def escapePath (path : List Char) : List Char :=
  path.flatMap fun c => if c ∈ ['*', '?', '[', ']', '{', '}'] then ['[', c, ']'] else [c]

def isAscii (path : String) : Bool := path.toList.all (·.toNat < 128)

/-! ## The matcher of protected paths -/

/-- The directory of an entry `<dir>/**`, which the matcher guards too. -/
def guardedDir (entry : String) : Option String :=
  (entry.toList.dropSuffix? "/**".toList).bind fun dir =>
    if dir = [] then none else some (String.ofList dir)

/-- The components up to the first with glob syntax, with their classes unescaped. -/
def literalParts : List (List Char) → List (List Char)
  | [] => []
  | part :: parts =>
    match unescaped part with
    | some literal =>
      if literal ≠ [] ∧ literal.all (· ∉ ['{', '}']) then literal :: literalParts parts else []
    | none => []

/-- The patterns of an entry's ancestor directories, which are the prefixes of its literal
    leading path: rooted, or anywhere for a `**/` entry. -/
def ancestorPatterns (entry : String) : List String :=
  let (anywhere, rest) :=
    match entry.toList.dropPrefix? "**/".toList with
    | some rest => (true, rest)
    | none => (false, normalizeLiteral entry.toList)
  let literal := literalParts (rest.splitOn '/')
  (List.range' 1 literal.length).map fun n =>
    let path := escapePath (['/'].intercalate (literal.take n))
    String.ofList (if anywhere then "**/".toList ++ path else path)

/-- `OwnsMatcher` on the protected entries, ignoring case, with their ancestors. -/
structure ProtectedMatcher where
  inner : OwnsMatcher
  ancestors : List String
  deriving DecidableEq, Repr

inductive ProtectedError
  | ancestor (pattern kind : String)
  | ancestors (error : String)
  | inner (error : OwnsError)
  deriving DecidableEq, Repr

namespace ProtectedMatcher

def new (G : Globset) (entries : List String) : Except ProtectedError ProtectedMatcher :=
  let all := entries ++ entries.filterMap guardedDir
  let ancestors := entries.flatMap ancestorPatterns
  match ancestors.findSome? fun p => (G.error true p).map fun kind => (p, kind) with
  | some (p, kind) => .error (.ancestor p kind)
  | none =>
    match G.setError ancestors with
    | some error => .error (.ancestors error)
    | none =>
      match OwnsMatcher.build G all true with
      | .error error => .error (.inner error)
      | .ok inner => .ok ⟨inner, ancestors⟩

def «matches» (G : Globset) (m : ProtectedMatcher) (path : String) : Bool :=
  m.inner.matches G path

/-- A path that is not ASCII may be folded onto a protected one. -/
def guardsChange (G : Globset) (m : ProtectedMatcher) (path : String) : Bool :=
  !isAscii path || m.matches G path

/-- What the done gate asks of a changed path, which may be a symbolic link. -/
def guards (G : Globset) (m : ProtectedMatcher) (path : String) (link : Bool) : Bool :=
  m.guardsChange G path || (link && m.ancestors.any fun p => G.isMatch true p path)

end ProtectedMatcher

/-- The guarded paths that `owns` does not name, in order. -/
def splitProtected (G : Globset) (paths : List (String × Bool)) (owns : List String)
    (m : ProtectedMatcher) : List String :=
  (paths.filter fun (path, link) => m.guards G path link && !namesLiterally owns path).map
    fun (path, _) => path

/-- The protected files that `owns` names, each a grant. -/
def literalProtected (G : Globset) (owns : List String) (m : ProtectedMatcher) : List String :=
  ((owns.filterMap fun entry => unescaped entry.toList).map
    fun literal => String.ofList (normalizeLiteral literal)).filter fun literal =>
      m.guardsChange G literal

/-- A changed path as git reports it. -/
def Reported (path : String) : Prop :=
  ¬ "./".toList <+: path.toList ∧ path.toList.getLast? ≠ some '/'

instance (path : String) : Decidable (Reported path) := inferInstanceAs (Decidable (_ ∧ _))

/-- The path is one of a protected entry, or the directory of an entry `<dir>/**`. -/
def Covered (G : Globset) (entries : List String) (p : String) : Prop :=
  ∃ entry ∈ entries ++ entries.filterMap guardedDir, ∃ t ∈ matchPatterns entry,
    G.isMatch true t p

/-- The path is an ancestor directory of a protected entry. -/
def LeadsTo (G : Globset) (entries : List String) (p : String) : Prop :=
  ∃ entry ∈ entries, ∃ t ∈ ancestorPatterns entry, G.isMatch true t p

variable {G : Globset} {owns entries : List String} {m : ProtectedMatcher} {p : String}
  {link : Bool}

/-! ## Normal literals -/

theorem unescaped_escapePath (path : List Char) : unescaped (escapePath path) = some path := by
  induction path with
  | nil => rfl
  | cons c path ih =>
    rw [escapePath, List.flatMap_cons, ← escapePath]
    by_cases hc : c ∈ ['*', '?', '[', ']', '{', '}']
    · rw [if_pos hc]
      show unescaped ('[' :: c :: ']' :: escapePath path) = _
      rw [unescaped, if_pos hc, ih, Option.map_some]
    · have hne : c ≠ '[' := by
        rintro rfl
        exact hc (by decide)
      have hwild : c ∉ wildcardChars := fun hmem => hc (by simp_all [wildcardChars])
      rw [if_neg hc, List.singleton_append, unescaped, if_neg hwild, ih]
      · rfl
      · intro _ _ he
        exact absurd he hne

/-- A literal with no `./` before it and no `/` after it is normal. -/
theorem normalizeLiteral_eq_self {l : List Char} (hdot : ¬ "./".toList <+: l)
    (hlast : l.getLast? ≠ some '/') : normalizeLiteral l = l := by
  have hstrip : normalizeLiteral l = l.rdropWhile (· = '/') := by
    unfold normalizeLiteral
    split
    · exact absurd ⟨_, rfl⟩ hdot
    · rfl
  rw [hstrip, List.rdropWhile_eq_self_iff]
  intro hne
  rw [List.getLast?_eq_some_getLast hne] at hlast
  simpa using hlast

theorem normalizeLiteral_of_reported (h : Reported p) :
    normalizeLiteral p.toList = p.toList :=
  normalizeLiteral_eq_self h.1 h.2

theorem getLast?_normalizeLiteral (l : List Char) : (normalizeLiteral l).getLast? ≠ some '/' := by
  unfold normalizeLiteral
  intro h
  have hne : ∀ k : List Char, (k.rdropWhile (· = '/')).getLast? ≠ some '/' := by
    intro k hk
    have hnil : k.rdropWhile (· = '/') ≠ [] := by
      intro habs
      rw [habs] at hk
      cases hk
    refine List.rdropWhile_last_not (· = '/') k hnil ?_
    rw [List.getLast?_eq_some_getLast hnil] at hk
    simpa using hk
  exact hne _ h

/-- Only a second `./` is left to drop of a normal literal. -/
theorem normalizeLiteral_idem {l : List Char} (h : ¬ "././".toList <+: l) :
    normalizeLiteral (normalizeLiteral l) = normalizeLiteral l := by
  refine normalizeLiteral_eq_self (fun hdot => ?_) (getLast?_normalizeLiteral l)
  unfold normalizeLiteral at hdot
  split at hdot
  · -- the literal starts with `./`, and what is left of it as well
    obtain ⟨k, hk⟩ := hdot.trans (List.rdropWhile_prefix _ _)
    exact h ⟨k, by rw [← hk]; rfl⟩
  · rename_i hstart
    obtain ⟨k, hk⟩ := hdot.trans (List.rdropWhile_prefix _ _)
    exact hstart k hk.symm

/-! ## What the matcher guards -/

theorem OwnsMatcher.eq_of_build {all : List String} {c : Bool} {m : OwnsMatcher}
    (h : OwnsMatcher.build G all c = .ok m) : m = ⟨c, all.flatMap matchPatterns⟩ := by
  simp only [OwnsMatcher.build] at h
  split at h
  · cases h
  · split at h
    · cases h
    · exact (Except.ok.inj h).symm

namespace ProtectedMatcher

theorem eq_of_new (h : new G entries = .ok m) :
    m = ⟨⟨true, (entries ++ entries.filterMap guardedDir).flatMap matchPatterns⟩,
      entries.flatMap ancestorPatterns⟩ := by
  simp only [new] at h
  split at h
  · cases h
  · split at h
    · cases h
    · split at h
      · cases h
      · rename_i hinner
        rw [← Except.ok.inj h, OwnsMatcher.eq_of_build hinner]

theorem guardsChange_iff (h : new G entries = .ok m) :
    m.guardsChange G p ↔ ¬ isAscii p ∨ Covered G entries p := by
  rw [eq_of_new h]
  simp only [guardsChange, «matches», OwnsMatcher.matches, Covered, Bool.or_eq_true,
    Bool.not_eq_true', Bool.not_eq_true, List.any_eq_true, List.mem_flatMap]
  constructor
  · rintro (hascii | ⟨t, ⟨entry, hentry, ht⟩, hmatch⟩)
    · exact .inl hascii
    · exact .inr ⟨entry, hentry, t, ht, hmatch⟩
  · rintro (hascii | ⟨entry, hentry, t, ht, hmatch⟩)
    · exact .inl hascii
    · exact .inr ⟨t, ⟨entry, hentry, ht⟩, hmatch⟩

theorem guards_iff (h : new G entries = .ok m) :
    m.guards G p link ↔ m.guardsChange G p ∨ link ∧ LeadsTo G entries p := by
  rw [eq_of_new h]
  simp only [guards, LeadsTo, Bool.or_eq_true, Bool.and_eq_true, List.any_eq_true,
    List.mem_flatMap]
  refine or_congr_right (and_congr_right fun _ => ?_)
  constructor
  · rintro ⟨t, ⟨entry, hentry, ht⟩, hmatch⟩
    exact ⟨entry, hentry, t, ht, hmatch⟩
  · rintro ⟨entry, hentry, t, ht, hmatch⟩
    exact ⟨t, ⟨entry, hentry, ht⟩, hmatch⟩

end ProtectedMatcher

/-! ## The two readings -/

theorem mem_splitProtected {changed : List (String × Bool)} :
    p ∈ splitProtected G changed owns m ↔
      ∃ link, (p, link) ∈ changed ∧ m.guards G p link ∧ ¬ namesLiterally owns p := by
  simp [splitProtected]

theorem mem_literalProtected :
    p ∈ literalProtected G owns m ↔ m.guardsChange G p ∧
      ∃ entry ∈ owns, ∃ l, unescaped entry.toList = some l ∧
        p = String.ofList (normalizeLiteral l) := by
  simp only [literalProtected, List.mem_filter, List.mem_map, List.mem_filterMap]
  constructor
  · rintro ⟨⟨l, ⟨entry, hentry, hl⟩, rfl⟩, hguards⟩
    exact ⟨hguards, entry, hentry, l, hl, rfl⟩
  · rintro ⟨hguards, entry, hentry, l, hl, rfl⟩
    exact ⟨⟨l, ⟨entry, hentry, hl⟩, rfl⟩, hguards⟩

theorem namesLiterally_iff :
    namesLiterally owns p ↔ ∃ entry ∈ owns, ∃ l, unescaped entry.toList = some l ∧
      normalizeLiteral l = normalizeLiteral p.toList := by
  simp [namesLiterally, Option.any_eq_true]

/-- The gate reads `owns` as the grants do on a path that git reports. -/
theorem namesLiterally_iff_of_reported (h : Reported p) :
    namesLiterally owns p ↔ ∃ entry ∈ owns, ∃ l, unescaped entry.toList = some l ∧
      p = String.ofList (normalizeLiteral l) := by
  have heq : ∀ l, normalizeLiteral l = p.toList ↔ p = String.ofList (normalizeLiteral l) := by
    intro l
    rw [← String.toList_inj, String.toList_ofList, eq_comm]
  rw [namesLiterally_iff, normalizeLiteral_of_reported h]
  simp only [heq]

/-- Every path can be granted. -/
theorem namesLiterally_escapePath (p : String) :
    namesLiterally [String.ofList (escapePath p.toList)] p := by
  rw [namesLiterally_iff]
  refine ⟨_, List.mem_singleton_self _, p.toList, ?_, rfl⟩
  rw [String.toList_ofList, unescaped_escapePath]

/-- An entry names its own literal, unless it starts with `./` twice. -/
theorem namesLiterally_literal {entry : String} {l : List Char} (hentry : entry ∈ owns)
    (hl : unescaped entry.toList = some l) (hdot : ¬ "././".toList <+: l) :
    namesLiterally owns (String.ofList (normalizeLiteral l)) := by
  rw [namesLiterally_iff]
  refine ⟨entry, hentry, l, hl, ?_⟩
  rw [String.toList_ofList, normalizeLiteral_idem hdot]

/-- A path that the gate drops is granted, unless it is guarded as a link only. -/
theorem granted_iff {changed : List (String × Bool)} (hm : ProtectedMatcher.new G entries = .ok m)
    (hp : Reported p) (hc : (p, link) ∈ changed) :
    (m.guards G p link → p ∉ splitProtected G changed owns m → p ∈ literalProtected G owns m) ↔
      ¬ (link ∧ LeadsTo G entries p ∧ isAscii p ∧ ¬ Covered G entries p ∧
        namesLiterally owns p) := by
  have hguards : m.guards G p link ↔ _ := ProtectedMatcher.guards_iff hm
  have hchange : m.guardsChange G p ↔ _ := ProtectedMatcher.guardsChange_iff hm
  have hmem : p ∈ literalProtected G owns m ↔ m.guardsChange G p ∧ namesLiterally owns p := by
    rw [mem_literalProtected, namesLiterally_iff_of_reported hp]
  rw [hmem]
  constructor
  · rintro h ⟨hlink, hleads, hascii, hcovered, hnamed⟩
    have hdropped : p ∉ splitProtected G changed owns m := by
      rw [mem_splitProtected]
      rintro ⟨_, _, _, hnot⟩
      exact hnot hnamed
    have hgranted := h (hguards.2 (.inr ⟨hlink, hleads⟩)) hdropped
    exact (hchange.1 hgranted.1).elim (fun hnot => hnot hascii) hcovered
  · intro h hg hdropped
    have hnamed : namesLiterally owns p := by
      by_contra hnot
      exact hdropped (mem_splitProtected.2 ⟨link, hc, hg, hnot⟩)
    refine ⟨?_, hnamed⟩
    by_contra hnot
    rw [hchange, not_or, not_not] at hnot
    rcases hguards.1 hg with hgc | ⟨hlink, hleads⟩
    · exact (hchange.1 hgc).elim (fun hna => hna hnot.1) hnot.2
    · exact h ⟨hlink, hleads, hnot.1, hnot.2, hnamed⟩

/-- The gate drops every granted path, unless an entry starts with `./` twice and no other
    names what the first one grants. -/
theorem dropped_iff (hm : ProtectedMatcher.new G entries = .ok m) :
    (∀ q ∈ literalProtected G owns m, ∀ changed, q ∉ splitProtected G changed owns m) ↔
      ∀ entry ∈ owns, ∀ l, unescaped entry.toList = some l → "././".toList <+: l →
        ∀ q, q = String.ofList (normalizeLiteral l) → ¬ isAscii q ∨ Covered G entries q →
          namesLiterally owns q := by
  constructor
  · rintro h entry hentry l hl - q hq hguarded
    have hchange := (ProtectedMatcher.guardsChange_iff hm).2 hguarded
    by_contra hnot
    refine h q (mem_literalProtected.2 ⟨hchange, entry, hentry, l, hl, hq⟩) [(q, false)] ?_
    rw [mem_splitProtected]
    exact ⟨false, List.mem_singleton_self _,
      (ProtectedMatcher.guards_iff hm).2 (.inl hchange), hnot⟩
  · intro h q hq changed hsplit
    obtain ⟨hchange, entry, hentry, l, hl, hql⟩ := mem_literalProtected.1 hq
    obtain ⟨_, _, _, hnot⟩ := mem_splitProtected.1 hsplit
    by_cases hdot : "././".toList <+: l
    · exact hnot (h entry hentry l hl hdot q hql ((ProtectedMatcher.guardsChange_iff hm).1 hchange))
    · exact hnot (hql ▸ namesLiterally_literal hentry hl hdot)

/-! ## Valid entries -/

/-- Characters with no class of their own stand for themselves. -/
theorem eq_cons_of_unescaped {c : Char} {e l : List Char}
    (hc : c ∉ ['*', '?', '[', ']', '{', '}']) (h : unescaped e = some (c :: l)) :
    ∃ e', e = c :: e' ∧ unescaped e' = some l := by
  revert h
  fun_cases unescaped e with
  | case1 => simp
  | case2 d rest hd =>
    intro h
    obtain ⟨k, -, hk⟩ := Option.map_eq_some_iff.1 h
    exact absurd (List.cons.inj hk).1 (fun he => hc (he ▸ hd))
  | case3 => simp
  | case4 => simp
  | case5 d rest =>
    intro h
    obtain ⟨k, hk, he⟩ := Option.map_eq_some_iff.1 h
    obtain ⟨rfl, rfl⟩ := List.cons.inj he
    exact ⟨rest, rfl, hk⟩

theorem dot_mem_split {k : List Char} : "." ∈ split (String.ofList ('.' :: '/' :: k)) := by
  have hsplit : ('.' :: '/' :: k).splitOn '/' = ['.'] :: k.splitOn '/' :=
    List.splitOn_append_cons_self_of_not_mem (by decide : '/' ∉ ['.']) k
  rw [split, String.toList_ofList, hsplit, List.map_cons]
  exact List.mem_cons_self

theorem dot_mem_split_body {entry : String} {e : List Char}
    (h : entry.toList = '.' :: '/' :: e) : "." ∈ split (body entry) := by
  unfold body
  split
  · rw [h]
    cases e with
    | nil => decide
    | cons c e => exact dot_mem_split
  · rw [← String.ofList_toList (s := entry), h]
    exact dot_mem_split

/-- A valid entry does not name a path from `./` on. -/
theorem not_dot_prefix_of_validateGlob {entry : String} {l : List Char}
    (h : validateGlob G entry = .ok ()) (hl : unescaped entry.toList = some l) :
    ¬ "./".toList <+: l := by
  rintro ⟨k, rfl⟩
  obtain ⟨e', he, hl'⟩ := eq_cons_of_unescaped (c := '.') (l := '/' :: k) (by decide) hl
  obtain ⟨e, rfl, -⟩ := eq_cons_of_unescaped (c := '/') (l := k) (by decide) hl'
  have hdot := dot_mem_split_body he
  unfold validateGlob at h
  split_ifs at h

/-- The gate drops every path that valid entries grant. -/
theorem dropped_of_validateGlob {changed : List (String × Bool)}
    (hm : ProtectedMatcher.new G entries = .ok m)
    (h : ∀ entry ∈ owns, validateGlob G entry = .ok ()) (hp : p ∈ literalProtected G owns m) :
    p ∉ splitProtected G changed owns m := by
  refine (dropped_iff hm).2 (fun entry hentry l hl hdot => ?_) p hp changed
  have hstart : "./".toList <+: "././".toList := ⟨"./".toList, rfl⟩
  exact absurd (hstart.trans hdot) (not_dot_prefix_of_validateGlob (h entry hentry) hl)

/-! ## Where the two agree -/

/-- For a changed path that git reports, what the gate drops is granted and what is granted is
    dropped, if and only if `owns` does not name a link that is guarded as an ancestor only, and
    no entry starts with `./` twice, with a guarded literal that no other entry names. -/
theorem grants_agree_iff {changed : List (String × Bool)}
    (hm : ProtectedMatcher.new G entries = .ok m) (hp : Reported p) (hc : (p, link) ∈ changed) :
    ((m.guards G p link → p ∉ splitProtected G changed owns m → p ∈ literalProtected G owns m) ∧
      ∀ q ∈ literalProtected G owns m, ∀ paths, q ∉ splitProtected G paths owns m) ↔
    ¬ (link ∧ LeadsTo G entries p ∧ isAscii p ∧ ¬ Covered G entries p ∧ namesLiterally owns p) ∧
      ∀ entry ∈ owns, ∀ l, unescaped entry.toList = some l → "././".toList <+: l →
        ∀ q, q = String.ofList (normalizeLiteral l) → ¬ isAscii q ∨ Covered G entries q →
          namesLiterally owns q :=
  and_congr (granted_iff hm hp hc) (dropped_iff hm)

/-- A protected file that `owns` names is granted. -/
theorem grants_agree_file :
    "AGENTS.md" ∈ literalProtected literalGlobset ["AGENTS.md"]
      ⟨⟨true, ["AGENTS.md", "AGENTS.md/**"]⟩, ["AGENTS.md"]⟩ := by
  have hm : ProtectedMatcher.new literalGlobset ["AGENTS.md"] =
    .ok ⟨⟨true, ["AGENTS.md", "AGENTS.md/**"]⟩, ["AGENTS.md"]⟩ := rfl
  have hp : Reported "AGENTS.md" := by decide
  have hc : ("AGENTS.md", false) ∈ [("AGENTS.md", false)] := by decide
  refine ((grants_agree_iff hm hp hc).2 ⟨?_, ?_⟩).1 (by decide) (by decide)
  · rintro ⟨hlink, -⟩
    cases hlink
  · intro entry hentry l hl hdot
    rw [List.mem_singleton.1 hentry] at hl
    cases hl
    exact absurd hdot (by decide)

/-- A link that leads to the workflows passes the gate when `owns` names it, with no grant. -/
theorem linked_ancestor_ungranted :
    validateGlob literalGlobset ".github" = .ok () ∧ Reported ".github" ∧
    ∃ m, ProtectedMatcher.new literalGlobset [".github/workflows/**"] = .ok m ∧
      m.guards literalGlobset ".github" true ∧
      ".github" ∉ splitProtected literalGlobset [(".github", true)] [".github"] m ∧
      ".github" ∉ literalProtected literalGlobset [".github"] m :=
  ⟨by decide, by decide, _, rfl, by decide, by decide, by decide⟩

end Anthrex.Globs
