import Anthrex.Tiers.Inputs

/-!
# No stale green result

The affected set walks the modules' dependencies backwards, the cache key walks them
forwards; both find the same pairs (`mem_dependents_iff`, `mem_closure_iff`). So the key
of a step that tests an affected module changes with the tree (`keyTree_ne`).
-/

namespace Anthrex.Tiers

open Globs

variable {graph : ModuleGraph}

/-- `a` names `b` among its dependencies. -/
def DependsOn (graph : ModuleGraph) (a b : String) : Prop :=
  ∃ info, graph.modules.get? a = some info ∧ b ∈ info.deps

/-! ## The two walks -/

/-- The users of `dep` in a reverse map. -/
def users (m : SortedMap String (List String)) (dep : String) : List String :=
  (m.get? dep).getD []

theorem mem_users_foldl {m : SortedMap String (List String)} {name dep n : String}
    {deps : List String} :
    n ∈ users (deps.foldl (fun m dep => m.insert dep ((m.get? dep).getD [] ++ [name])) m) dep ↔
      n ∈ users m dep ∨ dep ∈ deps ∧ n = name := by
  induction deps generalizing m with
  | nil => simp
  | cons d deps ih =>
    rw [List.foldl_cons, ih, users, SortedMap.get?_insert]
    by_cases h : dep = d
    · simp only [h, if_true, Option.getD_some, List.mem_append, users, List.mem_cons,
        true_or, true_and]
      tauto
    · simp [h, users]

theorem mem_reverse {name dep : String} :
    name ∈ users (reverse graph) dep ↔ DependsOn graph name dep := by
  have hfold : ∀ (l : List (String × ModuleInfo)) (m : SortedMap String (List String)),
      name ∈ users (l.foldl (fun m e => e.2.deps.keys.foldl
        (fun m dep => m.insert dep ((m.get? dep).getD [] ++ [e.1])) m) m) dep ↔
      name ∈ users m dep ∨ ∃ e ∈ l, dep ∈ e.2.deps ∧ name = e.1 := by
    intro l
    induction l with
    | nil => simp
    | cons e l ih =>
      intro m
      rw [List.foldl_cons, ih, mem_users_foldl]
      simp only [SortedSet.mem_keys, List.mem_cons, exists_eq_or_imp, or_assoc]
  rw [reverse, hfold]
  simp only [users, SortedMap.get?_empty, Option.getD_none, List.not_mem_nil, false_or, DependsOn,
    SortedMap.get?_eq_some_iff]
  constructor
  · rintro ⟨e, he, hdep, rfl⟩
    exact ⟨e.2, he, hdep⟩
  · rintro ⟨info, he, hdep⟩
    exact ⟨_, he, hdep, rfl⟩

/-- The walk back finds what depends on `C`. -/
theorem mem_dependents_iff {C : SortedSet String} {m : String} :
    m ∈ dependents graph C ↔ ∃ c ∈ C, Relation.ReflTransGen (DependsOn graph) m c := by
  have hnodes : ∀ k, ∀ k' ∈ ((reverse graph).get? k).getD [], k' ∈ graph.modules.keys := by
    intro k k' hk'
    obtain ⟨info, hinfo, -⟩ := mem_reverse.1 hk'
    exact List.mem_map.2 ⟨_, SortedMap.get?_eq_some_iff.1 hinfo, rfl⟩
  rw [dependents, Worklist.mem_closure_iff hnodes]
  have hstep : (fun a b => b ∈ ((reverse graph).get? a).getD []) =
      Function.swap (DependsOn graph) := by
    funext a b
    exact propext mem_reverse
  simp only [hstep, Relation.reflTransGen_swap]

/-- The walk forward finds what `M` depends on. -/
theorem mem_closure_iff {M : SortedSet String} {c : String} :
    c ∈ closure graph M ↔ ∃ m ∈ M, Relation.ReflTransGen (DependsOn graph) m c := by
  have hnext : ∀ a b, b ∈ ((graph.modules.get? a).map (·.deps.keys)).getD [] ↔
      DependsOn graph a b := by
    intro a b
    rw [DependsOn]
    cases graph.modules.get? a <;> simp
  have hnodes : ∀ k, ∀ k' ∈ ((graph.modules.get? k).map (·.deps.keys)).getD [],
      k' ∈ graph.modules.values.flatMap (·.deps.keys) := by
    intro k k' hk'
    obtain ⟨info, hinfo, hdep⟩ := (hnext k k').1 hk'
    exact List.mem_flatMap.2 ⟨info, List.mem_map.2 ⟨_, SortedMap.get?_eq_some_iff.1 hinfo, rfl⟩,
      SortedSet.mem_keys.2 hdep⟩
  rw [closure, Worklist.mem_closure_iff hnodes]
  simp only [hnext]

/-- The two walks agree. -/
theorem mem_dependents_iff_closure {C : SortedSet String} {m : String} :
    m ∈ dependents graph C ↔ ∃ c ∈ C, c ∈ closure graph (.ofKeys [m]) := by
  rw [mem_dependents_iff]
  simp [mem_closure_iff]

/-! ## The changed modules -/

theorem bind_eq_ok {ε α β : Type} {x : Except ε α} {f : α → Except ε β} {b : β}
    (h : x >>= f = .ok b) : ∃ a, x = .ok a ∧ f a = .ok b := by
  cases x with
  | error e => cases h
  | ok a => exact ⟨a, rfl, h⟩

/-- What a fold that adds elements, each for some `a` of the list, ends with. -/
theorem mem_foldlM {f : SortedSet String → String → Except FullReason (SortedSet String)}
    {P : String → String → Prop} (hf : ∀ s a s', f s a = .ok s' → ∀ x ∈ s', x ∈ s ∨ P a x)
    {l : List String} {s s' : SortedSet String} (h : l.foldlM f s = .ok s') :
    ∀ x ∈ s', x ∈ s ∨ ∃ a ∈ l, P a x := by
  induction l generalizing s with
  | nil =>
    cases h
    exact fun x hx => .inl hx
  | cons a l ih =>
    rw [List.foldlM_cons] at h
    obtain ⟨s₁, h₁, h⟩ := bind_eq_ok h
    intro x hx
    rcases ih h x hx with hx | ⟨a', ha', hp⟩
    · rcases hf s a s₁ h₁ x hx with hx | hp
      · exact .inl hx
      · exact .inr ⟨a, List.mem_cons_self, hp⟩
    · exact .inr ⟨a', List.mem_cons_of_mem _ ha', hp⟩

theorem changedDirs_ok {G : Globset} {modules source paths : List String}
    {sources tests : Option OwnsMatcher} {dirs : SortedSet String}
    (h : changedDirs G modules source sources tests paths = .ok dirs) :
    ∀ dir ∈ dirs, ∃ p ∈ paths, pathModule p modules = some dir := by
  intro dir hdir
  refine (mem_foldlM (P := fun p dir => pathModule p modules = some dir) ?_ h dir hdir).resolve_left
    (SortedSet.not_mem_empty dir)
  intro s p s' hs x hx
  cases hp : pathModule p modules with
  | some d =>
    simp only [hp, Except.ok.injEq] at hs
    subst hs
    rcases SortedSet.mem_add.1 hx with rfl | hx
    · exact .inr rfl
    · exact .inl hx
  | none =>
    simp only [hp] at hs
    split_ifs at hs
    cases hs
    exact .inl hx

theorem changedModules_ok {names : ModuleNames} {dirs : List String} {start : SortedSet String}
    (h : changedModules names graph dirs = .ok start) :
    ∀ name ∈ start, ∃ dir ∈ dirs, moduleName dir names graph = .ok name := by
  intro name hname
  refine (mem_foldlM (P := fun dir name => moduleName dir names graph = .ok name) ?_ h name
    hname).resolve_left (SortedSet.not_mem_empty name)
  intro s dir s' hs x hx
  cases hd : moduleName dir names graph with
  | ok n =>
    simp only [hd, Except.ok.injEq] at hs
    subst hs
    rcases SortedSet.mem_add.1 hx with rfl | hx
    · exact .inr rfl
    · exact .inl hx
  | error reason => simp [hd] at hs

/-- The affected modules depend on modules of changed paths. -/
theorem affected_modules {G : Globset} {changed hub source modules : List String}
    {tiers : TierProfile} {S : SortedSet String}
    (h : affected G changed tiers hub source modules (.known graph) = .modules S) :
    ∀ m ∈ S, ∃ p ∈ changed, ∃ dir name, pathModule p modules = some dir ∧
      moduleName dir tiers.moduleNames graph = .ok name ∧
      Relation.ReflTransGen (DependsOn graph) m name := by
  rw [affected] at h
  cases hm : affectedModules G changed tiers hub source modules (.known graph) with
  | error reason => simp [hm] at h
  | ok set =>
    simp only [hm, Affected.modules.injEq] at h
    subst h
    rw [affectedModules] at hm
    obtain ⟨triggers, -, hm⟩ := bind_eq_ok hm
    obtain ⟨hubs, -, hm⟩ := bind_eq_ok hm
    obtain ⟨sources, -, hm⟩ := bind_eq_ok hm
    obtain ⟨tests, -, hm⟩ := bind_eq_ok hm
    split at hm
    · cases hm
    obtain ⟨dirs, hdirs, hm⟩ := bind_eq_ok hm
    obtain ⟨start, hstart, hm⟩ := bind_eq_ok hm
    simp only at hm
    split_ifs at hm
    cases hm
    intro m hmem
    obtain ⟨name, hname, hreach⟩ := mem_dependents_iff.1 hmem
    obtain ⟨dir, hdir, hmod⟩ := changedModules_ok hstart name hname
    obtain ⟨p, hp, hpath⟩ := changedDirs_ok hdirs dir (SortedSet.mem_keys.1 hdir)
    exact ⟨p, SortedSet.mem_ofKeys.1 (SortedSet.mem_keys.1 hp), dir, name, hpath, hmod, hreach⟩

/-! ## The key of two trees -/

/-- The entry of a path. -/
def entryAt (entries : List TreeEntry) (p : String) : Option TreeEntry :=
  entries.find? fun e => e.path = p

/-- The paths whose entries differ. -/
def changedPaths (entries₁ entries₂ : List TreeEntry) : List String :=
  ((entries₁ ++ entries₂).map (·.path)).filter fun p => entryAt entries₁ p ≠ entryAt entries₂ p

/-- The text a key tree for `set` is the digest of. -/
def keptText (entries : List TreeEntry) (set : SortedSet String) (modules : List String)
    (names : ModuleNames) (graph : ModuleGraph) : List Char :=
  serialise (entries.filter fun e => keeper (closure graph set) modules names graph e.path)

theorem serialise_injective {entries₁ entries₂ : List TreeEntry}
    (h : serialise entries₁ = serialise entries₂) : entries₁ = entries₂ := by
  induction entries₁ generalizing entries₂ with
  | nil =>
    cases entries₂ with
    | nil => rfl
    | cons e l => simp [serialise] at h
  | cons e₁ l₁ ih =>
    cases entries₂ with
    | nil => simp [serialise] at h
    | cons e₂ l₂ =>
      simp only [serialise, List.flatMap_cons, List.append_assoc, List.cons_append,
        List.nil_append] at h
      obtain ⟨hmode, h⟩ := Text.append_cons_inj e₁.space_notMem e₂.space_notMem h
      obtain ⟨hobject, h⟩ := Text.append_cons_inj e₁.tab_notMem e₂.tab_notMem h
      obtain ⟨hpath, h⟩ := Text.append_cons_inj e₁.nul_notMem e₂.nul_notMem h
      have he : e₁ = e₂ := by
        cases e₁
        cases e₂
        simp_all [String.toList_inj]
      rw [he, ih (by simpa [serialise] using h)]

/-- Entries that are kept alike have the same entry at every kept path. -/
theorem entryAt_eq_of_filter_eq {entries₁ entries₂ : List TreeEntry} {keep : String → Bool}
    (h : (entries₁.filter fun e => keep e.path) = entries₂.filter fun e => keep e.path)
    {p : String} (hp : keep p) : entryAt entries₁ p = entryAt entries₂ p := by
  have hfind : ∀ l : List TreeEntry,
      entryAt l p = (l.filter fun e => keep e.path).find? fun e => e.path = p := by
    intro l
    induction l with
    | nil => rfl
    | cons e l ih =>
      rw [entryAt] at ih ⊢
      by_cases he : e.path = p
      · simp [he, hp]
      · by_cases hk : keep e.path <;> simp [he, hk, ih]
  rw [hfind, hfind, h]

/-- A graph module depends on a set exactly when its closure meets it; and when a change
    from one tree to another affects a module of `M`, the key tree for `M` changes, short
    of a collision of the digests of the kept entries, or of the tree ids. -/
theorem keyTree_ne (G : Globset) (sha256 : List Char → String) :
    (∀ (graph : ModuleGraph) (C : SortedSet String) (m : String), (graph.modules.get? m).isSome →
      (m ∈ dependents graph C ↔ ∃ c ∈ C, c ∈ closure graph (.ofKeys [m]))) ∧
    ∀ (graph : ModuleGraph) (modules hub source : List String) (tiers : TierProfile)
      (tree₁ tree₂ : String) (entries₁ entries₂ : List TreeEntry) (S M : SortedSet String),
      affected G (changedPaths entries₁ entries₂) tiers hub source modules (.known graph) =
          .modules S →
      (∃ m ∈ M, m ∈ S) →
      (tree₁ = tree₂ → entries₁ = entries₂) →
      (sha256 (keptText entries₁ M modules tiers.moduleNames graph) =
          sha256 (keptText entries₂ M modules tiers.moduleNames graph) →
        keptText entries₁ M modules tiers.moduleNames graph =
          keptText entries₂ M modules tiers.moduleNames graph) →
      keyTree sha256 tree₁ entries₁ M modules tiers.moduleNames graph ≠
        keyTree sha256 tree₂ entries₂ M modules tiers.moduleNames graph := by
  refine ⟨fun graph C m _ => mem_dependents_iff_closure, ?_⟩
  intro graph modules hub source tiers tree₁ tree₂ entries₁ entries₂ S M haffected ⟨m, hM, hS⟩
    htree hsha hkey
  obtain ⟨p, hp, dir, name, hpath, hname, hreach⟩ := affected_modules haffected m hS
  have hdiff : entryAt entries₁ p ≠ entryAt entries₂ p := by
    simpa using List.of_mem_filter hp
  -- The changed path is kept: its module is one `m` depends on.
  have hkeep : keeper (closure graph M) modules tiers.moduleNames graph p := by
    simp only [keeper, hpath, hname, decide_eq_true_eq]
    exact mem_closure_iff.2 ⟨m, hM, hreach⟩
  simp only [keyTree] at hkey
  split_ifs at hkey with hall
  · exact hdiff (by rw [htree hkey])
  · have hdigest : ∀ a b : String, "m1:" ++ a = "m1:" ++ b → a = b := fun a b h => by
      simpa [← String.toList_inj] using h
    exact hdiff (entryAt_eq_of_filter_eq (serialise_injective (hsha (hdigest _ _ hkey))) hkeep)

/-- Three packages, of which `b` depends on `a`. -/
def threePackages : ModuleGraph where
  modules := .ofList [("a", ⟨some "crates/a", .empty⟩), ("b", ⟨some "crates/b", .ofKeys ["a"]⟩),
    ("c", ⟨some "crates/c", .empty⟩)]

/-- The tree before and after a change of `crates/a/x`. -/
def before : List TreeEntry :=
  [⟨"100644", "257cc5642cb1a054f08cc83f2d943e56fd3ebe99", "crates/a/x", by decide, by decide,
      by decide⟩,
    ⟨"100644", "e69de29bb2d1d6434b8b29ae775ad8c2e48c5391", "crates/c/x", by decide, by decide,
      by decide⟩]

def after : List TreeEntry :=
  [⟨"100644", "5716ca5987cbf97d6bb54920bea6adde242d87e6", "crates/a/x", by decide, by decide,
      by decide⟩,
    ⟨"100644", "e69de29bb2d1d6434b8b29ae775ad8c2e48c5391", "crates/c/x", by decide, by decide,
      by decide⟩]

/-- SHA-256 of the entries in `a` of the two trees. -/
def digest (text : List Char) : String :=
  if text = serialise (before.take 1) then
    "d1285b5eaae94b75d9d45a26f20260fc279c68ad8029061b00bce7c1df2e1f05"
  else "ae5f1b583aee64c67f34fa3bcfe48ad899ff3be70977576ccf03dbc0b406bcf5"

theorem keyTree_ne_threePackages :
    let G : Globset := ⟨fun _ _ => none, fun _ => none, fun _ pattern path => pattern = path⟩
    affected G (changedPaths before after) ⟨.cargo, [], []⟩ [] [] ["crates/*"]
        (.known threePackages) = .modules (.ofKeys ["a", "b"]) ∧
      keyTree digest "24b3d8323aa6a6e49cfb04dcd188c0f2f96d49f9" before (.ofKeys ["b"]) ["crates/*"]
          .cargo threePackages ≠
        keyTree digest "3e3347ee9d1680b0dfeda6b9ce40d0bc5490f9cb" after (.ofKeys ["b"]) ["crates/*"]
          .cargo threePackages := by
  intro G
  have haffected : affected G (changedPaths before after) ⟨.cargo, [], []⟩ [] [] ["crates/*"]
      (.known threePackages) = .modules (.ofKeys ["a", "b"]) := by decide
  exact ⟨haffected, (keyTree_ne G digest).2 threePackages ["crates/*"] [] [] ⟨.cargo, [], []⟩ _ _
    before after (.ofKeys ["a", "b"]) (.ofKeys ["b"]) haffected ⟨"b", by decide, by decide⟩
    (by decide) (by decide)⟩

end Anthrex.Tiers
