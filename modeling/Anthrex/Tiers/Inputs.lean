import Anthrex.Data.Text
import Anthrex.Tiers.Affected

/-!
# The inputs of a module's tests

The tree part of the cache key of a per-module step (`run/tiers/inputs.rs`): the paths
outside the modules, and those of the modules its affected set depends on. `key_tree`
must change whenever a module of the set is affected by a change of the tree, or a
stale green result would be reused.

SHA-256 and git's tree ids are parameters: a digest of text, and an id for each tree.
-/

namespace Anthrex.Tiers

open Globs

/-- The character NUL. -/
def nul : Char := Char.ofNat 0

/-- One entry of `git ls-tree`. As it is read (`parseEntry`), its mode ends at a space,
    its object at a tab and its path at a NUL. -/
structure TreeEntry where
  mode : String
  object : String
  path : String
  space_notMem : ' ' ∉ mode.toList
  tab_notMem : '\t' ∉ object.toList
  nul_notMem : nul ∉ path.toList
  deriving DecidableEq

/-- Reads `<mode> <kind> <object>\t<path>`. -/
def parseEntry (line : List Char) (hline : nul ∉ line) : Option TreeEntry :=
  match ht : Text.cut '\t' line with
  | none => none
  | some (info, path) =>
    match hm : Text.cut ' ' info with
    | none => none
    | some (mode, rest) =>
      match ho : Text.cut ' ' rest with
      | none => none
      | some (_kind, object) => some
        { mode := String.ofList mode
          object := String.ofList (object.takeWhile (· ≠ ' '))
          path := String.ofList path
          space_notMem := by
            rw [String.toList_ofList]
            exact (Text.cut_eq_some hm).1
          tab_notMem := by
            obtain ⟨hinfo, -⟩ := Text.cut_eq_some ht
            obtain ⟨-, rfl⟩ := Text.cut_eq_some hm
            obtain ⟨-, rfl⟩ := Text.cut_eq_some ho
            rw [String.toList_ofList]
            intro h
            have hobject := (List.takeWhile_sublist _).subset h
            exact hinfo (by simp [hobject])
          nul_notMem := by
            obtain ⟨-, rfl⟩ := Text.cut_eq_some ht
            rw [String.toList_ofList]
            intro h
            exact hline (by simp [h]) }

/-- The entries of `git ls-tree -r -z`, or none when a line does not parse. -/
def treeEntries (out : String) : Option (List TreeEntry) :=
  ((out.toList.splitOn nul).attach.filter (·.1 ≠ [])).mapM fun ⟨line, h⟩ =>
    parseEntry line (Text.not_mem_of_mem_splitOn h)

/-- `modules` and every module they depend on, transitively. -/
def closure (graph : ModuleGraph) (modules : SortedSet String) : SortedSet String :=
  Worklist.closure (fun name => ((graph.modules.get? name).map (·.deps.keys)).getD [])
    (graph.modules.values.flatMap (·.deps.keys)) modules

/-- The text hashed for the entries: `<mode> <object>\t<path>\0` for each. -/
def serialise (entries : List TreeEntry) : List Char :=
  entries.flatMap fun e =>
    e.mode.toList ++ ' ' :: e.object.toList ++ '\t' :: e.path.toList ++ [nul]

/-- `m1:` and the digest of the kept entries. -/
def inputsId (sha256 : List Char → String) (entries : List TreeEntry) (keep : String → Bool) :
    String :=
  "m1:" ++ sha256 (serialise (entries.filter fun e => keep e.path))

/-- Whether a path is an input of a step with the closure `closure`. -/
def keeper (closure : SortedSet String) (modules : List String) (names : ModuleNames)
    (graph : ModuleGraph) (path : String) : Bool :=
  match pathModule path modules with
  | none => true
  | some dir =>
    match moduleName dir names graph with
    | .ok name => name ∈ closure
    | .error _ => true

/-- The key tree of a step for the affected set `set`: the tree's id when the closure
    holds every module, else the inputs id of its entries. -/
def keyTree (sha256 : List Char → String) (tree : String) (entries : List TreeEntry)
    (set : SortedSet String) (modules : List String) (names : ModuleNames) (graph : ModuleGraph) :
    String :=
  let closure := closure graph set
  if graph.modules.keys.all (· ∈ closure) then tree
  else inputsId sha256 entries (keeper closure modules names graph)

end Anthrex.Tiers
