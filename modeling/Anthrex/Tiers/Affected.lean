import Anthrex.Data.Worklist
import Anthrex.Globs

/-!
# The modules a change affects

The affected set of a change (`run/tiers/affected.rs`): the modules whose files changed,
and every module that depends on one of them, or the full set with the reason for it.
-/

namespace Anthrex.Tiers

open Globs

structure ModuleInfo where
  dir : Option String
  deps : SortedSet String
  deriving DecidableEq

/-- Each module's directory, when known, and the modules it depends on. -/
structure ModuleGraph where
  modules : SortedMap String ModuleInfo
  deriving DecidableEq

inductive GraphState
  | known (graph : ModuleGraph)
  | unknown (reason : String)

/-- How the modules are named. -/
inductive ModuleNames
  | cargo
  | dir
  deriving DecidableEq, Repr

/-- The part of the profile the affected set reads. -/
structure TierProfile where
  moduleNames : ModuleNames
  fullTriggers : List String
  testPaths : List String
  deriving DecidableEq, Repr

/-- Why a directory has no module. -/
inductive NoModule
  | noPackage (dir : String)
  | notInGraph (name : String)
  deriving DecidableEq, Repr

/-- Why everything is affected. -/
inductive FullReason
  | invalidGlobs (key : String) (error : OwnsError)
  | fullTrigger (path : String)
  | hubFile (path : String)
  | unownedPath (path : String)
  | graphUnknown (reason : String)
  | noModule (reason : NoModule)
  | everyModule
  deriving DecidableEq, Repr

inductive Affected
  | full (reason : FullReason)
  | modules (set : SortedSet String)
  deriving DecidableEq

/-- A matcher for the glob list `key`: none for an empty list. -/
def matcher (G : Globset) (key : String) (globs : List String) :
    Except FullReason (Option OwnsMatcher) :=
  if globs.isEmpty then .ok none
  else
    match OwnsMatcher.new G globs with
    | .ok m => .ok (some m)
    | .error e => .error (.invalidGlobs key e)

def «matches» (G : Globset) (m : Option OwnsMatcher) (path : String) : Bool :=
  m.any fun m => m.matches G path

/-- A module directory's name in `graph`: its last component, or the package whose
    directory it is. -/
def moduleName (dir : String) (names : ModuleNames) (graph : ModuleGraph) :
    Except NoModule String :=
  match names with
  | .cargo =>
    match graph.modules.entries.find? fun e => e.2.dir = some dir with
    | some e => .ok e.1
    | none => .error (.noPackage dir)
  | .dir =>
    let name := (split dir).getLastD dir
    if (graph.modules.get? name).isSome then .ok name else .error (.notInGraph name)

/-- The modules that depend on each module. -/
def reverse (graph : ModuleGraph) : SortedMap String (List String) :=
  graph.modules.entries.foldl (fun m e =>
    e.2.deps.keys.foldl (fun m dep => m.insert dep ((m.get? dep).getD [] ++ [e.1])) m) .empty

/-- `start` and every module that depends on one of them, transitively. -/
def dependents (graph : ModuleGraph) (start : SortedSet String) : SortedSet String :=
  let reverse := reverse graph
  Worklist.closure (fun name => (reverse.get? name).getD []) graph.modules.keys start

/-- The modules of the changed paths, or why everything is affected: rule 2. -/
def changedDirs (G : Globset) (modules : List String) (source : List String)
    (sources tests : Option OwnsMatcher) (paths : List String) : Except FullReason (SortedSet String) :=
  paths.foldlM (fun dirs path =>
    match pathModule path modules with
    | some dir => .ok (dirs.add dir)
    | none =>
      if !source.isEmpty ∧ !«matches» G sources path ∧ !«matches» G tests path then .ok dirs
      else .error (.unownedPath path)) .empty

/-- The modules of the changed directories. -/
def changedModules (names : ModuleNames) (graph : ModuleGraph) (dirs : List String) :
    Except FullReason (SortedSet String) :=
  dirs.foldlM (fun set dir =>
    match moduleName dir names graph with
    | .ok name => .ok (set.add name)
    | .error reason => .error (.noModule reason)) .empty

/-- The rules in order; the first that applies to a path, in sorted order, wins. -/
def affectedModules (G : Globset) (changed : List String) (tiers : TierProfile)
    (hub source modules : List String) (graph : GraphState) :
    Except FullReason (SortedSet String) := do
  let paths := (SortedSet.ofKeys changed).keys
  let triggers ← matcher G "full_triggers" tiers.fullTriggers
  let hubs ← matcher G "hub" hub
  let sources ← matcher G "source" source
  let tests ← matcher G "test_paths" tiers.testPaths
  -- A full trigger or a hub file.
  match paths.find? fun p => «matches» G triggers p ∨ «matches» G hubs p with
  | some p => .error (if «matches» G triggers p then .fullTrigger p else .hubFile p)
  | none =>
    let dirs ← changedDirs G modules source sources tests paths
    match graph with
    | .unknown reason => .error (.graphUnknown reason)
    | .known graph =>
      let start ← changedModules tiers.moduleNames graph dirs.keys
      let closure := dependents graph start
      if ¬closure.keys.isEmpty ∧ closure.keys.length = graph.modules.keys.length then
        .error .everyModule
      else .ok closure

def affected (G : Globset) (changed : List String) (tiers : TierProfile)
    (hub source modules : List String) (graph : GraphState) : Affected :=
  match affectedModules G changed tiers hub source modules graph with
  | .error reason => .full reason
  | .ok set => .modules set

end Anthrex.Tiers
