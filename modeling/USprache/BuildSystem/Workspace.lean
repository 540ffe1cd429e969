import Mathlib.Data.Prod.Lex
import USprache.BuildSystem.BuildGraph
import USprache.Library.FiniteMap
import USprache.Ustlib.IntegerText
import USprache.Ustlib.PathUtils

/-!
# The workspace

All build targets of all packages of a project, with their dependencies resolved to absolute
names.  The checks of the dependency graph and the retrieval of transitive dependencies are
recursive functions over it; fuel bounds their recursion, and a valid graph never uses it up.
-/

namespace USprache.BuildSystem

open LexSynt (Text ascii asciiText)
open List Function

structure SemanticVersion where
  major : UInt32
  minor : UInt32
  patch : UInt32
  tweak : UInt32
deriving DecidableEq

inductive BuildTargetType where
  | executable
  | library
  | sharedLibrary
  | objectFile
deriving DecidableEq

inductive PackageNameBase where
  | rootPackage
  | globalVersionedPackage (name : Text) (version : SemanticVersion)
deriving DecidableEq

structure PackageAbsoluteName where
  nameBase : PackageNameBase
  path : FilesystemPath
deriving DecidableEq

structure BuildTargetAbsoluteName where
  packageName : PackageAbsoluteName
  name : Text
deriving DecidableEq

namespace SemanticVersion

/-- What `<=>` compares, in this order. -/
def key (v : SemanticVersion) : ℕ ×ₗ ℕ ×ₗ ℕ ×ₗ ℕ :=
  toLex (v.major.toNat, toLex (v.minor.toNat, toLex (v.tweak.toNat, v.patch.toNat)))

theorem key_injective : Injective key := by
  rintro ⟨major, minor, patch, tweak⟩ ⟨major', minor', patch', tweak'⟩ h
  simp only [key, EmbeddingLike.apply_eq_iff_eq, Prod.mk.injEq, UInt32.toNat_inj] at h
  obtain ⟨rfl, rfl, rfl, rfl⟩ := h
  rfl

def zero : SemanticVersion := ⟨0, 0, 0, 0⟩

end SemanticVersion

/-- The bytes of a string are compared one after another. -/
def textKey (text : Text) : List ℕ := text.map UInt8.toNat

theorem textKey_injective : Injective textKey := fun _ _ h =>
  map_injective_iff.2 (fun _ _ => UInt8.toNat_inj.1) h

namespace PackageNameBase

def key : PackageNameBase → ℕ ×ₗ List ℕ ×ₗ ℕ ×ₗ ℕ ×ₗ ℕ ×ₗ ℕ
  | .rootPackage => toLex (1, toLex ([], SemanticVersion.zero.key))
  | .globalVersionedPackage name version => toLex (0, toLex (textKey name, version.key))

end PackageNameBase

namespace BuildTargetAbsoluteName

def key (n : BuildTargetAbsoluteName) : (ℕ ×ₗ List ℕ ×ₗ ℕ ×ₗ ℕ ×ₗ ℕ ×ₗ ℕ) ×ₗ List ℕ ×ₗ List ℕ :=
  toLex (n.packageName.nameBase.key, toLex (textKey n.packageName.path, textKey n.name))

def le (l r : BuildTargetAbsoluteName) : Bool := l.key ≤ r.key

end BuildTargetAbsoluteName

def PackageAbsoluteName.lt (l r : PackageAbsoluteName) : Bool :=
  toLex (l.nameBase.key, textKey l.path) < toLex (r.nameBase.key, textKey r.path)

def removeAdjacentDuplicates {α : Type} [DecidableEq α] : List α → List α
  | [] => []
  | [a] => [a]
  | a :: b :: rest =>
    if a = b then removeAdjacentDuplicates (b :: rest) else a :: removeAdjacentDuplicates (b :: rest)

def normalizeList (list : List BuildTargetAbsoluteName) : List BuildTargetAbsoluteName :=
  removeAdjacentDuplicates (list.mergeSort BuildTargetAbsoluteName.le)

theorem mem_removeAdjacentDuplicates {α : Type} [DecidableEq α] {x : α} {l : List α} :
    x ∈ removeAdjacentDuplicates l ↔ x ∈ l := by
  induction l using removeAdjacentDuplicates.induct with
  | case1 | case2 a => exact Iff.rfl
  | case3 a r ih =>
    rw [removeAdjacentDuplicates, if_pos rfl, ih]
    simp only [mem_cons]
    tauto
  | case4 a b r hne ih =>
    rw [removeAdjacentDuplicates, if_neg hne, mem_cons, ih, ← mem_cons]

theorem mem_normalizeList {x : BuildTargetAbsoluteName} {l : List BuildTargetAbsoluteName} :
    x ∈ normalizeList l ↔ x ∈ l := by
  rw [normalizeList, mem_removeAdjacentDuplicates, mem_mergeSort]

structure BuildTarget where
  targetType : BuildTargetType
  sourceFiles : List FilesystemPath := []
  generatedSourceFiles : List FilesystemPath := []
  publicDependencies : List BuildTargetAbsoluteName := []
  privateDependencies : List BuildTargetAbsoluteName := []
  publicDependenciesIncludingTransitive : List BuildTargetAbsoluteName := []
  privateDependenciesIncludingTransitivePublicDependencies : List BuildTargetAbsoluteName := []
  sharedLibraryDependenciesToLink : List BuildTargetAbsoluteName := []

def BuildTarget.dependencies (target : BuildTarget) : List BuildTargetAbsoluteName :=
  target.publicDependencies ++ target.privateDependencies

structure WorkspaceInfo where
  buildTargets : FiniteMap BuildTargetAbsoluteName BuildTarget

namespace WorkspaceInfo

variable (workspace : WorkspaceInfo) (name : BuildTargetAbsoluteName)

def find : Option BuildTarget := workspace.buildTargets.lookup name

/-- `build_targets[ name ]`.  The program halts if there is no such build target. -/
def target : BuildTarget :=
  (workspace.find name).getD { targetType := .objectFile }

def names : List BuildTargetAbsoluteName := workspace.buildTargets.entries.map Prod.fst

def typeIsAllowed (dependency : BuildTargetAbsoluteName) : Bool :=
  match workspace.find dependency with
  | none => true
  | some target => target.targetType = .library ∨ target.targetType = .sharedLibrary

def dependencyGraphIsValidR : Nat → BuildTargetAbsoluteName → List BuildTargetAbsoluteName → Option Bool
  | 0, _, _ => none
  | fuel + 1, name, callStack =>
    -- A dependency loop.
    if name ∈ callStack then some false
    else
      match workspace.find name with
      | none => some false
      | some target =>
        target.dependencies.foldlM (fun ok dependency =>
          if dependency = name then some false
          else
            (dependencyGraphIsValidR fuel dependency (callStack ++ [name])).map fun result =>
              ok && workspace.typeIsAllowed dependency && result) true

def fuel : Nat := workspace.buildTargets.size + 1

def dependencyGraphIsValid : Option Bool :=
  workspace.dependencyGraphIsValidR workspace.fuel name []

def checkWorkspaceDependencyGraphIsValid : Option Bool :=
  workspace.names.foldlM (fun ok name => (workspace.dependencyGraphIsValid name).map (ok && ·)) true

def getAllTargetPublicDependenciesR :
    Nat → BuildTargetAbsoluteName → List BuildTargetAbsoluteName → Option (List BuildTargetAbsoluteName)
  | 0, _, _ => none
  | fuel + 1, name, result =>
    (workspace.target name).publicDependencies.foldlM (fun result publicDependency =>
      (getAllTargetPublicDependenciesR fuel publicDependency result).map (· ++ [publicDependency])) result

def getAllTargetPublicDependencies :
    Option (List BuildTargetAbsoluteName) :=
  (workspace.getAllTargetPublicDependenciesR workspace.fuel name []).map normalizeList

def getAllTargetPrivateAndTheirTransitivePublicDependencies :
    Option (List BuildTargetAbsoluteName) :=
  ((workspace.target name).privateDependencies.foldlM (fun result privateDependency =>
    (workspace.getAllTargetPublicDependenciesR workspace.fuel privateDependency result).map
      (· ++ [privateDependency])) []).map normalizeList

def getAllTargetSharedLibraryDependenciesToLinkR :
    Nat → BuildTargetAbsoluteName → List BuildTargetAbsoluteName → Option (List BuildTargetAbsoluteName)
  | 0, _, _ => none
  | fuel + 1, name, result =>
    let target := workspace.target name
    match target.targetType with
    | .executable => some result
    | .library =>
      -- Shared libraries of public and private library dependencies.
      target.dependencies.foldlM (fun result dependency =>
        getAllTargetSharedLibraryDependenciesToLinkR fuel dependency result) result
    | .sharedLibrary =>
      -- This shared library and those of its public dependencies, but not of the private ones.
      target.publicDependencies.foldlM (fun result dependency =>
        getAllTargetSharedLibraryDependenciesToLinkR fuel dependency result) (result ++ [name])
    | .objectFile => some result

def getAllTargetSharedLibraryDependenciesToLink :
    Option (List BuildTargetAbsoluteName) :=
  ((workspace.target name).dependencies.foldlM (fun result dependency =>
    workspace.getAllTargetSharedLibraryDependenciesToLinkR workspace.fuel dependency result) []).map
      normalizeList

def retrieveTargetDependencies (target : BuildTarget) :
    Option BuildTarget := do
  let publicDependencies ← workspace.getAllTargetPublicDependencies name
  let privateDependencies ← workspace.getAllTargetPrivateAndTheirTransitivePublicDependencies name
  let sharedLibraries ← workspace.getAllTargetSharedLibraryDependenciesToLink name
  some { target with
    publicDependenciesIncludingTransitive := publicDependencies
    -- Private dependencies which are also public dependencies are removed.
    privateDependenciesIncludingTransitivePublicDependencies :=
      target.privateDependenciesIncludingTransitivePublicDependencies ++
        privateDependencies.filter (· ∉ publicDependencies)
    sharedLibraryDependenciesToLink := sharedLibraries }

def dependencyNamesDiffer (target : BuildTarget) : Bool :=
  let allDeps := target.publicDependenciesIncludingTransitive ++
    target.privateDependenciesIncludingTransitivePublicDependencies
  allDeps.all fun depA => allDeps.all fun depB =>
    !(decide (depA.name = depB.name) && depA.packageName.lt depB.packageName)

/-- The workspace with all lists of dependencies, and whether there are no conflicts of names. -/
def retrieveAndCheckWorkspaceTransitiveDependencies : Option (WorkspaceInfo × Bool) :=
  if workspace.buildTargets.entries.all fun (name, target) =>
      (workspace.retrieveTargetDependencies name target).isSome then
    let retrieved : WorkspaceInfo := ⟨workspace.buildTargets.mapValues fun name target =>
        (workspace.retrieveTargetDependencies name target).getD target⟩
    some (retrieved, retrieved.buildTargets.entries.all fun (_, target) => dependencyNamesDiffer target)
  else none

end WorkspaceInfo

end USprache.BuildSystem
