import USprache.BuildSystem.Workspace
import USprache.Library.Reachability
import USprache.Library.Worklist

/-!
# Version unification

Dependencies on one build target of a global package, but with different versions, are raised to
one version where they meet.  They meet in the connected components of a graph: a build target is
joined to its users if it is a transitive public user of the global build target.

The order of the iteration over a hash map is not known.  It is a parameter of the functions here.
-/

namespace USprache.BuildSystem

open LexSynt (Text ascii asciiText)
open Library (traverse labelledWorklist)

/-- The order of the iteration over a hash map that was filled with the elements of a list. -/
structure IterationOrder where
  arrange : ∀ {α : Type}, List α → List α
  perm : ∀ {α : Type} (l : List α), (arrange l).Perm l

structure GlobalPackageBuildTargetName where
  packageName : Text
  subpackagePath : FilesystemPath
  buildTargetName : Text
deriving DecidableEq

namespace GlobalPackageBuildTargetName

def key (g : GlobalPackageBuildTargetName) : List ℕ ×ₗ List ℕ ×ₗ List ℕ :=
  toLex (textKey g.packageName, toLex (textKey g.subpackagePath, textKey g.buildTargetName))

def le (l r : GlobalPackageBuildTargetName) : Bool := l.key ≤ r.key

end GlobalPackageBuildTargetName

namespace BuildTargetAbsoluteName

def global? (n : BuildTargetAbsoluteName) : Option (GlobalPackageBuildTargetName × SemanticVersion) :=
  match n.packageName.nameBase with
  | .rootPackage => none
  | .globalVersionedPackage name version => some (⟨name, n.packageName.path, n.name⟩, version)

def versionOf? (g : GlobalPackageBuildTargetName) (n : BuildTargetAbsoluteName) : Option SemanticVersion :=
  match n.global? with
  | none => none
  | some (g', version) => if g' = g then some version else none

def withVersion (version : SemanticVersion) (n : BuildTargetAbsoluteName) : BuildTargetAbsoluteName :=
  match n.packageName.nameBase with
  | .rootPackage => n
  | .globalVersionedPackage name _ =>
    { n with packageName := { n.packageName with nameBase := .globalVersionedPackage name version } }

end BuildTargetAbsoluteName

/-- The loop of `PreserveInListOnlyElementsWithMoreThanOneOccurrences` over a sorted list. -/
def preserveRepeated {α : Type} [DecidableEq α] : List α → List α
  | [] => []
  | el :: rest =>
    let remaining := rest.dropWhile (· = el)
    if rest.head? = some el then el :: preserveRepeated remaining else preserveRepeated remaining
termination_by list => list.length
decreasing_by all_goals exact Nat.lt_succ_of_le (List.dropWhile_suffix _).length_le

def preserveInListOnlyElementsWithMoreThanOneOccurrences (v : List GlobalPackageBuildTargetName) :
    List GlobalPackageBuildTargetName :=
  preserveRepeated (v.mergeSort GlobalPackageBuildTargetName.le)

section

variable (order : IterationOrder)

namespace WorkspaceInfo

variable (workspace : WorkspaceInfo)

/-- The build targets that use the given one as direct public dependency. -/
def publicUsers (name : BuildTargetAbsoluteName) : List BuildTargetAbsoluteName :=
  (order.arrange workspace.buildTargets.entries).flatMap fun (user, target) =>
    (target.publicDependencies.filter (· = name)).map fun _ => user

/-- The build targets that use the given one as direct private dependency and do not list it also in
public dependencies. -/
def privateUsers (name : BuildTargetAbsoluteName) : List BuildTargetAbsoluteName :=
  (order.arrange workspace.buildTargets.entries).flatMap fun (user, target) =>
    (target.privateDependencies.filter
      fun dependency => dependency = name && dependency ∉ target.publicDependencies).map fun _ => user

variable (g : GlobalPackageBuildTargetName)

/-- The versions of a build target in the map of users, in the order of the iteration. -/
def versionsOf : List BuildTargetAbsoluteName :=
  (order.arrange (order.arrange workspace.names)).filter fun n => (n.versionOf? g).isSome

def buildBuildTargetUsersSet : Option (List BuildTargetAbsoluteName) :=
  (((workspace.versionsOf order g).flatMap (workspace.publicUsers order)).foldlM (fun st publicUser =>
    traverse (workspace.publicUsers order) (fun _ _ => ()) workspace.fuel publicUser st) ([], ())).map (·.1)

/-- The build targets that are pushed on the search stack for a visited one. -/
def neighbours (publicUsersSet : List BuildTargetAbsoluteName) (name : BuildTargetAbsoluteName) :
    List BuildTargetAbsoluteName :=
  -- Upwards, but only from a public user of the given build target.
  (if name ∈ publicUsersSet then workspace.publicUsers order name ++ workspace.privateUsers order name
    else []) ++
  -- Downwards, but only to public users of the given build target.
  (workspace.target name).publicDependencies.filter (· ∈ publicUsersSet) ++
  (workspace.target name).privateDependencies.filter (· ∈ publicUsersSet)

def searchRoots : List (BuildTargetAbsoluteName × Nat) :=
  ((workspace.versionsOf order g).flatMap fun n =>
    workspace.publicUsers order n ++ workspace.privateUsers order n).zipIdx

/-- `find_or_construct_default( index ).push_back( name )`. -/
def pushToComponent : List (Nat × List BuildTargetAbsoluteName) → Nat → BuildTargetAbsoluteName →
    List (Nat × List BuildTargetAbsoluteName)
  | [], index, name => [(index, [name])]
  | (index', names) :: components, index, name =>
    if index' = index then (index', names ++ [name]) :: components
    else (index', names) :: pushToComponent components index name

def findBuildTargetUsersGraphConnectedComponents (publicUsersSet : List BuildTargetAbsoluteName)
    (g : GlobalPackageBuildTargetName) : Option (List (Nat × List BuildTargetAbsoluteName)) :=
  let roots := workspace.searchRoots order g
  let neighbours := workspace.neighbours order publicUsersSet
  -- Each root is pushed once, and the neighbours of a build target are pushed once.
  let fuel := roots.length + (workspace.names.map fun name => (neighbours name).length).sum
  (labelledWorklist neighbours fuel roots.reverse []).map fun componentIndexMap =>
    (order.arrange componentIndexMap).foldl
      (fun components (name, index) => pushToComponent components index name) []

def maxVersion (result : SemanticVersion)
    (dependency : BuildTargetAbsoluteName) : SemanticVersion :=
  match dependency.versionOf? g with
  | none => result
  | some version => if result.key < version.key then version else result

def getMaxBuildTargetDependencyVersion (buildTargets : List BuildTargetAbsoluteName)
    (g : GlobalPackageBuildTargetName) : SemanticVersion :=
  buildTargets.foldl (fun result name =>
    (workspace.target name).dependencies.foldl (maxVersion g) result) .zero

def setVersion (version : SemanticVersion)
    (dependency : BuildTargetAbsoluteName) : BuildTargetAbsoluteName :=
  if (dependency.versionOf? g).isSome then dependency.withVersion version else dependency

def mapDependencies (f : BuildTargetAbsoluteName → BuildTargetAbsoluteName → BuildTargetAbsoluteName) :
    WorkspaceInfo where
  buildTargets := workspace.buildTargets.mapValues fun name target =>
    { target with
      publicDependencies := target.publicDependencies.map (f name)
      privateDependencies := target.privateDependencies.map (f name) }

def setDependencyVersion (version : SemanticVersion)
    (st : WorkspaceInfo × Nat) (name : BuildTargetAbsoluteName) : WorkspaceInfo × Nat :=
  (st.1.mapDependencies fun n dependency =>
      if n = name then setVersion g version dependency else dependency,
    st.2 + ((st.1.target name).dependencies.filter
      fun dependency => setVersion g version dependency ≠ dependency).length)

def setBuildTargetDependencyVersion (buildTargets : List BuildTargetAbsoluteName)
    (g : GlobalPackageBuildTargetName) (version : SemanticVersion) : WorkspaceInfo × Nat :=
  buildTargets.foldl (setDependencyVersion g version) (workspace, 0)

def unifyComponent (st : WorkspaceInfo × Nat)
    (component : Nat × List BuildTargetAbsoluteName) : WorkspaceInfo × Nat :=
  let version := st.1.getMaxBuildTargetDependencyVersion component.2 g
  let changed := st.1.setBuildTargetDependencyVersion component.2 g version
  (changed.1, st.2 + changed.2)

def unifyBuildTarget : Option (WorkspaceInfo × Nat) := do
  let publicUsersSet ← workspace.buildBuildTargetUsersSet order g
  let components ← workspace.findBuildTargetUsersGraphConnectedComponents order publicUsersSet g
  some ((order.arrange components).foldl (unifyComponent g) (workspace, 0))

def unifyNext (st : WorkspaceInfo × Nat) (g : GlobalPackageBuildTargetName) :
    Option (WorkspaceInfo × Nat) :=
  (st.1.unifyBuildTarget order g).map fun changed => (changed.1, st.2 + changed.2)

def unifyAll (gs : List GlobalPackageBuildTargetName) : Option (WorkspaceInfo × Nat) :=
  gs.foldlM (unifyNext order) (workspace, 0)

/-- The loop of `UnifyDependenciesOnGlobalVersionedPackages`, with the number of iterations that are
left after this one. -/
def unifyLoop (gs : List GlobalPackageBuildTargetName) : Nat → WorkspaceInfo → Option (Option WorkspaceInfo)
  | remaining, workspace =>
    match workspace.unifyAll order gs with
    | none => none
    | some (workspace, numChanged) =>
      if numChanged = 0 then some (some workspace)
      else
        match remaining with
        | 0 => some none
        | remaining + 1 => unifyLoop gs remaining workspace

def fullIterationsLimit : Nat := 128

def globalPackagesBuildTargets : List GlobalPackageBuildTargetName :=
  preserveInListOnlyElementsWithMoreThanOneOccurrences
    ((order.arrange workspace.buildTargets.entries).filterMap fun (name, target) =>
      -- Executables can't have dependencies.
      if target.targetType = .executable then none else name.global?.map (·.1))

/-- After the unification duplicate dependencies are possible. -/
def normalizeDependencies : WorkspaceInfo where
  buildTargets := workspace.buildTargets.mapValues fun _ target =>
    { target with
      publicDependencies := normalizeList target.publicDependencies
      privateDependencies := normalizeList target.privateDependencies }

/-- `UnifyDependenciesOnGlobalVersionedPackages`: the workspace, if it returns `true`. -/
def unifyDependenciesOnGlobalVersionedPackages : Option (Option WorkspaceInfo) :=
  let gs := workspace.globalPackagesBuildTargets order
  if gs.isEmpty then some (some workspace)
  else
    match unifyLoop order gs fullIterationsLimit workspace with
    | none => none
    | some none => some none
    | some (some workspace) =>
      let workspace := workspace.normalizeDependencies
      (workspace.checkWorkspaceDependencyGraphIsValid).map fun ok => if ok then some workspace else none

end WorkspaceInfo

end

end USprache.BuildSystem
