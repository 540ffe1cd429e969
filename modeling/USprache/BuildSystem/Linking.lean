import USprache.BuildSystem.WorkspaceCheck

/-!
# The files of a build target

Each source file of a build target is compiled to a bitcode file, and one more node links
these files, the libraries that the build target depends on and `ustlib` into the result.
Systems with `/` as the separator are considered.
-/

namespace USprache.BuildSystem

open LexSynt (Text ascii asciiText)
open Ustlib (Path.append Path.join Path.normalize)
open Ustlib.NumberParsing (toStringImplU32)

def stringifySemanticVersion (v : SemanticVersion) : Text :=
  toStringImplU32 v.major.toNat [] ++ asciiText "." ++ toStringImplU32 v.minor.toNat [] ++ asciiText "." ++
    toStringImplU32 v.patch.toNat [] ++ asciiText "." ++ toStringImplU32 v.tweak.toNat []

def getBaseBuildDirectory (rootPackageBuildDirectory : FilesystemPath) : PackageNameBase → FilesystemPath
  | .rootPackage => rootPackageBuildDirectory
  | .globalVersionedPackage name version =>
    Path.append
      (Path.append (Path.append rootPackageBuildDirectory (asciiText "global.packages")) name)
      (stringifySemanticVersion version)

def getPackageBuildDirectory (rootPackageBuildDirectory : FilesystemPath)
    (packageName : PackageAbsoluteName) : FilesystemPath :=
  let res := getBaseBuildDirectory rootPackageBuildDirectory packageName.nameBase
  if packageName.path = [] then res else Path.append res packageName.path

section

variable (rootPackageBuildDirectory : FilesystemPath) (targetName : BuildTargetAbsoluteName)

def getBuildTargetBuildFilesDirectory : FilesystemPath :=
  getPackageBuildDirectory rootPackageBuildDirectory targetName.packageName ++ asciiText "/" ++
    targetName.name ++ asciiText ".dir"

def getBuildTargetGeneratedSourcesBuildDirectory : FilesystemPath :=
  Path.join (getBuildTargetBuildFilesDirectory rootPackageBuildDirectory targetName)
    (asciiText "generated.sources.build")

def bitcodeFile (directory sourceFile : FilesystemPath) : FilesystemPath :=
  Path.normalize (directory ++ asciiText "/" ++ sourceFile ++ asciiText ".bc")

def sourceBitcodeFiles (target : BuildTarget) : List FilesystemPath :=
  target.sourceFiles.map
      (bitcodeFile (getBuildTargetBuildFilesDirectory rootPackageBuildDirectory targetName)) ++
    target.generatedSourceFiles.map
      (bitcodeFile (getBuildTargetGeneratedSourcesBuildDirectory rootPackageBuildDirectory targetName))

def getCompiledUstlibPath : FilesystemPath :=
  Path.normalize (Path.join rootPackageBuildDirectory (asciiText "ustlib.bc"))

def libraryFile (libraryName : BuildTargetAbsoluteName) : FilesystemPath :=
  Path.normalize (getPackageBuildDirectory rootPackageBuildDirectory libraryName.packageName ++
    asciiText "/" ++ libraryName.name ++ asciiText ".bc")

end

namespace WorkspaceInfo

variable (workspace : WorkspaceInfo)

def isPublicDependencyOfDirectPublicSharedLibraryDependency (buildTarget : BuildTarget)
    (dependency : BuildTargetAbsoluteName) : Bool :=
  buildTarget.publicDependencies.any fun publicDependency =>
    decide ((workspace.target publicDependency).targetType = .sharedLibrary) &&
      decide (dependency ∈ (workspace.target publicDependency).publicDependenciesIncludingTransitive)

def isPublicDependencyOfSomeLinkedSharedLibrary (buildTarget : BuildTarget)
    (dependency : BuildTargetAbsoluteName) : Bool :=
  buildTarget.sharedLibraryDependenciesToLink.any fun sharedLibraryDependency =>
    decide (dependency ∈ (workspace.target sharedLibraryDependency).publicDependenciesIncludingTransitive)

def librariesToLink (dependencies : List BuildTargetAbsoluteName) (skip : BuildTargetAbsoluteName → Bool) :
    List BuildTargetAbsoluteName :=
  dependencies.filter fun dependency =>
    !skip dependency && decide ((workspace.target dependency).targetType = .library)

def publicLibrariesToLink (target : BuildTarget) : List BuildTargetAbsoluteName :=
  match target.targetType with
  | .executable | .sharedLibrary | .objectFile =>
    workspace.librariesToLink target.publicDependenciesIncludingTransitive
      (workspace.isPublicDependencyOfDirectPublicSharedLibraryDependency target)
  | .library => []

def privateLibrariesToLink (target : BuildTarget) : List BuildTargetAbsoluteName :=
  workspace.librariesToLink target.privateDependenciesIncludingTransitivePublicDependencies
    (workspace.isPublicDependencyOfSomeLinkedSharedLibrary target)

def linkNodeBitcodeFiles (rootPackageBuildDirectory : FilesystemPath)
    (targetName : BuildTargetAbsoluteName) : List FilesystemPath :=
  let target := workspace.target targetName
  sourceBitcodeFiles rootPackageBuildDirectory targetName target ++
    (workspace.publicLibrariesToLink target).map (libraryFile rootPackageBuildDirectory) ++
    (workspace.privateLibrariesToLink target).map (libraryFile rootPackageBuildDirectory) ++
    (if target.targetType = .library then [] else [getCompiledUstlibPath rootPackageBuildDirectory])

end WorkspaceInfo

end USprache.BuildSystem

/-!
# Linking covers the dependencies

A library is left out of a link node if it is a public dependency of a shared library that is
linked.  It is not lost: that shared library has got it in the same way, and the dependency
graph has no loops.
-/

namespace USprache.BuildSystem

open Relation List
open LexSynt (Text asciiText)

namespace WorkspaceInfo

variable {workspace retrieved : WorkspaceInfo}

/-- The lists of a build target contain the dependencies they are named after. -/
structure Retrieved (workspace retrieved : WorkspaceInfo) (name : BuildTargetAbsoluteName) : Prop where
  targetType_eq : (retrieved.target name).targetType = (workspace.target name).targetType
  publicDependencies_eq : (retrieved.target name).publicDependencies = (workspace.target name).publicDependencies
  mem_public : ∀ x, x ∈ (retrieved.target name).publicDependenciesIncludingTransitive ↔
    TransGen workspace.PublicUses name x
  mem_shared : ∀ x, x ∈ (retrieved.target name).sharedLibraryDependenciesToLink ↔
    ∃ dep, workspace.Uses name dep ∧ workspace.BringsIn dep x

variable {n : BuildTargetAbsoluteName}

theorem retrieved_of_valid (hok : workspace.Valid) {ok : Bool}
    (h : workspace.retrieveAndCheckWorkspaceTransitiveDependencies = some (retrieved, ok))
    (hn : n ∈ workspace.names) : Retrieved workspace retrieved n := by
  obtain ⟨publicDependencies, hpub, hmem_pub⟩ := getAllTargetPublicDependencies_returns hok hn
  obtain ⟨privateDependencies, hprv, -⟩ :=
    getAllTargetPrivateAndTheirTransitivePublicDependencies_returns hok hn
  obtain ⟨shared, hsh, hmem_sh⟩ := getAllTargetSharedLibraryDependenciesToLink_returns hok hn
  have htg := (retrieve_eq h).2 n hn
  rw [retrieveTargetDependencies, hpub, hprv, hsh] at htg
  have heq := Option.some.inj htg
  refine ⟨?_, ?_, fun x => ?_, fun x => ?_⟩ <;> rw [← heq]
  · exact hmem_pub x
  · exact hmem_sh x

/-- The build target gets the library from its link node, or from a shared library that is linked. -/
inductive Provided (workspace : WorkspaceInfo) (rootPackageBuildDirectory : FilesystemPath) :
    BuildTargetAbsoluteName → BuildTargetAbsoluteName → Prop where
  | linked {name library : BuildTargetAbsoluteName}
      (h : libraryFile rootPackageBuildDirectory library ∈
        workspace.linkNodeBitcodeFiles rootPackageBuildDirectory name) :
      Provided workspace rootPackageBuildDirectory name library
  | shared {name sharedLibrary library : BuildTargetAbsoluteName}
      (h : sharedLibrary ∈ (workspace.target name).sharedLibraryDependenciesToLink)
      (hprovided : Provided workspace rootPackageBuildDirectory sharedLibrary library) :
      Provided workspace rootPackageBuildDirectory name library

variable {rootPackageBuildDirectory : FilesystemPath}

theorem provided_of_public {library : BuildTargetAbsoluteName}
    (hty : (workspace.target n).targetType = .executable ∨
      (workspace.target n).targetType = .sharedLibrary)
    (hmem : library ∈ (workspace.target n).publicDependenciesIncludingTransitive)
    (hlib : (workspace.target library).targetType = .library)
    (hsk : workspace.isPublicDependencyOfDirectPublicSharedLibraryDependency (workspace.target n)
      library = false) :
    workspace.Provided rootPackageBuildDirectory n library := by
  have hlink : library ∈ workspace.publicLibrariesToLink (workspace.target n) := by
    have hfil : library ∈ workspace.librariesToLink
        (workspace.target n).publicDependenciesIncludingTransitive
        (workspace.isPublicDependencyOfDirectPublicSharedLibraryDependency (workspace.target n)) :=
      mem_filter.2 ⟨hmem, by rw [hsk, decide_eq_true hlib]; rfl⟩
    rw [publicLibrariesToLink]
    rcases hty with hty | hty <;> rw [hty] <;> exact hfil
  apply Provided.linked
  exact mem_append_left _ (mem_append_left _ (mem_append_right _ (mem_map_of_mem hlink)))

theorem provided_of_private {library : BuildTargetAbsoluteName}
    (hmem : library ∈ (workspace.target n).privateDependenciesIncludingTransitivePublicDependencies)
    (hlib : (workspace.target library).targetType = .library)
    (hsk : workspace.isPublicDependencyOfSomeLinkedSharedLibrary (workspace.target n) library = false) :
    workspace.Provided rootPackageBuildDirectory n library := by
  have hlink : library ∈ workspace.privateLibrariesToLink (workspace.target n) :=
    mem_filter.2 ⟨hmem, by rw [hsk, decide_eq_true hlib]; rfl⟩
  apply Provided.linked
  exact mem_append_left _ (mem_append_right _ (mem_map_of_mem hlink))

/-- Every library that is visible to an executable or to a shared library is provided to it. -/
theorem linking_covers_dependencies (rootPackageBuildDirectory : FilesystemPath)
    (hcheck : workspace.checkWorkspaceDependencyGraphIsValid = some true)
    (hretrieve : workspace.retrieveAndCheckWorkspaceTransitiveDependencies = some (retrieved, true))
    {name library : BuildTargetAbsoluteName} (hname : name ∈ retrieved.names)
    (htype : (retrieved.target name).targetType = .executable ∨
      (retrieved.target name).targetType = .sharedLibrary)
    (hlibrary : (retrieved.target library).targetType = .library)
    (hmem : library ∈ (retrieved.target name).publicDependenciesIncludingTransitive ∨
      library ∈ (retrieved.target name).privateDependenciesIncludingTransitivePublicDependencies) :
    retrieved.Provided rootPackageBuildDirectory name library := by
  have hvalid := valid_of_check hcheck
  have hnames := (retrieve_eq hretrieve).1
  rw [hnames] at hname
  -- The shared libraries that are linked stand below the build target in the dependency graph.
  induction name using hvalid.wellFounded.transGen.induction with
  | _ name ih =>
    have hretrieved := retrieved_of_valid hvalid hretrieve hname
    have hshared : ∀ s ∈ (retrieved.target name).sharedLibraryDependenciesToLink,
        library ∈ (retrieved.target s).publicDependenciesIncludingTransitive →
          retrieved.Provided rootPackageBuildDirectory name library := by
      intro s hs hlibrary_s
      obtain ⟨dep, hdep, hbrings⟩ := (hretrieved.mem_shared s).1 hs
      have hbelow : TransGen workspace.Uses name s := .head' hdep hbrings.reaches
      have hs_names : s ∈ workspace.names := by
        obtain ⟨y, -, hy⟩ := TransGen.tail'_iff.1 hbelow
        exact hvalid.mem_names y hy.mem_names s hy
      refine .shared hs (ih s ?_ hs_names (.inr ?_) (.inl hlibrary_s))
      · exact transGen_swap.1 hbelow
      · rw [(retrieved_of_valid hvalid hretrieve hs_names).targetType_eq]
        exact hbrings.isShared
    rcases hmem with hmem | hmem
    · cases hskip : retrieved.isPublicDependencyOfDirectPublicSharedLibraryDependency
        (retrieved.target name) library with
      | false => exact provided_of_public htype hmem hlibrary hskip
      | true =>
        obtain ⟨s, hs, hcond⟩ := any_eq_true.1 hskip
        rw [Bool.and_eq_true, decide_eq_true_eq, decide_eq_true_eq] at hcond
        rw [hretrieved.publicDependencies_eq] at hs
        have hs_names := hvalid.mem_names name hname s (PublicUses.uses hs)
        rw [(retrieved_of_valid hvalid hretrieve hs_names).targetType_eq] at hcond
        exact hshared s ((hretrieved.mem_shared s).2 ⟨s, PublicUses.uses hs, .self hcond.1⟩) hcond.2
    · cases hskip : retrieved.isPublicDependencyOfSomeLinkedSharedLibrary
        (retrieved.target name) library with
      | false => exact provided_of_private hmem hlibrary hskip
      | true =>
        obtain ⟨s, hs, hcond⟩ := any_eq_true.1 hskip
        exact hshared s hs (of_decide_eq_true hcond)

/-- The library that both dependencies of the executable have is left out of its link node, and
linked by the shared library. -/
theorem linking_covers_dependencies_diamond : ∃ retrieved,
    diamond.retrieveAndCheckWorkspaceTransitiveDependencies = some (retrieved, true) ∧
      inRoot "b" ∉ retrieved.privateLibrariesToLink (retrieved.target (inRoot "a")) ∧
      retrieved.Provided (asciiText "/build") (inRoot "a") (inRoot "b") := by
  have hcheck := checkWorkspaceDependencyGraphIsValid_diamond
  have hval := valid_of_check hcheck
  have ha : inRoot "a" ∈ diamond.names := by decide
  obtain ⟨retrieved, ok, hretrieve, hnames, hexact, hok⟩ := retrieve_exactly hval (by decide)
  obtain rfl := hok.2 fun name hname => names_differ hval hname (hexact name hname) (by decide)
  have hretrieved := fun name => @retrieved_of_valid _ _ name hval _ hretrieve
  have hpublic : diamond.PublicUses (inRoot "s") (inRoot "b") := mem_singleton_self _
  have hprivate := ((hexact _ ha).mem_private (inRoot "b")).2
    ⟨⟨inRoot "s", by decide, .single hpublic⟩, fun h => by
      obtain ⟨x, hx, -⟩ := TransGen.head'_iff.1 h
      cases hx⟩
  refine ⟨retrieved, hretrieve, fun hlinked => ?_, ?_⟩
  · have hshared := ((hretrieved _ ha).mem_shared (inRoot "s")).2
      ⟨_, show inRoot "s" ∈ [inRoot "l", inRoot "s"] by decide, .self rfl⟩
    have hskip : retrieved.isPublicDependencyOfSomeLinkedSharedLibrary _ (inRoot "b") = true :=
      any_eq_true.2 ⟨_, hshared, decide_eq_true
        (((hretrieved _ (by decide)).mem_public _).2 (.single hpublic))⟩
    have hkept := (mem_filter.1 hlinked).2
    rw [hskip] at hkept
    cases hkept
  · exact linking_covers_dependencies (asciiText "/build") hcheck hretrieve (hnames ▸ ha)
      (.inl (hretrieved _ ha).targetType_eq) (hretrieved _ (by decide)).targetType_eq (.inr hprivate)

end WorkspaceInfo

end USprache.BuildSystem
