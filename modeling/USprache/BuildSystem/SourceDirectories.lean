import USprache.BuildSystem.PackageNames

/-!
# Directories of build targets

`TransformAndValidatePackageInfo` refuses a package in which the directories of two build
targets, or those of a build target and a subpackage, are not apart.  An error is logged
wherever it refuses a package.
-/

namespace USprache.BuildSystem

open LexSynt (Text ascii asciiText)
open Ustlib.Path List

namespace PackageInfo

structure BuildTarget where
  targetType : BuildTargetType
  name : Text
  sourceFiles : List FilesystemPath
  publicIncludeDirectories : List FilesystemPath

end PackageInfo

structure PackageInfo where
  buildTargets : List PackageInfo.BuildTarget
  packageDependencies : List PackageName

def targetNameIsValid (name : Text) : Bool :=
  name ≠ [] && name.getLast? ≠ some (ascii ' ') && name.head? ≠ some (ascii ' ') &&
    name.all fun c => 31 < c && !(asciiText "./\\:\"'<>|?*").contains c

def targetSourceNameIsValid (name : Text) : Bool :=
  name ≠ [] && name.head? ≠ some (ascii '\\') && !isAbsolute name &&
    !(match name with
      | c :: d :: _ => ascii 'A' ≤ c && c ≤ ascii 'Z' && d = ascii ':'
      | _ => false) &&
    (componentsIter name).all fun c => c ≠ dot ∧ c ≠ dotDot

/-- The loop over the components of the first path, as long as all paths have them. -/
def commonComponents : List Text → List (List Text) → List Text
  | [], _ => []
  | c :: first, sources =>
    if ∀ s ∈ sources, s.head? = some c then c :: commonComponents first (sources.map tail) else []

def calculateBuildTargetSourceFilesCommonDirectory (sources : List FilesystemPath) : List Text :=
  match sources.map componentsIter with
  | [] => []
  | [source] => source.dropLast
  | first :: rest => commonComponents first (first :: rest)

/-- The loop over `prev_targets_directories`. -/
def conflicts (subject : Text) (directory : List Text) (prevTargetsDirectories : List (List Text)) : List Text :=
  prevTargetsDirectories.filterMap fun prev =>
    if prev = directory then some (subject ++ asciiText " is already in use.")
    else if directory.length < prev.length ∧ directory = prev.take directory.length then
      some (subject ++ asciiText " is a prefix of another used directory.")
    else if directory.length > prev.length ∧ prev = directory.take prev.length then
      some (subject ++ asciiText " is located within another used directory.")
    else none

structure Validation where
  errors : List Text := []
  /-- The build targets of the workspace that are in this package. -/
  names : List Text
  prevTargetsDirectories : List (List Text) := []

/-- `BuildTargetAbsoluteNameToPrintableString` -/
def printableName (packageAbsoluteName : PackageAbsoluteName) (name : Text) : Text :=
  (if packageAbsoluteName.path = [] then [] else packageAbsoluteName.path ++ asciiText "/") ++ name

def transformedSourceFiles (target : PackageInfo.BuildTarget) : List FilesystemPath :=
  ((target.sourceFiles.filter targetSourceNameIsValid).map normalize).mergeSort fun p q => textKey p ≤ textKey q

/-- The adjacent equal elements of a sorted list. -/
def duplicates (files : List FilesystemPath) : List FilesystemPath :=
  (files.zip files.tail).filterMap fun (p, q) => if p = q then some q else none

section Checks

variable (printed : Text) (target : PackageInfo.BuildTarget)

def quoted (subject text : Text) : Text := subject ++ asciiText " \"" ++ text ++ asciiText "\""

def checkSourceFiles (s : Validation) : Validation :=
  if target.sourceFiles = [] then s
  else
    let ofTarget := quoted (asciiText " of the build target") printed
    let files := transformedSourceFiles target
    let directory := calculateBuildTargetSourceFilesCommonDirectory files
    { s with
      errors := s.errors ++
        (target.sourceFiles.filter (!targetSourceNameIsValid ·)).map (fun source =>
          quoted (asciiText "Invalid, source name") source ++ quoted (asciiText " of build target") printed ++
            asciiText "!") ++
        (duplicates files).map (fun source =>
          quoted (asciiText "Error, duplicated source file") source ++ ofTarget ++ asciiText "!") ++
        conflicts (quoted (asciiText "Source directory") (directory.foldl append []) ++ ofTarget)
          directory s.prevTargetsDirectories
      prevTargetsDirectories := s.prevTargetsDirectories ++ [directory] }

def checkPublicIncludeDirectory (s : Validation) (directory : FilesystemPath) : Validation :=
  let ofTarget := quoted (asciiText " of the build target") printed
  if targetSourceNameIsValid directory = false then
    { s with errors := s.errors ++
        [quoted (asciiText "Invalid path of a public source directory") directory ++ ofTarget ++ asciiText "."] }
  else
    { s with
      errors := s.errors ++ conflicts (quoted (asciiText "Public include directory") directory ++ ofTarget)
        (componentsIter directory) s.prevTargetsDirectories
      prevTargetsDirectories := s.prevTargetsDirectories ++ [componentsIter directory] }

def checkBuildTarget (packageAbsoluteName : PackageAbsoluteName) (s : Validation)
    (target : PackageInfo.BuildTarget) : Validation :=
  let printed := printableName packageAbsoluteName target.name
  let named := { s with
    names := target.name :: s.names
    errors := s.errors ++
      (if targetNameIsValid target.name then []
        else [quoted (asciiText "Error, invalid build target name") target.name ++ asciiText "!"]) ++
      (if target.name ∈ s.names then
        [quoted (asciiText "Error, duplicated build target") printed ++ asciiText "!"] else []) }
  let sourced := checkSourceFiles printed target named
  let typed := { sourced with errors := sourced.errors ++
      (if target.targetType = .executable ∧ target.publicIncludeDirectories ≠ [] then
        [quoted (asciiText "Non-empty public include directories list for an executable build target") printed ++
          asciiText "."] else []) }
  target.publicIncludeDirectories.foldl (checkPublicIncludeDirectory printed) typed

end Checks

/-- The check of a dependency.  Paths with `..` are ignored. -/
def dependencyErrors (buildTargets : List PackageInfo.BuildTarget) (prevTargetsDirectories : List (List Text))
    (dependency : PackageName) : List Text :=
  match dependency.nameBase with
  | .currentPackage =>
    let components := componentsIter dependency.path
    let directory := quoted (asciiText "Package dependency directory") dependency.path
    if dotDot ∈ components then []
    else
      (buildTargets.filter fun target => components.head? = some target.name).map (fun target =>
        directory ++ quoted (asciiText " conflicts with build target name") target.name ++ asciiText "!") ++
      components.flatMap (fun c =>
        (if c = asciiText "debug" ∨ c = asciiText "release" then
          [directory ++ asciiText " contains a reserved word!"] else []) ++
        (if targetNameIsValid c then [] else [directory ++ asciiText " name is invalid!"])) ++
      conflicts directory components prevTargetsDirectories
  | .globalVersionedPackage name version =>
    (if targetNameIsValid name then []
      else [quoted (asciiText "Global package dependency") name ++ asciiText " is not valid!"]) ++
    (if version = .zero then
      [quoted (asciiText "Can't specify zero version for global package") name ++ asciiText "!"] else [])

/-- The errors that are logged, none if the result is true.  `names` are the build targets of this
package in the workspace before, and `others` the errors of the checks of other things than
directories. -/
def transformAndValidatePackageInfo (packageAbsoluteName : PackageAbsoluteName) (names others : List Text)
    (package : PackageInfo) : List Text :=
  let s := package.buildTargets.foldl (checkBuildTarget packageAbsoluteName) { names }
  s.errors ++ package.packageDependencies.flatMap (dependencyErrors package.buildTargets s.prevTargetsDirectories) ++
    others

/-- Neither of two directories is the other or lies in it. -/
def Apart (d e : List Text) : Prop := ¬d <+: e ∧ ¬e <+: d

namespace PackageInfo.BuildTarget

variable (target : PackageInfo.BuildTarget)

def sourcesDirectory : Option (List Text) :=
  if target.sourceFiles = [] then none
  else some (calculateBuildTargetSourceFilesCommonDirectory (transformedSourceFiles target))

def includeDirectories : List (List Text) := target.publicIncludeDirectories.map componentsIter

def directories : List (List Text) := target.sourcesDirectory.toList ++ target.includeDirectories

end PackageInfo.BuildTarget

structure Separated (package : PackageInfo) : Prop where
  sources : package.buildTargets.Pairwise fun A B =>
    (∀ f ∈ A.sourceFiles, ∀ d ∈ B.directories, ¬d <+: componentsIter (normalize f)) ∧
    (∀ f ∈ B.sourceFiles, ∀ d ∈ A.directories, ¬d <+: componentsIter (normalize f))
  directories : package.buildTargets.Pairwise fun A B => ∀ d ∈ A.directories, ∀ e ∈ B.directories, Apart d e
  subpackages : ∀ dependency ∈ package.packageDependencies, dependency.nameBase = .currentPackage →
    dotDot ∉ componentsIter dependency.path → ∀ A ∈ package.buildTargets, ∀ d ∈ A.directories,
      Apart (componentsIter dependency.path) d

theorem prefix_of_mem_components : ∀ {first : List Text} {sources : List (List Text)},
    ∀ s ∈ sources, commonComponents first sources <+: s := by
  intro first
  induction first with
  | nil => exact fun s _ => nil_prefix
  | cons c first ih =>
    intro sources s hs
    rw [commonComponents]
    split_ifs with hall
    · obtain ⟨r, rfl⟩ := head?_eq_some_iff.1 (hall s hs)
      exact (prefix_cons_inj c).2 (ih r (mem_map.2 ⟨_, hs, rfl⟩))
    · exact nil_prefix

theorem prefix_of_mem_sources {sources : List FilesystemPath} {f : FilesystemPath} (hf : f ∈ sources) :
    calculateBuildTargetSourceFilesCommonDirectory sources <+: componentsIter f := by
  have hmem := mem_map_of_mem (f := componentsIter) hf
  rw [calculateBuildTargetSourceFilesCommonDirectory]
  split
  · exact nil_prefix
  · rename_i source heq
    rw [heq, mem_singleton] at hmem
    rw [hmem]
    exact dropLast_prefix source
  · rename_i heq
    rw [heq] at hmem
    exact prefix_of_mem_components _ hmem

variable {packageAbsoluteName : PackageAbsoluteName} {s : Validation} {target : PackageInfo.BuildTarget}
  {printed subject : Text} {directory : List Text} {prevs : List (List Text)}

theorem apart_of_conflicts (h : conflicts subject directory prevs = []) : ∀ d ∈ prevs,
    Apart d directory := by
  intro d hd
  have hno := filterMap_eq_nil_iff.1 h d hd
  split_ifs at hno with heq hpre hwithin
  refine ⟨fun hp => hwithin ⟨?_, prefix_iff_eq_take.1 hp⟩, fun hp => hpre ⟨?_, prefix_iff_eq_take.1 hp⟩⟩
  · exact Nat.lt_of_le_of_ne hp.length_le fun hlen => heq (hp.eq_of_length hlen)
  · exact Nat.lt_of_le_of_ne hp.length_le fun hlen => heq (hp.eq_of_length hlen).symm

/-- From no errors in `s'` it follows that `p` holds and that the directories were added to those of
`s`, apart from all. -/
def Adds (s s' : Validation) (ds : List (List Text)) (p : Prop) : Prop := s'.errors = [] →
  s.errors = [] ∧ p ∧ s'.prevTargetsDirectories = s.prevTargetsDirectories ++ ds ∧
    (s.prevTargetsDirectories.Pairwise Apart → s'.prevTargetsDirectories.Pairwise Apart)

theorem pairwise_concat (h : conflicts subject directory prevs = []) (hp : prevs.Pairwise Apart) :
    (prevs ++ [directory]).Pairwise Apart :=
  pairwise_append.2 ⟨hp, pairwise_singleton _ _, fun d hd _ he =>
    mem_singleton.1 he ▸ apart_of_conflicts h d hd⟩

theorem checkSourceFiles_adds :
    Adds s (checkSourceFiles printed target s) target.sourcesDirectory.toList
    (∀ f ∈ target.sourceFiles, targetSourceNameIsValid f = true) := by
  intro h
  rw [checkSourceFiles] at h ⊢
  rw [PackageInfo.BuildTarget.sourcesDirectory]
  split_ifs at h ⊢ with hnil
  · exact ⟨h, by simp [hnil], (append_nil _).symm, id⟩
  · obtain ⟨hbefore, hno⟩ := append_eq_nil_iff.1 h
    obtain ⟨hs, hinv⟩ := append_eq_nil_iff.1 (append_eq_nil_iff.1 hbefore).1
    refine ⟨hs, fun f hf => ?_, rfl, pairwise_concat hno⟩
    simpa using filter_eq_nil_iff.1 (map_eq_nil_iff.1 hinv) f hf

theorem checkPublicIncludeDirectory_adds (d : FilesystemPath) :
    Adds s (checkPublicIncludeDirectory printed s d) [componentsIter d] True := by
  intro h
  rw [checkPublicIncludeDirectory] at h ⊢
  split_ifs at h ⊢
  · exact absurd (append_eq_nil_iff.1 h).2 (cons_ne_nil _ _)
  · obtain ⟨hs, hno⟩ := append_eq_nil_iff.1 h
    exact ⟨hs, trivial, rfl, pairwise_concat hno⟩

theorem adds_foldl {α : Type} {f : Validation → α → Validation} {d : α → List (List Text)}
    {p : α → Prop}
    (h : ∀ s a, Adds s (f s a) (d a) (p a)) : ∀ (l : List α) (s : Validation),
      Adds s (l.foldl f s) (l.flatMap d) (∀ a ∈ l, p a) := by
  intro l
  induction l with
  | nil => exact fun s hs => ⟨hs, forall_mem_nil _, (append_nil _).symm, id⟩
  | cons a l ih =>
    intro s hno
    obtain ⟨hno', hl, heq, hp⟩ := ih (f s a) hno
    obtain ⟨hs, ha, heq', hp'⟩ := h s a hno'
    refine ⟨hs, forall_mem_cons.2 ⟨ha, hl⟩, ?_, hp ∘ hp'⟩
    rw [foldl_cons, heq, heq', flatMap_cons, append_assoc]

theorem checkBuildTarget_adds :
    Adds s (checkBuildTarget packageAbsoluteName s target) target.directories
    (∀ f ∈ target.sourceFiles, targetSourceNameIsValid f = true) := by
  have hdirs := adds_foldl (f := checkPublicIncludeDirectory (printableName packageAbsoluteName target.name))
    (d := fun d => [componentsIter d]) (fun _ => checkPublicIncludeDirectory_adds) target.publicIncludeDirectories
  intro h
  obtain ⟨htyped, -, heq, hp⟩ := hdirs _ h
  obtain ⟨hnamed, hvalid, heq', hp'⟩ := checkSourceFiles_adds (append_eq_nil_iff.1 htyped).1
  refine ⟨(append_eq_nil_iff.1 (append_eq_nil_iff.1 hnamed).1).1, hvalid, ?_, fun hs => hp (hp' hs)⟩
  rw [PackageInfo.BuildTarget.directories, PackageInfo.BuildTarget.includeDirectories, ← append_assoc,
    map_eq_flatMap]
  exact heq.trans (congrArg (· ++ _) heq')

theorem sources_apart {A B : PackageInfo.BuildTarget}
    (h : ∀ d ∈ A.directories, ∀ e ∈ B.directories, Apart d e)
    (hvalid : ∀ f ∈ A.sourceFiles, targetSourceNameIsValid f = true) {f : FilesystemPath} (hf : f ∈ A.sourceFiles)
    {e : List Text} (he : e ∈ B.directories) : ¬e <+: componentsIter (normalize f) := by
  intro hp
  have hmem : calculateBuildTargetSourceFilesCommonDirectory (transformedSourceFiles A) ∈ A.directories := by
    rw [PackageInfo.BuildTarget.directories, PackageInfo.BuildTarget.sourcesDirectory, if_neg (ne_nil_of_mem hf)]
    exact mem_cons_self
  have hf' : normalize f ∈ transformedSourceFiles A :=
    mem_mergeSort.2 (mem_map_of_mem (mem_filter.2 ⟨hf, hvalid f hf⟩))
  obtain ⟨hde, hed⟩ := h _ hmem e he
  have hor := prefix_or_prefix_of_prefix (prefix_of_mem_sources hf') hp
  exact hor.elim hde hed

/-- The directories of an accepted package are apart. -/
theorem transformAndValidatePackageInfo_separates (packageAbsoluteName : PackageAbsoluteName)
    (names others : List Text) (package : PackageInfo)
    (h : transformAndValidatePackageInfo packageAbsoluteName names others package = []) : Separated package := by
  obtain ⟨hchecks, -⟩ := append_eq_nil_iff.1 h
  obtain ⟨hno, hdeps⟩ := append_eq_nil_iff.1 hchecks
  obtain ⟨-, hvalid, heq, hp⟩ := adds_foldl (f := checkBuildTarget packageAbsoluteName) (d := (·.directories))
    (fun _ _ => checkBuildTarget_adds) package.buildTargets { names } hno
  have hpair := hp .nil
  rw [heq] at hpair
  have hdirs := (pairwise_flatMap.1 hpair).2
  refine ⟨hdirs.imp_of_mem fun hA hB hAB => ⟨fun f hf e he => sources_apart hAB (hvalid _ hA) hf he,
    fun f hf e he => sources_apart (fun d hd e he => And.symm (hAB e he d hd)) (hvalid _ hB) hf he⟩, hdirs,
    fun dep hdep hbase hup A hA d hd => ?_⟩
  have hno := flatMap_eq_nil_iff.1 hdeps dep hdep
  rw [dependencyErrors, hbase] at hno
  have hcon := (append_eq_nil_iff.1 ((if_neg hup).symm.trans hno)).2
  refine And.symm (apart_of_conflicts hcon d ?_)
  rw [heq]
  exact mem_flatMap.2 ⟨A, hA, hd⟩

/-- An executable, a library with a public include directory, and a subpackage. -/
def samplePackage : PackageInfo where
  buildTargets := [⟨.executable, asciiText "app", [asciiText "app/main.u"], []⟩,
    ⟨.library, asciiText "lib", [asciiText "lib/src/a.u"], [asciiText "lib/include"]⟩]
  packageDependencies := [⟨.currentPackage, asciiText "third_party/json"⟩]

theorem samplePackage_separated : Separated samplePackage :=
  transformAndValidatePackageInfo_separates ⟨.rootPackage, []⟩ [] [] samplePackage (by decide +kernel)

end USprache.BuildSystem
