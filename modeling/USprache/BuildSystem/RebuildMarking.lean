import USprache.BuildSystem.IncrementalSoundness

/-!
# Marking nodes for rebuild

The marks of `PerformGraphBuild` are the least set that contains the stale nodes and is closed
under the use of produced files.  The modification times are read from a map that is filled in
advance; a file that is not in the map would stop the program, and none is.
-/

namespace USprache.BuildSystem

open Library List LoadedNode

abbrev FilesModificationTime := List (FilesystemPath × Option Nat)

variable (files : Files) (nodes : List LoadedNode) (times : FilesModificationTime)

def LoadedNode.programs (n : LoadedNode) : List FilesystemPath :=
  if isSpecialBuildCommand n.node.program then [] else [n.node.program]

def collectFilesModificationTime : FilesModificationTime :=
  ((nodes.flatMap fun n => n.node.inputFiles ++ n.node.outputFiles ++ n.programs) ++
    nodes.flatMap fun n => n.depFile.elim [] fun depFile =>
      depFile.destination :: depFile.dependencies).eraseDups.map
    fun file => (file, files.modificationTime file)

def LoadedNode.checked (n : LoadedNode) : List FilesystemPath :=
  (n.depFile.elim [] fun depFile => depFile.destination :: depFile.dependencies) ++
    n.node.inputFiles ++ n.node.outputFiles ++ n.programs

/-- The loops that look for a file without a modification time. -/
def someFileIsMissing : List FilesystemPath → Option Bool
  | [] => some false
  | file :: rest => do
    if (← times.lookup file).isNone then some true else someFileIsMissing rest

/-- `files_with_modification_time[ file ].try_deref()` for each file. -/
def modificationTimes (paths : List FilesystemPath) : Option (List Nat) :=
  paths.mapM fun file => (times.lookup file).join

def checkNode (prevBuildGraph : BuildGraph) (n : LoadedNode) : Option Bool :=
  if !prevBuildGraph.nodes.contains n.node then some true
  else if !n.node.depFile.isEmpty && n.depFile.isNone then some true
  else do
    if ← someFileIsMissing times n.checked then some true
    else
      let minOutput := (← modificationTimes times n.outputs).min?
      let maxInput := (← modificationTimes times n.inputs).max?
      -- Without inputs or outputs a time that is less or greater than all others is compared.
      some (match maxInput, minOutput with
        | some maxInput, some minOutput => maxInput ≥ minOutput
        | _, _ => false)

def markNodes (prevBuildGraph : Option BuildGraph) : Option (List Bool) :=
  match prevBuildGraph with
  | none => some (nodes.map fun _ => true)
  | some prevBuildGraph => do
    let marks ← nodes.mapM (checkNode (collectFilesModificationTime files nodes) prevBuildGraph)
    let visited ← worklist (consumers nodes) (totalPushes nodes) (initialStack marks) []
    some (marks.zipIdx.map fun pair => pair.1 || visited.contains pair.2)

def LocallyStale (prevBuildGraph : Option BuildGraph) (n : LoadedNode) : Prop :=
  (∀ prev, prevBuildGraph = some prev → n.node ∉ prev.nodes) ∨
  (n.node.depFile ≠ [] ∧ n.depFile = none) ∨
  (∃ file, (file ∈ n.inputs ∨ file ∈ n.outputs) ∧ files.modificationTime file = none) ∨
  ∃ input ∈ n.inputs, ∃ output ∈ n.outputs, ∃ inputTime outputTime,
    files.modificationTime input = some inputTime ∧ files.modificationTime output = some outputTime ∧
    outputTime ≤ inputTime

variable {files nodes times} {prev : BuildGraph} {n : LoadedNode} {i : Nat}

theorem LoadedNode.mem_checked {file : FilesystemPath} :
    file ∈ n.checked ↔ file ∈ n.inputs ∨ file ∈ n.outputs := by
  rw [checked, inputs, outputs]
  cases n.depFile <;> simp only [Option.elim, mem_append, mem_cons] <;> tauto

variable (files) in
theorem lookup_collect {file : FilesystemPath} (hn : n ∈ nodes) (hfile : file ∈ n.checked) :
    (collectFilesModificationTime files nodes).lookup file = some (files.modificationTime file) := by
  have hkeys : ∀ ks : List FilesystemPath, file ∈ ks →
      (ks.map fun file => (file, files.modificationTime file)).lookup file =
        some (files.modificationTime file) := by
    intro ks
    induction ks with
    | nil => nofun
    | cons key ks ih =>
      intro h
      rw [map_cons, lookup_cons]
      by_cases hkey : file = key
      · rw [hkey, beq_self_eq_true]
      · rw [beq_eq_false_iff_ne.2 hkey]
        exact ih ((mem_cons.1 h).resolve_left hkey)
  refine hkeys _ (mem_eraseDups.2 ?_)
  rw [mem_append, mem_flatMap, mem_flatMap]
  rw [checked, append_assoc, append_assoc, mem_append] at hfile
  rcases hfile with h | h
  · exact .inr ⟨n, hn, h⟩
  · exact .inl ⟨n, hn, by rwa [append_assoc]⟩

theorem someFileIsMissing_eq {ps : List FilesystemPath}
    (h : ∀ file ∈ ps, times.lookup file = some (files.modificationTime file)) :
    someFileIsMissing times ps = some (ps.any files.missing) := by
  have hmis : ∀ file, (files.modificationTime file).isNone = files.missing file := fun file => by
    rw [Files.modificationTime, Files.missing, Option.isNone_map]
  induction ps with
  | nil => rfl
  | cons file rest ih =>
    obtain ⟨hfile, hrs⟩ := forall_mem_cons.1 h
    rw [someFileIsMissing, hfile, any_cons, ih hrs]
    simp only [Option.bind_eq_bind, Option.bind_some, hmis]
    cases files.missing file <;> rfl

theorem modificationTimes_eq {ps : List FilesystemPath}
    (h : ∀ file ∈ ps, times.lookup file = some (files.modificationTime file) ∧ files.missing file = false) :
    modificationTimes times ps = some (ps.filterMap files.modificationTime) := by
  induction ps with
  | nil => rfl
  | cons file rest ih =>
    obtain ⟨⟨hfile, hmis⟩, hrs⟩ := forall_mem_cons.1 h
    obtain ⟨time, htime⟩ : ∃ time, files.modificationTime file = some time := by
      rw [Files.missing, Option.isNone_eq_false_iff, Option.isSome_iff_exists] at hmis
      obtain ⟨contents, hcts⟩ := hmis
      exact ⟨_, by rw [Files.modificationTime, hcts]; rfl⟩
    have ih := ih hrs
    rw [modificationTimes] at ih ⊢
    rw [mapM_cons, ih, hfile, htime, filterMap_cons_some htime]
    rfl

theorem needToRebuild_eq : needToRebuild prev files n = (!prev.nodes.contains n.node ||
    (!n.node.depFile.isEmpty && n.depFile.isNone) || n.checked.any files.missing || inputIsNewer files n) := by
  rw [needToRebuild, checked, programs]
  cases n.depFile <;> cases isSpecialBuildCommand n.node.program <;> simp [Bool.or_assoc]

/-- No lookup fails, and the check of a node is that of the incremental build. -/
theorem checkNode_eq (hn : n ∈ nodes) :
    checkNode (collectFilesModificationTime files nodes) prev n = some (needToRebuild prev files n) := by
  have hlk := fun file (h : file ∈ n.checked) => lookup_collect files hn h
  rw [checkNode, someFileIsMissing_eq hlk, needToRebuild_eq]
  cases prev.nodes.contains n.node with
  | false => rfl
  | true =>
    cases !n.node.depFile.isEmpty && n.depFile.isNone with
    | true => rfl
    | false =>
      cases hmis : n.checked.any files.missing with
      | true => rfl
      | false =>
        have hfs : ∀ file, file ∈ n.inputs ∨ file ∈ n.outputs →
            (collectFilesModificationTime files nodes).lookup file = some (files.modificationTime file) ∧
              files.missing file = false := fun file hfile =>
          ⟨hlk file (mem_checked.2 hfile),
            Bool.eq_false_iff.2 (any_eq_false.1 hmis file (mem_checked.2 hfile))⟩
        rw [modificationTimes_eq fun file h => hfs file (.inr h),
          modificationTimes_eq fun file h => hfs file (.inl h)]
        rfl

theorem needToRebuild_iff : needToRebuild prev files n = true ↔ LocallyStale files (some prev) n := by
  have hmis : ∀ file, files.missing file = true ↔ files.modificationTime file = none := fun file => by
    rw [Files.modificationTime, Files.missing, Option.isNone_iff_eq_none, Option.map_eq_none_iff]
  have hprev : prev.nodes.contains n.node = false ↔ n.node ∉ prev.nodes := by
    rw [← contains_iff_mem, Bool.not_eq_true]
  have hchk : n.checked.any files.missing = true ↔
      ∃ file, (file ∈ n.inputs ∨ file ∈ n.outputs) ∧ files.modificationTime file = none := by
    simp only [any_eq_true, mem_checked, hmis]
  have hnew : inputIsNewer files n = true ↔ ∃ input ∈ n.inputs, ∃ output ∈ n.outputs,
      ∃ inputTime outputTime, files.modificationTime input = some inputTime ∧
        files.modificationTime output = some outputTime ∧ outputTime ≤ inputTime := by
    constructor
    · intro h
      rw [inputIsNewer] at h
      split at h
      · next hmax hmin =>
        obtain ⟨input, hin, hti⟩ := mem_filterMap.1 (max?_eq_some_iff.1 hmax).1
        obtain ⟨output, hout, hto⟩ := mem_filterMap.1 (min?_eq_some_iff.1 hmin).1
        exact ⟨input, hin, output, hout, _, _, hti, hto, of_decide_eq_true h⟩
      · cases h
    · rintro ⟨input, hin, output, hout, inputTime, outputTime, hti, hto, hle⟩
      obtain ⟨contents, hci, rfl⟩ := Option.map_eq_some_iff.1 hti
      obtain ⟨contents', hco, rfl⟩ := Option.map_eq_some_iff.1 hto
      exact inputIsNewer_of_le hin hout (by rw [hci]; exact Option.some_ne_none _)
        (by rw [hco]; exact Option.some_ne_none _) hle
  simp only [needToRebuild_eq, Bool.or_eq_true, Bool.and_eq_true, Bool.not_eq_true', hprev,
    isEmpty_eq_false_iff, Option.isNone_iff_eq_none, hchk, hnew, or_assoc, LocallyStale, Option.some.injEq,
    forall_eq']

theorem mapM_checkNode : nodes.mapM (checkNode (collectFilesModificationTime files nodes) prev) =
    some (nodes.map (needToRebuild prev files)) := by
  suffices h : ∀ part : List LoadedNode, (∀ n ∈ part, n ∈ nodes) →
      part.mapM (checkNode (collectFilesModificationTime files nodes) prev) =
        some (part.map (needToRebuild prev files)) from h nodes fun _ hn => hn
  intro part
  induction part with
  | nil => exact fun _ => rfl
  | cons n part ih =>
    intro h
    obtain ⟨hn, hrs⟩ := forall_mem_cons.1 h
    rw [mapM_cons, checkNode_eq hn, ih hrs]
    rfl

/-- The marks never stop the program, and they are the least closed set of nodes with all stale ones. -/
theorem markNodes_least (prevBG : Option BuildGraph) (files : Files) (nodes : List LoadedNode) :
    ∃ marks, markNodes files nodes prevBG = some marks ∧ marks.length = nodes.length ∧
      (∀ (i : Nat) n, nodes[i]? = some n → LocallyStale files prevBG n → marks[i]? = some true) ∧
      (∀ j i : Nat, marks[j]? = some true → Produces nodes j i → marks[i]? = some true) ∧
      ∀ S : Nat → Prop, (∀ (i : Nat) n, nodes[i]? = some n → LocallyStale files prevBG n → S i) →
        (∀ j i, S j → Produces nodes j i → S i) → ∀ i : Nat, marks[i]? = some true → S i := by
  cases prevBG with
  | none =>
    have hget : ∀ (i : Nat) n, nodes[i]? = some n → (nodes.map fun _ => true)[i]? = some true := fun i n h => by
      rw [getElem?_map, h]
      rfl
    refine ⟨_, rfl, length_map _, fun i n h _ => hget i n h, fun j i _ h => ?_, fun S hS _ i h => ?_⟩
    · obtain ⟨-, n, -, -, hn, -⟩ := h
      exact hget i n hn
    · rw [getElem?_map, Option.map_eq_some_iff] at h
      obtain ⟨n, hn, -⟩ := h
      exact hS i n hn (.inl fun _ h => by cases h)
  | some prev =>
    have hlen : (nodes.map (needToRebuild prev files)).length = nodes.length := length_map _
    have hget : ∀ i : Nat, (nodes.map (needToRebuild prev files))[i]? = some true ↔
        ∃ n, nodes[i]? = some n ∧ LocallyStale files (some prev) n := fun i => by
      simp only [getElem?_map, Option.map_eq_some_iff, needToRebuild_iff]
    obtain ⟨visited, hvis⟩ := worklist_consumers_returns hlen
    have heq : markNodes files nodes (some prev) = some (markDependent nodes (nodes.map (needToRebuild prev files))) := by
      rw [markNodes, mapM_checkNode, markDependent]
      simp only [Option.bind_eq_bind, Option.bind_some, hvis]
    obtain ⟨hst, hcls⟩ := markDependent_spec hlen
    refine ⟨_, heq, (length_markDependent _ _).trans hlen, fun i n hn h => hst i ((hget i).2 ⟨n, hn, h⟩), hcls, ?_⟩
    intro S hS hclosed i hi
    have hstale : ∀ k : Nat, (nodes.map (needToRebuild prev files))[k]? = some true → S k := fun k hk => by
      obtain ⟨n, hn, h⟩ := (hget k).1 hk
      exact hS k n hn h
    rw [markDependent, hvis, getElem?_map, getElem?_zipIdx, Nat.zero_add] at hi
    obtain ⟨pair, hpr, htr⟩ := Option.map_eq_some_iff.1 hi
    obtain ⟨mark, hmark, rfl⟩ := Option.map_eq_some_iff.1 hpr
    rcases Bool.or_eq_true_iff.1 htr with htr | htr
    · exact hstale i (hmark.trans (congrArg some htr))
    · exact worklist_subset (fun j hj k hk => hclosed j k hj (consumers_spec.1 hk)) _ _ _ _
        (fun k hk => hstale k (mem_initialStack.1 hk)) (fun k hk => absurd hk not_mem_nil) hvis i
        (contains_iff_mem.1 htr)

end USprache.BuildSystem
