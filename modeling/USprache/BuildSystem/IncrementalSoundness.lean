import USprache.BuildSystem.IncrementalBuild
import USprache.BuildSystem.SchedulingCompleteness

/-!
# Soundness of incremental builds

After a run that succeeds the outputs of every node were produced by its present command,
after the last change of what it reads.  This follows from an invariant of the saved graph:
each of its nodes is up to date or looks stale, so that the next run marks it.

The invariant breaks when a run fails before it executes a command that is new but whose
files look up to date: the graph is saved, and the next run takes the old outputs for those of
the new command.
-/

namespace USprache.BuildSystem

open Library List Option Bool Nat World Files

/-! ## Marks -/

variable {nodes : List LoadedNode} {i : Nat} {marks : List Bool}

theorem consumers_spec {j : Nat} : i ∈ consumers nodes j ↔ Produces nodes j i := by
  unfold consumers
  cases hj : nodes[j]? with
  | none =>
    constructor
    · nofun
    · rintro ⟨m, -, -, hm, -⟩
      rw [hj] at hm
      cases hm
  | some m =>
    rw [mem_flatMap]
    constructor
    · rintro ⟨file, hout, hmem⟩
      obtain ⟨n, hn, hin⟩ := mem_buildInputFileToNodeIndexMap.1 hmem
      exact ⟨m, n, file, hj, hn, hout, hin⟩
    · rintro ⟨m', n, file, hm, hn, hout, hin⟩
      rw [hj] at hm
      cases hm
      exact ⟨file, hout, mem_buildInputFileToNodeIndexMap.2 ⟨n, hn, hin⟩⟩

theorem Produces.lt {j : Nat} (h : Produces nodes j i) : i < nodes.length := by
  obtain ⟨-, n, -, -, hn, -⟩ := h
  exact (List.getElem?_eq_some_iff.1 hn).1

theorem mem_initialStack : i ∈ initialStack marks ↔ marks[i]? = some true := by
  rw [initialStack, mem_reverse, mem_filterMap]
  constructor
  · rintro ⟨⟨mark, k⟩, hmem, hif⟩
    have hget := mem_zipIdx_iff_getElem?.1 hmem
    cases mark with
    | false => cases hif
    | true =>
      cases hif
      exact hget
  · exact fun h => ⟨(true, i), mem_zipIdx_iff_getElem?.2 h, rfl⟩

theorem length_initialStack_le (marks : List Bool) : (initialStack marks).length ≤ marks.length := by
  rw [initialStack, length_reverse, ← length_zipIdx (l := marks)]
  exact length_filterMap_le _ _

theorem worklist_consumers_returns (hlen : marks.length = nodes.length) : ∃ seen,
    worklist (consumers nodes) (totalPushes nodes) (initialStack marks) [] = some seen := by
  have hsub : ∀ j, ∀ i ∈ consumers nodes j, i ∈ Finset.range nodes.length :=
    fun j i hi => Finset.mem_range.2 (consumers_spec.1 hi).lt
  refine worklist_returns hsub _ _ [] ?_ ?_
  · intro i hi
    rw [Finset.mem_range, ← hlen]
    exact (List.getElem?_eq_some_iff.1 (mem_initialStack.1 hi)).1
  · have hstk := length_initialStack_le marks
    rw [hlen] at hstk
    rw [Finset.filter_true_of_mem (fun i _ => not_mem_nil), ← toFinset_range,
      sum_toFinset _ nodup_range]
    exact Nat.add_le_add_right hstk _

theorem markDependent_spec (hlen : marks.length = nodes.length) :
    (∀ i : Nat, marks[i]? = some true → (markDependent nodes marks)[i]? = some true) ∧
    ∀ j i, (markDependent nodes marks)[j]? = some true → Produces nodes j i →
      (markDependent nodes marks)[i]? = some true := by
  obtain ⟨seen, hvisited⟩ := worklist_consumers_returns hlen
  obtain ⟨hmem, hcls⟩ := worklist_closed _ _ _ _ nofun hvisited
  have hres : ∀ i, (markDependent nodes marks)[i]? = some true ↔ i < marks.length ∧ i ∈ seen := by
    intro i
    rw [markDependent, hvisited]
    rw [getElem?_map, getElem?_zipIdx, zero_add]
    constructor
    · intro h
      obtain ⟨pair, hpr, htr⟩ := map_eq_some_iff.1 h
      obtain ⟨mark, hmark, rfl⟩ := map_eq_some_iff.1 hpr
      refine ⟨(List.getElem?_eq_some_iff.1 hmark).1, ?_⟩
      dsimp only at htr
      rcases or_eq_true_iff.1 htr with htr | htr
      · rw [htr] at hmark
        exact hmem i (.inl (mem_initialStack.2 hmark))
      · exact contains_iff_mem.1 htr
    · rintro ⟨hi, hvis⟩
      rw [getElem?_eq_getElem hi]
      dsimp only [map_some]
      rw [contains_iff_mem.2 hvis, Bool.or_true]
  refine ⟨fun i hi => (hres i).2 ⟨(List.getElem?_eq_some_iff.1 hi).1,
    hmem i (.inl (mem_initialStack.2 hi))⟩, fun j i hj hji => ?_⟩
  refine (hres i).2 ⟨hlen ▸ hji.lt, ?_⟩
  exact hcls j ((hres j).1 hj).2 i (consumers_spec.2 hji)

/-! ## Stale nodes and nodes that are up to date -/

/-- The outputs of the node were produced by its command, after the last change of each
file that it reads. -/
def UpToDate (files : Files) (node : Node) : Prop :=
  ∀ p ∈ node.outputFiles, ∃ contents start, (files p).contents = some contents ∧
    contents.producedBy = some ⟨node, start⟩ ∧
    ∀ f ∈ (files.loadNode node).inputs, (files f).changed < start

def Stale (files : Files) (node : Node) : Prop :=
  (∃ p ∈ node.outputFiles, (files p).contents = none) ∨
  (node.depFile ≠ [] ∧ (files.loadNode node).depFile = none) ∨
  (∃ f ∈ (files.loadNode node).inputs, (files f).contents = none) ∨
  ∃ f ∈ (files.loadNode node).inputs, ∃ p ∈ node.outputFiles, (files p).changed ≤ (files f).changed

/-- The outputs of the node were produced by its command, and no file that it reads changed
while it ran. -/
def Made (files : Files) (node : Node) : Prop :=
  ∀ p ∈ node.outputFiles, ∃ contents start, (files p).contents = some contents ∧
    contents.producedBy = some ⟨node, start⟩ ∧
    ∀ f ∈ (files.loadNode node).inputs,
      (files f).changed < start ∨ (files p).changed < (files f).changed

theorem UpToDate.made {files : Files} {node : Node} (h : UpToDate files node) :
    Made files node := by
  intro p hp
  obtain ⟨contents, s, hcts, hpro, hins⟩ := h p hp
  exact ⟨contents, s, hcts, hpro, fun f hf => .inl (hins f hf)⟩

theorem Made.upToDate {files : Files} {node : Node} (h : Made files node)
    (hfr : ¬Stale files node) : UpToDate files node := by
  intro p hp
  obtain ⟨contents, s, hcts, hpro, hins⟩ := h p hp
  refine ⟨contents, s, hcts, hpro, fun f hf => ?_⟩
  rcases hins f hf with hlt | hlater
  · exact hlt
  · exact absurd (.inr (.inr (.inr ⟨f, hf, p, hp, le_of_lt hlater⟩))) hfr

structure ChangeAfter (t : Nat) (files files' : Files) : Prop where
  before : ∀ p, (files p).changed < t
  after : ∀ p, files' p = files p ∨ t ≤ (files' p).changed

section Nodes

variable {t : Nat} {files files' : Files} {node : Node}

theorem loadNode_congr (h : ∀ p ∈ node.products, files' p = files p) :
    files'.loadNode node = files.loadNode node := by
  rw [loadNode, loadNode, loadAndParseDepFile, loadAndParseDepFile]
  by_cases hdep : node.depFile = []
  · rw [if_pos hdep, if_pos hdep]
  · rw [if_neg hdep, if_neg hdep, h]
    rw [Node.products, if_neg hdep]
    exact mem_append_right _ (mem_singleton_self _)

theorem mem_products_of_output {p : FilesystemPath} (h : p ∈ node.outputFiles) :
    p ∈ node.products :=
  mem_append_left _ h

theorem ChangeAfter.made (h : ChangeAfter t files files')
    (hkpt : ∀ p ∈ node.products, files' p = files p) (hmade : Made files node) :
    Made files' node := by
  intro p hp
  rw [loadNode_congr hkpt, hkpt p (mem_products_of_output hp)]
  obtain ⟨contents, s, hcts, hpro, hins⟩ := hmade p hp
  refine ⟨contents, s, hcts, hpro, fun f hf => ?_⟩
  rcases h.after f with heq | hlt
  · rw [heq]
    exact hins f hf
  · exact .inr (lt_of_lt_of_le (h.before p) hlt)

theorem ChangeAfter.stale (h : ChangeAfter t files files')
    (hkpt : ∀ p ∈ node.products, files' p = files p) (hsta : Stale files node) :
    Stale files' node ∨ Made files' node := by
  have hld := loadNode_congr hkpt
  have hnew : ∀ f ∈ (files.loadNode node).inputs, t ≤ (files' f).changed →
      Stale files' node ∨ Made files' node := by
    intro f hf hlt
    cases hout : node.outputFiles with
    | nil =>
      refine .inr (fun p hp => ?_)
      rw [hout] at hp
      cases hp
    | cons p rest =>
      have hp : p ∈ node.outputFiles := by
        rw [hout]
        exact mem_cons_self
      refine .inl (.inr (.inr (.inr ⟨f, by rw [hld]; exact hf, p, hp, ?_⟩)))
      rw [hkpt p (mem_products_of_output hp)]
      exact le_trans (le_of_lt (h.before p)) hlt
  rcases hsta with ⟨p, hp, hmis⟩ | hdep | ⟨f, hf, hmis⟩ | ⟨f, hf, p, hp, hle⟩
  · refine .inl (.inl ⟨p, hp, ?_⟩)
    rw [hkpt p (mem_products_of_output hp)]
    exact hmis
  · refine .inl (.inr (.inl ?_))
    rw [hld]
    exact hdep
  · rcases h.after f with heq | hlt
    · refine .inl (.inr (.inr (.inl ⟨f, by rw [hld]; exact hf, ?_⟩)))
      rw [heq]
      exact hmis
    · exact hnew f hf hlt
  · rcases h.after f with heq | hlt
    · refine .inl (.inr (.inr (.inr ⟨f, by rw [hld]; exact hf, p, hp, ?_⟩)))
      rw [heq, hkpt p (mem_products_of_output hp)]
      exact hle
    · exact hnew f hf hlt

theorem ChangeAfter.stale_or_made (h : ChangeAfter t files files')
    (hkpt : ∀ p ∈ node.products, files' p = files p)
    (hnode : Stale files node ∨ Made files node) : Stale files' node ∨ Made files' node :=
  hnode.elim (h.stale hkpt) (fun hmade => .inr (h.made hkpt hmade))

theorem inputIsNewer_of_le {n : LoadedNode} {f p : FilesystemPath} (hf : f ∈ n.inputs)
    (hp : p ∈ n.outputs) (hfile : (files f).contents ≠ none) (hpfi : (files p).contents ≠ none)
    (hle : (files p).changed ≤ (files f).changed) : inputIsNewer files n = true := by
  have htime : ∀ q, (files q).contents ≠ none →
      files.modificationTime q = some (files q).changed := by
    intro q hq
    obtain ⟨contents, hcts⟩ := ne_none_iff_exists'.1 hq
    rw [modificationTime, hcts]
    rfl
  have hin : (files f).changed ∈ n.inputs.filterMap files.modificationTime :=
    mem_filterMap.2 ⟨f, hf, htime f hfile⟩
  have hout : (files p).changed ∈ n.outputs.filterMap files.modificationTime :=
    mem_filterMap.2 ⟨p, hp, htime p hpfi⟩
  unfold inputIsNewer
  cases hmax : (n.inputs.filterMap files.modificationTime).max? with
  | none =>
    rw [max?_eq_none_iff.1 hmax] at hin
    cases hin
  | some maxInput =>
    cases hmin : (n.outputs.filterMap files.modificationTime).min? with
    | none =>
      rw [min?_eq_none_iff.1 hmin] at hout
      cases hout
    | some minOutput =>
      have hmaxLe := (max?_eq_some_iff.1 hmax).2 _ hin
      have hminLe := (min?_eq_some_iff.1 hmin).2 _ hout
      exact decide_eq_true (le_trans hminLe (le_trans hle hmaxLe))

theorem needToRebuild_eq_false {prev : BuildGraph}
    (h : needToRebuild prev files (files.loadNode node) = false) :
    node ∈ prev.nodes ∧ ¬Stale files node := by
  simp only [needToRebuild, or_eq_false_iff, not_eq_false'] at h
  obtain ⟨⟨⟨⟨⟨⟨hprev, hdep⟩, hdepFil⟩, hins⟩, hout⟩, hpro⟩, hnew⟩ := h
  have hmis : ∀ {l : List FilesystemPath} {q : FilesystemPath}, l.any files.missing = false →
      q ∈ l → (files q).contents ≠ none := by
    intro l q hl hq hno
    have hq' := any_eq_false.1 hl q hq
    rw [missing, hno] at hq'
    exact hq' rfl
  refine ⟨contains_iff_mem.1 hprev, ?_⟩
  have hexists : ∀ f ∈ (files.loadNode node).inputs, (files f).contents ≠ none := by
    intro f hf
    rw [LoadedNode.inputs, mem_append, mem_append] at hf
    rcases hf with (hf | hf) | hf
    · exact hmis hins hf
    · by_cases hspe : isSpecialBuildCommand node.program = true
      · rw [loadNode, if_pos hspe] at hf
        cases hf
      · rw [loadNode, if_neg hspe, mem_singleton] at hf
        intro hno
        rw [hf] at hno
        simp [loadNode, missing, hspe, hno] at hpro
    · cases hld : (files.loadNode node).depFile with
      | none =>
        rw [hld] at hf
        cases hf
      | some depFile =>
        rw [hld] at hf hdepFil
        exact hmis (or_eq_false_iff.1 hdepFil).2 hf
  rintro (⟨p, hp, hno⟩ | ⟨hne, hno⟩ | ⟨f, hf, hno⟩ | ⟨f, hf, p, hp, hle⟩)
  · exact hmis hout hp hno
  · rw [hno] at hdep
    simp [loadNode, hne] at hdep
  · exact hexists f hf hno
  · rw [inputIsNewer_of_le hf (mem_append_left _ hp) (hexists f hf) (hmis hout hp) hle] at hnew
    cases hnew

end Nodes

/-! ## Runs -/

def Node.reads (node : Node) : List FilesystemPath :=
  node.inputFiles ++ if isSpecialBuildCommand node.program then [] else [node.program]

theorem mem_inputs {n : LoadedNode} {f : FilesystemPath} : f ∈ n.inputs ↔
    f ∈ n.node.reads ∨ ∃ depFl, n.depFile = some depFl ∧ f ∈ depFl.dependencies := by
  rw [LoadedNode.inputs, ← Node.reads]
  cases n.depFile <;> simp

/-- What the build system expects of the graph of a run, in the world `w` right before the
build: files have one producer, changes between runs only concern sources, and files that
are generated are listed among the input files of the commands that read them. -/
structure WellFormed (w : World) (run : Run) : Prop where
  one_producer : ∀ m ∈ run.buildGraph.nodes, ∀ n ∈ run.buildGraph.nodes,
    ∀ p ∈ m.products, p ∈ n.products → m = n
  sources_change : ∀ c ∈ run.changes, ∀ n ∈ run.buildGraph.nodes, c.1 ∉ n.products
  dep_files_unread : ∀ m ∈ run.buildGraph.nodes, ∀ n ∈ run.buildGraph.nodes,
    m.depFile ∈ (w.files.loadNode n).inputs → m.depFile ∈ m.products → m.depFile ∈ m.outputFiles
  generated_listed : ∀ i n depFile, run.buildGraph.nodes[i]? = some n →
    run.writtenDepFile i = some depFile → ∀ f ∈ depFile.dependencies,
    ∀ m ∈ run.buildGraph.nodes, f ∈ m.products → f ∈ n.reads

def Executed (run : Run) (log : List Event) (node : Node) : Prop :=
  ∃ i, run.buildGraph.nodes[i]? = some node ∧ .finished i ∈ log

section Replay

variable {w : World} {run : Run} {node : Node} {b : World.Building} {log : List Event}

theorem getElem?_build_nodes (h : run.buildGraph.nodes[i]? = some node) :
    (w.build run).nodes[i]? = some (w.files.loadNode node) := by
  rw [build, prepareBuild, getElem?_map, h]
  rfl

theorem exists_node_of_marked (h : (w.build run).Marked i) :
    ∃ node, run.buildGraph.nodes[i]? = some node := by
  have hlt := h.lt
  rw [build, prepareBuild, length_map] at hlt
  exact ⟨_, getElem?_eq_getElem hlt⟩

theorem WellFormed.produces (hwf : WellFormed w run) {k : Nat} {m n : Node} {f : FilesystemPath}
    (hm : run.buildGraph.nodes[k]? = some m) (hn : run.buildGraph.nodes[i]? = some n)
    (hws : f ∈ m.products) (hrds : f ∈ (w.files.loadNode n).inputs) :
    Produces (w.build run).nodes k i := by
  refine ⟨_, _, f, getElem?_build_nodes hm, getElem?_build_nodes hn, ?_, hrds⟩
  refine mem_append_left _ ?_
  rcases mem_append.1 hws with hout | hdep
  · exact hout
  · by_cases he : m.depFile = []
    · rw [if_pos he] at hdep
      cases hdep
    · rw [if_neg he, mem_singleton] at hdep
      subst hdep
      exact hwf.dep_files_unread m (mem_of_getElem? hm) n (mem_of_getElem? hn) hrds hws

structure Replayed (w : World) (run : Run) (before : List Event) (b : World.Building) : Prop where
  clock : w.clock ≤ b.world.clock
  changed : ∀ p, (b.world.files p).changed < b.world.clock
  started : ∀ i node, .started i ∈ before → run.buildGraph.nodes[i]? = some node →
    w.clock ≤ b.starts i ∧ ∀ f ∈ node.reads, (b.world.files f).changed < b.starts i
  finished : ∀ i node, .finished i ∈ before → run.buildGraph.nodes[i]? = some node →
    ∃ j, run.buildGraph.nodes[j]? = some node ∧ .started j ∈ before ∧
      ∀ p ∈ node.products, (b.world.files p).contents =
        some ⟨if p = node.depFile then run.writtenDepFile j else none, some ⟨node, b.starts j⟩⟩
  kept : ∀ p, (∀ node, Executed run before node → p ∉ node.products) → b.world.files p = w.files p
  later : ∀ p, b.world.files p = w.files p ∨ w.clock ≤ (b.world.files p).changed

theorem Replayed.start {pre : List Event} (h : Replayed w run pre b) (hnew : .started i ∉ pre) :
    Replayed w run (pre ++ [.started i])
      (b.event run.buildGraph.nodes run.writtenDepFile (.started i)) := by
  have ho : ∀ j, .started j ∈ pre → j ≠ i := by
    intro j hj e
    rw [e] at hj
    exact hnew hj
  have hclo := h.clock
  refine ⟨le_succ_of_le hclo, fun p => lt_succ_of_lt (h.changed p), ?_, ?_, ?_, h.later⟩
  · intro j node hj hnode
    dsimp only [World.Building.event]
    rcases mem_append.1 hj with hj | hj
    · rw [if_neg (ho j hj)]
      exact h.started j node hj hnode
    · cases mem_singleton.1 hj
      rw [if_pos rfl]
      exact ⟨hclo, fun f _ => h.changed f⟩
  · intro j node hj hnode
    rcases mem_append.1 hj with hj | hj
    · obtain ⟨k, hk, hstd, hpro⟩ := h.finished j node hj hnode
      refine ⟨k, hk, mem_append_left _ hstd, ?_⟩
      dsimp only [World.Building.event]
      rw [if_neg (ho k hstd)]
      exact hpro
    · cases mem_singleton.1 hj
  · intro p hp
    refine h.kept p (fun node hexecuted => hp node ?_)
    obtain ⟨j, hj, hfin⟩ := hexecuted
    exact ⟨j, hj, mem_append_left _ hfin⟩

theorem Replayed.finish {pre : List Event} (hwf : WellFormed w run)
    (htra : Trace.Always (w.build run).EventOk pre) (h : Replayed w run pre b) {k : Nat}
    (hok : (w.build run).EventOk pre (.finished k)) :
    Replayed w run (pre ++ [.finished k])
      (b.event run.buildGraph.nodes run.writtenDepFile (.finished k)) := by
  obtain ⟨hstdK, hnotFin⟩ := hok
  have hmk : (w.build run).Marked k := by
    obtain ⟨l1, l2, hsp⟩ := append_of_mem hstdK
    exact (htra l1 _ l2 hsp).1
  obtain ⟨m, hm⟩ := exists_node_of_marked hmk
  have heve : b.event run.buildGraph.nodes run.writtenDepFile (.finished k) =
      { b with world := b.world.write m.products (fun path =>
          some ⟨if path = m.depFile then run.writtenDepFile k else none,
            some ⟨m, b.starts k⟩⟩) } := by
    rw [World.Building.event, hm]
  rw [heve]
  -- What a node that was started reads is not written any more.
  have hunr : ∀ i node, .started i ∈ pre → run.buildGraph.nodes[i]? = some node →
      ∀ f ∈ node.reads, f ∉ m.products := by
    intro i node hi hnode f hf hws
    obtain ⟨l1, l2, hsp⟩ := append_of_mem hi
    have hpro := hwf.produces hm hnode hws (mem_inputs.2 (.inl hf))
    have hfin := (htra l1 _ l2 hsp).2.2 k hmk hpro
    rw [hsp] at hnotFin
    exact hnotFin (mem_append_left _ hfin)
  have hclo := h.clock
  refine ⟨le_succ_of_le hclo, ?_, ?_, ?_, ?_, ?_⟩
  · intro p
    dsimp only [write]
    split
    · exact lt_succ_self _
    · exact lt_succ_of_lt (h.changed p)
  · intro i node hi hnode
    have hi : .started i ∈ pre := by simpa using hi
    obtain ⟨hst, hrds⟩ := h.started i node hi hnode
    refine ⟨hst, fun f hf => ?_⟩
    dsimp only [write]
    rw [if_neg (hunr i node hi hnode f hf)]
    exact hrds f hf
  · intro i node hi hnode
    by_cases hsh : ∃ p ∈ node.products, p ∈ m.products
    · -- The last execution of the same node counts.
      obtain ⟨p, hp, hpm⟩ := hsh
      have heq := hwf.one_producer node (mem_of_getElem? hnode) m (mem_of_getElem? hm) p hp hpm
      subst heq
      refine ⟨k, hm, mem_append_left _ hstdK, fun q hq => ?_⟩
      dsimp only [write]
      rw [if_pos hq]
    · rcases mem_append.1 hi with hi | hi
      · obtain ⟨j, hj, hstd, hprod⟩ := h.finished i node hi hnode
        refine ⟨j, hj, mem_append_left _ hstd, fun q hq => ?_⟩
        dsimp only [write]
        rw [if_neg (fun hqm => hsh ⟨q, hq, hqm⟩)]
        exact hprod q hq
      · cases mem_singleton.1 hi
        rw [hm] at hnode
        cases hnode
        refine ⟨k, hm, mem_append_left _ hstdK, fun q hq => ?_⟩
        exact absurd ⟨q, hq, hq⟩ hsh
  · intro p hp
    dsimp only [write]
    rw [if_neg (hp m ⟨k, hm, mem_append_right _ (mem_singleton_self _)⟩)]
    refine h.kept p (fun node hexecuted => hp node ?_)
    obtain ⟨j, hj, hfin⟩ := hexecuted
    exact ⟨j, hj, mem_append_left _ hfin⟩
  · intro p
    dsimp only [write]
    split
    · exact .inr hclo
    · exact h.later p

theorem replayed (hwf : WellFormed w run) (hchg : ∀ p, (w.files p).changed < w.clock)
    (htra : Trace.Always (w.build run).EventOk log) :
    Replayed w run log (log.foldl (World.Building.event run.buildGraph.nodes run.writtenDepFile)
      ⟨w, fun _ => 0⟩) := by
  induction log using reverseRecOn with
  | nil =>
    refine ⟨le_refl _, hchg, ?_, ?_, fun p _ => rfl, fun p => .inl rfl⟩
    · nofun
    · nofun
  | append_singleton log e ih =>
    rw [foldl_append]
    have hok := htra.last
    cases e with
    | started i => exact (ih htra.init).start hok.2.1
    | finished i => exact (ih htra.init).finish hwf htra.init hok

theorem Replayed.upToDate (hwf : WellFormed w run)
    (hchg : ∀ p, (w.files p).changed < w.clock) (h : Replayed w run log b)
    (hexecuted : Executed run log node) : UpToDate b.world.files node := by
  obtain ⟨i, hi, hfin⟩ := hexecuted
  obtain ⟨j, hj, hstd, hpro⟩ := h.finished i node hfin hi
  obtain ⟨hst, hrds⟩ := h.started j node hstd hj
  intro p hp
  refine ⟨_, b.starts j, hpro p (mem_products_of_output hp), rfl, fun f hf => ?_⟩
  rcases mem_inputs.1 hf with hf | ⟨depFl, hld, hf⟩
  · exact hrds f hf
  · have hwr : run.writtenDepFile j = some depFl := by
      rw [loadNode, loadAndParseDepFile] at hld
      by_cases he : node.depFile = []
      · rw [if_pos he] at hld
        cases hld
      · have hmem : node.depFile ∈ node.products := by
          rw [Node.products, if_neg he]
          exact mem_append_right _ (mem_singleton_self _)
        rw [if_neg he, hpro _ hmem, if_pos rfl] at hld
        exact hld
    by_cases hgen : ∃ m, Executed run log m ∧ f ∈ m.products
    · obtain ⟨m, ⟨k, hk, -⟩, hm⟩ := hgen
      exact hrds f (hwf.generated_listed j node depFl hj hwr f hf m (mem_of_getElem? hk) hm)
    · rw [h.kept f (fun m hexecuted hm => hgen ⟨m, hexecuted, hm⟩)]
      exact lt_of_lt_of_le (hchg f) hst

theorem Replayed.products_kept (hwf : WellFormed w run)
    (h : Replayed w run log b) (hnode : node ∈ run.buildGraph.nodes)
    (hnot : ¬Executed run log node) : ∀ p ∈ node.products, b.world.files p = w.files p := by
  intro p hp
  refine h.kept p (fun m hexecuted hm => hnot ?_)
  obtain ⟨k, hk, hfin⟩ := hexecuted
  rw [hwf.one_producer node hnode m (mem_of_getElem? hk) p hp hm]
  exact ⟨k, hk, hfin⟩

theorem marked_of_produces {j : Nat} (hj : (w.build run).Marked j)
    (hji : Produces (w.build run).nodes j i) : (w.build run).Marked i := by
  have hlt := hji.lt
  unfold Build.Marked at hj ⊢
  simp only [build, prepareBuild, nodesToRebuild] at hj hji hlt ⊢
  cases hsav : w.savedGraph with
  | none =>
    rw [getElem?_map, getElem?_eq_getElem hlt]
    rfl
  | some prev =>
    rw [hsav] at hj
    exact (markDependent_spec (length_map _)).2 j i hj hji

theorem exists_prev_of_not_marked (hi : run.buildGraph.nodes[i]? = some node)
    (hnot : ¬(w.build run).Marked i) :
    ∃ prev, w.savedGraph = some prev ∧ node ∈ prev.nodes ∧ ¬Stale w.files node := by
  have hget := getElem?_build_nodes (w := w) hi
  unfold Build.Marked at hnot
  simp only [build, prepareBuild, nodesToRebuild] at hnot hget
  cases hsav : w.savedGraph with
  | none =>
    rw [hsav] at hnot
    rw [getElem?_map, hget] at hnot
    exact absurd rfl hnot
  | some prev =>
    rw [hsav] at hnot
    refine ⟨prev, rfl, needToRebuild_eq_false ?_⟩
    by_contra hneed
    refine hnot ((markDependent_spec (length_map _)).1 i ?_)
    rw [getElem?_map, hget]
    exact congrArg some (by simpa using hneed)

/-! ## The invariant -/

/-- A run that fails has executed the commands that are new, or they look stale. -/
def NewNodesExecuted (w : World) (run : Run) : Prop :=
  ∀ st, (w.build run).perform run.env run.fuel = .returned false st →
    ∀ node ∈ run.buildGraph.nodes, (∀ prev, w.savedGraph = some prev → node ∉ prev.nodes) →
      Stale w.files node ∨ Executed run st.log node

structure World.Inv (w : World) : Prop where
  changed : ∀ p, (w.files p).changed < w.clock
  saved : ∀ prev, w.savedGraph = some prev → ∀ node ∈ prev.nodes,
    Stale w.files node ∨ Made w.files node

theorem files_change (w : World) (c : FilesystemPath × Option (Option MakeDepFile))
    (p : FilesystemPath) : (w.change c).files p =
      if p = c.1 then ⟨w.clock, c.2.map (fun depFl => ⟨depFl, none⟩)⟩ else w.files p := by
  simp only [change, write, mem_singleton]

structure World.ChangedTo (w w' : World) : Prop where
  clock : w.clock ≤ w'.clock
  changed : ∀ p, (w'.files p).changed < w'.clock
  after : ∀ p, w'.files p = w.files p ∨ w.clock ≤ (w'.files p).changed
  saved : w'.savedGraph = w.savedGraph

theorem World.ChangedTo.change {w' : World} (h : w.ChangedTo w')
    (c : FilesystemPath × Option (Option MakeDepFile)) : w.ChangedTo (w'.change c) := by
  refine ⟨le_succ_of_le h.clock, fun p => ?_, fun p => ?_, h.saved⟩
  · rw [files_change]
    by_cases hp : p = c.1
    · rw [if_pos hp]
      exact lt_succ_self _
    · rw [if_neg hp]
      exact lt_succ_of_lt (h.changed p)
  · rw [files_change]
    by_cases hp : p = c.1
    · rw [if_pos hp]
      exact .inr h.clock
    · rw [if_neg hp]
      exact h.after p

theorem applyChanges_changedTo (run : Run) (h : ∀ p, (w.files p).changed < w.clock) :
    w.ChangedTo (w.applyChanges run) := by
  have hall : ∀ (chgs : List (FilesystemPath × Option (Option MakeDepFile))) (w' : World),
      w.ChangedTo w' → w.ChangedTo (chgs.foldl change w') := by
    intro chgs
    induction chgs with
    | nil => exact fun w' h => h
    | cons c chgs ih => exact fun w' h => ih (w'.change c) (h.change c)
  exact hall run.changes w ⟨le_refl _, h, fun p => .inl rfl, rfl⟩

theorem applyChanges_kept {p : FilesystemPath} (h : ∀ c ∈ run.changes, p ≠ c.1) :
    (w.applyChanges run).files p = w.files p := by
  have hall : ∀ (chgs : List (FilesystemPath × Option (Option MakeDepFile))) (w' : World),
      (∀ c ∈ chgs, p ≠ c.1) → (chgs.foldl change w').files p = w'.files p := by
    intro chgs
    induction chgs with
    | nil => exact fun w' _ => rfl
    | cons c chgs ih =>
      intro w' hp
      rw [foldl_cons, ih _ (fun c' hc' => hp c' (mem_cons_of_mem _ hc')), files_change,
        if_neg (hp c mem_cons_self)]
  exact hall run.changes w h

theorem World.Inv.applyChanges (h : w.Inv) (hwf : WellFormed (w.applyChanges run) run)
    {prev : BuildGraph} (hprev : w.savedGraph = some prev) (hold : node ∈ prev.nodes)
    (hnode : node ∈ run.buildGraph.nodes) :
    Stale (w.applyChanges run).files node ∨ Made (w.applyChanges run).files node := by
  have hto := applyChanges_changedTo run h.changed
  refine ChangeAfter.stale_or_made ⟨h.changed, hto.after⟩ (fun p hp => ?_) (h.saved prev hprev node hold)
  refine applyChanges_kept (fun c hc e => ?_)
  rw [e] at hp
  exact hwf.sources_change c hc node hnode hp

structure Built (w : World) (run : Run) (result : Bool) (log : List Event) (files : Files) :
    Prop where
  executed : ∀ node, Executed run log node → UpToDate files node
  products_kept : ∀ node ∈ run.buildGraph.nodes, ¬Executed run log node →
    ∀ p ∈ node.products, files p = w.files p
  changes : ChangeAfter w.clock w.files files
  inputs_kept : ∀ i node, run.buildGraph.nodes[i]? = some node → ¬(w.build run).Marked i →
    ∀ f ∈ (w.files.loadNode node).inputs, files f = w.files f
  all_executed : result = true → ∀ i node, run.buildGraph.nodes[i]? = some node →
    (w.build run).Marked i → Executed run log node

theorem built (hwf : WellFormed w run) (hchg : ∀ p, (w.files p).changed < w.clock)
    {result : Bool} {st : BuildState}
    (h : (w.build run).perform run.env run.fuel = .returned result st) :
    Built w run result st.log (w.applyLog run st.log).files := by
  have htra : Trace.Always (w.build run).EventOk
      ((w.build run).perform run.env run.fuel).state.log :=
    Build.perform_trace run.jobs_pos run.env run.fuel
  rw [h] at htra
  have hrep := replayed hwf hchg htra
  refine ⟨fun node => hrep.upToDate hwf hchg, fun node hnode =>
    hrep.products_kept hwf hnode, ⟨hchg, hrep.later⟩, ?_, ?_⟩
  · intro i node hi hnot f hf
    refine hrep.kept f (fun m hexecuted hm => hnot ?_)
    obtain ⟨k, hk, hfin⟩ := hexecuted
    obtain ⟨l1, l2, hsp⟩ := append_of_mem hfin
    obtain ⟨l3, l4, hsp'⟩ := append_of_mem (htra l1 _ l2 hsp).1
    have hmk : (w.build run).Marked k := by
      refine (htra l3 (.started k) (l4 ++ .finished k :: l2) ?_).1
      change st.log = _
      rw [show st.log = l1 ++ .finished k :: l2 from hsp, hsp', append_assoc]
      rfl
    exact marked_of_produces hmk (hwf.produces hk hi hm hf)
  · intro htr i node hi hmk
    subst htr
    have hend := (Build.perform_ended run.jobs_pos h).resolve_left (fun hf => by cases hf.1)
    have hc := (hend.executedOnce hmk).2
    exact ⟨i, hi, count_pos_iff.1 (by omega)⟩

end Replay

/-! ## Histories -/

/-- A run in which the build system does what it should. -/
structure Meets (w : World) (run : Run) : Prop where
  well_formed : WellFormed (w.applyChanges run) run
  new_nodes : NewNodesExecuted (w.applyChanges run) run

/-- The worlds after any number of runs.  In the first one there is no saved graph. -/
inductive Reachable (P : World → Run → Prop) : World → Prop
  | start {w : World} : (∀ p, (w.files p).changed < w.clock) → w.savedGraph = none → Reachable P w
  | run {w w' : World} {run : Run} {result : Bool} : Reachable P w → P w run →
      w.main run = some (result, w') → Reachable P w'

section Main

variable {w w' : World} {run : Run} {result : Bool}

theorem main_cases (h : w.main run = some (result, w')) : ∃ st,
    ((w.applyChanges run).build run).perform run.env run.fuel = .returned result st ∧
      w' = { (w.applyChanges run).applyLog run st.log with savedGraph := some run.buildGraph } := by
  rw [main] at h
  cases hpf : ((w.applyChanges run).build run).perform run.env run.fuel with
  | running st =>
    rw [hpf] at h
    cases h
  | returned result' st =>
    rw [hpf] at h
    cases h
    exact ⟨st, rfl, rfl⟩

theorem changed_lt_of_main (hchg : ∀ p, (w.files p).changed < w.clock)
    (hwf : WellFormed (w.applyChanges run) run) (h : w.main run = some (result, w')) :
    ∀ p, (w'.files p).changed < w'.clock := by
  obtain ⟨st, hpf, rfl⟩ := main_cases h
  have htra : Trace.Always ((w.applyChanges run).build run).EventOk
      (((w.applyChanges run).build run).perform run.env run.fuel).state.log :=
    Build.perform_trace run.jobs_pos run.env run.fuel
  rw [hpf] at htra
  exact (replayed hwf (applyChanges_changedTo run hchg).changed htra).changed

theorem upToDate_of_main (hinv : w.Inv) (hwf : WellFormed (w.applyChanges run) run)
    (h : w.main run = some (true, w')) {node : Node} (hnode : node ∈ run.buildGraph.nodes) :
    UpToDate w'.files node := by
  obtain ⟨st, hpf, rfl⟩ := main_cases h
  have hto := applyChanges_changedTo run hinv.changed
  have hbt := built hwf hto.changed hpf
  by_cases hexecuted : Executed run st.log node
  · exact hbt.executed node hexecuted
  · obtain ⟨i, hi⟩ := mem_iff_getElem?.1 hnode
    have hnot : ¬((w.applyChanges run).build run).Marked i :=
      fun hmk => hexecuted (hbt.all_executed rfl i node hi hmk)
    obtain ⟨prev, hprev, hold, hfr⟩ := exists_prev_of_not_marked hi hnot
    have hmade := (hinv.applyChanges hwf (hto.saved ▸ hprev) hold hnode).resolve_left hfr
    have hkpt := hbt.products_kept node hnode hexecuted
    intro p hp
    obtain ⟨contents, s, hcts, hpro, hins⟩ := hmade.upToDate hfr p hp
    refine ⟨contents, s, ?_, hpro, fun f hf => ?_⟩
    · exact (congrArg File.contents (hkpt p (mem_products_of_output hp))).trans hcts
    · have hld := loadNode_congr hkpt
      have hf : f ∈ ((w.applyChanges run).files.loadNode node).inputs := hld ▸ hf
      rw [show ((w.applyChanges run).applyLog run st.log).files f = _ from
        hbt.inputs_kept i node hi hnot f hf]
      exact hins f hf

theorem World.Inv.main (hinv : w.Inv) (hrun : Meets w run) (h : w.main run = some (result, w')) :
    w'.Inv := by
  refine ⟨changed_lt_of_main hinv.changed hrun.well_formed h, ?_⟩
  intro graph hg node hnode
  cases result with
  | true =>
    obtain ⟨st, hpf, rfl⟩ := main_cases h
    cases hg
    exact .inr (upToDate_of_main hinv hrun.well_formed h hnode).made
  | false =>
    obtain ⟨st, hpf, rfl⟩ := main_cases h
    cases hg
    have hto := applyChanges_changedTo run hinv.changed
    have hbt := built hrun.well_formed hto.changed hpf
    by_cases hexecuted : Executed run st.log node
    · exact .inr (hbt.executed node hexecuted).made
    · refine hbt.changes.stale_or_made (hbt.products_kept node hnode hexecuted) ?_
      by_cases hold : ∃ prev, w.savedGraph = some prev ∧ node ∈ prev.nodes
      · obtain ⟨prev, hprev, hold⟩ := hold
        exact hinv.applyChanges hrun.well_formed hprev hold hnode
      · -- A new node that was not executed.
        refine .inl ((hrun.new_nodes st hpf node hnode ?_).resolve_right hexecuted)
        intro prev hprev hmem
        exact hold ⟨prev, hto.saved ▸ hprev, hmem⟩

theorem Reachable.inv (h : Reachable Meets w) : w.Inv := by
  induction h with
  | start hchg hno =>
    refine ⟨hchg, fun prev hprev => ?_⟩
    rw [hno] at hprev
    cases hprev
  | run _ hrun hmain ih => exact ih.main hrun hmain

end Main

/-- In every history of runs that meet the conditions, a run that succeeds leaves all nodes
of its graph up to date. -/
theorem reachable_main_upToDate {w w' : World} {run : Run} (hreachable : Reachable Meets w)
    (hrun : Meets w run) (hmain : w.main run = some (true, w')) :
    ∀ node ∈ run.buildGraph.nodes, UpToDate w'.files node := by
  intro node hnode
  exact upToDate_of_main hreachable.inv hrun.well_formed hmain hnode

/-! ## A history with a failure -/

namespace FailedRebuild

open LexSynt (asciiText)

/-- A command that compiles one file, without a dep file. -/
def compile (source object : String) (commandLine : List String) : Node where
  program := asciiText "compiler"
  commandLine := commandLine.map asciiText
  comment := []
  depFile := []
  inputFiles := [asciiText source]
  outputFiles := [asciiText object]

def startWorld : World where
  clock := 1
  files path := ⟨0, if path ∈ [asciiText "compiler", asciiText "a.u", asciiText "b.u"] then
    some ⟨none, none⟩ else none⟩
  savedGraph := none

/-- A run with one job.  The command with the index `failing` fails. -/
def runWith (changes : List String) (nodes : List Node) (failing : Option Nat) : Run where
  changes := changes.map (fun path => (asciiText path, some none))
  buildGraph := ⟨nodes⟩
  maxNumberOfParallelJobs := 1
  jobs_pos := Nat.le_refl 1
  env := ⟨fun _ => true, fun i => some i ≠ failing, fun _ => true, fun _ _ => true⟩
  writtenDepFile _ := none
  fuel := 5

def oldGraph : List Node := [compile "b.u" "b.o" [], compile "a.u" "a.o" ["-O0"]]

def newGraph : List Node := [compile "b.u" "b.o" [], compile "a.u" "a.o" ["-O2"]]

def firstRun : Run := runWith [] oldGraph none

/-- The file `b.u` changed. -/
def rebuild : Run := runWith ["b.u"] oldGraph none

/-- The command line for `a.u` and the file `b.u` changed, and `b.u` does not compile. -/
def secondRun : Run := runWith ["b.u"] newGraph (some 0)

/-- Now `b.u` compiles. -/
def thirdRun : Run := runWith ["b.u"] newGraph none

variable (w : World)

def after (run : Run) : World := ((w.main run).map Prod.snd).getD w

theorem main_eq {w : World} {run : Run} {result : Bool}
    (h : (w.main run).map Prod.fst = some result) : w.main run = some (result, after w run) := by
  obtain ⟨⟨r, w'⟩, hmain, rfl⟩ := map_eq_some_iff.1 h
  rw [after, hmain]
  rfl

theorem wellFormed_runWith {chgs : List String} {nodes : List Node}
    {failing : Option Nat} (hdep : ∀ m ∈ nodes, m.depFile = [])
    (hpro : ∀ m ∈ nodes, ∀ n ∈ nodes, ∀ p ∈ m.products, p ∈ n.products → m = n)
    (hsou : ∀ c ∈ (runWith chgs nodes failing).changes, ∀ n ∈ nodes, c.1 ∉ n.products) :
    WellFormed w (runWith chgs nodes failing) where
  one_producer := hpro
  sources_change := hsou
  dep_files_unread m hm n _ _ hmem := by
    rw [Node.products, if_pos (hdep m hm), append_nil] at hmem
    exact hmem
  generated_listed i n depFile _ hwr := by cases hwr

theorem wellFormed_firstRun : WellFormed w firstRun :=
  wellFormed_runWith w (by decide) (by decide) (by decide)

theorem wellFormed_rebuild : WellFormed w rebuild :=
  wellFormed_runWith w (by decide) (by decide) (by decide)

theorem wellFormed_secondRun : WellFormed w secondRun :=
  wellFormed_runWith w (by decide) (by decide) (by decide)

theorem wellFormed_thirdRun : WellFormed w thirdRun :=
  wellFormed_runWith w (by decide) (by decide) (by decide)

theorem main_firstRun : startWorld.main firstRun = some (true, after startWorld firstRun) :=
  main_eq (by decide +kernel)

end FailedRebuild

open FailedRebuild in
/-- The second of two runs compiles `b.u` only. -/
theorem reachable_main_upToDate_rebuild :
    (Reachable Meets (after startWorld firstRun) ∧ Meets (after startWorld firstRun) rebuild) ∧
      ((after (after startWorld firstRun) rebuild).files (LexSynt.asciiText "a.o")).changed <
        (after startWorld firstRun).clock ∧
      ∀ node ∈ oldGraph, UpToDate (after (after startWorld firstRun) rebuild).files node := by
  have hfirst : Meets startWorld firstRun := by
    refine ⟨wellFormed_firstRun _, ?_⟩
    intro st hperform
    cases hperform
  have hreachable := Reachable.run (.start (fun _ => one_pos) rfl) hfirst main_firstRun
  have hsecond : (after startWorld firstRun).main rebuild
      = some (true, after (after startWorld firstRun) rebuild) := main_eq (by decide +kernel)
  have hmeets : Meets (after startWorld firstRun) rebuild := by
    refine ⟨wellFormed_rebuild _, ?_⟩
    intro st hperform
    cases hperform
  exact ⟨⟨hreachable, hmeets⟩, by decide +kernel, reachable_main_upToDate hreachable hmeets hsecond⟩

open FailedRebuild in
/-- After all three runs the output for `a.u` is that of the old command line. -/
theorem reachable_main_not_upToDate_thirdRun :
    ∃ w w', Reachable (fun w run => WellFormed (w.applyChanges run) run) w ∧
      WellFormed (w.applyChanges thirdRun) thirdRun ∧ w.main thirdRun = some (true, w') ∧
      ¬∀ node ∈ thirdRun.buildGraph.nodes, UpToDate w'.files node := by
  have hsecond : (after startWorld firstRun).main secondRun
      = some (false, after (after startWorld firstRun) secondRun) := main_eq (by decide +kernel)
  have hthird : (after (after startWorld firstRun) secondRun).main thirdRun
      = some (true, after (after (after startWorld firstRun) secondRun) thirdRun) :=
    main_eq (by decide +kernel)
  have horigin : (((after (after (after startWorld firstRun) secondRun) thirdRun).files
      (LexSynt.asciiText "a.o")).contents.bind (·.producedBy)).map (·.node)
        = some (compile "a.u" "a.o" ["-O0"]) := by decide +kernel
  refine ⟨_, _, .run (.run (.start (fun _ => one_pos) rfl) (wellFormed_firstRun _)
    main_firstRun) (wellFormed_secondRun _) hsecond, wellFormed_thirdRun _, hthird, fun hall => ?_⟩
  obtain ⟨contents, start, hcontents, hproduced, -⟩ :=
    hall (compile "a.u" "a.o" ["-O2"]) (by decide) (LexSynt.asciiText "a.o") (by decide)
  rw [hcontents, bind_some, hproduced] at horigin
  have hsame : compile "a.u" "a.o" ["-O2"] = compile "a.u" "a.o" ["-O0"] := some.inj horigin
  exact absurd hsame (by decide)

end USprache.BuildSystem
