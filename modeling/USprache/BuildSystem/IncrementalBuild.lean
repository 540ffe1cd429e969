import USprache.BuildSystem.Scheduling
import USprache.Library.Worklist

/-!
# Incremental builds

The first half of `PerformGraphBuild` marks nodes for rebuild: those that are new, those
with missing files or with an input that is not older than an output, and those that
depend on them.  `Main` then saves the graph, whether the build succeeded or not.

The file system records for each file when it last changed and which execution of a
command produced it.  A command that succeeds produces its output files and its dep file.
-/

namespace USprache.BuildSystem

open Library List

structure Execution where
  node : Node
  start : Nat
deriving DecidableEq

structure Contents where
  /-- What `ParseMakeDepFileContents` returns for the file. -/
  depFile : Option MakeDepFile
  producedBy : Option Execution

structure File where
  /-- The time of the last change, be it the removal of the file. -/
  changed : Nat
  contents : Option Contents

abbrev Files := FilesystemPath → File

namespace Files

variable (files : Files)

def modificationTime (path : FilesystemPath) : Option Nat :=
  (files path).contents.map (fun _ => (files path).changed)

def missing (path : FilesystemPath) : Bool := (files path).contents.isNone

def loadAndParseDepFile (depFilePath : FilesystemPath) : Option MakeDepFile :=
  if depFilePath = [] then none else (files depFilePath).contents.bind (·.depFile)

def loadNode (node : Node) : LoadedNode :=
  ⟨node, files.loadAndParseDepFile node.depFile⟩

end Files

/-- The comparison of the newest input with the oldest output.  Without inputs or outputs
the source compares with the first or the last of all times. -/
def inputIsNewer (files : Files) (n : LoadedNode) : Bool :=
  match (n.inputs.filterMap files.modificationTime).max?,
      (n.outputs.filterMap files.modificationTime).min? with
  | some maxInput, some minOutput => maxInput ≥ minOutput
  | _, _ => false

def needToRebuild (prevBuildGraph : BuildGraph) (files : Files) (n : LoadedNode) : Bool :=
  !prevBuildGraph.nodes.contains n.node ||
  (!n.node.depFile.isEmpty && n.depFile.isNone) ||
  n.depFile.any (fun depFile =>
    files.missing depFile.destination || depFile.dependencies.any files.missing) ||
  n.node.inputFiles.any files.missing ||
  n.node.outputFiles.any files.missing ||
  (!isSpecialBuildCommand n.node.program && files.missing n.node.program) ||
  inputIsNewer files n

variable (nodes : List LoadedNode)

def consumers (i : Nat) : List Nat :=
  match nodes[i]? with
  | none => []
  | some n => n.outputs.flatMap (buildInputFileToNodeIndexMap nodes).find

def initialStack (nodesToRebuild : List Bool) : List Nat :=
  (nodesToRebuild.zipIdx.filterMap (fun pair => if pair.1 then some pair.2 else none)).reverse

def totalPushes : Nat :=
  nodes.length + ((List.range nodes.length).map (fun i => (consumers nodes i).length)).sum

def markDependent (nodesToRebuild : List Bool) : List Bool :=
  match worklist (consumers nodes) (totalPushes nodes) (initialStack nodesToRebuild) [] with
  | none => nodesToRebuild
  | some visited => nodesToRebuild.zipIdx.map (fun pair => pair.1 || visited.contains pair.2)

def nodesToRebuild (prevBuildGraph : Option BuildGraph) (files : Files)
    (nodes : List LoadedNode) : List Bool :=
  match prevBuildGraph with
  | some prevBuildGraph => markDependent nodes (nodes.map (needToRebuild prevBuildGraph files))
  | none => nodes.map (fun _ => true)

theorem length_markDependent (ns : List LoadedNode) (marks : List Bool) :
    (markDependent ns marks).length = marks.length := by
  unfold markDependent
  split
  · rfl
  · rw [length_map, length_zipIdx]

theorem length_nodesToRebuild (prevBG : Option BuildGraph) (files : Files)
    (ns : List LoadedNode) : (nodesToRebuild prevBG files ns).length = ns.length := by
  unfold nodesToRebuild
  split
  · rw [length_markDependent, length_map]
  · rw [length_map]

/-- The nodes and marks of a call of `PerformGraphBuild`. -/
def prepareBuild (buildGraph : BuildGraph) (prevBuildGraph : Option BuildGraph) (files : Files)
    (maxNumberOfParallelJobs : Nat) : Build where
  nodes := buildGraph.nodes.map files.loadNode
  nodesToRebuild := nodesToRebuild prevBuildGraph files (buildGraph.nodes.map files.loadNode)
  maxNumberOfParallelJobs := maxNumberOfParallelJobs
  size_eq := length_nodesToRebuild _ _ _

def Node.products (node : Node) : List FilesystemPath :=
  node.outputFiles ++ if node.depFile = [] then [] else [node.depFile]

structure World where
  clock : Nat
  files : Files
  /-- `build_graph.json`. -/
  savedGraph : Option BuildGraph

/-- A run of the build system and the changes before it.  A change with no contents removes a
file. -/
structure Run where
  changes : List (FilesystemPath × Option (Option MakeDepFile))
  buildGraph : BuildGraph
  maxNumberOfParallelJobs : Nat
  /-- `ust::max( 1u, ... )` in `Main`. -/
  jobs_pos : 1 ≤ maxNumberOfParallelJobs
  env : Environment
  /-- What the command of a node writes into its dep file. -/
  writtenDepFile : Nat → Option MakeDepFile
  fuel : Nat

namespace World

variable (w : World)

def write (paths : List FilesystemPath) (contents : FilesystemPath → Option Contents) :
    World :=
  { w with
    clock := w.clock + 1
    files := fun path => if path ∈ paths then ⟨w.clock, contents path⟩ else w.files path }

def change (c : FilesystemPath × Option (Option MakeDepFile)) : World :=
  w.write [c.1] (fun _ => c.2.map (fun depFile => ⟨depFile, none⟩))

variable (run : Run)

def applyChanges : World := run.changes.foldl change w

/-- The world during a build, with the times at which nodes were started. -/
structure Building where
  world : World
  starts : Nat → Nat

def Building.event (nodes : List Node) (writtenDepFile : Nat → Option MakeDepFile)
    (b : Building) : Event → Building
  | .started i =>
    ⟨{ b.world with clock := b.world.clock + 1 },
      fun j => if j = i then b.world.clock else b.starts j⟩
  | .finished i =>
    match nodes[i]? with
    | none => b
    | some node =>
      { b with world := b.world.write node.products (fun path =>
          some ⟨if path = node.depFile then writtenDepFile i else none, some ⟨node, b.starts i⟩⟩) }

def applyLog (log : List Event) : World :=
  (log.foldl (Building.event run.buildGraph.nodes run.writtenDepFile) ⟨w, fun _ => 0⟩).world

def build : Build :=
  prepareBuild run.buildGraph w.savedGraph w.files run.maxNumberOfParallelJobs

/-- `Main`: the result of `PerformGraphBuild` and the world after it, if it returns. -/
def main : Option (Bool × World) :=
  let w := w.applyChanges run
  match (w.build run).perform run.env run.fuel with
  | .running _ => none
  | .returned result st =>
    some (result, { w.applyLog run st.log with savedGraph := some run.buildGraph })

end World

end USprache.BuildSystem
