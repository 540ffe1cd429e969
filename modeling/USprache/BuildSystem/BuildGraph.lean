import USprache.LexSynt.ProgramString

/-!
# Build graphs

The nodes of a build graph are commands, its edges are files.  Edges are not stored:
a command reads its input files, its program and the dependencies in its dep file, and
produces its output files.
-/

namespace USprache.BuildSystem

open List

open LexSynt (Text ascii asciiText)

abbrev FilesystemPath := Text

structure Node where
  program : Text
  commandLine : List Text
  comment : Text
  depFile : FilesystemPath
  inputFiles : List FilesystemPath
  outputFiles : List FilesystemPath
deriving DecidableEq

structure BuildGraph where
  nodes : List Node
deriving DecidableEq

structure MakeDepFile where
  destination : FilesystemPath
  dependencies : List FilesystemPath
deriving DecidableEq

namespace SpecialBuildCommands

def copyFile : Text := asciiText "??copy"

def generateFile : Text := asciiText "??generate_file"

end SpecialBuildCommands

def isSpecialBuildCommand : Text → Bool
  | a :: b :: _ => a = ascii '?' && b = ascii '?'
  | _ => false

structure LoadedNode where
  node : Node
  depFile : Option MakeDepFile

namespace LoadedNode

def inputs (n : LoadedNode) : List FilesystemPath :=
  n.node.inputFiles ++ (if isSpecialBuildCommand n.node.program then [] else [n.node.program]) ++
    n.depFile.elim [] (·.dependencies)

def outputs (n : LoadedNode) : List FilesystemPath :=
  n.node.outputFiles ++ n.depFile.elim [] (fun depFile => [depFile.destination])

end LoadedNode

abbrev FileToNodesMap := List (FilesystemPath × List Nat)

namespace FileToNodesMap

def find (map : FileToNodesMap) (file : FilesystemPath) : List Nat := (map.lookup file).getD []

/-- `find_or_construct_default( file ).push_back( i )`. -/
def pushBack : FileToNodesMap → FilesystemPath → Nat → FileToNodesMap
  | [], file, i => [(file, [i])]
  | (key, indices) :: rest, file, i =>
    if file = key then (key, indices ++ [i]) :: rest
    else (key, indices) :: pushBack rest file i

def pushNode (map : FileToNodesMap) (files : List FilesystemPath) (i : Nat) : FileToNodesMap :=
  files.foldl (fun map file => map.pushBack file i) map

/-- The common loop of the two maps, from the index `i` on. -/
def pushNodes (files : LoadedNode → List FilesystemPath) :
    Nat → List LoadedNode → FileToNodesMap → FileToNodesMap
  | _, [], map => map
  | i, n :: nodes, map => pushNodes files (i + 1) nodes (map.pushNode (files n) i)

theorem find_pushBack (map : FileToNodesMap) (file other : FilesystemPath) (i : Nat) :
    (map.pushBack file i).find other =
      if other = file then map.find other ++ [i] else map.find other := by
  induction map with
  | nil =>
    rw [pushBack, find, find, lookup_cons]
    by_cases h : other = file
    · rw [if_pos h, h, beq_self_eq_true]
      rfl
    · rw [if_neg h, beq_eq_false_iff_ne.2 h]
  | cons p rest ih =>
    obtain ⟨key, indices⟩ := p
    rw [pushBack]
    by_cases hkey : file = key
    · subst hkey
      rw [if_pos rfl, find, find, lookup_cons, lookup_cons]
      by_cases h : other = file
      · rw [if_pos h, h, beq_self_eq_true]
        rfl
      · rw [if_neg h, beq_eq_false_iff_ne.2 h]
    · rw [if_neg hkey, find, find, lookup_cons, lookup_cons]
      by_cases h : other = key
      · have hne : other ≠ file := fun e => hkey (e.symm.trans h)
        rw [if_neg hne, h, beq_self_eq_true]
      · rw [beq_eq_false_iff_ne.2 h]
        exact ih

theorem mem_find_pushNode (files : List FilesystemPath) (map : FileToNodesMap)
    (file : FilesystemPath) (i j : Nat) :
    j ∈ (map.pushNode files i).find file ↔ j ∈ map.find file ∨ j = i ∧ file ∈ files := by
  induction files generalizing map with
  | nil => simp [pushNode]
  | cons f files ih =>
    have hst : map.pushNode (f :: files) i = (map.pushBack f i).pushNode files i := rfl
    rw [hst, ih, find_pushBack]
    by_cases h : file = f
    · rw [if_pos h, mem_append, mem_singleton, mem_cons]
      tauto
    · rw [if_neg h, mem_cons]
      tauto

theorem mem_find_pushNodes (files : LoadedNode → List FilesystemPath) (file : FilesystemPath)
    (j : Nat) : ∀ nodes i map, j ∈ (pushNodes files i nodes map).find file ↔
        j ∈ map.find file ∨ ∃ k n, nodes[k]? = some n ∧ j = i + k ∧ file ∈ files n := by
  intro nodes
  induction nodes with
  | nil => simp [pushNodes]
  | cons n nodes ih =>
    intro i map
    rw [pushNodes, ih, mem_find_pushNode]
    constructor
    · rintro ((h | ⟨rfl, h⟩) | ⟨k, m, hm, rfl, h⟩)
      · exact .inl h
      · exact .inr ⟨0, n, rfl, rfl, h⟩
      · exact .inr ⟨k + 1, m, hm, by omega, h⟩
    · rintro (h | ⟨k, m, hm, rfl, h⟩)
      · exact .inl (.inl h)
      · cases k with
        | zero =>
          cases hm
          exact .inl (.inr ⟨rfl, h⟩)
        | succ k => exact .inr ⟨k, m, hm, by omega, h⟩

end FileToNodesMap

def buildInputFileToNodeIndexMap (nodes : List LoadedNode) : FileToNodesMap :=
  FileToNodesMap.pushNodes LoadedNode.inputs 0 nodes []

def buildOutputFileToNodeIndexMap (nodes : List LoadedNode) : FileToNodesMap :=
  FileToNodesMap.pushNodes LoadedNode.outputs 0 nodes []

variable {nodes : List LoadedNode} {file : FilesystemPath} {j : Nat}

theorem FileToNodesMap.mem_find_pushNodes_nil {files : LoadedNode → List FilesystemPath} :
    j ∈ (pushNodes files 0 nodes []).find file ↔ ∃ n, nodes[j]? = some n ∧ file ∈ files n := by
  rw [mem_find_pushNodes]
  constructor
  · rintro (h | ⟨k, n, hn, rfl, h⟩)
    · cases h
    · rw [Nat.zero_add]
      exact ⟨n, hn, h⟩
  · rintro ⟨n, hn, h⟩
    exact .inr ⟨j, n, hn, (Nat.zero_add j).symm, h⟩

theorem mem_buildInputFileToNodeIndexMap : j ∈ (buildInputFileToNodeIndexMap nodes).find file ↔
    ∃ n, nodes[j]? = some n ∧ file ∈ n.inputs :=
  FileToNodesMap.mem_find_pushNodes_nil

theorem mem_buildOutputFileToNodeIndexMap : j ∈ (buildOutputFileToNodeIndexMap nodes).find file ↔
    ∃ n, nodes[j]? = some n ∧ file ∈ n.outputs :=
  FileToNodesMap.mem_find_pushNodes_nil

def Produces (nodes : List LoadedNode) (j i : Nat) : Prop :=
  ∃ m n file, nodes[j]? = some m ∧ nodes[i]? = some n ∧ file ∈ m.outputs ∧ file ∈ n.inputs

end USprache.BuildSystem
