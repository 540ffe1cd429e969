import USprache.BuildSystem.JsonRoundTrip

/-!
# The saved build graph

A build graph is written as a JSON text with strings, arrays and objects only.  The order in
which the pairs of an object are written is the order of a hash map and is left open here:
the graph is restored for any order.
-/

namespace USprache.BuildSystem

open List Option JsonValue

open LexSynt (Text ascii asciiText)
open Ustlib (SizeType)

/-- The order of the iteration over the pairs of an object. -/
structure HashOrder where
  arrange : JsonValue.Object → JsonValue.Object
  perm : ∀ object, (arrange object).Perm object

/-- `insert_new`: a value that is present already is kept. -/
def JsonValue.insertNew (object : JsonValue.Object) (key : Text) (value : JsonValue) : JsonValue.Object :=
  if (find object key).isSome then object else object ++ [(key, value)]

section

variable (order : HashOrder)

def stringListValue (list : List Text) : JsonValue := .array (list.map .string)

def nodeObject (node : Node) : JsonValue.Object :=
  let nodeValue : JsonValue.Object := []
  let nodeValue := JsonValue.insertNew nodeValue (asciiText "program") (.string node.program)
  let nodeValue := JsonValue.insertNew nodeValue (asciiText "command_line") (stringListValue node.commandLine)
  let nodeValue := JsonValue.insertNew nodeValue (asciiText "comment") (.string node.comment)
  let nodeValue := JsonValue.insertNew nodeValue (asciiText "dep_file") (.string node.depFile)
  let nodeValue := JsonValue.insertNew nodeValue (asciiText "input_files") (stringListValue node.inputFiles)
  JsonValue.insertNew nodeValue (asciiText "output_files") (stringListValue node.outputFiles)

def nodeValue (node : Node) : JsonValue := .object (order.arrange (nodeObject node))

def buildGraphValue (buildGraph : BuildGraph) : JsonValue := .object (order.arrange
    (JsonValue.insertNew [] (asciiText "nodes") (.array (buildGraph.nodes.map (nodeValue order)))))

def serializeBuildGraph (buildGraph : BuildGraph) : Text :=
  serializeJsonValuePretty (buildGraphValue order buildGraph)

end

def deserializeStringList (value : JsonValue) : Option (List Text) :=
  value.asArray.bind fun valueArray => valueArray.mapM asString

/-- A field of a node.  A field that is absent keeps its default value. -/
def deserializeField {α : Type} (deserialize : JsonValue → Option α) (default : α)
    (nodeObject : JsonValue.Object) (key : Text) : Option α :=
  match find nodeObject key with
  | none => some default
  | some value => deserialize value

def deserializeNode (nodeJson : JsonValue) : Option Node := do
  let nodeObject ← nodeJson.asObject
  let program ← deserializeField JsonValue.asString [] nodeObject (asciiText "program")
  let commandLine ← deserializeField deserializeStringList [] nodeObject (asciiText "command_line")
  let comment ← deserializeField JsonValue.asString [] nodeObject (asciiText "comment")
  let depFile ← deserializeField JsonValue.asString [] nodeObject (asciiText "dep_file")
  let inputFiles ← deserializeField deserializeStringList [] nodeObject (asciiText "input_files")
  let outputFiles ← deserializeField deserializeStringList [] nodeObject (asciiText "output_files")
  some { program, commandLine, comment, depFile, inputFiles, outputFiles }

def deserializeBuildGraphValue (jsonParsed : JsonValue) : Option BuildGraph := do
  let buildGraphObject ← jsonParsed.asObject
  let nodes ← JsonValue.find buildGraphObject (asciiText "nodes")
  let nodesArray ← nodes.asArray
  let nodes ← nodesArray.mapM deserializeNode
  some { nodes }

def deserializeBuildGraph (size : SizeType) (buildGraphSerialized : Text) :
    Except JsonStop (Option BuildGraph) :=
  match parseJson size buildGraphSerialized with
  | .error stop => .error stop
  | .ok jsonParsed => .ok (jsonParsed.bind deserializeBuildGraphValue)

theorem mapM_map_eq_some {α β : Type} {f : α → β} {g : β → Option α} (h : ∀ a, g (f a) = some a)
    (l : List α) : (l.map f).mapM g = some l := by
  induction l with
  | nil => rfl
  | cons a l ih => rw [map_cons, mapM_cons, h, ih]; rfl

theorem deserializeStringList_stringListValue (l : List Text) :
    deserializeStringList (stringListValue l) = some l := by
  have hstr : ∀ s, asString (.string s) = some s := fun _ => rfl
  exact mapM_map_eq_some hstr l

theorem nodeObject_eq (n : Node) : nodeObject n = [(asciiText "program", .string n.program),
    (asciiText "command_line", stringListValue n.commandLine),
    (asciiText "comment", .string n.comment), (asciiText "dep_file", .string n.depFile),
    (asciiText "input_files", stringListValue n.inputFiles),
    (asciiText "output_files", stringListValue n.outputFiles)] := by
  rfl

section

variable (order : HashOrder)

variable {object : JsonValue.Object}

theorem HashOrder.pairwise (h : object.Pairwise KeysDiffer) :
    (order.arrange object).Pairwise KeysDiffer :=
  ((order.perm object).pairwise_iff KeysDiffer.symm).2 h

theorem HashOrder.find_of_mem (h : object.Pairwise KeysDiffer) {key : Text}
    {v : JsonValue} (hmem : (key, v) ∈ object) : find (order.arrange object) key = some v :=
  JsonValue.find_of_mem (order.pairwise h) ((order.perm object).mem_iff.2 hmem)

theorem nodeObject_pairwise (n : Node) : (nodeObject n).Pairwise KeysDiffer := by
  have hkeys : ((nodeObject n).map Prod.fst).Pairwise fun a b => (a == b) = false := by
    rw [nodeObject_eq]
    simp only [map_cons]
    decide
  rw [pairwise_map] at hkeys
  exact hkeys

theorem deserializeField_of_mem {α : Type} {deserialize : JsonValue → Option α} {default a : α}
    {n : Node} {key : Text} {v : JsonValue} (hmem : (key, v) ∈ nodeObject n)
    (hv : deserialize v = some a) :
    deserializeField deserialize default (order.arrange (nodeObject n)) key = some a := by
  rw [deserializeField, order.find_of_mem (nodeObject_pairwise n) hmem]
  exact hv

theorem deserializeNode_nodeValue (n : Node) : deserializeNode (nodeValue order n) = some n := by
  have hstring (key s : Text) (h : (key, .string s) ∈ nodeObject n) :
      deserializeField asString [] (order.arrange (nodeObject n)) key = some s :=
    deserializeField_of_mem order h rfl
  have hlist (key : Text) (l : List Text) (h : (key, stringListValue l) ∈ nodeObject n) :
      deserializeField deserializeStringList [] (order.arrange (nodeObject n)) key = some l :=
    deserializeField_of_mem order h (deserializeStringList_stringListValue l)
  simp only [deserializeNode, nodeValue, asObject, bind_eq_bind, bind_some,
    hstring (asciiText "program") n.program (by simp [nodeObject_eq]),
    hlist (asciiText "command_line") n.commandLine (by simp [nodeObject_eq]),
    hstring (asciiText "comment") n.comment (by simp [nodeObject_eq]),
    hstring (asciiText "dep_file") n.depFile (by simp [nodeObject_eq]),
    hlist (asciiText "input_files") n.inputFiles (by simp [nodeObject_eq]),
    hlist (asciiText "output_files") n.outputFiles (by simp [nodeObject_eq])]

theorem deserializeBuildGraphValue_buildGraphValue (bG : BuildGraph) :
    deserializeBuildGraphValue (buildGraphValue order bG) = some bG := by
  have hfd := order.find_of_mem (pairwise_singleton KeysDiffer
    (asciiText "nodes", array (bG.nodes.map (nodeValue order)))) mem_cons_self
  have hnodes := mapM_map_eq_some (deserializeNode_nodeValue order) bG.nodes
  have hob : insertNew [] (asciiText "nodes") (.array (bG.nodes.map (nodeValue order))) =
        [(asciiText "nodes", .array (bG.nodes.map (nodeValue order)))] := rfl
  simp only [deserializeBuildGraphValue, buildGraphValue, asObject, asArray,
    bind_eq_bind, bind_some, hob, hfd, hnodes]

def Restorable (v : JsonValue) : Prop := v.Valid ∧ v.literalFree = true

theorem restorable_array {vs : List JsonValue} (h : ∀ v ∈ vs, Restorable v) :
    Restorable (.array vs) := by
  rw [Restorable, literalFree]
  induction vs with
  | nil => exact ⟨trivial, rfl⟩
  | cons v vs ih =>
    have hv := h v mem_cons_self
    obtain ⟨hok, hfree⟩ := ih fun v' hv' => h v' (mem_cons_of_mem v hv')
    rw [literalFreeElements, hv.2, hfree]
    exact ⟨⟨hv.1, hok⟩, rfl⟩

theorem restorable_object (hkeys : object.Pairwise KeysDiffer)
    (h : ∀ p ∈ object, Restorable p.2) : Restorable (.object object) := by
  have hprs : JsonValue.ValidPairs object ∧ literalFreePairs object = true := by
    clear hkeys
    induction object with
    | nil => exact ⟨trivial, rfl⟩
    | cons p object ih =>
      have hv := h p mem_cons_self
      obtain ⟨hok, hfree⟩ := ih fun p' h' => h p' (mem_cons_of_mem p h')
      rw [literalFreePairs, hv.2, hfree]
      exact ⟨⟨hv.1, hok⟩, rfl⟩
  exact ⟨⟨hkeys, hprs.1⟩, hprs.2⟩

theorem restorable_string (s : Text) : Restorable (.string s) := ⟨trivial, rfl⟩

theorem restorable_stringListValue (l : List Text) : Restorable (stringListValue l) := by
  refine restorable_array fun v hv => ?_
  obtain ⟨s, -, rfl⟩ := mem_map.1 hv
  exact restorable_string s

theorem restorable_arrange (hkeys : object.Pairwise KeysDiffer)
    (h : ∀ p ∈ object, Restorable p.2) : Restorable (.object (order.arrange object)) :=
  restorable_object (order.pairwise hkeys) fun p hpr =>
    h p ((order.perm object).mem_iff.1 hpr)

theorem restorable_nodeValue (n : Node) : Restorable (nodeValue order n) := by
  refine restorable_arrange order (nodeObject_pairwise n) fun pair hpr => ?_
  rw [nodeObject_eq] at hpr
  simp only [mem_cons, not_mem_nil, or_false] at hpr
  rcases hpr with rfl | rfl | rfl | rfl | rfl | rfl
  · exact restorable_string n.program
  · exact restorable_stringListValue n.commandLine
  · exact restorable_string n.comment
  · exact restorable_string n.depFile
  · exact restorable_stringListValue n.inputFiles
  · exact restorable_stringListValue n.outputFiles

theorem restorable_buildGraphValue (bG : BuildGraph) : Restorable (buildGraphValue order bG) := by
  refine restorable_arrange order (pairwise_singleton _ _) fun p hpr => ?_
  obtain rfl : p = (asciiText "nodes", .array (bG.nodes.map (nodeValue order))) :=
    mem_singleton.1 hpr
  refine restorable_array fun v hv => ?_
  obtain ⟨n, -, rfl⟩ := mem_map.1 hv
  exact restorable_nodeValue order n

/-- The build graph that is saved is the build graph that is loaded by the next run, for any strings
in its nodes and for any order of the pairs in the hash maps. -/
theorem deserializeBuildGraph_serializeBuildGraph (size : SizeType) (buildGraph : BuildGraph) :
    deserializeBuildGraph size (serializeBuildGraph order buildGraph) = .ok (some buildGraph) := by
  obtain ⟨hvalid, hfree⟩ := restorable_buildGraphValue order buildGraph
  rw [deserializeBuildGraph, serializeBuildGraph,
    parseJson_text size (serializeJsonValuePretty_text hvalid), hfree]
  exact congrArg Except.ok (deserializeBuildGraphValue_buildGraphValue order buildGraph)

end

/-- The pairs in the order opposite to that of their insertion. -/
def HashOrder.reversed : HashOrder := ⟨List.reverse, List.reverse_perm⟩

theorem deserializeBuildGraph_serializeBuildGraph_reversed :
    let buildGraph : BuildGraph := ⟨[⟨asciiText "cc", [asciiText "-c"], [], asciiText "a.d",
      [asciiText "a.c"], [asciiText "a.o"]⟩]⟩
    deserializeBuildGraph .bytes4 (serializeBuildGraph HashOrder.reversed buildGraph) =
      .ok (some buildGraph) :=
  deserializeBuildGraph_serializeBuildGraph _ _ _

end USprache.BuildSystem
