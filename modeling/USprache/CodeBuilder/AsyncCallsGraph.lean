import USprache.Library.Reachability
import USprache.Library.Removal

/-!
# The graph of async calls

The nodes are the functions that a recorded call leaves or enters.  Nodes without output links are
taken out until there are none, then nodes without input links.  Both loops are one loop that looks
at the links of one side and follows those of the other.
-/

namespace USprache.CodeBuilder.AsyncCalls

open Library Prod

variable {F I : Type} [DecidableEq F]

structure AsyncFunctionCall (F I : Type) where
  instruction : I
  function : F

structure AsyncCallGraphNode (F I : Type) where
  calls : List (AsyncFunctionCall F I) := []
  outNodes : List F := []
  inNodes : List F := []

abbrev AsyncCallsGraph (F I : Type) := List (F × AsyncCallGraphNode F I)

namespace AsyncCallsGraph

variable (graph : AsyncCallsGraph F I)

def functions : List F := graph.map fst

def modify (function : F)
    (change : AsyncCallGraphNode F I → AsyncCallGraphNode F I) : AsyncCallsGraph F I :=
  graph.map fun entry => if entry.1 = function then (entry.1, change entry.2) else entry

/-- `operator[]` and a change of the node. -/
def insertOrModify (function : F)
    (change : AsyncCallGraphNode F I → AsyncCallGraphNode F I) : AsyncCallsGraph F I :=
  if function ∈ graph.functions then graph.modify function change
  else graph ++ [(function, change {})]

end AsyncCallsGraph

/-- A function of the module.  The calls are those of `ExtractAllACoroutineFunctionCalls`. -/
structure ModuleFunction (F I : Type) where
  function : F
  isPresplitCoroutine : Bool
  asyncCalls : List (AsyncFunctionCall F I)

def recordedCalls (isSingleAwait : I → Bool) (functions : List (ModuleFunction F I)) :
    List (F × AsyncFunctionCall F I) :=
  functions.flatMap fun function =>
    if function.isPresplitCoroutine then
      (function.asyncCalls.filter fun call => isSingleAwait call.instruction).map fun call =>
        (function.function, call)
    else []

def recordCall (graph : AsyncCallsGraph F I) (recorded : F × AsyncFunctionCall F I) :
    AsyncCallsGraph F I :=
  let (function, call) := recorded
  (graph.insertOrModify function fun node =>
    { node with calls := node.calls ++ [call], outNodes := node.outNodes ++ [call.function] })
    |>.insertOrModify call.function fun node => { node with inNodes := node.inNodes ++ [function] }

def buildAsyncCallsGraph (isSingleAwait : I → Bool) (functions : List (ModuleFunction F I)) :
    AsyncCallsGraph F I :=
  (recordedCalls isSingleAwait functions).foldl recordCall []

/-- The side of the links that a node must not have any more to be taken out. -/
inductive Direction where
  | tails | heads

namespace AsyncCallGraphNode

def pending (node : AsyncCallGraphNode F I) : Direction → List F
  | .tails => node.outNodes
  | .heads => node.inNodes

def linked (node : AsyncCallGraphNode F I) : Direction → List F
  | .tails => node.inNodes
  | .heads => node.outNodes

def dropPending (function : F) (node : AsyncCallGraphNode F I) : Direction → AsyncCallGraphNode F I
  | .tails => { node with
    outNodes := (takeOut (fun other => decide (other = function)) node.outNodes.length 0
      node.outNodes).2 }
  | .heads => { node with
    inNodes := (takeOut (fun other => decide (other = function)) node.inNodes.length 0
      node.inNodes).2 }

end AsyncCallGraphNode

abbrev InliningOrder (F I : Type) := List (F × List (AsyncFunctionCall F I))

def dropLinks (direction : Direction) (function : F) :
    List F → AsyncCallsGraph F I → Option (AsyncCallsGraph F I)
  | [], graph => some graph
  | other :: others, graph =>
    if other ∈ graph.functions then
      dropLinks direction function others
        (graph.modify other fun node => node.dropPending function direction)
    else none

/-- One pass over the graph from the place `i` on: the graph that is left, what was taken out, and
how many nodes. -/
def extractPass (direction : Direction) : Nat → Nat → AsyncCallsGraph F I →
    Option (AsyncCallsGraph F I × InliningOrder F I × Nat)
  | 0, _, graph => some (graph, [], 0)
  | fuel + 1, i, graph =>
    match graph[i]? with
    | none => some (graph, [], 0)
    | some (function, node) =>
      if (node.pending direction).isEmpty then
        (dropLinks direction function (node.linked direction) graph).bind fun graph =>
          (extractPass direction fuel i (graph.eraseIdx i)).map fun rest =>
            (rest.1, (function, node.calls) :: rest.2.1, rest.2.2 + 1)
      else extractPass direction fuel (i + 1) graph

/-- Passes until one takes nothing out, `none` if the fuel does not last. -/
def extract (direction : Direction) : Nat → AsyncCallsGraph F I →
    Option (AsyncCallsGraph F I × InliningOrder F I)
  | 0, _ => none
  | fuel + 1, graph =>
    (extractPass direction graph.length 0 graph).bind fun pass =>
      if pass.2.2 = 0 then some (pass.1, pass.2.1)
      else (extract direction fuel pass.1).map fun rest => (rest.1, pass.2.1 ++ rest.2)

/-- The module behind the passes: what inlining a call does to it, and what is asked of a function
before it is removed. -/
structure ModuleActions (M F I : Type) where
  inlineCallIfNotDirectlyRecursive : F → AsyncFunctionCall F I → M → M
  hasPrivateLinkage : M → F → Bool
  hasUses : M → F → Bool
  eraseFromParent : F → M → M

def InliningOrder.calls (order : InliningOrder F I) : List (F × AsyncFunctionCall F I) :=
  order.flatMap fun entry => entry.2.map fun call => (entry.1, call)

/-- The calls of the graph that is left: first the ones to functions outside of it. -/
def restCalls (graph : AsyncCallsGraph F I) : List (F × AsyncFunctionCall F I) :=
  let split := graph.map fun entry =>
    (entry.1, takeOut (fun call => decide (call.function ∉ graph.functions)) entry.2.calls.length 0
      entry.2.calls)
  InliningOrder.calls (split.map fun entry => (entry.1, entry.2.1)) ++
    InliningOrder.calls (split.map fun entry => (entry.1, entry.2.2))

/-- `RemoveFunctionIfItIsNotUsed` for each function, with the removals and the modules they were
made in. -/
def removeFunctions {M : Type} (actions : ModuleActions M F I) : List F → M → M × List (M × F)
  | [], module_ => (module_, [])
  | function :: functions, module_ =>
    if actions.hasPrivateLinkage module_ function && !actions.hasUses module_ function then
      let rest := removeFunctions actions functions (actions.eraseFromParent function module_)
      (rest.1, (module_, function) :: rest.2)
    else removeFunctions actions functions module_

/-- What the pass has done: the calls that were passed to `InlineCallIfNotDirectlyRecursive` in
order, the functions that were looked at in the end, and those that were removed. -/
structure Inlined (M F I : Type) where
  module_ : M
  calls : List (F × AsyncFunctionCall F I)
  candidates : List F
  removals : List (M × F)

/-- `InlineAsyncCalls` with a graph, `none` if a loop does not end or something is not found. -/
def inlineAsyncCalls {M : Type} (actions : ModuleActions M F I)
    (asyncCallGraph : AsyncCallsGraph F I) (module_ : M) : Option (Inlined M F I) :=
  (extract .tails (asyncCallGraph.length + 1) asyncCallGraph).bind fun tails =>
    (extract .heads (tails.1.length + 1) tails.1).map fun heads =>
      let head := tails.2
      let inverseTail := heads.2
      let calls := head.calls ++ (restCalls heads.1 ++ InliningOrder.calls inverseTail.reverse)
      let inlined := calls.foldl
        (fun module_ call => actions.inlineCallIfNotDirectlyRecursive call.1 call.2 module_) module_
      let candidates := head.map fst ++ inverseTail.map fst ++ heads.1.functions
      let removed := removeFunctions actions candidates inlined
      ⟨removed.1, calls, candidates, removed.2⟩

end USprache.CodeBuilder.AsyncCalls
