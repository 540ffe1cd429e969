import USprache.CodeBuilder.EvaluatedCalls
import USprache.CodeBuilder.GraphWalks

/-!
# References of a call

A call locks its arguments in the references graph, links the result and the polluted arguments
as the type of the function says, and releases the locks.  An argument that is rejected has no
node.
-/

namespace USprache.CodeBuilder.WithArgs.CallReferences

open CallArguments ReferencesGraph Function

inductive CallNode where
  | arg (number : Nat)
  | argInner (number tag : Nat)
  | secondOrder (number tag : Nat)
  | result
  | resultInner (tag : Nat)
deriving DecidableEq

def CallNode.owns : CallNode → CallNode → Bool
  | arg i, argInner j _ => i == j
  | result, resultInner _ => true
  | _, _ => false

/-- Work on other nodes: the states of the nodes of the call stay as they are, and no links
out of them appear. -/
structure Foreign {V : Type} [DecidableEq V] (node : CallNode → V)
    (f : ReferencesGraph V → ReferencesGraph V) : Prop where
  lookup : ∀ G n, (f G).nodes.lookup (node n) = G.nodes.lookup (node n)
  noOutput : ∀ G n, G.NoOutput (node n) → (f G).NoOutput (node n)

/-- A call, its nodes and the work on the graph while its arguments are built.  The expression
of an argument is built to `exprNode`, and to `convertedNode` if it is converted. -/
structure LinkedCall (program : CallArguments.Program) (V : Type) [DecidableEq V] where
  call : CallArguments.Call program
  returnReferences : List ParamReference
  returnInnerReferences : List (List ParamReference)
  referencesPollution : List ReferencePollution
  secondOrderInnerReferenceKind : LangType → Nat → Option InnerReferenceKind
  evaluateConstexpr : List (Option CallArguments.Constant) → ResultConstexpr
  vars : VariableNodes V
  node : CallNode → V
  exprNode : Nat → V
  convertedNode : Nat → V
  buildExpressionCode : Nat → ReferencesGraph V → ReferencesGraph V
  convertVariable : Nat → ReferencesGraph V → ReferencesGraph V
  destroyUnusedTemporaryVariables : Nat → ReferencesGraph V → ReferencesGraph V
  start : ReferencesGraph V
  notMem_start : ∀ n, node n ∉ start.nodes
  untouched_start : ∀ n, start.Untouched (node n)
  node_injective : ∀ m n, node m = node n → m = n
  bare : ∀ n, vars.parent (node n) = none ∧ vars.children (node n) = []
  owner : ∀ v n, node n ∈ vars.innerReferenceNodes v → ∃ m, v = node m ∧ m.owns n = true
  inner_arg : ∀ i param, call.functionType.params[i]? = some param →
    vars.innerReferenceNodes (node (.arg i)) =
      (List.range (program.referenceTagCount param.type)).map fun tag => node (.argInner i tag)
  inner_result : vars.innerReferenceNodes (node .result) =
    (List.range (program.referenceTagCount call.functionType.returned.type)).map
      fun tag => node (.resultInner tag)
  /-- A variable has a node for each reference tag of its type, and so for those of a parent. -/
  inner_passed : ∀ i param expr, call.functionType.params[i]? = some param →
    call.exprs[i]? = some expr → program.isPassable expr.variable_ param = true →
      program.referenceTagCount param.type ≤ (vars.innerReferenceNodes
        (if program.referenceIsConvertible expr.type param.type then exprNode i
          else convertedNode i)).length
  exprNode_ne : ∀ i n, exprNode i ≠ node n
  convertedNode_ne : ∀ i n, convertedNode i ≠ node n
  foreign_build : ∀ i, Foreign node (buildExpressionCode i)
  foreign_convert : ∀ i, Foreign node (convertVariable i)
  foreign_destroy : ∀ i, Foreign node (destroyUnusedTemporaryVariables i)

/-- `args_nodes` and `second_order_reference_nodes` with the graph.  Null pointers, and the
places behind the ends of the vectors, are `none`. -/
structure ArgsNodes (V : Type) where
  graph : ReferencesGraph V
  errors : List (GraphError V)
  argsNodes : Nat → Option V
  secondOrderReferenceNodes : Nat → Nat → Option V

namespace ArgsNodes

variable {V : Type} (s : ArgsNodes V)

def reported : Reported V := (s.graph, s.errors)

def setReported (st : Reported V) : ArgsNodes V :=
  { s with graph := st.1, errors := st.2 }

def setArgNode (i : Nat) (node : V) : ArgsNodes V :=
  { s with argsNodes := update s.argsNodes i (some node) }

def setSecondOrderNode (i tag : Nat) (node : V) : ArgsNodes V := { s with
    secondOrderReferenceNodes := update s.secondOrderReferenceNodes i
      (update (s.secondOrderReferenceNodes i) tag (some node)) }

def mapGraph (f : ReferencesGraph V → ReferencesGraph V) : ArgsNodes V :=
  { s with graph := f s.graph }

end ArgsNodes

/-- It is asserted that the source has at least as many inner reference nodes. -/
def tryAddInnerLinks {V : Type} [DecidableEq V] (vars : VariableNodes V) (st : Reported V)
    (src dst : V) : Option (Reported V) :=
  if (vars.innerReferenceNodes dst).length ≤ (vars.innerReferenceNodes src).length then
    some (((vars.innerReferenceNodes src).zip (vars.innerReferenceNodes dst)).foldl
      (fun st link => tryLink vars st link.1 link.2) st)
  else none

def getAllAccessibleNonInnerNodes {V : Type} [DecidableEq V] (vars : VariableNodes V)
    (G : ReferencesGraph V) (node : V) : List V :=
  ((getAllAccessibleNonInnerNodesRec vars G ((walkNodes vars G node).length + 1) node
    ([], [])).getD ([], [])).2

namespace LinkedCall

variable {program : CallArguments.Program} {V : Type} [DecidableEq V]
  (linked : LinkedCall program V)

def params : List Param := linked.call.functionType.params

def exprs : List (Argument program) := linked.call.exprs

/-- Start of a pass: the expression is built, if it was not before. -/
def buildExpression (i : Nat) (s : ArgsNodes V) : ArgsNodes V :=
  if i < linked.call.preevaluatedArgs.length then s
  else s.mapGraph (linked.buildExpressionCode i)

def convertedExpr (i : Nat) (param : Param) (expr : Variable) (s : ArgsNodes V) : V × ArgsNodes V :=
  if program.referenceIsConvertible expr.type param.type then (linked.exprNode i, s)
  else (linked.convertedNode i, s.mapGraph (linked.convertVariable i))

def lockReference (i : Nat) (expr : V) (s : ArgsNodes V) : Option (ArgsNodes V) := do
  let node := linked.node (.arg i)
  let s := s.mapGraph fun G => G.addNode linked.vars.toVariables node
  let s := s.setReported (tryLink linked.vars s.reported expr node)
  let st ← tryAddInnerLinks linked.vars s.reported expr node
  return (s.setReported st).setArgNode i node

def checkValue (expr : V) (s : ArgsNodes V) : ArgsNodes V :=
  if s.graph.hasOutgoingMutableNodes linked.vars expr then
    { s with errors := s.errors ++ [.referenceProtectionError expr] }
  else s

def lockSecondOrder (i : Nat) (param : Param) (s : ArgsNodes V) (tag : Nat) :
    Option (ArgsNodes V) :=
  match linked.secondOrderInnerReferenceKind param.type tag with
  | none => some s
  | some _ => do
    let node := linked.node (.secondOrder i tag)
    let s := s.setSecondOrderNode i tag node
    let s := s.mapGraph fun G => G.addNode linked.vars.toVariables node
    let argNode ← s.argsNodes i
    let inner ← (linked.vars.innerReferenceNodes argNode)[tag]?
    let srcNodes := (getAllAccessibleNonInnerNodes linked.vars s.graph inner).flatMap
      linked.vars.innerReferenceNodes
    return s.setReported (srcNodes.foldl (fun st src => tryLink linked.vars st src node) s.reported)

def finishArg (i : Nat) (param : Param) (s : ArgsNodes V) : Option (ArgsNodes V) := do
  let s ← (List.range (program.referenceTagCount param.type)).foldlM
    (linked.lockSecondOrder i param) s
  return s.mapGraph (linked.destroyUnusedTemporaryVariables i)

def addReferenceArg (i : Nat) (param : Param) (expr : Variable) (s : ArgsNodes V) :
    Option (ArgsNodes V) :=
  if !program.isPassable expr param then some s
  else if param.valueType = .referenceMut then
    if expr.valueType ≠ .referenceMut then some s
    else do
      let _ ← program.createReferenceCast expr.llvmValue expr.type param.type
      linked.finishArg i param (← linked.lockReference i (linked.exprNode i) s)
  else do
    let converted := linked.convertedExpr i param expr s
    linked.finishArg i param (← linked.lockReference i converted.1 converted.2)

def addValueArg (i : Nat) (param : Param) (expr : Variable) (s : ArgsNodes V) :
    Option (ArgsNodes V) := do
  let node := linked.node (.arg i)
  let s := s.mapGraph fun G => G.addNode linked.vars.toVariables node
  if !program.isPassable expr param then return s
  else
    let s := linked.checkValue (linked.exprNode i) s
    let converted := linked.convertedExpr i param expr s
    let s := converted.2
    let expr := program.convertArg expr param
    if CallArguments.Program.isScalar param.type then linked.finishArg i param (s.setArgNode i node)
    else
      -- The inner references are locked before the type is checked.
      let s := s.setReported (← tryAddInnerLinks linked.vars s.reported converted.1 node)
      if expr.valueType = .value ∧ expr.type = param.type then
        let s := s.mapGraph fun G => G.moveNode linked.vars.toVariables converted.1
        linked.finishArg i param (s.setArgNode i node)
      else if !program.isCopyConstructible param.type then return s
      else if program.isAbstract param.type then return s
      else linked.finishArg i param (s.setArgNode i node)

def addArgNode (s : ArgsNodes V) (i : Nat) : Option (ArgsNodes V) :=
  match linked.params[i]?, linked.exprs[i]? with
  | some param, some expr =>
    let s := linked.buildExpression i s
    if param.valueType ≠ .value then linked.addReferenceArg i param expr.variable_ s
    else linked.addValueArg i param expr.variable_ s
  | _, _ => some s

/-- The loop over the arguments and the node of the result. -/
def lockArgs : Option (ArgsNodes V) := do
  let s ← linked.call.argNumbers.foldlM linked.addArgNode
    ⟨linked.start, [], fun _ => none, fun _ _ => none⟩
  return s.mapGraph fun G => G.addNode linked.vars.toVariables (linked.node .result)

section

variable (locked : ArgsNodes V)

/-- `arg_node` or one of its inner reference nodes. -/
def referencedNode (reference : ParamReference) : Option V :=
  match locked.argsNodes reference.first.toNat with
  | none => none
  | some argNode =>
    if reference.second = paramReferenceNumber then some argNode
    else (linked.vars.innerReferenceNodes argNode)[reference.second.toNat]?

def linkReference (dst : V) (st : Reported V) (reference : ParamReference) : Reported V :=
  match linked.referencedNode locked reference with
  | none => st
  | some src => tryLink linked.vars st src dst

variable (st : Reported V)

def linkSecondOrder (reference : ParamReference) : Reported V :=
  if reference.second = paramReferenceNumber then st
  else
    match locked.secondOrderReferenceNodes reference.first.toNat reference.second.toNat with
    | none => st
    | some src => (linked.vars.innerReferenceNodes (linked.node .result)).foldl
        (fun st dst => tryLink linked.vars st src dst) st

def linkReturnReference (reference : ParamReference) : Reported V :=
  linked.linkReference locked (linked.node .result) (linked.linkSecondOrder locked st reference)
    reference

def linkReturnReferences : Reported V :=
  if linked.call.functionType.returned.valueType ≠ .value then
    linked.returnReferences.foldl (linked.linkReturnReference locked) st
  else st

def linkReturnInnerReferences : Reported V :=
  ((linked.vars.innerReferenceNodes (linked.node .result)).zip linked.returnInnerReferences).foldl
      (fun st tag => tag.2.foldl (linked.linkReference locked tag.1) st) st

/-- `src_node` or `dst_node` of a pollution.  There is no result if the node of the argument
is null, which is not checked here. -/
def pollutionNode (reference : ParamReference) : Option (Option V) :=
  if reference.second = paramReferenceNumber then some (locked.argsNodes reference.first.toNat)
  else
    (locked.argsNodes reference.first.toNat).map fun argNode =>
      (linked.vars.innerReferenceNodes argNode)[reference.second.toNat]?

def isEffective (pollution : ReferencePollution) : Bool :=
  match linked.params[pollution.dst.first.toNat]?, linked.params[pollution.src.first.toNat]? with
  | some dstParam, some _ => program.referenceTagCount dstParam.type != 0
  | _, _ => false

def pollute (fuel : Nat) (st : Reported V) (pollution : ReferencePollution) : Option (Reported V) :=
  if linked.isEffective pollution then do
    let srcNode ← linked.pollutionNode locked pollution.src
    let dstNode ← linked.pollutionNode locked pollution.dst
    match srcNode, dstNode with
    | some src, some dst =>
      tryAddLinkToAllAccessibleVariableNodesInnerReferencesRec linked.vars src fuel dst st
    | _, _ => return st
  else some st

def linkAll (fuel : Nat) : Option (Reported V) :=
  linked.referencesPollution.foldlM (linked.pollute locked fuel)
    (linked.linkReturnInnerReferences locked (linked.linkReturnReferences locked locked.reported))

/-- The nodes of `args_nodes` that are not null. -/
def lockedArgs : List V := (List.range linked.params.length).filterMap locked.argsNodes

/-- The nodes of `second_order_reference_nodes` that are not null. -/
def lockedSecondOrder : List V := linked.params.zipIdx.flatMap fun param =>
    (List.range (program.referenceTagCount param.1.type)).filterMap
      (locked.secondOrderReferenceNodes param.2)

def moveAll (G : ReferencesGraph V) : ReferencesGraph V :=
  (linked.lockedSecondOrder locked).foldl (fun G node => G.moveNode linked.vars.toVariables node)
    ((linked.lockedArgs locked).foldl (fun G node => G.moveNode linked.vars.toVariables node) G)

end

/-- The evaluation of the call in the compiler fails: `return ErrorValue()`. -/
def evaluationFails : Bool :=
  let result := linked.evaluateConstexpr linked.call.llvmCallArgs.constantLlvmArgs
  linked.call.isEvaluated && !(result.errors.isEmpty && result.resultConstant.isSome)

/-- The nodes when the arguments are locked, the links then made, and the graph at the end. -/
structure Finished (V : Type) where
  locked : ArgsNodes V
  links : Reported V
  final : ReferencesGraph V

/-- Without a result an assertion fails, a null pointer is read, or the fuel does not last. -/
def doCallFunction (fuel : Nat) : Option (Finished V) := do
  let locked ← linked.lockArgs
  if linked.evaluationFails then
    return { locked, links := locked.reported, final := locked.graph }
  let links ← linked.linkAll locked fuel
  return { locked, links, final := linked.moveAll locked links.1 }

end LinkedCall

end USprache.CodeBuilder.WithArgs.CallReferences
