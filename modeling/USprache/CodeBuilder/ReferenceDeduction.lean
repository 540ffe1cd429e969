import USprache.CodeBuilder.FunctionPointerConversion
import USprache.CodeBuilder.TemporaryVariables
import USprache.Library.DistinctElements

/-!
# Deduced reference notation

The body of a function with an `auto` result is built twice.  The first pass collects which
references it returns and links, the second one checks them against the notation made of that.
Outside of lambdas both look for arguments among the variables a node reaches, and write the
number of an argument and of a tag into a byte each.
-/

namespace USprache.CodeBuilder.ReferenceDeduction

open Library ReferencesGraph List

/-- A parameter with its element of `args_nodes`: the node of the argument, and those of the
variables its inner references refer to. -/
structure Arg (V : Type) where
  valueType : ValueType
  first : V
  second : List V

/-- What `FunctionContext` holds at a point of return.  The vectors of `args_second_order_nodes`
are resized, so they may hold null pointers; the nodes in them are made for them alone. -/
structure FunctionContext (V : Type) where
  vars : VariableNodes V
  variablesState : ReferencesGraph V
  args : List (Arg V)
  argsSecondOrderNodes : List (List (Option V))
  second_order_fresh : ∀ nodes ∈ argsSecondOrderNodes, ∀ v, some v ∈ nodes →
    ∀ arg ∈ args, v ≠ arg.first ∧ v ∉ arg.second

/-- `FunctionType` and `ReferenceNotationDeductionContext` hold the same lists. -/
structure ReferenceNotation where
  returnReferences : List ParamReference
  returnInnerReferences : List (List ParamReference)
  referencesPollution : List ReferencePollution

inductive ReturnError (V : Type) where
  | returningUnallowedReference (node : V)
  | unallowedReferencePollution (dstTag : Nat) (dst src : V)
deriving DecidableEq

variable {V : Type} [DecidableEq V]

namespace FunctionContext

def accessible (c : FunctionContext V) (node : V) : List V :=
  getAllAccessibleVariableNodes c.vars c.variablesState node

/-- The places of a node among the arguments, in the order of the loops over them. -/
def argReferences (c : FunctionContext V) (node : V) : List ParamReference :=
  c.args.zipIdx.flatMap fun (arg, argN) =>
    (if node = arg.first then [⟨argN.toUInt8, paramReferenceNumber⟩] else []) ++
      arg.second.zipIdx.flatMap fun (innerNode, tagN) =>
        if node = innerNode then [⟨argN.toUInt8, tagN.toUInt8⟩] else []

def collectReturnReferences (c : FunctionContext V) (returnNode : V) : List ParamReference :=
  (c.accessible returnNode).flatMap c.argReferences

def collectReturnInnerReferences (c : FunctionContext V) (returnNode : V) :
    List (List ParamReference) :=
  (c.vars.innerReferenceNodes returnNode).map c.collectReturnReferences

/-- The loops over the inner references of the reference parameters and over the variables they
reach.  The variable an inner reference refers to at first is skipped. -/
def forEachDestination {β : Type} (c : FunctionContext V)
    (body : Arg V → Nat → Nat → V → List β) : List β :=
  c.args.zipIdx.flatMap fun (arg, dstParamIndex) =>
    if arg.valueType = .value then []
    else (c.vars.innerReferenceNodes arg.first).zipIdx.flatMap fun (innerReference, dstTag) =>
      (c.accessible innerReference).flatMap fun accessibleVariable =>
        if arg.second[dstTag]? = some accessibleVariable then []
        else body arg dstParamIndex dstTag accessibleVariable

/-- Each place that is found overwrites `src_reference`. -/
def srcReference (c : FunctionContext V) (accessibleVariable : V) : Option ParamReference :=
  (c.argReferences accessibleVariable).getLast?

def collectReferencePollution (c : FunctionContext V) : List ReferencePollution :=
  c.forEachDestination fun _ dstParamIndex dstTag accessibleVariable =>
    match c.srcReference accessibleVariable with
    | none => []
    | some src => [{ src := src, dst := ⟨dstParamIndex.toUInt8, dstTag.toUInt8⟩ }]

/-- The notation of the function after the first pass. -/
def deducedNotation (c : FunctionContext V) (returnNode : V) : ReferenceNotation where
  returnReferences := sortUnique ParamReference.lt (c.collectReturnReferences returnNode)
  returnInnerReferences :=
    (c.collectReturnInnerReferences returnNode).map (sortUnique ParamReference.lt)
  referencesPollution := sortUnique ReferencePollution.lt c.collectReferencePollution

/-- An argument, or a variable its inner reference refers to, named in the notation. -/
def namesNode (c : FunctionContext V) (variableNode : V) (paramAndTag : ParamReference) : Bool :=
  match c.args[paramAndTag.first.toNat]? with
  | none => false
  | some arg =>
    decide (paramAndTag.second = paramReferenceNumber ∧ variableNode = arg.first) ||
      decide (arg.second[paramAndTag.second.toNat]? = some variableNode)

def isReferenceAllowedForReturn (c : FunctionContext V) (notation_ : ReferenceNotation)
    (variableNode : V) : Bool :=
  notation_.returnReferences.any (c.namesNode variableNode)

def checkReturnedReferenceIsAllowed (c : FunctionContext V) (notation_ : ReferenceNotation)
    (returnReferenceNode : V) : List (ReturnError V) :=
  (c.accessible returnReferenceNode).flatMap fun varNode =>
    if c.isReferenceAllowedForReturn notation_ varNode then []
    else [.returningUnallowedReference varNode]

/-- The inner references of a returned reference may refer to second order variables. -/
def isReferenceAllowedForInnerReturn (c : FunctionContext V) (returnValueType : ValueType)
    (notation_ : ReferenceNotation) (variableNode : V) (index : Nat) : Bool :=
  (decide (returnValueType ≠ .value) && notation_.returnReferences.any fun paramAndTag =>
    decide (paramAndTag.second ≠ paramReferenceNumber) &&
      c.argsSecondOrderNodes[paramAndTag.first.toNat]?.any fun argSecondOrderNodes =>
        decide (argSecondOrderNodes[paramAndTag.second.toNat]? = some (some variableNode))) ||
  notation_.returnInnerReferences[index]?.any fun references =>
    references.any (c.namesNode variableNode)

def checkReturnedInnerReferenceIsAllowed (c : FunctionContext V) (returnValueType : ValueType)
    (notation_ : ReferenceNotation) (returnReferenceNode : V) : List (ReturnError V) :=
  (c.vars.innerReferenceNodes returnReferenceNode).zipIdx.flatMap fun (innerReferenceNode, i) =>
    (c.accessible innerReferenceNode).flatMap fun varNode =>
      if c.isReferenceAllowedForInnerReturn returnValueType notation_ varNode i then []
      else [.returningUnallowedReference varNode]

/-- The first loop of `CheckReferencesPollutionBeforeReturn`: the pollution between arguments. -/
def checkArgumentsPollution (c : FunctionContext V) (notation_ : ReferenceNotation) :
    List (ReturnError V) :=
  c.forEachDestination fun arg dstParamIndex dstTag accessibleVariable =>
    let error := ReturnError.unallowedReferencePollution dstTag arg.first accessibleVariable
    match c.srcReference accessibleVariable with
    | none => [error]
    | some src =>
      if binarySearch ReferencePollution.lt notation_.referencesPollution
          { src := src, dst := ⟨dstParamIndex.toUInt8, dstTag.toUInt8⟩ } then []
      else [error]

/-- The second loop disables all pollution of the inner references of the variables the arguments
refer to. -/
def checkSecondOrderPollution (c : FunctionContext V) : List (ReturnError V) :=
  c.args.zipIdx.flatMap fun (arg, argIndex) =>
    match c.argsSecondOrderNodes[argIndex]? with
    | none => []
    | some argSecondOrderNodes =>
      arg.second.zipIdx.flatMap fun (node, innerReferenceIndex) =>
        match argSecondOrderNodes[innerReferenceIndex]? with
        | none => []
        | some secondOrderVariableNode =>
          (c.vars.innerReferenceNodes node).flatMap fun innerNode =>
            (c.accessible innerNode).flatMap fun v =>
              if some v ≠ secondOrderVariableNode then
                [.unallowedReferencePollution innerReferenceIndex arg.first v]
              else []

def checkReferencesPollutionBeforeReturn (c : FunctionContext V) (notation_ : ReferenceNotation) :
    List (ReturnError V) :=
  c.checkArgumentsPollution notation_ ++ c.checkSecondOrderPollution

/-- A node is the one of an argument, or one an inner reference of an argument refers to. -/
def IsArgNode (c : FunctionContext V) (v : V) : Prop :=
  ∃ arg ∈ c.args, v = arg.first ∨ v ∈ arg.second

/-- The numbers of the place of a node fit into a byte each. -/
def Numbered (c : FunctionContext V) (v : V) : Prop :=
  ∃ argN arg, argN < 256 ∧ c.args[argN]? = some arg ∧
    (v = arg.first ∨ ∃ tagN, tagN < 256 ∧ arg.second[tagN]? = some v)

variable {c : FunctionContext V} {v : V} {reference : ParamReference} {returnNode : V}

theorem mem_argReferences :
    reference ∈ c.argReferences v ↔ ∃ (argN : Nat) (arg : Arg V), c.args[argN]? = some arg ∧
      (v = arg.first ∧ reference = ⟨argN.toUInt8, paramReferenceNumber⟩ ∨
        ∃ tagN : Nat, arg.second[tagN]? = some v ∧ reference = ⟨argN.toUInt8, tagN.toUInt8⟩) := by
  unfold argReferences
  simp only [mem_flatMap, mem_append, mem_ite_nil_right, mem_singleton,
    mk_mem_zipIdx_iff_getElem?, Prod.exists]
  constructor
  · rintro ⟨arg, argN, harg, ⟨hfst, rfl⟩ | ⟨inner, tagN, hin, hv, rfl⟩⟩
    · exact ⟨argN, arg, harg, .inl ⟨hfst, rfl⟩⟩
    · exact ⟨argN, arg, harg, .inr ⟨tagN, hv ▸ hin, rfl⟩⟩
  · rintro ⟨argN, arg, harg, ⟨hfst, rfl⟩ | ⟨tagN, hin, rfl⟩⟩
    · exact ⟨arg, argN, harg, .inl ⟨hfst, rfl⟩⟩
    · exact ⟨arg, argN, harg, .inr ⟨v, tagN, hin, rfl, rfl⟩⟩

theorem argReferences_ne_nil (h : c.IsArgNode v) : c.argReferences v ≠ [] := by
  obtain ⟨arg, harg, hv⟩ := h
  obtain ⟨argN, hargN⟩ := mem_iff_getElem?.1 harg
  rcases hv with hfst | hsnd
  · exact ne_nil_of_mem (mem_argReferences.2 ⟨argN, arg, hargN, .inl ⟨hfst, rfl⟩⟩)
  · obtain ⟨tagN, htagN⟩ := mem_iff_getElem?.1 hsnd
    exact ne_nil_of_mem (mem_argReferences.2 ⟨argN, arg, hargN, .inr ⟨tagN, htagN, rfl⟩⟩)

theorem namesNode_iff :
    c.namesNode v reference = true ↔ ∃ arg, c.args[reference.first.toNat]? = some arg ∧
      (reference.second = paramReferenceNumber ∧ v = arg.first ∨
        arg.second[reference.second.toNat]? = some v) := by
  unfold namesNode
  cases c.args[reference.first.toNat]? with
  | none => simp
  | some arg => simp

theorem Numbered.of_namesNode (h : c.namesNode v reference = true) : c.Numbered v := by
  obtain ⟨arg, harg, hpl⟩ := namesNode_iff.1 h
  refine ⟨reference.first.toNat, arg, reference.first.toNat_lt, harg, ?_⟩
  rcases hpl with ⟨-, hfst⟩ | hsnd
  · exact .inl hfst
  · exact .inr ⟨reference.second.toNat, reference.second.toNat_lt, hsnd⟩

theorem toNat_toUInt8 {n : Nat} (h : n < 256) : n.toUInt8.toNat = n := by
  exact Nat.mod_eq_of_lt h

theorem Numbered.exists_reference (h : c.Numbered v) :
    ∃ reference ∈ c.argReferences v, c.namesNode v reference = true := by
  obtain ⟨argN, arg, hargN, harg, hpl⟩ := h
  rcases hpl with hfst | ⟨tagN, htagN, hsnd⟩
  · refine ⟨⟨argN.toUInt8, paramReferenceNumber⟩,
      mem_argReferences.2 ⟨argN, arg, harg, .inl ⟨hfst, rfl⟩⟩, namesNode_iff.2 ⟨arg, ?_, ?_⟩⟩
    · rw [toNat_toUInt8 hargN]
      exact harg
    · exact .inl ⟨rfl, hfst⟩
  · refine ⟨⟨argN.toUInt8, tagN.toUInt8⟩,
      mem_argReferences.2 ⟨argN, arg, harg, .inr ⟨tagN, hsnd, rfl⟩⟩,
      namesNode_iff.2 ⟨arg, ?_, ?_⟩⟩
    · rw [toNat_toUInt8 hargN]
      exact harg
    · rw [toNat_toUInt8 htagN]
      exact .inr hsnd

/-- The places collected from a node name one of the variables it reaches exactly if the variable
has numbers that fit. -/
theorem any_collected_iff {n : V} (hv : v ∈ c.accessible n) :
    ((sortUnique ParamReference.lt (c.collectReturnReferences n)).any (c.namesNode v)) = true ↔
      c.Numbered v := by
  rw [any_eq_true]
  constructor
  · rintro ⟨reference, -, hns⟩
    exact Numbered.of_namesNode hns
  · intro h
    obtain ⟨reference, href, hns⟩ := h.exists_reference
    exact ⟨reference, mem_sortUnique.2 (mem_flatMap.2 ⟨v, hv, href⟩), hns⟩

/-- The variables reached from a node are arguments, or what their inner references refer to. -/
def ReachesArgs (c : FunctionContext V) (node : V) : Prop := ∀ v ∈ c.accessible node, c.IsArgNode v

/-- All nodes that the checks look at reach nothing but arguments. -/
structure OnlyArgs (c : FunctionContext V) (returnNode : V) : Prop where
  destinations : ∀ arg ∈ c.args, ∀ inner ∈ c.vars.innerReferenceNodes arg.first, c.ReachesArgs inner
  returned : c.ReachesArgs returnNode
  returnedInner : ∀ inner ∈ c.vars.innerReferenceNodes returnNode, c.ReachesArgs inner

/-- A notation under which nothing is reported: neither pollution between arguments nor a returned
reference. -/
structure Accepted (c : FunctionContext V) (returnValueType : ValueType)
    (notation_ : ReferenceNotation) (returnNode : V) : Prop where
  pollution : c.checkReferencesPollutionBeforeReturn notation_ = c.checkSecondOrderPollution
  returned : c.checkReturnedReferenceIsAllowed notation_ returnNode = []
  returnedInner : c.checkReturnedInnerReferenceIsAllowed returnValueType notation_ returnNode = []

theorem forEachDestination_eq_nil {β : Type} {body : Arg V → Nat → Nat → V → List β} :
    c.forEachDestination body = [] ↔ ∀ dstParI arg, c.args[dstParI]? = some arg →
      arg.valueType ≠ .value → ∀ dstTag inner,
        (c.vars.innerReferenceNodes arg.first)[dstTag]? = some inner → ∀ v ∈ c.accessible inner,
          arg.second[dstTag]? ≠ some v → body arg dstParI dstTag v = [] := by
  unfold forEachDestination
  simp only [flatMap_eq_nil_iff, Prod.forall, mk_mem_zipIdx_iff_getElem?, ite_eq_left_iff]
  exact ⟨fun h dstParI arg harg hval dstTag inner hin v hv hown =>
      h arg dstParI harg hval inner dstTag hin v hv hown,
    fun h arg dstParI harg hval inner dstTag hin v hv hown =>
      h dstParI arg harg hval dstTag inner hin v hv hown⟩

theorem mem_forEachDestination {β : Type} {body : Arg V → Nat → Nat → V → List β}
    {dstParI dstTag : Nat} {arg : Arg V} {inner : V} {b : β}
    (harg : c.args[dstParI]? = some arg) (hval : arg.valueType ≠ .value)
    (hin : (c.vars.innerReferenceNodes arg.first)[dstTag]? = some inner)
    (hv : v ∈ c.accessible inner) (hown : arg.second[dstTag]? ≠ some v)
    (hb : b ∈ body arg dstParI dstTag v) : b ∈ c.forEachDestination body := by
  unfold forEachDestination
  simp only [mem_flatMap, Prod.exists, mk_mem_zipIdx_iff_getElem?]
  refine ⟨arg, dstParI, harg, ?_⟩
  rw [if_neg hval]
  simp only [mem_flatMap, Prod.exists, mk_mem_zipIdx_iff_getElem?]
  refine ⟨inner, dstTag, hin, v, hv, ?_⟩
  rw [if_neg hown]
  exact hb

theorem checkArgumentsPollution_deduced (h : c.OnlyArgs returnNode) :
    c.checkArgumentsPollution (c.deducedNotation returnNode) = [] := by
  unfold checkArgumentsPollution
  rw [forEachDestination_eq_nil]
  intro dstParI arg harg hval dstTag inner hin v hv hown
  have hrcs := h.destinations arg (mem_of_getElem? harg) inner (mem_of_getElem? hin) v hv
  obtain ⟨src, hsrc⟩ : ∃ src, c.srcReference v = some src :=
    ⟨_, getLast?_eq_some_getLast (argReferences_ne_nil hrcs)⟩
  have hcol : (⟨⟨dstParI.toUInt8, dstTag.toUInt8⟩, src⟩ : ReferencePollution) ∈
      c.collectReferencePollution := by
    apply mem_forEachDestination harg hval hin hv hown
    rw [hsrc]
    exact mem_singleton_self _
  have hfd := (binarySearch_iff (pairwise_sortUnique c.collectReferencePollution) _).2
    (mem_sortUnique (r := ReferencePollution.lt) |>.2 hcol)
  rw [hsrc]
  rw [deducedNotation]
  dsimp only
  rw [if_pos hfd]

theorem checkReturned_deduced :
    c.checkReturnedReferenceIsAllowed (c.deducedNotation returnNode) returnNode = [] ↔
      ∀ v ∈ c.accessible returnNode, c.Numbered v := by
  unfold checkReturnedReferenceIsAllowed
  simp only [flatMap_eq_nil_iff, ite_eq_left_iff, reduceCtorEq, imp_false, not_not]
  refine forall₂_congr fun v hv => ?_
  exact any_collected_iff hv

omit [DecidableEq V] in
theorem not_secondOrder (hv : c.IsArgNode v) {i j : Nat} {ns : List (Option V)}
    (hnodes : c.argsSecondOrderNodes[i]? = some ns) : ns[j]? ≠ some (some v) := by
  intro hj
  obtain ⟨arg, harg, hpl⟩ := hv
  obtain ⟨hfst, hsnd⟩ := c.second_order_fresh ns (mem_of_getElem? hnodes) v
    (mem_of_getElem? hj) arg harg
  rcases hpl with h | h
  · exact hfst h
  · exact hsnd h

theorem isReferenceAllowedForInnerReturn_deduced {returnValueType : ValueType}
    {i : Nat} {inner : V} (hin : (c.vars.innerReferenceNodes returnNode)[i]? = some inner)
    (hv : v ∈ c.accessible inner) (harg : c.IsArgNode v) :
    c.isReferenceAllowedForInnerReturn returnValueType (c.deducedNotation returnNode) v i = true ↔
      c.Numbered v := by
  have hlist : (c.deducedNotation returnNode).returnInnerReferences[i]? =
      some (sortUnique ParamReference.lt (c.collectReturnReferences inner)) := by
    simp [deducedNotation, collectReturnInnerReferences, hin]
  unfold isReferenceAllowedForInnerReturn
  rw [hlist, Option.any_some, Bool.or_eq_true, any_collected_iff hv]
  refine or_iff_right ?_
  simp only [Bool.and_eq_true, any_eq_true, Option.any_eq_true, decide_eq_true_eq]
  rintro ⟨-, reference, -, -, nodes, hnodes, hnode⟩
  exact not_secondOrder harg hnodes hnode

theorem checkReturnedInner_deduced {returnValueType : ValueType} (h : c.OnlyArgs returnNode) :
    c.checkReturnedInnerReferenceIsAllowed returnValueType (c.deducedNotation returnNode)
        returnNode = [] ↔
      ∀ inner ∈ c.vars.innerReferenceNodes returnNode, ∀ v ∈ c.accessible inner, c.Numbered v := by
  unfold checkReturnedInnerReferenceIsAllowed
  simp only [flatMap_eq_nil_iff, Prod.forall, mk_mem_zipIdx_iff_getElem?,
    ite_eq_left_iff, reduceCtorEq, imp_false, not_not]
  constructor
  · intro halw inner hin v hv
    obtain ⟨i, hi⟩ := mem_iff_getElem?.1 hin
    have harg := h.returnedInner inner hin v hv
    exact (isReferenceAllowedForInnerReturn_deduced hi hv harg).1 (halw inner i hi v hv)
  · intro hnmd inner i hi v hv
    have hin := mem_of_getElem? hi
    have harg := h.returnedInner inner hin v hv
    exact (isReferenceAllowedForInnerReturn_deduced hi hv harg).2 (hnmd inner hin v hv)

/-- The deduced notation is accepted if the numbers of all returned arguments and tags fit into
bytes, and only then. -/
theorem deducedNotation_accepted_iff (c : FunctionContext V) (returnValueType : ValueType)
    (returnNode : V) (h : c.OnlyArgs returnNode) :
    c.Accepted returnValueType (c.deducedNotation returnNode) returnNode ↔
      (∀ v ∈ c.accessible returnNode, c.Numbered v) ∧
        ∀ inner ∈ c.vars.innerReferenceNodes returnNode, ∀ v ∈ c.accessible inner,
          c.Numbered v := by
  have hchecked := (checkReturnedInner_deduced h :
    c.checkReturnedInnerReferenceIsAllowed returnValueType (c.deducedNotation returnNode)
      returnNode = [] ↔ _)
  rw [← checkReturned_deduced, ← hchecked]
  constructor
  · intro haccepted
    exact ⟨haccepted.returned, haccepted.returnedInner⟩
  · rintro ⟨hreturned, hinner⟩
    refine ⟨?_, hreturned, hinner⟩
    rw [checkReferencesPollutionBeforeReturn, checkArgumentsPollution_deduced h, nil_append]

/-- A struct `s` with a reference inside, a parameter `x`, a struct `t` with a reference to what
has references inside, and the returned reference. -/
inductive StoringNode where
  | s | sInner | sReferenced | x | t | tInner | tReferenced | tReferencedInner | tSecondOrder
  | returned
deriving DecidableEq

open StoringNode

def storingNodes : VariableNodes StoringNode where
  parent _ := none
  children _ := []
  innerReferenceNodes
    | s => [sInner]
    | t => [tInner]
    | tReferenced => [tReferencedInner]
    | _ => []
  height v := if v = s ∨ v = t ∨ v = tReferenced then 1 else 0
  mem_children := by simp
  height_child := by simp
  height_inner v i h := by cases v <;> cases i <;> revert h <;> decide
  inner_bare v i h := by cases v <;> cases i <;> revert h <;> decide
  valueType v := if v ∈ [sInner, tInner, tReferencedInner, returned] then .referenceImut else .value
  isInnerReferenceNode v := v ∈ [sInner, tInner, tReferencedInner]
  isVariableInnerReferenceNode v := v ∈ [sInner, tInner, tReferencedInner]
  depth _ := 0
  depth_parent := by simp

/-- `fn f( S &mut s, i32& x, T& t ) : auto& { s.Store( x ); return x; }` -/
def storingFunction : FunctionContext StoringNode where
  vars := storingNodes
  variablesState := run storingNodes [.addNode s, .addNode sReferenced, .addNode x, .addNode t,
    .addNode tReferenced, .addNode tSecondOrder, .addNode returned, .addLink sReferenced sInner,
    .addLink tReferenced tInner, .addLink tSecondOrder tReferencedInner, .addLink x sInner,
    .addLink x returned] empty
  args := [⟨.referenceMut, s, [sReferenced]⟩, ⟨.referenceImut, x, []⟩,
    ⟨.referenceImut, t, [tReferenced]⟩]
  argsSecondOrderNodes := [[], [], [some tSecondOrder]]
  second_order_fresh := by simp

theorem storingFunction_onlyArgs : storingFunction.OnlyArgs returned := by
  constructor
  · unfold ReachesArgs IsArgNode
    decide +kernel
  · unfold ReachesArgs IsArgNode
    decide +kernel
  · unfold ReachesArgs IsArgNode
    decide +kernel

theorem deducedNotation_accepted_storingFunction :
    storingFunction.Accepted .referenceImut (storingFunction.deducedNotation returned) returned := by
  refine (deducedNotation_accepted_iff storingFunction .referenceImut returned
    storingFunction_onlyArgs).2 ⟨fun v hv => ?_, fun inner hinner => ?_⟩
  · have hx : storingFunction.accessible returned = [x] := by decide +kernel
    rw [hx, mem_singleton] at hv
    exact ⟨1, ⟨.referenceImut, x, []⟩, by decide, rfl, .inl hv⟩
  · cases hinner

def manyNodes : VariableNodes Nat where
  toVariables := StackVariablesStorage.temporaryVariables.toVariables
  valueType v := bif Nat.ble v 256 then .value else .referenceImut
  isInnerReferenceNode _ := false
  isVariableInnerReferenceNode _ := false
  depth := StackVariablesStorage.temporaryVariables.depth
  depth_parent := StackVariablesStorage.temporaryVariables.depth_parent

/-- A function with 257 parameters that returns a reference to the last one of them. -/
def manyParams : FunctionContext Nat where
  vars := manyNodes
  variablesState := run manyNodes [.addNode 256, .addNode 257, .addLink 256 257] empty
  args := (List.range 257).map fun n => ⟨.referenceImut, n, []⟩
  argsSecondOrderNodes := []
  second_order_fresh := by simp

/-- The notation names the first parameter, and the result is rejected. -/
theorem deducedNotation_rejected_manyParams : manyParams.OnlyArgs 257 ∧
    manyParams.collectReturnReferences 257 = [⟨0, paramReferenceNumber⟩] ∧
    ¬ manyParams.Accepted .referenceImut (manyParams.deducedNotation 257) 257 := by
  have haccessible : manyParams.accessible 257 = [256] := by decide +kernel
  have hcollected : manyParams.collectReturnReferences 257 = [⟨0, paramReferenceNumber⟩] := by
    decide +kernel
  refine ⟨⟨?_, ?_, ?_⟩, hcollected, fun haccepted => ?_⟩
  · nofun
  · intro v hv
    rw [haccessible, mem_singleton] at hv
    have hlast : (⟨.referenceImut, 256, []⟩ : Arg Nat) ∈ manyParams.args :=
      mem_map.2 ⟨256, mem_range.2 (by decide), rfl⟩
    exact ⟨_, hlast, .inl hv⟩
  · nofun
  · have hallowed : (256 : Nat) ∈ manyParams.accessible 257 → manyParams.isReferenceAllowedForReturn
        (manyParams.deducedNotation 257) 256 = true := by
      intro hmem
      by_contra hnot
      have herrors := flatMap_eq_nil_iff.1 haccepted.returned 256 hmem
      rw [if_neg hnot] at herrors
      cases herrors
    have hnames := hallowed (by rw [haccessible]; exact mem_singleton_self _)
    obtain ⟨reference, hreference, hnames⟩ := any_eq_true.1 hnames
    have hmem := (mem_sortUnique (r := ParamReference.lt)).1 hreference
    rw [hcollected, mem_singleton] at hmem
    rw [hmem] at hnames
    revert hnames
    decide +kernel

end FunctionContext
end USprache.CodeBuilder.ReferenceDeduction
