import USprache.CodeBuilder.Types

/-!
# Fields of a class

What is done with the fields of a class when it is built: their reference tags are
determined, the kinds of the tags are collected and checked, and the fields are put in an
order.  The members of a class come from a hash map, in the order it has.
-/

namespace USprache.CodeBuilder

open LexSynt

variable {Expression LlvmType : Type}

structure ClassField (Expression : Type) where
  name : Text
  srcLoc : Nat
  type : LangType
  originalIndex : Nat
  isReference : Bool
  isMutable : Bool
  referenceTagExpression : Option Expression
  innerReferenceTagsExpression : Option Expression

/-- `Value`, in the scope of a class. -/
inductive MemberValue (Expression : Type) where
  | classField (field : ClassField Expression)
  | other

def MemberValue.getClassField : MemberValue Expression → Option (ClassField Expression)
  | classField field => some field
  | other => none

inductive ClassBuildError where
  | evaluation (text : Text)
  | innerReferenceTagsForReferenceField (srcLoc : Nat) (name : Text)
  | innerReferenceTagCountMismatch (srcLoc expected actual : Nat)
  | expectedReferenceNotation (srcLoc : Nat) (name : Text)
  | mixingSecondOrderReferences (tag : Nat)
  | changingReferenceTagCountInInheritance (expected actual : Nat)
  | mixingReferences (tag : Nat)
  | unusedReferenceTag (tag : Nat)
deriving DecidableEq

structure ClassContext (Expression LlvmType : Type) where
  types : BuiltTypes
  /-- `EvaluateReferenceFieldTag`, with the errors it reports. -/
  evaluateReferenceFieldTag : Expression → Option Nat × List Text
  /-- `EvaluateReferenceFieldInnerTags`, with the errors it reports. -/
  evaluateReferenceFieldInnerTags : Expression → Option (List Nat) × List Text
  baseClass : Option (List InnerReference)
  parents : List (List InnerReference)
  keepFieldsOrder : Bool
  /-- The types of the parents and of the virtual table pointer. -/
  startTypes : List LlvmType
  getLLVMType : LangType → LlvmType
  pointerType : LlvmType
  isSized : LlvmType → Bool
  getABITypeAlign : LlvmType → Nat
  getTypeAllocSize : LlvmType → Nat

namespace ClassContext

variable (context : ClassContext Expression LlvmType) (field : ClassField Expression)

def hasReferencesInside : Bool :=
  !field.isReference && decide (0 < context.types.referenceTagCount field.type)

def hasReferenceNotation : Bool :=
  field.referenceTagExpression.isSome || field.innerReferenceTagsExpression.isSome

/-- Errors of the loop that collects fields for which reference notation is required. -/
def collectErrors : List ClassBuildError :=
  match field.innerReferenceTagsExpression with
  | none => []
  | some expression =>
    if field.isReference then [.innerReferenceTagsForReferenceField field.srcLoc field.name]
    else if 0 < context.types.referenceTagCount field.type then []
    else
      let evaluated := context.evaluateReferenceFieldInnerTags expression
      evaluated.2.map .evaluation ++
        match evaluated.1 with
        | none => []
        | some tags => if tags.length ≠ 0 then
            [.innerReferenceTagCountMismatch field.srcLoc 0 tags.length] else []

def inheritedInnerReferences : List InnerReference := context.baseClass.getD []

inductive ReferenceMapping where
  | singleReferenceField
  | singleFieldWithReferencesInside
  | general
deriving DecidableEq

def referenceMapping (fields : List (ClassField Expression)) : ReferenceMapping :=
  let referenceFields := fields.filter (fun field => field.isReference)
  let fieldsWithReferencesInside := fields.filter context.hasReferencesInside
  if referenceFields.length = 1 ∧ fieldsWithReferencesInside.length = 0 ∧
      fields.any hasReferenceNotation = false ∧ context.inheritedInnerReferences = [] then
    .singleReferenceField
  else if referenceFields.length = 0 ∧ fieldsWithReferencesInside.length = 1 ∧
      fields.any hasReferenceNotation = false ∧ context.inheritedInnerReferences = [] then
    .singleFieldWithReferencesInside
  else .general

def evaluatedTag : Option Nat :=
  field.referenceTagExpression.bind fun e => (context.evaluateReferenceFieldTag e).1

def evaluatedInnerTags : Option (List Nat) :=
  field.innerReferenceTagsExpression.bind fun e => (context.evaluateReferenceFieldInnerTags e).1

def resize {α : Type} (list : List α) (size : Nat) (value : α) : List α :=
  list.take size ++ List.replicate (size - list.length) value

variable (mapping : ReferenceMapping)

def referenceTag (field : ClassField Expression) : Nat :=
  match mapping with
  | .general => (context.evaluatedTag field).getD 0
  | _ => 0

def innerReferenceTags (field : ClassField Expression) : List Nat :=
  let count := context.types.referenceTagCount field.type
  match mapping with
  | .general =>
    match context.evaluatedInnerTags field with
    | some tags => resize tags count 0
    | none => List.replicate count 0
  | _ => List.range count

def fieldKind : InnerReferenceKind :=
  if field.isMutable then .mut_ else .imut

def setKind (innerReferences : List InnerReference) (tag : Nat) (kind : InnerReferenceKind) :
    List InnerReference :=
  let innerReferences := if tag ≥ innerReferences.length then
    resize innerReferences (tag + 1) ⟨.imut, .none_⟩ else innerReferences
  innerReferences.modify tag fun innerReference => { innerReference with kind := kind }

def mapReferenceField (innerReferences : List InnerReference) (field : ClassField Expression) :
    List InnerReference :=
  match context.evaluatedTag field with
  | some tag => setKind innerReferences tag (fieldKind field)
  | none =>
    -- Fallback for error cases with no notation - link reference field with tag 0.
    if innerReferences = [] then [⟨fieldKind field, .none_⟩]
    else innerReferences.modify 0 fun innerReference =>
      { innerReference with kind := fieldKind field }

def referenceFieldErrors : List ClassBuildError :=
  match field.referenceTagExpression with
  | some expression => (context.evaluateReferenceFieldTag expression).2.map .evaluation
  | none => [.expectedReferenceNotation field.srcLoc field.name]

def mapFieldWithReferencesInside (innerReferences : List InnerReference)
    (field : ClassField Expression) : List InnerReference :=
  let count := context.types.referenceTagCount field.type
  match context.evaluatedInnerTags field with
  | some tags =>
    ((resize tags count 0).zip (List.range count)).foldl (fun innerReferences tag =>
      setKind innerReferences tag.1 (context.types.getInnerReferenceKind field.type tag.2))
      innerReferences
  | none =>
    -- Fallback for error cases with no notation - link all field tags with tag 0.
    let innerReferences := if innerReferences = [] then [⟨.imut, .none_⟩] else innerReferences
    (List.range count).foldl (fun innerReferences i =>
      innerReferences.modify 0 fun innerReference =>
        { innerReference with kind := context.types.getInnerReferenceKind field.type i })
      innerReferences

def innerTagsErrors : List ClassBuildError :=
  match field.innerReferenceTagsExpression with
  | none => [.expectedReferenceNotation field.srcLoc field.name]
  | some expression =>
    let count := context.types.referenceTagCount field.type
    let evaluated := context.evaluateReferenceFieldInnerTags expression
    evaluated.2.map .evaluation ++
      match evaluated.1 with
      | none => []
      | some tags => if tags.length ≠ count then
          [.innerReferenceTagCountMismatch field.srcLoc count tags.length] else []

def mapReferences (referenceFields fieldsWithReferencesInside :
    List (ClassField Expression)) : List InnerReference :=
  match mapping with
  | .singleReferenceField =>
    context.inheritedInnerReferences ++ (referenceFields.take 1).map fun field =>
      ⟨fieldKind field, .none_⟩
  | .singleFieldWithReferencesInside =>
    context.inheritedInnerReferences ++ (fieldsWithReferencesInside.take 1).flatMap fun field =>
      (List.range (context.types.referenceTagCount field.type)).map fun i =>
        ⟨context.types.getInnerReferenceKind field.type i, .none_⟩
  | .general =>
    fieldsWithReferencesInside.foldl context.mapFieldWithReferencesInside
      (referenceFields.foldl context.mapReferenceField context.inheritedInnerReferences)

def mapReferencesErrors
    (referenceFields fieldsWithReferencesInside : List (ClassField Expression)) :
    List ClassBuildError :=
  match mapping with
  | .general =>
    referenceFields.flatMap context.referenceFieldErrors ++
      fieldsWithReferencesInside.flatMap context.innerTagsErrors
  | _ => []

/-- The kind of a tag is set if it is `None`, else it must be the same. -/
def setSecondOrderKind (state : List InnerReference × List ClassBuildError)
    (write : Nat × SecondOrderInnerReferenceKind) :
    List InnerReference × List ClassBuildError :=
  let innerReference := state.1.getD write.1 ⟨.imut, .none_⟩
  if innerReference.secondOrderKind = .none_ then
    (state.1.modify write.1 fun innerReference =>
      { innerReference with secondOrderKind := write.2 }, state.2)
  else if innerReference.secondOrderKind ≠ write.2 then
    (state.1, state.2 ++ [.mixingSecondOrderReferences write.1])
  else state

def referenceFieldSecondOrderKinds (field : ClassField Expression) :
    List (Nat × SecondOrderInnerReferenceKind) :=
  if 0 < context.types.referenceTagCount field.type then
    [(context.referenceTag mapping field,
      match context.types.getInnerReferenceKind field.type 0 with
      | .imut => .imut
      | .mut_ => .mut_)]
  else []

def innerSecondOrderKinds (field : ClassField Expression) :
    List (Nat × SecondOrderInnerReferenceKind) :=
  ((context.innerReferenceTags mapping field).zip
    (List.range (context.types.referenceTagCount field.type))).map fun tag =>
      (tag.1, context.types.getSecondOrderInnerReferenceKind field.type tag.2)

def setupSecondOrderKinds
    (referenceFields fieldsWithReferencesInside : List (ClassField Expression))
    (innerReferences : List InnerReference) : List InnerReference × List ClassBuildError :=
  (fieldsWithReferencesInside.flatMap (context.innerSecondOrderKinds mapping)).foldl
    setSecondOrderKind ((referenceFields.flatMap
      (context.referenceFieldSecondOrderKinds mapping)).foldl setSecondOrderKind
        (innerReferences, []))

/-- Inner references must not be changed in inheritance. -/
def parentErrors (innerReferences parent : List InnerReference) : List ClassBuildError :=
  if innerReferences.length ≠ parent.length then
    [.changingReferenceTagCountInInheritance parent.length innerReferences.length]
  else
    (List.range parent.length).flatMap fun i =>
      let ofParent := parent.getD i ⟨.imut, .none_⟩
      let ofClass := innerReferences.getD i ⟨.imut, .none_⟩
      (if ofParent.kind ≠ ofClass.kind then [.mixingReferences i] else []) ++
        if ofParent.secondOrderKind ≠ ofClass.secondOrderKind then
          [.mixingSecondOrderReferences i] else []

def usedTags (field : ClassField Expression) :
    List (Nat × InnerReferenceKind) :=
  if field.isReference then [(context.referenceTag mapping field, fieldKind field)]
  else
    ((context.innerReferenceTags mapping field).zip
      (List.range (context.types.referenceTagCount field.type))).map fun tag =>
        (tag.1, context.types.getInnerReferenceKind field.type tag.2)

def kindErrors (innerReferences : List InnerReference) (tags : List (Nat × InnerReferenceKind)) :
    List ClassBuildError :=
  tags.flatMap fun tag =>
    if tag.2 ≠ (innerReferences.getD tag.1 ⟨.imut, .none_⟩).kind then
      [.mixingReferences tag.1] else []

def unusedTagErrors (innerReferences : List InnerReference) (used : List Nat) :
    List ClassBuildError :=
  ((List.range innerReferences.length).filter fun tag => decide (tag ∉ used)).map
    .unusedReferenceTag

/-- Parents use all their tags, if the class has as many. -/
def usedByParents (innerReferences : List InnerReference) : List Nat :=
  context.parents.flatMap fun parent =>
    if innerReferences.length ≠ parent.length then [] else List.range parent.length

def determineInnerReferences (fields : List (ClassField Expression)) :
    List InnerReference × List ClassBuildError :=
  let referenceFields := fields.filter (fun field => field.isReference)
  let fieldsWithReferencesInside := fields.filter context.hasReferencesInside
  let mapping := context.referenceMapping fields
  let mapped := context.mapReferences mapping referenceFields fieldsWithReferencesInside
  let setUp := context.setupSecondOrderKinds mapping referenceFields fieldsWithReferencesInside
    mapped
  let tags := fields.flatMap (context.usedTags mapping)
  (setUp.1, fields.flatMap context.collectErrors ++
      context.mapReferencesErrors mapping referenceFields fieldsWithReferencesInside ++
      setUp.2 ++
      context.parents.flatMap (parentErrors setUp.1) ++
      kindErrors setUp.1 tags ++
      unusedTagErrors setUp.1 (context.usedByParents setUp.1 ++ tags.map (fun tag => tag.1)))

end ClassContext

end USprache.CodeBuilder
