import USprache.CodeBuilder.ClassParentsRuns
import USprache.LexSynt.SyntaxElements

/-!
# Virtual tables

A polymorph class has a list of the virtual functions it has or inherits.  Each entry says in
which parent it was found and where there.  In memory a table of a class holds the tables of
its parents, that of the parent at offset zero first, and then the functions that are new in
the class.  Everything in it is as large as a pointer, so an address in a table is a number
of words.
-/

namespace USprache.CodeBuilder

open LexSynt

inductive VirtualFunctionKind where
  | none_ | declareVirtual | virtualOverride | virtualFinal | virtualPure
deriving DecidableEq

/-- `Class::Kind` of polymorph classes. -/
inductive PolymorphKind where
  | interface | abstract | polymorphNonFinal | polymorphFinal
deriving DecidableEq

/-- A method.  `S` is what `VirtuallyEquals` compares: the type of the function but for the
type of its first parameter. -/
structure FunctionVariable (S : Type) where
  llvmFunction : Nat
  name : Text
  signature : S
  isThisCall : Bool
  virtualFunctionKind : VirtualFunctionKind
  hasBlock : Bool
  visibility : ClassMemberVisibility
deriving DecidableEq

inductive VirtualTableError where
  | virtualForPrivateFunction (name : Text)
  | virtualRequired (name : Text)
  | overrideRequired (name : Text)
  | functionDoesNotOverride (name : Text)
  | overrideFinalFunction (name : Text)
  | finalForFirstVirtualFunction (name : Text)
  | bodyForPureVirtualFunction (name : Text)
  | pureDestructor
deriving DecidableEq

/-- `parentVirtualTableIndex` is `none` for the value `~0u`. -/
structure VirtualTableEntry (S : Type) where
  name : Text
  functionVariable : FunctionVariable S
  isPure : Bool
  isFinal : Bool
  indexInTable : Nat
  parentVirtualTableIndex : Option Nat

variable {S : Type} [DecidableEq S]

namespace VirtualTableEntry

def key (entry : VirtualTableEntry S) : Text × S := (entry.name, entry.functionVariable.signature)

def isOwn (entry : VirtualTableEntry S) : Bool := entry.parentVirtualTableIndex.isNone

end VirtualTableEntry

section Prepare

/-- The entries of a parent with offset zero, in the class of the parent with this index. -/
def borrowVirtualTable (parentIndex : Nat) (parentTable : List (VirtualTableEntry S)) :
    List (VirtualTableEntry S) :=
  parentTable.mapIdx fun i entry =>
    { entry with indexInTable := i, parentVirtualTableIndex := some parentIndex }

def addParentEntries (parentIndex : Nat) : Nat → List (VirtualTableEntry S) →
    List (VirtualTableEntry S) → List (VirtualTableEntry S)
  | _, [], table => table
  | i, parentEntry :: parentEntries, table =>
    addParentEntries parentIndex (i + 1) parentEntries
      (if table.any (fun entry => decide (entry.key = parentEntry.key)) then table
      else table ++
        [{ parentEntry with indexInTable := i, parentVirtualTableIndex := some parentIndex }])

/-- The first loop over the parents: their tables and field numbers, from this index on. -/
def borrowFirstTable : Nat → List (List (VirtualTableEntry S) × Nat) → List (VirtualTableEntry S)
  | _, [] => []
  | i, (parentTable, fieldNumber) :: parents =>
    if fieldNumber = 0 then borrowVirtualTable i parentTable else borrowFirstTable (i + 1) parents

def addOtherTables : Nat → List (List (VirtualTableEntry S) × Nat) →
    List (VirtualTableEntry S) → List (VirtualTableEntry S)
  | _, [], table => table
  | i, (parentTable, fieldNumber) :: parents, table =>
    addOtherTables (i + 1) parents
      (if fieldNumber = 0 then table else addParentEntries i 0 parentTable table)

/-- The state of the loop over the functions of the class. -/
structure TableInProgress (S : Type) where
  table : List (VirtualTableEntry S)
  ownVirtualTableIndex : Nat := 0
  errors : List VirtualTableError := []

namespace TableInProgress

variable (progress : TableInProgress S)

def report (error : VirtualTableError) : TableInProgress S :=
  { progress with errors := progress.errors ++ [error] }

def addOwn (function : FunctionVariable S) (isPure : Bool) :
    TableInProgress S :=
  { progress with
    table := progress.table ++ [{
      name := function.name
      functionVariable := function
      isPure := isPure
      isFinal := false
      indexInTable := progress.ownVirtualTableIndex
      parentVirtualTableIndex := none }]
    ownVirtualTableIndex := progress.ownVirtualTableIndex + 1 }

def override (index : Nat) (function : FunctionVariable S)
    (change : VirtualTableEntry S → VirtualTableEntry S) : TableInProgress S :=
  { progress with
    table := progress.table.modify index fun entry =>
      change { entry with functionVariable := function } }

end TableInProgress

/-- The part of the loop for a function with or without an entry it overrides. -/
def processFunction (function : FunctionVariable S) (entry : Option (Nat × VirtualTableEntry S))
    (progress : TableInProgress S) : TableInProgress S :=
  match function.virtualFunctionKind, entry with
  | .none_, some (index, _) =>
    -- For destructors virtual specifiers are optional.
    if function.name = Keyword.destructor_.text then progress.override index function id
    else progress.report (.virtualRequired function.name)
  | .none_, none =>
    if function.name = Keyword.destructor_.text then progress.addOwn function false
    else progress
  | .declareVirtual, some _ => progress.report (.overrideRequired function.name)
  | .declareVirtual, none => progress.addOwn function false
  | .virtualOverride, none => progress.report (.functionDoesNotOverride function.name)
  | .virtualOverride, some (index, entry) =>
    if entry.isFinal then progress.report (.overrideFinalFunction function.name)
    else progress.override index function fun entry => { entry with isPure := false }
  | .virtualFinal, none => progress.report (.finalForFirstVirtualFunction function.name)
  | .virtualFinal, some (index, entry) =>
    if entry.isFinal then progress.report (.overrideFinalFunction function.name)
    else progress.override index function fun entry =>
      { entry with isPure := false, isFinal := true }
  | .virtualPure, some _ => progress.report (.overrideRequired function.name)
  | .virtualPure, none =>
    let progress := if function.hasBlock then
      progress.report (.bodyForPureVirtualFunction function.name) else progress
    let progress := if function.name = Keyword.destructor_.text then
      progress.report .pureDestructor else progress
    progress.addOwn function true

def findEntry (table : List (VirtualTableEntry S)) (name : Text) (signature : S) :
    Option (Nat × VirtualTableEntry S) :=
  (table.findIdx? fun entry => decide (entry.key = (name, signature))).bind fun index =>
    table[index]?.map fun entry => (index, entry)

def addFunction (progress : TableInProgress S) (function : FunctionVariable S) :
    TableInProgress S :=
  let progress :=
    if function.virtualFunctionKind ≠ .none_ ∧ function.visibility = .private_ then
      progress.report (.virtualForPrivateFunction function.name) else progress
  if function.isThisCall then
    processFunction function (findEntry progress.table function.name function.signature) progress
  else progress

/-- The class has parents of these tables and field numbers and these functions, in the order
of their mangled names. -/
def prepareClassVirtualTable (parents : List (List (VirtualTableEntry S) × Nat))
    (functions : List (FunctionVariable S)) : TableInProgress S :=
  functions.foldl addFunction { table := addOtherTables 0 parents (borrowFirstTable 0 parents) }

end Prepare

structure StructLayout where
  elementOffset : Nat → Nat
  size : Nat

/-- A polymorph class: its kind, its parents, its functions in the order of their mangled
names, and its layout. -/
inductive PolymorphClass (S : Type) where
  | mk (kind : PolymorphKind) (parents : List (PolymorphClass S))
    (functions : List (FunctionVariable S)) (layout : StructLayout)

namespace PolymorphClass

def kind : PolymorphClass S → PolymorphKind
  | mk kind _ _ _ => kind

def parents : PolymorphClass S → List (PolymorphClass S)
  | mk _ parents _ _ => parents

def functions : PolymorphClass S → List (FunctionVariable S)
  | mk _ _ functions _ => functions

def layout : PolymorphClass S → StructLayout
  | mk _ _ _ layout => layout

def isBase (class_ : PolymorphClass S) : Bool := decide (class_.kind ≠ .interface)

end PolymorphClass

/-- The numbers of the fields of parents, the first that is no base has this number. -/
def fieldNumbersFrom : Nat → List (PolymorphClass S) → List Nat
  | _, [] => []
  | next, parent :: parents =>
    if parent.isBase then 0 :: fieldNumbersFrom next parents
    else next :: fieldNumbersFrom (next + 1) parents

def fieldNumbers (parents : List (PolymorphClass S)) : List Nat :=
  fieldNumbersFrom (if parents.any PolymorphClass.isBase then 1 else 0) parents

mutual

def preparedTable : PolymorphClass S → TableInProgress S
  | .mk _ parents functions _ =>
    prepareClassVirtualTable ((preparedTables parents).zip (fieldNumbers parents)) functions

def preparedTables : List (PolymorphClass S) → List (List (VirtualTableEntry S))
  | [] => []
  | class_ :: classes => (preparedTable class_).table :: preparedTables classes

end

def virtualTable (class_ : PolymorphClass S) : List (VirtualTableEntry S) :=
  (preparedTable class_).table

inductive TableType where
  | word
  | array (count : Nat)
  | struct (fields : List TableType)

mutual

def TableType.size : TableType → Nat
  | word => 1
  | array count => count
  | struct fields => sizes fields

def TableType.sizes : List TableType → Nat
  | [] => 0
  | field :: fields => size field + sizes fields

end

def TableType.element : TableType → Nat → Option (Nat × TableType)
  | word, _ => none
  | array count, index => if index < count then some (index, word) else none
  | struct fields, index => fields[index]?.map fun field => (sizes (fields.take index), field)

def createCompositeElementGEP (type : TableType) (pointer index : Nat) : Nat :=
  pointer + ((type.element index).map (fun e => e.1)).getD 0

def inTableOrder {α : Type} (parents : List (α × Nat)) : List α :=
  (parents.filter (fun parent => parent.2 = 0)).map (fun parent => parent.1) ++
    (parents.filter (fun parent => parent.2 ≠ 0)).map (fun parent => parent.1)

def ownFunctionsCount (class_ : PolymorphClass S) : Nat :=
  ((virtualTable class_).filter VirtualTableEntry.isOwn).length

mutual

/-- The type `PrepareClassVirtualTableType` makes. -/
def tableType : PolymorphClass S → TableType
  | .mk kind parents functions layout =>
    let parentFields := inTableOrder ((tableTypes parents).zip (fieldNumbers parents))
    let fields := if parentFields.isEmpty then [.word, .word] else parentFields
    .struct (fields ++ [.array (ownFunctionsCount (.mk kind parents functions layout))])

def tableTypes : List (PolymorphClass S) → List TableType
  | [] => []
  | class_ :: classes => tableType class_ :: tableTypes classes

end

inductive TableWord (S : Type) where
  | offset (offset : Nat)
  | typeId
  | function (function : FunctionVariable S)
deriving DecidableEq

def functionFor (dstTable : List (VirtualTableEntry S)) (entry : VirtualTableEntry S) :
    FunctionVariable S :=
  match dstTable.find? fun dstEntry => decide (dstEntry.key = entry.key) with
  | some dstEntry => dstEntry.functionVariable
  | none => entry.functionVariable

/-- The tables of parents as the loop over them collects them: that at offset zero in front. -/
def collectInitializers {α : Type} : List (α × Nat) → List α → List α
  | [], values => values
  | (value, fieldNumber) :: parents, values =>
    collectInitializers parents (if fieldNumber = 0 then value :: values else values ++ [value])

mutual

/-- `BuildClassVirtualTable_r`, flattened to words. -/
def buildClassVirtualTable (dstTable : List (VirtualTableEntry S)) :
    PolymorphClass S → Nat → List (TableWord S)
  | .mk kind parents functions layout, offset =>
    let numbers := fieldNumbers parents
    let tables := collectInitializers
      ((buildClassVirtualTables dstTable layout numbers parents offset).zip numbers) []
    (if tables.isEmpty then [.offset offset, .typeId] else tables.flatten) ++
      ((virtualTable (.mk kind parents functions layout)).filter VirtualTableEntry.isOwn).map
        (fun entry => .function (functionFor dstTable entry))

def buildClassVirtualTables (dstTable : List (VirtualTableEntry S)) (layout : StructLayout) :
    List Nat → List (PolymorphClass S) → Nat → List (List (TableWord S))
  | number :: numbers, class_ :: classes, offset =>
    buildClassVirtualTable dstTable class_ (offset + layout.elementOffset number) ::
      buildClassVirtualTables dstTable layout numbers classes offset
  | _, _, _ => []

end

mutual

/-- `SetupVirtualTablePointers_r`: the words of the object it writes and what it writes
there. -/
def setupVirtualTablePointers : PolymorphClass S → Nat → Nat → List (Nat × Nat)
  | .mk kind parents functions layout, this, pointer =>
    setupParents (tableType (.mk kind parents functions layout)) layout (fieldNumbers parents)
      parents this pointer 1 ++
      -- Store virtual table pointer only if it allocated in current class.
      if parents.isEmpty then [(this, pointer)] else []

def setupParents (type : TableType) (layout : StructLayout) :
    List Nat → List (PolymorphClass S) → Nat → Nat → Nat → List (Nat × Nat)
  | number :: numbers, class_ :: classes, this, pointer, vtableFieldNumber =>
    setupVirtualTablePointers class_ (this + layout.elementOffset number)
        (createCompositeElementGEP type pointer (if number = 0 then 0 else vtableFieldNumber)) ++
      setupParents type layout numbers classes this pointer
        (if number = 0 then vtableFieldNumber else vtableFieldNumber + 1)
  | _, _, _, _, _ => []

end

/-- The value a word has after some stores: that of the last one. -/
def loadWord (stores : List (Nat × Nat)) (address : Nat) : Option Nat :=
  (stores.reverse.find? fun store => decide (store.1 = address)).map (fun store => store.2)

/-- The field of the table of a class that holds the table of the parent of this index. -/
def subtableFieldIndex (numbers : List Nat) (parentIndex : Nat) : Nat :=
  if numbers.getD parentIndex 0 = 0 then 0
  else 1 + ((numbers.take parentIndex).filter (fun number => number ≠ 0)).length

mutual

/-- The loop of `TryFetchVirtualFunction`: the table of the class where the function of an
entry was declared first, that class and its entry. -/
def selectSubtable : PolymorphClass S → Nat → Nat →
    Option (Nat × PolymorphClass S × VirtualTableEntry S)
  | .mk kind parents functions layout, pointer, index =>
    match (virtualTable (.mk kind parents functions layout))[index]? with
    | none => none
    | some entry =>
      match entry.parentVirtualTableIndex with
      | none => some (pointer, .mk kind parents functions layout, entry)
      | some parentIndex =>
        selectInParent parents parentIndex
          (createCompositeElementGEP (tableType (.mk kind parents functions layout)) pointer
            (subtableFieldIndex (fieldNumbers parents) parentIndex))
          entry.indexInTable

def selectInParent : List (PolymorphClass S) → Nat → Nat → Nat →
    Option (Nat × PolymorphClass S × VirtualTableEntry S)
  | [], _, _, _ => none
  | class_ :: _, 0, pointer, index => selectSubtable class_ pointer index
  | _ :: classes, parentIndex + 1, pointer, index =>
    selectInParent classes parentIndex pointer index

end

mutual

/-- The loop over `base_class`. -/
def rootClass : PolymorphClass S → PolymorphClass S
  | .mk kind parents functions layout =>
    (rootOfBase parents).getD (.mk kind parents functions layout)

def rootOfBase : List (PolymorphClass S) → Option (PolymorphClass S)
  | [] => none
  | class_ :: classes => if class_.isBase then some (rootClass class_) else rootOfBase classes

end

/-- The address of a function in the table of the class that declared it first.  The field
number is that of the class of `this` if the declaring class has parents. -/
def functionAddress (classType functionClass : PolymorphClass S) (table index : Nat) : Option Nat :=
  let field := if functionClass.parents.isEmpty then 2 else classType.parents.length
  ((tableType functionClass).element field).bind fun functions =>
    (functions.2.element index).map fun function => table + functions.1 + function.1

/-- The correction of `this`, by the offset in the deepest first table. -/
def correctThis (words : List (TableWord S)) (classType : PolymorphClass S)
    (pointer this : Nat) : Option Nat :=
  if classType.kind = .interface then
    match words[createCompositeElementGEP (tableType (rootClass classType)) pointer 0]? with
    | some (.offset offset) => some (this - offset)
    | _ => none
  else some this

/-- What is called, and with which `this`, for the function with this index in the table of the
class of a reference.  `words` is the table of the complete object, `stores` what was written
to it. -/
def tryFetchVirtualFunction (words : List (TableWord S)) (stores : List (Nat × Nat))
    (classType : PolymorphClass S) (this virtualTableIndex : Nat) :
    Option (TableWord S × Nat) :=
  (loadWord stores this).bind fun pointer =>
    (selectSubtable classType pointer virtualTableIndex).bind fun selected =>
      (functionAddress classType selected.2.1 selected.1 selected.2.2.indexInTable).bind
        fun address => words[address]?.bind fun word =>
          (correctThis words classType pointer this).map fun this => (word, this)

end USprache.CodeBuilder
