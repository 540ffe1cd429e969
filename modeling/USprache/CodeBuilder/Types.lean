import Mathlib.Data.List.Sort
import USprache.LexSynt.SyntaxElements

/-!
# Types of the language

A class or an enum is named by the scope it is declared in and its name there, a class made
from a class template by the template and the arguments of its signature.  Templates of one
name are told apart by their index in the set of that name.
-/

namespace USprache.CodeBuilder

open LexSynt

/-- `U_FundamentalType`, without the two values that are no types. -/
inductive FundamentalType where
  | void_ | bool_
  | i8_ | u8_ | i16_ | u16_ | i32_ | u32_ | i64_ | u64_ | i128_ | u128_
  | ssize_type_ | size_type_
  | f32_ | f64_
  | char8_ | char16_ | char32_
  | byte8_ | byte16_ | byte32_ | byte64_ | byte128_
deriving DecidableEq

inductive ValueType where
  | value | referenceMut | referenceImut
deriving DecidableEq

inductive InnerReferenceKind where
  | imut | mut_
deriving DecidableEq

/-- `size_t( inner_reference )`. -/
def InnerReferenceKind.toNat : InnerReferenceKind → Nat
  | imut => 0
  | mut_ => 1

inductive CallingConvention where
  | default_ | c | fast | cold | system
deriving DecidableEq

inductive CoroutineKind where
  | generator | asyncFunc
deriving DecidableEq

/-- An argument number, and the number of an inner tag or `paramReferenceNumber`. -/
structure ParamReference where
  first : UInt8
  second : UInt8
deriving DecidableEq

def paramReferenceNumber : UInt8 := 255

structure ReferencePollution where
  dst : ParamReference
  src : ParamReference
deriving DecidableEq

mutual

inductive LangType where
  | fundamental (type : FundamentalType)
  | array (elementType : LangType) (elementCount : UInt64)
  | rawPointer (elementType : LangType)
  | classType (class_ : Class)
  | enumType (parent : NamesScope) (name : Text)
  | functionPointer (functionType : FunctionType)
  | tuple (elementTypes : List LangType)

inductive FunctionParam where
  | mk (type : LangType) (valueType : ValueType)

inductive FunctionType where
  | mk (params : List FunctionParam) (returned : FunctionParam) (isUnsafe : Bool)
    (callingConvention : CallingConvention) (returnReferences : List ParamReference)
    (returnInnerReferences : List (List ParamReference))
    (referencesPollution : List ReferencePollution)

inductive CoroutineTypeDescription where
  | mk (kind : CoroutineKind) (returned : FunctionParam)
    (returnReferences : List ParamReference) (returnInnerReferences : List (List ParamReference))
    (innerReferences : List InnerReferenceKind) (nonSync : Bool)

/-- A class by its `generated_class_data`: declared, made from the class template of an
index, or the class of a coroutine. -/
inductive Class where
  | declared (parent : NamesScope) (name : Text)
  | ofTemplate (parent : NamesScope) (name : Text) (template : Nat) (signatureArgs : List LangType)
  | coroutine (description : CoroutineTypeDescription)

/-- A scope, without the names in it.  The scope of the arguments of a class template is left
out: the parent of such a class is the scope of the template. -/
inductive NamesScope where
  | root
  | namespace_ (parent : NamesScope) (name : Text)
  | members (class_ : Class)

end

def FunctionParam.type : FunctionParam → LangType
  | .mk type _ => type

def FunctionParam.valueType : FunctionParam → ValueType
  | .mk _ valueType => valueType

namespace FunctionType

def params : FunctionType → List FunctionParam
  | mk params _ _ _ _ _ _ => params

def returned : FunctionType → FunctionParam
  | mk _ returned _ _ _ _ _ => returned

def returnReferences : FunctionType → List ParamReference
  | mk _ _ _ _ returnReferences _ _ => returnReferences

def returnInnerReferences : FunctionType → List (List ParamReference)
  | mk _ _ _ _ _ returnInnerReferences _ => returnInnerReferences

def referencesPollution : FunctionType → List ReferencePollution
  | mk _ _ _ _ _ _ referencesPollution => referencesPollution

end FunctionType

namespace CoroutineTypeDescription

def returnReferences : CoroutineTypeDescription → List ParamReference
  | mk _ _ returnReferences _ _ _ => returnReferences

def returnInnerReferences : CoroutineTypeDescription → List (List ParamReference)
  | mk _ _ _ returnInnerReferences _ _ => returnInnerReferences

def innerReferences : CoroutineTypeDescription → List InnerReferenceKind
  | mk _ _ _ _ innerReferences _ => innerReferences

end CoroutineTypeDescription

def CoroutineKind.keyword : CoroutineKind → Keyword
  | generator => .generator_
  | asyncFunc => .async_

def templateClassName : Text := asciiText "_"

namespace NamesScope

def thisNamespaceName : NamesScope → Text
  | root => []
  | namespace_ _ name => name
  | members (.declared _ name) => name
  | members (.ofTemplate ..) => templateClassName
  | members (.coroutine (.mk kind ..)) => kind.keyword.text

/-- `GetParent() != nullptr`. -/
def hasParent : NamesScope → Bool
  | root => false
  | _ => true

end NamesScope

end USprache.CodeBuilder

/-!
## Fundamental types

Their kinds, and their sizes on a target with pointers of 4 or 8 bytes.
-/

namespace USprache.CodeBuilder

/-- The size of `size_type`. -/
inductive TargetPointers where
  | bits32 | bits64
deriving DecidableEq

def TargetPointers.bitWidth : TargetPointers → Nat
  | bits32 => 32
  | bits64 => 64

namespace FundamentalType

def isUnsignedInteger : FundamentalType → Bool
  | u8_ | u16_ | u32_ | u64_ | u128_ | size_type_ => true
  | _ => false

def isSignedInteger : FundamentalType → Bool
  | i8_ | i16_ | i32_ | i64_ | i128_ | ssize_type_ => true
  | _ => false

def isInteger (type : FundamentalType) : Bool := type.isSignedInteger || type.isUnsignedInteger

def isFloatingPoint : FundamentalType → Bool
  | f32_ | f64_ => true
  | _ => false

def isChar : FundamentalType → Bool
  | char8_ | char16_ | char32_ => true
  | _ => false

def size (target : TargetPointers) : FundamentalType → Nat
  | void_ => 0
  | bool_ => 1
  | i8_ | u8_ | char8_ | byte8_ => 1
  | i16_ | u16_ | char16_ | byte16_ => 2
  | i32_ | u32_ | char32_ | byte32_ | f32_ => 4
  | i64_ | u64_ | byte64_ | f64_ => 8
  | i128_ | u128_ | byte128_ => 16
  | ssize_type_ | size_type_ => target.bitWidth >>> 3

def bitWidth (target : TargetPointers) (type : FundamentalType) : Nat := 8 * type.size target

theorem bitWidth_pos (t : TargetPointers) {ty : FundamentalType}
    (h : ty.isInteger || ty.isChar) : 0 < ty.bitWidth t := by
  cases t <;> cases ty <;> revert h <;> decide

end FundamentalType

/-! ## Inner references

What a built class knows of its inner references is a list with one entry a reference tag.
The tags of an array are those of its elements' type, the tags of a tuple those of all its
elements, one element after another.
-/

inductive SecondOrderInnerReferenceKind where
  | none_ | imut | mut_
deriving DecidableEq

structure InnerReference where
  kind : InnerReferenceKind
  secondOrderKind : SecondOrderInnerReferenceKind := .none_
deriving DecidableEq

abbrev ReturnReferences := List ParamReference

/-- What is known of the types of a program when a function type is prepared. -/
structure BuiltTypes where
  /-- `Class::inner_references`. -/
  innerReferences : Class → List InnerReference
  /-- `EnsureTypeComplete`. -/
  ensureTypeComplete : LangType → Bool
  /-- `GetTypeNonSync`. -/
  getTypeNonSync : LangType → Bool

namespace BuiltTypes

variable (types : BuiltTypes)

mutual

def referenceTagCount : LangType → Nat
  | .classType class_ => (types.innerReferences class_).length
  | .array elementType _ => referenceTagCount elementType
  | .tuple elementTypes => elementsReferenceTagCount elementTypes
  | .fundamental _ => 0
  | .rawPointer _ => 0
  | .enumType _ _ => 0
  | .functionPointer _ => 0

def elementsReferenceTagCount : List LangType → Nat
  | [] => 0
  | element :: elements => referenceTagCount element + elementsReferenceTagCount elements

end

mutual

/-- The entry behind `GetInnerReferenceKind` and `GetSecondOrderInnerReferenceKind`. -/
def innerReferenceAt : LangType → Nat → InnerReference
  | .classType class_, index => (types.innerReferences class_).getD index ⟨.imut, .none_⟩
  | .array elementType _, index => innerReferenceAt elementType index
  | .tuple elementTypes, index => elementsInnerReferenceAt elementTypes index
  | .fundamental _, _ => ⟨.imut, .none_⟩
  | .rawPointer _, _ => ⟨.imut, .none_⟩
  | .enumType _ _, _ => ⟨.imut, .none_⟩
  | .functionPointer _, _ => ⟨.imut, .none_⟩

def elementsInnerReferenceAt : List LangType → Nat → InnerReference
  | [], _ => ⟨.imut, .none_⟩
  | element :: elements, index =>
    if index < types.referenceTagCount element then innerReferenceAt element index
    else elementsInnerReferenceAt elements (index - types.referenceTagCount element)

end

def getInnerReferenceKind (type : LangType) (index : Nat) : InnerReferenceKind :=
  (types.innerReferenceAt type index).kind

def getSecondOrderInnerReferenceKind (type : LangType) (index : Nat) :
    SecondOrderInnerReferenceKind :=
  (types.innerReferenceAt type index).secondOrderKind

mutual

def getReferenceIndirectionDepth : LangType → Nat
  | .classType class_ =>
    (types.innerReferences class_).foldl (fun depth innerReference =>
      -- For now no more than depth 2 is possible.
      max depth (1 + if innerReference.secondOrderKind = .none_ then 0 else 1)) 0
  | .array elementType _ => getReferenceIndirectionDepth elementType
  | .tuple elementTypes => elementsReferenceIndirectionDepth elementTypes 0
  | .fundamental _ => 0
  | .rawPointer _ => 0
  | .enumType _ _ => 0
  | .functionPointer _ => 0

def elementsReferenceIndirectionDepth : List LangType → Nat → Nat
  | [], depth => depth
  | element :: elements, depth =>
    elementsReferenceIndirectionDepth elements (max depth (getReferenceIndirectionDepth element))

end

end BuiltTypes

namespace ParamReference

/-- `std::pair` is ordered by its first member, then by its second one. -/
def le (a b : ParamReference) : Prop := a.first < b.first ∨ a.first = b.first ∧ a.second ≤ b.second

instance : DecidableRel le := fun a b =>
  inferInstanceAs (Decidable (a.first < b.first ∨ a.first = b.first ∧ a.second ≤ b.second))

end ParamReference

def unique {α : Type} [DecidableEq α] : List α → List α
  | [] => []
  | [a] => [a]
  | a :: b :: list => if a = b then unique (b :: list) else a :: unique (b :: list)

theorem mem_unique {α : Type} [DecidableEq α] (x : α) (l : List α) : x ∈ unique l ↔ x ∈ l := by
  fun_induction unique l with
  | case1 => rfl
  | case2 a => rfl
  | case3 a l ih => simp [ih]
  | case4 a b l hne ih =>
    rw [List.mem_cons, ih]
    exact List.mem_cons.symm

def normalizeParamReferencesList (paramReferences : ReturnReferences) : ReturnReferences :=
  unique (paramReferences.insertionSort ParamReference.le)

@[simp]
theorem mem_normalizeParamReferencesList (r : ParamReference) (l : ReturnReferences) :
    r ∈ normalizeParamReferencesList l ↔ r ∈ l := by
  rw [normalizeParamReferencesList, mem_unique]
  exact (List.perm_insertionSort ParamReference.le l).mem_iff

end USprache.CodeBuilder
