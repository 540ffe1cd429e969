import USprache.CodeBuilder.ManglerState
import USprache.CodeBuilder.Types

/-!
# Encoding of type names

The functions of the Itanium mangler that write types.  Each returns the calls it makes on
the mangler state.
-/

namespace USprache.CodeBuilder

open LexSynt List Option

def ManglerCall.written : ManglerCall → Text
  | pushChar c => [c]
  | push name => name
  | pushLengthPrefixed name => ManglerState.decimal name.length ++ name
  | openNode | closeNode | takeResult => []

def written (calls : List ManglerCall) : Text := calls.flatMap ManglerCall.written

theorem written_append (cs cs' : List ManglerCall) :
    written (cs ++ cs') = written cs ++ written cs' := flatMap_append

theorem written_node (cs : List ManglerCall) :
    written (.openNode :: (cs ++ [.closeNode])) = written cs := by
  show [] ++ written (cs ++ [.closeNode]) = written cs
  rw [written_append]
  exact append_nil _

/-- The calls close what they open and only add to the full text. -/
def Writes (calls : List ManglerCall) : Prop :=
  ∀ m : Mangling, ∃ m', m.run calls = some m' ∧ m'.holders = m.holders ∧
    m'.state.resultFull = m.state.resultFull ++ written calls

theorem run_append (m : Mangling) (cs cs' : List ManglerCall) :
    m.run (cs ++ cs') = (m.run cs).bind (fun m' => m'.run cs') := by
  induction cs generalizing m with
  | nil => rfl
  | cons call cs ih =>
    rw [cons_append, Mangling.run, Mangling.run, bind_assoc]
    congr 1
    funext m'
    exact ih m'

theorem resultFull_finalizePart (s : ManglerState) (holder : NodeHolder) :
    (s.finalizePart holder).resultFull = s.resultFull := by
  unfold ManglerState.finalizePart
  dsimp only
  split <;> rfl

structure Encoding where
  calls : List ManglerCall
  writes : Writes calls

namespace Encoding

def nothing : Encoding := ⟨[], fun m => ⟨m, rfl, rfl, (append_nil _).symm⟩⟩

instance : Append Encoding where
  append a b := ⟨a.calls ++ b.calls, by
    intro m
    obtain ⟨m1, hrun1, hholders1, hfull1⟩ := a.writes m
    obtain ⟨m2, hrun2, hholders2, hfull2⟩ := b.writes m1
    refine ⟨m2, ?_, hholders2.trans hholders1, ?_⟩
    · rw [run_append, hrun1, bind_some, hrun2]
    · rw [hfull2, hfull1, written_append, append_assoc]⟩

def pushChar (c : Char) : Encoding :=
  ⟨[.pushChar (ascii c)], fun m => ⟨{ m with state := m.state.push [ascii c] }, rfl, rfl, rfl⟩⟩

def push (name : Text) : Encoding :=
  ⟨[.push name], fun m => ⟨{ m with state := m.state.push name }, rfl, rfl, by
    rw [written, flatMap_singleton]; rfl⟩⟩

def pushLengthPrefixed (name : Text) : Encoding := ⟨[.pushLengthPrefixed name], fun m =>
    ⟨{ m with state := m.state.pushLengthPrefixed name }, rfl, rfl, by
      rw [written, flatMap_singleton]
      exact append_assoc _ _ _⟩⟩

def node (e : Encoding) : Encoding := ⟨.openNode :: (e.calls ++ [.closeNode]), by
    intro m
    obtain ⟨m', hrun, hholders, hfull⟩ := e.writes { m with holders := m.state.openNode :: m.holders }
    have hclose : m'.run [.closeNode] =
        some ⟨m'.state.finalizePart m.state.openNode, m.holders⟩ := by
      rw [Mangling.run, Mangling.step, hholders]
      rfl
    refine ⟨⟨m'.state.finalizePart m.state.openNode, m.holders⟩, ?_, rfl, ?_⟩
    · rw [Mangling.run, Mangling.step, bind_some, run_append, hrun, bind_some, hclose]
    · rw [resultFull_finalizePart, hfull, written_node]⟩

def text (e : Encoding) : Text := written e.calls

@[simp] theorem text_nothing : nothing.text = [] := rfl

@[simp] theorem text_append (a b : Encoding) : (a ++ b).text = a.text ++ b.text :=
  written_append a.calls b.calls

@[simp] theorem text_pushChar (c : Char) : (pushChar c).text = [ascii c] := rfl

@[simp] theorem text_push (n : Text) : (push n).text = n := append_nil _

@[simp] theorem text_pushLengthPrefixed (n : Text) :
    (pushLengthPrefixed n).text = ManglerState.decimal n.length ++ n := by
  rw [text, pushLengthPrefixed, written, flatMap_singleton]
  rfl

@[simp] theorem text_node (e : Encoding) : (node e).text = e.text := written_node e.calls

theorem run_start (e : Encoding) :
    ∃ m, ({} : Mangling).run e.calls = some m ∧ m.state.resultFull = e.text := by
  obtain ⟨m, hrun, -, hfu⟩ := e.writes {}
  exact ⟨m, hrun, hfu.trans (nil_append _)⟩

end Encoding

open Encoding

def encodeFundamentalType : FundamentalType → Text
  | .void_ => asciiText "v"
  | .bool_ => asciiText "b"
  | .i8_ => asciiText "a"
  | .u8_ => asciiText "h"
  | .i16_ => asciiText "s"
  | .u16_ => asciiText "t"
  | .i32_ => asciiText "i"
  | .u32_ => asciiText "j"
  | .i64_ => asciiText "x"
  | .u64_ => asciiText "y"
  | .i128_ => asciiText "n"
  | .u128_ => asciiText "o"
  | .ssize_type_ => asciiText "l"
  | .size_type_ => asciiText "m"
  | .f32_ => asciiText "f"
  | .f64_ => asciiText "d"
  | .char8_ => asciiText "c"
  | .char16_ => asciiText "Ds"
  | .char32_ => asciiText "Di"
  | .byte8_ => asciiText "u5byte8"
  | .byte16_ => asciiText "u6byte16"
  | .byte32_ => asciiText "u6byte32"
  | .byte64_ => asciiText "u6byte64"
  | .byte128_ => asciiText "u7byte128"

/-- A template argument that is a number of a fundamental type. -/
def encodeLiteral (type : FundamentalType) (n : Nat) : Encoding :=
  pushChar 'L' ++ push (encodeFundamentalType type) ++ push (ManglerState.decimal n) ++ pushChar 'E'

def concat (es : List Encoding) : Encoding := es.foldr (· ++ ·) nothing

def encodeParamReference (paramReference : ParamReference) : Encoding :=
  push (asciiText "il") ++ encodeLiteral .char8_ (paramReference.first.toNat + '0'.toNat) ++
    encodeLiteral .char8_ (if paramReference.second = paramReferenceNumber then '_'.toNat
        else paramReference.second.toNat + 'a'.toNat) ++
    pushChar 'E'

/-- `name< X { elements } >`, which stands for a part of the reference notation. -/
def encodeNotationAsType (name : String) (elements : List Encoding) : Encoding :=
  node (node (pushLengthPrefixed (asciiText name)) ++ pushChar 'I' ++ pushChar 'X' ++
    push (asciiText "il") ++ concat elements ++ pushChar 'E' ++ pushChar 'E' ++ pushChar 'E')

def encodePollution (pollution : ReferencePollution) : Encoding :=
  push (asciiText "il") ++ encodeParamReference pollution.dst ++
    encodeParamReference pollution.src ++ pushChar 'E'

def encodeReferencePollutionAsType (referencesPollution : List ReferencePollution) : Encoding :=
  encodeNotationAsType "_RP" (referencesPollution.map encodePollution)

def encodeReturnReferencesAsType (returnReferences : List ParamReference) : Encoding :=
  encodeNotationAsType "_RR" (returnReferences.map encodeParamReference)

def encodeTagReferences (returnReferences : List ParamReference) : Encoding :=
  push (asciiText "il") ++ concat (returnReferences.map encodeParamReference) ++ pushChar 'E'

def encodeReturnInnerReferencesAsType (returnInnerReferences : List (List ParamReference)) :
    Encoding :=
  encodeNotationAsType "_RIR" (returnInnerReferences.map encodeTagReferences)

def unlessEmpty {α : Type} (encode : List α → Encoding) (elements : List α) : Encoding :=
  if elements.isEmpty then nothing else encode elements

def encodeCallingConvention : CallingConvention → Encoding
  | .default_ => nothing
  | .c => pushChar 'U' ++ pushLengthPrefixed (asciiText "C")
  | .cold => pushChar 'U' ++ pushLengthPrefixed (asciiText "cold")
  | .fast => pushChar 'U' ++ pushLengthPrefixed (asciiText "fast")
  | .system => pushChar 'U' ++ pushLengthPrefixed (asciiText "system")

def encodeWithValueType (type : Encoding) : ValueType → Encoding
  | .value => type
  | .referenceMut => node (pushChar 'R' ++ type)
  | .referenceImut => node (pushChar 'R' ++ node (pushChar 'K' ++ type))

/-- `outer` is what `encodeNamespacePrefix` writes for the parent.  The scope without a name
is the root. -/
def encodeParentPrefix (parent : NamesScope) (outer : Encoding) : Encoding :=
  if parent.thisNamespaceName.isEmpty then nothing else outer

/-- A name in a scope, with what `encodeNamespacePrefix` writes for the scope. -/
def encodeNestedName (name : Text) (parent : NamesScope) (outer : Encoding) : Encoding :=
  node (if parent.hasParent then
    pushChar 'N' ++ outer ++ pushLengthPrefixed name ++ pushChar 'E'
    else pushLengthPrefixed name)

def encodeTemplateArgs (args : Encoding) : Encoding := pushChar 'I' ++ args ++ pushChar 'E'

def encodeTemplateClassName (parent : NamesScope) (name : Text) (outer args : Encoding) : Encoding :=
  node (encodeParentPrefix parent outer ++ pushLengthPrefixed name) ++ encodeTemplateArgs args

def FunctionParam.isVoidValue : FunctionParam → Bool
  | .mk (.fundamental .void_) .value => true
  | _ => false

mutual

def encodeTypeName : LangType → Encoding
  | .fundamental type => push (encodeFundamentalType type)
  | .array elementType elementCount =>
    node (pushChar 'A' ++ push (ManglerState.decimal elementCount.toNat) ++ pushChar '_' ++
      encodeTypeName elementType)
  | .tuple elementTypes =>
    -- Encode tuples, like type templates.
    node (node (pushLengthPrefixed Keyword.tup_.text) ++ pushChar 'I' ++
      encodeTypeNames elementTypes ++ pushChar 'E')
  | .classType class_ => encodeClass class_
  | .enumType parent name => encodeNestedName name parent (encodeNamespacePrefix parent)
  | .rawPointer elementType => node (pushChar 'P' ++ encodeTypeName elementType)
  | .functionPointer functionType => node (pushChar 'P' ++ encodeFunctionTypeName functionType)

/-- The types of a tuple, or arguments of a class template. -/
def encodeTypeNames : List LangType → Encoding
  | [] => nothing
  | type :: types => encodeTypeName type ++ encodeTypeNames types

def encodeClass : Class → Encoding
  | .declared parent name => encodeNestedName name parent (encodeNamespacePrefix parent)
  | .ofTemplate parent name _ signatureArgs =>
    let className := encodeTemplateClassName parent name (encodeNamespacePrefix parent)
      (encodeTypeNames signatureArgs)
    node (if parent.hasParent then pushChar 'N' ++ className ++ pushChar 'E' else className)
  | .coroutine description => encodeCoroutineType description

def encodeCoroutineType : CoroutineTypeDescription → Encoding
  | .mk kind returned returnReferences returnInnerReferences innerReferences nonSync =>
    node (node (pushLengthPrefixed kind.keyword.text) ++
      -- Encode coroutine type as template with several arguments.
      pushChar 'I' ++
      encodeFunctionParam returned ++
      (if nonSync then encodeLiteral .bool_ 1 else nothing) ++
      concat (innerReferences.map (fun inner => encodeLiteral .u32_ inner.toNat)) ++
      unlessEmpty encodeReturnReferencesAsType returnReferences ++
      unlessEmpty encodeReturnInnerReferencesAsType returnInnerReferences ++
      pushChar 'E')

def encodeNamespacePrefix : NamesScope → Encoding
  | .root => node (pushLengthPrefixed [])
  | .namespace_ parent name =>
    node (encodeParentPrefix parent (encodeNamespacePrefix parent) ++ pushLengthPrefixed name)
  | .members (.declared parent name) =>
    node (encodeParentPrefix parent (encodeNamespacePrefix parent) ++ pushLengthPrefixed name)
  | .members (.ofTemplate parent name _ signatureArgs) =>
    node (encodeTemplateClassName parent name (encodeNamespacePrefix parent)
      (encodeTypeNames signatureArgs))
  | .members (.coroutine description) => encodeCoroutineType description

def encodeFunctionParam : FunctionParam → Encoding
  | .mk type valueType => encodeWithValueType (encodeTypeName type) valueType

def encodeFunctionParamsList : List FunctionParam → Encoding
  | [] => nothing
  | param :: params =>
    -- Real "void" params are marked, since "v" stands for no params.
    (if param.isVoidValue then node (pushChar 'K' ++ encodeFunctionParam param)
      else encodeFunctionParam param) ++ encodeFunctionParamsList params

def encodeFunctionTypeName : FunctionType → Encoding
  | .mk params returned isUnsafe callingConvention returnReferences returnInnerReferences
      referencesPollution =>
    node (encodeCallingConvention callingConvention ++ pushChar 'F' ++
      encodeFunctionParam returned ++
      (encodeFunctionParamsList params ++ (if params.isEmpty then pushChar 'v' else nothing)) ++
      unlessEmpty encodeReferencePollutionAsType referencesPollution ++
      unlessEmpty encodeReturnReferencesAsType returnReferences ++
      unlessEmpty encodeReturnInnerReferencesAsType returnInnerReferences ++
      (if isUnsafe then node (pushLengthPrefixed (asciiText "unsafe")) else nothing) ++
      pushChar 'E')

end

def uncompressedTypeName (type : LangType) : Option Text :=
  (({} : Mangling).run (encodeTypeName type).calls).map (fun m => m.state.resultFull)

theorem uncompressedTypeName_eq (t : LangType) :
    uncompressedTypeName t = some (encodeTypeName t).text := by
  obtain ⟨m, hrun, hfu⟩ := (encodeTypeName t).run_start
  rw [uncompressedTypeName, hrun, map_some, hfu]

end USprache.CodeBuilder
