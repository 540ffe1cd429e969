import USprache.CodeBuilder.MsvcMangling
import USprache.LexSynt.PrintedPieces

/-!
# Types with template arguments in a program

As in `DeclaredTypes` a name of a scope stands for one thing.  Class templates of one name
form a set, and only a set of one template may be an argument.  The values among template
arguments are integers of the width of their type.

A mangled name keeps the low 64 bits of a value.
-/

namespace USprache.CodeBuilder.WithArgs

open LexSynt Msvc ManglerMsvc List

inductive Entity where
  | namespace_ | class_
  | enum_ (underlyingType : FundamentalType)
  | typeTemplates (count : Nat)
deriving DecidableEq

/-- A name from the text of a program, or one that a macro expansion has made of such. -/
def IsTypeName (name : Text) : Prop :=
  IsName name ∨ ∃ rest, name = asciiText "_macro_ident_" ++ rest ∧ terminator ∉ rest

/-- The type of an integer value of the type: its own or the underlying one. -/
def LangType.integerType : LangType → Option FundamentalType
  | fundamental type => some type
  | enumType _ _ underlyingType => some underlyingType
  | _ => none

structure Program where
  lookup : NamesScope → Text → Option Entity
  /-- The class templates and signature arguments that classes were made from. -/
  generated : TypeTemplate → List TemplateArg → Prop
  bitWidth : FundamentalType → Nat
  declared_name : ∀ {scope name entity}, lookup scope name = some entity → IsTypeName name

namespace Program

mutual

def HasType (P : Program) : LangType → Prop
  | .fundamental _ => True
  | .array elementType _ => P.HasType elementType
  | .rawPointer elementType => P.HasType elementType
  | .classType class_ => P.HasClass class_
  | .enumType parent name underlyingType =>
    P.HasScope parent ∧ P.lookup parent name = some (.enum_ underlyingType)
  | .functionPointer (.mk params returned ..) => P.HasParams params ∧ P.HasParam returned
  | .tuple elementTypes => P.HasTypes elementTypes

def HasTypes (P : Program) : List LangType → Prop
  | [] => True
  | type :: types => P.HasType type ∧ P.HasTypes types

def HasParam (P : Program) : FunctionParam → Prop
  | .mk type _ => P.HasType type

def HasParams (P : Program) : List FunctionParam → Prop
  | [] => True
  | param :: params => P.HasParam param ∧ P.HasParams params

def HasClass (P : Program) : Class → Prop
  | .declared parent name => P.HasScope parent ∧ P.lookup parent name = some .class_
  | .ofTemplate (.mk parent name index) signatureArgs =>
    P.HasScope parent ∧ (∃ count, P.lookup parent name = some (.typeTemplates count)) ∧
      P.HasArgs signatureArgs ∧ P.generated (.mk parent name index) signatureArgs
  | .coroutine _ => False

def HasArgs (P : Program) : List TemplateArg → Prop
  | [] => True
  | arg :: args => P.HasArg arg ∧ P.HasArgs args

def HasArg (P : Program) : TemplateArg → Prop
  | .type type => P.HasType type
  | .variable_ type constexprValue => P.HasType type ∧
    ∃ integerType bits, type.integerType = some integerType ∧
      constexprValue = [⟨P.bitWidth integerType, bits⟩]
  | .typeTemplate (.mk parent name index) =>
    P.HasScope parent ∧ P.lookup parent name = some (.typeTemplates 1) ∧ index = 0

def HasScope (P : Program) : NamesScope → Prop
  | .root => True
  | .namespace_ parent name => P.HasScope parent ∧ P.lookup parent name = some .namespace_
  | .members class_ => P.HasClass class_

end

variable {P : Program}

theorem hasTypes_iff {ts : List LangType} : P.HasTypes ts ↔ ∀ t ∈ ts, P.HasType t := by
  induction ts with
  | nil => simp [HasTypes]
  | cons t ts ih => rw [HasTypes, ih, forall_mem_cons]

theorem hasParams_iff {params : List FunctionParam} :
    P.HasParams params ↔ ∀ param ∈ params, P.HasParam param := by
  induction params with
  | nil => simp [HasParams]
  | cons param params ih => rw [HasParams, ih, forall_mem_cons]

theorem hasArgs_iff {as : List TemplateArg} : P.HasArgs as ↔ ∀ arg ∈ as, P.HasArg arg := by
  induction as with
  | nil => simp [HasArgs]
  | cons arg as ih => rw [HasArgs, ih, forall_mem_cons]

end Program

/-- The number as a signed or unsigned 64-bit integer. -/
def APInt.low (num : APInt) (isSigned : Bool) : APInt :=
  ⟨64, if isSigned then num.bits.signExtend 64 else num.bits.setWidth 64⟩

def TemplateArg.low : TemplateArg → TemplateArg
  | .variable_ valueType constexprValue =>
    .variable_ valueType (constexprValue.map (fun num => num.low (isSigned valueType)))
  | arg => arg

/-- No two classes made from templates of one name have arguments that differ in high bits of
values only. -/
def Program.DistinctInstances (P : Program) : Prop := ∀ {parent name index index' args args'},
    P.HasClass (.ofTemplate (.mk parent name index) args) →
      P.HasClass (.ofTemplate (.mk parent name index') args') →
        args.map TemplateArg.low = args'.map TemplateArg.low → index = index' ∧ args = args'

/-- A part of a qualified name: a name, with what is kept of the arguments for a class made
from a template. -/
structure Component where
  name : Text
  args : Option (List TemplateArg)

mutual

/-- The qualified name of a scope, the innermost part first. -/
def NamesScope.components : NamesScope → List Component
  | .root => []
  | .namespace_ parent name => ⟨name, none⟩ :: NamesScope.components parent
  | .members class_ => Class.components class_

def Class.components : Class → List Component
  | .declared parent name => ⟨name, none⟩ :: NamesScope.components parent
  | .ofTemplate (.mk parent name _) signatureArgs =>
    ⟨name, some (signatureArgs.map TemplateArg.low)⟩ :: NamesScope.components parent
  | .coroutine _ => []

end

/-- What a scope is declared as in its parent. -/
inductive Program.DeclaredIn (P : Program) : (scope parent : NamesScope) → Component → Prop
  | namespace_ {parent name} : P.HasScope parent → P.lookup parent name = some .namespace_ →
    P.DeclaredIn (.namespace_ parent name) parent ⟨name, none⟩
  | class_ {parent name} : P.HasScope parent → P.lookup parent name = some .class_ →
    P.DeclaredIn (.members (.declared parent name)) parent ⟨name, none⟩
  | template {parent name index args lowArgs} : P.HasScope parent →
    P.HasClass (.ofTemplate (.mk parent name index) args) → args.map TemplateArg.low = lowArgs →
    P.DeclaredIn (.members (.ofTemplate (.mk parent name index) args)) parent ⟨name, some lowArgs⟩

namespace Program

variable {P : Program} {sc : NamesScope}

theorem HasScope.declaredIn (h : P.HasScope sc) : sc = .root ∨ ∃ p cmp, P.DeclaredIn sc p cmp := by
  cases sc with
  | root => exact .inl rfl
  | namespace_ p n => exact .inr ⟨p, _, .namespace_ h.1 h.2⟩
  | members cls =>
    cases cls with
    | declared p n => exact .inr ⟨p, _, .class_ h.1 h.2⟩
    | ofTemplate template as =>
      obtain ⟨p, n, i⟩ := template
      exact .inr ⟨p, _, .template h.1 h rfl⟩
    | coroutine description =>
      exact absurd h not_false

variable {p : NamesScope} {cmp : Component}

theorem DeclaredIn.has_parent (h : P.DeclaredIn sc p cmp) : P.HasScope p := by
  cases h <;> assumption

theorem DeclaredIn.components (h : P.DeclaredIn sc p cmp) : sc.components = cmp :: p.components := by
  cases h with
  | namespace_ => rw [NamesScope.components]
  | class_ => rw [NamesScope.components, Class.components]
  | template _ _ hlow => rw [NamesScope.components, Class.components, hlow]

theorem DeclaredIn.eq (hne : P.DistinctInstances) {sc' : NamesScope}
    (h : P.DeclaredIn sc p cmp) (h' : P.DeclaredIn sc' p cmp) : sc = sc' := by
  cases h with
  | namespace_ _ hlk =>
    cases h' with
    | namespace_ => rfl
    | class_ _ hlk' => cases hlk.symm.trans hlk'
  | class_ _ hlk =>
    cases h' with
    | namespace_ _ hlk' => cases hlk.symm.trans hlk'
    | class_ => rfl
  | template _ hcl hlow =>
    cases h' with
    | template _ hcl' hlow' =>
      obtain ⟨rfl, rfl⟩ := hne hcl hcl' (hlow.trans hlow'.symm)
      rfl

theorem HasScope.eq_of_components (hne : P.DistinctInstances) {sc' : NamesScope}
    (h : P.HasScope sc) (h' : P.HasScope sc') (heq : sc.components = sc'.components) :
    sc = sc' := by
  induction hcs : sc.components generalizing sc sc' with
  | nil =>
    rcases h.declaredIn with rfl | ⟨p, cmp, hdecl⟩ <;>
      rcases h'.declaredIn with rfl | ⟨p', component', hdecl'⟩
    · rfl
    · rw [hdecl'.components] at heq
      cases heq
    · rw [hdecl.components] at hcs
      cases hcs
    · rw [hdecl.components] at hcs
      cases hcs
  | cons cmp components ih =>
    rcases h.declaredIn with rfl | ⟨p, first, hdecl⟩
    · cases hcs
    · rcases h'.declaredIn with rfl | ⟨p', first', hdecl'⟩
      · rw [hcs] at heq
        cases heq
      · rw [hdecl.components, hdecl'.components, cons.injEq] at heq
        rw [hdecl.components, cons.injEq] at hcs
        obtain ⟨rfl, hrs⟩ := heq
        obtain rfl := ih hdecl.has_parent hdecl'.has_parent hrs hcs.2
        exact hdecl.eq hne hdecl'

end Program

end USprache.CodeBuilder.WithArgs
