import USprache.CodeBuilder.TypeMangling
import USprache.LexSynt.PrintedPieces

/-!
# The types of a program

The names of a scope are a map, so a name stands for one thing.  Class templates of one
name form a set.  Which of them a class is made from is decided when the class is made, and
the program keeps the classes it has made by template and signature arguments.
-/

namespace USprache.CodeBuilder

open LexSynt List NamesScope

/-- What a name stands for, as far as types are concerned. -/
inductive Entity where
  | namespace_ | class_ | enum_ | typeTemplates
deriving DecidableEq

/-- A name from the text of a program, or one that a macro expansion has made. -/
def IsDeclaredName (name : Text) : Prop :=
  IsName name ∨ ∃ rest, name = asciiText "_macro_ident_" ++ rest

structure Program where
  lookup : NamesScope → Text → Option Entity
  /-- The keys of `generated_template_things_storage_` for classes: the template, by its scope,
  name and index, and the signature arguments. -/
  generated : NamesScope → Text → Nat → List LangType → Prop
  declared_name : ∀ {scope name entity}, lookup scope name = some entity → IsDeclaredName name

namespace Program

mutual

def HasType (P : Program) : LangType → Prop
  | .fundamental _ => True
  | .array elementType _ => P.HasType elementType
  | .rawPointer elementType => P.HasType elementType
  | .classType class_ => P.HasClass class_
  | .enumType parent name => P.HasScope parent ∧ P.lookup parent name = some .enum_
  | .functionPointer (.mk params returned ..) => P.HasParams params ∧ P.HasParam returned
  | .tuple elementTypes => P.HasTypes elementTypes

def HasTypes (P : Program) : List LangType → Prop
  | [] => True
  | type :: types => P.HasType type ∧ P.HasTypes types

def HasParam (P : Program) : FunctionParam → Prop
  | .mk type _ => P.HasType type

def HasParams (P : Program) : List FunctionParam → Prop
  | [] => True
  | param :: params => P.HasParam param ∧ P.HasParams params

def HasClass (P : Program) : Class → Prop
  | .declared parent name => P.HasScope parent ∧ P.lookup parent name = some .class_
  | .ofTemplate parent name template signatureArgs =>
    P.HasScope parent ∧ P.lookup parent name = some .typeTemplates ∧ P.HasTypes signatureArgs ∧
      P.generated parent name template signatureArgs
  | .coroutine (.mk _ returned ..) => P.HasParam returned

/-- The scope is one that can hold types.  There are none in the class of a coroutine. -/
def HasScope (P : Program) : NamesScope → Prop
  | .root => True
  | .namespace_ parent name => P.HasScope parent ∧ P.lookup parent name = some .namespace_
  | .members (.declared parent name) => P.HasScope parent ∧ P.lookup parent name = some .class_
  | .members (.ofTemplate parent name template signatureArgs) =>
    P.HasScope parent ∧ P.lookup parent name = some .typeTemplates ∧ P.HasTypes signatureArgs ∧
      P.generated parent name template signatureArgs
  | .members (.coroutine _) => False

end

/-- No two class templates of one name are used with the same signature arguments. -/
def OneTemplatePerName (P : Program) : Prop := ∀ {parent name template template' signatureArgs},
    P.HasClass (.ofTemplate parent name template signatureArgs) →
      P.HasClass (.ofTemplate parent name template' signatureArgs) → template = template'

variable {P : Program}

theorem hasTypes_iff {ts : List LangType} : P.HasTypes ts ↔ ∀ t ∈ ts, P.HasType t := by
  induction ts with
  | nil => simp [HasTypes]
  | cons t ts ih => rw [HasTypes, ih, forall_mem_cons]

theorem hasParams_iff {params : List FunctionParam} :
    P.HasParams params ↔ ∀ param ∈ params, P.HasParam param := by
  induction params with
  | nil => simp [HasParams]
  | cons param params ih => rw [HasParams, ih, forall_mem_cons]

end Program

/-- A part of a qualified name: a name, with arguments for a class made from a template. -/
structure Component where
  name : Text
  args : Option (List LangType)

def NamesScope.components : NamesScope → List Component
  | .root => []
  | .namespace_ parent name => parent.components ++ [⟨name, none⟩]
  | .members (.declared parent name) => parent.components ++ [⟨name, none⟩]
  | .members (.ofTemplate parent name _ signatureArgs) =>
    parent.components ++ [⟨name, some signatureArgs⟩]
  | .members (.coroutine _) => []

def Component.Valid (Valid : LangType → Prop) (component : Component) : Prop :=
  IsDeclaredName component.name ∧ ∀ args ∈ component.args, ∀ arg ∈ args, Valid arg

namespace Program

variable {P : Program} {sc : NamesScope}

theorem valid_component {Valid : LangType → Prop} {n : Text} {entity : Entity}
    (hlk : P.lookup sc n = some entity) : Component.Valid Valid ⟨n, none⟩ :=
  ⟨P.declared_name hlk, fun _ h => nomatch h⟩

/-- The arguments in a qualified name are types of the program, smaller than the scope. -/
theorem HasScope.components_valid {n : Nat} : ∀ {sc : NamesScope}, P.HasScope sc →
    sizeOf sc ≤ n → ∀ cmp ∈ sc.components, cmp.Valid (fun t => P.HasType t ∧ sizeOf t < n)
  | .root, _, _ => by simp [components]
  | .namespace_ parent name, h, hsz => by
    rw [namespace_.sizeOf_spec] at hsz
    rw [components, forall_mem_append, forall_mem_singleton]
    exact ⟨components_valid h.1 (by omega), valid_component h.2⟩
  | .members (.declared parent name), h, hsz => by
    rw [members.sizeOf_spec, Class.declared.sizeOf_spec] at hsz
    rw [components, forall_mem_append, forall_mem_singleton]
    exact ⟨components_valid h.1 (by omega), valid_component h.2⟩
  | .members (.ofTemplate parent name template signatureArgs), h, hsz => by
    rw [members.sizeOf_spec, Class.ofTemplate.sizeOf_spec] at hsz
    rw [components, forall_mem_append, forall_mem_singleton]
    refine ⟨components_valid h.1 (by omega), P.declared_name h.2.1, ?_⟩
    rintro args ⟨⟩ arg harg
    have hlt := sizeOf_lt_of_mem harg
    exact ⟨hasTypes_iff.1 h.2.2.1 arg harg, by omega⟩
  | .members (.coroutine _), h, _ => by simp [HasScope] at h

/-- What a scope was declared as, and in which scope. -/
inductive DeclaredIn (P : Program) : (scope parent : NamesScope) → Component → Prop
  | namespace_ {parent name} : P.HasScope parent → P.lookup parent name = some .namespace_ →
    DeclaredIn P (.namespace_ parent name) parent ⟨name, none⟩
  | class_ {parent name} : P.HasScope parent → P.lookup parent name = some .class_ →
    DeclaredIn P (.members (.declared parent name)) parent ⟨name, none⟩
  | template {parent name template args} : P.HasScope parent →
    P.HasClass (.ofTemplate parent name template args) →
    DeclaredIn P (.members (.ofTemplate parent name template args)) parent ⟨name, some args⟩

theorem HasScope.declaredIn : ∀ {sc : NamesScope}, P.HasScope sc →
    sc = .root ∨ ∃ p cmp, sizeOf p < sizeOf sc ∧ P.DeclaredIn sc p cmp
  | .root, _ => Or.inl rfl
  | .namespace_ p name, h => by
    refine Or.inr ⟨p, ⟨name, none⟩, ?_, .namespace_ h.1 h.2⟩
    rw [namespace_.sizeOf_spec]
    omega
  | .members (.declared p name), h => by
    refine Or.inr ⟨p, ⟨name, none⟩, ?_, .class_ h.1 h.2⟩
    rw [members.sizeOf_spec, Class.declared.sizeOf_spec]
    omega
  | .members (.ofTemplate p name template signatureArgs), h => by
    have hcl : P.HasClass (.ofTemplate p name template signatureArgs) := by
      rwa [HasClass]
    refine .inr ⟨p, ⟨name, some signatureArgs⟩, ?_, .template h.1 hcl⟩
    rw [members.sizeOf_spec, Class.ofTemplate.sizeOf_spec]
    omega
  | .members (.coroutine _), h => by simp [HasScope] at h

variable {p : NamesScope} {cmp : Component}

theorem DeclaredIn.has_parent (h : P.DeclaredIn sc p cmp) : P.HasScope p := by
  cases h <;> assumption

theorem DeclaredIn.components (h : P.DeclaredIn sc p cmp) :
    sc.components = p.components ++ [cmp] := by
  cases h <;> rw [components]

theorem DeclaredIn.eq (hone : P.OneTemplatePerName) {sc' : NamesScope}
    (h : P.DeclaredIn sc p cmp) (h' : P.DeclaredIn sc' p cmp) : sc = sc' := by
  cases h with
  | namespace_ _ hlk =>
    cases h' with
    | namespace_ => rfl
    | class_ _ hlk' => cases hlk.symm.trans hlk'
  | class_ _ hlk =>
    cases h' with
    | namespace_ _ hlk' => cases hlk.symm.trans hlk'
    | class_ => rfl
  | template _ hcl =>
    cases h' with
    | template _ hcl' => rw [hone hcl hcl']

theorem HasScope.eq_of_components (hone : P.OneTemplatePerName) {sc' : NamesScope}
    (h : P.HasScope sc) (h' : P.HasScope sc') (heq : sc.components = sc'.components) :
    sc = sc' := by
  induction hn : sizeOf sc using Nat.strong_induction_on generalizing sc sc' with
  | _ n ih =>
    rcases h.declaredIn with rfl | ⟨parent, component, hlt, hdecl⟩ <;>
      rcases h'.declaredIn with rfl | ⟨parent', component', -, hdecl'⟩
    · rfl
    · rw [hdecl'.components] at heq
      exact absurd heq.symm (append_ne_nil_of_right_ne_nil _ (cons_ne_nil _ _))
    · rw [hdecl.components] at heq
      exact absurd heq (append_ne_nil_of_right_ne_nil _ (cons_ne_nil _ _))
    · rw [hdecl.components, hdecl'.components] at heq
      obtain ⟨hpar, hla⟩ := append_inj' heq rfl
      obtain rfl := ih _ (hn ▸ hlt) hdecl.has_parent hdecl'.has_parent hpar rfl
      obtain rfl := singleton_inj.1 hla
      exact hdecl.eq hone hdecl'

end Program

end USprache.CodeBuilder
