import Mathlib.Data.Fintype.Card
import USprache.Library.PathSearch

/-!
# The non_sync property

A type is non-sync if a class with the tag can be reached from it through elements of arrays and
tuples, parents, fields and types that tags depend on.  The search does not remember what it has
answered inside of a cycle, so it only asks for the type it starts with.
-/

namespace USprache.CodeBuilder.NonSync

open Relation Library List

inductive NonSyncTag (T : Type) where
  | none_
  | true_
  | nonSyncExpression (type : T)

/-- A class, with its parents in order and its fields by their numbers.  A place of a field of a
parent class is empty. -/
structure ClassInfo (T : Type) where
  nonSyncTag : Option (NonSyncTag T)
  coroutineNonSync : Bool
  parents : List T
  fieldsOrder : List (Option T)
  /-- The class of a coroutine is generated and has no syntax element. -/
  tag_of_coroutine : coroutineNonSync = true → nonSyncTag = none

/-- What the search tells types apart by: `simple` are fundamental types, function pointers, raw
pointers and enums. -/
inductive TypeKind (T : Type) where
  | simple
  | array (elementType : T)
  | tuple (elementTypes : List T)
  | classType (class_ : ClassInfo T)

variable {T : Type} [DecidableEq T] (kind : T → TypeKind T)

/-- `GetTypeNonSyncImpl`, `none` if the fuel does not last. -/
def getTypeNonSyncImpl : Nat → List T → T → Option Bool
  | 0, _, _ => none
  | fuel + 1, prevTypesStack, type =>
    match kind type with
    | .simple => some false
    | .array elementType =>
      if type ∈ prevTypesStack then some false
      else getTypeNonSyncImpl fuel (type :: prevTypesStack) elementType
    | .tuple elementTypes =>
      if type ∈ prevTypesStack then some false
      else anyOf (getTypeNonSyncImpl fuel (type :: prevTypesStack)) elementTypes
    | .classType class_ =>
      if type ∈ prevTypesStack then some false
      else
        let go := getTypeNonSyncImpl fuel (type :: prevTypesStack)
        let tagged : Option Bool :=
          match class_.nonSyncTag with
          | some .true_ => some true
          | some (.nonSyncExpression dependentType) => go dependentType
          | some .none_ => some false
          | none => some false
        tagged.bind fun isTagged =>
          if isTagged || class_.coroutineNonSync then some true
          else (anyOf go class_.parents).bind fun found =>
            if found then some true else anyOf go (class_.fieldsOrder.filterMap id)

/-- `GetTypeNonSync`, with the types of the loop that it reports. -/
def getTypeNonSync (fuel : Nat) (nonSyncExpressionStack : List T) (type : T) :
    Option (Bool × Option (List T)) :=
  match nonSyncExpressionStack.idxOf? type with
  | some loopStart => some (false, some (nonSyncExpressionStack.drop loopStart ++ [type]))
  | none => (getTypeNonSyncImpl kind fuel [] type).map fun result => (result, none)

/-- Whether the property is reported as added in inheritance, for each parent of a class. -/
def checkParents (fuel : Nat) (type : T) : List T → Option (List (T × T))
  | [] => some []
  | parent :: parents =>
    (getTypeNonSync kind fuel [] parent).bind fun result =>
      (checkParents fuel type parents).map fun errors =>
        if result.1 then errors else (type, parent) :: errors

/-- `CheckClassNonSyncTagInheritance`, with the types of `NonSyncTagAdditionInInheritance`. -/
def checkClassNonSyncTagInheritance (fuel : Nat) (type : T) (class_ : ClassInfo T) :
    Option (List (T × T)) :=
  if class_.parents.isEmpty then some []
  else
    (getTypeNonSync kind fuel [] type).bind fun result =>
      if result.1 then checkParents kind fuel type class_.parents else some []

/-- `ReferenceIsConvertibleTo`, `none` if the fuel does not last. -/
def referenceIsConvertibleTo (other : T) : Nat → T → Option Bool
  | 0, _ => none
  | fuel + 1, type =>
    if type = other then some true
    else
      match kind type, kind other with
      | .classType class_, .classType _ =>
        anyOf (fun parent =>
          if parent = other then some true else referenceIsConvertibleTo other fuel parent)
          class_.parents
      | _, _ => some false

inductive Uses : T → T → Prop
  | arrayElement {type elementType : T} : kind type = .array elementType → Uses type elementType
  | tupleElement {type elementType : T} {elementTypes : List T} :
    kind type = .tuple elementTypes → elementType ∈ elementTypes → Uses type elementType
  | tag {type dependentType : T} {class_ : ClassInfo T} : kind type = .classType class_ →
    class_.nonSyncTag = some (.nonSyncExpression dependentType) → Uses type dependentType
  | parent {type parent : T} {class_ : ClassInfo T} : kind type = .classType class_ →
    parent ∈ class_.parents → Uses type parent
  | field {type fieldType : T} {class_ : ClassInfo T} : kind type = .classType class_ →
    some fieldType ∈ class_.fieldsOrder → Uses type fieldType

/-- A class with a true tag, or of a non-sync coroutine. -/
def IsTagged (type : T) : Prop := ∃ class_, kind type = .classType class_ ∧
    (class_.nonSyncTag = some .true_ ∨ class_.coroutineNonSync = true)

def IsNonSync (type : T) : Prop := ∃ other, IsTagged kind other ∧ ReflTransGen (Uses kind) type other

namespace ClassInfo

def dependentTypes (class_ : ClassInfo T) : List T :=
  match class_.nonSyncTag with
  | some (.nonSyncExpression dependentType) => [dependentType]
  | _ => []

def isTagged (class_ : ClassInfo T) : Bool :=
  match class_.nonSyncTag with
  | some .true_ => true
  | _ => class_.coroutineNonSync

end ClassInfo

def successors (type : T) : List T :=
  match kind type with
  | .simple => []
  | .array elementType => [elementType]
  | .tuple elementTypes => elementTypes
  | .classType class_ =>
    class_.dependentTypes ++ (class_.parents ++ class_.fieldsOrder.filterMap id)

def isTagged (type : T) : Bool :=
  match kind type with
  | .classType class_ => class_.isTagged
  | _ => false

omit [DecidableEq T] in
theorem isTagged_iff (t : T) : isTagged kind t = true ↔ IsTagged kind t := by
  unfold isTagged IsTagged
  cases hty : kind t with
  | classType cls =>
    unfold ClassInfo.isTagged
    cases htag : cls.nonSyncTag with
    | none => simp [htag]
    | some tag => cases tag <;> simp [htag]
  | _ => simp

omit [DecidableEq T] in
theorem mem_successors (type other : T) : other ∈ successors kind type ↔ Uses kind type other := by
  unfold successors
  constructor
  · intro h
    generalize hty : kind type = k at h ⊢
    cases k with
    | simple =>
      cases h
    | array elementType =>
      rw [mem_singleton.1 h]
      exact .arrayElement hty
    | tuple elementTypes =>
      exact .tupleElement hty h
    | classType class_ =>
      rcases mem_append.1 h with h | h
      · unfold ClassInfo.dependentTypes at h
        split at h
        · rename_i htag
          rw [mem_singleton.1 h]
          exact .tag hty htag
        · cases h
      · rcases mem_append.1 h with h | h
        · exact .parent hty h
        · obtain ⟨field, hfl, heq⟩ := mem_filterMap.1 h
          cases heq
          exact .field hty hfl
  · intro h
    cases h with
    | arrayElement hty =>
      rw [hty]
      exact mem_singleton.2 rfl
    | tupleElement hty hmem =>
      rw [hty]
      exact hmem
    | @tag class_ hty htag =>
      have hdep : class_.dependentTypes = [other] := by rw [ClassInfo.dependentTypes, htag]
      rw [hty]
      apply mem_append_left
      rw [hdep]
      exact mem_cons_self
    | parent hty hmem =>
      rw [hty]
      exact mem_append_right _ (mem_append_left _ hmem)
    | field hty hmem =>
      rw [hty]
      exact mem_append_right _ (mem_append_right _ (mem_filterMap.2 ⟨_, hmem, rfl⟩))

theorem getTypeNonSyncImpl_eq : ∀ fuel stack t, getTypeNonSyncImpl kind fuel stack t =
    pathSearch (successors kind) (isTagged kind) fuel stack t := by
  intro fuel
  induction fuel with
  | zero => exact fun _ _ => rfl
  | succ fuel ih =>
    intro stack t
    have hgo : getTypeNonSyncImpl kind fuel (t :: stack) =
        pathSearch (successors kind) (isTagged kind) fuel (t :: stack) :=
      funext fun other => ih (t :: stack) other
    rw [getTypeNonSyncImpl, pathSearch, hgo]
    cases hty : kind t with
    | simple =>
      have hsuc : successors kind t = [] := by rw [successors, hty]
      have htagg : isTagged kind t = false := by rw [isTagged, hty]
      rw [hsuc, htagg, anyOf]
      simp
    | array elTy =>
      have hsuc : successors kind t = [elTy] := by rw [successors, hty]
      have htagg : isTagged kind t = false := by rw [isTagged, hty]
      rw [hsuc, htagg, anyOf_singleton]
      simp
    | tuple elTs =>
      have hsuc : successors kind t = elTs := by rw [successors, hty]
      have htagg : isTagged kind t = false := by rw [isTagged, hty]
      rw [hsuc, htagg]
      simp
    | classType cls =>
      have hsuc : successors kind t =
          cls.dependentTypes ++ (cls.parents ++ cls.fieldsOrder.filterMap id) := by
        rw [successors, hty]
      have htagg : isTagged kind t = cls.isTagged := by rw [isTagged, hty]
      rw [hsuc, htagg, anyOf_append, anyOf_append]
      by_cases hstk : t ∈ stack
      · simp only [hstk, if_true]
      · simp only [hstk]
        cases htag : cls.nonSyncTag with
        | none =>
          have hdep : cls.dependentTypes = [] := by rw [ClassInfo.dependentTypes, htag]
          have hcl : cls.isTagged = cls.coroutineNonSync := by
            rw [ClassInfo.isTagged, htag]
          rw [hdep, hcl]
          cases cls.coroutineNonSync <;> rfl
        | some tag =>
          have hcor : cls.coroutineNonSync = false := by
            cases hflag : cls.coroutineNonSync with
            | false => rfl
            | true =>
              rw [cls.tag_of_coroutine hflag] at htag
              cases htag
          rw [hcor]
          cases tag with
          | none_ =>
            have hdep : cls.dependentTypes = [] := by rw [ClassInfo.dependentTypes, htag]
            have hcl : cls.isTagged = false := by
              rw [ClassInfo.isTagged, htag]
              exact hcor
            rw [hdep, hcl]
            rfl
          | true_ =>
            have hcl : cls.isTagged = true := by rw [ClassInfo.isTagged, htag]
            rw [hcl]
            rfl
          | nonSyncExpression dependentTy =>
            have hdep : cls.dependentTypes = [dependentTy] := by
              rw [ClassInfo.dependentTypes, htag]
            have hcl : cls.isTagged = false := by
              rw [ClassInfo.isTagged, htag]
              exact hcor
            rw [hdep, hcl, anyOf_singleton]
            show (pathSearch (successors kind) (isTagged kind) fuel (t :: stack)
              dependentTy).bind _ = _
            cases pathSearch (successors kind) (isTagged kind) fuel (t :: stack) dependentTy with
            | none => rfl
            | some found => cases found <;> rfl

omit [DecidableEq T] in
theorem isNonSync_iff (t : T) : IsNonSync kind t ↔ ∃ other, isTagged kind other = true ∧
    ReflTransGen (fun v w => w ∈ successors kind v) t other := by
  have heq : (fun v w => w ∈ successors kind v) = Uses kind := by
    funext v w
    exact propext (mem_successors kind v w)
  unfold IsNonSync
  simp only [heq, isTagged_iff]

variable {fuel : Nat}

theorem getTypeNonSync_spec [Fintype T] (hf : Fintype.card T < fuel) (t : T) :
    ∃ b, getTypeNonSync kind fuel [] t = some (b, none) ∧ (b = true ↔ IsNonSync kind t) := by
  obtain ⟨b, hb, hiff⟩ := @pathSearch_spec T _ (successors kind) (isTagged kind) Finset.univ
    (fun _ _ w _ => Finset.mem_univ w) fuel t (Finset.mem_univ t) hf
  refine ⟨b, ?_, hiff.trans (isNonSync_iff kind t).symm⟩
  show (getTypeNonSyncImpl kind fuel [] t).map _ = _
  rw [getTypeNonSyncImpl_eq, hb]
  rfl

variable [Fintype T]

theorem checkParents_spec (hf : Fintype.card T < fuel) (t : T)
    (ps : List T) : ∃ errs, checkParents kind fuel t ps = some errs ∧
      (errs = [] ↔ ∀ p ∈ ps, IsNonSync kind p) := by
  induction ps with
  | nil => exact ⟨[], rfl, nofun, fun _ => rfl⟩
  | cons p ps ih =>
    obtain ⟨errs, herrs, hiff⟩ := ih
    obtain ⟨b, hb, hnonSy⟩ := getTypeNonSync_spec kind hf p
    rw [checkParents, hb, herrs, forall_mem_cons, ← hnonSy]
    cases b with
    | true => exact ⟨errs, rfl, by rw [hiff]; simp⟩
    | false => exact ⟨(t, p) :: errs, rfl, by simp⟩

theorem checkClassNonSyncTagInheritance_spec (hf : Fintype.card T < fuel)
    {t : T} {cls : ClassInfo T} (h : checkClassNonSyncTagInheritance kind fuel t cls =
      some []) (hnonSy : IsNonSync kind t) :
    ∀ p ∈ cls.parents, IsNonSync kind p := by
  unfold checkClassNonSyncTagInheritance at h
  split at h
  · rename_i he
    rw [isEmpty_iff.1 he]
    nofun
  · obtain ⟨b, hb, hiff⟩ := getTypeNonSync_spec kind hf t
    rw [hb, hiff.2 hnonSy] at h
    obtain ⟨errs, herrs, hpars⟩ := checkParents_spec kind hf t cls.parents
    have heq : errs = [] := Option.some.inj (herrs.symm.trans h)
    exact hpars.1 heq

def Accepted (fuel : Nat) : Prop := ∀ type class_, kind type = .classType class_ →
    checkClassNonSyncTagInheritance kind fuel type class_ = some []

theorem isNonSync_of_convertible (hf : Fintype.card T < fuel)
    (hacc : Accepted kind fuel) {other : T} : ∀ {sts : Nat} {t : T},
    referenceIsConvertibleTo kind other sts t = some true → IsNonSync kind t →
      IsNonSync kind other := by
  intro sts
  induction sts with
  | zero =>
    intro t h
    cases h
  | succ sts ih =>
    intro t h hnonSy
    rw [referenceIsConvertibleTo] at h
    split at h
    · rename_i heq
      rw [← heq]
      exact hnonSy
    · split at h
      · rename_i class_ otherClass hty ho
        obtain ⟨p, hpar, hfd⟩ := (anyOf_eq_some h).1 rfl
        have hparNonSy := checkClassNonSyncTagInheritance_spec kind hf
          (hacc t class_ hty) hnonSy p hpar
        split at hfd
        · rename_i heq
          rw [← heq]
          exact hparNonSy
        · exact ih hfd hparNonSy
      · cases h

/-- The search answers reachability, and in an accepted program no conversion of a reference
loses the property. -/
theorem nonSync_reachability {T : Type} [DecidableEq T] [Fintype T] (kind : T → TypeKind T)
    {fuel : Nat} (hfuel : Fintype.card T < fuel) :
    (∀ type, ∃ b, getTypeNonSync kind fuel [] type = some (b, none) ∧
      (b = true ↔ IsNonSync kind type)) ∧
    (Accepted kind fuel → ∀ steps type other,
      referenceIsConvertibleTo kind other steps type = some true →
      getTypeNonSync kind fuel [] type = some (true, none) →
      getTypeNonSync kind fuel [] other = some (true, none)) := by
  refine ⟨getTypeNonSync_spec kind hfuel, ?_⟩
  intro haccepted steps type other hconvertible hnonSync
  obtain ⟨b, hb, hiff⟩ := getTypeNonSync_spec kind hfuel type
  obtain ⟨c, hc, hother⟩ := getTypeNonSync_spec kind hfuel other
  rw [hb] at hnonSync
  cases hnonSync
  have hreached := isNonSync_of_convertible kind hfuel haccepted hconvertible (hiff.1 rfl)
  rw [hc, hother.2 hreached]

inductive CyclicType where
  | derived | base | tagged
deriving DecidableEq

instance : Fintype CyclicType where
  elems := {.derived, .base, .tagged}
  complete type := by cases type <;> decide

/-- A class with a parent and a field of its own type.  The parent asks for a tagged class and
refers back. -/
def cyclicKind : CyclicType → TypeKind CyclicType
  | .derived => .classType ⟨none, false, [.base], [none, some .derived], by decide⟩
  | .base => .classType ⟨some (.nonSyncExpression .tagged), false, [], [some .derived], by decide⟩
  | .tagged => .classType ⟨some .true_, false, [], [], by decide⟩

theorem accepted_cyclicKind : Accepted cyclicKind 4 := by
  intro t class_ h
  cases t <;> cases h <;> rfl

theorem nonSync_reachability_cyclic :
    (∃ b, getTypeNonSync cyclicKind 4 [] .derived = some (b, none) ∧
      (b = true ↔ IsNonSync cyclicKind .derived)) ∧
    getTypeNonSync cyclicKind 4 [] .base = some (true, none) := by
  have h := nonSync_reachability cyclicKind (show Fintype.card CyclicType < 4 by decide)
  exact ⟨h.1 .derived, h.2 accepted_cyclicKind 2 .derived .base rfl rfl⟩

end USprache.CodeBuilder.NonSync
