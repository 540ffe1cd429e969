import USprache.CodeBuilder.TypesWithArgs
import USprache.Library.TableSearch

/-!
# Conversions of function pointers

A pointer may be stored as one to a function that promises less: its result may be weakened to
an immutable reference, its parameters may be strengthened to mutable ones, and it may return and
link more references than the function does.
-/

namespace USprache.CodeBuilder

open Library List

namespace ParamReference

/-- `operator<` of `std::pair`. -/
def lt (a b : ParamReference) : Prop :=
  a.first < b.first ∨ ¬ b.first < a.first ∧ a.second < b.second

instance : DecidableRel lt := fun a b =>
  inferInstanceAs (Decidable (a.first < b.first ∨ ¬ b.first < a.first ∧ a.second < b.second))

theorem lt_iff (a b : ParamReference) : a.lt b ↔ a.first.toNat < b.first.toNat ∨
    ¬ b.first.toNat < a.first.toNat ∧ a.second.toNat < b.second.toNat := by
  rw [lt, UInt8.lt_iff_toNat_lt, UInt8.lt_iff_toNat_lt, UInt8.lt_iff_toNat_lt]

theorem ext_toNat {a b : ParamReference} (hfst : a.first.toNat = b.first.toNat)
    (hsnd : a.second.toNat = b.second.toNat) : a = b := by
  show ParamReference.mk a.first a.second = ⟨b.first, b.second⟩
  rw [UInt8.toNat_inj.1 hfst, UInt8.toNat_inj.1 hsnd]

instance : IsStrictTotalOrder ParamReference lt where
  trichotomous a b hab hba := by
    rw [lt_iff] at hab hba
    exact ext_toNat (by omega) (by omega)
  irrefl a := by
    rw [lt_iff]
    omega
  trans a b c := by
    rw [lt_iff, lt_iff, lt_iff]
    omega

end ParamReference

namespace ReferencePollution

/-- `ReferencePollution::operator<`. -/
def lt (a b : ReferencePollution) : Prop :=
  if a.dst ≠ b.dst then a.dst.lt b.dst else a.src.lt b.src

instance : DecidableRel lt := fun a b =>
  inferInstanceAs (Decidable (if a.dst ≠ b.dst then a.dst.lt b.dst else a.src.lt b.src))

theorem lt_iff (a b : ReferencePollution) :
    a.lt b ↔ a.dst.lt b.dst ∨ a.dst = b.dst ∧ a.src.lt b.src := by
  unfold lt
  by_cases heq : a.dst = b.dst
  · rw [if_neg (not_not_intro heq), heq]
    constructor
    · exact fun h => .inr ⟨rfl, h⟩
    · rintro (h | h)
      · exact absurd h (irrefl_of _ _)
      · exact h.2
  · rw [if_pos heq]
    constructor
    · exact .inl
    · rintro (h | h)
      · exact h
      · exact absurd h.1 heq

instance : IsStrictTotalOrder ReferencePollution lt where
  trichotomous a b hab hba := by
    rw [lt_iff, not_or] at hab hba
    have hdst : a.dst = b.dst := Std.Trichotomous.trichotomous _ _ hab.1 hba.1
    have hsrc : a.src = b.src := Std.Trichotomous.trichotomous _ _
      (fun h => hab.2 ⟨hdst, h⟩) (fun h => hba.2 ⟨hdst.symm, h⟩)
    show ReferencePollution.mk a.dst a.src = ⟨b.dst, b.src⟩
    rw [hdst, hsrc]
  irrefl a := by
    rw [lt_iff]
    rintro (h | h)
    · exact irrefl_of _ _ h
    · exact irrefl_of _ _ h.2
  trans a b c := by
    rw [lt_iff, lt_iff, lt_iff]
    rintro (hab | ⟨hab, hsrc⟩) (hbc | ⟨hbc, hsrc'⟩)
    · exact .inl (trans_of _ hab hbc)
    · exact .inl (hbc ▸ hab)
    · exact .inl (hab.symm ▸ hbc)
    · exact .inr ⟨hab.trans hbc, trans_of _ hsrc hsrc'⟩

end ReferencePollution

namespace WithArgs

variable (src dst : FunctionParam)

/-- The checks of a parameter and the one at the same place. -/
def paramCanBeConvertedTo : Bool :=
  if src.type ≠ dst.type then false
  -- Disable conversion for reference and value args.
  else if decide (src.valueType = .value) != decide (dst.valueType = .value) then false
  else if src.valueType = .referenceMut ∧ dst.valueType = .referenceImut then false
  else true

def FunctionType.pointerCanBeConvertedTo (src dst : FunctionType) : Bool :=
  if src.returned.type ≠ dst.returned.type then false
  else if decide (src.returned.valueType = .value) != decide (dst.returned.valueType = .value) then
    false
  else if src.returned.valueType = .referenceImut ∧ dst.returned.valueType = .referenceMut then
    false
  else if src.params.length ≠ dst.params.length then false
  else if !(src.params.zip dst.params).all fun param => paramCanBeConvertedTo param.1 param.2 then
    false
  else if !src.returnReferences.all fun srcReference =>
      dst.returnReferences.any fun dstReference => dstReference = srcReference then
    false
  else if src.returnInnerReferences ≠ dst.returnInnerReferences then false
  else if !src.referencesPollution.all
      (binarySearch ReferencePollution.lt dst.referencesPollution) then
    false
  else if src.isUnsafe && !dst.isUnsafe then false
  else if src.callingConvention ≠ dst.callingConvention then false
  else true

/-- The same kind of value, or a mutable reference that is taken for an immutable one. -/
def Weakens (src dst : ValueType) : Prop := src = dst ∨ src = .referenceMut ∧ dst = .referenceImut

theorem Weakens.trans {a b c : ValueType} (hab : Weakens a b) (hbc : Weakens b c) :
    Weakens a c := by
  unfold Weakens at *
  cases a <;> cases b <;> cases c <;> simp_all

theorem Weakens.antisymm {a b : ValueType} (hab : Weakens a b) (hba : Weakens b a) : a = b := by
  unfold Weakens at *
  cases a <;> cases b <;> simp_all

theorem weakens_iff (src dst : ValueType) :
    Weakens src dst ↔ decide (src = .value) = decide (dst = .value) ∧
      ¬ (src = .referenceImut ∧ dst = .referenceMut) := by
  unfold Weakens
  cases src <;> cases dst <;> simp

theorem check_iff {c : Prop} [Decidable c] {r : Bool} :
    (if c then false else r) = true ↔ ¬ c ∧ r = true := by
  by_cases h : c <;> simp

structure ParamConverts : Prop where
  type : src.type = dst.type
  valueType : Weakens dst.valueType src.valueType

theorem paramCanBeConvertedTo_iff :
    paramCanBeConvertedTo src dst = true ↔ ParamConverts src dst := by
  have hv := weakens_iff dst.valueType src.valueType
  unfold paramCanBeConvertedTo
  rw [check_iff, check_iff, check_iff, not_not, Bool.not_eq_true, bne_eq_false_iff_eq]
  constructor
  · rintro ⟨hty, hk, hmut, -⟩
    exact ⟨hty, hv.2 ⟨hk.symm, fun hnot => hmut hnot.symm⟩⟩
  · rintro ⟨hty, hwea⟩
    obtain ⟨hk, hmut⟩ := hv.1 hwea
    exact ⟨hty, hk.symm, fun hnot => hmut hnot.symm, rfl⟩

structure Converts (src dst : FunctionType) : Prop where
  returnType : src.returned.type = dst.returned.type
  returnValueType : Weakens src.returned.valueType dst.returned.valueType
  params : Forall₂ ParamConverts src.params dst.params
  returnReferences : src.returnReferences ⊆ dst.returnReferences
  returnInnerReferences : src.returnInnerReferences = dst.returnInnerReferences
  referencesPollution : src.referencesPollution ⊆ dst.referencesPollution
  isUnsafe : src.isUnsafe = true → dst.isUnsafe = true
  callingConvention : src.callingConvention = dst.callingConvention

theorem params_iff (src dst : List FunctionParam) : Forall₂ ParamConverts src dst ↔
    src.length = dst.length ∧
      (src.zip dst).all (fun pair => paramCanBeConvertedTo pair.1 pair.2) = true := by
  rw [forall₂_iff_zip, all_eq_true]
  constructor
  · rintro ⟨hlen, hps⟩
    refine ⟨hlen, fun pair hmem => ?_⟩
    exact (paramCanBeConvertedTo_iff _ _).2 (hps hmem)
  · rintro ⟨hlen, hps⟩
    refine ⟨hlen, fun hmem => ?_⟩
    exact (paramCanBeConvertedTo_iff _ _).1 (hps _ hmem)

theorem references_iff (src dst : List ParamReference) :
    (src.all fun srcRef => dst.any fun dstRef => dstRef = srcRef) = true ↔ src ⊆ dst := by
  simp only [all_eq_true, any_eq_true, decide_eq_true_eq, exists_eq_right]
  rfl

theorem pollution_iff (src : List ReferencePollution) {dst : List ReferencePollution}
    (hsrt : dst.Pairwise ReferencePollution.lt) :
    src.all (binarySearch ReferencePollution.lt dst) = true ↔ src ⊆ dst := by
  simp only [all_eq_true, binarySearch_iff hsrt]
  rfl

theorem pointerCanBeConvertedTo_iff (src : FunctionType) {dst : FunctionType}
    (hsrt : dst.referencesPollution.Pairwise ReferencePollution.lt) :
    src.pointerCanBeConvertedTo dst = true ↔ Converts src dst := by
  have hres := weakens_iff src.returned.valueType dst.returned.valueType
  have hps := params_iff src.params dst.params
  have hrefs := references_iff src.returnReferences dst.returnReferences
  have hpol := pollution_iff src.referencesPollution hsrt
  have hall : src.pointerCanBeConvertedTo dst = true ↔ src.returned.type = dst.returned.type ∧
      decide (src.returned.valueType = .value) = decide (dst.returned.valueType = .value) ∧
      ¬ (src.returned.valueType = .referenceImut ∧ dst.returned.valueType = .referenceMut) ∧
      src.params.length = dst.params.length ∧
      (src.params.zip dst.params).all (fun pair => paramCanBeConvertedTo pair.1 pair.2) = true ∧
      (src.returnReferences.all fun srcRef =>
        dst.returnReferences.any fun dstRef => dstRef = srcRef) = true ∧
      src.returnInnerReferences = dst.returnInnerReferences ∧
      src.referencesPollution.all
        (binarySearch ReferencePollution.lt dst.referencesPollution) = true ∧
      (src.isUnsafe = true → dst.isUnsafe = true) ∧
      src.callingConvention = dst.callingConvention := by
    have huns : ¬ (src.isUnsafe && !dst.isUnsafe) = true ↔
        (src.isUnsafe = true → dst.isUnsafe = true) := by
      cases src.isUnsafe <;> cases dst.isUnsafe <;> decide
    unfold FunctionType.pointerCanBeConvertedTo
    simp only [check_iff, huns, not_not, Bool.not_eq_true', Bool.not_eq_true, bne_eq_false_iff_eq,
      Bool.not_eq_false, and_true]
  rw [hall, hrefs, hpol]
  constructor
  · rintro ⟨hty, hk, hmut, hlen, hzip, hrefs, hin, hpol, huns, hcon⟩
    exact ⟨hty, hres.2 ⟨hk, hmut⟩, hps.2 ⟨hlen, hzip⟩, hrefs, hin, hpol, huns, hcon⟩
  · intro h
    exact ⟨h.returnType, (hres.1 h.returnValueType).1, (hres.1 h.returnValueType).2,
      (hps.1 h.params).1, (hps.1 h.params).2, h.returnReferences,
      h.returnInnerReferences, h.referencesPollution, h.isUnsafe, h.callingConvention⟩

theorem ParamConverts.refl (pair : FunctionParam) : ParamConverts pair pair := ⟨rfl, .inl rfl⟩

variable {a b : FunctionParam}

theorem ParamConverts.trans {c : FunctionParam} (hab : ParamConverts a b)
    (hbc : ParamConverts b c) : ParamConverts a c :=
  ⟨hab.type.trans hbc.type, hbc.valueType.trans hab.valueType⟩

theorem FunctionParam.ext (hty : a.type = b.type)
    (hvTy : a.valueType = b.valueType) : a = b := by
  cases a
  cases b
  exact congrArg₂ FunctionParam.mk hty hvTy

theorem ParamConverts.antisymm (hab : ParamConverts a b)
    (hba : ParamConverts b a) : a = b :=
  FunctionParam.ext hab.type (hba.valueType.antisymm hab.valueType)

theorem params_trans {as bs cs : List FunctionParam} (hab : Forall₂ ParamConverts as bs)
    (hbc : Forall₂ ParamConverts bs cs) : Forall₂ ParamConverts as cs := by
  induction hab generalizing cs with
  | nil => exact hbc
  | cons hhd _ ih =>
    cases hbc with
    | cons hhd' htl' => exact .cons (hhd.trans hhd') (ih htl')

theorem params_antisymm {as bs : List FunctionParam} (hab : Forall₂ ParamConverts as bs)
    (hba : Forall₂ ParamConverts bs as) : as = bs := by
  induction hab with
  | nil => rfl
  | cons hhd _ ih =>
    cases hba with
    | cons hhd' htl' => rw [hhd.antisymm hhd', ih htl']

theorem Converts.refl (f : FunctionType) : Converts f f where
  returnType := rfl
  returnValueType := .inl rfl
  params := forall₂_same.2 fun pair _ => .refl pair
  returnReferences := Subset.refl _
  returnInnerReferences := rfl
  referencesPollution := Subset.refl _
  isUnsafe := id
  callingConvention := rfl

theorem Converts.trans {f g h : FunctionType} (hfg : Converts f g) (hgh : Converts g h) :
    Converts f h where
  returnType := hfg.returnType.trans hgh.returnType
  returnValueType := hfg.returnValueType.trans hgh.returnValueType
  params := params_trans hfg.params hgh.params
  returnReferences := List.Subset.trans hfg.returnReferences hgh.returnReferences
  returnInnerReferences := hfg.returnInnerReferences.trans hgh.returnInnerReferences
  referencesPollution := List.Subset.trans hfg.referencesPollution hgh.referencesPollution
  isUnsafe := fun huns => hgh.isUnsafe (hfg.isUnsafe huns)
  callingConvention := hfg.callingConvention.trans hgh.callingConvention

/-- A function type as it is built, with its lists in order and without repetitions. -/
structure SortedFunctionType where
  type : FunctionType
  returnReferences_sorted : type.returnReferences.Pairwise ParamReference.lt
  referencesPollution_sorted : type.referencesPollution.Pairwise ReferencePollution.lt

theorem FunctionType.ext {f g : FunctionType} (hps : f.params = g.params)
    (hretd : f.returned = g.returned) (hunsTy : f.isUnsafe = g.isUnsafe)
    (hcon : f.callingConvention = g.callingConvention)
    (hrefs : f.returnReferences = g.returnReferences)
    (hin : f.returnInnerReferences = g.returnInnerReferences)
    (hpol : f.referencesPollution = g.referencesPollution) : f = g := by
  cases f with
  | mk params ret isUn convention refs inner pollution =>
    change params = _ at hps
    change ret = _ at hretd
    change isUn = _ at hunsTy
    change convention = _ at hcon
    change refs = _ at hrefs
    change inner = _ at hin
    change pollution = _ at hpol
    rw [hps, hretd, hunsTy, hcon, hrefs, hin, hpol]
    cases g
    rfl

theorem Converts.antisymm {f g : SortedFunctionType} (hfg : Converts f.type g.type)
    (hgf : Converts g.type f.type) : f.type = g.type := by
  have hretd : f.type.returned = g.type.returned :=
    FunctionParam.ext hfg.returnType (hfg.returnValueType.antisymm hgf.returnValueType)
  have hretRefs : f.type.returnReferences = g.type.returnReferences :=
    f.returnReferences_sorted.eq_of_mem_iff g.returnReferences_sorted fun _ =>
      ⟨fun h => hfg.returnReferences h, fun h => hgf.returnReferences h⟩
  have hpol : f.type.referencesPollution = g.type.referencesPollution :=
    f.referencesPollution_sorted.eq_of_mem_iff g.referencesPollution_sorted fun _ =>
      ⟨fun h => hfg.referencesPollution h, fun h => hgf.referencesPollution h⟩
  have hunsTy : f.type.isUnsafe = g.type.isUnsafe :=
    Bool.eq_iff_iff.2 ⟨hfg.isUnsafe, hgf.isUnsafe⟩
  exact FunctionType.ext (params_antisymm hfg.params hgf.params) hretd hunsTy
    hfg.callingConvention hretRefs hfg.returnInnerReferences hpol

/-- What the type of a called function promises, and a pointer to it must not lose. -/
structure KeepsObligations (src dst : FunctionType) : Prop where
  returnReferences : ∀ reference ∈ src.returnReferences, reference ∈ dst.returnReferences
  referencesPollution : ∀ pollution ∈ src.referencesPollution, pollution ∈ dst.referencesPollution
  isUnsafe : src.isUnsafe = true → dst.isUnsafe = true
  result : src.returned.valueType = .referenceImut → dst.returned.valueType ≠ .referenceMut
  params : ∀ (i : Nat) (srcParam dstParam : FunctionParam), src.params[i]? = some srcParam →
    dst.params[i]? = some dstParam → srcParam.valueType = .referenceMut →
    dstParam.valueType ≠ .referenceImut

theorem Converts.keepsObligations {src dst : FunctionType} (h : Converts src dst) :
    KeepsObligations src dst where
  returnReferences _ hmem := h.returnReferences hmem
  referencesPollution _ hmem := h.referencesPollution hmem
  isUnsafe := h.isUnsafe
  result hsrc hdst := ((weakens_iff _ _).1 h.returnValueType).2 ⟨hsrc, hdst⟩
  params i srcParam dstParam hsrc hdst hmut himut := by
    have hcvs : ParamConverts srcParam dstParam := (forall₂_iff_zip.1 h.params).2
        (mem_of_getElem? (getElem?_zip_eq_some.2 ⟨hsrc, hdst⟩))
    exact ((weakens_iff _ _).1 hcvs.valueType).2 ⟨himut, hmut⟩

/-- The conversion is a partial order on the types that are built, and keeps what they promise. -/
theorem pointerCanBeConvertedTo_partialOrder :
    (∀ f : SortedFunctionType, f.type.pointerCanBeConvertedTo f.type = true) ∧
    (∀ f g h : SortedFunctionType, f.type.pointerCanBeConvertedTo g.type = true →
      g.type.pointerCanBeConvertedTo h.type = true →
      f.type.pointerCanBeConvertedTo h.type = true) ∧
    (∀ f g : SortedFunctionType, f.type.pointerCanBeConvertedTo g.type = true →
      g.type.pointerCanBeConvertedTo f.type = true → FunctionType.beq f.type g.type = true) ∧
    (∀ src dst : SortedFunctionType, src.type.pointerCanBeConvertedTo dst.type = true →
      KeepsObligations src.type dst.type) := by
  have hconverts : ∀ f g : SortedFunctionType,
      f.type.pointerCanBeConvertedTo g.type = true ↔ Converts f.type g.type :=
    fun f g => pointerCanBeConvertedTo_iff f.type g.referencesPollution_sorted
  refine ⟨?_, ?_, ?_, ?_⟩
  · intro f
    rw [hconverts]
    exact .refl f.type
  · intro f g h hfg hgh
    rw [hconverts] at hfg hgh ⊢
    exact hfg.trans hgh
  · intro f g hfg hgf
    rw [hconverts] at hfg hgf
    rw [FunctionType.beq_iff]
    exact hfg.antisymm hgf
  · intro src dst h
    rw [hconverts] at h
    exact h.keepsObligations

def returnsFirst : SortedFunctionType where
  type := .mk [.mk (.fundamental .i32_) .referenceImut, .mk (.fundamental .i32_) .referenceImut]
    (.mk (.fundamental .i32_) .referenceMut) false .default_ [⟨0, 255⟩] [] []
  returnReferences_sorted := by decide
  referencesPollution_sorted := by decide

/-- An unsafe function that may return and link both of them. -/
def linksBoth : SortedFunctionType where
  type := .mk [.mk (.fundamental .i32_) .referenceMut, .mk (.fundamental .i32_) .referenceImut]
    (.mk (.fundamental .i32_) .referenceImut) true .default_ [⟨0, 255⟩, ⟨1, 255⟩] []
    [⟨⟨0, 0⟩, ⟨1, 255⟩⟩, ⟨⟨1, 0⟩, ⟨0, 255⟩⟩]
  returnReferences_sorted := by decide
  referencesPollution_sorted := by decide

theorem returnsFirst_converts : Converts returnsFirst.type linksBoth.type where
  returnType := rfl
  returnValueType := .inr ⟨rfl, rfl⟩
  params := .cons ⟨rfl, .inr ⟨rfl, rfl⟩⟩ (.cons (.refl _) .nil)
  returnReferences := cons_subset_cons _ (nil_subset _)
  returnInnerReferences := rfl
  referencesPollution := nil_subset _
  isUnsafe := fun _ => rfl
  callingConvention := rfl

theorem pointerCanBeConvertedTo_partialOrder_linksBoth :
    KeepsObligations returnsFirst.type linksBoth.type :=
  pointerCanBeConvertedTo_partialOrder.2.2.2 returnsFirst linksBoth
    ((pointerCanBeConvertedTo_iff _ linksBoth.referencesPollution_sorted).2
      returnsFirst_converts)

end WithArgs
end USprache.CodeBuilder
