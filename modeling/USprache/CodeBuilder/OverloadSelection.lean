import USprache.CodeBuilder.OverloadingResolution
import USprache.Library.PositionwiseSelection

/-!
# Selection of overloaded functions

For each argument the functions are in a preorder, and the flags of `SelectOverloadedFunction`
are those of a selection by positions.
-/

namespace USprache.CodeBuilder.WithArgs.OverloadingResolution

open ConversionsCompareResult Library List Bool

section Order

variable (program : CallArguments.Program)

def typeAtLeast (src dstLeft dstRight : LangType) : Bool :=
  decide (dstLeft = dstRight) || decide (src = dstLeft) ||
    (decide (src ≠ dstRight) && program.referenceIsConvertible src dstLeft &&
      (!program.referenceIsConvertible src dstRight ||
        program.referenceIsConvertible dstLeft dstRight))

def mutabilityAtLeast (dstLeft dstRight : FunctionParam) : Bool :=
  decide (getArgOverloadingClass dstLeft = .mutalbeReference) ||
    decide (getArgOverloadingClass dstRight = .immutableReference)

variable {program}

theorem compareConversionsTypes_eq (src dstL dstR : LangType) :
    compareConversionsTypes program src dstL dstR = resultOf (typeAtLeast program src dstL dstR)
        (typeAtLeast program src dstR dstL) := by
  unfold compareConversionsTypes typeAtLeast
  by_cases heq : dstL = dstR
  · simp [heq, resultOf]
  · have hne : ¬ dstR = dstL := fun h => heq h.symm
    by_cases hleft : src = dstL
    · simp [hleft, heq, hne, resultOf]
    · by_cases hright : src = dstR
      · simp [hright, heq, hne, resultOf]
      · have hboth : ¬ (program.referenceIsConvertible dstL dstR = true ∧
            program.referenceIsConvertible dstR dstL = true) :=
          fun h => heq (referenceIsConvertible_antisymm h.1 h.2)
        cases hl : program.referenceIsConvertible src dstL <;>
          cases hr : program.referenceIsConvertible src dstR <;>
          cases hlr : program.referenceIsConvertible dstL dstR <;>
          cases hrl : program.referenceIsConvertible dstR dstL <;>
          simp_all [resultOf]

variable (dstL dstR : FunctionParam)

theorem compareConversionsMutability_eq :
    compareConversionsMutability dstL dstR =
      resultOf (mutabilityAtLeast dstL dstR) (mutabilityAtLeast dstR dstL) := by
  unfold compareConversionsMutability mutabilityAtLeast
  cases getArgOverloadingClass dstL <;> cases getArgOverloadingClass dstR <;> rfl

variable (src : FunctionParam)

theorem compareParamConversions_combine :
    compareParamConversions program src dstL dstR =
      combine (compareConversionsTypes program src.type dstL.type dstR.type)
        (compareConversionsMutability dstL dstR) := by
  unfold compareParamConversions
  cases compareConversionsTypes program src.type dstL.type dstR.type <;>
    cases compareConversionsMutability dstL dstR <;> rfl

variable (program) in
def paramAtLeast (src dstLeft dstRight : FunctionParam) : Bool :=
  typeAtLeast program src.type dstLeft.type dstRight.type && mutabilityAtLeast dstLeft dstRight

theorem compareParamConversions_eq :
    compareParamConversions program src dstL dstR = resultOf (paramAtLeast program src dstL dstR)
        (paramAtLeast program src dstR dstL) := by
  rw [compareParamConversions_combine, compareConversionsTypes_eq, compareConversionsMutability_eq,
    combine_resultOf]
  rfl

variable (program) in
/-- With equally good conversions, the template signatures decide. -/
def conversionAtLeast (src : FunctionParam) (left right : FunctionParam × SignatureParam) : Bool :=
  paramAtLeast program src left.1 right.1 &&
    (!paramAtLeast program src right.1 left.1 || specializes true left.2 right.2)

theorem leftHolds_compareConversions (l r : FunctionParam × SignatureParam) :
    (compareConversions program src l.1 r.1 l.2 r.2).leftHolds =
      conversionAtLeast program src l r := by
  unfold compareConversions conversionAtLeast
  rw [compareParamConversions_eq]
  cases paramAtLeast program src l.1 r.1 <;> cases paramAtLeast program src r.1 l.1
  · rfl
  · rfl
  · rfl
  · exact leftHolds_compare l.2 r.2

/-- What is at least as good is as good if this holds with the sides exchanged, too. -/
theorem compareConversions_eq_same_iff {src : FunctionParam} {l r : FunctionParam × SignatureParam}
    (h : conversionAtLeast program src l r = true) :
    compareConversions program src l.1 r.1 l.2 r.2 = same ↔
      conversionAtLeast program src r l = true := by
  unfold compareConversions
  unfold conversionAtLeast at h ⊢
  rw [compareParamConversions_eq]
  rw [and_eq_true] at h
  rw [h.1]
  cases hbk : paramAtLeast program src r.1 l.1 with
  | false => simp [resultOf]
  | true =>
    have hsp : specializes true l.2 r.2 = true := by simpa [hbk] using h.2
    rw [compare_eq_of_specializes hsp]
    cases specializes true r.2 l.2 <;> simp [resultOf]

theorem typeAtLeast_refl (src t : LangType) : typeAtLeast program src t t = true := by
  simp [typeAtLeast]

theorem typeAtLeast_trans {src l mid r : LangType} (h : typeAtLeast program src l mid = true)
    (h' : typeAtLeast program src mid r = true) :
    typeAtLeast program src l r = true := by
  unfold typeAtLeast at *
  simp only [or_eq_true, and_eq_true, decide_eq_true_eq, not_eq_true'] at h h' ⊢
  rcases h with (rfl | hsrc) | ⟨⟨hne, hl⟩, hmid⟩
  · exact h'
  · exact .inl (.inr hsrc)
  · rcases h' with (rfl | hsrc) | ⟨⟨hne', hl'⟩, hr⟩
    · exact .inr ⟨⟨hne, hl⟩, hmid⟩
    · exact absurd hsrc hne
    · refine .inr ⟨⟨hne', hl⟩, hr.imp_right fun hconv => ?_⟩
      have hfst : program.referenceIsConvertible l mid = true := by
        rcases hmid with hfa | htr
        · rw [hl'] at hfa
          cases hfa
        · exact htr
      exact referenceIsConvertible_trans hfst hconv

theorem mutabilityAtLeast_refl (param : FunctionParam) : mutabilityAtLeast param param = true := by
  unfold mutabilityAtLeast
  cases getArgOverloadingClass param <;> rfl

theorem mutabilityAtLeast_trans {l mid r : FunctionParam}
    (h : mutabilityAtLeast l mid = true) (h' : mutabilityAtLeast mid r = true) :
    mutabilityAtLeast l r = true := by
  unfold mutabilityAtLeast at *
  cases hmid : getArgOverloadingClass mid <;> simp_all

theorem paramAtLeast_refl (param : FunctionParam) : paramAtLeast program src param param = true := by
  rw [paramAtLeast, typeAtLeast_refl, mutabilityAtLeast_refl]
  rfl

theorem paramAtLeast_trans {src l mid r : FunctionParam} (h : paramAtLeast program src l mid = true)
    (h' : paramAtLeast program src mid r = true) :
    paramAtLeast program src l r = true := by
  rw [paramAtLeast, and_eq_true] at *
  exact ⟨typeAtLeast_trans h.1 h'.1, mutabilityAtLeast_trans h.2 h'.2⟩

theorem conversionAtLeast_refl (param : FunctionParam × SignatureParam) :
    conversionAtLeast program src param param = true := by
  rw [conversionAtLeast, paramAtLeast_refl, specializes_refl]
  rfl

theorem conversionAtLeast_trans {src : FunctionParam} {l mid r : FunctionParam × SignatureParam}
    (h : conversionAtLeast program src l mid = true)
    (h' : conversionAtLeast program src mid r = true) :
    conversionAtLeast program src l r = true := by
  unfold conversionAtLeast at *
  simp only [and_eq_true, or_eq_true, not_eq_true'] at h h' ⊢
  refine ⟨paramAtLeast_trans h.1 h'.1, ?_⟩
  cases hbk : paramAtLeast program src r.1 l.1 with
  | false => exact .inl rfl
  | true =>
    -- All three conversions are equally good.
    have hmid : paramAtLeast program src mid.1 l.1 = true := paramAtLeast_trans h'.1 hbk
    have hr : paramAtLeast program src r.1 mid.1 = true := paramAtLeast_trans hbk h.1
    rw [hmid] at h
    rw [hr] at h'
    have hsp := h.2.resolve_left fun hfa => false_ne_true hfa.symm
    have hsp' := h'.2.resolve_left fun hfa => false_ne_true hfa.symm
    exact .inr (specializes_trans _ _ _ hsp hsp')

end Order

theorem foldl_marks {α β : Type} {fs : List α} {st : List Bool → β → List Bool}
    {keeps : β → α → Bool} (hst : ∀ marked b, st (fs.map marked) b =
      fs.map fun f => marked f && keeps b f) (bs : List β) :
    ∀ marked, bs.foldl st (fs.map marked) =
      fs.map fun f => marked f && bs.all fun b => keeps b f := by
  induction bs with
  | nil => simp
  | cons b bs ih =>
    intro marked
    rw [foldl_cons, hst, ih]
    simp only [all_cons, Bool.and_assoc]

theorem zipWith_map_self {α : Type} (f : α → Bool → Bool) (marked : α → Bool)
    (fs : List α) : zipWith f fs (fs.map marked) = fs.map fun fn => f fn (marked fn) := by
  induction fs with
  | nil => rfl
  | cons fn fs ih => rw [map_cons, zipWith_cons_cons, ih, map_cons]

theorem selectFlagged_some (selected : OverloadingResolutionItem)
    (marked : OverloadingResolutionItem → Bool) (fs : List OverloadingResolutionItem) :
    selectFlagged (some selected) (fs.zip (fs.map marked)) =
      if fs.filter marked = [] then some selected else none := by
  induction fs with
  | nil => rfl
  | cons f fs ih =>
    cases hmk : marked f with
    | true => simp [selectFlagged, hmk]
    | false => simp [selectFlagged, hmk, ih]

theorem selectFlagged_none (marked : OverloadingResolutionItem → Bool)
    (fs : List OverloadingResolutionItem) :
    selectFlagged none (fs.zip (fs.map marked)) = Comparisons.onlyOf (fs.filter marked) := by
  induction fs with
  | nil => rfl
  | cons f fs ih =>
    rw [map_cons, zip_cons_cons, filter_cons]
    cases hmk : marked f with
    | true =>
      rw [selectFlagged, selectFlagged_some]
      cases fs.filter marked <;> rfl
    | false =>
      exact ih

section Selection

variable (program : CallArguments.Program) (actualArgs : List FunctionParam)
  (firstActualArgIsThis : Bool)

def paramForArg (argN : Nat) (function_ : OverloadingResolutionItem) :
    FunctionParam × SignatureParam :=
  let paramN := (function_.paramNumber firstActualArgIsThis argN).getD 0
  (function_.getParamExtendedType paramN, function_.getTemplateSignatureParam paramN)

def compareAt (argN : Nat) (functionL functionR : OverloadingResolutionItem) :
    ConversionsCompareResult :=
  let left := paramForArg firstActualArgIsThis argN functionL
  let right := paramForArg firstActualArgIsThis argN functionR
  compareConversions program ((actualArgs[argN]?).getD noParam) left.1 right.1 left.2 right.2

def comparisons : Comparisons OverloadingResolutionItem Nat where
  positions := List.range actualArgs.length
  takesPart argN function_ := (function_.paramNumber firstActualArgIsThis argN).isSome = true
  le argN functionL functionR :=
    (compareAt program actualArgs firstActualArgIsThis argN functionL functionR).leftHolds = true
  refl argN function_ := by
    rw [compareAt, leftHolds_compareConversions]
    exact conversionAtLeast_refl _ _
  trans argN left middle right h h' := by
    rw [compareAt, leftHolds_compareConversions] at *
    exact conversionAtLeast_trans h h'

variable {program actualArgs firstActualArgIsThis} {argN : Nat}
  {functionL functionR : OverloadingResolutionItem}

theorem compareAt_eq_same_iff
    (h : (compareAt program actualArgs firstActualArgIsThis argN functionL functionR).leftHolds = true) :
    compareAt program actualArgs firstActualArgIsThis argN functionL functionR = same ↔
      (compareAt program actualArgs firstActualArgIsThis argN functionR functionL).leftHolds = true := by
  unfold compareAt at *
  rw [leftHolds_compareConversions] at h ⊢
  exact compareConversions_eq_same_iff h

theorem compareForArg_eq {leftN rightN : Nat}
    (hl : functionL.paramNumber firstActualArgIsThis argN = some leftN)
    (hr : functionR.paramNumber firstActualArgIsThis argN = some rightN) :
    compareForArg program actualArgs argN functionL leftN functionR rightN =
      compareAt program actualArgs firstActualArgIsThis argN functionL functionR := by
  unfold compareForArg compareAt paramForArg
  rw [hl, hr]
  rfl

theorem leftHolds_iff {r : ConversionsCompareResult} :
    (decide (r = same) || decide (r = leftIsBetter)) = r.leftHolds := by
  cases r <;> rfl

variable {matchedFs : List OverloadingResolutionItem}

theorem isBestFunctionForCurrentArg_iff {leftN : Nat} (hmem : functionL ∈ matchedFs)
    (hl : functionL.paramNumber firstActualArgIsThis argN = some leftN) :
    isBestFunctionForCurrentArg program actualArgs firstActualArgIsThis matchedFs argN
        functionL leftN = true ↔
      (comparisons program actualArgs firstActualArgIsThis).IsBest matchedFs argN functionL := by
  unfold isBestFunctionForCurrentArg
  rw [all_eq_true]
  constructor
  · intro h
    refine ⟨hmem, by simp [comparisons, hl], fun other ho htk => ?_⟩
    obtain ⟨rightN, hr⟩ := Option.isSome_iff_exists.1 htk
    have hcmp := h other ho
    rw [hr] at hcmp
    dsimp only at hcmp
    rw [leftHolds_iff, compareForArg_eq hl hr] at hcmp
    exact hcmp
  · intro h other ho
    cases hr : other.paramNumber firstActualArgIsThis argN with
    | none => rfl
    | some rightN =>
      dsimp only
      rw [leftHolds_iff, compareForArg_eq hl hr]
      exact h.le other ho (Option.isSome_iff_exists.2 ⟨rightN, hr⟩)

variable (program actualArgs firstActualArgIsThis) in
def keepsFlag (matchedFunctions : List OverloadingResolutionItem) (argN : Nat)
    (functionL function_ : OverloadingResolutionItem) : Bool :=
  match functionL.paramNumber firstActualArgIsThis argN with
  | none => true
  | some lArgN =>
    !isBestFunctionForCurrentArg program actualArgs firstActualArgIsThis matchedFunctions argN
      functionL lArgN ||
      match function_.paramNumber firstActualArgIsThis argN with
      | none => true
      | some rArgN =>
        decide (compareForArg program actualArgs argN functionL lArgN function_ rArgN = same)

theorem checkArg_map (matchedFs : List OverloadingResolutionItem)
    (marked : OverloadingResolutionItem → Bool) (argN : Nat) :
    checkArg program actualArgs firstActualArgIsThis matchedFs (matchedFs.map marked)
      argN = matchedFs.map fun f => marked f &&
        matchedFs.all fun functionL => keepsFlag program actualArgs firstActualArgIsThis
          matchedFs argN functionL f := by
  refine foldl_marks (fun marked functionL => ?_) matchedFs marked
  unfold keepsFlag
  cases functionL.paramNumber firstActualArgIsThis argN with
  | none => simp
  | some leftN =>
    dsimp only
    cases isBestFunctionForCurrentArg program actualArgs firstActualArgIsThis matchedFs argN
      functionL leftN with
    | false => simp
    | true =>
      rw [markWorseFunctions, zipWith_map_self]
      refine map_congr_left fun f _ => ?_
      cases f.paramNumber firstActualArgIsThis argN with
      | none => simp
      | some rightN =>
        by_cases heq : compareForArg program actualArgs argN functionL leftN f rightN = same
        · simp [heq]
        · simp [heq]

theorem keepsFlags_iff {f : OverloadingResolutionItem} (hmem : f ∈ matchedFs) :
    ((List.range actualArgs.length).all fun argN => matchedFs.all fun functionL =>
      keepsFlag program actualArgs firstActualArgIsThis matchedFs argN functionL f) = true ↔
      (comparisons program actualArgs firstActualArgIsThis).Survives matchedFs f := by
  simp only [all_eq_true]
  constructor
  · intro h argN hargN htk best hbe
    obtain ⟨leftN, hl⟩ := Option.isSome_iff_exists.1 hbe.takesPart
    obtain ⟨rightN, hr⟩ := Option.isSome_iff_exists.1 htk
    have hkp := h argN hargN best hbe.mem
    have hisBe := (isBestFunctionForCurrentArg_iff hbe.mem hl).2 hbe
    simp only [keepsFlag, hl, hr, hisBe, Bool.not_true, Bool.false_or,
      decide_eq_true_eq] at hkp
    rw [compareForArg_eq hl hr] at hkp
    exact (compareAt_eq_same_iff (hbe.le f hmem htk)).1 hkp
  · intro h argN hargN functionL hfnL
    unfold keepsFlag
    cases hl : functionL.paramNumber firstActualArgIsThis argN with
    | none => rfl
    | some leftN =>
      cases hr : f.paramNumber firstActualArgIsThis argN with
      | none => simp
      | some rightN =>
        dsimp only
        cases hbe : isBestFunctionForCurrentArg program actualArgs firstActualArgIsThis
          matchedFs argN functionL leftN with
        | false => rfl
        | true =>
          have hisBe := (isBestFunctionForCurrentArg_iff hfnL hl).1 hbe
          have htk : (comparisons program actualArgs firstActualArgIsThis).takesPart argN
            f := Option.isSome_iff_exists.2 ⟨rightN, hr⟩
          rw [compareForArg_eq hl hr]
          refine decide_eq_true ((compareAt_eq_same_iff (hisBe.le f hmem htk)).2 ?_)
          exact h argN hargN htk functionL hisBe

end Selection

open Classical in
/-- The only function that is not worse than a best one for any argument is selected. -/
theorem selectOverloadedFunction_eq (program : CallArguments.Program)
    (actualArgs : List FunctionParam) (firstActualArgIsThis : Bool)
    (matchedFs : List OverloadingResolutionItem) :
    selectOverloadedFunction program actualArgs firstActualArgIsThis matchedFs =
      (comparisons program actualArgs firstActualArgIsThis).select matchedFs := by
  have hfl : (range actualArgs.length).foldl
      (checkArg program actualArgs firstActualArgIsThis matchedFs)
      (matchedFs.map fun _ => true) = matchedFs.map fun f => true &&
        (range actualArgs.length).all fun argN => matchedFs.all fun functionL =>
          keepsFlag program actualArgs firstActualArgIsThis matchedFs argN functionL f :=
    foldl_marks (fun marked argN => checkArg_map matchedFs marked argN) _ _
  have hfil : matchedFs.filter (fun f => true &&
      (range actualArgs.length).all fun argN => matchedFs.all fun functionL =>
        keepsFlag program actualArgs firstActualArgIsThis matchedFs argN functionL
          f) = matchedFs.filter fun f =>
            decide ((comparisons program actualArgs firstActualArgIsThis).Survives matchedFs
              f) := by
    refine filter_congr fun f hmem => ?_
    rw [Bool.true_and, Bool.eq_iff_iff, keepsFlags_iff hmem, decide_eq_true_eq]
  match matchedFs, hfl, hfil with
  | [f], _, _ =>
    have hsv : (comparisons program actualArgs firstActualArgIsThis).Survives [f] f := by
      intro argN _ _ best hbe
      rw [mem_singleton.1 hbe.mem]
      exact (comparisons program actualArgs firstActualArgIsThis).refl argN f
    simp [selectOverloadedFunction, Comparisons.select, hsv, Comparisons.onlyOf]
  | [], _, _ => rfl
  | first :: second :: functions, hfl, hfil =>
    rw [selectOverloadedFunction]
    · rw [hfl, selectFlagged_none, hfil]
      rfl
    · simp

section Domination

variable {program : CallArguments.Program} {actualArgs : List FunctionParam}
  {firstActualArgIsThis : Bool} {argN : Nat}

theorem not_better_of_isBest {matchedFs : List OverloadingResolutionItem}
    {best other : OverloadingResolutionItem}
    (h : (comparisons program actualArgs firstActualArgIsThis).IsBest matchedFs argN best)
    (ho : other ∈ matchedFs)
    (htk : (other.paramNumber firstActualArgIsThis argN).isSome = true) :
    compareAt program actualArgs firstActualArgIsThis argN other best ≠ leftIsBetter := by
  intro hbet
  have hh : (compareAt program actualArgs firstActualArgIsThis argN other best).leftHolds = true := by
    rw [hbet]
    rfl
  have heq := (compareAt_eq_same_iff hh).2 (h.le other ho htk)
  rw [hbet] at heq
  cases heq

end Domination

open Classical in
/-- Where some function is at least as good as all others for an argument, none of them is better
than the selected one.  The order of the functions does not matter, and a function that is worse
than a best one somewhere, and is nowhere a new best one, does not help in a choice. -/
theorem selection_by_arguments (program : CallArguments.Program) (actualArgs : List FunctionParam)
    (firstActualArgIsThis : Bool) (matchedFunctions : List OverloadingResolutionItem) :
    (∀ selected, selectOverloadedFunction program actualArgs firstActualArgIsThis matchedFunctions =
        some selected → selected ∈ matchedFunctions ∧
      ∀ argN < actualArgs.length, (selected.paramNumber firstActualArgIsThis argN).isSome = true →
        (∃ best, (comparisons program actualArgs firstActualArgIsThis).IsBest matchedFunctions argN
          best) →
        ∀ other ∈ matchedFunctions, (other.paramNumber firstActualArgIsThis argN).isSome = true →
          compareAt program actualArgs firstActualArgIsThis argN other selected ≠ leftIsBetter) ∧
    (∀ others, matchedFunctions.Perm others →
      selectOverloadedFunction program actualArgs firstActualArgIsThis others =
        selectOverloadedFunction program actualArgs firstActualArgIsThis matchedFunctions) ∧
    ∀ added, (comparisons program actualArgs firstActualArgIsThis).AddsNoBest matchedFunctions
        added →
      ¬ (comparisons program actualArgs firstActualArgIsThis).Survives matchedFunctions added →
      selectOverloadedFunction program actualArgs firstActualArgIsThis (added :: matchedFunctions) =
        selectOverloadedFunction program actualArgs firstActualArgIsThis matchedFunctions := by
  refine ⟨fun selected hselected => ?_, fun others hperm => ?_, fun added hadds hadded => ?_⟩
  · rw [selectOverloadedFunction_eq] at hselected
    refine ⟨Comparisons.mem_of_select hselected, fun argN hargN htakes hexists other hother => ?_⟩
    obtain ⟨best, hbest⟩ := hexists
    have hselectedBest := Comparisons.select_isBest hselected (mem_range.2 hargN) htakes hbest
    exact not_better_of_isBest hselectedBest hother
  · rw [selectOverloadedFunction_eq, selectOverloadedFunction_eq]
    exact (Comparisons.select_perm hperm).symm
  · rw [selectOverloadedFunction_eq, selectOverloadedFunction_eq]
    exact hadds.select_cons hadded

open LexSynt CallArguments

/-- `class P interface {}` -/
def parentClass : Class := .declared .root (asciiText "P")

/-- `namespace n { class S interface : P {} }` -/
def derivedClass : Class := .declared (.namespace_ .root (asciiText "n")) (asciiText "S")

/-- The classes in namespaces are derived from the class outside. -/
def parentsOf : Class → List ParentField
  | .declared (.namespace_ _ _) _ => [⟨parentClass, 0⟩]
  | _ => []

def depthOf : Class → Nat
  | .declared (.namespace_ _ _) _ => 1
  | _ => 0

theorem depthOf_parentsOf (cls : Class) (p : ParentField) (h : p ∈ parentsOf cls) :
    depthOf p.class_ < depthOf cls := by
  unfold parentsOf at h
  split at h
  · rw [mem_singleton.1 h]
    exact Nat.zero_lt_one
  · cases h

theorem selected_of_none (_ : Param) (_ : LangType) (h : false = true) :
    ∃ constructor : ConversionConstructor, none = some constructor := by
  cases h

theorem class_of_none (_ : Param) (dst : LangType) (constructor : ConversionConstructor)
    (h : none = some constructor) : dst = .classType constructor.class_ :=
  absurd h.symm (Option.some_ne_none constructor)

def derivedProgram : CallArguments.Program where
  target := .bits64
  info class_ := ⟨.interface, parentsOf class_, false, false, 0⟩
  hasConversionConstructor _ _ := false
  getConversionConstructor _ _ := none
  rank := depthOf
  rank_parent := depthOf_parentsOf
  canBeParent _ _ _ := rfl
  kind_of_constexpr _ h := nomatch h
  selected := selected_of_none
  class_of_selected := class_of_none

def parentParam (valueType : ValueType) : FunctionParam := .mk (.classType parentClass) valueType

def derivedParam (valueType : ValueType) : FunctionParam := .mk (.classType derivedClass) valueType

def functionOf (params : List FunctionParam) : OverloadingResolutionItem :=
  .function ⟨.mk params (.mk invalidType .value) false .default_ [] [] [], false, false, false⟩

/-- For the second argument, what is better than the first function is not comparable with one
more, so for this argument nothing is eliminated. -/
theorem dominated_selected :
    let actualArgs := [derivedParam .referenceImut, derivedParam .referenceMut]
    let exact_ := functionOf [derivedParam .referenceImut, parentParam .referenceImut]
    let mutable_ := functionOf [parentParam .referenceImut, parentParam .referenceMut]
    let derived := functionOf [parentParam .referenceImut, derivedParam .referenceImut]
    selectOverloadedFunction derivedProgram actualArgs false [exact_, mutable_] = none ∧
      selectOverloadedFunction derivedProgram actualArgs false [derived, exact_, mutable_] =
        some exact_ ∧
      compareAt derivedProgram actualArgs false 1 mutable_ exact_ = leftIsBetter ∧
      compareAt derivedProgram actualArgs false 1 derived exact_ = leftIsBetter ∧
      compareAt derivedProgram actualArgs false 0 derived exact_ = rightIsBetter := by
  refine ⟨?_, ?_, ?_, ?_, ?_⟩
  · have hflags : (range 2).foldl (checkArg derivedProgram
        [derivedParam .referenceImut, derivedParam .referenceMut] false
        [functionOf [derivedParam .referenceImut, parentParam .referenceImut],
          functionOf [parentParam .referenceImut, parentParam .referenceMut]]) [true, true] =
        [false, false] := by decide +kernel
    exact congrArg (fun flags => selectFlagged none (zip _ flags)) hflags
  · have hflags : (range 2).foldl (checkArg derivedProgram
        [derivedParam .referenceImut, derivedParam .referenceMut] false
        [functionOf [parentParam .referenceImut, derivedParam .referenceImut],
          functionOf [derivedParam .referenceImut, parentParam .referenceImut],
          functionOf [parentParam .referenceImut, parentParam .referenceMut]]) [true, true, true] =
        [false, true, false] := by decide +kernel
    exact congrArg (fun flags => selectFlagged none (zip _ flags)) hflags
  · decide +kernel
  · decide +kernel
  · decide +kernel

theorem selection_by_arguments_derived :
    let actualArgs := [derivedParam .referenceImut, derivedParam .referenceImut]
    let exact_ := functionOf [derivedParam .referenceImut, derivedParam .referenceImut]
    let first := functionOf [derivedParam .referenceImut, parentParam .referenceImut]
    let second := functionOf [parentParam .referenceImut, derivedParam .referenceImut]
    let parents := functionOf [parentParam .referenceImut, parentParam .referenceImut]
    compareAt derivedProgram actualArgs false 0 parents exact_ ≠ leftIsBetter ∧
      selectOverloadedFunction derivedProgram actualArgs false [parents, exact_] =
        selectOverloadedFunction derivedProgram actualArgs false [exact_, parents] ∧
      selectOverloadedFunction derivedProgram actualArgs false [parents, first, second] =
        selectOverloadedFunction derivedProgram actualArgs false [first, second] := by
  intro actualArgs exact_ first second parents
  have hselected : selectOverloadedFunction derivedProgram actualArgs false [exact_, parents] =
      some exact_ := by
    have hflags : (range 2).foldl (checkArg derivedProgram actualArgs false
        [exact_, parents]) [true, true] = [true, false] := by decide +kernel
    exact congrArg (fun flags => selectFlagged none (zip _ flags)) hflags
  have hbest : (comparisons derivedProgram actualArgs false).IsBest [exact_, parents] 0 exact_ := by
    have hle : ∀ other ∈ [exact_, parents],
        (compareAt derivedProgram actualArgs false 0 exact_ other).leftHolds = true := by
      decide +kernel
    exact ⟨mem_cons_self, rfl, fun other hother _ => hle other hother⟩
  have hfirst : (comparisons derivedProgram actualArgs false).IsBest [first, second] 0 first := by
    have hle : ∀ other ∈ [first, second],
        (compareAt derivedProgram actualArgs false 0 first other).leftHolds = true := by
      decide +kernel
    exact ⟨mem_cons_self, rfl, fun other hother _ => hle other hother⟩
  have hadds : (comparisons derivedProgram actualArgs false).AddsNoBest [first, second] parents := by
    have hkeeps : ∀ argN ∈ range 2, ∀ best ∈ [first, second],
        (compareAt derivedProgram actualArgs false argN best parents).leftHolds = true := by
      decide +kernel
    have hworse : ∀ argN ∈ range 2, ∃ other ∈ [first, second],
        ¬ (compareAt derivedProgram actualArgs false argN parents other).leftHolds = true := by
      decide +kernel
    refine ⟨fun argN hargN best hbest _ => hkeeps argN hargN best hbest.mem,
      fun argN hargN hparents => ?_⟩
    obtain ⟨other, hother, hnot⟩ := hworse argN hargN
    exact absurd (hparents.le other (mem_cons_of_mem _ hother) rfl) hnot
  have hworse : ¬ (comparisons derivedProgram actualArgs false).Survives [first, second] parents := by
    intro hsurvives
    have hle := hsurvives 0 (mem_range.2 Nat.zero_lt_two) rfl first hfirst
    have hnot : ¬ (compareAt derivedProgram actualArgs false 0 parents first).leftHolds = true := by
      decide +kernel
    exact hnot hle
  have hresolved := selection_by_arguments derivedProgram actualArgs false [exact_, parents]
  have hambiguous := selection_by_arguments derivedProgram actualArgs false [first, second]
  refine ⟨?_, hresolved.2.1 _ (.swap parents exact_ []), hambiguous.2.2 _ hadds hworse⟩
  exact (hresolved.1 exact_ hselected).2 0 Nat.zero_lt_two rfl ⟨exact_, hbest⟩ parents
    (mem_cons_of_mem _ mem_cons_self) rfl

end USprache.CodeBuilder.WithArgs.OverloadingResolution
