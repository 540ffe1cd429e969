import USprache.CodeBuilder.EqualityComparison

/-!
# Comparison of constants

A comparison of constants is a conjunction over the places of the type, read with indices cut
to 32 bits.  It agrees with the comparison of variables where each place that is read compares
like the place itself.
-/

namespace USprache.CodeBuilder.EqualityComparison

open List Option ComparedType Comparison

namespace ComparedType

def isComposite : ComparedType → Bool
  | .array .. | .tuple _ => true
  | _ => false

/-- The type of the element at a path of indices through arrays and tuples. -/
def elementAt : ComparedType → List Nat → Option ComparedType
  | type, [] => some type
  | .array elementType elementCount, i :: path =>
    if i < elementCount then elementType.elementAt path else none
  | .tuple elementTypes, i :: path => elementTypes[i]?.bind (·.elementAt path)
  | _, _ :: _ => none

theorem elementInduction {motive : ComparedType → Prop}
    (leaf : ∀ type, type.isComposite = false → motive type)
    (array : ∀ elTy elC, motive elTy → motive (.array elTy elC))
    (tuple : ∀ elTs, (∀ type ∈ elTs, motive type) → motive (.tuple elTs)) :
    ∀ type, motive type
  | .array elTy elC =>
    array elTy elC (elementInduction leaf array tuple elTy)
  | .tuple elTs =>
    tuple elTs fun type _ => elementInduction leaf array tuple type
  | .fundamental type => leaf (.fundamental type) rfl
  | .enumType => leaf .enumType rfl
  | .rawPointer => leaf .rawPointer rfl
  | .functionPointer => leaf .functionPointer rfl
  | .classType class_ => leaf (.classType class_) rfl

theorem elementAt_leaf {type S : ComparedType} (h : type.isComposite = false) {p : List Nat} :
    type.elementAt p = some S ↔ p = [] ∧ type = S := by
  cases p with
  | nil => simp [elementAt]
  | cons i p =>
    cases type with
    | array | tuple => exact absurd h (by simp [isComposite])
    | _ => simp [elementAt]

end ComparedType

namespace Constant

def at_ (constant : Constant) (path : List Nat) : Constant := path.foldl element constant

/-- The element that `ConstexprCompareEqual` reads for the place. -/
def readAt (constant : Constant) (path : List Nat) : Constant :=
  path.foldl getAggregateElement constant

theorem readAt_eq {p : List Nat} (h : ∀ i ∈ p, i < 2 ^ 32) (cst : Constant) :
    cst.readAt p = cst.at_ p := by
  induction p generalizing cst with
  | nil => rfl
  | cons i p ih =>
    have hi : cst.getAggregateElement i = cst.element i := by
      rw [getAggregateElement, Nat.mod_eq_of_lt (h i (by simp))]
    rw [readAt, foldl_cons, hi]
    exact ih (fun j hj => h j (mem_cons_of_mem i hj)) (cst.element i)

end Constant

namespace Comparison

theorem foldl_and_errors (f : Nat → Comparison) (indices : List Nat) (res : Comparison) :
    (indices.foldl (fun res i => res.and (f i)) res).errors = [] ↔
      res.errors = [] ∧ ∀ i ∈ indices, (f i).errors = [] := by
  induction indices generalizing res with
  | nil => simp
  | cons i indices ih =>
    rw [foldl_cons, ih, and, append_eq_nil_iff, and_assoc, forall_mem_cons]

theorem and_result {l r : Comparison} {a b : Bool} (hl : l.result = .value a)
    (hr : r.result = .value b) : (l.and r).result = .value (a && b) := by
  rw [and, hl, hr]
  cases a <;> rfl

theorem foldl_and_result {f : Nat → Comparison} {g : Nat → Bool} {indices : List Nat}
    (h : ∀ i ∈ indices, (f i).result = .value (g i)) {res : Comparison} {b : Bool}
    (hres : res.result = .value b) :
    (indices.foldl (fun res i => res.and (f i)) res).result = .value (b && indices.all g) := by
  induction indices generalizing res b with
  | nil => simpa using hres
  | cons i indices ih =>
    rw [all_cons, ← Bool.and_assoc]
    exact ih (fun j hj => h j (mem_cons_of_mem i hj)) (and_result hres (h i (by simp)))

theorem errors_ofResultConstexpr (res : ResultConstexpr)
    (h : res.errors = [] → ∃ b, res.resultConstant = some b) :
    (ofResultConstexpr res).errors = [] ↔ res.errors = [] := by
  obtain ⟨errs, resultConstant⟩ := res
  cases errs with
  | nil =>
    obtain ⟨b, hb⟩ := h rfl
    cases hb
    rfl
  | cons error errs => exact Iff.rfl

end Comparison

section

variable {userOperator : Nat → Constant → Constant → Bool} (E : ConstantEvaluation userOperator)

theorem errors_classType (cls : ClassDeclaration) (l r : Constant) :
    (constexprCompareEqual E (.classType cls) l r).errors = [] ↔
      (E.evaluateConstexpr cls l r).errors = [] := by
  exact errors_ofResultConstexpr _ fun h => ⟨_, E.evaluates cls l r h⟩

variable {type : ComparedType} {l r : Constant}

theorem errors_leaf (h : type.isComposite = false) (l r : Constant) :
    (constexprCompareEqual E type l r).errors = [] ↔
      ∀ cls, type = .classType cls → (E.evaluateConstexpr cls l r).errors = [] := by
  cases type with
  | array | tuple => exact absurd h (by simp [isComposite])
  | classType cls => rw [errors_classType]; simp
  | fundamental type =>
    rw [constexprCompareEqual]
    split <;> simp [ofFolded]
  | _ => simp [constexprCompareEqual, ofFolded]

theorem errors_tupleElements {elTs : List ComparedType} {i : Nat} {res : Comparison} :
    (constexprCompareTupleElements E elTs i res l r).errors = [] ↔
      res.errors = [] ∧ ∀ j type, elTs[j]? = some type →
        (constexprCompareEqual E type (l.getAggregateElement (i + j))
          (r.getAggregateElement (i + j))).errors = [] := by
  induction elTs generalizing i res with
  | nil => simp [constexprCompareTupleElements]
  | cons type elTs ih =>
    rw [constexprCompareTupleElements, ih, Comparison.and, append_eq_nil_iff, and_assoc]
    refine and_congr_right fun _ => ?_
    constructor
    · rintro ⟨hfst, hrs⟩ j t' hj
      cases j with
      | zero =>
        cases hj
        exact hfst
      | succ j =>
        rw [show i + (j + 1) = i + 1 + j by omega]
        exact hrs j t' hj
    · intro h
      refine ⟨h 0 type rfl, fun j t' hj => ?_⟩
      rw [show i + 1 + j = i + (j + 1) by omega]
      exact h (j + 1) t' hj

theorem errors_iff (type : ComparedType) (l r : Constant) :
    (constexprCompareEqual E type l r).errors = [] ↔
      ∀ p cls, type.elementAt p = some (.classType cls) →
        (E.evaluateConstexpr cls (l.readAt p) (r.readAt p)).errors = [] := by
  induction type using elementInduction generalizing l r with
  | leaf type hleaf =>
    rw [errors_leaf E hleaf]
    constructor
    · intro h p cls hat
      obtain ⟨rfl, hty⟩ := (elementAt_leaf hleaf).1 hat
      exact h cls hty
    · exact fun h cls hty => h [] cls (by rw [hty]; rfl)
  | array elementType elementCount ih =>
    rw [constexprCompareEqual, foldl_and_errors]
    constructor
    · rintro ⟨-, h⟩ p cls hat
      cases p with
      | nil => cases hat
      | cons i p =>
        rw [elementAt] at hat
        split at hat
        · rename_i hi
          exact (ih _ _).1 (h i (mem_range.2 hi)) p cls hat
        · cases hat
    · refine fun h => ⟨rfl, fun i hi => (ih _ _).2 fun p cls hat => ?_⟩
      refine h (i :: p) cls ?_
      rw [elementAt, if_pos (mem_range.1 hi), hat]
  | tuple elementTypes ih =>
    rw [constexprCompareEqual, errors_tupleElements]
    simp only [Nat.zero_add]
    constructor
    · rintro ⟨-, h⟩ p cls hat
      cases p with
      | nil => cases hat
      | cons i p =>
        obtain ⟨type, hty, hat⟩ := bind_eq_some_iff.1 hat
        exact (ih type (mem_of_getElem? hty) _ _).1 (h i type hty) p cls hat
    · refine fun h => ⟨rfl, fun i type hty =>
        (ih type (mem_of_getElem? hty) _ _).2 fun p cls hat => ?_⟩
      refine h (i :: p) cls ?_
      rw [elementAt, hty, bind_some, hat]

/-- What the language's own `==` gives for two constants of a type that is no array and no
tuple. -/
def equalElements : ComparedType → Constant → Constant → Option Folded
  | .classType class_, l, r => some (.value (callCompareEqual userOperator class_ l r))
  | type, l, r => buildBinaryOperatorEqual E type l r

theorem equalElements_eq (h : type.isComposite = false) (l r : Constant) :
    equalElements E type l r =
      some (.value (buildEqualityCompareOperatorPart userOperator type l r)) := by
  cases type with
  | array | tuple => exact absurd h (by simp [isComposite])
  | fundamental type =>
    rw [equalElements, buildBinaryOperatorEqual, buildEqualityCompareOperatorPart]
    · split <;> rfl
    · rintro _ ⟨⟩
  | classType class_ => rw [equalElements, buildEqualityCompareOperatorPart]
  | _ => simp [equalElements, buildBinaryOperatorEqual, buildEqualityCompareOperatorPart,
      foldCompareScalars, compareScalars]

/-- Apart from functions, an element is compared as the language's own `==` does. -/
theorem result_leaf (h : type.isComposite = false) (hfn : type ≠ .functionPointer)
    (hev : ∀ cls, type = .classType cls → (E.evaluateConstexpr cls l r).errors = []) :
    some (constexprCompareEqual E type l r).result = equalElements E type l r := by
  cases type with
  | array | tuple => exact absurd h (by simp [isComposite])
  | functionPointer => exact absurd rfl hfn
  | classType cls =>
    have herrs := hev cls rfl
    have hres := E.evaluates cls l r herrs
    rw [constexprCompareEqual]
    rcases heq : E.evaluateConstexpr cls l r with ⟨errors, resultConstant⟩
    rw [heq] at herrs hres
    cases herrs
    cases hres
    rfl
  | fundamental type =>
    rw [constexprCompareEqual, equalElements, buildBinaryOperatorEqual]
    · split <;> rfl
    · rintro _ ⟨⟩
  | _ => rfl

theorem result_tupleElements {elTs : List ComparedType} {i : Nat} {res : Comparison}
    {b : Bool} {l' r' : Constant} (hres : res.result = .value b)
    (h : ∀ j type, elTs[j]? = some type →
      (constexprCompareEqual E type (l'.getAggregateElement (i + j))
        (r'.getAggregateElement (i + j))).result =
          .value (buildEqualityCompareOperatorPart userOperator type (l.element (i + j))
            (r.element (i + j)))) :
    (constexprCompareTupleElements E elTs i res l' r').result =
      .value (b && compareTupleElements userOperator elTs i l r) := by
  induction elTs generalizing i res b with
  | nil => simpa [constexprCompareTupleElements, compareTupleElements] using hres
  | cons type elTs ih =>
    rw [compareTupleElements, ← Bool.and_assoc]
    refine ih (and_result hres (h 0 type rfl)) fun j t' hj => ?_
    rw [show i + 1 + j = i + (j + 1) by omega]
    exact h (j + 1) t' hj

/-- If each place that is read compares like the place itself, so do the constants. -/
theorem result_of_elements {l' r' : Constant}
    (h : ∀ p S, type.elementAt p = some S → S.isComposite = false →
      (constexprCompareEqual E S (l'.readAt p) (r'.readAt p)).result =
        .value (buildEqualityCompareOperatorPart userOperator S (l.at_ p) (r.at_ p))) :
    (constexprCompareEqual E type l' r').result =
      .value (buildEqualityCompareOperatorPart userOperator type l r) := by
  induction type using elementInduction generalizing l r l' r' with
  | leaf type hleaf => exact h [] type rfl hleaf
  | array elementType elementCount ih =>
    rw [buildEqualityCompareOperatorPart, ← Bool.true_and (all _ _)]
    refine foldl_and_result (fun i hi => ih fun p S hat hS => ?_) rfl
    refine h (i :: p) S ?_ hS
    rw [elementAt, if_pos (mem_range.1 hi), hat]
  | tuple elementTypes ih =>
    rw [buildEqualityCompareOperatorPart,
      ← Bool.true_and (compareTupleElements _ _ _ _ _)]
    refine result_tupleElements E rfl fun i type hty => ?_
    rw [Nat.zero_add]
    refine ih type (mem_of_getElem? hty) fun p S hat hS => h (i :: p) S ?_ hS
    rw [elementAt, hty, bind_some, hat]

def Accepted (type : ComparedType) (l r : Operand) : Prop :=
  (callBinaryOperatorForArrayOrTuple E type l r).1 = []

/-- Constants compare as variables with their values do, and element by element as the
elements themselves. -/
structure ComparesLikeVariables (type : ComparedType) (l r : Constant) : Prop where
  accepted : Accepted E type (.constant l) (.constant r) ↔ Accepted E type (.variable_ l) (.variable_ r)
  result : (constexprCompareEqual E type l r).result = .value true ↔
    buildEqualityCompareOperatorPart userOperator type l r = true
  elements : ∀ path S, type.elementAt path = some S → S.isComposite = false →
    some (constexprCompareEqual E S (l.readAt path) (r.readAt path)).result =
      equalElements E S (l.at_ path) (r.at_ path)

/-- The operators of classes are evaluated without errors, the folder tells functions apart
and equal ones as equal, and places with an index of 2^32 or more compare like those that are
read for them. -/
structure Reliable (type : ComparedType) (l r : Constant) : Prop where
  evaluated : ∀ path class_, type.elementAt path = some (.classType class_) →
    (E.evaluateConstexpr class_ (l.readAt path) (r.readAt path)).errors = []
  functions : ∀ path, type.elementAt path = some .functionPointer →
    E.foldFunctionAddresses (l.readAt path).bits (r.readAt path).bits =
      .value ((l.at_ path).bits == (r.at_ path).bits)
  wide : ∀ path S, type.elementAt path = some S → S.isComposite = false → S ≠ .functionPointer →
    (∃ i ∈ path, 2 ^ 32 ≤ i) →
    equalElements E S (l.readAt path) (r.readAt path) = equalElements E S (l.at_ path) (r.at_ path)

theorem accepted_iff (h : type.isEqualityComparable = true) (l r : Constant) :
    (Accepted E type (.constant l) (.constant r) ↔ Accepted E type (.variable_ l) (.variable_ r)) ↔
      (constexprCompareEqual E type l r).errors = [] := by
  simp [Accepted, callBinaryOperatorForArrayOrTuple, h]

theorem Reliable.elements (h : Reliable E type l r)
    {p : List Nat} {S : ComparedType} (hat : type.elementAt p = some S)
    (hS : S.isComposite = false) :
    some (constexprCompareEqual E S (l.readAt p) (r.readAt p)).result =
      equalElements E S (l.at_ p) (r.at_ p) := by
  by_cases hfn : S = .functionPointer
  · subst hfn
    exact congrArg some (h.functions p hat)
  · rw [result_leaf E hS hfn fun cls hcl => h.evaluated p cls (hcl ▸ hat)]
    by_cases hwide : ∃ i ∈ p, 2 ^ 32 ≤ i
    · exact h.wide p S hat hS hfn hwide
    · have hnar : ∀ i ∈ p, i < 2 ^ 32 := fun i hi => lt_of_not_ge fun hge => hwide ⟨i, hi, hge⟩
      rw [Constant.readAt_eq hnar, Constant.readAt_eq hnar]

theorem comparesLikeVariables_iff {type : ComparedType} (h : type.isEqualityComparable = true)
    (l r : Constant) : ComparesLikeVariables E type l r ↔ Reliable E type l r := by
  constructor
  · intro hlike
    have hevaluated := (errors_iff E type l r).1 ((accepted_iff E h l r).1 hlike.accepted)
    refine ⟨hevaluated, fun path hat => ?_, fun path S hat hS hfunction _ => ?_⟩
    · exact some.inj (hlike.elements path .functionPointer hat rfl)
    · rw [← hlike.elements path S hat hS]
      exact (result_leaf E hS hfunction fun class_ hclass =>
        hevaluated path class_ (hclass ▸ hat)).symm
  · intro hreliable
    have hresult : (constexprCompareEqual E type l r).result =
        .value (buildEqualityCompareOperatorPart userOperator type l r) := by
      refine result_of_elements E fun path S hat hS => some.inj ?_
      rw [hreliable.elements E hat hS, equalElements_eq E hS]
    refine ⟨?_, ?_, fun path S hat hS => hreliable.elements E hat hS⟩
    · exact (accepted_iff E h l r).2 ((errors_iff E type l r).2 hreliable.evaluated)
    · rw [hresult, Folded.value.injEq]

end

/-- The folder knows that a function is at its own address, and leaves the comparison of two
functions with insignificant addresses to the linker. -/
def unnamedAddrFolding : ConstantEvaluation fun _ _ _ => false where
  foldFunctionAddresses l r := if l = r then .value true else .expression
  evaluateConstexpr class_ l r := ⟨[], some (callCompareEqual (fun _ _ _ => false) class_ l r)⟩
  evaluates _ _ _ _ := rfl

def functionAndNumber (function number : Nat) : Constant :=
  .aggregate fun i => .scalar (if i = 0 then function else number)

theorem comparesLikeVariables_iff_sameFunction :
    ComparesLikeVariables unnamedAddrFolding (.tuple [.functionPointer, .fundamental .i32_])
      (functionAndNumber 7 1) (functionAndNumber 7 2) := by
  have hat : ∀ path S, (tuple [.functionPointer, .fundamental .i32_]).elementAt path = some S →
      S.isComposite = false →
      path = [0] ∧ S = .functionPointer ∨ path = [1] ∧ S = .fundamental .i32_ := by
    intro path S hat hS
    rcases path with _ | ⟨_ | _ | i, path⟩
    · cases hat
      cases hS
    · obtain ⟨rfl, rfl⟩ := (@elementAt_leaf .functionPointer S rfl path).1 hat
      exact .inl ⟨rfl, rfl⟩
    · obtain ⟨rfl, rfl⟩ := (@elementAt_leaf (.fundamental .i32_) S rfl path).1 hat
      exact .inr ⟨rfl, rfl⟩
    · cases hat
  refine (comparesLikeVariables_iff unnamedAddrFolding rfl _ _).2 ⟨?_, ?_, ?_⟩
  · intro path class_ hclass
    rcases hat path _ hclass rfl with ⟨-, h⟩ | ⟨-, h⟩ <;> cases h
  · intro path hfunction
    rcases hat path _ hfunction rfl with ⟨rfl, -⟩ | ⟨-, h⟩
    · rfl
    · cases h
  · rintro path S hS hleaf - ⟨i, hi, hwide⟩
    rcases hat path S hS hleaf with ⟨rfl, -⟩ | ⟨rfl, -⟩ <;> simp at hi <;> omega

/-- `a == b` for `var [ fn(), 1 ] constexpr a[ Foo ], b[ Bar ];`. -/
theorem not_comparesLikeVariables_functions :
    ¬ComparesLikeVariables unnamedAddrFolding (.array .functionPointer 1)
      (.aggregate fun _ => .scalar 7) (.aggregate fun _ => .scalar 8) := by
  intro h
  have helement := h.elements [0] .functionPointer rfl rfl
  cases helement

end USprache.CodeBuilder.EqualityComparison
