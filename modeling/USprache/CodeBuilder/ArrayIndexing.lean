import USprache.CodeBuilder.Types

/-!
# Indexing of arrays

The subscript operator for arrays.  A constant index is checked by the compiler and a
non-constant one by the generated code.  In both cases the index is converted to `size_type`
for the address of the element; the compiler looks at the index before that, the generated
code after.
-/

namespace USprache.CodeBuilder.ArrayIndexing

open Option

variable {target : TargetPointers} {C : Type} {w : Nat}

/-- `APInt::getLimitedValue`, which saturates. -/
def getLimitedValue (x : BitVec w) : Nat := min x.toNat (2 ^ 64 - 1)

def getSExtValue (x : BitVec w) : Int := (x.signExtend 64).toInt

/-- `Constant::getAggregateElement` of the constant of an array. -/
def getAggregateElement {n w : Nat} (elements : Fin n → C) (x : BitVec w) : Option C :=
  if h : x.toNat < n then some (elements ⟨x.toNat, h⟩) else none

/-- An `inbounds getelementptr` for an element of an array, for elements of this size. -/
def getElementPtr (base : BitVec w) (elementSize : Nat) (index : BitVec w) : BitVec w :=
  base + index * BitVec.ofNat w elementSize

/-- The type of an index and its value, if it is constant. -/
structure Index (target : TargetPointers) where
  type : FundamentalType
  constexprValue : Option (BitVec (type.bitWidth target))

/-- `element_count`, and the constant of the array, if it is constant. -/
structure ArrayVariable (C : Type) where
  elementCount : UInt64
  constexprValue : Option (Fin elementCount.toNat → C)

inductive SubscriptError where
  | typesMismatch
  | arrayIndexOutOfBounds (index : Int) (elementCount : UInt64)
deriving DecidableEq

inductive Outcome (w : Nat) where
  | halts
  | address (value : BitVec w)
deriving DecidableEq

variable (index : Index target)

structure Element (C : Type) where
  constexprValue : Option C
  /-- The code, for a value of the index, the address of the array and the size of its
  elements. -/
  code : BitVec (index.type.bitWidth target) → BitVec target.bitWidth → Nat →
    Outcome target.bitWidth

def Index.accepted : Bool :=
  match index.constexprValue with
  | some _ => index.type.isInteger
  | none => index.type.isUnsignedInteger

variable (type : FundamentalType) (x : BitVec (type.bitWidth target))

def checkConstantIndex
    (elementCount : UInt64) : List SubscriptError :=
  if type.isSignedInteger then
    if getLimitedValue x ≥ elementCount.toNat || x.msb then
      [.arrayIndexOutOfBounds (getSExtValue x) elementCount] else []
  else
    if getLimitedValue x ≥ elementCount.toNat then
      [.arrayIndexOutOfBounds (getLimitedValue x) elementCount] else []

/-- Extend indices less than pointer size with zeros.  Truncate indices greater than pointer
size. -/
def convertIndex :
    BitVec target.bitWidth :=
  if type.size target > FundamentalType.size_type_.size target then x.truncate target.bitWidth
  else x.zeroExtend target.bitWidth

/-- The check of a non-constant index: `if( index >= array_size ) {halt;}`. -/
def boundsCheckFails (indexValue : BitVec target.bitWidth) (elementCount : UInt64) : Bool :=
  (BitVec.ofNat target.bitWidth elementCount.toNat).ule indexValue

variable (variable_ : ArrayVariable C)

/-- `BuildExpressionCodeImpl( SubscriptOperator )`, for arrays. -/
def buildSubscript :
    List SubscriptError × Option (Element index C) :=
  if index.accepted then
    match index.constexprValue with
    | some x =>
      (checkConstantIndex index.type x variable_.elementCount,
        some
          { constexprValue := variable_.constexprValue.bind (getAggregateElement · x)
            code := fun _ base elementSize =>
              .address (getElementPtr base elementSize (convertIndex index.type x)) })
    | none =>
      ([],
        some
          { constexprValue := none
            code := fun x base elementSize =>
              let indexValue := convertIndex index.type x
              if boundsCheckFails indexValue variable_.elementCount then .halts
              else .address (getElementPtr base elementSize indexValue) })
  else ([.typesMismatch], none)

def number : Int :=
  if type.isSignedInteger then x.toInt else x.toNat

def elementAddress (base : BitVec w) (elementSize : Nat) (i : Int) : BitVec w :=
  base + BitVec.ofInt w (i * elementSize)

def InBounds
    (x : BitVec (index.type.bitWidth target)) : Prop :=
  0 ≤ number index.type x ∧ number index.type x < variable_.elementCount.toNat

structure ChecksIndex
    (x : BitVec (index.type.bitWidth target)) : Prop where
  address : InBounds index variable_ x → (buildSubscript index variable_).1 = [] ∧
    ∃ element, (buildSubscript index variable_).2 = some element ∧
      ∀ base elementSize, element.code x base elementSize =
        .address (elementAddress base elementSize (number index.type x))
  constant : InBounds index variable_ x → index.constexprValue.isSome →
    ∀ elements, variable_.constexprValue = some elements →
      ∃ element, (buildSubscript index variable_).2 = some element ∧
        ∃ i : Fin variable_.elementCount.toNat, (i : Int) = number index.type x ∧
          element.constexprValue = some (elements i)
  outOfBounds : ¬InBounds index variable_ x →
    if index.constexprValue.isSome then (buildSubscript index variable_).1 ≠ []
    else ∃ element, (buildSubscript index variable_).2 = some element ∧
      ∀ base elementSize, element.code x base elementSize = .halts

theorem convertIndex_eq :
    convertIndex type x = x.setWidth target.bitWidth := by
  unfold convertIndex
  split <;> rfl

theorem getLimitedValue_lt_iff (x : BitVec w) (n : UInt64) :
    getLimitedValue x < n.toNat ↔ x.toNat < n.toNat := by
  have hn := n.toNat_lt
  unfold getLimitedValue
  omega

/-- The address that the generated code has is that of the element, whatever the index was
truncated to. -/
theorem getElementPtr_convertIndex
    (base : BitVec target.bitWidth) (elSz : Nat) :
    getElementPtr base elSz (convertIndex type x) = elementAddress base elSz x.toNat := by
  rw [getElementPtr, elementAddress, convertIndex_eq, BitVec.ofInt_mul, BitVec.ofInt_natCast,
    BitVec.ofInt_natCast, BitVec.ofNat_toNat]

section Exactness

variable {index} {variable_} {x : BitVec (index.type.bitWidth target)}

theorem inBounds_iff : InBounds index variable_ x ↔
    x.toNat < variable_.elementCount.toNat ∧ (index.type.isSignedInteger → x.msb = false) := by
  unfold InBounds number
  by_cases hsg : index.type.isSignedInteger
  · simp only [hsg, if_true, forall_const]
    cases hmsb : x.msb with
    | false =>
      rw [BitVec.toInt_eq_toNat_of_msb hmsb]
      simp
    | true =>
      have hneg := BitVec.toInt_neg_of_msb_true hmsb
      simp only [Bool.true_eq_false, and_false, iff_false]
      omega
  · simp [hsg]

theorem InBounds.number_eq (h : InBounds index variable_ x) :
    number index.type x = x.toNat ∧ x.toNat < variable_.elementCount.toNat := by
  obtain ⟨hlt, hmsb⟩ := inBounds_iff.1 h
  refine ⟨?_, hlt⟩
  unfold number
  split
  · exact BitVec.toInt_eq_toNat_of_msb (hmsb ‹_›)
  · rfl

theorem checkConstantIndex_eq_nil_iff :
    checkConstantIndex index.type x variable_.elementCount = [] ↔ InBounds index variable_ x := by
  rw [inBounds_iff, ← getLimitedValue_lt_iff]
  unfold checkConstantIndex
  by_cases hsg : index.type.isSignedInteger
  · simp only [hsg, if_true, forall_const, ite_eq_right_iff, imp_false,
      Bool.or_eq_true, decide_eq_true_eq, not_or, not_le, Bool.not_eq_true, List.cons_ne_nil]
  · simp [hsg]

theorem checksIndex_constant (hint : index.type.isInteger)
    (hx : index.constexprValue = some x) : ChecksIndex index variable_ x := by
  have hacc : index.accepted := by simp [Index.accepted, hx, hint]
  have hbd : buildSubscript index variable_ =
      (checkConstantIndex index.type x variable_.elementCount, some
          { constexprValue := variable_.constexprValue.bind (getAggregateElement · x)
            code := fun _ base elSz =>
              .address (getElementPtr base elSz (convertIndex index.type x)) }) := by
    rw [buildSubscript, if_pos hacc, hx]
  constructor
  · intro h
    rw [hbd]
    refine ⟨checkConstantIndex_eq_nil_iff.2 h, _, rfl, ?_⟩
    intro base elSz
    rw [h.number_eq.1]
    exact congrArg Outcome.address (getElementPtr_convertIndex index.type x base elSz)
  · intro h _ elements hels
    rw [hbd]
    refine ⟨_, rfl, ⟨x.toNat, h.number_eq.2⟩, h.number_eq.1.symm, ?_⟩
    rw [hels, bind_some, getAggregateElement, dif_pos h.number_eq.2]
  · intro h
    rw [hx, hbd]
    exact fun hnil => h (checkConstantIndex_eq_nil_iff.1 hnil)

/-- The check of an index `i` in a type that may be wider than `size_type`, for an array of
`n` elements. -/
def FitsSizeType (target : TargetPointers) (n i : Nat) : Prop :=
  (n < 2 ^ target.bitWidth ∧ (i < 2 ^ target.bitWidth ∨ n ≤ i % 2 ^ target.bitWidth)) ∨
    (2 ^ target.bitWidth ≤ n ∧ (i % 2 ^ target.bitWidth < n % 2 ^ target.bitWidth ↔ i < n))

theorem fitsSizeType_iff {n i : Nat} : FitsSizeType target n i ↔
    (i % 2 ^ target.bitWidth < n % 2 ^ target.bitWidth ↔ i < n) := by
  unfold FitsSizeType
  by_cases hn : n < 2 ^ target.bitWidth
  · rw [Nat.mod_eq_of_lt hn]
    by_cases hi : i < 2 ^ target.bitWidth
    · simp [hn, hi, Nat.mod_eq_of_lt hi]
    · have hle : ¬i < n := by omega
      simp [hn, hi, hle]
  · simp [Nat.le_of_not_lt hn]

theorem checksIndex_nonConstant (hun : index.type.isUnsignedInteger)
    (hx : index.constexprValue = none) :
    ChecksIndex index variable_ x ↔ FitsSizeType target variable_.elementCount.toNat x.toNat := by
  have hacc : index.accepted := by simp [Index.accepted, hx, hun]
  have hbd : buildSubscript index variable_ =
      ([],
        some
          { constexprValue := none
            code := fun x base elSz =>
              let indexValue := convertIndex index.type x
              if boundsCheckFails indexValue variable_.elementCount then .halts
              else .address (getElementPtr base elSz indexValue) }) := by
    rw [buildSubscript, if_pos hacc, hx]
  have hsg : ¬index.type.isSignedInteger := by
    cases h : index.type <;> simp_all [FundamentalType.isUnsignedInteger, FundamentalType.isSignedInteger]
  have hbou : InBounds index variable_ x ↔ x.toNat < variable_.elementCount.toNat := by
    simp [inBounds_iff, hsg]
  have hfl : boundsCheckFails (convertIndex index.type x) variable_.elementCount = true ↔
      ¬x.toNat % 2 ^ target.bitWidth < variable_.elementCount.toNat % 2 ^ target.bitWidth := by
    rw [boundsCheckFails, BitVec.ule_iff_toNat_le, convertIndex_eq, BitVec.toNat_setWidth,
      BitVec.toNat_ofNat, not_lt]
  rw [fitsSizeType_iff, ← hbou]
  constructor
  · intro h
    constructor
    · intro hlt
      by_contra hout
      have hhal := h.outOfBounds hout
      rw [hx, hbd] at hhal
      obtain ⟨_, ⟨⟩, hcode⟩ := hhal
      have hcode := hcode 0 0
      simp only [hfl, hlt, not_true, if_false, reduceCtorEq] at hcode
    · intro hin
      by_contra hge
      obtain ⟨_, _, hel, hcode⟩ := h.address hin
      rw [hbd] at hel
      cases hel
      have hcode := hcode 0 0
      simp only [hfl.2 hge, if_true, reduceCtorEq] at hcode
  · intro h
    constructor
    · intro hin
      rw [hbd]
      refine ⟨rfl, _, rfl, ?_⟩
      intro base elSz
      rw [hin.number_eq.1, ← getElementPtr_convertIndex]
      simp only [hfl, h.2 hin, not_true, if_false]
    · intro _ hsm
      rw [hx] at hsm
      cases hsm
    · intro hout
      rw [hx, hbd]
      refine ⟨_, rfl, ?_⟩
      intro base elSz
      simp only [hfl.2 fun hlt => hout (h.1 hlt), if_true]

/-- The operator checks the mathematical index of every array, except for non-constant
indices that `size_type` can't hold and that are in bounds when they are truncated to it, and
for arrays with more elements than `size_type` can count. -/
theorem checksIndex_iff (haccepted : index.accepted)
    (hx : ∀ c, index.constexprValue = some c → x = c) :
    ChecksIndex index variable_ x ↔ index.constexprValue.isSome ∨
        FitsSizeType target variable_.elementCount.toNat x.toNat := by
  unfold Index.accepted at haccepted
  cases hvalue : index.constexprValue with
  | some c =>
    rw [hvalue] at haccepted
    obtain rfl := hx c hvalue
    simp [checksIndex_constant haccepted hvalue]
  | none =>
    rw [hvalue] at haccepted
    simp [checksIndex_nonConstant haccepted hvalue]

end Exactness

def fourElements : ArrayVariable Unit := { elementCount := 4, constexprValue := none }

def wideIndex : Index .bits64 := { type := .u128_, constexprValue := none }

theorem checksIndex_iff_wideIndex : ChecksIndex wideIndex fourElements (x := 5) :=
  (checksIndex_iff rfl (by intro c hc; cases hc)).2 (.inr (.inl (by decide)))

/-- The index 2 ^ 64 + 1 is no index of the array, but the code does not halt. -/
theorem not_checksIndex_truncated :
    ¬ChecksIndex wideIndex fourElements (BitVec.ofNat _ (2 ^ 64 + 1)) := by
  rw [checksIndex_nonConstant rfl rfl, fitsSizeType_iff]
  decide

end USprache.CodeBuilder.ArrayIndexing
