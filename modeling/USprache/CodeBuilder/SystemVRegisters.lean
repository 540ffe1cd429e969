import USprache.CodeBuilder.SystemVClasses

/-!
# Calls by the System V convention

Each argument and the returned value is passed directly, in memory or by a pointer.  The
registers left are counted, since a composite of two parts is not passed partially in registers
and partially in the stack.
-/

namespace USprache.CodeBuilder.WithArgs.SystemV

inductive ArgumentPassingKind where
  | direct | directZExt | directSExt | byPointer | inStack
deriving DecidableEq

structure ArgumentPassing where
  kind : ArgumentPassingKind
  llvmType : LlvmType

inductive ReturnValuePassingKind where
  | direct | directZExt | directSExt | byPointer
deriving DecidableEq

structure ReturnValuePassing where
  kind : ReturnValuePassingKind
  llvmType : Option LlvmType

structure CallInfo where
  returnValuePassing : ReturnValuePassing
  argumentsPassing : List ArgumentPassing

def isByte : FundamentalType → Bool
  | .byte8_ | .byte16_ | .byte32_ | .byte64_ | .byte128_ => true
  | _ => false

variable (type : FundamentalType)

def isZeroExtended : Bool :=
  type.isUnsignedInteger || type.isChar || isByte type || decide (type = .bool_)

def is128Bit : Bool :=
  decide (type = .i128_) || decide (type = .u128_) || decide (type = .byte128_)

/-- The type of a part of `partSize` bytes.  There is none in the branch of
`U_ASSERT( false )`. -/
def partType (class_ : ArgumentClass) (partSize : Nat) : Option LlvmType :=
  match class_ with
  | .integer => some (.integer (partSize * 8).toPNat')
  | .sse => some (if partSize ≤ 4 then .float else .double)
  | .noClass => none

section

variable (body : Class → List LlvmType)

/-- The part of `CalculateReturnValuePassingInfo` for composites. -/
def returnComposite (llvmType : LlvmType) : Option ReturnValuePassing := do
  let typeSize := allocSize llvmType
  if typeSize > 16 then return { kind := .byPointer, llvmType := none }
  -- Return empty composites directly.
  if typeSize = 0 then return { kind := .direct, llvmType := some llvmType }
  let classes ← classifyType llvmType noClasses 0
  if typeSize ≤ 8 then
    let part ← partType classes.first typeSize
    return { kind := .direct, llvmType := some part }
  else
    let first ← partType classes.first 8
    let second ← partType classes.second (typeSize - 8)
    return { kind := .direct, llvmType := some (.struct [first, second]) }

def calculateReturnValuePassingInfo : LangType → Option ReturnValuePassing
  | .fundamental type =>
    let llvmType := some (fundamentalLlvmType type)
    if type.isSignedInteger then some { kind := .directSExt, llvmType }
    else if isZeroExtended type then some { kind := .directZExt, llvmType }
    else some { kind := .direct, llvmType }
  | .enumType _ _ underlyingType =>
    some { kind := .directZExt, llvmType := some (fundamentalLlvmType underlyingType) }
  | .functionPointer _ => some { kind := .direct, llvmType := some .pointer }
  | .rawPointer _ => some { kind := .direct, llvmType := some .pointer }
  | .classType class_ => returnComposite (llvmTypeOf body (.classType class_))
  | .array elementType elementCount =>
    returnComposite (llvmTypeOf body (.array elementType elementCount))
  | .tuple elementTypes => returnComposite (llvmTypeOf body (.tuple elementTypes))

end

/-- `num_integer_registers_left` and `num_floating_point_registers_left`. -/
structure RegistersLeft where
  integer : UInt64
  floatingPoint : UInt64

def allRegisters : RegistersLeft := { integer := 6, floatingPoint := 8 }

namespace RegistersLeft

variable (left : RegistersLeft)

def takeInteger : RegistersLeft :=
  if left.integer > 0 then { left with integer := left.integer - 1 } else left

def takeTwoIntegers : RegistersLeft :=
  if left.integer ≥ 2 then { left with integer := left.integer - 2 } else left

def takeFloatingPoint : RegistersLeft :=
  if left.floatingPoint > 0 then { left with floatingPoint := left.floatingPoint - 1 } else left

end RegistersLeft

/-! ## Arguments -/

variable (left : RegistersLeft)

def passFundamental :
    ArgumentPassing × RegistersLeft :=
  let llvmType := fundamentalLlvmType type
  let passing : ArgumentPassing :=
    if type.isSignedInteger then { kind := .directSExt, llvmType }
    else if isZeroExtended type then { kind := .directZExt, llvmType }
    else { kind := .direct, llvmType }
  if type.isFloatingPoint then (passing, left.takeFloatingPoint)
  -- A void argument takes no registers.
  else if type = .void_ then (passing, left)
  else if is128Bit type then (passing, left.takeTwoIntegers)
  else (passing, left.takeInteger)

def passEnum (underlyingType : FundamentalType) (left : RegistersLeft) :
    ArgumentPassing × RegistersLeft :=
  let passing : ArgumentPassing :=
    { kind := .directZExt, llvmType := fundamentalLlvmType underlyingType }
  if is128Bit underlyingType then (passing, left.takeTwoIntegers)
  else (passing, left.takeInteger)

def passPointer : ArgumentPassing × RegistersLeft :=
  ({ kind := .direct, llvmType := .pointer }, left.takeInteger)

def passOnePart (class_ : ArgumentClass) (typeSize : Nat) (left : RegistersLeft) :
    Option (ArgumentPassing × RegistersLeft) := do
  let llvmType ← partType class_ typeSize
  match class_ with
  | .integer => return ({ kind := .directZExt, llvmType }, left.takeInteger)
  | .sse => return ({ kind := .direct, llvmType }, left.takeFloatingPoint)
  | .noClass => none

def countParts (classes : ArgumentPartClasses) (class_ : ArgumentClass) : UInt64 :=
  (if classes.first = class_ then 1 else 0) + (if classes.second = class_ then 1 else 0)

def passTwoParts (llvmType : LlvmType) (classes : ArgumentPartClasses) (left : RegistersLeft) :
    Option (ArgumentPassing × RegistersLeft) := do
  let first ← partType classes.first 8
  let second ← partType classes.second (allocSize llvmType - 8)
  let integerNeeded := countParts classes .integer
  let floatingPointNeeded := countParts classes .sse
  if integerNeeded ≤ left.integer ∧ floatingPointNeeded ≤ left.floatingPoint then
    return ({ kind := .direct, llvmType := .struct [first, second] },
      { integer := left.integer - integerNeeded,
        floatingPoint := left.floatingPoint - floatingPointNeeded })
  -- There are not enough registers for all parts.
  else return ({ kind := .inStack, llvmType := .pointer }, left)

def passComposite (llvmType : LlvmType) (left : RegistersLeft) :
    Option (ArgumentPassing × RegistersLeft) := do
  let typeSize := allocSize llvmType
  if typeSize > 16 then return ({ kind := .inStack, llvmType := .pointer }, left)
  -- Pass empty composites directly.
  if typeSize = 0 then return ({ kind := .direct, llvmType }, left)
  let classes ← classifyType llvmType noClasses 0
  if typeSize ≤ 8 then passOnePart classes.first typeSize left
  else passTwoParts llvmType classes left

section

variable (body : Class → List LlvmType)

def passArgument (param : FunctionParam) (left : RegistersLeft) :
    Option (ArgumentPassing × RegistersLeft) :=
  if param.valueType = .value then
    match param.type with
    | .fundamental type => some (passFundamental type left)
    | .enumType _ _ underlyingType => some (passEnum underlyingType left)
    | .functionPointer _ => some (passPointer left)
    | .rawPointer _ => some (passPointer left)
    | .classType class_ => passComposite (llvmTypeOf body (.classType class_)) left
    | .array elementType elementCount =>
      passComposite (llvmTypeOf body (.array elementType elementCount)) left
    | .tuple elementTypes => passComposite (llvmTypeOf body (.tuple elementTypes)) left
  else some (passPointer left)

def passArguments :
    List FunctionParam → RegistersLeft → Option (List ArgumentPassing × RegistersLeft)
  | [], left => some ([], left)
  | param :: params, left => do
    let passed ← passArgument body param left
    let rest ← passArguments params passed.2
    return (passed.1 :: rest.1, rest.2)

def passReturned (returned : FunctionParam) : Option (ReturnValuePassing × RegistersLeft) :=
  if returned.valueType = .value then do
    let passing ← calculateReturnValuePassingInfo body returned.type
    -- Consume an integer register for "sret" pointer.
    if passing.kind = .byPointer then
      return (passing, { allRegisters with integer := allRegisters.integer - 1 })
    else return (passing, allRegisters)
  else some ({ kind := .direct, llvmType := some .pointer }, allRegisters)

def calculateFunctionCallInfo (functionType : FunctionType) : Option CallInfo := do
  let returned ← passReturned body functionType.returned
  let passed ← passArguments body functionType.params returned.2
  return { returnValuePassing := returned.1, argumentsPassing := passed.1 }

def registersLeftBefore (functionType : FunctionType) (i : Nat) : Option RegistersLeft := do
  let returned ← passReturned body functionType.returned
  let passed ← passArguments body (functionType.params.take i) returned.2
  return passed.2

end

/-!
## The registers of a call

An argument is passed in registers if there are enough of them.  The counters of registers are
the registers of the convention without those of the hidden pointer to the returned value and
of the arguments before.
-/

open List Option

structure Registers where
  integer : Nat
  floatingPoint : Nat

def RegistersLeft.count : Registers where
  integer := left.integer.toNat
  floatingPoint := left.floatingPoint.toNat

namespace Registers

def Fit (needed left : Registers) : Prop :=
  needed.integer ≤ left.integer ∧ needed.floatingPoint ≤ left.floatingPoint

instance (needed left : Registers) : Decidable (needed.Fit left) :=
  inferInstanceAs (Decidable (_ ∧ _))

def without (left needed : Registers) : Registers where
  integer := left.integer - needed.integer
  floatingPoint := left.floatingPoint - needed.floatingPoint

end Registers

def scalarRegisters : Registers :=
  if type.isFloatingPoint then ⟨0, 1⟩
  else if type = .void_ then ⟨0, 0⟩
  else if is128Bit type then ⟨2, 0⟩
  else ⟨1, 0⟩

def isComposite : LangType → Bool
  | .classType _ | .array _ _ | .tuple _ => true
  | _ => false

/-- A register for each eightbyte of its class.  Composites of more than 16 bytes are in
memory. -/
def compositeRegisters (type : LlvmType) : Registers :=
  if allocSize type > 16 then ⟨0, 0⟩
  else
    let classes := (List.range (eightbyteCount type)).map (eightbyteClass type)
    ⟨classes.count .integer, classes.count .sse⟩

section

variable (body : Class → List LlvmType)

def neededRegisters (param : FunctionParam) : Registers :=
  if param.valueType = .value then
    match param.type with
    | .fundamental type => scalarRegisters type
    | .enumType _ _ underlyingType => if is128Bit underlyingType then ⟨2, 0⟩ else ⟨1, 0⟩
    | .functionPointer _ | .rawPointer _ => ⟨1, 0⟩
    | type => compositeRegisters (llvmTypeOf body type)
  else ⟨1, 0⟩

def passedInRegisters : Registers → List FunctionParam → List FunctionParam
  | _, [] => []
  | left, param :: params =>
    if (neededRegisters body param).Fit left then
      param :: passedInRegisters (left.without (neededRegisters body param)) params
    else passedInRegisters left params

def hiddenPointers (returned : FunctionParam) : Nat :=
  if returned.valueType = .value ∧ isComposite returned.type ∧
      16 < allocSize (llvmTypeOf body returned.type) then 1
  else 0

def argumentRegisters (returned : FunctionParam) : Registers where
  integer := 6 - hiddenPointers body returned
  floatingPoint := 8

/-- The registers left are the six and the eight registers without the consumed ones. -/
def CountsRegisters (functionType : FunctionType) (i : Nat) (left : Registers) : Prop :=
  let preceding := passedInRegisters body (argumentRegisters body functionType.returned)
    (functionType.params.take i)
  left.integer + hiddenPointers body functionType.returned +
      (preceding.map fun param => (neededRegisters body param).integer).sum = 6 ∧
    left.floatingPoint +
      (preceding.map fun param => (neededRegisters body param).floatingPoint).sum = 8

def HasTwoParts (param : FunctionParam) : Prop :=
  param.valueType = .value ∧ isComposite param.type ∧
    8 < allocSize (llvmTypeOf body param.type) ∧ allocSize (llvmTypeOf body param.type) ≤ 16

def Takes (needed : Registers) (left left' : RegistersLeft) : Prop :=
  left'.count = if needed.Fit left.count then left.count.without needed else left.count

end

theorem fit_iff (integer floatingPoint : UInt64) (l : RegistersLeft) :
    Registers.Fit ⟨integer.toNat, floatingPoint.toNat⟩ l.count ↔
      integer ≤ l.integer ∧ floatingPoint ≤ l.floatingPoint := by
  rfl

theorem takes_of_le (integer floatingPoint : UInt64) (l : RegistersLeft) :
    Takes ⟨integer.toNat, floatingPoint.toNat⟩ l
      (if integer ≤ l.integer ∧ floatingPoint ≤ l.floatingPoint then
        { integer := l.integer - integer, floatingPoint := l.floatingPoint - floatingPoint }
      else l) := by
  have hfit := fit_iff integer floatingPoint l
  unfold Takes
  by_cases h : integer ≤ l.integer ∧ floatingPoint ≤ l.floatingPoint
  · rw [if_pos h, if_pos (hfit.2 h)]
    simp [RegistersLeft.count, Registers.without, UInt64.toNat_sub_of_le _ _ h.1,
      UInt64.toNat_sub_of_le _ _ h.2]
  · rw [if_neg h, if_neg (fun hneed => h (hfit.1 hneed))]

theorem one_le_iff_pos (n : UInt64) : 1 ≤ n ↔ n > 0 := by
  show 1 ≤ n ↔ 0 < n
  rfl

variable (l : RegistersLeft)

theorem takes_nothing : Takes ⟨0, 0⟩ l l := by
  have h := takes_of_le 0 0 l
  simpa using h

theorem takes_takeInteger : Takes ⟨1, 0⟩ l l.takeInteger := by
  have h := takes_of_le 1 0 l
  simpa [one_le_iff_pos, RegistersLeft.takeInteger] using h

theorem takes_takeTwoIntegers : Takes ⟨2, 0⟩ l l.takeTwoIntegers := by
  have h := takes_of_le 2 0 l
  simpa [RegistersLeft.takeTwoIntegers] using h

theorem takes_takeFloatingPoint : Takes ⟨0, 1⟩ l l.takeFloatingPoint := by
  have h := takes_of_le 0 1 l
  simpa [one_le_iff_pos, RegistersLeft.takeFloatingPoint] using h

theorem passFundamental_takes :
    Takes (scalarRegisters type) l (passFundamental type l).2 := by
  unfold scalarRegisters passFundamental
  by_cases hflo : type.isFloatingPoint
  · rw [if_pos hflo, if_pos hflo]
    exact takes_takeFloatingPoint l
  · rw [if_neg hflo, if_neg hflo]
    by_cases hvoid : type = .void_
    · rw [if_pos hvoid, if_pos hvoid]
      exact takes_nothing l
    · rw [if_neg hvoid, if_neg hvoid]
      cases is128Bit type
      · exact takes_takeInteger l
      · exact takes_takeTwoIntegers l

theorem passEnum_takes (underlyingTy : FundamentalType) (l : RegistersLeft) :
    Takes (if is128Bit underlyingTy then ⟨2, 0⟩ else ⟨1, 0⟩) l (passEnum underlyingTy l).2 := by
  unfold passEnum
  cases is128Bit underlyingTy
  · exact takes_takeInteger l
  · exact takes_takeTwoIntegers l

/-! ## Composites -/

theorem eightbyteClass_cases (type : LlvmType) (eightbyte : Nat) :
    eightbyteClass type eightbyte = .integer ∨ eightbyteClass type eightbyte = .sse := by
  unfold eightbyteClass
  split
  · exact .inl rfl
  · exact .inr rfl

theorem exists_partType (type : LlvmType) (eightbyte partSz : Nat) :
    ∃ part, partType (eightbyteClass type eightbyte) partSz = some part := by
  cases eightbyteClass_cases type eightbyte with
  | inl h | inr h => exact ⟨_, by rw [h]; rfl⟩

variable {type : LlvmType}

theorem compositeRegisters_of_zero (h : allocSize type = 0) : compositeRegisters type = ⟨0, 0⟩ := by
  unfold compositeRegisters eightbyteCount
  rw [h]
  rfl

theorem compositeRegisters_onePart (hpos : 0 < allocSize type) (h : allocSize type ≤ 8) :
    compositeRegisters type =
      ⟨[eightbyteClass type 0].count .integer, [eightbyteClass type 0].count .sse⟩ := by
  have hc : eightbyteCount type = 1 := by
    unfold eightbyteCount
    omega
  unfold compositeRegisters
  rw [if_neg (by omega), hc]
  rfl

theorem compositeRegisters_twoParts (hpos : 8 < allocSize type) (h : allocSize type ≤ 16) :
    compositeRegisters type = ⟨[eightbyteClass type 0, eightbyteClass type 1].count .integer,
        [eightbyteClass type 0, eightbyteClass type 1].count .sse⟩ := by
  have hc : eightbyteCount type = 2 := by
    unfold eightbyteCount
    omega
  unfold compositeRegisters
  rw [if_neg (by omega), hc]
  rfl

theorem classes_of_onePart (hpos : 0 < allocSize type) (h : allocSize type ≤ 8) :
    ∃ classes, classifyType type noClasses 0 = some classes ∧ classes.first = eightbyteClass type 0 := by
  have hle : allocSize type ≤ 16 := le_trans h (by omega)
  obtain ⟨classes, hcla, hfst, _⟩ := classifiesEightbytes hle
  exact ⟨classes, hcla, hfst (by unfold eightbyteCount; omega)⟩

theorem classes_of_twoParts (hpos : 8 < allocSize type) (h : allocSize type ≤ 16) :
    classifyType type noClasses 0 =
      some { first := eightbyteClass type 0, second := eightbyteClass type 1 } := by
  obtain ⟨classes, hcla, hfst, hsnd⟩ := classifiesEightbytes h
  rw [hcla, ← hfst (by unfold eightbyteCount; omega), ← hsnd (by unfold eightbyteCount; omega)]

theorem passOnePart_takes (type : LlvmType) (tySz : Nat) (l : RegistersLeft) :
    ∃ passed, passOnePart (eightbyteClass type 0) tySz l = some passed ∧
      Takes ⟨[eightbyteClass type 0].count .integer, [eightbyteClass type 0].count .sse⟩ l
        passed.2 := by
  cases eightbyteClass_cases type 0 with
  | inl h =>
    rw [h]
    exact ⟨_, rfl, takes_takeInteger l⟩
  | inr h =>
    rw [h]
    exact ⟨_, rfl, takes_takeFloatingPoint l⟩

theorem toNat_countParts (classes : ArgumentPartClasses) (cls : ArgumentClass) :
    (countParts classes cls).toNat = [classes.first, classes.second].count cls := by
  unfold countParts
  by_cases hfst : classes.first = cls
  · by_cases hsnd : classes.second = cls <;> simp [hfst, hsnd]
  · by_cases hsnd : classes.second = cls <;> simp [hfst, hsnd]

theorem passTwoParts_takes (type : LlvmType) (l : RegistersLeft)
    (hpos : 8 < allocSize type) (h : allocSize type ≤ 16) :
    ∃ passed, passTwoParts type
        { first := eightbyteClass type 0, second := eightbyteClass type 1 } l = some passed ∧
      Takes (compositeRegisters type) l passed.2 ∧
      (passed.1.kind = .direct ↔ (compositeRegisters type).Fit l.count) := by
  obtain ⟨first, hfst⟩ := exists_partType type 0 8
  obtain ⟨second, hsnd⟩ := exists_partType type 1 (allocSize type - 8)
  have hregs : compositeRegisters type =
      ⟨(countParts { first := eightbyteClass type 0, second := eightbyteClass type 1 }
          .integer).toNat,
        (countParts { first := eightbyteClass type 0, second := eightbyteClass type 1 }
          .sse).toNat⟩ := by
    rw [compositeRegisters_twoParts hpos h, toNat_countParts, toNat_countParts]
  have htk := takes_of_le
    (countParts { first := eightbyteClass type 0, second := eightbyteClass type 1 } .integer)
    (countParts { first := eightbyteClass type 0, second := eightbyteClass type 1 } .sse) l
  rw [hregs]
  unfold passTwoParts
  simp only [hfst, hsnd]
  split
  · rename_i hfit
    rw [if_pos hfit] at htk
    exact ⟨_, rfl, htk, fun _ => hfit, fun _ => rfl⟩
  · rename_i hfit
    rw [if_neg hfit] at htk
    exact ⟨_, rfl, htk, nofun, fun h => absurd h hfit⟩

theorem passComposite_takes (type : LlvmType) (l : RegistersLeft) :
    ∃ passed, passComposite type l = some passed ∧ Takes (compositeRegisters type) l passed.2 ∧
      (8 < allocSize type → allocSize type ≤ 16 →
        (passed.1.kind = .direct ↔ (compositeRegisters type).Fit l.count)) := by
  unfold passComposite
  by_cases hbig : allocSize type > 16
  · simp only [compositeRegisters, if_pos hbig]
    exact ⟨_, rfl, takes_nothing l, fun _ h => absurd h (by omega)⟩
  · by_cases hz : allocSize type = 0
    · rw [compositeRegisters_of_zero hz]
      simp only [if_neg hbig, if_pos hz]
      exact ⟨_, rfl, takes_nothing l, fun h => absurd h (by omega)⟩
    · simp only [if_neg hbig, if_neg hz]
      by_cases hone : allocSize type ≤ 8
      · obtain ⟨classes, hcla, hfst⟩ := classes_of_onePart (by omega) hone
        obtain ⟨passed, hpsd, htk⟩ := passOnePart_takes type (allocSize type) l
        rw [compositeRegisters_onePart (by omega) hone]
        simp only [hcla, hfst, if_pos hone, bind_eq_bind, bind_some]
        exact ⟨passed, hpsd, htk, fun h => absurd h (by omega)⟩
      · obtain ⟨passed, hpsd, htk, hdir⟩ := passTwoParts_takes type l (by omega) (by omega)
        simp only [@classes_of_twoParts type (by omega) (by omega), if_neg hone]
        exact ⟨passed, hpsd, htk, fun _ _ => hdir⟩

theorem returnComposite_returns (type : LlvmType) : ∃ passing, returnComposite type = some passing ∧
    (passing.kind = .byPointer ↔ 16 < allocSize type) := by
  unfold returnComposite
  by_cases hbig : allocSize type > 16
  · simp only [if_pos hbig]
    exact ⟨_, rfl, fun _ => hbig, fun _ => rfl⟩
  · by_cases hz : allocSize type = 0
    · simp only [if_neg hbig, if_pos hz]
      exact ⟨_, rfl, nofun, fun h => absurd h hbig⟩
    · simp only [if_neg hbig, if_neg hz]
      by_cases hone : allocSize type ≤ 8
      · obtain ⟨classes, hcla, hfst⟩ := classes_of_onePart (by omega) hone
        obtain ⟨part, hpart⟩ := exists_partType type 0 (allocSize type)
        simp only [hcla, hfst, hpart, if_pos hone, bind_eq_bind, bind_some]
        exact ⟨_, rfl, nofun, fun h => absurd h hbig⟩
      · obtain ⟨first, hfst⟩ := exists_partType type 0 8
        obtain ⟨second, hsnd⟩ := exists_partType type 1 (allocSize type - 8)
        simp only [@classes_of_twoParts type (by omega) (by omega), hfst, hsnd,
          if_neg hone, bind_eq_bind, bind_some]
        exact ⟨_, rfl, nofun, fun h => absurd h hbig⟩

/-! ## All arguments -/

section

variable (body : Class → List LlvmType)

theorem neededRegisters_composite {type : LangType} (h : isComposite type) :
    neededRegisters body (.mk type .value) = compositeRegisters (llvmTypeOf body type) := by
  cases type <;> first | rfl | cases h

theorem passArgument_composite {type : LangType} (h : isComposite type) (l : RegistersLeft) :
    passArgument body (.mk type .value) l = passComposite (llvmTypeOf body type) l := by
  cases type <;> first | rfl | cases h

theorem passArgument_takes (param : FunctionParam) (l : RegistersLeft) :
    ∃ passed, passArgument body param l = some passed ∧ Takes (neededRegisters body param) l passed.2 ∧
      (HasTwoParts body param → (passed.1.kind = .direct ↔ (neededRegisters body param).Fit l.count)) := by
  obtain ⟨type, kind⟩ := param
  by_cases hv : kind = .value
  · subst hv
    by_cases hcps : isComposite type
    · rw [neededRegisters_composite body hcps, passArgument_composite body hcps]
      obtain ⟨passed, hpsd, htk, hdir⟩ := passComposite_takes (llvmTypeOf body type) l
      exact ⟨passed, hpsd, htk, fun h => hdir h.2.2.1 h.2.2.2⟩
    · have hpts : ¬ HasTwoParts body (.mk type .value) := fun h => hcps h.2.1
      cases type with
      | fundamental type =>
        exact ⟨_, rfl, passFundamental_takes type l, fun h => absurd h hpts⟩
      | enumType parent name underlyingTy =>
        exact ⟨_, rfl, passEnum_takes underlyingTy l, fun h => absurd h hpts⟩
      | functionPointer functionType | rawPointer elTy =>
        exact ⟨_, rfl, takes_takeInteger l, fun h => absurd h hpts⟩
      | classType class_ | array elTy elementCount | tuple elementTypes => exact absurd rfl hcps
  · have hnee : neededRegisters body (.mk type kind) = ⟨1, 0⟩ := if_neg hv
    have hpsd : passArgument body (.mk type kind) l = some (passPointer l) := if_neg hv
    rw [hnee, hpsd]
    exact ⟨_, rfl, takes_takeInteger l, fun h => absurd h.1 hv⟩

def registersOf (params : List FunctionParam) : Registers where
  integer := (params.map fun param => (neededRegisters body param).integer).sum
  floatingPoint := (params.map fun param => (neededRegisters body param).floatingPoint).sum

theorem passArguments_takes (params : List FunctionParam) (l : RegistersLeft) :
    ∃ passed, passArguments body params l = some passed ∧ passed.1.length = params.length ∧ passed.2.count.integer +
          (registersOf body (passedInRegisters body l.count params)).integer =
        l.count.integer ∧
      passed.2.count.floatingPoint +
          (registersOf body (passedInRegisters body l.count params)).floatingPoint =
        l.count.floatingPoint := by
  induction params generalizing l with
  | nil => exact ⟨_, rfl, rfl, add_zero _, add_zero _⟩
  | cons param params ih =>
    obtain ⟨passed, hpsd, htk, _⟩ := passArgument_takes body param l
    obtain ⟨r, hrs, hlen, hint, hflPt⟩ := ih passed.2
    refine ⟨(passed.1 :: r.1, r.2), ?_, by rw [length_cons, hlen]; rfl, ?_⟩
    · rw [passArguments, hpsd]
      simp only [bind_eq_bind, bind_some, hrs]
      rfl
    · rw [passedInRegisters]
      unfold Takes at htk
      by_cases hfit : (neededRegisters body param).Fit l.count
      · rw [if_pos hfit] at htk
        rw [htk] at hint hflPt
        rw [if_pos hfit]
        unfold Registers.Fit at hfit
        simp only [registersOf, Registers.without, map_cons, sum_cons] at *
        omega
      · rw [if_neg hfit] at htk
        rw [htk] at hint hflPt
        rw [if_neg hfit]
        exact ⟨hint, hflPt⟩

theorem passArguments_getElem? {params : List FunctionParam} {l : RegistersLeft}
    {passed : List ArgumentPassing × RegistersLeft}
    (h : passArguments body params l = some passed) {i : Nat} {param : FunctionParam}
    (hp : params[i]? = some param) :
    ∃ pre last, passArguments body (params.take i) l = some pre ∧
      passArgument body param pre.2 = some last ∧ passed.1[i]? = some last.1 := by
  induction params generalizing l passed i with
  | nil => cases hp
  | cons next params ih =>
    obtain ⟨first, hfst, _⟩ := passArgument_takes body next l
    obtain ⟨r, hrs, _⟩ := passArguments_takes body params first.2
    have hpsd : passed = (first.1 :: r.1, r.2) := by
      rw [passArguments, hfst] at h
      simp only [bind_eq_bind, bind_some, hrs] at h
      exact (some.inj h).symm
    subst hpsd
    cases i with
    | zero =>
      cases hp
      exact ⟨([], l), first, rfl, hfst, rfl⟩
    | succ i =>
      obtain ⟨pre, last, hbef, hla, hget⟩ := ih hrs hp
      refine ⟨(first.1 :: pre.1, pre.2), last, ?_, hla, hget⟩
      rw [take_succ_cons, passArguments, hfst]
      simp only [bind_eq_bind, bind_some, hbef]
      rfl

theorem calculateReturnValuePassingInfo_returns (type : LangType) :
    ∃ passing, calculateReturnValuePassingInfo body type = some passing ∧
      (passing.kind = .byPointer ↔ isComposite type ∧ 16 < allocSize (llvmTypeOf body type)) := by
  by_cases hcps : isComposite type
  · obtain ⟨passing, hpas, hk⟩ := returnComposite_returns (llvmTypeOf body type)
    refine ⟨passing, ?_, fun h => ⟨hcps, hk.1 h⟩, fun h => hk.2 h.2⟩
    cases type <;> first | exact hpas | cases hcps
  · cases type with
    | fundamental type =>
      rw [calculateReturnValuePassingInfo]
      cases type.isSignedInteger <;> cases isZeroExtended type <;>
        exact ⟨_, rfl, nofun, fun h => absurd h.1 hcps⟩
    | enumType parent name underlyingType | functionPointer functionType | rawPointer elTy =>
      exact ⟨_, rfl, nofun, fun h => absurd h.1 hcps⟩
    | classType class_ | array elTy elementCount | tuple elementTypes => exact absurd rfl hcps

theorem passReturned_returns (ret : FunctionParam) :
    ∃ passing, passReturned body ret = some passing ∧
      passing.2.count = argumentRegisters body ret := by
  obtain ⟨type, kind⟩ := ret
  unfold passReturned argumentRegisters hiddenPointers
  by_cases hv : kind = .value
  · obtain ⟨passing, hpas, hk⟩ := calculateReturnValuePassingInfo_returns body type
    have hpas : calculateReturnValuePassingInfo body
      (FunctionParam.type (.mk type kind)) = some passing := hpas
    have hv : FunctionParam.valueType (.mk type kind) = .value := hv
    simp only [if_pos hv, hpas, bind_eq_bind, bind_some]
    by_cases hptr : passing.kind = .byPointer
    · rw [if_pos hptr, if_pos ⟨hv, hk.1 hptr⟩]
      exact ⟨_, rfl, rfl⟩
    · rw [if_neg hptr, if_neg (fun h => hptr (hk.2 h.2))]
      exact ⟨_, rfl, rfl⟩
  · have hv : FunctionParam.valueType (.mk type kind) ≠ .value := hv
    rw [if_neg hv, if_neg (fun h => hv h.1)]
    exact ⟨_, rfl, rfl⟩

theorem hiddenPointers_le (ret : FunctionParam) : hiddenPointers body ret ≤ 1 := by
  unfold hiddenPointers
  split
  · exact Nat.le_refl 1
  · exact Nat.zero_le 1

theorem calculateFunctionCallInfo_correct (functionType : FunctionType) :
    (∀ type, isComposite type → allocSize (llvmTypeOf body type) ≤ 16 →
      ClassifiesEightbytes (llvmTypeOf body type)) ∧
    ∃ callInfo, calculateFunctionCallInfo body functionType = some callInfo ∧
      callInfo.argumentsPassing.length = functionType.params.length ∧
      (∀ i ≤ functionType.params.length, ∃ left,
        registersLeftBefore body functionType i = some left ∧
        CountsRegisters body functionType i left.count) ∧
      ∀ i param, functionType.params[i]? = some param → HasTwoParts body param →
        ∃ left passing, registersLeftBefore body functionType i = some left ∧
          callInfo.argumentsPassing[i]? = some passing ∧
          (passing.kind = .direct ↔ (neededRegisters body param).Fit left.count) := by
  obtain ⟨returned, hreturned, hcount⟩ := passReturned_returns body functionType.returned
  obtain ⟨passed, hpassed, hlength, _⟩ := passArguments_takes body functionType.params returned.2
  have hleft : ∀ i, registersLeftBefore body functionType i =
      (passArguments body (functionType.params.take i) returned.2).map Prod.snd := by
    intro i
    rw [registersLeftBefore, hreturned, map_eq_bind]
    rfl
  refine ⟨fun type _ h => classifiesEightbytes h, ⟨returned.1, passed.1⟩, ?_, hlength, ?_, ?_⟩
  · rw [calculateFunctionCallInfo, hreturned]
    simp only [bind_eq_bind, bind_some, hpassed]
    rfl
  · intro i _
    obtain ⟨before, hbefore, _, hinteger, hfloatingPoint⟩ :=
      passArguments_takes body (functionType.params.take i) returned.2
    have hhidden := hiddenPointers_le body functionType.returned
    rw [hcount] at hinteger hfloatingPoint
    rw [hleft, hbefore]
    refine ⟨before.2, rfl, ?_⟩
    unfold CountsRegisters
    simp only [registersOf, argumentRegisters] at *
    omega
  · intro i param hparam htwo
    obtain ⟨before, last, hbefore, hlast, hget⟩ := passArguments_getElem? body hpassed hparam
    obtain ⟨last', hlast', _, hdirect⟩ := passArgument_takes body param before.2
    have heq : last' = last := some.inj (hlast'.symm.trans hlast)
    subst heq
    refine ⟨before.2, last'.1, ?_, hget, hdirect htwo⟩
    rw [hleft, hbefore]
    rfl

end

end USprache.CodeBuilder.WithArgs.SystemV
