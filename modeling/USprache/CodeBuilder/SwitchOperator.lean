import USprache.CodeBuilder.Types

/-!
# The switch operator

The values and ranges of the cases are constants of the type of the switch.  They are
collected, sorted and checked for overlaps and gaps, and then the code is generated: one
comparison after another, in the order of the cases, and the default branch behind all of
them.
-/

namespace USprache.CodeBuilder.Switch

variable {target : TargetPointers}

/-- An enum with at least one member.  Its members have the numbers from 0 on. -/
structure EnumType (target : TargetPointers) where
  underlyingType : FundamentalType
  elementCount : Nat
  integer : underlyingType.isInteger
  nonempty : 0 < elementCount
  /-- `GlobalThingBuildEnum` rejects more members for types of less than 32 bits. -/
  fits : underlyingType.bitWidth target < 32 → elementCount ≤ 2 ^ (underlyingType.bitWidth target -
      if underlyingType.isSignedInteger then 1 else 0) - 1
  /-- It assumes that other types are enough for all enums. -/
  few : elementCount ≤ 2 ^ 32

inductive SwitchType (target : TargetPointers) where
  | enum (type : EnumType target)
  | fundamental (type : FundamentalType) (accepted : type.isInteger || type.isChar)

namespace SwitchType

def bitWidth : SwitchType target → Nat
  | enum type => type.underlyingType.bitWidth target
  | fundamental type _ => type.bitWidth target

/-- Unsigned integers and chars are unsigned, and enums too. -/
def isSigned : SwitchType target → Bool
  | enum _ => false
  | fundamental type _ => type.isSignedInteger

def typeLow : (T : SwitchType target) → BitVec T.bitWidth
  | enum _ => 0
  | fundamental type _ => if type.isSignedInteger then BitVec.intMin _ else 0

def typeHigh : (T : SwitchType target) → BitVec T.bitWidth
  | enum type => BitVec.ofNat _ (type.elementCount - 1)
  | fundamental type _ => if type.isSignedInteger then BitVec.intMax _ else BitVec.allOnes _

variable (T : SwitchType target)

def lt (x y : BitVec T.bitWidth) : Bool :=
  if T.isSigned then x.slt y else x.ult y

def le (x y : BitVec T.bitWidth) : Bool :=
  if T.isSigned then x.sle y else x.ule y

/-- A variable of an enum type has the number of one of its members. -/
def Holds : (T : SwitchType target) → BitVec T.bitWidth → Prop
  | enum type, x => x.toNat < type.elementCount
  | fundamental _ _, _ => True

def Value : Type := { x : BitVec T.bitWidth // T.Holds x }

end SwitchType

variable {T : SwitchType target}

inductive CaseExpression (T : SwitchType target) where
  | ofOtherType (srcLoc : Nat)
  | notConstant (srcLoc : Nat)
  | constant (srcLoc : Nat) (value : T.Value)

/-- A single value, or a range of which both bounds may be omitted. -/
inductive CaseValue (T : SwitchType target) where
  | single (expression : CaseExpression T)
  | range (low high : Option (CaseExpression T))

/-- A list of values and ranges, with at least one, or a single `default`. -/
inductive CaseValues (T : SwitchType target) where
  | list (first : CaseValue T) (others : List (CaseValue T))
  | defaultPlaceholder

structure Case (T : SwitchType target) where
  values : CaseValues T
  srcLoc : Nat

inductive SwitchError (w : Nat) where
  | typesMismatch (srcLoc : Nat)
  | expectedConstantExpression (srcLoc : Nat)
  | switchInvalidRange (srcLoc : Nat) (low high : BitVec w)
  | switchDuplicatedDefaultLabel (srcLoc : Nat)
  | switchUndhandledValue (srcLoc : Nat) (value : BitVec w)
  | switchUndhandledRange (srcLoc : Nat) (low high : BitVec w)
  | switchRangesOverlapping (srcLoc : Nat) (low high nextLow nextHigh : BitVec w)
  | switchUnreachableDefaultBranch (srcLoc : Nat)

structure CaseRange (w : Nat) where
  low : BitVec w
  high : BitVec w
  srcLoc : Nat

/-- A bound of a range, which has the limit of the type if nothing replaces it. -/
def rangeConstant (limit : BitVec T.bitWidth) :
    Option (CaseExpression T) → BitVec T.bitWidth × List (SwitchError T.bitWidth)
  | none => (limit, [])
  | some (.ofOtherType srcLoc) => (limit, [.typesMismatch srcLoc])
  | some (.notConstant srcLoc) => (limit, [.expectedConstantExpression srcLoc])
  | some (.constant _ value) => (value.1, [])

def caseRange (blockSrcLoc : Nat) :
    CaseValue T → Option (CaseRange T.bitWidth) × List (SwitchError T.bitWidth)
  | .single (.ofOtherType srcLoc) => (none, [.typesMismatch srcLoc])
  | .single (.notConstant srcLoc) => (none, [.expectedConstantExpression srcLoc])
  | .single (.constant srcLoc value) => (some ⟨value.1, value.1, srcLoc⟩, [])
  | .range low high =>
    let (low, lowErrors) := rangeConstant T.typeLow low
    let (high, highErrors) := rangeConstant T.typeHigh high
    if T.le low high then (some ⟨low, high, blockSrcLoc⟩, lowErrors ++ highErrors)
    else (none, lowErrors ++ highErrors ++ [.switchInvalidRange blockSrcLoc low high])

/-- The state of the loop over the cases.  Every error clears `all_cases_are_ok`. -/
structure CasesInProgress (T : SwitchType target) where
  branchesRanges : List (List (CaseRange T.bitWidth)) := []
  /-- The index of the case of `default_branch_synt_block`. -/
  defaultBranch : Option Nat := none
  errors : List (SwitchError T.bitWidth) := []

def CaseValues.toList : CaseValues T → List (CaseValue T)
  | list first others => first :: others
  | defaultPlaceholder => []

def addCase (progress : CasesInProgress T) (case_ : Case T) : CasesInProgress T :=
  match case_.values with
  | .list first others =>
    let ranges := (first :: others).map (caseRange case_.srcLoc)
    { progress with
      branchesRanges := progress.branchesRanges ++ [ranges.filterMap Prod.fst]
      errors := progress.errors ++ ranges.flatMap Prod.snd }
  | .defaultPlaceholder =>
    { branchesRanges := progress.branchesRanges ++ [[]]
      defaultBranch := progress.defaultBranch <|> some progress.branchesRanges.length
      errors := progress.errors ++
        if progress.defaultBranch.isSome then [.switchDuplicatedDefaultLabel case_.srcLoc] else [] }

def evaluateCases (cases : List (Case T)) : CasesInProgress T := cases.foldl addCase {}

/-- `std::sort` with a comparator.  Nothing is known of the order of elements that are neither
less nor greater than each other. -/
structure StdSort {α : Type} (less : α → α → Bool) where
  sort : List α → List α
  perm (l : List α) : (sort l).Perm l
  sorted (l : List α) : (sort l).Pairwise fun x y => less y x = false

def lessByLow (T : SwitchType target) (l r : CaseRange T.bitWidth) : Bool := T.lt l.low r.low

structure RangeChecks (w : Nat) where
  hasGaps : Bool := false
  errors : List (SwitchError w) := []

namespace RangeChecks

variable {w : Nat}

/-- A gap of this size, with the texts of the errors for one value and for more. -/
def gap (checks : RangeChecks w) (hasDefault : Bool) (gapSize : BitVec w)
    (forOne forMore : SwitchError w) : RangeChecks w :=
  if gapSize = 0 then checks
  else
    { hasGaps := true
      errors := checks.errors ++
        if hasDefault then [] else [if gapSize = 1 then forOne else forMore] }

end RangeChecks

def checkNeighbours (T : SwitchType target) (hasDefault : Bool) (current next : CaseRange T.bitWidth)
    (checks : RangeChecks T.bitWidth) : RangeChecks T.bitWidth :=
  -- Report error further in the source code.
  let srcLoc := max current.srcLoc next.srcLoc
  if T.lt current.high next.low then
    checks.gap hasDefault (next.low - current.high - 1)
      (.switchUndhandledValue srcLoc (current.high + 1))
      (.switchUndhandledRange srcLoc (current.high + 1) (next.low - 1))
  else
    { checks with
      errors := checks.errors ++
        [.switchRangesOverlapping srcLoc current.low current.high next.low next.high] }

def checkAllNeighbours (T : SwitchType target) (hasDefault : Bool) :
    List (CaseRange T.bitWidth) → RangeChecks T.bitWidth → RangeChecks T.bitWidth
  | current :: next :: ranges, checks =>
    checkAllNeighbours T hasDefault (next :: ranges)
      (checkNeighbours T hasDefault current next checks)
  | _, checks => checks

def checkBegin (T : SwitchType target) (hasDefault : Bool) (first : CaseRange T.bitWidth)
    (checks : RangeChecks T.bitWidth) : RangeChecks T.bitWidth :=
  checks.gap hasDefault (first.low - T.typeLow) (.switchUndhandledValue first.srcLoc T.typeLow)
    (.switchUndhandledRange first.srcLoc T.typeLow (first.low - 1))

def checkEnd (T : SwitchType target) (hasDefault : Bool) (last : CaseRange T.bitWidth)
    (checks : RangeChecks T.bitWidth) : RangeChecks T.bitWidth :=
  checks.gap hasDefault (T.typeHigh - last.high) (.switchUndhandledValue last.srcLoc T.typeHigh)
    (.switchUndhandledRange last.srcLoc (last.high + 1) T.typeHigh)

def checkRanges (T : SwitchType target) (switchSrcLoc : Nat) (hasDefault : Bool)
    (allRanges : List (CaseRange T.bitWidth)) : RangeChecks T.bitWidth :=
  let checks := checkAllNeighbours T hasDefault allRanges {}
  match allRanges.head?, allRanges.getLast? with
  | some first, some last => checkEnd T hasDefault last (checkBegin T hasDefault first checks)
  | _, _ =>
    -- No ranges at all - this is a gap.
    { hasGaps := true
      errors := checks.errors ++
        if hasDefault then []
        else if T.typeHigh = T.typeLow then [.switchUndhandledValue switchSrcLoc T.typeHigh]
        else [.switchUndhandledRange switchSrcLoc T.typeLow T.typeHigh] }

inductive Destination where
  | case_ (index : Nat)
  | afterSwitch
deriving DecidableEq

/-- The comparisons for the cases that are not the default one, with the indices of the cases,
and the destination of the last of them if it fails. -/
structure ComparisonChain (T : SwitchType target) where
  tests : List (Nat × List (CaseRange T.bitWidth))
  otherwise : Destination

def rangeTest (T : SwitchType target) (value : BitVec T.bitWidth) (range : CaseRange T.bitWidth) :
    Bool :=
  if range.low = range.high then value == range.low
  else T.le range.low value && T.le value range.high

def caseTest (T : SwitchType target) (value : BitVec T.bitWidth)
    (ranges : List (CaseRange T.bitWidth)) : Bool :=
  ranges.foldl (fun valueEquals range => valueEquals || rangeTest T value range) false

def generateTests : Nat → List (Case T) → List (List (CaseRange T.bitWidth)) →
    List (Nat × List (CaseRange T.bitWidth))
  | i, case_ :: cases, ranges :: branchesRanges =>
    match case_.values with
    -- Default branch - handle it later.
    | .defaultPlaceholder => generateTests (i + 1) cases branchesRanges
    | .list _ _ => (i, ranges) :: generateTests (i + 1) cases branchesRanges
  | _, _, _ => []

def runTests (T : SwitchType target) (value : BitVec T.bitWidth) (otherwise : Destination) :
    List (Nat × List (CaseRange T.bitWidth)) → Destination
  | [] => otherwise
  | (i, ranges) :: tests =>
    if caseTest T value ranges then .case_ i else runTests T value otherwise tests

def ComparisonChain.run (chain : ComparisonChain T) (value : BitVec T.bitWidth) : Destination :=
  runTests T value chain.otherwise chain.tests

/-- `BuildBlockElementImpl( SwitchOperator )`: the errors, and the code if it is generated. -/
def buildSwitch (S : StdSort (lessByLow T)) (switchSrcLoc : Nat) (cases : List (Case T)) :
    List (SwitchError T.bitWidth) × Option (ComparisonChain T) :=
  let progress := evaluateCases cases
  if progress.errors.isEmpty then
    let allRanges := S.sort progress.branchesRanges.flatten
    let checks := checkRanges T switchSrcLoc progress.defaultBranch.isSome allRanges
    let unreachable := match progress.defaultBranch.bind (cases[·]?) with
      | some case_ =>
        if checks.hasGaps then [] else [SwitchError.switchUnreachableDefaultBranch case_.srcLoc]
      | none => []
    (checks.errors ++ unreachable,
      some
        { tests := generateTests 0 cases progress.branchesRanges
          otherwise := match progress.defaultBranch with
            | some i => .case_ i
            | none => .afterSwitch })
  else (progress.errors, none)

end USprache.CodeBuilder.Switch
