import Mathlib.Data.List.Induction
import USprache.CodeBuilder.Types

/-!
# Underlying types of enums

The members of an enum are numbered from zero.  The default underlying type is chosen by their
number, and the check of the type compares this number, not the largest value, with the largest
value of the type, and only for types of less than 32 bits.
-/

namespace USprache.CodeBuilder.EnumBuild

open LexSynt List Nat Function

/-- What the name of an underlying type is resolved to. -/
inductive ResolvedTypeName where
  | notTypeName (kindName : String)
  | fundamental (type : FundamentalType)
  | otherType (name : Text)

structure Member where
  name : Text
  isKeyword : Bool

/-- `Synt::Enum`. -/
structure Declaration where
  underlyingTypeName : Option ResolvedTypeName
  members : List Member

inductive EnumError where
  | nameIsNotTypeName (kindName : String)
  | typesMismatch (expected : String) (type : ResolvedTypeName)
  | usingKeywordAsName
  | redefinition (name : Text)
  | underlyingTypeForEnumIsTooSmall (value maxValue : Nat)

def defaultUnderlyingType (numMembers : Nat) : FundamentalType :=
  if numMembers ≤ 1 <<< 8 then .u8_ else if numMembers ≤ 1 <<< 16 then .u16_ else .u32_

def underlyingType (declaration : Declaration) : FundamentalType × List EnumError :=
  let default_ := defaultUnderlyingType declaration.members.length
  match declaration.underlyingTypeName with
  | none => (default_, [])
  | some (.notTypeName kindName) => (default_, [.nameIsNotTypeName kindName])
  | some (.fundamental type) =>
    if type.isInteger then (type, [])
    else (default_, [.typesMismatch "any integer type" (.fundamental type)])
  | some (.otherType name) => (default_, [.typesMismatch "any integer type" (.otherType name)])

variable (width : Nat)

/-- The enum in the loop over the members: `element_count`, an `u32`, and the names with the
bits of their constants. -/
structure EnumState where
  elementCount : UInt32 := 0
  members : List (Text × BitVec width) := []
  errors : List EnumError := []

def addMember {width : Nat} (state : EnumState width) (member : Member) : EnumState width :=
  let errors := if member.isKeyword then state.errors ++ [.usingKeywordAsName] else state.errors
  let constant := BitVec.ofNat width state.elementCount.toNat
  if state.members.any fun other => decide (other.1 = member.name) then
    { state with
      elementCount := state.elementCount + 1
      errors := errors ++ [.redefinition member.name] }
  else
    { elementCount := state.elementCount + 1
      members := state.members ++ [(member.name, constant)]
      errors }

def addMembers (members : List Member) : EnumState width := members.foldl addMember {}

variable (target : TargetPointers) (type : FundamentalType)

def checkUnderlyingType (elementCount : UInt32) :
    List EnumError :=
  let bitWidth := type.bitWidth target
  if bitWidth < 32 then
    let maxValue := 2 ^ (bitWidth - if type.isSignedInteger then 1 else 0) - 1
    if maxValue < elementCount.toNat then
      [.underlyingTypeForEnumIsTooSmall (elementCount - 1).toNat maxValue]
    else []
  else []

structure Enum where
  members : List (Text × BitVec width)
  errors : List EnumError

def globalThingBuildEnum (declaration : Declaration) :
    Enum ((underlyingType declaration).1.bitWidth target) :=
  let state := addMembers ((underlyingType declaration).1.bitWidth target) declaration.members
  { members := state.members
    errors := (underlyingType declaration).2 ++ state.errors ++
      checkUnderlyingType target (underlyingType declaration).1 state.elementCount }

def valueBits : Nat :=
  type.bitWidth target - if type.isSignedInteger then 1 else 0

def Represents (value : Nat) : Prop :=
  value < 2 ^ valueBits target type

def EnumError.isTooSmall : EnumError → Bool
  | .underlyingTypeForEnumIsTooSmall .. => true
  | _ => false

def ReportsTooSmall (declaration : Declaration) : Prop :=
  ∃ error ∈ (globalThingBuildEnum target declaration).errors, error.isTooSmall = true

/-- The integer type that is given or chosen, unless another one is given. -/
def Declaration.integerType (declaration : Declaration) : Option FundamentalType :=
  match declaration.underlyingTypeName with
  | none => some (defaultUnderlyingType declaration.members.length)
  | some (.fundamental type) => if type.isInteger then some type else none
  | some _ => none

/-- The default type represents all values and is not reported, a given integer type is reported
if it does not represent all values, and an enum without errors has different constants. -/
structure ValuesFit (declaration : Declaration) : Prop where
  default_ : declaration.underlyingTypeName = none → (∀ value < declaration.members.length,
      Represents target (defaultUnderlyingType declaration.members.length) value) ∧
    ¬ ReportsTooSmall target declaration
  given : ∀ type, declaration.underlyingTypeName = some (.fundamental type) →
    type.isInteger = true → (ReportsTooSmall target declaration ↔
      ¬ ∀ value < declaration.members.length, Represents target type value)
  distinct : (globalThingBuildEnum target declaration).errors = [] →
    ((globalThingBuildEnum target declaration).members.map Prod.snd).Nodup

/-- The members before the loop is at an element, with the numbers of their places. -/
def numbered (names : List Text) : List (Text × BitVec width) :=
  names.mapIdx fun i name => (name, BitVec.ofNat width i)

theorem numbered_concat (w : Nat) (ns : List Text) (name : Text) : numbered w (ns ++ [name]) =
    numbered w ns ++ [(name, BitVec.ofNat w ns.length)] := by
  simp [numbered]

theorem addMembers_spec (w : Nat) {members : List Member}
    (hlength : members.length < 2 ^ 32) (hnodup : (members.map Member.name).Nodup) :
    (addMembers w members).elementCount.toNat = members.length ∧
      (addMembers w members).members = numbered w (members.map Member.name) ∧
      ∀ err ∈ (addMembers w members).errors, err.isTooSmall = false := by
  induction members using reverseRecOn with
  | nil => exact ⟨rfl, rfl, nofun⟩
  | append_singleton members mem ih =>
    rw [length_append] at hlength
    rw [map_append, nodup_append] at hnodup
    obtain ⟨hc, hmem, herrs⟩ := ih (by omega) hnodup.1
    have hnew : (addMembers w members).members.any
        (fun other => decide (other.1 = mem.name)) = false := by
      rw [any_eq_false]
      intro other ho heq
      rw [hmem, numbered, mem_mapIdx] at ho
      obtain ⟨i, hi, rfl⟩ := ho
      exact hnodup.2.2 _ (getElem_mem hi) _ mem_cons_self (of_decide_eq_true heq)
    have hst : addMembers w (members ++ [mem]) = addMember (addMembers w members) mem := by
      rw [addMembers, foldl_append]
      rfl
    rw [hst, addMember, if_neg (by rw [hnew]; exact Bool.false_ne_true)]
    refine ⟨?_, ?_, ?_⟩
    · show ((addMembers w members).elementCount + 1).toNat = _
      rw [UInt32.toNat_add, hc, length_append]
      exact mod_eq_of_lt hlength
    · show (addMembers w members).members ++ _ = _
      rw [hmem, hc, map_append, map_singleton, numbered_concat, length_map]
    · intro err herr
      show err.isTooSmall = false
      split at herr
      · rcases mem_append.1 herr with herr | herr
        · exact herrs err herr
        · rw [mem_singleton.1 herr]
          rfl
      · exact herrs err herr

variable {t : FundamentalType}

theorem represents_all_iff {target : TargetPointers} {n : Nat} :
    (∀ v < n, Represents target t v) ↔ n ≤ 2 ^ valueBits target t := by
  constructor
  · intro h
    by_cases hn : n = 0
    · rw [hn]
      exact zero_le _
    · have hla := h (n - 1) (by omega)
      unfold Represents at hla
      omega
  · intro h v hv
    exact lt_of_lt_of_le hv h

theorem exists_tooSmall_check_iff {target : TargetPointers} {elC : UInt32} :
    (∃ err ∈ checkUnderlyingType target t elC, err.isTooSmall = true) ↔
      t.bitWidth target < 32 ∧ 2 ^ valueBits target t ≤ elC.toNat := by
  have hpos := Nat.two_pow_pos (valueBits target t)
  have hchk : checkUnderlyingType target t elC =
      if t.bitWidth target < 32 then
        if 2 ^ valueBits target t - 1 < elC.toNat then
          [.underlyingTypeForEnumIsTooSmall (elC - 1).toNat (2 ^ valueBits target t - 1)]
        else []
      else [] := rfl
  rw [hchk]
  by_cases hw : t.bitWidth target < 32
  · by_cases hc : 2 ^ valueBits target t - 1 < elC.toNat
    · rw [if_pos hw, if_pos hc]
      exact ⟨fun _ => ⟨hw, by omega⟩, fun _ => ⟨_, mem_cons_self, rfl⟩⟩
    · rw [if_pos hw, if_neg hc]
      constructor
      · rintro ⟨err, herr, -⟩
        cases herr
      · rintro ⟨-, hle⟩
        omega
  · rw [if_neg hw]
    constructor
    · rintro ⟨err, herr, -⟩
      cases herr
    · rintro ⟨h, -⟩
      exact absurd h hw

variable {declaration : Declaration}

theorem underlyingType_errors {err : EnumError}
    (h : err ∈ (underlyingType declaration).2) : err.isTooSmall = false := by
  unfold underlyingType at h
  split at h
  · cases h
  · rw [mem_singleton.1 h]
    rfl
  · split at h
    · cases h
    · rw [mem_singleton.1 h]
      rfl
  · rw [mem_singleton.1 h]
    rfl

section Build

variable {target} (hlength : declaration.members.length < 2 ^ 32)
  (hnodup : (declaration.members.map Member.name).Nodup)

include hlength hnodup

theorem reportsTooSmall_iff : ReportsTooSmall target declaration ↔
    (underlyingType declaration).1.bitWidth target < 32 ∧
      2 ^ valueBits target (underlyingType declaration).1 ≤ declaration.members.length := by
  obtain ⟨hc, -, herrs⟩ :=
    addMembers_spec ((underlyingType declaration).1.bitWidth target) hlength hnodup
  rw [← hc, ← exists_tooSmall_check_iff]
  constructor
  · rintro ⟨err, herr, htooSm⟩
    rcases mem_append.1 herr with herr | herr
    · rcases mem_append.1 herr with herr | herr
      · rw [underlyingType_errors herr] at htooSm
        cases htooSm
      · rw [herrs err herr] at htooSm
        cases htooSm
    · exact ⟨err, herr, htooSm⟩
  · rintro ⟨err, herr, htooSm⟩
    exact ⟨err, mem_append_right _ herr, htooSm⟩

theorem mem_members_iff {w : Nat} : (addMembers w declaration.members).members.map Prod.snd =
    (List.range declaration.members.length).map (BitVec.ofNat w) := by
  obtain ⟨-, hmem, -⟩ := addMembers_spec w hlength hnodup
  rw [hmem, numbered]
  apply ext_getElem
  · simp
  · intro i hi hi'
    simp

theorem distinct_of_le {w : Nat} (hle : declaration.members.length ≤ 2 ^ w) :
    ((addMembers w declaration.members).members.map Prod.snd).Nodup := by
  rw [mem_members_iff hlength hnodup]
  apply Nodup.map_on
  · intro i hi j hj heq
    rw [mem_range] at hi hj
    have hbts := congrArg BitVec.toNat heq
    rw [BitVec.toNat_ofNat, BitVec.toNat_ofNat, mod_eq_of_lt (lt_of_lt_of_le hi hle),
      mod_eq_of_lt (lt_of_lt_of_le hj hle)] at hbts
    exact hbts
  · exact nodup_range

theorem distinct_of_accepted (h : (globalThingBuildEnum target declaration).errors = []) :
    ((globalThingBuildEnum target declaration).members.map Prod.snd).Nodup := by
  apply distinct_of_le hlength hnodup
  by_cases hw : (underlyingType declaration).1.bitWidth target < 32
  · have hrep : ¬ ReportsTooSmall target declaration := by
      rintro ⟨error, herr, -⟩
      rw [h] at herr
      cases herr
    rw [reportsTooSmall_iff hlength hnodup] at hrep
    have hlt : declaration.members.length < 2 ^ valueBits target (underlyingType declaration).1 := by
      apply Nat.lt_of_not_le
      intro hle
      exact hrep ⟨hw, hle⟩
    exact le_of_lt (lt_of_lt_of_le hlt (Nat.pow_le_pow_right (by decide) (sub_le _ _)))
  · exact le_trans (le_of_lt hlength)
      (Nat.pow_le_pow_right (by decide) (Nat.le_of_not_lt hw))

end Build

theorem defaultUnderlyingType_fits {n : Nat} (h : n < 2 ^ 32) :
    n ≤ 2 ^ valueBits target (defaultUnderlyingType n) := by
  unfold defaultUnderlyingType
  split
  · rename_i hle
    exact hle
  · split
    · rename_i hle
      exact hle
    · exact le_of_lt h

/-- The number of members is not one more than the largest value of a type of less than 32 bits,
and is not too large for a signed type of 32 bits. -/
def IsChecked (declaration : Declaration) : Prop :=
  ∀ type, declaration.integerType = some type →
    (type.bitWidth target < 32 → declaration.members.length ≠ 2 ^ valueBits target type) ∧
    (32 ≤ type.bitWidth target → declaration.members.length ≤ 2 ^ valueBits target type)

theorem underlyingType_of_none
    (h : declaration.underlyingTypeName = none) :
    (underlyingType declaration).1 = defaultUnderlyingType declaration.members.length := by
  unfold underlyingType
  rw [h]

theorem underlyingType_of_integer
    (h : declaration.underlyingTypeName = some (.fundamental t)) (hty : t.isInteger = true) :
    (underlyingType declaration).1 = t := by
  unfold underlyingType
  rw [h]
  exact congrArg Prod.fst (if_pos hty)

/-- The type of an enum is right exactly if the number of its members is none of those that the
check takes for others. -/
theorem valuesFit_iff {target : TargetPointers}
    (hlength : declaration.members.length < 2 ^ 32)
    (hnodup : (declaration.members.map Member.name).Nodup) :
    ValuesFit target declaration ↔ IsChecked target declaration := by
  have hreports : ReportsTooSmall target declaration ↔ _ := reportsTooSmall_iff hlength hnodup
  have hfits := defaultUnderlyingType_fits target hlength
  constructor
  · intro h type htype
    unfold Declaration.integerType at htype
    split at htype
    · rename_i hnone
      have heq := Option.some.inj htype
      have hnot := (h.default_ hnone).2
      rw [hreports, underlyingType_of_none hnone, heq] at hnot
      rw [heq] at hfits
      exact ⟨fun hwidth hn => hnot ⟨hwidth, by omega⟩, fun _ => hfits⟩
    · rename_i given hgiven
      split at htype
      · rename_i hinteger
        have heq := Option.some.inj htype
        have hiff := h.given given hgiven hinteger
        rw [hreports, underlyingType_of_integer hgiven hinteger, represents_all_iff, heq] at hiff
        constructor
        · intro hwidth hn
          exact hiff.1 ⟨hwidth, by omega⟩ (by omega)
        · intro hwidth
          by_contra hlarge
          exact absurd (hiff.2 hlarge).1 (by omega)
      · cases htype
    · cases htype
  · intro h
    refine ⟨?_, ?_, distinct_of_accepted hlength hnodup⟩
    · intro hnone
      have htype : declaration.integerType =
          some (defaultUnderlyingType declaration.members.length) := by
        unfold Declaration.integerType
        rw [hnone]
      refine ⟨represents_all_iff.2 hfits, ?_⟩
      rw [hreports, underlyingType_of_none hnone]
      rintro ⟨hwidth, hle⟩
      exact (h _ htype).1 hwidth (by omega)
    · intro type hgiven hinteger
      have htype : declaration.integerType = some type := by
        unfold Declaration.integerType
        rw [hgiven]
        exact if_pos hinteger
      obtain ⟨hsmall, hlarge⟩ := h type htype
      rw [hreports, underlyingType_of_integer hgiven hinteger, represents_all_iff]
      constructor
      · rintro ⟨hwidth, hle⟩ hn
        exact hsmall hwidth (by omega)
      · intro hn
        have hwidth : type.bitWidth target < 32 := by
          by_contra hwidth
          exact hn (hlarge (by omega))
        exact ⟨hwidth, by omega⟩

def onOff : Declaration := ⟨none, [⟨asciiText "Off", false⟩, ⟨asciiText "On", false⟩]⟩

theorem valuesFit_iff_onOff : 2 < 2 ^ 32 ∧ (onOff.members.map Member.name).Nodup ∧
    (ValuesFit .bits64 onOff ↔ IsChecked .bits64 onOff) :=
  ⟨by decide, by decide +kernel, valuesFit_iff (by decide) (by decide +kernel)⟩

def manyMembers (n : Nat) : Declaration :=
  ⟨none, (List.range n).map fun i => ⟨replicate (i + 1) (ascii 'a'), false⟩⟩

theorem manyMembers_names (n : Nat) : ((manyMembers n).members.map Member.name).Nodup := by
  rw [manyMembers, map_map]
  apply Nodup.map_on
  · intro i _ j _ heq
    have hlength := congrArg length heq
    rw [comp, comp, length_replicate, length_replicate] at hlength
    omega
  · exact nodup_range

theorem length_manyMembers (n : Nat) : (manyMembers n).members.length = n := by
  rw [manyMembers, length_map, length_range]

/-- An enum of 256 members gets `u8`, which is then reported as too small. -/
theorem not_valuesFit_256 : (manyMembers 256).members.length < 2 ^ 32 ∧
    ((manyMembers 256).members.map Member.name).Nodup ∧ ¬ ValuesFit .bits64 (manyMembers 256) := by
  have hlength : (manyMembers 256).members.length < 2 ^ 32 := by
    rw [length_manyMembers]
    decide
  refine ⟨hlength, manyMembers_names 256, ?_⟩
  intro h
  apply (h.default_ rfl).2
  rw [reportsTooSmall_iff hlength (manyMembers_names 256), underlyingType_of_none rfl,
    length_manyMembers]
  decide

end USprache.CodeBuilder.EnumBuild
