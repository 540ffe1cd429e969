import USprache.CodeBuilder.SignatureParams
import USprache.CodeBuilder.TemplateArgMangling
import USprache.CodeBuilder.TypeNameDecoding

/-!
# Names of constant values

The text of a value shows the low words of its scalars, and nothing else of them.  So the names of
two values differ unless their scalars agree in the low 64 bits.
-/

namespace USprache.CodeBuilder.WithArgs.Itanium

open LexSynt Library Encoding List Nat APInt

/-! ## Integers -/

def integerText (isSigned : Bool) (argValue : BitVec 64) : Text :=
  if isSigned then
    if argValue.msb then ascii 'n' :: signedDecimal (-argValue) else signedDecimal argValue
  else ManglerState.decimal argValue.toNat

theorem text_encodeInteger (isSigned : Bool) (num : APInt) :
    (encodeInteger isSigned num).text = integerText isSigned (lowWord isSigned num) := by
  unfold encodeInteger integerText
  cases isSigned with
  | true =>
    simp only [if_true]
    split
    · rw [text_append, text_push]
      rfl
    · exact text_push _
  | false => exact text_push _

theorem not_isDigit_of_startsWith_E {r : Text} (h : StartsWith 'E' r) :
    ∀ b ∈ r.head?, ¬IsDigit b := by
  intro b hb
  rw [h] at hb
  cases hb
  decide

theorem signedDecimal_head (v : BitVec 64) : ∃ b r, signedDecimal v = b :: r ∧ b ≠ ascii 'n' := by
  unfold signedDecimal
  split
  · exact ⟨_, _, rfl, by decide⟩
  · obtain ⟨b, r, hdec, hd⟩ := decimal_head v.toNat
    refine ⟨b, r, hdec, ?_⟩
    rintro rfl
    revert hd
    decide

theorem signedDecimal_decodes : Decodes signedDecimal (fun _ => True) (StartsWith 'E') := by
  intro v v' rest rest' _ _ hrs hrs' heq
  have hrs := not_isDigit_of_startsWith_E hrs
  have hrs' := not_isDigit_of_startsWith_E hrs'
  have hmi : ∀ n t t', ManglerState.decimal n ++ t ≠ ascii '-' :: t' := by
    intro n t t' h
    obtain ⟨b, digits, hdec, hd⟩ := decimal_head n
    rw [hdec] at h
    rw [(cons.inj h).1] at hd
    revert hd
    decide
  unfold signedDecimal at heq
  split at heq <;> split at heq
  · obtain ⟨hneg, heq⟩ := decimal_decodes trivial trivial hrs hrs' (cons.inj heq).2
    exact ⟨BitVec.neg_inj.1 (BitVec.eq_of_toNat_eq hneg), heq⟩
  · exact absurd heq.symm (hmi _ _ _)
  · exact absurd heq (hmi _ _ _)
  · obtain ⟨hv, heq⟩ := decimal_decodes trivial trivial hrs hrs' heq
    exact ⟨BitVec.eq_of_toNat_eq hv, heq⟩

theorem integerText_decodes (isSigned : Bool) :
    Decodes (integerText isSigned) (fun _ => True) (StartsWith 'E') := by
  intro v v' rest rest' _ _ hrs hrs' heq
  have hn : ∀ v t t', signedDecimal v ++ t ≠ ascii 'n' :: t' := by
    intro v t t' h
    obtain ⟨b, digits, hdec, hb⟩ := signedDecimal_head v
    rw [hdec] at h
    exact hb (cons.inj h).1
  unfold integerText at heq
  cases isSigned with
  | true =>
    simp only [if_true] at heq
    split at heq <;> split at heq
    · obtain ⟨hneg, heq⟩ := signedDecimal_decodes trivial trivial hrs hrs' (cons.inj heq).2
      exact ⟨BitVec.neg_inj.1 hneg, heq⟩
    · exact absurd heq.symm (hn _ _ _)
    · exact absurd heq (hn _ _ _)
    · exact signedDecimal_decodes trivial trivial hrs hrs' heq
  | false =>
    obtain ⟨hv, heq⟩ := decimal_decodes trivial trivial (not_isDigit_of_startsWith_E hrs)
      (not_isDigit_of_startsWith_E hrs') heq
    exact ⟨BitVec.eq_of_toNat_eq hv, heq⟩

/-! ## Constants of a type -/

/-- The width of an LLVM integer.  A `bool` has one bit. -/
def scalarWidth (target : TargetPointers) : FundamentalType → Nat
  | .bool_ => 1
  | type => type.bitWidth target

mutual

/-- The widths of the integers in a constant of the type, one after another. -/
def scalarWidths (target : TargetPointers) : LangType → List Nat
  | .fundamental type | .enumType _ _ type => [scalarWidth target type]
  | .array elementType elementCount =>
    (replicate elementCount.toNat (scalarWidths target elementType)).flatten
  | .tuple elementTypes => allScalarWidths target elementTypes
  | _ => [0]

def allScalarWidths (target : TargetPointers) : List LangType → List Nat
  | [] => []
  | type :: types => scalarWidths target type ++ allScalarWidths target types

end

/-- A constant value of a type that is allowed for template arguments. -/
structure ConstantOf (target : TargetPointers) (type : LangType) where
  valid : isValidForTemplateVariableArgument type = true
  value : Constant
  typed : value.map bitWidth = scalarWidths target type

mutual

/-- The values agree in the low 64 bits of each scalar that is reached with indices of 32 bits. -/
def SameLowWords : LangType → Constant → Constant → Prop
  | .array elementType elementCount, c, c' =>
    ∀ i < elementCount.toNat, i < 2 ^ 32 →
      SameLowWords elementType (arrayElement elementType c i) (arrayElement elementType c' i)
  | .tuple elementTypes, c, c' => SameElements elementTypes c c'
  | _, c, c' => (c.headD ⟨64, 0⟩).bits.setWidth 64 = (c'.headD ⟨64, 0⟩).bits.setWidth 64

def SameElements : List LangType → Constant → Constant → Prop
  | [], _, _ => True
  | type :: types, c, c' =>
    SameLowWords type (c.take (leafCount type)) (c'.take (leafCount type)) ∧
      SameElements types (c.drop (leafCount type)) (c'.drop (leafCount type))

end

variable {target : TargetPointers}

mutual

theorem length_scalarWidths (target : TargetPointers) : ∀ type,
    (scalarWidths target type).length = leafCount type
  | .fundamental _ | .enumType .. | .rawPointer _ | .classType _ | .functionPointer _ => by
    simp [scalarWidths, leafCount]
  | .array elementType elementCount => by
    simp [scalarWidths, leafCount, length_scalarWidths target elementType]
  | .tuple elementTypes => by
    rw [scalarWidths, leafCount, length_allScalarWidths target elementTypes]

theorem length_allScalarWidths (target : TargetPointers) : ∀ ts,
    (allScalarWidths target ts).length = leafCounts ts
  | [] => rfl
  | type :: ts => by
    rw [allScalarWidths, leafCounts, length_append, length_scalarWidths target type,
      length_allScalarWidths target ts]

end

theorem take_drop_replicate {α : Type} (part : List α) {n i : Nat} (h : i < n) :
    ((replicate n part).flatten.drop (i * part.length)).take part.length = part := by
  obtain ⟨k, rfl⟩ : ∃ k, n = i + (k + 1) := ⟨n - i - 1, by omega⟩
  rw [replicate_add, flatten_append, replicate_succ, flatten_cons]
  have hlen : i * part.length = ((replicate i part).flatten).length := by simp
  rw [hlen, drop_left, take_left]

variable {c : Constant} {type : LangType}

theorem widths_arrayElement {elTy : LangType} {elC : UInt64}
    (h : c.map bitWidth = scalarWidths target (.array elTy elC)) {i : Nat}
    (hi : i < elC.toNat) :
    (arrayElement elTy c i).map bitWidth = scalarWidths target elTy := by
  have hmod : i % 2 ^ 32 < elC.toNat := lt_of_le_of_lt (mod_le i _) hi
  rw [arrayElement, map_take, map_drop, h, scalarWidths,
    ← length_scalarWidths target elTy, take_drop_replicate _ hmod]

theorem widths_take {ts : List LangType}
    (h : c.map bitWidth = allScalarWidths target (type :: ts)) :
    (c.take (leafCount type)).map bitWidth = scalarWidths target type ∧
      (c.drop (leafCount type)).map bitWidth = allScalarWidths target ts := by
  rw [map_take, map_drop, h, allScalarWidths, ← length_scalarWidths target type,
    take_left, drop_left]
  exact ⟨rfl, rfl⟩

/-! ## Texts -/

theorem lowWord_eq_iff (isSigned : Bool) {num num' : APInt} (hwidth : num.bitWidth = num'.bitWidth) :
    lowWord isSigned num = lowWord isSigned num' ↔
      num.bits.setWidth 64 = num'.bits.setWidth 64 := by
  obtain ⟨w, x⟩ := num
  obtain ⟨w', y⟩ := num'
  have hw : w = w' := hwidth
  subst hw
  cases isSigned with
  | false => exact Iff.rfl
  | true =>
    show x.signExtend 64 = y.signExtend 64 ↔ x.setWidth 64 = y.setWidth 64
    rcases le_total 64 w with hle | hle
    · rw [BitVec.signExtend_eq_setWidth_of_le x hle, BitVec.signExtend_eq_setWidth_of_le y hle]
    · have hsf : ∀ f : BitVec w → BitVec 64, (∀ (z : BitVec w) (i : Nat), i < w →
          (f z).getLsbD i = z.getLsbD i) → (f x = f y ↔ x = y) := by
        intro f hf
        refine ⟨fun heq => BitVec.eq_of_getLsbD_eq fun i hi => ?_, fun heq => by rw [heq]⟩
        rw [← hf x i hi, heq, hf y i hi]
      rw [hsf (BitVec.signExtend 64) (fun z i hi => ?_), hsf (BitVec.setWidth 64) (fun z i hi => ?_)]
      · rw [BitVec.getLsbD_setWidth, decide_eq_true (lt_of_lt_of_le hi hle), Bool.true_and]
      · rw [BitVec.getLsbD_signExtend, decide_eq_true (lt_of_lt_of_le hi hle), Bool.true_and,
          if_pos hi]

theorem headD_bitWidth {w : Nat} (h : c.map bitWidth = [w]) : (c.headD ⟨64, 0⟩).bitWidth = w := by
  obtain ⟨num, rfl, hnum⟩ := map_eq_singleton_iff.1 h
  exact hnum

def isScalar : LangType → Bool
  | .array .. | .tuple _ => false
  | _ => true

theorem scalar_equations (target : TargetPointers) (h : isScalar type = true) :
    (∀ tyN c, encodeConstexprValue type tyN c =
      pushChar 'L' ++ tyN ++ encodeInteger (isSigned type) (c.headD ⟨64, 0⟩) ++ pushChar 'E') ∧
      (∀ c c', SameLowWords type c c' ↔
        (c.headD ⟨64, 0⟩).bits.setWidth 64 = (c'.headD ⟨64, 0⟩).bits.setWidth 64) ∧
      ∃ w, scalarWidths target type = [w] := by
  cases type with
  | array => cases h
  | tuple => cases h
  | _ =>
    refine ⟨fun tyN c => ?_, fun c c' => ?_, ⟨_, rfl⟩⟩
    · rw [encodeConstexprValue] <;> nofun
    · rw [SameLowWords] <;> nofun

/-- What is written for a constant is read in one way, up to the bits it does not show. -/
def ReadsLowWords (target : TargetPointers) (type : LangType) : Prop :=
  ∀ (typeName : Encoding) (c c' : Constant) (rest rest' : Text),
    c.map bitWidth = scalarWidths target type →
    c'.map bitWidth = scalarWidths target type →
    (encodeConstexprValue type typeName c).text ++ rest =
      (encodeConstexprValue type typeName c').text ++ rest' →
    SameLowWords type c c' ∧ rest = rest'

def ReadsElements (target : TargetPointers) (types : List LangType) : Prop :=
  ∀ (c c' : Constant) (rest rest' : Text), c.map bitWidth = allScalarWidths target types →
    c'.map bitWidth = allScalarWidths target types →
    (encodeElementValues types c).text ++ rest = (encodeElementValues types c').text ++ rest' →
    SameElements types c c' ∧ rest = rest'

theorem readsLowWords_scalar (h : isScalar type = true) : ReadsLowWords target type := by
  intro typeName c c' rest rest' hc hc' heq
  obtain ⟨henc, hsame, w, hwid⟩ := scalar_equations target h
  rw [henc, henc] at heq
  simp only [text_append, append_assoc, text_encodeInteger] at heq
  have hv := append_cancel_left (append_cancel_left heq)
  obtain ⟨hwd, hrs⟩ := integerText_decodes (isSigned type) trivial trivial
    (by exact rfl) (by exact rfl) hv
  rw [hwid] at hc hc'
  have hw := (headD_bitWidth hc).trans (headD_bitWidth hc').symm
  exact ⟨(hsame c c').2 ((lowWord_eq_iff _ hw).1 hwd), append_cancel_left hrs⟩

theorem readsLowWords_flatMap {indices : List Nat} {t t' : Nat → Text} {same : Nat → Prop}
    (h : ∀ i ∈ indices, ∀ r r', t i ++ r = t' i ++ r' → same i ∧ r = r')
    {r r' : Text} (heq : indices.flatMap t ++ r = indices.flatMap t' ++ r') :
    (∀ i ∈ indices, same i) ∧ r = r' := by
  induction indices with
  | nil => exact ⟨nofun, heq⟩
  | cons i indices ih =>
    rw [flatMap_cons, flatMap_cons, append_assoc, append_assoc] at heq
    obtain ⟨hi, htl⟩ := h i mem_cons_self _ _ heq
    obtain ⟨hsame, hrs⟩ := ih (fun j hj => h j (mem_cons_of_mem i hj)) htl
    exact ⟨forall_mem_cons.2 ⟨hi, hsame⟩, hrs⟩

mutual

theorem readsLowWords : ∀ type, ReadsLowWords target type
  | .fundamental _ | .enumType .. | .rawPointer _ | .classType _ | .functionPointer _ =>
    readsLowWords_scalar rfl
  | .array elementType elementCount => by
    intro tyN c c' r r' hc hc' heq
    have hel := readsLowWords elementType
    simp only [encodeConstexprValue, text_append, text_push, text_pushChar, append_assoc,
      text_concat_map] at heq
    obtain ⟨hsame, hrs⟩ := readsLowWords_flatMap (fun i hi r r' heq => hel _ _ _ r r'
        (widths_arrayElement hc (mem_range.1 hi))
        (widths_arrayElement hc' (mem_range.1 hi)) heq)
      (append_cancel_left (append_cancel_left heq))
    refine ⟨?_, append_cancel_left hrs⟩
    rw [SameLowWords]
    exact fun i hi _ => hsame i (mem_range.2 hi)
  | .tuple elementTypes => by
    intro tyN c c' r r' hc hc' heq
    rw [scalarWidths] at hc hc'
    simp only [encodeConstexprValue, text_append, text_push, text_pushChar, append_assoc] at heq
    obtain ⟨hsame, hrs⟩ := readsElements elementTypes c c' _ _ hc hc'
      (append_cancel_left (append_cancel_left heq))
    refine ⟨?_, append_cancel_left hrs⟩
    rw [SameLowWords]
    exact hsame

theorem readsElements : ∀ ts, ReadsElements target ts
  | [] => fun _ _ _ _ _ _ heq => ⟨trivial, heq⟩
  | type :: ts => by
    intro c c' rest rest' hc hc' heq
    obtain ⟨hfst, hos⟩ := widths_take hc
    obtain ⟨hfst', hos'⟩ := widths_take hc'
    simp only [encodeElementValues, text_append, append_assoc] at heq
    obtain ⟨hsame, heq⟩ := readsLowWords type _ _ _ _ _ hfst hfst' heq
    obtain ⟨heq', hrs⟩ := readsElements ts _ _ _ _ hos hos' heq
    rw [SameElements]
    exact ⟨⟨hsame, heq'⟩, hrs⟩

end

theorem encodeInteger_congr {isSigned : Bool} {num num' : APInt}
    (h : lowWord isSigned num = lowWord isSigned num') :
    encodeInteger isSigned num = encodeInteger isSigned num' := by
  unfold encodeInteger
  rw [h]

def WritesLowWords (target : TargetPointers) (type : LangType) : Prop :=
  ∀ (typeName : Encoding) (c c' : Constant), c.map bitWidth = scalarWidths target type →
    c'.map bitWidth = scalarWidths target type → SameLowWords type c c' →
    encodeConstexprValue type typeName c = encodeConstexprValue type typeName c'

theorem writesLowWords_scalar (h : isScalar type = true) :
    WritesLowWords target type := by
  intro typeName c c' hc hc' hws
  obtain ⟨henc, heq, w, hwid⟩ := scalar_equations target h
  rw [hwid] at hc hc'
  have hw := (headD_bitWidth hc).trans (headD_bitWidth hc').symm
  rw [henc, henc, encodeInteger_congr ((lowWord_eq_iff _ hw).2 ((heq c c').1 hws))]

/-- An index is cut to 32 bits, so it reads the element of a smaller index. -/
theorem arrayElement_mod (elTy : LangType) (c : Constant) (i : Nat) :
    arrayElement elTy c (i % 2 ^ 32) = arrayElement elTy c i := by
  rw [arrayElement, mod_mod]
  rfl

mutual

theorem writesLowWords : ∀ type, WritesLowWords target type
  | .fundamental _ | .enumType .. | .rawPointer _ | .classType _ | .functionPointer _ =>
    writesLowWords_scalar rfl
  | .array elementType elementCount => by
    intro tyN c c' hc hc' hws
    rw [SameLowWords] at hws
    have hel := writesLowWords elementType
    rw [encodeConstexprValue, encodeConstexprValue]
    congr 3
    refine map_congr_left fun i hi => ?_
    have hi := mem_range.1 hi
    rw [← arrayElement_mod elementType c, ← arrayElement_mod elementType c']
    have hmod : i % 2 ^ 32 < elementCount.toNat := lt_of_le_of_lt (mod_le i _) hi
    exact hel _ _ _ (widths_arrayElement hc hmod) (widths_arrayElement hc' hmod)
      (hws _ hmod (mod_lt i (by decide)))
  | .tuple elementTypes => by
    intro tyN c c' hc hc' hws
    rw [SameLowWords] at hws
    rw [scalarWidths] at hc hc'
    rw [encodeConstexprValue, encodeConstexprValue, writesElements elementTypes c c' hc hc' hws]

theorem writesElements : ∀ ts c c', c.map bitWidth = allScalarWidths target ts →
    c'.map bitWidth = allScalarWidths target ts → SameElements ts c c' →
    encodeElementValues ts c = encodeElementValues ts c'
  | [], _, _, _, _, _ => rfl
  | type :: ts, c, c', hc, hc', hws => by
    obtain ⟨hfst, hos⟩ := widths_take hc
    obtain ⟨hfst', hos'⟩ := widths_take hc'
    rw [SameElements] at hws
    rw [encodeElementValues, encodeElementValues, writesLowWords type _ _ _ hfst hfst' hws.1,
      writesElements ts _ _ hos hos' hws.2]

end

/-- The name of a value shows the low 64 bits of its scalars. -/
theorem encodeTemplateArg_ne_iff (target : TargetPointers) (type : LangType)
    (a b : ConstantOf target type) :
    (encodeTemplateArgImpl (.variable_ type a.value)).text ≠
        (encodeTemplateArgImpl (.variable_ type b.value)).text ↔
      ¬ SameLowWords type a.value b.value := by
  have hsame : ∀ typeName : Encoding, (encodeConstexprValue type typeName a.value).text =
      (encodeConstexprValue type typeName b.value).text ↔ SameLowWords type a.value b.value := by
    intro typeName
    constructor
    · intro heq
      refine (readsLowWords type typeName a.value b.value [] [] a.typed b.typed ?_).1
      rw [heq]
    · intro hwords
      rw [writesLowWords type typeName a.value b.value a.typed b.typed hwords]
  refine not_congr ?_
  rw [← hsame (encodeTypeName type)]
  cases type with
  | fundamental => rfl
  | enumType => rfl
  | _ =>
    simp only [encodeTemplateArgImpl, text_append,
      append_cancel_left_eq, append_cancel_right_eq]

/-- The values agree in the low 64 bits and differ in the high ones. -/
theorem encodeTemplateArg_collides :
    ∃ a b : ConstantOf .bits64 (.fundamental .u128_), a.value ≠ b.value ∧
      (encodeTemplateArgImpl (.variable_ (.fundamental .u128_) a.value)).text =
        (encodeTemplateArgImpl (.variable_ (.fundamental .u128_) b.value)).text := by
  refine ⟨⟨rfl, [⟨128, 0#128⟩], rfl⟩, ⟨rfl, [⟨128, 18446744073709551616#128⟩], rfl⟩, ?_, ?_⟩
  · decide
  · rfl

end USprache.CodeBuilder.WithArgs.Itanium
