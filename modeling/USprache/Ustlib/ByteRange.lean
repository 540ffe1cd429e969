import USprache.CodeBuilder.Types
import USprache.Library.Intervals

/-!
# Ranges of bytes

The types whose values are read or written byte by byte.  The bytes of a value are listed in the
order of its layout, each with the scalar it is a part of.
-/

namespace USprache.Ustlib.ByteRange

open CodeBuilder Library List Option

structure Platform where
  target : TargetPointers
  alignment : FundamentalType → Nat
  pointerAlignment : Nat

/-- `typeinfo</ $(byte8) />.size_of` -/
def Platform.pointerSize (P : Platform) : Nat := P.target.bitWidth / 8

mutual

/-- A type with what `typeinfo` tells about it.  What is inside a class that is no struct does not
matter. -/
inductive ViewedType where
  | fundamental (type : FundamentalType)
  | rawPointer
  | functionPointer
  | enum (underlyingType : FundamentalType)
  | array (elementType : ViewedType) (elementCount : Nat)
  | tuple (elements : List Field)
  | struct (fields : List Field)
  | class_ (size alignment : Nat)

/-- A field of a struct, or an element of a tuple: that is mutable and no reference. -/
inductive Field where
  | mk (isReference isMutable : Bool) (type : ViewedType)

end

inductive Scalar where
  | fundamental (type : FundamentalType)
  | rawPointer | functionPointer | enum | reference
deriving DecidableEq

/-- A scalar in a value, and whether safe code may assign it through a mutable reference to the value. -/
structure Leaf where
  scalar : Scalar
  isAssignable : Bool
deriving DecidableEq

/-- The leaf of each byte, `none` for padding and for what is not visible. -/
abbrev Bytes := List (Option Leaf)

def leafBytes (size : Nat) (scalar : Scalar) (isAssignable : Bool) : Bytes :=
  replicate size (some ⟨scalar, isAssignable⟩)

def immutableBytes (bytes : Bytes) : Bytes := bytes.map (·.map fun leaf => ⟨leaf.scalar, false⟩)

def pad (alignment : Nat) (bytes : Bytes) : Bytes :=
  bytes ++ replicate (alignTo bytes.length alignment - bytes.length) none

def place (bytes : Bytes) (part : Nat × Bytes) : Bytes := pad part.1 bytes ++ part.2

/-- Parts with their alignments, one behind another. -/
def layOut (parts : List (Nat × Bytes)) : Nat × Bytes :=
  let alignment := (parts.map (·.1)).foldr max 1
  (alignment, pad alignment (parts.foldl place []))

variable (P : Platform)

mutual

def layout : ViewedType → Nat × Bytes
  | .fundamental type => (P.alignment type, leafBytes (type.size P.target) (.fundamental type) true)
  | .rawPointer => (P.pointerAlignment, leafBytes P.pointerSize .rawPointer true)
  | .functionPointer => (P.pointerAlignment, leafBytes P.pointerSize .functionPointer true)
  | .enum underlyingType =>
    (P.alignment underlyingType, leafBytes (underlyingType.size P.target) .enum true)
  | .array elementType elementCount =>
    ((layout elementType).1, (replicate elementCount (layout elementType).2).flatten)
  | .tuple fields | .struct fields => layOut (fieldLayouts fields)
  | .class_ size alignment => (alignment, replicate size none)

def fieldLayouts : List Field → List (Nat × Bytes)
  | [] => []
  | .mk isReference isMutable type :: fields =>
    (if isReference then (P.pointerAlignment, leafBytes P.pointerSize .reference false)
      else if isMutable then layout type
      else ((layout type).1, immutableBytes (layout type).2)) :: fieldLayouts fields

end

def sizeOf (type : ViewedType) : Nat := (layout P type).2.length

def isByte : FundamentalType → Bool
  | .byte8_ | .byte16_ | .byte32_ | .byte64_ | .byte128_ => true
  | _ => false

def isNumeric (type : FundamentalType) : Bool := type.isInteger || type.isFloatingPoint

variable (isMutable : Bool)

mutual

/-- What `can_cast_to_immutable_byte8_range` and `can_cast_to_mutable_byte8_range` share. -/
def canCast : ViewedType → Bool
  | .fundamental type => isNumeric type || type.isChar || isByte type
  | .rawPointer | .functionPointer | .enum _ => !isMutable
  | .array elementType _ => canCast elementType
  | .tuple fields | .struct fields => fieldsSize fields == some (layOut (fieldLayouts P fields)).2.length
  | .class_ _ _ => false

/-- `size_sum` behind the loop over the fields, unless that returns `false`. -/
def fieldsSize : List Field → Option Nat
  | [] => some 0
  | .mk isReference _ type :: fields =>
    if isReference then
      if isMutable then none else (fieldsSize fields).map (P.pointerSize + ·)
    else if canCast type then (fieldsSize fields).map (sizeOf P type + ·) else none

end

def canCastToImmutableByte8Range : ViewedType → Bool := canCast P false

def canCastToMutableByte8Range : ViewedType → Bool := canCast P true

/-! ## Padding -/

variable {P} {isMutable}

theorem length_le_pad (a : Nat) (bytes : Bytes) : bytes.length ≤ (pad a bytes).length := by
  rw [pad, length_append]
  exact Nat.le_add_right _ _

theorem length_place (bytes : Bytes) (part : Nat × Bytes) :
    (place bytes part).length = (pad part.1 bytes).length + part.2.length := length_append

theorem length_le_foldl_place (parts : List (Nat × Bytes)) : ∀ bytes : Bytes,
    bytes.length + (parts.map (·.2.length)).sum ≤ (parts.foldl place bytes).length := by
  induction parts with
  | nil => exact fun _ => le_rfl
  | cons part parts ih =>
    intro bytes
    have hle := ih (place bytes part)
    have hpad := length_le_pad part.1 bytes
    rw [length_place] at hle
    rw [map_cons, sum_cons, foldl_cons]
    omega

variable {bytes : Bytes}

theorem pad_eq {a : Nat} (h : (pad a bytes).length ≤ bytes.length) :
    pad a bytes = bytes := by
  rw [pad, length_append, length_replicate] at h
  rw [pad, show alignTo bytes.length a - bytes.length = 0 by omega]
  exact append_nil bytes

theorem foldl_place_eq (parts : List (Nat × Bytes)) : ∀ bytes : Bytes,
    (parts.foldl place bytes).length ≤ bytes.length + (parts.map (·.2.length)).sum →
      parts.foldl place bytes = bytes ++ parts.flatMap (·.2) := by
  induction parts with
  | nil => exact fun bytes _ => (append_nil bytes).symm
  | cons part parts ih =>
    intro bytes h
    have hle := length_le_foldl_place parts (place bytes part)
    have hlen := length_place bytes part
    rw [map_cons, sum_cons, foldl_cons] at h
    have hplace : place bytes part = bytes ++ part.2 := by rw [place, pad_eq (by omega)]
    rw [flatMap_cons, ← append_assoc, ← hplace]
    have hlen' : (place bytes part).length = bytes.length + part.2.length := by rw [hplace, length_append]
    exact ih _ (by omega)

/-- If the sizes of the parts add up to the size of the whole, then there is no padding. -/
theorem layOut_eq {parts : List (Nat × Bytes)}
    (h : (parts.map (·.2.length)).sum = (layOut parts).2.length) :
    (layOut parts).2 = parts.flatMap (·.2) := by
  have hle := length_le_foldl_place parts []
  rw [length_nil, Nat.zero_add, h] at hle
  have hpad : (layOut parts).2 = parts.foldl place [] := pad_eq hle
  rw [hpad, foldl_place_eq parts [] (by rw [h, hpad, length_nil, Nat.zero_add])]
  rfl

/-! ## Reading and writing -/

/-- Whether all bits of the scalar are defined and, if it is written, all patterns of them are values. -/
def Scalar.allows (isMutable : Bool) : Scalar → Bool
  | .fundamental type => type ≠ .bool_
  | _ => !isMutable

def Accessible (isMutable : Bool) (bytes : Bytes) : Prop :=
  ∀ byte ∈ bytes, ∃ leaf : Leaf, byte = some leaf ∧ leaf.scalar.allows isMutable = true

def Assignable (bytes : Bytes) : Prop := ∀ leaf : Leaf, some leaf ∈ bytes → leaf.isAssignable = true

theorem accessible_leafBytes {size : Nat} {scalar : Scalar} {assignable : Bool}
    (h : scalar.allows isMutable = true) : Accessible isMutable (leafBytes size scalar assignable) :=
  fun _ hbyte => ⟨_, eq_of_mem_replicate hbyte, h⟩

theorem Accessible.append {l r : Bytes} (hl : Accessible isMutable l) (hr : Accessible isMutable r) :
    Accessible isMutable (l ++ r) :=
  fun byte hbyte => (mem_append.1 hbyte).elim (hl byte) (hr byte)

theorem Accessible.immutable (h : Accessible isMutable bytes) :
    Accessible isMutable (immutableBytes bytes) := by
  intro byte hbyte
  obtain ⟨byte, hmem, rfl⟩ := mem_map.1 hbyte
  obtain ⟨leaf, rfl, hallows⟩ := h byte hmem
  exact ⟨_, rfl, hallows⟩

mutual

theorem accessible_of_canCast : (type : ViewedType) → canCast P isMutable type = true →
    Accessible isMutable (layout P type).2
  | .fundamental type, h => accessible_leafBytes (by cases type <;> first | rfl | cases h)
  | .rawPointer, h | .functionPointer, h | .enum _, h => accessible_leafBytes h
  | .array elementType elementCount, h => by
    intro byte hbyte
    obtain ⟨bytes, hbytes, hbyte⟩ := mem_flatten.1 hbyte
    rw [eq_of_mem_replicate hbytes] at hbyte
    exact accessible_of_canCast elementType h byte hbyte
  | .tuple fields, h | .struct fields, h => by
    obtain ⟨hsum, haccessible⟩ := accessible_of_fieldsSize fields (beq_iff_eq.1 h)
    rw [layout, layOut_eq hsum.symm]
    exact haccessible
  | .class_ _ _, h => by cases h

theorem accessible_of_fieldsSize : (fields : List Field) → {sum : Nat} →
    fieldsSize P isMutable fields = some sum →
      sum = ((fieldLayouts P fields).map (·.2.length)).sum ∧
        Accessible isMutable ((fieldLayouts P fields).flatMap (·.2))
  | [], _, h => ⟨(some.inj h).symm, forall_mem_nil _⟩
  | .mk true _ _ :: fields, _, h => by
    rw [fieldsSize, if_pos rfl] at h
    split_ifs at h with hmutable
    obtain ⟨rest, hrest, rfl⟩ := map_eq_some_iff.1 h
    obtain ⟨rfl, haccessible⟩ := accessible_of_fieldsSize fields hrest
    obtain rfl : isMutable = false := Bool.eq_false_iff.2 hmutable
    exact ⟨by simp [fieldLayouts, leafBytes], (accessible_leafBytes rfl).append haccessible⟩
  | .mk false fieldIsMutable type :: fields, _, h => by
    rw [fieldsSize, if_neg Bool.false_ne_true] at h
    split_ifs at h with htype
    obtain ⟨rest, hrest, rfl⟩ := map_eq_some_iff.1 h
    obtain ⟨rfl, haccessible⟩ := accessible_of_fieldsSize fields hrest
    have hbytes := accessible_of_canCast type htype
    cases fieldIsMutable with
    | true => exact ⟨rfl, hbytes.append haccessible⟩
    | false =>
      exact ⟨by simp [fieldLayouts, immutableBytes, sizeOf], hbytes.immutable.append haccessible⟩

end

/-! ## Assigning -/

variable (P)

mutual

def hasNoImmutableBytes : ViewedType → Bool
  | .array elementType elementCount => elementCount = 0 || hasNoImmutableBytes elementType
  | .tuple fields | .struct fields => fieldsHaveNoImmutableBytes fields
  | _ => true

def fieldsHaveNoImmutableBytes : List Field → Bool
  | [] => true
  | .mk _ fieldIsMutable type :: fields =>
    (if fieldIsMutable then hasNoImmutableBytes type else sizeOf P type = 0) &&
      fieldsHaveNoImmutableBytes fields

end

variable {P}

theorem assignable_append {l r : Bytes} : Assignable (l ++ r) ↔ Assignable l ∧ Assignable r := by
  simp only [Assignable, mem_append, or_imp, forall_and]

theorem assignable_immutableBytes (h : Accessible true bytes) :
    Assignable (immutableBytes bytes) ↔ bytes.length = 0 := by
  cases bytes with
  | nil => exact iff_of_true nofun rfl
  | cons byte bytes =>
    obtain ⟨leaf, rfl, -⟩ := h byte mem_cons_self
    exact iff_of_false (fun hall => Bool.false_ne_true (hall _ mem_cons_self)) (Nat.succ_ne_zero _)

mutual

theorem assignable_iff : (type : ViewedType) → canCast P true type = true →
    (Assignable (layout P type).2 ↔ hasNoImmutableBytes P type = true)
  | .fundamental _, _ => iff_of_true (fun _ h => by cases eq_of_mem_replicate h; rfl) rfl
  | .rawPointer, h | .functionPointer, h | .enum _, h | .class_ _ _, h => by cases h
  | .array elementType elementCount, h => by
    rw [hasNoImmutableBytes, Bool.or_eq_true, decide_eq_true_eq, ← assignable_iff elementType h, layout]
    by_cases hzero : elementCount = 0 <;> simp [Assignable, mem_flatten, mem_replicate, hzero]
  | .tuple fields, h | .struct fields, h => by
    obtain ⟨hsum, -⟩ := accessible_of_fieldsSize fields (beq_iff_eq.1 h)
    rw [layout, layOut_eq hsum.symm]
    exact fields_assignable_iff fields (beq_iff_eq.1 h)

theorem fields_assignable_iff : (fields : List Field) → {sum : Nat} →
    fieldsSize P true fields = some sum →
      (Assignable ((fieldLayouts P fields).flatMap (·.2)) ↔ fieldsHaveNoImmutableBytes P fields = true)
  | [], _, _ => iff_of_true nofun rfl
  | .mk true _ _ :: _, _, h => by cases h
  | .mk false fieldIsMutable type :: fields, _, h => by
    rw [fieldsSize, if_neg Bool.false_ne_true] at h
    split_ifs at h with htype
    obtain ⟨rest, hrest, -⟩ := map_eq_some_iff.1 h
    rw [fieldLayouts, flatMap_cons, assignable_append, fields_assignable_iff fields hrest,
      fieldsHaveNoImmutableBytes, Bool.and_eq_true, if_neg Bool.false_ne_true]
    cases fieldIsMutable with
    | true => rw [if_pos rfl, if_pos rfl, assignable_iff type htype]
    | false =>
      rw [if_neg Bool.false_ne_true, if_neg Bool.false_ne_true, decide_eq_true_eq,
        assignable_immutableBytes (accessible_of_canCast type htype), sizeOf]

end

/-! ## Ranges -/

/-- A range of elements of one type, from an address on. -/
structure RandomAccessRange where
  begin_ : Nat
  size_ : Nat

def RandomAccessRange.HasByte (range : RandomAccessRange) (elementSize a : Nat) : Prop :=
  ∃ i < range.size_, ∃ j < elementSize, a = range.begin_ + i * elementSize + j

/-- `to_byte8_range`, with the multiplication of `size_type`. -/
def toByte8Range (P : Platform) (type : ViewedType) (range : RandomAccessRange) : RandomAccessRange :=
  ⟨range.begin_, range.size_ * sizeOf P type % 2 ^ P.target.bitWidth⟩

theorem hasByte_toByte8Range {type : ViewedType} {range : RandomAccessRange}
    (h : range.begin_ + range.size_ * sizeOf P type < 2 ^ P.target.bitWidth) (a : Nat) :
    (toByte8Range P type range).HasByte 1 a ↔ range.HasByte (sizeOf P type) a := by
  rw [toByte8Range, Nat.mod_eq_of_lt (by omega)]
  constructor
  · rintro ⟨i, hi, j, hj, rfl⟩
    dsimp only at hi ⊢
    have hpos : 0 < sizeOf P type := Nat.pos_of_ne_zero fun hzero => by simp [hzero] at hi
    refine ⟨i / sizeOf P type, Nat.div_lt_of_lt_mul (by rwa [Nat.mul_comm]), i % sizeOf P type,
      Nat.mod_lt _ hpos, ?_⟩
    have hdiv := Nat.div_add_mod' i (sizeOf P type)
    omega
  · rintro ⟨i, hi, j, hj, rfl⟩
    refine ⟨i * sizeOf P type + j, ?_, 0, Nat.one_pos, by dsimp only; omega⟩
    have hle := Nat.mul_le_mul_right (sizeOf P type) (Nat.succ_le_of_lt hi)
    rw [Nat.succ_mul] at hle
    dsimp only
    omega

/-- The types that are accepted may be accessed as bytes, and the bytes are those of the range. -/
def SeenAsBytes (P : Platform) (type : ViewedType) (range : RandomAccessRange) : Prop :=
  (canCastToImmutableByte8Range P type = true → Accessible false (layout P type).2) ∧
  (canCastToMutableByte8Range P type = true →
    Accessible true (layout P type).2 ∧ Assignable (layout P type).2) ∧
  ∀ a, (toByte8Range P type range).HasByte 1 a ↔ range.HasByte (sizeOf P type) a

/-- Only immutable fields are written that must not be. -/
theorem seenAsBytes_iff (P : Platform) (type : ViewedType) (range : RandomAccessRange)
    (h : range.begin_ + range.size_ * sizeOf P type < 2 ^ P.target.bitWidth) :
    SeenAsBytes P type range ↔
      (canCastToMutableByte8Range P type = true → hasNoImmutableBytes P type = true) := by
  constructor
  · exact fun hseen hcan => (assignable_iff type hcan).1 (hseen.2.1 hcan).2
  · intro hno
    exact ⟨accessible_of_canCast type,
      fun hcan => ⟨accessible_of_canCast type hcan, (assignable_iff type hcan).2 (hno hcan)⟩,
      hasByte_toByte8Range h⟩

/-- Every fundamental type is aligned like its size. -/
def sampleTarget : Platform := ⟨.bits64, fun type => max 1 (type.size .bits64), 8⟩

/-- `struct S{ i32 x; u16 y; u16 z; }` -/
def threeFields : ViewedType := .struct
  [.mk false true (.fundamental .i32_), .mk false true (.fundamental .u16_),
    .mk false true (.fundamental .u16_)]

theorem seenAsBytes_threeFields : SeenAsBytes sampleTarget threeFields ⟨64, 3⟩ :=
  (seenAsBytes_iff sampleTarget threeFields ⟨64, 3⟩ (by decide)).2 fun _ => rfl

/-- The field of `struct S{ i32 imut x; }` is written. -/
theorem not_seenAsBytes_immutableField :
    ¬SeenAsBytes sampleTarget (.struct [.mk false false (.fundamental .i32_)]) ⟨64, 1⟩ := by
  intro hseen
  have hassignable := (hseen.2.1 (by decide)).2 ⟨.fundamental .i32_, false⟩ (by decide)
  cases hassignable

end USprache.Ustlib.ByteRange
