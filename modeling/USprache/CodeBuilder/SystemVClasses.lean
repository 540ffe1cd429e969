import USprache.CodeBuilder.TypesWithArgs
import USprache.Library.Intervals

/-!
# Layout of the types of LLVM

Sizes, alignments and offsets as in the data layout of x86_64.  An integer is aligned like the
smallest integer of the data layout that is not smaller, and integers of more than 64 bits are
aligned like those of 64 bits.
-/

namespace USprache.CodeBuilder.WithArgs.SystemV

open Library

/-- `llvm::Type`, a struct with its elements. -/
inductive LlvmType where
  | integer (bitWidth : ℕ+)
  | float
  | double
  | pointer
  | array (elementType : LlvmType) (elementCount : Nat)
  | struct (elementTypes : List LlvmType)

def integerAlignment (bitWidth : Nat) : Nat :=
  if bitWidth ≤ 8 then 1 else if bitWidth ≤ 16 then 2 else if bitWidth ≤ 32 then 4 else 8

/-- `getTypeStoreSize` of an integer. -/
def integerStoreSize (bitWidth : Nat) : Nat := (bitWidth + 7) / 8

mutual

/-- `getABITypeAlign`. -/
def alignment : LlvmType → Nat
  | .integer bitWidth => integerAlignment bitWidth
  | .float => 4
  | .double => 8
  | .pointer => 8
  | .array elementType _ => alignment elementType
  | .struct elementTypes => structAlignment elementTypes

def structAlignment : List LlvmType → Nat
  | [] => 1
  | type :: types => max (alignment type) (structAlignment types)

end

mutual

def allocSize : LlvmType → Nat
  | .integer bitWidth => alignTo (integerStoreSize bitWidth) (integerAlignment bitWidth)
  | .float => 4
  | .double => 8
  | .pointer => 8
  | .array elementType elementCount => elementCount * allocSize elementType
  | .struct elementTypes => alignTo (structEnd elementTypes 0) (structAlignment elementTypes)

/-- The offset behind the elements of a struct that begin not before `start`. -/
def structEnd : List LlvmType → Nat → Nat
  | [], start => start
  | type :: types, start => structEnd types (alignTo start (alignment type) + allocSize type)

end

/-- `getElementOffset` of each element. -/
def elementOffsets : List LlvmType → Nat → List Nat
  | [], _ => []
  | type :: types, start =>
    alignTo start (alignment type) ::
      elementOffsets types (alignTo start (alignment type) + allocSize type)

/-! ## Alignments -/

theorem integerAlignment_cases (bW : Nat) : integerAlignment bW = 1 ∨ integerAlignment bW = 2 ∨
    integerAlignment bW = 4 ∨ integerAlignment bW = 8 := by
  unfold integerAlignment
  split
  · exact .inl rfl
  · split
    · exact .inr (.inl rfl)
    · split
      · exact .inr (.inr (.inl rfl))
      · exact .inr (.inr (.inr rfl))

def IsAlignment (a : Nat) : Prop := a = 1 ∨ a = 2 ∨ a = 4 ∨ a = 8

theorem IsAlignment.pos {a : Nat} (h : IsAlignment a) : 0 < a := by
  unfold IsAlignment at h
  omega

theorem IsAlignment.max {a b : Nat} (ha : IsAlignment a) (hb : IsAlignment b) :
    IsAlignment (max a b) := by
  unfold IsAlignment at *
  omega

theorem IsAlignment.dvd {a b : Nat} (ha : IsAlignment a) (hb : IsAlignment b) (h : a ≤ b) :
    a ∣ b := by
  rcases ha with rfl | rfl | rfl | rfl <;> rcases hb with rfl | rfl | rfl | rfl <;> omega

mutual

theorem isAlignment_alignment : (type : LlvmType) → IsAlignment (alignment type)
  | .integer bitWidth => integerAlignment_cases bitWidth
  | .float => Or.inr (Or.inr (Or.inl rfl))
  | .double | .pointer => Or.inr (Or.inr (Or.inr rfl))
  | .array elementType _ => isAlignment_alignment elementType
  | .struct elementTypes => isAlignment_structAlignment elementTypes

theorem isAlignment_structAlignment : (ts : List LlvmType) → IsAlignment (structAlignment ts)
  | [] => Or.inl rfl
  | type :: ts => (isAlignment_alignment type).max (isAlignment_structAlignment ts)

end

theorem alignment_pos (type : LlvmType) : 0 < alignment type := (isAlignment_alignment type).pos

theorem alignment_dvd_allocSize : (type : LlvmType) → alignment type ∣ allocSize type
  | .integer _ => dvd_alignTo
  | .float => Nat.dvd_refl 4
  | .double | .pointer => Nat.dvd_refl 8
  | .array elementType _ =>
    Nat.dvd_trans (alignment_dvd_allocSize elementType) (Nat.dvd_mul_left ..)
  | .struct _ => dvd_alignTo

theorem alignment_dvd_structAlignment {type : LlvmType} {ts : List LlvmType}
    (h : type ∈ ts) : alignment type ∣ structAlignment ts := by
  have hle : alignment type ≤ structAlignment ts := by
    induction ts with
    | nil => cases h
    | cons next ts ih =>
      cases h with
      | head => exact le_max_left ..
      | tail _ h => exact le_trans (ih h) (le_max_right ..)
  exact (isAlignment_alignment type).dvd (isAlignment_structAlignment ts) hle

theorem le_structEnd (ts : List LlvmType) (s : Nat) : s ≤ structEnd ts s := by
  induction ts generalizing s with
  | nil => exact le_refl s
  | cons type ts ih =>
    have hst : s ≤ alignTo s (alignment type) := le_alignTo (alignment_pos type)
    have hend := ih (alignTo s (alignment type) + allocSize type)
    rw [structEnd]
    omega

theorem structEnd_le_allocSize (ts : List LlvmType) : structEnd ts 0 ≤ allocSize (.struct ts) := by
  exact le_alignTo (isAlignment_structAlignment ts).pos

/-- An element without a size is padded for, but the padding is less than its alignment. -/
example : allocSize (.struct [.integer 8, .array .double 0]) = 8 := by decide

/-- `void` is an empty struct. -/
def fundamentalLlvmType : FundamentalType → LlvmType
  | .void_ => .struct []
  | .bool_ => .integer 1
  | .f32_ => .float
  | .f64_ => .double
  | type => .integer (type.bitWidth .bits64).toPNat'

section

-- The elements of the structs of the classes.
variable (body : Class → List LlvmType)

mutual

/-- `GetLLVMType` of a complete type. -/
def llvmTypeOf : LangType → LlvmType
  | .fundamental type => fundamentalLlvmType type
  | .enumType _ _ underlyingType => fundamentalLlvmType underlyingType
  | .rawPointer _ => .pointer
  | .functionPointer _ => .pointer
  | .classType class_ => .struct (body class_)
  | .array elementType elementCount => .array (llvmTypeOf elementType) elementCount.toNat
  | .tuple elementTypes => .struct (llvmTypesOf elementTypes)

def llvmTypesOf : List LangType → List LlvmType
  | [] => []
  | type :: types => llvmTypeOf type :: llvmTypesOf types

end

end

end USprache.CodeBuilder.WithArgs.SystemV

/-!
# Classes of eightbytes

A composite of at most 16 bytes is passed in up to two parts of eight bytes.  A part that an
integer or a pointer overlaps goes into an integer register, any other part into a
floating-point register.
-/

namespace USprache.CodeBuilder.WithArgs.SystemV

open Library List Nat

inductive ArgumentClass where
  | noClass | integer | sse
deriving DecidableEq

def mergeArgumentClasses (dst src : ArgumentClass) : ArgumentClass :=
  if dst = src then dst
  else if src = .noClass then dst
  else if dst = .noClass then src
  else if src = .integer then .integer
  else if dst = .integer then dst
  else .sse

structure ArgumentPartClasses where
  first : ArgumentClass
  second : ArgumentClass

def noClasses : ArgumentPartClasses := { first := .noClass, second := .noClass }

/-- `MergeArgumentClasses( out_classes[ slot ], src )`.  There are two slots only. -/
def mergeAt (classes : ArgumentPartClasses) (slot : Nat) (src : ArgumentClass) :
    Option ArgumentPartClasses :=
  match slot with
  | 0 => some { classes with first := mergeArgumentClasses classes.first src }
  | 1 => some { classes with second := mergeArgumentClasses classes.second src }
  | _ => none

/-- `offset + uint32_t( delta )`. -/
def addOffset (offset delta : Nat) : Nat := (offset + delta % 2 ^ 32) % 2 ^ 32

mutual

/-- `ClassifyType_r`.  There is no result if a slot behind the second one is addressed. -/
def classifyType : LlvmType → ArgumentPartClasses → Nat → Option ArgumentPartClasses
  | .pointer, classes, offset => mergeAt classes (offset >>> 3) .integer
  | .integer bitWidth, classes, offset =>
    (mergeAt classes (offset >>> 3) .integer).bind fun classes =>
      if 64 < (bitWidth : Nat) then mergeAt classes (addOffset offset 8 >>> 3) .integer
      else some classes
  | .float, classes, offset => mergeAt classes (offset >>> 3) .sse
  | .double, classes, offset => mergeAt classes (offset >>> 3) .sse
  | .array elementType elementCount, classes, offset =>
    (List.range elementCount).foldlM (fun classes elementIndex =>
      classifyType elementType classes
        (addOffset offset (elementIndex * allocSize elementType))) classes
  | .struct elementTypes, classes, offset =>
    classifyElements elementTypes (elementOffsets elementTypes 0) classes offset

def classifyElements :
    List LlvmType → List Nat → ArgumentPartClasses → Nat → Option ArgumentPartClasses
  | type :: types, elementOffset :: offsets, classes, offset =>
    (classifyType type classes (addOffset offset elementOffset)).bind fun classes =>
      classifyElements types offsets classes offset
  | _, _, classes, _ => some classes

end

/-- An integer, a pointer or a floating-point number in a value. -/
structure Scalar where
  offset : Nat
  size : Nat
  isFloatingPoint : Bool

def Scalar.overlaps (scalar : Scalar) (eightbyte : Nat) : Bool :=
  decide (scalar.offset < 8 * eightbyte + 8 ∧ 8 * eightbyte < scalar.offset + scalar.size)

mutual

def scalars : LlvmType → Nat → List Scalar
  | .integer bitWidth, offset => [⟨offset, integerStoreSize bitWidth, false⟩]
  | .float, offset => [⟨offset, 4, true⟩]
  | .double, offset => [⟨offset, 8, true⟩]
  | .pointer, offset => [⟨offset, 8, false⟩]
  | .array elementType elementCount, offset =>
    (List.range elementCount).flatMap fun elementIndex =>
      scalars elementType (offset + elementIndex * allocSize elementType)
  | .struct elementTypes, offset => scalarsOfElements elementTypes 0 offset

def scalarsOfElements : List LlvmType → Nat → Nat → List Scalar
  | [], _, _ => []
  | type :: types, start, offset =>
    scalars type (offset + alignTo start (alignment type)) ++
      scalarsOfElements types (alignTo start (alignment type) + allocSize type) offset

end

variable (type : LlvmType) (eightbyte : Nat)

def eightbyteClass : ArgumentClass :=
  if (scalars type 0).any fun scalar => !scalar.isFloatingPoint && scalar.overlaps eightbyte then
    .integer
  else .sse

def eightbyteCount : Nat := (allocSize type + 7) / 8

/-- `ClassifyType_r` keeps to the two slots, and leaves its class in each eightbyte. -/
def ClassifiesEightbytes : Prop :=
  ∃ classes, classifyType type noClasses 0 = some classes ∧
    (0 < eightbyteCount type → classes.first = eightbyteClass type 0) ∧
    (1 < eightbyteCount type → classes.second = eightbyteClass type 1)

def Scalar.argumentClass (scalar : Scalar) : ArgumentClass :=
  if scalar.isFloatingPoint then .sse else .integer

def mergeScalarInto (class_ : ArgumentClass) (scalar : Scalar) : ArgumentClass :=
  if scalar.overlaps eightbyte then mergeArgumentClasses class_ scalar.argumentClass else class_

def mergeScalar (classes : ArgumentPartClasses) (scalar : Scalar) : ArgumentPartClasses where
  first := mergeScalarInto 0 classes.first scalar
  second := mergeScalarInto 1 classes.second scalar

theorem foldl_mergeScalar (seen : List Scalar) (classes : ArgumentPartClasses) :
    seen.foldl mergeScalar classes =
      { first := seen.foldl (mergeScalarInto 0) classes.first,
        second := seen.foldl (mergeScalarInto 1) classes.second } := by
  induction seen generalizing classes with
  | nil => rfl
  | cons sc seen ih => exact ih (mergeScalar classes sc)

theorem foldl_mergeScalarInto_integer (seen : List Scalar) :
    seen.foldl (mergeScalarInto eightbyte) .integer = .integer := by
  induction seen with
  | nil => rfl
  | cons sc seen ih =>
    have hst : mergeScalarInto eightbyte .integer sc = .integer := by
      unfold mergeScalarInto Scalar.argumentClass
      cases sc.isFloatingPoint <;> simp [mergeArgumentClasses]
    rw [foldl_cons, hst]
    exact ih

theorem foldl_mergeScalarInto (visited : List Scalar) (class_ : ArgumentClass)
    (hcl : class_ ≠ .integer) :
    visited.foldl (mergeScalarInto eightbyte) class_ =
      if visited.any fun scalar => !scalar.isFloatingPoint && scalar.overlaps eightbyte then
        .integer
      else if visited.any fun scalar => scalar.overlaps eightbyte then .sse
      else class_ := by
  induction visited generalizing class_ with
  | nil => rfl
  | cons scalar visited ih =>
    rw [foldl_cons]
    cases hov : scalar.overlaps eightbyte with
    | false =>
      have hst : mergeScalarInto eightbyte class_ scalar = class_ := by
        simp [mergeScalarInto, hov]
      rw [hst, ih class_ hcl]
      simp [hov]
    | true =>
      cases hflo : scalar.isFloatingPoint with
      | false =>
        have hst : mergeScalarInto eightbyte class_ scalar = .integer := by
          cases class_ <;>
            simp [mergeScalarInto, Scalar.argumentClass, hov, hflo, mergeArgumentClasses]
        rw [hst, foldl_mergeScalarInto_integer]
        simp [hov, hflo]
      | true =>
        have hst : mergeScalarInto eightbyte class_ scalar = .sse := by
          cases class_ <;>
            simp_all [mergeScalarInto, Scalar.argumentClass, mergeArgumentClasses]
        rw [hst, ih .sse (by decide)]
        simp [hov, hflo]

/-! ## Visiting the scalars -/

theorem addOffset_of_lt {off delta : Nat} (h : off + delta < 2 ^ 32) :
    addOffset off delta = off + delta := by
  unfold addOffset
  rw [mod_eq_of_lt (by omega : delta < 2 ^ 32), mod_eq_of_lt h]

/-- A scalar within an eightbyte is merged into the class of this eightbyte only. -/
theorem mergeAt_eq (classes : ArgumentPartClasses) (sc : Scalar)
    (hsz : 0 < sc.size) (hend : sc.offset + sc.size ≤ 16)
    (hwi : sc.offset % 8 + sc.size ≤ 8) :
    mergeAt classes (sc.offset >>> 3) sc.argumentClass = some (mergeScalar classes sc) := by
  rw [shiftRight_eq_div_pow]
  have hslot : sc.offset / 2 ^ 3 = 0 ∨ sc.offset / 2 ^ 3 = 1 := by omega
  cases hslot with
  | inl hslot =>
    have hfst : sc.overlaps 0 = true := decide_eq_true (by omega)
    have hsnd : sc.overlaps 1 = false := decide_eq_false (by omega)
    rw [hslot]
    simp [mergeAt, mergeScalar, mergeScalarInto, hfst, hsnd]
  | inr hslot =>
    have hfst : sc.overlaps 0 = false := decide_eq_false (by omega)
    have hsnd : sc.overlaps 1 = true := decide_eq_true (by omega)
    rw [hslot]
    simp [mergeAt, mergeScalar, mergeScalarInto, hfst, hsnd]

theorem integerStoreSize_pos (bW : ℕ+) : 0 < integerStoreSize bW := by
  have hpos := bW.pos
  unfold integerStoreSize
  omega

theorem integerAlignment_of_wide {bW : Nat} (h : 64 < bW) : integerAlignment bW = 8 := by
  unfold integerAlignment
  rw [if_neg (by omega), if_neg (by omega), if_neg (by omega)]

theorem integerStoreSize_le_alignment {bW : Nat} (h : bW ≤ 64) :
    integerStoreSize bW ≤ integerAlignment bW := by
  unfold integerStoreSize integerAlignment
  split
  · omega
  · split
    · omega
    · split <;> omega

theorem classifyType_integer (bW : ℕ+) (classes : ArgumentPartClasses) (off : Nat)
    (hal : integerAlignment bW ∣ off)
    (hend : off + allocSize (.integer bW) ≤ 16) :
    classifyType (.integer bW) classes off =
      some (mergeScalar classes ⟨off, integerStoreSize bW, false⟩) := by
  have hpos := integerStoreSize_pos bW
  have hsz : integerStoreSize bW ≤ allocSize (.integer bW) := by
    exact le_alignTo (alignment_pos (.integer bW))
  rw [classifyType]
  by_cases hwide : 64 < (bW : Nat)
  · have hali : integerAlignment bW = 8 := integerAlignment_of_wide hwide
    have hdvd : integerAlignment bW ∣ allocSize (.integer bW) :=
      alignment_dvd_allocSize (.integer bW)
    have hsto : 8 < integerStoreSize bW := by
      unfold integerStoreSize
      omega
    have hoff : off = 0 := by
      rw [hali] at hal hdvd
      omega
    have hov : ∀ eightbyte < 2,
        Scalar.overlaps ⟨0, integerStoreSize bW, false⟩ eightbyte = true := by
      intro eightbyte heightbyte
      apply decide_eq_true
      show 0 < 8 * eightbyte + 8 ∧ 8 * eightbyte < 0 + integerStoreSize bW
      omega
    subst hoff
    simp [hwide, mergeAt, addOffset, mergeScalar, mergeScalarInto, Scalar.argumentClass,
      hov 0 (by omega), hov 1 (by omega)]
  · have hwi : off % 8 + integerStoreSize bW ≤ 8 := by
      have hcs := integerAlignment_cases bW
      have hsto : integerStoreSize bW ≤ integerAlignment bW :=
        integerStoreSize_le_alignment (not_lt.1 hwide)
      rcases hcs with h | h | h | h <;> rw [h] at hal hsto <;> omega
    have hmer := mergeAt_eq classes ⟨off, integerStoreSize bW, false⟩ hpos
      (by show off + integerStoreSize bW ≤ 16; omega) hwi
    have hmer : mergeAt classes (off >>> 3) .integer =
      some (mergeScalar classes ⟨off, integerStoreSize bW, false⟩) := hmer
    rw [hmer, Option.bind_some, if_neg hwide]

theorem foldlM_eq_foldl {α β : Type} {f : β → α → Option β} {g : β → α → β} {xs : List α}
    (h : ∀ a ∈ xs, ∀ b, f b a = some (g b a)) (s : β) :
    xs.foldlM f s = some (xs.foldl g s) := by
  induction xs generalizing s with
  | nil => rfl
  | cons a xs ih =>
    rw [foldlM_cons, h a mem_cons_self]
    exact ih (fun a ha => h a (mem_cons_of_mem _ ha)) (g s a)

theorem element_end_le {elI elC : Nat} (h : elI < elC) (sz : Nat) : elI * sz + sz ≤ elC * sz := by
  calc
    elI * sz + sz = (elI + 1) * sz := (succ_mul ..).symm
    _ ≤ elC * sz := mul_le_mul_right sz h

mutual

/-- `ClassifyType_r` visits the scalars of an aligned value one after another. -/
theorem classifyType_eq : (type : LlvmType) → (classes : ArgumentPartClasses) → (off : Nat) →
    alignment type ∣ off → off + allocSize type ≤ 16 →
    classifyType type classes off = some ((scalars type off).foldl mergeScalar classes)
  | .integer bitWidth, classes, off, hal, hend =>
    classifyType_integer bitWidth classes off hal hend
  | .float, classes, off, hal, hend => by
    have hal : 4 ∣ off := hal
    have hend : off + 4 ≤ 16 := hend
    exact mergeAt_eq classes ⟨off, 4, true⟩ (succ_pos _) hend (by show off % 8 + 4 ≤ 8; omega)
  | .double, classes, off, hal, hend => by
    have hal : 8 ∣ off := hal
    have hend : off + 8 ≤ 16 := hend
    exact mergeAt_eq classes ⟨off, 8, true⟩ (succ_pos _) hend (by show off % 8 + 8 ≤ 8; omega)
  | .pointer, classes, off, hal, hend => by
    have hal : 8 ∣ off := hal
    have hend : off + 8 ≤ 16 := hend
    exact mergeAt_eq classes ⟨off, 8, false⟩ (succ_pos _) hend (by show off % 8 + 8 ≤ 8; omega)
  | .array elementType elementCount, classes, off, hal, hend => by
    have hel : ∀ elI ∈ range elementCount, ∀ classes, classifyType elementType classes
            (addOffset off (elI * allocSize elementType)) =
          some ((scalars elementType (off + elI * allocSize elementType)).foldl
            mergeScalar classes) := by
      intro elI hix classes
      have hle := element_end_le (mem_range.1 hix) (allocSize elementType)
      have hend : off + elementCount * allocSize elementType ≤ 16 := hend
      rw [addOffset_of_lt (by omega)]
      apply classifyType_eq elementType
      · exact Nat.dvd_add hal
          (dvd_trans (alignment_dvd_allocSize elementType) (dvd_mul_left ..))
      · omega
    rw [classifyType, foldlM_eq_foldl hel classes, scalars, foldl_flatMap]
  | .struct elementTypes, classes, off, hal, hend => by
    have hle := structEnd_le_allocSize elementTypes
    exact classifyElements_eq elementTypes 0 classes off
      (fun type h => dvd_trans (alignment_dvd_structAlignment h) hal) (by omega)

theorem classifyElements_eq : (ts : List LlvmType) → (s : Nat) →
    (classes : ArgumentPartClasses) → (off : Nat) →
    (∀ type ∈ ts, alignment type ∣ off) → off + structEnd ts s ≤ 16 →
    classifyElements ts (elementOffsets ts s) classes off =
      some ((scalarsOfElements ts s off).foldl mergeScalar classes)
  | [], _, _, _, _, _ => rfl
  | type :: ts, s, classes, off, hal, hend => by
    have hend : off + structEnd ts (alignTo s (alignment type) + allocSize type) ≤ 16 := hend
    have hle := le_structEnd ts (alignTo s (alignment type) + allocSize type)
    have hfst := classifyType_eq type classes (off + alignTo s (alignment type))
      (Nat.dvd_add (hal type mem_cons_self) dvd_alignTo) (by omega)
    rw [elementOffsets, classifyElements, addOffset_of_lt (by omega), hfst, Option.bind_some,
      scalarsOfElements, foldl_append]
    exact classifyElements_eq ts _ _ off (fun next h => hal next (mem_cons_of_mem type h)) hend

end

/-! ## Scalars in each eightbyte -/

mutual

theorem mem_scalars : (type : LlvmType) → (off : Nat) → ∀ sc ∈ scalars type off,
    0 < sc.size ∧ sc.offset + sc.size ≤ off + allocSize type
  | .integer bitWidth, off, sc, h => by
    rw [scalars, mem_singleton] at h
    subst h
    have hle : integerStoreSize bitWidth ≤ allocSize (.integer bitWidth) := by
      exact le_alignTo (alignment_pos (.integer bitWidth))
    exact ⟨integerStoreSize_pos bitWidth, Nat.add_le_add_left hle off⟩
  | .float, off, sc, h | .double, off, sc, h | .pointer, off, sc, h => by
    rw [scalars, mem_singleton] at h
    subst h
    exact ⟨succ_pos _, le_refl _⟩
  | .array elementType elementCount, off, sc, h => by
    rw [scalars, mem_flatMap] at h
    obtain ⟨elementIndex, hix, h⟩ := h
    have hsc := mem_scalars elementType _ sc h
    have hle := element_end_le (mem_range.1 hix) (allocSize elementType)
    rw [allocSize]
    omega
  | .struct elementTypes, off, sc, h => by
    have hsc := mem_scalarsOfElements elementTypes 0 off sc h
    have hle := structEnd_le_allocSize elementTypes
    omega

theorem mem_scalarsOfElements : (ts : List LlvmType) → (s off : Nat) →
    ∀ sc ∈ scalarsOfElements ts s off, 0 < sc.size ∧ sc.offset + sc.size ≤ off + structEnd ts s
  | [], _, _, _, h => nomatch h
  | type :: ts, s, off, sc, h => by
    rw [scalarsOfElements, mem_append] at h
    rw [structEnd]
    cases h with
    | inl h =>
      have hsc := mem_scalars type _ sc h
      have hle := le_structEnd ts (alignTo s (alignment type) + allocSize type)
      omega
    | inr h => exact mem_scalarsOfElements ts _ off sc h

end

mutual

theorem exists_first_scalar : (type : LlvmType) → (off : Nat) → 0 < allocSize type →
    ∃ sc ∈ scalars type off, sc.offset = off
  | .integer bitWidth, off, _ | .float, off, _ | .double, off, _ | .pointer, off, _ =>
    ⟨_, mem_singleton_self _, rfl⟩
  | .array elementType elementCount, off, h => by
    have h : 0 < elementCount * allocSize elementType := h
    have hc : 0 < elementCount := Nat.pos_of_mul_pos_right h
    have hsz : 0 < allocSize elementType := Nat.pos_of_mul_pos_left h
    obtain ⟨sc, hmem, hoff⟩ := exists_first_scalar elementType (off + 0 * allocSize elementType) hsz
    refine ⟨sc, ?_, by omega⟩
    rw [scalars, mem_flatMap]
    exact ⟨0, mem_range.2 hc, hmem⟩
  | .struct elementTypes, off, h => by
    apply exists_first_scalarOfElements elementTypes off
    rw [pos_iff_ne_zero]
    intro hz
    rw [allocSize, hz, alignTo_zero (isAlignment_structAlignment elementTypes).pos] at h
    omega

theorem exists_first_scalarOfElements : (ts : List LlvmType) → (off : Nat) →
    0 < structEnd ts 0 → ∃ sc ∈ scalarsOfElements ts 0 off, sc.offset = off
  | [], _, h => absurd h (Nat.lt_irrefl 0)
  | type :: ts, off, h => by
    rw [structEnd, alignTo_zero (alignment_pos type), Nat.zero_add] at h
    rw [scalarsOfElements, alignTo_zero (alignment_pos type), Nat.zero_add]
    by_cases hsz : 0 < allocSize type
    · obtain ⟨sc, hmem, hoff⟩ := exists_first_scalar type off hsz
      exact ⟨sc, mem_append_left _ hmem, hoff⟩
    · rw [Nat.eq_zero_of_not_pos hsz] at h ⊢
      obtain ⟨sc, hmem, hoff⟩ := exists_first_scalarOfElements ts off h
      exact ⟨sc, mem_append_right _ hmem, hoff⟩

end

structure PaddedFrom (limit end_ a : Nat) : Prop where
  isAlignment : IsAlignment a
  dvd : a ∣ end_
  lt : end_ < limit + a

theorem PaddedFrom.aligned {lim end_ a b : Nat} (h : PaddedFrom lim end_ a)
    (hb : IsAlignment b) : PaddedFrom lim (alignTo end_ b) (max a b) := by
  by_cases hle : a ≤ b
  · have hdvd : a ∣ b := h.isAlignment.dvd hb hle
    rw [max_eq_right hle]
    exact ⟨hb, dvd_alignTo, alignTo_le_of_dvd hb.pos hdvd h.dvd h.lt⟩
  · have hdvd : b ∣ a := hb.dvd h.isAlignment (by omega)
    rw [max_eq_left (by omega), alignTo_of_dvd hb.pos (dvd_trans hdvd h.dvd)]
    exact h

mutual

/-- Less than the alignment of a value that is not empty is behind its last scalar. -/
theorem exists_last_scalar : (type : LlvmType) → (off : Nat) → 0 < allocSize type →
    ∃ sc ∈ scalars type off, off + allocSize type < sc.offset + sc.size + alignment type
  | .integer bitWidth, off, _ => by
    have hlt : allocSize (.integer bitWidth) <
        integerStoreSize bitWidth + integerAlignment bitWidth := by
      exact alignTo_lt (alignment_pos (.integer bitWidth))
    refine ⟨_, mem_singleton_self _, ?_⟩
    show off + allocSize (.integer bitWidth) <
      off + integerStoreSize bitWidth + integerAlignment bitWidth
    omega
  | .float, off, _ | .double, off, _ | .pointer, off, _ =>
    ⟨_, mem_singleton_self _, by simp [allocSize, alignment]⟩
  | .array elementType elementCount, off, h => by
    have hc : 0 < elementCount := Nat.pos_of_mul_pos_right h
    have hsz : 0 < allocSize elementType := Nat.pos_of_mul_pos_left h
    obtain ⟨sc, hmem, hlt⟩ := exists_last_scalar elementType
      (off + (elementCount - 1) * allocSize elementType) hsz
    have hla : elementCount * allocSize elementType =
        (elementCount - 1) * allocSize elementType + allocSize elementType := by
      rw [← succ_mul, succ_eq_add_one, Nat.sub_add_cancel hc]
    refine ⟨sc, ?_, ?_⟩
    · rw [scalars, mem_flatMap]
      exact ⟨elementCount - 1, mem_range.2 (by omega), hmem⟩
    · rw [allocSize, alignment]
      omega
  | .struct elementTypes, off, h => by
    have hali := isAlignment_structAlignment elementTypes
    obtain ⟨lim, a, hpad, hle, hlim⟩ := exists_last_scalarOfElements elementTypes off 0 0 1
        ⟨.inl rfl, dvd_zero 1, by omega⟩
    have hend := hpad.aligned hali
    have hmax : max a (structAlignment elementTypes) = structAlignment elementTypes := by
      have hpos := hali.pos
      omega
    rw [hmax] at hend
    have hlt : allocSize (.struct elementTypes) < lim + structAlignment elementTypes := by
      rw [allocSize]
      exact hend.lt
    cases hlim with
    | inl hlim =>
      -- Nothing but padding would be as long as the alignment.
      have hdvd := alignment_dvd_allocSize (.struct elementTypes)
      rw [alignment] at hdvd
      have hge := le_of_dvd h hdvd
      omega
    | inr hlim =>
      obtain ⟨sc, hmem, hsc⟩ := hlim
      refine ⟨sc, hmem, ?_⟩
      rw [alignment]
      omega

theorem exists_last_scalarOfElements : (ts : List LlvmType) → (off s lim a : Nat) →
    PaddedFrom lim s a →
    ∃ lim' a', PaddedFrom lim' (structEnd ts s) a' ∧ a' ≤ max a (structAlignment ts) ∧
      (lim' = lim ∨ ∃ sc ∈ scalarsOfElements ts s off, off + lim' = sc.offset + sc.size)
  | [], off, s, lim, a, h => ⟨lim, a, h, Nat.le_max_left .., Or.inl rfl⟩
  | type :: ts, off, s, lim, a, h => by
    have hal := h.aligned (isAlignment_alignment type)
    by_cases hsz : 0 < allocSize type
    · obtain ⟨sc, hmem, hlt⟩ := exists_last_scalar type (off + alignTo s (alignment type)) hsz
      have hle := le_of_dvd hsz (alignment_dvd_allocSize type)
      have hpad : PaddedFrom (sc.offset + sc.size - off)
          (alignTo s (alignment type) + allocSize type) (alignment type) :=
        ⟨isAlignment_alignment type, Nat.dvd_add dvd_alignTo (alignment_dvd_allocSize type),
          by omega⟩
      obtain ⟨lim', a', h', hle', hlim⟩ := exists_last_scalarOfElements ts off _ _ _ hpad
      refine ⟨lim', a', h', le_trans hle' (le_max_right ..), .inr ?_⟩
      rw [scalarsOfElements]
      rcases hlim with hlim | ⟨last, hla, hlim⟩
      · exact ⟨sc, mem_append_left _ hmem, by omega⟩
      · exact ⟨last, mem_append_right _ hla, hlim⟩
    · have hz : allocSize type = 0 := Nat.eq_zero_of_not_pos hsz
      obtain ⟨lim', a', h', hle', hlim⟩ := exists_last_scalarOfElements ts off _ _ _ hal
      rw [structEnd, scalarsOfElements, hz, add_zero]
      refine ⟨lim', a', h', by rwa [structAlignment, ← max_assoc], ?_⟩
      rcases hlim with hlim | ⟨last, hla, hlim⟩
      · exact .inl hlim
      · exact .inr ⟨last, mem_append_right _ hla, hlim⟩

end

variable {type}

theorem exists_overlaps_zero (h : 0 < allocSize type) :
    (scalars type 0).any (fun sc => sc.overlaps 0) = true := by
  obtain ⟨sc, hmem, hoff⟩ := exists_first_scalar type 0 h
  have hsz := (mem_scalars type 0 sc hmem).1
  rw [any_eq_true]
  exact ⟨sc, hmem, decide_eq_true (by omega)⟩

theorem exists_overlaps_one (h : 8 < allocSize type) (hle : allocSize type ≤ 16) :
    (scalars type 0).any (fun sc => sc.overlaps 1) = true := by
  obtain ⟨sc, hmem, hla⟩ := exists_last_scalar type 0 (by omega)
  have hsc := mem_scalars type 0 sc hmem
  have hend : 8 < sc.offset + sc.size := by
    have hali := isAlignment_alignment type
    have hdvd := alignment_dvd_allocSize type
    rcases hali with h | h | h | h <;> rw [h] at hdvd hla <;> omega
  rw [any_eq_true]
  exact ⟨sc, hmem, decide_eq_true (by omega)⟩

theorem eightbyteClass_eq {eightbyte : Nat}
    (h : (scalars type 0).any (fun sc => sc.overlaps eightbyte) = true) :
    (scalars type 0).foldl (mergeScalarInto eightbyte) .noClass =
      eightbyteClass type eightbyte := by
  rw [foldl_mergeScalarInto eightbyte _ .noClass (by decide), h]
  rfl

theorem classifiesEightbytes (h : allocSize type ≤ 16) : ClassifiesEightbytes type := by
  have hcla := classifyType_eq type noClasses 0 (dvd_zero _) (by omega)
  refine ⟨_, hcla, ?_, ?_⟩
  · intro hc
    unfold eightbyteCount at hc
    rw [foldl_mergeScalar]
    exact eightbyteClass_eq (exists_overlaps_zero (by omega))
  · intro hc
    unfold eightbyteCount at hc
    rw [foldl_mergeScalar]
    exact eightbyteClass_eq (exists_overlaps_one (by omega) h)

end USprache.CodeBuilder.WithArgs.SystemV
