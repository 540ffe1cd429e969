import Mathlib.Algebra.Ring.Nat
import Mathlib.Data.List.Range
import Mathlib.Logic.Function.Basic

/-!
# Typed loads and stores

`Interpreter::DoLoad` and `Interpreter::DoStore`.  A struct and an array are both a list of element
types at offsets, `DataLayout.elements`.  A store reaches no byte outside of its type's size, a load
looks at no other, and the elements are disjoint, so that storing the later elements keeps what the
load of an earlier one finds.
-/

namespace USprache.CodeBuilder.Interpreter

open List Nat

/-! ## Types and values -/

/-- The sized types of LLVM. -/
inductive LlvmType where
  | integer (bitWidth : Nat)
  | float
  | double
  | pointer
  | struct (elements : List LlvmType)
  | array (numElements : Nat) (elementType : LlvmType)

/-- `llvm::GenericValue`: the field that a type uses; a number is an `APInt`. -/
inductive GenericValue where
  | intVal (bitWidth value : Nat)
  | floatVal (bits : Nat)
  | doubleVal (bits : Nat)
  | aggregateVal (elements : List GenericValue)

/-- `llvm::DataLayout`. -/
structure DataLayout where
  pointerSize : Nat
  getTypeAllocSize : LlvmType → Nat
  getElementOffset : List LlvmType → Nat → Nat

namespace DataLayout

variable (dl : DataLayout)

def getTypeStoreSize : LlvmType → Nat
  | .integer bitWidth => (bitWidth + 7) / 8
  | .float => 4
  | .double => 8
  | .pointer => dl.pointerSize
  | .struct elements => dl.getTypeAllocSize (.struct elements)
  | .array numElements elementType => numElements * dl.getTypeAllocSize elementType

/-- The offsets and the types of the elements of a struct, from the given one on. -/
def structElements (all : List LlvmType) : Nat → List LlvmType → List (Nat × LlvmType)
  | _, [] => []
  | i, t :: types => (dl.getElementOffset all i, t) :: structElements all (i + 1) types

def elements : LlvmType → List (Nat × LlvmType)
  | .struct types => dl.structElements types 0 types
  | .array numElements t => (range numElements).map fun i => (i * dl.getTypeAllocSize t, t)
  | _ => []

/-- What LLVM promises about sizes. -/
structure Lawful : Prop where
  float_size : dl.getTypeAllocSize .float = 4
  double_size : dl.getTypeAllocSize .double = 8
  pointer_size : dl.getTypeAllocSize .pointer = dl.pointerSize
  pointer_le : dl.pointerSize ≤ 8
  store_le_alloc : ∀ t, dl.getTypeStoreSize t ≤ dl.getTypeAllocSize t

/-- The elements, in their order, are disjoint and in range. -/
structure LaidOut (t : LlvmType) : Prop where
  disjoint : (dl.elements t).Pairwise fun p q => p.1 + dl.getTypeStoreSize p.2 ≤ q.1
  inRange : ∀ p ∈ dl.elements t, p.1 + dl.getTypeStoreSize p.2 ≤ dl.getTypeStoreSize t

inductive Aggregate : LlvmType → Prop where
  | struct {types : List LlvmType} (h : dl.LaidOut (.struct types)) : Aggregate (.struct types)
  | array {numElements : Nat} {t : LlvmType} : Aggregate (.array numElements t)

variable {dl} {t : LlvmType}

theorem Aggregate.laidOut (h : dl.Aggregate t) (hdl : dl.Lawful) : dl.LaidOut t := by
  cases h with
  | struct h => exact h
  | @array numElements t =>
    have hle := hdl.store_le_alloc t
    constructor
    · refine pairwise_map.2 (pairwise_lt_range.imp fun {i j} hij => ?_)
      have hmul := mul_le_mul_right (dl.getTypeAllocSize t) hij
      rw [succ_mul] at hmul
      exact (Nat.add_le_add_left hle _).trans hmul
    · intro p hp
      obtain ⟨i, hi, rfl⟩ := mem_map.1 hp
      have hmul := mul_le_mul_right (dl.getTypeAllocSize t) (mem_range.1 hi)
      rw [succ_mul] at hmul
      exact (Nat.add_le_add_left hle _).trans hmul

end DataLayout

/-- The bytes behind a pointer. -/
abbrev Bytes := Nat → UInt8

def toBytes : Nat → Nat → List UInt8
  | 0, _ => []
  | n + 1, value => UInt8.ofNat value :: toBytes n (value / 256)

def ofBytes : List UInt8 → Nat
  | [] => 0
  | b :: bytes => b.toNat + 256 * ofBytes bytes

/-- `memcpy` to memory. -/
def writeBytes (m : Bytes) (ptr : Nat) (bytes : List UInt8) : Bytes := fun a =>
  if a < ptr then m a else bytes[a - ptr]?.getD (m a)

/-- `memcpy` from memory. -/
def readBytes (m : Bytes) (ptr n : Nat) : List UInt8 := (range n).map fun i => m (ptr + i)

variable {m m' : Bytes} {ptr a n value : Nat} {bytes : List UInt8}

theorem length_toBytes (n value : Nat) : (toBytes n value).length = n := by
  induction n generalizing value with
  | zero => rfl
  | succ n ih => rw [toBytes, length_cons, ih]

theorem ofBytes_toBytes (n value : Nat) : ofBytes (toBytes n value) = value % 256 ^ n := by
  induction n generalizing value with
  | zero => rw [pow_zero, mod_one]; rfl
  | succ n ih => rw [toBytes, ofBytes, ih, pow_succ', mod_mul, UInt8.toNat_ofNat']

theorem writeBytes_frame (h : a < ptr ∨ ptr + bytes.length ≤ a) : writeBytes m ptr bytes a = m a := by
  unfold writeBytes
  split
  · rfl
  · rw [getElem?_eq_none (by omega), Option.getD_none]

theorem readBytes_congr (h : ∀ a, ptr ≤ a → a < ptr + n → m a = m' a) :
    readBytes m ptr n = readBytes m' ptr n :=
  map_congr_left fun _ hi => h _ (le_add_right _ _) (Nat.add_lt_add_left (mem_range.1 hi) _)

/-- A number comes back from its low bytes if it fits in them. -/
theorem readBytes_toBytes (m : Bytes) (ptr : Nat) (h : value < 256 ^ n) :
    ofBytes (readBytes (writeBytes m ptr (toBytes n value)) ptr n) = value := by
  have hread : readBytes (writeBytes m ptr (toBytes n value)) ptr n = toBytes n value := by
    refine ext_getElem (by simp [readBytes, length_toBytes]) fun _ _ hi => ?_
    simp [readBytes, writeBytes, getElem?_eq_getElem hi]
  rw [hread, ofBytes_toBytes, mod_eq_of_lt h]

variable (dl : DataLayout)

mutual

/-- The bytes of `buff` behind those read are cut off by the `APInt`. -/
def doLoad (m : Bytes) (ptr : Nat) : LlvmType → GenericValue
  | .integer bitWidth =>
    .intVal bitWidth (ofBytes (readBytes m ptr ((bitWidth + 7) / 8)) % 2 ^ bitWidth)
  | .float => .floatVal (ofBytes (readBytes m ptr 4))
  | .double => .doubleVal (ofBytes (readBytes m ptr 8))
  | .pointer =>
    .intVal (8 * dl.pointerSize)
      (ofBytes (readBytes m ptr (dl.getTypeAllocSize .pointer)) % 2 ^ (8 * dl.pointerSize))
  | .struct types => .aggregateVal (doLoadElements m ptr types 0 types)
  | .array numElements t =>
    .aggregateVal ((range numElements).map fun i => doLoad m (ptr + i * dl.getTypeAllocSize t) t)

/-- The loop over the elements of a struct. -/
def doLoadElements (m : Bytes) (ptr : Nat) (all : List LlvmType) : Nat → List LlvmType → List GenericValue
  | _, [] => []
  | i, t :: types =>
    doLoad m (ptr + dl.getElementOffset all i) t :: doLoadElements m ptr all (i + 1) types

end

def getLimitedValue (value : Nat) : Nat := min value (2 ^ 64 - 1)

mutual

/-- The loops over the elements of a struct and of an array are one over elements with offsets. -/
def doStore (m : Bytes) (ptr : Nat) : GenericValue → LlvmType → Bytes
  | .intVal _ value, .integer bitWidth =>
    if bitWidth ≤ 64 then writeBytes m ptr (toBytes ((bitWidth + 7) / 8) (getLimitedValue value))
    else writeBytes m ptr (toBytes (bitWidth / 8) value)
  | .floatVal bits, .float => writeBytes m ptr (toBytes (dl.getTypeAllocSize .float) bits)
  | .doubleVal bits, .double => writeBytes m ptr (toBytes (dl.getTypeAllocSize .double) bits)
  | .intVal _ value, .pointer =>
    writeBytes m ptr (toBytes (dl.getTypeAllocSize .pointer) (getLimitedValue value))
  | .aggregateVal values, t => doStoreElements m ptr values (dl.elements t)
  | _, _ => m

def doStoreElements (m : Bytes) (ptr : Nat) : List GenericValue → List (Nat × LlvmType) → Bytes
  | value :: values, (offset, t) :: elements =>
    doStoreElements (doStore m (ptr + offset) value t) ptr values elements
  | _, _ => m

end

mutual

inductive HasType : GenericValue → LlvmType → Prop where
  | integer {bitWidth value : Nat} (hwidth : bitWidth ≤ 64 ∨ bitWidth % 64 = 0 ∧ bitWidth ≤ 256)
      (h : value < 2 ^ bitWidth) : HasType (.intVal bitWidth value) (.integer bitWidth)
  | float {bits : Nat} (h : bits < 256 ^ 4) : HasType (.floatVal bits) .float
  | double {bits : Nat} (h : bits < 256 ^ 8) : HasType (.doubleVal bits) .double
  | pointer {value : Nat} (h : value < 2 ^ (8 * dl.pointerSize)) :
      HasType (.intVal (8 * dl.pointerSize) value) .pointer
  | aggregate {values : List GenericValue} {t : LlvmType} (ht : dl.Aggregate t)
      (h : HaveTypes values (dl.elements t)) : HasType (.aggregateVal values) t

inductive HaveTypes : List GenericValue → List (Nat × LlvmType) → Prop where
  | nil : HaveTypes [] []
  | cons {value : GenericValue} {values : List GenericValue} {p : Nat × LlvmType}
      {elements : List (Nat × LlvmType)} (h : HasType value p.2)
      (hrest : HaveTypes values elements) : HaveTypes (value :: values) (p :: elements)

end

variable {dl}

theorem doLoadElements_eq (m : Bytes) (ptr : Nat) (all : List LlvmType) (i : Nat)
    (types : List LlvmType) : doLoadElements dl m ptr all i types =
      (dl.structElements all i types).map fun p => doLoad dl m (ptr + p.1) p.2 := by
  induction types generalizing i with
  | nil => rfl
  | cons t types ih => rw [doLoadElements, ih, DataLayout.structElements, map_cons]

theorem doLoad_aggregate {t : LlvmType} (h : dl.Aggregate t) (m : Bytes) (ptr : Nat) :
    doLoad dl m ptr t =
    .aggregateVal ((dl.elements t).map fun p => doLoad dl m (ptr + p.1) p.2) := by
  cases h with
  | struct => rw [doLoad, doLoadElements_eq, DataLayout.elements]
  | array =>
    rw [doLoad, DataLayout.elements, map_map]
    rfl

variable (hdl : dl.Lawful)

include hdl

set_option linter.unusedSectionVars false

mutual

theorem doStore_frame {value : GenericValue} {t : LlvmType} {m : Bytes} {ptr : Nat}
    (h : HasType dl value t)
    (ha : a < ptr ∨ ptr + dl.getTypeStoreSize t ≤ a) : doStore dl m ptr value t a = m a := by
  cases h with
  | integer =>
    rw [DataLayout.getTypeStoreSize] at ha
    rw [doStore]
    split
    · exact writeBytes_frame (by rwa [length_toBytes])
    · exact writeBytes_frame (by rw [length_toBytes]; omega)
  | float =>
    rw [doStore, hdl.float_size]
    exact writeBytes_frame (by rwa [length_toBytes])
  | double =>
    rw [doStore, hdl.double_size]
    exact writeBytes_frame (by rwa [length_toBytes])
  | pointer =>
    rw [doStore, hdl.pointer_size]
    exact writeBytes_frame (by rwa [length_toBytes])
  | aggregate ht h =>
    rw [doStore]
    refine doStoreElements_frame h fun p hp => ?_
    have hle := (ht.laidOut hdl).inRange p hp
    omega

theorem doStoreElements_frame {values : List GenericValue} {elements : List (Nat × LlvmType)}
    {m : Bytes} {ptr : Nat} (h : HaveTypes dl values elements)
    (ha : ∀ p ∈ elements, a < ptr + p.1 ∨ ptr + p.1 + dl.getTypeStoreSize p.2 ≤ a) :
    doStoreElements dl m ptr values elements a = m a := by
  cases h with
  | nil => rfl
  | cons h hrest =>
    rw [doStoreElements, doStoreElements_frame hrest fun p hp => ha p (mem_cons_of_mem _ hp),
      doStore_frame h (ha _ mem_cons_self)]

end

mutual

theorem doLoad_congr {value : GenericValue} {t : LlvmType} {ptr : Nat} (h : HasType dl value t)
    (hm : ∀ a, ptr ≤ a → a < ptr + dl.getTypeStoreSize t → m a = m' a) :
    doLoad dl m ptr t = doLoad dl m' ptr t := by
  cases h with
  | integer | float | double =>
    rw [DataLayout.getTypeStoreSize] at hm
    rw [doLoad, doLoad, readBytes_congr hm]
  | pointer =>
    rw [DataLayout.getTypeStoreSize] at hm
    rw [doLoad, doLoad, hdl.pointer_size, readBytes_congr hm]
  | aggregate ht h =>
    rw [doLoad_aggregate ht, doLoad_aggregate ht]
    refine congrArg _ (map_doLoad_congr h fun p hp a hle hlt => hm a (by omega) ?_)
    have hrange := (ht.laidOut hdl).inRange p hp
    omega

theorem map_doLoad_congr {values : List GenericValue} {elements : List (Nat × LlvmType)}
    {ptr : Nat} (h : HaveTypes dl values elements)
    (hm : ∀ p ∈ elements, ∀ a, ptr + p.1 ≤ a → a < ptr + p.1 + dl.getTypeStoreSize p.2 → m a = m' a) :
    (elements.map fun p => doLoad dl m (ptr + p.1) p.2) =
      elements.map fun p => doLoad dl m' (ptr + p.1) p.2 := by
  cases h with
  | nil => rfl
  | cons h hrest =>
    rw [map_cons, map_cons, doLoad_congr h (hm _ mem_cons_self),
      map_doLoad_congr hrest fun p hp => hm p (mem_cons_of_mem _ hp)]

end

mutual

theorem doLoad_doStore {value : GenericValue} {t : LlvmType} (h : HasType dl value t) (m : Bytes)
    (ptr : Nat) :
    doLoad dl (doStore dl m ptr value t) ptr t = value := by
  cases h with
  | @integer bitWidth value hwidth hvalue =>
    have hpow : 2 ^ bitWidth ≤ 256 ^ ((bitWidth + 7) / 8) := by
      rw [show 256 = 2 ^ 8 from rfl, ← pow_mul]
      exact Nat.pow_le_pow_right (by decide) (by omega)
    rw [doStore, doLoad]
    split
    case isTrue h64 =>
      have hlimit := Nat.pow_le_pow_right (show 0 < 2 by decide) h64
      rw [getLimitedValue, min_eq_left (by omega), readBytes_toBytes _ _ (by omega),
        mod_eq_of_lt hvalue]
    case isFalse h64 =>
      rw [show (bitWidth + 7) / 8 = bitWidth / 8 by omega] at hpow ⊢
      rw [readBytes_toBytes _ _ (by omega), mod_eq_of_lt hvalue]
  | float hbits => rw [doStore, doLoad, hdl.float_size, readBytes_toBytes _ _ hbits]
  | double hbits => rw [doStore, doLoad, hdl.double_size, readBytes_toBytes _ _ hbits]
  | @pointer value hvalue =>
    have hlimit := Nat.pow_le_pow_right (show 0 < 2 by decide)
      (show 8 * dl.pointerSize ≤ 64 by have := hdl.pointer_le; omega)
    have hpow : 2 ^ (8 * dl.pointerSize) = 256 ^ dl.pointerSize := pow_mul 2 8 _
    rw [doStore, doLoad, hdl.pointer_size, getLimitedValue, min_eq_left (by omega),
      readBytes_toBytes _ _ (by omega), mod_eq_of_lt hvalue]
  | aggregate ht h =>
    rw [doLoad_aggregate ht, doStore]
    exact congrArg _ (doLoad_doStoreElements h (ht.laidOut hdl).disjoint m ptr)

theorem doLoad_doStoreElements {values : List GenericValue} {elements : List (Nat × LlvmType)}
    (h : HaveTypes dl values elements)
    (hdisjoint : elements.Pairwise fun p q => p.1 + dl.getTypeStoreSize p.2 ≤ q.1) (m : Bytes) (ptr : Nat) :
    (elements.map fun p => doLoad dl (doStoreElements dl m ptr values elements) (ptr + p.1) p.2) = values := by
  cases h with
  | nil => rfl
  | cons h hrest =>
    obtain ⟨hfirst, hdisjoint⟩ := pairwise_cons.1 hdisjoint
    rw [map_cons, doStoreElements, doLoad_doStoreElements hrest hdisjoint]
    refine congrArg (· :: _) ((doLoad_congr hdl h fun a hle hlt => ?_).trans (doLoad_doStore h m _))
    refine doStoreElements_frame hdl hrest fun q hq => ?_
    have hbehind := hfirst q hq
    omega

end

/-- A load after a store of its type gives the value, and the store keeps every other byte. -/
theorem load_after_store {value : GenericValue} {t : LlvmType} (h : HasType dl value t) (m : Bytes)
    (ptr : Nat) :
    doLoad dl (doStore dl m ptr value t) ptr t = value ∧
      ∀ a, a < ptr ∨ ptr + dl.getTypeStoreSize t ≤ a → doStore dl m ptr value t a = m a :=
  ⟨doLoad_doStore hdl h m ptr, fun _ ha => doStore_frame hdl h ha⟩

omit hdl

/-- Sizes without padding, for structs of at most a byte and a number of 32 bits. -/
def sampleSize : LlvmType → Nat
  | .integer bitWidth => (bitWidth + 7) / 8
  | .float => 4
  | .double | .pointer | .struct _ => 8
  | .array numElements t => numElements * sampleSize t

def sampleLayout : DataLayout := ⟨8, sampleSize, fun _ i => 4 * i⟩

theorem sampleLayout_lawful : sampleLayout.Lawful where
  float_size := rfl
  double_size := rfl
  pointer_size := rfl
  pointer_le := le_rfl
  store_le_alloc t := by cases t <;> exact le_rfl

/-- A struct of a `bool` and a number of 32 bits. -/
theorem load_after_store_pair :
    doLoad sampleLayout (doStore sampleLayout (fun _ => 0) 16 (.aggregateVal [.intVal 1 1, .intVal 32 70000])
      (.struct [.integer 1, .integer 32])) 16 (.struct [.integer 1, .integer 32]) =
        .aggregateVal [.intVal 1 1, .intVal 32 70000] :=
  (load_after_store sampleLayout_lawful (.aggregate (.struct ⟨by decide, by decide⟩)
    (.cons (.integer (.inl (by decide)) (by decide))
      (.cons (.integer (.inl (by decide)) (by decide)) .nil))) _ 16).1

/-! ## Variables in memory -/

section Variables

open Function

variable {V : Type} [DecidableEq V] (address : V → Nat) (type : V → LlvmType)

/-- The stores to the variables, one after the other. -/
def doStores (dl : DataLayout) (m : Bytes) (stores : List (V × GenericValue)) : Bytes :=
  stores.foldl (fun m p => doStore dl m (address p.1) p.2 (type p.1)) m

/-- No two variables share a byte. -/
def Apart (dl : DataLayout) : Prop := ∀ v w, v ≠ w →
  address v + dl.getTypeStoreSize (type v) ≤ address w ∨
    address w + dl.getTypeStoreSize (type w) ≤ address v

/-- A load of each variable gives its value. -/
def Represents (dl : DataLayout) (m : Bytes) (values : V → GenericValue) : Prop :=
  ∀ v, HasType dl (values v) (type v) ∧ doLoad dl m (address v) (type v) = values v

variable {address type} {values : V → GenericValue}

theorem Represents.store (hdl : dl.Lawful) (hapart : Apart address type dl)
    (h : Represents address type dl m values) {v : V} {value : GenericValue}
    (hvalue : HasType dl value (type v)) :
    Represents address type dl (doStore dl m (address v) value (type v)) (update values v value) := by
  intro w
  rcases eq_or_ne w v with rfl | hne
  · rw [update_self]
    exact ⟨hvalue, doLoad_doStore hdl hvalue m _⟩
  · obtain ⟨htype, hload⟩ := h w
    rw [update_of_ne hne]
    refine ⟨htype, Eq.trans (doLoad_congr hdl htype fun a hle hlt => ?_) hload⟩
    refine doStore_frame hdl hvalue ?_
    have hdisjoint := hapart w v hne
    omega

/-- Variables that are apart behave as a map: whatever is stored to whichever of them, each has the
value that was stored to it last. -/
theorem stores_refine_updates (hdl : dl.Lawful) (hapart : Apart address type dl)
    (h : Represents address type dl m values) {stores : List (V × GenericValue)}
    (hstores : ∀ p ∈ stores, HasType dl p.2 (type p.1)) :
    Represents address type dl (doStores address type dl m stores)
      (stores.foldl (fun values p => update values p.1 p.2) values) := by
  induction stores generalizing m values with
  | nil => exact h
  | cons p stores ih =>
    obtain ⟨hp, hstores⟩ := forall_mem_cons.1 hstores
    exact ih (h.store hdl hapart hp) hstores

/-- Two variables of 32 bits side by side. -/
theorem stores_refine_updates_pair :
    doLoad sampleLayout (doStores (fun v : Fin 2 => 4 * v.val) (fun _ => .integer 32) sampleLayout
      (fun _ => 0) [(0, .intVal 32 7), (1, .intVal 32 70000)]) 0 (.integer 32) = .intVal 32 7 := by
  have htype : ∀ value < 2 ^ 32, HasType sampleLayout (.intVal 32 value) (.integer 32) :=
    fun _ h => .integer (.inl (by decide)) h
  have hapart : Apart (fun v : Fin 2 => 4 * v.val) (fun _ => .integer 32) sampleLayout := by
    show ∀ v w : Fin 2, v ≠ w → 4 * v.val + 4 ≤ 4 * w.val ∨ 4 * w.val + 4 ≤ 4 * v.val
    omega
  have hzero : Represents (fun v : Fin 2 => 4 * v.val) (fun _ => .integer 32) sampleLayout (fun _ => 0)
      (fun _ => .intVal 32 0) := fun _ => ⟨htype 0 (by decide), rfl⟩
  exact (stores_refine_updates sampleLayout_lawful hapart hzero (by simp [htype]) 0).2

end Variables

end USprache.CodeBuilder.Interpreter
