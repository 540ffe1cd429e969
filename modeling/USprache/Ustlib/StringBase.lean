import Mathlib.Order.Fin.Basic
import USprache.Ustlib.Vector

/-!
# Strings

A string is a block of memory whose first `size_` places hold chars.  Chars have no
destructors, so a string only has to care for its block.

The references that a method takes point to memory that the method does not change: to
other strings, to arrays, or to any other chars.
-/

namespace USprache.Ustlib.StringBase

open USprache.Ustlib.Vector (addOverflowCheckHalt mulOverflowCheckHalt doubleCapacity)

/-- The result of a method, unless it does not return. -/
abbrev Outcome (α : Type) := Except Vector.Stop α

inductive CharType
  | char8
  | char16
  | char32
deriving DecidableEq

def CharType.size : CharType → Nat
  | .char8 => 1
  | .char16 => 2
  | .char32 => 4

/-- What a string needs to know of the system and of the type of its chars. -/
structure StringLayout where
  /-- Whether `size_type` has 8 bytes, otherwise it has 4. -/
  wideSizeType : Bool
  charType : CharType
  /-- Whether the system has a block of that many bytes for the `n`-th request. -/
  provides : (n bytes : Nat) → Bool

namespace StringLayout

variable (L : StringLayout)

def elements : ElementLayout where
  wideSizeType := L.wideSizeType
  elementSize := L.charType.size
  provides := L.provides

def elementSize : Nat := L.charType.size

def firstAllocationSize : Nat := L.elements.firstAllocationSize

/-- The number of values of `size_type`. -/
def sizes : Nat := 2 ^ L.elements.sizeTypeBits

abbrev Value := Fin (2 ^ (8 * L.charType.size))

end StringLayout

variable (L : StringLayout)

/-- The memory from an address on.  Places that were never written hold nothing. -/
structure Block where
  bytes : Nat
  cells : Nat → Option L.Value

/-- A null pointer, or a pointer to the first place of a block. -/
abbrev Pointer := Option (Block L)

variable {L} (p : Pointer L)

def get (i : Nat) : Outcome L.Value :=
  match p with
  | none => .error .undefinedBehaviour
  | some block =>
    if (i + 1) * L.elementSize ≤ block.bytes then
      match block.cells i with
      | some value => .ok value
      | none => .error .undefinedBehaviour
    else .error .undefinedBehaviour

def Block.write (block : Block L) (i : Nat) (value : L.Value) : Block L :=
  { block with cells := fun j => if j = i then some value else block.cells j }

def put (i : Nat) (value : L.Value) : Outcome (Pointer L) :=
  match p with
  | none => .error .undefinedBehaviour
  | some block =>
    if (i + 1) * L.elementSize ≤ block.bytes then .ok (some (block.write i value))
    else .error .undefinedBehaviour

def Block.shift (block : Block L) (n : Nat) : Block L where
  bytes := block.bytes - n * L.elementSize
  cells i := block.cells (n + i)

/-- `memory_allocate`; `n` counts the requests for memory. -/
def memoryAllocate (n sizeBytes : Nat) : Outcome (Block L × Nat) :=
  if !L.wideSizeType ∧ sizeBytes ≥ 2147483647 then .error .outOfMemory
  else if L.provides n sizeBytes then .ok ({ bytes := sizeBytes, cells := fun _ => none }, n + 1)
  else .error .outOfMemory

/-- `memory_reallocate`: the places that fit in both blocks are kept. -/
def memoryReallocate (n sizeBytes : Nat) : Outcome (Block L × Nat) := do
  let (block, n) ← memoryAllocate n sizeBytes
  match p with
  | none => .ok (block, n)
  | some old =>
    .ok ({ block with
      cells := fun i => if (i + 1) * L.elementSize ≤ sizeBytes then old.cells i else none }, n)

/-- Stores values one after another from the place `i` on. -/
def storeAt (p : Pointer L) (i : Nat) : List L.Value → Outcome (Pointer L)
  | [] => .ok p
  | value :: values => do
    let p ← put p i value
    storeAt p (i + 1) values

/-- Copies `n` values from the place `j` of `src` on to the place `i` of `dst` on. -/
def copyLoop (dst : Pointer L) (i : Nat) (src : Pointer L) (j : Nat) : Nat → Outcome (Pointer L)
  | 0 => .ok dst
  | n + 1 => do
    let value ← get src j
    let dst ← put dst i value
    copyLoop dst (i + 1) src (j + 1) n

/-- `memory_copy_aligned`; the destination is the place `i` of a block. -/
def memoryCopyAligned (dst : Pointer L) (i : Nat) (src : Pointer L) (sizeBytes : Nat) :
    Outcome (Pointer L) :=
  copyLoop dst i src 0 (sizeBytes / L.elementSize)

/-- The values of `n` places from the place `i` on. -/
def load (p : Pointer L) (i : Nat) : Nat → Outcome (List L.Value)
  | 0 => .ok []
  | n + 1 => do
    let value ← get p i
    let values ← load p (i + 1) n
    .ok (value :: values)

def valueBytes (value : L.Value) : List Nat :=
  (List.range L.elementSize).map fun k => value.val / 256 ^ k % 256

def memoryEquals (a b : Pointer L) (sizeBytes : Nat) : Outcome Bool := do
  let l ← load a 0 (sizeBytes / L.elementSize)
  let r ← load b 0 (sizeBytes / L.elementSize)
  .ok (l.flatMap valueBytes == r.flatMap valueBytes)

/-- The number of bytes of `n` chars, as `size_type` has it. -/
def bytesOf (L : StringLayout) (n : Nat) : Nat := n * L.elementSize % L.sizes

/-- `random_access_range_imut`, and `random_access_range_mut` as far as it is read. -/
structure Range (L : StringLayout) where
  data : Pointer L
  size : Nat

def arrayRange (array : List L.Value) : Range L where
  data := some { bytes := array.length * L.elementSize, cells := fun i => array[i]? }
  size := array.length

def Range.subrange (range : Range L) (startIndex endIndex : Nat) : Outcome (Range L) :=
  if startIndex > endIndex then .error .halt
  else if endIndex > range.size then .error .halt
  else .ok { data := range.data.map (·.shift startIndex), size := endIndex - startIndex }

end StringBase

structure StringBase (L : StringBase.StringLayout) where
  ptr : StringBase.Pointer L
  size : Nat
  capacity : Nat

namespace StringBase

open USprache.Ustlib.Vector (addOverflowCheckHalt mulOverflowCheckHalt doubleCapacity)

variable {L : StringLayout}

def empty : StringBase L := { ptr := none, size := 0, capacity := 0 }

variable (s : StringBase L)

def range : Range L := { data := s.ptr, size := s.size }

def ensureCapacity (n newSize : Nat) : Outcome (StringBase L × Nat) :=
  if s.capacity ≥ newSize then .ok (s, n)
  else if s.capacity = 0 then do
    let capacity := max L.firstAllocationSize newSize
    let sizeBytes ← mulOverflowCheckHalt L.elements capacity L.elementSize
    let (block, n) ← memoryAllocate n sizeBytes
    .ok ({ s with ptr := some block, capacity := capacity }, n)
  else
    match doubleCapacity L.elements newSize (L.elements.sizeTypeBits + 1) s.capacity with
    | none => .error .hang
    | some capacity => do
      let sizeBytes ← mulOverflowCheckHalt L.elements capacity L.elementSize
      let (block, n) ← memoryReallocate s.ptr n sizeBytes
      .ok ({ s with ptr := some block, capacity := capacity }, n)

/-- The constructors that copy chars from a range.  They do not check the number of bytes. -/
def constructFrom (n : Nat) (source : Range L) : Outcome (StringBase L × Nat) :=
  if source.size = 0 then .ok ({ (empty : StringBase L) with size := source.size }, n)
  else do
    let capacity := max L.firstAllocationSize source.size
    let (block, n) ← memoryAllocate n (bytesOf L capacity)
    let p ← memoryCopyAligned (some block) 0 source.data (bytesOf L source.size)
    .ok ({ ptr := p, size := source.size, capacity := capacity }, n)

def copyConstruct (n : Nat) (other : StringBase L) : Outcome (StringBase L × Nat) :=
  constructFrom n other.range

def constructFromArray (n : Nat) (array : List L.Value) : Outcome (StringBase L × Nat) :=
  constructFrom n (arrayRange array)

def constructFromRange (n : Nat) (range : Range L) : Outcome (StringBase L × Nat) :=
  constructFrom n range

def constructFill (n count : Nat) (value : L.Value) : Outcome (StringBase L × Nat) :=
  if count = 0 then .ok ({ (empty : StringBase L) with size := count }, n)
  else do
    let capacity := max L.firstAllocationSize count
    let sizeBytes ← mulOverflowCheckHalt L.elements capacity L.elementSize
    let (block, n) ← memoryAllocate n sizeBytes
    let p ← storeAt (some block) 0 (List.replicate count value)
    .ok ({ ptr := p, size := count, capacity := capacity }, n)

def assignRange (n : Nat) (range : Range L) : Outcome (StringBase L × Nat) := do
  let (s, n) ← s.ensureCapacity n range.size
  let p ← memoryCopyAligned s.ptr 0 range.data (bytesOf L range.size)
  .ok ({ s with ptr := p, size := range.size }, n)

def assignArray (n : Nat) (array : List L.Value) :
    Outcome (StringBase L × Nat) :=
  s.assignRange n (arrayRange array)

def assign (n : Nat) (other : StringBase L) : Outcome (StringBase L × Nat) :=
  s.assignRange n other.range

def totalSize (parts : List (Range L)) : Nat :=
  parts.foldl (fun total part => (total + part.size) % L.sizes) 0

def concatLoop (p : Pointer L) (offset : Nat) : List (Range L) → Outcome (Pointer L)
  | [] => .ok p
  | part :: parts => do
    let p ← memoryCopyAligned p offset part.data (bytesOf L part.size)
    concatLoop p ((offset + part.size) % L.sizes) parts

def concat (n : Nat) (parts : List (Range L)) : Outcome (StringBase L × Nat) := do
  let (s, n) ← (empty : StringBase L).ensureCapacity n (totalSize parts)
  let p ← concatLoop s.ptr 0 parts
  .ok ({ s with ptr := p, size := totalSize parts }, n)

def plus (n : Nat) (l r : Range L) : Outcome (StringBase L × Nat) := do
  let resultSize := (l.size + r.size) % L.sizes
  let (s, n) ← (empty : StringBase L).ensureCapacity n resultSize
  let p ← memoryCopyAligned s.ptr 0 l.data (bytesOf L l.size)
  let p ← memoryCopyAligned p l.size r.data (bytesOf L r.size)
  .ok ({ s with ptr := p, size := resultSize }, n)

def addRange (n : Nat) (l : StringBase L) (range : Range L) : Outcome (StringBase L × Nat) :=
  plus n l.range range

def rangeAdd (n : Nat) (range : Range L) (r : StringBase L) : Outcome (StringBase L × Nat) :=
  plus n range r.range

def add (n : Nat) (l r : StringBase L) : Outcome (StringBase L × Nat) := addRange n l r.range

def addArray (n : Nat) (l : StringBase L) (array : List L.Value) : Outcome (StringBase L × Nat) :=
  addRange n l (arrayRange array)

def arrayAdd (n : Nat) (array : List L.Value) (r : StringBase L) : Outcome (StringBase L × Nat) :=
  rangeAdd n (arrayRange array) r

def addAssignRange (n : Nat) (range : Range L) :
    Outcome (StringBase L × Nat) := do
  let newSize := (s.size + range.size) % L.sizes
  let (s, n) ← s.ensureCapacity n newSize
  let p ← memoryCopyAligned s.ptr s.size range.data (bytesOf L range.size)
  .ok ({ s with ptr := p, size := newSize }, n)

def addAssign (n : Nat) (other : StringBase L) : Outcome (StringBase L × Nat) :=
  s.addAssignRange n other.range

def addAssignArray (n : Nat) (array : List L.Value) :
    Outcome (StringBase L × Nat) :=
  s.addAssignRange n (arrayRange array)

def substr (n startIndex endIndex : Nat) : Outcome (StringBase L × Nat) := do
  let part ← s.range.subrange startIndex endIndex
  constructFromRange n part

def pushBack (n : Nat) (value : L.Value) : Outcome (StringBase L × Nat) := do
  let newSize := (s.size + 1) % L.sizes
  let (s, n) ← s.ensureCapacity n newSize
  let p ← put s.ptr s.size value
  .ok ({ s with ptr := p, size := newSize }, n)

def pushBackMany (n count : Nat) (value : L.Value) :
    Outcome (StringBase L × Nat) := do
  let newSize ← addOverflowCheckHalt L.elements s.size count
  let (s, n) ← s.ensureCapacity n newSize
  let p ← storeAt s.ptr s.size (List.replicate count value)
  .ok ({ s with ptr := p, size := newSize }, n)

def dropBack : Outcome (StringBase L) :=
  if s.size = 0 then .error .halt else .ok { s with size := s.size - 1 }

def dropBackMany (count : Nat) : Outcome (StringBase L) :=
  if count > s.size then .error .halt else .ok { s with size := s.size - count }

def popBack : Outcome (StringBase L × L.Value) :=
  if s.size = 0 then .error .halt
  else do
    let value ← get s.ptr (s.size - 1)
    .ok ({ s with size := s.size - 1 }, value)

def resize (n newSize : Nat) (value : L.Value) : Outcome (StringBase L × Nat) :=
  if newSize > s.size then do
    let added := List.replicate (newSize - s.size) value
    let (s, n) ← s.ensureCapacity n newSize
    let p ← storeAt s.ptr s.size added
    .ok ({ s with ptr := p, size := newSize }, n)
  else if newSize < s.size then .ok ({ s with size := newSize }, n)
  else .ok (s, n)

def swap (i0 i1 : Nat) : Outcome (StringBase L) :=
  if i0 ≥ s.size then .error .halt
  else if i1 ≥ s.size then .error .halt
  else if i0 = i1 then .ok s
  else do
    let value0 ← get s.ptr i0
    let value1 ← get s.ptr i1
    let p ← put s.ptr i0 value1
    let p ← put p i1 value0
    .ok { s with ptr := p }

def clear : StringBase L := { s with size := 0 }

def shrinkToFit (n : Nat) : Outcome (StringBase L × Nat) :=
  if s.capacity > s.size then
    if s.size = 0 then .ok ({ s with ptr := none, capacity := s.size }, n)
    else do
      let (block, n) ← memoryReallocate s.ptr n (bytesOf L s.size)
      .ok ({ s with ptr := some block, capacity := s.size }, n)
  else .ok (s, n)

/-- The loop of `from_iterator`, over the values that the iterator still has. -/
def pushAll (s : StringBase L) (n : Nat) : List L.Value → Outcome (StringBase L × Nat)
  | [] => .ok (s, n)
  | value :: values => do
    let (s, n) ← s.pushBack n value
    pushAll s n values

def fromIterator (n : Nat) (values : List L.Value) : Outcome (StringBase L × Nat) :=
  pushAll empty n values

def fromMappedRange {β : Type} (n : Nat) (r : List β) (func : β → L.Value) :
    Outcome (StringBase L × Nat) := do
  let (s, n) ← (empty : StringBase L).ensureCapacity n r.length
  let p ← storeAt s.ptr 0 (r.map func)
  .ok ({ s with ptr := p, size := r.length }, n)

/-- The results of `n` calls of a function that changes its own state. -/
def callResults {σ : Type} (func : σ → L.Value × σ) (state : σ) : Nat → List L.Value
  | 0 => []
  | n + 1 => (func state).1 :: callResults func (func state).2 n

def fromFillerFunction {σ : Type} (n size : Nat) (func : σ → L.Value × σ) (state : σ) :
    Outcome (StringBase L × Nat) := do
  let (s, n) ← (empty : StringBase L).ensureCapacity n size
  let p ← storeAt s.ptr 0 (callResults func state size)
  .ok ({ s with ptr := p, size := size }, n)

def compareOrder {β : Type} [LT β] [DecidableLT β] (l r : β) : Int :=
  if l < r then -1 else if r < l then 1 else 0

def equalsRange (l : StringBase L) (r : Range L) : Outcome Bool :=
  if l.size ≠ r.size then .ok false else memoryEquals l.ptr r.data (bytesOf L l.size)

def equals (l r : StringBase L) : Outcome Bool := l.equalsRange r.range

def equalsArray (l : StringBase L) (array : List L.Value) : Outcome Bool :=
  l.equalsRange (arrayRange array)

/-- The loop of the operator `<=>`, with `n` places to go from the place `i` on. -/
def orderLoop (l r : StringBase L) (i : Nat) : Nat → Outcome Int
  | 0 => .ok (compareOrder l.size r.size)
  | n + 1 => do
    let a ← get l.ptr i
    let b ← get r.ptr i
    if a ≠ b then .ok (compareOrder a b) else orderLoop l r (i + 1) n

def order (l r : StringBase L) : Outcome Int := orderLoop l r 0 (min l.size r.size)

/-- The loop of `starts_with` and of `ends_with`, with `n` places of the other range to go. -/
def matchLoop (s : StringBase L) (offset : Nat) (other : Range L) (i : Nat) : Nat → Outcome Bool
  | 0 => .ok true
  | n + 1 => do
    let a ← get s.ptr (offset + i)
    let b ← get other.data i
    if a ≠ b then .ok false else matchLoop s offset other (i + 1) n

def startsWith (other : Range L) : Outcome Bool :=
  if s.size < other.size then .ok false else matchLoop s 0 other 0 other.size

def endsWith (other : Range L) : Outcome Bool :=
  if s.size < other.size then .ok false
  else matchLoop s (s.size - other.size) other 0 other.size

end USprache.Ustlib.StringBase
