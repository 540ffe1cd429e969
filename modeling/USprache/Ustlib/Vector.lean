import Mathlib.Algebra.Order.Ring.Nat
import Mathlib.Data.List.Destutter

/-!
# Vectors

A vector is a block of memory whose first `size_` places hold elements.  Elements are
moved from place to place bit by bit, so it is up to the vector to construct and to
destroy each of them once.

Elements are objects with an identity.  Copying the bits of an object keeps the identity;
a constructor or a value moved in from outside brings a new one.  A place keeps its bits
after its element was moved away or destroyed.  What happened to the objects is kept in
a history that all vectors share.
-/

namespace USprache.Ustlib

inductive Vector.Stop
  /-- A `halt if` of a method. -/
  | halt
  /-- A size is too large for `size_type`, or the system has no block of that size. -/
  | outOfMemory
  | hang
  /-- An access to a place outside of the block, or to one that was never written. -/
  | undefinedBehaviour
deriving DecidableEq

/-- What a vector needs to know of the system and of the type of its elements. -/
structure ElementLayout where
  /-- Whether `size_type` has 8 bytes, otherwise it has 4. -/
  wideSizeType : Bool
  elementSize : Nat
  /-- Whether the system has a block of that many bytes for the `n`-th request. -/
  provides : (n bytes : Nat) → Bool

namespace ElementLayout

def sizeTypeBits (L : ElementLayout) : Nat := if L.wideSizeType then 64 else 32

def firstAllocationSize (L : ElementLayout) : Nat :=
  if L.elementSize = 0 then 2 ^ L.sizeTypeBits - 1
  else if L.elementSize ≥ 16 then 1
  else 16 / L.elementSize

end ElementLayout

abbrev Vector.SizeType (L : ElementLayout) := Fin (2 ^ L.sizeTypeBits)

structure Object (α : Type) where
  id : Nat
  value : α

structure History (α : Type) where
  /-- The number of objects that were ever stored in a vector, and the next identity. -/
  stored : Nat
  destroyed : List (Object α)
  handedOut : List (Object α)
  requests : Nat

def History.start {α : Type} : History α :=
  { stored := 0, destroyed := [], handedOut := [], requests := 0 }

structure Vector (α : Type) where
  cells : Nat → Option (Object α)
  bytes : Nat
  size : Nat
  capacity : Nat

namespace Vector

variable {α : Type} (L : ElementLayout)

def addOverflowCheckHalt (a b : Nat) : Except Stop Nat :=
  if a + b < 2 ^ L.sizeTypeBits then .ok (a + b) else .error .outOfMemory

def mulOverflowCheckHalt (a b : Nat) : Except Stop Nat :=
  if a * b < 2 ^ L.sizeTypeBits then .ok (a * b) else .error .outOfMemory

/-- `memory_allocate` and `memory_reallocate`, as far as they can fail. -/
def requestMemory (h : History α) (sizeBytes : Nat) : Except Stop (History α) :=
  if !L.wideSizeType ∧ sizeBytes ≥ 2147483647 then .error .outOfMemory
  else if L.provides h.requests sizeBytes then .ok { h with requests := h.requests + 1 }
  else .error .outOfMemory

def empty : Vector α := { cells := fun _ => none, bytes := 0, size := 0, capacity := 0 }

variable (v : Vector α)

def get (i : Nat) : Except Stop (Object α) :=
  if (i + 1) * L.elementSize ≤ v.bytes then
    match v.cells i with
    | some object => .ok object
    | none => .error .undefinedBehaviour
  else .error .undefinedBehaviour

def write (i : Nat) (object : Object α) : Vector α :=
  { v with cells := fun j => if j = i then some object else v.cells j }

def put (i : Nat) (object : Object α) : Except Stop (Vector α) :=
  if (i + 1) * L.elementSize ≤ v.bytes then .ok (v.write i object)
  else .error .undefinedBehaviour

/-- The vector with a block of a new size: the places that fit in both blocks are kept.  A
null pointer is reallocated as it is allocated. -/
def reallocate (h : History α) (capacity sizeBytes : Nat) :
    Except Stop (Vector α × History α) := do
  let h ← requestMemory L h sizeBytes
  .ok ({ v with
    cells := fun i => if (i + 1) * L.elementSize ≤ sizeBytes then v.cells i else none
    bytes := sizeBytes
    capacity := capacity }, h)

def constructAt (v : Vector α) (h : History α) (i : Nat) :
    List α → Except Stop (Vector α × History α)
  | [] => .ok (v, h)
  | value :: values => do
    let v ← v.put L i { id := h.stored, value := value }
    constructAt v { h with stored := h.stored + 1 } (i + 1) values

def copyConstructAt (v : Vector α) (h : History α) (other : Vector α) (i : Nat) :
    Nat → Except Stop (Vector α × History α)
  | 0 => .ok (v, h)
  | n + 1 => do
    let object ← other.get L i
    let v ← v.put L i { id := h.stored, value := object.value }
    copyConstructAt v { h with stored := h.stored + 1 } other (i + 1) n

def copyAssignAt (v : Vector α) (other : Vector α) (i : Nat) : Nat → Except Stop (Vector α)
  | 0 => .ok v
  | n + 1 => do
    let object ← other.get L i
    let target ← v.get L i
    let v ← v.put L i { id := target.id, value := object.value }
    copyAssignAt v other (i + 1) n

/-- Copies the bits of `n` objects of another vector behind the own ones. -/
def copyBitsAt (v : Vector α) (other : Vector α) (i : Nat) : Nat → Except Stop (Vector α)
  | 0 => .ok v
  | n + 1 => do
    let object ← other.get L i
    let v ← v.put L (v.size + i) object
    copyBitsAt v other (i + 1) n

def destroyAt (v : Vector α) (h : History α) (i : Nat) : Nat → Except Stop (History α)
  | 0 => .ok h
  | n + 1 => do
    let object ← v.get L i
    destroyAt v { h with destroyed := h.destroyed ++ [object] } (i + 1) n

/-- `while( capacity_ < new_size ) { capacity_*= 2s; }`.  A capacity that was doubled as
many times as it has bits is zero and stays zero. -/
def doubleCapacity (newSize : Nat) : Nat → Nat → Option Nat
  | 0, _ => none
  | fuel + 1, capacity =>
    if capacity < newSize then doubleCapacity newSize fuel (capacity * 2 % 2 ^ L.sizeTypeBits)
    else some capacity

def ensuredCapacity (capacity newSize : Nat) : Option Nat :=
  if capacity ≥ newSize then some capacity
  else if capacity = 0 then some (max L.firstAllocationSize newSize)
  else doubleCapacity L newSize (L.sizeTypeBits + 1) capacity

def ensureCapacity (h : History α) (newSize : Nat) :
    Except Stop (Vector α × History α) :=
  if v.capacity ≥ newSize then .ok (v, h)
  else
    match ensuredCapacity L v.capacity newSize with
    | none => .error .hang
    | some capacity => do
      let sizeBytes ← mulOverflowCheckHalt L capacity L.elementSize
      v.reallocate L h capacity sizeBytes

def shrinkToFit (h : History α) : Except Stop (Vector α × History α) :=
  if v.capacity > v.size then
    if v.size = 0 then .ok ({ v with cells := fun _ => none, bytes := 0, capacity := 0 }, h)
    else v.reallocate L h v.size (v.size * L.elementSize % 2 ^ L.sizeTypeBits)
  else .ok (v, h)

/-- The constructors that fill a new vector with copies of a value or with the results of the
default constructor. -/
def construct (h : History α) (values : List α) : Except Stop (Vector α × History α) :=
  if values.length = 0 then .ok (empty, h)
  else do
    let capacity := max L.firstAllocationSize values.length
    let sizeBytes ← mulOverflowCheckHalt L capacity L.elementSize
    let (v, h) ← (empty : Vector α).reallocate L h capacity sizeBytes
    constructAt L { v with size := values.length } h 0 values

def copyConstruct (h : History α) (other : Vector α) : Except Stop (Vector α × History α) :=
  if other.size = 0 then .ok (empty, h)
  else do
    let capacity := max L.firstAllocationSize other.size
    let (v, h) ← (empty : Vector α).reallocate L h capacity
      (capacity * L.elementSize % 2 ^ L.sizeTypeBits)
    copyConstructAt L { v with size := other.size } h other 0 other.size

def growTo (h : History α) (n : Nat) : Except Stop (Vector α × History α) :=
  if v.capacity < n then v.reallocate L h n (n * L.elementSize % 2 ^ L.sizeTypeBits)
  else .ok (v, h)

def copyTail (h : History α) (other : Vector α) :
    Except Stop (Vector α × History α) := do
  let (v, h) ← v.growTo L h other.size
  let (v, h) ← copyConstructAt L v h other v.size (other.size - v.size)
  .ok ({ v with size := other.size }, h)

def copyAssign (h : History α) (other : Vector α) :
    Except Stop (Vector α × History α) := do
  let v ← copyAssignAt L v other 0 (min v.size other.size)
  if v.size < other.size then v.copyTail L h other
  else if v.size > other.size then
    let h ← destroyAt L v h other.size (v.size - other.size)
    .ok ({ v with size := other.size }, h)
  else .ok ({ v with size := other.size }, h)

def destructor (h : History α) : Except Stop (History α) := destroyAt L v h 0 v.size

def clear (h : History α) : Except Stop (Vector α × History α) := do
  let h ← destroyAt L v h 0 v.size
  .ok ({ v with size := 0 }, h)

def pushBack (h : History α) (value : α) : Except Stop (Vector α × History α) := do
  let newSize := (v.size + 1) % 2 ^ L.sizeTypeBits
  let (v, h) ← v.ensureCapacity L h newSize
  let v ← v.put L v.size { id := h.stored, value := value }
  .ok ({ v with size := newSize }, { h with stored := h.stored + 1 })

def appendFromIterator (v : Vector α) (h : History α) : List α → Except Stop (Vector α × History α)
  | [] => .ok (v, h)
  | value :: values => do
    let (v, h) ← v.pushBack L h value
    appendFromIterator v h values

def appendCopy (h : History α) (range : List α) :
    Except Stop (Vector α × History α) := do
  let newSize ← addOverflowCheckHalt L v.size range.length
  let (v, h) ← v.ensureCapacity L h newSize
  let (v, h) ← constructAt L v h v.size range
  .ok ({ v with size := newSize }, h)

def pushBackMany (h : History α) (count : Nat) (value : α) :
    Except Stop (Vector α × History α) := do
  let newSize ← addOverflowCheckHalt L v.size count
  let (v, h) ← v.ensureCapacity L h newSize
  let (v, h) ← constructAt L v h v.size (List.replicate count value)
  .ok ({ v with size := newSize }, h)

def appendFromOther (h : History α) (other : Vector α) :
    Except Stop (Vector α × Vector α × History α) := do
  let newSize ← addOverflowCheckHalt L v.size other.size
  let (v, h) ← v.ensureCapacity L h newSize
  let v ← copyBitsAt L v other 0 other.size
  .ok ({ v with size := newSize }, { other with size := 0 }, h)

def dropBack (h : History α) : Except Stop (Vector α × History α) :=
  if v.size = 0 then .error .halt
  else do
    let object ← v.get L (v.size - 1)
    .ok ({ v with size := v.size - 1 }, { h with destroyed := h.destroyed ++ [object] })

def dropBackMany (h : History α) (count : Nat) :
    Except Stop (Vector α × History α) :=
  if count > v.size then .error .halt
  else do
    let h ← destroyAt L v h (v.size - count) count
    .ok ({ v with size := v.size - count }, h)

def popBack (h : History α) : Except Stop (Vector α × History α) :=
  if v.size = 0 then .error .halt
  else do
    let object ← v.get L (v.size - 1)
    .ok ({ v with size := v.size - 1 }, { h with handedOut := h.handedOut ++ [object] })

/-- `resize`; the value of the overload without one is the default constructor's. -/
def resize (h : History α) (newSize : Nat) (value : α) :
    Except Stop (Vector α × History α) :=
  if newSize > v.size then do
    let (v, h) ← v.ensureCapacity L h newSize
    let (v, h) ← constructAt L v h v.size (List.replicate (newSize - v.size) value)
    .ok ({ v with size := newSize }, h)
  else if newSize < v.size then v.dropBackMany L h (v.size - newSize)
  else .ok (v, h)

def swap (i0 i1 : Nat) : Except Stop (Vector α) :=
  if i0 ≥ v.size then .error .halt
  else if i1 ≥ v.size then .error .halt
  else if i0 = i1 then .ok v
  else do
    let object0 ← v.get L i0
    let object1 ← v.get L i1
    let v ← v.put L i0 object1
    v.put L i1 object0

def moveDown (dst src : Nat) (object : Object α) : Except Stop (Vector α) :=
  if dst < src then v.put L dst object else .ok v

/-- The loop of `remove_adjacent_duplicates` and of `retain`, with `n` elements to go.  `keep`
tells from the vector, `dst` and the element at `src` whether to keep this element. -/
def compactLoop (keep : Vector α → Nat → Object α → Except Stop Bool) (v : Vector α)
    (h : History α) (dst src : Nat) : Nat → Except Stop (Vector α × History α)
  | 0 => .ok ({ v with size := dst }, h)
  | n + 1 => do
    let object ← v.get L src
    if ← keep v dst object then
      let v ← v.moveDown L dst src object
      compactLoop keep v h (dst + 1) (src + 1) n
    else
      compactLoop keep v { h with destroyed := h.destroyed ++ [object] } dst (src + 1) n

def retain (func : α → Bool) (v : Vector α) (h : History α) : Except Stop (Vector α × History α) :=
  compactLoop L (fun _ _ object => .ok (func object.value)) v h 0 0 v.size

/-- `eq` is the operator `==` of the elements. -/
def removeAdjacentDuplicates (eq : α → α → Bool) (v : Vector α) (h : History α) :
    Except Stop (Vector α × History α) :=
  if v.size ≤ 1 then .ok (v, h)
  else
    compactLoop L (fun v dst object => do
      let previous ← v.get L (dst - 1)
      .ok (!eq object.value previous.value)) v h 1 1 (v.size - 1)

end Vector

end USprache.Ustlib
