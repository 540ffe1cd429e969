import Mathlib.Algebra.Ring.Nat
import Mathlib.Data.List.Basic

/-!
# The hash map of ustlib

An open-addressing table with linear probing.  A pair is initialized exactly where the
control byte has its upper bit clear, so a control byte and its pair are one cell here.
The table pointer is null exactly when the capacity, the number of cells, is zero.

A probe loop of the source ends only when it meets a certain cell.  Here it may
look at as many cells as there are in the table; after that it would see the
same cells again, and it is reported as divergent.

Sizes are natural numbers: memory runs out long before a size overflows.
-/

namespace USprache.Ustlib

inductive Stop where
  | halt
  | diverge
deriving DecidableEq

inductive SizeType where
  | bytes4
  | bytes8

/-- What an instance of the map depends on: the size type and the alignment of
`TableValue`. -/
structure Layout where
  sizeType : SizeType
  alignOf : Nat
  alignOf_isPowerOfTwo : alignOf.isPowerOfTwo

/-- The hash function of a map, consistent with the equality of keys. -/
structure Hasher (K : Type) [BEq K] where
  hash : K → Nat
  hash_eq : ∀ key key', (key == key') = true → hash key = hash key'

def maxLoadingFactorNumerator : Nat := 5
def maxLoadingFactorDenominator : Nat := 8
def minLoadingFactorNumerator : Nat := 1
def minLoadingFactorDenominator : Nat := 16

def getHash1 : SizeType → Nat → Nat
  | .bytes8, h => h >>> 7
  | .bytes4, h => h

def getHash2 : SizeType → Nat → Nat
  | .bytes8, h => h &&& 0x7F
  | .bytes4, h => h >>> 25

/-- The loop of `get_nearest_power_of_two_size`, with a bound on its turns. -/
def doubleUntil (s : Nat) : Nat → Nat → Nat
  | 0, res => res
  | turns + 1, res => if res < s then doubleUntil s turns (res <<< 1) else res

/-- The result doubles in every turn, so `s` turns are enough. -/
def getNearestPowerOfTwoSize (s : Nat) : Nat := doubleUntil s s 1

def calculateCapacityForGivenSize (size : Nat) : Nat := getNearestPowerOfTwoSize
    (((size + 1) * maxLoadingFactorDenominator + maxLoadingFactorNumerator - 1) /
      maxLoadingFactorNumerator)

namespace Layout

def minNonZeroCapacity (layout : Layout) : Nat :=
  if layout.alignOf > 8 then layout.alignOf else 8

def bits (layout : Layout) : Nat :=
  match layout.sizeType with
  | .bytes4 => 32
  | .bytes8 => 64

end Layout

inductive Cell (K V : Type) where
  | empty
  | valueRemoved
  | value (hash2 : Nat) (key : K) (value : V)
deriving DecidableEq

namespace Cell

variable {K V : Type}

def control : Cell K V → Nat
  | empty => 0b10000000
  | valueRemoved => 0b11111111
  | value hash2 _ _ => hash2

def isEmpty : Cell K V → Bool
  | empty => true
  | _ => false

def entry : Cell K V → Option (K × V)
  | value _ key v => some (key, v)
  | _ => none

def mapValue (f : K → V → V) : Cell K V → Cell K V
  | value hash2 key v => value hash2 key (f key v)
  | empty => empty
  | valueRemoved => valueRemoved

end Cell

def entriesOf {K V : Type} (cells : List (Cell K V)) : List (K × V) := cells.filterMap Cell.entry

def cellAt {K V : Type} (cells : List (Cell K V)) (i : Nat) : Cell K V := cells.getD i .empty

structure HashMap (K V : Type) [BEq K] where
  hasher : Hasher K
  cells : List (Cell K V) := []
  size : Nat := 0
  numOccupiedSlots : Nat := 0

/-- Where a key is, or where it may be inserted: in a removed cell or in an empty
one. -/
inductive Slot where
  | existing (index : Nat)
  | vacant (index : Nat) (reused : Bool)

namespace HashMap

variable {K V : Type} [BEq K]

def capacity (m : HashMap K V) : Nat := m.cells.length

def empty (m : HashMap K V) : Bool := m.size == 0

variable (layout : Layout)

def calculateHash (hasher : Hasher K) (key : K) : Nat :=
  hasher.hash key % 2 ^ layout.bits

def hash2Of (hasher : Hasher K) (key : K) : Nat :=
  getHash2 layout.sizeType (calculateHash layout hasher key)

/-- The first index of a probe in a table of the given capacity. -/
def homeOf (hasher : Hasher K) (capacity : Nat) (key : K) : Nat :=
  getHash1 layout.sizeType (calculateHash layout hasher key) &&& (capacity - 1)

/-- The search loop of `find_key`, `remove_existing`, `remove_if_exists` and
`drop_if_exists`. -/
def searchCell (cells : List (Cell K V)) (hash2 : Nat) (key : K) :
    Nat → Nat → Except Stop (Option Nat)
  | 0, _ => .error .diverge
  | fuel + 1, i =>
    match cellAt cells i with
    | .empty => .ok none
    | .valueRemoved => searchCell cells hash2 key fuel ((i + 1) &&& (cells.length - 1))
    | .value hash2' key' _ =>
      if hash2' = hash2 ∧ (key == key') = true then .ok (some i)
      else searchCell cells hash2 key fuel ((i + 1) &&& (cells.length - 1))

/-- The loop of `insert_new`, `insert_or_update` and `find_or_construct_new`.  It
remembers the first removed cell in `insertIndex`. -/
def searchSlot (cells : List (Cell K V)) (hash2 : Nat) (key : K) :
    Nat → Option Nat → Nat → Except Stop Slot
  | 0, _, _ => .error .diverge
  | fuel + 1, insertIndex, i =>
    match cellAt cells i with
    | .empty => .ok (insertIndex.elim (.vacant i false) (fun index => .vacant index true))
    | .valueRemoved =>
      searchSlot cells hash2 key fuel (insertIndex.or (some i)) ((i + 1) &&& (cells.length - 1))
    | .value hash2' key' _ =>
      if hash2' = hash2 ∧ (key == key') = true then .ok (.existing i)
      else searchSlot cells hash2 key fuel insertIndex ((i + 1) &&& (cells.length - 1))

/-- The loop of `rehash`: the first empty cell of the new table. -/
def searchEmpty (cells : List (Cell K V)) : Nat → Nat → Except Stop Nat
  | 0, _ => .error .diverge
  | fuel + 1, i =>
    match cellAt cells i with
    | .empty => .ok i
    | _ => searchEmpty cells fuel ((i + 1) &&& (cells.length - 1))

/-- The largest number of occupied cells before the next insertion rehashes. -/
def maxOccupancy (capacity : Nat) : Nat :=
  capacity / maxLoadingFactorDenominator * maxLoadingFactorNumerator

def minOccupancy (capacity : Nat) : Nat :=
  capacity / minLoadingFactorDenominator * minLoadingFactorNumerator

def rehashCapacity (newSize : Nat) : Nat :=
  max (calculateCapacityForGivenSize newSize) layout.minNonZeroCapacity

def moveCell (hasher : Hasher K) (newCells : List (Cell K V)) :
    Cell K V → Except Stop (List (Cell K V))
  | .value _ key v => do
    let i ← searchEmpty newCells newCells.length (homeOf layout hasher newCells.length key)
    pure (newCells.set i (.value (hash2Of layout hasher key) key v))
  | _ => pure newCells

def rehash (m : HashMap K V) (newSize : Nat) : Except Stop (HashMap K V) := do
  let newCells ← m.cells.foldlM (moveCell layout m.hasher)
    (List.replicate (rehashCapacity layout newSize) .empty)
  pure { m with cells := newCells, numOccupiedSlots := m.size }

def tryRehashOnInsert (m : HashMap K V) : Except Stop (HashMap K V) :=
  if m.numOccupiedSlots + 1 > maxOccupancy m.capacity then
    let numTombstones := m.numOccupiedSlots - m.size
    m.rehash layout (m.size + 1 + (numTombstones >>> 1))
  else .ok m

def tryRehashOnRemove (m : HashMap K V) : Except Stop (HashMap K V) :=
  if m.size < minOccupancy m.capacity ∧ m.capacity > layout.minNonZeroCapacity then m.rehash layout m.size
  else .ok m

def fill (m : HashMap K V) (index : Nat) (reused : Bool) (key : K) (v : V) :
    HashMap K V :=
  { m with
    cells := m.cells.set index (.value (hash2Of layout m.hasher key) key v)
    size := m.size + 1
    numOccupiedSlots := if reused then m.numOccupiedSlots else m.numOccupiedSlots + 1 }

/-- Removes the value of a cell.  The cell becomes empty if the next one is, and
otherwise a tombstone stays there. -/
def vacate (m : HashMap K V) (index : Nat) : HashMap K V :=
  if (cellAt m.cells ((index + 1) &&& (m.capacity - 1))).isEmpty then
    { m with
      cells := m.cells.set index .empty
      size := m.size - 1
      numOccupiedSlots := m.numOccupiedSlots - 1 }
  else
    { m with
      cells := m.cells.set index .valueRemoved
      size := m.size - 1 }

def setValue (m : HashMap K V) (index : Nat) (v : V) : HashMap K V :=
  match cellAt m.cells index with
  | .value hash2 key _ => { m with cells := m.cells.set index (.value hash2 key v) }
  | _ => m

def valueAt (m : HashMap K V) (index : Nat) : Option V := (cellAt m.cells index).entry.map Prod.snd

def findKey (m : HashMap K V) (key : K) : Except Stop (Option Nat) :=
  if m.empty then .ok none
  else
    searchCell m.cells (hash2Of layout m.hasher key) key m.capacity
      (homeOf layout m.hasher m.capacity key)

def find (m : HashMap K V) (key : K) : Except Stop (Option V) := do
  let index ← m.findKey layout key
  pure (index.bind m.valueAt)

def existsKey (m : HashMap K V) (key : K) : Except Stop Bool := do
  let index ← m.findKey layout key
  pure index.isSome

def findSlot (m : HashMap K V) (key : K) : Except Stop Slot :=
  searchSlot m.cells (hash2Of layout m.hasher key) key m.capacity none
    (homeOf layout m.hasher m.capacity key)

def insertNew (m : HashMap K V) (key : K) (v : V) :
    Except Stop (Bool × HashMap K V) := do
  let m ← m.tryRehashOnInsert layout
  match ← m.findSlot layout key with
  | .existing _ => pure (false, m)
  | .vacant i reused => pure (true, m.fill layout i reused key v)

def insertOrUpdate (m : HashMap K V) (key : K) (v : V) :
    Except Stop (Bool × HashMap K V) := do
  let m ← m.tryRehashOnInsert layout
  match ← m.findSlot layout key with
  | .existing i => pure (false, m.setValue i v)
  | .vacant i reused => pure (true, m.fill layout i reused key v)

/-- Also `find_or_construct_default` with the default value: the value of the cell that the
reference is to, and the map. -/
def findOrConstructNew (m : HashMap K V) (key : K) (constructionFunc : Unit → V) :
    Except Stop (Option V × HashMap K V) := do
  let m ← m.tryRehashOnInsert layout
  match ← m.findSlot layout key with
  | .existing i => pure (m.valueAt i, m)
  | .vacant i reused =>
    let m := m.fill layout i reused key (constructionFunc ())
    pure (m.valueAt i, m)

def findCell (m : HashMap K V) (key : K) : Except Stop (Option Nat) :=
  searchCell m.cells (hash2Of layout m.hasher key) key m.capacity
    (homeOf layout m.hasher m.capacity key)

def removeExisting (m : HashMap K V) (key : K) :
    Except Stop (Option V × HashMap K V) := do
  if m.empty then throw .halt
  let m ← m.tryRehashOnRemove layout
  match ← m.findCell layout key with
  | none => throw .halt
  | some i => pure (m.valueAt i, m.vacate i)

def removeIfExists (m : HashMap K V) (key : K) :
    Except Stop (Option V × HashMap K V) := do
  if m.empty then return (none, m)
  let m ← m.tryRehashOnRemove layout
  match ← m.findCell layout key with
  | none => pure (none, m)
  | some i => pure (m.valueAt i, m.vacate i)

def dropIfExists (m : HashMap K V) (key : K) :
    Except Stop (Bool × HashMap K V) := do
  if m.empty then return (false, m)
  let m ← m.tryRehashOnRemove layout
  match ← m.findCell layout key with
  | none => pure (false, m)
  | some i => pure (true, m.vacate i)

/-- One cell of `retain`.  The function may also change the value. -/
def retainCell (func : K → V → Bool × V) (m : HashMap K V) (i : Nat) : HashMap K V :=
  match cellAt m.cells i with
  | .value hash2 key v =>
    if (func key v).1 then { m with cells := m.cells.set i (.value hash2 key (func key v).2) }
    else m.vacate i
  | _ => m

def retain (m : HashMap K V) (func : K → V → Bool × V) :
    Except Stop (HashMap K V) :=
  if m.empty then .ok m
  else ((List.range m.capacity).foldl (retainCell func) m).tryRehashOnRemove layout

def clear (m : HashMap K V) : HashMap K V :=
  if m.capacity = 0 then m
  else { m with cells := [], size := 0, numOccupiedSlots := 0 }

/-- A write through the reference that `find` or `operator []` returns. -/
def modify (m : HashMap K V) (key : K) (f : V → V) :
    Except Stop (HashMap K V) := do
  match ← m.findKey layout key with
  | none => pure m
  | some i => pure ((m.valueAt i).elim m (fun v => m.setValue i (f v)))

/-- A write to every value during an iteration with mutable elements. -/
def modifyAll (m : HashMap K V) (f : K → V → V) : HashMap K V :=
  { m with cells := m.cells.map (Cell.mapValue f) }

/-- `next` of `raw_iterator`: the next element and the cells behind it. -/
def rawIteratorNext : List (Cell K V) → Option ((K × V) × List (Cell K V))
  | [] => none
  | .value _ key v :: cells => some ((key, v), cells)
  | _ :: cells => rawIteratorNext cells

/-- The elements `next` gives until it gives none. -/
def iterElements : Nat → List (Cell K V) → List (K × V)
  | 0, _ => []
  | fuel + 1, cells =>
    match rawIteratorNext cells with
    | none => []
    | some (element, cells) => element :: iterElements fuel cells

def iter (m : HashMap K V) : List (K × V) := iterElements (m.capacity + 1) m.cells

def copyCell (m : HashMap K V) : Cell K V → Except Stop (HashMap K V)
  | .value _ key v => do
    let (_, m) ← m.insertOrUpdate layout key v
    pure m
  | _ => pure m

/-- The copy constructor.  The copy has a hasher factory of its own. -/
def copy (other : HashMap K V) (hasher : Hasher K) : Except Stop (HashMap K V) :=
  other.cells.foldlM (copyCell layout) { hasher }

/-- One cell of `operator ==`. -/
def equalCell [BEq V] (layout : Layout) (r : HashMap K V) : Cell K V → Except Stop Bool
  | .value _ key v => do
    match ← r.findKey layout key with
    | none => pure false
    | some i => pure ((r.valueAt i).elim false (fun v' => !(v != v')))
  | _ => pure true

/-- The loop of `operator ==` ends at the first difference. -/
def equalCells [BEq V] (layout : Layout) (r : HashMap K V) : List (Cell K V) → Except Stop Bool
  | [] => pure true
  | cell :: cells => do
    if ← equalCell layout r cell then equalCells layout r cells
    else pure false

def equal [BEq V] (layout : Layout) (l r : HashMap K V) : Except Stop Bool :=
  if l.size ≠ r.size then pure false
  else if l.empty then pure true
  else equalCells layout r l.cells

end HashMap

inductive Operation (K V : Type) [BEq K] where
  | insertNew (key : K) (v : V)
  | insertOrUpdate (key : K) (v : V)
  | findOrConstructNew (key : K) (constructionFunc : Unit → V)
  | removeExisting (key : K)
  | removeIfExists (key : K)
  | dropIfExists (key : K)
  | retain (func : K → V → Bool × V)
  | clear
  | modify (key : K) (f : V → V)
  | modifyAll (f : K → V → V)
  | copy (hasher : Hasher K)

inductive Response (V : Type) where
  | none
  | bool (b : Bool)
  | value (v : Option V)
deriving DecidableEq

namespace HashMap

variable {K V : Type} [BEq K]

/-- A call on a map.  A copy replaces the map it is made of. -/
def step (layout : Layout) (m : HashMap K V) :
    Operation K V → Except Stop (Response V × HashMap K V)
  | .insertNew key v => do
    let (b, m) ← m.insertNew layout key v
    pure (.bool b, m)
  | .insertOrUpdate key v => do
    let (b, m) ← m.insertOrUpdate layout key v
    pure (.bool b, m)
  | .findOrConstructNew key constructionFunc => do
    let (v, m) ← m.findOrConstructNew layout key constructionFunc
    pure (.value v, m)
  | .removeExisting key => do
    let (v, m) ← m.removeExisting layout key
    pure (.value v, m)
  | .removeIfExists key => do
    let (v, m) ← m.removeIfExists layout key
    pure (.value v, m)
  | .dropIfExists key => do
    let (b, m) ← m.dropIfExists layout key
    pure (.bool b, m)
  | .retain func => do
    let m ← m.retain layout func
    pure (.none, m)
  | .clear => pure (.none, m.clear)
  | .modify key f => do
    let m ← m.modify layout key f
    pure (.none, m)
  | .modifyAll f => pure (.none, m.modifyAll f)
  | .copy hasher => do
    let m ← m.copy layout hasher
    pure (.none, m)

def run (layout : Layout) (m : HashMap K V) :
    List (Operation K V) → Except Stop (List (Response V) × HashMap K V)
  | [] => pure ([], m)
  | op :: ops => do
    let (response, m) ← m.step layout op
    let (responses, m) ← run layout m ops
    pure (response :: responses, m)

end HashMap
end USprache.Ustlib
