import Mathlib.Algebra.Ring.Int.Defs
import Mathlib.Algebra.Ring.Nat
import Mathlib.Data.Finset.Card

/-!
# Shared pointers of one thread

Strong and weak pointers to one value, and the locks made from them.  A pointer object is
known by an identifier and stays the same one when it is moved.  Assignment and `reset`
destroy the old pointer after the new one is made, so that they are two requests here.

The value's destructor runs in the middle of the destructor of the last strong pointer and
may make any requests; the rest of that destructor is the request `returnFromDestructor`.
Pointers to a type may be made from pointers to its descendants.
-/

namespace USprache.Ustlib.SharedPtr

open Function

abbrev PtrId := Nat
abbrev LockId := Nat
abbrev TypeId := Nat

/-- `shared_ptr_base` and `weak_ptr_base` with their template arguments. -/
inductive PtrType where
  | shared (valueType : TypeId) (isNullable isMutable : Bool)
  | weak (valueType : TypeId) (isMutable : Bool)
deriving DecidableEq

namespace PtrType

def isShared : PtrType → Bool
  | shared .. => true
  | weak .. => false

def hasDefault : PtrType → Bool
  | shared _ isNullable _ => isNullable
  | weak .. => true

/-- `empty`, and the check of the storage in weak pointers. -/
def empty : PtrType → Bool → Bool
  | shared _ isNullable _, storageEmpty => isNullable && storageEmpty
  | weak .., storageEmpty => storageEmpty

end PtrType

structure ControlBlock where
  useCountTotal : Nat
  useCountStrong : Nat
  lockCount : Int

def counterInc (c : Nat) : Nat := (c + 1) % 2 ^ 32

def counterDec (c : Nat) : Nat := if c = 0 then 2 ^ 32 - 1 else c - 1

/-- `++` of an `i32`. -/
def lockInc (c : Int) : Int := (c + 1).bmod (2 ^ 32)

/-- `--` of an `i32`. -/
def lockDec (c : Int) : Int := (c - 1).bmod (2 ^ 32)

namespace ControlBlock

/-- What `shared_ptr_storage` sets for a new value. -/
def start : ControlBlock := ⟨1, 1, 0⟩

variable (block : ControlBlock)

def incTotal : ControlBlock :=
  { block with useCountTotal := counterInc block.useCountTotal }

def incBoth : ControlBlock :=
  { block.incTotal with useCountStrong := counterInc block.useCountStrong }

def decTotal : ControlBlock :=
  { block with useCountTotal := counterDec block.useCountTotal }

def decStrong : ControlBlock :=
  { block with useCountStrong := counterDec block.useCountStrong }

end ControlBlock

/-- The control block, and the pointers and locks that exist. -/
structure State where
  block : ControlBlock
  /-- How many times the destructor of the value was called. -/
  destroyed : Nat
  freed : Nat
  strong : Finset PtrId
  weak : Finset PtrId
  empty : Finset PtrId
  type : PtrId → PtrType
  locksMut : Finset LockId
  locksImut : Finset LockId
  lockSource : LockId → PtrId
  /-- The destructors of strong pointers that wait for the destructor of the value. -/
  suspended : Nat

/-- A request ends, halts the program in a state, or reads memory that it must not read. -/
inductive Outcome where
  | done (s : State)
  | halted (s : State)
  | invalidAccess

namespace State

def start (ptr : PtrId) (type : PtrType) : State where
  block := .start
  destroyed := 0
  freed := 0
  strong := {ptr}
  weak := ∅
  empty := ∅
  type _ := type
  locksMut := ∅
  locksImut := ∅
  lockSource _ := ptr
  suspended := 0

variable (s : State)

def storageEmpty (ptr : PtrId) : Bool := ptr ∈ s.empty

def access (ptr : PtrId) (f : ControlBlock → Outcome) : Outcome :=
  if ptr ∈ s.empty ∨ s.freed ≠ 0 then .invalidAccess else f s.block

def addStrong (result : PtrId) (type : PtrType) (block : ControlBlock) : State :=
  { s with
    block := block
    strong := insert result s.strong
    type := update s.type result type }

def addWeak (result : PtrId) (type : PtrType) (block : ControlBlock) : State := { s with
    block := block
    weak := insert result s.weak
    type := update s.type result type }

def addEmpty (result : PtrId) (type : PtrType) : State := { s with
    empty := insert result s.empty
    type := update s.type result type }

/-- The constructors of `shared_ptr_base` from other strong pointers.  Some of them look at
`empty` before they count the new pointer. -/
def constructShared (checksEmpty : Bool) (source result : PtrId) (type : PtrType) :
    Outcome :=
  if checksEmpty && type.empty (s.storageEmpty source) then .done (s.addEmpty result type)
  else s.access source fun block => .done (s.addStrong result type block.incBoth)

def nullableFromNonNullable := s.constructShared false

def imutFromMut := s.constructShared true

def nullableImutFromMut := s.constructShared false

def copyShared := s.constructShared true

def sharedFromCompatible := s.constructShared true

def tryToNonNullable (source result : PtrId) (type : PtrType) : Outcome :=
  if (s.type source).empty (s.storageEmpty source) then .halted s
  else s.access source fun block => .done (s.addStrong result type block.incBoth)

/-- The constructors of `weak_ptr_base` from other pointers, with or without a check of the
storage. -/
def constructWeak (checksStorage : Bool) (source result : PtrId) (type : PtrType) :
    Outcome :=
  if checksStorage && s.storageEmpty source then .done (s.addEmpty result type)
  else s.access source fun block => .done (s.addWeak result type block.incTotal)

def weakFromImut := s.constructWeak false

def weakFromMut := s.constructWeak false

def weakFromNullableImut := s.constructWeak true

def weakFromNullableMut := s.constructWeak true

def weakFromCompatible := s.constructWeak true

def copyWeak := s.constructWeak true

def upgrade (source result : PtrId) (type : PtrType) : Outcome :=
  if s.storageEmpty source then .done (s.addEmpty result type)
  else s.access source fun block =>
    if block.useCountStrong = 0 then .done (s.addEmpty result type)
    else .done (s.addStrong result type block.incBoth)

def releaseTotal : State :=
  let block := s.block.decTotal
  { s with
    block := block
    freed := if block.useCountTotal = 0 then s.freed + 1 else s.freed }

def destroyShared (ptr : PtrId) : Outcome :=
  if (s.type ptr).empty (s.storageEmpty ptr) then .done { s with empty := s.empty.erase ptr }
  else s.access ptr fun block =>
    let block := block.decStrong
    let s := { s with block := block, strong := s.strong.erase ptr }
    if block.useCountStrong = 0 then
      .done { s with destroyed := s.destroyed + 1, suspended := s.suspended + 1 }
    else .done s.releaseTotal

def returnFromDestructor : Outcome :=
  if s.freed ≠ 0 then .invalidAccess else .done { s with suspended := s.suspended - 1 }.releaseTotal

def destroyWeak (ptr : PtrId) : Outcome :=
  if s.storageEmpty ptr then .done { s with empty := s.empty.erase ptr }
  else s.access ptr fun _ => .done { s with weak := s.weak.erase ptr }.releaseTotal

/-- `lock_mut` and `try_lock_mut`, with the constructor of the lock. -/
def lockMut (ptr : PtrId) (lock : LockId) : Outcome :=
  if (s.type ptr).empty (s.storageEmpty ptr) then .halted s
  else s.access ptr fun block =>
    if block.lockCount ≠ 0 then .halted s
    else .done { s with
      block := { block with lockCount := -1 }
      locksMut := insert lock s.locksMut
      lockSource := update s.lockSource lock ptr }

/-- `lock_imut` and `try_lock_imut`, with the constructor of the lock. -/
def lockImut (ptr : PtrId) (lock : LockId) : Outcome :=
  if (s.type ptr).empty (s.storageEmpty ptr) then .halted s
  else s.access ptr fun block =>
    if block.lockCount < 0 then .halted s
    else .done { s with
      block := { block with lockCount := lockInc block.lockCount }
      locksImut := insert lock s.locksImut
      lockSource := update s.lockSource lock ptr }

def unlockMut (lock : LockId) : Outcome :=
  s.access (s.lockSource lock) fun block => .done { s with
    block := { block with lockCount := 0 }
    locksMut := s.locksMut.erase lock }

def unlockImut (lock : LockId) : Outcome :=
  s.access (s.lockSource lock) fun block => .done { s with
    block := { block with lockCount := lockDec block.lockCount }
    locksImut := s.locksImut.erase lock }

end State

inductive Conversion where
  | nullableFromNonNullable | imutFromMut | nullableImutFromMut | copyShared | sharedFromCompatible
  | tryToNonNullable
  | weakFromImut | weakFromMut | weakFromNullableImut | weakFromNullableMut | weakFromCompatible
  | copyWeak
  | upgrade

def Conversion.run (s : State) : Conversion → PtrId → PtrId → PtrType → Outcome
  | nullableFromNonNullable => s.nullableFromNonNullable
  | imutFromMut => s.imutFromMut
  | nullableImutFromMut => s.nullableImutFromMut
  | copyShared => s.copyShared
  | sharedFromCompatible => s.sharedFromCompatible
  | tryToNonNullable => s.tryToNonNullable
  | weakFromImut => s.weakFromImut
  | weakFromMut => s.weakFromMut
  | weakFromNullableImut => s.weakFromNullableImut
  | weakFromNullableMut => s.weakFromNullableMut
  | weakFromCompatible => s.weakFromCompatible
  | copyWeak => s.copyWeak
  | upgrade => s.upgrade

/-- The types that the functions are enabled for, of the pointer that is read and of the
result. -/
inductive Converts (isAncestorFor : TypeId → TypeId → Prop) : Conversion → PtrType → PtrType → Prop
  | nullableFromNonNullable (T m) :
    Converts _ .nullableFromNonNullable (.shared T false m) (.shared T true m)
  | imutFromMut (T n) : Converts _ .imutFromMut (.shared T n true) (.shared T n false)
  | nullableImutFromMut (T) :
    Converts _ .nullableImutFromMut (.shared T false true) (.shared T true false)
  | copyShared (T n m) : Converts _ .copyShared (.shared T n m) (.shared T n m)
  | sharedFromCompatible (T U n m) : T ≠ U → isAncestorFor T U →
    Converts _ .sharedFromCompatible (.shared U n m) (.shared T n m)
  | tryToNonNullable (T m) : Converts _ .tryToNonNullable (.shared T true m) (.shared T false m)
  | weakFromImut (T) : Converts _ .weakFromImut (.shared T false false) (.weak T false)
  | weakFromMut (T m) : Converts _ .weakFromMut (.shared T false true) (.weak T m)
  | weakFromNullableImut (T) : Converts _ .weakFromNullableImut (.shared T true false) (.weak T false)
  | weakFromNullableMut (T m) : Converts _ .weakFromNullableMut (.shared T true true) (.weak T m)
  | weakFromCompatible (T U m) : T ≠ U → isAncestorFor T U →
    Converts _ .weakFromCompatible (.weak U m) (.weak T m)
  | copyWeak (T m) : Converts _ .copyWeak (.weak T m) (.weak T m)
  | upgrade (T m) : Converts _ .upgrade (.weak T m) (.shared T true m)

inductive Request where
  | default_ (result : PtrId) (type : PtrType)
  | convert (conversion : Conversion) (source result : PtrId) (type : PtrType)
  | destroy (ptr : PtrId)
  | returnFromDestructor
  | lockMut (ptr : PtrId) (lock : LockId)
  | lockImut (ptr : PtrId) (lock : LockId)
  | unlockMut (lock : LockId)
  | unlockImut (lock : LockId)

def run (s : State) : Request → Outcome
  | .default_ result type => .done (s.addEmpty result type)
  | .convert conversion source result type => conversion.run s source result type
  | .destroy ptr => if (s.type ptr).isShared then s.destroyShared ptr else s.destroyWeak ptr
  | .returnFromDestructor => s.returnFromDestructor
  | .lockMut ptr lock => s.lockMut ptr lock
  | .lockImut ptr lock => s.lockImut ptr lock
  | .unlockMut lock => s.unlockMut lock
  | .unlockImut lock => s.unlockImut lock

namespace State

def Exists (s : State) (ptr : PtrId) : Prop := ptr ∈ s.strong ∨ ptr ∈ s.weak ∨ ptr ∈ s.empty

def LockExists (s : State) (lock : LockId) : Prop := lock ∈ s.locksMut ∨ lock ∈ s.locksImut

end State

/-- The requests that a program can make: the pointers exist and have the types for it, and a
pointer is not destroyed while there are locks made from it. -/
def Allowed (isAncestorFor : TypeId → TypeId → Prop) (s : State) : Request → Prop
  | .default_ result type => ¬s.Exists result ∧ type.hasDefault = true
  | .convert conversion source result type =>
    s.Exists source ∧ ¬s.Exists result ∧ Converts isAncestorFor conversion (s.type source) type
  | .destroy ptr => s.Exists ptr ∧ ∀ lock, s.LockExists lock → s.lockSource lock ≠ ptr
  | .returnFromDestructor => 0 < s.suspended
  | .lockMut ptr lock =>
    s.Exists ptr ∧ (∃ T n, s.type ptr = .shared T n true) ∧ ¬s.LockExists lock
  | .lockImut ptr lock =>
    s.Exists ptr ∧ (∃ T n m, s.type ptr = .shared T n m) ∧ ¬s.LockExists lock
  | .unlockMut lock => lock ∈ s.locksMut
  | .unlockImut lock => lock ∈ s.locksImut

/-- There are fewer than `2 ^ 31` pointers to the value and locks. -/
def State.Bounded (s : State) : Prop :=
  s.strong.card + s.weak.card + s.suspended < 2 ^ 31 ∧ s.locksMut.card + s.locksImut.card < 2 ^ 31

inductive Reachable (isAncestorFor : TypeId → TypeId → Prop) : State → Prop
  | start (ptr : PtrId) (T : TypeId) (n m : Bool) : Reachable _ (State.start ptr (.shared T n m))
  | step {s s' : State} {request : Request} : Reachable _ s → Allowed isAncestorFor s request →
    run s request = .done s' → s'.Bounded → Reachable _ s'

end USprache.Ustlib.SharedPtr
