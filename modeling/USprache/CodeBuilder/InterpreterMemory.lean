import Mathlib.Data.List.Basic

/-!
# The memory of the interpreter

The memory of the constexpr interpreter, `interpreter.cpp`: three byte vectors behind one
range of virtual addresses.

A growth of a vector that does not wrap keeps every byte that was there, and so do writes
behind its old end, so that an object reads the same after it.
-/

namespace USprache.CodeBuilder.Interpreter

open List Function

/-! ## The segments -/

def gMaxDataStackSize : Nat := 1024 * 1024 * 64 - 16

def gGlobalsSegmentOffset : Nat := gMaxDataStackSize + 16

def gMaxGlobalsStackSize : Nat := 1024 * 1024 * 64

def gHeapSegmentOffset : Nat := gGlobalsSegmentOffset + gMaxGlobalsStackSize + 16

def gMaxHeapSegmentSize : Nat := 1024 * 1024 * 64 - 16

/-- The vectors `stack_`, `globals_stack_` and `heap_`. -/
inductive Segment where
  | stack
  | globals
  | heap
  deriving DecidableEq

def Segment.maxSize : Segment → Nat
  | .stack => gMaxDataStackSize
  | .globals => gMaxGlobalsStackSize
  | .heap => gMaxHeapSegmentSize

/-- The three vectors, each below its limit. -/
structure Memory where
  bytes : Segment → List UInt8
  lt_maxSize : ∀ s, (bytes s).length < s.maxSize

def getMemoryForVirtualAddress (offset : Nat) : Segment × Nat :=
  if gHeapSegmentOffset ≤ offset then (.heap, offset - gHeapSegmentOffset)
  else if gGlobalsSegmentOffset ≤ offset then (.globals, offset - gGlobalsSegmentOffset)
  else (.stack, offset)

/-- What ends an evaluation: a limit error, or an access outside of a vector, which has no
defined result. -/
inductive Stop where
  | limitReached
  | outOfBounds
  deriving DecidableEq

theorem bind_eq_ok {α β : Type} {x : Except Stop α} {f : α → Except Stop β} {b : β} :
    x >>= f = .ok b ↔ ∃ a, x = .ok a ∧ f a = .ok b := by
  cases x with
  | error => exact ⟨nofun, nofun⟩
  | ok a => exact ⟨fun h => ⟨a, rfl, h⟩, fun ⟨_, h, hf⟩ => by cases h; exact hf⟩

def resize (bytes : List UInt8) (size : Nat) : List UInt8 :=
  bytes.take size ++ replicate (size - bytes.length) 0

namespace Memory

variable {m m' : Memory} {s t : Segment} {offset size : Nat} {bytes : List UInt8}

def grow (m : Memory) (s : Segment) (newSize : Nat) : Except Stop Memory :=
  if h : newSize < s.maxSize then
    .ok
      { bytes := update m.bytes s (resize (m.bytes s) newSize)
        lt_maxSize := fun t => by
          rcases eq_or_ne t s with rfl | hts
          · rw [update_self, resize, length_append, length_take, length_replicate]
            omega
          · rw [update_of_ne hts]
            exact m.lt_maxSize t }
  else .error .limitReached

def readSegment (m : Memory) (s : Segment) (offset size : Nat) : Except Stop (List UInt8) :=
  if size = 0 ∨ offset + size ≤ (m.bytes s).length then
    .ok (((m.bytes s).drop offset).take size)
  else .error .outOfBounds

def write (m : Memory) (s : Segment) (offset : Nat) (bytes : List UInt8) : Except Stop Memory :=
  if h : offset + bytes.length ≤ (m.bytes s).length then
    .ok
      { bytes := update m.bytes s
          ((m.bytes s).take offset ++ bytes ++ (m.bytes s).drop (offset + bytes.length))
        lt_maxSize := fun t => by
          have ht := m.lt_maxSize t
          rcases eq_or_ne t s with rfl | hts
          · rw [update_self, length_append, length_append, length_take, length_drop]
            omega
          · rwa [update_of_ne hts] }
  else .error .outOfBounds

def read (m : Memory) (address size : Nat) : Except Stop (List UInt8) :=
  m.readSegment (getMemoryForVirtualAddress address).1 (getMemoryForVirtualAddress address).2 size

def store (m : Memory) (address : Nat) (bytes : List UInt8) : Except Stop Memory :=
  m.write (getMemoryForVirtualAddress address).1 (getMemoryForVirtualAddress address).2 bytes

def Extends (m m' : Memory) : Prop := ∀ s, m.bytes s <+: m'.bytes s

theorem Extends.refl (m : Memory) : m.Extends m := fun _ => prefix_rfl

theorem Extends.trans {m1 m2 m3 : Memory} (h : m1.Extends m2) (h' : m2.Extends m3) :
    m1.Extends m3 := fun s => (h s).trans (h' s)

theorem grow_extends (h : m.grow s size = .ok m') (hsz : (m.bytes s).length ≤ size) :
    m.Extends m' := by
  intro t
  rw [grow] at h
  split at h
  · cases h
    rcases eq_or_ne t s with rfl | hts
    · simp only [update_self, resize, take_of_length_le hsz]
      exact prefix_append _ _
    · simp only [update_of_ne hts]
      exact prefix_rfl
  · cases h

theorem grow_length (h : m.grow s size = .ok m') : (m'.bytes s).length = size := by
  rw [grow] at h
  split at h
  · cases h
    simp only [update_self, resize, length_append, length_take, length_replicate]
    omega
  · cases h

theorem write_length (h : m.write s offset bytes = .ok m') :
    (m'.bytes t).length = (m.bytes t).length := by
  rw [write] at h
  split at h
  · cases h
    rcases eq_or_ne t s with rfl | hts
    · simp only [update_self, length_append, length_take, length_drop]
      omega
    · simp only [update_of_ne hts]
  · cases h

/-- A write behind the old end of the vector touches no old byte. -/
theorem write_extends {m1 m2 : Memory} (hext : m.Extends m1) (hnew : (m.bytes s).length ≤ offset)
    (h : m1.write s offset bytes = .ok m2) : m.Extends m2 := by
  intro t
  rw [write] at h
  split at h
  · cases h
    rcases eq_or_ne t s with rfl | hts
    · simp only [update_self, append_assoc]
      exact (prefix_take_iff.2 ⟨hext t, hnew⟩).trans (prefix_append _ _)
    · simp only [update_of_ne hts]
      exact hext t
  · cases h

theorem write_read (h : m.write s offset bytes = .ok m') :
    m'.readSegment s offset bytes.length = .ok bytes := by
  have hlen := write_length (t := s) h
  rw [write] at h
  split at h
  case isTrue hbd =>
    cases h
    have htk : ((m.bytes s).take offset).length = offset := by
      rw [length_take]
      omega
    rw [readSegment, if_pos (.inr (by rw [hlen]; exact hbd))]
    simp only [update_self, append_assoc]
    rw [drop_append_of_le_length (by omega), drop_of_length_le (by omega), nil_append,
      take_left' rfl]
  case isFalse => cases h

theorem readSegment_length (h : m.readSegment s offset size = .ok bytes) :
    bytes.length = size ∧ (size = 0 ∨ offset + size ≤ (m.bytes s).length) := by
  rw [readSegment] at h
  split at h
  case isTrue hbd =>
    cases h
    rw [length_take, length_drop]
    exact ⟨by omega, hbd⟩
  case isFalse => cases h

theorem readSegment_extends (hext : m.Extends m') (h : m.readSegment s offset size = .ok bytes) :
    m'.readSegment s offset size = .ok bytes := by
  obtain ⟨rest, hrs⟩ := hext s
  rw [readSegment] at h ⊢
  split at h
  case isTrue hbd =>
    cases h
    rcases hbd with rfl | hbd
    · rw [if_pos (.inl rfl), take_zero, take_zero]
    · rw [if_pos (.inr (by rw [← hrs, length_append]; omega)), ← hrs,
        drop_append_of_le_length (by omega),
        take_append_of_le_length (by rw [length_drop]; omega)]
  case isFalse => cases h

/-- An object reads the same when every old byte is where it was. -/
theorem read_extends {addr : Nat} (hext : m.Extends m') (h : m.read addr size = .ok bytes) :
    m'.read addr size = .ok bytes :=
  readSegment_extends hext h

end Memory

end USprache.CodeBuilder.Interpreter
