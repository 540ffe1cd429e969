import USprache.Ustlib.VectorRefinement

/-!
# The growth of vectors

The methods that make a vector larger by a number of elements that the caller chooses.  They leave
a block for exactly as many elements as the capacity tells, or stop because there is none, unless
the doubling of the capacity misses the requested size.
-/

namespace USprache.Ustlib.Vector

variable {α : Type} {L : ElementLayout} {v : Vector α} {h : History α} {objects : List (Object α)}

inductive Growth (L : ElementLayout) (α : Type) where
  | resize (newSize : SizeType L) (value : α)
  | pushBackMany (count : SizeType L) (value : α)
  | appendCopy (range : List α)
  | appendFromOther (other : Vector α) (others : List (Object α)) (h : other.Represents L others)

namespace Growth

def newSize (v : Vector α) : Growth L α → Nat
  | resize newSize _ => newSize
  | pushBackMany count _ => v.size + count
  | appendCopy range => v.size + range.length
  | appendFromOther other _ _ => v.size + other.size

def run (v : Vector α) (h : History α) : Growth L α → Except Stop (Vector α × History α)
  | resize newSize value => v.resize L h newSize value
  | pushBackMany count value => v.pushBackMany L h count value
  | appendCopy range => v.appendCopy L h range
  | appendFromOther other _ _ => do
    let (v, _, h) ← v.appendFromOther L h other
    .ok (v, h)

end Growth

/-- The method halts for lack of memory, or the elements have a place in a block of exactly
`capacity_` elements. -/
def Allocated (L : ElementLayout) (result : Except Stop (Vector α × History α)) : Prop :=
  Returns result fun r => r.1.size ≤ r.1.capacity ∧ r.1.bytes = r.1.capacity * L.elementSize ∧
    r.1.bytes < 2 ^ L.sizeTypeBits

variable (hv : v.Represents L objects)

include hv

theorem Represents.allocated : v.size ≤ v.capacity ∧
    v.bytes = v.capacity * L.elementSize ∧ v.bytes < 2 ^ L.sizeTypeBits :=
  ⟨hv.size_le, hv.bytes_eq, hv.bytes_lt⟩

omit hv in
theorem allocated_of_becomes {values handed : List α} {result : Except Stop (Vector α × History α)}
    (hresult : Returns result (Becomes L h objects values handed)) : Allocated L result := by
  refine hresult.mono ?_
  rintro r ⟨objects', hv, -⟩
  exact hv.allocated

theorem grows_of_le {newSize : Nat} (hle : newSize ≤ v.capacity) :
    Grows L v.capacity newSize := by
  refine .inr ⟨0, ?_⟩
  rw [Nat.pow_zero, Nat.mul_one, Nat.mod_eq_of_lt hv.capacity_lt]
  exact hle

theorem Represents.ensureCapacity_hangs {newSize : Nat}
    (hgrows : ¬Grows L v.capacity newSize) : v.ensureCapacity L h newSize = .error .hang := by
  have hlt : ¬v.capacity ≥ newSize := fun hle => hgrows (grows_of_le hv hle)
  have hnone : ensuredCapacity L v.capacity newSize = none := by
    rw [ensuredCapacity, if_neg hlt, if_neg fun hzero => hgrows (.inl hzero),
      doubleCapacity_eq_none_iff hv.capacity_lt]
    intro k _
    by_contra hreach
    exact hgrows (.inr ⟨k, Nat.le_of_not_lt hreach⟩)
  rw [Vector.ensureCapacity, if_neg hlt, hnone]

theorem Growth.run_hangs (growth : Growth L α)
    (hfits : growth.newSize v < 2 ^ L.sizeTypeBits) (hgrows : ¬Grows L v.capacity (growth.newSize v)) :
    growth.run v h = .error .hang := by
  have hhangs := hv.ensureCapacity_hangs (h := h) hgrows
  cases growth with
  | resize newSize value =>
    have hlt : newSize > v.size := by
      by_contra hle
      exact hgrows (grows_of_le hv ((Nat.le_of_not_lt hle).trans hv.size_le))
    rw [run, Vector.resize, if_pos hlt]
    show v.ensureCapacity L h newSize >>= _ = _
    rw [show v.ensureCapacity L h newSize = .error .hang from hhangs]
    rfl
  | pushBackMany count value =>
    rw [run, Vector.pushBackMany, show addOverflowCheckHalt L v.size count = .ok _ from if_pos hfits]
    show v.ensureCapacity L h (v.size + count) >>= _ = _
    rw [show v.ensureCapacity L h (v.size + count) = .error .hang from hhangs]
    rfl
  | appendCopy range =>
    rw [run, Vector.appendCopy, show addOverflowCheckHalt L v.size range.length = .ok _ from if_pos hfits]
    show v.ensureCapacity L h (v.size + range.length) >>= _ = _
    rw [show v.ensureCapacity L h (v.size + range.length) = .error .hang from hhangs]
    rfl
  | appendFromOther other others ho =>
    rw [run, Vector.appendFromOther, show addOverflowCheckHalt L v.size other.size = .ok _ from if_pos hfits]
    show (v.ensureCapacity L h (v.size + other.size) >>= _) >>= _ = _
    rw [show v.ensureCapacity L h (v.size + other.size) = .error .hang from hhangs]
    rfl

/-- A method leaves a block of the right size if and only if doublings of the capacity reach the new
size. -/
theorem Growth.allocated_iff (h : History α) (growth : Growth L α) :
    Allocated L (growth.run v h) ↔
      (growth.newSize v < 2 ^ L.sizeTypeBits → Grows L v.capacity (growth.newSize v)) := by
  constructor
  · intro hallocated hfits
    by_contra hgrows
    rw [growth.run_hangs hv hfits hgrows] at hallocated
    cases hallocated
  · intro hgrows
    cases growth with
    | resize newSize value => exact allocated_of_becomes (hv.resize value newSize.isLt (hgrows newSize.isLt))
    | pushBackMany count value => exact allocated_of_becomes (hv.pushBackMany count value hgrows)
    | appendCopy range => exact allocated_of_becomes (hv.appendCopy range hgrows)
    | appendFromOther other others ho =>
      refine Library.Meets.bind (hv.appendFromOther ho hgrows) ?_
      rintro ⟨v', other', h'⟩ ⟨hv', -⟩
      exact hv'.allocated

omit hv

/-- A vector with a block for three numbers of 4 bytes, as `shrink_to_fit` leaves it. -/
def threePlaces : Vector Nat := { cells := fun _ => none, bytes := 12, size := 0, capacity := 3 }

def numbersLayout : ElementLayout := ⟨true, 4, fun _ _ => true⟩

theorem threePlaces_represents : threePlaces.Represents numbersLayout [] :=
  ⟨.nil _, rfl, by decide, rfl, by decide, by decide⟩

theorem allocated_threePlaces :
    Allocated numbersLayout ((Growth.pushBackMany (L := numbersLayout) 4 7).run threePlaces .start) :=
  (Growth.allocated_iff threePlaces_represents .start (.pushBackMany 4 7)).2 fun _ =>
    .inr ⟨1, by decide⟩

theorem not_allocated_threePlaces : ¬∀ (v : Vector Nat) (objects : List (Object Nat))
    (_ : v.Represents numbersLayout objects) (h : History Nat) (growth : Growth numbersLayout Nat),
      Allocated numbersLayout (growth.run v h) := by
  intro hall
  have hresize := hall threePlaces [] threePlaces_represents .start (.resize ⟨2 ^ 64 - 1, by decide⟩ 0)
  cases (show Stop.hang = Stop.outOfMemory from hresize)

end USprache.Ustlib.Vector
