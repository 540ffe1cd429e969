import Mathlib.Algebra.Order.Ring.Nat
import USprache.Library.Outcome

/-!
# The arena allocator

The arena hands out parts of blocks of memory that it gets from the system, one behind the other.
As long as the sums with the requested sizes are values of `size_type` and doublings of the block
reach the size, the parts lie in the blocks and do not overlap.
-/

namespace USprache.Ustlib

open List Library Nat

namespace ArenaAllocator

inductive Stop where
  /-- A failed allocation or an index behind the end of `allocated_blocks`. -/
  | halt
  | hang
deriving DecidableEq

structure Range where
  address : Nat
  size : Nat

def Range.Within (r block : Range) : Prop :=
  block.address ≤ r.address ∧ r.address + r.size ≤ block.address + block.size

def Range.Disjoint (r r' : Range) : Prop :=
  r.address + r.size ≤ r'.address ∨ r'.address + r'.size ≤ r.address

structure Platform where
  /-- Whether `size_type` has 8 bytes, otherwise it has 4. -/
  wideSizeType : Bool
  maxAlignmentLog2 : Nat
  /-- The size of `internal_state`. -/
  stateSize : Nat
  /-- The address of a new block beside those that the system has given.  None is a failed allocation,
  at which the program is halted by its documentation; the null pointer is not checked. -/
  memoryAllocateImpl : (blocks : List Range) → (sizeBytes : Nat) → Option Nat

structure State where
  currentBlock : Nat
  currentBlockSize : Nat
  currentBlockPosition : Nat
  /-- The first `num_allocated_blocks` elements of `allocated_blocks`. -/
  allocatedBlocks : List Nat
  /-- The blocks that the arena has got from the system, with the one that holds the state. -/
  blocks : List Range

variable (P : Platform)

namespace Platform

def sizeTypeBits : Nat := if P.wideSizeType then 64 else 32

def maxAlignment : Nat := 2 ^ P.maxAlignmentLog2

/-- The sum with its lowest bits cleared. -/
def alignSize (s : Nat) : Nat :=
  (s + (P.maxAlignment - 1)) % 2 ^ P.sizeTypeBits / P.maxAlignment * P.maxAlignment

def firstAllocationSizeLog2 : Nat := 9

def maxAllocationSizeLog2 : Nat := if P.wideSizeType then 41 else 31

def maxAllocations : Nat := 1 + P.maxAllocationSizeLog2 - firstAllocationSizeLog2

def memoryAllocate (blocks : List Range) (sizeBytes : Nat) : Except Stop Nat :=
  if !P.wideSizeType ∧ sizeBytes ≥ 2147483647 then .error .halt
  else
    match P.memoryAllocateImpl blocks sizeBytes with
    | some mem => .ok mem
    | none => .error .halt

/-- `while( new_block_size < size_aligned_bytes ) { new_block_size <<= 1; }`.  A size that was shifted
by as many bits as it has is zero and stays zero. -/
def growBlockSize (sizeAlignedBytes : Nat) : Nat → Nat → Option Nat
  | 0, _ => none
  | fuel + 1, newBlockSize =>
    if newBlockSize < sizeAlignedBytes then
      growBlockSize sizeAlignedBytes fuel (newBlockSize * 2 % 2 ^ P.sizeTypeBits)
    else some newBlockSize

end Platform

/-- `allocate_and_init_internal_state`, and the place of the state. -/
def allocateAndInitInternalState (firstBlockSize : Nat) : Except Stop (Range × State) := do
  let firstBlockOffset := P.alignSize P.stateSize
  let sizeBytes := (firstBlockOffset + firstBlockSize) % 2 ^ P.sizeTypeBits
  let mem ← P.memoryAllocate [] sizeBytes
  .ok (⟨mem, P.stateSize⟩,
    { currentBlock := mem + firstBlockOffset
      currentBlockSize := firstBlockSize
      currentBlockPosition := 0
      allocatedBlocks := []
      blocks := [⟨mem, sizeBytes⟩] })

/-- The size of the first block: the default one, or at least the initial capacity. -/
def firstBlockSize : Option Nat → Nat
  | none => 2 ^ Platform.firstAllocationSizeLog2
  | some initialCapacity => max (2 ^ Platform.firstAllocationSizeLog2) (P.alignSize initialCapacity)

def State.allocateBlock (s : State) (sizeAlignedBytes : Nat) : Except Stop State :=
  match P.growBlockSize sizeAlignedBytes (P.sizeTypeBits + 1) (s.currentBlockSize * 2 % 2 ^ P.sizeTypeBits) with
  | none => .error .hang
  | some newBlockSize => do
    let mem ← P.memoryAllocate s.blocks newBlockSize
    if s.allocatedBlocks.length < P.maxAllocations then
      .ok { currentBlock := mem
            currentBlockSize := newBlockSize
            currentBlockPosition := 0
            allocatedBlocks := s.allocatedBlocks ++ [mem]
            blocks := ⟨mem, newBlockSize⟩ :: s.blocks }
    else .error .halt

def State.allocate (s : State) (sizeBytes : Nat) : Except Stop (Nat × State) := do
  let sizeAlignedBytes := P.alignSize sizeBytes
  let s ←
    if (s.currentBlockPosition + sizeAlignedBytes) % 2 ^ P.sizeTypeBits > s.currentBlockSize then
      s.allocateBlock P sizeAlignedBytes
    else .ok s
  .ok (s.currentBlock + s.currentBlockPosition,
    { s with currentBlockPosition := (s.currentBlockPosition + sizeAlignedBytes) % 2 ^ P.sizeTypeBits })

/-- An arena with the ranges that were taken: the place of its state and those that were returned. -/
structure Run where
  state : State
  taken : List Range

def Run.construct (initialCapacity : Option Nat) : Except Stop Run := do
  let (place, state) ← allocateAndInitInternalState P (firstBlockSize P initialCapacity)
  .ok ⟨state, [place]⟩

def Run.allocate (run : Run) (sizeBytes : Nat) : Except Stop Run := do
  let (address, state) ← run.state.allocate P sizeBytes
  .ok ⟨state, ⟨address, sizeBytes⟩ :: run.taken⟩

def Run.allocateAll (run : Run) (sizes : List Nat) : Except Stop Run := sizes.foldlM (Run.allocate P) run

/-- Each range is aligned and lies in a block of the arena, and no two overlap. -/
structure Run.Separate (run : Run) : Prop where
  aligned : ∀ r ∈ run.taken, P.maxAlignment ∣ r.address
  within : ∀ r ∈ run.taken, ∃ block ∈ run.state.blocks, r.Within block
  disjoint : run.taken.Pairwise Range.Disjoint
  recorded : run.state.allocatedBlocks.length ≤ P.maxAllocations

structure Platform.Sound : Prop where
  aligned {blocks : List Range} {sizeBytes mem : Nat} (h : P.memoryAllocateImpl blocks sizeBytes = some mem) :
    P.maxAlignment ∣ mem
  disjoint {blocks : List Range} {sizeBytes mem : Nat} (h : P.memoryAllocateImpl blocks sizeBytes = some mem) :
    ∀ block ∈ blocks, block.Disjoint ⟨mem, sizeBytes⟩

/-- The size can be rounded up and added to the position, and doublings of the current block reach it
if it has no room. -/
structure State.Fits (s : State) (sizeBytes : Nat) : Prop where
  rounded : sizeBytes + (P.maxAlignment - 1) < 2 ^ P.sizeTypeBits
  added : s.currentBlockPosition + P.alignSize sizeBytes < 2 ^ P.sizeTypeBits
  reached : s.currentBlockSize < s.currentBlockPosition + P.alignSize sizeBytes →
    ∃ k, P.alignSize sizeBytes ≤ s.currentBlockSize * 2 ^ (k + 1) % 2 ^ P.sizeTypeBits

def Run.Fits : Run → List Nat → Prop
  | _, [] => True
  | run, sizeBytes :: sizes => run.state.Fits P sizeBytes ∧
    ∀ run', run.allocate P sizeBytes = .ok run' → Run.Fits run' sizes

def FirstBlockFits (initialCapacity : Option Nat) : Prop :=
  P.stateSize + (P.maxAlignment - 1) < 2 ^ P.sizeTypeBits ∧
    P.alignSize P.stateSize + firstBlockSize P initialCapacity < 2 ^ P.sizeTypeBits

variable {P} {s : State} {run : Run} {sizeBytes : Nat}

theorem Platform.dvd_alignSize (sizeBytes : Nat) : P.maxAlignment ∣ P.alignSize sizeBytes :=
  dvd_mul_left _ _

theorem Platform.le_alignSize (h : sizeBytes + (P.maxAlignment - 1) < 2 ^ P.sizeTypeBits) :
    sizeBytes ≤ P.alignSize sizeBytes := by
  have hpos : 0 < P.maxAlignment := Nat.two_pow_pos _
  have hdiv := div_add_mod (sizeBytes + (P.maxAlignment - 1)) P.maxAlignment
  have hmod := mod_lt (sizeBytes + (P.maxAlignment - 1)) hpos
  rw [alignSize, mod_eq_of_lt h, mul_comm]
  omega

theorem Platform.memoryAllocate_meets (hP : P.Sound) (blocks : List Range) (sizeBytes : Nat) :
    Meets (· = Stop.halt) (P.memoryAllocate blocks sizeBytes) fun mem =>
      P.maxAlignment ∣ mem ∧ ∀ block ∈ blocks, block.Disjoint ⟨mem, sizeBytes⟩ := by
  unfold memoryAllocate
  split
  · exact rfl
  · split
    · next h => exact ⟨hP.aligned h, hP.disjoint h⟩
    · exact rfl

variable {sizeAlignedBytes : Nat}

theorem Platform.growBlockSize_some {k fuel newBlockSize : Nat} (hk : k < fuel)
    (h : sizeAlignedBytes ≤ newBlockSize * 2 ^ k % 2 ^ P.sizeTypeBits) (hlt : newBlockSize < 2 ^ P.sizeTypeBits) :
    ∃ size, P.growBlockSize sizeAlignedBytes fuel newBlockSize = some size ∧ sizeAlignedBytes ≤ size := by
  induction k generalizing fuel newBlockSize with
  | zero =>
    obtain ⟨fuel, rfl⟩ := Nat.exists_eq_add_of_lt hk
    rw [pow_zero, mul_one, mod_eq_of_lt hlt] at h
    exact ⟨newBlockSize, if_neg (not_lt.2 h), h⟩
  | succ k ih =>
    obtain ⟨fuel, rfl⟩ := exists_eq_succ_of_ne_zero (ne_zero_of_lt hk)
    rw [growBlockSize]
    split
    · refine ih (lt_of_succ_lt_succ hk) ?_ (mod_lt _ (Nat.two_pow_pos _))
      rwa [mod_mul_mod, mul_assoc, ← pow_succ']
    · next hge => exact ⟨newBlockSize, rfl, not_lt.1 hge⟩

theorem Platform.growBlockSize_reaches {size : Nat}
    (h : ∃ k, sizeAlignedBytes ≤ size * 2 ^ (k + 1) % 2 ^ P.sizeTypeBits) :
    ∃ newBlockSize, P.growBlockSize sizeAlignedBytes (P.sizeTypeBits + 1) (size * 2 % 2 ^ P.sizeTypeBits) =
      some newBlockSize ∧ sizeAlignedBytes ≤ newBlockSize := by
  obtain ⟨k, hk⟩ := h
  by_cases hlt : k < P.sizeTypeBits + 1
  · refine growBlockSize_some hlt ?_ (mod_lt _ (Nat.two_pow_pos _))
    rwa [mod_mul_mod, mul_assoc, ← pow_succ']
  · obtain ⟨d, hd⟩ := Nat.exists_eq_add_of_le (show P.sizeTypeBits ≤ k + 1 by omega)
    rw [hd, pow_add, mul_left_comm, mul_mod_right] at hk
    exact ⟨_, if_neg (by omega), hk.trans (zero_le _)⟩

variable (P) in
structure Run.Inv (run : Run) : Prop extends run.Separate P where
  current : ∃ block ∈ run.state.blocks,
    Range.Within ⟨run.state.currentBlock, run.state.currentBlockSize⟩ block
  position_le : run.state.currentBlockPosition ≤ run.state.currentBlockSize
  block_aligned : P.maxAlignment ∣ run.state.currentBlock
  position_aligned : P.maxAlignment ∣ run.state.currentBlockPosition
  free : ∀ r ∈ run.taken, r.address + r.size ≤ run.state.currentBlock + run.state.currentBlockPosition ∨
    run.state.currentBlock + run.state.currentBlockSize ≤ r.address

theorem Run.Inv.take (h : run.Inv P) (hle : sizeBytes ≤ sizeAlignedBytes)
    (hdvd : P.maxAlignment ∣ sizeAlignedBytes)
    (hroom : run.state.currentBlockPosition + sizeAlignedBytes ≤ run.state.currentBlockSize) :
    Run.Inv P ⟨{ run.state with currentBlockPosition := run.state.currentBlockPosition + sizeAlignedBytes },
      ⟨run.state.currentBlock + run.state.currentBlockPosition, sizeBytes⟩ :: run.taken⟩ where
  aligned := forall_mem_cons.2 ⟨Nat.dvd_add h.block_aligned h.position_aligned, h.aligned⟩
  within := by
    obtain ⟨block, hmem, hle1, hle2⟩ := h.current
    refine forall_mem_cons.2 ⟨⟨block, hmem, ?_, ?_⟩, h.within⟩
    · exact hle1.trans (le_add_right _ _)
    · dsimp only at hle2 ⊢
      omega
  disjoint := by
    refine pairwise_cons.2 ⟨fun r hr => ?_, h.disjoint⟩
    rcases h.free r hr with hbefore | hbehind
    · exact .inr hbefore
    · refine .inl ?_
      dsimp only
      omega
  recorded := h.recorded
  current := h.current
  position_le := hroom
  block_aligned := h.block_aligned
  position_aligned := Nat.dvd_add h.position_aligned hdvd
  free := by
    refine forall_mem_cons.2 ⟨.inl ?_, fun r hr => ?_⟩
    · dsimp only
      omega
    · exact (h.free r hr).imp_left fun hbefore => by dsimp only; omega

variable (hP : P.Sound)

include hP

theorem Run.Inv.allocateBlock (h : run.Inv P)
    (hreached : ∃ k, sizeAlignedBytes ≤ run.state.currentBlockSize * 2 ^ (k + 1) % 2 ^ P.sizeTypeBits) :
    Meets (· = Stop.halt) (run.state.allocateBlock P sizeAlignedBytes) fun s =>
      Run.Inv P ⟨s, run.taken⟩ ∧ s.currentBlockPosition = 0 ∧ sizeAlignedBytes ≤ s.currentBlockSize := by
  obtain ⟨newBlockSize, hgrow, hle⟩ := Platform.growBlockSize_reaches hreached
  rw [State.allocateBlock, hgrow]
  refine .bind (Platform.memoryAllocate_meets hP run.state.blocks newBlockSize) ?_
  rintro mem ⟨haligned, hdisjoint⟩
  split
  · next hlength =>
    refine ⟨?_, rfl, hle⟩
    have hwithin : ∀ r ∈ run.taken, ∃ block ∈ ⟨mem, newBlockSize⟩ :: run.state.blocks, r.Within block := by
      intro r hr
      obtain ⟨block, hmem, hw⟩ := h.within r hr
      exact ⟨block, mem_cons_of_mem _ hmem, hw⟩
    have hrecorded : (run.state.allocatedBlocks ++ [mem]).length ≤ P.maxAllocations := by
      rw [length_append]
      exact hlength
    refine ⟨⟨h.aligned, hwithin, h.disjoint, hrecorded⟩, ?_, zero_le _, haligned, Nat.dvd_zero _, ?_⟩
    · exact ⟨_, mem_cons_self, le_rfl, le_rfl⟩
    · intro r hr
      obtain ⟨block, hmem, hle1, hle2⟩ := h.within r hr
      rcases hdisjoint block hmem with hbefore | hbehind
      · exact .inl (hle2.trans hbefore)
      · exact .inr (hbehind.trans hle1)
  · exact rfl

theorem Run.Inv.allocateState (h : run.Inv P) (hfits : run.state.Fits P sizeBytes) :
    Meets (· = Stop.halt) (run.state.allocate P sizeBytes) fun r =>
      Run.Inv P ⟨r.2, ⟨r.1, sizeBytes⟩ :: run.taken⟩ := by
  have hle := Platform.le_alignSize hfits.rounded
  have hdvd := Platform.dvd_alignSize (P := P) sizeBytes
  have hlt : P.alignSize sizeBytes < 2 ^ P.sizeTypeBits := (le_add_left _ _).trans_lt hfits.added
  rw [State.allocate, mod_eq_of_lt hfits.added]
  by_cases hfull : run.state.currentBlockPosition + P.alignSize sizeBytes > run.state.currentBlockSize
  · rw [if_pos hfull]
    refine .bind (h.allocateBlock hP (hfits.reached hfull)) ?_
    rintro s ⟨hinv, hposition, hroom⟩
    have htake := hinv.take hle hdvd (by rwa [hposition, zero_add])
    show Run.Inv P ⟨{ s with currentBlockPosition := _ % _ }, _⟩
    rwa [mod_eq_of_lt (by rwa [hposition, zero_add])]
  · rw [if_neg hfull]
    show Run.Inv P ⟨{ run.state with currentBlockPosition := _ % _ }, _⟩
    rw [mod_eq_of_lt hfits.added]
    exact h.take hle hdvd (not_lt.1 hfull)

theorem Run.Inv.allocate (h : run.Inv P) (hfits : run.state.Fits P sizeBytes) :
    Meets (· = Stop.halt) (run.allocate P sizeBytes) (Run.Inv P) :=
  .bind (h.allocateState hP hfits) fun _ hinv => hinv

theorem allocateAndInitInternalState_inv {size : Nat}
    (hrounded : P.stateSize + (P.maxAlignment - 1) < 2 ^ P.sizeTypeBits)
    (hadded : P.alignSize P.stateSize + size < 2 ^ P.sizeTypeBits) :
    Meets (· = Stop.halt) (allocateAndInitInternalState P size) fun r => Run.Inv P ⟨r.2, [r.1]⟩ := by
  have hle := Platform.le_alignSize hrounded
  rw [allocateAndInitInternalState, mod_eq_of_lt hadded]
  refine .bind (Platform.memoryAllocate_meets hP [] _) ?_
  rintro mem ⟨haligned, -⟩
  refine ⟨⟨?_, ?_, pairwise_singleton _ _, zero_le _⟩, ?_, zero_le _,
    Nat.dvd_add haligned (Platform.dvd_alignSize _), Nat.dvd_zero _, ?_⟩
  · exact forall_mem_singleton.2 haligned
  · refine forall_mem_singleton.2 ⟨_, mem_cons_self, le_rfl, ?_⟩
    dsimp only
    omega
  · exact ⟨_, mem_cons_self, le_add_right _ _, (add_assoc _ _ _).le⟩
  · refine forall_mem_singleton.2 (.inl ?_)
    dsimp only
    omega

theorem Run.Inv.allocateAll (h : run.Inv P) {sizes : List Nat} (hfits : run.Fits P sizes) :
    Meets (· = Stop.halt) (run.allocateAll P sizes) (Run.Inv P) := by
  induction sizes generalizing run with
  | nil => exact h
  | cons sizeBytes sizes ih =>
    rw [Run.allocateAll, foldlM_cons]
    have hstep := h.allocate hP hfits.1
    cases hrun : run.allocate P sizeBytes with
    | error stop =>
      rw [hrun] at hstep
      exact hstep
    | ok run' =>
      rw [hrun] at hstep
      exact ih hstep (hfits.2 run' hrun)

/-- As long as the first block and all requests fit, what the arena returns is aligned, lies in its
blocks and does not overlap, and the array has room for the blocks. -/
theorem allocateAll_separate (initialCapacity : Option Nat)
    (hfirst : FirstBlockFits P initialCapacity) (sizes : List Nat)
    (hfits : ∀ run, Run.construct P initialCapacity = .ok run → run.Fits P sizes) :
    Meets (· = Stop.halt) (Run.construct P initialCapacity >>= fun run => run.allocateAll P sizes)
      (Run.Separate P) := by
  have hconstruct : Meets (· = Stop.halt) (Run.construct P initialCapacity) (Run.Inv P) :=
    .bind (allocateAndInitInternalState_inv hP hfirst.1 hfirst.2) fun _ hinv => hinv
  cases hrun : Run.construct P initialCapacity with
  | error stop =>
    rw [hrun] at hconstruct
    exact hconstruct
  | ok run =>
    rw [hrun] at hconstruct
    exact (Run.Inv.allocateAll hP hconstruct (hfits run hrun)).mono fun _ h => h.toSeparate

omit hP

/-- A system with one block at 4096 and one at 65536. -/
def twoBlocks : Platform where
  wideSizeType := true
  maxAlignmentLog2 := 4
  stateSize := 296
  memoryAllocateImpl
    | [], _ => some 4096
    | [block], _ => if block.address + block.size ≤ 65536 then some 65536 else none
    | _, _ => none

theorem twoBlocks_sound : twoBlocks.Sound where
  aligned {blocks _ mem} h := by
    match blocks, h with
    | [], h => exact Option.some.inj h ▸ (by decide : 16 ∣ 4096)
    | [_], h => exact Option.some.inj (Option.ite_none_right_eq_some.1 h).2 ▸ (by decide : 16 ∣ 65536)
  disjoint {blocks _ mem} h := by
    match blocks, h with
    | [], h => exact forall_mem_nil _
    | [_], h =>
      obtain ⟨hle, heq⟩ := Option.ite_none_right_eq_some.1 h
      exact forall_mem_singleton.2 (.inl (Option.some.inj heq ▸ hle))

/-- The third part does not fit in the first block. -/
theorem allocateAll_twoBlocks :
    Meets (· = Stop.halt)
      (Run.construct twoBlocks none >>= fun run => run.allocateAll twoBlocks [24, 100, 400])
      (Run.Separate twoBlocks) := by
  refine allocateAll_separate twoBlocks_sound none ⟨by decide, by decide⟩ [24, 100, 400] ?_
  intro run hrun
  cases hrun
  refine ⟨⟨by decide, by decide, fun h => absurd h (by decide)⟩, fun run' hrun' => ?_⟩
  cases hrun'
  refine ⟨⟨by decide, by decide, fun h => absurd h (by decide)⟩, fun run' hrun' => ?_⟩
  cases hrun'
  exact ⟨⟨by decide, by decide, fun _ => ⟨0, by decide⟩⟩, fun _ _ => trivial⟩

/-- The largest size is rounded up to zero. -/
theorem not_allocateAll_separate : ¬∀ (P : Platform), P.Sound → ∀ (initialCapacity : Option Nat)
    (sizes : List Nat),
    (∀ size ∈ sizes, size < 2 ^ P.sizeTypeBits) →
      Meets (· = Stop.halt) (Run.construct P initialCapacity >>= fun run => run.allocateAll P sizes)
        (Run.Separate P) := by
  intro h
  have hsep := h twoBlocks twoBlocks_sound none [2 ^ 64 - 1] (by decide)
  obtain ⟨block, hmem, -, hle⟩ := hsep.within _ mem_cons_self
  rw [mem_singleton.1 hmem] at hle
  exact absurd hle (by decide)

end ArenaAllocator

end USprache.Ustlib
