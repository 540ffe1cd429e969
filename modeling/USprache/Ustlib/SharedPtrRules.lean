import USprache.Ustlib.SharedPtr

/-!
# The rules that shared pointers keep at run time

The counters count the pointers and locks in every reachable state.
-/

namespace USprache.Ustlib.SharedPtr

open Function State Finset

theorem counterInc_eq {c : Nat} (h : c < 2 ^ 31) : counterInc c = c + 1 := by
  unfold counterInc
  omega

theorem counterDec_eq {c : Nat} (hpos : 0 < c) : counterDec c = c - 1 := if_neg hpos.ne'

theorem bmod_eq {c : Int} (hle : 0 ≤ c) (hlt : c < 2 ^ 31) : c.bmod (2 ^ 32) = c := by
  have hmod : ((2 ^ 32 : Nat) : Int) = 4294967296 := rfl
  rw [Int.bmod_def]
  omega

variable (s : State)

/-- The mutable lock is alone, and the immutable ones are counted. -/
def LocksCounted : Prop := (s.locksMut = ∅ ∧ s.block.lockCount = s.locksImut.card) ∨
    (s.locksMut.card = 1 ∧ s.locksImut = ∅ ∧ s.block.lockCount = -1)

structure Typed : Prop where
  strong_shared : ∀ ptr ∈ s.strong, (s.type ptr).isShared = true
  weak_not_shared : ∀ ptr ∈ s.weak, (s.type ptr).isShared = false
  empty_default : ∀ ptr ∈ s.empty, (s.type ptr).hasDefault = true
  empty_only : ∀ ptr ∈ s.empty, ptr ∉ s.strong ∧ ptr ∉ s.weak

/-- What holds also in the middle of a pointer's destructor. -/
structure Kept : Prop where
  strong_eq : s.block.useCountStrong = s.strong.card
  destroyed_eq : s.destroyed = if s.strong = ∅ then 1 else 0
  suspended_le : s.suspended ≤ s.destroyed
  locks_counted : LocksCounted s
  locks_lt : s.locksImut.card < 2 ^ 31
  lock_source : ∀ lock, s.LockExists lock → s.lockSource lock ∈ s.strong
  typed : Typed s

structure Invariant : Prop extends Kept s where
  total_eq : s.block.useCountTotal = s.strong.card + s.weak.card + s.suspended
  pointers_lt : s.strong.card + s.weak.card + s.suspended < 2 ^ 31
  freed_eq : s.freed = if s.strong.card + s.weak.card + s.suspended = 0 then 1 else 0

theorem start_invariant (ptr : PtrId) (T : TypeId) (n m : Bool) :
    Invariant (start ptr (.shared T n m)) where
  strong_eq := by simp [start, ControlBlock.start]
  total_eq := by simp [start, ControlBlock.start]
  pointers_lt := by simp [start]
  destroyed_eq := by simp [start]
  suspended_le := by simp [start]
  freed_eq := by simp [start]
  locks_counted := .inl ⟨rfl, rfl⟩
  locks_lt := by simp [start]
  lock_source := by simp [start]
  typed := by constructor <;> simp [start, PtrType.isShared]

section Types

variable {s} {result : PtrId} {type : PtrType}

namespace Typed

/-- A new pointer, in a set that its type belongs in. -/
theorem add {s' : State} (h : Typed s) (hty : s'.type = Function.update s.type result type)
    (hold : ∀ ptr ≠ result, (ptr ∈ s'.strong ↔ ptr ∈ s.strong) ∧ (ptr ∈ s'.weak ↔ ptr ∈ s.weak) ∧
      (ptr ∈ s'.empty ↔ ptr ∈ s.empty))
    (hstr : result ∈ s'.strong → type.isShared = true)
    (hweak : result ∈ s'.weak → type.isShared = false)
    (he : result ∈ s'.empty → type.hasDefault = true ∧ result ∉ s'.strong ∧ result ∉ s'.weak) :
    Typed s' := by
  constructor <;> intro ptr hptr <;> rcases eq_or_ne ptr result with rfl | hne <;> rw [hty] at *
  · rw [update_self]
    exact hstr hptr
  · rw [update_of_ne hne]
    exact h.strong_shared ptr ((hold ptr hne).1.1 hptr)
  · rw [update_self]
    exact hweak hptr
  · rw [update_of_ne hne]
    exact h.weak_not_shared ptr ((hold ptr hne).2.1.1 hptr)
  · rw [update_self]
    exact (he hptr).1
  · rw [update_of_ne hne]
    exact h.empty_default ptr ((hold ptr hne).2.2.1 hptr)
  · exact (he hptr).2
  · obtain ⟨hs, hw, he⟩ := hold ptr hne
    rw [hs, hw]
    exact h.empty_only ptr (he.1 hptr)

theorem addStrong (h : Typed s) (hfr : ¬s.Exists result) (hty : type.isShared = true)
    (block : ControlBlock) : Typed (s.addStrong result type block) :=
  h.add rfl (fun _ hne => by simp [State.addStrong, hne]) (fun _ => hty)
    (fun hw => absurd (.inr (.inl hw)) hfr) (fun he => absurd (.inr (.inr he)) hfr)

theorem addWeak (h : Typed s) (hfr : ¬s.Exists result) (hty : type.isShared = false)
    (block : ControlBlock) : Typed (s.addWeak result type block) :=
  h.add rfl (fun _ hne => by simp [State.addWeak, hne]) (fun hs => absurd (.inl hs) hfr)
    (fun _ => hty) (fun he => absurd (.inr (.inr he)) hfr)

theorem addEmpty (h : Typed s) (hfr : ¬s.Exists result) (hty : type.hasDefault = true) :
    Typed (s.addEmpty result type) :=
  h.add rfl (fun _ hne => by simp [State.addEmpty, hne]) (fun hs => absurd (.inl hs) hfr)
    (fun hw => absurd (.inr (.inl hw)) hfr)
    (fun _ => ⟨hty, fun hs => hfr (.inl hs), fun hw => hfr (.inr (.inl hw))⟩)

theorem mono {s' : State} (h : Typed s) (hstr : s'.strong ⊆ s.strong) (hweak : s'.weak ⊆ s.weak)
    (he : s'.empty ⊆ s.empty) (hty : s'.type = s.type) : Typed s' where
  strong_shared ptr hptr := hty ▸ h.strong_shared ptr (hstr hptr)
  weak_not_shared ptr hptr := hty ▸ h.weak_not_shared ptr (hweak hptr)
  empty_default ptr hptr := hty ▸ h.empty_default ptr (he hptr)
  empty_only ptr hptr := ⟨fun hs => (h.empty_only ptr (he hptr)).1 (hstr hs),
      fun hw => (h.empty_only ptr (he hptr)).2 (hweak hw)⟩

/-- A shared pointer that does not point to the value is seen to be empty. -/
theorem empty_eq (h : Typed s) (ptr : PtrId) :
    (s.type ptr).empty (s.storageEmpty ptr) = s.storageEmpty ptr := by
  by_cases hptr : ptr ∈ s.empty
  · have hdf := h.empty_default ptr hptr
    cases hty : s.type ptr with
    | shared T n m =>
      rw [hty] at hdf
      simp only [PtrType.hasDefault] at hdf
      simp [PtrType.empty, hdf]
    | weak T m => rfl
  · cases s.type ptr <;> simp [PtrType.empty, storageEmpty, hptr]

end Typed

end Types

namespace Invariant

variable {s} (h : Invariant s)

include h

theorem access_eq {ptr : PtrId} (hptr : ptr ∈ s.strong ∨ ptr ∈ s.weak)
    (f : ControlBlock → Outcome) : s.access ptr f = f s.block := by
  have hnotE : ptr ∉ s.empty := fun he =>
    hptr.elim (h.typed.empty_only ptr he).1 (h.typed.empty_only ptr he).2
  have hpos : s.strong.card + s.weak.card + s.suspended ≠ 0 := by
    rcases hptr with hptr | hptr
    · have := card_pos.2 ⟨ptr, hptr⟩
      omega
    · have := card_pos.2 ⟨ptr, hptr⟩
      omega
  have hfr := h.freed_eq
  rw [if_neg hpos] at hfr
  rw [access, if_neg (by simp [hnotE, hfr])]

theorem storageEmpty_eq {ptr : PtrId} (hptr : ptr ∈ s.strong ∨ ptr ∈ s.weak) :
    s.storageEmpty ptr = false := by
  refine decide_eq_false fun he => ?_
  exact hptr.elim (h.typed.empty_only ptr he).1 (h.typed.empty_only ptr he).2

variable {result : PtrId} {type : PtrType} {source : PtrId} {T : TypeId} {m : Bool}

theorem addEmpty (hfr : ¬s.Exists result)
    (hty : type.hasDefault = true) : Invariant (s.addEmpty result type) :=
  { h with typed := h.typed.addEmpty hfr hty }

theorem addStrong (hfr : ¬s.Exists result)
    (hty : type.isShared = true) (hstr : s.strong.Nonempty)
    (hbdd : (s.addStrong result type s.block.incBoth).Bounded) :
    Invariant (s.addStrong result type s.block.incBoth) := by
  have hcard : (insert result s.strong).card = s.strong.card + 1 :=
    card_insert_of_notMem fun hmem => hfr (.inl hmem)
  have hbd := hbdd.1
  simp only [State.addStrong] at hbd
  have hpos := card_pos.2 hstr
  have hstr_eq := h.strong_eq
  have htot_eq := h.total_eq
  refine { h with
      strong_eq := ?_, total_eq := ?_, pointers_lt := hbdd.1, destroyed_eq := ?_,
      freed_eq := ?_, lock_source := ?_, typed := h.typed.addStrong hfr hty _ }
  · show counterInc s.block.useCountStrong = (insert result s.strong).card
    rw [counterInc_eq (by omega)]
    omega
  · show s.destroyed = if insert result s.strong = ∅ then 1 else 0
    rw [h.destroyed_eq, if_neg hstr.ne_empty, if_neg (insert_ne_empty _ _)]
  · intro lock hlk
    exact mem_insert_of_mem (h.lock_source lock hlk)
  · show counterInc s.block.useCountTotal = (insert result s.strong).card + s.weak.card + s.suspended
    rw [counterInc_eq (by omega)]
    omega
  · show s.freed = if (insert result s.strong).card + s.weak.card + s.suspended = 0 then 1 else 0
    rw [h.freed_eq, if_neg (by omega), if_neg (by omega)]

theorem addWeak (hfr : ¬s.Exists result)
    (hty : type.isShared = false) (hne : s.strong.Nonempty ∨ s.weak.Nonempty)
    (hbdd : (s.addWeak result type s.block.incTotal).Bounded) :
    Invariant (s.addWeak result type s.block.incTotal) := by
  have hcard : (insert result s.weak).card = s.weak.card + 1 :=
    card_insert_of_notMem fun hmem => hfr (.inr (.inl hmem))
  have hbd := hbdd.1
  simp only [State.addWeak] at hbd
  have hpos : 0 < s.strong.card + s.weak.card := by
    rcases hne with hne | hne
    · have := card_pos.2 hne
      omega
    · have := card_pos.2 hne
      omega
  have htot_eq := h.total_eq
  refine { h with
      total_eq := ?_, pointers_lt := hbdd.1, freed_eq := ?_,
      typed := h.typed.addWeak hfr hty _ }
  · show counterInc s.block.useCountTotal = s.strong.card + (insert result s.weak).card + s.suspended
    rw [counterInc_eq (by omega)]
    omega
  · show s.freed = if s.strong.card + (insert result s.weak).card + s.suspended = 0 then 1 else 0
    rw [h.freed_eq, if_neg (by omega), if_neg (by omega)]

inductive ConversionResult (s : State) (result : PtrId) (type : PtrType) : Outcome → Prop
  | empty : type.hasDefault = true → ConversionResult _ _ _ (.done (s.addEmpty result type))
  | strong : type.isShared = true → s.strong.Nonempty →
    ConversionResult _ _ _ (.done (s.addStrong result type s.block.incBoth))
  | weak : type.isShared = false → s.strong.Nonempty ∨ s.weak.Nonempty →
    ConversionResult _ _ _ (.done (s.addWeak result type s.block.incTotal))
  | halted : ConversionResult _ _ _ (.halted s)

variable (hexists : s.Exists source)

include hexists

theorem constructShared {checksEmpty : Bool}
    {U : TypeId} {n n' m' : Bool}
    (hsrc : s.type source = .shared U n m) (hchks : n = true → checksEmpty = true ∧ n' = true) :
    ConversionResult s result (.shared T n' m')
      (s.constructShared checksEmpty source result (.shared T n' m')) := by
  rw [State.constructShared]
  rcases hexists with hptr | hptr | hptr
  · rw [h.storageEmpty_eq (.inl hptr), PtrType.empty, Bool.and_false, Bool.and_false,
      h.access_eq (.inl hptr)]
    exact .strong rfl ⟨source, hptr⟩
  · have hty := h.typed.weak_not_shared source hptr
    rw [hsrc] at hty
    cases hty
  · have hty := h.typed.empty_default source hptr
    rw [hsrc] at hty
    obtain ⟨hchd, hnul⟩ := hchks hty
    rw [hchd, hnul, storageEmpty, decide_eq_true hptr]
    exact .empty rfl

theorem constructWeak {checksStorage : Bool}
    (hchks : (s.type source).hasDefault = true → checksStorage = true) :
    ConversionResult s result (.weak T m)
      (s.constructWeak checksStorage source result (.weak T m)) := by
  have hpointer : ∀ hptr : source ∈ s.strong ∨ source ∈ s.weak,
      s.constructWeak checksStorage source result (.weak T m) =
        .done (s.addWeak result (.weak T m) s.block.incTotal) := by
    intro hptr
    rw [State.constructWeak, h.storageEmpty_eq hptr, Bool.and_false, if_neg Bool.false_ne_true,
      h.access_eq hptr]
  rcases hexists with hptr | hptr | hptr
  · rw [hpointer (.inl hptr)]
    exact .weak rfl (.inl ⟨source, hptr⟩)
  · rw [hpointer (.inr hptr)]
    exact .weak rfl (.inr ⟨source, hptr⟩)
  · rw [State.constructWeak, hchks (h.typed.empty_default source hptr), storageEmpty,
      decide_eq_true hptr]
    exact .empty rfl

theorem tryToNonNullable (hsrc : s.type source = .shared T true m) :
    ConversionResult s result (.shared T false m)
      (s.tryToNonNullable source result (.shared T false m)) := by
  rw [State.tryToNonNullable, h.typed.empty_eq]
  rcases hexists with hptr | hptr | hptr
  · rw [h.storageEmpty_eq (.inl hptr), h.access_eq (.inl hptr)]
    exact .strong rfl ⟨source, hptr⟩
  · have hty := h.typed.weak_not_shared source hptr
    rw [hsrc] at hty
    cases hty
  · rw [storageEmpty, decide_eq_true hptr]
    exact .halted

theorem upgrade :
    ConversionResult s result (.shared T true m) (s.upgrade source result (.shared T true m)) := by
  have hpointer : ∀ hptr : source ∈ s.strong ∨ source ∈ s.weak,
      s.upgrade source result (.shared T true m) =
        if s.block.useCountStrong = 0 then .done (s.addEmpty result (.shared T true m))
        else .done (s.addStrong result (.shared T true m) s.block.incBoth) := by
    intro hptr
    rw [State.upgrade, h.storageEmpty_eq hptr, if_neg Bool.false_ne_true, h.access_eq hptr]
  by_cases hptr : source ∈ s.strong ∨ source ∈ s.weak
  · rw [hpointer hptr]
    split
    · exact .empty rfl
    · rename_i hc
      rw [h.strong_eq] at hc
      exact .strong rfl (card_pos.1 (Nat.pos_of_ne_zero hc))
  · have hemp : source ∈ s.empty := by
      rcases hexists with hs | hw | he
      · exact absurd (.inl hs) hptr
      · exact absurd (.inr hw) hptr
      · exact he
    rw [State.upgrade, storageEmpty, decide_eq_true hemp]
    exact .empty rfl

theorem conversion {isAncFor : TypeId → TypeId → Prop}
    {conversion : Conversion}
    (hcvs : Converts isAncFor conversion (s.type source) type) :
    ConversionResult s result type (conversion.run s source result type) := by
  generalize hsrc : s.type source = sourceType at hcvs
  cases hcvs with
  | nullableFromNonNullable T m | nullableImutFromMut T =>
    show ConversionResult s result _ (s.constructShared false source result _)
    exact h.constructShared hexists hsrc (by simp)
  | imutFromMut T n | copyShared T n m | sharedFromCompatible T U n m =>
    show ConversionResult s result _ (s.constructShared true source result _)
    exact h.constructShared hexists hsrc (by simp)
  | tryToNonNullable T m => exact h.tryToNonNullable hexists hsrc
  | weakFromImut T | weakFromMut T m =>
    show ConversionResult s result _ (s.constructWeak false source result _)
    exact h.constructWeak hexists (by simp [hsrc, PtrType.hasDefault])
  | weakFromNullableImut T | weakFromNullableMut T m | weakFromCompatible T U m | copyWeak T m =>
    exact h.constructWeak hexists fun _ => rfl
  | upgrade T m => exact h.upgrade hexists

end Invariant

end USprache.Ustlib.SharedPtr
