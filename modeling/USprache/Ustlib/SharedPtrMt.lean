import Mathlib.Algebra.Order.BigOperators.Group.Finset
import USprache.Library.PointUpdate

/-!
# Multithreaded shared pointers

Strong and weak pointers to one control block, and threads that create, copy, convert,
upgrade and destroy them.  The operations on the two counters are atomic and everything
else is not: a thread takes one step with a counter at a time, and the steps of the
threads interleave in any order.

A thread may read any pointer that exists; a pointer that is read by an operation in
progress can't be destroyed at the same time.  Moving a pointer takes no step.
-/

namespace USprache.Ustlib.SharedPtrMt

open Nat Function Finset

open Library (sum_update_add)

abbrev PtrId := Nat

inductive Activity
  | idle
  /-- The copy and conversion constructors of strong pointers increment both counters. -/
  | strongIncTotal (source : PtrId)
  | strongIncStrong (source : PtrId)
  /-- The constructors of weak pointers, from a strong or a weak one. -/
  | weakIncTotal (source : PtrId)
  | strongDecStrong
  | strongCallDestructor
  | strongDecTotal
  | weakDecTotal
  /-- The end of a destructor that has decremented `use_count_total` from 1. -/
  | memoryFree
  /-- `upgrade`; `count` is the value of `use_count_strong` read last. -/
  | upgradeIncTotal (source : PtrId)
  | upgradeRead (source : PtrId)
  | upgradeLoop (source : PtrId) (count : Nat)
deriving DecidableEq

/-- The control block, the pointers to it and the threads. -/
structure State (τ : Type) where
  useCountTotal : Nat
  useCountStrong : Nat
  /-- How many times the destructor of the value was called. -/
  destroyed : Nat
  freed : Nat
  /-- The pointers that exist and are not being destroyed. -/
  strong : Finset PtrId
  weak : Finset PtrId
  activity : τ → Activity

variable {τ : Type} [Fintype τ] [DecidableEq τ]

/-- `shared_ptr_storage` has just been constructed with a value. -/
def State.start (ptr : PtrId) : State τ :=
  { useCountTotal := 1, useCountStrong := 1, destroyed := 0, freed := 0, strong := {ptr}, weak := ∅,
    activity := fun _ => .idle }

def atomicInc (x : Nat) : Nat := (x + 1) % 2 ^ 32

/-- `atomic_dec` of a `u32`, which adds `~0u`. -/
def atomicDec (x : Nat) : Nat := (x + (2 ^ 32 - 1)) % 2 ^ 32

def Activity.source : Activity → Option PtrId
  | strongIncTotal source | strongIncStrong source | weakIncTotal source
  | upgradeIncTotal source | upgradeRead source | upgradeLoop source _ => some source
  | _ => none

variable (s : State τ)

def State.Unread (ptr : PtrId) : Prop := ∀ t, (s.activity t).source ≠ some ptr

def State.become (t : τ) (activity : Activity) : State τ :=
  { s with activity := Function.update s.activity t activity }

/-- The steps of a thread `t`: to begin an operation, and to go on with it. -/
inductive Step : State τ → State τ → Prop
  | beginStrong (s t source) : s.activity t = .idle → source ∈ s.strong →
    Step s (s.become t (.strongIncTotal source))
  | beginWeak (s t source) : s.activity t = .idle → source ∈ s.strong ∨ source ∈ s.weak →
    Step s (s.become t (.weakIncTotal source))
  | beginUpgrade (s t source) : s.activity t = .idle → source ∈ s.weak →
    Step s (s.become t (.upgradeIncTotal source))
  | beginDestroyStrong (s t ptr) : s.activity t = .idle → ptr ∈ s.strong → s.Unread ptr →
    Step s { s.become t .strongDecStrong with strong := s.strong.erase ptr }
  | beginDestroyWeak (s t ptr) : s.activity t = .idle → ptr ∈ s.weak → s.Unread ptr →
    Step s { s.become t .weakDecTotal with weak := s.weak.erase ptr }
  | strongIncTotal (s t source) : s.activity t = .strongIncTotal source →
    Step s { s.become t (.strongIncStrong source) with useCountTotal := atomicInc s.useCountTotal }
  | strongIncStrong (s t source ptr) : s.activity t = .strongIncStrong source →
    ptr ∉ s.strong → ptr ∉ s.weak →
    Step s { s.become t .idle with
      useCountStrong := atomicInc s.useCountStrong, strong := insert ptr s.strong }
  | weakIncTotal (s t source ptr) : s.activity t = .weakIncTotal source →
    ptr ∉ s.strong → ptr ∉ s.weak →
    Step s { s.become t .idle with
      useCountTotal := atomicInc s.useCountTotal, weak := insert ptr s.weak }
  | strongDecStrong (s t) : s.activity t = .strongDecStrong →
    Step s { s.become t (if s.useCountStrong = 1 then .strongCallDestructor else .strongDecTotal) with
      useCountStrong := atomicDec s.useCountStrong }
  | strongCallDestructor (s t) : s.activity t = .strongCallDestructor →
    Step s { s.become t .strongDecTotal with destroyed := s.destroyed + 1 }
  | strongDecTotal (s t) : s.activity t = .strongDecTotal →
    Step s { s.become t (if s.useCountTotal = 1 then .memoryFree else .idle) with
      useCountTotal := atomicDec s.useCountTotal }
  | weakDecTotal (s t) : s.activity t = .weakDecTotal →
    Step s { s.become t (if s.useCountTotal = 1 then .memoryFree else .idle) with
      useCountTotal := atomicDec s.useCountTotal }
  | memoryFree (s t) : s.activity t = .memoryFree →
    Step s { s.become t .idle with freed := s.freed + 1 }
  | upgradeIncTotal (s t source) : s.activity t = .upgradeIncTotal source →
    Step s { s.become t (.upgradeRead source) with useCountTotal := atomicInc s.useCountTotal }
  | upgradeRead (s t source) : s.activity t = .upgradeRead source →
    Step s (s.become t (.upgradeLoop source s.useCountStrong))
  -- There is no strong pointer any more.  The result of the decrement is not looked at.
  | upgradeFail (s t source) : s.activity t = .upgradeLoop source 0 →
    Step s { s.become t .idle with useCountTotal := atomicDec s.useCountTotal }
  | exchange (s t source count ptr) : s.activity t = .upgradeLoop source count → count ≠ 0 →
    s.useCountStrong = count → ptr ∉ s.strong → ptr ∉ s.weak →
    Step s { s.become t .idle with
      useCountStrong := (count + 1) % 2 ^ 32, strong := insert ptr s.strong }
  -- A weak exchange may also fail if the counter has the expected value.
  | exchangeFail (s t source count) : s.activity t = .upgradeLoop source count → count ≠ 0 →
    Step s (s.become t (.upgradeLoop source s.useCountStrong))

/-- The pointer that an operation makes or destroys, as far as it is counted in
`use_count_total`. -/
def Activity.holdsTotal : Activity → Nat
  | strongIncStrong _ | strongDecStrong | strongCallDestructor | strongDecTotal | weakDecTotal
  | upgradeRead _ | upgradeLoop _ _ => 1
  | _ => 0

/-- As far as it is counted in `use_count_strong`. -/
def Activity.holdsStrong : Activity → Nat
  | strongDecStrong => 1
  | _ => 0

def Activity.callsDestructor : Activity → Nat
  | strongCallDestructor => 1
  | _ => 0

def Activity.frees : Activity → Nat
  | memoryFree => 1
  | _ => 0

/-- The number of pointers, with the ones that operations in progress make or destroy. -/
def State.alive : Nat := s.strong.card + s.weak.card + ∑ t, (s.activity t).holdsTotal

/-- The number of strong pointers, with the ones whose destruction has not been counted yet. -/
def State.aliveStrong : Nat := s.strong.card + ∑ t, (s.activity t).holdsStrong

/-- The calls of the value's destructor that were made or are about to be made. -/
def State.destructions : Nat := s.destroyed + ∑ t, (s.activity t).callsDestructor

def State.frees : Nat := s.freed + ∑ t, (s.activity t).frees

/-- The states of the runs with fewer than `2 ^ 32` pointers alive at once. -/
inductive Reachable : State τ → Prop
  | start (ptr : PtrId) : Reachable (State.start ptr)
  | step {s s' : State τ} : Reachable s → Step s s' → s'.alive < 2 ^ 32 → Reachable s'

/-- The pointer that an operation reads exists, and has the kind that the operation needs. -/
def Activity.SourceExists (strong weak : Finset PtrId) : Activity → Prop
  | strongIncTotal source | strongIncStrong source => source ∈ strong
  | weakIncTotal source => source ∈ strong ∨ source ∈ weak
  | upgradeIncTotal source | upgradeRead source | upgradeLoop source _ => source ∈ weak
  | _ => True

theorem Activity.SourceExists.mono {strong weak strong' weak' : Finset PtrId} {activity : Activity}
    (h : activity.SourceExists strong weak)
    (hstr : ∀ ptr ∈ strong, activity.source = some ptr → ptr ∈ strong')
    (hweak : ∀ ptr ∈ weak, activity.source = some ptr → ptr ∈ weak') :
    activity.SourceExists strong' weak' := by
  cases activity with
  | strongIncTotal src | strongIncStrong src => exact hstr src h rfl
  | weakIncTotal src => exact h.imp (hstr src · rfl) (hweak src · rfl)
  | upgradeIncTotal src | upgradeRead src | upgradeLoop src count => exact hweak src h rfl
  | _ => trivial

/-- The counters count pointers.  When the last strong pointer is gone the value's destructor is
called, when the last pointer is gone the block is freed. -/
structure Invariant : Prop where
  total_lt : s.useCountTotal < 2 ^ 32
  total_eq : s.useCountTotal = s.alive
  strong_eq : s.useCountStrong = s.aliveStrong
  destructions_eq : s.destructions = if s.useCountStrong = 0 then 1 else 0
  frees_eq : s.frees = if s.useCountTotal = 0 then 1 else 0
  source_exists : ∀ t, (s.activity t).SourceExists s.strong s.weak

omit [DecidableEq τ] in
theorem start_invariant (ptr : PtrId) : Invariant (State.start ptr : State τ) := by
  constructor
  · show 1 < 2 ^ 32
    decide
  · simp [State.start, State.alive, Activity.holdsTotal]
  · simp [State.start, State.aliveStrong, Activity.holdsStrong]
  · simp [State.start, State.destructions, Activity.callsDestructor]
  · simp [State.start, State.frees, Activity.frees]
  · intro t
    trivial

section Counting

variable {s' : State τ} {s} {t : τ} {a b : Activity}

theorem sum_next (g : Activity → Nat) (hb : s.activity t = b)
    (h : s'.activity = Function.update s.activity t a) :
    ∑ t, g (s'.activity t) + g b = ∑ t, g (s.activity t) + g a := by
  rw [h, ← hb]
  exact sum_update_add g s.activity t a

section

omit [DecidableEq τ]

theorem holdsTotal_le (s : State τ) (t : τ) :
    (s.activity t).holdsTotal ≤ ∑ t, (s.activity t).holdsTotal :=
  single_le_sum (f := fun t => (s.activity t).holdsTotal) (fun _ _ => zero_le _) (mem_univ t)

theorem holdsStrong_le (s : State τ) (t : τ) :
    (s.activity t).holdsStrong ≤ ∑ t, (s.activity t).holdsStrong :=
  single_le_sum (f := fun t => (s.activity t).holdsStrong) (fun _ _ => zero_le _) (mem_univ t)

theorem aliveStrong_le_alive (s : State τ) : s.aliveStrong ≤ s.alive := by
  have hsum : ∑ t, (s.activity t).holdsStrong ≤ ∑ t, (s.activity t).holdsTotal := by
    apply sum_le_sum
    intro t _
    cases s.activity t <;> simp [Activity.holdsStrong, Activity.holdsTotal]
  unfold State.aliveStrong State.alive
  omega

end

end Counting

namespace Invariant

variable {s} (hs : Invariant s)

include hs

omit [DecidableEq τ] in
theorem strong_pos {ptr : PtrId} (h : ptr ∈ s.strong) :
    0 < s.useCountStrong ∧ 0 < s.useCountTotal := by
  have hcard := card_pos.2 ⟨ptr, h⟩
  have hstr := hs.strong_eq
  have htot := hs.total_eq
  unfold State.aliveStrong at hstr
  unfold State.alive at htot
  omega

omit [DecidableEq τ] in
theorem weak_pos {ptr : PtrId} (h : ptr ∈ s.weak) : 0 < s.useCountTotal := by
  have hcard := card_pos.2 ⟨ptr, h⟩
  have htot := hs.total_eq
  unfold State.alive at htot
  omega

variable {t : τ} {s' : State τ} {a b : Activity}

omit [DecidableEq τ] in
theorem holds_pos (h : (s.activity t).holdsTotal = 1) : 0 < s.useCountTotal := by
  have hle := holdsTotal_le s t
  have htot := hs.total_eq
  unfold State.alive at htot
  omega

/-- A step of the thread `t`, by what it changes.  The counters change modulo `2 ^ 32`, which is
enough because there are fewer pointers. -/
theorem next (hlt : s'.alive < 2 ^ 32) (h : s.activity t = b) (a : Activity)
    (hact : s'.activity = Function.update s.activity t a)
    (htot_lt : s'.useCountTotal < 2 ^ 32)
    (htot : (s'.useCountTotal + (s.strong.card + s.weak.card + b.holdsTotal)) % 2 ^ 32 =
      (s.useCountTotal + (s'.strong.card + s'.weak.card + a.holdsTotal)) % 2 ^ 32)
    (hstr_lt : s'.useCountStrong < 2 ^ 32)
    (hstr : (s'.useCountStrong + (s.strong.card + b.holdsStrong)) % 2 ^ 32 =
      (s.useCountStrong + (s'.strong.card + a.holdsStrong)) % 2 ^ 32)
    (hdes : s'.destroyed + a.callsDestructor + (if s.useCountStrong = 0 then 1 else 0) =
      s.destroyed + b.callsDestructor + (if s'.useCountStrong = 0 then 1 else 0))
    (hfre : s'.freed + a.frees + (if s.useCountTotal = 0 then 1 else 0) =
      s.freed + b.frees + (if s'.useCountTotal = 0 then 1 else 0))
    (hsrc : a.SourceExists s'.strong s'.weak)
    (hstrSrc : ∀ ptr ∈ s.strong, ¬s.Unread ptr → ptr ∈ s'.strong := by exact fun _ h _ => h)
    (hweakSrc : ∀ ptr ∈ s.weak, ¬s.Unread ptr → ptr ∈ s'.weak := by exact fun _ h _ => h) :
    Invariant s' where
  total_lt := htot_lt
  total_eq := by
    have hsum := sum_next Activity.holdsTotal h hact
    have hold := hs.total_eq
    unfold State.alive at *
    omega
  strong_eq := by
    have hsum := sum_next Activity.holdsStrong h hact
    have hold := hs.strong_eq
    have hle := aliveStrong_le_alive s'
    unfold State.aliveStrong at *
    omega
  destructions_eq := by
    have hsum := sum_next Activity.callsDestructor h hact
    have hold := hs.destructions_eq
    unfold State.destructions at *
    omega
  frees_eq := by
    have hsum := sum_next Activity.frees h hact
    have hold := hs.frees_eq
    unfold State.frees at *
    omega
  source_exists := by
    intro t'
    rw [hact]
    by_cases ht : t' = t
    · subst ht
      rwa [update_self]
    · rw [update_of_ne ht]
      exact (hs.source_exists t').mono
        (fun ptr hptr hrd => hstrSrc ptr hptr fun hunr => hunr t' hrd)
        (fun ptr hptr hrd => hweakSrc ptr hptr fun hunr => hunr t' hrd)

omit [DecidableEq τ] in
theorem strong_lt : s.useCountStrong < 2 ^ 32 := by
  have hle := aliveStrong_le_alive s
  have htot := hs.total_eq
  have hlt := hs.total_lt
  rw [hs.strong_eq]
  omega

omit [DecidableEq τ] in
theorem source_of (h : s.activity t = a) :
    a.SourceExists s.strong s.weak := h ▸ hs.source_exists t

/-- One more pointer is counted in `use_count_total`, which may be a new weak one. -/
theorem incTotal {weak : Finset PtrId} (h : s.activity t = b) (hpos : 0 < s.useCountTotal)
    (hnew : weak.card + a.holdsTotal = s.weak.card + b.holdsTotal + 1)
    (hstr : a.holdsStrong = b.holdsStrong) (hcas : a.callsDestructor = b.callsDestructor)
    (hfre : a.frees = b.frees) (hweak : s.weak ⊆ weak) (hsrc : a.SourceExists s.strong weak)
    (hlt : { s.become t a with
      useCountTotal := atomicInc s.useCountTotal, weak := weak }.alive < 2 ^ 32) :
    Invariant { s.become t a with useCountTotal := atomicInc s.useCountTotal, weak := weak } := by
  have hinc : atomicInc s.useCountTotal = s.useCountTotal + 1 := by
    have hsum := sum_next Activity.holdsTotal h (rfl : (s.become t a).activity = _)
    have htot := hs.total_eq
    unfold State.alive at htot hlt
    exact mod_eq_of_lt (by simp only [State.become] at hlt hsum; omega)
  refine hs.next hlt h _ rfl (mod_lt _ (by decide)) ?_ hs.strong_lt ?_ ?_ ?_ hsrc
    (fun _ h _ => h) (fun _ h _ => hweak h)
  · simp only [State.become]
    omega
  · rw [hstr]
    rfl
  · rw [hcas]
    rfl
  · simp only [State.become, hfre]
    rw [if_neg (by omega), if_neg (by omega)]

/-- A new strong pointer, counted in `use_count_total` before. -/
theorem incStrong {ptr : PtrId} (h : s.activity t = b) (hpos : 0 < s.useCountStrong)
    (hnew : ptr ∉ s.strong) (hb : b.holdsTotal = 1) (hstr : b.holdsStrong = 0)
    (hcas : b.callsDestructor = 0) (hfre : b.frees = 0)
    (hlt : { s.become t .idle with
      useCountStrong := atomicInc s.useCountStrong, strong := insert ptr s.strong }.alive < 2 ^ 32) :
    Invariant { s.become t .idle with
      useCountStrong := atomicInc s.useCountStrong, strong := insert ptr s.strong } := by
  have hcard := card_insert_of_notMem hnew
  have hinc : atomicInc s.useCountStrong = s.useCountStrong + 1 := by
    have hsum := sum_next Activity.holdsStrong h (rfl : (s.become t .idle).activity = _)
    have hold := hs.strong_eq
    have hle := (aliveStrong_le_alive _).trans_lt hlt
    unfold State.aliveStrong at hold hle
    exact mod_eq_of_lt (by simp only [State.become] at hle hsum; omega)
  refine hs.next hlt h .idle rfl hs.total_lt ?_ (mod_lt _ (by decide)) ?_ ?_ ?_ trivial
    (fun _ h _ => mem_insert_of_mem h)
  · rw [hb]
    simp only [State.become, Activity.holdsTotal]
    omega
  · rw [hstr]
    simp only [Activity.holdsStrong]
    omega
  · simp only [hcas, hinc]
    rw [if_neg (by omega), if_neg (by omega)]
    rfl
  · rw [hfre]
    rfl

omit hs in
theorem atomicDec_eq {x : Nat} (hpos : 0 < x) (hlt : x < 2 ^ 32) : atomicDec x = x - 1 := by
  unfold atomicDec
  omega

theorem decTotal (h : s.activity t = a)
    (hh : a.holdsTotal = 1) (hhStr : a.holdsStrong = 0) (hcas : a.callsDestructor = 0)
    (hfre : a.frees = 0)
    (hlt : { s.become t (if s.useCountTotal = 1 then .memoryFree else .idle) with
      useCountTotal := atomicDec s.useCountTotal }.alive < 2 ^ 32) :
    Invariant { s.become t (if s.useCountTotal = 1 then .memoryFree else .idle) with
      useCountTotal := atomicDec s.useCountTotal } := by
  have hpos := hs.holds_pos (h ▸ hh)
  have hdec := atomicDec_eq hpos hs.total_lt
  refine hs.next hlt h _ rfl (mod_lt _ (by decide)) ?_ hs.strong_lt ?_ ?_ ?_ ?_
  · rw [hh]
    simp only [State.become]
    split <;> simp only [Activity.holdsTotal] <;> omega
  · rw [hhStr]
    split <;> rfl
  · rw [hcas]
    split <;> rfl
  · rw [hfre]
    simp only [State.become]
    split <;> simp only [Activity.frees] <;> split <;> split <;> omega
  · split <;> trivial

theorem step (hst : Step s s') (hlt : s'.alive < 2 ^ 32) : Invariant s' := by
  have htot := hs.total_lt
  have hstr := hs.strong_lt
  cases hst with
  | beginStrong t src h hsrc | beginWeak t src h hsrc | beginUpgrade t src h hsrc =>
    exact hs.next hlt h _ rfl htot rfl hstr rfl rfl rfl hsrc
  | beginDestroyStrong t ptr h hptr hunr =>
    have hcard := card_erase_add_one hptr
    refine hs.next hlt h _ rfl htot ?_ hstr ?_ rfl rfl trivial ?_
    · simp only [State.become, Activity.holdsTotal]
      omega
    · simp only [State.become, Activity.holdsStrong]
      omega
    · intro p hp hrd
      exact mem_erase.2 ⟨fun heq => hrd (heq ▸ hunr), hp⟩
  | beginDestroyWeak t ptr h hptr hunr =>
    have hcard := card_erase_add_one hptr
    refine hs.next hlt h _ rfl htot ?_ hstr rfl rfl rfl trivial (fun _ h _ => h) ?_
    · simp only [State.become, Activity.holdsTotal]
      omega
    · intro p hp hrd
      exact mem_erase.2 ⟨fun heq => hrd (heq ▸ hunr), hp⟩
  | strongIncTotal t src h =>
    have hsrc : src ∈ s.strong := hs.source_of h
    exact hs.incTotal h (hs.strong_pos hsrc).2 rfl rfl rfl rfl (Subset.refl _) hsrc hlt
  | strongIncStrong t src ptr h hnew _ =>
    exact hs.incStrong h (hs.strong_pos (hs.source_of h)).1 hnew rfl rfl rfl rfl hlt
  | weakIncTotal t src ptr h hnew hnew' =>
    have hsrc : src ∈ s.strong ∨ src ∈ s.weak := hs.source_of h
    have hpos : 0 < s.useCountTotal := hsrc.elim (fun h => (hs.strong_pos h).2) hs.weak_pos
    exact hs.incTotal h hpos (card_insert_of_notMem hnew') rfl rfl rfl (subset_insert _ _) trivial hlt
  | strongDecStrong t h =>
    have hpos : 0 < s.useCountStrong := by
      have hle := holdsStrong_le s t
      have hstr_eq := hs.strong_eq
      have hone : (s.activity t).holdsStrong = 1 := by rw [h]; rfl
      unfold State.aliveStrong at hstr_eq
      omega
    have hdec := atomicDec_eq hpos hstr
    refine hs.next hlt h _ rfl htot ?_ (mod_lt _ (by decide)) ?_ ?_ ?_ ?_
    · split <;> rfl
    · simp only [State.become]
      split <;> simp only [Activity.holdsStrong] <;> omega
    · simp only [State.become]
      split <;> simp only [Activity.callsDestructor] <;> split <;> split <;> omega
    · split <;> rfl
    · split <;> trivial
  | strongCallDestructor t h | memoryFree t h =>
    exact hs.next hlt h _ rfl htot rfl hstr rfl rfl rfl trivial
  | strongDecTotal t h | weakDecTotal t h => exact hs.decTotal h rfl rfl rfl rfl hlt
  | upgradeIncTotal t src h =>
    have hsrc : src ∈ s.weak := hs.source_of h
    exact hs.incTotal h (hs.weak_pos hsrc) rfl rfl rfl rfl (Subset.refl _) hsrc hlt
  | upgradeRead t src h | exchangeFail t src c h hne =>
    have hsrc : src ∈ s.weak := hs.source_of h
    exact hs.next hlt h _ rfl htot rfl hstr rfl rfl rfl hsrc
  | upgradeFail t src h =>
    -- The weak pointer that is upgraded is counted next to the pointer that is not made.
    have hsrc : src ∈ s.weak := hs.source_of h
    have htwo : 2 ≤ s.useCountTotal := by
      have hcard := card_pos.2 ⟨src, hsrc⟩
      have hle := holdsTotal_le s t
      have htot_eq := hs.total_eq
      have hone : (s.activity t).holdsTotal = 1 := by rw [h]; rfl
      unfold State.alive at htot_eq
      omega
    have hdec := atomicDec_eq (by omega) htot
    refine hs.next hlt h _ rfl (mod_lt _ (by decide)) ?_ hstr rfl rfl ?_ trivial
    · simp only [State.become, Activity.holdsTotal]
      omega
    · simp only [State.become, Activity.frees]
      rw [if_neg (by omega), if_neg (by omega)]
  | exchange t src c ptr h hne hc hnew hnew' =>
    subst hc
    exact hs.incStrong h (pos_of_ne_zero hne) hnew rfl rfl rfl rfl hlt

end Invariant

theorem reachable_invariant {s : State τ} (h : Reachable s) : Invariant s := by
  induction h with
  | start ptr => exact start_invariant ptr
  | step _ hst hlt ih => exact ih.step hst hlt

def State.Quiescent : Prop := ∀ t, s.activity t = .idle

structure Safe : Prop where
  strong_le_total : s.Quiescent → s.useCountStrong ≤ s.useCountTotal
  destroyed_le_one : s.destroyed ≤ 1
  /-- As long as there is a strong pointer, also one that has just been made by `upgrade`, the
  value is neither destroyed nor about to be. -/
  value_exists : s.strong.Nonempty → s.destroyed = 0 ∧ ∀ t, s.activity t ≠ .strongCallDestructor
  value_destroyed : s.Quiescent → s.strong = ∅ → s.destroyed = 1
  freed_le_one : s.freed ≤ 1
  /-- When it is freed there is no pointer and no operation in progress. -/
  freed_last : s.freed = 1 → s.strong = ∅ ∧ s.weak = ∅ ∧ s.Quiescent ∧ s.destroyed = 1
  block_freed : s.Quiescent → s.strong = ∅ → s.weak = ∅ → s.freed = 1
  no_access : s.freed = 1 → ∀ s', ¬Step s s'

namespace Invariant

variable {s}

section

omit [DecidableEq τ]

theorem alive_quiescent (hidle : s.Quiescent) : s.alive = s.strong.card + s.weak.card := by
  have hsum : ∑ t, (s.activity t).holdsTotal = 0 := sum_eq_zero fun t _ => by rw [hidle t]; rfl
  rw [State.alive, hsum, add_zero]

theorem aliveStrong_quiescent (hidle : s.Quiescent) : s.aliveStrong = s.strong.card := by
  have hsum : ∑ t, (s.activity t).holdsStrong = 0 := sum_eq_zero fun t _ => by rw [hidle t]; rfl
  rw [State.aliveStrong, hsum, add_zero]

/-- Without pointers, and with no pointer being made or destroyed, the only thing left to do
is to free the block. -/
theorem idle_of_total_zero (hs : Invariant s) (htot : s.useCountTotal = 0) (hfr : s.freed = 1) :
    s.strong = ∅ ∧ s.weak = ∅ ∧ s.Quiescent := by
  have hali := hs.total_eq
  have hfre := hs.frees_eq
  rw [if_pos htot] at hfre
  unfold State.alive at hali
  unfold State.frees at hfre
  have hstr : s.strong = ∅ := card_eq_zero.1 (by omega)
  have hweak : s.weak = ∅ := card_eq_zero.1 (by omega)
  refine ⟨hstr, hweak, fun t => ?_⟩
  have hh : (s.activity t).holdsTotal = 0 := by
    have hle := holdsTotal_le s t
    omega
  have hfre : (s.activity t).frees = 0 := by
    have hle : (s.activity t).frees ≤ ∑ t, (s.activity t).frees :=
      single_le_sum (f := fun t => (s.activity t).frees) (fun _ _ => zero_le _) (mem_univ t)
    omega
  have hsrc := hs.source_exists t
  rw [hstr, hweak] at hsrc
  cases h : s.activity t <;> rw [h] at hh hfre hsrc <;>
    simp_all [Activity.holdsTotal, Activity.frees, Activity.SourceExists]

theorem destroyed_of_quiescent (hs : Invariant s) (hidle : s.Quiescent) (hstr : s.strong = ∅) :
    s.destroyed = 1 := by
  have hsum : ∑ t, (s.activity t).callsDestructor = 0 := sum_eq_zero fun t _ => by rw [hidle t]; rfl
  have hz : s.useCountStrong = 0 := by
    rw [hs.strong_eq, aliveStrong_quiescent hidle, hstr, card_empty]
  have h := hs.destructions_eq
  rwa [if_pos hz, State.destructions, hsum, add_zero] at h

theorem freed_of_quiescent (hs : Invariant s) (hidle : s.Quiescent) (hstr : s.strong = ∅)
    (hweak : s.weak = ∅) : s.freed = 1 := by
  have hsum : ∑ t, (s.activity t).frees = 0 := sum_eq_zero fun t _ => by rw [hidle t]; rfl
  have hz : s.useCountTotal = 0 := by
    rw [hs.total_eq, alive_quiescent hidle, hstr, hweak, card_empty]
  have h := hs.frees_eq
  rwa [if_pos hz, State.frees, hsum, add_zero] at h

theorem total_zero_of_freed (hs : Invariant s) (hfr : s.freed = 1) : s.useCountTotal = 0 := by
  have h := hs.frees_eq
  unfold State.frees at h
  by_contra hne
  rw [if_neg hne] at h
  omega

end

omit [Fintype τ] in
/-- Without pointers and operations in progress there is nothing to begin. -/
theorem no_step {s' : State τ} (hidle : s.Quiescent) (hstr : s.strong = ∅) (hweak : s.weak = ∅) :
    ¬Step s s' := by
  intro hst
  have hno : ∀ ptr, ptr ∉ s.strong ∧ ptr ∉ s.weak := by simp [hstr, hweak]
  cases hst with
  | beginStrong t src _ hsrc => exact (hno src).1 hsrc
  | beginWeak t src _ hsrc => exact hsrc.elim (hno src).1 (hno src).2
  | beginUpgrade t src _ hsrc => exact (hno src).2 hsrc
  | beginDestroyStrong t ptr _ hptr => exact (hno ptr).1 hptr
  | beginDestroyWeak t ptr _ hptr => exact (hno ptr).2 hptr
  | strongIncTotal t _ h | strongIncStrong t _ _ h | weakIncTotal t _ _ h | strongDecStrong t h
  | strongCallDestructor t h | strongDecTotal t h | weakDecTotal t h | memoryFree t h
  | upgradeIncTotal t _ h | upgradeRead t _ h | upgradeFail t _ h | exchange t _ _ _ h
  | exchangeFail t _ _ h =>
    rw [hidle t] at h
    cases h

theorem safe (hs : Invariant s) : Safe s where
  strong_le_total _ := by
    rw [hs.strong_eq, hs.total_eq]
    exact aliveStrong_le_alive s
  destroyed_le_one := by
    have h := hs.destructions_eq
    unfold State.destructions at h
    split at h <;> omega
  value_exists := by
    rintro ⟨ptr, hptr⟩
    have h := hs.destructions_eq
    rw [if_neg (ne_of_gt (hs.strong_pos hptr).1), State.destructions, Nat.add_eq_zero_iff] at h
    refine ⟨h.1, fun t ht => ?_⟩
    have hcas := sum_eq_zero_iff.1 h.2 t (mem_univ t)
    rw [ht] at hcas
    cases hcas
  value_destroyed := hs.destroyed_of_quiescent
  freed_le_one := by
    have h := hs.frees_eq
    unfold State.frees at h
    split at h <;> omega
  freed_last := by
    intro hfr
    obtain ⟨hstr, hweak, hidle⟩ := hs.idle_of_total_zero (hs.total_zero_of_freed hfr) hfr
    exact ⟨hstr, hweak, hidle, hs.destroyed_of_quiescent hidle hstr⟩
  block_freed := hs.freed_of_quiescent
  no_access := by
    intro hfr s'
    obtain ⟨hstr, hweak, hidle⟩ := hs.idle_of_total_zero (hs.total_zero_of_freed hfr) hfr
    exact no_step hidle hstr hweak

end Invariant

/-- The lifetimes of the value and of the control block, in every interleaving. -/
theorem reachable_safe {s : State τ} (h : Reachable s) : Safe s := (reachable_invariant h).safe

/-- The first of two threads makes a weak pointer while the second one copies the strong one. -/
theorem reachable_safe_bothCopied : ∃ s : State (Fin 2),
    s.strong = {1, 0} ∧ s.weak = {2} ∧ s.useCountTotal = 3 ∧ s.Quiescent ∧ Safe s := by
  have hread := (Reachable.start 0).step (.beginStrong _ (1 : Fin 2) 0 rfl (by decide)) (by decide)
  have hweak := hread.step (.beginWeak _ 0 0 rfl (.inl (by decide))) (by decide)
  have htotal := hweak.step (.strongIncTotal _ 1 0 rfl) (by decide)
  have hmade := htotal.step (.weakIncTotal _ 0 0 2 rfl (by decide) (by decide)) (by decide)
  have hcopied := hmade.step (.strongIncStrong _ 1 0 1 rfl (by decide) (by decide)) (by decide)
  refine ⟨_, rfl, rfl, rfl, ?_, reachable_safe hcopied⟩
  unfold State.Quiescent
  decide

end USprache.Ustlib.SharedPtrMt
