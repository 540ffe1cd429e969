import USprache.Ustlib.SharedPtrRules

/-!
# Runs of shared pointers

Each request keeps the invariant, halts before it changes anything, and never reads the control
block after it was freed.
-/

namespace USprache.Ustlib.SharedPtr

open Finset State Function

/-- The request has kept the invariant, or has halted without a change. -/
def Outcome.Good (s : State) : Outcome → Prop
  | done s' => (s'.Bounded → Invariant s') ∧ s.destroyed ≤ s'.destroyed ∧ s.freed ≤ s'.freed
  | halted s' => s' = s
  | invalidAccess => False

namespace Invariant

variable {s : State}

theorem ofReleaseTotal (h : Kept s)
    (htot : s.block.useCountTotal = s.strong.card + s.weak.card + s.suspended + 1)
    (hlt : s.strong.card + s.weak.card + s.suspended < 2 ^ 31) (hfr : s.freed = 0) :
    Invariant s.releaseTotal := by
  have hdec : counterDec s.block.useCountTotal = s.strong.card + s.weak.card + s.suspended := by
    rw [counterDec_eq (by omega)]
    omega
  unfold releaseTotal ControlBlock.decTotal
  simp only [hdec, hfr]
  exact
    { strong_eq := h.strong_eq
      destroyed_eq := h.destroyed_eq
      suspended_le := h.suspended_le
      locks_counted := h.locks_counted
      locks_lt := h.locks_lt
      lock_source := h.lock_source
      typed := h.typed.mono subset_rfl subset_rfl subset_rfl rfl
      total_eq := rfl
      pointers_lt := hlt
      freed_eq := rfl }

theorem releaseTotal_good (h : Kept s)
    (htot : s.block.useCountTotal = s.strong.card + s.weak.card + s.suspended + 1)
    (hlt : s.strong.card + s.weak.card + s.suspended < 2 ^ 31) (hfr : s.freed = 0) {s0 : State}
    (hdes : s0.destroyed ≤ s.destroyed) (hfr0 : s0.freed = 0) :
    (Outcome.done s.releaseTotal).Good s0 := by
  refine ⟨fun _ => ofReleaseTotal h htot hlt hfr, ?_, ?_⟩
  · simpa only [releaseTotal] using hdes
  · rw [hfr0]
    exact Nat.zero_le _

variable (h : Invariant s)

include h

theorem freed_eq_zero (hpos : 0 < s.strong.card + s.weak.card + s.suspended) :
    s.freed = 0 := by
  rw [h.freed_eq, if_neg (by omega)]

theorem destroyEmpty_good (ptr : PtrId) :
    (Outcome.done { s with empty := s.empty.erase ptr }).Good s :=
  ⟨fun _ => { h with
    typed := h.typed.mono subset_rfl subset_rfl (erase_subset _ _) rfl }, le_rfl, le_rfl⟩

variable {ptr : PtrId} {lock : LockId}

theorem destroyShared_good (hptr : ptr ∈ s.strong)
    (hloc : ∀ lock, s.LockExists lock → s.lockSource lock ≠ ptr) :
    (s.destroyShared ptr).Good s := by
  have hcard : (s.strong.erase ptr).card + 1 = s.strong.card := card_erase_add_one hptr
  have hlt := h.pointers_lt
  have htot := h.total_eq
  have hfr := h.freed_eq_zero (by omega)
  have hdec : counterDec s.block.useCountStrong = (s.strong.erase ptr).card := by
    have hstr := h.strong_eq
    rw [counterDec_eq (by omega)]
    omega
  have hdes : s.destroyed = 0 := by
    rw [h.destroyed_eq, if_neg (ne_empty_of_mem hptr)]
  have hsus := h.suspended_le
  have hsrc : ∀ lock, s.LockExists lock → s.lockSource lock ∈ s.strong.erase ptr :=
    fun lock hlk => mem_erase.2 ⟨hloc lock hlk, h.lock_source lock hlk⟩
  rw [destroyShared, h.typed.empty_eq, h.storageEmpty_eq (.inl hptr), h.access_eq (.inl hptr)]
  simp only [ControlBlock.decStrong, hdec]
  by_cases hla : (s.strong.erase ptr).card = 0
  · rw [if_pos hla]
    refine ⟨fun _ => ?_, Nat.le_succ _, le_rfl⟩
    exact
      { strong_eq := rfl
        destroyed_eq := by
          rw [if_pos (card_eq_zero.1 hla), hdes]
        suspended_le := by
          simp only
          omega
        locks_counted := h.locks_counted
        locks_lt := h.locks_lt
        lock_source := hsrc
        typed := h.typed.mono (erase_subset _ _) subset_rfl subset_rfl rfl
        total_eq := by
          simp only
          omega
        pointers_lt := by
          simp only
          omega
        freed_eq := by
          simp only
          rw [hfr, if_neg (by omega)] }
  · rw [if_neg hla]
    refine releaseTotal_good ?_ ?_ ?_ ?_ le_rfl hfr
    · exact
        { strong_eq := rfl
          destroyed_eq := by
            rw [hdes, if_neg fun he => hla (card_eq_zero.2 he)]
          suspended_le := hsus
          locks_counted := h.locks_counted
          locks_lt := h.locks_lt
          lock_source := hsrc
          typed := h.typed.mono (erase_subset _ _) subset_rfl subset_rfl rfl }
    · simp only
      omega
    · simp only
      omega
    · exact hfr

theorem destroyWeak_good (hptr : ptr ∈ s.weak) : (s.destroyWeak ptr).Good s := by
  have hcard : (s.weak.erase ptr).card + 1 = s.weak.card := card_erase_add_one hptr
  have hlt := h.pointers_lt
  have htot := h.total_eq
  have hfr := h.freed_eq_zero (by omega)
  rw [destroyWeak, h.storageEmpty_eq (.inr hptr),
    h.access_eq (.inr hptr)]
  refine releaseTotal_good ?_ ?_ ?_ ?_ le_rfl hfr
  · exact { h.toKept with
      typed := h.typed.mono subset_rfl (erase_subset _ _) subset_rfl rfl }
  · simp only
    omega
  · simp only
    omega
  · exact hfr

theorem returnFromDestructor_good (hsus : 0 < s.suspended) :
    s.returnFromDestructor.Good s := by
  have hlt := h.pointers_lt
  have htot := h.total_eq
  have hle := h.suspended_le
  have hfr := h.freed_eq_zero (by omega)
  rw [returnFromDestructor, if_neg (not_not.2 hfr)]
  refine releaseTotal_good ?_ ?_ ?_ ?_ le_rfl hfr
  · exact { h.toKept with
      suspended_le := (Nat.sub_le _ _).trans hle
      typed := h.typed.mono subset_rfl subset_rfl subset_rfl rfl }
  · simp only
    omega
  · simp only
    omega
  · exact hfr

theorem destroy_good (hexists : s.Exists ptr)
    (hloc : ∀ lock, s.LockExists lock → s.lockSource lock ≠ ptr) :
    (run s (.destroy ptr)).Good s := by
  simp only [run]
  rcases hexists with hptr | hptr | hptr
  · rw [if_pos (h.typed.strong_shared ptr hptr)]
    exact h.destroyShared_good hptr hloc
  · rw [if_neg (by rw [h.typed.weak_not_shared ptr hptr]; exact Bool.false_ne_true)]
    exact h.destroyWeak_good hptr
  · have hsto : s.storageEmpty ptr = true := decide_eq_true hptr
    split
    · rw [destroyShared, h.typed.empty_eq, if_pos hsto]
      exact h.destroyEmpty_good ptr
    · rw [destroyWeak, if_pos hsto]
      exact h.destroyEmpty_good ptr

theorem shared_cases (hexists : s.Exists ptr)
    (hsh : (s.type ptr).isShared = true) : ptr ∈ s.strong ∨ ptr ∈ s.empty := by
  rcases hexists with hptr | hptr | hptr
  · exact .inl hptr
  · rw [h.typed.weak_not_shared ptr hptr] at hsh
    cases hsh
  · exact .inr hptr

theorem lockCount_eq_zero_iff :
    s.block.lockCount = 0 ↔ s.locksMut = ∅ ∧ s.locksImut = ∅ := by
  rcases h.locks_counted with ⟨hmut, hc⟩ | ⟨hmut, himut, hc⟩
  · rw [hc]
    simp [hmut]
  · rw [hc]
    refine iff_of_false (by decide) fun he => ?_
    rw [he.1] at hmut
    cases hmut

theorem lockCount_neg_iff : s.block.lockCount < 0 ↔ s.locksMut.Nonempty := by
  rcases h.locks_counted with ⟨hmut, hc⟩ | ⟨hmut, himut, hc⟩
  · rw [hmut]
    refine iff_of_false ?_ not_nonempty_empty
    omega
  · refine iff_of_true (by omega) (card_pos.1 (by omega))

theorem lockMut_eq (hptr : ptr ∈ s.strong) (lock : LockId) : s.lockMut ptr lock =
    if s.locksMut = ∅ ∧ s.locksImut = ∅ then .done { s with
        block := { s.block with lockCount := -1 }
        locksMut := insert lock s.locksMut
        lockSource := update s.lockSource lock ptr }
      else .halted s := by
  rw [lockMut, h.typed.empty_eq, h.storageEmpty_eq (.inl hptr), if_neg Bool.false_ne_true,
    h.access_eq (.inl hptr)]
  simp only [h.lockCount_eq_zero_iff, ite_not]

theorem lockImut_eq (hptr : ptr ∈ s.strong) (lock : LockId) :
    s.lockImut ptr lock =
      if s.locksMut.Nonempty then .halted s
      else .done { s with
        block := { s.block with lockCount := lockInc s.block.lockCount }
        locksImut := insert lock s.locksImut
        lockSource := update s.lockSource lock ptr } := by
  rw [lockImut, h.typed.empty_eq, h.storageEmpty_eq (.inl hptr), if_neg Bool.false_ne_true,
    h.access_eq (.inl hptr)]
  simp only [h.lockCount_neg_iff]

theorem lock_empty (hptr : ptr ∈ s.empty) (lock : LockId) :
    s.lockMut ptr lock = .halted s ∧ s.lockImut ptr lock = .halted s := by
  have hsto : s.storageEmpty ptr = true := decide_eq_true hptr
  rw [lockMut, lockImut, h.typed.empty_eq, if_pos hsto, if_pos hsto]
  exact ⟨rfl, rfl⟩

theorem lock_source_update (hptr : ptr ∈ s.strong)
    {lock' : LockId} (hlk : lock' = lock ∨ s.LockExists lock') :
    update s.lockSource lock ptr lock' ∈ s.strong := by
  by_cases heq : lock' = lock
  · rw [heq, update_self]
    exact hptr
  · rw [update_of_ne heq]
    exact h.lock_source lock' (hlk.resolve_left heq)

theorem lockMut_good (hexists : s.Exists ptr)
    (hsh : (s.type ptr).isShared = true) : (s.lockMut ptr lock).Good s := by
  rcases h.shared_cases hexists hsh with hptr | hptr
  · rw [h.lockMut_eq hptr]
    split
    · rename_i he
      refine ⟨fun _ => ?_, le_rfl, le_rfl⟩
      refine { h with locks_counted := .inr ⟨?_, he.2, rfl⟩, lock_source := ?_, typed := ?_ }
      · show (insert lock s.locksMut).card = 1
        rw [he.1]
        rfl
      · rintro lock' (hlk | hlk)
        · exact h.lock_source_update hptr ((mem_insert.1 hlk).imp_right .inl)
        · exact h.lock_source_update hptr (.inr (.inr hlk))
      · exact h.typed.mono subset_rfl subset_rfl subset_rfl rfl
    · exact rfl
  · rw [(h.lock_empty hptr lock).1]
    exact rfl

theorem lockImut_good (hexists : s.Exists ptr)
    (hsh : (s.type ptr).isShared = true) (hfr : ¬s.LockExists lock) :
    (s.lockImut ptr lock).Good s := by
  rcases h.shared_cases hexists hsh with hptr | hptr
  · rw [h.lockImut_eq hptr]
    split
    · exact rfl
    · rename_i he
      refine ⟨fun hbdd => ?_, le_rfl, le_rfl⟩
      have hcard : (insert lock s.locksImut).card = s.locksImut.card + 1 :=
        card_insert_of_notMem fun hmem => hfr (.inr hmem)
      have hbd := hbdd.2
      simp only [hcard] at hbd
      have hno := not_nonempty_iff_eq_empty.1 he
      refine { h with
        locks_counted := .inl ⟨hno, ?_⟩, locks_lt := ?_, lock_source := ?_, typed := ?_ }
      · show lockInc s.block.lockCount = ((insert lock s.locksImut).card : Int)
        rcases h.locks_counted with ⟨-, hc⟩ | ⟨hone, -, -⟩
        · rw [lockInc, hc, hcard, bmod_eq (by omega) (by omega)]
          rfl
        · rw [hno] at hone
          cases hone
      · show (insert lock s.locksImut).card < 2 ^ 31
        omega
      · rintro lock' (hlk | hlk)
        · exact h.lock_source_update hptr (.inr (.inl hlk))
        · exact h.lock_source_update hptr ((mem_insert.1 hlk).imp_right .inr)
      · exact h.typed.mono subset_rfl subset_rfl subset_rfl rfl
  · rw [(h.lock_empty hptr lock).2]
    exact rfl

theorem unlockMut_good (hlk : lock ∈ s.locksMut) : (s.unlockMut lock).Good s := by
  rw [unlockMut, h.access_eq (.inl (h.lock_source lock (.inl hlk)))]
  refine ⟨fun _ => ?_, le_rfl, le_rfl⟩
  refine { h with locks_counted := .inl ?_, lock_source := ?_, typed := ?_ }
  · rcases h.locks_counted with ⟨hno, -⟩ | ⟨hone, himut, -⟩
    · rw [hno] at hlk
      cases hlk
    · refine ⟨card_eq_zero.1 ?_, ?_⟩
      · have hcard := card_erase_add_one hlk
        simp only
        omega
      · simp [himut]
  · rintro lock' (hlk' | hlk')
    · exact h.lock_source lock' (.inl (mem_of_mem_erase hlk'))
    · exact h.lock_source lock' (.inr hlk')
  · exact h.typed.mono subset_rfl subset_rfl subset_rfl rfl

theorem unlockImut_good (hlk : lock ∈ s.locksImut) :
    (s.unlockImut lock).Good s := by
  have hcard := card_erase_add_one hlk
  have hlt := h.locks_lt
  rw [unlockImut, h.access_eq (.inl (h.lock_source lock (.inr hlk)))]
  refine ⟨fun _ => ?_, le_rfl, le_rfl⟩
  refine { h with
    locks_counted := .inl ?_, locks_lt := ?_, lock_source := ?_, typed := ?_ }
  · rcases h.locks_counted with ⟨hno, hc⟩ | ⟨-, himut, -⟩
    · refine ⟨hno, ?_⟩
      show lockDec s.block.lockCount = ((s.locksImut.erase lock).card : Int)
      rw [lockDec, bmod_eq (by omega) (by omega)]
      omega
    · rw [himut] at hlk
      cases hlk
  · show (s.locksImut.erase lock).card < 2 ^ 31
    omega
  · rintro lock' (hlk' | hlk')
    · exact h.lock_source lock' (.inl hlk')
    · exact h.lock_source lock' (.inr (mem_of_mem_erase hlk'))
  · exact h.typed.mono subset_rfl subset_rfl subset_rfl rfl

theorem conversion_good {r : PtrId} {t : PtrType} {outcome : Outcome}
    (hfresh : ¬s.Exists r) (hresult : ConversionResult s r t outcome) :
    outcome.Good s := by
  cases hresult with
  | empty hdefault => exact ⟨fun _ => h.addEmpty hfresh hdefault, le_rfl, le_rfl⟩
  | strong hshared hnonempty =>
    exact ⟨fun hbounded => h.addStrong hfresh hshared hnonempty hbounded, le_rfl, le_rfl⟩
  | weak hshared hnonempty =>
    exact ⟨fun hbounded => h.addWeak hfresh hshared hnonempty hbounded, le_rfl, le_rfl⟩
  | halted => exact rfl

theorem run_good {isAncestorFor : TypeId → TypeId → Prop} {request : Request}
    (halw : Allowed isAncestorFor s request) : (run s request).Good s := by
  cases request with
  | default_ r t =>
    exact ⟨fun _ => h.addEmpty halw.1 halw.2, le_rfl, le_rfl⟩
  | convert conversion source r t =>
    obtain ⟨hexists, hfr, hcvs⟩ := halw
    exact h.conversion_good hfr (h.conversion hexists hcvs)
  | destroy ptr => exact h.destroy_good halw.1 halw.2
  | returnFromDestructor => exact h.returnFromDestructor_good halw
  | lockMut ptr lock =>
    obtain ⟨hexists, ⟨T, n, hty⟩, -⟩ := halw
    exact h.lockMut_good hexists (by rw [hty]; rfl)
  | lockImut ptr lock =>
    obtain ⟨hexists, ⟨T, n, m, hty⟩, hfr⟩ := halw
    exact h.lockImut_good hexists (by rw [hty]; rfl) hfr
  | unlockMut lock => exact h.unlockMut_good halw
  | unlockImut lock => exact h.unlockImut_good halw

end Invariant

theorem reachable_invariant {isAncestorFor : TypeId → TypeId → Prop} {s : State}
    (h : Reachable isAncestorFor s) : Invariant s := by
  induction h with
  | start ptr T n m => exact start_invariant ptr T n m
  | step _ halw hrun hbdd ih =>
    have hgood := ih.run_good halw
    rw [hrun] at hgood
    exact hgood.1 hbdd

def Request.BreaksBorrowRules (s : State) : Request → Prop
  | lockMut .. => s.locksMut.Nonempty ∨ s.locksImut.Nonempty
  | lockImut .. => s.locksMut.Nonempty
  | _ => False

structure BorrowRules (isAncestorFor : TypeId → TypeId → Prop) (s : State) : Prop where
  lockCount_mut : s.block.lockCount = -1 ↔ s.locksMut.card = 1 ∧ s.locksImut = ∅
  lockCount_imut : s.block.lockCount ≠ -1 → s.locksMut = ∅ ∧ s.block.lockCount = s.locksImut.card
  refused : ∀ request, Allowed isAncestorFor s request → request.BreaksBorrowRules s →
    run s request = .halted s
  halts_unchanged : ∀ request s', Allowed isAncestorFor s request → run s request = .halted s' →
    s' = s
  granted_mut : ∀ ptr lock, ptr ∈ s.strong → ¬(Request.lockMut ptr lock).BreaksBorrowRules s →
    ∃ s', run s (.lockMut ptr lock) = .done s'
  granted_imut : ∀ ptr lock, ptr ∈ s.strong → ¬(Request.lockImut ptr lock).BreaksBorrowRules s →
    ∃ s', run s (.lockImut ptr lock) = .done s'
  strong_eq : s.block.useCountStrong = s.strong.card
  total_eq : s.block.useCountTotal = s.strong.card + s.weak.card + s.suspended
  suspended_le : s.suspended ≤ 1
  destroyed_once : s.destroyed = if s.strong = ∅ then 1 else 0
  destroyed_unlocked : s.strong = ∅ → s.locksMut = ∅ ∧ s.locksImut = ∅
  destroyed_for_ever : ∀ request s', Allowed isAncestorFor s request → run s request = .done s' →
    s.destroyed ≤ s'.destroyed
  upgrade_fails : s.destroyed ≠ 0 → ∀ source result type,
    Allowed isAncestorFor s (.convert .upgrade source result type) →
    run s (.convert .upgrade source result type) = .done (s.addEmpty result type)
  freed_once : s.freed = if s.strong = ∅ ∧ s.weak = ∅ ∧ s.suspended = 0 then 1 else 0
  never_invalid : ∀ request, Allowed isAncestorFor s request → run s request ≠ .invalidAccess

section Rules

variable {isAncestorFor : TypeId → TypeId → Prop} {s : State}

theorem Invariant.refused (h : Invariant s) {request : Request}
    (halw : Allowed isAncestorFor s request) (hbr : request.BreaksBorrowRules s) :
    run s request = .halted s := by
  cases request with
  | lockMut ptr lock =>
    obtain ⟨hexists, ⟨T, n, hty⟩, -⟩ := halw
    rcases h.shared_cases hexists (by rw [hty]; rfl) with hptr | hptr
    · rw [run, h.lockMut_eq hptr, if_neg]
      rintro ⟨hmut, himut⟩
      rcases hbr with hbr | hbr
      · exact hbr.ne_empty hmut
      · exact hbr.ne_empty himut
    · exact (h.lock_empty hptr lock).1
  | lockImut ptr lock =>
    obtain ⟨hexists, ⟨T, n, m, hty⟩, -⟩ := halw
    rcases h.shared_cases hexists (by rw [hty]; rfl) with hptr | hptr
    · have hmut : s.locksMut.Nonempty := hbr
      rw [run, h.lockImut_eq hptr, if_pos hmut]
    · exact (h.lock_empty hptr lock).2
  | _ => exact hbr.elim

theorem Invariant.upgrade_fails (h : Invariant s) (hdes : s.destroyed ≠ 0)
    {src r : PtrId} {t : PtrType}
    (halw : Allowed isAncestorFor s (.convert .upgrade src r t)) :
    run s (.convert .upgrade src r t) = .done (s.addEmpty r t) := by
  have hno : s.strong = ∅ := by
    by_contra hne
    rw [h.destroyed_eq, if_neg hne] at hdes
    exact hdes rfl
  have hc : s.block.useCountStrong = 0 := by rw [h.strong_eq, hno, card_empty]
  obtain ⟨hexists, -, hcvs⟩ := halw
  show s.upgrade src r t = .done (s.addEmpty r t)
  rw [State.upgrade]
  split
  · rfl
  · rename_i hsto
    have hptr : src ∈ s.strong ∨ src ∈ s.weak := by
      rcases hexists with hs | hw | he
      · exact .inl hs
      · exact .inr hw
      · exact absurd (decide_eq_true he) hsto
    rw [h.access_eq hptr, if_pos hc]

theorem reachable_borrowRules (h : Reachable isAncestorFor s) : BorrowRules isAncestorFor s := by
  have hs := reachable_invariant h
  have hsuspended := hs.suspended_le
  rw [hs.destroyed_eq] at hsuspended
  constructor
  · rcases hs.locks_counted with ⟨hmut, hcount⟩ | ⟨hmut, himut, hcount⟩
    · refine iff_of_false (by omega) fun hone => ?_
      rw [hmut] at hone
      cases hone.1
    · exact iff_of_true hcount ⟨hmut, himut⟩
  · intro hne
    rcases hs.locks_counted with hcounted | ⟨-, -, hcount⟩
    · exact hcounted
    · exact absurd hcount hne
  · exact fun request hallowed hbreaks => hs.refused hallowed hbreaks
  · intro request s' hallowed hrun
    have hgood := hs.run_good hallowed
    rw [hrun] at hgood
    exact hgood
  · intro ptr lock hptr hkeeps
    have hnone : s.locksMut = ∅ ∧ s.locksImut = ∅ := by
      simpa [Request.BreaksBorrowRules] using hkeeps
    exact ⟨_, by rw [run, hs.lockMut_eq hptr, if_pos hnone]⟩
  · intro ptr lock hptr hkeeps
    have hnone : ¬s.locksMut.Nonempty := hkeeps
    exact ⟨_, by rw [run, hs.lockImut_eq hptr, if_neg hnone]⟩
  · exact hs.strong_eq
  · exact hs.total_eq
  · split at hsuspended <;> omega
  · exact hs.destroyed_eq
  · intro hnone
    constructor <;> refine eq_empty_of_forall_notMem fun lock hlock => ?_
    · have hsource := hs.lock_source lock (.inl hlock)
      rw [hnone] at hsource
      cases hsource
    · have hsource := hs.lock_source lock (.inr hlock)
      rw [hnone] at hsource
      cases hsource
  · intro request s' hallowed hrun
    have hgood := hs.run_good hallowed
    rw [hrun] at hgood
    exact hgood.2.1
  · exact fun hdestroyed source result type hallowed => hs.upgrade_fails hdestroyed hallowed
  · rw [hs.freed_eq]
    refine if_congr ?_ rfl rfl
    rw [Nat.add_eq_zero_iff, Nat.add_eq_zero_iff, card_eq_zero, card_eq_zero, and_assoc]
  · intro request hallowed hrun
    have hgood := hs.run_good hallowed
    rw [hrun] at hgood
    exact hgood

end Rules

theorem reachable_borrowRules_locked :
    ∃ s : State, s.locksMut = {5} ∧ BorrowRules (fun _ _ => False) s := by
  refine ⟨_, ?_, reachable_borrowRules
    (@Reachable.step (fun _ _ => False) _ { start 0 (.shared 0 false true) with
      block := ⟨1, 1, -1⟩, locksMut := {5}, lockSource := update (fun _ => 0) 5 0 }
      (.lockMut 0 5) (.start 0 0 false true) ⟨?_, ⟨0, false, rfl⟩, ?_⟩ rfl ?_)⟩
  · rfl
  · simp [State.Exists, start]
  · simp [State.LockExists, start]
  · simp [State.Bounded, start]

end USprache.Ustlib.SharedPtr
