import USprache.CodeBuilder.ClassParentsRuns

/-!
# Runs of the preparation of parents without a cycle

Where no cycle of declared parents can be reached, the preparation comes to an end.  The
classes above the one it is called for are then as they were created or settled, so what is
under way are only classes below.
-/

namespace USprache.CodeBuilder

open Relation Library List Option Nat ParentsState

variable {C T : Type} [DecidableEq C]

theorem addAncestorsAccessRights_mono {theCls : C} :
    ∀ {n m : Nat}, n ≤ m → ∀ {state state' : ParentsState C T} {ancestor : C},
      addAncestorsAccessRights theCls n state ancestor = some state' →
      addAncestorsAccessRights theCls m state ancestor = some state' := by
  intro n
  induction n with
  | zero =>
    intro m _ state state' ancestor h
    exact absurd h.symm (some_ne_none state')
  | succ n ih =>
    intro m hle state state' ancestor h
    cases m with
    | zero => exact absurd hle (not_succ_le_zero n)
    | succ m =>
      apply foldlM_mono _ h
      intro parent _ s s' hs
      exact ih (le_of_succ_le_succ hle) hs

theorem globalThingPrepareClassParentsList_mono {declarations : ClassDeclarations C T} :
    ∀ {n m : Nat}, n ≤ m → ∀ {stack : List ThingPtr} {state state' : ParentsState C T} {class_ : C},
      globalThingPrepareClassParentsList declarations n stack state class_ = some state' →
      globalThingPrepareClassParentsList declarations m stack state class_ = some state' := by
  intro n
  induction n with
  | zero =>
    intro m _ stack state state' class_ h
    exact absurd h.symm (some_ne_none state')
  | succ n ih =>
    intro m hle stack state state' class_ h
    cases m with
    | zero => exact absurd hle (not_succ_le_zero n)
    | succ m =>
      have hle' := le_of_succ_le_succ hle
      rw [globalThingPrepareClassParentsList] at h ⊢
      split at h
      next hprep => rwa [if_pos hprep]
      next hprep =>
        rw [if_neg hprep]
        cases hns : declarations class_ with
        | none =>
          rw [hns] at h
          exact h
        | some names =>
          rw [hns] at h
          simp only at h ⊢
          split at h
          next => exact h
          next =>
            obtain ⟨last, hla, hs'⟩ := map_eq_some_iff.1 h
            rw [map_eq_some_iff]
            refine ⟨last, ?_, hs'⟩
            apply foldlM_mono _ hla
            intro name _ s s' hs
            cases name with
            | notTypeName kindName => exact hs
            | otherType type => exact hs
            | class_ parent =>
              rw [prepareParent] at hs ⊢
              split at hs
              next hmem => rwa [if_pos hmem]
              next hmem =>
                rw [if_neg hmem]
                obtain ⟨middle, hmid, hwk⟩ := bind_eq_some_iff.1 hs
                rw [ih hle' hmid]
                exact addAncestorsAccessRights_mono hle' hwk

section Settled

variable (declarations : ClassDeclarations C T)

def declaredParents (class_ : C) : List C := ((declarations class_).getD []).filterMap fun
    | .class_ parent => some parent
    | .notTypeName _ => none
    | .otherType _ => none

omit [DecidableEq C] in
theorem mem_declaredParents (class_ p : C) :
    p ∈ declaredParents declarations class_ ↔ Declares declarations class_ p := by
  rw [declaredParents, mem_filterMap]
  constructor
  · intro ⟨n, hmem, hn⟩
    cases hns : declarations class_ with
    | none =>
      rw [hns] at hmem
      cases hmem
    | some ns =>
      rw [hns] at hmem
      refine ⟨ns, hns, ?_⟩
      cases n with
      | notTypeName kindName | otherType type => exact absurd hn.symm (some_ne_none p)
      | class_ other => exact some.inj hn ▸ hmem
  · intro ⟨ns, hns, hmem⟩
    refine ⟨.class_ p, ?_, rfl⟩
    rw [hns]
    exact hmem

def Above (class_ : C) : C → Prop := ReflTransGen (Declares declarations) class_

def RecordsDeclared (state : ParentsState C T) : Prop :=
  ∀ x y, state.Records x y → Declares declarations x y

/-- The walk over the ancestors returns where all paths upwards end, with a fuel that does not
depend on what is recorded so far. -/
theorem addAncestorsAccessRights_returns {ancestor : C}
    (h : Acc (fun p class_ => Declares declarations class_ p) ancestor) :
    ∃ n, ∀ theCls state, RecordsDeclared declarations state →
      ∃ state', addAncestorsAccessRights theCls n state ancestor = some state' := by
  induction h with
  | intro ancestor _ ih =>
    have hpars : ∀ p ∈ declaredParents declarations ancestor,
        ∃ n, ∀ theCls state, RecordsDeclared declarations state →
          ∃ state', addAncestorsAccessRights theCls n state p = some state' := by
      intro p hpar
      exact ih p ((mem_declaredParents declarations ancestor p).1 hpar)
    obtain ⟨n, hn⟩ := exists_common_fuel (fun p n m hle hn theCls state hstate =>
      (hn theCls state hstate).imp fun _ => addAncestorsAccessRights_mono hle) hpars
    refine ⟨n + 1, ?_⟩
    intro theCls state hstate
    have hst : ∀ p ∈ state.parents ancestor, ∀ s, RecordsDeclared declarations s →
        ∃ s', addAncestorsAccessRights theCls n s p = some s' ∧
          RecordsDeclared declarations s' := by
      intro p hpar s hs
      have hmem := (mem_declaredParents declarations ancestor p).2 (hstate ancestor p hpar)
      obtain ⟨s', hs'⟩ := hn p hmem theCls s hs
      refine ⟨s', hs', ?_⟩
      intro x y hxy
      apply hs x y
      have hrts := (addAncestorsAccessRights_spec theCls n s s' p hs').1
      unfold ParentsState.Records at hxy ⊢
      rwa [hrts.parents_eq] at hxy
    have hfst : RecordsDeclared declarations
      (state.addAccessRightsFor theCls ancestor .protected_) := hstate
    obtain ⟨state', hstate', -⟩ := foldlM_returns hfst hst
    exact ⟨state', hstate'⟩

structure Settled (state : ParentsState C T) (class_ : C) : Prop where
  isPrepared : IsPrepared declarations state class_
  parents : ∀ y, state.Records class_ y ↔ Declares declarations class_ y
  self : state.accessRights class_ class_ = some .private_
  ancestors : ∀ y, TransGen (Declares declarations) class_ y →
    state.accessRights class_ y = some .protected_
  others : ∀ y, y ≠ class_ → ¬TransGen (Declares declarations) class_ y →
    state.accessRights class_ y = none

structure Untouched (state : ParentsState C T) (class_ : C) : Prop where
  notPrepared : state.parentsListPrepared class_ = false
  parents : state.parents class_ = []
  self : state.accessRights class_ class_ = some .private_
  others : ∀ y, y ≠ class_ → state.accessRights class_ y = none

/-- No list of a class from here on upwards is under way. -/
structure Ready (state : ParentsState C T) (class_ : C) : Prop where
  cases : ∀ x, Above declarations class_ x → Untouched state x ∨ Settled declarations state x
  closed : ∀ x, Above declarations class_ x → Settled declarations state x →
    ∀ y, Declares declarations x y → Settled declarations state y

structure SameAt (state state' : ParentsState C T) (class_ : C) : Prop where
  parents : state'.parents class_ = state.parents class_
  prepared : state'.parentsListPrepared class_ = state.parentsListPrepared class_
  rights : state'.accessRights class_ = state.accessRights class_

/-- All classes from here on upwards are settled, and the others are as before. -/
structure SettledAbove (state state' : ParentsState C T) (class_ : C) : Prop where
  settled : ∀ x, Above declarations class_ x → Settled declarations state' x
  frame : ∀ x, ¬Above declarations class_ x → SameAt state state' x

variable {declarations}

namespace SameAt

variable {state state' st'' : ParentsState C T} {class_ : C}

omit [DecidableEq C]

variable (h : SameAt state state' class_)

include h

theorem symm : SameAt state' state class_ :=
  ⟨h.parents.symm, h.prepared.symm, h.rights.symm⟩

theorem trans (h' : SameAt state' st'' class_) :
    SameAt state st'' class_ :=
  ⟨h'.parents.trans h.parents, h'.prepared.trans h.prepared, h'.rights.trans h.rights⟩

theorem records_iff (y : C) :
    state'.Records class_ y ↔ state.Records class_ y := by
  unfold ParentsState.Records
  rw [h.parents]

theorem settled (hset : Settled declarations state class_) :
    Settled declarations state' class_ := by
  constructor
  case isPrepared =>
    rcases hset.isPrepared with hprep | hno
    · exact .inl (h.prepared.trans hprep)
    · exact .inr hno
  case parents =>
    intro y
    rw [h.records_iff]
    exact hset.parents y
  case self =>
    rw [h.rights]
    exact hset.self
  case ancestors =>
    rw [h.rights]
    exact hset.ancestors
  case others =>
    rw [h.rights]
    exact hset.others

theorem untouched (hunt : Untouched state class_) :
    Untouched state' class_ := by
  constructor
  case notPrepared => exact h.prepared.trans hunt.notPrepared
  case parents => exact h.parents.trans hunt.parents
  case self =>
    rw [h.rights]
    exact hunt.self
  case others =>
    rw [h.rights]
    exact hunt.others

omit h

theorem of_addedRights {theCls : C} {S : C → Prop} (h : AddedRights state state' theCls S)
    (hne : class_ ≠ theCls) : SameAt state state' class_ :=
  ⟨congrFun h.parents_eq class_, congrFun h.prepared_eq class_, h.other class_ hne⟩

end SameAt

variable {class_ : C} {state : ParentsState C T}

theorem SameAt.addParent (state : ParentsState C T) {x : C} (hne : x ≠ class_)
    (p : C) : SameAt state (state.addParent class_ p) x := by
  refine ⟨?_, rfl, rfl⟩
  simp [ParentsState.addParent, hne]

section

omit [DecidableEq C]

theorem SettledAbove.ready {state' : ParentsState C T} {other : C}
    (h : SettledAbove declarations state state' class_) (hrdy : Ready declarations state other) :
    Ready declarations state' other := by
  constructor
  case cases =>
    intro x hx
    by_cases hcl : Above declarations class_ x
    · exact .inr (h.settled x hcl)
    · exact (hrdy.cases x hx).imp (h.frame x hcl).untouched (h.frame x hcl).settled
  case closed =>
    intro x hx hset y hxy
    by_cases hy : Above declarations class_ y
    · exact h.settled y hy
    · have hcl : ¬Above declarations class_ x := fun hcl => hy (hcl.tail hxy)
      have hold := (h.frame x hcl).symm.settled hset
      exact (h.frame y hy).settled (hrdy.closed x hx hold y hxy)

theorem Ready.settledAbove
    (hrdy : Ready declarations state class_) (h : Settled declarations state class_) :
    SettledAbove declarations state state class_ := by
  constructor
  case settled =>
    intro x hx
    induction hx with
    | refl => exact h
    | tail hy hyz ih => exact hrdy.closed _ hy ih _ hyz
  case frame =>
    intro x _
    exact ⟨rfl, rfl, rfl⟩

theorem reflTransGen_records_iff
    (h : ∀ x, Above declarations class_ x → Settled declarations state x) (y : C) :
    ReflTransGen state.Records class_ y ↔ Above declarations class_ y := by
  constructor
  · intro hy
    induction hy with
    | refl => exact .refl
    | tail _ hxy ih => exact ih.tail (((h _ ih).parents _).1 hxy)
  · intro hy
    induction hy with
    | refl => exact .refl
    | tail hx hxy ih => exact ih.tail (((h _ hx).parents _).2 hxy)

end

end Settled

section Loop

variable {declarations : ClassDeclarations C T}

/-- The state in the loop over the declared parents of a class, when the names `done` are
behind it. -/
structure LoopInv (declarations : ClassDeclarations C T) (start : ParentsState C T) (class_ : C)
    (done : List (ResolvedParent C T)) (state : ParentsState C T) : Prop where
  notPrepared : state.parentsListPrepared class_ = false
  parents : ∀ y, state.Records class_ y ↔ .class_ y ∈ done
  self : state.accessRights class_ class_ = some .private_
  ancestors : ∀ parent y, .class_ parent ∈ done → Above declarations parent y →
    state.accessRights class_ y = some .protected_
  others : ∀ y, y ≠ class_ → (∀ parent, .class_ parent ∈ done → ¬Above declarations parent y) →
    state.accessRights class_ y = none
  ready : ∀ parent, Declares declarations class_ parent → Ready declarations state parent
  settled : ∀ parent x, .class_ parent ∈ done → Above declarations parent x →
    Settled declarations state x
  declared : RecordsDeclared declarations state
  frame : ∀ x, ¬Above declarations class_ x → SameAt start state x

variable {start state : ParentsState C T} {class_ : C} {done : List (ResolvedParent C T)}

omit [DecidableEq C] in
theorem LoopInv.skip
    {done' : List (ResolvedParent C T)} (h : LoopInv declarations start class_ done state)
    (heq : ∀ p, ResolvedParent.class_ p ∈ done' ↔ .class_ p ∈ done)
    (err : ParentsError C T) :
    LoopInv declarations start class_ done' (state.report err) := by
  have hat : ∀ x, SameAt state (state.report err) x := fun x => ⟨rfl, rfl, rfl⟩
  constructor
  case notPrepared => exact h.notPrepared
  case parents =>
    intro y
    rw [heq]
    exact h.parents y
  case self => exact h.self
  case ancestors =>
    intro p y hpar
    exact h.ancestors p y ((heq p).1 hpar)
  case others =>
    intro y hy hnot
    exact h.others y hy (fun p hpar => hnot p ((heq p).2 hpar))
  case ready =>
    intro p hpar
    have hrdy := h.ready p hpar
    exact ⟨fun x hx => (hrdy.cases x hx).imp (hat x).untouched (hat x).settled,
      fun x hx hset y hxy =>
        (hat y).settled (hrdy.closed x hx ((hat x).symm.settled hset) y hxy)⟩
  case settled =>
    intro p x hpar hx
    exact (hat x).settled (h.settled p x ((heq p).1 hpar) hx)
  case declared => exact h.declared
  case frame =>
    intro x hx
    exact (h.frame x hx).trans (hat x)

theorem LoopInv.add {prepared state' : ParentsState C T} {p : C}
    (h : LoopInv declarations start class_ done state)
    (hdecls : Declares declarations class_ p)
    (hacy : ¬TransGen (Declares declarations) class_ class_)
    (hprep : SettledAbove declarations (state.addParent class_ p) prepared p)
    (hwk : AddedRights prepared state' class_ (Above declarations p)) :
    LoopInv declarations start class_ (done ++ [.class_ p]) state' := by
  have hmem : ∀ y, ResolvedParent.class_ y ∈ done ++ [.class_ p] ↔ .class_ y ∈ done ∨ y = p := by
    intro y
    rw [mem_append, mem_singleton, ResolvedParent.class_.injEq]
  have hnot : ∀ q, Declares declarations class_ q → ¬Above declarations q class_ :=
    fun q hq hbk => hacy (.head' hq hbk)
  -- The class itself stays as the walk and the recorded parent leave it.
  have hcl := hprep.frame class_ (hnot p hdecls)
  -- The other classes are settled by the call or stay as they were.
  have hab : ∀ x, x ≠ class_ → SameAt prepared state' x := fun x hx => .of_addedRights hwk hx
  have hset : ∀ x, Above declarations p x → Settled declarations state' x := by
    intro x hx
    have hne : x ≠ class_ := fun heq => hnot p hdecls (heq ▸ hx)
    exact (hab x hne).settled (hprep.settled x hx)
  have hkpt : ∀ x, x ≠ class_ → ¬Above declarations p x → SameAt state state' x := by
    intro x hne hx
    exact ((SameAt.addParent state hne p).trans (hprep.frame x hx)).trans (hab x hne)
  constructor
  case notPrepared =>
    rw [hwk.prepared_eq, hcl.prepared]
    exact h.notPrepared
  case parents =>
    intro y
    have hrecs : state'.Records class_ y ↔ (state.addParent class_ p).Records class_ y := by
      unfold ParentsState.Records
      rw [hwk.parents_eq, hcl.parents]
    rw [hrecs, records_addParent, h.parents y]
    simp
  case self =>
    rw [hwk.kept class_ (hnot p hdecls), hcl.rights]
    exact h.self
  case ancestors =>
    intro q y hq hy
    by_cases hpar : Above declarations p y
    · exact hwk.added y hpar
    · rw [hwk.kept y hpar, hcl.rights]
      rcases (hmem q).1 hq with hq | rfl
      · exact h.ancestors q y hq hy
      · exact absurd hy hpar
  case others =>
    intro y hy hno
    rw [hwk.kept y (hno p ((hmem p).2 (.inr rfl))), hcl.rights]
    apply h.others y hy
    intro q hq
    exact hno q ((hmem q).2 (.inl hq))
  case ready =>
    intro q hq
    have hrdy := h.ready q hq
    have hne : ∀ x, Above declarations q x → x ≠ class_ := fun x hx heq => hnot q hq (heq ▸ hx)
    constructor
    case cases =>
      intro x hx
      by_cases hpar : Above declarations p x
      · exact .inr (hset x hpar)
      · have hsame := hkpt x (hne x hx) hpar
        exact (hrdy.cases x hx).imp hsame.untouched hsame.settled
    case closed =>
      intro x hx hxse y hxy
      by_cases hpar : Above declarations p y
      · exact hset y hpar
      · have hxpa : ¬Above declarations p x := fun hx' => hpar (hx'.tail hxy)
        have hold := (hkpt x (hne x hx) hxpa).symm.settled hxse
        exact (hkpt y (hne y (hx.tail hxy)) hpar).settled (hrdy.closed x hx hold y hxy)
  case settled =>
    intro q x hq hx
    by_cases hpar : Above declarations p x
    · exact hset x hpar
    · rcases (hmem q).1 hq with hq | rfl
      · have hold := h.settled q x hq hx
        have hqde : Declares declarations class_ q := h.declared class_ q ((h.parents q).2 hq)
        have hne : x ≠ class_ := fun heq => hnot q hqde (heq ▸ hx)
        exact (hkpt x hne hpar).settled hold
      · exact absurd hx hpar
  case declared =>
    intro x y hxy
    by_cases hpar : Above declarations p x
    · exact ((hset x hpar).parents y).1 hxy
    · by_cases hx : x = class_
      · subst hx
        unfold ParentsState.Records at hxy
        rw [hwk.parents_eq, hcl.parents] at hxy
        rcases (records_addParent state x p x y).1 hxy with hxy | ⟨_, rfl⟩
        · exact h.declared x y hxy
        · exact hdecls
      · exact h.declared x y (((hkpt x hx hpar).records_iff y).1 hxy)
  case frame =>
    intro x hx
    have hne : x ≠ class_ := fun heq => hx (heq ▸ .refl)
    have hpar : ¬Above declarations p x := fun hx' => hx (.head hdecls hx')
    exact (h.frame x hx).trans (hkpt x hne hpar)

/-- A call for the class returns from each state where nothing above it is under way, and
settles all classes above it. -/
def Returns (declarations : ClassDeclarations C T) (class_ : C) (n : Nat) : Prop :=
  ∀ (stack : List ThingPtr) (state : ParentsState C T), FramesBelow stack →
    RecordsDeclared declarations state → Ready declarations state class_ →
    ∃ state', globalThingPrepareClassParentsList declarations n stack state class_ =
      some state' ∧ SettledAbove declarations state state' class_

theorem prepareParent_returns (h : LoopInv declarations start class_ done state)
    (hacy : ¬TransGen (Declares declarations) class_ class_) {n : Nat}
    (hca : ∀ p, Declares declarations class_ p → Returns declarations p n)
    (hwk : ∀ p, Declares declarations class_ p → ∀ state, RecordsDeclared declarations state →
        ∃ state', addAncestorsAccessRights class_ n state p = some state')
    {stack : List ThingPtr} (hstk : FramesBelow stack) {name : ResolvedParent C T}
    (hn : ∀ p, name = .class_ p → Declares declarations class_ p) :
    ∃ state', prepareParent (globalThingPrepareClassParentsList declarations n stack) n class_
        state name = some state' ∧
      LoopInv declarations start class_ (done ++ [name]) state' := by
  cases name with
  | notTypeName kindName | otherType type => exact ⟨_, rfl, h.skip (by simp) _⟩
  | class_ p =>
    have hdecls := hn p rfl
    rw [prepareParent]
    by_cases hmem : p ∈ state.parents class_
    · rw [if_pos hmem]
      refine ⟨_, rfl, h.skip ?_ _⟩
      intro other
      rw [mem_append, mem_singleton]
      exact ⟨fun ho => ho.elim id (fun heq => heq ▸ (h.parents p).1 hmem), .inl⟩
    · rw [if_neg hmem]
      have hnot : ∀ x, Above declarations p x → x ≠ class_ :=
        fun x hx heq => hacy (.head' hdecls (heq ▸ hx))
      have hrdy := h.ready p hdecls
      have hrecs : RecordsDeclared declarations (state.addParent class_ p) := by
        intro x y hxy
        rcases (records_addParent state class_ p x y).1 hxy with hxy | ⟨rfl, rfl⟩
        · exact h.declared x y hxy
        · exact hdecls
      have hrdy' : Ready declarations (state.addParent class_ p) p := by
        constructor
        case cases =>
          intro x hx
          have hsame := SameAt.addParent state (hnot x hx) p
          exact (hrdy.cases x hx).imp hsame.untouched hsame.settled
        case closed =>
          intro x hx hset y hxy
          have hold := (SameAt.addParent state (hnot x hx) p).symm.settled hset
          exact (SameAt.addParent state (hnot y (hx.tail hxy)) p).settled
            (hrdy.closed x hx hold y hxy)
      obtain ⟨prepared, hprep, hset⟩ := hca p hdecls stack _ hstk hrecs hrdy'
      have hrecs' : RecordsDeclared declarations prepared := by
        intro x y hxy
        by_cases hx : Above declarations p x
        · exact ((hset.settled x hx).parents y).1 hxy
        · exact hrecs x y (((hset.frame x hx).records_iff y).1 hxy)
      obtain ⟨state', hs'⟩ := hwk p hdecls prepared hrecs'
      refine ⟨state', ?_, ?_⟩
      · rw [hprep]
        exact hs'
      · have hrts := (addAncestorsAccessRights_spec class_ n prepared state' p hs').1
        exact h.add hdecls hacy hset (hrts.congr (reflTransGen_records_iff hset.settled))

theorem foldlM_prepareParent_returns
    {ns : List (ResolvedParent C T)} (hns : declarations class_ = some ns)
    (hacy : ¬TransGen (Declares declarations) class_ class_) {n : Nat}
    (hca : ∀ p, Declares declarations class_ p → Returns declarations p n)
    (hwk : ∀ p, Declares declarations class_ p → ∀ state, RecordsDeclared declarations state →
        ∃ state', addAncestorsAccessRights class_ n state p = some state')
    {stack : List ThingPtr} (hstk : FramesBelow stack) {r : List (ResolvedParent C T)} :
    ∀ {done : List (ResolvedParent C T)} {state : ParentsState C T}, ns = done ++ r →
      LoopInv declarations start class_ done state →
      ∃ state', r.foldlM
          (prepareParent (globalThingPrepareClassParentsList declarations n stack) n class_)
          state = some state' ∧
        LoopInv declarations start class_ ns state' := by
  induction r with
  | nil =>
    intro done state hsp h
    rw [append_nil] at hsp
    exact ⟨state, rfl, hsp ▸ h⟩
  | cons name r ih =>
    intro done state hsp h
    have hn : ∀ p, name = .class_ p → Declares declarations class_ p := by
      intro p heq
      refine ⟨ns, hns, ?_⟩
      rw [hsp, heq]
      exact mem_append_right done mem_cons_self
    obtain ⟨next, hnx, hinv⟩ := prepareParent_returns h hacy hca hwk hstk hn
    obtain ⟨state', hrs, hla⟩ := ih (by rw [hsp, append_assoc]; rfl) hinv
    refine ⟨state', ?_, hla⟩
    rw [foldlM_cons, hnx]
    exact hrs

theorem LoopInv.finish {ns : List (ResolvedParent C T)} (hns : declarations class_ = some ns)
    (h : LoopInv declarations start class_ ns state) :
    SettledAbove declarations start (state.setPrepared class_) class_ := by
  have hmem : ∀ y, .class_ y ∈ ns ↔ Declares declarations class_ y := by
    intro y
    constructor
    · intro hy
      exact ⟨ns, hns, hy⟩
    · intro ⟨names', hns', hy⟩
      rw [hns] at hns'
      exact some.inj hns' ▸ hy
  have hsame : ∀ x, x ≠ class_ → SameAt state (state.setPrepared class_) x := by
    intro x hx
    refine ⟨rfl, ?_, rfl⟩
    simp [setPrepared, hx]
  constructor
  case settled =>
    intro x hx
    by_cases hcl : x = class_
    · subst hcl
      constructor
      case isPrepared => exact .inl (by simp [setPrepared])
      case parents =>
        intro y
        exact (h.parents y).trans (hmem y)
      case self => exact h.self
      case ancestors =>
        intro y hy
        obtain ⟨p, hpar, hy⟩ := TransGen.head'_iff.1 hy
        exact h.ancestors p y ((hmem p).2 hpar) hy
      case others =>
        intro y hne hnot
        apply h.others y hne
        intro p hpar hy
        exact hnot (.head' ((hmem p).1 hpar) hy)
    · apply (hsame x hcl).settled
      rcases ReflTransGen.cases_head hx with heq | ⟨p, hpar, hx⟩
      · exact absurd heq.symm hcl
      · exact h.settled p x ((hmem p).2 hpar) hx
  case frame =>
    intro x hx
    have hne : x ≠ class_ := fun heq => hx (heq ▸ .refl)
    exact (h.frame x hx).trans (hsame x hne)

omit [DecidableEq C] in
theorem Untouched.loopInv (h : Untouched state class_)
    (hrdy : Ready declarations state class_) (hrecs : RecordsDeclared declarations state) :
    LoopInv declarations state class_ [] state := by
  constructor
  case notPrepared => exact h.notPrepared
  case parents =>
    intro y
    unfold ParentsState.Records
    rw [h.parents]
    simp
  case self => exact h.self
  case ancestors =>
    intro p y hpar
    cases hpar
  case others =>
    intro y hy _
    exact h.others y hy
  case ready =>
    intro p hpar
    exact ⟨fun x hx => hrdy.cases x (.head hpar hx), fun x hx => hrdy.closed x (.head hpar hx)⟩
  case settled =>
    intro p x hpar
    cases hpar
  case declared => exact hrecs
  case frame =>
    intro x _
    exact ⟨rfl, rfl, rfl⟩

omit [DecidableEq C] in
theorem Untouched.settled (h : Untouched state class_)
    (hno : declarations class_ = none) : Settled declarations state class_ := by
  have hnot : ∀ y, ¬Declares declarations class_ y := by
    intro y ⟨ns, hns, _⟩
    rw [hno] at hns
    exact some_ne_none ns hns.symm
  constructor
  case isPrepared => exact .inr hno
  case parents =>
    intro y
    unfold ParentsState.Records
    rw [h.parents]
    exact ⟨nofun, fun hy => absurd hy (hnot y)⟩
  case self => exact h.self
  case ancestors =>
    intro y hy
    obtain ⟨p, hpar, _⟩ := TransGen.head'_iff.1 hy
    exact absurd hpar (hnot p)
  case others =>
    intro y hy _
    exact h.others y hy

theorem Returns.mono (class_ : C) (n m : Nat) (hle : n ≤ m)
    (h : Returns declarations class_ n) : Returns declarations class_ m := by
  intro stack state hstk hrecs hrdy
  obtain ⟨state', hs', hset⟩ := h stack state hstk hrecs hrdy
  exact ⟨state', globalThingPrepareClassParentsList_mono hle hs', hset⟩

theorem globalThingPrepareClassParentsList_returns
    (h : Acc (fun p class_ => Declares declarations class_ p) class_) :
    ∃ n, Returns declarations class_ n := by
  induction h with
  | intro class_ hpars ih =>
    have hsf : Acc (fun p class_ => Declares declarations class_ p) class_ := .intro class_ hpars
    have hacy := not_transGen_of_acc hsf .refl
    obtain ⟨n, hn⟩ := exists_common_fuel Returns.mono (fun p hpar =>
      ih p ((mem_declaredParents declarations class_ p).1 hpar))
    obtain ⟨m, hm⟩ := exists_common_fuel (fun p n m hle hn theCls state hs =>
        (hn theCls state hs).imp fun _ => addAncestorsAccessRights_mono hle)
      (fun p hpar => addAncestorsAccessRights_returns declarations
        (hpars p ((mem_declaredParents declarations class_ p).1 hpar)))
    refine ⟨max n m + 1, ?_⟩
    intro stack state hstk hrecs hrdy
    rw [globalThingPrepareClassParentsList]
    split
    next hprep =>
      refine ⟨state, rfl, ?_⟩
      rcases hrdy.cases class_ .refl with hunt | hset
      · rw [hunt.notPrepared] at hprep
        cases hprep
      · exact hrdy.settledAbove hset
    next hprep =>
      cases hns : declarations class_ with
      | none =>
        refine ⟨state, rfl, ?_⟩
        rcases hrdy.cases class_ .refl with hunt | hset
        · exact hrdy.settledAbove (hunt.settled hns)
        · exact hrdy.settledAbove hset
      | some ns =>
        have hunt : Untouched state class_ := by
          rcases hrdy.cases class_ .refl with hunt | hset
          · exact hunt
          · rcases hset.isPrepared with h | h
            · exact absurd h hprep
            · rw [hns] at h
              exact absurd h (some_ne_none ns)
        obtain ⟨last, hla, hinv⟩ := foldlM_prepareParent_returns hns hacy
          (fun p hpar => Returns.mono p n _ (le_max_left n m)
            (hn p ((mem_declaredParents declarations class_ p).2 hpar)))
          (fun p hpar state hs =>
            (hm p ((mem_declaredParents declarations class_ p).2 hpar) class_ state
              hs).imp fun _ => addAncestorsAccessRights_mono (le_max_right n m))
          hstk.push rfl (hunt.loopInv hrdy hrecs)
        refine ⟨last.setPrepared class_, ?_, hinv.finish hns⟩
        simp only [globalThingDetectloop_eq_none hstk, hla, map_some]

end Loop

end USprache.CodeBuilder
