import USprache.CodeBuilder.ClassParentsSettled

/-!
# The hierarchy of classes

Where no cycle of declared parents can be reached, the preparation comes to an end, and each
class it reaches has its parents recorded and rights for itself and its ancestors.  Where one
can be reached, the preparation does not come to an end.
-/

namespace USprache.CodeBuilder

open Relation Library List Option

variable {C T : Type} [DecidableEq C]

section Ancestors

omit [DecidableEq C]

theorem anyParent_mono {f g : C → Option Bool} {ps : List C}
    (h : ∀ p ∈ ps, ∀ b, f p = some b → g p = some b) :
    ∀ {b}, anyParent f ps = some b → anyParent g ps = some b := by
  induction ps with
  | nil =>
    intro b hb
    exact hb
  | cons p ps ih =>
    intro b hb
    rw [anyParent] at hb ⊢
    obtain ⟨found, hfd, hrs⟩ := bind_eq_some_iff.1 hb
    rw [h p mem_cons_self found hfd]
    cases found with
    | true => exact hrs
    | false => exact ih (fun q hq => h q (mem_cons_of_mem p hq)) hrs

theorem anyParent_returns {f : C → Option Bool} {ps : List C}
    (h : ∀ p ∈ ps, ∃ b, f p = some b) : ∃ b, anyParent f ps = some b := by
  induction ps with
  | nil => exact ⟨false, rfl⟩
  | cons p ps ih =>
    obtain ⟨found, hfd⟩ := h p mem_cons_self
    rw [anyParent, hfd]
    cases found with
    | true => exact ⟨true, rfl⟩
    | false => exact ih (fun q hq => h q (mem_cons_of_mem p hq))

/-- A walk upwards that asks at each class what `visit` asks, with what the walk says of the
parents, comes to an end where all paths upwards do. -/
theorem walk_returns {state : ParentsState C T} {walk : Nat → C → Option Bool}
    (visit : (C → Option Bool) → C → Option Bool) (hz : ∀ x, walk 0 x = none)
    (hsucc : ∀ n x, walk (n + 1) x = visit (walk n) x)
    (hmono : ∀ f g x b, (∀ y b, f y = some b → g y = some b) → visit f x = some b →
      visit g x = some b)
    (hrets : ∀ f x, (∀ y, state.Records x y → ∃ b, f y = some b) → ∃ b, visit f x = some b)
    {x : C} (hacc : Acc (fun p cls => state.Records cls p) x) :
    ∃ n b, ∀ fuel ≥ n, walk fuel x = some b := by
  have hmo : ∀ n x b, walk n x = some b → walk (n + 1) x = some b := by
    intro n
    induction n with
    | zero =>
      intro x b h
      rw [hz] at h
      exact absurd h.symm (some_ne_none b)
    | succ n ih =>
      intro x b h
      rw [hsucc] at h ⊢
      exact hmono _ _ x b ih h
  have hge : ∀ {n m}, n ≤ m → ∀ {x b}, walk n x = some b → walk m x = some b := by
    intro n m hle x b h
    induction hle with
    | refl => exact h
    | step _ ih => exact hmo _ x b ih
  have hsm : ∃ n b, walk n x = some b := by
    induction hacc with
    | intro x _ ih =>
      have hpars : ∀ y ∈ state.parents x, ∃ n b, walk n y = some b := ih
      obtain ⟨n, hn⟩ := exists_common_fuel (fun y n m hle h => h.imp fun b hb => hge hle hb) hpars
      refine ⟨n + 1, ?_⟩
      rw [hsucc]
      exact hrets _ x hn
  obtain ⟨n, b, h⟩ := hsm
  exact ⟨n, b, fun fuel hle => hge hle h⟩

end Ancestors

theorem hasAncestor_returns {state : ParentsState C T} (cls : C) {this : C}
    (hacc : Acc (fun p cls => state.Records cls p) this) :
    ∃ n b, ∀ fuel ≥ n, hasAncestor state cls fuel this = some b := by
  apply walk_returns (fun f this => anyParent (fun p => if p = cls then some true else f p)
      (state.parents this)) (fun _ => rfl) (fun _ _ => rfl) _ _ hacc
  · intro f g x b hfg
    apply anyParent_mono
    intro p _ found
    split
    · exact id
    · exact hfg p found
  · intro f x hx
    apply anyParent_returns
    intro p hpar
    split
    · exact ⟨true, rfl⟩
    · exact hx p hpar

theorem referenceIsConvertibleTo_returns {state : ParentsState C T} (other : C) {this : C}
    (hacc : Acc (fun p cls => state.Records cls p) this) :
    ∃ n b, ∀ fuel ≥ n, referenceIsConvertibleTo state other fuel this = some b := by
  apply walk_returns (fun f this => if this = other then some true
      else anyParent (fun p => if p = other then some true else f p)
        (state.parents this)) (fun _ => rfl) (fun _ _ => rfl) _ _ hacc
  · intro f g x b hfg
    split
    · exact id
    · apply anyParent_mono
      intro p _ found
      split
      · exact id
      · exact hfg p found
  · intro f x hx
    split
    · exact ⟨true, rfl⟩
    · apply anyParent_returns
      intro p hpar
      split
      · exact ⟨true, rfl⟩
      · exact hx p hpar

section Whole

variable (declarations : ClassDeclarations C T)

def ReachesCycle (classes : List C) : Prop :=
  ∃ class_ ∈ classes, ∃ x, Above declarations class_ x ∧ TransGen (Declares declarations) x x

/-- What is known of the classes after the lists of some of them are prepared. -/
structure HierarchyIsRight (classes : List C) (state : ParentsState C T) : Prop where
  cycleIsReported : ReachesCycle declarations classes → state.errors ≠ []
  acyclic : ∀ x, ¬TransGen state.Records x x
  rights : ∀ class_ ∈ classes, ∀ x, Above declarations class_ x → ∀ y,
    (state.accessRights x y = some .private_ ↔ y = x) ∧
      (state.accessRights x y = some .protected_ ↔ TransGen (Declares declarations) x y) ∧
      state.accessRights x y ≠ some .public_
  hasAncestor : ∀ x y, ∃ n b, ∀ fuel ≥ n, hasAncestor state y fuel x = some b
  referenceIsConvertibleTo : ∀ x y, ∃ n b, ∀ fuel ≥ n,
    referenceIsConvertibleTo state y fuel x = some b

def PreparesHierarchy (stack : List ThingPtr) (classes : List C) : Prop :=
  ∃ n state, (∀ fuel ≥ n, prepareClasses declarations fuel stack classes .created = some state) ∧
    HierarchyIsRight declarations classes state

variable {declarations} {stack : List ThingPtr} {classes : List C} {state : ParentsState C T}

theorem prepareClasses_spec {fuel : Nat} (hstk : FramesBelow stack) : ∀ {state st' : ParentsState C T},
    prepareClasses declarations fuel stack classes state = some st' →
    RunSpec declarations state st' ∧ ∀ cls ∈ classes, IsPrepared declarations st' cls := by
  induction classes with
  | nil =>
    intro state st' h
    have heq : state = st' := some.inj h
    subst heq
    exact ⟨.of_eq rfl rfl, nofun⟩
  | cons cls classes ih =>
    intro state st' h
    obtain ⟨next, hnx, hrs⟩ := bind_eq_some_iff.1 h
    obtain ⟨hrun, hprep⟩ := globalThingPrepareClassParentsList_spec fuel hstk hnx
    obtain ⟨hrun', hprep'⟩ := ih hrs
    refine ⟨hrun.trans hrun', ?_⟩
    intro other hmem
    rcases mem_cons.1 hmem with rfl | hmem
    · exact hprep.of_runSpec hrun'
    · exact hprep' other hmem

theorem RunSpec.acyclic_of_created
    (h : RunSpec declarations .created state) : ∀ x, ¬TransGen state.Records x x := by
  have hacy := h.acyclic (fun _ _ => False) (fun _ _ h => h.elim) (by
    intro x hx
    obtain ⟨y, hxy, _⟩ := TransGen.head'_iff.1 hx
    exact hxy)
  intro x hx
  apply hacy x
  apply TransGen.mono _ _ _ hx
  intro y z hyz
  exact .inr ⟨hyz, not_mem_nil⟩

theorem not_reachesCycle_of_prepareClasses {fuel : Nat} (hstk : FramesBelow stack)
    (h : prepareClasses declarations fuel stack classes .created = some state) :
    ¬ReachesCycle declarations classes := by
  obtain ⟨hrun, hprep⟩ := prepareClasses_spec hstk h
  have hfu : PreparedAreFull declarations state := by
    apply hrun.full
    intro x hx
    cases hx
  intro ⟨cls, hmem, x, hx, hcy⟩
  have hrecs : ∀ y, Above declarations cls y → IsPrepared declarations state y →
      ∀ z, Declares declarations y z → state.Records y z := by
    intro y _ hy z hyz
    have ⟨names, hns, _⟩ := hyz
    rcases hy with hy | hy
    · exact hfu y hy z hyz
    · rw [hns] at hy
      exact absurd hy (some_ne_none names)
  have hall : ∀ y, Above declarations cls y → IsPrepared declarations state y := by
    intro y hy
    induction hy with
    | refl => exact hprep cls hmem
    | tail hy hyz ih =>
      exact hrun.targets _ _ (hrecs _ hy ih _ hyz) not_mem_nil
  have hp : ∀ y, TransGen (Declares declarations) x y →
      Above declarations cls y ∧ TransGen state.Records x y := by
    intro y hy
    induction hy with
    | single hxy => exact ⟨hx.tail hxy, .single (hrecs x hx (hall x hx) _ hxy)⟩
    | tail _ hyz ih =>
      exact ⟨ih.1.tail hyz, ih.2.tail (hrecs _ ih.1 (hall _ ih.1) _ hyz)⟩
  exact hrun.acyclic_of_created x (hp x hcy).2

theorem untouched_created (cls : C) : Untouched (.created : ParentsState C T) cls := by
  constructor
  case notPrepared => rfl
  case parents => rfl
  case self => simp [ParentsState.created]
  case others =>
    intro y hy
    simp [ParentsState.created, hy]

theorem prepareClasses_returns {n : Nat} (hstk : FramesBelow stack)
    (hcas : ∀ cls ∈ classes, Returns declarations cls n) :
    ∀ {state : ParentsState C T}, RecordsDeclared declarations state →
      (∀ cls, Ready declarations state cls) →
      ∃ st', prepareClasses declarations n stack classes state = some st' ∧
        (∀ x, Settled declarations state x → Settled declarations st' x) ∧
        ∀ cls ∈ classes, ∀ x, Above declarations cls x → Settled declarations st' x := by
  induction classes with
  | nil =>
    intro state _ _
    exact ⟨state, rfl, fun _ h => h, nofun⟩
  | cons cls classes ih =>
    intro state hrecs hrdy
    obtain ⟨next, hnx, hset⟩ := hcas cls mem_cons_self stack state hstk hrecs (hrdy cls)
    have hrecs' : RecordsDeclared declarations next := by
      intro x y hxy
      by_cases hx : Above declarations cls x
      · exact ((hset.settled x hx).parents y).1 hxy
      · exact hrecs x y (((hset.frame x hx).records_iff y).1 hxy)
    obtain ⟨st', hrs, hkpt, hos⟩ := ih (fun other hmem => hcas other (mem_cons_of_mem cls hmem)) hrecs'
        (fun other => hset.ready (hrdy other))
    refine ⟨st', ?_, ?_, ?_⟩
    · rw [prepareClasses, foldlM_cons, hnx]
      exact hrs
    · intro x hx
      apply hkpt
      by_cases hab : Above declarations cls x
      · exact hset.settled x hab
      · exact (hset.frame x hab).settled hx
    · intro other hmem x hx
      rcases mem_cons.1 hmem with rfl | hmem
      · exact hkpt x (hset.settled x hx)
      · exact hos other hmem x hx

omit [DecidableEq C] in
theorem Settled.rights {x : C} (h : Settled declarations state x) (y : C) :
    (state.accessRights x y = some .private_ ↔ y = x) ∧
      (state.accessRights x y = some .protected_ ↔ TransGen (Declares declarations) x y) ∧
      state.accessRights x y ≠ some .public_ := by
  have hsf : y = x → state.accessRights x y = some .private_ := by
    intro heq
    rw [heq]
    exact h.self
  by_cases hanc : TransGen (Declares declarations) x y
  · have hrts := h.ancestors y hanc
    have hne : y ≠ x := by
      intro heq
      rw [hsf heq] at hrts
      exact absurd hrts (by decide)
    simp [hrts, hne, hanc]
  · by_cases heq : y = x
    · subst heq
      simp [h.self, hanc]
    · simp [h.others y heq hanc, heq, hanc]

theorem ready_created (cls : C) : Ready declarations (.created : ParentsState C T) cls := by
  constructor
  case cases => exact fun x _ => .inl (untouched_created x)
  case closed =>
    intro x _ hset y ⟨ns, hns, _⟩
    rcases hset.isPrepared with h | h
    · cases h
    · rw [hns] at h
      exact absurd h (some_ne_none ns)

/-- Preparing lists of parents comes to an end with a right hierarchy exactly when no cycle of
declared parents can be reached from the classes it is started with. -/
theorem prepareClasses_preparesHierarchy_iff [Finite C] {stack : List ThingPtr}
    (hstack : FramesBelow stack) (classes : List C) :
    PreparesHierarchy declarations stack classes ↔ ¬ReachesCycle declarations classes := by
  constructor
  · intro ⟨n, state, hstate, _⟩
    exact not_reachesCycle_of_prepareClasses hstack (hstate n (Nat.le_refl n))
  · intro hcycle
    have hacc : ∀ class_ ∈ classes, Acc (fun parent x => Declares declarations x parent) class_ := by
      intro class_ hmem
      apply acc_of_no_cycle
      intro x hx hself
      exact hcycle ⟨class_, hmem, x, hx, hself⟩
    obtain ⟨n, hn⟩ := exists_common_fuel Returns.mono
      (fun class_ hmem => globalThingPrepareClassParentsList_returns (hacc class_ hmem))
    have hrecords : RecordsDeclared declarations (.created : ParentsState C T) :=
      nofun
    obtain ⟨state, hstate, -, hsettled⟩ := prepareClasses_returns hstack hn hrecords ready_created
    have hrun := (prepareClasses_spec hstack hstate).1
    have hends : ∀ x, Acc (fun parent class_ => state.Records class_ parent) x :=
      fun x => acc_of_no_cycle (fun y _ => hrun.acyclic_of_created y)
    refine ⟨n, state, ?_, ?_⟩
    · intro fuel hle
      exact foldlM_mono (fun class_ _ s s' => globalThingPrepareClassParentsList_mono hle) hstate
    · constructor
      case cycleIsReported => exact fun hyes => absurd hyes hcycle
      case acyclic => exact hrun.acyclic_of_created
      case rights =>
        intro class_ hmem x hx y
        exact (hsettled class_ hmem x hx).rights y
      case hasAncestor => exact fun x y => hasAncestor_returns y (hends x)
      case referenceIsConvertibleTo => exact fun x y => referenceIsConvertibleTo_returns y (hends x)

end Whole

def twoClasses : ClassDeclarations Bool Empty
  | true => some [.class_ false]
  | false => some []

theorem twoClasses_acyclic : ¬ReachesCycle twoClasses [true, false] := by
  have hdecls : ∀ x y, Declares twoClasses x y → x = true ∧ y = false := by
    intro x y ⟨names, hns, hmem⟩
    cases x with
    | false =>
      have heq := some.inj hns
      subst heq
      cases hmem
    | true =>
      have heq := some.inj hns
      subst heq
      exact ⟨rfl, ResolvedParent.class_.inj (mem_singleton.1 hmem)⟩
  intro ⟨class_, _, x, _, hcy⟩
  obtain ⟨y, hxy, _⟩ := TransGen.head'_iff.1 hcy
  obtain ⟨z, _, hzx⟩ := TransGen.tail'_iff.1 hcy
  have hx := (hdecls x y hxy).1
  rw [(hdecls z x hzx).2] at hx
  exact Bool.false_ne_true hx

theorem prepareClasses_preparesHierarchy_twoClasses :
    PreparesHierarchy twoClasses [] [true, false] :=
  (prepareClasses_preparesHierarchy_iff (fun _ hmem => absurd hmem not_mem_nil) _).2
    twoClasses_acyclic

/-- A class that names itself as its parent: no fuel is enough. -/
theorem prepareClasses_selfParent :
    (∀ fuel, prepareClasses (C := Unit) (T := Empty) (fun _ => some [.class_ ()]) fuel [] [()]
        .created = none) ∧
      ¬PreparesHierarchy (C := Unit) (T := Empty) (fun _ => some [.class_ ()]) [] [()] := by
  have hstack : FramesBelow [] := nofun
  have hcycle : ReachesCycle (C := Unit) (T := Empty) (fun _ => some [.class_ ()]) [()] :=
    ⟨(), mem_cons_self, (), .refl, .single ⟨_, rfl, mem_cons_self⟩⟩
  constructor
  · intro fuel
    cases hrun : prepareClasses (C := Unit) (T := Empty) (fun _ => some [.class_ ()]) fuel [] [()]
        .created with
    | none => rfl
    | some state => exact absurd hcycle (not_reachesCycle_of_prepareClasses hstack hrun)
  · intro ⟨n, state, hstate, _⟩
    exact not_reachesCycle_of_prepareClasses hstack (hstate n (Nat.le_refl n)) hcycle

end USprache.CodeBuilder
