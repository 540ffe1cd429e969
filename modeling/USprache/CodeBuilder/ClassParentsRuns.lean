import USprache.Library.Outcome
import USprache.Library.Reachability

/-!
# Lists of parent classes

A class records its parents before their own parents are known.  The loop detector is given
the address of a parameter, so an active call never finds the thing of another one, and it
is left to the recursion over the recorded parents to come to an end.
-/

namespace USprache.CodeBuilder

open Function

variable (C T : Type)

/-- What the name of a parent is resolved to.  `C` are the classes, `T` the other types. -/
inductive ResolvedParent where
  | notTypeName (kindName : String)
  | otherType (type : T)
  | class_ (class_ : C)

inductive ParentsError where
  | globalsLoopDetected (loopStartStackIndex : Nat)
  | nameIsNotTypeName (kindName : String)
  | canNotDeriveFromThisType (type : T)
  | duplicatedParentClass (type : C)

inductive ClassMemberVisibility where
  | public_ | protected_ | private_
deriving DecidableEq

/-- The address of a thing: of an object, or of the parameter of an active call. -/
inductive ThingPtr where
  | object (address : Nat)
  | parameter (frame : Nat)
deriving DecidableEq

instance : LawfulBEq ThingPtr := inferInstance

/-- The declarations of the classes: no list for a class without a syntax element. -/
abbrev ClassDeclarations := C → Option (List (ResolvedParent C T))

structure ParentsState where
  parents : C → List C
  parentsListPrepared : C → Bool
  accessRights : C → C → Option ClassMemberVisibility
  errors : List (ParentsError C T)

variable {C T} [DecidableEq C]

namespace ParentsState

/-- Nothing is prepared; a class has access to its own members since its creation. -/
def created : ParentsState C T where
  parents _ := []
  parentsListPrepared _ := false
  accessRights class_ other := if other = class_ then some .private_ else none
  errors := []

variable (state : ParentsState C T)

def report (error : ParentsError C T) : ParentsState C T :=
  { state with errors := state.errors ++ [error] }

def addParent (class_ parent : C) : ParentsState C T := { state with
    parents := update state.parents class_ (state.parents class_ ++ [parent]) }

def setPrepared (class_ : C) : ParentsState C T := { state with
    parentsListPrepared := update state.parentsListPrepared class_ true }

def addAccessRightsFor (theClass class_ : C)
    (visibility : ClassMemberVisibility) : ParentsState C T :=
  { state with
    accessRights := update state.accessRights theClass
      (update (state.accessRights theClass) class_ (some visibility)) }

end ParentsState

/-- `AddAncestorsAccessRights_r`, `none` if the fuel does not last. -/
def addAncestorsAccessRights (theClass : C) : Nat → ParentsState C T → C → Option (ParentsState C T)
  | 0, _, _ => none
  | fuel + 1, state, ancestorClass =>
    (state.parents ancestorClass).foldlM
      (fun state parent => addAncestorsAccessRights theClass fuel state parent)
      (state.addAccessRightsFor theClass ancestorClass .protected_)

def globalThingDetectloop (globalThingsStack : List ThingPtr) (thing : ThingPtr) : Option Nat :=
  globalThingsStack.findIdx? (fun prevThing => decide (prevThing = thing))

/-- A step of the loop over the parents of a class, with the recursive call it makes. -/
def prepareParent (prepare : ParentsState C T → C → Option (ParentsState C T)) (fuel : Nat)
    (classType : C) (state : ParentsState C T) :
    ResolvedParent C T → Option (ParentsState C T)
  | .notTypeName kindName => some (state.report (.nameIsNotTypeName kindName))
  | .otherType type => some (state.report (.canNotDeriveFromThisType type))
  | .class_ parentClass =>
    if parentClass ∈ state.parents classType then
      some (state.report (.duplicatedParentClass parentClass))
    else
      (prepare (state.addParent classType parentClass) parentClass).bind fun state =>
        addAncestorsAccessRights classType fuel state parentClass

/-- `none` if the fuel does not last.  The thing given to the loop detector is the address of the
parameter of the call, and the frame of a call is known by the number of the calls below it. -/
def globalThingPrepareClassParentsList (declarations : ClassDeclarations C T) :
    Nat → List ThingPtr → ParentsState C T → C → Option (ParentsState C T)
  | 0, _, _, _ => none
  | fuel + 1, globalThingsStack, state, classType =>
    if state.parentsListPrepared classType then some state
    else match declarations classType with
      | none => some state
      | some parents =>
        let thing := ThingPtr.parameter globalThingsStack.length
        match globalThingDetectloop globalThingsStack thing with
        | some loopPos => some (state.report (.globalsLoopDetected loopPos))
        | none =>
          (parents.foldlM (prepareParent
              (globalThingPrepareClassParentsList declarations fuel (globalThingsStack ++ [thing]))
              fuel classType) state).map fun state => state.setPrepared classType

def prepareClasses (declarations : ClassDeclarations C T) (fuel : Nat)
    (globalThingsStack : List ThingPtr) (classes : List C) (state : ParentsState C T) :
    Option (ParentsState C T) :=
  classes.foldlM (globalThingPrepareClassParentsList declarations fuel globalThingsStack) state

/-- The loop of `HasAncestor` over the rest of the parents. -/
def anyParent (test : C → Option Bool) : List C → Option Bool
  | [] => some false
  | parent :: parents => (test parent).bind fun found =>
    if found then some true else anyParent test parents

/-- `Class::HasAncestor`, `none` if the fuel does not last. -/
def hasAncestor (state : ParentsState C T) (class_ : C) : Nat → C → Option Bool
  | 0, _ => none
  | fuel + 1, this =>
    anyParent (fun parent =>
      if parent = class_ then some true else hasAncestor state class_ fuel parent)
      (state.parents this)

/-- `Type::ReferenceIsConvertibleTo` for two class types. -/
def referenceIsConvertibleTo (state : ParentsState C T) (other : C) : Nat → C → Option Bool
  | 0, _ => none
  | fuel + 1, this =>
    if this = other then some true
    else anyParent (fun parent =>
      if parent = other then some true else referenceIsConvertibleTo state other fuel parent)
      (state.parents this)

end USprache.CodeBuilder

/-!
## Runs of the preparation of parents that come to an end

Adding the rights for all ancestors of a class ends only if the recorded parents above that
class have no cycle.  An edge is recorded before that walk starts, so the edges whose walk is
over never form a cycle, and at the end of a run these are all recorded edges.
-/

namespace USprache.CodeBuilder

open Relation Library List Option ParentsState

variable {C T : Type} [DecidableEq C]

def Declares (declarations : ClassDeclarations C T) (class_ parent : C) : Prop :=
  ∃ parents, declarations class_ = some parents ∧ ResolvedParent.class_ parent ∈ parents

namespace ParentsState

def Records (state : ParentsState C T) (class_ parent : C) : Prop := parent ∈ state.parents class_

@[simp]
theorem records_addParent (state : ParentsState C T) (class_ p x y : C) :
    (state.addParent class_ p).Records x y ↔ state.Records x y ∨ x = class_ ∧ y = p := by
  unfold Records addParent
  by_cases hx : x = class_
  · subst hx
    simp
  · simp [hx]

end ParentsState

/-- The class was given protected access to the members of the classes in `S`, and nothing
else changed. -/
structure AddedRights (state state' : ParentsState C T) (theClass : C) (S : C → Prop) : Prop where
  parents_eq : state'.parents = state.parents
  prepared_eq : state'.parentsListPrepared = state.parentsListPrepared
  errors_eq : state'.errors = state.errors
  other : ∀ x, x ≠ theClass → state'.accessRights x = state.accessRights x
  added : ∀ y, S y → state'.accessRights theClass y = some .protected_
  kept : ∀ y, ¬S y → state'.accessRights theClass y = state.accessRights theClass y

namespace AddedRights

section

omit [DecidableEq C]

theorem refl (state : ParentsState C T) (theCls : C) :
    AddedRights state state theCls (fun _ => False) :=
  ⟨rfl, rfl, rfl, fun _ _ => rfl, fun _ h => h.elim, fun _ _ => rfl⟩

theorem trans {state state' st'' : ParentsState C T} {theCls : C} {S S' : C → Prop}
    (h : AddedRights state state' theCls S) (h' : AddedRights state' st'' theCls S') :
    AddedRights state st'' theCls (fun y => S y ∨ S' y) := by
  constructor
  case parents_eq => exact h'.parents_eq.trans h.parents_eq
  case prepared_eq => exact h'.prepared_eq.trans h.prepared_eq
  case errors_eq => exact h'.errors_eq.trans h.errors_eq
  case other =>
    intro x hx
    exact (h'.other x hx).trans (h.other x hx)
  case added =>
    intro y hy
    by_cases hS' : S' y
    · exact h'.added y hS'
    · rw [h'.kept y hS']
      exact h.added y (hy.resolve_right hS')
  case kept =>
    intro y hy
    rw [not_or] at hy
    rw [h'.kept y hy.2, h.kept y hy.1]

theorem congr {state state' : ParentsState C T} {theCls : C} {S S' : C → Prop}
    (h : AddedRights state state' theCls S) (hS : ∀ y, S y ↔ S' y) :
    AddedRights state state' theCls S' := by
  have heq : S = S' := funext (fun y => propext (hS y))
  rw [← heq]
  exact h

end

end AddedRights

theorem addedRights_addAccessRightsFor (state : ParentsState C T) (theCls class_ : C) :
    AddedRights state (state.addAccessRightsFor theCls class_ .protected_) theCls
      (fun y => y = class_) := by
  constructor
  case parents_eq => rfl
  case prepared_eq => rfl
  case errors_eq => rfl
  case other =>
    intro x hx
    simp [addAccessRightsFor, hx]
  case added =>
    intro y hy
    simp [addAccessRightsFor, hy]
  case kept =>
    intro y hy
    simp [addAccessRightsFor, hy]

/-- What a walk over the ancestors that comes to an end leaves, and that it can only come to
an end where all paths upwards do. -/
theorem addAncestorsAccessRights_spec (theCls : C) :
    ∀ (fuel : Nat) (state state' : ParentsState C T) (ancestor : C),
      addAncestorsAccessRights theCls fuel state ancestor = some state' →
      AddedRights state state' theCls (ReflTransGen state.Records ancestor) ∧
        Acc (fun p class_ => state.Records class_ p) ancestor := by
  intro fuel
  induction fuel with
  | zero =>
    intro state state' ancestor h
    exact absurd h.symm (some_ne_none state')
  | succ fuel ih =>
    intro state state' ancestor h
    -- The loop over the parents, from any state with the same recorded parents.
    have hlp : ∀ (ps : List C) (mid : ParentsState C T), mid.parents = state.parents →
        ps.foldlM (fun state p => addAncestorsAccessRights theCls fuel state p) mid = some state' →
        AddedRights mid state' theCls (fun y => ∃ p ∈ ps, ReflTransGen state.Records p y) ∧
          ∀ p ∈ ps, Acc (fun p class_ => state.Records class_ p) p := by
      intro ps
      induction ps with
      | nil =>
        intro mid _ hmid
        have heq : mid = state' := some.inj hmid
        subst heq
        constructor
        · exact (AddedRights.refl mid theCls).congr (by simp)
        · intro p hpar
          cases hpar
      | cons p ps ihparents =>
        intro mid heq hmid
        obtain ⟨next, hnx, hrs⟩ := bind_eq_some_iff.1 hmid
        obtain ⟨hrts, hacc⟩ := ih mid next p hnx
        have hrecs : mid.Records = state.Records := by
          unfold ParentsState.Records
          rw [heq]
        rw [hrecs] at hrts hacc
        obtain ⟨hrts', hacc'⟩ := ihparents next (hrts.parents_eq.trans heq) hrs
        constructor
        · exact (hrts.trans hrts').congr (by simp)
        · intro x hx
          rcases mem_cons.1 hx with rfl | hx
          · exact hacc
          · exact hacc' x hx
    have hfst := addedRights_addAccessRightsFor state theCls ancestor
    obtain ⟨hrts, hacc⟩ := hlp _ _ hfst.parents_eq h
    constructor
    · apply (hfst.trans hrts).congr
      intro y
      constructor
      · rintro (rfl | ⟨p, hpar, hy⟩)
        · exact .refl
        · exact .head hpar hy
      · intro hy
        rcases ReflTransGen.cases_head hy with rfl | ⟨p, hpar, hy⟩
        · exact .inl rfl
        · exact .inr ⟨p, hpar, hy⟩
    · exact .intro ancestor (fun p hpar => hacc p hpar)

section Runs

variable (declarations : ClassDeclarations C T)

def IsPrepared (state : ParentsState C T) (class_ : C) : Prop :=
  state.parentsListPrepared class_ = true ∨ declarations class_ = none

def PreparedAreFull (state : ParentsState C T) : Prop :=
  ∀ x, state.parentsListPrepared x = true → ∀ y, Declares declarations x y → state.Records x y

/-- What a part of a run that came to an end did.  The recorded edges it added close no cycle
with edges `F` recorded before, even if those that were under way then do. -/
structure RunSpec (state state' : ParentsState C T) : Prop where
  grows : ∀ x y, state.Records x y → state'.Records x y
  prepared : ∀ x, state.parentsListPrepared x = true → state'.parentsListPrepared x = true
  acyclic : ∀ F : C → C → Prop, (∀ x y, F x y → state.Records x y) → (∀ x, ¬TransGen F x x) →
    ∀ x, ¬TransGen (fun x y => F x y ∨ state'.Records x y ∧ ¬state.Records x y) x x
  targets : ∀ x y, state'.Records x y → ¬state.Records x y → IsPrepared declarations state' y
  full : PreparedAreFull declarations state → PreparedAreFull declarations state'

variable {declarations}

omit [DecidableEq C] in
theorem IsPrepared.of_runSpec {state state' : ParentsState C T} {class_ : C}
    (h : IsPrepared declarations state class_) (hrun : RunSpec declarations state state') :
    IsPrepared declarations state' class_ := by
  rcases h with h | h
  · exact .inl (hrun.prepared class_ h)
  · exact .inr h

namespace RunSpec

omit [DecidableEq C] in
theorem of_eq {state state' : ParentsState C T} (hpars : state'.parents = state.parents)
    (hprep : state'.parentsListPrepared = state.parentsListPrepared) :
    RunSpec declarations state state' := by
  have hrecs : state'.Records = state.Records := by
    unfold ParentsState.Records
    rw [hpars]
  constructor
  case grows =>
    intro x y h
    rw [hrecs]
    exact h
  case prepared =>
    intro x h
    rw [hprep]
    exact h
  case acyclic =>
    intro F _ hF x hx
    apply hF x
    apply TransGen.mono _ _ _ hx
    intro y z hyz
    rw [hrecs] at hyz
    exact hyz.resolve_right (fun h => h.2 h.1)
  case targets =>
    intro x y h hnot
    rw [hrecs] at h
    exact absurd h hnot
  case full =>
    intro hfu x hx
    rw [hprep] at hx
    rw [hrecs]
    exact hfu x hx

omit [DecidableEq C] in
theorem trans {state state' st'' : ParentsState C T} (h : RunSpec declarations state state')
    (h' : RunSpec declarations state' st'') : RunSpec declarations state st'' := by
  constructor
  case grows =>
    intro x y hxy
    exact h'.grows x y (h.grows x y hxy)
  case prepared =>
    intro x hx
    exact h'.prepared x (h.prepared x hx)
  case acyclic =>
    intro F hF hacy x hx
    have hfst := h.acyclic F hF hacy
    apply h'.acyclic _ _ hfst x
    · apply TransGen.mono _ _ _ hx
      intro y z hyz
      by_cases hmid : state'.Records y z
      · rcases hyz with hyz | hyz
        · exact .inl (.inl hyz)
        · exact .inl (.inr ⟨hmid, hyz.2⟩)
      · rcases hyz with hyz | hyz
        · exact .inl (.inl hyz)
        · exact .inr ⟨hyz.1, hmid⟩
    · intro y z hyz
      rcases hyz with hyz | hyz
      · exact h.grows y z (hF y z hyz)
      · exact hyz.1
  case targets =>
    intro x y hxy hnot
    by_cases hmid : state'.Records x y
    · exact (h.targets x y hmid hnot).of_runSpec h'
    · exact h'.targets x y hxy hmid
  case full =>
    intro hfu
    exact h'.full (h.full hfu)

end RunSpec

variable {state state' : ParentsState C T} {class_ : C} {fuel : Nat}

theorem RunSpec.of_addParent {prepared : ParentsState C T} {p : C} (hnew : ¬state.Records class_ p)
    (hprep : RunSpec declarations (state.addParent class_ p) prepared)
    (hpar : IsPrepared declarations prepared p)
    (hwk : addAncestorsAccessRights class_ fuel prepared p = some state') :
    RunSpec declarations state state' := by
  obtain ⟨hrts, hacc⟩ := addAncestorsAccessRights_spec class_ fuel prepared state' p hwk
  have hrecs : state'.Records = prepared.Records := by
    unfold ParentsState.Records
    rw [hrts.parents_eq]
  have hgr : ∀ x y, state.Records x y → (state.addParent class_ p).Records x y := by
    intro x y hxy
    rw [records_addParent]
    exact .inl hxy
  have hed : prepared.Records class_ p := by
    apply hprep.grows
    rw [records_addParent]
    exact .inr ⟨rfl, rfl⟩
  -- What a recorded edge that is not old is: the new one, or one of the nested call.
  have hcs : ∀ x y, prepared.Records x y → ¬state.Records x y →
      prepared.Records x y ∧ ¬(state.addParent class_ p).Records x y ∨ x = class_ ∧ y = p := by
    intro x y hxy hnot
    by_cases heq : x = class_ ∧ y = p
    · exact .inr heq
    · refine .inl ⟨hxy, ?_⟩
      rw [records_addParent]
      exact fun h => h.elim hnot heq
  constructor
  case grows =>
    intro x y hxy
    rw [hrecs]
    exact hprep.grows x y (hgr x y hxy)
  case prepared =>
    intro x hx
    rw [hrts.prepared_eq]
    exact hprep.prepared x hx
  case acyclic =>
    intro F hF hacy x hx
    have hfst := hprep.acyclic F (fun y z hyz => hgr y z (hF y z hyz)) hacy
    have hbk : ¬ReflTransGen (fun x y => F x y ∨ prepared.Records x y ∧
        ¬(state.addParent class_ p).Records x y) p class_ := by
      intro hp
      have hp' : ReflTransGen prepared.Records p class_ := by
        apply ReflTransGen.mono _ _ _ hp
        intro y z hyz
        rcases hyz with hyz | hyz
        · exact hprep.grows y z (hgr y z (hF y z hyz))
        · exact hyz.1
      exact not_transGen_of_acc hacc .refl (.tail' hp' hed)
    apply acyclic_insert hfst hbk x
    apply TransGen.mono _ _ _ hx
    intro y z hyz
    rw [hrecs] at hyz
    rcases hyz with hyz | hyz
    · exact .inl (.inl hyz)
    · rcases hcs y z hyz.1 hyz.2 with hnes | heq
      · exact .inl (.inr hnes)
      · exact .inr heq
  case targets =>
    intro x y hxy hnot
    rw [hrecs] at hxy
    unfold IsPrepared
    rw [hrts.prepared_eq]
    rcases hcs x y hxy hnot with hnes | ⟨_, rfl⟩
    · exact hprep.targets x y hnes.1 hnes.2
    · exact hpar
  case full =>
    intro hfu x hx
    rw [hrts.prepared_eq] at hx
    rw [hrecs]
    apply hprep.full _ x hx
    intro y hy z hz
    exact hgr y z (hfu y hy z hz)

variable {prepare : ParentsState C T → C → Option (ParentsState C T)}

theorem prepareParent_spec (hprepare : ∀ state p state', prepare state p = some state' →
      RunSpec declarations state state' ∧ IsPrepared declarations state' p) {n : ResolvedParent C T}
    (h : prepareParent prepare fuel class_ state n = some state') :
    RunSpec declarations state state' ∧ ∀ p, n = .class_ p → state'.Records class_ p := by
  cases n with
  | notTypeName kindName | otherType type =>
    have heq := some.inj h
    subst heq
    exact ⟨.of_eq rfl rfl, fun _ hn => nomatch hn⟩
  | class_ p =>
    rw [prepareParent] at h
    split at h
    next hmem =>
      have heq := some.inj h
      subst heq
      refine ⟨.of_eq rfl rfl, ?_⟩
      intro other ho
      have hsame := ResolvedParent.class_.inj ho
      subst hsame
      exact hmem
    next hnew =>
      obtain ⟨prepared, hprep, hwk⟩ := bind_eq_some_iff.1 h
      obtain ⟨hrun, hpar⟩ := hprepare _ _ _ hprep
      refine ⟨.of_addParent hnew hrun hpar hwk, ?_⟩
      intro other ho
      have hsame := ResolvedParent.class_.inj ho
      subst hsame
      have hrts := (addAncestorsAccessRights_spec class_ fuel _ _ _ hwk).1
      unfold ParentsState.Records
      rw [hrts.parents_eq]
      apply hrun.grows
      rw [records_addParent]
      exact .inr ⟨rfl, rfl⟩

theorem foldlM_prepareParent_spec (hprep : ∀ state p state', prepare state p = some state' →
      RunSpec declarations state state' ∧ IsPrepared declarations state' p) {ns : List (ResolvedParent C T)} :
    ∀ {state state' : ParentsState C T},
      ns.foldlM (prepareParent prepare fuel class_) state = some state' →
      RunSpec declarations state state' ∧ ∀ p, .class_ p ∈ ns → state'.Records class_ p := by
  induction ns with
  | nil =>
    intro state state' h
    have heq : state = state' := some.inj h
    subst heq
    exact ⟨.of_eq rfl rfl, nofun⟩
  | cons name ns ih =>
    intro state state' h
    obtain ⟨next, hnx, hrs⟩ := bind_eq_some_iff.1 h
    obtain ⟨hrun, hrec⟩ := prepareParent_spec hprep hnx
    obtain ⟨hrun', hrec'⟩ := ih hrs
    refine ⟨hrun.trans hrun', ?_⟩
    intro p hmem
    rcases mem_cons.1 hmem with hn | hmem
    · exact hrun'.grows _ _ (hrec p hn.symm)
    · exact hrec' p hmem

/-- The frames of active calls are known by smaller numbers. -/
def FramesBelow (stack : List ThingPtr) : Prop :=
  ∀ frame, ThingPtr.parameter frame ∈ stack → frame < stack.length

theorem FramesBelow.push {stack : List ThingPtr} (h : FramesBelow stack) :
    FramesBelow (stack ++ [.parameter stack.length]) := by
  intro frame hmem
  rw [length_append, length_singleton]
  rcases mem_append.1 hmem with hmem | hmem
  · have hlt := h frame hmem
    omega
  · have heq := ThingPtr.parameter.inj (mem_singleton.1 hmem)
    omega

theorem globalThingDetectloop_eq_none {stack : List ThingPtr} (h : FramesBelow stack) :
    globalThingDetectloop stack (.parameter stack.length) = none := by
  rw [globalThingDetectloop, findIdx?_eq_none_iff]
  intro thing hmem
  rw [decide_eq_false_iff_not]
  intro heq
  rw [heq] at hmem
  have hlt := h _ hmem
  omega

theorem RunSpec.setPrepared (hrun : RunSpec declarations state state')
    (hfu : ∀ p, Declares declarations class_ p → state'.Records class_ p) :
    RunSpec declarations state (state'.setPrepared class_) := by
  have hprep : ∀ x, state'.parentsListPrepared x = true →
      (state'.setPrepared class_).parentsListPrepared x = true := by
    intro x hx
    by_cases hcl : x = class_
    · simp [ParentsState.setPrepared, hcl]
    · simpa [ParentsState.setPrepared, hcl] using hx
  constructor
  case grows => exact hrun.grows
  case prepared =>
    intro x hx
    exact hprep x (hrun.prepared x hx)
  case acyclic => exact hrun.acyclic
  case targets =>
    intro x y hxy hnot
    rcases hrun.targets x y hxy hnot with h | h
    · exact .inl (hprep y h)
    · exact .inr h
  case full =>
    intro hs x hx y hy
    by_cases hcl : x = class_
    · subst hcl
      exact hfu y hy
    · apply hrun.full hs x _ y hy
      simpa [ParentsState.setPrepared, hcl] using hx

theorem globalThingPrepareClassParentsList_spec :
    ∀ (fuel : Nat) {stack : List ThingPtr} {state state' : ParentsState C T} {class_ : C},
      FramesBelow stack →
      globalThingPrepareClassParentsList declarations fuel stack state class_ = some state' →
      RunSpec declarations state state' ∧ IsPrepared declarations state' class_ := by
  intro fuel
  induction fuel with
  | zero =>
    intro stack state state' class_ _ h
    exact absurd h.symm (some_ne_none state')
  | succ fuel ih =>
    intro stack state state' class_ hstk h
    rw [globalThingPrepareClassParentsList] at h
    split at h
    next hprep =>
      have heq := some.inj h
      subst heq
      exact ⟨.of_eq rfl rfl, .inl hprep⟩
    next =>
      cases hns : declarations class_ with
      | none =>
        rw [hns] at h
        have heq := some.inj h
        subst heq
        exact ⟨.of_eq rfl rfl, .inr hns⟩
      | some names =>
        rw [hns] at h
        simp only [globalThingDetectloop_eq_none hstk] at h
        obtain ⟨last, hla, hs'⟩ := map_eq_some_iff.1 h
        subst hs'
        obtain ⟨hrun, hrec⟩ := foldlM_prepareParent_spec (fun _ _ _ => ih hstk.push) hla
        constructor
        · apply hrun.setPrepared
          intro p ⟨names', hns', hmem⟩
          rw [hns] at hns'
          exact hrec p (some.inj hns' ▸ hmem)
        · exact .inl (by simp [setPrepared])

end Runs

end USprache.CodeBuilder
