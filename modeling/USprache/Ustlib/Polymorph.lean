import USprache.CodeBuilder.TypeIdTables
import USprache.CodeBuilder.VirtualCalls

/-!
# Dynamic type information

The functions of the library for polymorph classes read the first two words of the virtual
table that an object points to, and the type id tables.  They find the complete object of a
reference to any of its ancestors, its class, and its ancestors.
-/

namespace USprache.Ustlib.Polymorph

open CodeBuilder List Option

variable {S : Type} [DecidableEq S]

def offsetOfAllocatedObject (p : TablePointer S) : Option Nat :=
  match (virtualTableWords p.class_)[p.word]? with
  | some (.offset offset) => some offset
  | _ => none

variable (address : PolymorphClass S → Nat)

def typeIdTable (p : TablePointer S) : Option Nat :=
  match (virtualTableWords p.class_)[p.word + 1]? with
  | some .typeId => some (address p.class_)
  | _ => none

def polymorphRestoreOriginalRef (memory : List (PointerStore S)) (ref : Nat) : Option Nat := do
  let p ← loadPointer memory ref
  let offset ← offsetOfAllocatedObject p
  some (ref - offset)

def polymorphIsSameType (memory : List (PointerStore S))
    (a b : Nat) : Option Bool := do
  let p ← loadPointer memory a
  let q ← loadPointer memory b
  let idA ← typeIdTable address p
  let idB ← typeIdTable address q
  some (idA == idB)

/-- The loop of `polymorph_cast_r`.  A result without a value means that no call returned. -/
def castLoop (cast : Nat → Nat → Option (Option Nat)) (ptr : Nat) :
    List TypeIdTableElement → Option (Option Nat)
  | [] => none
  | element :: elements =>
    match element.parentTypeIdTable with
    | none => some none
    | some parent => do
      match ← cast (ptr + element.parentOffset) parent with
      | some result => some (some result)
      | none => castLoop cast ptr elements

/-- `polymorph_cast_r`, for a bounded depth of calls.  The result is a null pointer if it has
no value. -/
def polymorphCastR (memory : Nat → List TypeIdTableElement) (dst : Nat) :
    Nat → Nat → Nat → Option (Option Nat)
  | 0, _, _ => none
  | depth + 1, ptr, table =>
    if table = dst then some (some ptr)
    else castLoop (polymorphCastR memory dst depth) ptr (memory table)

variable (T : TypeIdTables S)

/-- `polymorph_cast` to a class that the type of the reference does not derive from. -/
def polymorphCast (memory : List (PointerStore S)) (dst : PolymorphClass S)
    (depth ref : Nat) : Option (Option Nat) := do
  let p ← loadPointer memory ref
  let table ← typeIdTable T.address p
  let offset ← offsetOfAllocatedObject p
  polymorphCastR T.memory (T.address dst) depth (ref - offset) table

def Elsewhere (class_ : PolymorphClass S) (this : Nat) (store : PointerStore S) : Prop :=
  store.1 < this ∨ this + class_.layout.size ≤ store.1

/-- The constructor of the class has stored the pointers of an object, and nothing has changed
them since. -/
inductive Constructed (class_ : PolymorphClass S) (this : Nat) : List (PointerStore S) → Prop
  | mk (earlier later : List (PointerStore S)) : (∀ store ∈ later, Elsewhere class_ this store) →
    Constructed class_ this (earlier ++ storeVirtualTablePointers class_ this ++ later)

def IsConcrete (class_ : PolymorphClass S) : Prop :=
  class_.kind ≠ .interface ∧ class_.kind ≠ .abstract

variable {class_ ancestor : PolymorphClass S} {path : List Nat} {this : Nat}
  {memory : List (PointerStore S)}

theorem Constructed.loadPointer_eq (hmem : Constructed class_ this memory)
    (h : AcceptedClass class_) (hcon : IsConcrete class_)
    (hsub : subobject class_ path = some ancestor) :
    loadPointer memory (this + subobjectOffset class_ path) =
      some { class_ := class_, word := tableOffset class_ path } := by
  cases hmem with
  | mk earlier later hlater =>
    have hlt := h.subobjectOffset_lt hsub
    have hno : loadPointer later (this + subobjectOffset class_ path) = none := by
      apply loadPointer_eq_none
      intro store hsto
      have hels := hlater store hsto
      unfold Elsewhere at hels
      omega
    rw [loadPointer_append, hno, loadPointer_append,
      loadPointer_storeVirtualTablePointers hcon, h.loadWord_subobject this 0 hsub,
      zero_add]
    rfl

theorem offsetOfAllocatedObject_eq (h : AcceptedClass class_)
    (hsub : subobject class_ path = some ancestor) :
    offsetOfAllocatedObject { class_ := class_, word := tableOffset class_ path } =
      some (subobjectOffset class_ path) := by
  unfold offsetOfAllocatedObject
  rw [(h.words_subobject hsub).1]

theorem typeIdTable_eq (addr : PolymorphClass S → Nat) (h : AcceptedClass class_)
    (hsub : subobject class_ path = some ancestor) :
    typeIdTable addr { class_ := class_, word := tableOffset class_ path } = some (addr class_) := by
  unfold typeIdTable
  rw [(h.words_subobject hsub).2]

def LeadsBack (this : Nat) (store : PointerStore S) : Prop :=
  ∃ offset, store.1 = this + offset ∧ offsetOfAllocatedObject store.2 = some offset

theorem leadsBack_storeVirtualTablePointers (h : AcceptedClass class_) {store : PointerStore S}
    (hsto : store ∈ storeVirtualTablePointers class_ this) : LeadsBack this store := by
  rw [storeVirtualTablePointers] at hsto
  split at hsto
  · cases hsto
  · obtain ⟨word, hwd, rfl⟩ := mem_map.1 hsto
    obtain ⟨path, ancestor, hsub, rfl⟩ := h.mem_setupVirtualTablePointers hwd
    refine ⟨subobjectOffset class_ path, rfl, ?_⟩
    rw [zero_add]
    exact offsetOfAllocatedObject_eq h hsub

/-- A destructor of a base class stores pointers that lead to the beginning of the base class,
and this is the beginning of the object. -/
theorem leadsBack_destructorStores (h : AcceptedClass class_) {isWritten : PolymorphClass S → Bool}
    {store : PointerStore S} (hsto : store ∈ destructorStores isWritten class_ this) :
    LeadsBack this store := by
  obtain ⟨path, ancestor, hsub, hsto⟩ := mem_destructorStores hsto
  have hlea := leadsBack_storeVirtualTablePointers (h.subobject_accepted hsub) hsto
  by_cases hk : ancestor.kind = .interface
  · rw [storeVirtualTablePointers, if_pos (.inl hk)] at hsto
    cases hsto
  · rwa [h.subobjectOffset_eq_zero hsub hk] at hlea

/-- What was stored into the object after its construction: pointers that destructors of its
classes have stored. -/
def DuringDestruction (isWritten : PolymorphClass S → Bool) (class_ : PolymorphClass S)
    (this : Nat) (later : List (PointerStore S)) : Prop :=
  ∀ store ∈ later, Elsewhere class_ this store ∨ store ∈ destructorStores isWritten class_ this

theorem Constructed.restore_eq (hmem : Constructed class_ this memory)
    (h : AcceptedClass class_) (hcon : IsConcrete class_)
    (hsub : subobject class_ path = some ancestor) {isWritten : PolymorphClass S → Bool}
    {later : List (PointerStore S)} (hlater : DuringDestruction isWritten class_ this later) :
    polymorphRestoreOriginalRef (memory ++ later) (this + subobjectOffset class_ path) =
      some this := by
  suffices hld : ∃ p, loadPointer (memory ++ later) (this + subobjectOffset class_ path) =
      some p ∧ offsetOfAllocatedObject p = some (subobjectOffset class_ path) by
    obtain ⟨p, hp, hoff⟩ := hld
    unfold polymorphRestoreOriginalRef
    rw [hp]
    show (offsetOfAllocatedObject p >>= _) = _
    rw [hoff]
    show some (this + subobjectOffset class_ path - subobjectOffset class_ path) = _
    rw [Nat.add_sub_cancel]
  rw [loadPointer_append]
  cases hfd : loadPointer later (this + subobjectOffset class_ path) with
  | none =>
    rw [hmem.loadPointer_eq h hcon hsub]
    exact ⟨_, rfl, offsetOfAllocatedObject_eq h hsub⟩
  | some p =>
    -- The last store into the word is of a destructor.
    have hlt := h.subobjectOffset_lt hsub
    rcases hlater _ (mem_of_loadPointer hfd) with hels | hsto
    · unfold Elsewhere at hels
      omega
    · obtain ⟨off, had, hoff⟩ := leadsBack_destructorStores h hsto
      obtain rfl : subobjectOffset class_ path = off := add_left_cancel had
      exact ⟨p, rfl, hoff⟩

theorem isSameType_eq (hcl : T.classes class_)
    (hcon : IsConcrete class_) (hmem : Constructed class_ this memory)
    (hsub : subobject class_ path = some ancestor) {cls' ancestor' : PolymorphClass S}
    {p' : List Nat} {this' : Nat} (hcl' : T.classes cls') (hcon' : IsConcrete cls')
    (hmem' : Constructed cls' this' memory) (hsub' : subobject cls' p' = some ancestor') :
    ∃ same, polymorphIsSameType T.address memory (this + subobjectOffset class_ path)
        (this' + subobjectOffset cls' p') = some same ∧ (same = true ↔ class_ = cls') := by
  have h := T.accepted class_ hcl
  have h' := T.accepted cls' hcl'
  refine ⟨T.address class_ == T.address cls', ?_, ?_⟩
  · unfold polymorphIsSameType
    rw [hmem.loadPointer_eq h hcon hsub, hmem'.loadPointer_eq h' hcon' hsub']
    show (typeIdTable T.address _ >>= fun _ => typeIdTable T.address _ >>= _) = _
    rw [typeIdTable_eq T.address h hsub, typeIdTable_eq T.address h' hsub']
    rfl
  · rw [beq_iff_eq]
    exact ⟨T.address_injective class_ cls' hcl hcl', fun heq => by rw [heq]⟩

omit [DecidableEq S] in
theorem mem_collectInitializers {α : Type} {ps : List (α × Nat)} {x : α} :
    ∀ {vs : List α}, x ∈ collectInitializers ps vs ↔ x ∈ vs ∨ ∃ n, (x, n) ∈ ps := by
  induction ps with
  | nil =>
    intro vs
    rw [collectInitializers]
    constructor
    · exact .inl
    · rintro (h | ⟨n, h⟩)
      · exact h
      · cases h
  | cons p ps ih =>
    intro vs
    obtain ⟨v, num⟩ := p
    have hmem : x ∈ (if num = 0 then v :: vs else vs ++ [v]) ↔ x = v ∨ x ∈ vs := by
      split
      · exact mem_cons
      · rw [mem_append, mem_singleton]
        exact or_comm
    rw [collectInitializers, ih, hmem]
    constructor
    · rintro ((rfl | h) | ⟨n, h⟩)
      · exact .inr ⟨num, mem_cons_self⟩
      · exact .inl h
      · exact .inr ⟨n, mem_cons_of_mem _ h⟩
    · rintro (h | ⟨n, h⟩)
      · exact .inl (.inr h)
      · rcases mem_cons.1 h with h | h
        · exact .inl (.inl (Prod.ext_iff.1 h).1)
        · exact .inr ⟨n, h⟩

def parentElements (class_ : PolymorphClass S) :
    List TypeIdTableElement :=
  collectInitializers (((fieldNumbers class_.parents).zip class_.parents).map fun pair =>
    ({ parentOffset := class_.layout.elementOffset pair.1
       parentTypeIdTable := some (address pair.2) }, pair.1)) []

omit [DecidableEq S] in
theorem mem_parentElements {addr : PolymorphClass S → Nat} {el : TypeIdTableElement} :
    el ∈ parentElements addr class_ ↔ ∃ p parent, class_.parents[p]? = some parent ∧
      el = { parentOffset := parentOffset class_ p, parentTypeIdTable := some (addr parent) } := by
  have hnum : ∀ {p parent}, class_.parents[p]? = some parent →
      (fieldNumbers class_.parents)[p]? = some ((fieldNumbers class_.parents).getD p 0) :=
    fun hp => exists_fieldNumber hp
  rw [parentElements, mem_collectInitializers]
  constructor
  · rintro (h | ⟨n, h⟩)
    · cases h
    · obtain ⟨⟨number, parent⟩, hpr, heq⟩ := mem_map.1 h
      obtain ⟨p, hp⟩ := mem_iff_getElem?.1 hpr
      obtain ⟨hn, hpar⟩ := getElem?_zip_eq_some.1 hp
      refine ⟨p, parent, hpar, ?_⟩
      rw [hnum hpar] at hn
      rw [parentOffset, some.inj hn]
      exact (Prod.ext_iff.1 heq).1.symm
  · rintro ⟨p, parent, hpar, rfl⟩
    refine .inr ⟨(fieldNumbers class_.parents).getD p 0, mem_map.2
      ⟨((fieldNumbers class_.parents).getD p 0, parent), ?_, rfl⟩⟩
    exact mem_of_getElem? (getElem?_zip_eq_some.2 ⟨hnum hpar, hpar⟩)

structure CastsTo (class_ dst : PolymorphClass S) (ptr : Nat) (result : Option Nat) : Prop where
  none_of : result = none → ∀ path, subobject class_ path ≠ some dst
  some_of : ∀ address, result = some address → ∃ path, subobject class_ path = some dst ∧
    address = ptr + subobjectOffset class_ path

/-- A cast in the tables of the class returns the right result, if the depth suffices. -/
def Casts (dst class_ : PolymorphClass S) (minDepth : Nat) : Prop :=
  ∀ depth, minDepth ≤ depth → ∀ ptr, ∃ result,
    polymorphCastR T.memory (T.address dst) depth ptr (T.address class_) = some result ∧
      CastsTo class_ dst ptr result

variable {dst : PolymorphClass S}

theorem Casts.mono {T : TypeIdTables S} {m n : Nat} (hle : m ≤ n)
    (h : Casts T dst class_ m) : Casts T dst class_ n :=
  fun dep hdep => h dep (le_trans hle hdep)

variable {cast : Nat → Nat → Option (Option Nat)}

theorem castLoop_returns {ptr : Nat}
    {P : TypeIdTableElement → Option Nat → Prop} (elements : List TypeIdTableElement)
    (h : ∀ el ∈ elements, ∃ p, el.parentTypeIdTable = some p ∧
      ∃ r, cast (ptr + el.parentOffset) p = some r ∧ P el r) :
    ∃ r, castLoop cast ptr (elements ++ [{ parentOffset := 0, parentTypeIdTable := none }]) = some r ∧
      (r = none → ∀ el ∈ elements, P el none) ∧
      ∀ addr, r = some addr → ∃ el ∈ elements, P el (some addr) := by
  induction elements with
  | nil =>
    refine ⟨none, rfl, ?_, ?_⟩
    · intro _ el hmem
      cases hmem
    · intro addr heq
      cases heq
  | cons el elements ih =>
    obtain ⟨p, hpar, first, hfst, hP⟩ := h el mem_cons_self
    rw [cons_append, castLoop, hpar]
    simp only [hfst]
    cases first with
    | some addr =>
      refine ⟨some addr, rfl, ?_, ?_⟩
      · intro heq
        cases heq
      · intro address' heq
        obtain rfl := some.inj heq
        exact ⟨el, mem_cons_self, hP⟩
    | none =>
      obtain ⟨r, hlp, hno, hsm⟩ := ih fun other ho => h other (mem_cons_of_mem _ ho)
      refine ⟨r, hlp, ?_, ?_⟩
      · intro heq other ho
        rcases mem_cons.1 ho with rfl | ho
        · exact hP
        · exact hno heq other ho
      · intro addr heq
        obtain ⟨other, ho, hP'⟩ := hsm addr heq
        exact ⟨other, mem_cons_of_mem _ ho, hP'⟩

theorem castLoop_mono {cast' : Nat → Nat → Option (Option Nat)}
    (hcast : ∀ ptr t r, cast ptr t = some r → cast' ptr t = some r)
    {ptr : Nat} {elements : List TypeIdTableElement} {r : Option Nat}
    (h : castLoop cast ptr elements = some r) : castLoop cast' ptr elements = some r := by
  induction elements with
  | nil => cases h
  | cons el elements ih =>
    rw [castLoop] at h ⊢
    cases hpar : el.parentTypeIdTable with
    | none =>
      rw [hpar] at h
      exact h
    | some parent =>
      rw [hpar] at h
      obtain ⟨first, hfst, hrs⟩ := bind_eq_some_iff.1 h
      refine bind_eq_some_iff.2 ⟨first, hcast _ _ _ hfst, ?_⟩
      cases first with
      | some address => exact hrs
      | none => exact ih hrs

theorem polymorphCastR_succ {memory : Nat → List TypeIdTableElement} {dst dep : Nat} :
    ∀ ptr t r, polymorphCastR memory dst dep ptr t = some r →
      polymorphCastR memory dst (dep + 1) ptr t = some r := by
  induction dep with
  | zero =>
    intro ptr t r h
    cases h
  | succ dep ih =>
    intro ptr t r h
    rw [polymorphCastR] at h ⊢
    split
    · rename_i heq
      rwa [if_pos heq] at h
    · rename_i hne
      rw [if_neg hne] at h
      exact castLoop_mono ih h

theorem polymorphCastR_mono {memory : Nat → List TypeIdTableElement} {dst dep dep' : Nat}
    (hle : dep ≤ dep') {ptr t : Nat} {r : Option Nat}
    (h : polymorphCastR memory dst dep ptr t = some r) :
    polymorphCastR memory dst dep' ptr t = some r := by
  induction hle with
  | refl => exact h
  | step _ ih => exact polymorphCastR_succ _ _ _ ih

theorem casts_of_parents (hcl : T.classes class_)
    (hdst : T.classes dst) {n : Nat} (hpars : ∀ parent ∈ class_.parents, Casts T dst parent n) :
    Casts T dst class_ (n + 1) := by
  intro depth hdep ptr
  obtain ⟨depth, rfl⟩ : ∃ d, depth = d + 1 := ⟨depth - 1, by omega⟩
  rw [polymorphCastR]
  by_cases hsame : T.address class_ = T.address dst
  · rw [if_pos hsame]
    have heq := T.address_injective class_ dst hcl hdst hsame
    refine ⟨some ptr, rfl, ?_, ?_⟩
    · intro h
      cases h
    · intro address h
      obtain rfl := some.inj h
      exact ⟨[], congrArg some heq, rfl⟩
  rw [if_neg hsame, T.memory_address class_ hcl]
  -- Each element gives the result for one parent.
  obtain ⟨result, hlp, hno, hsm⟩ := @castLoop_returns
    (polymorphCastR T.memory (T.address dst) depth) ptr
    (fun element result => ∀ p parent, class_.parents[p]? = some parent →
      element = { parentOffset := parentOffset class_ p
                  parentTypeIdTable := some (T.address parent) } →
      CastsTo parent dst (ptr + parentOffset class_ p) result)
    (parentElements T.address class_) (by
      intro element hmem
      obtain ⟨p, parent, hp, rfl⟩ := mem_parentElements.1 hmem
      have hpar := mem_of_getElem? hp
      obtain ⟨result, hcast, hr⟩ := hpars parent hpar depth (by omega) (ptr + parentOffset class_ p)
      refine ⟨T.address parent, rfl, result, hcast, ?_⟩
      intro p' parent' hp' heq
      obtain ⟨hoff, had⟩ := TypeIdTableElement.mk.inj heq
      have heqPar := T.address_injective parent parent' (T.parents class_ hcl parent hpar)
        (T.parents class_ hcl parent' (mem_of_getElem? hp')) (some.inj had)
      rw [← hoff, ← heqPar]
      exact hr)
  refine ⟨result, hlp, ?_, ?_⟩
  · intro heq path hsub
    cases path with
    | nil =>
      have hsf : class_ = dst := some.inj hsub
      exact hsame (congrArg T.address hsf)
    | cons p path =>
      obtain ⟨parent, hp, hrs⟩ := bind_eq_some_iff.1 hsub
      have hmem : { parentOffset := parentOffset class_ p
                    parentTypeIdTable := some (T.address parent) } ∈
          parentElements T.address class_ := mem_parentElements.2 ⟨p, parent, hp, rfl⟩
      exact (hno heq _ hmem p parent hp rfl).none_of rfl path hrs
  · intro address heq
    obtain ⟨element, hmem, hP⟩ := hsm address heq
    obtain ⟨p, parent, hp, rfl⟩ := mem_parentElements.1 hmem
    obtain ⟨path, hsub, had⟩ := (hP p parent hp rfl).some_of address rfl
    refine ⟨p :: path, ?_, ?_⟩
    · rw [subobject, hp]
      exact hsub
    · rw [had, subobjectOffset, hp, add_assoc]

theorem exists_casts (hdst : T.classes dst) :
    T.classes class_ → ∃ n, Casts T dst class_ n := by
  induction class_ using PolymorphClass.induction with
  | h kind parents functions layout ih =>
    intro hcl
    have hmono : ∀ (p : PolymorphClass S) m n, m ≤ n → Casts T dst p m →
        Casts T dst p n := fun _ _ _ hle => Casts.mono hle
    obtain ⟨n, hn⟩ := Library.exists_common_fuel hmono
      (fun p hmem => ih p hmem (T.parents _ hcl p hmem))
    exact ⟨n + 1, casts_of_parents T hcl hdst hn⟩

theorem polymorphCast_eq (hcl : T.classes class_)
    (hcon : IsConcrete class_) (hmem : Constructed class_ this memory)
    (hsub : subobject class_ path = some ancestor) {dst : PolymorphClass S} (dep : Nat) :
    polymorphCast T memory dst dep (this + subobjectOffset class_ path) =
      polymorphCastR T.memory (T.address dst) dep this (T.address class_) := by
  have h := T.accepted class_ hcl
  unfold polymorphCast
  rw [hmem.loadPointer_eq h hcon hsub]
  show (typeIdTable T.address _ >>= fun _ => offsetOfAllocatedObject _ >>= _) = _
  rw [typeIdTable_eq T.address h hsub, offsetOfAllocatedObject_eq h hsub]
  show polymorphCastR T.memory (T.address dst) dep
    (this + subobjectOffset class_ path - subobjectOffset class_ path) (T.address class_) = _
  rw [Nat.add_sub_cancel]

/-- What the functions of the library find out about an object of a class through a reference to
one of its ancestors. -/
structure Exact (memory : List (PointerStore S)) (class_ : PolymorphClass S)
    (this : Nat) (path : List Nat) : Prop where
  /-- The complete object is found, also during the destruction of the object and after it. -/
  restores : ∀ isWritten later, DuringDestruction isWritten class_ this later →
    polymorphRestoreOriginalRef (memory ++ later) (this + subobjectOffset class_ path) = some this
  /-- Types are the same if the complete objects are of the same class. -/
  comparesTypes : ∀ class' this' path' ancestor', T.classes class' → IsConcrete class' →
    Constructed class' this' memory → subobject class' path' = some ancestor' →
    ∃ same, polymorphIsSameType T.address memory (this + subobjectOffset class_ path)
      (this' + subobjectOffset class' path') = some same ∧ (same = true ↔ class_ = class')
  /-- A cast returns, and its result refers to an ancestor in this object, if there is one. -/
  casts : ∀ dst, T.classes dst → ∃ minDepth result,
    (∀ depth, minDepth ≤ depth → polymorphCast T memory dst depth
      (this + subobjectOffset class_ path) = some result) ∧
    (result ≠ none ↔ ∃ path, subobject class_ path = some dst) ∧
    ∀ address, result = some address → ∃ path, subobject class_ path = some dst ∧
      address = this + subobjectOffset class_ path

theorem dynamicTypes_exact {class_ ancestor : PolymorphClass S}
    {path : List Nat} {this : Nat} {memory : List (PointerStore S)} (hclass : T.classes class_)
    (hconcrete : IsConcrete class_) (hmemory : Constructed class_ this memory)
    (hsub : subobject class_ path = some ancestor) : Exact T memory class_ this path where
  restores _ _ hlater := hmemory.restore_eq (T.accepted class_ hclass) hconcrete hsub hlater
  comparesTypes _ _ _ _ hclass' hconcrete' hmemory' hsub' :=
    isSameType_eq T hclass hconcrete hmemory hsub hclass' hconcrete' hmemory' hsub'
  casts dst hdst := by
    obtain ⟨minDepth, hcasts⟩ := exists_casts T hdst hclass
    obtain ⟨result, hresult, hright⟩ := hcasts minDepth (le_refl _) this
    refine ⟨minDepth, result, ?_, ?_, hright.some_of⟩
    · intro depth hdepth
      rw [polymorphCast_eq T hclass hconcrete hmemory hsub]
      exact polymorphCastR_mono hdepth hresult
    · constructor
      · intro hne
        obtain ⟨address, haddress⟩ := ne_none_iff_exists'.1 hne
        obtain ⟨path', hpath', -⟩ := hright.some_of address haddress
        exact ⟨path', hpath'⟩
      · rintro ⟨path', hpath'⟩ heq
        exact hright.none_of heq path' hpath'

/-- The address of a type id table is the number of the first function of the class. -/
def firstFunctionAddress (class_ : PolymorphClass Nat) : Nat :=
  (class_.functions.map (·.llvmFunction)).headD 0

/-- A class, its base class and the two interfaces of that. -/
def hierarchyTables : TypeIdTables Nat where
  classes class_ := class_ = oneParentClass ∨ class_ = twoParentsClass ∨
    class_ = firstInterface ∨ class_ = secondInterface
  accepted := by
    rintro _ (rfl | rfl | rfl | rfl)
    · exact oneParentClass_accepted
    · exact twoParentsClass_accepted
    · exact firstInterface_accepted
    · exact secondInterface_accepted
  parents := by
    rintro _ (rfl | rfl | rfl | rfl) parent hparent
    · exact .inr (.inl (mem_singleton.1 hparent))
    · rcases mem_cons.1 hparent with h | h
      · exact .inr (.inr (.inl h))
      · exact .inr (.inr (.inr (mem_singleton.1 h)))
    · cases hparent
    · cases hparent
  address := firstFunctionAddress
  memory
    | 5 => buildPolymorphClassTypeId firstFunctionAddress oneParentClass
    | 3 => buildPolymorphClassTypeId firstFunctionAddress twoParentsClass
    | 1 => buildPolymorphClassTypeId firstFunctionAddress firstInterface
    | _ => buildPolymorphClassTypeId firstFunctionAddress secondInterface
  memory_address := by
    rintro _ (rfl | rfl | rfl | rfl) <;> rfl
  address_injective := by
    rintro _ _ (rfl | rfl | rfl | rfl) (rfl | rfl | rfl | rfl) h
    all_goals first | rfl | exact absurd h (by decide)

/-- A reference to the second interface of an object at address 100. -/
theorem dynamicTypes_exact_secondInterface :
    Exact hierarchyTables ([] ++ storeVirtualTablePointers oneParentClass 100 ++ []) oneParentClass
      100 [0, 1] :=
  dynamicTypes_exact hierarchyTables (.inl rfl) ⟨by decide, by decide⟩
    (.mk [] [] nofun) (rfl : _ = some secondInterface)

end USprache.Ustlib.Polymorph
