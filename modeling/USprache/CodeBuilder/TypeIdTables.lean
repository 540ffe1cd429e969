import USprache.CodeBuilder.VirtualDispatch

/-!
# Type id tables

The address of the type id table of a class stands in its virtual table, behind the offset.
The table lists the parents of the class: the offsets of their fields and the addresses of
their own tables.  What identifies a class at run time is the address of its table.

The virtual table pointers of an object are stored by its constructor.  The destructors of
its base classes store pointers to their own virtual tables.
-/

namespace USprache.CodeBuilder

open List Option

variable {S : Type} [DecidableEq S]

/-- `polymorph_type_id_table_element_type_`. -/
structure TypeIdTableElement where
  parentOffset : Nat
  parentTypeIdTable : Option Nat

/-- `BuildPolymorphClassTypeId`, given the addresses of the tables. -/
def buildPolymorphClassTypeId (address : PolymorphClass S → Nat) (class_ : PolymorphClass S) :
    List TypeIdTableElement :=
  let numbers := fieldNumbers class_.parents
  collectInitializers ((numbers.zip class_.parents).map fun pair =>
      ({ parentOffset := class_.layout.elementOffset pair.1
         parentTypeIdTable := some (address pair.2) }, pair.1)) [] ++
    -- Put null terminator.
    [{ parentOffset := 0, parentTypeIdTable := none }]

/-- The classes of a program and their type id tables.  Each class has a destructor of its own,
so different classes are different here. -/
structure TypeIdTables (S : Type) [DecidableEq S] where
  classes : PolymorphClass S → Prop
  accepted : ∀ class_, classes class_ → AcceptedClass class_
  parents : ∀ class_, classes class_ → ∀ parent ∈ class_.parents, classes parent
  address : PolymorphClass S → Nat
  memory : Nat → List TypeIdTableElement
  memory_address : ∀ class_, classes class_ →
    memory (address class_) = buildPolymorphClassTypeId address class_
  address_injective : ∀ class_ other, classes class_ → classes other →
    address class_ = address other → class_ = other

def virtualTableWords (class_ : PolymorphClass S) : List (TableWord S) :=
  buildClassVirtualTable (virtualTable class_) class_ 0

structure TablePointer (S : Type) where
  class_ : PolymorphClass S
  word : Nat

abbrev PointerStore (S : Type) := Nat × TablePointer S

omit [DecidableEq S] in
def loadPointer (memory : List (PointerStore S)) (address : Nat) : Option (TablePointer S) :=
  (memory.reverse.find? fun store => decide (store.1 = address)).map (fun store => store.2)

/-- `SetupVirtualTablePointers`. -/
def storeVirtualTablePointers (class_ : PolymorphClass S) (this : Nat) : List (PointerStore S) :=
  -- Such kinds of classes have no virtual tables.
  if class_.kind = .interface ∨ class_.kind = .abstract then []
  else (setupVirtualTablePointers class_ this 0).map fun store =>
    (store.1, { class_ := class_, word := store.2 })

mutual

/-- The stores of a destructor.  `isWritten` tells of which classes the destructor is not
generated: such a destructor begins with the pointers to the tables of its class. -/
def destructorStores (isWritten : PolymorphClass S → Bool) :
    PolymorphClass S → Nat → List (PointerStore S)
  | .mk kind parents functions layout, this =>
    (if isWritten (.mk kind parents functions layout) then
      storeVirtualTablePointers (.mk kind parents functions layout) this else []) ++
    callParentsDestructors isWritten layout (fieldNumbers parents) parents this

/-- `CallMembersDestructors`, for the parents. -/
def callParentsDestructors (isWritten : PolymorphClass S → Bool) (layout : StructLayout) :
    List Nat → List (PolymorphClass S) → Nat → List (PointerStore S)
  | number :: numbers, class_ :: classes, this =>
    destructorStores isWritten class_ (this + layout.elementOffset number) ++
      callParentsDestructors isWritten layout numbers classes this
  | _, _, _ => []

end

variable {class_ : PolymorphClass S}

/-- The table of an ancestor tells the offset of the ancestor in the object. -/
theorem AcceptedClass.words_subobject {ancestor : PolymorphClass S} {p : List Nat}
    (h : AcceptedClass class_) (hsub : subobject class_ p = some ancestor) :
    (virtualTableWords class_)[tableOffset class_ p]? = some (.offset (subobjectOffset class_ p)) ∧
      (virtualTableWords class_)[tableOffset class_ p + 1]? = some .typeId := by
  obtain ⟨rest, hst⟩ := (h.subobject_accepted hsub).buildClassVirtualTable_head
    (virtualTable class_) (subobjectOffset class_ p)
  refine ⟨?_, ?_⟩
  · exact h.getElem?_buildClassVirtualTable hsub (virtualTable class_) (i := 0)
      (by rw [hst, getElem?_cons_zero])
  · exact h.getElem?_buildClassVirtualTable hsub (virtualTable class_) (i := 1)
      (by rw [hst, getElem?_cons_succ, getElem?_cons_zero])

theorem AcceptedClass.mem_setupVirtualTablePointers
    (h : AcceptedClass class_) {store : Nat × Nat} : ∀ {this ptr : Nat},
    store ∈ setupVirtualTablePointers class_ this ptr →
    ∃ path ancestor, subobject class_ path = some ancestor ∧
      store = (this + subobjectOffset class_ path, ptr + tableOffset class_ path) := by
  induction h with
  | @mk k ps fs layout hpars _ hb _ _ _ _ _ ih =>
    intro this ptr hsto
    rcases mem_append.1 hsto with hsto | hsto
    · obtain ⟨i, n, p, hn, hpar, hsto⟩ := mem_setupParents hsto
      obtain ⟨path, ancestor, hsub, hsto⟩ := ih p (mem_of_getElem? hpar) hsto
      have hnum : (fieldNumbers ps).getD i 0 = n := by
        rw [getD_eq_getElem?_getD, hn]
        rfl
      have hpar : (PolymorphClass.mk k ps fs layout).parents[i]? = some p := hpar
      refine ⟨i :: path, ancestor, ?_, ?_⟩
      · rw [subobject, hpar]
        exact hsub
      · rw [hsto, subobjectOffset, tableOffset, hpar]
        rw [← Nat.add_assoc, ← Nat.add_assoc]
        refine Prod.ext ?_ ?_
        · show _ = this + layout.elementOffset ((fieldNumbers ps).getD i 0) + _
          rw [hnum]
        · show _ = ptr + subtableOffset _ i + _
          rw [← hnum]
          rfl
    · split at hsto
      · exact ⟨[], _, rfl, mem_singleton.1 hsto⟩
      · cases hsto

section

omit [DecidableEq S]

theorem loadPointer_append (mem later : List (PointerStore S)) (addr : Nat) :
    loadPointer (mem ++ later) addr = (loadPointer later addr).or (loadPointer mem addr) := by
  unfold loadPointer
  rw [reverse_append, find?_append, map_or]

theorem loadPointer_eq_none {mem : List (PointerStore S)} {addr : Nat}
    (h : ∀ store ∈ mem, store.1 ≠ addr) : loadPointer mem addr = none := by
  unfold loadPointer
  rw [map_eq_none_iff, find?_eq_none]
  intro store hsto
  rw [decide_eq_true_eq]
  exact h store (mem_reverse.1 hsto)

theorem mem_of_loadPointer {mem : List (PointerStore S)} {addr : Nat} {p : TablePointer S}
    (h : loadPointer mem addr = some p) : (addr, p) ∈ mem := by
  obtain ⟨store, hfd, rfl⟩ := map_eq_some_iff.1 h
  have had := find?_some hfd
  rw [decide_eq_true_eq] at had
  rw [← had]
  exact mem_reverse.1 (mem_of_find?_eq_some hfd)

end

/-- What is loaded is what was stored, as a pointer into the table of the class. -/
theorem loadPointer_storeVirtualTablePointers
    (hk : class_.kind ≠ .interface ∧ class_.kind ≠ .abstract) (this addr : Nat) :
    loadPointer (storeVirtualTablePointers class_ this) addr =
      (loadWord (setupVirtualTablePointers class_ this 0) addr).map fun word =>
        { class_ := class_, word := word } := by
  have hno : ¬(class_.kind = .interface ∨ class_.kind = .abstract) := not_or.2 hk
  rw [storeVirtualTablePointers, if_neg hno]
  unfold loadPointer loadWord
  rw [← map_reverse, find?_map, Option.map_map, Option.map_map]
  rfl

theorem mem_callParentsDestructors {isWritten : PolymorphClass S → Bool} {layout : StructLayout}
    {store : PointerStore S} :
    ∀ {nums : List Nat} {classes : List (PolymorphClass S)} {this : Nat},
      store ∈ callParentsDestructors isWritten layout nums classes this →
      ∃ (i n : Nat) (class_ : PolymorphClass S), nums[i]? = some n ∧ classes[i]? = some class_ ∧
        store ∈ destructorStores isWritten class_ (this + layout.elementOffset n) := by
  intro nums
  induction nums with
  | nil =>
    intro classes this h
    cases classes <;> cases h
  | cons num nums ih =>
    intro classes this h
    cases classes with
    | nil => cases h
    | cons class_ classes =>
      rcases mem_append.1 h with h | h
      · exact ⟨0, num, class_, rfl, rfl, h⟩
      · obtain ⟨i, n, other, hn, ho, h⟩ := ih h
        exact ⟨i + 1, n, other, hn, ho, h⟩

theorem mem_destructorStores {isWritten : PolymorphClass S → Bool} {store : PointerStore S} :
    ∀ {this : Nat}, store ∈ destructorStores isWritten class_ this →
    ∃ path ancestor, subobject class_ path = some ancestor ∧
      store ∈ storeVirtualTablePointers ancestor (this + subobjectOffset class_ path) := by
  induction class_ using PolymorphClass.induction with
  | h k ps fs layout ih =>
    intro this hsto
    rcases mem_append.1 hsto with hsto | hsto
    · split at hsto
      · exact ⟨[], _, rfl, hsto⟩
      · cases hsto
    · obtain ⟨i, n, p, hn, hpar, hsto⟩ := mem_callParentsDestructors hsto
      obtain ⟨path, ancestor, hsub, hsto⟩ := ih p (mem_of_getElem? hpar) hsto
      have hnum : (fieldNumbers ps).getD i 0 = n := by
        rw [getD_eq_getElem?_getD, hn]
        rfl
      have hpar : (PolymorphClass.mk k ps fs layout).parents[i]? = some p := hpar
      refine ⟨i :: path, ancestor, ?_, ?_⟩
      · rw [subobject, hpar]
        exact hsub
      · rw [subobjectOffset, hpar]
        show store ∈ storeVirtualTablePointers ancestor
          (this + (layout.elementOffset ((fieldNumbers ps).getD i 0) + _))
        rwa [hnum, ← Nat.add_assoc]

end USprache.CodeBuilder
