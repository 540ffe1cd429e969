import USprache.CodeBuilder.VirtualTableLayout

/-!
# Virtual calls

A reference to an ancestor of an object leads to the table the object was set up with for
that ancestor.  A call through it finds the function the class of the object has, if the
number of the field with the functions is taken from the right class.
-/

namespace USprache.CodeBuilder

open LexSynt List Option

variable {S : Type} [DecidableEq S]

/-! ## Ancestors of an object -/

/-- The ancestor that is reached through the parents of these indices. -/
def subobject : PolymorphClass S → List Nat → Option (PolymorphClass S)
  | class_, [] => some class_
  | class_, p :: path => class_.parents[p]?.bind fun parent => subobject parent path

def subobjectOffset : PolymorphClass S → List Nat → Nat
  | _, [] => 0
  | class_, p :: path => parentOffset class_ p +
    match class_.parents[p]? with
    | some parent => subobjectOffset parent path
    | none => 0

def tableOffset : PolymorphClass S → List Nat → Nat
  | _, [] => 0
  | class_, p :: path => subtableOffset class_ p +
    match class_.parents[p]? with
    | some parent => tableOffset parent path
    | none => 0

/-- The struct of a class begins with its first field and has room for its parents. -/
structure LayoutFits (layout : StructLayout) (parents : List (PolymorphClass S)) : Prop where
  zero : layout.elementOffset 0 = 0
  pos : 0 < layout.size
  within : ∀ (i n : Nat) (parent : PolymorphClass S), parents[i]? = some parent →
    (fieldNumbers parents)[i]? = some n →
    layout.elementOffset n + parent.layout.size ≤ layout.size
  apart : ∀ (i j n m : Nat) (parent : PolymorphClass S), parents[i]? = some parent →
    (fieldNumbers parents)[i]? = some n → (fieldNumbers parents)[j]? = some m → n < m →
    layout.elementOffset n + parent.layout.size ≤ layout.elementOffset m

inductive AcceptedClass : PolymorphClass S → Prop
  | mk {kind parents functions layout} : (∀ parent ∈ parents, AcceptedClass parent) →
    -- A parent is an interface, abstract, or not final.
    (∀ parent ∈ parents, parent.kind ≠ .polymorphFinal) →
    -- There is at most one base class, and none for an interface.
    parents.countP PolymorphClass.isBase ≤ 1 →
    (kind = .interface → ∀ parent ∈ parents, parent.kind = .interface) →
    (preparedTable (.mk kind parents functions layout)).errors = [] →
    (kind = .interface → ∀ entry ∈ virtualTable (.mk kind parents functions layout),
      entry.isPure = true ∨ entry.name = Keyword.destructor_.text) →
    (kind = .polymorphNonFinal ∨ kind = .polymorphFinal →
      ∀ entry ∈ virtualTable (.mk kind parents functions layout), entry.isPure = false) →
    LayoutFits layout parents →
    AcceptedClass (.mk kind parents functions layout)

namespace AcceptedClass

variable {class_ parent : PolymorphClass S}

theorem parent_accepted (h : AcceptedClass class_) (hmem : parent ∈ class_.parents) :
    AcceptedClass parent := by
  cases h with
  | mk hpars => exact hpars parent hmem

theorem countP_isBase_le (h : AcceptedClass class_) :
    class_.parents.countP PolymorphClass.isBase ≤ 1 := by
  cases h with
  | mk _ _ hb => exact hb

theorem layoutFits (h : AcceptedClass class_) : LayoutFits class_.layout class_.parents := by
  cases h with
  | mk _ _ _ _ _ _ _ hlay => exact hlay

theorem oneBase (h : AcceptedClass class_) : OneBase class_ := by
  induction h with
  | mk _ _ hb _ _ _ _ _ ih => exact .mk ih hb

theorem subobject_accepted : ∀ {path : List Nat} {class_ ancestor : PolymorphClass S},
    AcceptedClass class_ → subobject class_ path = some ancestor → AcceptedClass ancestor := by
  intro path
  induction path with
  | nil =>
    intro class_ ancestor h hsub
    exact some.inj hsub ▸ h
  | cons p path ih =>
    intro class_ ancestor h hsub
    obtain ⟨parent, hpar, hrs⟩ := bind_eq_some_iff.1 hsub
    exact ih (h.parent_accepted (mem_of_getElem? hpar)) hrs

end AcceptedClass

theorem subobject_cons {class_ ancestor : PolymorphClass S} {p : Nat} {path : List Nat}
    (h : subobject class_ (p :: path) = some ancestor) :
    ∃ parent, class_.parents[p]? = some parent ∧ subobject parent path = some ancestor ∧
      subobjectOffset class_ (p :: path) = parentOffset class_ p + subobjectOffset parent path ∧
      tableOffset class_ (p :: path) = subtableOffset class_ p + tableOffset parent path := by
  obtain ⟨parent, hpar, hrs⟩ := bind_eq_some_iff.1 h
  refine ⟨parent, hpar, hrs, ?_, ?_⟩
  · rw [subobjectOffset, hpar]
  · rw [tableOffset, hpar]

theorem buildClassVirtualTable_subobject (dstT : List (VirtualTableEntry S)) :
    ∀ {path : List Nat} {class_ ancestor : PolymorphClass S} (off : Nat),
      AcceptedClass class_ → subobject class_ path = some ancestor →
      ∃ pre post, buildClassVirtualTable dstT class_ off = pre ++ buildClassVirtualTable dstT ancestor
            (off + subobjectOffset class_ path) ++ post ∧
        pre.length = tableOffset class_ path := by
  intro path
  induction path with
  | nil =>
    intro class_ ancestor off _ hsub
    have heq : class_ = ancestor := some.inj hsub
    subst heq
    exact ⟨[], [], by simp [subobjectOffset], rfl⟩
  | cons p path ih =>
    intro class_ ancestor off h hsub
    obtain ⟨parent, hpar, hrs, hoff, htab⟩ := subobject_cons hsub
    obtain ⟨pre, post, hbd, hpre⟩ := buildClassVirtualTable_parent dstT h.oneBase hpar off
    obtain ⟨pre', post', hbd', hpre'⟩ := ih (off + parentOffset class_ p)
      (h.parent_accepted (mem_of_getElem? hpar)) hrs
    refine ⟨pre ++ pre', post' ++ post, ?_, ?_⟩
    · rw [hbd, hbd', hoff, add_assoc]
      simp only [append_assoc]
    · rw [length_append, hpre, hpre', htab]

variable (class_ : PolymorphClass S)

def parentEntries : List (List (VirtualTableEntry S) × Nat) :=
  (class_.parents.map virtualTable).zip (fieldNumbers class_.parents)

theorem getElem?_parentEntries {class_ : PolymorphClass S} {i : Nat}
    {pT : List (VirtualTableEntry S)} {num : Nat} :
    (parentEntries class_)[i]? = some (pT, num) ↔ (class_.parents[i]?.map virtualTable = some pT ∧
        (fieldNumbers class_.parents)[i]? = some num) := by
  rw [parentEntries, getElem?_zip_eq_some, getElem?_map]

theorem AcceptedClass.tableSpec {class_ : PolymorphClass S} (h : AcceptedClass class_) :
    TableSpec (parentEntries class_) (virtualTable class_) := by
  induction h with
  | @mk kind parents functions layout _ _ hb _ _ _ _ _ ih =>
    rw [virtualTable, preparedTable, preparedTables_eq]
    apply prepareClassVirtualTable_spec
    · intro parent hpar
      obtain ⟨class_, hcl, htab⟩ := mem_map.1 (of_mem_zip hpar).1
      exact htab ▸ (ih class_ hcl).distinct
    · intro i j parent parent' hi hj hz hz'
      obtain ⟨_, hi⟩ := getElem?_zip_eq_some.1 hi
      obtain ⟨_, hj⟩ := getElem?_zip_eq_some.1 hj
      rw [hz] at hi
      rw [hz'] at hj
      exact fieldNumbers_injective hb hi hj

omit [DecidableEq S] in
theorem exists_fieldNumber {class_ parent : PolymorphClass S} {p : Nat}
    (hp : class_.parents[p]? = some parent) :
    (fieldNumbers class_.parents)[p]? = some ((fieldNumbers class_.parents).getD p 0) := by
  have hlt : p < (fieldNumbers class_.parents).length := by
    rw [length_fieldNumbers]
    exact (List.getElem?_eq_some_iff.1 hp).1
  rw [getD_eq_getElem?_getD, getElem?_eq_getElem hlt]
  rfl

theorem AcceptedClass.keysIn_parent {class_ parent : PolymorphClass S} (h : AcceptedClass class_)
    {p : Nat} (hpar : class_.parents[p]? = some parent) :
    KeysIn (virtualTable parent) (inheritedEntries (virtualTable class_)) := by
  have he : (parentEntries class_)[p]? =
      some (virtualTable parent, (fieldNumbers class_.parents).getD p 0) := by
    rw [getElem?_parentEntries, hpar]
    exact ⟨rfl, exists_fieldNumber hpar⟩
  exact h.tableSpec.keys _ (mem_of_getElem? he)

theorem keysIn_subobject : ∀ {path : List Nat} {class_ ancestor : PolymorphClass S},
    AcceptedClass class_ → subobject class_ path = some ancestor →
    KeysIn (virtualTable ancestor) (virtualTable class_) := by
  intro path
  induction path with
  | nil =>
    intro class_ ancestor _ hsub
    have heq : class_ = ancestor := some.inj hsub
    subst heq
    exact KeysIn.refl _
  | cons p path ih =>
    intro class_ ancestor h hsub
    obtain ⟨parent, hpar, hrs, _⟩ := subobject_cons hsub
    have hkeys := ih (h.parent_accepted (mem_of_getElem? hpar)) hrs
    exact hkeys.trans ((h.keysIn_parent hpar).trans (keysIn_inheritedEntries _))

/-! ## The pointers in an object -/

section Memory

theorem loadWord_append (stores stores' : List (Nat × Nat)) (addr : Nat) :
    loadWord (stores ++ stores') addr = (loadWord stores' addr).or (loadWord stores addr) := by
  unfold loadWord
  rw [reverse_append, find?_append, map_or]

theorem loadWord_eq_none {stores : List (Nat × Nat)} {addr : Nat}
    (h : ∀ store ∈ stores, store.1 ≠ addr) : loadWord stores addr = none := by
  unfold loadWord
  rw [map_eq_none_iff, find?_eq_none]
  intro store hsto
  rw [decide_eq_true_eq]
  exact h store (mem_reverse.1 hsto)

def StoresWithin (stores : List (Nat × Nat)) (this size : Nat) : Prop :=
  ∀ store ∈ stores, this ≤ store.1 ∧ store.1 < this + size

theorem mem_setupParents {t : TableType} {layout : StructLayout} {store : Nat × Nat} :
    ∀ {nums : List Nat} {classes : List (PolymorphClass S)} {this ptr k : Nat},
      store ∈ setupParents t layout nums classes this ptr k →
      ∃ i n class_, nums[i]? = some n ∧ classes[i]? = some class_ ∧
        store ∈ setupVirtualTablePointers class_ (this + layout.elementOffset n)
          (createCompositeElementGEP t ptr (if n = 0 then 0
            else k + ((nums.take i).filter (fun num => num ≠ 0)).length)) := by
  intro nums
  induction nums with
  | nil =>
    intro classes this ptr k h
    cases classes <;> cases h
  | cons num nums ih =>
    intro classes this ptr k h
    cases classes with
    | nil => cases h
    | cons class_ classes =>
      rcases mem_append.1 h with h | h
      · exact ⟨0, num, class_, rfl, rfl, by simpa using h⟩
      · obtain ⟨i, n, other, hn, ho, h⟩ := ih h
        refine ⟨i + 1, n, other, hn, ho, ?_⟩
        by_cases hz : num = 0
        · simpa [hz] using h
        · simp only [hz, if_false] at h
          rw [take_succ_cons, filter_cons_of_pos (by simpa using hz)]
          rwa [add_assoc, add_comm 1] at h

variable {class_}

theorem AcceptedClass.stores_within (h : AcceptedClass class_) :
    ∀ this ptr, StoresWithin (setupVirtualTablePointers class_ this ptr) this
      class_.layout.size := by
  induction h with
  | @mk kind parents functions layout _ _ _ _ _ _ _ hlay ih =>
    intro this ptr store hsto
    rcases mem_append.1 hsto with hsto | hsto
    · obtain ⟨i, n, parent, hn, hpar, hsto⟩ := mem_setupParents hsto
      have hwi := ih parent (mem_of_getElem? hpar) _ _ store hsto
      have hsz := hlay.within i n parent hpar hn
      show this ≤ store.1 ∧ store.1 < this + layout.size
      omega
    · split at hsto
      · have heq := mem_singleton.1 hsto
        have hpos := hlay.pos
        show this ≤ store.1 ∧ store.1 < this + layout.size
        rw [heq]
        exact ⟨le_refl _, by omega⟩
      · cases hsto

theorem loadWord_setupParents {t : TableType} {layout : StructLayout} :
    ∀ {nums : List Nat} {classes : List (PolymorphClass S)} {this ptr k p n addr : Nat}
      {class_ : PolymorphClass S}, nums[p]? = some n → classes[p]? = some class_ →
      (∀ (i m : Nat) (other : PolymorphClass S), i ≠ p → nums[i]? = some m →
        classes[i]? = some other → ∀ ptr, ∀ store ∈ setupVirtualTablePointers other
          (this + layout.elementOffset m) ptr, store.1 ≠ addr) →
      loadWord (setupParents t layout nums classes this ptr k) addr =
        loadWord (setupVirtualTablePointers class_ (this + layout.elementOffset n)
          (createCompositeElementGEP t ptr (if n = 0 then 0
            else k + ((nums.take p).filter (fun num => num ≠ 0)).length))) addr := by
  intro nums
  induction nums with
  | nil =>
    intro classes this ptr k p n addr class_ hn
    simp at hn
  | cons num nums ih =>
    intro classes this ptr k p n addr class_ hn hcl hos
    cases classes with
    | nil => simp at hcl
    | cons first classes =>
      rw [setupParents, loadWord_append]
      cases p with
      | zero =>
        have heq : num = n := some.inj hn
        have heq' : first = class_ := some.inj hcl
        subst heq heq'
        have hrs : loadWord (setupParents t layout nums classes this ptr
            (if num = 0 then k else k + 1)) addr = none := by
          apply loadWord_eq_none
          intro store hsto
          obtain ⟨i, m, other, hm, ho, hsto⟩ := mem_setupParents hsto
          exact hos (i + 1) m other (by omega) hm ho _ store hsto
        rw [hrs]
        simp
      | succ p =>
        have hfst : loadWord (setupVirtualTablePointers first
            (this + layout.elementOffset num) (createCompositeElementGEP t ptr
              (if num = 0 then 0 else k))) addr = none :=
          loadWord_eq_none (hos 0 num first (by omega) rfl rfl _)
        rw [hfst, or_none, ih hn hcl (fun i m other hi hm ho =>
          hos (i + 1) m other (by omega) hm ho)]
        by_cases hz : num = 0
        · simp [hz]
        · simp only [take_succ_cons]
          rw [filter_cons_of_pos (by simpa using hz), length_cons]
          congr 3
          split
          · rfl
          · omega

/-- A word in the field of a parent, after the stores for the whole object. -/
theorem AcceptedClass.loadWord_parent {class_ parent : PolymorphClass S}
    (h : AcceptedClass class_) {p : Nat} (hp : class_.parents[p]? = some parent)
    {this ptr addr : Nat} (hge : this + parentOffset class_ p ≤ addr)
    (hlt : addr < this + parentOffset class_ p + parent.layout.size) :
    loadWord (setupVirtualTablePointers class_ this ptr) addr =
      loadWord (setupVirtualTablePointers parent (this + parentOffset class_ p)
        (ptr + subtableOffset class_ p)) addr := by
  have hb := h.countP_isBase_le
  have hlay := h.layoutFits
  have hsto : ∀ other ∈ class_.parents, ∀ this ptr, StoresWithin
      (setupVirtualTablePointers other this ptr) this other.layout.size :=
    fun other ho => (h.parent_accepted ho).stores_within
  obtain ⟨k, ps, fs, layout⟩ := class_
  have hp : ps[p]? = some parent := hp
  have hnum : (fieldNumbers ps)[p]? = some ((fieldNumbers ps).getD p 0) :=
    @exists_fieldNumber S (.mk k ps fs layout) parent p hp
  have hne : ps.isEmpty = false := by
    cases ps with
    | nil => simp at hp
    | cons first rest => rfl
  rw [setupVirtualTablePointers, hne]
  simp only [Bool.false_eq_true, if_false, append_nil]
  rw [loadWord_setupParents hnum hp]
  · rfl
  · -- The fields of two parents are apart from each other.
    intro i m other hi hm ho pointer' store hstore heq
    have hwi := hsto other (mem_of_getElem? ho) _ _ store hstore
    have hdf : m ≠ (fieldNumbers ps).getD p 0 := by
      intro hsame
      rw [hsame] at hm
      exact hi (fieldNumbers_injective hb hm hnum)
    have hge : this + layout.elementOffset ((fieldNumbers ps).getD p 0) ≤ addr := hge
    have hlt : addr < this + layout.elementOffset ((fieldNumbers ps).getD p 0) +
      parent.layout.size := hlt
    rcases Nat.lt_or_gt_of_ne hdf with hless | hgre
    · have hapa : layout.elementOffset m + other.layout.size ≤
          layout.elementOffset ((fieldNumbers ps).getD p 0) :=
        hlay.apart i p m _ other ho hm hnum hless
      omega
    · have hapa : layout.elementOffset ((fieldNumbers ps).getD p 0) + parent.layout.size ≤
          layout.elementOffset m :=
        hlay.apart p i _ m parent hp hnum hm hgre
      omega

theorem createCompositeElementGEP_zero (t : TableType) (ptr : Nat) :
    createCompositeElementGEP t ptr 0 = ptr := by
  cases t with
  | word => rfl
  | array count =>
    simp only [createCompositeElementGEP, TableType.element]
    split <;> rfl
  | struct fs =>
    cases fs with
    | nil => rfl
    | cons field fs => rfl

theorem AcceptedClass.exists_first_parent (h : AcceptedClass class_)
    (hne : class_.parents ≠ []) :
    ∃ z parent, class_.parents[z]? = some parent ∧
      parentOffset class_ z = 0 ∧ subtableOffset class_ z = 0 := by
  obtain ⟨z, hz⟩ := exists_fieldNumbers_zero hne
  have hlt : z < class_.parents.length := by
    rw [← length_fieldNumbers]
    exact (List.getElem?_eq_some_iff.1 hz).1
  have hnum : (fieldNumbers class_.parents).getD z 0 = 0 := by
    rw [getD_eq_getElem?_getD, hz]
    rfl
  refine ⟨z, class_.parents[z], getElem?_eq_getElem hlt, ?_, ?_⟩
  · rw [parentOffset, hnum]
    exact h.layoutFits.zero
  · have hgep := createCompositeElementGEP_zero (tableType class_) 0
    rw [createCompositeElementGEP, zero_add] at hgep
    rw [subtableOffset, subtableFieldIndex, hnum]
    exact hgep

theorem AcceptedClass.loadWord_this (h : AcceptedClass class_) :
    ∀ this ptr, loadWord (setupVirtualTablePointers class_ this ptr) this = some ptr := by
  have hsf := h
  induction h with
  | @mk kind ps functions layout hpars _ _ _ _ _ _ _ ih =>
    intro this ptr
    by_cases hne : ps = []
    · subst hne
      simp [setupVirtualTablePointers, loadWord]
    · obtain ⟨z, parent, hpar, hoff, htab⟩ := hsf.exists_first_parent hne
      have hmem : parent ∈ ps := mem_of_getElem? hpar
      have hpos := (hpars parent hmem).layoutFits.pos
      rw [hsf.loadWord_parent hpar (by rw [hoff]; omega) (by rw [hoff]; omega),
        hoff, htab]
      exact ih parent hmem (hpars parent hmem) this ptr

theorem AcceptedClass.subobjectOffset_lt : ∀ {path : List Nat} {class_ ancestor : PolymorphClass S},
    AcceptedClass class_ → subobject class_ path = some ancestor →
    subobjectOffset class_ path < class_.layout.size := by
  intro path
  induction path with
  | nil =>
    intro class_ ancestor h _
    exact h.layoutFits.pos
  | cons p path ih =>
    intro class_ ancestor h hsub
    obtain ⟨parent, hpar, hrs, hoff, _⟩ := subobject_cons hsub
    have hlt := ih (h.parent_accepted (mem_of_getElem? hpar)) hrs
    have hwi := h.layoutFits.within p _ parent hpar (exists_fieldNumber hpar)
    rw [hoff]
    unfold parentOffset
    omega

theorem AcceptedClass.loadWord_subobject : ∀ {path : List Nat}
    {class_ ancestor : PolymorphClass S} (this ptr : Nat),
    AcceptedClass class_ → subobject class_ path = some ancestor →
    loadWord (setupVirtualTablePointers class_ this ptr)
      (this + subobjectOffset class_ path) = some (ptr + tableOffset class_ path) := by
  intro path
  induction path with
  | nil =>
    intro class_ ancestor this ptr h _
    exact h.loadWord_this this ptr
  | cons p path ih =>
    intro class_ ancestor this ptr h hsub
    obtain ⟨parent, hpar, hrs, hoff, htab⟩ := subobject_cons hsub
    have hacc := h.parent_accepted (mem_of_getElem? hpar)
    have hlt := hacc.subobjectOffset_lt hrs
    rw [hoff, htab, h.loadWord_parent hpar (by omega) (by omega), ← add_assoc, ← add_assoc]
    exact ih _ _ hacc hrs

end Memory

/-! ## The class that declared a function first -/

theorem selectInParent_eq : ∀ {classes : List (PolymorphClass S)} {p : Nat}
    {class_ : PolymorphClass S} (ptr i : Nat), classes[p]? = some class_ →
    selectInParent classes p ptr i = selectSubtable class_ ptr i := by
  intro classes
  induction classes with
  | nil =>
    intro p class_ ptr i h
    simp at h
  | cons first classes ih =>
    intro p class_ ptr i h
    cases p with
    | zero =>
      rw [selectInParent, some.inj h]
    | succ p =>
      exact ih ptr i h

/-- The entry of the class that declared the function of an entry first. -/
structure FirstDeclaredIn (entry : VirtualTableEntry S)
    (path : List Nat) (functionClass : PolymorphClass S) (declared : VirtualTableEntry S) :
    Prop where
  subobject_eq : subobject class_ path = some functionClass
  mem : declared ∈ virtualTable functionClass
  isOwn : declared.isOwn = true
  key_eq : declared.key = entry.key

theorem AcceptedClass.selectSubtable_eq {class_ : PolymorphClass S} (h : AcceptedClass class_) :
    ∀ {i : Nat} {e : VirtualTableEntry S}, (virtualTable class_)[i]? = some e →
      ∃ path fCls decl, FirstDeclaredIn class_ e path fCls decl ∧
        ∀ ptr, selectSubtable class_ ptr i = some (ptr + tableOffset class_ path, fCls, decl) := by
  have hsf := h
  induction h with
  | @mk k ps fs layout hpars _ _ _ _ _ _ _ ih =>
    intro i e he
    cases hpar : e.parentVirtualTableIndex with
    | none =>
      refine ⟨[], .mk k ps fs layout, e, ?_, ?_⟩
      · refine ⟨rfl, mem_of_getElem? he, ?_, rfl⟩
        rw [VirtualTableEntry.isOwn, hpar]
        rfl
      · intro ptr
        rw [selectSubtable, he]
        simp only [hpar]
        rfl
    | some p =>
      obtain ⟨parent, parentEntry, hget, hparE, hkey⟩ :=
        hsf.tableSpec.inherits e (mem_of_getElem? he) p hpar
      obtain ⟨hcl, _⟩ := getElem?_parentEntries.1 hget
      obtain ⟨pCls, hparCl, htab⟩ := map_eq_some_iff.1 hcl
      have hmem := mem_of_getElem? hparCl
      rw [← htab] at hparE
      obtain ⟨path, fCls, decl, hdecl, hsel⟩ := ih pCls hmem (hpars pCls hmem) hparE
      refine ⟨p :: path, fCls, decl, ?_, ?_⟩
      · refine ⟨?_, hdecl.mem, hdecl.isOwn, hdecl.key_eq.trans hkey⟩
        rw [subobject, hparCl]
        exact hdecl.subobject_eq
      · intro ptr
        have hparCl : ps[p]? = some pCls := hparCl
        rw [selectSubtable, he]
        simp only [hpar]
        rw [selectInParent_eq _ _ hparCl, hsel, tableOffset, createCompositeElementGEP,
          add_assoc]
        have heq : (PolymorphClass.mk k ps fs layout).parents[p]? = some pCls := hparCl
        rw [heq]
        rfl

def declaringClass (index : Nat) : Option (PolymorphClass S) :=
  (selectSubtable class_ 0 index).map (fun selected => selected.2.1)

def FieldNumberIsRight (index : Nat) : Prop :=
  ∀ functionClass, declaringClass class_ index = some functionClass →
    functionClass.parents = [] ∨ functionClass.parents.length = class_.parents.length

/-! ## What is called -/

def functionsField : Nat :=
  if class_.parents = [] then 2 else class_.parents.length

theorem AcceptedClass.buildClassVirtualTable_own {class_ : PolymorphClass S}
    (h : AcceptedClass class_) (dstT : List (VirtualTableEntry S)) (off : Nat) :
    ∃ s, buildClassVirtualTable dstT class_ off = s ++ ownFunctions dstT class_ ∧
      (tableType class_).element (functionsField class_) =
        some (s.length, .array (ownFunctionsCount class_)) := by
  have hb := h.countP_isBase_le
  have hsiz : ∀ parent ∈ class_.parents, ∀ off,
      (buildClassVirtualTable dstT parent off).length = (tableType parent).size :=
    fun parent hmem => length_buildClassVirtualTable dstT (h.parent_accepted hmem).oneBase
  obtain ⟨k, ps, fs, layout⟩ := class_
  have hsiz : ∀ parent ∈ ps, ∀ off,
      (buildClassVirtualTable dstT parent off).length = (tableType parent).size := hsiz
  refine ⟨_, buildClassVirtualTable_eq hb dstT off, ?_⟩
  rw [tableType_eq, functionsField, TableType.element]
  by_cases hne : ps = []
  · subst hne
    rfl
  · have hlen : (inTableOrder (parentTypes ps)).length = ps.length := by
      rw [length_inTableOrder, parentTypes, length_map, length_zip_fieldNumbers]
    have hpars : (PolymorphClass.mk k ps fs layout).parents = ps := rfl
    rw [hpars, if_neg hne, if_neg hne, if_neg hne, ← hlen, getElem?_append_right
      (Nat.le_refl _), Nat.sub_self, take_left', length_flatten]
    · rw [map_length_parentTables layout off hsiz, ← sizes_eq]
      rfl
    · rfl

omit [DecidableEq S] in
theorem indexInTable_eq {t : List (VirtualTableEntry S)}
    (hown : ownIndices t = List.range (ownIndices t).length) {i : Nat}
    {e : VirtualTableEntry S}
    (he : (t.filter VirtualTableEntry.isOwn)[i]? = some e) :
    e.indexInTable = i := by
  have hix : (ownIndices t)[i]? = some e.indexInTable := by
    rw [ownIndices, getElem?_map, he]
    rfl
  rw [hown] at hix
  obtain ⟨hlt, hget⟩ := List.getElem?_eq_some_iff.1 hix
  rw [getElem_range] at hget
  exact hget.symm

omit [DecidableEq S] in
theorem getElem?_filter_isOwn {t : List (VirtualTableEntry S)} {e : VirtualTableEntry S}
    (hown : ownIndices t = List.range (ownIndices t).length) (hmem : e ∈ t)
    (he : e.isOwn = true) :
    (t.filter VirtualTableEntry.isOwn)[e.indexInTable]? = some e := by
  obtain ⟨j, hj⟩ := mem_iff_getElem?.1 (mem_filter.2 ⟨hmem, he⟩)
  rw [indexInTable_eq hown hj]
  exact hj

theorem subobject_append : ∀ {path : List Nat} {class_ ancestor : PolymorphClass S}
    (p' : List Nat), subobject class_ path = some ancestor →
    subobject class_ (path ++ p') = subobject ancestor p' ∧
      tableOffset class_ (path ++ p') = tableOffset class_ path + tableOffset ancestor p' := by
  intro path
  induction path with
  | nil =>
    intro class_ ancestor p' h
    have heq : class_ = ancestor := some.inj h
    subst heq
    exact ⟨rfl, (zero_add _).symm⟩
  | cons p path ih =>
    intro class_ ancestor p' h
    obtain ⟨parent, hpar, hrs, _, htab⟩ := subobject_cons h
    obtain ⟨hsub, hoff⟩ := ih p' hrs
    refine ⟨?_, ?_⟩
    · rw [cons_append, subobject, hpar]
      exact hsub
    · rw [cons_append, htab, tableOffset, hpar]
      simp only
      rw [hoff, add_assoc]

theorem AcceptedClass.buildClassVirtualTable_head {class_ : PolymorphClass S}
    (h : AcceptedClass class_) (dstT : List (VirtualTableEntry S)) :
    ∀ off, ∃ r, buildClassVirtualTable dstT class_ off = TableWord.offset off :: TableWord.typeId :: r := by
  have hsf := h
  induction h with
  | @mk kind ps functions layout hpars _ hb _ _ _ _ _ ih =>
    intro off
    by_cases hne : ps = []
    · subst hne
      exact ⟨_, rfl⟩
    · obtain ⟨z, parent, hpar, hoff, htab⟩ := hsf.exists_first_parent hne
      have hmem : parent ∈ ps := mem_of_getElem? hpar
      obtain ⟨pre, post, hbd, hpre⟩ := buildClassVirtualTable_parent dstT hsf.oneBase hpar off
      obtain ⟨r, hrs⟩ := ih parent hmem (hpars parent hmem) off
      rw [htab, length_eq_zero_iff] at hpre
      rw [hoff, add_zero, hrs, hpre] at hbd
      exact ⟨r ++ post, hbd⟩

/-! ## The address of the object -/

theorem AcceptedClass.interface_subobject : ∀ {path : List Nat}
    {class_ ancestor : PolymorphClass S}, AcceptedClass class_ → class_.kind = .interface →
    subobject class_ path = some ancestor → ancestor.kind = .interface := by
  intro path
  induction path with
  | nil =>
    intro class_ ancestor _ hk hsub
    have heq : class_ = ancestor := some.inj hsub
    exact heq ▸ hk
  | cons p path ih =>
    intro class_ ancestor h hk hsub
    obtain ⟨parent, hpar, hrs, _⟩ := subobject_cons hsub
    have hmem := mem_of_getElem? hpar
    refine ih (h.parent_accepted hmem) ?_ hrs
    cases h with
    | mk _ _ _ hint => exact hint hk parent hmem

theorem AcceptedClass.subobjectOffset_eq_zero : ∀ {path : List Nat}
    {class_ ancestor : PolymorphClass S}, AcceptedClass class_ →
    subobject class_ path = some ancestor → ancestor.kind ≠ .interface →
    subobjectOffset class_ path = 0 := by
  intro path
  induction path with
  | nil =>
    intro class_ ancestor _ _ _
    rfl
  | cons p path ih =>
    intro class_ ancestor h hsub hk
    obtain ⟨parent, hpar, hrs, hoff, _⟩ := subobject_cons hsub
    have hacc := h.parent_accepted (mem_of_getElem? hpar)
    have hb : parent.isBase = true := by
      rw [PolymorphClass.isBase, decide_eq_true_eq]
      exact fun hint => hk (hacc.interface_subobject hint hrs)
    have hnum : (fieldNumbers class_.parents)[p]? = some 0 := by
      rw [fieldNumbers, getElem?_fieldNumbersFrom, hpar, map_some, hb, if_pos rfl]
    rw [hoff, ih hacc hrs hk, parentOffset, getD_eq_getElem?_getD, hnum]
    exact h.layoutFits.zero

section Calls

variable {ancestor : PolymorphClass S} {class_} {path : List Nat}

theorem AcceptedClass.correctThis_eq (h : AcceptedClass class_)
    (hsub : subobject class_ path = some ancestor) (dstT : List (VirtualTableEntry S))
    (this : Nat) :
    correctThis (buildClassVirtualTable dstT class_ 0) ancestor (tableOffset class_ path)
      (this + subobjectOffset class_ path) = some this := by
  rw [correctThis]
  split
  next =>
    obtain ⟨pre, post, hbd, hpre⟩ := buildClassVirtualTable_subobject dstT 0 h hsub
    obtain ⟨rest, hhd⟩ := (h.subobject_accepted hsub).buildClassVirtualTable_head dstT
        (0 + subobjectOffset class_ path)
    rw [createCompositeElementGEP_zero, hbd, hhd, ← hpre, append_assoc,
      getElem?_append_right (le_refl _), cons_append]
    simp
  next hk => rw [h.subobjectOffset_eq_zero hsub hk, add_zero]

/-- What a call reads: a word of the table of the class that declared the function first. -/
theorem AcceptedClass.tryFetchVirtualFunction_eq (h : AcceptedClass class_)
    (hsub : subobject class_ path = some ancestor) (dstT : List (VirtualTableEntry S))
    {i : Nat} {p' : List Nat} {fCls : PolymorphClass S}
    {decl : VirtualTableEntry S}
    (hsel : ∀ ptr, selectSubtable ancestor ptr i =
      some (ptr + tableOffset ancestor p', fCls, decl)) (this : Nat) :
    tryFetchVirtualFunction (buildClassVirtualTable dstT class_ 0)
        (setupVirtualTablePointers class_ this 0) ancestor (this + subobjectOffset class_ path)
        i =
      (functionAddress ancestor fCls (tableOffset class_ (path ++ p')) decl.indexInTable).bind fun addr =>
          (buildClassVirtualTable dstT class_ 0)[addr]?.map fun w => (w, this) := by
  rw [tryFetchVirtualFunction, h.loadWord_subobject this 0 hsub, bind_some, hsel,
    bind_some, zero_add, h.correctThis_eq hsub, (subobject_append p' hsub).2]
  congr 1
  funext addr
  cases (buildClassVirtualTable dstT class_ 0)[addr]? with
  | none => rfl
  | some w => rfl

theorem AcceptedClass.getElem?_buildClassVirtualTable (h : AcceptedClass class_)
    (hsub : subobject class_ path = some ancestor) (dstT : List (VirtualTableEntry S))
    {i : Nat} {w : TableWord S}
    (hwd : (buildClassVirtualTable dstT ancestor (subobjectOffset class_ path))[i]? = some w) :
    (buildClassVirtualTable dstT class_ 0)[tableOffset class_ path + i]? = some w := by
  obtain ⟨pre, post, hbd, hpre⟩ := buildClassVirtualTable_subobject dstT 0 h hsub
  rw [zero_add] at hbd
  have hlt := (List.getElem?_eq_some_iff.1 hwd).1
  rw [hbd, append_assoc, ← hpre, getElem?_append_right (Nat.le_add_right _ _),
    Nat.add_sub_cancel_left, getElem?_append_left hlt]
  exact hwd

/-- A function of a table that is new there stands after the words before the functions. -/
theorem AcceptedClass.getElem?_own (h : AcceptedClass class_)
    (dstT : List (VirtualTableEntry S)) (off : Nat) {e : VirtualTableEntry S}
    (hmem : e ∈ virtualTable class_) (hown : e.isOwn = true) :
    ∃ s, (tableType class_).element (functionsField class_) =
        some (s, .array (ownFunctionsCount class_)) ∧
      e.indexInTable < ownFunctionsCount class_ ∧
      (buildClassVirtualTable dstT class_ off)[s + e.indexInTable]? =
        some (.function (functionFor dstT e)) := by
  obtain ⟨s, hbd, hel⟩ := h.buildClassVirtualTable_own dstT off
  have hget := getElem?_filter_isOwn h.tableSpec.own hmem hown
  refine ⟨s.length, hel, (List.getElem?_eq_some_iff.1 hget).1, ?_⟩
  rw [hbd, getElem?_append_right (Nat.le_add_right _ _), Nat.add_sub_cancel_left,
    ownFunctions, getElem?_map, hget]
  rfl

end Calls

end USprache.CodeBuilder
