import USprache.CodeBuilder.VirtualDispatch

/-!
# Which function a virtual call finds

A call finds the function that the class of the object has if the number of the field with
the functions is right.  If it is wrong, there is no such field, or it is that of a table of a
parent, and what is read there is another word.
-/

namespace USprache.CodeBuilder

open LexSynt List Nat TableType

variable {S : Type} [DecidableEq S]

/-- A call through a reference to an ancestor of an object of the class finds what the table
of the class has for the function, and passes the address of the object. -/
def CallsFinalOverrider (class_ ancestor : PolymorphClass S) (path : List Nat)
    (this index : Nat) (entry : VirtualTableEntry S) : Prop :=
  ∃ dstEntry, (virtualTable class_).find? (fun e => decide (e.key = entry.key)) = some dstEntry ∧
    tryFetchVirtualFunction (buildClassVirtualTable (virtualTable class_) class_ 0)
        (setupVirtualTablePointers class_ this 0) ancestor (this + subobjectOffset class_ path)
        index =
      some (.function dstEntry.functionVariable, this)

section Overriders

variable {class_ ancestor : PolymorphClass S} {path : List Nat}

theorem AcceptedClass.functionFor_eq (h : AcceptedClass class_)
    (hsub : subobject class_ path = some ancestor) {entry : VirtualTableEntry S}
    (he : entry ∈ virtualTable ancestor) :
    ∃ dstE ∈ virtualTable class_, dstE.key = entry.key ∧
      (virtualTable class_).find? (fun e => decide (e.key = entry.key)) = some dstE ∧
      functionFor (virtualTable class_) entry = dstE.functionVariable := by
  obtain ⟨other, ho, hkey⟩ := keysIn_subobject h hsub entry he
  cases hfd : (virtualTable class_).find? (fun e => decide (e.key = entry.key)) with
  | none =>
    have hnot := find?_eq_none.1 hfd other ho
    exact absurd (decide_eq_true hkey) hnot
  | some dstE =>
    have hdec := find?_some hfd
    have hfound : dstE.key = entry.key := of_decide_eq_true hdec
    refine ⟨dstE, mem_of_find?_eq_some hfd, hfound, rfl, ?_⟩
    rw [functionFor, hfd]

theorem AcceptedClass.key_eq_of_function_eq (h : AcceptedClass class_)
    {e e' : VirtualTableEntry S} (he : e ∈ virtualTable class_)
    (he' : e' ∈ virtualTable class_)
    (heq : e.functionVariable = e'.functionVariable) : e.key = e'.key := by
  have hns := h.tableSpec.distinct.names
  rw [VirtualTableEntry.key, VirtualTableEntry.key, ← hns e he, ← hns e' he', heq]

theorem AcceptedClass.key_ne_of_isOwn (h : AcceptedClass class_) {parent : PolymorphClass S}
    (hpar : parent ∈ class_.parents) {e declared : VirtualTableEntry S}
    (he : e ∈ virtualTable parent) (hdecl : declared ∈ virtualTable class_)
    (hown : declared.isOwn = true) : e.key ≠ declared.key := by
  intro hkey
  obtain ⟨p, hp⟩ := mem_iff_getElem?.1 hpar
  obtain ⟨inherited, hinh, hsame⟩ := h.keysIn_parent hp e he
  obtain ⟨hmem, hnot⟩ := mem_filter.1 hinh
  have heq := inj_on_of_nodup_map h.tableSpec.distinct.nodup hmem hdecl (hsame.trans hkey)
  rw [heq, hown] at hnot
  cases hnot

end Overriders

/-! ## Words of a table -/

def orderedParents (parents : List (PolymorphClass S)) : List (Nat × PolymorphClass S) :=
  inTableOrder (((fieldNumbers parents).zip parents).map fun pair => (pair, pair.1))

section Words

variable {class_ : PolymorphClass S}

omit [DecidableEq S] in
theorem length_orderedParents (ps : List (PolymorphClass S)) :
    (orderedParents ps).length = ps.length := by
  rw [orderedParents, length_inTableOrder, length_map, length_zip_fieldNumbers]

variable {i : Nat}

omit [DecidableEq S] in
theorem exists_orderedParent {ps : List (PolymorphClass S)}
    (h : i < ps.length) : ∃ p, (orderedParents ps)[i]? = some p := by
  rw [← length_orderedParents] at h
  exact ⟨_, getElem?_eq_getElem h⟩

omit [DecidableEq S] in
theorem mem_orderedParents {ps : List (PolymorphClass S)} {p : Nat × PolymorphClass S}
    (h : p ∈ orderedParents ps) : p.2 ∈ ps := by
  have hzip : p ∈ (fieldNumbers ps).zip ps := by
    rw [orderedParents, inTableOrder] at h
    rcases mem_append.1 h with h | h
    all_goals
      obtain ⟨x, hx, rfl⟩ := mem_map.1 h
      obtain ⟨y, hy, rfl⟩ := mem_map.1 (mem_filter.1 hx).1
      exact hy
  exact (of_mem_zip hzip).2

theorem AcceptedClass.table_of_parents (h : AcceptedClass class_) (hne : class_.parents ≠ [])
    (dstT : List (VirtualTableEntry S)) (off : Nat) :
    buildClassVirtualTable dstT class_ off =
        ((orderedParents class_.parents).map fun p => buildClassVirtualTable dstT p.2
          (off + class_.layout.elementOffset p.1)).flatten ++
        ownFunctions dstT class_ ∧
      tableType class_ = .struct (((orderedParents class_.parents).map fun p =>
        tableType p.2) ++ [.array (ownFunctionsCount class_)]) := by
  have hb := h.countP_isBase_le
  obtain ⟨kind, ps, functions, layout⟩ := class_
  have hne : ps ≠ [] := hne
  have hb : ps.countP PolymorphClass.isBase ≤ 1 := hb
  rw [buildClassVirtualTable_eq hb, if_neg hne, tableType_eq, if_neg hne]
  refine ⟨?_, ?_⟩
  · rw [orderedParents, map_inTableOrder, map_map]
    rfl
  · rw [orderedParents, map_inTableOrder, map_map]
    rfl

theorem getElem?_flatten_add {α : Type} {lists : List (List α)} {m e : Nat} {l : List α}
    {x : α} (hlist : lists[m]? = some l) (hx : l[e]? = some x) :
    lists.flatten[((lists.take m).map List.length).sum + e]? = some x := by
  have hlt := (List.getElem?_eq_some_iff.1 hx).1
  rw [flatten_split hlist, append_assoc, ← length_flatten,
    getElem?_append_right (le_add_right _ _), Nat.add_sub_cancel_left,
    getElem?_append_left hlt]
  exact hx

theorem AcceptedClass.sum_length_take (h : AcceptedClass class_)
    (dstT : List (VirtualTableEntry S)) (off m : Nat) :
    ((((orderedParents class_.parents).map fun p => buildClassVirtualTable dstT p.2
      (off + class_.layout.elementOffset p.1)).take m).map List.length).sum =
      sizes (((orderedParents class_.parents).map fun p => tableType p.2).take m) := by
  rw [sizes_eq, ← map_take, ← map_take, map_map, map_map]
  congr 1
  apply map_congr_left
  intro p hpr
  have hmem := mem_orderedParents (mem_of_mem_take hpr)
  exact length_buildClassVirtualTable dstT (h.parent_accepted hmem).oneBase _

theorem table_of_no_parents (hno : class_.parents = [])
    (dstT : List (VirtualTableEntry S)) (off : Nat) :
    buildClassVirtualTable dstT class_ off = .offset off :: .typeId :: ownFunctions dstT class_ ∧
      tableType class_ = .struct [.word, .word, .array (ownFunctionsCount class_)] := by
  cases class_
  subst hno
  exact ⟨rfl, rfl⟩

theorem AcceptedClass.getElem?_parentTable (h : AcceptedClass class_) {m e : Nat}
    {p : Nat × PolymorphClass S} (hpr : (orderedParents class_.parents)[m]? = some p)
    (dstT : List (VirtualTableEntry S)) (off : Nat) {w : TableWord S}
    (hwd : (buildClassVirtualTable dstT p.2 (off + class_.layout.elementOffset p.1))[e]? = some w) :
    (buildClassVirtualTable dstT class_ off)[sizes
      (((orderedParents class_.parents).map fun p => tableType p.2).take m) + e]? = some w := by
  have hne : class_.parents ≠ [] := ne_nil_of_mem (mem_orderedParents (mem_of_getElem? hpr))
  have htab : ((orderedParents class_.parents).map fun p => buildClassVirtualTable dstT
      p.2 (off + class_.layout.elementOffset p.1))[m]? = some (buildClassVirtualTable
        dstT p.2 (off + class_.layout.elementOffset p.1)) := by
    rw [getElem?_map, hpr]
    rfl
  have hget := getElem?_flatten_add htab hwd
  rw [h.sum_length_take] at hget
  rw [(h.table_of_parents hne dstT off).1,
    getElem?_append_left (List.getElem?_eq_some_iff.1 hget).1]
  exact hget

theorem AcceptedClass.element_of_parents (h : AcceptedClass class_) (hne : class_.parents ≠ [])
    {el : Nat × TableType} (hi : i ≠ class_.parents.length)
    (hel : (tableType class_).element i = some el) :
    ∃ p, (orderedParents class_.parents)[i]? = some p ∧ el = (sizes
        (((orderedParents class_.parents).map fun p => tableType p.2).take i), tableType p.2) := by
  rw [(h.table_of_parents hne [] 0).2] at hel
  obtain ⟨field, hfl, heq⟩ := Option.map_eq_some_iff.1 hel
  have hlen : ((orderedParents class_.parents).map fun p => tableType p.2).length =
      class_.parents.length := by
    rw [length_map, length_orderedParents]
  have hlt : i < class_.parents.length := by
    have hle := (List.getElem?_eq_some_iff.1 hfl).1
    rw [length_append, hlen] at hle
    have hle : i < class_.parents.length + 1 := hle
    omega
  obtain ⟨p, hpr⟩ := exists_orderedParent hlt
  refine ⟨p, hpr, ?_⟩
  rw [getElem?_append_left (hlen ▸ hlt), getElem?_map, hpr] at hfl
  rw [take_append_of_le_length (hlen ▸ le_of_lt hlt)] at heq
  rw [← heq, ← Option.some.inj hfl]

theorem sizes_append (fs fs' : List TableType) : sizes (fs ++ fs') = sizes fs + sizes fs' := by
  rw [sizes_eq, sizes_eq, sizes_eq, map_append, sum_append_nat]

theorem sizes_take_succ {fs : List TableType} {f : TableType} (h : fs[i]? = some f) :
    sizes (fs.take (i + 1)) = sizes (fs.take i) + f.size := by
  rw [take_add_one, h, sizes_append]
  rfl

theorem sizes_take_le (fs : List TableType) (i : Nat) : sizes (fs.take i) ≤ sizes fs := by
  conv_rhs => rw [← take_append_drop i fs, sizes_append]
  exact le_add_right _ _

def IsNoFunction (word : Option (TableWord S)) : Prop :=
  ∀ function, word ≠ some (.function function)

theorem AcceptedClass.element_cases (h : AcceptedClass class_)
    (dstT : List (VirtualTableEntry S)) (off : Nat) {e : Nat} {t : TableType}
    (hel : (tableType class_).element i = some (e, t)) :
    (i = functionsField class_ ∧
        e + ownFunctionsCount class_ = (buildClassVirtualTable dstT class_ off).length ∧
        ∀ j, (buildClassVirtualTable dstT class_ off)[e + j]? = (ownFunctions dstT class_)[j]?) ∨
      (e < (buildClassVirtualTable dstT class_ off).length ∧
        IsNoFunction (buildClassVirtualTable dstT class_ off)[e]?) := by
  by_cases hi : i = functionsField class_
  · obtain ⟨s, hbd, hfl⟩ := h.buildClassVirtualTable_own dstT off
    rw [hi, hfl] at hel
    have he : s.length = e := congrArg Prod.fst (Option.some.inj hel)
    subst he
    refine .inl ⟨hi, ?_, ?_⟩
    · rw [hbd, length_append, length_ownFunctions]
    · intro j
      rw [hbd, getElem?_append_right (le_add_right _ _), Nat.add_sub_cancel_left]
  · right
    by_cases hne : class_.parents = []
    · obtain ⟨hbd, hty⟩ := table_of_no_parents hne dstT off
      rw [functionsField, if_pos hne] at hi
      rw [hty] at hel
      rw [hbd]
      rcases i with _ | _ | _ | i
      · have he : 0 = e := congrArg Prod.fst (Option.some.inj hel)
        subst he
        refine ⟨succ_pos _, ?_⟩
        intro f hwd
        simp at hwd
      · have he : 1 = e := congrArg Prod.fst (Option.some.inj hel)
        subst he
        refine ⟨succ_lt_succ (succ_pos _), ?_⟩
        intro f hwd
        simp at hwd
      · exact absurd rfl hi
      · cases hel
    · rw [functionsField, if_neg hne] at hi
      obtain ⟨p, hpr, heq⟩ := h.element_of_parents hne hi hel
      obtain ⟨rfl, _⟩ := Prod.mk.inj heq
      have hmem := mem_orderedParents (mem_of_getElem? hpr)
      obtain ⟨rest, hhd⟩ := (h.parent_accepted hmem).buildClassVirtualTable_head dstT
        (off + class_.layout.elementOffset p.1)
      have hwd := h.getElem?_parentTable hpr dstT off (by rw [hhd]; exact getElem?_cons_zero)
      rw [add_zero] at hwd
      refine ⟨(List.getElem?_eq_some_iff.1 hwd).1, ?_⟩
      intro f hfn
      rw [hwd] at hfn
      simp at hfn

/-- The words after the tables of parents are functions that are new in the class. -/
theorem AcceptedClass.getElem?_after_parents (h : AcceptedClass class_)
    (hne : class_.parents ≠ []) (dstT : List (VirtualTableEntry S)) (off j : Nat) :
    (buildClassVirtualTable dstT class_ off)[sizes
      (((orderedParents class_.parents).map fun p => tableType p.2).take
        class_.parents.length) + j]? = (ownFunctions dstT class_)[j]? := by
  have hsum := h.sum_length_take dstT off class_.parents.length
  rw [(h.table_of_parents hne dstT off).1, ← hsum, take_of_length_le,
    ← length_flatten, getElem?_append_right (le_add_right _ _),
    Nat.add_sub_cancel_left]
  rw [length_map, length_orderedParents]

end Words

/-! ## Wrong fields -/

section WrongField

variable {functionClass : PolymorphClass S} {declared : VirtualTableEntry S}

omit [DecidableEq S] in
theorem functionsField_pos (class_ : PolymorphClass S) : 0 < functionsField class_ := by
  rw [functionsField]
  split
  next => exact succ_pos 1
  next hne => exact length_pos_iff.2 hne

theorem AcceptedClass.wrong_field_lt (h : AcceptedClass functionClass)
    (hmem : declared ∈ virtualTable functionClass) (hown : declared.isOwn = true)
    (hne : functionClass.parents ≠ []) {m : Nat} (hm : m ≠ functionClass.parents.length)
    (dstT : List (VirtualTableEntry S)) (off : Nat) {fs el : Nat × TableType}
    (hfns : (tableType functionClass).element m = some fs)
    (hel : fs.2.element declared.indexInTable = some el) :
    fs.1 + el.1 < (buildClassVirtualTable dstT functionClass off).length := by
  obtain ⟨p, hpr, rfl⟩ := h.element_of_parents hne hm hfns
  have hacc := h.parent_accepted (mem_orderedParents (mem_of_getElem? hpr))
  have hc : 0 < ownFunctionsCount functionClass := lt_of_le_of_lt (zero_le _)
      (List.getElem?_eq_some_iff.1 (getElem?_filter_isOwn h.tableSpec.own hmem hown)).1
  have hle : el.1 ≤ (tableType p.2).size := by
    rw [← length_buildClassVirtualTable dstT hacc.oneBase off]
    rcases hacc.element_cases dstT off hel with ⟨_, hlen, _⟩ | ⟨hlt, _⟩
    · omega
    · exact le_of_lt hlt
  have hfl : ((orderedParents functionClass.parents).map fun p => tableType p.2)[m]? =
      some (tableType p.2) := by
    rw [getElem?_map, hpr]
    rfl
  have hsp := sizes_take_succ hfl
  have htk := sizes_take_le ((orderedParents functionClass.parents).map fun p =>
    tableType p.2) (m + 1)
  have hla : sizes [.array (ownFunctionsCount functionClass)] =
    ownFunctionsCount functionClass := rfl
  rw [length_buildClassVirtualTable dstT h.oneBase, (h.table_of_parents hne dstT off).2,
    TableType.size, sizes_append]
  omega

/-- A word that is read with a wrong field number is no function, or a function for another
key. -/
theorem AcceptedClass.wrong_field (h : AcceptedClass functionClass)
    (hmem : declared ∈ virtualTable functionClass) (hown : declared.isOwn = true)
    (hne : functionClass.parents ≠ []) {m : Nat} (hm : m ≠ functionClass.parents.length)
    (dstT : List (VirtualTableEntry S)) (off : Nat) {fs el : Nat × TableType}
    (hfns : (tableType functionClass).element m = some fs)
    (hel : fs.2.element declared.indexInTable = some el)
    {f : FunctionVariable S}
    (hwd : (buildClassVirtualTable dstT functionClass off)[fs.1 + el.1]? = some (.function f)) :
    ∃ path ancestor other, subobject functionClass path = some ancestor ∧
      other ∈ virtualTable ancestor ∧ other.key ≠ declared.key ∧
      f = functionFor dstT other := by
  -- The field is the table of a parent.
  obtain ⟨pr, hpr, rfl⟩ := h.element_of_parents hne hm hfns
  have hpar := mem_orderedParents (mem_of_getElem? hpr)
  have hacc := h.parent_accepted hpar
  obtain ⟨p, hp⟩ := mem_iff_getElem?.1 hpar
  have hrds : ∀ {w}, (buildClassVirtualTable dstT pr.2
      (off + functionClass.layout.elementOffset pr.1))[el.1]? = some w → w = .function f := by
    intro w hparWd
    have hget := h.getElem?_parentTable hpr dstT off hparWd
    rw [hwd] at hget
    exact (Option.some.inj hget).symm
  rcases hacc.element_cases dstT (off + functionClass.layout.elementOffset pr.1)
    hel with ⟨hix, hlen, hfnsOf⟩ | ⟨hless, hno⟩
  · by_cases hc : ownFunctionsCount pr.2 = 0
    · -- There is the table of the next parent, or the first function that is new in the class.
      have hend : sizes
          (((orderedParents functionClass.parents).map fun pr => tableType pr.2).take m) +
          el.1 = sizes (((orderedParents functionClass.parents).map fun pr =>
            tableType pr.2).take (m + 1)) := by
        rw [hc, add_zero, length_buildClassVirtualTable dstT hacc.oneBase] at hlen
        rw [hlen, sizes_take_succ]
        rw [getElem?_map, hpr]
        rfl
      have hpos : 0 < declared.indexInTable := by
        rw [hix]
        exact functionsField_pos pr.2
      rw [hend] at hwd
      by_cases hnx : m + 1 < functionClass.parents.length
      · obtain ⟨p', hpr'⟩ := exists_orderedParent hnx
        obtain ⟨rest, hhd⟩ := (h.parent_accepted (mem_orderedParents
          (mem_of_getElem? hpr'))).buildClassVirtualTable_head dstT
            (off + functionClass.layout.elementOffset p'.1)
        have hget := h.getElem?_parentTable hpr' dstT off (by rw [hhd]; exact getElem?_cons_zero)
        rw [add_zero, hwd] at hget
        simp at hget
      · have hlt : m < functionClass.parents.length := by
          rw [← length_orderedParents]
          exact (List.getElem?_eq_some_iff.1 hpr).1
        have hla : m + 1 = functionClass.parents.length := by omega
        have hget := h.getElem?_after_parents hne dstT off 0
        rw [← hla, add_zero, hwd, ownFunctions, getElem?_map] at hget
        obtain ⟨other, ho, hfn⟩ := Option.map_eq_some_iff.1 hget.symm
        have hfn := TableWord.function.inj hfn
        obtain ⟨hmem', hown'⟩ := mem_filter.1 (mem_of_getElem? ho)
        refine ⟨[], functionClass, other, rfl, hmem', ?_, hfn.symm⟩
        intro hkey
        have heq := inj_on_of_nodup_map h.tableSpec.distinct.nodup hmem' hmem hkey
        have hz : other.indexInTable = 0 := indexInTable_eq h.tableSpec.own ho
        rw [← heq, hz] at hpos
        exact lt_irrefl 0 hpos
    · -- It is the first function that is new in the parent.
      obtain ⟨other, ho⟩ : ∃ other,
          ((virtualTable pr.2).filter VirtualTableEntry.isOwn)[0]? = some other :=
        ⟨_, getElem?_eq_getElem (pos_of_ne_zero hc)⟩
      have hfst := hfnsOf 0
      rw [ownFunctions, getElem?_map, ho] at hfst
      have heq := TableWord.function.inj (hrds hfst)
      have hmem' := (mem_filter.1 (mem_of_getElem? ho)).1
      refine ⟨[p], pr.2, other, ?_, hmem', h.key_ne_of_isOwn hpar hmem' hmem hown, heq.symm⟩
      rw [subobject, hp]
      rfl
  · exact absurd (hrds (getElem?_eq_getElem hless) ▸ getElem?_eq_getElem hless) (hno f)

end WrongField

/-! ## The final overrider -/

section FinalOverrider

variable {class_ ancestor : PolymorphClass S} {path : List Nat}

theorem AcceptedClass.callsFinalOverrider (h : AcceptedClass class_)
    (hsub : subobject class_ path = some ancestor) {i : Nat} {e : VirtualTableEntry S}
    (he : (virtualTable ancestor)[i]? = some e) (this : Nat)
    (hr : FieldNumberIsRight ancestor i) :
    CallsFinalOverrider class_ ancestor path this i e := by
  obtain ⟨p', functionClass, declared, hdecl, hsel⟩ :=
    (h.subobject_accepted hsub).selectSubtable_eq he
  obtain ⟨hsubo, _⟩ := subobject_append p' hsub
  have hfnCl := hsubo.trans hdecl.subobject_eq
  obtain ⟨dstE, _, hkey, hfd, hfn⟩ := h.functionFor_eq hfnCl hdecl.mem
  rw [hdecl.key_eq] at hfd
  refine ⟨dstE, hfd, ?_⟩
  rw [h.tryFetchVirtualFunction_eq hsub _ hsel]
  obtain ⟨s, hel, hlt, hwd⟩ := (h.subobject_accepted hfnCl).getElem?_own (virtualTable class_)
      (subobjectOffset class_ (path ++ p')) hdecl.mem hdecl.isOwn
  have hfl : (if functionClass.parents.isEmpty then 2 else ancestor.parents.length) =
      functionsField functionClass := by
    rw [functionsField]
    rcases hr functionClass (by rw [declaringClass, hsel]; rfl) with hno | heq
    · rw [hno]
      rfl
    · rw [heq]
      cases functionClass.parents with
      | nil => rfl
      | cons first rest => rfl
  have had : functionAddress ancestor functionClass (tableOffset class_ (path ++ p'))
      declared.indexInTable =
        some (tableOffset class_ (path ++ p') + (s + declared.indexInTable)) := by
    rw [functionAddress, hfl, hel, Option.bind_some, element, if_pos hlt, Option.map_some,
      add_assoc]
  rw [had, Option.bind_some, h.getElem?_buildClassVirtualTable hfnCl _ hwd, hfn]
  rfl

/-- For every accepted class, ancestor and function, a call through the ancestor finds the
final overrider if and only if the class that declared the function first has no parents or
as many as the ancestor. -/
theorem callsFinalOverrider_iff (h : AcceptedClass class_)
    (hsub : subobject class_ path = some ancestor) {index : Nat} {entry : VirtualTableEntry S}
    (hentry : (virtualTable ancestor)[index]? = some entry) (this : Nat) :
    CallsFinalOverrider class_ ancestor path this index entry ↔
      FieldNumberIsRight ancestor index := by
  constructor
  · rintro ⟨dstEntry, hfind, hfetch⟩ functionClass hclass
    obtain ⟨path', functionClass', declared, hdeclared, hselect⟩ :=
      (h.subobject_accepted hsub).selectSubtable_eq hentry
    rw [declaringClass, hselect] at hclass
    have hsame : functionClass' = functionClass := Option.some.inj hclass
    subst hsame
    by_contra hwrong
    push Not at hwrong
    obtain ⟨hne, hlength⟩ := hwrong
    have hfunctionClass := (subobject_append path' hsub).1.trans hdeclared.subobject_eq
    have haccepted := h.subobject_accepted hfunctionClass
    rw [h.tryFetchVirtualFunction_eq hsub _ hselect] at hfetch
    obtain ⟨address, haddress, hread⟩ := Option.bind_eq_some_iff.1 hfetch
    obtain ⟨word, hword, hresult⟩ := Option.map_eq_some_iff.1 hread
    have hfunction : word = .function dstEntry.functionVariable := congrArg Prod.fst hresult
    obtain ⟨functions, hfunctions, hrest⟩ := Option.bind_eq_some_iff.1 haddress
    obtain ⟨element, helement, hsum⟩ := Option.map_eq_some_iff.1 hrest
    have hempty : functionClass'.parents.isEmpty = false := by
      rw [isEmpty_eq_false_iff]
      exact hne
    rw [hempty] at hfunctions
    -- The word belongs to the table of the class that declared the function first.
    have hless := haccepted.wrong_field_lt hdeclared.mem hdeclared.isOwn hne (Ne.symm hlength)
      (virtualTable class_) (subobjectOffset class_ (path ++ path')) hfunctions helement
    have hget := getElem?_eq_getElem hless
    have hplace := h.getElem?_buildClassVirtualTable hfunctionClass _ hget
    rw [← add_assoc, hsum, hword, hfunction] at hplace
    rw [← Option.some.inj hplace] at hget
    obtain ⟨path'', ancestor', other, hsub', hmem', hkey, hother⟩ :=
      haccepted.wrong_field hdeclared.mem hdeclared.isOwn hne (Ne.symm hlength) _ _ hfunctions
        helement hget
    -- It would be a function of the class of the object for two keys.
    obtain ⟨dstEntry', hdstMem', hdstKey', _, hdstFunction⟩ :=
      h.functionFor_eq ((subobject_append path'' hfunctionClass).1.trans hsub') hmem'
    have hdstKey : dstEntry.key = entry.key := by
      have hdecide := find?_some hfind
      exact of_decide_eq_true hdecide
    have hboth := h.key_eq_of_function_eq (mem_of_find?_eq_some hfind) hdstMem'
      (hother.trans hdstFunction)
    apply hkey
    rw [← hdstKey', ← hboth, hdstKey, hdeclared.key_eq]
  · exact h.callsFinalOverrider hsub hentry this

end FinalOverrider

/-! ## A hierarchy -/

def plainDestructor (llvmFunction : Nat) : FunctionVariable Nat :=
  ⟨llvmFunction, Keyword.destructor_.text, 0, true, .none_, true, .public_⟩

def firstInterface : PolymorphClass Nat := .mk .interface [] [plainDestructor 1] ⟨fun n => 8 * n, 8⟩

def secondInterface : PolymorphClass Nat :=
  .mk .interface [] [plainDestructor 2] ⟨fun n => 8 * n, 8⟩

def twoParentsClass : PolymorphClass Nat := .mk .polymorphNonFinal [firstInterface, secondInterface]
    [plainDestructor 3, ⟨4, [102], 1, true, .declareVirtual, true, .public_⟩] ⟨fun n => 8 * n, 16⟩

def oneParentClass : PolymorphClass Nat := .mk .polymorphNonFinal [twoParentsClass]
    [plainDestructor 5, ⟨6, [102], 1, true, .virtualOverride, true, .public_⟩] ⟨fun n => 16 * n, 16⟩

omit [DecidableEq S] in
theorem layoutFits_nil {layout : StructLayout} (hz : layout.elementOffset 0 = 0)
    (hpos : 0 < layout.size) : LayoutFits layout ([] : List (PolymorphClass S)) :=
  ⟨hz, hpos, fun _ _ _ h => absurd h (by simp), fun _ _ _ _ _ h => absurd h (by simp)⟩

theorem firstInterface_accepted : AcceptedClass firstInterface := by
  refine .mk ?_ ?_ ?_ ?_ ?_ ?_ ?_ (layoutFits_nil rfl (by decide))
  · simp
  · simp
  · decide
  · simp
  · decide
  · decide
  · decide

theorem secondInterface_accepted : AcceptedClass secondInterface := by
  refine .mk ?_ ?_ ?_ ?_ ?_ ?_ ?_ (layoutFits_nil rfl (by decide))
  · simp
  · simp
  · decide
  · simp
  · decide
  · decide
  · decide

theorem twoParentsClass_accepted : AcceptedClass twoParentsClass := by
  refine .mk ?_ ?_ ?_ ?_ ?_ ?_ ?_ ⟨rfl, by decide, ?_, ?_⟩
  · simp [firstInterface_accepted, secondInterface_accepted]
  · decide
  · decide
  · decide
  · decide
  · decide
  · decide
  · intro i n p hpar hn
    match i, hpar, hn with
    | 0, rfl, rfl => decide
    | 1, rfl, rfl => decide
  · intro i j n m p hpar hn hm hlt
    match i, j, hpar, hn, hm with
    | 0, 1, rfl, rfl, rfl => decide
    | 0, 0, rfl, rfl, rfl | 1, 0, rfl, rfl, rfl | 1, 1, rfl, rfl, rfl =>
      exact absurd hlt (by decide)

theorem oneParentClass_accepted : AcceptedClass oneParentClass := by
  refine .mk ?_ ?_ ?_ ?_ ?_ ?_ ?_ ⟨rfl, by decide, ?_, ?_⟩
  · simp [twoParentsClass_accepted]
  · decide
  · decide
  · decide
  · decide
  · decide
  · decide
  · intro i n p hpar hn
    match i, hpar, hn with
    | 0, rfl, rfl => decide
  · intro i j n m p hpar hn hm hlt
    match i, j, hn, hm with
    | 0, 0, rfl, rfl => exact absurd hlt (by decide)

/-- The destructor of an object is found through its second interface. -/
theorem callsFinalOverrider_iff_secondInterface :
    ∃ entry, CallsFinalOverrider oneParentClass secondInterface [0, 1] 100 0 entry := by
  refine ⟨_, (callsFinalOverrider_iff oneParentClass_accepted rfl rfl 100).2 ?_⟩
  intro functionClass hclass
  have heq : secondInterface = functionClass := Option.some.inj hclass
  exact .inl (heq ▸ rfl)

/-- For the function that was declared first in the class with two parents, the offset in the
table of the second one is called. -/
theorem not_callsFinalOverrider_oneParentClass :
    AcceptedClass oneParentClass ∧ ∃ entry, (virtualTable oneParentClass)[1]? = some entry ∧
      entry.name = [102] ∧ ¬ CallsFinalOverrider oneParentClass oneParentClass [] 100 1 entry := by
  refine ⟨oneParentClass_accepted, _, rfl, rfl, ?_⟩
  rintro ⟨dstEntry, _, hfetch⟩
  have hoffset : tryFetchVirtualFunction
      (buildClassVirtualTable (virtualTable oneParentClass) oneParentClass 0)
      (setupVirtualTablePointers oneParentClass 100 0) oneParentClass
      (100 + subobjectOffset oneParentClass []) 1 = some (.offset 8, 100) := by decide
  rw [hoffset] at hfetch
  exact absurd hfetch (by simp)

end USprache.CodeBuilder
