import USprache.CodeBuilder.VirtualTableEntries

/-!
# The layout of virtual tables

The places where tables of parents are put, where their types are listed and where a call
looks for them are the same, since exactly one parent of a class has the field number zero.
-/

namespace USprache.CodeBuilder

open List Bool PolymorphClass

variable {S : Type} [DecidableEq S]

section FieldNumbers

omit [DecidableEq S]

theorem length_fieldNumbersFrom : ∀ (parents : List (PolymorphClass S)) (next : Nat),
    (fieldNumbersFrom next parents).length = parents.length := by
  intro parents
  induction parents with
  | nil =>
    intro next
    rfl
  | cons parent parents ih =>
    intro next
    rw [fieldNumbersFrom]
    split
    · rw [length_cons, ih, length_cons]
    · rw [length_cons, ih, length_cons]

theorem length_fieldNumbers (parents : List (PolymorphClass S)) :
    (fieldNumbers parents).length = parents.length :=
  length_fieldNumbersFrom parents _

theorem getElem?_fieldNumbersFrom : ∀ (parents : List (PolymorphClass S)) (next i : Nat),
    (fieldNumbersFrom next parents)[i]? = parents[i]?.map fun p =>
      if p.isBase then 0 else next + (parents.take i).countP (fun c => !c.isBase) := by
  intro parents
  induction parents with
  | nil =>
    intro next i
    rfl
  | cons p parents ih =>
    intro next i
    rw [fieldNumbersFrom]
    cases hb : p.isBase with
    | true =>
      cases i with
      | zero => simp [hb]
      | succ i => simp [hb, ih next i]
    | false =>
      cases i with
      | zero => simp [hb]
      | succ i =>
        simp [hb, ih (next + 1) i, add_assoc, add_comm 1]

theorem index_unique_of_countP_le_one {α : Type} {p : α → Bool} :
    ∀ {l : List α}, l.countP p ≤ 1 → ∀ {i j : Nat} {x y : α}, l[i]? = some x → l[j]? = some y →
      p x = true → p y = true → i = j := by
  intro l
  induction l with
  | nil =>
    intro _ i j x y hx
    simp at hx
  | cons a l ih =>
    intro hc i j x y hx hy hpx hpy
    have hno : p a = true → ∀ {k : Nat} {z : α}, l[k]? = some z → p z = true → False := by
      intro hpa k z hz hpz
      rw [countP_cons_of_pos hpa] at hc
      have hpos := countP_pos_iff.2 ⟨z, mem_of_getElem? hz, hpz⟩
      omega
    cases i with
    | zero =>
      cases j with
      | zero => rfl
      | succ j =>
        have hax : a = x := Option.some.inj hx
        exact (hno (hax ▸ hpx) hy hpy).elim
    | succ i =>
      cases j with
      | zero =>
        have hay : a = y := Option.some.inj hy
        exact (hno (hay ▸ hpy) hx hpx).elim
      | succ j =>
        have hle : l.countP p ≤ 1 := le_trans (Sublist.countP_le (sublist_cons_self a l)) hc
        have hij := ih hle hx hy hpx hpy
        omega

theorem countP_take_lt {α : Type} {p : α → Bool} {l : List α} {i j : Nat} {x : α}
    (hlt : i < j) (hx : l[i]? = some x) (hp : p x = true) :
    (l.take i).countP p < (l.take j).countP p := by
  have hst : (l.take (i + 1)).countP p = (l.take i).countP p + 1 := by
    rw [take_add_one, hx]
    simp [hp]
  have hle : (l.take (i + 1)).countP p ≤ (l.take j).countP p :=
    Sublist.countP_le (take_sublist_take_left hlt)
  omega

theorem fieldNumbers_injective {parents : List (PolymorphClass S)}
    (hbase : parents.countP isBase ≤ 1) {i j n : Nat}
    (hi : (fieldNumbers parents)[i]? = some n) (hj : (fieldNumbers parents)[j]? = some n) :
    i = j := by
  rw [fieldNumbers, getElem?_fieldNumbersFrom] at hi hj
  obtain ⟨c, hc, hn⟩ := Option.map_eq_some_iff.1 hi
  obtain ⟨d, hd, hm⟩ := Option.map_eq_some_iff.1 hj
  have hnm : (if c.isBase then 0 else (if parents.any isBase then 1 else 0) +
      (parents.take i).countP (fun c => !c.isBase)) =
    if d.isBase then 0 else (if parents.any isBase then 1 else 0) +
      (parents.take j).countP (fun c => !c.isBase) := hn.trans hm.symm
  have hany : ∀ {k : Nat} {e : PolymorphClass S}, parents[k]? = some e → e.isBase = true →
      parents.any isBase = true :=
    fun he hb => any_eq_true.2 ⟨_, mem_of_getElem? he, hb⟩
  cases hcb : c.isBase with
  | true =>
    cases hdb : d.isBase with
    | true => exact index_unique_of_countP_le_one hbase hc hd hcb hdb
    | false =>
      simp only [hcb, hdb, hany hc hcb, if_true, false_eq_true, if_false] at hnm
      omega
  | false =>
    cases hdb : d.isBase with
    | true =>
      simp only [hcb, hdb, hany hd hdb, if_true, false_eq_true, if_false] at hnm
      omega
    | false =>
      simp only [hcb, hdb, false_eq_true, if_false] at hnm
      rcases lt_trichotomy i j with hlt | heq | hgt
      · have hcnt := countP_take_lt (p := fun c => !c.isBase) hlt hc (by simp [hcb])
        omega
      · exact heq
      · have hcnt := countP_take_lt (p := fun c => !c.isBase) hgt hd (by simp [hdb])
        omega

theorem exists_fieldNumbers_zero {parents : List (PolymorphClass S)} (hne : parents ≠ []) :
    ∃ i : Nat, (fieldNumbers parents)[i]? = some 0 := by
  cases hany : parents.any isBase with
  | true =>
    obtain ⟨c, hmem, hb⟩ := any_eq_true.1 hany
    obtain ⟨i, hi⟩ := mem_iff_getElem?.1 hmem
    refine ⟨i, ?_⟩
    rw [fieldNumbers, getElem?_fieldNumbersFrom, hi]
    simp [hb]
  | false =>
    refine ⟨0, ?_⟩
    rw [fieldNumbers, getElem?_fieldNumbersFrom, hany]
    cases parents with
    | nil => exact absurd rfl hne
    | cons c cs => simp

end FieldNumbers

section Order

variable {α : Type}

def OneZero (numbers : List Nat) : Prop :=
  ∃ z : Nat, numbers[z]? = some 0 ∧ ∀ i : Nat, numbers[i]? = some 0 → i = z

theorem filter_zero_eq : ∀ {ps : List (α × Nat)} {z : Nat} {x : α × Nat},
    ps[z]? = some x → x.2 = 0 →
    (∀ i y, ps[i]? = some y → y.2 = 0 → i = z) →
    ps.filter (fun p => p.2 = 0) = [x] := by
  intro ps
  induction ps with
  | nil =>
    intro z x hx
    simp at hx
  | cons first ps ih =>
    intro z x hx hzero huq
    cases z with
    | zero =>
      have heq : first = x := Option.some.inj hx
      subst heq
      have hrs : ps.filter (fun p => p.2 = 0) = [] := by
        rw [filter_eq_nil_iff]
        intro y hy hyze
        obtain ⟨i, hi⟩ := mem_iff_getElem?.1 hy
        have hi' := huq (i + 1) y (by simpa using hi) (of_decide_eq_true hyze)
        omega
      rw [filter_cons_of_pos (by simpa using hzero), hrs]
    | succ z =>
      have hfst : ¬first.2 = 0 := by
        intro h
        have hz := huq 0 first rfl h
        omega
      rw [filter_cons_of_neg (by simpa using hfst)]
      apply ih (by simpa using hx) hzero
      intro i y hi hy
      have hi' := huq (i + 1) y (by simpa using hi) hy
      omega

theorem getElem?_filter {q : α → Bool} : ∀ {l : List α} {i : Nat} {x : α},
    l[i]? = some x → q x = true → (l.filter q)[((l.take i).filter q).length]? = some x := by
  intro l
  induction l with
  | nil =>
    intro i x hx
    simp at hx
  | cons a l ih =>
    intro i x hx hq
    cases i with
    | zero =>
      have heq : a = x := Option.some.inj hx
      subst heq
      rw [filter_cons_of_pos hq]
      rfl
    | succ i =>
      have hx' := ih (by simpa using hx) hq
      cases ha : q a with
      | true | false => simpa [ha] using hx'

theorem collectInitializers_eq : ∀ (ps : List (α × Nat)) (vs : List α), collectInitializers ps vs =
    ((ps.filter (fun p => p.2 = 0)).map (fun p => p.1)).reverse ++ vs ++
      (ps.filter (fun p => p.2 ≠ 0)).map (fun p => p.1) := by
  intro ps
  induction ps with
  | nil =>
    intro vs
    simp [collectInitializers]
  | cons first ps ih =>
    intro vs
    obtain ⟨value, num⟩ := first
    rw [collectInitializers, ih]
    by_cases hz : num = 0
    · simp [hz]
    · simp [hz]

variable (ps : List (α × Nat))

theorem collectInitializers_eq_inTableOrder
    (h : OneZero (ps.map (fun p => p.2))) :
    collectInitializers ps [] = inTableOrder ps := by
  obtain ⟨z, hz, huq⟩ := h
  rw [getElem?_map] at hz
  obtain ⟨x, hx, hzero⟩ := Option.map_eq_some_iff.1 hz
  have hfil := filter_zero_eq hx hzero (by
    intro i y hi hy
    apply huq
    rw [getElem?_map, hi, ← hy]
    rfl)
  rw [collectInitializers_eq, inTableOrder, hfil]
  simp

theorem getElem?_inTableOrder
    (h : OneZero (ps.map (fun pr => pr.2))) {p : Nat}
    {x : α × Nat} (hx : ps[p]? = some x) :
    (inTableOrder ps)[subtableFieldIndex (ps.map (fun pr => pr.2)) p]? = some x.1 := by
  obtain ⟨z, hz, huq⟩ := h
  rw [getElem?_map] at hz
  obtain ⟨first, hfst, hzero⟩ := Option.map_eq_some_iff.1 hz
  have hfil := filter_zero_eq hfst hzero (by
    intro i y hi hy
    apply huq
    rw [getElem?_map, hi, ← hy]
    rfl)
  have hnum : (ps.map (fun pr => pr.2)).getD p 0 = x.2 := by
    rw [getD_eq_getElem?_getD, getElem?_map, hx]
    rfl
  rw [inTableOrder, hfil, subtableFieldIndex, hnum]
  split
  next hxze =>
    have hpz := huq p (by rw [getElem?_map, hx, ← hxze]; rfl)
    rw [hpz, hfst] at hx
    rw [← Option.some.inj hx]
    rfl
  next hxze =>
    rw [add_comm, map_singleton, singleton_append, getElem?_cons_succ, getElem?_map]
    have hget := getElem?_filter (q := fun pr : α × Nat => pr.2 ≠ 0) hx (by simpa using hxze)
    have hlen : (((ps.map (fun pr => pr.2)).take p).filter (fun num => num ≠ 0)).length =
          ((ps.take p).filter (fun pr => pr.2 ≠ 0)).length := by
      rw [← map_take, filter_map, length_map]
      rfl
    rw [hlen, hget]
    rfl

theorem length_inTableOrder : (inTableOrder ps).length = ps.length := by
  rw [inTableOrder, length_append, length_map, length_map]
  have hsp := length_eq_length_filter_add (l := ps) (fun p => decide (p.2 = 0))
  simp only [decide_not] at hsp ⊢
  omega

theorem map_inTableOrder {β : Type} (f : α → β) (ps : List (α × Nat)) :
    (inTableOrder ps).map f = inTableOrder (ps.map (fun p => (f p.1, p.2))) := by
  simp only [inTableOrder, map_append, map_map, filter_map]
  rfl

end Order

section Classes

omit [DecidableEq S] in
mutual

/-- What holds of a class if it holds of its parents holds of all classes. -/
theorem PolymorphClass.induction {P : PolymorphClass S → Prop}
    (h : ∀ kind parents functions layout, (∀ p ∈ parents, P p) →
      P (.mk kind parents functions layout)) : ∀ cls, P cls
  | .mk kind parents functions layout =>
    h kind parents functions layout (induction_list h parents)

theorem PolymorphClass.induction_list {P : PolymorphClass S → Prop}
    (h : ∀ kind parents functions layout, (∀ p ∈ parents, P p) →
      P (.mk kind parents functions layout)) :
    ∀ (classes : List (PolymorphClass S)), ∀ cls ∈ classes, P cls
  | [], _, hmem => nomatch hmem
  | first :: classes, cls, hmem => by
    rcases mem_cons.1 hmem with heq | hmem
    · rw [heq]
      exact induction h first
    · exact induction_list h classes cls hmem

end

theorem preparedTables_eq (classes : List (PolymorphClass S)) :
    preparedTables classes = classes.map virtualTable := by
  induction classes with
  | nil => rfl
  | cons class_ classes ih =>
    rw [preparedTables, ih]
    rfl

theorem tableTypes_eq (classes : List (PolymorphClass S)) : tableTypes classes = classes.map tableType := by
  induction classes with
  | nil => rfl
  | cons class_ classes ih => rw [tableTypes, ih, map_cons]

theorem sizes_eq (fs : List TableType) : TableType.sizes fs = (fs.map TableType.size).sum := by
  induction fs with
  | nil => rfl
  | cons field fs ih => rw [TableType.sizes, ih, map_cons, sum_cons]

variable (dstT : List (VirtualTableEntry S))

theorem buildClassVirtualTables_eq
    (layout : StructLayout) : ∀ nums classes off, buildClassVirtualTables dstT layout nums classes off =
        (nums.zip classes).map fun p =>
          buildClassVirtualTable dstT p.2 (off + layout.elementOffset p.1) := by
  intro nums
  induction nums with
  | nil =>
    intro classes off
    cases classes <;> rfl
  | cons number nums ih =>
    intro classes off
    cases classes with
    | nil => rfl
    | cons class_ classes =>
      rw [buildClassVirtualTables, ih]
      rfl

inductive OneBase : PolymorphClass S → Prop
  | mk {kind parents functions layout} : (∀ parent ∈ parents, OneBase parent) →
    parents.countP isBase ≤ 1 → OneBase (.mk kind parents functions layout)

omit [DecidableEq S] in
theorem oneZero_fieldNumbers {parents : List (PolymorphClass S)}
    (hb : parents.countP isBase ≤ 1) (hne : parents ≠ []) :
    OneZero (fieldNumbers parents) := by
  obtain ⟨z, hz⟩ := exists_fieldNumbers_zero hne
  exact ⟨z, hz, fun i hi => fieldNumbers_injective hb hi hz⟩

theorem zip_map_zip {α β γ : Type} (f : α × β → γ) : ∀ (as : List α) (bs : List β),
    ((as.zip bs).map f).zip as = (as.zip bs).map fun p => (f p, p.1) := by
  intro as
  induction as with
  | nil =>
    intro bs
    rfl
  | cons a as ih =>
    intro bs
    cases bs with
    | nil => rfl
    | cons b bs => simp [ih bs]

theorem zip_map_fst {α β : Type} (f : α → β) : ∀ (as : List α) (ns : List Nat),
    (as.map f).zip ns = (ns.zip as).map fun p => (f p.2, p.1) := by
  intro as
  induction as with
  | nil =>
    intro ns
    simp
  | cons a as ih =>
    intro ns
    cases ns with
    | nil => rfl
    | cons n ns => simp [ih ns]

def parentTables (dstTable : List (VirtualTableEntry S)) (layout : StructLayout)
    (parents : List (PolymorphClass S)) (offset : Nat) : List (List (TableWord S) × Nat) :=
  ((fieldNumbers parents).zip parents).map fun pair =>
    (buildClassVirtualTable dstTable pair.2 (offset + layout.elementOffset pair.1), pair.1)

variable (parents : List (PolymorphClass S))

def parentTypes : List (TableType × Nat) :=
  ((fieldNumbers parents).zip parents).map fun pair => (tableType pair.2, pair.1)

omit [DecidableEq S] in
theorem length_zip_fieldNumbers :
    ((fieldNumbers parents).zip parents).length = parents.length := by
  rw [length_zip, length_fieldNumbers, min_self]

omit [DecidableEq S] in
theorem map_fst_zip_fieldNumbers :
    ((fieldNumbers parents).zip parents).map (fun p => p.1) = fieldNumbers parents := by
  apply map_fst_zip
  rw [length_fieldNumbers]

theorem numbers_parentTables (layout : StructLayout)
    (parents : List (PolymorphClass S)) (off : Nat) :
    (parentTables dstT layout parents off).map (fun p => p.2) = fieldNumbers parents := by
  rw [parentTables, map_map]
  exact map_fst_zip_fieldNumbers parents

theorem numbers_parentTypes :
    (parentTypes parents).map (fun p => p.2) = fieldNumbers parents := by
  rw [parentTypes, map_map]
  exact map_fst_zip_fieldNumbers parents

section Mk

variable {kind : PolymorphKind} {parents} {functions : List (FunctionVariable S)}
  {layout : StructLayout}

def ownFunctions (dstTable : List (VirtualTableEntry S)) (class_ : PolymorphClass S) :
    List (TableWord S) :=
  ((virtualTable class_).filter VirtualTableEntry.isOwn).map
    fun entry => .function (functionFor dstTable entry)

theorem buildClassVirtualTable_eq (hb : parents.countP isBase ≤ 1)
    (dstT : List (VirtualTableEntry S)) (off : Nat) :
    buildClassVirtualTable dstT (.mk kind parents functions layout) off =
      (if parents = [] then [.offset off, .typeId]
        else (inTableOrder (parentTables dstT layout parents off)).flatten) ++
        ownFunctions dstT (.mk kind parents functions layout) := by
  rw [buildClassVirtualTable, buildClassVirtualTables_eq, zip_map_zip]
  by_cases hne : parents = []
  · subst hne
    rfl
  · have hord := collectInitializers_eq_inTableOrder (parentTables dstT layout parents off)
      (by rw [numbers_parentTables]; exact oneZero_fieldNumbers hb hne)
    have hlen : (inTableOrder (parentTables dstT layout parents off)).length ≠ 0 := by
      rw [length_inTableOrder, parentTables, length_map, length_zip_fieldNumbers]
      simpa using hne
    unfold parentTables at hord hlen ⊢
    rw [hord, if_neg hne]
    rw [if_neg (by
      rw [isEmpty_iff_length_eq_zero]
      exact hlen)]
    rfl

theorem tableType_eq : tableType (.mk kind parents functions layout) =
    .struct ((if parents = [] then [.word, .word] else inTableOrder (parentTypes parents)) ++
      [.array (ownFunctionsCount (.mk kind parents functions layout))]) := by
  rw [tableType, tableTypes_eq, zip_map_fst]
  by_cases hne : parents = []
  · subst hne
    rfl
  · have hlen : (inTableOrder (parentTypes parents)).length ≠ 0 := by
      rw [length_inTableOrder, parentTypes, length_map, length_zip_fieldNumbers]
      simpa using hne
    unfold parentTypes at hlen ⊢
    rw [if_neg hne, if_neg (by
      rw [isEmpty_iff_length_eq_zero]
      exact hlen)]

theorem length_ownFunctions (dstT : List (VirtualTableEntry S)) (cls : PolymorphClass S) :
    (ownFunctions dstT cls).length = ownFunctionsCount cls := by
  rw [ownFunctions, length_map, ownFunctionsCount]

end Mk

theorem map_length_parentTables {dstT : List (VirtualTableEntry S)} (layout : StructLayout)
    {parents : List (PolymorphClass S)} (off : Nat)
    (h : ∀ p ∈ parents, ∀ off, (buildClassVirtualTable dstT p off).length = (tableType p).size) :
    (inTableOrder (parentTables dstT layout parents off)).map List.length =
      (inTableOrder (parentTypes parents)).map TableType.size := by
  rw [map_inTableOrder, map_inTableOrder, parentTables, parentTypes, map_map, map_map]
  congr 1
  apply map_congr_left
  intro pr hpr
  have hmem : pr.2 ∈ parents := (of_mem_zip hpr).2
  simp only [Function.comp]
  rw [h pr.2 hmem]

theorem length_buildClassVirtualTable
    {cls : PolymorphClass S} (h : OneBase cls) :
    ∀ off, (buildClassVirtualTable dstT cls off).length = (tableType cls).size := by
  induction h with
  | @mk kind parents functions layout hpars hb ih =>
    intro off
    rw [buildClassVirtualTable_eq hb, tableType_eq, TableType.size, sizes_eq,
      length_append, map_append, sum_append, length_ownFunctions]
    congr 1
    split
    · rfl
    · rw [length_flatten, map_length_parentTables layout off ih]

def subtableOffset (class_ : PolymorphClass S) (p : Nat) : Nat :=
  (((tableType class_).element (subtableFieldIndex (fieldNumbers class_.parents) p)).map
    (fun e => e.1)).getD 0

def parentOffset (class_ : PolymorphClass S) (p : Nat) : Nat :=
  class_.layout.elementOffset ((fieldNumbers class_.parents).getD p 0)

theorem flatten_split {α : Type} {lists : List (List α)} {i : Nat} {l : List α}
    (h : lists[i]? = some l) :
    lists.flatten = (lists.take i).flatten ++ l ++ (lists.drop (i + 1)).flatten := by
  obtain ⟨hlt, hget⟩ := List.getElem?_eq_some_iff.1 h
  have hsp : lists = lists.take i ++ l :: lists.drop (i + 1) := by
    rw [← hget, cons_getElem_drop_succ, take_append_drop]
  conv_lhs => rw [hsp]
  rw [flatten_append, flatten_cons, append_assoc]

theorem buildClassVirtualTable_parent
    {cls parent : PolymorphClass S} (h : OneBase cls) {p : Nat}
    (hp : cls.parents[p]? = some parent) (off : Nat) :
    ∃ pre post, buildClassVirtualTable dstT cls off =
        pre ++ buildClassVirtualTable dstT parent (off + parentOffset cls p) ++ post ∧
      pre.length = subtableOffset cls p := by
  obtain ⟨hpars, hb⟩ := h
  rename_i kind parents functions layout
  have hp : parents[p]? = some parent := hp
  have hne : parents ≠ [] := by
    intro hnil
    rw [hnil] at hp
    simp at hp
  have hone := oneZero_fieldNumbers hb hne
  have hnum : (fieldNumbers parents)[p]? = some ((fieldNumbers parents).getD p 0) := by
    have hlt : p < (fieldNumbers parents).length := by
      rw [length_fieldNumbers]
      exact (List.getElem?_eq_some_iff.1 hp).1
    rw [getD_eq_getElem?_getD, getElem?_eq_getElem hlt]
    rfl
  have hpr : ((fieldNumbers parents).zip parents)[p]? =
      some ((fieldNumbers parents).getD p 0, parent) := by
    rw [getElem?_zip_eq_some]
    exact ⟨hnum, hp⟩
  have htab := getElem?_inTableOrder (parentTables dstT layout parents off)
    (by rw [numbers_parentTables]; exact hone)
    (by rw [parentTables, getElem?_map, hpr]; rfl)
  have hty := getElem?_inTableOrder (parentTypes parents) (by rw [numbers_parentTypes]; exact hone)
    (by rw [parentTypes, getElem?_map, hpr]; rfl)
  rw [numbers_parentTables] at htab
  rw [numbers_parentTypes] at hty
  rw [buildClassVirtualTable_eq hb, if_neg hne, flatten_split htab]
  refine ⟨_, _, by rw [append_assoc]; rfl, ?_⟩
  -- The tables before it are as long as their types say.
  have hlt := (List.getElem?_eq_some_iff.1 hty).1
  have hlens := map_length_parentTables layout off
    (fun parent hmem => length_buildClassVirtualTable dstT (hpars parent hmem))
  rw [length_flatten, map_take, hlens, ← map_take, ← sizes_eq]
  show _ = (((tableType (.mk kind parents functions layout)).element
    (subtableFieldIndex (fieldNumbers parents) p)).map (fun e => e.1)).getD 0
  rw [tableType_eq, if_neg hne, TableType.element, getElem?_append_left hlt, hty,
    take_append_of_le_length (le_of_lt hlt)]
  rfl

end Classes

end USprache.CodeBuilder
