import USprache.CodeBuilder.VirtualTables

/-!
# Entries of virtual tables

Each inherited entry of a class names an entry of one of its parents for the same function,
the new entries are numbered in their order, and no function of a parent is missing.
-/

namespace USprache.CodeBuilder

open LexSynt List Option VirtualTableEntry

variable {S : Type} [DecidableEq S]

def Inherits (parents : List (List (VirtualTableEntry S) × Nat)) (entry : VirtualTableEntry S) :
    Prop :=
  ∀ p, entry.parentVirtualTableIndex = some p → ∃ parent parentEntry, parents[p]? = some parent ∧
      parent.1[entry.indexInTable]? = some parentEntry ∧ parentEntry.key = entry.key

def KeysIn (table table' : List (VirtualTableEntry S)) : Prop :=
  ∀ entry ∈ table, ∃ entry' ∈ table', entry'.key = entry.key

section

omit [DecidableEq S]

theorem KeysIn.refl (table : List (VirtualTableEntry S)) : KeysIn table table :=
  fun e he => ⟨e, he, rfl⟩

theorem KeysIn.trans {table t' t'' : List (VirtualTableEntry S)}
    (h : KeysIn table t') (h' : KeysIn t' t'') : KeysIn table t'' := by
  intro e he
  obtain ⟨mid, hmid, hkey⟩ := h e he
  obtain ⟨last, hla, hkey'⟩ := h' mid hmid
  exact ⟨last, hla, hkey'.trans hkey⟩

theorem KeysIn.append_right (table more : List (VirtualTableEntry S)) :
    KeysIn table (table ++ more) :=
  fun e he => ⟨e, mem_append_left more he, rfl⟩

end

def inheritedEntries (table : List (VirtualTableEntry S)) : List (VirtualTableEntry S) :=
  table.filter fun entry => !entry.isOwn

omit [DecidableEq S] in
theorem keysIn_inheritedEntries (table : List (VirtualTableEntry S)) :
    KeysIn (inheritedEntries table) table :=
  fun e he => ⟨e, (mem_filter.1 he).1, rfl⟩

/-- Functions stand in a table under their names, each once. -/
structure KeysDistinct (table : List (VirtualTableEntry S)) : Prop where
  nodup : (table.map key).Nodup
  names : ∀ entry ∈ table, entry.functionVariable.name = entry.name

namespace KeysDistinct

omit [DecidableEq S]

variable {table : List (VirtualTableEntry S)}

theorem append (h : KeysDistinct table) {e : VirtualTableEntry S}
    (hfr : ∀ other ∈ table, other.key ≠ e.key)
    (hn : e.functionVariable.name = e.name) : KeysDistinct (table ++ [e]) := by
  constructor
  case nodup =>
    rw [map_append, nodup_append]
    refine ⟨h.nodup, nodup_singleton _, ?_⟩
    intro key hkey key' hkey' heq
    obtain ⟨other, ho, rfl⟩ := mem_map.1 hkey
    exact hfr other ho (heq.trans (mem_singleton.1 hkey'))
  case names =>
    intro other ho
    rcases mem_append.1 ho with ho | ho
    · exact h.names other ho
    · exact mem_singleton.1 ho ▸ hn

end KeysDistinct

section Parents

variable {all : List (List (VirtualTableEntry S) × Nat)} {parentTable : List (VirtualTableEntry S) × Nat}

section

omit [DecidableEq S]

theorem mem_borrowVirtualTable {p : Nat} (hpar : all[p]? = some parentTable) {e : VirtualTableEntry S}
    (he : e ∈ borrowVirtualTable p parentTable.1) :
    Inherits all e ∧ e.isOwn = false := by
  rw [borrowVirtualTable, mem_mapIdx] at he
  obtain ⟨i, hi, rfl⟩ := he
  refine ⟨?_, rfl⟩
  intro q hq
  have heq := some.inj hq
  subst heq
  exact ⟨parentTable, parentTable.1[i], hpar, getElem?_eq_getElem hi, rfl⟩

theorem keysIn_borrowVirtualTable (p : Nat) (table : List (VirtualTableEntry S)) :
    KeysIn table (borrowVirtualTable p table) := by
  intro entry he
  obtain ⟨i, hi, rfl⟩ := getElem_of_mem he
  rw [borrowVirtualTable]
  refine ⟨_, mem_mapIdx.2 ⟨i, hi, rfl⟩, rfl⟩

theorem KeysDistinct.borrowVirtualTable {table : List (VirtualTableEntry S)}
    (h : KeysDistinct table) (p : Nat) : KeysDistinct (borrowVirtualTable p table) := by
  constructor
  case nodup =>
    have hkeys : (CodeBuilder.borrowVirtualTable p table).map key = table.map key := by
      apply ext_getElem?
      intro i
      rw [CodeBuilder.borrowVirtualTable, getElem?_map, getElem?_mapIdx,
        getElem?_map, Option.map_map]
      rfl
    rw [hkeys]
    exact h.nodup
  case names =>
    intro entry he
    rw [CodeBuilder.borrowVirtualTable, mem_mapIdx] at he
    obtain ⟨i, hi, rfl⟩ := he
    exact h.names table[i] (getElem_mem hi)

end

theorem KeysDistinct.addParentEntries (p : Nat) : ∀ {r table : List (VirtualTableEntry S)}
    (i : Nat), KeysDistinct table → (∀ e ∈ r, e.functionVariable.name = e.name) →
      KeysDistinct (addParentEntries p i r table) := by
  intro r
  induction r with
  | nil =>
    intro table i h _
    exact h
  | cons first r ih =>
    intro table i h hns
    have hrs : ∀ e ∈ r, e.functionVariable.name = e.name :=
      fun e he => hns e (mem_cons_of_mem first he)
    rw [CodeBuilder.addParentEntries]
    split
    next => exact ih (i + 1) h hrs
    next hany =>
      apply ih (i + 1) _ hrs
      apply h.append
      · intro other ho hkey
        exact hany (any_eq_true.2 ⟨other, ho, decide_eq_true hkey⟩)
      · exact hns first mem_cons_self

omit [DecidableEq S] in
theorem keysDistinct_borrowFirstTable : ∀ {r : List (List (VirtualTableEntry S) × Nat)}
    (i : Nat), (∀ p ∈ r, KeysDistinct p.1) → KeysDistinct (borrowFirstTable i r) := by
  intro r
  induction r with
  | nil =>
    intro i _
    exact ⟨nodup_nil, nofun⟩
  | cons first r ih =>
    intro i h
    cases first
    rw [borrowFirstTable]
    split
    · exact (h _ mem_cons_self).borrowVirtualTable i
    · exact ih (i + 1) fun p hpar => h p (mem_cons_of_mem _ hpar)

theorem KeysDistinct.addOtherTables : ∀ {r : List (List (VirtualTableEntry S) × Nat)}
    {table : List (VirtualTableEntry S)} (i : Nat), KeysDistinct table →
      (∀ p ∈ r, KeysDistinct p.1) → KeysDistinct (addOtherTables i r table) := by
  intro r
  induction r with
  | nil =>
    intro table i h _
    exact h
  | cons first r ih =>
    intro table i h hpars
    obtain ⟨pT, number⟩ := first
    have hfst : KeysDistinct pT := hpars _ mem_cons_self
    have hrs : ∀ p ∈ r, KeysDistinct p.1 := fun p hpar => hpars p (mem_cons_of_mem _ hpar)
    rw [CodeBuilder.addOtherTables]
    split
    · exact ih (i + 1) h hrs
    · exact ih (i + 1) (KeysDistinct.addParentEntries i 0 h hfst.names) hrs

theorem addParentEntries_spec {p : Nat}
    (hpar : all[p]? = some parentTable) {r : List (VirtualTableEntry S)} :
    ∀ {i : Nat} {table : List (VirtualTableEntry S)}, parentTable.1.drop i = r →
      (∀ e ∈ table, Inherits all e ∧ e.isOwn = false) →
      (∀ e ∈ addParentEntries p i r table, Inherits all e ∧ e.isOwn = false) ∧
      KeysIn table (addParentEntries p i r table) ∧
      KeysIn r (addParentEntries p i r table) := by
  induction r with
  | nil =>
    intro i table _ htab
    exact ⟨htab, KeysIn.refl table, nofun⟩
  | cons first r ih =>
    intro i table hdr htab
    have hget : parentTable.1[i]? = some first := by
      rw [← head?_drop, hdr]
      rfl
    have hdr' : parentTable.1.drop (i + 1) = r := by
      rw [← tail_drop, hdr]
      rfl
    rw [addParentEntries]
    split
    next hany =>
      obtain ⟨hall, hkeys, hrs⟩ := ih hdr' htab
      refine ⟨hall, hkeys, ?_⟩
      intro e he
      rcases mem_cons.1 he with rfl | he
      · obtain ⟨other, ho, hkey⟩ := any_eq_true.1 hany
        obtain ⟨last, hla, hkey'⟩ := hkeys other ho
        exact ⟨last, hla, hkey'.trans (of_decide_eq_true hkey)⟩
      · exact hrs e he
    next =>
      have hnew : ∀ e ∈ table ++ [{ first with
          indexInTable := i, parentVirtualTableIndex := some p }],
          Inherits all e ∧ e.isOwn = false := by
        intro e he
        rcases mem_append.1 he with he | he
        · exact htab e he
        · have heq := mem_singleton.1 he
          subst heq
          refine ⟨?_, rfl⟩
          intro q hq
          have heq := some.inj hq
          subst heq
          exact ⟨parentTable, first, hpar, hget, rfl⟩
      obtain ⟨hall, hkeys, hrs⟩ := ih hdr' hnew
      refine ⟨hall, (KeysIn.append_right table _).trans hkeys, ?_⟩
      intro e he
      rcases mem_cons.1 he with rfl | he
      · obtain ⟨last, hla, hkey⟩ := hkeys _ (mem_append_right table mem_cons_self)
        exact ⟨last, hla, hkey⟩
      · exact hrs e he

variable {r : List (List (VirtualTableEntry S) × Nat)}

omit [DecidableEq S] in
theorem borrowFirstTable_spec :
    ∀ {i : Nat}, all.drop i = r → (∀ e ∈ borrowFirstTable i r, Inherits all e ∧ e.isOwn = false) ∧
      ∀ p, r.find? (fun p => decide (p.2 = 0)) = some p → KeysIn p.1 (borrowFirstTable i r) := by
  induction r with
  | nil =>
    intro i _
    exact ⟨nofun, fun p hpar => absurd hpar.symm (some_ne_none p)⟩
  | cons first r ih =>
    intro i hdr
    obtain ⟨table, num⟩ := first
    have hget : all[i]? = some (table, num) := by
      rw [← head?_drop, hdr]
      rfl
    have hdr' : all.drop (i + 1) = r := by
      rw [← tail_drop, hdr]
      rfl
    rw [borrowFirstTable]
    split
    next hz =>
      refine ⟨fun e he => mem_borrowVirtualTable hget he, ?_⟩
      intro p hpar
      rw [find?_cons_of_pos (by simpa using hz)] at hpar
      have heq := some.inj hpar
      subst heq
      exact keysIn_borrowVirtualTable i table
    next hz =>
      obtain ⟨hall, hkeys⟩ := ih hdr'
      refine ⟨hall, ?_⟩
      intro p hpar
      rw [find?_cons_of_neg (by simpa using hz)] at hpar
      exact hkeys p hpar

theorem addOtherTables_spec :
    ∀ {i : Nat} {table : List (VirtualTableEntry S)}, all.drop i = r →
      (∀ e ∈ table, Inherits all e ∧ e.isOwn = false) →
      (∀ e ∈ addOtherTables i r table, Inherits all e ∧ e.isOwn = false) ∧
      KeysIn table (addOtherTables i r table) ∧
      ∀ p ∈ r, p.2 ≠ 0 → KeysIn p.1 (addOtherTables i r table) := by
  induction r with
  | nil =>
    intro i table _ htab
    exact ⟨htab, KeysIn.refl table, nofun⟩
  | cons first r ih =>
    intro i table hdr htab
    obtain ⟨pT, num⟩ := first
    have hget : all[i]? = some (pT, num) := by
      rw [← head?_drop, hdr]
      rfl
    have hdr' : all.drop (i + 1) = r := by
      rw [← tail_drop, hdr]
      rfl
    rw [addOtherTables]
    split
    next hz =>
      obtain ⟨hall, hkeys, hrs⟩ := ih hdr' htab
      refine ⟨hall, hkeys, ?_⟩
      intro p hpar hne
      rcases mem_cons.1 hpar with rfl | hpar
      · exact absurd hz hne
      · exact hrs p hpar hne
    next hz =>
      obtain ⟨hnew, hgro, hadd⟩ := addParentEntries_spec hget (drop_zero) htab
      obtain ⟨hall, hkeys, hrs⟩ := ih hdr' hnew
      refine ⟨hall, hgro.trans hkeys, ?_⟩
      intro p hpar hne
      rcases mem_cons.1 hpar with rfl | hpar
      · exact hadd.trans hkeys
      · exact hrs p hpar hne

end Parents

def ownIndices (table : List (VirtualTableEntry S)) : List Nat :=
  (table.filter isOwn).map (fun entry => entry.indexInTable)

structure ProgressInv (all : List (List (VirtualTableEntry S) × Nat))
    (start : List (VirtualTableEntry S)) (progress : TableInProgress S) : Prop where
  inherits : ∀ entry ∈ progress.table, Inherits all entry
  own : ownIndices progress.table = List.range progress.ownVirtualTableIndex
  keys : KeysIn start (inheritedEntries progress.table)
  distinct : KeysDistinct progress.table

section Functions

variable {all : List (List (VirtualTableEntry S) × Nat)} {start : List (VirtualTableEntry S)}
  {progress : TableInProgress S}

omit [DecidableEq S]

variable {change : VirtualTableEntry S → VirtualTableEntry S}

/-- A change that keeps the place of an entry keeps the numbers of new entries. -/
theorem ownIndices_modify (hpl : ∀ e, (change e).indexInTable = e.indexInTable ∧
      (change e).parentVirtualTableIndex = e.parentVirtualTableIndex) :
    ∀ table i, ownIndices (table.modify i change) = ownIndices table := by
  intro table
  induction table with
  | nil =>
    intro i
    rw [modify_nil]
  | cons e table ih =>
    intro i
    unfold ownIndices at ih ⊢
    cases i with
    | zero =>
      have hown : (change e).isOwn = e.isOwn := by
        unfold isOwn
        rw [(hpl e).2]
      rw [modify_zero_cons, filter_cons, filter_cons, hown]
      split
      · rw [map_cons, map_cons, (hpl e).1]
      · rfl
    | succ i =>
      rw [modify_succ_cons, filter_cons, filter_cons]
      split
      · rw [map_cons, map_cons, ih i]
      · exact ih i

theorem mem_modify {table : List (VirtualTableEntry S)} {idx : Nat} {e : VirtualTableEntry S}
    (h : e ∈ table.modify idx change) :
    e ∈ table ∨ ∃ old, table[idx]? = some old ∧ e = change old := by
  obtain ⟨i, hi⟩ := mem_iff_getElem?.1 h
  rw [getElem?_modify] at hi
  by_cases heq : idx = i
  · subst heq
    simp only [if_true] at hi
    obtain ⟨old, hold, he⟩ := map_eq_some_iff.1 hi
    exact .inr ⟨old, hold, he.symm⟩
  · simp only [heq] at hi
    obtain ⟨old, hold, he⟩ := map_eq_some_iff.1 hi
    exact .inl (he ▸ mem_of_getElem? hold)

theorem ProgressInv.report (h : ProgressInv all start progress) (err : VirtualTableError) :
    ProgressInv all start (progress.report err) :=
  ⟨h.inherits, h.own, h.keys, h.distinct⟩

theorem ProgressInv.addOwn (h : ProgressInv all start progress) {f : FunctionVariable S}
    (isPure : Bool)
    (hfr : ∀ e ∈ progress.table, e.key ≠ (f.name, f.signature)) :
    ProgressInv all start (progress.addOwn f isPure) := by
  constructor
  case inherits =>
    intro e he
    rcases mem_append.1 he with he | he
    · exact h.inherits e he
    · have heq := mem_singleton.1 he
      subst heq
      intro p hp
      exact absurd hp.symm (some_ne_none p)
  case own =>
    have hown := h.own
    unfold ownIndices at hown ⊢
    simp only [TableInProgress.addOwn]
    rw [filter_append, map_append, hown, range_succ]
    rfl
  case keys =>
    rw [TableInProgress.addOwn, inheritedEntries, filter_append]
    exact h.keys.trans (KeysIn.append_right (inheritedEntries progress.table) _)
  case distinct => exact h.distinct.append hfr rfl

theorem ProgressInv.override (h : ProgressInv all start progress) {idx : Nat}
    {f : FunctionVariable S}
    (hkey : ∀ e, progress.table[idx]? = some e → e.key = (f.name, f.signature))
    (hcha : ∀ e, (change e).name = e.name ∧ (change e).functionVariable = e.functionVariable ∧
      (change e).indexInTable = e.indexInTable ∧
      (change e).parentVirtualTableIndex = e.parentVirtualTableIndex) :
    ProgressInv all start (progress.override idx f change) := by
  have hkpt : ∀ e, progress.table[idx]? = some e →
      (change { e with functionVariable := f }).key = e.key := by
    intro e he
    have hsig : e.functionVariable.signature = f.signature :=
      congrArg Prod.snd (hkey e he)
    rw [key, (hcha _).1, (hcha _).2.1, key, hsig]
  constructor
  case inherits =>
    intro e he
    rcases mem_modify he with he | ⟨old, hold, rfl⟩
    · exact h.inherits e he
    · intro p hp
      rw [(hcha _).2.2.2] at hp
      obtain ⟨parentTable, pE, hpar, hget, hkey'⟩ := h.inherits old (mem_of_getElem? hold) p hp
      refine ⟨parentTable, pE, hpar, ?_, hkey'.trans (hkpt old hold).symm⟩
      rw [(hcha _).2.2.1]
      exact hget
  case own =>
    have hpl : ∀ e : VirtualTableEntry S,
        (change { e with functionVariable := f }).indexInTable = e.indexInTable ∧
          (change { e with functionVariable := f }).parentVirtualTableIndex =
            e.parentVirtualTableIndex := fun e => (hcha _).2.2
    exact (ownIndices_modify hpl progress.table idx).trans h.own
  case keys =>
    apply h.keys.trans
    intro e he
    obtain ⟨hmem, hinh⟩ := mem_filter.1 he
    obtain ⟨i, hi⟩ := mem_iff_getElem?.1 hmem
    by_cases heq : idx = i
    · subst heq
      refine ⟨change { e with functionVariable := f }, ?_, hkpt e hi⟩
      rw [inheritedEntries, mem_filter]
      constructor
      · apply mem_of_getElem? (i := idx)
        rw [TableInProgress.override, getElem?_modify, hi]
        simp
      · rw [isOwn, (hcha _).2.2.2]
        exact hinh
    · refine ⟨e, ?_, rfl⟩
      rw [inheritedEntries, mem_filter]
      refine ⟨?_, hinh⟩
      apply mem_of_getElem? (i := i)
      rw [TableInProgress.override, getElem?_modify, hi]
      simp [heq]
  case distinct =>
    constructor
    case nodup =>
      have hkeys : (progress.override idx f change).table.map key = progress.table.map key := by
        apply ext_getElem?
        intro i
        rw [TableInProgress.override, getElem?_map, getElem?_modify, getElem?_map]
        cases hi : progress.table[i]? with
        | none => rfl
        | some e =>
          split
          next heq =>
            subst heq
            exact congrArg some (hkpt e hi)
          next => rfl
      rw [hkeys]
      exact h.distinct.nodup
    case names =>
      intro e he
      rcases mem_modify he with he | ⟨old, hold, rfl⟩
      · exact h.distinct.names e he
      · rw [(hcha _).1, (hcha _).2.1]
        exact (congrArg Prod.fst (hkey old hold)).symm

end Functions

section Prepared

variable {all : List (List (VirtualTableEntry S) × Nat)} {start : List (VirtualTableEntry S)}
  {progress : TableInProgress S}

theorem findEntry_eq_some {table : List (VirtualTableEntry S)} {n : Text} {signature : S}
    {idx : Nat} {e : VirtualTableEntry S}
    (h : findEntry table n signature = some (idx, e)) :
    table[idx]? = some e ∧ e.key = (n, signature) := by
  obtain ⟨i, hi, hmap⟩ := bind_eq_some_iff.1 h
  obtain ⟨found, hfd, heq⟩ := map_eq_some_iff.1 hmap
  obtain ⟨rfl, rfl⟩ := Prod.mk.inj heq
  obtain ⟨hlt, hkey, _⟩ := findIdx?_eq_some_iff_getElem.1 hi
  rw [getElem?_eq_getElem hlt] at hfd
  have hfd := some.inj hfd
  subst hfd
  exact ⟨getElem?_eq_getElem hlt, of_decide_eq_true hkey⟩

theorem key_ne_of_findEntry_eq_none {table : List (VirtualTableEntry S)} {n : Text}
    {signature : S} (h : findEntry table n signature = none) :
    ∀ e ∈ table, e.key ≠ (n, signature) := by
  rw [findEntry, bind_eq_none_iff] at h
  intro e he hkey
  cases hfd : table.findIdx? (fun e => decide (e.key = (n, signature))) with
  | none =>
    have hnot := findIdx?_eq_none_iff.1 hfd e he
    exact absurd hkey (of_decide_eq_false hnot)
  | some i =>
    have hno := map_eq_none_iff.1 (h i hfd)
    have hlt := (findIdx?_eq_some_iff_getElem.1 hfd).1
    rw [getElem?_eq_getElem hlt] at hno
    exact some_ne_none _ hno

theorem ProgressInv.processFunction (h : ProgressInv all start progress) (f : FunctionVariable S) :
    ProgressInv all start (processFunction f
      (findEntry progress.table f.name f.signature) progress) := by
  cases hfd : findEntry progress.table f.name f.signature with
  | none =>
    have hfr := key_ne_of_findEntry_eq_none hfd
    unfold CodeBuilder.processFunction
    cases f.virtualFunctionKind with
    | none_ =>
      simp only
      split
      · exact h.addOwn false hfr
      · exact h
    | declareVirtual => exact h.addOwn false hfr
    | virtualOverride | virtualFinal => exact h.report _
    | virtualPure =>
      apply addOwn
      · split
        · apply report
          split
          · exact h.report _
          · exact h
        · split
          · exact h.report _
          · exact h
      · intro e he
        apply hfr
        split at he
        · split at he
          · exact he
          · exact he
        · split at he
          · exact he
          · exact he
  | some found =>
    obtain ⟨i, e⟩ := found
    obtain ⟨hget, hkey⟩ := findEntry_eq_some hfd
    have hkey : ∀ other, progress.table[i]? = some other → other.key = (f.name, f.signature) := by
      intro other ho
      rw [hget] at ho
      rw [← some.inj ho]
      exact hkey
    unfold CodeBuilder.processFunction
    cases f.virtualFunctionKind with
    | none_ =>
      simp only
      split
      · exact h.override hkey (fun _ => ⟨rfl, rfl, rfl, rfl⟩)
      · exact h.report _
    | declareVirtual | virtualPure => exact h.report _
    | virtualOverride | virtualFinal =>
      simp only
      split
      · exact h.report _
      · exact h.override hkey (fun _ => ⟨rfl, rfl, rfl, rfl⟩)

theorem ProgressInv.addFunction (h : ProgressInv all start progress) (f : FunctionVariable S) :
    ProgressInv all start (addFunction progress f) := by
  have hrep : ProgressInv all start
      (if f.virtualFunctionKind ≠ .none_ ∧ f.visibility = .private_ then
        progress.report (.virtualForPrivateFunction f.name) else progress) := by
    split
    · exact h.report _
    · exact h
  unfold CodeBuilder.addFunction
  simp only
  split
  · exact hrep.processFunction f
  · exact hrep

structure TableSpec (parents : List (List (VirtualTableEntry S) × Nat))
    (table : List (VirtualTableEntry S)) : Prop where
  inherits : ∀ entry ∈ table, Inherits parents entry
  own : ownIndices table = List.range (ownIndices table).length
  keys : ∀ parent ∈ parents, KeysIn parent.1 (inheritedEntries table)
  distinct : KeysDistinct table

theorem prepareClassVirtualTable_spec {ps : List (List (VirtualTableEntry S) × Nat)}
    (hne : ∀ p ∈ ps, KeysDistinct p.1)
    (hz : ∀ (i j : Nat) (p p' : List (VirtualTableEntry S) × Nat),
      ps[i]? = some p → ps[j]? = some p' → p.2 = 0 → p'.2 = 0 →
      i = j) (fs : List (FunctionVariable S)) :
    TableSpec ps (prepareClassVirtualTable ps fs).table := by
  obtain ⟨hfst, hfstKeys⟩ := @borrowFirstTable_spec S ps ps 0 drop_zero
  obtain ⟨hos, hkpt, hkeys⟩ := addOtherTables_spec drop_zero hfst
  have hst : ProgressInv ps (addOtherTables 0 ps (borrowFirstTable 0 ps))
      { table := addOtherTables 0 ps (borrowFirstTable 0 ps) } := by
    constructor
    case inherits => exact fun e he => (hos e he).1
    case own =>
      have hno : (addOtherTables 0 ps (borrowFirstTable 0 ps)).filter isOwn = [] := by
        rw [filter_eq_nil_iff]
        intro e he
        rw [(hos e he).2]
        exact Bool.false_ne_true
      rw [ownIndices, hno]
      rfl
    case keys =>
      have hall : inheritedEntries (addOtherTables 0 ps (borrowFirstTable 0 ps)) =
          addOtherTables 0 ps (borrowFirstTable 0 ps) := by
        rw [inheritedEntries, filter_eq_self]
        intro e he
        rw [(hos e he).2]
        rfl
      rw [hall]
      exact KeysIn.refl _
    case distinct =>
      exact (keysDistinct_borrowFirstTable 0 hne).addOtherTables 0 hne
  have hinv : ProgressInv ps (addOtherTables 0 ps (borrowFirstTable 0 ps))
      (prepareClassVirtualTable ps fs) := by
    unfold prepareClassVirtualTable
    generalize ({ table := addOtherTables 0 ps (borrowFirstTable 0 ps) } :
      TableInProgress S) = progress at hst
    induction fs generalizing progress with
    | nil => exact hst
    | cons f fs ih => exact ih _ (hst.addFunction f)
  constructor
  case inherits => exact hinv.inherits
  case own =>
    rw [hinv.own, length_range]
  case keys =>
    intro p hpar
    refine KeysIn.trans ?_ hinv.keys
    by_cases hnum : p.2 = 0
    · refine KeysIn.trans ?_ hkpt
      apply hfstKeys
      cases hfd : ps.find? (fun p => decide (p.2 = 0)) with
      | none => exact absurd (decide_eq_true hnum) (find?_eq_none.1 hfd p hpar)
      | some found =>
        obtain ⟨i, hi⟩ := mem_iff_getElem?.1 hpar
        obtain ⟨j, hj⟩ := mem_iff_getElem?.1 (mem_of_find?_eq_some hfd)
        have hfound : found.2 = 0 := by
          have hdec := find?_some hfd
          exact of_decide_eq_true hdec
        have hij := hz i j p found hi hj hnum hfound
        subst hij
        rw [hi] at hj
        exact hj.symm
    · exact hkeys p hpar hnum
  case distinct => exact hinv.distinct

end Prepared

end USprache.CodeBuilder
