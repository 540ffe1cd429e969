import USprache.CodeBuilder.ReferenceTagWrites

/-!
# Reference tags of a class

All three ways to map references are writes of the kinds of the tags the fields use.  From
that follows what the inner references of a class are and which errors are reported.
-/

namespace USprache.CodeBuilder.ClassContext

open List

variable {Expression LlvmType : Type} (context : ClassContext Expression LlvmType)

theorem setKind_of_lt {list : List InnerReference} {tag : Nat} (h : tag < list.length)
    (kind : InnerReferenceKind) :
    setKind list tag kind = list.modify tag fun ref => { ref with kind := kind } := by
  rw [setKind, if_neg (by omega)]

theorem setKind_length_eq (l : List InnerReference) (k : InnerReferenceKind) :
    setKind l l.length k = l ++ [⟨k, .none_⟩] := by
  apply innerReferences_ext
  · rw [length_setKind, length_append, length_singleton]
    omega
  · intro tag
    rw [referenceOf_setKind, referenceOf, referenceOf, getD_eq_getElem?_getD, getD_eq_getElem?_getD]
    rcases lt_trichotomy tag l.length with hlt | heq | hgt
    · rw [if_neg (by omega), getElem?_append_left hlt]
    · subst heq
      rw [if_pos rfl, getElem?_append_right (Nat.le_refl _), Nat.sub_self,
        getElem?_eq_none (Nat.le_refl _)]
      rfl
    · rw [if_neg (by omega), getElem?_eq_none (by omega),
        getElem?_eq_none (by rw [length_append, length_singleton]; omega)]

theorem foldl_modify_zero (ks : Nat → InnerReferenceKind) : ∀ (indices : List Nat)
    {list : List InnerReference}, list ≠ [] →
    indices.foldl (fun list i => list.modify 0 fun ref =>
      { ref with kind := ks i }) list =
      setKinds list (indices.map fun i => (0, ks i)) := by
  intro indices
  induction indices with
  | nil =>
    intro list _
    rfl
  | cons i indices ih =>
    intro list hne
    have hpos : 0 < list.length := length_pos_iff.2 hne
    have hst : list.modify 0 (fun ref => { ref with kind := ks i }) =
        setKind list 0 (ks i) := (setKind_of_lt hpos (ks i)).symm
    rw [foldl_cons, hst]
    apply ih
    apply length_pos_iff.1
    rw [length_setKind]
    omega

theorem zip_replicate_length {α β : Type} (a : α) (l : List β) :
    (List.replicate l.length a).zip l = l.map fun b => (a, b) := by
  induction l with
  | nil => rfl
  | cons b l ih => rw [length_cons, replicate_succ, zip_cons_cons, ih, map_cons]

variable (innRefs : List InnerReference)

theorem mapReferenceField_eq {f : ClassField Expression} (hfl : f.isReference = true) :
    context.mapReferenceField innRefs f = setKinds innRefs (context.usedTags .general f) := by
  rw [mapReferenceField, usedTags, if_pos hfl, referenceTag]
  cases context.evaluatedTag f with
  | some tag => rfl
  | none =>
    show _ = setKind innRefs 0 (fieldKind f)
    by_cases hnil : innRefs = []
    · rw [hnil]
      rfl
    · simp only [hnil, if_false]
      rw [setKind_of_lt (length_pos_iff.2 hnil)]

theorem mapFieldWithReferencesInside_eq
    {f : ClassField Expression} (hfl : context.hasReferencesInside f = true) :
    context.mapFieldWithReferencesInside innRefs f =
      setKinds innRefs (context.usedTags .general f) := by
  obtain ⟨href, hc⟩ := Bool.and_eq_true_iff.1 hfl
  have href : f.isReference = false := by simpa using href
  have hc : 0 < context.types.referenceTagCount f.type := of_decide_eq_true hc
  rw [mapFieldWithReferencesInside, usedTags, href, innerReferenceTags]
  cases context.evaluatedInnerTags f with
  | some tags =>
    simp only [Bool.false_eq_true, if_false]
    rw [setKinds, foldl_map]
  | none =>
    have hzip := zip_replicate_length 0 (range (context.types.referenceTagCount f.type))
    rw [length_range] at hzip
    rw [hzip, map_map]
    by_cases hnil : innRefs = []
    · rw [hnil, foldl_modify_zero _ _ (by simp)]
      obtain ⟨count, heq⟩ := Nat.exists_eq_succ_of_ne_zero (ne_of_gt hc)
      rw [heq, range_succ_eq_map]
      rfl
    · rw [if_neg hnil, foldl_modify_zero _ _ hnil]
      rfl

theorem setKinds_range (ks : Nat → InnerReferenceKind) (c : Nat) :
    setKinds [] ((List.range c).map fun i => (i, ks i)) =
      (List.range c).map fun i => ⟨ks i, .none_⟩ := by
  induction c with
  | zero => rfl
  | succ c ih =>
    rw [range_succ, map_append, setKinds, foldl_append]
    have hih : ((range c).map fun i => (i, ks i)).foldl (fun l w => setKind l w.1 w.2) [] =
          (range c).map fun i => ⟨ks i, .none_⟩ := ih
    have hla := setKind_length_eq ((range c).map fun i =>
      (⟨ks i, .none_⟩ : InnerReference)) (ks c)
    rw [length_map, length_range] at hla
    rw [hih, map_append]
    exact hla

def referenceFields (fields : List (ClassField Expression)) : List (ClassField Expression) :=
  fields.filter fun field => field.isReference

def fieldsWithReferencesInside (fields : List (ClassField Expression)) :
    List (ClassField Expression) :=
  fields.filter context.hasReferencesInside

def kindWrites (fields : List (ClassField Expression)) : List (Nat × InnerReferenceKind) :=
  (referenceFields fields ++ context.fieldsWithReferencesInside fields).flatMap
    (context.usedTags (context.referenceMapping fields))

theorem setKinds_append (l : List InnerReference) (ws ws' : List (Nat × InnerReferenceKind)) :
    setKinds l (ws ++ ws') = setKinds (setKinds l ws) ws' :=
  foldl_append

theorem foldl_eq_setKinds {st : List InnerReference → ClassField Expression → List InnerReference}
    {ws : ClassField Expression → List (Nat × InnerReferenceKind)} :
    ∀ {fields : List (ClassField Expression)} (l : List InnerReference),
      (∀ f ∈ fields, ∀ l, st l f = setKinds l (ws f)) →
      fields.foldl st l = setKinds l (fields.flatMap ws) := by
  intro fields
  induction fields with
  | nil =>
    intro l _
    rfl
  | cons f fields ih =>
    intro l h
    rw [foldl_cons, h f mem_cons_self, flatMap_cons, setKinds_append]
    exact ih _ fun other ho => h other (mem_cons_of_mem f ho)

theorem referenceMapping_cases (fields : List (ClassField Expression)) :
    (context.referenceMapping fields = .singleReferenceField ∧
        context.inheritedInnerReferences = [] ∧ (∃ f, referenceFields fields = [f]) ∧
        context.fieldsWithReferencesInside fields = []) ∨
      (context.referenceMapping fields = .singleFieldWithReferencesInside ∧
        context.inheritedInnerReferences = [] ∧ referenceFields fields = [] ∧
        ∃ f, context.fieldsWithReferencesInside fields = [f]) ∨
      context.referenceMapping fields = .general := by
  unfold referenceMapping
  simp only
  split
  next h =>
    exact .inl ⟨rfl, h.2.2.2, length_eq_one_iff.1 h.1, length_eq_zero_iff.1 h.2.1⟩
  next =>
    split
    next h =>
      exact .inr (.inl ⟨rfl, h.2.2.2, length_eq_zero_iff.1 h.1, length_eq_one_iff.1 h.2.1⟩)
    next => exact .inr (.inr rfl)

theorem zip_self {α : Type} (l : List α) : l.zip l = l.map fun a => (a, a) := by
  induction l with
  | nil => rfl
  | cons a l ih => rw [zip_cons_cons, ih, map_cons]

theorem mapReferences_eq (fields : List (ClassField Expression)) :
    context.mapReferences (context.referenceMapping fields) (referenceFields fields)
        (context.fieldsWithReferencesInside fields) =
      setKinds context.inheritedInnerReferences (context.kindWrites fields) := by
  unfold kindWrites
  have hreference : ∀ f ∈ referenceFields fields, f.isReference = true :=
    fun f hfl => (mem_filter.1 hfl).2
  have hins : ∀ f ∈ context.fieldsWithReferencesInside fields,
      context.hasReferencesInside f = true := fun f hfl => (mem_filter.1 hfl).2
  rcases context.referenceMapping_cases fields with
    ⟨hmap, hinh, ⟨f, hfl⟩, hno⟩ | ⟨hmap, hinh, hno, f, hfl⟩ | hmap
  · have href := hreference f (by rw [hfl]; exact mem_singleton_self f)
    rw [hmap, hfl, hno, mapReferences, hinh]
    simp only [append_nil, flatMap_singleton, usedTags, href]
    rfl
  · have hin := hins f (by rw [hfl]; exact mem_singleton_self f)
    have href : f.isReference = false := by
      simpa using (Bool.and_eq_true_iff.1 hin).1
    rw [hmap, hfl, hno, mapReferences, hinh]
    simp only [nil_append, flatMap_singleton, usedTags, href, innerReferenceTags]
    rw [zip_self, map_map]
    exact ((setKinds_range _ _).trans (by simp)).symm
  · have hst : ∀ f ∈ referenceFields fields, ∀ l, context.mapReferenceField l f =
        setKinds l (context.usedTags .general f) :=
      fun f hfl l => context.mapReferenceField_eq l (hreference f hfl)
    have hst' : ∀ f ∈ context.fieldsWithReferencesInside fields, ∀ l,
        context.mapFieldWithReferencesInside l f = setKinds l (context.usedTags .general f) :=
      fun f hfl l =>
        context.mapFieldWithReferencesInside_eq l (hins f hfl)
    rw [hmap, mapReferences, flatMap_append, setKinds_append, foldl_eq_setKinds _ hst,
      foldl_eq_setKinds _ hst']

section Determined

variable (fields : List (ClassField Expression))

def referenceSecondWrites : List (Nat × SecondOrderInnerReferenceKind) :=
  (referenceFields fields).flatMap
    (context.referenceFieldSecondOrderKinds (context.referenceMapping fields))

def insideSecondWrites : List (Nat × SecondOrderInnerReferenceKind) :=
  (context.fieldsWithReferencesInside fields).flatMap
    (context.innerSecondOrderKinds (context.referenceMapping fields))

def innerReferences : List InnerReference := (context.determineInnerReferences fields).1

/-- The tag of each write of a second order kind is one of the tags in use. -/
theorem secondWrites_lt {w : Nat × SecondOrderInnerReferenceKind}
    (h : w ∈ context.referenceSecondWrites fields ++ context.insideSecondWrites fields) :
    w.1 < (setKinds context.inheritedInnerReferences (context.kindWrites fields)).length := by
  have hused : ∃ k, (w.1, k) ∈ context.kindWrites fields := by
    rcases mem_append.1 h with h | h
    · obtain ⟨f, hfl, hw⟩ := mem_flatMap.1 h
      have href : f.isReference = true := (mem_filter.1 hfl).2
      refine ⟨fieldKind f, mem_flatMap.2 ⟨f, mem_append_left _ hfl, ?_⟩⟩
      rw [usedTags, if_pos href, mem_singleton]
      rw [referenceFieldSecondOrderKinds] at hw
      split at hw
      · rw [mem_singleton.1 hw]
      · cases hw
    · obtain ⟨f, hfl, hw⟩ := mem_flatMap.1 h
      have hin : context.hasReferencesInside f = true := (mem_filter.1 hfl).2
      have href : f.isReference = false := by
        simpa using (Bool.and_eq_true_iff.1 hin).1
      obtain ⟨tag, htag, rfl⟩ := mem_map.1 hw
      refine ⟨context.types.getInnerReferenceKind f.type tag.2,
        mem_flatMap.2 ⟨f, mem_append_right _ hfl, ?_⟩⟩
      rw [usedTags, href]
      exact mem_map.2 ⟨tag, htag, rfl⟩
  obtain ⟨k, hk⟩ := hused
  exact lt_length_setKinds hk _

theorem setupSecondOrderKinds_eq :
    context.setupSecondOrderKinds (context.referenceMapping fields) (referenceFields fields)
        (context.fieldsWithReferencesInside fields)
        (context.mapReferences (context.referenceMapping fields) (referenceFields fields)
          (context.fieldsWithReferencesInside fields)) =
      (context.referenceSecondWrites fields ++ context.insideSecondWrites fields).foldl
        setSecondOrderKind
        (setKinds context.inheritedInnerReferences (context.kindWrites fields), []) := by
  rw [mapReferences_eq, foldl_append]
  rfl

/-- A write to the second order kind of a tag differs from what was set before. -/
def SecondOrderConflict (tag : Nat) : Prop :=
  ¬ ((referenceOf context.inheritedInnerReferences tag).secondOrderKind ::
    writesAt tag (context.referenceSecondWrites fields ++
      context.insideSecondWrites fields)).Pairwise Follows

theorem setupSecondOrderKinds_spec : (context.innerReferences fields).length =
        (setKinds context.inheritedInnerReferences (context.kindWrites fields)).length ∧
      (∀ tag, referenceOf (context.innerReferences fields) tag =
        { kind := (writesAt tag (context.kindWrites fields)).getLast?.getD
            (referenceOf context.inheritedInnerReferences tag).kind
          secondOrderKind := settle
            (referenceOf context.inheritedInnerReferences tag).secondOrderKind
            (writesAt tag (context.referenceSecondWrites fields ++
              context.insideSecondWrites fields)) }) ∧
      ∀ err, err ∈ (context.setupSecondOrderKinds (context.referenceMapping fields)
          (referenceFields fields) (context.fieldsWithReferencesInside fields)
          (context.mapReferences (context.referenceMapping fields) (referenceFields fields)
            (context.fieldsWithReferencesInside fields))).2 ↔
        ∃ tag, err = .mixingSecondOrderReferences tag ∧ context.SecondOrderConflict fields tag := by
  obtain ⟨hlen, hof, herrs⟩ := foldl_setSecondOrderKind _
    (setKinds context.inheritedInnerReferences (context.kindWrites fields), [])
    fun write hw => context.secondWrites_lt fields hw
  rw [← context.setupSecondOrderKinds_eq fields] at hlen hof herrs
  refine ⟨hlen, ?_, ?_⟩
  · intro tag
    have htag := hof tag
    rw [referenceOf_setKinds] at htag
    exact htag
  · intro err
    rw [herrs, or_iff_right not_mem_nil]
    apply exists_congr
    intro tag
    rw [referenceOf_setKinds]
    rfl

theorem length_innerReferences : (context.innerReferences fields).length =
    ((context.kindWrites fields).map fun w => w.1 + 1).foldl max
      context.inheritedInnerReferences.length := by
  rw [← length_setKinds]
  exact (context.setupSecondOrderKinds_spec fields).1

variable (tag : Nat)

theorem kind_innerReferences : (referenceOf (context.innerReferences fields) tag).kind =
    (writesAt tag (context.kindWrites fields)).getLast?.getD
      (referenceOf context.inheritedInnerReferences tag).kind :=
  congrArg InnerReference.kind ((context.setupSecondOrderKinds_spec fields).2.1 tag)

theorem secondOrderKind_innerReferences :
    (referenceOf (context.innerReferences fields) tag).secondOrderKind =
      settle (referenceOf context.inheritedInnerReferences tag).secondOrderKind
        (writesAt tag (context.referenceSecondWrites fields ++
          context.insideSecondWrites fields)) :=
  congrArg InnerReference.secondOrderKind ((context.setupSecondOrderKinds_spec fields).2.1 tag)

theorem mem_errors (err : ClassBuildError) : err ∈ (context.determineInnerReferences fields).2 ↔
    err ∈ fields.flatMap context.collectErrors ∨
    err ∈ context.mapReferencesErrors (context.referenceMapping fields)
      (referenceFields fields) (context.fieldsWithReferencesInside fields) ∨
    (∃ tag, err = .mixingSecondOrderReferences tag ∧ context.SecondOrderConflict fields tag) ∨
    err ∈ context.parents.flatMap (parentErrors (context.innerReferences fields)) ∨
    err ∈ kindErrors (context.innerReferences fields)
      (fields.flatMap (context.usedTags (context.referenceMapping fields))) ∨
    err ∈ unusedTagErrors (context.innerReferences fields)
      (context.usedByParents (context.innerReferences fields) ++
        (fields.flatMap (context.usedTags (context.referenceMapping fields))).map
          (fun tag => tag.1)) := by
  rw [← (context.setupSecondOrderKinds_spec fields).2.2 err]
  unfold determineInnerReferences
  simp only [mem_append, or_assoc]
  rfl

def ParentDiffers (innerReferences : List InnerReference) (tag : Nat) : Prop :=
  ∃ parent ∈ context.parents, innerReferences.length = parent.length ∧ tag < parent.length ∧
    (referenceOf parent tag).secondOrderKind ≠ (referenceOf innerReferences tag).secondOrderKind

variable (f : ClassField Expression)

theorem not_mem_collectErrors :
    .mixingSecondOrderReferences tag ∉ context.collectErrors f := by
  unfold collectErrors
  split
  · simp
  · split
    · simp
    · split
      · simp
      · rw [mem_append]
        rintro (h | h)
        · simp at h
        · split at h
          · simp at h
          · split at h
            · simp at h
            · simp at h

theorem not_mem_referenceFieldErrors :
    .mixingSecondOrderReferences tag ∉ context.referenceFieldErrors f := by
  unfold referenceFieldErrors
  split
  · simp
  · simp

theorem not_mem_innerTagsErrors :
    .mixingSecondOrderReferences tag ∉ context.innerTagsErrors f := by
  unfold innerTagsErrors
  split
  · simp
  · rw [mem_append]
    rintro (h | h)
    · simp at h
    · split at h
      · simp at h
      · split at h
        · simp at h
        · simp at h

theorem not_mem_mapReferencesErrors (mapping : ReferenceMapping)
    (refFs fsWithRefsInside : List (ClassField Expression)) :
    .mixingSecondOrderReferences tag ∉
      context.mapReferencesErrors mapping refFs fsWithRefsInside := by
  unfold mapReferencesErrors
  split
  · rw [mem_append, mem_flatMap, mem_flatMap]
    rintro (⟨f, _, h⟩ | ⟨f, _, h⟩)
    · exact context.not_mem_referenceFieldErrors tag f h
    · exact context.not_mem_innerTagsErrors tag f h
  · exact not_mem_nil

theorem mem_parentErrors (p : List InnerReference) (tag : Nat) :
    .mixingSecondOrderReferences tag ∈ parentErrors innRefs p ↔
      innRefs.length = p.length ∧ tag < p.length ∧ (referenceOf p tag).secondOrderKind ≠
          (referenceOf innRefs tag).secondOrderKind := by
  unfold parentErrors
  split
  next hne => simp [hne]
  next heq =>
    rw [not_not] at heq
    rw [mem_flatMap, and_iff_right heq]
    constructor
    · rintro ⟨i, hi, h⟩
      rcases mem_append.1 h with h | h
      · split at h
        · simp at h
        · simp at h
      · split at h
        next hdf =>
          rw [mem_singleton, ClassBuildError.mixingSecondOrderReferences.injEq] at h
          subst h
          exact ⟨mem_range.1 hi, hdf⟩
        next => simp at h
    · rintro ⟨hlt, hdf⟩
      refine ⟨tag, mem_range.2 hlt, mem_append_right _ ?_⟩
      split
      next => exact mem_singleton_self _
      next hsame => exact absurd hdf hsame

theorem mixingSecondOrderReferences_mem_errors :
    .mixingSecondOrderReferences tag ∈ (context.determineInnerReferences fields).2 ↔
      context.SecondOrderConflict fields tag ∨
        context.ParentDiffers (context.innerReferences fields) tag := by
  rw [mem_errors]
  constructor
  · rintro (h | h | ⟨other, h, hcf⟩ | h | h | h)
    · obtain ⟨f, _, hmem⟩ := mem_flatMap.1 h
      exact absurd hmem (context.not_mem_collectErrors tag f)
    · exact absurd h (context.not_mem_mapReferencesErrors tag _ _ _)
    · have heq : tag = other := ClassBuildError.mixingSecondOrderReferences.inj h
      exact .inl (heq ▸ hcf)
    · obtain ⟨p, hpar, hmem⟩ := mem_flatMap.1 h
      exact .inr ⟨p, hpar, (mem_parentErrors _ _ _).1 hmem⟩
    · obtain ⟨used, _, hmem⟩ := mem_flatMap.1 h
      split at hmem
      · simp at hmem
      · simp at hmem
    · obtain ⟨other, _, hmem⟩ := mem_map.1 h
      exact absurd hmem (by simp)
  · rintro (hcf | ⟨p, hpar, hdf⟩)
    · exact .inr (.inr (.inl ⟨tag, rfl, hcf⟩))
    · exact .inr (.inr (.inr (.inl (mem_flatMap.2 ⟨p, hpar, (mem_parentErrors _ _ _).2 hdf⟩))))

end Determined

end USprache.CodeBuilder.ClassContext
