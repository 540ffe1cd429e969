import USprache.CodeBuilder.ClassOrder

/-!
# Classes that do not depend on the order of their members

Exactly the classes whose fields agree on their tags are built in the same way for each order
of the members.  If two fields do not agree, one of them is put last, or first, or the fields
are sorted so that those without second order kinds come first.
-/

namespace USprache.CodeBuilder.ClassContext

open LexSynt List

variable {Expression LlvmType : Type} (context : ClassContext Expression LlvmType)

def fieldsOf (members : List (MemberValue Expression)) : List (ClassField Expression) :=
  members.filterMap MemberValue.getClassField

structure SameClass (fields fields' : List (ClassField Expression)) : Prop where
  fieldsOrder : context.fieldsOrder fields = context.fieldsOrder fields'
  fieldIndices : context.fieldIndices fields = context.fieldIndices fields'
  innerReferences : context.innerReferences fields = context.innerReferences fields'
  errors : ∀ error, error ∈ (context.determineInnerReferences fields).2 ↔
    error ∈ (context.determineInnerReferences fields').2

/-- Any two orders of the members give the same class.  Its fields are those that get a place,
in the order of their declaration if this is asked for. -/
structure OrderIndependent (members : List (MemberValue Expression)) : Prop where
  same : ∀ members' members'', members'.Perm members → members''.Perm members →
    context.SameClass (fieldsOf members') (fieldsOf members'')
  placed : ∀ members', members'.Perm members →
    (context.fieldsOrder (fieldsOf members')).Perm (context.placedFields (fieldsOf members'))
  kept : context.keepFieldsOrder = true → ∀ members', members'.Perm members →
    (context.fieldsOrder (fieldsOf members')).Pairwise fun l r =>
      l.originalIndex ≤ r.originalIndex

section Orders

def otherMembers (members : List (MemberValue Expression)) : List (MemberValue Expression) :=
  members.filter fun member => member.getClassField.isNone

theorem members_perm (members : List (MemberValue Expression)) :
    ((fieldsOf members).map MemberValue.classField ++ otherMembers members).Perm members := by
  induction members with
  | nil => exact .nil
  | cons mem members ih =>
    cases mem with
    | other => exact perm_middle.trans (ih.cons _)
    | classField field => exact ih.cons _

theorem exists_members_of_fields {members : List (MemberValue Expression)}
    {fields : List (ClassField Expression)} (h : fields.Perm (fieldsOf members)) :
    ∃ members', members'.Perm members ∧ fieldsOf members' = fields := by
  refine ⟨fields.map MemberValue.classField ++ otherMembers members,
    ((h.map _).append_right _).trans (members_perm members), ?_⟩
  have hos : fieldsOf (otherMembers members) = [] := by
    rw [fieldsOf, filterMap_eq_nil_iff]
    intro member hmem
    exact Option.isNone_iff_eq_none.1 (mem_filter.1 hmem).2
  have hfls : fieldsOf (fields.map MemberValue.classField) = fields := by
    rw [fieldsOf, filterMap_map]
    exact filterMap_some
  rw [fieldsOf, filterMap_append]
  exact (congrArg₂ _ hfls hos).trans (append_nil fields)

theorem perm_last {α : Type} {a : α} {l : List α} (h : a ∈ l) : ∃ r, (r ++ [a]).Perm l := by
  obtain ⟨pre, post, rfl⟩ := append_of_mem h
  exact ⟨pre ++ post, (perm_append_singleton a _).trans perm_middle.symm⟩

theorem perm_first {α : Type} {a : α} {l : List α} (h : a ∈ l) : ∃ r, (a :: r).Perm l := by
  obtain ⟨pre, post, rfl⟩ := append_of_mem h
  exact ⟨pre ++ post, perm_middle.symm⟩

end Orders

section Disagree

variable {fields : List (ClassField Expression)} {tag : Nat}

theorem exists_order_kind {k : InnerReferenceKind} (h : k ∈ context.decidingKinds fields tag) :
    ∃ fs', fs'.Perm fields ∧ (referenceOf (context.innerReferences fs') tag).kind = k := by
  have hla : ∀ {r : List (ClassField Expression)} {f : ClassField Expression}
      {mapping : ReferenceMapping},
      (writesAt tag (context.usedTags mapping f)).getLast? = some k →
      (context.lastKinds mapping tag (r ++ [f])).getLast? = some k := by
    intro r f mapping hw
    rw [lastKinds, filterMap_append, getLast?_append, filterMap_cons, hw]
    rfl
  unfold decidingKinds at h
  simp only at h
  split at h
  next hnil =>
    obtain ⟨f, hfl, hw⟩ := mem_filterMap.1 h
    obtain ⟨hmem, href⟩ := mem_filter.1 hfl
    obtain ⟨r, hpm⟩ := perm_last hmem
    refine ⟨r ++ [f], hpm, ?_⟩
    have hnil' := context.lastKinds_perm (context.fieldsWithReferencesInside_perm hpm)
      (context.referenceMapping fields) tag
    rw [hnil, perm_nil] at hnil'
    rw [kind_eq_decidingKinds, decidingKinds, context.referenceMapping_perm hpm,
      if_pos hnil', referenceFields, filter_append, filter_cons_of_pos href,
      filter_nil, hla hw]
    rfl
  next hne =>
    obtain ⟨f, hfl, hw⟩ := mem_filterMap.1 h
    obtain ⟨hmem, hins⟩ := mem_filter.1 hfl
    obtain ⟨r, hpm⟩ := perm_last hmem
    refine ⟨r ++ [f], hpm, ?_⟩
    have hsp : context.fieldsWithReferencesInside (r ++ [f]) =
        context.fieldsWithReferencesInside r ++ [f] := by
      rw [fieldsWithReferencesInside, filter_append, filter_cons_of_pos hins]
      rfl
    have hlaK : (context.lastKinds (context.referenceMapping fields) tag
        (context.fieldsWithReferencesInside r ++ [f])).getLast? = some k := hla hw
    rw [kind_eq_decidingKinds, decidingKinds, context.referenceMapping_perm hpm, hsp,
      if_neg (fun hnil => by rw [hnil] at hlaK; simp at hlaK), hlaK]
    rfl

theorem exists_order_secondOrderKind {k : SecondOrderInnerReferenceKind}
    (hno : (referenceOf context.inheritedInnerReferences tag).secondOrderKind = .none_)
    (h : k ∈ context.decidingSecondKinds fields tag) :
    ∃ fs', fs'.Perm fields ∧
      (referenceOf (context.innerReferences fs') tag).secondOrderKind = k := by
  unfold decidingSecondKinds at h
  split at h
  next hnil =>
    obtain ⟨f, hfl, hfst⟩ := mem_filterMap.1 h
    obtain ⟨hmem, hins⟩ := mem_filter.1 hfl
    obtain ⟨r, hpm⟩ := perm_first hmem
    refine ⟨f :: r, hpm, ?_⟩
    have hnil' := context.referenceSecondWrites_perm hpm tag
    rw [hnil, perm_nil] at hnil'
    rw [context.secondOrderKind_eq_decidingSecondKinds _ _ hno, decidingSecondKinds,
      if_pos hnil', context.referenceMapping_perm hpm, fieldsWithReferencesInside,
      filter_cons_of_pos hins, filterMap_cons, hfst]
    rfl
  next hne =>
    rw [referenceSecondWrites, writesAt_flatMap] at h
    obtain ⟨f, hfl, hw⟩ := mem_flatMap.1 h
    obtain ⟨hmem, href⟩ := mem_filter.1 hfl
    obtain ⟨r, hpm⟩ := perm_first hmem
    refine ⟨f :: r, hpm, ?_⟩
    have hsp : writesAt tag (context.referenceSecondWrites (f :: r)) =
        writesAt tag (context.referenceFieldSecondOrderKinds (context.referenceMapping fields)
          f) ++ writesAt tag ((referenceFields r).flatMap
            (context.referenceFieldSecondOrderKinds (context.referenceMapping fields))) := by
      rw [referenceSecondWrites, context.referenceMapping_perm hpm, referenceFields,
        filter_cons_of_pos href, flatMap_cons, writesAt_append]
      rfl
    have hsin : writesAt tag (context.referenceFieldSecondOrderKinds
        (context.referenceMapping fields) f) = [k] := by
      unfold referenceFieldSecondOrderKinds at hw ⊢
      split at hw
      next hc =>
        rw [if_pos hc, writesAt_cons]
        rw [writesAt_cons] at hw
        by_cases htag : context.referenceTag (context.referenceMapping fields) f = tag
        · rw [if_pos htag] at hw ⊢
          exact congrArg (fun k => [k]) (mem_singleton.1 hw).symm
        · rw [if_neg htag] at hw
          cases hw
      next => cases hw
    rw [context.secondOrderKind_eq_decidingSecondKinds _ _ hno, decidingSecondKinds, hsp,
      hsin]
    rfl

/-- Fields without second order kinds for a tag come first, then those with and without. -/
def secondRank (mapping : ReferenceMapping) (tag : Nat) (field : ClassField Expression) : Nat :=
  if ∀ kind ∈ context.secondKinds mapping tag field, kind = .none_ then 0
  else if .none_ ∈ context.secondKinds mapping tag field then 1
  else 2

theorem fitsBefore_of_rank {mapping : ReferenceMapping} {f f' : ClassField Expression}
    (hfit : context.FitsBefore mapping tag f f' ∨ context.FitsBefore mapping tag f' f)
    (hrank : context.secondRank mapping tag f ≤ context.secondRank mapping tag f') :
    context.FitsBefore mapping tag f f' := by
  rcases hfit with hfit | hfit
  · exact hfit
  · unfold secondRank at hrank
    intro k hk k' hk'
    by_cases hno : k = .none_
    · exact .inl hno
    · -- The first field has a second order kind, so the other one has no `None` before it.
      have hsm : ¬ ∀ k ∈ context.secondKinds mapping tag f, k = .none_ := fun h => hno (h k hk)
      rw [if_neg hsm] at hrank
      rcases hfit k' hk' k hk with hno' | heq
      · exfalso
        have hmem' : .none_ ∈ context.secondKinds mapping tag f' := hno' ▸ hk'
        by_cases hall : ∀ k ∈ context.secondKinds mapping tag f', k = .none_
        · split at hrank
          · omega
          · omega
        · split at hrank
          next hmem =>
            push Not at hall
            obtain ⟨other, ho, hne⟩ := hall
            exact hne ((hfit other ho _ hmem).elim id id)
          next => omega
      · exact .inr heq.symm

theorem exists_order_without_conflict
    (hno : (referenceOf context.inheritedInnerReferences tag).secondOrderKind = .none_)
    (href : writesAt tag (context.referenceSecondWrites fields) = [])
    (hsin : ∀ f ∈ context.fieldsWithReferencesInside fields,
      (context.secondKinds (context.referenceMapping fields) tag f).Pairwise Follows)
    (hprs : (context.fieldsWithReferencesInside fields).Pairwise (fun f f' =>
      context.FitsBefore (context.referenceMapping fields) tag f f' ∨
        context.FitsBefore (context.referenceMapping fields) tag f' f)) :
    ∃ fs', fs'.Perm fields ∧ ¬ context.SecondOrderConflict fs' tag := by
  let before : ClassField Expression → ClassField Expression → Prop := fun f f' =>
    context.secondRank (context.referenceMapping fields) tag f ≤
      context.secondRank (context.referenceMapping fields) tag f'
  have hpm := perm_insertionSort before fields
  have hins := context.fieldsWithReferencesInside_perm hpm
  refine ⟨fields.insertionSort before, hpm, ?_⟩
  have href' := context.referenceSecondWrites_perm hpm tag
  rw [href, perm_nil] at href'
  rw [context.secondOrderConflict_iff hno href', not_not, context.referenceMapping_perm hpm]
  refine ⟨fun f hfl => hsin f (hins.mem_iff.1 hfl), ?_⟩
  have hsrt : (context.fieldsWithReferencesInside (fields.insertionSort before)).Pairwise
      before := (pairwise_insertionSort before fields).filter _
  have hfit := (List.Perm.pairwise_iff (fun h => h.symm) hins).2 hprs
  exact List.Pairwise.imp (fun h => context.fitsBefore_of_rank h.1 h.2)
    (pairwise_and_iff.2 ⟨hfit, hsrt⟩)

end Disagree

theorem sameClass_of_perm (hfit : context.AlignmentsFit)
    {fields fs' : List (ClassField Expression)} (hne : IndicesDistinct fields)
    (hag : ∀ tag, context.TagAgrees fields tag) (h : fields.Perm fs') :
    context.SameClass fields fs' := by
  have hord := context.fieldsOrder_eq_of_perm hfit h hne
  constructor
  case fieldsOrder => exact hord
  case fieldIndices => rw [fieldIndices, fieldIndices, hord]
  case innerReferences => exact context.innerReferences_perm hag h
  case errors =>
    intro error
    exact ⟨context.mem_errors_of_perm hag h,
      context.mem_errors_of_perm (fun tag => (hag tag).perm context h) h.symm⟩

theorem secondKinds_none_of_parentDiffers {fields sorted : List (ClassField Expression)} {tag : Nat}
    (hno : (referenceOf context.inheritedInnerReferences tag).secondOrderKind = .none_)
    (hpm : sorted.Perm fields) (hcl : ¬ context.SecondOrderConflict sorted tag)
    (hany : ¬ context.ReportedAnyway fields tag)
    (hdf : context.ParentDiffers (context.innerReferences sorted) tag) :
    ∀ f ∈ context.fieldsWithReferencesInside fields,
      ∀ k ∈ context.secondKinds (context.referenceMapping fields) tag f, k = .none_ := by
  intro f hfl k hk
  by_contra hne
  obtain ⟨p, hpar, hlen, _, hdf⟩ := hdf
  have hmem : k ∈ writesAt tag (context.referenceSecondWrites sorted ++
      context.insideSecondWrites sorted) := by
    rw [writesAt_append, writesAt_insideSecondWrites, context.referenceMapping_perm hpm]
    exact mem_append_right _ (mem_flatMap.2
      ⟨f, (context.fieldsWithReferencesInside_perm hpm).mem_iff.2 hfl, hk⟩)
  rw [SecondOrderConflict, not_not, hno, pairwise_none_cons] at hcl
  rw [secondOrderKind_innerReferences, hno, settle_eq_of_mem hcl hmem hne] at hdf
  rw [context.length_innerReferences_perm hpm, length_innerReferences] at hlen
  exact hany (.inr ⟨p, hpar, hlen.symm, f, hfl, k, hk, hne, Ne.symm hdf⟩)

theorem tagAgrees_of_same {fields : List (ClassField Expression)}
    (heq : ∀ fs', fs'.Perm fields → context.SameClass fs' fields) (tag : Nat) :
    context.TagAgrees fields tag := by
  constructor
  case kind =>
    intro a ha b hb
    obtain ⟨fsA, hpmA, hkA⟩ := context.exists_order_kind ha
    obtain ⟨fsB, hpmB, hkB⟩ := context.exists_order_kind hb
    rw [← hkA, ← hkB, (heq fsA hpmA).innerReferences, (heq fsB hpmB).innerReferences]
  case second =>
    intro hno a ha b hb
    obtain ⟨fsA, hpmA, hkA⟩ := context.exists_order_secondOrderKind hno ha
    obtain ⟨fsB, hpmB, hkB⟩ := context.exists_order_secondOrderKind hno hb
    rw [← hkA, ← hkB, (heq fsA hpmA).innerReferences, (heq fsB hpmB).innerReferences]
  case mixed =>
    intro hno href
    by_contra hnot
    push Not at hnot
    obtain ⟨hany, hboth, heit⟩ := hnot
    apply hboth
    have hsin : ∀ f ∈ context.fieldsWithReferencesInside fields,
        (context.secondKinds (context.referenceMapping fields) tag f).Pairwise Follows := by
      intro f hfl
      by_contra hcf
      exact hany (.inl ⟨f, hfl, hcf⟩)
    obtain ⟨sorted, hpm, hcl⟩ := context.exists_order_without_conflict hno href hsin heit
    by_cases hrep : .mixingSecondOrderReferences tag ∈ (context.determineInnerReferences sorted).2
    · -- A parent has a second order kind, and no field has one.
      apply heit.imp_of_mem
      intro f f' hfl hfl' _
      have hall := context.secondKinds_none_of_parentDiffers hno hpm hcl hany
        (((context.mixingSecondOrderReferences_mem_errors sorted tag).1 hrep).resolve_left hcl)
      exact ⟨fun kind hk _ _ => .inl (hall f hfl kind hk),
        fun kind hk _ _ => .inl (hall f' hfl' kind hk)⟩
    · -- There is no conflict in the order of the fields and in the reverse order.
      have hfit : ∀ fs', fs'.Perm fields → (context.fieldsWithReferencesInside fs').Pairwise
            (context.FitsBefore (context.referenceMapping fields) tag) := by
        intro fs' hpm'
        have hcl' : ¬ context.SecondOrderConflict fs' tag := by
          intro hcf
          apply hrep
          rw [(heq sorted hpm).errors, ← (heq fs' hpm').errors,
            mixingSecondOrderReferences_mem_errors]
          exact .inl hcf
        have href' := context.referenceSecondWrites_perm hpm' tag
        rw [href, perm_nil] at href'
        rw [context.secondOrderConflict_iff hno href', not_not,
          context.referenceMapping_perm hpm'] at hcl'
        exact hcl'.2
      have hrev := hfit fields.reverse (reverse_perm fields)
      rw [fieldsWithReferencesInside, filter_reverse, pairwise_reverse] at hrev
      exact pairwise_and_iff.2 ⟨hfit fields (.refl fields), hrev⟩

/-- For any two orders of the members a class is built in the same way if and only if its
fields agree on each reference tag. -/
theorem orderIndependent_iff (hfit : context.AlignmentsFit)
    {members : List (MemberValue Expression)} (hdistinct : IndicesDistinct (fieldsOf members)) :
    context.OrderIndependent members ↔ ∀ tag, context.TagAgrees (fieldsOf members) tag := by
  constructor
  · intro h
    apply context.tagAgrees_of_same
    intro fields' hperm
    obtain ⟨members', hmembers, rfl⟩ := exists_members_of_fields hperm
    exact h.same members' members hmembers (.refl members)
  · intro hagrees
    constructor
    case same =>
      intro members' members'' h' h''
      have hperm' : (fieldsOf members').Perm (fieldsOf members) := h'.filterMap _
      have hperm : (fieldsOf members').Perm (fieldsOf members'') := (h'.trans h''.symm).filterMap _
      apply context.sameClass_of_perm hfit _ (fun tag => (hagrees tag).perm context hperm'.symm)
        hperm
      intro a ha b hb
      exact hdistinct a (hperm'.mem_iff.1 ha) b (hperm'.mem_iff.1 hb)
    case placed => exact fun members' _ => context.fieldsOrder_perm hfit _
    case kept => exact fun hkeep members' _ => context.fieldsOrder_sorted hkeep _

/-- Classes with the name `B` have references to references inside, all others have not. -/
def exampleContext : ClassContext (Option (List Nat)) Unit where
  types := {
    innerReferences := fun class_ =>
      match class_ with
      | .declared _ [66] => [⟨.imut, .imut⟩]
      | _ => [⟨.imut, .none_⟩]
    ensureTypeComplete := fun _ => true
    getTypeNonSync := fun _ => false }
  evaluateReferenceFieldTag := fun _ => (none, [])
  evaluateReferenceFieldInnerTags := fun tags => (tags, [])
  baseClass := none
  parents := []
  keepFieldsOrder := false
  startTypes := []
  getLLVMType := fun _ => ()
  pointerType := ()
  isSized := fun _ => true
  getABITypeAlign := fun _ => 8
  getTypeAllocSize := fun _ => 8

/-- A field of a class with references inside, for the tag `a`. -/
def exampleField (name className : Text) (originalIndex : Nat) :
    ClassField (Option (List Nat)) where
  name := name
  srcLoc := originalIndex
  type := .classType (.declared .root className)
  originalIndex := originalIndex
  isReference := false
  isMutable := false
  referenceTagExpression := none
  innerReferenceTagsExpression := some (some [0])

theorem exampleContext_alignmentsFit : exampleContext.AlignmentsFit := by
  intro type
  show 0 < 8 ∧ 8 ≤ 2 ^ 32
  decide

theorem filterMap_eq {α β : Type} {f : α → Option β} {y : α} {l : List α} {a b : β}
    (h : ∀ x ∈ l, f x = f y) (ha : a ∈ l.filterMap f) (hb : b ∈ l.filterMap f) : a = b := by
  obtain ⟨x, hx, hxa⟩ := mem_filterMap.1 ha
  obtain ⟨z, hz, hzb⟩ := mem_filterMap.1 hb
  rw [h x hx] at hxa
  rw [h z hz] at hzb
  exact Option.some.inj (hxa.symm.trans hzb)

/-- Two fields of one class, for the tag `a`. -/
def agreeingFields : List (ClassField (Option (List Nat))) :=
  [exampleField [120] [65] 0, exampleField [121] [65] 1]

theorem forall_agreeingFields {p : ClassField (Option (List Nat)) → Prop}
    (h : ∀ name index, p (exampleField name [65] index)) : ∀ field ∈ agreeingFields, p field :=
  forall_mem_cons.2 ⟨h _ _, forall_mem_singleton.2 (h _ _)⟩

theorem fitsBefore_exampleField (mapping : ReferenceMapping) (tag index : Nat) (name : Text)
    (field : ClassField (Option (List Nat))) :
    exampleContext.FitsBefore mapping tag (exampleField name [65] index) field := by
  intro kind hkind _ _
  obtain ⟨write, hwrite, hk⟩ := mem_filterMap.1 hkind
  obtain ⟨pair, hpair, rfl⟩ := mem_map.1 hwrite
  have hzero : pair.2 = 0 := mem_singleton.1 (of_mem_zip hpair).2
  rw [hzero] at hk
  split at hk
  next => exact .inl (Option.some_inj.1 hk).symm
  next => cases hk

theorem orderIndependent_iff_twoFields : exampleContext.OrderIndependent
    (.other :: agreeingFields.map .classField) := by
  have hagrees : ∀ tag, exampleContext.TagAgrees agreeingFields tag := by
    intro tag
    constructor
    case kind =>
      intro a ha b hb
      unfold decidingKinds at ha hb
      simp only at ha hb
      split at ha
      next => cases ha
      next hne =>
        rw [if_neg hne] at hb
        exact filterMap_eq (y := exampleField [] [65] 0) (forall_agreeingFields fun _ _ => rfl) ha hb
    case second =>
      intro _ a ha b hb
      exact filterMap_eq (y := exampleField [] [65] 0) (forall_agreeingFields fun _ _ => rfl) ha hb
    case mixed =>
      intro _ _
      exact .inr (.inl (pairwise_pair.2 ⟨fitsBefore_exampleField _ _ _ _ _,
        fitsBefore_exampleField _ _ _ _ _⟩))
  refine (orderIndependent_iff exampleContext exampleContext_alignmentsFit ?_).2 hagrees
  rintro field (_ | ⟨_, _ | ⟨_, ⟨⟩⟩⟩) field' (_ | ⟨_, _ | ⟨_, ⟨⟩⟩⟩) hindex
  · rfl
  · cases hindex
  · cases hindex
  · rfl

/-- The same two fields are accepted in one order and give an error in the other one. -/
theorem not_orderIndependent_twoFields :
    ¬ exampleContext.OrderIndependent
      [.classField (exampleField [120] [65] 0), .classField (exampleField [121] [66] 1)] := by
  intro h
  have hsame := h.same _ [.classField (exampleField [121] [66] 1),
    .classField (exampleField [120] [65] 0)] (.refl _) (.swap _ _ _)
  have hnone : (exampleContext.determineInnerReferences
      [exampleField [120] [65] 0, exampleField [121] [66] 1]).2 = [] := by decide
  have hsome : (exampleContext.determineInnerReferences
      [exampleField [121] [66] 1, exampleField [120] [65] 0]).2 =
        [.mixingSecondOrderReferences 0] := by decide
  have herror := (hsame.errors (.mixingSecondOrderReferences 0)).2
    (hsome ▸ mem_singleton_self _)
  exact not_mem_nil (hnone ▸ herror)

end USprache.CodeBuilder.ClassContext
