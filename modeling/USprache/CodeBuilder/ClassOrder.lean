import USprache.CodeBuilder.ClassFieldsLayout
import USprache.CodeBuilder.ClassReferenceTags

/-!
# The order of the members of a class

The members of a class are visited in the order of a hash map.  The order of the fields does
not depend on it.  The kinds of reference tags do if fields that share a tag do not agree.
-/

namespace USprache.CodeBuilder.ClassContext

open List Option

variable {Expression LlvmType : Type} (context : ClassContext Expression LlvmType)

variable (mapping : ReferenceMapping)

def lastKinds (tag : Nat) (fields : List (ClassField Expression)) :
    List InnerReferenceKind :=
  fields.filterMap fun field => (writesAt tag (context.usedTags mapping field)).getLast?

/-- Fields with references inside are processed after reference fields. -/
def decidingKinds (fields : List (ClassField Expression)) (tag : Nat) : List InnerReferenceKind :=
  let mapping := context.referenceMapping fields
  if context.lastKinds mapping tag (context.fieldsWithReferencesInside fields) = [] then
    context.lastKinds mapping tag (referenceFields fields)
  else context.lastKinds mapping tag (context.fieldsWithReferencesInside fields)

def secondKinds (tag : Nat) (field : ClassField Expression) :
    List SecondOrderInnerReferenceKind :=
  writesAt tag (context.innerSecondOrderKinds mapping field)

/-- The first of them that is not `None`. -/
def firstSecondKind (tag : Nat) (field : ClassField Expression) :
    Option SecondOrderInnerReferenceKind :=
  (context.secondKinds mapping tag field).find? fun kind => decide (kind ≠ .none_)

/-- Reference fields are processed before fields with references inside. -/
def decidingSecondKinds (fields : List (ClassField Expression)) (tag : Nat) :
    List SecondOrderInnerReferenceKind :=
  if writesAt tag (context.referenceSecondWrites fields) = [] then
    (context.fieldsWithReferencesInside fields).filterMap
      (context.firstSecondKind (context.referenceMapping fields) tag)
  else writesAt tag (context.referenceSecondWrites fields)

section Deciding

variable (fields : List (ClassField Expression)) (tag : Nat)

theorem getLast?_decidingKinds : (writesAt tag (context.kindWrites fields)).getLast? =
    (context.decidingKinds fields tag).getLast? := by
  have hla : ∀ l,
      (writesAt tag (l.flatMap (context.usedTags (context.referenceMapping fields)))).getLast? =
        (context.lastKinds (context.referenceMapping fields) tag l).getLast? := by
    intro l
    rw [writesAt_flatMap, getLast?_flatMap, lastKinds, getLast?_filterMap]
  rw [kindWrites, flatMap_append, writesAt_append, getLast?_append, hla, hla, decidingKinds]
  split
  next hnil =>
    rw [hnil]
    rfl
  next hne =>
    rw [getLast?_eq_some_getLast hne]
    rfl

theorem kind_eq_decidingKinds : (referenceOf (context.innerReferences fields) tag).kind =
    (context.decidingKinds fields tag).getLast?.getD
      (referenceOf context.inheritedInnerReferences tag).kind := by
  rw [kind_innerReferences, getLast?_decidingKinds]

theorem referenceSecondWrites_ne {k : SecondOrderInnerReferenceKind}
    (h : k ∈ writesAt tag (context.referenceSecondWrites fields)) : k ≠ .none_ := by
  rw [referenceSecondWrites, writesAt_flatMap] at h
  obtain ⟨field, _, h⟩ := mem_flatMap.1 h
  obtain ⟨write, hw, heq⟩ := mem_filterMap.1 h
  split at heq
  next =>
    rw [← some.inj heq]
    unfold referenceFieldSecondOrderKinds at hw
    split at hw
    · rw [mem_singleton.1 hw]
      split
      · simp
      · simp
    · cases hw
  next => exact absurd heq (some_ne_none _).symm

theorem writesAt_insideSecondWrites : writesAt tag (context.insideSecondWrites fields) =
    (context.fieldsWithReferencesInside fields).flatMap
      (context.secondKinds (context.referenceMapping fields) tag) := by
  rw [insideSecondWrites, writesAt_flatMap]
  rfl

theorem secondOrderKind_eq_decidingSecondKinds
    (hno : (referenceOf context.inheritedInnerReferences tag).secondOrderKind = .none_) :
    (referenceOf (context.innerReferences fields) tag).secondOrderKind =
      (context.decidingSecondKinds fields tag).head?.getD .none_ := by
  rw [secondOrderKind_innerReferences, hno, settle_none, writesAt_append, find?_append,
    decidingSecondKinds]
  split
  next hnil =>
    rw [hnil, writesAt_insideSecondWrites, find?_flatMap, head?_filterMap]
    rfl
  next hne =>
    cases hws : writesAt tag (context.referenceSecondWrites fields) with
    | nil => exact absurd hws hne
    | cons kind kinds =>
      have hk := context.referenceSecondWrites_ne fields tag (hws ▸ mem_cons_self)
      rw [find?_cons_of_pos (by simpa using hk)]
      rfl

end Deciding

/-- Second order kinds of one field that are written before those of another one. -/
def FitsBefore (tag : Nat) (field field' : ClassField Expression) :
    Prop :=
  ∀ kind ∈ context.secondKinds mapping tag field,
    ∀ kind' ∈ context.secondKinds mapping tag field', Follows kind kind'

/-- The mix of second order kinds of a tag is reported for a single field, or because of a
parent. -/
def ReportedAnyway (fields : List (ClassField Expression)) (tag : Nat) : Prop :=
  let mapping := context.referenceMapping fields
  (∃ field ∈ context.fieldsWithReferencesInside fields,
      ¬ (context.secondKinds mapping tag field).Pairwise Follows) ∨
    ∃ parent ∈ context.parents,
      parent.length = ((context.kindWrites fields).map fun write => write.1 + 1).foldl max
        context.inheritedInnerReferences.length ∧
      ∃ field ∈ context.fieldsWithReferencesInside fields,
        ∃ kind ∈ context.secondKinds mapping tag field,
          kind ≠ .none_ ∧ kind ≠ (referenceOf parent tag).secondOrderKind

/-- The fields agree on the kinds of a tag: those that decide its kind, and those that decide
its second order kind.  Where fields with references inside decide it, no two of them differ
in having one and having none, unless a mix is reported in any order. -/
structure TagAgrees (fields : List (ClassField Expression)) (tag : Nat) : Prop where
  kind : ∀ a ∈ context.decidingKinds fields tag, ∀ b ∈ context.decidingKinds fields tag, a = b
  second : (referenceOf context.inheritedInnerReferences tag).secondOrderKind = .none_ →
    ∀ a ∈ context.decidingSecondKinds fields tag,
      ∀ b ∈ context.decidingSecondKinds fields tag, a = b
  mixed : (referenceOf context.inheritedInnerReferences tag).secondOrderKind = .none_ →
    writesAt tag (context.referenceSecondWrites fields) = [] →
    context.ReportedAnyway fields tag ∨
      (context.fieldsWithReferencesInside fields).Pairwise (fun field field' =>
        context.FitsBefore (context.referenceMapping fields) tag field field' ∧
          context.FitsBefore (context.referenceMapping fields) tag field' field) ∨
      ¬ (context.fieldsWithReferencesInside fields).Pairwise (fun field field' =>
        context.FitsBefore (context.referenceMapping fields) tag field field' ∨
          context.FitsBefore (context.referenceMapping fields) tag field' field)

section Perm

variable {fields fs' : List (ClassField Expression)} (h : fields.Perm fs')

include h

theorem referenceMapping_perm :
    context.referenceMapping fields = context.referenceMapping fs' := by
  unfold referenceMapping
  simp only
  rw [(h.filter _).length_eq, (h.filter _).length_eq, h.any_eq]

theorem fieldsWithReferencesInside_perm :
    (context.fieldsWithReferencesInside fields).Perm
      (context.fieldsWithReferencesInside fs') := h.filter _

theorem referenceFields_perm :
    (referenceFields fields).Perm (referenceFields fs') := h.filter _

theorem kindWrites_perm :
    (context.kindWrites fields).Perm (context.kindWrites fs') := by
  unfold kindWrites
  rw [context.referenceMapping_perm h]
  exact ((referenceFields_perm h).append (context.fieldsWithReferencesInside_perm h)).flatMap_right _

theorem length_innerReferences_perm :
    (context.innerReferences fields).length = (context.innerReferences fs').length := by
  rw [length_innerReferences, length_innerReferences]
  exact foldl_max_perm ((context.kindWrites_perm h).map _) _

theorem lastKinds_perm (mapping : ReferenceMapping) (tag : Nat) :
    (context.lastKinds mapping tag fields).Perm (context.lastKinds mapping tag fs') :=
  h.filterMap _

theorem decidingKinds_perm (tag : Nat) :
    (context.decidingKinds fields tag).Perm (context.decidingKinds fs' tag) := by
  have hins := context.lastKinds_perm (context.fieldsWithReferencesInside_perm h)
    (context.referenceMapping fs') tag
  unfold decidingKinds
  rw [context.referenceMapping_perm h]
  simp only
  split
  next hnil =>
    rw [hnil] at hins
    rw [if_pos (nil_perm.1 hins)]
    exact context.lastKinds_perm (referenceFields_perm h) _ _
  next hne =>
    rw [if_neg (fun hnil => hne (perm_nil.1 (by rw [hnil] at hins; exact hins)))]
    exact hins

theorem referenceSecondWrites_perm (tag : Nat) :
    (writesAt tag (context.referenceSecondWrites fields)).Perm
      (writesAt tag (context.referenceSecondWrites fs')) := by
  unfold referenceSecondWrites
  rw [context.referenceMapping_perm h]
  exact ((referenceFields_perm h).flatMap_right _).filterMap _

theorem insideSecondWrites_perm (tag : Nat) :
    (writesAt tag (context.insideSecondWrites fields)).Perm
      (writesAt tag (context.insideSecondWrites fs')) := by
  unfold insideSecondWrites
  rw [context.referenceMapping_perm h]
  exact ((context.fieldsWithReferencesInside_perm h).flatMap_right _).filterMap _

theorem decidingSecondKinds_perm (tag : Nat) :
    (context.decidingSecondKinds fields tag).Perm (context.decidingSecondKinds fs' tag) := by
  have href := context.referenceSecondWrites_perm h tag
  unfold decidingSecondKinds
  rw [context.referenceMapping_perm h]
  split
  next hnil =>
    rw [hnil] at href
    rw [if_pos (nil_perm.1 href)]
    exact (context.fieldsWithReferencesInside_perm h).filterMap _
  next hne =>
    rw [if_neg (fun hnil => hne (perm_nil.1 (by rw [hnil] at href; exact href)))]
    exact href

omit h

theorem eq_of_perm_of_all_eq {α : Type} {l l' : List α} (h : l.Perm l')
    (heq : ∀ a ∈ l, ∀ b ∈ l, a = b) : l = l' := by
  cases l with
  | nil => exact (nil_perm.1 h).symm
  | cons first r =>
    have hall : ∀ a ∈ first :: r, a = first := fun a ha => heq a ha first mem_cons_self
    rw [eq_replicate_of_mem hall,
      eq_replicate_of_mem fun a ha => hall a (h.mem_iff.2 ha), h.length_eq]

/-- Where the fields agree on all tags, the inner references do not depend on their order. -/
theorem innerReferences_perm (hag : ∀ tag, context.TagAgrees fields tag)
    (h : fields.Perm fs') : context.innerReferences fields = context.innerReferences fs' := by
  apply innerReferences_ext (context.length_innerReferences_perm h)
  intro tag
  have hk : (referenceOf (context.innerReferences fields) tag).kind =
      (referenceOf (context.innerReferences fs') tag).kind := by
    rw [kind_eq_decidingKinds, kind_eq_decidingKinds,
      eq_of_perm_of_all_eq (context.decidingKinds_perm h tag) (hag tag).kind]
  have hsnd : (referenceOf (context.innerReferences fields) tag).secondOrderKind =
      (referenceOf (context.innerReferences fs') tag).secondOrderKind := by
    by_cases hno : (referenceOf context.inheritedInnerReferences tag).secondOrderKind = .none_
    · rw [secondOrderKind_eq_decidingSecondKinds context fields tag hno,
        secondOrderKind_eq_decidingSecondKinds context fs' tag hno,
        eq_of_perm_of_all_eq (context.decidingSecondKinds_perm h tag) ((hag tag).second hno)]
    · rw [secondOrderKind_innerReferences, secondOrderKind_innerReferences,
        settle_of_ne _ hno, settle_of_ne _ hno]
  calc referenceOf (context.innerReferences fields) tag
      = ⟨(referenceOf (context.innerReferences fields) tag).kind,
          (referenceOf (context.innerReferences fields) tag).secondOrderKind⟩ := rfl
    _ = referenceOf (context.innerReferences fs') tag := by rw [hk, hsnd]

variable {tag : Nat}

theorem secondOrderConflict_iff
    (hno : (referenceOf context.inheritedInnerReferences tag).secondOrderKind = .none_)
    (href : writesAt tag (context.referenceSecondWrites fields) = []) :
    context.SecondOrderConflict fields tag ↔ ¬ ((∀ f ∈ context.fieldsWithReferencesInside fields,
          (context.secondKinds (context.referenceMapping fields) tag f).Pairwise Follows) ∧
        (context.fieldsWithReferencesInside fields).Pairwise
          (context.FitsBefore (context.referenceMapping fields) tag)) := by
  rw [SecondOrderConflict, hno, pairwise_none_cons, writesAt_append, href,
    nil_append, writesAt_insideSecondWrites, pairwise_flatMap]
  rfl

theorem ReportedAnyway.perm (hrep : context.ReportedAnyway fields tag)
    (h : fields.Perm fs') : context.ReportedAnyway fs' tag := by
  unfold ReportedAnyway at hrep ⊢
  rw [context.referenceMapping_perm h, foldl_max_perm ((context.kindWrites_perm h).map _)] at hrep
  simp only [(context.fieldsWithReferencesInside_perm h).mem_iff] at hrep
  exact hrep

theorem ReportedAnyway.reported (hrep : context.ReportedAnyway fields tag)
    (hno : (referenceOf context.inheritedInnerReferences tag).secondOrderKind = .none_)
    (href : writesAt tag (context.referenceSecondWrites fields) = []) :
    context.SecondOrderConflict fields tag ∨
      context.ParentDiffers (context.innerReferences fields) tag := by
  rcases hrep with ⟨f, hfl, hnot⟩ | ⟨p, hpar, hlen, f, hfl, k, hk, hne, hdf⟩
  · left
    rw [context.secondOrderConflict_iff hno href]
    exact fun h => hnot (h.1 f hfl)
  · by_cases hcf : context.SecondOrderConflict fields tag
    · exact .inl hcf
    · right
      rw [SecondOrderConflict, not_not, hno, pairwise_none_cons] at hcf
      have hmem : k ∈ writesAt tag (context.referenceSecondWrites fields ++
          context.insideSecondWrites fields) := by
        rw [writesAt_append, writesAt_insideSecondWrites]
        exact mem_append_right _ (mem_flatMap.2 ⟨f, hfl, hk⟩)
      have hset : (referenceOf (context.innerReferences fields) tag).secondOrderKind = k := by
        rw [secondOrderKind_innerReferences, hno]
        exact settle_eq_of_mem hcf hmem hne
      have hlt : tag < (context.innerReferences fields).length := by
        obtain ⟨write, hw, heq⟩ := mem_filterMap.1 hmem
        split at heq
        next htag =>
          rw [(context.setupSecondOrderKinds_spec fields).1, ← htag]
          exact context.secondWrites_lt fields hw
        next => exact absurd heq (some_ne_none _).symm
      have hlen : (context.innerReferences fields).length = p.length :=
        (context.length_innerReferences fields).trans hlen.symm
      refine ⟨p, hpar, hlen, hlen ▸ hlt, ?_⟩
      rw [hset]
      exact Ne.symm hdf

/-- Where the fields agree on a tag, a mix of second order kinds is reported in each order or
in none. -/
theorem secondOrderReported_perm (hag : ∀ tag, context.TagAgrees fields tag) (h : fields.Perm fs')
    (hrep : context.SecondOrderConflict fields tag ∨
      context.ParentDiffers (context.innerReferences fields) tag) :
    context.SecondOrderConflict fs' tag ∨
      context.ParentDiffers (context.innerReferences fs') tag := by
  rcases hrep with hcf | hpar
  · by_cases hno : (referenceOf context.inheritedInnerReferences tag).secondOrderKind = .none_
    · by_cases href : writesAt tag (context.referenceSecondWrites fields) = []
      · have href' : writesAt tag (context.referenceSecondWrites fs') = [] := by
          have hpm := context.referenceSecondWrites_perm h tag
          rw [href] at hpm
          exact nil_perm.1 hpm
        rcases (hag tag).mixed hno href with hany | hboth | hnei
        · exact (hany.perm context h).reported context hno href'
        · -- The conflict is one of a single field.
          left
          rw [context.secondOrderConflict_iff hno href] at hcf
          rw [context.secondOrderConflict_iff hno href', ← context.referenceMapping_perm h]
          intro hnot
          apply hcf
          refine ⟨?_, hboth.imp fun hfit => hfit.1⟩
          intro f hfl
          exact hnot.1 f ((context.fieldsWithReferencesInside_perm h).mem_iff.1 hfl)
        · -- Two fields do not fit in either order.
          left
          rw [context.secondOrderConflict_iff hno href', ← context.referenceMapping_perm h]
          intro hnot
          apply hnei
          rw [Perm.pairwise_iff (fun hfit => hfit.symm) (context.fieldsWithReferencesInside_perm h)]
          exact hnot.2.imp fun hfit => .inl hfit
      · left
        have hdec : context.decidingSecondKinds fields tag =
            writesAt tag (context.referenceSecondWrites fields) := by
          rw [decidingSecondKinds, if_neg href]
        have heq := eq_of_perm_of_all_eq (context.referenceSecondWrites_perm h tag)
          (hdec ▸ (hag tag).second hno)
        rw [SecondOrderConflict, hno, pairwise_none_cons, writesAt_append] at hcf ⊢
        rw [← heq]
        cases hws : writesAt tag (context.referenceSecondWrites fields) with
        | nil => exact absurd hws href
        | cons kind ks =>
          have hk := context.referenceSecondWrites_ne fields tag (hws ▸ mem_cons_self)
          rw [hws, cons_append, pairwise_cons_of_ne hk] at hcf
          rw [cons_append, pairwise_cons_of_ne hk]
          intro hall
          apply hcf
          intro w hw
          apply hall
          exact ((Perm.refl ks).append (context.insideSecondWrites_perm h tag)).mem_iff.1 hw
    · left
      rw [SecondOrderConflict, writesAt_append, pairwise_cons_of_ne hno] at hcf ⊢
      intro hall
      apply hcf
      intro w hw
      apply hall
      exact ((context.referenceSecondWrites_perm h tag).append
        (context.insideSecondWrites_perm h tag)).mem_iff.1 hw
  · rw [context.innerReferences_perm hag h] at hpar
    exact .inr hpar

theorem TagAgrees.perm (hag : context.TagAgrees fields tag)
    (h : fields.Perm fs') : context.TagAgrees fs' tag := by
  have hkin := context.decidingKinds_perm h tag
  have hsnd := context.decidingSecondKinds_perm h tag
  have hins := context.fieldsWithReferencesInside_perm h
  constructor
  case kind =>
    intro a ha b hb
    exact hag.kind a (hkin.mem_iff.2 ha) b (hkin.mem_iff.2 hb)
  case second =>
    intro hno a ha b hb
    exact hag.second hno a (hsnd.mem_iff.2 ha) b (hsnd.mem_iff.2 hb)
  case mixed =>
    intro hno href
    have href' : writesAt tag (context.referenceSecondWrites fields) = [] := by
      have hpm := context.referenceSecondWrites_perm h tag
      rw [href] at hpm
      exact perm_nil.1 hpm
    rw [← context.referenceMapping_perm h]
    rcases hag.mixed hno href' with hany | hboth | hnei
    · exact .inl (hany.perm context h)
    · exact .inr (.inl ((Perm.pairwise_iff (fun hfit => hfit.symm) hins).1 hboth))
    · exact .inr (.inr fun heit =>
        hnei ((Perm.pairwise_iff (fun hfit => hfit.symm) hins).2 heit))

/-- Where the fields agree on all tags, each error is reported in any order. -/
theorem mem_errors_of_perm (hag : ∀ tag, context.TagAgrees fields tag)
    (h : fields.Perm fs') {err : ClassBuildError}
    (hmem : err ∈ (context.determineInnerReferences fields).2) :
    err ∈ (context.determineInnerReferences fs').2 := by
  have hin := context.innerReferences_perm hag h
  have hmap := context.referenceMapping_perm h
  rw [mem_errors] at hmem
  rcases hmem with hmem | hmem | ⟨tag, rfl, hcf⟩ | hmem | hmem | hmem
  · rw [mem_errors]
    exact .inl ((h.flatMap_right _).mem_iff.1 hmem)
  · rw [mem_errors, ← hmap]
    refine .inr (.inl ?_)
    cases hcase : context.referenceMapping fields with
    | general =>
      rw [hcase] at hmem
      exact (((referenceFields_perm h).flatMap_right _).append
        ((context.fieldsWithReferencesInside_perm h).flatMap_right _)).mem_iff.1 hmem
    | singleReferenceField | singleFieldWithReferencesInside =>
      rw [hcase] at hmem
      cases hmem
  · rw [mixingSecondOrderReferences_mem_errors]
    exact context.secondOrderReported_perm hag h (.inl hcf)
  · rw [mem_errors, ← hin]
    exact .inr (.inr (.inr (.inl hmem)))
  · rw [mem_errors, ← hin, ← hmap]
    refine .inr (.inr (.inr (.inr (.inl ?_))))
    exact ((h.flatMap_right _).flatMap_right _).mem_iff.1 hmem
  · rw [mem_errors, ← hin, ← hmap]
    refine .inr (.inr (.inr (.inr (.inr ?_))))
    obtain ⟨tag, htag, rfl⟩ := mem_map.1 hmem
    obtain ⟨hlt, hunu⟩ := mem_filter.1 htag
    refine mem_map.2 ⟨tag, mem_filter.2 ⟨hlt, ?_⟩, rfl⟩
    rw [decide_eq_true_eq] at hunu ⊢
    intro hused
    apply hunu
    exact (((Perm.refl _).append ((h.flatMap_right _).map _))).mem_iff.2 hused

end Perm

end USprache.CodeBuilder.ClassContext
