import USprache.CodeBuilder.ClassFields
import USprache.Library.Removal

/-!
# The order of the fields of a class

Fields keep their order if the class says so.  Else the field with the smallest padding is
taken each time, and among those the one that was declared first.  The list the fields are
taken from is reordered by the way, but there is always exactly one field to take.
-/

namespace USprache.CodeBuilder.ClassContext

open Library List

variable {Expression LlvmType : Type} (context : ClassContext Expression LlvmType)

def fieldLLVMType (field : ClassField Expression) : LlvmType :=
  if field.isReference then context.pointerType else context.getLLVMType field.type

def paddingFor (currentOffset : Nat) (type : LlvmType) : Nat :=
  let alignment := context.getABITypeAlign type
  (alignment - currentOffset % alignment) % alignment

/-- The offset behind the parents and the virtual table pointer. -/
def startOffset : Nat := context.startTypes.foldl (fun currentOffset type =>
    if context.isSized type then
      currentOffset + (context.paddingFor currentOffset type + context.getTypeAllocSize type)
    else currentOffset) 0

/-- `~0u`. -/
def maxPadding : Nat := 2 ^ 32 - 1

/-- A step of the search for a field with minimal padding: the best padding and the index of
the field that has it. -/
def searchStep (currentOffset : Nat) (fieldsLeft : List (ClassField Expression))
    (best : Nat × Nat) (field : ClassField Expression) (i : Nat) : Nat × Nat :=
  let padding := context.paddingFor currentOffset (context.fieldLLVMType field)
  if padding < best.1 then (padding, i)
  else if padding = best.1 then
    -- Prefer first field with same padding.
    match fieldsLeft[best.2]? with
    | some bestField => if field.originalIndex < bestField.originalIndex then (best.1, i) else best
    | none => best
  else best

def searchFrom (currentOffset : Nat) (fieldsLeft : List (ClassField Expression)) :
    Nat → List (ClassField Expression) → Nat × Nat → Nat × Nat
  | _, [], best => best
  | i, field :: fields, best =>
    searchFrom currentOffset fieldsLeft (i + 1) fields
      (context.searchStep currentOffset fieldsLeft best field i)

def takeFields (currentOffset : Nat) (fieldsLeft : List (ClassField Expression)) :
    List (ClassField Expression) :=
  if fieldsLeft = [] then []
  else
    let best := context.searchFrom currentOffset fieldsLeft 0 fieldsLeft (maxPadding, 0)
    match fieldsLeft[best.2]? with
    | none => []
    | some field =>
      field :: takeFields
        (currentOffset + (best.1 + context.getTypeAllocSize (context.fieldLLVMType field)))
        (swapRemove fieldsLeft best.2)
termination_by fieldsLeft.length
decreasing_by
  rw [length_swapRemove]
  have hpos : 0 < fieldsLeft.length := length_pos_iff.2 (by assumption)
  omega

def fieldsOrder (fields : List (ClassField Expression)) : List (ClassField Expression) :=
  if context.keepFieldsOrder then
    fields.insertionSort fun l r => l.originalIndex ≤ r.originalIndex
  else
    context.takeFields context.startOffset (fields.filter fun field =>
      field.isReference || context.isSized (context.getLLVMType field.type))

def fieldIndices (fields : List (ClassField Expression)) : List (ClassField Expression × Nat) :=
  (context.fieldsOrder fields).zipIdx context.startTypes.length

def AlignmentsFit : Prop :=
  ∀ type, 0 < context.getABITypeAlign type ∧ context.getABITypeAlign type ≤ 2 ^ 32

def fieldPadding (currentOffset : Nat) (field : ClassField Expression) : Nat :=
  context.paddingFor currentOffset (context.fieldLLVMType field)

def Precedes (currentOffset : Nat) (field field' : ClassField Expression) : Prop :=
  context.fieldPadding currentOffset field < context.fieldPadding currentOffset field' ∨
    (context.fieldPadding currentOffset field = context.fieldPadding currentOffset field' ∧
      field.originalIndex ≤ field'.originalIndex)

theorem Precedes.trans {currentOffset : Nat} {a b c : ClassField Expression}
    (hab : context.Precedes currentOffset a b) (hbc : context.Precedes currentOffset b c) :
    context.Precedes currentOffset a c := by
  unfold Precedes at *
  omega

theorem fieldPadding_le (hfit : context.AlignmentsFit) (currentOffset : Nat)
    (f : ClassField Expression) : context.fieldPadding currentOffset f ≤ maxPadding := by
  obtain ⟨hpos, hle⟩ := hfit (context.fieldLLVMType f)
  have hlt : context.fieldPadding currentOffset f <
      context.getABITypeAlign (context.fieldLLVMType f) := Nat.mod_lt _ hpos
  unfold maxPadding
  omega

section Search

variable {currentOffset : Nat} {fieldsLeft : List (ClassField Expression)}

structure FoundBest (currentOffset : Nat) (fieldsLeft : List (ClassField Expression)) (i : Nat)
    (best : Nat × Nat) (field : ClassField Expression) : Prop where
  get : fieldsLeft[best.2]? = some field
  padding : best.1 = context.fieldPadding currentOffset field
  precedes : ∀ (j : Nat) (other : ClassField Expression), j < i →
    fieldsLeft[j]? = some other → context.Precedes currentOffset field other

theorem FoundBest.step {i : Nat} {best : Nat × Nat} {f next : ClassField Expression}
    (h : context.FoundBest currentOffset fieldsLeft i best f)
    (hnx : fieldsLeft[i]? = some next) :
    ∃ f', context.FoundBest currentOffset fieldsLeft (i + 1)
      (context.searchStep currentOffset fieldsLeft best next i) f' := by
  have hla : ∀ {f'}, (∀ j other, j < i →
      fieldsLeft[j]? = some other → context.Precedes currentOffset f' other) →
      context.Precedes currentOffset f' next →
      ∀ j other, j < i + 1 → fieldsLeft[j]? = some other → context.Precedes currentOffset f' other := by
    intro f' hbef hnew j other hj ho
    rcases Nat.lt_succ_iff_lt_or_eq.1 hj with hj | hj
    · exact hbef j other hj ho
    · subst hj
      rw [hnx] at ho
      exact Option.some.inj ho ▸ hnew
  have hbet : ∀ {f'}, context.Precedes currentOffset f' f →
      ∀ j other, j < i → fieldsLeft[j]? = some other → context.Precedes currentOffset f' other :=
    fun hpre j other hj ho => hpre.trans context (h.precedes j other hj ho)
  have hpad := h.padding
  have hdef : context.paddingFor currentOffset (context.fieldLLVMType next) =
    context.fieldPadding currentOffset next := rfl
  unfold searchStep
  simp only [h.get]
  split
  next hlt =>
    refine ⟨next, hnx, rfl, hla (hbet (.inl (by omega))) (.inr ⟨rfl, le_refl _⟩)⟩
  next hlt =>
    split
    next heq =>
      split
      next hix =>
        refine ⟨next, hnx, heq.symm, hla (hbet (.inr ⟨by omega, by omega⟩))
          (.inr ⟨rfl, le_refl _⟩)⟩
      next hix =>
        exact ⟨f, h.get, h.padding, hla h.precedes (.inr ⟨by omega, by omega⟩)⟩
    next hdf =>
      exact ⟨f, h.get, h.padding, hla h.precedes (.inl (by omega))⟩

theorem foundBest_first (hfit : context.AlignmentsFit) {first : ClassField Expression}
    (hfst : fieldsLeft[0]? = some first) :
    ∃ f, context.FoundBest currentOffset fieldsLeft 1
      (context.searchStep currentOffset fieldsLeft (maxPadding, 0) first 0) f := by
  have hle := context.fieldPadding_le hfit currentOffset first
  have hsf : ∀ j other, j < 1 →
      fieldsLeft[j]? = some other → context.Precedes currentOffset first other := by
    intro j other hj ho
    have hz : j = 0 := by omega
    subst hz
    rw [hfst] at ho
    exact Option.some.inj ho ▸ .inr ⟨rfl, le_refl _⟩
  have hdef : context.paddingFor currentOffset (context.fieldLLVMType first) =
    context.fieldPadding currentOffset first := rfl
  refine ⟨first, ?_⟩
  unfold searchStep
  simp only [hfst]
  split
  next => exact ⟨hfst, rfl, hsf⟩
  next hge =>
    rw [if_pos (by omega), if_neg (by omega)]
    exact ⟨hfst, by show maxPadding = _; omega, hsf⟩

theorem searchFrom_spec : ∀ {r : List (ClassField Expression)} {i : Nat} {best : Nat × Nat}
    {f : ClassField Expression}, fieldsLeft.drop i = r →
    context.FoundBest currentOffset fieldsLeft i best f →
    ∃ f', context.FoundBest currentOffset fieldsLeft fieldsLeft.length
      (context.searchFrom currentOffset fieldsLeft i r best) f' := by
  intro r
  induction r with
  | nil =>
    intro i best f hdr h
    have hle := drop_eq_nil_iff.1 hdr
    refine ⟨f, h.get, h.padding, ?_⟩
    intro j other hj ho
    exact h.precedes j other (by omega) ho
  | cons next r ih =>
    intro i best f hdr h
    have hnx : fieldsLeft[i]? = some next := by
      rw [← head?_drop, hdr]
      rfl
    have hdr' : fieldsLeft.drop (i + 1) = r := by
      rw [← tail_drop, hdr]
      rfl
    obtain ⟨f', h'⟩ := h.step context hnx
    exact ih hdr' h'

theorem search_spec (hfit : context.AlignmentsFit) (hne : fieldsLeft ≠ []) :
    ∃ f, context.FoundBest currentOffset fieldsLeft fieldsLeft.length
      (context.searchFrom currentOffset fieldsLeft 0 fieldsLeft (maxPadding, 0)) f := by
  cases hfls : fieldsLeft with
  | nil => exact absurd hfls hne
  | cons first r =>
    have hfst : ∃ f, context.FoundBest currentOffset (first :: r) 1
        (context.searchStep currentOffset (first :: r) (maxPadding, 0) first 0) f :=
      context.foundBest_first hfit rfl
    obtain ⟨f, hfst⟩ := hfst
    rw [searchFrom]
    exact context.searchFrom_spec rfl hfst

end Search

section Take

/-- The loop takes the field that precedes all, and goes on with the others. -/
theorem takeFields_cons (hfit : context.AlignmentsFit) (currentOffset : Nat)
    {fieldsLeft : List (ClassField Expression)} (hne : fieldsLeft ≠ []) :
    ∃ f r, fieldsLeft.Perm (f :: r) ∧ (∀ other ∈ fieldsLeft, context.Precedes currentOffset f other) ∧
      context.takeFields currentOffset fieldsLeft = f :: context.takeFields (currentOffset +
        (context.fieldPadding currentOffset f +
          context.getTypeAllocSize (context.fieldLLVMType f))) r := by
  have hfd : ∃ f, context.FoundBest currentOffset fieldsLeft fieldsLeft.length
      (context.searchFrom currentOffset fieldsLeft 0 fieldsLeft (maxPadding, 0)) f :=
    context.search_spec hfit hne
  obtain ⟨f, hbe⟩ := hfd
  refine ⟨f, _, swapRemove_perm hbe.get, ?_, ?_⟩
  · intro other ho
    obtain ⟨j, hj⟩ := mem_iff_getElem?.1 ho
    exact hbe.precedes j other (List.getElem?_eq_some_iff.1 hj).1 hj
  · rw [takeFields, if_neg hne]
    simp only [hbe.get, hbe.padding]

theorem takeFields_nil (currentOffset : Nat) : context.takeFields currentOffset [] = [] := by
  rw [takeFields, if_pos rfl]

theorem takeFields_perm (hfit : context.AlignmentsFit) : ∀ (c currentOffset : Nat)
    {fieldsLeft : List (ClassField Expression)}, fieldsLeft.length = c →
    (context.takeFields currentOffset fieldsLeft).Perm fieldsLeft := by
  intro c
  induction c with
  | zero =>
    intro currentOffset fieldsLeft hlen
    rw [length_eq_zero_iff.1 hlen, takeFields_nil]
  | succ c ih =>
    intro currentOffset fieldsLeft hlen
    have hne : fieldsLeft ≠ [] := length_pos_iff.1 (by omega)
    obtain ⟨f, rest, hpm, _, htk⟩ := context.takeFields_cons hfit currentOffset hne
    have hrs := hpm.length_eq
    rw [length_cons] at hrs
    rw [htk]
    exact ((ih _ (by omega)).cons f).trans hpm.symm

def IndicesDistinct (fields : List (ClassField Expression)) : Prop :=
  ∀ field ∈ fields, ∀ field' ∈ fields, field.originalIndex = field'.originalIndex → field = field'

theorem takeFields_eq_of_perm (hfit : context.AlignmentsFit) : ∀ (c currentOffset : Nat)
    {fs fs' : List (ClassField Expression)}, fs.length = c →
    fs.Perm fs' → IndicesDistinct fs →
    context.takeFields currentOffset fs = context.takeFields currentOffset fs' := by
  intro c
  induction c with
  | zero =>
    intro currentOffset fs fs' hlen hpm _
    have hnil := length_eq_zero_iff.1 hlen
    subst hnil
    rw [nil_perm.1 hpm]
  | succ c ih =>
    intro currentOffset fs fs' hlen hpm hdis
    have hne : fs ≠ [] := length_pos_iff.1 (by omega)
    have hne' : fs' ≠ [] := length_pos_iff.1 (by rw [← hpm.length_eq]; omega)
    obtain ⟨f, r, hrs, hfst, htk⟩ := context.takeFields_cons hfit currentOffset hne
    obtain ⟨f', r', hrs', hfst', htk'⟩ := context.takeFields_cons hfit currentOffset hne'
    have hmem : f ∈ fs := hrs.mem_iff.2 mem_cons_self
    have hmem' : f' ∈ fs := hpm.mem_iff.2 (hrs'.mem_iff.2 mem_cons_self)
    have heq : f = f' := by
      have hle := hfst f' hmem'
      have hge := hfst' f (hpm.mem_iff.1 hmem)
      unfold Precedes at hle hge
      exact hdis f hmem f' hmem' (by omega)
    subst heq
    have hper : r.Perm r' := (hrs.symm.trans (hpm.trans hrs')).cons_inv
    have hlens := hrs.length_eq
    rw [length_cons] at hlens
    rw [htk, htk', ih _ (by omega) hper]
    intro a ha b hb
    exact hdis a (hrs.mem_iff.2 (mem_cons_of_mem _ ha)) b (hrs.mem_iff.2 (mem_cons_of_mem _ hb))

end Take

def placedFields (fields : List (ClassField Expression)) : List (ClassField Expression) :=
  if context.keepFieldsOrder then fields
  else fields.filter fun field =>
    field.isReference || context.isSized (context.getLLVMType field.type)

theorem fieldsOrder_perm (hfit : context.AlignmentsFit) (fs : List (ClassField Expression)) :
    (context.fieldsOrder fs).Perm (context.placedFields fs) := by
  unfold fieldsOrder placedFields
  split
  · exact perm_insertionSort _ _
  · exact context.takeFields_perm hfit _ _ rfl

theorem fieldsOrder_sorted (hkeep : context.keepFieldsOrder = true)
    (fs : List (ClassField Expression)) :
    (context.fieldsOrder fs).Pairwise fun l r => l.originalIndex ≤ r.originalIndex := by
  rw [fieldsOrder, if_pos hkeep]
  exact pairwise_insertionSort _ fs

theorem fieldsOrder_eq_of_perm (hfit : context.AlignmentsFit)
    {fs fs' : List (ClassField Expression)} (hpm : fs.Perm fs')
    (hne : IndicesDistinct fs) :
    context.fieldsOrder fs = context.fieldsOrder fs' := by
  by_cases hkeep : context.keepFieldsOrder = true
  · have hmem : ∀ f, f ∈ context.fieldsOrder fs ↔ f ∈ fs := by
      intro f
      rw [fieldsOrder, if_pos hkeep]
      exact mem_insertionSort _
    have hmem' : ∀ f, f ∈ context.fieldsOrder fs' ↔ f ∈ fs := by
      intro f
      rw [fieldsOrder, if_pos hkeep, hpm.mem_iff]
      exact mem_insertionSort _
    have hper : (context.fieldsOrder fs).Perm (context.fieldsOrder fs') := by
      rw [fieldsOrder, fieldsOrder, if_pos hkeep, if_pos hkeep]
      exact (perm_insertionSort _ _).trans (hpm.trans (perm_insertionSort _ _).symm)
    apply List.Perm.eq_of_pairwise _ (context.fieldsOrder_sorted hkeep fs)
      (context.fieldsOrder_sorted hkeep fs') hper
    intro a b ha hb hle hge
    exact hne a ((hmem a).1 ha) b ((hmem' b).1 hb) (le_antisymm hle hge)
  · rw [fieldsOrder, fieldsOrder, if_neg hkeep, if_neg hkeep]
    apply context.takeFields_eq_of_perm hfit _ _ rfl (hpm.filter _)
    intro a ha b hb
    exact hne a (mem_filter.1 ha).1 b (mem_filter.1 hb).1

end USprache.CodeBuilder.ClassContext
