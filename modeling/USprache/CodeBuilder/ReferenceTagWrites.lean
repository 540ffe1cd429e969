import USprache.CodeBuilder.ClassFields

/-!
# Writes to the kinds of reference tags

For the kind of a tag the last write counts.  For its second order kind the first write
counts that is not `None`, and a later one that differs from it is an error, `None` too.
-/

namespace USprache.CodeBuilder

open List

/-- What a list of inner references is extended with. -/
def defaultReference : InnerReference := ⟨.imut, .none_⟩

def referenceOf (innerReferences : List InnerReference) (tag : Nat) : InnerReference :=
  innerReferences.getD tag defaultReference

def writesAt {α : Type} (tag : Nat) (writes : List (Nat × α)) : List α :=
  writes.filterMap fun write => if write.1 = tag then some write.2 else none

section WritesAt

variable {α : Type} {tag : Nat}

theorem writesAt_append (ws ws' : List (Nat × α)) :
    writesAt tag (ws ++ ws') = writesAt tag ws ++ writesAt tag ws' :=
  filterMap_append

theorem writesAt_flatMap {β : Type} (f : β → List (Nat × α)) (l : List β) :
    writesAt tag (l.flatMap f) = l.flatMap fun b => writesAt tag (f b) := by
  induction l with
  | nil => rfl
  | cons b l ih => rw [flatMap_cons, writesAt_append, ih, flatMap_cons]

theorem writesAt_cons (w : Nat × α) (ws : List (Nat × α)) : writesAt tag (w :: ws) =
    (if w.1 = tag then [w.2] else []) ++ writesAt tag ws := by
  unfold writesAt
  rw [filterMap_cons]
  split
  next hno =>
    split at hno
    · cases hno
    next hne => rw [if_neg hne, nil_append]
  next a hsm =>
    split at hsm
    next heq => rw [if_pos heq, Option.some.inj hsm, singleton_append]
    · cases hsm

end WritesAt

theorem innerReferences_ext {l l' : List InnerReference} (hlen : l.length = l'.length)
    (h : ∀ tag, referenceOf l tag = referenceOf l' tag) : l = l' := by
  apply ext_getElem hlen
  intro i hi hi'
  have htag := h i
  rw [referenceOf, referenceOf, getD_eq_getElem?_getD, getD_eq_getElem?_getD,
    getElem?_eq_getElem hi, getElem?_eq_getElem hi'] at htag
  exact htag

section Kinds

open ClassContext

theorem length_resize {α : Type} (l : List α) (sz : Nat) (v : α) : (resize l sz v).length = sz := by
  rw [resize, length_append, length_take, length_replicate]
  omega

theorem referenceOf_resize {list : List InnerReference} {sz : Nat} (h : list.length ≤ sz)
    (tag : Nat) : referenceOf (resize list sz ⟨.imut, .none_⟩) tag = referenceOf list tag := by
  rw [resize, take_of_length_le h, referenceOf, referenceOf, getD_eq_getElem?_getD,
    getD_eq_getElem?_getD]
  by_cases hlt : tag < list.length
  · rw [getElem?_append_left hlt]
  · rw [getElem?_append_right (by omega), getElem?_eq_none (l := list) (by omega),
      getElem?_replicate]
    split
    · rfl
    · rfl

theorem referenceOf_modify {l : List InnerReference} {tag : Nat} (h : tag < l.length)
    (f : InnerReference → InnerReference) (tag' : Nat) :
    referenceOf (l.modify tag f) tag' =
      if tag' = tag then f (referenceOf l tag) else referenceOf l tag' := by
  rw [referenceOf, getD_eq_getElem?_getD, getElem?_modify]
  by_cases heq : tag' = tag
  · subst heq
    rw [referenceOf, getD_eq_getElem?_getD, getElem?_eq_getElem h]
    simp
  · rw [if_neg heq, referenceOf]
    simp [Ne.symm heq]

theorem length_setKind (l : List InnerReference) (tag : Nat) (k : InnerReferenceKind) :
    (setKind l tag k).length = max l.length (tag + 1) := by
  rw [setKind, length_modify]
  split
  · rw [length_resize]
    omega
  · omega

theorem referenceOf_setKind (list : List InnerReference) (tag : Nat) (kind : InnerReferenceKind)
    (tag' : Nat) :
    referenceOf (setKind list tag kind) tag' =
      if tag' = tag then { referenceOf list tag' with kind := kind }
      else referenceOf list tag' := by
  rw [setKind]
  split
  next hge =>
    rw [referenceOf_modify (by rw [length_resize]; exact Nat.lt_succ_self tag),
      referenceOf_resize (by omega), referenceOf_resize (by omega)]
    split
    next heq => rw [heq]
    next => rfl
  next hlt =>
    rw [referenceOf_modify (by omega)]
    split
    next heq => rw [heq]
    next => rfl

def setKinds (list : List InnerReference) (writes : List (Nat × InnerReferenceKind)) :
    List InnerReference :=
  writes.foldl (fun list write => setKind list write.1 write.2) list

theorem referenceOf_setKinds : ∀ ws list tag,
    referenceOf (setKinds list ws) tag = { referenceOf list tag with
        kind := (writesAt tag ws).getLast?.getD (referenceOf list tag).kind } := by
  intro ws
  induction ws with
  | nil =>
    intro list tag
    rfl
  | cons w ws ih =>
    intro list tag
    have hst : setKinds list (w :: ws) = setKinds (setKind list w.1 w.2) ws := rfl
    rw [hst, ih, referenceOf_setKind, writesAt_cons]
    by_cases heq : tag = w.1
    · rw [if_pos heq, if_pos heq.symm, singleton_append, getLast?_cons]
      rfl
    · rw [if_neg heq, if_neg (Ne.symm heq), nil_append]

theorem length_setKinds : ∀ ws l, (setKinds l ws).length =
    (ws.map (fun w => w.1 + 1)).foldl max l.length := by
  intro ws
  induction ws with
  | nil =>
    intro l
    rfl
  | cons w ws ih =>
    intro l
    have hst : setKinds l (w :: ws) = setKinds (setKind l w.1 w.2) ws := rfl
    rw [hst, ih, length_setKind]
    rfl

theorem foldl_max_perm {l l' : List Nat} (h : l.Perm l') (n : Nat) :
    l.foldl max n = l'.foldl max n :=
  h.foldl_eq' (fun _ _ _ _ _ => by omega) n

theorem lt_length_setKinds {ws : List (Nat × InnerReferenceKind)}
    {w : Nat × InnerReferenceKind} (h : w ∈ ws) (l : List InnerReference) :
    w.1 < (setKinds l ws).length := by
  rw [length_setKinds]
  have hpm : (ws.map (fun w => w.1 + 1)).Perm
      ((w.1 + 1) :: (ws.map (fun w => w.1 + 1)).erase (w.1 + 1)) :=
    perm_cons_erase (mem_map_of_mem h)
  rw [foldl_max_perm hpm, foldl_cons]
  have hle : ∀ (nums : List Nat) (n : Nat), n ≤ nums.foldl max n := by
    intro nums
    induction nums with
    | nil => exact fun n => Nat.le_refl n
    | cons num nums ih =>
      intro n
      exact Nat.le_trans (Nat.le_max_left n num) (ih (max n num))
  have hbd := hle ((ws.map (fun w => w.1 + 1)).erase (w.1 + 1)) (max l.length (w.1 + 1))
  omega

end Kinds

section SecondOrder

open ClassContext

def settle (kind : SecondOrderInnerReferenceKind) :
    List SecondOrderInnerReferenceKind → SecondOrderInnerReferenceKind
  | [] => kind
  | write :: writes => settle (if kind = .none_ then write else kind) writes

/-- A write does not differ from what was set before. -/
def Follows (kind later : SecondOrderInnerReferenceKind) : Prop := kind = .none_ ∨ kind = later

instance : DecidableRel Follows := fun kind later =>
  inferInstanceAs (Decidable (kind = .none_ ∨ kind = later))

theorem settle_of_ne : ∀ (ws : List SecondOrderInnerReferenceKind)
    {k : SecondOrderInnerReferenceKind}, k ≠ .none_ → settle k ws = k := by
  intro ws
  induction ws with
  | nil =>
    intro k _
    rfl
  | cons write ws ih =>
    intro k hne
    rw [settle, if_neg hne]
    exact ih hne

theorem settle_none : ∀ ws,
    settle .none_ ws = (ws.find? (fun k => decide (k ≠ .none_))).getD .none_ := by
  intro ws
  induction ws with
  | nil => rfl
  | cons w ws ih =>
    rw [settle, if_pos rfl]
    by_cases hne : w = .none_
    · rw [hne, ih]
      rfl
    · rw [settle_of_ne ws hne, find?_cons_of_pos (by simpa using hne)]
      rfl

theorem pairwise_none_cons (ws : List SecondOrderInnerReferenceKind) :
    (.none_ :: ws : List SecondOrderInnerReferenceKind).Pairwise Follows ↔ ws.Pairwise Follows := by
  rw [pairwise_cons]
  exact and_iff_right fun _ _ => .inl rfl

theorem pairwise_cons_self (k : SecondOrderInnerReferenceKind)
    (ws : List SecondOrderInnerReferenceKind) :
    (k :: k :: ws).Pairwise Follows ↔ (k :: ws).Pairwise Follows := by
  rw [pairwise_cons, forall_mem_cons]
  constructor
  · exact fun h => h.2
  · exact fun h => ⟨⟨.inr rfl, (pairwise_cons.1 h).1⟩, h⟩

theorem pairwise_cons_of_ne {k : SecondOrderInnerReferenceKind} (hne : k ≠ .none_)
    (ws : List SecondOrderInnerReferenceKind) :
    (k :: ws).Pairwise Follows ↔ ∀ w ∈ ws, w = k := by
  constructor
  · intro h w hw
    exact (((pairwise_cons.1 h).1 w hw).resolve_left hne).symm
  · intro h
    rw [eq_replicate_of_mem h, ← replicate_succ]
    exact pairwise_replicate.2 (.inr (.inr rfl))

theorem settle_eq_of_mem : ∀ {ws : List SecondOrderInnerReferenceKind}
    {k : SecondOrderInnerReferenceKind}, ws.Pairwise Follows → k ∈ ws →
    k ≠ .none_ → settle .none_ ws = k := by
  intro ws
  induction ws with
  | nil =>
    intro k _ hmem
    cases hmem
  | cons w ws ih =>
    intro k hpw hmem hne
    rw [settle, if_pos rfl]
    by_cases hno : w = .none_
    · rw [hno]
      rcases mem_cons.1 hmem with heq | hmem
      · exact absurd (heq.trans hno) hne
      · exact ih (pairwise_cons.1 hpw).2 hmem hne
    · rw [settle_of_ne _ hno]
      rcases mem_cons.1 hmem with heq | hmem
      · exact heq.symm
      · exact ((pairwise_cons_of_ne hno _).1 hpw k hmem).symm

/-- The first of some writes is checked, and what it sets is checked with the others. -/
theorem pairwise_cons_write (k w : SecondOrderInnerReferenceKind)
    (ws : List SecondOrderInnerReferenceKind) :
    (k :: w :: ws).Pairwise Follows ↔ Follows k w ∧ (settle k [w] :: ws).Pairwise Follows := by
  by_cases hno : k = .none_
  · subst hno
    rw [pairwise_none_cons]
    exact (and_iff_right (.inl rfl)).symm
  · rw [settle_of_ne _ hno]
    by_cases heq : k = w
    · subst heq
      rw [pairwise_cons_self]
      exact (and_iff_right (.inr rfl)).symm
    · have hfo : ¬ Follows k w := fun h => h.elim hno heq
      constructor
      · exact fun h => absurd ((pairwise_cons.1 h).1 w mem_cons_self) hfo
      · exact fun h => absurd h.1 hfo

theorem setSecondOrderKind_spec {st : List InnerReference × List ClassBuildError}
    {w : Nat × SecondOrderInnerReferenceKind} (h : w.1 < st.1.length) :
    (setSecondOrderKind st w).1.length = st.1.length ∧
      (∀ tag, referenceOf (setSecondOrderKind st w).1 tag = { referenceOf st.1 tag with
          secondOrderKind := settle (referenceOf st.1 tag).secondOrderKind
            (if w.1 = tag then [w.2] else []) }) ∧
      ∀ err, err ∈ (setSecondOrderKind st w).2 ↔
        err ∈ st.2 ∨ (err = .mixingSecondOrderReferences w.1 ∧
          ¬ Follows (referenceOf st.1 w.1).secondOrderKind w.2) := by
  have hsf : ∀ tag, (referenceOf st.1 w.1).secondOrderKind ≠ .none_ →
      referenceOf st.1 tag = { referenceOf st.1 tag with
        secondOrderKind := settle (referenceOf st.1 tag).secondOrderKind
          (if w.1 = tag then [w.2] else []) } := by
    intro tag hne
    by_cases heq : w.1 = tag
    · rw [settle_of_ne _ (heq ▸ hne)]
    · rw [if_neg heq]
      rfl
  unfold setSecondOrderKind
  have hof : st.1.getD w.1 ⟨.imut, .none_⟩ = referenceOf st.1 w.1 := rfl
  simp only [hof]
  by_cases hno : (referenceOf st.1 w.1).secondOrderKind = .none_
  · rw [if_pos hno]
    refine ⟨length_modify .., ?_, ?_⟩
    · intro tag
      rw [referenceOf_modify h]
      by_cases heq : tag = w.1
      · rw [if_pos heq, if_pos heq.symm, heq, settle, if_pos hno]
        rfl
      · rw [if_neg heq, if_neg (Ne.symm heq)]
        rfl
    · intro err
      exact (or_iff_left fun herr => herr.2 (.inl hno)).symm
  · rw [if_neg hno]
    by_cases hsame : (referenceOf st.1 w.1).secondOrderKind = w.2
    · rw [if_neg (not_not_intro hsame)]
      refine ⟨rfl, fun tag => hsf tag hno, ?_⟩
      intro err
      exact (or_iff_left fun herr => herr.2 (.inr hsame)).symm
    · rw [if_pos hsame]
      refine ⟨rfl, fun tag => hsf tag hno, ?_⟩
      intro err
      have hfo : ¬ Follows (referenceOf st.1 w.1).secondOrderKind w.2 := fun h => h.elim hno hsame
      rw [mem_append, mem_singleton, and_iff_left hfo]

theorem settle_append : ∀ ws ws' k, settle k (ws ++ ws') = settle (settle k ws) ws' := by
  intro ws
  induction ws with
  | nil =>
    intro ws' k
    rfl
  | cons write ws ih =>
    intro ws' k
    exact ih ws' _

theorem foldl_setSecondOrderKind : ∀ ws st, (∀ w ∈ ws, w.1 < st.1.length) →
    (ws.foldl setSecondOrderKind st).1.length = st.1.length ∧
      (∀ tag, referenceOf (ws.foldl setSecondOrderKind st).1 tag = { referenceOf st.1 tag with
          secondOrderKind := settle (referenceOf st.1 tag).secondOrderKind (writesAt tag ws) }) ∧
      ∀ err, err ∈ (ws.foldl setSecondOrderKind st).2 ↔
        err ∈ st.2 ∨ ∃ tag, err = .mixingSecondOrderReferences tag ∧
          ¬ ((referenceOf st.1 tag).secondOrderKind :: writesAt tag ws).Pairwise Follows := by
  intro ws
  induction ws with
  | nil =>
    intro st _
    refine ⟨rfl, fun tag => rfl, ?_⟩
    intro err
    constructor
    · exact .inl
    · rintro (herr | ⟨tag, _, hnot⟩)
      · exact herr
      · exact absurd (pairwise_singleton Follows _) hnot
  | cons w ws ih =>
    intro st hws
    obtain ⟨hlen, hof, herrs⟩ := setSecondOrderKind_spec (hws w mem_cons_self)
    obtain ⟨hlen', hof', herrs'⟩ := ih (setSecondOrderKind st w) (fun other ho => by
      rw [hlen]
      exact hws other (mem_cons_of_mem w ho))
    refine ⟨hlen'.trans hlen, ?_, ?_⟩
    · intro tag
      rw [foldl_cons, hof', hof, writesAt_cons, settle_append]
    · intro err
      rw [foldl_cons, herrs', herrs, or_assoc]
      apply or_congr_right
      have htag : ∀ tag, ((referenceOf st.1 tag).secondOrderKind ::
          writesAt tag (w :: ws)).Pairwise Follows ↔
          (w.1 = tag → Follows (referenceOf st.1 tag).secondOrderKind w.2) ∧
            ((referenceOf (setSecondOrderKind st w).1 tag).secondOrderKind ::
              writesAt tag ws).Pairwise Follows := by
        intro tag
        rw [hof, writesAt_cons]
        by_cases heq : w.1 = tag
        · rw [if_pos heq, singleton_append, pairwise_cons_write]
          exact and_congr_left fun _ => ⟨fun h _ => h, fun h => h heq⟩
        · rw [if_neg heq]
          exact (and_iff_right fun h => absurd h heq).symm
      constructor
      · rintro (⟨herr, hnot⟩ | ⟨tag, herr, hnot⟩)
        · exact ⟨w.1, herr, fun h => hnot (((htag w.1).1 h).1 rfl)⟩
        · exact ⟨tag, herr, fun h => hnot ((htag tag).1 h).2⟩
      · rintro ⟨tag, herr, hnot⟩
        rw [htag, not_and_or] at hnot
        rcases hnot with hnot | hnot
        · push Not at hnot
          obtain ⟨rfl, hnot⟩ := hnot
          exact .inl ⟨herr, hnot⟩
        · exact .inr ⟨tag, herr, hnot⟩

end SecondOrder

end USprache.CodeBuilder
