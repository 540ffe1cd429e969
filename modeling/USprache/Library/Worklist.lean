import Mathlib.Algebra.BigOperators.Group.Finset.Basic

/-!
# Worklists

`worklist` visits everything that the successor lists lead to from a stack, each element
once.  `worklist_returns` bounds the fuel by the sum of the lengths of successor lists: each
list is pushed at most once.
-/

namespace USprache.Library

open List

variable {V : Type*} [DecidableEq V]

/-- Pops one element after another and returns those that were visited. -/
def worklist (successors : V → List V) : Nat → List V → List V → Option (List V)
  | _, [], visited => some visited
  | 0, _ :: _, _ => none
  | fuel + 1, v :: stack, visited =>
    if v ∈ visited then worklist successors fuel stack visited
    else worklist successors fuel ((successors v).reverse ++ stack) (v :: visited)

variable {successors : V → List V}

def WorklistInv (successors : V → List V) (stack visited : List V) : Prop :=
  ∀ v ∈ visited, ∀ w ∈ successors v, w ∈ visited ∨ w ∈ stack

/-- The result contains the stack and is closed under successors. -/
theorem worklist_closed : ∀ fuel stack seen r, WorklistInv successors stack seen →
    worklist successors fuel stack seen = some r →
    (∀ v, v ∈ stack ∨ v ∈ seen → v ∈ r) ∧ ∀ v ∈ r, ∀ w ∈ successors v, w ∈ r := by
  intro fuel
  induction fuel with
  | zero =>
    intro stack seen r hinv h
    cases stack with
    | nil =>
      cases h
      refine ⟨fun v hv => hv.resolve_left not_mem_nil, fun v hv w hw => ?_⟩
      exact (hinv v hv w hw).resolve_right not_mem_nil
    | cons v stack => cases h
  | succ fuel ih =>
    intro stack seen r hinv h
    cases stack with
    | nil =>
      cases h
      refine ⟨fun v hv => hv.resolve_left not_mem_nil, fun v hv w hw => ?_⟩
      exact (hinv v hv w hw).resolve_right not_mem_nil
    | cons v stack =>
      rw [worklist] at h
      by_cases hv : v ∈ seen
      · rw [if_pos hv] at h
        have hinv' : WorklistInv successors stack seen := by
          intro x hx w hw
          rcases hinv x hx w hw with hw | hw
          · exact .inl hw
          · rcases mem_cons.1 hw with rfl | hw
            · exact .inl hv
            · exact .inr hw
        obtain ⟨hmem, hcls⟩ := ih stack seen r hinv' h
        refine ⟨fun x hx => hmem x ?_, hcls⟩
        rcases hx with hx | hx
        · rcases mem_cons.1 hx with rfl | hx
          · exact .inr hv
          · exact .inl hx
        · exact .inr hx
      · rw [if_neg hv] at h
        have hinv' : WorklistInv successors ((successors v).reverse ++ stack) (v :: seen) := by
          intro x hx w hw
          rw [mem_append, mem_reverse, mem_cons]
          rcases mem_cons.1 hx with rfl | hx
          · exact .inr (.inl hw)
          · rcases hinv x hx w hw with hw | hw
            · exact .inl (.inr hw)
            · rcases mem_cons.1 hw with rfl | hw
              · exact .inl (.inl rfl)
              · exact .inr (.inr hw)
        obtain ⟨hmem, hcls⟩ := ih _ _ r hinv' h
        refine ⟨fun x hx => hmem x ?_, hcls⟩
        rw [mem_append, mem_cons]
        rcases hx with hx | hx
        · rcases mem_cons.1 hx with rfl | hx
          · exact .inr (.inl rfl)
          · exact .inl (.inr hx)
        · exact .inr (.inr hx)

theorem worklist_subset {P : V → Prop} (hP : ∀ v, P v → ∀ w ∈ successors v, P w) :
    ∀ fuel stack seen r, (∀ v ∈ stack, P v) → (∀ v ∈ seen, P v) →
      worklist successors fuel stack seen = some r → ∀ v ∈ r, P v := by
  intro fuel
  induction fuel with
  | zero =>
    intro stack seen r _ hvis h
    cases stack with
    | nil =>
      cases h
      exact hvis
    | cons v stack => cases h
  | succ fuel ih =>
    intro stack seen r hstk hvis h
    cases stack with
    | nil =>
      cases h
      exact hvis
    | cons v stack =>
      obtain ⟨hv, hrs⟩ := forall_mem_cons.1 hstk
      rw [worklist] at h
      by_cases hmem : v ∈ seen
      · rw [if_pos hmem] at h
        exact ih stack seen r hrs hvis h
      · rw [if_neg hmem] at h
        refine ih _ _ r (fun w hw => ?_) (forall_mem_cons.2 ⟨hv, hvis⟩) h
        rcases mem_append.1 hw with hw | hw
        · exact hP v hv w (mem_reverse.1 hw)
        · exact hrs w hw

/-- Fuel for all pushes: one for each element on the stack and each successor of an
element that is not visited yet. -/
theorem worklist_returns {S : Finset V} (hS : ∀ v, ∀ w ∈ successors v, w ∈ S) :
    ∀ fuel stack seen, (∀ v ∈ stack, v ∈ S) →
      stack.length + ∑ v ∈ S.filter (· ∉ seen), (successors v).length ≤ fuel →
      ∃ r, worklist successors fuel stack seen = some r := by
  intro fuel
  induction fuel with
  | zero =>
    intro stack seen _ hf
    have hnil : stack = [] := length_eq_zero_iff.1 (by omega)
    subst hnil
    exact ⟨seen, rfl⟩
  | succ fuel ih =>
    intro stack seen hstk hf
    cases stack with
    | nil => exact ⟨seen, rfl⟩
    | cons v stack =>
      have hrs : ∀ w ∈ stack, w ∈ S := fun w hw => hstk w (mem_cons_of_mem _ hw)
      rw [length_cons] at hf
      rw [worklist]
      by_cases hv : v ∈ seen
      · rw [if_pos hv]
        exact ih stack seen hrs (by omega)
      · rw [if_neg hv]
        refine ih _ _ ?_ ?_
        · intro w hw
          rcases mem_append.1 hw with hw | hw
          · exact hS v w (mem_reverse.1 hw)
          · exact hrs w hw
        · have hmem : v ∈ S.filter (· ∉ seen) := Finset.mem_filter.2 ⟨hstk v mem_cons_self, hv⟩
          have hsum := Finset.add_sum_erase _ (fun w => (successors w).length) hmem
          have hera : S.filter (· ∉ v :: seen) = (S.filter (· ∉ seen)).erase v := by
            ext w
            simp only [Finset.mem_filter, Finset.mem_erase, mem_cons]
            tauto
          rw [hera, length_append, length_reverse]
          omega

variable {L : Type*}

/-- A worklist with labels: what is pushed gets the label of the element it is pushed for. -/
def labelledWorklist (successors : V → List V) :
    Nat → List (V × L) → List (V × L) → Option (List (V × L))
  | _, [], labels => some labels
  | 0, _ :: _, _ => none
  | fuel + 1, (v, l) :: stack, labels =>
    if v ∈ labels.map Prod.fst then labelledWorklist successors fuel stack labels
    else
      labelledWorklist successors fuel ((successors v).reverse.map (·, l) ++ stack) ((v, l) :: labels)

theorem labelledWorklist_forget : ∀ (fuel : Nat) (stack labels : List (V × L)),
    (labelledWorklist successors fuel stack labels).map (List.map Prod.fst) =
      worklist successors fuel (stack.map Prod.fst) (labels.map Prod.fst) := by
  intro fuel
  induction fuel with
  | zero =>
    intro stack labels
    cases stack <;> rfl
  | succ fuel ih =>
    intro stack labels
    cases stack with
    | nil => rfl
    | cons vl stack =>
      obtain ⟨v, l⟩ := vl
      rw [labelledWorklist, map_cons, worklist]
      by_cases hv : v ∈ labels.map Prod.fst
      · rw [if_pos hv, if_pos hv, ih]
      · rw [if_neg hv, if_neg hv, ih, map_append, map_map]
        congr 2
        exact map_id' _

/-- The labels at some moment.  `pending` is the upper part of the stack, with one label for all;
below it are the `roots`, whose labels are not in use yet. -/
structure LabelInv (successors : V → List V) (given pending roots labels : List (V × L)) : Prop where
  nodup : (labels.map Prod.fst).Nodup
  /-- An element can be reached from a root with its label. -/
  sound : ∀ v l, (v, l) ∈ labels →
    ∃ r, (r, l) ∈ given ∧ Relation.ReflTransGen (fun x y => y ∈ successors x) r v
  roots_given : ∀ r ∈ roots, r ∈ given
  fresh : ∀ l ∈ roots.map Prod.snd, l ∉ labels.map Prod.snd ++ pending.map Prod.snd
  distinct : (roots.map Prod.snd).Nodup
  pushed : ∀ v l, (v, l) ∈ pending → ∃ u, (u, l) ∈ labels ∧ v ∈ successors u
  same : ∀ l ∈ pending.map Prod.snd, ∀ l' ∈ pending.map Prod.snd, l = l'
  waiting : ∀ v l, (v, l) ∈ labels → ∀ w ∈ successors v, (w, l) ∈ labels ∨ (w, l) ∈ pending

omit [DecidableEq V] in
theorem eq_of_labels {labels : List (V × L)} (h : (labels.map Prod.fst).Nodup) {v : V} {l l' : L}
    (hl : (v, l) ∈ labels) (hl' : (v, l') ∈ labels) : l = l' := by
  have hinj := inj_on_of_nodup_map h hl hl' rfl
  exact (Prod.mk.inj hinj).2

section

variable {given pending roots labels : List (V × L)} {v : V} {l : L}

section

omit [DecidableEq V]

theorem LabelInv.visited (hsymm : ∀ v w, w ∈ successors v → v ∈ successors w)
    (h : LabelInv successors given ((v, l) :: pending) roots labels) (hv : v ∈ labels.map Prod.fst) :
    (v, l) ∈ labels := by
  obtain ⟨⟨_, l'⟩, hl', rfl⟩ := mem_map.1 hv
  obtain ⟨u, hu, hsucc⟩ := h.pushed _ l mem_cons_self
  have hl : l = l' := by
    rcases h.waiting _ l' hl' u (hsymm _ _ hsucc) with hu' | hu'
    · exact eq_of_labels h.nodup hu hu'
    · exact h.same l (mem_map_of_mem mem_cons_self) l' (mem_map_of_mem hu')
  rw [hl]
  exact hl'

theorem LabelInv.skip (hsymm : ∀ v w, w ∈ successors v → v ∈ successors w)
    (h : LabelInv successors given ((v, l) :: pending) roots labels) (hv : v ∈ labels.map Prod.fst) :
    LabelInv successors given pending roots labels where
  nodup := h.nodup
  sound := h.sound
  roots_given := h.roots_given
  fresh l' hl' hmem := h.fresh l' hl' (by
    rw [mem_append] at hmem ⊢
    exact hmem.imp_right (mem_cons_of_mem l))
  distinct := h.distinct
  pushed w l' hw := h.pushed w l' (mem_cons_of_mem _ hw)
  same l1 h1 l2 h2 := h.same l1 (mem_cons_of_mem _ h1) l2 (mem_cons_of_mem _ h2)
  waiting u l' hu w hw := by
    rcases h.waiting u l' hu w hw with hw | hw
    · exact .inl hw
    · rcases mem_cons.1 hw with heq | hw
      · rw [heq]
        exact .inl (h.visited hsymm hv)
      · exact .inr hw

theorem mem_snd_map {vs : List V} {l l' : L} (h : l' ∈ (vs.map (·, l)).map Prod.snd) : l' = l := by
  obtain ⟨⟨_, _⟩, hmem, rfl⟩ := mem_map.1 h
  obtain ⟨_, -, heq⟩ := mem_map.1 hmem
  exact (Prod.mk.inj heq).2.symm

theorem LabelInv.visit (h : LabelInv successors given ((v, l) :: pending) roots labels)
    (hv : v ∉ labels.map Prod.fst) :
    LabelInv successors given ((successors v).reverse.map (·, l) ++ pending) roots ((v, l) :: labels) where
  nodup := by
    rw [map_cons, nodup_cons]
    exact ⟨hv, h.nodup⟩
  sound u l' hu := by
    rcases mem_cons.1 hu with heq | hu
    · obtain ⟨rfl, rfl⟩ := Prod.mk.inj heq
      obtain ⟨w, hw, hsucc⟩ := h.pushed u l' mem_cons_self
      obtain ⟨r, hr, hrch⟩ := h.sound w l' hw
      exact ⟨r, hr, hrch.tail hsucc⟩
    · exact h.sound u l' hu
  roots_given := h.roots_given
  fresh l' hl' hmem := h.fresh l' hl' (by
    rw [map_append] at hmem
    rw [map_cons, mem_append, mem_cons]
    rcases mem_append.1 hmem with hmem | hmem
    · rw [map_cons, mem_cons] at hmem
      exact hmem.elim (fun heq => .inr (.inl heq)) .inl
    · rcases mem_append.1 hmem with hmem | hmem
      · exact .inr (.inl (mem_snd_map hmem))
      · exact .inr (.inr hmem))
  distinct := h.distinct
  pushed w l' hw := by
    rcases mem_append.1 hw with hw | hw
    · obtain ⟨_, hmem, heq⟩ := mem_map.1 hw
      obtain ⟨rfl, rfl⟩ := Prod.mk.inj heq
      exact ⟨v, mem_cons_self, mem_reverse.1 hmem⟩
    · obtain ⟨u, hu, hsucc⟩ := h.pushed w l' (mem_cons_of_mem _ hw)
      exact ⟨u, mem_cons_of_mem _ hu, hsucc⟩
  same l1 h1 l2 h2 := by
    have hl : ∀ l' ∈ ((successors v).reverse.map (·, l) ++ pending).map Prod.snd, l' = l := by
      intro l' hl'
      rw [map_append] at hl'
      rcases mem_append.1 hl' with hl' | hl'
      · exact mem_snd_map hl'
      · exact h.same l' (mem_cons_of_mem _ hl') l mem_cons_self
    rw [hl l1 h1, hl l2 h2]
  waiting u l' hu w hw := by
    rcases mem_cons.1 hu with heq | hu
    · obtain ⟨rfl, rfl⟩ := Prod.mk.inj heq
      exact .inr (mem_append_left _ (mem_map_of_mem (mem_reverse.2 hw)))
    · rcases h.waiting u l' hu w hw with hw | hw
      · exact .inl (mem_cons_of_mem _ hw)
      · rcases mem_cons.1 hw with heq | hw
        · rw [heq]
          exact .inl mem_cons_self
        · exact .inr (mem_append_right _ hw)

theorem LabelInv.skipRoot {r : V × L} (h : LabelInv successors given [] (r :: roots) labels) :
    LabelInv successors given [] roots labels where
  nodup := h.nodup
  sound := h.sound
  roots_given r' hr' := h.roots_given r' (mem_cons_of_mem r hr')
  fresh l' hl' := h.fresh l' (mem_cons_of_mem _ hl')
  distinct := (nodup_cons.1 h.distinct).2
  pushed := h.pushed
  same := h.same
  waiting := h.waiting

/-- All labels in use are complete when a root is taken from the stack. -/
theorem LabelInv.visitRoot (h : LabelInv successors given [] ((v, l) :: roots) labels)
    (hv : v ∉ labels.map Prod.fst) :
    LabelInv successors given ((successors v).reverse.map (·, l)) roots ((v, l) :: labels) where
  nodup := by
    rw [map_cons, nodup_cons]
    exact ⟨hv, h.nodup⟩
  sound u l' hu := by
    rcases mem_cons.1 hu with heq | hu
    · obtain ⟨rfl, rfl⟩ := Prod.mk.inj heq
      exact ⟨u, h.roots_given _ mem_cons_self, .refl⟩
    · exact h.sound u l' hu
  roots_given r hr := h.roots_given r (mem_cons_of_mem _ hr)
  fresh l' hl' hmem := by
    have hne : l' ≠ l := by
      rintro rfl
      exact (nodup_cons.1 h.distinct).1 hl'
    rw [map_cons, cons_append, mem_cons, mem_append] at hmem
    rcases hmem with heq | hmem | hmem
    · exact hne heq
    · exact h.fresh l' (mem_cons_of_mem _ hl') (mem_append_left _ hmem)
    · exact hne (mem_snd_map hmem)
  distinct := (nodup_cons.1 h.distinct).2
  pushed w l' hw := by
    obtain ⟨_, hmem, heq⟩ := mem_map.1 hw
    obtain ⟨rfl, rfl⟩ := Prod.mk.inj heq
    exact ⟨v, mem_cons_self, mem_reverse.1 hmem⟩
  same l1 h1 l2 h2 := by rw [mem_snd_map h1, mem_snd_map h2]
  waiting u l' hu w hw := by
    rcases mem_cons.1 hu with heq | hu
    · obtain ⟨rfl, rfl⟩ := Prod.mk.inj heq
      exact .inr (mem_map_of_mem (mem_reverse.2 hw))
    · rcases h.waiting u l' hu w hw with hw | hw
      · exact .inl (mem_cons_of_mem _ hw)
      · cases hw

end

end

theorem labelledWorklist_inv (hsymm : ∀ v w, w ∈ successors v → v ∈ successors w)
    {given : List (V × L)} : ∀ fuel pending roots labels res,
      LabelInv successors given pending roots labels →
      labelledWorklist successors fuel (pending ++ roots) labels = some res →
      LabelInv successors given [] [] res := by
  intro fuel
  induction fuel with
  | zero =>
    intro pending roots labels res hinv h
    cases pending with
    | nil =>
      cases roots with
      | nil =>
        obtain rfl := Option.some.inj h
        exact hinv
      | cons r roots => cases h
    | cons p pending => cases h
  | succ fuel ih =>
    intro pending roots labels res hinv h
    cases pending with
    | nil =>
      cases roots with
      | nil =>
        obtain rfl := Option.some.inj h
        exact hinv
      | cons r roots =>
        obtain ⟨v, l⟩ := r
        rw [nil_append, labelledWorklist] at h
        by_cases hv : v ∈ labels.map Prod.fst
        · rw [if_pos hv] at h
          exact ih [] roots labels res hinv.skipRoot h
        · rw [if_neg hv] at h
          exact ih _ roots _ res (hinv.visitRoot hv) h
    | cons p pending =>
      obtain ⟨v, l⟩ := p
      rw [cons_append, labelledWorklist] at h
      by_cases hv : v ∈ labels.map Prod.fst
      · rw [if_pos hv] at h
        exact ih pending roots labels res (hinv.skip hsymm hv) h
      · rw [if_neg hv, ← append_assoc] at h
        exact ih _ roots _ res (hinv.visit hv) h

/-- The labels of a finished worklist over a symmetric graph tell its components apart. -/
structure Components (successors : V → List V) (roots labels : List (V × L)) : Prop where
  nodup : (labels.map Prod.fst).Nodup
  roots_mem : ∀ r ∈ roots.map Prod.fst, r ∈ labels.map Prod.fst
  rooted : ∀ v l, (v, l) ∈ labels →
    ∃ r, (r, l) ∈ roots ∧ Relation.ReflTransGen (fun x y => y ∈ successors x) r v
  closed : ∀ v l, (v, l) ∈ labels → ∀ w ∈ successors v, (w, l) ∈ labels

theorem labelledWorklist_components (hsymm : ∀ v w, w ∈ successors v → v ∈ successors w)
    {fuel : Nat} {roots labels : List (V × L)} (hroo : (roots.map Prod.snd).Nodup)
    (h : labelledWorklist successors fuel roots [] = some labels) :
    Components successors roots labels := by
  have hst : LabelInv successors roots [] roots ([] : List (V × L)) :=
    { nodup := nodup_nil
      sound := nofun
      roots_given := fun _ => id
      fresh := nofun
      distinct := hroo
      pushed := nofun
      same := nofun
      waiting := nofun }
  have hinv := labelledWorklist_inv hsymm fuel [] roots [] labels hst h
  have hfor : worklist successors fuel (roots.map Prod.fst) [] = some (labels.map Prod.fst) := by
    rw [← map_nil, ← labelledWorklist_forget, h, Option.map_some]
  have hcls := worklist_closed fuel (roots.map Prod.fst) [] (labels.map Prod.fst)
    nofun hfor
  refine ⟨hinv.nodup, fun r hr => hcls.1 r (.inl hr), hinv.sound, fun v l hv w hw => ?_⟩
  rcases hinv.waiting v l hv w hw with hw | hw
  · exact hw
  · cases hw

end USprache.Library
