import USprache.CodeBuilder.GraphFrames

/-!
# Links that are added

A series of checked links adds what it requires, except links that are refused as loops of
mutable references.  The walk to the inner reference nodes of variables adds the links to those
from which its start can be reached, and it ends if and only if each of its paths does.
-/

namespace USprache.CodeBuilder.ReferencesGraph

open Library Relation List

variable {V : Type} [DecidableEq V]

abbrev Reported (V : Type) := ReferencesGraph V × List (GraphError V)

def tryLink (vars : VariableNodes V) (st : Reported V) (src dst : V) : Reported V :=
  let res := st.1.tryAddLink vars src dst
  (res.1, st.2 ++ res.2)

structure Adds (required : Link V → Prop) (st st' : Reported V) : Prop where
  nodes : st'.1.nodes = st.1.nodes
  kept : ∀ l ∈ st.1.links, l ∈ st'.1.links
  only : ∀ l ∈ st'.1.links, l ∈ st.1.links ∨ required l
  all : ∀ l, required l → l.src ≠ l.dst →
    l ∈ st'.1.links ∨ .creatingMutableReferencesLoop l.dst ∈ st'.2
  errors : ∀ e ∈ st.2, e ∈ st'.2
  nodup : st.1.links.Nodup → st'.1.links.Nodup

section

omit [DecidableEq V]

theorem Adds.refl (st : Reported V) : Adds (fun _ => False) st st where
  nodes := rfl
  kept _ h := h
  only _ h := .inl h
  all _ h := h.elim
  errors _ h := h
  nodup h := h

theorem Adds.trans {required required' : Link V → Prop} {st st' st'' : Reported V}
    (h : Adds required st st') (h' : Adds required' st' st'') :
    Adds (fun l => required l ∨ required' l) st st'' where
  nodes := h'.nodes.trans h.nodes
  kept l hl := h'.kept l (h.kept l hl)
  only l hl := by
    rcases h'.only l hl with hl | hl
    · rcases h.only l hl with hl | hl
      · exact .inl hl
      · exact .inr (.inl hl)
    · exact .inr (.inr hl)
  all l hl hne := by
    rcases hl with hl | hl
    · rcases h.all l hl hne with hl | he
      · exact .inl (h'.kept l hl)
      · exact .inr (h'.errors _ he)
    · exact h'.all l hl hne
  errors e he := h'.errors e (h.errors e he)
  nodup hd := h'.nodup (h.nodup hd)

theorem Adds.congr {required required' : Link V → Prop} {st st' : Reported V}
    (h : Adds required st st') (heq : ∀ l, required l ↔ required' l) :
    Adds required' st st' where
  nodes := h.nodes
  kept := h.kept
  only l hl := (h.only l hl).imp_right (heq l).1
  all l hl := h.all l ((heq l).2 hl)
  errors := h.errors
  nodup := h.nodup

end

theorem tryLink_adds (vars : VariableNodes V) (st : Reported V) (src dst : V) :
    Adds (fun l => l = ⟨src, dst⟩) st (tryLink vars st src dst) where
  nodes := tryAddLink_nodes vars st.1 src dst
  kept l hl := tryAddLink_keeps (P := fun G => l ∈ G.links) hl
    (fun _ => mem_addLink.2 (.inl hl))
  only l hl := by
    have h : ∀ l ∈ (st.1.tryAddLink vars src dst).1.links, l ∈ st.1.links ∨ l = ⟨src, dst⟩ := by
      apply tryAddLink_keeps (P := fun G => ∀ l ∈ G.links, l ∈ st.1.links ∨ l = ⟨src, dst⟩)
      · exact fun l hl => .inl hl
      · exact fun _ l hl => (mem_addLink.1 hl).imp_right And.right
    exact h l hl
  all l hl hne := by
    subst hl
    by_cases hlp : .creatingMutableReferencesLoop dst ∈ (st.1.tryAddLink vars src dst).2
    · exact .inr (mem_append_right st.2 hlp)
    · have h : .creatingMutableReferencesLoop dst ∉ (st.1.tryAddLink vars src dst).2 →
          (st.1.tryAddLink vars src dst).1.links = (st.1.addLink src dst).links := by
        unfold tryAddLink
        dsimp only
        split
        · exact fun h => absurd (mem_append_right _ mem_cons_self) h
        · exact fun _ => rfl
      left
      show _ ∈ (st.1.tryAddLink vars src dst).1.links
      rw [h hlp]
      exact mem_addLink.2 (.inr ⟨hne, rfl⟩)
  errors e he := mem_append_left _ he
  nodup hd := tryAddLink_keeps (P := fun G => G.links.Nodup) hd (fun _ => addLink_nodup hd src dst)

omit [DecidableEq V] in
theorem foldl_adds {α : Type} {required : α → Link V → Prop} {f : Reported V → α → Reported V}
    (xs : List α) (hf : ∀ a ∈ xs, ∀ st, Adds (required a) st (f st a))
    (st : Reported V) :
    Adds (fun l => ∃ a ∈ xs, required a l) st (xs.foldl f st) := by
  induction xs generalizing st with
  | nil =>
    refine (Adds.refl st).congr (fun l => ⟨False.elim, ?_⟩)
    rintro ⟨a, ha, -⟩
    cases ha
  | cons a xs ih =>
    have hst := hf a mem_cons_self st
    have hrs := ih (fun b hb => hf b (mem_cons_of_mem a hb)) (f st a)
    refine (hst.trans hrs).congr (fun l => ?_)
    simp only [mem_cons, exists_eq_or_imp]

def Entry (vars : VariableNodes V) (G : ReferencesGraph V) (x y : V) : Prop :=
  ⟨x, y⟩ ∈ G.links ∧ vars.isVariableInnerReferenceNode y = false

def Walkable (vars : VariableNodes V) (G : ReferencesGraph V) (dst : V) : Prop :=
  Acc (Entry vars G) dst

def Accessible (vars : VariableNodes V) (G : ReferencesGraph V) (dst node : V) : Prop :=
  vars.isVariableInnerReferenceNode node = true ∧ ReflTransGen (Entry vars G) node dst

variable {vars : VariableNodes V} {G : ReferencesGraph V}

variable {dst node : V} {S : V → Prop} {G' : ReferencesGraph V}

omit [DecidableEq V] in
theorem accessible_of_inner (hdst : vars.isVariableInnerReferenceNode dst = true) :
    Accessible vars G dst node ↔ node = dst := by
  constructor
  · rintro ⟨-, hp⟩
    rcases ReflTransGen.cases_tail hp with heq | ⟨y, -, he⟩
    · exact heq.symm
    · rw [he.2] at hdst
      cases hdst
  · rintro rfl
    exact ⟨hdst, .refl⟩

omit [DecidableEq V] in
theorem accessible_of_not_inner (hdst : vars.isVariableInnerReferenceNode dst = false) :
    Accessible vars G dst node ↔ ∃ x, ⟨x, dst⟩ ∈ G.links ∧ Accessible vars G x node := by
  constructor
  · rintro ⟨hnode, hp⟩
    rcases ReflTransGen.cases_tail hp with heq | ⟨x, hp, he⟩
    · rw [← heq, hdst] at hnode
      cases hnode
    · exact ⟨x, he.1, hnode, hp⟩
  · rintro ⟨x, hl, hnode, hp⟩
    exact ⟨hnode, hp.tail ⟨hl, hdst⟩⟩

/-- The walks of two graphs from the nodes of a set, if the set is closed and the graphs agree
on the links into it. -/
structure SameWalks (vars : VariableNodes V) (S : V → Prop) (G G' : ReferencesGraph V) : Prop where
  inputs : ∀ x y, S y → vars.isVariableInnerReferenceNode y = false →
    (⟨x, y⟩ ∈ G'.links ↔ ⟨x, y⟩ ∈ G.links)
  closed : ∀ l ∈ G.links, S l.src

section

omit [DecidableEq V]

theorem SameWalks.entry_iff (h : SameWalks vars S G G')
    (x y : V) (hy : S y) : Entry vars G x y ↔ Entry vars G' x y := by
  constructor
  · exact fun hxy => ⟨(h.inputs x y hy hxy.2).2 hxy.1, hxy.2⟩
  · exact fun hxy => ⟨(h.inputs x y hy hxy.2).1 hxy.1, hxy.2⟩

theorem SameWalks.walkable_iff (h : SameWalks vars S G G') (hdst : S dst) :
    Walkable vars G dst ↔ Walkable vars G' dst :=
  acc_congr_of_closed (fun x y _ hxy => h.closed ⟨x, y⟩ hxy.1) h.entry_iff hdst

theorem SameWalks.accessible_iff (h : SameWalks vars S G G') (hdst : S dst) :
    Accessible vars G dst node ↔ Accessible vars G' dst node :=
  and_congr_right fun _ =>
    reflTransGen_congr_of_closed (fun x y _ hxy => h.closed ⟨x, y⟩ hxy.1) h.entry_iff hdst

end

structure Walked (vars : VariableNodes V) (G : ReferencesGraph V) (src dst : V)
    (st st' : Reported V) : Prop where
  walkable : Walkable vars G dst
  sameInputs : SameInputs vars G st'.1
  adds : Adds (fun l => l.src = src ∧ Accessible vars G dst l.dst) st st'

omit [DecidableEq V] in
theorem foldlM_adds {α : Type} {required : α → Link V → Prop} {P : Reported V → Prop}
    {Q : α → Prop} {f : Reported V → α → Option (Reported V)} (xs : List α)
    (hf : ∀ a ∈ xs, ∀ st st', P st → f st a = some st' → P st' ∧ Q a ∧ Adds (required a) st st') :
    ∀ {st st' : Reported V}, P st → xs.foldlM f st = some st' →
      P st' ∧ (∀ a ∈ xs, Q a) ∧ Adds (fun l => ∃ a ∈ xs, required a l) st st' := by
  induction xs with
  | nil =>
    intro st st' hP hst
    cases hst
    refine ⟨hP, nofun, (Adds.refl st).congr (fun l => ⟨False.elim, ?_⟩)⟩
    rintro ⟨a, ha, -⟩
    cases ha
  | cons a xs ih =>
    intro st st' hP hst
    rw [foldlM_cons] at hst
    obtain ⟨st1, hstep, hst⟩ := Option.bind_eq_some_iff.1 hst
    obtain ⟨hP1, hQ, hadds⟩ := hf a mem_cons_self st st1 hP hstep
    obtain ⟨hP', hQs, hadds'⟩ := ih (fun b hb => hf b (mem_cons_of_mem a hb)) hP1 hst
    refine ⟨hP', ?_, (hadds.trans hadds').congr (fun l => ?_)⟩
    · intro b hb
      rcases mem_cons.1 hb with rfl | hb
      · exact hQ
      · exact hQs b hb
    · simp only [mem_cons, exists_eq_or_imp]

theorem walkLinks_spec (src : V) : ∀ fuel dst st st', SameInputs vars G st.1 →
    tryAddLinkToAllAccessibleVariableNodesInnerReferencesRec vars src fuel dst st = some st' →
    Walked vars G src dst st st' := by
  intro fuel
  induction fuel with
  | zero => exact fun _ _ _ _ h => nomatch h
  | succ fuel ih =>
    intro dst st st' hst h
    unfold tryAddLinkToAllAccessibleVariableNodesInnerReferencesRec at h
    by_cases hdst : vars.isVariableInnerReferenceNode dst = true
    · rw [if_pos hdst] at h
      cases h
      refine ⟨⟨dst, fun x hx => ?_⟩, hst.tryAddLink hdst, ?_⟩
      · rw [hx.2] at hdst
        cases hdst
      · refine (tryLink_adds vars st src dst).congr (fun l => ?_)
        rw [accessible_of_inner hdst]
        constructor
        · rintro rfl
          exact ⟨rfl, rfl⟩
        · rintro ⟨hsrc, hdst⟩
          rw [← hsrc, ← hdst]
    · rw [if_neg hdst] at h
      have hdst' : vars.isVariableInnerReferenceNode dst = false := by simpa using hdst
      have hnodes : ∀ x, x ∈ st.1.srcNodes dst ↔ ⟨x, dst⟩ ∈ G.links :=
        fun x => mem_srcNodes.trans (hst x dst hdst')
      have hstep : ∀ x ∈ st.1.srcNodes dst, ∀ s s', SameInputs vars G s.1 →
          tryAddLinkToAllAccessibleVariableNodesInnerReferencesRec vars src fuel x s = some s' →
          SameInputs vars G s'.1 ∧ Walkable vars G x ∧
            Adds (fun l => l.src = src ∧ Accessible vars G x l.dst) s s' := by
        intro x _ s s' hs hstep
        have hwal := ih x s s' hs hstep
        exact ⟨hwal.sameInputs, hwal.walkable, hwal.adds⟩
      obtain ⟨heq, hwalk, hadds⟩ :=
        foldlM_adds (P := fun st : Reported V => SameInputs vars G st.1) _ hstep hst h
      refine ⟨⟨dst, fun x hx => hwalk x ((hnodes x).2 hx.1)⟩, heq, hadds.congr (fun l => ?_)⟩
      rw [accessible_of_not_inner hdst']
      constructor
      · rintro ⟨x, hx, hsrc, hacc⟩
        exact ⟨hsrc, x, (hnodes x).1 hx, hacc⟩
      · rintro ⟨hsrc, x, hx, hacc⟩
        exact ⟨x, (hnodes x).2 hx, hsrc, hacc⟩

theorem walkLinks_mono (src : V) : ∀ fuel fuel' dst st st', fuel ≤ fuel' →
    tryAddLinkToAllAccessibleVariableNodesInnerReferencesRec vars src fuel dst st = some st' →
    tryAddLinkToAllAccessibleVariableNodesInnerReferencesRec vars src fuel' dst st = some st' := by
  intro fuel
  induction fuel with
  | zero => exact fun _ _ _ _ _ h => nomatch h
  | succ fuel ih =>
    intro fuel' dst st st' hle h
    obtain ⟨fuel', rfl⟩ : ∃ n, fuel' = n + 1 := ⟨fuel' - 1, by omega⟩
    unfold tryAddLinkToAllAccessibleVariableNodesInnerReferencesRec at h ⊢
    by_cases hdst : vars.isVariableInnerReferenceNode dst = true
    · rw [if_pos hdst] at h ⊢
      exact h
    · rw [if_neg hdst] at h ⊢
      exact foldlM_mono (fun x _ s s' hs => ih fuel' x s s' (by omega) hs) h

theorem walkLinks_returns (src : V) (h : Walkable vars G dst) :
    ∃ fuel, ∀ st, SameInputs vars G st.1 → ∃ st',
      tryAddLinkToAllAccessibleVariableNodesInnerReferencesRec vars src fuel dst st = some st' := by
  induction h with
  | intro dst _ ih =>
    by_cases hdst : vars.isVariableInnerReferenceNode dst = true
    · refine ⟨1, fun st _ => ?_⟩
      unfold tryAddLinkToAllAccessibleVariableNodesInnerReferencesRec
      rw [if_pos hdst]
      exact ⟨_, rfl⟩
    · have hdst' : vars.isVariableInnerReferenceNode dst = false := by simpa using hdst
      obtain ⟨fuel, hf⟩ := exists_common_fuel
        (fun x n m hle hx st hst => by
          obtain ⟨st', hst'⟩ := hx st hst
          exact ⟨st', walkLinks_mono src n m x st st' hle hst'⟩)
        (fun x hx => ih x ⟨mem_srcNodes.1 hx, hdst'⟩)
      refine ⟨fuel + 1, fun st hst => ?_⟩
      unfold tryAddLinkToAllAccessibleVariableNodesInnerReferencesRec
      rw [if_neg hdst]
      obtain ⟨st', hst', -⟩ := foldlM_returns (P := fun s : Reported V => SameInputs vars G s.1)
        hst (fun x hx s hs => by
          have hl := (hst x dst hdst').1 (mem_srcNodes.1 hx)
          obtain ⟨s', hs'⟩ := hf x (mem_srcNodes.2 hl) s hs
          exact ⟨s', hs', (walkLinks_spec src fuel x s s' hs hs').sameInputs⟩)
      exact ⟨st', hst'⟩

end USprache.CodeBuilder.ReferencesGraph
