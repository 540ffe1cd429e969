import USprache.CodeBuilder.GraphRuns

/-!
# The merge of branches

Behind an `if` the graphs of the branches are united.  The union is a join: it has the nodes and
links of all branches and depends on the order of the branches only where two of them disagree
on whether a node is moved, which is an error.
-/

namespace USprache.CodeBuilder.ReferencesGraph

open List

variable {V : Type} [DecidableEq V]

def firstState (branches : List (ReferencesGraph V)) (v : V) : Option NodeState :=
  branches.findSome? fun B => B.nodes.lookup v

variable (acc : AList (fun _ : V => NodeState) × List (GraphError V))
    (p : Sigma (fun _ : V => NodeState))

theorem mergeNode_nodes :
    (mergeNode acc p).1 = if p.1 ∈ acc.1 then acc.1 else acc.1.insert p.1 p.2 := by
  exact (apply_ite Prod.fst _ _ _).trans (ite_self _)

theorem lookup_mergeNode (v : V) :
    (mergeNode acc p).1.lookup v = (acc.1.lookup v).or (if v = p.1 then some p.2 else none) := by
  rw [mergeNode_nodes]
  by_cases hmem : p.1 ∈ acc.1
  · rw [if_pos hmem]
    by_cases hv : v = p.1
    · obtain ⟨state, hs⟩ := Option.isSome_iff_exists.1 (AList.lookup_isSome.2 hmem)
      rw [hv, hs]
      rfl
    · rw [if_neg hv, Option.or_none]
  · rw [if_neg hmem]
    by_cases hv : v = p.1
    · rw [hv, AList.lookup_insert, AList.lookup_eq_none.2 hmem, if_pos rfl]
      rfl
    · rw [AList.lookup_insert_ne hv, if_neg hv, Option.or_none]

variable (ps : List (Sigma (fun _ : V => NodeState)))

theorem lookup_mergeNodes (acc : AList (fun _ : V => NodeState) × List (GraphError V)) (v : V) :
    (ps.foldl mergeNode acc).1.lookup v = (acc.1.lookup v).or (ps.dlookup v) := by
  induction ps generalizing acc with
  | nil => rw [foldl_nil, dlookup_nil, Option.or_none]
  | cons p ps ih =>
    rw [foldl_cons, ih, lookup_mergeNode, Option.or_assoc]
    by_cases hv : v = p.1
    · subst hv
      rw [if_pos rfl, dlookup_cons_eq]
      rfl
    · rw [if_neg hv, dlookup_cons_ne _ _ hv]
      rfl

theorem lookup_mergeBranches (branches : List (ReferencesGraph V))
    (r : ReferencesGraph V × List (GraphError V)) (v : V) :
    (branches.foldl mergeBranch r).1.nodes.lookup v =
      (r.1.nodes.lookup v).or (firstState branches v) := by
  unfold firstState
  induction branches generalizing r with
  | nil => rw [foldl_nil, findSome?_nil, Option.or_none]
  | cons B branches ih =>
    have hB : (mergeBranch r B).1.nodes.lookup v =
        (r.1.nodes.lookup v).or (B.nodes.lookup v) := lookup_mergeNodes B.nodes.entries _ v
    rw [foldl_cons, ih, hB, Option.or_assoc, findSome?_cons]
    cases B.nodes.lookup v with
    | none => rfl
    | some state => rfl

theorem lookup_merge (branches : List (ReferencesGraph V)) (v : V) :
    (mergeVariablesStateAfterIf branches).1.nodes.lookup v = firstState branches v := by
  unfold mergeVariablesStateAfterIf
  rw [lookup_mergeBranches]
  rfl

/-- What a merge step adds to the errors: one for a node whose state differs from the one the
node already has. -/
theorem errors_mergeNode (e : GraphError V) :
    e ∈ (mergeNode acc p).2 ↔ e ∈ acc.2 ∨ (e = .conditionalMove p.1 ∧
      ∃ state, (acc.1.lookup p.1).or (some p.2) = some state ∧ state.moved ≠ p.2.moved) := by
  have hlk := lookup_mergeNode acc p p.1
  rw [if_pos rfl] at hlk
  rw [← hlk, mergeNode_nodes]
  unfold mergeNode
  dsimp only
  generalize hnodes : (if p.1 ∈ acc.1 then acc.1 else acc.1.insert p.1 p.2) = nodes
  obtain ⟨state, hs⟩ : ∃ state, nodes.lookup p.1 = some state := by
    rw [← hnodes, ← mergeNode_nodes, hlk]
    cases acc.1.lookup p.1 with
    | none => exact ⟨p.2, rfl⟩
    | some state => exact ⟨state, rfl⟩
  rw [hs, Option.map_some]
  by_cases hmvd : state.moved = p.2.moved
  · rw [if_neg (not_not_intro (congrArg some hmvd))]
    refine ⟨.inl, ?_⟩
    rintro (he | ⟨-, state', hs', hne⟩)
    · exact he
    · cases hs'
      exact absurd hmvd hne
  · rw [if_pos fun h => hmvd (Option.some.inj h)]
    rw [mem_append, mem_singleton]
    exact or_congr_right ⟨fun he => ⟨he, state, rfl, hmvd⟩, And.left⟩

theorem errors_mergeNodes
    (acc : AList (fun _ : V => NodeState) × List (GraphError V)) (e : GraphError V) :
    e ∈ (ps.foldl mergeNode acc).2 ↔ e ∈ acc.2 ∨ ∃ p ∈ ps, e = .conditionalMove p.1 ∧
      ∃ state, (acc.1.lookup p.1).or (ps.dlookup p.1) = some state ∧ state.moved ≠ p.2.moved := by
  induction ps generalizing acc with
  | nil => simp
  | cons p ps ih =>
    -- The state a later pair is compared with is the one the whole list gives its node.
    have heq : ∀ v, ((mergeNode acc p).1.lookup v).or (ps.dlookup v) =
        (acc.1.lookup v).or ((p :: ps).dlookup v) := by
      intro v
      rw [← lookup_mergeNodes, ← lookup_mergeNodes, foldl_cons]
    have hfst : (p :: ps).dlookup p.1 = some p.2 := dlookup_cons_eq _ _ _
    rw [foldl_cons, ih, errors_mergeNode, or_assoc]
    simp only [heq, mem_cons, exists_eq_or_imp, hfst]

theorem errors_mergeBranches (branches : List (ReferencesGraph V))
    (r : ReferencesGraph V × List (GraphError V)) (e : GraphError V) :
    e ∈ (branches.foldl mergeBranch r).2 ↔ e ∈ r.2 ∨ ∃ v, e = .conditionalMove v ∧
      ∃ state, (r.1.nodes.lookup v).or (firstState branches v) = some state ∧
        ∃ B ∈ branches, ∃ st', B.nodes.lookup v = some st' ∧ state.moved ≠ st'.moved := by
  induction branches generalizing r with
  | nil => simp
  | cons B branches ih =>
    have heq : ∀ v, ((mergeBranch r B).1.nodes.lookup v).or (firstState branches v) =
        (r.1.nodes.lookup v).or (firstState (B :: branches) v) := by
      intro v
      rw [← lookup_mergeBranches, ← lookup_mergeBranches, foldl_cons]
    have hB : e ∈ (mergeBranch r B).2 ↔ e ∈ r.2 ∨ ∃ v, e = .conditionalMove v ∧
        ∃ state, (r.1.nodes.lookup v).or (B.nodes.lookup v) = some state ∧
          ∃ st', B.nodes.lookup v = some st' ∧ state.moved ≠ st'.moved := by
      refine (errors_mergeNodes B.nodes.entries (r.1.nodes, r.2) e).trans (or_congr_right ?_)
      constructor
      · rintro ⟨⟨v, st'⟩, hpr, rfl, state, hs, hne⟩
        exact ⟨v, rfl, state, hs, st', AList.mem_lookup_iff.2 hpr, hne⟩
      · rintro ⟨v, rfl, state, hs, st', hlk, hne⟩
        exact ⟨⟨v, st'⟩, AList.mem_lookup_iff.1 hlk, rfl, state, hs, hne⟩
    -- A branch that has the node decides its state, whatever branches come behind it.
    have hfst : ∀ v st', B.nodes.lookup v = some st' → (r.1.nodes.lookup v).or (B.nodes.lookup v) =
          (r.1.nodes.lookup v).or (firstState (B :: branches) v) := by
      intro v st' hlk
      unfold firstState
      rw [findSome?_cons, hlk]
    rw [foldl_cons, ih, hB, or_assoc]
    refine or_congr_right ?_
    simp only [heq]
    constructor
    · rintro (⟨v, rfl, state, hs, st', hlk, hne⟩ | ⟨v, rfl, state, hs, B', hB', h⟩)
      · rw [hfst v st' hlk] at hs
        exact ⟨v, rfl, state, hs, B, mem_cons_self, st', hlk, hne⟩
      · exact ⟨v, rfl, state, hs, B', mem_cons_of_mem B hB', h⟩
    · rintro ⟨v, rfl, state, hs, B', hB', st', hlk, hne⟩
      rcases mem_cons.1 hB' with rfl | hB'
      · rw [← hfst v st' hlk] at hs
        exact .inl ⟨v, rfl, state, hs, st', hlk, hne⟩
      · exact .inr ⟨v, rfl, state, hs, B', hB', st', hlk, hne⟩

/-- Two branches that both have the node disagree on whether it is moved. -/
def MovedInPart (branches : List (ReferencesGraph V)) (v : V) : Prop :=
  ∃ B ∈ branches, ∃ B' ∈ branches, ∃ state state', B.nodes.lookup v = some state ∧
    B'.nodes.lookup v = some state' ∧ state.moved ≠ state'.moved

variable {branches : List (ReferencesGraph V)} {v : V} {state : NodeState} {B : ReferencesGraph V}

theorem exists_of_firstState
    (h : firstState branches v = some state) : ∃ B ∈ branches, B.nodes.lookup v = some state :=
  exists_of_findSome?_eq_some h

theorem firstState_of_mem (hB : B ∈ branches) (h : B.nodes.lookup v = some state) :
    ∃ st', firstState branches v = some st' := by
  cases hfst : firstState branches v with
  | none =>
    have hno := findSome?_eq_none_iff.1 hfst B hB
    rw [h] at hno
    cases hno
  | some st' => exact ⟨st', rfl⟩

theorem mem_errors_merge (branches : List (ReferencesGraph V)) (e : GraphError V) :
    e ∈ (mergeVariablesStateAfterIf branches).2 ↔
      ∃ v, e = .conditionalMove v ∧ MovedInPart branches v := by
  unfold mergeVariablesStateAfterIf
  rw [errors_mergeBranches, or_iff_right not_mem_nil]
  refine exists_congr fun v => and_congr_right fun _ => ?_
  constructor
  · rintro ⟨state, hs, B', hB', st', hlk, hne⟩
    obtain ⟨B, hB, hfst⟩ := exists_of_firstState hs
    exact ⟨B, hB, B', hB', state, st', hfst, hlk, hne⟩
  · rintro ⟨B, hB, B', hB', state, st', hlk, hlk', hne⟩
    -- One of the two differs from the state of the first branch that has the node.
    obtain ⟨first, hfst⟩ := firstState_of_mem hB hlk
    by_cases hmvd : first.moved = state.moved
    · exact ⟨first, hfst, B', hB', st', hlk', fun h => hne (hmvd.symm.trans h)⟩
    · exact ⟨first, hfst, B, hB, state, hlk, hmvd⟩

structure SameState (G G' : ReferencesGraph V) : Prop where
  nodes : ∀ v, G.nodes.lookup v = G'.nodes.lookup v
  links : ∀ l, l ∈ G.links ↔ l ∈ G'.links

/-- Without an error a node has in the union the state it has in each branch. -/
theorem lookup_merge_of_mem (hcl : (mergeVariablesStateAfterIf branches).2 = [])
    (hB : B ∈ branches) (h : B.nodes.lookup v = some state) :
    (mergeVariablesStateAfterIf branches).1.nodes.lookup v = some state := by
  rw [lookup_merge]
  obtain ⟨first, hfst⟩ := firstState_of_mem hB h
  obtain ⟨B', hB', hlk⟩ := exists_of_firstState hfst
  rw [hfst]
  by_cases hmvd : first.moved = state.moved
  · exact congrArg (fun moved => some (NodeState.mk moved)) hmvd
  · have herr := (mem_errors_merge branches (.conditionalMove v)).2
      ⟨v, rfl, B', hB', B, hB, first, state, hlk, h, hmvd⟩
    rw [hcl] at herr
    cases herr

theorem merge_perm {brs' : List (ReferencesGraph V)}
    (hpm : branches.Perm brs') (hcl : (mergeVariablesStateAfterIf branches).2 = []) :
    (mergeVariablesStateAfterIf brs').2 = [] ∧
      SameState (mergeVariablesStateAfterIf branches).1 (mergeVariablesStateAfterIf brs').1 := by
  have hcl' : (mergeVariablesStateAfterIf brs').2 = [] := by
    rw [eq_nil_iff_forall_not_mem]
    intro e he
    obtain ⟨v, rfl, B, hB, B', hB', hmvd⟩ := (mem_errors_merge brs' e).1 he
    have herr := (mem_errors_merge branches (.conditionalMove v)).2
      ⟨v, rfl, B, hpm.mem_iff.2 hB, B', hpm.mem_iff.2 hB', hmvd⟩
    rw [hcl] at herr
    cases herr
  refine ⟨hcl', fun v => ?_, fun l => ?_⟩
  · cases hs : (mergeVariablesStateAfterIf brs').1.nodes.lookup v with
    | none =>
      have habs := AList.lookup_eq_none.1 hs
      rw [(mem_mergeVariablesStateAfterIf brs').1] at habs
      rw [AList.lookup_eq_none, (mem_mergeVariablesStateAfterIf branches).1]
      rintro ⟨B, hB, hv⟩
      exact habs ⟨B, hpm.mem_iff.1 hB, hv⟩
    | some state =>
      rw [lookup_merge] at hs
      obtain ⟨B, hB, hlk⟩ := exists_of_firstState hs
      exact lookup_merge_of_mem hcl (hpm.mem_iff.2 hB) hlk
  · rw [(mem_mergeVariablesStateAfterIf branches).2.1, (mem_mergeVariablesStateAfterIf brs').2.1]
    exact exists_congr fun B => and_congr_left fun _ => hpm.mem_iff

theorem merge_of_same {G : ReferencesGraph V}
    (hne : branches ≠ []) (heq : ∀ B ∈ branches, SameState B G) :
    (mergeVariablesStateAfterIf branches).2 = [] ∧
      SameState (mergeVariablesStateAfterIf branches).1 G := by
  have hcl : (mergeVariablesStateAfterIf branches).2 = [] := by
    rw [eq_nil_iff_forall_not_mem]
    intro e he
    obtain ⟨v, -, B, hB, B', hB', state, state', hlk, hlk', hmvd⟩ :=
      (mem_errors_merge branches e).1 he
    rw [(heq B hB).nodes v, ← (heq B' hB').nodes v, hlk'] at hlk
    cases hlk
    exact hmvd rfl
  obtain ⟨B, hB⟩ := exists_mem_of_ne_nil branches hne
  refine ⟨hcl, fun v => ?_, fun l => ?_⟩
  · rw [← (heq B hB).nodes v]
    cases hlk : B.nodes.lookup v with
    | none =>
      rw [AList.lookup_eq_none, (mem_mergeVariablesStateAfterIf branches).1]
      rintro ⟨B', hB', hv⟩
      rw [← AList.lookup_isSome, (heq B' hB').nodes v, ← (heq B hB).nodes v, hlk] at hv
      cases hv
    | some state => exact lookup_merge_of_mem hcl hB hlk
  · rw [(mem_mergeVariablesStateAfterIf branches).2.1]
    constructor
    · rintro ⟨B', hB', hl⟩
      exact ((heq B' hB').links l).1 hl
    · exact fun hl => ⟨B, hB, ((heq B hB).links l).2 hl⟩

theorem links_merge_single (hnode : B.links.Nodup) :
    (mergeVariablesStateAfterIf [B]).1.links = B.links := by
  have hfold : ∀ ls r : List (Link V), (r ++ ls).Nodup → ls.foldl mergeLink r = r ++ ls := by
    intro ls
    induction ls with
    | nil => exact fun r _ => (append_nil r).symm
    | cons l ls ih =>
      intro r hnode
      have hl : l ∉ r := by
        intro hl
        exact (disjoint_of_nodup_append hnode) hl mem_cons_self
      rw [append_cons] at hnode ⊢
      rw [foldl_cons, mergeLink, if_neg hl]
      exact ih _ hnode
  exact hfold B.links [] hnode

structure IsJoin (branches : List (ReferencesGraph V))
    (merged : ReferencesGraph V × List (GraphError V)) : Prop where
  nodes : ∀ v, v ∈ merged.1.nodes ↔ ∃ B ∈ branches, v ∈ B.nodes
  links : ∀ l, l ∈ merged.1.links ↔ ∃ B ∈ branches, l ∈ B.links
  links_once : merged.1.links.Nodup
  errors : ∀ e, e ∈ merged.2 ↔ ∃ v, e = .conditionalMove v ∧ MovedInPart branches v

theorem mergeVariablesStateAfterIf_join (branches : List (ReferencesGraph V)) :
    IsJoin branches (mergeVariablesStateAfterIf branches) ∧
      (∀ branches', branches.Perm branches' → (mergeVariablesStateAfterIf branches).2 = [] →
        (mergeVariablesStateAfterIf branches').2 = [] ∧
          SameState (mergeVariablesStateAfterIf branches).1
            (mergeVariablesStateAfterIf branches').1) ∧
      (∀ G, branches ≠ [] → (∀ B ∈ branches, SameState B G) →
        (mergeVariablesStateAfterIf branches).2 = [] ∧
          SameState (mergeVariablesStateAfterIf branches).1 G) ∧
      ∀ B : ReferencesGraph V, (mergeVariablesStateAfterIf [B]).2 = [] ∧
        SameState (mergeVariablesStateAfterIf [B]).1 B ∧
        (B.links.Nodup → (mergeVariablesStateAfterIf [B]).1.links = B.links) := by
  refine ⟨?_, fun branches' => merge_perm, fun G => merge_of_same, ?_⟩
  · obtain ⟨hnodes, hlinks, hnodup⟩ := mem_mergeVariablesStateAfterIf branches
    exact ⟨hnodes, hlinks, hnodup, mem_errors_merge branches⟩
  · intro B
    have hself : ∀ B' ∈ [B], SameState B' B := by
      intro B' hB'
      rw [mem_singleton.1 hB']
      exact ⟨fun _ => rfl, fun _ => Iff.rfl⟩
    obtain ⟨hclean, hsame⟩ := merge_of_same (cons_ne_nil B []) hself
    exact ⟨hclean, hsame, links_merge_single⟩

end USprache.CodeBuilder.ReferencesGraph
