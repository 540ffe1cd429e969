import USprache.CodeBuilder.ReferenceCycles
import USprache.Library.Outcome

/-!
# Nodes and links apart from an operation

What the operations of the references graph leave as it is: the states of other nodes, and the
links into and out of them.
-/

namespace USprache.CodeBuilder.ReferencesGraph

open Relation List

variable {V : Type} [DecidableEq V] {G : ReferencesGraph V} {n v : V} {vs : Variables V}

theorem lookup_emplace : (G.emplace n).nodes.lookup v =
    if v = n then some ((G.nodes.lookup n).getD {}) else G.nodes.lookup v := by
  unfold emplace
  by_cases hn : n ∈ G.nodes
  · rw [if_pos hn]
    obtain ⟨state, hs⟩ := Option.isSome_iff_exists.1 (AList.lookup_isSome.2 hn)
    by_cases hv : v = n
    · rw [if_pos hv, hv, hs]
      rfl
    · rw [if_neg hv]
  · rw [if_neg hn]
    by_cases hv : v = n
    · rw [if_pos hv, hv, AList.lookup_eq_none.2 hn]
      exact AList.lookup_insert _
    · rw [if_neg hv]
      exact AList.lookup_insert_ne hv

theorem addNode_eq (G : ReferencesGraph V) (hpar : vs.parent n = none) :
    G.addNode vs n = (vs.innerReferenceNodes n).foldl emplace (G.emplace n) := by
  have hin : ∀ (inner : List V) (G : ReferencesGraph V), (∀ i ∈ inner, i ∈ vs.innerReferenceNodes n) →
      inner.foldl (addNodeRec vs (vs.height n)) G = inner.foldl emplace G := by
    intro inner
    induction inner with
    | nil => exact fun _ _ => rfl
    | cons i inner ih =>
      intro G h
      have hi := h i mem_cons_self
      obtain ⟨height, hhei⟩ : ∃ height, vs.height n = height + 1 :=
        ⟨vs.height n - 1, by have := vs.height_inner n i hi; omega⟩
      have hst : addNodeRec vs (vs.height n) G i = G.emplace i := by
        rw [hhei, addNodeRec, (vs.inner_bare n i hi).1, (vs.inner_bare n i hi).2.2]
        rfl
      rw [foldl_cons, hst]
      exact ih _ (fun j hj => h j (mem_cons_of_mem i hj))
  rw [addNode, addNodeRec, if_pos hpar]
  exact hin _ _ (fun _ h => h)

theorem lookup_foldl_emplace (ns : List V) (G : ReferencesGraph V) (h : v ∉ ns) :
    (ns.foldl emplace G).nodes.lookup v = G.nodes.lookup v := by
  induction ns generalizing G with
  | nil => rfl
  | cons n ns ih =>
    rw [mem_cons, not_or] at h
    rw [foldl_cons, ih _ h.2, lookup_emplace, if_neg h.1]

theorem lookup_addNode (hpar : vs.parent n = none) (hin : v ∉ vs.innerReferenceNodes n) :
    (G.addNode vs n).nodes.lookup v =
      if v = n then some ((G.nodes.lookup n).getD {}) else G.nodes.lookup v := by
  rw [addNode_eq G hpar, lookup_foldl_emplace _ _ hin, lookup_emplace]

theorem tryAddLink_nodes (vs : VariableNodes V) (G : ReferencesGraph V) (src dst : V) :
    (G.tryAddLink vs src dst).1.nodes = G.nodes :=
  tryAddLink_keeps (P := fun G' => G'.nodes = G.nodes) rfl (fun _ => addLink_nodes G src dst)

theorem lookup_moveNode (G : ReferencesGraph V) (hv : v ≠ n) (hpar : vs.parent v = none) :
    (G.moveNode vs n).nodes.lookup v = G.nodes.lookup v := by
  have hrec : ∀ (h : Nat) (G : ReferencesGraph V) (n : V), v ≠ n →
      (moveNodeRec vs h G n).nodes.lookup v = G.nodes.lookup v := by
    intro h
    induction h with
    | zero => exact fun _ _ _ => rfl
    | succ h ih =>
      intro G n hv
      have hin : ∀ (inner : List V) (G : ReferencesGraph V),
          (inner.foldl (removeNodeLinks vs) G).nodes = G.nodes := by
        intro inner
        induction inner with
        | nil => exact fun _ => rfl
        | cons i inner ihInn =>
          intro G
          rw [foldl_cons, ihInn, removeNodeLinks_nodes]
      have hch : ∀ c ∈ (vs.children n).filterMap id, v ≠ c := by
        intro c hc hvc
        obtain ⟨ch, hmem, hch⟩ := mem_filterMap.1 hc
        have hsm : ch = some c := hch
        rw [hsm, vs.mem_children, ← hvc, hpar] at hmem
        cases hmem
      have hchs : ∀ (chs : List V) (G : ReferencesGraph V), (∀ c ∈ chs, v ≠ c) →
          (chs.foldl (fun G ch => if ch ∈ G.nodes then moveNodeRec vs h G ch
            else G) G).nodes.lookup v = G.nodes.lookup v := by
        intro chs
        induction chs with
        | nil => exact fun _ _ => rfl
        | cons c chs ihChs =>
          intro G hne
          rw [foldl_cons, ihChs _ (fun d hd => hne d (mem_cons_of_mem c hd))]
          split
          · exact ih G c (hne c mem_cons_self)
          · rfl
      rw [moveNodeRec, removeNodeLinks_nodes, hchs _ _ hch, hin]
      exact AList.lookup_insert_ne hv
  exact hrec _ G n hv

def IsMoved (G : ReferencesGraph V) (v : V) : Prop :=
  (G.nodes.lookup v).map NodeState.moved = some true

def Untouched (G : ReferencesGraph V) (v : V) : Prop := ∀ l ∈ G.links, l.src ≠ v ∧ l.dst ≠ v

theorem removeNodeLinks_untouched (G : ReferencesGraph V)
    (hpar : vs.parent n = none) : (G.removeNodeLinks vs n).Untouched n := by
  rintro ⟨x, y⟩ hl
  rcases mem_removeNodeLinks.1 hl with ⟨-, hx, hy⟩ | ⟨-, hy, hx | hx⟩
  · exact ⟨hx, hy⟩
  · exact ⟨(mem_inNodes.1 hx).1, (mem_outNodes.1 hy).1.symm⟩
  · rw [hpar] at hx
    cases hx

theorem Untouched.removeNodeLinks (h : G.Untouched v) (hpar : vs.parent n = none) :
    (G.removeNodeLinks vs n).Untouched v := by
  rintro ⟨x, y⟩ hl
  rcases mem_removeNodeLinks.1 hl with ⟨hl, -, -⟩ | ⟨-, hy, hx | hx⟩
  · exact h _ hl
  · exact ⟨(h _ (mem_inNodes.1 hx).2).1, (h _ (mem_outNodes.1 hy).2).2⟩
  · rw [hpar] at hx
    cases hx

theorem Untouched.foldl_removeNodeLinks
    (h : G.Untouched v) (ns : List V) (hpar : ∀ n ∈ ns, vs.parent n = none) :
    (ns.foldl (ReferencesGraph.removeNodeLinks vs) G).Untouched v := by
  have hst : ∀ G n, G.Untouched v → vs.parent n = none →
      (ReferencesGraph.removeNodeLinks vs G n).Untouched v :=
    fun _ _ h hn => h.removeNodeLinks hn
  exact foldl_keeps hst ns G h hpar

theorem moveNode_eq (G : ReferencesGraph V) (hchs : vs.children n = []) :
    G.moveNode vs n = ((vs.innerReferenceNodes n).foldl (removeNodeLinks vs)
      { G with nodes := G.nodes.insert n { moved := true } }).removeNodeLinks vs n := by
  rw [moveNode, moveNodeRec, hchs]
  rfl

theorem foldl_removeNodeLinks_nodes (vs : Variables V) (ns : List V)
    (G : ReferencesGraph V) : (ns.foldl (removeNodeLinks vs) G).nodes = G.nodes :=
  foldl_keeps (P := fun G' => G'.nodes = G.nodes) (Q := fun _ => True)
    (fun _ n h _ => (removeNodeLinks_nodes n).trans h) ns G rfl (fun _ _ => trivial)

theorem moveNode_released (G : ReferencesGraph V)
    (hpar : vs.parent n = none) (hchs : vs.children n = []) :
    (G.moveNode vs n).IsMoved n ∧ (G.moveNode vs n).Untouched n ∧
      ∀ i ∈ vs.innerReferenceNodes n, (G.moveNode vs n).Untouched i := by
  have hbare : ∀ i ∈ vs.innerReferenceNodes n, vs.parent i = none :=
    fun i hi => (vs.inner_bare n i hi).1
  rw [moveNode_eq G hchs]
  refine ⟨?_, removeNodeLinks_untouched _ hpar, ?_⟩
  · unfold IsMoved
    rw [removeNodeLinks_nodes, foldl_removeNodeLinks_nodes]
    show ((G.nodes.insert n { moved := true }).lookup n).map NodeState.moved = some true
    rw [AList.lookup_insert]
    rfl
  · intro i hi
    obtain ⟨pre, behind, hsp⟩ := append_of_mem hi
    apply Untouched.removeNodeLinks _ hpar
    rw [hsp, foldl_append, foldl_cons]
    apply Untouched.foldl_removeNodeLinks
    · exact removeNodeLinks_untouched _ (hbare i hi)
    · intro j hj
      apply hbare
      rw [hsp]
      exact mem_append_right pre (mem_cons_of_mem i hj)

theorem Untouched.moveNode
    (h : G.Untouched v) (hpar : vs.parent n = none) (hchs : vs.children n = []) :
    (G.moveNode vs n).Untouched v := by
  have hmark : Untouched { G with nodes := G.nodes.insert n { moved := true } } v := h
  rw [moveNode_eq G hchs]
  exact (hmark.foldl_removeNodeLinks _ (fun i hi => (vs.inner_bare n i hi).1)).removeNodeLinks hpar

theorem IsMoved.moveNode (h : G.IsMoved v) (hv : vs.parent v = none) (hpar : vs.parent n = none)
    (hchs : vs.children n = []) : (G.moveNode vs n).IsMoved v := by
  by_cases hvn : v = n
  · rw [hvn]
    exact (moveNode_released G hpar hchs).1
  · unfold IsMoved
    rw [lookup_moveNode G hvn hv]
    exact h

def NoOutput (G : ReferencesGraph V) (v : V) : Prop := ∀ l ∈ G.links, l.src ≠ v

omit [DecidableEq V] in
theorem NoOutput.of_links_eq {G' : ReferencesGraph V} (h : G.NoOutput v)
    (heq : G'.links = G.links) : G'.NoOutput v := by
  intro l hl
  rw [heq] at hl
  exact h l hl

theorem NoOutput.tryAddLink {vs : VariableNodes V} {src dst : V}
    (h : G.NoOutput v) (hsrc : src ≠ v) : (G.tryAddLink vs src dst).1.NoOutput v := by
  apply tryAddLink_keeps (P := fun G => G.NoOutput v) h
  intro _ l hl
  rcases mem_addLink.1 hl with hl | ⟨-, rfl⟩
  · exact h l hl
  · exact hsrc

omit [DecidableEq V] in
/-- A path that begins with a node begins with a link out of it or with a child of it. -/
theorem NoOutput.rewired {G' : ReferencesGraph V}
    (h : G.NoOutput v) (hchs : vs.children v = []) (hrew : Rewired vs G G') :
    G'.NoOutput v := by
  intro l hl hsrc
  obtain ⟨z, hst, -⟩ := TransGen.head'_iff.1 (hrew.link l hl).2
  rcases hst with hlink | hpar
  · exact h _ hlink hsrc
  · rw [hsrc, ← vs.mem_children, hchs] at hpar
    cases hpar

end USprache.CodeBuilder.ReferencesGraph
