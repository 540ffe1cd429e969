import USprache.CodeBuilder.GraphOperations

/-!
# Runs of the references graph

The code builder starts with the empty graph and changes it call by call.  At an
`if`, a loop or a lazy operator it builds each branch from one graph and goes on
with the union of the graphs the branches end in, so a run is a list of calls in
which a merge holds the runs of its branches.

No run makes a link twice or a loop.  That the endpoints of links are present, which
`AddLink` asserts, takes more: `Meets` is what the calls of a run have to respect.
-/

namespace USprache.CodeBuilder

open Relation List

inductive Call (V : Type) where
  | addNode (node : V)
  | addNodeIfNotExists (node : V)
  | addLink (src dst : V)
  | tryAddLink (src dst : V)
  | removeNode (node : V)
  | moveNode (node : V)
  | mergeVariablesStateAfterIf (branches : List (List (Call V)))

namespace ReferencesGraph

variable {V : Type} [DecidableEq V]

mutual

def call (vars : VariableNodes V) : Call V → ReferencesGraph V → ReferencesGraph V
  | .addNode node, G => G.addNode vars.toVariables node
  | .addNodeIfNotExists node, G => G.addNodeIfNotExists vars.toVariables node
  | .addLink src dst, G => G.addLink src dst
  | .tryAddLink src dst, G => (G.tryAddLink vars src dst).1
  | .removeNode node, G => G.removeNode vars.toVariables node
  | .moveNode node, G => G.moveNode vars.toVariables node
  | .mergeVariablesStateAfterIf branches, G =>
    (mergeVariablesStateAfterIf (runBranches vars branches G)).1

def run (vars : VariableNodes V) : List (Call V) → ReferencesGraph V → ReferencesGraph V
  | [], G => G
  | c :: calls, G => run vars calls (call vars c G)

/-- Each branch starts from the graph before the branching. -/
def runBranches (vars : VariableNodes V) :
    List (List (Call V)) → ReferencesGraph V → List (ReferencesGraph V)
  | [], _ => []
  | branch :: branches, G => run vars branch G :: runBranches vars branches G

end

section Along

variable (vars : VariableNodes V) (C : Call V → ReferencesGraph V → Prop)

mutual

/-- `C` holds of a call and the graph it is made on, and of the calls in its
branches. -/
def CallAlong : Call V → ReferencesGraph V → Prop
  | .mergeVariablesStateAfterIf branches, G => BranchesAlong branches G
  | c, G => C c G

def RunAlong : List (Call V) → ReferencesGraph V → Prop
  | [], _ => True
  | c :: calls, G => CallAlong c G ∧ RunAlong calls (call vars c G)

def BranchesAlong : List (List (Call V)) → ReferencesGraph V → Prop
  | [], _ => True
  | branch :: branches, G => RunAlong branch G ∧ BranchesAlong branches G

end

end Along

/-- What a call relies on: the endpoints of the link it makes, the node it moves and
the parent of the node it adds are present. -/
def NodesPresent (vars : VariableNodes V) : Call V → ReferencesGraph V → Prop
  | .addNode node, G | .addNodeIfNotExists node, G =>
    ∀ p, vars.parent node = some p → p ∈ G.nodes
  | .addLink src dst, G | .tryAddLink src dst, G => src ∈ G.nodes ∧ dst ∈ G.nodes
  | .moveNode node, G => node ∈ G.nodes
  | .removeNode _, _ | .mergeVariablesStateAfterIf _, _ => True

variable {vars : VariableNodes V} {G : ReferencesGraph V}

section Rule

variable {C : Call V → ReferencesGraph V → Prop} {P : ReferencesGraph V → Prop}

/-- `P` is kept by the single calls that meet `C`, and by merges. -/
structure KeptBy (vars : VariableNodes V) (C : Call V → ReferencesGraph V → Prop)
    (P : ReferencesGraph V → Prop) : Prop where
  addNode : ∀ n G, C (.addNode n) G → P G → P (G.addNode vars.toVariables n)
  addNodeIfNotExists : ∀ n G, C (.addNodeIfNotExists n) G → P G →
    P (G.addNodeIfNotExists vars.toVariables n)
  addLink : ∀ x y G, C (.addLink x y) G → P G → P (G.addLink x y)
  tryAddLink : ∀ x y G, C (.tryAddLink x y) G → P G → P (G.tryAddLink vars x y).1
  removeNode : ∀ n G, C (.removeNode n) G → P G → P (G.removeNode vars.toVariables n)
  moveNode : ∀ n G, C (.moveNode n) G → P G → P (G.moveNode vars.toVariables n)
  merge : ∀ branches : List (ReferencesGraph V), (∀ B ∈ branches, P B) →
    P (mergeVariablesStateAfterIf branches).1

mutual

theorem KeptBy.call (h : KeptBy vars C P) : ∀ c G, CallAlong vars C c G → P G → P (call vars c G)
  | .addNode n, G, hc, hG => h.addNode n G (by simpa only [CallAlong] using hc) hG
  | .addNodeIfNotExists n, G, hc, hG =>
    h.addNodeIfNotExists n G (by simpa only [CallAlong] using hc) hG
  | .addLink x y, G, hc, hG => h.addLink x y G (by simpa only [CallAlong] using hc) hG
  | .tryAddLink x y, G, hc, hG => h.tryAddLink x y G (by simpa only [CallAlong] using hc) hG
  | .removeNode n, G, hc, hG => h.removeNode n G (by simpa only [CallAlong] using hc) hG
  | .moveNode n, G, hc, hG => h.moveNode n G (by simpa only [CallAlong] using hc) hG
  | .mergeVariablesStateAfterIf branches, G, hc, hG => by
    rw [ReferencesGraph.call]
    exact h.merge _ (KeptBy.branches h branches G (by simpa only [CallAlong] using hc) hG)

/-- A property kept by every call holds at the end of a run if it holds before it. -/
theorem KeptBy.run (h : KeptBy vars C P) : ∀ cs G, RunAlong vars C cs G → P G → P (run vars cs G)
  | [], _, _, hG => by rwa [ReferencesGraph.run]
  | c :: cs, G, hc, hG => by
    rw [RunAlong] at hc
    rw [ReferencesGraph.run]
    exact KeptBy.run h cs _ hc.2 (KeptBy.call h c G hc.1 hG)

theorem KeptBy.branches (h : KeptBy vars C P) : ∀ brs G,
    BranchesAlong vars C brs G → P G → ∀ B ∈ runBranches vars brs G, P B
  | [], _, _, _ => by
    rw [runBranches]
    nofun
  | branch :: brs, G, hc, hG => by
    rw [BranchesAlong] at hc
    rw [runBranches]
    intro B hB
    rcases mem_cons.1 hB with rfl | hB
    · exact KeptBy.run h branch G hc.1 hG
    · exact KeptBy.branches h brs G hc.2 hG B hB

end

end Rule

structure Simple (G : ReferencesGraph V) : Prop where
  nodup : G.links.Nodup
  no_loop : ∀ l ∈ G.links, l.src ≠ l.dst

variable {vars : Variables V} {G' : ReferencesGraph V}

omit [DecidableEq V] in
theorem Simple.rewired (hG : G.Simple) (h : Rewired vars G G') : G'.Simple where
  nodup := h.nodup hG.nodup
  no_loop l hl := (h.link l hl).1.elim (hG.no_loop l) id

omit [DecidableEq V] in
theorem Simple.of_links_eq (hG : G.Simple) (h : G'.links = G.links) : G'.Simple := by
  refine ⟨?_, ?_⟩
  · rw [h]
    exact hG.nodup
  · rw [h]
    exact hG.no_loop

theorem Simple.addLink (hG : G.Simple) (x y : V) : (G.addLink x y).Simple := by
  refine ⟨addLink_nodup hG.nodup x y, fun l hl => ?_⟩
  rcases mem_addLink.1 hl with hl | ⟨hne, rfl⟩
  · exact hG.no_loop l hl
  · exact hne

theorem simple_keptBy (vars : VariableNodes V) : KeptBy vars (fun _ _ => True) Simple where
  addNode n G _ hG := hG.of_links_eq (addNode_links n).1
  addNodeIfNotExists n G _ hG := hG.of_links_eq (addNode_links n).2
  addLink x y G _ hG := hG.addLink x y
  tryAddLink x y G _ hG := tryAddLink_keeps hG (fun _ => hG.addLink x y)
  removeNode n G _ hG := hG.rewired (removeNode_rewired G n)
  moveNode n G _ hG := hG.rewired (moveNode_rewired G n)
  merge branches h := by
    obtain ⟨-, hl, hd⟩ := mem_mergeVariablesStateAfterIf branches
    refine ⟨hd, fun l hmem => ?_⟩
    obtain ⟨B, hB, hlB⟩ := (hl l).1 hmem
    exact (h B hB).no_loop l hlB

theorem emplace_wellFormed (hG : G.WellFormed vars) {n : V}
    (hn : ∀ p, vars.parent n = some p → p ∈ G.nodes) : (G.emplace n).WellFormed vars where
  src_mem l hl := mem_emplace.2 (.inr (hG.src_mem l (by rwa [emplace_links] at hl)))
  dst_mem l hl := mem_emplace.2 (.inr (hG.dst_mem l (by rwa [emplace_links] at hl)))
  nodup := by rw [emplace_links]; exact hG.nodup
  parent_mem v hv p hp := by
    refine mem_emplace.2 (.inr ?_)
    rcases mem_emplace.1 hv with rfl | hv
    · exact hn p hp
    · exact hG.parent_mem v hv p hp

theorem addNode_wellFormed (hG : G.WellFormed vars) (n : V)
    (hn : ∀ p, vars.parent n = some p → p ∈ G.nodes) :
    (G.addNode vars n).WellFormed vars ∧ (G.addNodeIfNotExists vars n).WellFormed vars :=
  addNode_keeps (P := fun G => G.WellFormed vars)
    (D := fun G n => ∀ p, vars.parent n = some p → p ∈ G.nodes)
    (fun _ _ hG hn => emplace_wellFormed hG hn) (fun _ i hi p hp => absurd (hi ▸ hp) (by simp))
    n hG hn

theorem addLink_wellFormed (hG : G.WellFormed vars) {x y : V}
    (hx : x ∈ G.nodes) (hy : y ∈ G.nodes) : (G.addLink x y).WellFormed vars where
  src_mem l hl := by
    rw [addLink_nodes]
    rcases mem_addLink.1 hl with hl | ⟨-, rfl⟩
    · exact hG.src_mem l hl
    · exact hx
  dst_mem l hl := by
    rw [addLink_nodes]
    rcases mem_addLink.1 hl with hl | ⟨-, rfl⟩
    · exact hG.dst_mem l hl
    · exact hy
  nodup := addLink_nodup hG.nodup x y
  parent_mem v hv p hp := by
    rw [addLink_nodes] at hv ⊢
    exact hG.parent_mem v hv p hp

omit [DecidableEq V] in
/-- A link that abbreviates a path into a node of a well-formed graph starts at a node
of the graph. -/
theorem Rewired.wellFormed (h : Rewired vars G G') (hnodes : ∀ v, v ∈ G'.nodes ↔ v ∈ G.nodes)
    (hdst : ∀ l ∈ G'.links, l.dst ∈ G.nodes) (hG : G.WellFormed vars) :
    G'.WellFormed vars where
  src_mem l hl := by
    refine (hnodes _).2 ?_
    exact TransGen.closed' (P := fun v => v ∈ G.nodes) hG.step_mem (h.link l hl).2 (hdst l hl)
  dst_mem l hl := (hnodes _).2 (hdst l hl)
  nodup := h.nodup hG.nodup
  parent_mem v hv p hp := (hnodes p).2 (hG.parent_mem v ((hnodes v).1 hv) p hp)

theorem removeNodeLinks_wellFormed (hG : G.WellFormed vars) (n : V) :
    (G.removeNodeLinks vars n).WellFormed vars := by
  refine (removeNodeLinks_rewired G n).wellFormed (fun v => by rw [removeNodeLinks_nodes]) ?_ hG
  rintro ⟨x, y⟩ hl
  rcases mem_removeNodeLinks.1 hl with ⟨hxy, -, -⟩ | ⟨-, hout, -⟩
  · exact hG.dst_mem _ hxy
  · exact hG.dst_mem ⟨n, y⟩ (mem_outNodes.1 hout).2

/-- Moving a node that is present keeps the nodes and the well-formedness. -/
theorem moveNode_wellFormed (hG : G.WellFormed vars) {n : V}
    (hn : n ∈ G.nodes) : (G.moveNode vars n).WellFormed vars := by
  have hrec : ∀ h G n, G.WellFormed vars → n ∈ G.nodes →
      (moveNodeRec vars h G n).WellFormed vars := by
    intro h
    induction h with
    | zero => exact fun _ _ hG _ => hG
    | succ h ih =>
      intro G n hG hn
      have heq : ∀ v, v ∈ G.nodes.insert n { moved := true } ↔ v ∈ G.nodes := by
        intro v
        rw [AList.mem_insert]
        exact or_iff_right_of_imp (fun e => e ▸ hn)
      have hmark : ({ G with nodes := G.nodes.insert n { moved := true } } :
          ReferencesGraph V).WellFormed vars :=
        Rewired.wellFormed (G := G) (.of_links_eq rfl) heq hG.dst_mem hG
      have hin := foldl_keeps (P := fun G => G.WellFormed vars) (Q := fun _ => True)
        (fun _ i hG _ => removeNodeLinks_wellFormed hG i) (vars.innerReferenceNodes n) _ hmark
        (fun _ _ => trivial)
      have hch : ∀ G c, G.WellFormed vars → True →
          (if c ∈ G.nodes then moveNodeRec vars h G c else G).WellFormed vars := by
        intro G c hG _
        split
        · next hc => exact ih G c hG hc
        · exact hG
      exact removeNodeLinks_wellFormed
        (foldl_keeps hch ((vars.children n).filterMap id) _ hin (fun _ _ => trivial)) n
  exact hrec _ G n hG hn

theorem merge_wellFormed {brs : List (ReferencesGraph V)} (h : ∀ B ∈ brs, B.WellFormed vars) :
    (mergeVariablesStateAfterIf brs).1.WellFormed vars := by
  obtain ⟨hn, hl, hd⟩ := mem_mergeVariablesStateAfterIf brs
  refine ⟨fun l hmem => ?_, fun l hmem => ?_, hd, fun v hv p hp => ?_⟩
  · obtain ⟨B, hB, hlB⟩ := (hl l).1 hmem
    exact (hn _).2 ⟨B, hB, (h B hB).src_mem l hlB⟩
  · obtain ⟨B, hB, hlB⟩ := (hl l).1 hmem
    exact (hn _).2 ⟨B, hB, (h B hB).dst_mem l hlB⟩
  · obtain ⟨B, hB, hvB⟩ := (hn v).1 hv
    exact (hn p).2 ⟨B, hB, (h B hB).parent_mem v hvB p hp⟩

theorem wellFormed_keptBy (vars : VariableNodes V) :
    KeptBy vars (NodesPresent vars) (WellFormed vars.toVariables) where
  addNode _ _ hc hG := (addNode_wellFormed hG _ hc).1
  addNodeIfNotExists _ _ hc hG := (addNode_wellFormed hG _ hc).2
  addLink _ _ _ hc hG := addLink_wellFormed hG hc.1 hc.2
  tryAddLink _ _ _ hc hG := tryAddLink_keeps hG (fun _ => addLink_wellFormed hG hc.1 hc.2)
  removeNode n G _ hG := (removeNodeRec_removes _ G n hG (Nat.lt_succ_self _)).wellFormed hG
  moveNode _ _ hc hG := moveNode_wellFormed hG hc
  merge _ h := merge_wellFormed h

omit [DecidableEq V] in
theorem empty_wellFormed (vars : Variables V) : (empty : ReferencesGraph V).WellFormed vars :=
  ⟨by simp [empty], by simp [empty], nodup_nil, fun v hv => absurd hv (AList.notMem_empty v)⟩

mutual

theorem callAlong_true (vars : VariableNodes V) : ∀ c G, CallAlong vars (fun _ _ => True) c G
  | .mergeVariablesStateAfterIf branches, G => by
    rw [CallAlong]
    exact branchesAlong_true vars branches G
  | .addNode _, _ | .addNodeIfNotExists _, _ | .addLink _ _, _ | .tryAddLink _ _, _
  | .removeNode _, _ | .moveNode _, _ => by simp only [CallAlong]

theorem runAlong_true (vars : VariableNodes V) : ∀ cs G, RunAlong vars (fun _ _ => True) cs G
  | [], _ => by rw [RunAlong]; trivial
  | c :: cs, G => by
    rw [RunAlong]
    exact ⟨callAlong_true vars c G, runAlong_true vars cs _⟩

theorem branchesAlong_true (vars : VariableNodes V) : ∀ brs G,
    BranchesAlong vars (fun _ _ => True) brs G
  | [], _ => by rw [BranchesAlong]; trivial
  | branch :: brs, G => by
    rw [BranchesAlong]
    exact ⟨runAlong_true vars branch G, branchesAlong_true vars brs G⟩

end

theorem run_simple (vars : VariableNodes V) (cs : List (Call V)) : (run vars cs empty).Simple :=
  (simple_keptBy vars).run cs empty (runAlong_true vars cs empty) ⟨nodup_nil, by simp [empty]⟩

/-- No run makes a link twice or links a node to itself, and a run whose calls name
only nodes that are present keeps the endpoints of its links in the graph. -/
theorem run_links_represented (vars : VariableNodes V) (calls : List (Call V))
    (h : RunAlong vars (NodesPresent vars) calls empty) :
    (run vars calls empty).links.Nodup ∧ ∀ l ∈ (run vars calls empty).links,
        l.src ≠ l.dst ∧ l.src ∈ (run vars calls empty).nodes ∧
          l.dst ∈ (run vars calls empty).nodes := by
  have hsimple := run_simple vars calls
  have hwell := (wellFormed_keptBy vars).run calls empty h (empty_wellFormed vars.toVariables)
  exact ⟨hsimple.nodup, fun l hl => ⟨hsimple.no_loop l hl, hwell.src_mem l hl, hwell.dst_mem l hl⟩⟩

/-- Nodes without members and inner references: a variable `0`, its reference `1` and
a second reference `2`. -/
def plainNodes : VariableNodes (Fin 3) where
  parent _ := none
  children _ := []
  innerReferenceNodes _ := []
  height _ := 0
  mem_children := by simp
  height_child := by simp
  height_inner := by simp
  inner_bare := by simp
  valueType v := if v = 0 then .value else .referenceImut
  isInnerReferenceNode _ := false
  isVariableInnerReferenceNode _ := false
  depth _ := 0
  depth_parent := by simp

/-- A variable is declared, and a reference to it is taken in one of two branches. -/
def branchingCalls : List (Call (Fin 3)) := [.addNode 0, .addNode 1, .addLink 0 1,
    .mergeVariablesStateAfterIf [[.addNode 2, .tryAddLink 1 2], []]]

theorem run_links_represented_branching :
    (run plainNodes branchingCalls empty).links = [⟨0, 1⟩, ⟨1, 2⟩] ∧
      (run plainNodes branchingCalls empty).links.Nodup :=
  ⟨by decide +kernel, (run_links_represented plainNodes branchingCalls (by
    simp only [branchingCalls, RunAlong, CallAlong, BranchesAlong, NodesPresent]
    decide +kernel)).1⟩

/-- The calls for `var i32 x= 0; if( b ) { return 1; } else { return 2; } auto& r= x;`.
Both branches end in `return`, so none is left to merge and the graph is empty when
the unreachable declaration is built. -/
def unreachableCodeCalls : List (Call (Fin 3)) :=
  [.addNode 0, .addNode 1, .addLink 0 1, .mergeVariablesStateAfterIf [],
    .addNode 2, .tryAddLink 1 2]

theorem run_unreachableCode_link_without_source :
    ⟨1, 2⟩ ∈ (run plainNodes unreachableCodeCalls empty).links ∧
      1 ∉ (run plainNodes unreachableCodeCalls empty).nodes := by
  decide +kernel

end ReferencesGraph
end USprache.CodeBuilder
