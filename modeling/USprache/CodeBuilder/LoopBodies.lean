import USprache.CodeBuilder.BranchMerge
import USprache.CodeBuilder.GraphFrames

/-!
# Loop bodies

What the calls of a loop body do to the part of the graph that is from before the loop.  As long
as no node from before the loop is moved, the references from before it keep their inputs.
-/

namespace USprache.CodeBuilder.ReferencesGraph

open Relation List Option

variable {V : Type} [DecidableEq V]

section Within

variable (vars : VariableNodes V) (C : Call V → ReferencesGraph V → Prop)
  (D : List (ReferencesGraph V) → Prop)

mutual

/-- As `CallAlong`, and `D` holds of the branches of each merge. -/
def CallWithin : Call V → ReferencesGraph V → Prop
  | .mergeVariablesStateAfterIf branches, G =>
    BranchesWithin branches G ∧ D (runBranches vars branches G)
  | c, G => C c G

def RunWithin : List (Call V) → ReferencesGraph V → Prop
  | [], _ => True
  | c :: calls, G => CallWithin c G ∧ RunWithin calls (call vars c G)

def BranchesWithin : List (List (Call V)) → ReferencesGraph V → Prop
  | [], _ => True
  | branch :: branches, G => RunWithin branch G ∧ BranchesWithin branches G

end

end Within

section Rule

variable {vars : VariableNodes V} {C : Call V → ReferencesGraph V → Prop}
  {D : List (ReferencesGraph V) → Prop} {P : ReferencesGraph V → Prop}

/-- `P` is kept by the single calls that meet `C`, and by the merges of branches that meet `D`. -/
structure KeptWithin (vars : VariableNodes V) (C : Call V → ReferencesGraph V → Prop)
    (D : List (ReferencesGraph V) → Prop) (P : ReferencesGraph V → Prop) : Prop where
  single : ∀ c G, (∀ branches, c ≠ .mergeVariablesStateAfterIf branches) → C c G → P G →
    P (call vars c G)
  merge : ∀ branches, D branches → (∀ B ∈ branches, P B) → P (mergeVariablesStateAfterIf branches).1

mutual

theorem KeptWithin.call (h : KeptWithin vars C D P) : ∀ c G,
    CallWithin vars C D c G → P G → P (call vars c G)
  | .mergeVariablesStateAfterIf branches, G, hc, hG => by
    rw [CallWithin] at hc
    rw [ReferencesGraph.call]
    exact h.merge _ hc.2 (KeptWithin.branches h branches G hc.1 hG)
  | .addNode n, G, hc, hG | .addNodeIfNotExists n, G, hc, hG | .addLink x y, G, hc, hG
  | .tryAddLink x y, G, hc, hG | .removeNode n, G, hc, hG =>
    h.single _ G nofun (by simpa only [CallWithin] using hc) hG
  | .moveNode n, G, hc, hG => h.single _ G nofun (by simpa only [CallWithin] using hc) hG

theorem KeptWithin.run (h : KeptWithin vars C D P) : ∀ cs G, RunWithin vars C D cs G → P G →
    P (run vars cs G)
  | [], _, _, hG => by rwa [ReferencesGraph.run]
  | c :: cs, G, hc, hG => by
    rw [RunWithin] at hc
    rw [ReferencesGraph.run]
    exact KeptWithin.run h cs _ hc.2 (KeptWithin.call h c G hc.1 hG)

theorem KeptWithin.branches (h : KeptWithin vars C D P) : ∀ brs G, BranchesWithin vars C D brs G → P G →
    ∀ B ∈ runBranches vars brs G, P B
  | [], _, _, _ => by
    rw [runBranches]
    nofun
  | branch :: brs, G, hc, hG => by
    rw [BranchesWithin] at hc
    rw [runBranches]
    intro B hB
    rcases mem_cons.1 hB with rfl | hB
    · exact KeptWithin.run h branch G hc.1 hG
    · exact KeptWithin.branches h brs G hc.2 hG B hB

end

end Rule

variable {vars : VariableNodes V} {before : ReferencesGraph V}

/-- Neither a node nor a node under it is from before the loop, and none of their inner reference
nodes is. -/
def MadeInLoop (vars : VariableNodes V) (before : ReferencesGraph V) (node : V) : Prop :=
  ∀ m, ReflTransGen (fun p c => vars.parent c = some p) node m →
    m ∉ before.nodes ∧ ∀ i ∈ vars.innerReferenceNodes m, i ∉ before.nodes

omit [DecidableEq V] in
theorem MadeInLoop.child {node ch : V} (h : MadeInLoop vars before node)
    (hch : vars.parent ch = some node) : MadeInLoop vars before ch :=
  fun m hm => h m (.head hch hm)

omit [DecidableEq V] in
theorem MadeInLoop.inner {node i : V} (h : MadeInLoop vars before node)
    (hi : i ∈ vars.innerReferenceNodes node) : MadeInLoop vars before i := by
  intro m hm
  obtain ⟨-, hchs, hbare⟩ := vars.inner_bare node i hi
  have hsf : m = i := by
    rcases hm.cases_head with heq | ⟨c, hc, -⟩
    · exact heq.symm
    · rw [← vars.mem_children, hchs] at hc
      cases hc
  rw [hsf, hbare]
  exact ⟨(h node .refl).2 i hi, nofun⟩

/-- `P` is kept by what a removal or a move does with a node that is made in the loop. -/
structure KeptInLoop (vars : VariableNodes V) (before : ReferencesGraph V)
    (P : ReferencesGraph V → Prop) : Prop where
  links : ∀ G n, n ∉ before.nodes → P G → P (G.removeNodeLinks vars.toVariables n)
  mark : ∀ (G : ReferencesGraph V) n, n ∉ before.nodes → P G →
    P { G with nodes := G.nodes.insert n { moved := true } }
  erase : ∀ (G : ReferencesGraph V) n, n ∉ before.nodes → P G →
    P { G with nodes := G.nodes.erase n }

variable {G : ReferencesGraph V} {n : V}

theorem KeptInLoop.removeNode {P : ReferencesGraph V → Prop} (h : KeptInLoop vars before P)
    (hn : MadeInLoop vars before n) (hG : P G) :
    P (G.removeNode vars.toVariables n) := by
  have hrec : ∀ height G n, MadeInLoop vars before n → P G →
      P (removeNodeRec vars.toVariables height G n) := by
    intro height
    induction height with
    | zero => exact fun _ _ _ hG => hG
    | succ height ih =>
      intro G n hn hG
      have hst : ∀ G m, P G → MadeInLoop vars before m →
          P (removeNodeRec vars.toVariables height G m) := fun G m hG hm => ih G m hm hG
      unfold removeNodeRec
      split
      · exact hG
      · have hchs : ∀ c ∈ (vars.children n).filterMap id, MadeInLoop vars before c := by
          intro c hc
          obtain ⟨ch, hmem, hch⟩ := mem_filterMap.1 hc
          have hsm : ch = some c := hch
          rw [hsm, vars.mem_children] at hmem
          exact hn.child hmem
        have hin : P (if vars.parent n = none then
            (vars.innerReferenceNodes n).foldl (removeNodeRec vars.toVariables height) G else G) := by
          split
          · exact foldl_keeps hst _ G hG (fun i hi => hn.inner hi)
          · exact hG
        have hnodes := foldl_keeps hst _ _ hin hchs
        exact h.erase _ n (hn n .refl).1 (h.links _ n (hn n .refl).1 hnodes)
  exact hrec _ G n hn hG

theorem KeptInLoop.moveNode {P : ReferencesGraph V → Prop} (h : KeptInLoop vars before P)
    (hn : MadeInLoop vars before n) (hG : P G) :
    P (G.moveNode vars.toVariables n) := by
  have hrec : ∀ height G n, MadeInLoop vars before n → P G →
      P (moveNodeRec vars.toVariables height G n) := by
    intro height
    induction height with
    | zero => exact fun _ _ _ hG => hG
    | succ height ih =>
      intro G n hn hG
      have hlks : ∀ G m, P G → m ∉ before.nodes →
          P (G.removeNodeLinks vars.toVariables m) := fun G m hG hm => h.links G m hm hG
      have hst : ∀ G c, P G → MadeInLoop vars before c →
          P (if c ∈ G.nodes then moveNodeRec vars.toVariables height G c else G) := by
        intro G c hG hc
        split
        · exact ih G c hc hG
        · exact hG
      have hchs : ∀ c ∈ (vars.children n).filterMap id, MadeInLoop vars before c := by
        intro c hc
        obtain ⟨ch, hmem, hch⟩ := mem_filterMap.1 hc
        have hsm : ch = some c := hch
        rw [hsm, vars.mem_children] at hmem
        exact hn.child hmem
      have hmark := h.mark G n (hn n .refl).1 hG
      have hin := foldl_keeps hlks (vars.innerReferenceNodes n) _ hmark (hn n .refl).2
      exact h.links _ n (hn n .refl).1 (foldl_keeps hst _ _ hin hchs)
  exact hrec _ G n hn hG

/-- No links lead to the references from before the loop but those from before it. -/
def SameReferences (vars : VariableNodes V) (before G : ReferencesGraph V) : Prop :=
  ∀ l ∈ G.links, l.dst ∈ before.nodes → vars.isVariableInnerReferenceNode l.dst = false →
    l ∈ before.links

def Outlived (before G : ReferencesGraph V) : Prop :=
  ∀ v state, before.nodes.lookup v = some state → ∃ state', G.nodes.lookup v = some state' ∧
    (state.moved = true → state'.moved = true)

/-- None of the nodes from before the loop has been moved in it. -/
def Unmoved (before G : ReferencesGraph V) : Prop :=
  ∀ v state, before.nodes.lookup v = some state → G.nodes.lookup v = some state

theorem keptInLoop_sameReferences (hbef : before.WellFormed vars.toVariables) :
    KeptInLoop vars before (SameReferences vars before) where
  links G n hn hG := by
    rintro ⟨x, y⟩ hl hy href
    rcases mem_removeNodeLinks.1 hl with ⟨hl, -, -⟩ | ⟨-, hout, -⟩
    · exact hG _ hl hy href
    · have hlink := hG ⟨n, y⟩ (mem_outNodes.1 hout).2 hy href
      exact absurd (hbef.src_mem _ hlink) hn
  mark _ _ _ hG := hG
  erase _ _ _ hG := hG

theorem keptInLoop_lookup (G : ReferencesGraph V) :
    KeptInLoop vars before fun G' => ∀ v ∈ before.nodes, G'.nodes.lookup v = G.nodes.lookup v where
  links G' n _ hG v hv := by
    rw [removeNodeLinks_nodes]
    exact hG v hv
  mark G' n hn hG v hv := by
    have hne : v ≠ n := fun heq => hn (heq ▸ hv)
    exact (AList.lookup_insert_ne hne).trans (hG v hv)
  erase G' n hn hG v hv := by
    have hne : v ≠ n := fun heq => hn (heq ▸ hv)
    exact (AList.lookup_erase_ne hne).trans (hG v hv)

theorem lookup_moveNodeRec_cases (v : V) (height : Nat) (G : ReferencesGraph V) (n : V) :
    (moveNodeRec vars.toVariables height G n).nodes.lookup v = G.nodes.lookup v ∨
      (moveNodeRec vars.toVariables height G n).nodes.lookup v = some { moved := true } := by
  induction height generalizing G n with
  | zero => exact .inl rfl
  | succ height ih =>
    unfold moveNodeRec
    rw [removeNodeLinks_nodes]
    refine foldl_keeps (P := fun G' : ReferencesGraph V => G'.nodes.lookup v = G.nodes.lookup v ∨
      G'.nodes.lookup v = some { moved := true }) (Q := fun _ => True) ?_ _ _ ?_
      (fun _ _ => trivial)
    · intro G' c hG' _
      split
      · rcases ih G' c with heq | hmvd
        · rw [heq]
          exact hG'
        · exact .inr hmvd
      · exact hG'
    · rw [foldl_removeNodeLinks_nodes]
      by_cases hv : v = n
      · rw [hv]
        exact .inr (AList.lookup_insert _)
      · exact .inl (AList.lookup_insert_ne hv)

theorem lookup_moveNode_self (G : ReferencesGraph V) (n : V) :
    (G.moveNode vars.toVariables n).nodes.lookup n = some { moved := true } := by
  unfold moveNode moveNodeRec
  rw [removeNodeLinks_nodes]
  refine foldl_keeps (P := fun G' : ReferencesGraph V => G'.nodes.lookup n = some { moved := true })
    (Q := fun _ => True) ?_ _ _ ?_ (fun _ _ => trivial)
  · intro G' c hG' _
    split
    · rcases lookup_moveNodeRec_cases n (vars.height n) G' c with heq | hmvd
      · rw [heq]
        exact hG'
      · exact hmvd
    · exact hG'
  · rw [foldl_removeNodeLinks_nodes]
    exact AList.lookup_insert _

/-- What the calls of a body respect: links to nodes from before the loop lead to inner reference
nodes of variables, and only nodes made in the loop are removed.  A node is moved once. -/
def LoopBodyCall (vars : VariableNodes V) (before : ReferencesGraph V) :
    Call V → ReferencesGraph V → Prop
  | .addLink _ dst, _ | .tryAddLink _ dst, _ =>
    dst ∈ before.nodes → vars.isVariableInnerReferenceNode dst = true
  | .removeNode node, _ => MadeInLoop vars before node
  | .moveNode node, G => ¬ G.IsMoved node ∧ (node ∉ before.nodes → MadeInLoop vars before node)
  | _, _ => True

def CleanMerge (branches : List (ReferencesGraph V)) : Prop :=
  branches ≠ [] ∧ (mergeVariablesStateAfterIf branches).2 = []

/-- What a body keeps.  As long as no node from before the loop is moved, the references from
before it keep their inputs. -/
structure LoopInvariant (vars : VariableNodes V) (before G : ReferencesGraph V) : Prop where
  outlived : Outlived before G
  references : Unmoved before G → SameReferences vars before G

theorem mem_nodes_of_lookup {v : V} {st : NodeState}
    (h : G.nodes.lookup v = some st) : v ∈ G.nodes :=
  AList.lookup_isSome.1 (by rw [h]; rfl)

variable (h : LoopInvariant vars before G)

include h

theorem LoopInvariant.of_lookup {G' : ReferencesGraph V}
    (hlk : ∀ v ∈ before.nodes, ∀ st, G.nodes.lookup v = some st → G'.nodes.lookup v = some st)
    (hlks : SameReferences vars before G → SameReferences vars before G') :
    LoopInvariant vars before G' := by
  constructor
  · intro v st hv
    obtain ⟨st', hs', hmvd⟩ := h.outlived v st hv
    exact ⟨st', hlk v (mem_nodes_of_lookup hv) st' hs', hmvd⟩
  · intro hunm
    refine hlks (h.references fun v st hv => ?_)
    obtain ⟨st', hs', -⟩ := h.outlived v st hv
    have hkpt := hlk v (mem_nodes_of_lookup hv) st' hs'
    rw [hunm v st hv] at hkpt
    rw [hs', hkpt]

theorem LoopInvariant.madeInLoop {G' : ReferencesGraph V}
    (hlk : ∀ v ∈ before.nodes, G'.nodes.lookup v = G.nodes.lookup v)
    (hlks : SameReferences vars before G → SameReferences vars before G') :
    LoopInvariant vars before G' :=
  h.of_lookup (fun v hv _ hs => (hlk v hv).trans hs) hlks

theorem LoopInvariant.addLink {x y : V}
    (hy : y ∈ before.nodes → vars.isVariableInnerReferenceNode y = true) :
    LoopInvariant vars before (G.addLink x y) := by
  refine h.of_lookup (fun v _ state hs => ?_) fun hrefs l hl hdst href => ?_
  · rw [addLink_nodes]
    exact hs
  · rcases mem_addLink.1 hl with hl | ⟨-, rfl⟩
    · exact hrefs l hl hdst href
    · rw [hy hdst] at href
      cases href

theorem LoopInvariant.addNode (n : V) :
    LoopInvariant vars before (G.addNode vars.toVariables n) ∧
      LoopInvariant vars before (G.addNodeIfNotExists vars.toVariables n) := by
  refine addNode_keeps (P := LoopInvariant vars before) (D := fun _ _ => True) ?_
    (fun _ _ _ => trivial) n h trivial
  intro G n hG _
  refine hG.of_lookup (fun v _ _ hs => ?_) fun hrefs l hl => ?_
  · rw [lookup_emplace]
    split
    · next heq =>
      rw [← heq, hs]
      rfl
    · exact hs
  · rw [emplace_links] at hl
    exact hrefs l hl

theorem LoopInvariant.moveNode
    (hbef : before.WellFormed vars.toVariables) (hn : ¬ G.IsMoved n)
    (hmade : n ∉ before.nodes → MadeInLoop vars before n) :
    LoopInvariant vars before (G.moveNode vars.toVariables n) := by
  by_cases hmem : n ∈ before.nodes
  · constructor
    · intro v st hv
      obtain ⟨st', hs', hmvd⟩ := h.outlived v st hv
      have hcs : (G.moveNode vars.toVariables n).nodes.lookup v = G.nodes.lookup v ∨
          (G.moveNode vars.toVariables n).nodes.lookup v = some { moved := true } :=
        lookup_moveNodeRec_cases v (vars.height n + 1) G n
      rcases hcs with heq | hmark
      · exact ⟨st', heq.trans hs', hmvd⟩
      · exact ⟨{ moved := true }, hmark, fun _ => rfl⟩
    · intro hunm
      obtain ⟨st, hs⟩ := isSome_iff_exists.1 (AList.lookup_isSome.2 hmem)
      have hmvd := hunm n st hs
      rw [lookup_moveNode_self] at hmvd
      obtain ⟨st', hs', hkpt⟩ := h.outlived n st hs
      refine absurd ?_ hn
      unfold IsMoved
      rw [hs', map_some, hkpt (by rw [← some.inj hmvd])]
  · have hloc := hmade hmem
    exact h.madeInLoop ((keptInLoop_lookup G).moveNode hloc fun _ _ => rfl)
      ((keptInLoop_sameReferences hbef).moveNode hloc)

omit h

theorem loopInvariant_keptWithin (hbef : before.WellFormed vars.toVariables) :
    KeptWithin vars (LoopBodyCall vars before) CleanMerge (LoopInvariant vars before) where
  single c G hsin hc h := by
    cases c with
    | addNode n =>
      exact (h.addNode n).1
    | addNodeIfNotExists n =>
      exact (h.addNode n).2
    | addLink x y =>
      exact h.addLink hc
    | tryAddLink x y =>
      exact tryAddLink_keeps (P := LoopInvariant vars before) h fun _ => h.addLink hc
    | removeNode n =>
      exact h.madeInLoop ((keptInLoop_lookup G).removeNode hc fun _ _ => rfl)
        ((keptInLoop_sameReferences hbef).removeNode hc)
    | moveNode n =>
      exact h.moveNode hbef hc.1 hc.2
    | mergeVariablesStateAfterIf brs => exact absurd rfl (hsin brs)
  merge brs hcl h := by
    obtain ⟨hne, hcl⟩ := hcl
    constructor
    · intro v st hv
      obtain ⟨B, hB⟩ := exists_mem_of_ne_nil brs hne
      obtain ⟨st', hs', hmvd⟩ := (h B hB).outlived v st hv
      exact ⟨st', lookup_merge_of_mem hcl hB hs', hmvd⟩
    · intro hunm l hl
      obtain ⟨B, hB, hlB⟩ := ((mem_mergeVariablesStateAfterIf brs).2.1 l).1 hl
      refine (h B hB).references (fun v st hv => ?_) l hlB
      obtain ⟨st', hs', -⟩ := (h B hB).outlived v st hv
      have hmer := lookup_merge_of_mem hcl hB hs'
      rw [hunm v st hv] at hmer
      rw [hs', hmer]

end USprache.CodeBuilder.ReferencesGraph
