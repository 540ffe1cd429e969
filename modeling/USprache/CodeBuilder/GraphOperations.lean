import USprache.CodeBuilder.NodeRemoval
import USprache.CodeBuilder.Types

/-!
# The operations of the references graph

`ReferencesGraph.lean` holds links, their rewiring and the removal of a node.  Here
are the other operations the code builder uses: nodes enter the graph, links are
checked before they are made, a node is moved, and the graphs of several branches
are united.

A removal or a move never makes a link out of nothing: `Rewired` says that each of
its links was there, or abbreviates a path of the graph before it.
-/

namespace USprache.CodeBuilder

open Relation List

/-- A child is created for a parent that exists, so the chain of parents of a node ends,
and `depth` is its length. -/
structure VariableNodes (V : Type) extends Variables V where
  valueType : V → ValueType
  isInnerReferenceNode : V → Bool
  isVariableInnerReferenceNode : V → Bool
  depth : V → Nat
  depth_parent : ∀ c p, parent c = some p → depth p < depth c

/-- The errors the graph reports, with the node whose name they show. -/
inductive GraphError (V : Type) where
  | referenceProtectionError (node : V)
  | creatingMutableReferencesLoop (node : V)
  | conditionalMove (node : V)
deriving DecidableEq

namespace ReferencesGraph

variable {V : Type} [DecidableEq V]

def empty : ReferencesGraph V := ⟨∅, []⟩

/-- `emplace` of a hash map: a key that is present keeps its value. -/
def emplace (G : ReferencesGraph V) (node : V) : ReferencesGraph V :=
  if node ∈ G.nodes then G else { G with nodes := G.nodes.insert node {} }

/-- `AddNode` with the height of the node as the bound of its recursion. -/
def addNodeRec (vars : Variables V) : Nat → ReferencesGraph V → V → ReferencesGraph V
  | 0, G, _ => G
  | h + 1, G, node =>
    let G1 := G.emplace node
    if vars.parent node = none then
      (vars.innerReferenceNodes node).foldl (addNodeRec vars h) G1
    else G1

def addNode (vars : Variables V) (G : ReferencesGraph V) (node : V) : ReferencesGraph V :=
  addNodeRec vars (vars.height node + 1) G node

/-- Unlike `AddNode` this one adds the inner reference nodes of a child too. -/
def addNodeIfNotExistsRec (vars : Variables V) : Nat → ReferencesGraph V → V → ReferencesGraph V
  | 0, G, _ => G
  | h + 1, G, node =>
    (vars.innerReferenceNodes node).foldl (addNodeIfNotExistsRec vars h) (G.emplace node)

def addNodeIfNotExists (vars : Variables V) (G : ReferencesGraph V) (node : V) :
    ReferencesGraph V :=
  addNodeIfNotExistsRec vars (vars.height node + 1) G node

/-- `MoveNode`.  Children enter the graph lazily, so only those present are moved. -/
def moveNodeRec (vars : Variables V) : Nat → ReferencesGraph V → V → ReferencesGraph V
  | 0, G, _ => G
  | h + 1, G, node =>
    let G1 := { G with nodes := G.nodes.insert node { moved := true } }
    let G2 := (vars.innerReferenceNodes node).foldl (removeNodeLinks vars) G1
    let G3 := ((vars.children node).filterMap id).foldl
      (fun G child => if child ∈ G.nodes then moveNodeRec vars h G child else G) G2
    G3.removeNodeLinks vars node

def moveNode (vars : Variables V) (G : ReferencesGraph V) (node : V) : ReferencesGraph V :=
  moveNodeRec vars (vars.height node + 1) G node

def hasDirectOutgoingLinks (G : ReferencesGraph V) (src : V) : Bool :=
  G.links.any (fun l => l.src = src)

variable (vars : VariableNodes V)

def hasDirectOutgoingMutableNodes (G : ReferencesGraph V) (src : V) :
    Bool :=
  G.links.any (fun l => l.src = src ∧ vars.valueType l.dst = .referenceMut)

def testChildren (vars : VariableNodes V) (G : ReferencesGraph V) (test : V → Bool) : Nat → V → Bool
  | 0, _ => false
  | h + 1, node =>
    test node || ((vars.children node).filterMap id).any
      (fun child => decide (child ∈ G.nodes) && testChildren vars G test h child)

def testParents (vars : VariableNodes V) (test : V → Bool) : Nat → V → Bool
  | 0, _ => false
  | d + 1, node =>
    match vars.parent node with
    | none => false
    | some parent => test parent || testParents vars test d parent

def hasOutgoingLinks (G : ReferencesGraph V) (src : V) : Bool :=
  testChildren vars G G.hasDirectOutgoingLinks (vars.height src + 1) src ||
    testParents vars G.hasDirectOutgoingLinks (vars.depth src + 1) src

def hasOutgoingMutableNodes (G : ReferencesGraph V) (src : V) : Bool :=
  testChildren vars G (G.hasDirectOutgoingMutableNodes vars) (vars.height src + 1) src ||
    testParents vars (G.hasDirectOutgoingMutableNodes vars) (vars.depth src + 1) src

/-- The link is made in spite of a protection error, and only a loop of mutable
references stops it. -/
def tryAddLink (G : ReferencesGraph V) (src dst : V) :
    ReferencesGraph V × List (GraphError V) :=
  let errors :=
    if (vars.valueType dst = .referenceMut ∧ G.hasOutgoingLinks vars src) ∨
        G.hasOutgoingMutableNodes vars src then
      [.referenceProtectionError src]
    else []
  if vars.valueType dst = .referenceMut ∧ vars.isVariableInnerReferenceNode dst ∧
      G.isNodeReachable vars.toVariables dst src then
    (G, errors ++ [.creatingMutableReferencesLoop dst])
  else (G.addLink src dst, errors)

variable {P : ReferencesGraph V → Prop}

theorem tryAddLink_keeps {vars : VariableNodes V} {G : ReferencesGraph V} {src dst : V} (hG : P G)
    (h : .creatingMutableReferencesLoop dst ∉ (G.tryAddLink vars src dst).2 →
      P (G.addLink src dst)) : P (G.tryAddLink vars src dst).1 := by
  unfold tryAddLink at h ⊢
  by_cases hlp : vars.valueType dst = .referenceMut ∧
      vars.isVariableInnerReferenceNode dst ∧ G.isNodeReachable vars.toVariables dst src
  · rwa [if_pos hlp]
  · rw [if_neg hlp] at h ⊢
    refine h ?_
    split <;> simp

/-- One node of a branch.  The first branch that has a node decides its state. -/
def mergeNode (acc : AList (fun _ : V => NodeState) × List (GraphError V))
    (pair : Sigma (fun _ : V => NodeState)) :
    AList (fun _ : V => NodeState) × List (GraphError V) :=
  let nodes := if pair.1 ∈ acc.1 then acc.1 else acc.1.insert pair.1 pair.2
  if (nodes.lookup pair.1).map NodeState.moved ≠ some pair.2.moved then
    (nodes, acc.2 ++ [.conditionalMove pair.1])
  else (nodes, acc.2)

def mergeLink (links : List (Link V)) (l : Link V) : List (Link V) :=
  if l ∈ links then links else links ++ [l]

def mergeBranch (result : ReferencesGraph V × List (GraphError V))
    (branch : ReferencesGraph V) : ReferencesGraph V × List (GraphError V) :=
  let merged := branch.nodes.entries.foldl mergeNode (result.1.nodes, result.2)
  (⟨merged.1, branch.links.foldl mergeLink result.1.links⟩, merged.2)

def mergeVariablesStateAfterIf (branches : List (ReferencesGraph V)) :
    ReferencesGraph V × List (GraphError V) :=
  branches.foldl mergeBranch (empty, [])

variable {vars : Variables V} {G : ReferencesGraph V}

theorem mem_emplace {n v : V} : v ∈ (G.emplace n).nodes ↔ v = n ∨ v ∈ G.nodes := by
  unfold emplace
  split
  · next h => exact ⟨.inr, fun hv => hv.elim (fun e => e ▸ h) id⟩
  · exact AList.mem_insert _

@[simp] theorem emplace_links (n : V) : (G.emplace n).links = G.links := by
  unfold emplace
  split <;> rfl

variable {f : ReferencesGraph V → V → ReferencesGraph V}

omit [DecidableEq V] in
theorem foldl_keeps {Q : V → Prop} (hf : ∀ G n, P G → Q n → P (f G n)) :
    ∀ (ns : List V) (G : ReferencesGraph V), P G → (∀ n ∈ ns, Q n) → P (ns.foldl f G) := by
  intro ns
  induction ns with
  | nil => exact fun _ hG _ => hG
  | cons n ns ih =>
    intro G hG hns
    exact ih (f G n) (hf G n hG (hns n mem_cons_self)) (fun m hm => hns m (mem_cons_of_mem n hm))

/-- The inner reference nodes have no parent, so a condition on parents only has to be
met by the node itself. -/
theorem addNode_keeps {D : ReferencesGraph V → V → Prop}
    (hP : ∀ G n, P G → D G n → P (G.emplace n)) (hD : ∀ G i, vars.parent i = none → D G i)
    (n : V) (hG : P G) (hn : D G n) :
    P (G.addNode vars n) ∧ P (G.addNodeIfNotExists vars n) := by
  have hadd : ∀ (h : Nat) (G : ReferencesGraph V) (n : V), P G → D G n →
      P (addNodeRec vars h G n) ∧ P (addNodeIfNotExistsRec vars h G n) := by
    intro h
    induction h with
    | zero => exact fun _ _ hG _ => ⟨hG, hG⟩
    | succ h ih =>
      intro G n hG hn
      have hG1 := hP G n hG hn
      have hbare : ∀ i ∈ vars.innerReferenceNodes n, vars.parent i = none :=
        fun i hi => (vars.inner_bare n i hi).1
      refine ⟨?_, foldl_keeps (fun G i hG hi => (ih G i hG (hD G i hi)).2) _ _ hG1 hbare⟩
      unfold addNodeRec
      split
      · exact foldl_keeps (fun G i hG hi => (ih G i hG (hD G i hi)).1) _ _ hG1 hbare
      · exact hG1
  exact hadd _ G n hG hn

theorem addNode_links (n : V) : (G.addNode vars n).links = G.links ∧
    (G.addNodeIfNotExists vars n).links = G.links :=
  addNode_keeps (P := fun G' => G'.links = G.links) (D := fun _ _ => True)
    (fun _ m h _ => (emplace_links m).trans h) (fun _ _ _ => trivial) n rfl trivial

/-- Each link of `G'` is a link of `G` or no loop, and in any case abbreviates a
path of `G`. -/
structure Rewired (vars : Variables V) (G G' : ReferencesGraph V) : Prop where
  link : ∀ l ∈ G'.links, (l ∈ G.links ∨ l.src ≠ l.dst) ∧ TransGen (Step vars G) l.src l.dst
  nodup : G.links.Nodup → G'.links.Nodup

section

omit [DecidableEq V]

theorem Rewired.of_links_eq {G' : ReferencesGraph V} (h : G'.links = G.links) :
    Rewired vars G G' where
  link l hl := by
    rw [h] at hl
    exact ⟨.inl hl, .single (.inl hl)⟩
  nodup hd := by rwa [h]

theorem Rewired.trans {G1 G2 G3 : ReferencesGraph V} (h : Rewired vars G1 G2)
    (h' : Rewired vars G2 G3) : Rewired vars G1 G3 where
  link l hl := by
    obtain ⟨hnew, hpth⟩ := h'.link l hl
    have hst : ∀ x y, Step vars G2 x y → TransGen (Step vars G1) x y := by
      rintro x y (hxy | hp)
      · exact (h.link ⟨x, y⟩ hxy).2
      · exact .single (.inr hp)
    exact ⟨hnew.elim (fun hl2 => (h.link l hl2).1) .inr, .closed hst _ _ hpth⟩
  nodup hd := h'.nodup (h.nodup hd)

theorem Rewired.foldl (hf : ∀ G n, Rewired vars G (f G n)) (ns : List V) (G : ReferencesGraph V) :
    Rewired vars G (ns.foldl f G) :=
  foldl_keeps (Q := fun _ => True) (fun G1 n h _ => h.trans (hf G1 n)) ns G
    (.of_links_eq rfl) (fun _ _ => trivial)

end

theorem removeNodeLinks_rewired (G : ReferencesGraph V) (n : V) :
    Rewired vars G (G.removeNodeLinks vars n) where
  link l hl := by
    obtain ⟨x, y⟩ := l
    rcases mem_removeNodeLinks.1 hl with ⟨hxy, -, -⟩ | ⟨hne, hout, hin⟩
    · exact ⟨.inl hxy, .single (.inl hxy)⟩
    · have hny : Step vars G n y := .inl (mem_outNodes.1 hout).2
      have hxn : Step vars G x n := hin.imp (fun h => (mem_inNodes.1 h).2) id
      exact ⟨.inr hne, .tail (.single hxn) hny⟩
  nodup hd := removeNodeLinks_nodup hd n

theorem removeNode_rewired (G : ReferencesGraph V) (n : V) :
    Rewired vars G (G.removeNode vars n) := by
  have hrec : ∀ h G n, Rewired vars G (removeNodeRec vars h G n) := by
    intro h
    induction h with
    | zero => exact fun _ _ => .of_links_eq rfl
    | succ h ih =>
      intro G n
      unfold removeNodeRec
      split
      · exact .of_links_eq rfl
      · refine Rewired.trans ?_ ((Rewired.foldl ih _ _).trans
          ((removeNodeLinks_rewired _ n).trans (.of_links_eq rfl)))
        split
        · exact Rewired.foldl ih _ G
        · exact .of_links_eq rfl
  exact hrec _ G n

theorem moveNode_rewired (G : ReferencesGraph V) (n : V) : Rewired vars G (G.moveNode vars n) := by
  have hrec : ∀ h G n, Rewired vars G (moveNodeRec vars h G n) := by
    intro h
    induction h with
    | zero => exact fun _ _ => .of_links_eq rfl
    | succ h ih =>
      intro G n
      have hmark : Rewired vars G { G with nodes := G.nodes.insert n { moved := true } } :=
        .of_links_eq rfl
      have hchs : ∀ G c, Rewired vars G (if c ∈ G.nodes then moveNodeRec vars h G c else G) := by
        intro G c
        split
        · exact ih G c
        · exact .of_links_eq rfl
      exact hmark.trans ((Rewired.foldl removeNodeLinks_rewired _ _).trans
        ((Rewired.foldl hchs _ _).trans (removeNodeLinks_rewired _ n)))
  exact hrec _ G n

theorem mem_mergeLinks {l : Link V} : ∀ (ls r : List (Link V)),
    l ∈ ls.foldl mergeLink r ↔ l ∈ r ∨ l ∈ ls := by
  intro ls
  induction ls with
  | nil => simp
  | cons m ls ih =>
    intro r
    have hm : l ∈ mergeLink r m ↔ l ∈ r ∨ l = m := by
      unfold mergeLink
      split
      · next h => exact ⟨.inl, fun hl => hl.elim id (fun e => e ▸ h)⟩
      · simp
    rw [foldl_cons, ih, hm, mem_cons, or_assoc]

theorem mergeLinks_nodup : ∀ (ls r : List (Link V)), r.Nodup → (ls.foldl mergeLink r).Nodup := by
  intro ls
  induction ls with
  | nil => exact fun _ h => h
  | cons m ls ih =>
    intro r h
    refine ih _ ?_
    unfold mergeLink
    split
    · exact h
    · next hm => exact nodup_append.2 ⟨h, nodup_singleton m, by grind⟩

theorem mem_mergeNodes {v : V} : ∀ (ps : List (Sigma (fun _ : V => NodeState)))
    (acc : AList (fun _ : V => NodeState) × List (GraphError V)),
    v ∈ (ps.foldl mergeNode acc).1 ↔ v ∈ acc.1 ∨ v ∈ ps.keys := by
  intro ps
  induction ps with
  | nil => simp
  | cons p ps ih =>
    intro acc
    have hpr : v ∈ (mergeNode acc p).1 ↔ v ∈ acc.1 ∨ v = p.1 := by
      have hnodes : (mergeNode acc p).1 =
          if p.1 ∈ acc.1 then acc.1 else acc.1.insert p.1 p.2 := by
        exact (apply_ite Prod.fst _ _ _).trans (ite_self _)
      rw [hnodes]
      split
      · next h => exact ⟨.inl, fun hv => hv.elim id (fun e => e ▸ h)⟩
      · rw [AList.mem_insert, or_comm]
    rw [foldl_cons, ih, hpr, keys_cons, mem_cons, or_assoc]

theorem mem_mergeVariablesStateAfterIf (brs : List (ReferencesGraph V)) :
    (∀ v, v ∈ (mergeVariablesStateAfterIf brs).1.nodes ↔ ∃ B ∈ brs, v ∈ B.nodes) ∧
      (∀ l, l ∈ (mergeVariablesStateAfterIf brs).1.links ↔ ∃ B ∈ brs, l ∈ B.links) ∧
      (mergeVariablesStateAfterIf brs).1.links.Nodup := by
  have hfold : ∀ (brs : List (ReferencesGraph V))
      (r : ReferencesGraph V × List (GraphError V)), r.1.links.Nodup →
      (∀ v, v ∈ (brs.foldl mergeBranch r).1.nodes ↔ v ∈ r.1.nodes ∨ ∃ B ∈ brs, v ∈ B.nodes) ∧
      (∀ l, l ∈ (brs.foldl mergeBranch r).1.links ↔ l ∈ r.1.links ∨ ∃ B ∈ brs, l ∈ B.links) ∧
      (brs.foldl mergeBranch r).1.links.Nodup := by
    intro brs
    induction brs with
    | nil => exact fun r h => ⟨by simp, by simp, h⟩
    | cons B brs ih =>
      intro r h
      obtain ⟨hn, hl, hd⟩ := ih (mergeBranch r B) (mergeLinks_nodup _ _ h)
      refine ⟨fun v => ?_, fun l => ?_, hd⟩
      · have hB : v ∈ (mergeBranch r B).1.nodes ↔ v ∈ r.1.nodes ∨ v ∈ B.nodes := mem_mergeNodes _ _
        rw [foldl_cons, hn, hB]
        simp only [mem_cons, exists_eq_or_imp, or_assoc]
      · have hB : l ∈ (mergeBranch r B).1.links ↔ l ∈ r.1.links ∨ l ∈ B.links := mem_mergeLinks _ _
        rw [foldl_cons, hl, hB]
        simp only [mem_cons, exists_eq_or_imp, or_assoc]
  obtain ⟨hn, hl, hd⟩ := hfold brs (empty, []) nodup_nil
  refine ⟨fun v => (hn v).trans ?_, fun l => (hl l).trans ?_, hd⟩
  · exact or_iff_right (AList.notMem_empty v)
  · exact or_iff_right not_mem_nil

end ReferencesGraph
end USprache.CodeBuilder
