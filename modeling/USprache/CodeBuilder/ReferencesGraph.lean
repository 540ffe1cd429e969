import Mathlib.Data.List.AList
import USprache.Library.Reachability

/-!
# The references graph

The borrow checker of the code builder keeps a directed graph of variable nodes.
A link leads from a node to a node that refers to it, and a struct or tuple
variable owns child nodes for its members, so reachability mixes the links of
the graph with the parent pointers of the nodes.

The nodes live outside of the graph, as `Variables`: the pointers that `Variable::Create`
and `Variable::CreateChildNode` set up.  The graph says which nodes are present, whether
they are moved and how they are linked.
-/

namespace USprache.CodeBuilder

open Library Relation List

/-- The pointers of variable nodes.  Ownership, by `children` and by
`inner_reference_nodes`, is acyclic, and `height` bounds it.  An inner reference
node is created bare: it has no parent, no children and no inner nodes. -/
structure Variables (V : Type) where
  parent : V → Option V
  children : V → List (Option V)
  innerReferenceNodes : V → List V
  height : V → Nat
  mem_children : ∀ p c, some c ∈ children p ↔ parent c = some p
  height_child : ∀ p c, parent c = some p → height c < height p
  height_inner : ∀ v i, i ∈ innerReferenceNodes v → height i < height v
  inner_bare : ∀ v i, i ∈ innerReferenceNodes v →
    parent i = none ∧ children i = [] ∧ innerReferenceNodes i = []

structure NodeState where
  moved : Bool := false
deriving DecidableEq

structure Link (V : Type) where
  src : V
  dst : V
deriving DecidableEq

instance {V : Type} [DecidableEq V] : LawfulBEq (Link V) := inferInstance

/-- `nodes_` is a map from nodes to their states, `links_` a vector. -/
structure ReferencesGraph (V : Type) where
  nodes : AList (fun _ : V => NodeState)
  links : List (Link V)

namespace ReferencesGraph

variable {V : Type} [DecidableEq V]

def addLink (G : ReferencesGraph V) (src dst : V) : ReferencesGraph V :=
  if src = dst then G
  else if ⟨src, dst⟩ ∈ G.links then G
  else { G with links := G.links ++ [⟨src, dst⟩] }

def addLinks (G : ReferencesGraph V) (src : V) (dsts : List V) : ReferencesGraph V :=
  dsts.foldl (fun G dst => G.addLink src dst) G

/-- The last link takes the place of the link at index `i`. -/
def swapErase (links : List (Link V)) (i : Nat) (h : i < links.length) : List (Link V) :=
  if i + 1 < links.length then
    (links.set i (links.getLast (ne_nil_of_length_pos (by omega)))).dropLast
  else links.dropLast

omit [DecidableEq V] in
@[simp] theorem length_swapErase (ls : List (Link V)) (i : Nat) (h : i < ls.length) :
    (swapErase ls i h).length = ls.length - 1 := by
  unfold swapErase
  split <;> simp

/-- The scan of `RemoveNodeLinks` that drops the links of `node`.  After a link is
dropped the index stays where it is. -/
def removeLinks (node : V) (links : List (Link V)) (i : Nat) : List (Link V) :=
  if h : i < links.length then
    if links[i].src = node ∨ links[i].dst = node then
      removeLinks node (swapErase links i h) i
    else removeLinks node links (i + 1)
  else links
termination_by links.length - i
decreasing_by
  · rw [length_swapErase]; omega
  · omega

/-- The nodes with a link into `node`, loops aside.  The source collects them in
an unordered set. -/
def inNodes (G : ReferencesGraph V) (node : V) : List V :=
  ((G.links.filter (fun l => l.src ≠ l.dst ∧ l.dst = node)).map Link.src).dedup

def outNodes (G : ReferencesGraph V) (node : V) : List V :=
  ((G.links.filter (fun l => l.src ≠ l.dst ∧ l.src = node)).map Link.dst).dedup

variable (vars : Variables V)

def removeNodeLinks (G : ReferencesGraph V) (node : V) : ReferencesGraph V :=
  let ins := G.inNodes node
  let outs := G.outNodes node
  let G1 := { G with links := removeLinks node G.links 0 }
  let G2 := ins.foldl (fun G src => G.addLinks src outs) G1
  match vars.parent node with
  | some parent => G2.addLinks parent outs
  | none => G2

/-- The last two statements of `RemoveNode`. -/
def dropNode (G : ReferencesGraph V) (node : V) : ReferencesGraph V :=
  let G' := G.removeNodeLinks vars node
  { G' with nodes := G'.nodes.erase node }

/-- `RemoveNode` with the height of the node as the bound of its recursion. -/
def removeNodeRec (vars : Variables V) : Nat → ReferencesGraph V → V → ReferencesGraph V
  | 0, G, _ => G
  | h + 1, G, node =>
    if node ∉ G.nodes then G
    else
      let G1 :=
        if vars.parent node = none then
          (vars.innerReferenceNodes node).foldl (removeNodeRec vars h) G
        else G
      let G2 := ((vars.children node).filterMap id).foldl (removeNodeRec vars h) G1
      G2.dropNode vars node

def removeNode (vars : Variables V) (G : ReferencesGraph V) (node : V) : ReferencesGraph V :=
  removeNodeRec vars (vars.height node + 1) G node

/-- The nodes `IsNodeReachable_r` continues with: the sources of the links into a
node, then its parent. -/
def inputs (G : ReferencesGraph V) (node : V) : List V :=
  (G.links.filter (fun l => l.dst = node)).map Link.src ++ (vars.parent node).toList

/-- In a well-formed graph the search only visits nodes of the graph, so their
number bounds its depth. -/
def isNodeReachable (G : ReferencesGraph V) (src dst : V) : Bool :=
  (search (G.inputs vars) src (G.nodes.keys.length + 1) dst []).1

/-- Link endpoints and parents are present, and no link occurs twice. -/
structure WellFormed (G : ReferencesGraph V) : Prop where
  src_mem : ∀ l ∈ G.links, l.src ∈ G.nodes
  dst_mem : ∀ l ∈ G.links, l.dst ∈ G.nodes
  nodup : G.links.Nodup
  parent_mem : ∀ v ∈ G.nodes, ∀ p, vars.parent v = some p → p ∈ G.nodes

/-- One step of reachability: a link, or the descent from a node to a child. -/
def Step (G : ReferencesGraph V) (x y : V) : Prop :=
  ⟨x, y⟩ ∈ G.links ∨ vars.parent y = some x

variable {vars} {G : ReferencesGraph V} {x y : V} {l : Link V}

theorem mem_inputs : x ∈ G.inputs vars y ↔ Step vars G x y := by
  simp only [inputs, mem_append, mem_map, mem_filter, decide_eq_true_eq, Option.mem_toList]
  refine or_congr_left ⟨?_, fun h => ⟨⟨x, y⟩, ⟨h, rfl⟩, rfl⟩⟩
  rintro ⟨⟨s, d⟩, ⟨hl, rfl⟩, rfl⟩
  exact hl

omit [DecidableEq V] in
theorem WellFormed.step_mem (hG : G.WellFormed vars) (h : Step vars G x y) (hy : y ∈ G.nodes) :
    x ∈ G.nodes := by
  rcases h with h | h
  · exact hG.src_mem _ h
  · exact hG.parent_mem y hy x h

theorem isNodeReachable_iff (hG : G.WellFormed vars) {a b : V} (hb : b ∈ G.nodes) :
    G.isNodeReachable vars a b = true ↔ ReflTransGen (Step vars G) a b := by
  have hcls : ∀ x ∈ G.nodes.keys, ∀ p ∈ G.inputs vars x, p ∈ G.nodes.keys :=
    fun x hx p hp => hG.step_mem (mem_inputs.1 hp) hx
  rw [isNodeReachable, search_eq_true_iff hcls hb (Nat.lt_succ_self _)]
  simp only [mem_inputs]

theorem mem_addLink : l ∈ (G.addLink x y).links ↔ l ∈ G.links ∨ (x ≠ y ∧ l = ⟨x, y⟩) := by
  unfold addLink
  by_cases hxy : x = y
  · simp [hxy]
  · by_cases hl : (⟨x, y⟩ : Link V) ∈ G.links
    · simp only [hxy, hl, ne_eq, not_false_eq_true, true_and]
      exact ⟨.inl, fun h => h.elim id (fun e => e ▸ hl)⟩
    · simp [hxy, hl]

@[simp] theorem addLink_nodes (G : ReferencesGraph V) (x y : V) :
    (G.addLink x y).nodes = G.nodes := by
  unfold addLink
  split
  · rfl
  · split <;> rfl

theorem addLink_nodup (h : G.links.Nodup) (x y : V) : (G.addLink x y).links.Nodup := by
  unfold addLink
  split
  · exact h
  · split
    · exact h
    · next hn =>
      refine nodup_append.2 ⟨h, nodup_singleton _, fun a ha b hb e => hn ?_⟩
      rw [← mem_singleton.1 hb, ← e]
      exact ha

theorem mem_addLinks : ∀ (ys : List V) (G : ReferencesGraph V),
    l ∈ (G.addLinks x ys).links ↔ l ∈ G.links ∨ (l.src = x ∧ x ≠ l.dst ∧ l.dst ∈ ys) := by
  intro ys
  induction ys with
  | nil => intro G; simp [addLinks]
  | cons y ys ih =>
    intro G
    have h := ih (G.addLink x y)
    rw [mem_addLink] at h
    rw [show G.addLinks x (y :: ys) = (G.addLink x y).addLinks x ys from rfl]
    cases l
    grind

@[simp] theorem addLinks_nodes (x : V) : ∀ (ys : List V) (G : ReferencesGraph V),
    (G.addLinks x ys).nodes = G.nodes := by
  intro ys
  induction ys with
  | nil => intro G; rfl
  | cons y ys ih =>
    intro G
    rw [show G.addLinks x (y :: ys) = (G.addLink x y).addLinks x ys from rfl, ih, addLink_nodes]

theorem addLinks_nodup (x : V) : ∀ (ys : List V) {G : ReferencesGraph V},
    G.links.Nodup → (G.addLinks x ys).links.Nodup := by
  intro ys
  induction ys with
  | nil => exact fun h => h
  | cons y ys ih => exact fun h => ih (addLink_nodup h x y)

theorem mem_foldl_addLinks {ys : List V} : ∀ (xs : List V) (G : ReferencesGraph V),
    l ∈ (xs.foldl (fun G src => G.addLinks src ys) G).links ↔
      l ∈ G.links ∨ (l.src ∈ xs ∧ l.src ≠ l.dst ∧ l.dst ∈ ys) := by
  intro xs
  induction xs with
  | nil => intro G; simp
  | cons x xs ih =>
    intro G
    rw [foldl_cons, ih, mem_addLinks]
    grind

theorem foldl_addLinks_keeps (ys : List V) : ∀ (xs : List V) (G : ReferencesGraph V),
    (xs.foldl (fun G src => G.addLinks src ys) G).nodes = G.nodes ∧
      (G.links.Nodup → (xs.foldl (fun G src => G.addLinks src ys) G).links.Nodup) := by
  intro xs
  induction xs with
  | nil => exact fun G => ⟨rfl, id⟩
  | cons x xs ih =>
    intro G
    obtain ⟨hn, hd⟩ := ih (G.addLinks x ys)
    exact ⟨by rw [foldl_cons, hn, addLinks_nodes], fun h => hd (addLinks_nodup x ys h)⟩

end ReferencesGraph

end USprache.CodeBuilder
