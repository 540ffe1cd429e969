import USprache.LexSynt.SourceGraphLoader

/-!
# What loading a node does

The recursion of the loader keeps an invariant in which the nodes under construction
are set apart: they are those of the files on the stack.  Every other node is complete,
with the nodes of its imports as its children, and complete nodes only lead to complete
nodes.

Only the paths and the children of nodes matter here.  `view` is a graph without the
rest.
-/

namespace USprache.LexSynt.SourceGraph

open Relation List Option

variable {M Ast Contexts : Type}

abbrev View := List (Path × List Nat)

variable (g : SourceGraph Ast Contexts)

def view : View :=
  g.nodesStorage.map (fun node => (node.filePath, node.childNodesIndices))

namespace View

def paths (v : View) : List Path := v.map Prod.fst

def pathAt (v : View) (k : Nat) : Option Path := v.paths[k]?

def Child (v : View) (a b : Nat) : Prop := ∃ node, v[a]? = some node ∧ b ∈ node.2

/-- An edge that does not start at a node under construction. -/
def ChildOutside (inProgress : List Nat) (v : View) (a b : Nat) : Prop :=
  a ∉ inProgress ∧ Child v a b

/-- The nodes outside of the construction are still there, unchanged. -/
def Keeps (inProgress : List Nat) (v v' : View) : Prop :=
  ∀ k node, k ∉ inProgress → v[k]? = some node → v'[k]? = some node

variable {v : View} {p : Path} {inProgress : List Nat} {v' : View}

theorem pathAt_eq_some {k : Nat} :
    v.pathAt k = some p ↔ ∃ children, v[k]? = some (p, children) := by
  simp only [pathAt, paths, getElem?_map, map_eq_some_iff, Prod.exists,
    exists_eq_right, exists_and_right]

theorem mem_paths : p ∈ v.paths ↔ ∃ k, v.pathAt k = some p := mem_iff_getElem?

theorem Keeps.refl (inProgress : List Nat) (v : View) : Keeps inProgress v v := fun _ _ _ h => h

theorem Keeps.trans {v1 v2 v3 : View} (h : Keeps inProgress v1 v2)
    (h' : Keeps inProgress v2 v3) : Keeps inProgress v1 v3 :=
  fun k n hk hnode => h' k n hk (h k n hk hnode)

theorem Keeps.mono {inProgress' : List Nat}
    (h : Keeps inProgress v v') (hsub : ∀ k ∈ inProgress, k ∈ inProgress') :
    Keeps inProgress' v v' :=
  fun k n hk hnode => h k n (fun hmem => hk (hsub k hmem)) hnode

theorem keeps_append (inProgress : List Nat) (v news : View) : Keeps inProgress v (v ++ news) := by
  intro k node _ hnode
  rw [getElem?_append_left (List.getElem?_eq_some_iff.1 hnode).1]
  exact hnode

theorem Keeps.pathAt (h : Keeps [] v v') {k : Nat}
    (hk : v.pathAt k = some p) : v'.pathAt k = some p := by
  obtain ⟨children, hnode⟩ := pathAt_eq_some.1 hk
  exact pathAt_eq_some.2 ⟨children, h k _ not_mem_nil hnode⟩

theorem Keeps.reaches (h : Keeps inProgress v v')
    {a b : Nat} (hab : ReflTransGen (ChildOutside inProgress v) a b) :
    ReflTransGen (ChildOutside inProgress v') a b := by
  refine .mono (fun x y hxy => ?_) _ _ hab
  obtain ⟨hx, n, hnode, hy⟩ := hxy
  exact ⟨hx, n, h x n hx hnode, hy⟩

def setChildren (v : View) (n : Nat) (children : List Nat) : View :=
  v.modify n (fun node => (node.1, children))

theorem getElem?_setChildren (v : View) (n : Nat) (children : List Nat) (k : Nat) :
    (v.setChildren n children)[k]? =
      if n = k then v[k]?.map (fun node => (node.1, children)) else v[k]? := by
  rw [setChildren, getElem?_modify]
  split
  · rfl
  · exact map_id'

@[simp] theorem paths_setChildren (v : View) (n : Nat) (children : List Nat) :
    (v.setChildren n children).paths = v.paths := by
  refine ext_getElem? (fun k => ?_)
  rw [paths, paths, getElem?_map, getElem?_map, getElem?_setChildren]
  split
  · rw [Option.map_map]
    rfl
  · rfl

@[simp] theorem length_setChildren (v : View) (n : Nat) (children : List Nat) :
    (v.setChildren n children).length = v.length :=
  length_modify _ _ _

theorem keeps_setChildren (v : View) {n : Nat} (children : List Nat)
    (hn : n ∈ inProgress) : Keeps inProgress v (v.setChildren n children) := by
  intro k node hk hnode
  have hne : n ≠ k := fun e => hk (e ▸ hn)
  rw [getElem?_setChildren, if_neg hne]
  exact hnode

end View

@[simp] theorem view_addErrors (errs : List FileError) :
    (g.addErrors errs).view = g.view := rfl

@[simp] theorem view_pushNode (n : Node Ast) :
    (g.pushNode n).view = g.view ++ [(n.filePath, n.childNodesIndices)] := by
  simp [view, pushNode]

theorem view_modifyNode (n : Nat) (f : Node Ast → Node Ast)
    (children : List Nat)
    (hf : ∀ node, g.nodesStorage[n]? = some node →
      (f node).filePath = node.filePath ∧ (f node).childNodesIndices = children) :
    (g.modifyNode n f).view = g.view.setChildren n children := by
  refine ext_getElem? (fun k => ?_)
  rw [View.getElem?_setChildren, view, view, modifyNode, getElem?_map, getElem?_map,
    getElem?_modify]
  by_cases hk : n = k
  · subst hk
    simp only [if_true]
    cases hnode : g.nodesStorage[n]? with
    | none => rfl
    | some node =>
      obtain ⟨hp, hchs⟩ := hf node hnode
      simp [hp, hchs]
  · simp only [if_neg hk]
    cases g.nodesStorage[k]? <;> rfl

@[simp] theorem view_analyzeNode (analysis : SyntaxAnalysis M Ast Contexts)
    (hash : Path → Text) (n : Nat) (path : Path) (lxs : List Lexem)
    (imported : List (MacrosByContextMap M)) (g : SourceGraph Ast Contexts) :
    (analyzeNode analysis hash n path lxs imported g).view = g.view := by
  unfold analyzeNode modifyNode view
  refine ext_getElem? (fun k => ?_)
  rw [getElem?_map, getElem?_map, getElem?_modify]
  cases g.nodesStorage[k]? with
  | none => rfl
  | some node =>
    split <;> rfl

variable {path : Path} {vfs : Vfs} {v : View} {inProgress : List Nat} {k : Nat}

variable {analysis : SyntaxAnalysis M Ast Contexts}

theorem errors_of_analyzeNode {hash : Path → Text} {n : Nat} {lxs : List Lexem}
    {imported : List (MacrosByContextMap M)} {g : SourceGraph Ast Contexts}
    (h : (analyzeNode analysis hash n path lxs imported g).errors = []) :
    g.errors = [] := by
  have hsum : g.errors ++ (mergeMacros analysis n imported).2 ++ _ = [] := h
  exact (append_eq_nil_iff.1 (append_eq_nil_iff.1 hsum).1).1

def ImportsOf (vfs : Vfs) (path : Path) (imports : List Import) : Prop :=
  ∃ text fuel lexResult, vfs.loadFileContent path = some text ∧
    vfs.isImportingFileAllowed path = true ∧ lexicalAnalysis fuel text = .ok lexResult ∧
    lexResult.errors = [] ∧
    parseImports (lexResult.lexems.length + 1) lexResult.lexems = .ok imports

def resolve (vfs : Vfs) (path : Path) (imports : List Import) : List Path :=
  imports.map (fun import_ => vfs.getFullFilePath import_.importName path)

theorem exists_path_of_denotes {imports : List Import}
    {children : List Nat} (h : children.map v.pathAt = (resolve vfs path imports).map some)
    {c : Nat} (hc : c ∈ children) : ∃ p ∈ resolve vfs path imports, v.pathAt c = some p := by
  have hmem : v.pathAt c ∈ (resolve vfs path imports).map some := h ▸ mem_map_of_mem hc
  obtain ⟨p, hp, heq⟩ := mem_map.1 hmem
  exact ⟨p, hp, heq.symm⟩

theorem loop_mono {sz fuel : Nat} {st r : LexState} (h : st.loop sz fuel = .ok r) :
    ∀ fuel', fuel ≤ fuel' → st.loop sz fuel' = .ok r := by
  induction fuel generalizing st with
  | zero =>
    intro fuel' _
    by_cases hnil : st.it = []
    · rw [LexState.loop, if_pos hnil] at h
      cases fuel' with
      | zero | succ fuel' => rw [LexState.loop, if_pos hnil]; exact h
    · rw [LexState.loop, if_neg hnil] at h
      cases h
  | succ fuel ih =>
    intro fuel' hle
    obtain ⟨fuel', rfl⟩ : ∃ k, fuel' = k + 1 := ⟨fuel' - 1, by omega⟩
    rw [LexState.loop] at h ⊢
    by_cases hnil : st.it = []
    · rw [if_pos hnil] at h ⊢
      exact h
    · rw [if_neg hnil] at h ⊢
      cases hst : st.step sz with
      | error fault => rw [hst] at h; cases h
      | ok next =>
        rw [hst] at h
        cases next with
        | next st' => exact ih h fuel' (by omega)
        | stop st' => exact h

/-- The result of the lexical analysis does not depend on the bound on its turns. -/
theorem lexicalAnalysis_unique {fuel fuel' : Nat} {t : Text} {r r' : LexState}
    (h : lexicalAnalysis fuel t = .ok r) (h' : lexicalAnalysis fuel' t = .ok r') : r = r' := by
  have hmax := loop_mono h (max fuel fuel') (le_max_left _ _)
  have hmax' := loop_mono h' (max fuel fuel') (le_max_right _ _)
  rw [hmax] at hmax'
  exact Except.ok.inj hmax'

/-- A node outside of the construction whose children are those of its imports, and
complete themselves. -/
inductive Complete (vfs : Vfs) (inProgress : List Nat) (v : View) : Nat → Prop where
  | intro (k : Nat) (path : Path) (children : List Nat) (imports : List Import)
      (outside : k ∉ inProgress) (node : v[k]? = some (path, children))
      (imports_of : ImportsOf vfs path imports)
      (denotes : children.map v.pathAt = (resolve vfs path imports).map some)
      (complete : ∀ c ∈ children, Complete vfs inProgress v c) : Complete vfs inProgress v k

/-- A complete node stays complete while the nodes outside of the construction stay as
they are, and stay outside. -/
theorem Complete.mono {inProgress' : List Nat} {v' : View} (h : View.Keeps inProgress v v')
    (hout : ∀ k n, k ∉ inProgress → v[k]? = some n → k ∉ inProgress')
    (hk : Complete vfs inProgress v k) : Complete vfs inProgress' v' k := by
  induction hk with
  | intro k path children imports outside n imports_of denotes complete ih =>
    refine .intro k path children imports (hout k _ outside n) (h k _ outside n) imports_of ?_ ih
    rw [← denotes]
    refine map_congr_left (fun c hc => ?_)
    cases complete c hc with
    | intro _ cpath cchildren _ coutside cnode _ _ _ =>
      rw [View.pathAt_eq_some.2 ⟨_, h c _ coutside cnode⟩, View.pathAt_eq_some.2 ⟨_, cnode⟩]

theorem Complete.acc (hk : Complete vfs inProgress v k) : Acc (fun b a => View.Child v a b) k := by
  induction hk with
  | intro k path children imports outside n imports_of denotes complete ih =>
    refine ⟨_, fun c hc => ?_⟩
    obtain ⟨node', hnode', hmem⟩ := hc
    rw [n] at hnode'
    cases hnode'
    exact ih c hmem

theorem View.not_transGen_self_of_acc
    (hk : Acc (fun b a => View.Child v a b) k) : ¬ TransGen (View.Child v) k k := by
  have hirr : ∀ k, Acc (TransGen (fun b a => View.Child v a b)) k →
      ¬ TransGen (fun b a => View.Child v a b) k k := by
    intro k hk
    induction hk with
    | intro k _ ih => exact fun hkk => ih k hkk hkk
  exact fun h => hirr k hk.transGen (transGen_swap.2 h)

/-- A file is done with: if its lexical analysis is called then it ends, and the files
it imports have nodes. -/
def Visited (vfs : Vfs) (v : View) (path : Path) : Prop :=
  ∀ text, vfs.loadFileContent path = some text → vfs.isImportingFileAllowed path = true →
    (∃ fuel lexResult, lexicalAnalysis fuel text = .ok lexResult) ∧
      ∀ imports, ImportsOf vfs path imports → ∀ q ∈ resolve vfs path imports, q ∈ v.paths

theorem Visited.mono {v' : View}
    (h : ∀ q ∈ v.paths, q ∈ v'.paths) (hp : Visited vfs v path) : Visited vfs v' path := by
  intro t ht halw
  obtain ⟨hends, himp⟩ := hp t ht halw
  exact ⟨hends, fun imports hi q hq => h q (himp imports hi q hq)⟩

/-- The nodes in progress are those of the files on the stack.  All others are done
with, and complete as long as there are no errors. -/
structure Inv (vfs : Vfs) (inProgress : List Nat) (stack : List Path)
    (g : SourceGraph Ast Contexts) : Prop where
  nodup : g.view.paths.Nodup
  in_range : ∀ k ∈ inProgress, k < g.view.length
  stack_iff : ∀ p, p ∈ stack ↔ ∃ k ∈ inProgress, g.view.pathAt k = some p
  visited : ∀ k p, k ∉ inProgress → g.view.pathAt k = some p → Visited vfs g.view p
  complete : g.errors = [] → ∀ k, k < g.view.length → k ∉ inProgress →
    Complete vfs inProgress g.view k

/-- What a call for the file `full` leaves: the nodes before it and what it returns. -/
structure Loaded (vfs : Vfs) (inProgress : List Nat) (stack : List Path) (full : Path)
    (g g' : SourceGraph Ast Contexts) (result : Option Nat) : Prop where
  inv : Inv vfs inProgress stack g'
  keeps : View.Keeps [] g.view g'.view
  errors : g'.errors = [] → g.errors = []
  visited : full ∈ g'.view.paths
  returns : g'.errors = [] → ∃ i, result = some i ∧ i ∉ inProgress ∧
    g'.view.pathAt i = some full ∧ (i = g.view.length ∨ g'.view = g.view) ∧
    ∀ k, g.view.length ≤ k → k < g'.view.length →
      ReflTransGen (View.ChildOutside inProgress g'.view) i k

section Loading

variable {stack : List Path} {full : Path} {g' : SourceGraph Ast Contexts} {g}

variable {children : List Nat} {imports : List Import}

theorem View.Keeps.paths {v' : View} (h : View.Keeps [] v v') : ∀ q ∈ v.paths, q ∈ v'.paths := by
  intro q hq
  obtain ⟨k, hk⟩ := View.mem_paths.1 hq
  exact View.mem_paths.2 ⟨k, h.pathAt hk⟩

theorem View.pathAt_unique (h : v.paths.Nodup) {j k : Nat} {p : Path}
    (hj : v.pathAt j = some p) (hk : v.pathAt k = some p) : j = k :=
  (getElem?_inj (List.getElem?_eq_some_iff.1 hj).1 h).1 (hj.trans hk.symm)

theorem View.pathAt_append {full : Path} {k : Nat} : (v ++ [(full, children)]).pathAt k =
    if k = v.length then some full else v.pathAt k := by
  have hps : (v ++ [(full, children)]).paths = v.paths ++ [full] := by
    rw [View.paths, map_append]
    rfl
  have hlen : v.paths.length = v.length := length_map _
  rw [View.pathAt, View.pathAt, hps]
  by_cases hk : k = v.length
  · rw [if_pos hk, hk, ← hlen, getElem?_concat_length]
  · rw [if_neg hk]
    by_cases hlt : k < v.length
    · exact getElem?_append_left (by omega)
    · have hge : (v.paths ++ [full]).length ≤ k := by
        rw [length_append, length_singleton]
        omega
      rw [getElem?_eq_none hge, getElem?_eq_none (by omega)]

variable (hg : Inv vfs inProgress stack g)

include hg

theorem Inv.push
    (hfu : full ∉ g.view.paths) (hvw : g'.view = g.view ++ [(full, children)])
    (herrs : g'.errors = [] → g.errors = []) :
    Inv vfs (g.view.length :: inProgress) (stack ++ [full]) g' := by
  have hkp : View.Keeps [] g.view g'.view := by
    rw [hvw]
    exact View.keeps_append [] _ _
  have hlen : g'.view.length = g.view.length + 1 := by
    rw [hvw, length_append]
    rfl
  have hat : ∀ k, g'.view.pathAt k = if k = g.view.length then some full else g.view.pathAt k := by
    rw [hvw]
    exact fun k => View.pathAt_append
  have hold : ∀ k ∈ inProgress, g'.view.pathAt k = g.view.pathAt k := by
    intro k hk
    have := hg.in_range k hk
    rw [hat, if_neg (by omega)]
  refine ⟨?_, ?_, ?_, ?_, ?_⟩
  · rw [hvw, View.paths, map_append, nodup_append]
    refine ⟨hg.nodup, by simp, ?_⟩
    intro a ha b hb e
    rw [map_singleton, mem_singleton] at hb
    subst e
    rw [hb] at ha
    exact hfu ha
  · intro k hk
    rcases mem_cons.1 hk with rfl | hk
    · omega
    · have := hg.in_range k hk
      omega
  · intro p
    rw [mem_append, mem_singleton, hg.stack_iff p]
    constructor
    · rintro (⟨k, hk, hp⟩ | rfl)
      · exact ⟨k, mem_cons_of_mem _ hk, (hold k hk).trans hp⟩
      · exact ⟨g.view.length, mem_cons_self, by rw [hat, if_pos rfl]⟩
    · rintro ⟨k, hk, hp⟩
      rcases mem_cons.1 hk with rfl | hk
      · rw [hat, if_pos rfl] at hp
        exact .inr (some.inj hp).symm
      · exact .inl ⟨k, hk, (hold k hk).symm.trans hp⟩
  · intro k p hk hp
    rw [mem_cons, not_or] at hk
    rw [hat, if_neg hk.1] at hp
    exact (hg.visited k p hk.2 hp).mono hkp.paths
  · intro hnil k hk hmem
    rw [mem_cons, not_or] at hmem
    have hlt : k < g.view.length := by omega
    refine (hg.complete (herrs hnil) k hlt hmem.2).mono
      (hkp.mono nofun) ?_
    intro j node hj hnode
    have hjlt := (List.getElem?_eq_some_iff.1 hnode).1
    rw [mem_cons, not_or]
    exact ⟨by omega, hj⟩

omit hg in
theorem Inv.finish {n : Nat} (hg : Inv vfs (n :: inProgress) (stack ++ [full]) g)
    (hn : n ∉ inProgress) (hfu : full ∉ stack) (hpth : g.view.pathAt n = some full)
    (hvis : Visited vfs g.view full)
    (hcom : g.errors = [] → Complete vfs inProgress g.view n) :
    Inv vfs inProgress stack g where
  nodup := hg.nodup
  in_range k hk := hg.in_range k (mem_cons_of_mem n hk)
  stack_iff p := by
    constructor
    · intro hp
      obtain ⟨k, hk, hkp⟩ := (hg.stack_iff p).1 (mem_append_left _ hp)
      rcases mem_cons.1 hk with rfl | hk
      · rw [hpth] at hkp
        cases hkp
        exact absurd hp hfu
      · exact ⟨k, hk, hkp⟩
    · rintro ⟨k, hk, hkp⟩
      have hp := (hg.stack_iff p).2 ⟨k, mem_cons_of_mem n hk, hkp⟩
      rcases mem_append.1 hp with hp | hp
      · exact hp
      · rw [mem_singleton.1 hp] at hkp
        exact absurd (View.pathAt_unique hg.nodup hkp hpth ▸ hk) hn
  visited k p hk hp := by
    by_cases hkn : k = n
    · rw [hkn, hpth] at hp
      cases hp
      exact hvis
    · exact hg.visited k p (fun h => (mem_cons.1 h).elim hkn hk) hp
  complete hnil k hlt hk := by
    by_cases hkn : k = n
    · rw [hkn]
      exact hcom hnil
    · refine (hg.complete hnil k hlt (fun h => (mem_cons.1 h).elim hkn hk)).mono
        (View.Keeps.refl _ _) ?_
      exact fun j _ hj _ h => hj (mem_cons_of_mem n h)

theorem Inv.setChildren {n : Nat} (hn : n ∈ inProgress) (hvw : g'.view = g.view.setChildren n children)
    (herrs : g'.errors = [] → g.errors = []) : Inv vfs inProgress stack g' := by
  have hps : g'.view.paths = g.view.paths := by rw [hvw, View.paths_setChildren]
  have hat : ∀ k, g'.view.pathAt k = g.view.pathAt k := fun k => by
    rw [View.pathAt, View.pathAt, hps]
  have hlen : g'.view.length = g.view.length := by rw [hvw, View.length_setChildren]
  refine ⟨?_, ?_, ?_, ?_, ?_⟩
  · rw [hps]
    exact hg.nodup
  · rw [hlen]
    exact hg.in_range
  · simp only [hat]
    exact hg.stack_iff
  · intro k p hk hp
    rw [hat] at hp
    refine (hg.visited k p hk hp).mono ?_
    rw [hps]
    exact fun _ => id
  · intro hnil k hlt hk
    rw [hlen] at hlt
    refine (hg.complete (herrs hnil) k hlt hk).mono ?_ (fun _ _ h _ => h)
    rw [hvw]
    exact View.keeps_setChildren _ _ hn

omit hg in
theorem take_set_succ {α : Type} {l : List α} {i : Nat} (h : i < l.length) (a : α) :
    (l.set i a).take (i + 1) = l.take i ++ [a] := by
  rw [take_add_one, getElem?_set_self h, take_set_of_le (le_refl i)]
  rfl

/-- While the imports of the node `n` are loaded: the children found so far are those of
the imports `done`, and all nodes behind `n` are below them. -/
structure LoopInv (vfs : Vfs) (inProgress : List Nat) (stack : List Path) (full : Path)
    (g0 : SourceGraph Ast Contexts) (done : List Import) (total : Nat)
    (g : SourceGraph Ast Contexts) : Prop where
  inv : Inv vfs (g0.view.length :: inProgress) (stack ++ [full]) g
  keeps : View.Keeps [] g0.view g.view
  errors : g.errors = [] → g0.errors = []
  visited : ∀ q ∈ resolve vfs full done, q ∈ g.view.paths
  node : ∃ children, g.view[g0.view.length]? = some (full, children) ∧ children.length = total ∧
    (g.errors = [] →
      (children.take done.length).map g.view.pathAt = (resolve vfs full done).map some ∧
      (∀ c ∈ children.take done.length, c ∉ g0.view.length :: inProgress) ∧
      ∀ k, g0.view.length < k → k < g.view.length → ∃ c ∈ children.take done.length,
        ReflTransGen (View.ChildOutside (g0.view.length :: inProgress) g.view) c k)

omit hg in
theorem LoopInv.addImport {g0 : SourceGraph Ast Contexts}
    (analysis : SyntaxAnalysis M Ast Contexts) {done : List Import} {total : Nat}
    {imp : Import} {r : Option Nat} (imported : List (MacrosByContextMap M))
    (hg : LoopInv vfs inProgress stack full g0 done total g) (htot : done.length < total)
    (hld : Loaded vfs (g0.view.length :: inProgress) (stack ++ [full])
      (vfs.getFullFilePath imp.importName full) g g' r) :
    LoopInv vfs inProgress stack full g0 (done ++ [imp]) total
      (addImport analysis g0.view.length done.length imported (r, g')).graph := by
  obtain ⟨children, hnode, hlen, hdone⟩ := hg.node
  have hn : g0.view.length ∈ g0.view.length :: inProgress := mem_cons_self
  have hnode' := hld.keeps _ _ not_mem_nil hnode
  have hkp : View.Keeps [] g0.view g'.view := hg.keeps.trans hld.keeps
  have herrs : g'.errors = [] → g0.errors = [] := fun h => hg.errors (hld.errors h)
  have hvis : ∀ q ∈ resolve vfs full (done ++ [imp]), q ∈ g'.view.paths := by
    intro q hq
    rw [resolve, map_append, mem_append, map_singleton, mem_singleton] at hq
    rcases hq with hq | rfl
    · exact hld.keeps.paths q (hg.visited q hq)
    · exact hld.visited
  cases r with
  | none =>
    -- Something failed below, so nothing is claimed of the children.
    have hfai : g'.errors ≠ [] := by
      intro hnil
      obtain ⟨i, hi, -⟩ := hld.returns hnil
      cases hi
    exact ⟨hld.inv, hkp, herrs, hvis, children, hnode', hlen, fun hnil => absurd hnil hfai⟩
  | some c =>
    generalize hG : (SourceGraph.addImport analysis g0.view.length done.length imported
      (some c, g')).graph = G
    have hvw : G.view = g'.view.setChildren g0.view.length (children.set done.length c) := by
      rw [← hG]
      refine view_modifyNode g' _ _ _ (fun n hget => ⟨rfl, ?_⟩)
      have heq : g'.view[g0.view.length]? = some (n.filePath, n.childNodesIndices) := by
        rw [view, getElem?_map, hget]
        rfl
      rw [hnode'] at heq
      cases heq
      rfl
    have hpAt : ∀ k p, g.view.pathAt k = some p → G.view.pathAt k = some p := by
      intro k p hk
      rw [hvw, View.pathAt, View.paths_setChildren]
      exact hld.keeps.pathAt hk
    have hkpt : View.Keeps (g0.view.length :: inProgress) g'.view G.view := by
      rw [hvw]
      exact View.keeps_setChildren _ _ hn
    subst hG
    refine ⟨hld.inv.setChildren hn hvw id, ?_, herrs, ?_, children.set done.length c, ?_, ?_, ?_⟩
    · intro k n hk hget
      have hne : g0.view.length ≠ k := by
        have := (List.getElem?_eq_some_iff.1 hget).1
        omega
      rw [hvw, View.getElem?_setChildren, if_neg hne]
      exact hkp k n hk hget
    · rw [hvw, View.paths_setChildren]
      exact hvis
    · rw [hvw, View.getElem?_setChildren, if_pos rfl, hnode']
      rfl
    · rw [length_set]
      exact hlen
    · intro hnil
      obtain ⟨c', hc', hout, hpth, -, hb⟩ := hld.returns hnil
      cases hc'
      obtain ⟨hmap, houts, hrch⟩ := hdone (hld.errors hnil)
      have htk : (children.set done.length c).take (done ++ [imp]).length
          = children.take done.length ++ [c] := by
        rw [length_append, length_singleton, take_set_succ (by omega)]
      rw [htk]
      refine ⟨?_, ?_, ?_⟩
      · rw [map_append, resolve, map_append, map_append, ← resolve, ← hmap]
        congr 1
        · refine map_congr_left (fun d hd => ?_)
          obtain ⟨p, -, hp⟩ := exists_path_of_denotes hmap hd
          rw [hp]
          exact hpAt d p hp
        · rw [map_singleton, map_singleton, map_singleton, hvw, View.pathAt, View.paths_setChildren]
          exact congrArg (fun x => [x]) hpth
      · intro d hd
        rcases mem_append.1 hd with hd | hd
        · exact houts d hd
        · rw [mem_singleton.1 hd]
          exact hout
      · intro k hlt hk
        rw [hvw, View.length_setChildren] at hk
        by_cases hold : k < g.view.length
        · obtain ⟨d, hd, hdk⟩ := hrch k hlt hold
          refine ⟨d, mem_append_left _ hd, ?_⟩
          exact hkpt.reaches ((hld.keeps.mono nofun).reaches hdk)
        · refine ⟨c, mem_append_right _ (mem_singleton_self c), ?_⟩
          exact hkpt.reaches (hb k (by omega) hk)

variable
  {load : Import → SourceGraph Ast Contexts → Option (Option Nat × SourceGraph Ast Contexts)}

omit hg in
theorem loadImports_loaded {g0 : SourceGraph Ast Contexts} {total : Nat}
    (hld : ∀ imp g r g', Inv vfs (g0.view.length :: inProgress) (stack ++ [full]) g →
      load imp g = some (r, g') →
      Loaded vfs (g0.view.length :: inProgress) (stack ++ [full])
        (vfs.getFullFilePath imp.importName full) g g' r) :
    ∀ rs done st st', done.length + rs.length = total →
      LoopInv vfs inProgress stack full g0 done total st.graph →
      loadImports analysis load g0.view.length done.length rs st = some st' →
      LoopInv vfs inProgress stack full g0 (done ++ rs) total st'.graph := by
  intro rs
  induction rs with
  | nil =>
    intro done st st' _ hst h
    cases h
    rw [append_nil]
    exact hst
  | cons imp rs ih =>
    intro done st st' htot hst h
    rw [length_cons] at htot
    rw [loadImports] at h
    cases hca : load imp st.graph with
    | none =>
      rw [hca] at h
      cases h
    | some res =>
      rw [hca] at h
      have hnx := LoopInv.addImport analysis st.importedMacroses hst (by omega)
        (hld imp st.graph res.1 res.2 hst.inv hca)
      have hlen : done.length + 1 = (done ++ [imp]).length := by
        rw [length_append, length_singleton]
      have hsp : done ++ imp :: rs = (done ++ [imp]) ++ rs := by
        rw [append_assoc]
        rfl
      rw [hlen] at h
      rw [hsp]
      exact ih _ _ _ (by omega) hnx h

omit hg in
theorem ImportsOf.unique {path : Path} {imps' : List Import}
    (h : ImportsOf vfs path imports) (h' : ImportsOf vfs path imps') : imports = imps' := by
  obtain ⟨text, fuel, lexResult, ht, -, hlex, -, hpa⟩ := h
  obtain ⟨text', fuel', lexResult', ht', -, hlex', -, hpa'⟩ := h'
  rw [ht] at ht'
  cases ht'
  rw [lexicalAnalysis_unique hlex hlex', hpa'] at hpa
  exact (Except.ok.inj hpa).symm

theorem Inv.of_view (hvw : g'.view = g.view)
    (herrs : g'.errors = [] → g.errors = []) : Inv vfs inProgress stack g' where
  nodup := by rw [hvw]; exact hg.nodup
  in_range := by rw [hvw]; exact hg.in_range
  stack_iff := by rw [hvw]; exact hg.stack_iff
  visited := by rw [hvw]; exact hg.visited
  complete := by rw [hvw]; exact fun hnil => hg.complete (herrs hnil)

omit hg in
theorem View.setChildren_append (v : View) (p : Path) (children chs' : List Nat) :
    View.setChildren (v ++ [(p, children)]) v.length chs' = v ++ [(p, chs')] := by
  refine ext_getElem? (fun k => ?_)
  rw [View.getElem?_setChildren]
  by_cases hk : v.length = k
  · rw [if_pos hk, ← hk, getElem?_concat_length, getElem?_concat_length]
    rfl
  · rw [if_neg hk]
    by_cases hlt : k < v.length
    · rw [getElem?_append_left hlt, getElem?_append_left hlt]
    · rw [getElem?_eq_none, getElem?_eq_none]
      · rw [length_append, length_singleton]; omega
      · rw [length_append, length_singleton]; omega

theorem LoopInv.start (hfu : full ∉ g.view.paths)
    (hvw : g'.view = g.view ++ [(full, replicate imports.length 0)])
    (herrs : g'.errors = [] → g.errors = []) :
    LoopInv vfs inProgress stack full g [] imports.length g' where
  inv := hg.push hfu hvw herrs
  keeps := by
    rw [hvw]
    exact View.keeps_append [] _ _
  errors := herrs
  visited q hq := nomatch hq
  node := by
    refine ⟨replicate imports.length 0, ?_, length_replicate, fun _ => ⟨rfl, ?_, ?_⟩⟩
    · rw [hvw, getElem?_concat_length]
    · nofun
    · intro k hlt hk
      rw [hvw, length_append, length_singleton] at hk
      omega

omit hg in
theorem LoopInv.finish {g1 : SourceGraph Ast Contexts}
    (hinv : Inv vfs inProgress stack g) (hfu : full ∉ stack)
    (himp : ImportsOf vfs full imports)
    (hg : LoopInv vfs inProgress stack full g imports imports.length g1)
    (hvw : g'.view = g1.view) (herrs : g'.errors = [] → g1.errors = []) :
    Loaded vfs inProgress stack full g g' (some g.view.length) := by
  have hn : g.view.length ∉ inProgress := fun h => lt_irrefl _ (hinv.in_range _ h)
  obtain ⟨children, hnode, hlen, hdone⟩ := hg.node
  have hpth : g1.view.pathAt g.view.length = some full := View.pathAt_eq_some.2 ⟨children, hnode⟩
  have hvis : Visited vfs g1.view full := by
    intro text ht _
    obtain ⟨text', fuel, lexR, ht', -, hlex, -⟩ := id himp
    rw [ht] at ht'
    cases ht'
    refine ⟨⟨fuel, lexR, hlex⟩, fun imports' himp' => ?_⟩
    rw [← himp.unique himp']
    exact hg.visited
  have hsub : ∀ j n, j ∉ g.view.length :: inProgress → g1.view[j]? = some n → j ∉ inProgress :=
    fun j _ hj _ h => hj (mem_cons_of_mem _ h)
  have hall : children.take imports.length = children := by rw [← hlen, take_length]
  rw [hall] at hdone
  have hcom : g1.errors = [] → Complete vfs inProgress g1.view g.view.length := by
    intro hnil
    obtain ⟨hmap, hout, -⟩ := hdone hnil
    refine .intro _ full children imports hn hnode himp hmap (fun c hc => ?_)
    obtain ⟨p, -, hp⟩ := exists_path_of_denotes hmap hc
    obtain ⟨children', hget⟩ := View.pathAt_eq_some.1 hp
    exact (hg.inv.complete hnil c (List.getElem?_eq_some_iff.1 hget).1 (hout c hc)).mono
      (View.Keeps.refl _ _) hsub
  have hfin := hg.inv.finish hn hfu hpth hvis hcom
  refine ⟨hfin.of_view hvw herrs, ?_, fun h => hg.errors (herrs h), ?_, fun hnil => ?_⟩
  · rw [hvw]
    exact hg.keeps
  · rw [hvw]
    exact View.mem_paths.2 ⟨_, hpth⟩
  · obtain ⟨-, hout, hb⟩ := hdone (herrs hnil)
    rw [hvw]
    refine ⟨g.view.length, rfl, hn, hpth, .inl rfl, fun k hle hk => ?_⟩
    by_cases hkn : k = g.view.length
    · rw [hkn]
    · obtain ⟨c, hc, hck⟩ := hb k (by omega) hk
      refine .head ⟨hn, _, hnode, hc⟩ (.mono (fun x y hxy => ?_) _ _ hck)
      exact ⟨fun h => hxy.1 (mem_cons_of_mem _ h), hxy.2⟩

theorem Inv.loop (hstk : full ∈ stack) {err : FileError} :
    Loaded vfs inProgress stack full g (g.addErrors [err]) none := by
  have herrs : (g.addErrors [err]).errors ≠ [] := append_ne_nil_of_right_ne_nil _ (by simp)
  refine ⟨hg.of_view rfl (fun h => absurd h herrs), View.Keeps.refl _ _,
    fun h => absurd h herrs, ?_, fun h => absurd h herrs⟩
  obtain ⟨k, -, hk⟩ := (hg.stack_iff full).1 hstk
  exact View.mem_paths.2 ⟨k, hk⟩

theorem Inv.found (hstk : full ∉ stack) {i : Nat}
    (hfd : g.nodesStorage.findIdx? (fun n => n.filePath = full) = some i) :
    Loaded vfs inProgress stack full g g (some i) := by
  obtain ⟨hi, hp, -⟩ := findIdx?_eq_some_iff_getElem.1 hfd
  have hat : g.view.pathAt i = some full := by
    rw [View.pathAt, View.paths, view, List.map_map, getElem?_map, getElem?_eq_getElem hi]
    exact congrArg some (of_decide_eq_true hp)
  refine ⟨hg, View.Keeps.refl _ _, id, View.mem_paths.2 ⟨i, hat⟩, fun _ => ?_⟩
  refine ⟨i, rfl, fun h => hstk ((hg.stack_iff full).2 ⟨i, h, hat⟩), hat, .inr rfl, ?_⟩
  intro k hle hk
  omega

omit hg in
theorem notMem_paths_of_findIdx? (h : g.nodesStorage.findIdx? (fun n => n.filePath = full) = none) :
    full ∉ g.view.paths := by
  intro hmem
  rw [View.paths, view, List.map_map, List.mem_map] at hmem
  obtain ⟨n, hnode, hp⟩ := hmem
  have hne := findIdx?_eq_none_iff.1 h n hnode
  exact of_decide_eq_false hne hp

theorem Inv.failed (hstk : full ∉ stack)
    (hfu : full ∉ g.view.paths) (hvw : g'.view = g.view ++ [(full, [])])
    (herrs : g'.errors ≠ []) (hvis : Visited vfs g'.view full) :
    Loaded vfs inProgress stack full g g' none := by
  have hn : g.view.length ∉ inProgress := fun h => lt_irrefl _ (hg.in_range _ h)
  have hp : g'.view.pathAt g.view.length = some full := by
    rw [hvw, View.pathAt_append, if_pos rfl]
  have hpu := hg.push hfu hvw (fun h => absurd h herrs)
  refine ⟨hpu.finish hn hstk hp hvis (fun h => absurd h herrs), ?_,
    fun h => absurd h herrs, View.mem_paths.2 ⟨_, hp⟩, fun h => absurd h herrs⟩
  rw [hvw]
  exact View.keeps_append [] _ _

theorem loadNode_imports {hash : Path → Text} {lexems : List Lexem} {r : Option Nat}
    {started : SourceGraph Ast Contexts} (hstk : full ∉ stack) (himp : ImportsOf vfs full imports)
    (hst : LoopInv vfs inProgress stack full g [] imports.length started)
    (hld : ∀ imp inProgress g r g', Inv vfs inProgress (stack ++ [full]) g →
      load imp g = some (r, g') →
      Loaded vfs inProgress (stack ++ [full]) (vfs.getFullFilePath imp.importName full) g g' r)
    (h : (match loadImports analysis load g.nodesStorage.length 0 imports ⟨started, []⟩ with
      | none => none
      | some st => some (some g.nodesStorage.length, analyzeNode analysis hash
          g.nodesStorage.length full lexems st.importedMacroses st.graph)) = some (r, g')) :
    Loaded vfs inProgress stack full g g' r := by
  rw [show g.nodesStorage.length = g.view.length from (length_map _).symm] at h
  cases hrun : loadImports analysis load g.view.length 0 imports ⟨started, []⟩ with
  | none =>
    rw [hrun] at h
    cases h
  | some st =>
    rw [hrun] at h
    cases h
    have hdone := loadImports_loaded (fun imp g r g' hg => hld imp _ g r g' hg)
      imports [] _ st (zero_add _) hst hrun
    exact LoopInv.finish hg hstk himp hdone (view_analyzeNode _ _ _ _ _ _ _) errors_of_analyzeNode

omit hg

theorem loadNode_loaded (vfs : Vfs) (analysis : SyntaxAnalysis M Ast Contexts)
    (hash : Path → Text) : ∀ fuel flP pFlP stack impSrcLoc inProgress g r g', Inv vfs inProgress stack g →
    loadNode vfs analysis hash fuel flP pFlP stack impSrcLoc g = some (r, g') →
    Loaded vfs inProgress stack (vfs.getFullFilePath flP pFlP) g g' r := by
  intro fuel
  induction fuel with
  | zero => exact fun _ _ _ _ _ _ _ _ _ h => by cases h
  | succ fuel ih =>
    intro flP pFlP stack impSrcLoc inProgress g r g' hg h
    generalize hfu : vfs.getFullFilePath flP pFlP = full
    rw [loadNode] at h
    simp only [hfu] at h
    by_cases hstk : full ∈ stack
    · rw [if_pos hstk] at h
      cases h
      exact hg.loop hstk
    · rw [if_neg hstk] at h
      cases hfd : g.nodesStorage.findIdx? (fun n => n.filePath = full) with
      | some i =>
        rw [hfd] at h
        cases h
        exact hg.found hstk hfd
      | none =>
        rw [hfd] at h
        have hnew := notMem_paths_of_findIdx? hfd
        cases hct : vfs.loadFileContent full with
        | none =>
          rw [hct] at h
          cases h
          refine hg.failed hstk hnew (view_pushNode g _) (by simp [addErrors]) ?_
          intro t ht
          rw [hct] at ht
          cases ht
        | some t =>
          rw [hct] at h
          dsimp only at h
          by_cases halw : vfs.isImportingFileAllowed full = false
          · rw [if_pos halw] at h
            cases h
            refine hg.failed hstk hnew (view_pushNode g _) (by simp [addErrors]) ?_
            intro _ _ halw'
            rw [halw] at halw'
            cases halw'
          · rw [if_neg halw] at h
            cases hlex : lexicalAnalysis fuel t with
            | error fault =>
              rw [hlex] at h
              cases h
            | ok lexR =>
              rw [hlex] at h
              dsimp only at h
              by_cases herrs : lexR.errors = []
              · rw [if_neg (fun hne => hne herrs)] at h
                cases hpa : parseImports (lexR.lexems.length + 1) lexR.lexems with
                | error fault =>
                  rw [hpa] at h
                  cases h
                | ok imports =>
                  rw [hpa] at h
                  have himp : ImportsOf vfs full imports :=
                    ⟨t, fuel, lexR, hct, by simpa using halw, hlex, herrs, hpa⟩
                  refine loadNode_imports hg hstk himp (LoopInv.start hg hnew ?_ fun hnil =>
                    (append_eq_nil_iff.1 hnil).1) (fun imp inProgress g r g' =>
                      ih imp.importName full _ _ inProgress g r g') h
                  rw [show g.nodesStorage.length = g.view.length from (length_map _).symm]
                  refine Eq.trans (view_modifyNode _ _ _ (replicate imports.length 0)
                    fun _ _ => ?_) ?_
                  · exact ⟨rfl, rfl⟩
                  · rw [view_addErrors, view_pushNode]
                    exact View.setChildren_append _ _ _ _
              · rw [if_pos herrs] at h
                cases h
                refine hg.failed hstk hnew (view_pushNode g _) ?_ ?_
                · simpa [addErrors] using fun _ => herrs
                · intro t' ht' _
                  rw [hct] at ht'
                  cases ht'
                  refine ⟨⟨fuel, lexR, hlex⟩, fun imports himp => ?_⟩
                  obtain ⟨t', fuel', lexResult', ht', -, hlex', hnil, -⟩ := himp
                  rw [hct] at ht'
                  cases ht'
                  rw [lexicalAnalysis_unique hlex' hlex] at hnil
                  exact absurd hnil herrs

end Loading

end USprache.LexSynt.SourceGraph
