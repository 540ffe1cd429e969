import USprache.CodeBuilder.AsyncCallsGraph

/-!
# The links of the graph of async calls

The graph that is built has a node for every end of a recorded call, and its links are the recorded
calls, however the hash map orders the nodes.
-/

namespace USprache.CodeBuilder.AsyncCalls

open Relation List InliningOrder

variable {F I : Type} (recorded : List (F × AsyncFunctionCall F I))

def Edge (f g : F) : Prop :=
  ∃ call, (f, call) ∈ recorded ∧ call.function = g

def ReachesCycle (f : F) : Prop :=
  ∃ g, ReflTransGen (Edge recorded) f g ∧ TransGen (Edge recorded) g g

namespace AsyncCallsGraph

def order (graph : AsyncCallsGraph F I) : InliningOrder F I :=
  graph.map fun entry => (entry.1, entry.2.calls)

theorem functions_order (graph : AsyncCallsGraph F I) :
    (order graph).map Prod.fst = functions graph := by
  rw [order, List.map_map]
  rfl

theorem functions_perm {graph other : AsyncCallsGraph F I} (h : graph.Perm other) :
    (functions graph).Perm (functions other) := h.map Prod.fst

end AsyncCallsGraph

open AsyncCallsGraph

variable {graph other : AsyncCallsGraph F I}

theorem calls_append (o other : InliningOrder F I) : calls (o ++ other) = calls o ++ calls other :=
  flatMap_append

theorem calls_perm {o other : InliningOrder F I} (h : o.Perm other) :
    (calls o).Perm (calls other) := h.flatMap_right _

theorem mem_calls {order : InliningOrder F I} {f : F} {call : AsyncFunctionCall F I} :
    (f, call) ∈ calls order ↔ ∃ calls, (f, calls) ∈ order ∧ call ∈ calls := by
  rw [calls, mem_flatMap]
  constructor
  · rintro ⟨⟨g, calls⟩, hmem, hca⟩
    obtain ⟨call', hca', heq⟩ := mem_map.1 hca
    cases heq
    exact ⟨calls, hmem, hca'⟩
  · rintro ⟨calls, hmem, hca⟩
    exact ⟨(f, calls), hmem, mem_map.2 ⟨call, hca, rfl⟩⟩

variable [DecidableEq F]

theorem insertOrModify_spec (hnd : (functions graph).Nodup)
    (f : F) (change : AsyncCallGraphNode F I → AsyncCallGraphNode F I) :
    ∃ node rest, f ∉ functions rest ∧
      (insertOrModify graph f change).Perm ((f, change node) :: rest) ∧
      (graph.Perm ((f, node) :: rest) ∨ graph = rest ∧ node = {}) := by
  unfold insertOrModify
  by_cases hf : f ∈ functions graph
  · rw [if_pos hf]
    obtain ⟨⟨g, node⟩, hmem, hg⟩ := mem_map.1 hf
    change g = f at hg
    rw [hg] at hmem
    obtain ⟨before, after, hgraph⟩ := append_of_mem hmem
    have hpm : graph.Perm ((f, node) :: (before ++ after)) := by
      rw [hgraph]
      exact perm_middle
    have hnot : f ∉ functions (before ++ after) := by
      have hco := (functions_perm hpm).nodup_iff.1 hnd
      exact (nodup_cons.1 hco).1
    refine ⟨node, before ++ after, hnot, ?_, .inl hpm⟩
    have hrs : ∀ entry ∈ before ++ after,
        (if entry.1 = f then (entry.1, change entry.2) else entry) = entry := by
      intro entry he
      rw [if_neg]
      rintro rfl
      exact hnot (mem_map_of_mem he)
    have hmap := hpm.map fun entry => if entry.1 = f then (entry.1, change entry.2) else entry
    rw [map_cons, if_pos rfl, map_congr_left hrs, map_id'] at hmap
    exact hmap
  · rw [if_neg hf]
    exact ⟨{}, graph, hf, perm_append_singleton _ _, .inr ⟨rfl, rfl⟩⟩

/-- The links of the nodes, and of the functions that have no node. -/
structure Links (Out In : F → F → Prop) (graph : AsyncCallsGraph F I) : Prop where
  nodup : (functions graph).Nodup
  outNodes : ∀ entry ∈ graph, ∀ h, h ∈ entry.2.outNodes ↔ Out entry.1 h
  inNodes : ∀ entry ∈ graph, ∀ h, h ∈ entry.2.inNodes ↔ In entry.1 h
  absent : ∀ f, f ∉ functions graph → ∀ h, ¬ Out f h ∧ ¬ In f h

omit [DecidableEq F] in
theorem Links.perm {Out In : F → F → Prop}
    (h : Links Out In graph) (hpm : graph.Perm other) : Links Out In other where
  nodup := (functions_perm hpm).nodup_iff.1 h.nodup
  outNodes entry he := h.outNodes entry (hpm.mem_iff.2 he)
  inNodes entry he := h.inNodes entry (hpm.mem_iff.2 he)
  absent f hf := h.absent f fun hmem => hf ((functions_perm hpm).mem_iff.1 hmem)

variable {chg : AsyncCallGraphNode F I → AsyncCallGraphNode F I}

theorem Links.insertOrModify {Out In : F → F → Prop}
    (h : Links Out In graph) (f : F) {newOut newIn : F → Prop}
    (hout : ∀ n h, h ∈ (chg n).outNodes ↔ h ∈ n.outNodes ∨ newOut h)
    (hin : ∀ n h, h ∈ (chg n).inNodes ↔ h ∈ n.inNodes ∨ newIn h) :
    Links (fun g h => Out g h ∨ g = f ∧ newOut h) (fun g h => In g h ∨ g = f ∧ newIn h)
      (insertOrModify graph f chg) := by
  obtain ⟨n, r, hnot, hpm, hgraph⟩ := insertOrModify_spec h.nodup f chg
  apply Links.perm _ hpm.symm
  have hnd : ∀ h, (h ∈ n.outNodes ↔ Out f h) ∧ (h ∈ n.inNodes ↔ In f h) := by
    intro g
    rcases hgraph with hgraph | ⟨hgraph, hnd⟩
    · have hlks := h.perm hgraph
      exact ⟨hlks.outNodes _ mem_cons_self g, hlks.inNodes _ mem_cons_self g⟩
    · have habs := h.absent f (by rw [hgraph]; exact hnot) g
      rw [hnd]
      simp [habs]
  have hrs : Links Out In r ∨ ∃ n, Links Out In ((f, n) :: r) := by
    rcases hgraph with hgraph | ⟨hgraph, -⟩
    · exact .inr ⟨n, h.perm hgraph⟩
    · rw [hgraph] at h
      exact .inl h
  have hes : ∀ e ∈ r, e.1 ≠ f ∧ (∀ h, h ∈ e.2.outNodes ↔ Out e.1 h) ∧
      ∀ h, h ∈ e.2.inNodes ↔ In e.1 h := by
    intro e he
    refine ⟨fun heq => hnot (heq ▸ mem_map_of_mem he), ?_⟩
    rcases hrs with hlks | ⟨n, hlks⟩
    · exact ⟨hlks.outNodes e he, hlks.inNodes e he⟩
    · exact ⟨hlks.outNodes e (mem_cons_of_mem _ he), hlks.inNodes e (mem_cons_of_mem _ he)⟩
  constructor
  · refine nodup_cons.2 ⟨hnot, ?_⟩
    rcases hrs with hlks | ⟨n, hlks⟩
    · exact hlks.nodup
    · exact (nodup_cons.1 hlks.nodup).2
  · intro e he g
    rcases mem_cons.1 he with heq | he
    · rw [heq]
      show g ∈ (chg n).outNodes ↔ _
      rw [hout, (hnd g).1]
      simp
    · obtain ⟨hne, hlks, -⟩ := hes e he
      rw [hlks g]
      simp [hne]
  · intro e he g
    rcases mem_cons.1 he with heq | he
    · rw [heq]
      show g ∈ (chg n).inNodes ↔ _
      rw [hin, (hnd g).2]
      simp
    · obtain ⟨hne, -, hlks⟩ := hes e he
      rw [hlks g]
      simp [hne]
  · intro g hg k
    have hg' : g ≠ f ∧ g ∉ functions r := by
      rw [functions, map_cons, mem_cons, not_or] at hg
      exact hg
    have habs : ¬ Out g k ∧ ¬ In g k := by
      rcases hrs with hlks | ⟨n, hlks⟩
      · exact hlks.absent g hg'.2 k
      · apply hlks.absent g _ k
        rw [functions, map_cons, mem_cons, not_or]
        exact hg'
    simp [habs, hg'.1]

theorem calls_insertOrModify (hnd : (functions graph).Nodup)
    (f : F) {newCs : List (AsyncFunctionCall F I)}
    (hcha : ∀ n, (chg n).calls = n.calls ++ newCs) :
    (calls (order (insertOrModify graph f chg))).Perm
      (calls (order graph) ++ newCs.map fun c => (f, c)) := by
  obtain ⟨n, r, -, hpm, hg⟩ := insertOrModify_spec hnd f chg
  have hl : (calls (order (insertOrModify graph f chg))).Perm
      (((n.calls ++ newCs).map fun c => (f, c)) ++ calls (order r)) := by
    have h := calls_perm (hpm.map fun e => (e.1, e.2.calls))
    rw [map_cons, hcha] at h
    exact h
  have hr : (calls (order graph)).Perm ((n.calls.map fun c => (f, c)) ++ calls (order r)) := by
    rcases hg with hg | ⟨hg, hnode⟩
    · exact calls_perm (hg.map fun e => (e.1, e.2.calls))
    · rw [hg, hnode]
      exact .refl _
  refine hl.trans (.trans ?_ (hr.symm.append_right _))
  rw [map_append, append_assoc, append_assoc]
  exact Perm.append_left _ perm_append_comm

structure Built (graph : AsyncCallsGraph F I) :
    Prop where
  links : Links (Edge recorded) (fun f h => Edge recorded h f) graph
  calls : (calls (order graph)).Perm recorded

omit [DecidableEq F] in
theorem edge_concat (f : F)
    (c : AsyncFunctionCall F I) (g h : F) : Edge (recorded ++ [(f, c)]) g h ↔
      Edge recorded g h ∨ g = f ∧ h = c.function := by
  unfold Edge
  constructor
  · rintro ⟨c', hmem, heq⟩
    rcases mem_append.1 hmem with hmem | hmem
    · exact .inl ⟨c', hmem, heq⟩
    · cases mem_singleton.1 hmem
      exact .inr ⟨rfl, heq.symm⟩
  · rintro (⟨c', hmem, heq⟩ | ⟨hg, hh⟩)
    · exact ⟨c', mem_append_left _ hmem, heq⟩
    · exact ⟨c, mem_append_right _ (by rw [hg]; exact mem_singleton.2 rfl), hh.symm⟩

theorem Built.recordCall {recorded : List (F × AsyncFunctionCall F I)} (h : Built recorded graph)
    (f : F)
    (c : AsyncFunctionCall F I) :
    Built (recorded ++ [(f, c)]) (recordCall graph (f, c)) := by
  let recorder := fun n : AsyncCallGraphNode F I =>
    { n with calls := n.calls ++ [c], outNodes := n.outNodes ++ [c.function] }
  let linker := fun n : AsyncCallGraphNode F I => { n with inNodes := n.inNodes ++ [f] }
  have hfst : Links (fun g h => Edge recorded g h ∨ g = f ∧ h = c.function)
      (fun g h => Edge recorded h g ∨ g = f ∧ False) (insertOrModify graph f recorder) :=
    h.links.insertOrModify f (by simp [recorder]) (by simp [recorder])
  have hsnd : Links
      (fun g h => (Edge recorded g h ∨ g = f ∧ h = c.function) ∨ g = c.function ∧ False)
      (fun g h => (Edge recorded h g ∨ g = f ∧ False) ∨ g = c.function ∧ h = f)
      (insertOrModify (insertOrModify graph f recorder) c.function linker) :=
    hfst.insertOrModify c.function (by simp [linker]) (by simp [linker])
  constructor
  · have hout : (fun g h => (Edge recorded g h ∨ g = f ∧ h = c.function) ∨
        g = c.function ∧ False) = Edge (recorded ++ [(f, c)]) := by
      funext g k
      rw [edge_concat]
      simp
    have hin : (fun g h => (Edge recorded h g ∨ g = f ∧ False) ∨ g = c.function ∧ h = f) =
        fun g h => Edge (recorded ++ [(f, c)]) h g := by
      funext g k
      rw [edge_concat]
      simp [and_comm]
    rw [hout, hin] at hsnd
    exact hsnd
  · have hcas := calls_insertOrModify h.links.nodup f
      (show ∀ n, (recorder n).calls = n.calls ++ [c] from fun _ => rfl)
    have heq := calls_insertOrModify hfst.nodup c.function
      (show ∀ n, (linker n).calls = n.calls ++ [] from fun _ => (append_nil _).symm)
    rw [map_nil, append_nil] at heq
    exact (heq.trans hcas).trans (h.calls.append_right _)

omit [DecidableEq F] in
theorem built_nil : Built ([] : List (F × AsyncFunctionCall F I)) [] where
  links := by
    constructor
    · exact nodup_nil
    · nofun
    · nofun
    · intro f _ h
      constructor <;> rintro ⟨call, hmem, -⟩ <;> cases hmem
  calls := .refl _

theorem built_foldl :
    Built recorded (recorded.foldl recordCall []) := by
  induction recorded using reverseRecOn with
  | nil => exact built_nil
  | append_singleton recorded last ih =>
    rw [foldl_append]
    exact ih.recordCall last.1 last.2

omit [DecidableEq F] in
theorem Built.perm {recorded : List (F × AsyncFunctionCall F I)}
    (h : Built recorded graph) (hpm : graph.Perm other) : Built recorded other where
  links := h.links.perm hpm
  calls := (calls_perm (hpm.map _)).symm.trans h.calls

end USprache.CodeBuilder.AsyncCalls
