import USprache.CodeBuilder.AsyncCallsLinks

/-!
# The extraction loops

A pass keeps the links of the graph that is left, and a node that is taken out has no pending link
any more.  A loop ends at a graph all whose nodes have some.
-/

namespace USprache.CodeBuilder.AsyncCalls

open Library AsyncCallsGraph List

variable {F I : Type} [DecidableEq F]

structure Consistent (E : F → F → Prop) (direction : Direction) (graph : AsyncCallsGraph F I) :
    Prop where
  nodup : (functions graph).Nodup
  pending : ∀ entry ∈ graph, ∀ h, h ∈ entry.2.pending direction ↔ E entry.1 h ∧ h ∈ functions graph
  linked : ∀ entry ∈ graph, ∀ h, h ∈ entry.2.linked direction ↔ E h entry.1 ∧ h ∈ functions graph

variable {graph : AsyncCallsGraph F I} {E : F → F → Prop} {direction : Direction}

theorem Built.consistent {recorded : List (F × AsyncFunctionCall F I)} (h : Built recorded graph) :
    Consistent (Edge recorded) .tails graph where
  nodup := h.links.nodup
  pending entry he g := by
    show g ∈ entry.2.outNodes ↔ _
    rw [h.links.outNodes entry he g]
    constructor
    · intro hed
      refine ⟨hed, ?_⟩
      by_contra hnot
      exact (h.links.absent g hnot entry.1).2 hed
    · exact fun hboth => hboth.1
  linked entry he g := by
    show g ∈ entry.2.inNodes ↔ _
    rw [h.links.inNodes entry he g]
    constructor
    · intro hed
      refine ⟨hed, ?_⟩
      by_contra hnot
      exact (h.links.absent g hnot entry.1).1 hed
    · exact fun hboth => hboth.1

omit [DecidableEq F] in
theorem Consistent.turned
    (h : Consistent E .tails graph) : Consistent (fun f g => E g f) .heads graph where
  nodup := h.nodup
  pending := h.linked
  linked := h.pending

/-- An entry after links to a function were dropped from all of `others`. -/
def dropEntry (direction : Direction) (function : F) (others : List F)
    (entry : F × AsyncCallGraphNode F I) : F × AsyncCallGraphNode F I :=
  others.foldl (fun entry other =>
    if entry.1 = other then (entry.1, entry.2.dropPending function direction) else entry) entry

theorem dropPending_calls (direction : Direction) (f : F) (n : AsyncCallGraphNode F I) :
    (n.dropPending f direction).calls = n.calls := by
  cases direction <;> rfl

theorem dropPending_linked (direction : Direction) (f : F) (n : AsyncCallGraphNode F I) :
    (n.dropPending f direction).linked direction = n.linked direction := by
  cases direction <;> rfl

theorem mem_dropPending (direction : Direction) (f : F) (n : AsyncCallGraphNode F I)
    (h : F) : h ∈ (n.dropPending f direction).pending direction ↔
      h ∈ n.pending direction ∧ h ≠ f := by
  have htkOut := mem_takeOut_left (fun other => decide (other = f)) (n.pending direction) h
  rw [decide_eq_false_iff_not] at htkOut
  cases direction
  · exact htkOut
  · exact htkOut

theorem dropEntry_spec (direction : Direction) (f : F) : ∀ (others : List F)
    (e : F × AsyncCallGraphNode F I),
    (dropEntry direction f others e).1 = e.1 ∧
    (dropEntry direction f others e).2.calls = e.2.calls ∧
    (dropEntry direction f others e).2.linked direction = e.2.linked direction ∧
    ∀ h, h ∈ (dropEntry direction f others e).2.pending direction ↔
      h ∈ e.2.pending direction ∧ (e.1 ∈ others → h ≠ f) := by
  intro others
  induction others with
  | nil =>
    intro e
    refine ⟨rfl, rfl, rfl, fun h => ?_⟩
    simp [dropEntry]
  | cons other others ih =>
    intro e
    unfold dropEntry at ih ⊢
    rw [foldl_cons]
    by_cases heq : e.1 = other
    · rw [if_pos heq]
      obtain ⟨hfst, hcas, hlin, hpen⟩ := ih (e.1, e.2.dropPending f direction)
      refine ⟨hfst, hcas.trans (dropPending_calls _ _ _), hlin.trans (dropPending_linked _ _ _),
        fun h => ?_⟩
      rw [hpen, mem_dropPending]
      simp only [heq, mem_cons, true_or]
      tauto
    · rw [if_neg heq]
      obtain ⟨hfst, hcas, hlin, hpen⟩ := ih e
      refine ⟨hfst, hcas, hlin, fun h => ?_⟩
      rw [hpen, mem_cons]
      simp only [heq, false_or]

theorem functions_map_dropEntry (direction : Direction) (f : F) (others : List F)
    (graph : AsyncCallsGraph F I) :
    functions (graph.map (dropEntry direction f others)) = functions graph := by
  rw [functions, map_map]
  exact map_congr_left fun e _ => (dropEntry_spec direction f others e).1

theorem order_map_dropEntry (direction : Direction) (f : F) (others : List F)
    (graph : AsyncCallsGraph F I) :
    order (graph.map (dropEntry direction f others)) = order graph := by
  rw [order, map_map]
  apply map_congr_left
  intro e _
  obtain ⟨hfst, hcas, -, -⟩ := dropEntry_spec direction f others e
  show ((dropEntry direction f others e).1, _) = _
  rw [hfst, hcas]

theorem dropLinks_eq (direction : Direction) (f : F) : ∀ (others : List F)
    (graph : AsyncCallsGraph F I), (∀ other ∈ others, other ∈ functions graph) →
    dropLinks direction f others graph = some (graph.map (dropEntry direction f others)) := by
  intro others
  induction others with
  | nil =>
    intro graph _
    exact congrArg some (map_id graph).symm
  | cons other others ih =>
    intro graph hos
    rw [dropLinks, if_pos (hos other mem_cons_self)]
    have hmod : graph.modify other (fun n => n.dropPending f direction) =
        graph.map (dropEntry direction f [other]) := rfl
    rw [hmod, ih _ fun x hx => by
      rw [functions_map_dropEntry]
      exact hos x (mem_cons_of_mem _ hx), map_map]
    rfl

structure Extracted (E : F → F → Prop) (direction : Direction) (graph : AsyncCallsGraph F I)
    (taken : InliningOrder F I) (left : AsyncCallsGraph F I) : Prop where
  consistent : Consistent E direction left
  entries : (taken ++ order left).Perm (order graph)
  /-- The functions that taken ones lead to are taken, too. -/
  targets : ∀ entry ∈ taken, ∀ h, E entry.1 h → h ∉ functions left
  ordered : taken.Pairwise fun entry later => ¬ E entry.1 later.1

section

omit [DecidableEq F]

theorem Extracted.functions_perm {l : AsyncCallsGraph F I} {taken : InliningOrder F I}
    (h : Extracted E direction graph taken l) :
    (taken.map Prod.fst ++ functions l).Perm (functions graph) := by
  have hpm := h.entries.map Prod.fst
  rw [map_append, functions_order, functions_order] at hpm
  exact hpm

theorem extracted_nil
    (h : Consistent E direction graph) : Extracted E direction graph [] graph where
  consistent := h
  entries := .refl _
  targets _ he := nomatch he
  ordered := .nil

theorem Extracted.trans {mid l : AsyncCallsGraph F I} {taken others : InliningOrder F I}
    (h : Extracted E direction graph taken mid) (h' : Extracted E direction mid others l) :
    Extracted E direction graph (taken ++ others) l where
  consistent := h'.consistent
  entries := by
    rw [append_assoc]
    exact (h'.entries.append_left taken).trans h.entries
  targets e he g hg hmem := by
    rcases mem_append.1 he with he | he
    · exact h.targets e he g hg (h'.functions_perm.mem_iff.1 (mem_append_right _ hmem))
    · exact h'.targets e he g hg hmem
  ordered := by
    refine pairwise_append.2 ⟨h.ordered, h'.ordered, ?_⟩
    intro e he later hlt hed
    apply h.targets e he later.1 hed
    exact h'.functions_perm.mem_iff.1 (mem_append_left _ (mem_map_of_mem hlt))

end

theorem Consistent.take
    (h : Consistent E direction graph) {i : Nat} {f : F} {n : AsyncCallGraphNode F I}
    (he : graph[i]? = some (f, n)) (hemp : n.pending direction = []) :
    ∃ l, dropLinks direction f (n.linked direction) graph = some l ∧
      Extracted E direction graph [(f, n.calls)] (l.eraseIdx i) ∧
      (l.eraseIdx i).length + 1 = graph.length := by
  obtain ⟨hi, hget⟩ := List.getElem?_eq_some_iff.1 he
  have hmem : (f, n) ∈ graph := mem_of_getElem? he
  have hno : ∀ g ∈ functions graph, ¬ E f g := by
    intro g hg hed
    have hpen := (h.pending _ hmem g).2 ⟨hed, hg⟩
    rw [hemp] at hpen
    cases hpen
  have hpm : graph.Perm ((f, n) :: graph.eraseIdx i) := by
    rw [← hget]
    exact (getElem_cons_eraseIdx_perm hi).symm
  have hfns := functions_perm hpm
  obtain ⟨hnot, hnode⟩ := nodup_cons.1 (hfns.nodup_iff.1 h.nodup)
  have hl : ∀ g, g ∈ functions (graph.eraseIdx i) ↔ g ∈ functions graph ∧ g ≠ f := by
    intro g
    rw [hfns.mem_iff]
    show _ ↔ g ∈ f :: functions (graph.eraseIdx i) ∧ _
    rw [mem_cons]
    constructor
    · intro hg
      refine ⟨.inr hg, ?_⟩
      rintro rfl
      exact hnot hg
    · rintro ⟨hg | hg, hne⟩
      · exact absurd hg hne
      · exact hg
  refine ⟨graph.map (dropEntry direction f (n.linked direction)), ?_, ?_, ?_⟩
  · exact dropLinks_eq direction f _ graph fun other ho =>
      ((h.linked _ hmem other).1 ho).2
  · rw [eraseIdx_map]
    constructor
    · constructor
      · rw [functions_map_dropEntry]
        exact hnode
      · intro e he g
        obtain ⟨old, hold, heq⟩ := mem_map.1 he
        have hold' := hpm.mem_iff.2 (mem_cons_of_mem _ hold)
        obtain ⟨hfst, -, -, hpen⟩ := dropEntry_spec direction f (n.linked direction) old
        rw [functions_map_dropEntry, ← heq, hpen, hfst, h.pending old hold', hl, h.linked _ hmem]
        show (E old.1 g ∧ g ∈ functions graph) ∧ (E old.1 f ∧ _ → _) ↔ _
        have hold1 : old.1 ∈ functions graph := mem_map_of_mem hold'
        constructor
        · rintro ⟨⟨hed, hg⟩, hne⟩
          refine ⟨hed, hg, ?_⟩
          rintro rfl
          exact hne ⟨hed, hold1⟩ rfl
        · rintro ⟨hed, hg, hne⟩
          exact ⟨⟨hed, hg⟩, fun _ => hne⟩
      · intro e he g
        obtain ⟨old, hold, heq⟩ := mem_map.1 he
        have hold' := hpm.mem_iff.2 (mem_cons_of_mem _ hold)
        obtain ⟨hfst, -, hlin, -⟩ := dropEntry_spec direction f (n.linked direction) old
        rw [functions_map_dropEntry, ← heq, hlin, hfst, h.linked old hold', hl]
        constructor
        · rintro ⟨hed, hg⟩
          refine ⟨hed, hg, ?_⟩
          rintro rfl
          exact hno old.1 (mem_map_of_mem hold') hed
        · rintro ⟨hed, hg, -⟩
          exact ⟨hed, hg⟩
    · rw [order_map_dropEntry]
      exact (hpm.map fun n => (n.1, n.2.calls)).symm
    · intro e he g hed hg
      rw [mem_singleton.1 he] at hed
      rw [functions_map_dropEntry, hl] at hg
      exact hno g hg.1 hed
    · exact pairwise_singleton _ _
  · rw [length_eraseIdx_of_lt (by rw [length_map]; exact hi), length_map]
    omega

theorem extractPass_spec :
    ∀ (fuel i : Nat) (graph : AsyncCallsGraph F I), Consistent E direction graph →
      graph.length ≤ i + fuel →
      ∃ l taken c, extractPass direction fuel i graph = some (l, taken, c) ∧
        Extracted E direction graph taken l ∧ c + l.length = graph.length ∧
        (c = 0 → l = graph ∧ taken = [] ∧
          ∀ j e, i ≤ j → graph[j]? = some e → e.2.pending direction ≠ []) := by
  intro fuel
  induction fuel with
  | zero =>
    intro i graph h hlen
    refine ⟨graph, [], 0, rfl, extracted_nil h, Nat.zero_add _, fun _ => ⟨rfl, rfl, ?_⟩⟩
    intro j e hj he
    have hlt := (List.getElem?_eq_some_iff.1 he).1
    omega
  | succ fuel ih =>
    intro i graph h hlen
    rw [extractPass]
    cases he : graph[i]? with
    | none =>
      refine ⟨graph, [], 0, rfl, extracted_nil h, Nat.zero_add _, fun _ => ⟨rfl, rfl, ?_⟩⟩
      intro j e hj he'
      have hlt := (List.getElem?_eq_some_iff.1 he').1
      have hle := getElem?_eq_none_iff.1 he
      omega
    | some e =>
      obtain ⟨f, n⟩ := e
      show ∃ l taken c, (if (n.pending direction).isEmpty then _ else _) = _ ∧ _
      by_cases hemp : (n.pending direction).isEmpty = true
      · rw [if_pos hemp]
        obtain ⟨dropped, hdr, htk, hlen'⟩ := h.take he (isEmpty_iff.1 hemp)
        obtain ⟨l, taken, c, hpass, hextracted, hc, -⟩ :=
          ih i (dropped.eraseIdx i) htk.consistent (by omega)
        refine ⟨l, (f, n.calls) :: taken, c + 1, ?_, htk.trans hextracted,
          by omega, fun hz => by omega⟩
        rw [hdr, Option.bind_some, hpass]
        rfl
      · rw [if_neg hemp]
        obtain ⟨l, taken, c, hpass, hextracted, hc, hno⟩ := ih (i + 1) graph h (by omega)
        refine ⟨l, taken, c, hpass, hextracted, hc, fun hz => ?_⟩
        obtain ⟨hl, htkn, hpen⟩ := hno hz
        refine ⟨hl, htkn, fun j e hj hget => ?_⟩
        by_cases heq : j = i
        · rw [heq, he] at hget
          cases hget
          exact fun hnil => hemp (isEmpty_iff.2 hnil)
        · exact hpen j e (by omega) hget

theorem extract_spec : ∀ (fuel : Nat) (graph : AsyncCallsGraph F I), Consistent E direction graph →
    graph.length < fuel →
    ∃ l taken, extract direction fuel graph = some (l, taken) ∧
      Extracted E direction graph taken l ∧
      ∀ e ∈ l, e.2.pending direction ≠ [] := by
  intro fuel
  induction fuel with
  | zero =>
    intro graph _ hf
    exact absurd hf (Nat.not_lt_zero _)
  | succ fuel ih =>
    intro graph h hf
    obtain ⟨mid, taken, c, hpass, hextracted, hc, hno⟩ :=
      extractPass_spec graph.length 0 graph h (by omega)
    rw [extract, hpass, Option.bind_some]
    by_cases hz : c = 0
    · obtain ⟨hmid, htkn, hpen⟩ := hno hz
      refine ⟨mid, taken, if_pos hz, hextracted, fun e he => ?_⟩
      rw [hmid] at he
      obtain ⟨j, hj⟩ := mem_iff_getElem?.1 he
      exact hpen j e (Nat.zero_le j) hj
    · obtain ⟨l, others, hrs, hextracted', hpen⟩ := ih mid hextracted.consistent (by omega)
      refine ⟨l, taken ++ others, ?_, hextracted.trans hextracted', hpen⟩
      rw [if_neg hz, hrs]
      rfl

end USprache.CodeBuilder.AsyncCalls
