import USprache.CodeBuilder.ReferencesGraph

/-!
# Removing a node

`RemoveNode` takes the inner reference nodes and the children of a node out of
the graph first, then the node itself.  Each single removal is a bypass of the
step relation, so the whole call keeps reachability among the nodes it leaves.
-/

namespace USprache.CodeBuilder.ReferencesGraph

open Library Relation List
open scoped List

variable {V : Type} [DecidableEq V] {vars : Variables V} {G : ReferencesGraph V}

omit [DecidableEq V] in
theorem swapErase_perm {ls : List (Link V)} {i : Nat} (h : i < ls.length) :
    ls[i] :: swapErase ls i h ~ ls := by
  have hne : ls ≠ [] := ne_nil_of_length_pos (by omega)
  have hsp := dropLast_concat_getLast hne
  by_cases hi : i + 1 < ls.length
  · have hd : i < ls.dropLast.length := by rw [length_dropLast]; omega
    have hget : ls[i] = ls.dropLast[i] := by rw [getElem_dropLast]
    have hset : (ls.set i (ls.getLast hne)).dropLast = ls.dropLast.set i (ls.getLast hne) := by
      rw [dropLast_eq_take, dropLast_eq_take, length_set, take_set]
    rw [swapErase, if_pos hi, hset, hget]
    calc ls.dropLast[i] :: ls.dropLast.set i (ls.getLast hne)
        ~ ls.dropLast[i] :: ls.getLast hne :: ls.dropLast.eraseIdx i :=
          (set_perm_cons_eraseIdx hd _).cons _
      _ ~ ls.getLast hne :: ls.dropLast[i] :: ls.dropLast.eraseIdx i := .swap _ _ _
      _ ~ ls.getLast hne :: ls.dropLast := (getElem_cons_eraseIdx_perm hd).cons _
      _ ~ ls.dropLast ++ [ls.getLast hne] := (perm_append_singleton _ _).symm
      _ ~ ls := by rw [hsp]
  · have hla : ls[i] = ls.getLast hne := by
      rw [getLast_eq_getElem]
      congr 1
      omega
    rw [swapErase, if_neg hi, hla]
    conv_rhs => rw [← hsp]
    exact (perm_append_singleton _ _).symm

omit [DecidableEq V] in
theorem getElem_swapErase {ls : List (Link V)} {i j : Nat} (h : i < ls.length)
    (hj : j < i) (hj' : j < (swapErase ls i h).length) :
    (swapErase ls i h)[j] = ls[j] := by
  unfold swapErase
  split
  · rw [getElem_dropLast, getElem_set_ne (by omega)]
  · rw [getElem_dropLast]

def Touches (node : V) (l : Link V) : Prop := l.src = node ∨ l.dst = node

theorem mem_removeLinks {node : V} (ls : List (Link V)) (i : Nat)
    (hpre : ∀ j hj, j < i → ¬ Touches node ls[j]) (l : Link V) :
    l ∈ removeLinks node ls i ↔ l ∈ ls ∧ ¬ Touches node l := by
  fun_induction removeLinks node ls i with
  | case1 ls i h ht ih =>
    have hpm := swapErase_perm h
    have hpre' : ∀ j hj, j < i → ¬ Touches node (swapErase ls i h)[j] := by
      intro j hj hji
      rw [getElem_swapErase h hji hj]
      exact hpre j (by omega) hji
    rw [ih hpre', ← hpm.mem_iff, mem_cons]
    refine ⟨fun ⟨hl, hn⟩ => ⟨.inr hl, hn⟩, fun ⟨hl, hn⟩ => ⟨hl.resolve_left ?_, hn⟩⟩
    rintro rfl
    exact hn ht
  | case2 ls i h ht ih =>
    refine ih (fun j hj hji => ?_)
    rcases lt_or_ge j i with hlt | hge
    · exact hpre j hj hlt
    · have hij : j = i := by omega
      subst hij
      exact ht
  | case3 ls i h =>
    refine ⟨fun hl => ⟨hl, ?_⟩, And.left⟩
    obtain ⟨j, hj, rfl⟩ := mem_iff_getElem.1 hl
    exact hpre j hj (by omega)

theorem removeLinks_nodup {node : V} (ls : List (Link V)) (i : Nat) (hd : ls.Nodup) :
    (removeLinks node ls i).Nodup := by
  fun_induction removeLinks node ls i with
  | case1 ls i h ht ih => exact ih (nodup_cons.1 ((swapErase_perm h).nodup_iff.2 hd)).2
  | case2 ls i h ht ih => exact ih hd
  | case3 ls i h => exact hd

variable {n x y : V}

theorem mem_inNodes : x ∈ G.inNodes n ↔ x ≠ n ∧ ⟨x, n⟩ ∈ G.links := by
  simp only [inNodes, mem_dedup, mem_map, mem_filter, decide_eq_true_eq]
  constructor
  · rintro ⟨⟨s, d⟩, ⟨hl, hne, rfl⟩, rfl⟩
    exact ⟨hne, hl⟩
  · exact fun ⟨hne, hl⟩ => ⟨⟨x, n⟩, ⟨hl, hne, rfl⟩, rfl⟩

theorem mem_outNodes : y ∈ G.outNodes n ↔ n ≠ y ∧ ⟨n, y⟩ ∈ G.links := by
  simp only [outNodes, mem_dedup, mem_map, mem_filter, decide_eq_true_eq]
  constructor
  · rintro ⟨⟨s, d⟩, ⟨hl, hne, rfl⟩, rfl⟩
    exact ⟨hne, hl⟩
  · exact fun ⟨hne, hl⟩ => ⟨⟨n, y⟩, ⟨hl, hne, rfl⟩, rfl⟩

theorem mem_removeNodeLinks : ⟨x, y⟩ ∈ (G.removeNodeLinks vars n).links ↔
    (⟨x, y⟩ ∈ G.links ∧ x ≠ n ∧ y ≠ n) ∨
      (x ≠ y ∧ y ∈ G.outNodes n ∧ (x ∈ G.inNodes n ∨ vars.parent n = some x)) := by
  have hscan : (⟨x, y⟩ : Link V) ∈ removeLinks n G.links 0 ↔ ⟨x, y⟩ ∈ G.links ∧ x ≠ n ∧ y ≠ n := by
    rw [mem_removeLinks G.links 0 (fun j _ hj => absurd hj (Nat.not_lt_zero j)), Touches, not_or]
  unfold removeNodeLinks
  cases hp : vars.parent n with
  | none =>
    simp only [mem_foldl_addLinks]
    grind
  | some p =>
    simp only [mem_addLinks, mem_foldl_addLinks]
    grind

@[simp] theorem removeNodeLinks_nodes (n : V) : (G.removeNodeLinks vars n).nodes = G.nodes := by
  unfold removeNodeLinks
  have h := (foldl_addLinks_keeps (G.outNodes n) (G.inNodes n)
    { G with links := removeLinks n G.links 0 }).1
  cases vars.parent n with
  | none => exact h
  | some p => rw [addLinks_nodes]; exact h

theorem removeNodeLinks_nodup (hd : G.links.Nodup) (n : V) :
    (G.removeNodeLinks vars n).links.Nodup := by
  unfold removeNodeLinks
  have h := (foldl_addLinks_keeps (G.outNodes n) (G.inNodes n)
    { G with links := removeLinks n G.links 0 }).2 (removeLinks_nodup _ 0 hd)
  cases vars.parent n with
  | none => exact h
  | some p => exact addLinks_nodup p _ h

theorem mem_dropNode {v : V} : v ∈ (G.dropNode vars n).nodes ↔ v ≠ n ∧ v ∈ G.nodes := by
  rw [dropNode, AList.mem_erase, removeNodeLinks_nodes]

theorem dropNode_links (n : V) : (G.dropNode vars n).links = (G.removeNodeLinks vars n).links := rfl

omit [DecidableEq V] in
theorem parent_ne_self (n : V) : vars.parent n ≠ some n :=
  fun h => lt_irrefl _ (vars.height_child n n h)

/-- A link of the graph without the node joins two of its nodes, directly or
through the node. -/
theorem dropNode_link (hG : G.WellFormed vars) (hn : n ∈ G.nodes)
    (h : ⟨x, y⟩ ∈ (G.dropNode vars n).links) :
    (x ≠ n ∧ x ∈ G.nodes) ∧ (y ≠ n ∧ y ∈ G.nodes) ∧
      (Step vars G x y ∨ (Step vars G x n ∧ Step vars G n y)) := by
  rw [dropNode_links, mem_removeNodeLinks] at h
  rcases h with ⟨hl, hx, hy⟩ | ⟨-, hout, hin | hp⟩
  · exact ⟨⟨hx, hG.src_mem _ hl⟩, ⟨hy, hG.dst_mem _ hl⟩, .inl (.inl hl)⟩
  · obtain ⟨hny, hl⟩ := mem_outNodes.1 hout
    obtain ⟨hxn, hl'⟩ := mem_inNodes.1 hin
    exact ⟨⟨hxn, hG.src_mem _ hl'⟩, ⟨hny.symm, hG.dst_mem _ hl⟩, .inr ⟨.inl hl', .inl hl⟩⟩
  · obtain ⟨hny, hl⟩ := mem_outNodes.1 hout
    have hxn : x ≠ n := fun e => parent_ne_self n (e ▸ hp)
    exact ⟨⟨hxn, hG.parent_mem n hn x hp⟩, ⟨hny.symm, hG.dst_mem _ hl⟩, .inr ⟨.inr hp, .inl hl⟩⟩

theorem dropNode_wellFormed (hG : G.WellFormed vars) (hn : n ∈ G.nodes)
    (hch : ∀ v ∈ G.nodes, vars.parent v ≠ some n) : (G.dropNode vars n).WellFormed vars where
  src_mem l hl := mem_dropNode.2 (dropNode_link hG hn hl).1
  dst_mem l hl := mem_dropNode.2 (dropNode_link hG hn hl).2.1
  nodup := removeNodeLinks_nodup hG.nodup n
  parent_mem v hv p hp := by
    have hvG := (mem_dropNode.1 hv).2
    exact mem_dropNode.2 ⟨fun e => hch v hvG (e ▸ hp), hG.parent_mem v hvG p hp⟩

theorem dropNode_bypass (hG : G.WellFormed vars) (hn : n ∈ G.nodes)
    (hch : ∀ v ∈ G.nodes, vars.parent v ≠ some n) :
    Bypass (Step vars G) (Step vars (G.dropNode vars n))
      (fun v => v ∈ (G.dropNode vars n).nodes) n where
  closed x y hxy hy := by
    have hy' : y ∈ G.nodes := by
      rcases hy with hy | rfl
      · exact (mem_dropNode.1 hy).2
      · exact hn
    have hx := hG.step_mem hxy hy'
    by_cases hxn : x = n
    · exact .inr hxn
    · exact .inl (mem_dropNode.2 ⟨hxn, hx⟩)
  sound x y hxy hy := by
    rcases hxy with hl | hp
    · obtain ⟨hx, -, hst⟩ := dropNode_link hG hn hl
      exact ⟨mem_dropNode.2 hx, hst⟩
    · exact ⟨(dropNode_wellFormed hG hn hch).parent_mem y hy x hp, .inl (.inr hp)⟩
  keeps x y hx hy hxy := by
    obtain ⟨hxn, -⟩ := mem_dropNode.1 hx
    obtain ⟨hyn, -⟩ := mem_dropNode.1 hy
    rcases hxy with hl | hp
    · exact .inl (mem_removeNodeLinks.2 (.inl ⟨hl, hxn, hyn⟩))
    · exact .inr hp
  joins x y hx hy hxn hny := by
    obtain ⟨hx, -⟩ := mem_dropNode.1 hx
    obtain ⟨hy, hyG⟩ := mem_dropNode.1 hy
    by_cases hxy : x = y
    · exact .inl hxy
    have hout : y ∈ G.outNodes n := mem_outNodes.2 ⟨hy.symm, hny.resolve_right (hch y hyG)⟩
    refine .inr (.inl (mem_removeNodeLinks.2 (.inr ⟨hxy, hout, ?_⟩)))
    exact hxn.imp (fun hl => mem_inNodes.2 ⟨hx, hl⟩) id

/-- What a sequence of removals leaves: a well-formed smaller graph with the same
reachability among its nodes. -/
structure Shrinks (vars : Variables V) (G G' : ReferencesGraph V) : Prop where
  wellFormed : G.WellFormed vars → G'.WellFormed vars
  subset : ∀ v ∈ G'.nodes, v ∈ G.nodes
  reach : G.WellFormed vars → ∀ a b, a ∈ G'.nodes → b ∈ G'.nodes →
    (ReflTransGen (Step vars G) a b ↔ ReflTransGen (Step vars G') a b)

omit [DecidableEq V] in
theorem Shrinks.refl (G : ReferencesGraph V) : Shrinks vars G G :=
  ⟨id, fun _ => id, fun _ _ _ _ _ => Iff.rfl⟩

omit [DecidableEq V] in
theorem Shrinks.trans {G1 G2 G3 : ReferencesGraph V} (h : Shrinks vars G1 G2)
    (h' : Shrinks vars G2 G3) : Shrinks vars G1 G3 where
  wellFormed hG := h'.wellFormed (h.wellFormed hG)
  subset v hv := h.subset v (h'.subset v hv)
  reach hG a b ha hb := (h.reach hG a b (h'.subset a ha) (h'.subset b hb)).trans
    (h'.reach (h.wellFormed hG) a b ha hb)

structure Removes (vars : Variables V) (G : ReferencesGraph V) (n : V)
    (G' : ReferencesGraph V) : Prop extends Shrinks vars G G' where
  gone : n ∉ G'.nodes
  higher : ∀ v ∈ G.nodes, vars.height n < vars.height v → v ∈ G'.nodes

omit [DecidableEq V] in
theorem foldl_removes (h : Nat) {f : ReferencesGraph V → V → ReferencesGraph V}
    (hf : ∀ G n, G.WellFormed vars → vars.height n < h → Removes vars G n (f G n)) :
    ∀ (ns : List V) (G : ReferencesGraph V), G.WellFormed vars → (∀ n ∈ ns, vars.height n < h) →
      Shrinks vars G (ns.foldl f G) ∧ (∀ n ∈ ns, n ∉ (ns.foldl f G).nodes) ∧
        ∀ v ∈ G.nodes, h ≤ vars.height v → v ∈ (ns.foldl f G).nodes := by
  intro ns
  induction ns with
  | nil => exact fun G _ _ => ⟨.refl G, by simp, fun _ hv _ => hv⟩
  | cons n ns ih =>
    intro G hG hns
    have hn := hf G n hG (hns n mem_cons_self)
    obtain ⟨hs, hgone, hkeep⟩ := ih (f G n) (hn.wellFormed hG)
      (fun m hm => hns m (mem_cons_of_mem n hm))
    have hnh := hns n mem_cons_self
    refine ⟨hn.toShrinks.trans hs, fun m hm => ?_, fun v hv hh => ?_⟩
    · rcases mem_cons.1 hm with rfl | hm
      · exact fun hmem => hn.gone (hs.subset _ hmem)
      · exact hgone m hm
    · exact hkeep v (hn.higher v hv (by omega)) hh

theorem dropNode_removes (hn : n ∈ G.nodes) (hch : ∀ v ∈ G.nodes, vars.parent v ≠ some n) :
    Removes vars G n (G.dropNode vars n) where
  wellFormed hG := dropNode_wellFormed hG hn hch
  subset v hv := (mem_dropNode.1 hv).2
  reach hG a b ha hb := reflTransGen_bypass (dropNode_bypass hG hn hch) ha hb
  gone h := (mem_dropNode.1 h).1 rfl
  higher v hv hh := mem_dropNode.2 ⟨fun e => by subst e; omega, hv⟩

theorem removeNodeRec_removes : ∀ (h : Nat) (G : ReferencesGraph V) (n : V),
    G.WellFormed vars → vars.height n < h → Removes vars G n (removeNodeRec vars h G n) := by
  intro h
  induction h with
  | zero => exact fun _ _ _ hh => absurd hh (Nat.not_lt_zero _)
  | succ h ih =>
    intro G n hG hh
    by_cases hn : n ∈ G.nodes
    · have hlow : ∀ G m, G.WellFormed vars → vars.height m < vars.height n →
          Removes vars G m (removeNodeRec vars h G m) := fun G m hG hm => ih G m hG (by omega)
      have hchs : ∀ c ∈ (vars.children n).filterMap id, vars.height c < vars.height n :=
        fun c hc => vars.height_child n c ((vars.mem_children n c).1 (by simpa using hc))
      -- A child node shares the inner reference nodes of its parent and leaves them alone.
      obtain ⟨G1, hG1, hs1, hkeep1⟩ : ∃ G1, G1 = (if vars.parent n = none then
            (vars.innerReferenceNodes n).foldl (removeNodeRec vars h) G else G) ∧
          Shrinks vars G G1 ∧ ∀ v ∈ G.nodes, vars.height n ≤ vars.height v → v ∈ G1.nodes := by
        refine ⟨_, rfl, ?_⟩
        split
        · obtain ⟨hs, -, hkeep⟩ := foldl_removes (vars.height n) hlow
            (vars.innerReferenceNodes n) G hG (vars.height_inner n)
          exact ⟨hs, hkeep⟩
        · exact ⟨.refl G, fun _ hv _ => hv⟩
      obtain ⟨hs2, hgone, hkeep⟩ := foldl_removes (vars.height n) hlow
        ((vars.children n).filterMap id) G1 (hs1.wellFormed hG) hchs
      have hdr := dropNode_removes (hkeep n (hkeep1 n hn (le_refl _)) (le_refl _))
        (fun v hv hp => hgone v (by simpa using (vars.mem_children n v).2 hp) hv)
      have heq : removeNodeRec vars (h + 1) G n =
          (((vars.children n).filterMap id).foldl (removeNodeRec vars h) G1).dropNode vars n := by
        simp only [removeNodeRec, hn, not_true_eq_false, if_false, hG1]
      rw [heq]
      refine ⟨(hs1.trans hs2).trans hdr.toShrinks, hdr.gone, fun v hv hh => ?_⟩
      exact hdr.higher v (hkeep v (hkeep1 v hv (by omega)) (by omega)) hh
    · simp only [removeNodeRec, hn]
      exact ⟨.refl G, hn, fun _ hv _ => hv⟩

/-- `RemoveNode` preserves `IsNodeReachable` among the nodes it leaves in the
graph: no path is lost and none is invented. -/
theorem removeNode_preserves_reachability (vars : Variables V) (G : ReferencesGraph V)
    (hG : G.WellFormed vars) (n a b : V) (ha : a ∈ (G.removeNode vars n).nodes)
    (hb : b ∈ (G.removeNode vars n).nodes) :
    (G.removeNode vars n).isNodeReachable vars a b = G.isNodeReachable vars a b := by
  have hrem : Removes vars G n (G.removeNode vars n) :=
    removeNodeRec_removes _ G n hG (Nat.lt_succ_self _)
  rw [Bool.eq_iff_iff, isNodeReachable_iff (hrem.wellFormed hG) hb,
    isNodeReachable_iff hG (hrem.subset b hb)]
  exact (hrem.reach hG a b ha hb).symm

/-- A struct `0` with a member node `3`, a reference `1` to the member with the
inner reference node `4`, and a reference `2` to the reference. -/
def memberVariables : Variables (Fin 5) where
  parent v := if v = 3 then some 0 else none
  children v := if v = 0 then [some 3] else []
  innerReferenceNodes v := if v = 1 then [4] else []
  height v := if v = 0 ∨ v = 1 then 1 else 0
  mem_children := by decide
  height_child := by decide
  height_inner := by decide
  inner_bare := by decide

def memberGraph : ReferencesGraph (Fin 5) where
  nodes := ⟨[⟨0, {}⟩, ⟨1, {}⟩, ⟨2, {}⟩, ⟨3, {}⟩, ⟨4, {}⟩], by unfold NodupKeys; decide⟩
  links := [⟨3, 1⟩, ⟨4, 1⟩, ⟨1, 2⟩]

theorem removeNode_preserves_reachability_member :
    (memberGraph.removeNode memberVariables 1).isNodeReachable memberVariables 0 2 = true := by
  rw [removeNode_preserves_reachability memberVariables memberGraph
    ⟨by decide, by decide, by decide, by decide⟩ 1 0 2 (by decide +kernel) (by decide +kernel)]
  decide +kernel

end USprache.CodeBuilder.ReferencesGraph
