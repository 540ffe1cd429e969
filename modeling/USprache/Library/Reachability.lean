import Mathlib.Data.Set.Finite.List

/-!
# Reachability

`reflTransGen_bypass`: deleting a node after joining its predecessors to its successors keeps
reachability among the nodes that stay.  `search` and `traverse` walk a graph backwards with a
visited list and need no more fuel than there are nodes.  The other lemmas are about graphs
without cycles.
-/

namespace USprache.Library

open Relation List Option

variable {V : Type*}

/-- The predecessors and successors of `n` are joined in `r'`, and nothing else
is.  `S` is the set of nodes that stay.  Reachability into `S` never leaves
`S ∪ {n}`, so only the edges between those nodes have to be compared. -/
structure Bypass (r r' : V → V → Prop) (S : V → Prop) (n : V) : Prop where
  closed : ∀ x y, r x y → S y ∨ y = n → S x ∨ x = n
  sound : ∀ x y, r' x y → S y → S x ∧ (r x y ∨ (r x n ∧ r n y))
  keeps : ∀ x y, S x → S y → r x y → r' x y
  joins : ∀ x y, S x → S y → r x n → r n y → x = y ∨ r' x y

namespace Bypass

variable {r r' : V → V → Prop} {S : V → Prop} {n a : V}

/-- One path of the old relation, followed edge by edge.  While it stands on `n`
the new relation waits at the last node before `n`. -/
theorem reach_of_reach (hb : Bypass r r' S n) (ha : S a) {y : V}
    (h : ReflTransGen r a y) (hy : S y ∨ y = n) :
    (S y → ReflTransGen r' a y) ∧ (y = n → ¬ S n → ∃ x, S x ∧ ReflTransGen r' a x ∧ r x n) := by
  induction h with
  | refl => exact ⟨fun _ => .refl, fun hn hns => absurd (hn ▸ ha) hns⟩
  | @tail y z hay hyz ih =>
    have hy' : S y ∨ y = n := hb.closed _ _ hyz hy
    obtain ⟨ihS, ihn⟩ := ih hy'
    by_cases hyS : S y
    · refine ⟨fun hz => (ihS hyS).tail (hb.keeps _ _ hyS hz hyz), fun hzn _ => ?_⟩
      exact ⟨y, hyS, ihS hyS, hzn ▸ hyz⟩
    · have hyn : y = n := hy'.resolve_left hyS
      have hnS : ¬ S n := hyn ▸ hyS
      obtain ⟨x, hxS, hax, hxn⟩ := ihn hyn hnS
      subst hyn
      refine ⟨fun hz => ?_, fun _ _ => ⟨x, hxS, hax, hxn⟩⟩
      rcases hb.joins x z hxS hz hxn hyz with rfl | hxz
      · exact hax
      · exact hax.tail hxz

theorem reach_of_reach' (hb : Bypass r r' S n) {b : V} (hbS : S b)
    (h : ReflTransGen r' a b) : ReflTransGen r a b := by
  have main : S a ∧ ReflTransGen r a b := by
    induction h using ReflTransGen.head_induction_on with
    | refl => exact ⟨hbS, .refl⟩
    | @head x y hxy _ ih =>
      obtain ⟨hyS, hyb⟩ := ih
      obtain ⟨hxS, hxy' | ⟨hxn, hny⟩⟩ := hb.sound _ _ hxy hyS
      · exact ⟨hxS, .head hxy' hyb⟩
      · exact ⟨hxS, .head hxn (.head hny hyb)⟩
  exact main.2

end Bypass

/-- Joining the predecessors of a node to its successors and deleting the node
neither loses nor invents a path between the nodes that stay. -/
theorem reflTransGen_bypass {r r' : V → V → Prop} {S : V → Prop} {n a b : V}
    (hb : Bypass r r' S n) (ha : S a) (hbS : S b) :
    ReflTransGen r a b ↔ ReflTransGen r' a b :=
  ⟨fun h => (hb.reach_of_reach ha h (.inl hbS)).1 hbS, hb.reach_of_reach' hbS⟩

/-- Try the alternatives from left to right with one visited list passed along,
and stop at the first success. -/
def searchAny (go : V → List V → Bool × List V) : List V → List V → Bool × List V
  | [], visited => (false, visited)
  | p :: rest, visited =>
    match go p visited with
    | (true, visited') => (true, visited')
    | (false, visited') => searchAny go rest visited'

/-- Depth-first search from `target` along `pred`, looking for `source`. -/
def search [DecidableEq V] (pred : V → List V) (source : V) : Nat → V → List V → Bool × List V
  | 0, _, visited => (false, visited)
  | fuel + 1, target, visited =>
    if source = target then (true, visited)
    else if target ∈ visited then (false, visited)
    else searchAny (search pred source fuel) (pred target) (target :: visited)

variable [DecidableEq V]

/-- A failed call has visited its target, and every node it added to the visited list
differs from the source and has all its predecessors in the list. -/
structure SearchSpec (pred : V → List V) (source : V) (nodes : List V)
    (target : V) (visited : List V) (res : Bool × List V) : Prop where
  mono : ∀ x ∈ visited, x ∈ res.2
  inside : (∀ x ∈ visited, x ∈ nodes) → ∀ x ∈ res.2, x ∈ nodes
  sound : res.1 = true → ReflTransGen (fun x y => x ∈ pred y) source target
  found : res.1 = false → target ∈ res.2
  closed : res.1 = false → ∀ x ∈ res.2, x ∉ visited → x ≠ source ∧ ∀ p ∈ pred x, p ∈ res.2

/-- The number of nodes not visited yet bounds the depth. -/
def unvisited (nodes visited : List V) : Nat :=
  (nodes.filter (fun x => decide (x ∉ visited))).length

theorem unvisited_mono (ns : List V) {seen seen' : List V} (h : ∀ x ∈ seen, x ∈ seen') :
    unvisited ns seen' ≤ unvisited ns seen := by
  refine List.Sublist.length_le ?_
  refine monotone_filter_right ns (fun x hx => ?_)
  simp only [decide_eq_true_eq] at hx ⊢
  exact fun hv => hx (h x hv)

variable {ns : List V}

theorem unvisited_cons_lt {seen : List V} {t : V} (ht : t ∈ ns) (hv : t ∉ seen) :
    unvisited ns (t :: seen) < unvisited ns seen := by
  have hsp : unvisited ns (t :: seen) = ((ns.filter (fun x => decide (x ∉ seen))).filter
          (fun x => decide (x ≠ t))).length := by
    rw [unvisited]
    simp
  rw [hsp]
  refine length_filter_lt_length_iff_exists.2 ⟨t, ?_, ?_⟩
  · simp [ht, hv]
  · simp

theorem searchAny_spec (pred : V → List V) (src : V) (ns : List V)
    (go : V → List V → Bool × List V) (t : V) (base : List V) :
    ∀ ps visited, (∀ p ∈ ps, ∀ seen, (∀ x ∈ visited, x ∈ seen) → (∀ x ∈ seen, x ∈ ns) →
        SearchSpec pred src ns p seen (go p seen)) →
      (∀ x ∈ visited, x ∈ ns) →
      (∀ p ∈ ps, p ∈ pred t) →
      (∀ x ∈ visited, x ∉ base → x ≠ t → x ≠ src ∧ ∀ p ∈ pred x, p ∈ visited) →
      (∀ x ∈ visited, x ∈ (searchAny go ps visited).2) ∧
      (∀ x ∈ (searchAny go ps visited).2, x ∈ ns) ∧
      ((searchAny go ps visited).1 = true → ReflTransGen (fun x y => x ∈ pred y) src t) ∧
      ((searchAny go ps visited).1 = false → (∀ p ∈ ps, p ∈ (searchAny go ps visited).2) ∧
        ∀ x ∈ (searchAny go ps visited).2, x ∉ base → x ≠ t →
          x ≠ src ∧ ∀ p ∈ pred x, p ∈ (searchAny go ps visited).2) := by
  intro ps
  induction ps with
  | nil =>
    intro visited _ huniv _ hcls
    exact ⟨fun _ h => h, huniv, fun h => absurd h (by simp [searchAny]), fun _ => ⟨by simp, hcls⟩⟩
  | cons p rs ih =>
    intro visited hgo huniv hpred hcls
    have hp := hgo p mem_cons_self visited (fun _ h => h) huniv
    rcases hres : go p visited with ⟨found, seen'⟩
    rw [hres] at hp
    have hins := hp.inside huniv
    cases found with
    | true =>
      rw [show searchAny go (p :: rs) visited = (true, seen') by simp [searchAny, hres]]
      exact ⟨hp.mono, hins,
        fun _ => (hp.sound rfl).tail (hpred p mem_cons_self), fun h => by simp at h⟩
    | false =>
      rw [show searchAny go (p :: rs) visited = searchAny go rs seen' by
        simp [searchAny, hres]]
      have hcls' : ∀ x ∈ seen', x ∉ base → x ≠ t → x ≠ src ∧ ∀ q ∈ pred x, q ∈ seen' := by
        intro x hx hb hxt
        by_cases hxv : x ∈ visited
        · obtain ⟨hs, hq⟩ := hcls x hxv hb hxt
          exact ⟨hs, fun q hqx => hp.mono q (hq q hqx)⟩
        · exact hp.closed rfl x hx hxv
      obtain ⟨hmono, hin, hsou, hfa⟩ := ih seen'
        (fun q hq seen hvis => hgo q (mem_cons_of_mem p hq) seen (fun x hx => hvis x (hp.mono x hx)))
        hins (fun q hq => hpred q (mem_cons_of_mem p hq)) hcls'
      refine ⟨fun x hx => hmono x (hp.mono x hx), hin, hsou, fun h => ?_⟩
      obtain ⟨hrs, hcl⟩ := hfa h
      refine ⟨fun q hq => ?_, hcl⟩
      rcases mem_cons.1 hq with rfl | hq
      · exact hmono _ (hp.found rfl)
      · exact hrs q hq

theorem search_spec {pred : V → List V} (src : V) (huniv : ∀ x ∈ ns, ∀ p ∈ pred x, p ∈ ns) :
    ∀ fuel t visited, t ∈ ns → (∀ x ∈ visited, x ∈ ns) → unvisited ns visited < fuel →
      SearchSpec pred src ns t visited (search pred src fuel t visited) := by
  intro fuel
  induction fuel with
  | zero => intro _ _ _ _ h; exact absurd h (Nat.not_lt_zero _)
  | succ fuel ih =>
    intro t visited htg hvisited hf
    by_cases hst : src = t
    · simp only [search, hst]
      exact ⟨fun _ h => h, fun h => h, fun _ => .refl, fun h => by simp at h, fun h => by simp at h⟩
    by_cases htv : t ∈ visited
    · simp only [search, hst, htv]
      exact ⟨fun _ h => h, fun h => h, fun h => by simp at h, fun _ => htv,
        fun _ x hx hn => absurd hx hn⟩
    simp only [search, hst, htv]
    have hlt := unvisited_cons_lt htg htv
    have huniv' : ∀ x ∈ t :: visited, x ∈ ns := by
      intro x hx
      rcases mem_cons.1 hx with rfl | hx
      · exact htg
      · exact hvisited x hx
    obtain ⟨hmono, hin, hsou, hfa⟩ := searchAny_spec pred src ns (search pred src fuel) t visited
        (pred t) (t :: visited)
        (fun p hp seen hvis hvu => ih p seen (huniv t htg p hp) hvu
          (by have := unvisited_mono ns hvis; omega))
        huniv' (fun _ h => h)
        (fun x hx hb ht => by
          rcases mem_cons.1 hx with rfl | hx
          · exact absurd rfl ht
          · exact absurd hx hb)
    refine ⟨fun x hx => hmono x (mem_cons_of_mem t hx), fun _ => hin, hsou,
      fun _ => hmono t mem_cons_self, fun h x hx hn => ?_⟩
    obtain ⟨hpre, hcl⟩ := hfa h
    by_cases hxt : x = t
    · subst hxt
      exact ⟨fun e => hst e.symm, hpre⟩
    · exact hcl x hx hn hxt

/-- The search decides reachability when the node list is closed
under predecessors and shorter than the fuel. -/
theorem search_eq_true_iff {pred : V → List V} (huniv : ∀ x ∈ ns, ∀ p ∈ pred x, p ∈ ns)
    {src t : V} (htg : t ∈ ns) {fuel : Nat}
    (hf : ns.length < fuel) :
    (search pred src fuel t []).1 = true ↔ ReflTransGen (fun x y => x ∈ pred y) src t := by
  have hun : unvisited ns [] < fuel := Nat.lt_of_le_of_lt (length_filter_le _ _) hf
  have hsp := search_spec src huniv fuel t [] htg (by simp) hun
  refine ⟨hsp.sound, fun hrch => ?_⟩
  cases hres : (search pred src fuel t []).1 with
  | true => rfl
  | false =>
    -- The visited list of a failed search is closed under predecessors and
    -- avoids the source, so no path can lead back from the target to it.
    have hbk : ∀ x, ReflTransGen (fun x y => x ∈ pred y) x t →
        x ∈ (search pred src fuel t []).2 := by
      intro x hx
      induction hx using ReflTransGen.head_induction_on with
      | refl => exact hsp.found hres
      | @head x y hxy _ ih => exact (hsp.closed hres y ih (by simp)).2 x hxy
    exact absurd rfl (hsp.closed hres src (hbk src hrch) (by simp)).1

variable {ρ : Type*}

/-- Visit everything that can be reached, and let `enter` collect. -/
def traverse (succ : V → List V) (enter : V → ρ → ρ) : Nat → V → List V × ρ → Option (List V × ρ)
  | 0, _, _ => none
  | fuel + 1, node, st =>
    if node ∈ st.1 then some st
    else (succ node).foldlM (fun st next => traverse succ enter fuel next st)
      (node :: st.1, enter node st.2)

/-- A fold that can fail does not, if a property of its states lets each step succeed
and is kept by it. -/
theorem foldlM_returns {α σ : Type*} {P : σ → Prop} {f : σ → α → Option σ} :
    ∀ {xs : List α} {s : σ}, P s → (∀ x ∈ xs, ∀ s, P s → ∃ s', f s x = some s' ∧ P s') →
      ∃ s', xs.foldlM f s = some s' ∧ P s' := by
  intro xs
  induction xs with
  | nil => exact fun hs _ => ⟨_, rfl, hs⟩
  | cons x xs ih =>
    intro s hs hf
    obtain ⟨s1, hx, hs1⟩ := hf x mem_cons_self s hs
    obtain ⟨s2, hxs, hs2⟩ := ih hs1 (fun y hy => hf y (mem_cons_of_mem x hy))
    exact ⟨s2, by rw [foldlM_cons, hx]; exact hxs, hs2⟩

variable {succ : V → List V} {enter : V → ρ → ρ}

/-- The traversal returns when the node list is closed under successors and the fuel
exceeds the number of nodes not visited yet. -/
theorem traverse_returns (hcls : ∀ x ∈ ns, ∀ y ∈ succ x, y ∈ ns) :
    ∀ fuel node st, node ∈ ns → unvisited ns st.1 < fuel →
      ∃ st', traverse succ enter fuel node st = some st' ∧ ∀ x ∈ st.1, x ∈ st'.1 := by
  intro fuel
  induction fuel with
  | zero => exact fun _ _ _ h => absurd h (Nat.not_lt_zero _)
  | succ fuel ih =>
    intro node st hnode hf
    by_cases hv : node ∈ st.1
    · exact ⟨st, by rw [traverse, if_pos hv], fun _ => id⟩
    · have hlt := unvisited_cons_lt hnode hv
      have hst : ∀ y ∈ succ node, ∀ s, (∀ x ∈ node :: st.1, x ∈ s.1) →
          ∃ s', traverse succ enter fuel y s = some s' ∧ ∀ x ∈ node :: st.1, x ∈ s'.1 := by
        intro y hy s hs
        have hle := unvisited_mono ns hs
        obtain ⟨s', hrun, hmono⟩ := ih y s (hcls node hnode y hy) (by omega)
        exact ⟨s', hrun, fun x hx => hmono x (hs x hx)⟩
      obtain ⟨s', hrun, hmono⟩ :=
        foldlM_returns (s := (node :: st.1, enter node st.2)) (fun _ => id) hst
      exact ⟨s', by rw [traverse, if_neg hv]; exact hrun,
        fun x hx => hmono x (mem_cons_of_mem node hx)⟩

/-- What a visit keeps holds of the visited nodes and what is collected from them. -/
theorem traverse_keeps_both {P : List V × ρ → Prop}
    (hvis : ∀ node st, node ∉ st.1 → P st → P (node :: st.1, enter node st.2)) :
    ∀ (fuel : Nat) (node : V) (st st' : List V × ρ), P st →
      traverse succ enter fuel node st = some st' → P st' := by
  intro fuel
  induction fuel with
  | zero => exact fun _ _ _ _ h => nomatch h
  | succ fuel ih =>
    intro node st st' hP h
    unfold traverse at h
    by_cases hv : node ∈ st.1
    · rw [if_pos hv] at h
      cases h
      exact hP
    · rw [if_neg hv] at h
      have hlp : ∀ (ns : List V) (st st' : List V × ρ), P st →
          ns.foldlM (fun st next => traverse succ enter fuel next st) st = some st' →
          P st' := by
        intro ns
        induction ns with
        | nil =>
          intro st st' hP h
          cases h
          exact hP
        | cons next ns ihNs =>
          intro st st' hP h
          obtain ⟨st1, hnx, h⟩ := bind_eq_some_iff.1 h
          exact ihNs st1 st' (ih next st st1 hP hnx) h
      exact hlp _ _ _ (hvis node st hv hP) h

theorem traverse_keeps {P : ρ → Prop}
    (hent : ∀ node collected, P collected → P (enter node collected)) :
    ∀ fuel node st st', P st.2 → traverse succ enter fuel node st = some st' → P st'.2 :=
  traverse_keeps_both (P := fun st => P st.2) (fun node st _ hP => hent node st.2 hP)

/-- What one traversal visits.  The nodes that were visited before may still wait for their
successors. -/
structure TraverseSpec (succ : V → List V) (start : V → Prop) (visited visited' : List V) : Prop where
  mono : ∀ x ∈ visited, x ∈ visited'
  found : ∀ x, start x → x ∈ visited'
  sound : ∀ x ∈ visited', x ∈ visited ∨ ∃ y, start y ∧ ReflTransGen (fun x y => y ∈ succ x) y x
  closed : ∀ x ∈ visited', x ∉ visited → ∀ y ∈ succ x, y ∈ visited'

theorem traverseAll_spec {go : V → List V × ρ → Option (List V × ρ)}
    (hgo : ∀ node st st', go node st = some st' → TraverseSpec succ (· = node) st.1 st'.1) :
    ∀ {ns : List V} {st st' : List V × ρ}, ns.foldlM (fun st next => go next st) st = some st' →
      TraverseSpec succ (· ∈ ns) st.1 st'.1 := by
  intro ns
  induction ns with
  | nil =>
    intro st st' h
    obtain rfl := some.inj h
    exact ⟨fun _ => id, nofun, fun x hx => .inl hx,
      fun x hx hn => absurd hx hn⟩
  | cons node ns ih =>
    intro st st' h
    rw [foldlM_cons] at h
    cases hnode : go node st with
    | none =>
      rw [hnode] at h
      cases h
    | some st1 =>
      rw [hnode] at h
      have hfst := hgo node st st1 hnode
      have hrs := ih h
      refine ⟨fun x hx => hrs.mono x (hfst.mono x hx), fun x hx => ?_, fun x hx => ?_, fun x hx hn => ?_⟩
      · rcases mem_cons.1 hx with rfl | hx
        · exact hrs.mono x (hfst.found x rfl)
        · exact hrs.found x hx
      · rcases hrs.sound x hx with hx | ⟨y, hy, hrch⟩
        · rcases hfst.sound x hx with hx | ⟨y, rfl, hrch⟩
          · exact .inl hx
          · exact .inr ⟨y, mem_cons_self, hrch⟩
        · exact .inr ⟨y, mem_cons_of_mem node hy, hrch⟩
      · by_cases hx1 : x ∈ st1.1
        · exact fun y hy => hrs.mono y (hfst.closed x hx1 hn y hy)
        · exact hrs.closed x hx hx1

theorem traverse_spec :
    ∀ fuel node st st', traverse succ enter fuel node st = some st' →
      TraverseSpec succ (· = node) st.1 st'.1 := by
  intro fuel
  induction fuel with
  | zero =>
    intro node st st' h
    cases h
  | succ fuel ih =>
    intro node st st' h
    rw [traverse] at h
    by_cases hv : node ∈ st.1
    · rw [if_pos hv] at h
      obtain rfl := some.inj h
      refine ⟨fun _ => id, fun x hx => ?_, fun x hx => .inl hx, fun x hx hn => absurd hx hn⟩
      rw [hx]
      exact hv
    · rw [if_neg hv] at h
      have hall := traverseAll_spec ih h
      refine ⟨fun x hx => hall.mono x (mem_cons_of_mem node hx), fun x hx => ?_, fun x hx => ?_,
        fun x hx hn => ?_⟩
      · rw [hx]
        exact hall.mono node mem_cons_self
      · rcases hall.sound x hx with hx | ⟨y, hy, hrch⟩
        · rcases mem_cons.1 hx with rfl | hx
          · exact .inr ⟨x, rfl, .refl⟩
          · exact .inl hx
        · exact .inr ⟨node, rfl, .head hy hrch⟩
      · by_cases hnode : x = node
        · rw [hnode]
          exact hall.found
        · exact hall.closed x hx (by rw [mem_cons, not_or]; exact ⟨hnode, hn⟩)

omit [DecidableEq V] in
/-- From nothing, traversals visit exactly what can be reached from their starts. -/
theorem TraverseSpec.mem_iff {s : V → Prop} {seen' : List V}
    (h : TraverseSpec succ s [] seen') (x : V) :
    x ∈ seen' ↔ ∃ y, s y ∧ ReflTransGen (fun x y => y ∈ succ x) y x := by
  constructor
  · intro hx
    exact (h.sound x hx).resolve_left not_mem_nil
  · rintro ⟨y, hy, hrch⟩
    induction hrch with
    | refl => exact h.found y hy
    | tail _ hst ih => exact h.closed _ ih not_mem_nil _ hst

variable {x : V}

section

omit [DecidableEq V]

/-- In a graph without cycles the number of ancestors falls along every edge that
comes from one of the counted nodes. -/
theorem card_ancestors_lt {r : V → V → Prop} (hr : ∀ x, ¬ TransGen r x x) (ns : Finset V)
    {y : V} (hx : x ∈ ns) (hxy : r x y) [∀ y, DecidablePred (fun x => TransGen r x y)] :
    (ns.filter (fun a => TransGen r a x)).card < (ns.filter (fun a => TransGen r a y)).card := by
  refine Finset.card_lt_card (Finset.ssubset_iff_of_subset ?_ |>.2 ⟨x, ?_, ?_⟩)
  · exact Finset.monotone_filter_right ns (fun a _ ha => ha.tail hxy)
  · exact Finset.mem_filter.2 ⟨hx, .single hxy⟩
  · exact fun h => hr x (Finset.mem_filter.1 h).2

/-- An edge that does not close a cycle leaves the graph without one. -/
theorem acyclic_insert {r : V → V → Prop} (hr : ∀ x, ¬TransGen r x x) {a b : V}
    (hbk : ¬ReflTransGen r b a) :
    ∀ x, ¬TransGen (fun x y => r x y ∨ x = a ∧ y = b) x x := by
  -- A path of the new graph is one of the old graph, or leads to `a` and goes on from `b`.
  have hp : ∀ {x y}, TransGen (fun x y => r x y ∨ x = a ∧ y = b) x y →
      TransGen r x y ∨ ReflTransGen r x a ∧ ReflTransGen r b y := by
    intro x y h
    induction h with
    | single hxy =>
      rcases hxy with hxy | ⟨rfl, rfl⟩
      · exact .inl (.single hxy)
      · exact .inr ⟨.refl, .refl⟩
    | tail _ hyz ih =>
      rcases hyz with hyz | ⟨rfl, rfl⟩
      · rcases ih with ih | ⟨ha, hb⟩
        · exact .inl (ih.tail hyz)
        · exact .inr ⟨ha, hb.tail hyz⟩
      · rcases ih with ih | ⟨ha, hb⟩
        · exact .inr ⟨ih.to_reflTransGen, .refl⟩
        · exact absurd hb hbk
  intro x h
  rcases hp h with h | ⟨ha, hb⟩
  · exact hr x h
  · exact hbk (hb.trans ha)

/-- No cycle can be reached from a node all whose paths end. -/
theorem not_transGen_of_acc {r : V → V → Prop} (h : Acc (fun y x => r x y) x) :
    ∀ {y}, ReflTransGen r x y → ¬TransGen r y y := by
  induction h with
  | intro x _ ih =>
    intro y hrch hcy
    rcases ReflTransGen.cases_head hrch with rfl | ⟨z, hxz, hzy⟩
    · obtain ⟨z, hxz, hzx⟩ := TransGen.head'_iff.1 hcy
      exact ih z hxz hzx hcy
    · exact ih z hxz hzy hcy

/-- In a finite graph all paths from a node end, if it reaches no cycle. -/
theorem acc_of_no_cycle [Finite V] {r : V → V → Prop}
    (h : ∀ y, ReflTransGen r x y → ¬TransGen r y y) : Acc (fun y x => r x y) x := by
  -- The edges that can be reached from `x` are well founded, and nothing else is followed.
  let near := fun y z => ReflTransGen r x z ∧ r z y
  have hnear : ∀ {y z}, TransGen near y z → ReflTransGen r x z ∧ TransGen r z y := by
    intro y z hyz
    induction hyz with
    | single hyz => exact ⟨hyz.1, .single hyz.2⟩
    | tail _ hyz ih => exact ⟨hyz.1, .head hyz.2 ih.2⟩
  have hwf : WellFounded (TransGen near) := by
    have htr : IsTrans V (TransGen near) := ⟨fun _ _ _ => .trans⟩
    have hirr : Std.Irrefl (TransGen near) := ⟨fun y hy => h y (hnear hy).1 (hnear hy).2⟩
    exact Finite.wellFounded_of_trans_of_irrefl _
  have hacc : ∀ y, ReflTransGen r x y → Acc (fun y x => r x y) y := by
    intro y
    induction y using hwf.induction with
    | h y ih =>
      intro hrch
      constructor
      intro z hyz
      exact ih z (.single ⟨hrch, hyz⟩) (hrch.tail hyz)
  exact hacc x .refl

/-- Finitely many nodes that all lead on among themselves reach a cycle. -/
theorem exists_cycle {r : V → V → Prop} (h : ∀ x ∈ ns, ∃ y ∈ ns, r x y)
    (hx : x ∈ ns) : ∃ y, ReflTransGen r x y ∧ TransGen r y y := by
  by_contra hno
  have hfin : Finite {y // y ∈ ns} := (finite_toSet ns).to_subtype
  have hacc : Acc (fun y x : {y // y ∈ ns} => r x.1 y.1) ⟨x, hx⟩ := by
    apply acc_of_no_cycle
    intro y hrch hcy
    exact hno ⟨y.1, hrch.lift Subtype.val fun _ _ => id, hcy.lift Subtype.val fun _ _ => id⟩
  have hnot : ∀ node, ¬ Acc (fun y x : {y // y ∈ ns} => r x.1 y.1) node := by
    intro node hnode
    induction hnode with
    | intro node _ ih =>
      obtain ⟨y, hy, hed⟩ := h node.1 node.2
      exact ih ⟨y, hy⟩ hed
  exact hnot _ hacc

end

section

variable {r r' : V → V → Prop} {S : V → Prop}

omit [DecidableEq V] in
/-- Paths into a set that is closed under predecessors stay in it. -/
theorem reflTransGen_congr_of_closed (hcls : ∀ x y, S y → r x y → S x)
    (hagr : ∀ x y, S y → (r x y ↔ r' x y)) {y : V} (hy : S y) :
    ReflTransGen r x y ↔ ReflTransGen r' x y := by
  constructor
  · intro h
    induction h with
    | refl => exact .refl
    | tail _ hed ih => exact (ih (hcls _ _ hy hed)).tail ((hagr _ _ hy).1 hed)
  · intro h
    induction h with
    | refl => exact .refl
    | tail _ hed ih =>
      have hed' := (hagr _ _ hy).2 hed
      exact (ih (hcls _ _ hy hed')).tail hed'

omit [DecidableEq V] in
theorem acc_congr_of_closed (hcls : ∀ x y, S y → r x y → S x)
    (hagr : ∀ x y, S y → (r x y ↔ r' x y)) (hx : S x) : Acc r x ↔ Acc r' x := by
  constructor
  · intro h
    induction h with
    | intro x _ ih =>
      constructor
      intro y hyx
      have hed := (hagr y x hx).2 hyx
      exact ih y hed (hcls y x hx hed)
  · intro h
    induction h with
    | intro x _ ih =>
      constructor
      intro y hyx
      exact ih y ((hagr y x hx).1 hyx) (hcls y x hx hyx)

end

end USprache.Library
