import USprache.CodeBuilder.CallReferences

/-!
# Locked arguments

The loop over the arguments returns unless a mutable reference needs a conversion.  It leaves a
node for each argument that is not rejected and the second order nodes of these, and nothing is
linked from the result yet.
-/

namespace USprache.CodeBuilder.WithArgs.CallReferences

open CallArguments ReferencesGraph List Bool Function CallArguments.Program CallNode

def CallNode.isLock : CallNode → Bool
  | arg _ | secondOrder _ _ => true
  | _ => false

def CallNode.isResult : CallNode → Bool
  | result | resultInner _ => true
  | _ => false

namespace LinkedCall

variable {program : CallArguments.Program} {V : Type} [DecidableEq V]
  (linked : LinkedCall program V)

def ResultUnused (s : ArgsNodes V) : Prop :=
  ∀ n, n.isResult = true → s.graph.NoOutput (linked.node n)

/-- What a part of the loop does to the nodes of the call: `added` enter the graph and `set`
are written to the vectors. -/
structure Effect (added set : CallNode → Bool) (s s' : ArgsNodes V) : Prop where
  argsNodes : ∀ i, s'.argsNodes i =
    if set (.arg i) then some (linked.node (.arg i)) else s.argsNodes i
  secondOrder : ∀ i tag, s'.secondOrderReferenceNodes i tag =
    if set (.secondOrder i tag) then some (linked.node (.secondOrder i tag))
    else s.secondOrderReferenceNodes i tag
  lookup : ∀ n, n.isLock = true → s'.graph.nodes.lookup (linked.node n) =
    if added n then some ((s.graph.nodes.lookup (linked.node n)).getD {})
    else s.graph.nodes.lookup (linked.node n)
  unused : linked.ResultUnused s → linked.ResultUnused s'

def nothing : CallNode → Bool := fun _ => false

variable {linked}

variable {added set : CallNode → Bool} {s s' s'' : ArgsNodes V} {v : V} {n : CallNode} {i : Nat}
    {param : Param}

theorem Effect.trans {added' set' : CallNode → Bool}
    (h : linked.Effect added set s s') (h' : linked.Effect added' set' s' s'') :
    linked.Effect (fun n => added n || added' n) (fun n => set n || set' n) s s'' where
  argsNodes i := by
    rw [h'.argsNodes, h.argsNodes]
    cases set (.arg i) <;> cases set' (.arg i) <;> rfl
  secondOrder i tag := by
    rw [h'.secondOrder, h.secondOrder]
    cases set (.secondOrder i tag) <;> cases set' (.secondOrder i tag) <;> rfl
  lookup n hn := by
    rw [h'.lookup n hn, h.lookup n hn]
    cases added n <;> cases added' n <;> rfl
  unused hs := h'.unused (h.unused hs)

theorem Effect.congr {added' set' : CallNode → Bool}
    (h : linked.Effect added set s s') (hadd : ∀ n, n.isLock = true → added n = added' n)
    (hset : ∀ n, n.isLock = true → set n = set' n) : linked.Effect added' set' s s' where
  argsNodes i := by rw [h.argsNodes, hset _ rfl]
  secondOrder i tag := by rw [h.secondOrder, hset _ rfl]
  lookup n hn := by rw [h.lookup n hn, hadd n hn]
  unused := h.unused

/-- An operation on the graph that keeps the states of the locks and gives the result no
output has no effect. -/
theorem effect_nothing (hargs : s'.argsNodes = s.argsNodes)
    (hsnd : s'.secondOrderReferenceNodes = s.secondOrderReferenceNodes)
    (hlk : ∀ n, n.isLock = true →
      s'.graph.nodes.lookup (linked.node n) = s.graph.nodes.lookup (linked.node n))
    (hunu : linked.ResultUnused s → linked.ResultUnused s') :
    linked.Effect nothing nothing s s' where
  argsNodes i := by rw [hargs]; rfl
  secondOrder i tag := by rw [hsnd]; rfl
  lookup n hn := by rw [hlk n hn]; rfl
  unused := hunu

theorem Effect.after_nothing
    (h : linked.Effect nothing nothing s s') (h' : linked.Effect added set s' s'') :
    linked.Effect added set s s'' :=
  (h.trans h').congr (fun _ _ => rfl) (fun _ _ => rfl)

theorem Effect.before_nothing
    (h : linked.Effect added set s s') (h' : linked.Effect nothing nothing s' s'') :
    linked.Effect added set s s'' :=
  (h.trans h').congr (fun _ _ => Bool.or_false _) (fun _ _ => Bool.or_false _)

/-! ## Operations without an effect -/

theorem effect_refl (s : ArgsNodes V) : linked.Effect nothing nothing s s :=
  effect_nothing rfl rfl (fun _ _ => rfl) (fun h => h)

theorem effect_foreign {f : ReferencesGraph V → ReferencesGraph V} (hf : Foreign linked.node f)
    (s : ArgsNodes V) : linked.Effect nothing nothing s (s.mapGraph f) :=
  effect_nothing rfl rfl (fun n _ => hf.lookup s.graph n)
    (fun h n hn => hf.noOutput s.graph n (h n hn))

theorem foldl_tryLink_effect (ls : List (V × V)) (hsrc : linked.ResultUnused s →
      ∀ link ∈ ls, ∀ n, n.isResult = true → link.1 ≠ linked.node n) :
    linked.Effect nothing nothing s (s.setReported
      (ls.foldl (fun st link => tryLink linked.vars st link.1 link.2) s.reported)) := by
  have hfold : ∀ (ls : List (V × V)) (st : Reported V),
      (ls.foldl (fun st link => tryLink linked.vars st link.1 link.2) st).1.nodes = st.1.nodes ∧
      ∀ v, (∀ link ∈ ls, link.1 ≠ v) → st.1.NoOutput v →
        (ls.foldl (fun st link => tryLink linked.vars st link.1 link.2) st).1.NoOutput v := by
    intro ls
    induction ls with
    | nil => exact fun st => ⟨rfl, fun _ _ h => h⟩
    | cons link ls ih =>
      intro st
      obtain ⟨hnodes, hnoOut⟩ := ih (tryLink linked.vars st link.1 link.2)
      refine ⟨hnodes.trans (tryAddLink_nodes _ _ _ _), fun v h hst => ?_⟩
      apply hnoOut v (fun l hl => h l (mem_cons_of_mem link hl))
      exact NoOutput.tryAddLink hst (h link mem_cons_self)
  obtain ⟨hnodes, hnoOut⟩ := hfold ls s.reported
  refine effect_nothing rfl rfl (fun n _ => ?_) (fun h n hn => ?_)
  · show (nodes _).lookup _ = _
    exact congrArg (fun ns => AList.lookup (linked.node n) ns) hnodes
  · exact hnoOut _ (fun link hlink => hsrc h link hlink n hn) (h n hn)

theorem inner_ne {i : V} (hv : ∀ n, v ≠ linked.node n)
    (hi : i ∈ linked.vars.innerReferenceNodes v) (n : CallNode) : i ≠ linked.node n := by
  intro heq
  rw [heq] at hi
  obtain ⟨m, hm, -⟩ := linked.owner v n hi
  exact hv m hm

theorem buildExpression_effect (i : Nat) (s : ArgsNodes V) :
    linked.Effect nothing nothing s (linked.buildExpression i s) := by
  unfold buildExpression
  split
  · exact effect_refl s
  · exact effect_foreign (linked.foreign_build i) s

theorem convertedExpr_effect (i : Nat) (param : Param) (expr : Variable) (s : ArgsNodes V) :
    linked.Effect nothing nothing s (linked.convertedExpr i param expr s).2 ∧
      ∀ n, (linked.convertedExpr i param expr s).1 ≠ linked.node n := by
  unfold convertedExpr
  split
  · exact ⟨effect_refl s, linked.exprNode_ne i⟩
  · exact ⟨effect_foreign (linked.foreign_convert i) s, linked.convertedNode_ne i⟩

theorem checkValue_effect (expr : V) (s : ArgsNodes V) :
    linked.Effect nothing nothing s (linked.checkValue expr s) := by
  unfold checkValue
  split
  · exact effect_nothing rfl rfl (fun _ _ => rfl) (fun h => h)
  · exact effect_refl s

theorem tryAddInnerLinks_effect (s : ArgsNodes V) {src dst : V}
    (hlen : (linked.vars.innerReferenceNodes dst).length ≤
      (linked.vars.innerReferenceNodes src).length) (hsrc : ∀ n, src ≠ linked.node n) :
    ∃ st, tryAddInnerLinks linked.vars s.reported src dst = some st ∧
      linked.Effect nothing nothing s (s.setReported st) := by
  refine ⟨_, if_pos hlen, ?_⟩
  apply foldl_tryLink_effect
  intro _ link hlink n _
  exact inner_ne hsrc (of_mem_zip hlink).1 n

theorem moveNode_effect (s : ArgsNodes V) {expr : V} (hexpr : ∀ n, expr ≠ linked.node n) :
    linked.Effect nothing nothing s
      (s.mapGraph fun G => G.moveNode linked.vars.toVariables expr) := by
  refine effect_nothing rfl rfl (fun n _ => ?_) (fun h n hn => ?_)
  · exact lookup_moveNode s.graph (hexpr n).symm (linked.bare n).1
  · exact (h n hn).rewired (linked.bare n).2 (moveNode_rewired s.graph expr)

/-! ## Locks -/

theorem lock_notMem_inner (hn : n.isLock = true) (v : V) :
    linked.node n ∉ linked.vars.innerReferenceNodes v := by
  intro h
  obtain ⟨m, -, howns⟩ := linked.owner v n h
  cases m <;> cases n <;> simp_all [isLock, owns]

theorem addNode_effect (s : ArgsNodes V) (m : CallNode) : linked.Effect (fun n => n == m) nothing s
    (s.mapGraph fun G => G.addNode linked.vars.toVariables (linked.node m)) where
  argsNodes i := rfl
  secondOrder i tag := rfl
  lookup n hn := by
    show (s.graph.addNode linked.vars.toVariables (linked.node m)).nodes.lookup (linked.node n) = _
    rw [lookup_addNode (linked.bare m).1 (lock_notMem_inner hn _)]
    by_cases heq : n = m
    · subst heq
      rw [if_pos rfl, if_pos (beq_self_eq_true n)]
    · rw [if_neg (fun h => heq (linked.node_injective _ _ h)),
        if_neg (fun h => heq (beq_iff_eq.1 h))]
  unused h n hn := (h n hn).of_links_eq (addNode_links (linked.node m)).1

theorem setArgNode_effect (s : ArgsNodes V) (i : Nat) :
    linked.Effect nothing (fun n => n == .arg i) s (s.setArgNode i (linked.node (.arg i))) where
  argsNodes j := by
    show update s.argsNodes i (some (linked.node (.arg i))) j = _
    by_cases hj : j = i
    · subst hj
      rw [update_self, if_pos (beq_self_eq_true _)]
    · rw [update_of_ne hj, if_neg (fun h => hj (arg.inj (beq_iff_eq.1 h)))]
  secondOrder j tag := rfl
  lookup n _ := rfl
  unused h := h

theorem setSecondOrderNode_effect (s : ArgsNodes V) (i tag : Nat) :
    linked.Effect nothing (fun n => n == .secondOrder i tag) s
      (s.setSecondOrderNode i tag (linked.node (.secondOrder i tag))) where
  argsNodes j := rfl
  secondOrder j t := by
    show update s.secondOrderReferenceNodes i
      (update (s.secondOrderReferenceNodes i) tag
        (some (linked.node (.secondOrder i tag)))) j t = _
    by_cases hj : j = i
    · subst hj
      rw [update_self]
      by_cases ht : t = tag
      · subst ht
        rw [update_self, if_pos (beq_self_eq_true _)]
      · rw [update_of_ne ht, if_neg (fun h => ht (secondOrder.inj (beq_iff_eq.1 h)).2)]
    · rw [update_of_ne hj, if_neg (fun h => hj (secondOrder.inj (beq_iff_eq.1 h)).1)]
  lookup n _ := rfl
  unused h := h

theorem lockReference_effect (i : Nat) (s : ArgsNodes V) {expr : V}
    (hlen : (linked.vars.innerReferenceNodes (linked.node (.arg i))).length ≤
      (linked.vars.innerReferenceNodes expr).length) (hexpr : ∀ n, expr ≠ linked.node n) :
    ∃ s', linked.lockReference i expr s = some s' ∧
      linked.Effect (fun n => n == .arg i) (fun n => n == .arg i) s s' := by
  have hlink : ∀ s, linked.Effect nothing nothing s
      (s.setReported (tryLink linked.vars s.reported expr (linked.node (.arg i)))) := by
    intro s
    apply foldl_tryLink_effect [(expr, linked.node (.arg i))]
    intro _ link hlink n _
    rw [mem_singleton.1 hlink]
    exact hexpr n
  obtain ⟨st, hst, hinner⟩ := tryAddInnerLinks_effect _ hlen hexpr
  refine ⟨_, by rw [lockReference, hst]; rfl, ?_⟩
  exact ((((addNode_effect s (.arg i)).before_nothing (hlink _)).before_nothing hinner).trans
    (setArgNode_effect _ i)).congr (fun n _ => Bool.or_false _) (fun n _ => false_or _)

theorem mem_accessible {vs : VariableNodes V} {G : ReferencesGraph V} {node : V}
    (h : v ∈ getAllAccessibleNonInnerNodes vs G node) : ∃ l ∈ G.links, l.src = v := by
  unfold getAllAccessibleNonInnerNodes at h
  cases hres : getAllAccessibleNonInnerNodesRec vs G ((walkNodes vs G node).length + 1) node
      ([], []) with
  | none =>
    rw [hres] at h
    cases h
  | some res =>
    rw [hres] at h
    have hkp := Library.traverse_keeps (P := fun r : List V =>
      ∀ x ∈ r, ∃ l ∈ G.links, l.src = x) ?_ _ node ([], []) res (fun x hx => by cases hx) hres
    · exact hkp v h
    · intro x collected hcol
      have hins : ∀ (srcs collected : List V), (∀ y ∈ srcs, y ∈ G.srcNodes x) →
          (∀ y ∈ collected, ∃ l ∈ G.links, l.src = y) →
          ∀ y ∈ srcs.foldl (fun r src => r.insert src) collected, ∃ l ∈ G.links, l.src = y := by
        intro srcs
        induction srcs with
        | nil => exact fun _ _ h => h
        | cons src srcs ih =>
          intro collected hsrcs hcol
          apply ih
          · exact fun y hy => hsrcs y (mem_cons_of_mem src hy)
          · intro y hy
            rcases mem_insert_iff.1 hy with rfl | hy
            · exact ⟨_, mem_srcNodes.1 (hsrcs y mem_cons_self), rfl⟩
            · exact hcol y hy
      exact hins _ collected (fun y hy => (mem_filter.1 hy).1) hcol

theorem eq_result_of_inner (hn : n.isResult = true)
    (h : linked.node n ∈ linked.vars.innerReferenceNodes v) : v = linked.node .result := by
  obtain ⟨m, rfl, howns⟩ := linked.owner v n h
  cases m <;> cases n <;> simp_all [isResult, owns]

def locksSecondOrder (param : Param) (tag : Nat) : Bool :=
  (linked.secondOrderInnerReferenceKind param.type tag).isSome

variable (hp : linked.call.functionType.params[i]? = some param)

include hp

theorem lockSecondOrder_effect {tag : Nat}
    (htag : tag < program.referenceTagCount param.type) (s : ArgsNodes V)
    (hs : s.argsNodes i = some (linked.node (.arg i))) :
    ∃ s', linked.lockSecondOrder i param s tag = some s' ∧
      linked.Effect (fun n => n == .secondOrder i tag && linked.locksSecondOrder param tag)
        (fun n => n == .secondOrder i tag && linked.locksSecondOrder param tag) s s' := by
  unfold lockSecondOrder locksSecondOrder
  cases linked.secondOrderInnerReferenceKind param.type tag with
  | none => exact ⟨s, rfl, (effect_refl s).congr (fun _ _ => (Bool.and_false _).symm)
      (fun _ _ => (Bool.and_false _).symm)⟩
  | some kind =>
    have hin : (linked.vars.innerReferenceNodes (linked.node (.arg i)))[tag]? =
        some (linked.node (.argInner i tag)) := by
      rw [linked.inner_arg i param hp, getElem?_map, getElem?_range htag]
      rfl
    have hset : linked.Effect nothing (fun n => n == .secondOrder i tag) s _ :=
      setSecondOrderNode_effect s i tag
    have hadd : linked.Effect (fun n => n == .secondOrder i tag) nothing _ _ :=
      addNode_effect (s.setSecondOrderNode i tag (linked.node (.secondOrder i tag)))
        (.secondOrder i tag)
    generalize hs1 : (s.setSecondOrderNode i tag (linked.node (.secondOrder i tag))).mapGraph
      (fun G => G.addNode linked.vars.toVariables (linked.node (.secondOrder i tag))) = s1 at hadd
    have hargs : s1.argsNodes i = some (linked.node (.arg i)) := by
      rw [← hs1]
      exact hs
    have hsrc : linked.ResultUnused s1 →
        ∀ link ∈ ((getAllAccessibleNonInnerNodes linked.vars s1.graph
          (linked.node (.argInner i tag))).flatMap linked.vars.innerReferenceNodes).map
            fun src => (src, linked.node (.secondOrder i tag)),
          ∀ n, n.isResult = true → link.1 ≠ linked.node n := by
      intro hunu link hlink n hn heq
      obtain ⟨src, hsrc, rfl⟩ := mem_map.1 hlink
      obtain ⟨v, hv, hsrc⟩ := mem_flatMap.1 hsrc
      have hsrc : linked.node n ∈ linked.vars.innerReferenceNodes v := heq ▸ hsrc
      obtain ⟨l, hl, hlv⟩ := mem_accessible hv
      exact hunu .result rfl l hl (hlv.trans (eq_result_of_inner hn hsrc))
    have hlks := foldl_tryLink_effect _ hsrc
    rw [foldl_map] at hlks
    refine ⟨_, ?_, ((hset.trans hadd).before_nothing hlks).congr ?_ ?_⟩
    · simp only [hs1, hargs, hin, Option.bind_eq_bind, Option.bind_some]
      rfl
    · intro n _
      simp [nothing]
    · intro n _
      simp [nothing]

omit hp in
theorem foldlM_effect {α : Type} {added set : α → CallNode → Bool} {P : ArgsNodes V → Prop}
    {f : ArgsNodes V → α → Option (ArgsNodes V)} (xs : List α)
    (hf : ∀ a ∈ xs, ∀ s, P s → ∃ s', f s a = some s' ∧ P s' ∧
      linked.Effect (added a) (set a) s s') (s : ArgsNodes V) (hs : P s) :
    ∃ s', xs.foldlM f s = some s' ∧ P s' ∧ linked.Effect (fun n => xs.any fun a => added a n)
        (fun n => xs.any fun a => set a n) s s' := by
  induction xs generalizing s with
  | nil => exact ⟨s, rfl, hs, effect_refl s⟩
  | cons a xs ih =>
    obtain ⟨s1, hst, hs1, heff⟩ := hf a mem_cons_self s hs
    obtain ⟨s', hrs, hs', heff'⟩ := ih (fun b hb => hf b (mem_cons_of_mem a hb)) s1 hs1
    refine ⟨s', ?_, hs', heff.trans heff'⟩
    rw [foldlM_cons, hst]
    exact hrs

def secondOrderNodes (linked : LinkedCall program V) (i : Nat) (param : Param) (n : CallNode) :
    Bool :=
  (List.range (program.referenceTagCount param.type)).any fun tag =>
    n == .secondOrder i tag && linked.locksSecondOrder param tag

omit hp in
theorem secondOrderNodes_arg (i j : Nat) (param : Param) :
    secondOrderNodes linked i param (.arg j) = false := by
  rw [secondOrderNodes, any_eq_false]
  intro tag _
  simp

theorem finishArg_effect (s : ArgsNodes V)
    (hs : s.argsNodes i = some (linked.node (.arg i))) :
    ∃ s', linked.finishArg i param s = some s' ∧
      linked.Effect (secondOrderNodes linked i param) (secondOrderNodes linked i param) s s' := by
  obtain ⟨s', hlp, -, heff⟩ := foldlM_effect
    (range (program.referenceTagCount param.type))
    (fun tag htag s hs => by
      obtain ⟨s', hst, heff⟩ := lockSecondOrder_effect hp (mem_range.1 htag) s hs
      refine ⟨s', hst, ?_, heff⟩
      have hset : (arg i == .secondOrder i tag &&
          linked.locksSecondOrder param tag) = false := by simp
      rw [heff.argsNodes]
      exact hs) s hs
  refine ⟨_, ?_, heff.before_nothing (effect_foreign (linked.foreign_destroy i) s')⟩
  rw [finishArg, hlp]
  rfl

/-! ## One pass -/

def lockNodes (linked : LinkedCall program V) (i : Nat) (param : Param) (built : Bool)
    (n : CallNode) : Bool :=
  built && (n == .arg i || secondOrderNodes linked i param n)

theorem finish_of_locked {s1 : ArgsNodes V}
    (h : linked.Effect added (fun n => n == .arg i) s s1) :
    ∃ s', linked.finishArg i param s1 = some s' ∧
      linked.Effect (fun n => added n || secondOrderNodes linked i param n)
        (lockNodes linked i param true) s s' := by
  have hs1 : s1.argsNodes i = some (linked.node (.arg i)) := by
    rw [h.argsNodes, if_pos (beq_self_eq_true _)]
  obtain ⟨s', hfin, heff⟩ := finishArg_effect hp s1 hs1
  exact ⟨s', hfin, h.trans heff⟩

variable (program) in
/-- A mutable reference is passed as it is or as a parent's part. -/
def CastFits (param : Param) (expr : Variable) : Prop :=
  param.valueType = .referenceMut → expr.valueType = .referenceMut →
    program.isPassable expr param = true → program.referenceIsConvertible expr.type param.type = true

/-- The variable that is passed has inner reference nodes for the parameter. -/
def InnerFits (linked : LinkedCall program V) (i : Nat) (param : Param) (expr : Variable) : Prop :=
  program.isPassable expr param = true → program.referenceTagCount param.type ≤
    (linked.vars.innerReferenceNodes (if program.referenceIsConvertible expr.type param.type then
      linked.exprNode i else linked.convertedNode i)).length

theorem inner_length_le {expr : Variable} (hinner : InnerFits linked i param expr)
    (hpsb : program.isPassable expr param = true) (s : ArgsNodes V) :
    (linked.vars.innerReferenceNodes (linked.node (.arg i))).length ≤
      (linked.vars.innerReferenceNodes (linked.convertedExpr i param expr s).1).length := by
  rw [linked.inner_arg i param hp, length_map, length_range]
  refine Nat.le_trans (hinner hpsb) (Nat.le_of_eq ?_)
  unfold convertedExpr
  split <;> rfl

theorem addReferenceArg_effect {expr : Variable} (hcast : CastFits program param expr)
    (hinner : InnerFits linked i param expr) (s : ArgsNodes V) :
    ∃ s', linked.addReferenceArg i param expr s = some s' ∧ linked.Effect
        (lockNodes linked i param (program.buildReferenceArg param expr).llvmValue.isSome)
        (lockNodes linked i param (program.buildReferenceArg param expr).llvmValue.isSome)
        s s' := by
  unfold addReferenceArg buildReferenceArg
  cases hpsb : program.isPassable expr param with
  | false => exact ⟨s, rfl, effect_refl s⟩
  | true =>
    simp only [Bool.not_true, false_eq_true, if_false]
    by_cases hmut : param.valueType = .referenceMut
    · by_cases hexpr : expr.valueType ≠ .referenceMut
      · simp only [if_pos hmut, if_pos hexpr]
        exact ⟨s, rfl, effect_refl s⟩
      · have hconv := hcast hmut (not_not.1 hexpr) hpsb
        obtain ⟨ref, href⟩ := createReferenceCast_some expr.llvmValue hconv
        have hlen := inner_length_le hp hinner hpsb s
        rw [convertedExpr, if_pos hconv] at hlen
        obtain ⟨s1, hlock, heff⟩ := lockReference_effect i s hlen (linked.exprNode_ne i)
        simp only [if_pos hmut, if_neg hexpr, href, hlock]
        exact finish_of_locked hp heff
    · have hcon : linked.Effect nothing nothing s _ ∧ _ := convertedExpr_effect i param expr s
      obtain ⟨s1, hlock, heff⟩ := lockReference_effect i (linked.convertedExpr i param expr s).2
        (inner_length_le hp hinner hpsb s) hcon.2
      have hsome : (if program.referenceIsConvertible expr.type param.type then
          program.createReferenceCast expr.llvmValue expr.type param.type
          else some (program.convertArg expr param).llvmValue).isSome = true := by
        split
        · next hconv =>
          obtain ⟨ref, href⟩ := createReferenceCast_some expr.llvmValue hconv
          rw [href]
          rfl
        · rfl
      simp only [if_neg hmut, hlock, hsome]
      exact finish_of_locked hp (hcon.1.after_nothing heff)

/-- The node of an argument for a value parameter stays in the graph when it is rejected. -/
theorem addValueArg_effect {expr : Variable} (hinner : InnerFits linked i param expr)
    (s : ArgsNodes V) :
    ∃ s', linked.addValueArg i param expr s = some s' ∧ linked.Effect (fun n => n == .arg i ||
          lockNodes linked i param (program.buildValueArg param expr).llvmValue.isSome n)
        (lockNodes linked i param (program.buildValueArg param expr).llvmValue.isSome) s s' := by
  have hadd : linked.Effect (fun n => n == .arg i) nothing s _ := addNode_effect s (.arg i)
  have hrej : ∀ s1, linked.Effect (fun n => n == .arg i) nothing s s1 →
      linked.Effect (fun n => n == .arg i || lockNodes linked i param false n)
        (lockNodes linked i param false) s s1 :=
    fun s1 h => h.congr (fun n _ => (Bool.or_false _).symm) (fun _ _ => rfl)
  have hlkd : ∀ s1, linked.Effect (fun n => n == .arg i) nothing s s1 →
      ∃ s', linked.finishArg i param (s1.setArgNode i (linked.node (.arg i))) = some s' ∧
        linked.Effect (fun n => n == .arg i || lockNodes linked i param true n)
          (lockNodes linked i param true) s s' := by
    intro s1 h
    have hset := (h.trans (setArgNode_effect s1 i)).congr (fun n _ => Bool.or_false _)
      (fun n _ => false_or _)
    obtain ⟨s', hfin, heff⟩ := finish_of_locked hp hset
    refine ⟨s', hfin, heff.congr (fun n _ => ?_) (fun _ _ => rfl)⟩
    unfold lockNodes
    rw [Bool.true_and, ← Bool.or_assoc, Bool.or_self]
  unfold addValueArg buildValueArg
  cases hpsb : program.isPassable expr param with
  | false => exact ⟨_, rfl, hrej _ hadd⟩
  | true =>
    simp only [Bool.not_true, false_eq_true, if_false]
    have hchd := hadd.before_nothing (checkValue_effect (linked.exprNode i) _)
    have hcv : linked.Effect nothing nothing _ _ ∧ _ :=
      convertedExpr_effect i param expr (linked.checkValue (linked.exprNode i)
        (s.mapGraph fun G => G.addNode linked.vars.toVariables (linked.node (.arg i))))
    have hne := hcv.2
    have hcon := hchd.before_nothing hcv.1
    by_cases hsc : isScalar param.type
    · simp only [if_pos hsc]
      exact hlkd _ hcon
    · simp only [if_neg hsc]
      obtain ⟨st, hst, hlinks⟩ := tryAddInnerLinks_effect
        (linked.convertedExpr i param expr (linked.checkValue (linked.exprNode i)
          (s.mapGraph fun G => G.addNode linked.vars.toVariables (linked.node (.arg i))))).2
        (inner_length_le hp hinner hpsb _) hne
      have hin := hcon.before_nothing hlinks
      obtain ⟨ref, href⟩ := createReferenceCast_some (program.convertArg expr param).llvmValue
        (convertArg_convertible hpsb)
      simp only [hst, href]
      split
      · exact hlkd _ (hin.before_nothing (moveNode_effect _ hne))
      · split
        · exact ⟨_, rfl, hrej _ hin⟩
        · split
          · exact ⟨_, rfl, hrej _ hin⟩
          · exact hlkd _ hin

omit hp

variable (linked)

def isBuilt (i : Nat) : Bool :=
  match linked.params[i]?, linked.exprs[i]? with
  | some param, some expr => (program.buildArg param expr.variable_).llvmValue.isSome
  | _, _ => false

def passSet (i : Nat) (n : CallNode) : Bool :=
  match linked.params[i]? with
  | some param => lockNodes linked i param (linked.isBuilt i) n
  | none => false

def passAdded (i : Nat) (n : CallNode) : Bool := (match linked.params[i]? with
    | some param => n == .arg i && param.valueType == .value
    | none => false) || linked.passSet i n

/-- Each mutable reference argument that is passable fits without a conversion. -/
def CastsFit : Prop := ∀ (i : Nat) (param : Param) (expr : Argument program),
  linked.params[i]? = some param → linked.exprs[i]? = some expr →
    CastFits program param expr.variable_

theorem addArgNode_effect (hcasts : linked.CastsFit) (s : ArgsNodes V) (i : Nat) :
    ∃ s', linked.addArgNode s i = some s' ∧
      linked.Effect (linked.passAdded i) (linked.passSet i) s s' := by
  have hlen : linked.exprs.length = linked.params.length := linked.call.length_exprs
  unfold addArgNode passAdded passSet isBuilt
  cases hp : linked.params[i]? with
  | none => exact ⟨s, rfl, effect_refl s⟩
  | some param =>
    have hlt : i < linked.exprs.length := by
      rw [hlen]
      exact (List.getElem?_eq_some_iff.1 hp).1
    obtain ⟨expr, hexpr⟩ : ∃ expr, linked.exprs[i]? = some expr := ⟨_, getElem?_eq_getElem hlt⟩
    have hinner : InnerFits linked i param expr.variable_ := linked.inner_passed i param expr hp hexpr
    simp only [hexpr]
    have hbd : linked.Effect nothing nothing s _ := buildExpression_effect i s
    by_cases hv : param.valueType = .value
    · obtain ⟨s', hst, heff⟩ := addValueArg_effect hp hinner (linked.buildExpression i s)
      refine ⟨s', by simpa [hv] using hst, (hbd.after_nothing heff).congr ?_ ?_⟩
      · intro n _
        simp [hv, buildArg]
      · intro n _
        simp [hv, buildArg]
    · obtain ⟨s', hst, heff⟩ :=
        addReferenceArg_effect hp (hcasts i param expr hp hexpr) hinner (linked.buildExpression i s)
      refine ⟨s', by simpa [hv] using hst, (hbd.after_nothing heff).congr ?_ ?_⟩
      · intro n _
        simp [hv, buildArg]
      · intro n _
        simp [hv, buildArg]

/-! ## All passes -/

theorem passSet_arg (i j : Nat) : linked.passSet j (.arg i) = (i == j && linked.isBuilt i) := by
  unfold passSet lockNodes
  by_cases hij : i = j
  · subst hij
    cases hp : linked.params[i]? with
    | none => simp [isBuilt, hp]
    | some param => simp
  · have hix : (i == j) = false := beq_eq_false_iff_ne.2 hij
    have hnode : (arg i == .arg j) = false := by simp [hij]
    cases linked.params[j]? with
    | none => rw [hix, Bool.false_and]
    | some param => simp [hix, hnode, secondOrderNodes_arg]

theorem passSet_secondOrder (i j tag : Nat) : linked.passSet j (.secondOrder i tag) =
    (i == j && linked.passSet i (.secondOrder i tag)) := by
  by_cases hij : i = j
  · subst hij
    rw [beq_self_eq_true, Bool.true_and]
  · have hnodes : ∀ param, secondOrderNodes linked j param (.secondOrder i tag) = false := by
      intro param
      rw [secondOrderNodes, any_eq_false]
      intro t _
      simp [hij]
    have hix : (i == j) = false := beq_eq_false_iff_ne.2 hij
    rw [hix]
    unfold passSet lockNodes
    cases linked.params[j]? with
    | none => rfl
    | some param => simp [hnodes]

def entersGraph (i : Nat) : Bool := (match linked.params[i]? with
    | some param => param.valueType == .value
    | none => false) || linked.isBuilt i

theorem passAdded_arg (i j : Nat) :
    linked.passAdded j (.arg i) = (i == j && linked.entersGraph i) := by
  unfold passAdded entersGraph
  rw [passSet_arg]
  by_cases hij : i = j
  · subst hij
    cases linked.params[i]? <;> simp
  · have hix : (i == j) = false := beq_eq_false_iff_ne.2 hij
    have hnode : (arg i == .arg j) = false := by simp [hij]
    rw [hix]
    cases linked.params[j]? with
    | none => rfl
    | some param =>
      rw [hnode]
      rfl

theorem passAdded_secondOrder (i j tag : Nat) : linked.passAdded j (.secondOrder i tag) =
    (i == j && linked.passSet i (.secondOrder i tag)) := by
  unfold passAdded
  rw [passSet_secondOrder]
  cases linked.params[j]? <;> simp

theorem lt_of_isBuilt (h : linked.isBuilt i = true) : i < linked.params.length := by
  unfold isBuilt at h
  cases hp : linked.params[i]? with
  | none =>
    rw [hp] at h
    cases h
  | some param => exact (List.getElem?_eq_some_iff.1 hp).1

theorem lt_of_entersGraph (h : linked.entersGraph i = true) : i < linked.params.length := by
  unfold entersGraph at h
  cases hp : linked.params[i]? with
  | none =>
    rw [hp] at h
    exact linked.lt_of_isBuilt h
  | some param => exact (List.getElem?_eq_some_iff.1 hp).1

theorem lt_of_passSet (h : linked.passSet i n = true) : i < linked.params.length := by
  unfold passSet at h
  cases hp : linked.params[i]? with
  | none =>
    rw [hp] at h
    cases h
  | some param => exact (List.getElem?_eq_some_iff.1 hp).1

theorem any_argNumbers {b : Bool} (h : b = true → i < linked.params.length) :
    (linked.call.argNumbers.any fun j => i == j && b) = b := by
  cases b with
  | false => simp
  | true =>
    have hmem : i ∈ linked.call.argNumbers := by
      rw [linked.call.mem_argNumbers, linked.call.length_builtArgs]
      exact h rfl
    rw [any_eq_true]
    exact ⟨i, hmem, by simp⟩

theorem any_secondOrder {added : Nat → CallNode → Bool} {tag : Nat}
    (h : ∀ j, added j (.secondOrder i tag) = (i == j && linked.passSet i (.secondOrder i tag))) :
    (linked.call.argNumbers.any fun j => added j (.secondOrder i tag)) =
      linked.passSet i (.secondOrder i tag) := by
  have heq : (fun j => added j (.secondOrder i tag)) =
    fun j => (i == j && linked.passSet i (.secondOrder i tag)) := funext h
  rw [heq, linked.any_argNumbers linked.lt_of_passSet]

/-- The loop does not return if a mutable reference needs a conversion. -/
theorem castsFit_of_lockArgs {locked : ArgsNodes V} (h : linked.lockArgs = some locked) :
    linked.CastsFit := by
  intro i param expr hp hexpr hparam hmut hpsb
  by_contra hconv
  rw [expr.variable_type] at hconv
  have hnone : ∀ s, linked.addArgNode s i = none := by
    intro s
    have hcast : ∀ ref, program.createReferenceCast ref expr.type param.type = none :=
      fun _ => if_pos (by rw [eq_false_of_ne_true hconv]; rfl)
    unfold addArgNode addReferenceArg
    simp [hp, hexpr, hparam, hmut, hpsb, hcast]
  have hloop : ∀ (ns : List Nat) (s : ArgsNodes V), i ∈ ns →
      ns.foldlM linked.addArgNode s = none := by
    intro ns
    induction ns with
    | nil => nofun
    | cons n ns ih =>
      intro s hmem
      rw [foldlM_cons]
      rcases mem_cons.1 hmem with rfl | hmem
      · rw [hnone]
        rfl
      · cases linked.addArgNode s n with
        | none => rfl
        | some s' => exact ih s' hmem
  have hi : i ∈ linked.call.argNumbers := by
    rw [linked.call.mem_argNumbers, linked.call.length_builtArgs]
    exact (List.getElem?_eq_some_iff.1 hp).1
  rw [lockArgs, hloop _ _ hi] at h
  cases h

structure Locked (locked : ArgsNodes V) : Prop where
  argsNodes : ∀ i, locked.argsNodes i =
    if linked.isBuilt i then some (linked.node (.arg i)) else none
  secondOrder : ∀ i tag, locked.secondOrderReferenceNodes i tag =
    if linked.passSet i (.secondOrder i tag) then some (linked.node (.secondOrder i tag)) else none
  argState : ∀ i, locked.graph.nodes.lookup (linked.node (.arg i)) =
    if linked.entersGraph i then some {} else none
  secondOrderState : ∀ i tag, locked.graph.nodes.lookup (linked.node (.secondOrder i tag)) =
    if linked.passSet i (.secondOrder i tag) then some {} else none
  unused : linked.ResultUnused locked

theorem lockArgs_returns (hcasts : linked.CastsFit) :
    ∃ lkd, linked.lockArgs = some lkd ∧ linked.Locked lkd := by
  let first : ArgsNodes V := ⟨linked.start, [], fun _ => none, fun _ _ => none⟩
  obtain ⟨s, hlp, -, heff⟩ := foldlM_effect (P := fun _ => True) linked.call.argNumbers
    (fun i _ s _ => by
      obtain ⟨s', hst, heff⟩ := linked.addArgNode_effect hcasts s i
      exact ⟨s', hst, trivial, heff⟩) first trivial
  have hlk : ∀ n, first.graph.nodes.lookup (linked.node n) = none :=
    fun n => AList.lookup_eq_none.2 (linked.notMem_start n)
  have hunu : linked.ResultUnused first := fun n _ l hl => (linked.untouched_start n l hl).1
  have hres : linked.Effect (fun n => n == .result) nothing s _ := addNode_effect s .result
  have hall := heff.trans hres
  refine ⟨_, by rw [lockArgs, hlp]; rfl, ?_, ?_, ?_, ?_, hall.unused hunu⟩
  · intro i
    rw [hall.argsNodes]
    simp only [passSet_arg, nothing, Bool.or_false, linked.any_argNumbers linked.lt_of_isBuilt]
    rfl
  · intro i tag
    rw [hall.secondOrder, linked.any_secondOrder fun j => linked.passSet_secondOrder i j tag,
      nothing, Bool.or_false]
  · intro i
    rw [hall.lookup _ rfl, hlk]
    simp only [passAdded_arg, linked.any_argNumbers linked.lt_of_entersGraph]
    simp
  · intro i tag
    rw [hall.lookup _ rfl, hlk,
      linked.any_secondOrder fun j => linked.passAdded_secondOrder i j tag]
    simp

end LinkedCall

end USprache.CodeBuilder.WithArgs.CallReferences
