import USprache.CodeBuilder.AsyncCallsExtraction

/-!
# The order of async inlining

First come the calls of the functions that reach no cycle, each behind the calls of its callee, then
those of the cycles and of what leads to them.  A function is removed once at most, and only if it
has no use.
-/

namespace USprache.CodeBuilder.AsyncCalls

open Library AsyncCallsGraph List Prod InliningOrder

variable {F I : Type} [DecidableEq F] {recorded : List (F × AsyncFunctionCall F I)}

omit [DecidableEq F] in
theorem reachesCycle_of_left
    {graph : AsyncCallsGraph F I} (h : Consistent (Edge recorded) .tails graph)
    (hpen : ∀ e ∈ graph, e.2.pending .tails ≠ []) {f : F} (hf : f ∈ functions graph) :
    ReachesCycle recorded f := by
  apply exists_cycle _ hf
  intro g hg
  obtain ⟨e, he, heq⟩ := mem_map.1 hg
  obtain ⟨k, hk⟩ := exists_mem_of_ne_nil _ (hpen e he)
  obtain ⟨hed, hmem⟩ := (h.pending e he k).1 hk
  rw [heq] at hed
  exact ⟨k, hmem, hed⟩

theorem restCalls_perm (g : AsyncCallsGraph F I) : (restCalls g).Perm (calls (order g)) := by
  have hes : ∀ (p : AsyncFunctionCall F I → Bool) (es : AsyncCallsGraph F I),
      (calls (es.map fun e =>
          (e.1, (takeOut p e.2.calls.length 0 e.2.calls).1)) ++
        calls (es.map fun e =>
          (e.1, (takeOut p e.2.calls.length 0 e.2.calls).2))).Perm
      (calls (order es)) := by
    intro p es
    induction es with
    | nil => exact .refl _
    | cons e es ih =>
      have hfst := ((takeOut_perm p e.2.calls.length 0 e.2.calls).map fun c => (e.1, c)).symm
      rw [map_append] at hfst
      refine .trans ?_ (hfst.append ih)
      rw [append_assoc]
      show (_ ++ _ ++ (_ ++ _) : List (F × AsyncFunctionCall F I)).Perm _
      rw [append_assoc]
      refine Perm.append_left _ ?_
      rw [← append_assoc, ← append_assoc]
      exact Perm.append_right _ perm_append_comm
  unfold restCalls
  simp only [List.map_map]
  exact hes _ g

/-- A call that comes before another one is not to its function, unless that reaches a cycle. -/
def CalleeFirst (recorded : List (F × AsyncFunctionCall F I))
    (call later : F × AsyncFunctionCall F I) : Prop :=
  later.1 = call.2.function → ReachesCycle recorded later.1

omit [DecidableEq F] in
theorem calleeFirst_calls {taken : InliningOrder F I} (hord : taken.Pairwise fun e later =>
      ¬ Edge recorded e.1 later.1)
    (hrec : ∀ c ∈ calls taken, c ∈ recorded) :
    (calls taken).Pairwise (CalleeFirst recorded) := by
  refine pairwise_flatMap.2 ⟨?_, ?_⟩
  · -- Two calls of one function: the first one would be to itself.
    intro e he
    apply pairwise_map.2
    apply pairwise_of_forall_mem_list
    intro c hca later _ heq
    have hmem := hrec (e.1, c) (mem_calls.2 ⟨e.2, he, hca⟩)
    exact ⟨e.1, .refl, .single ⟨c, hmem, heq.symm⟩⟩
  · apply hord.imp_of_mem
    intro e later he _ hed c hca other ho heq
    obtain ⟨c', hca', rfl⟩ := mem_map.1 hca
    obtain ⟨other', -, rfl⟩ := mem_map.1 ho
    have hmem := hrec (e.1, c') (mem_calls.2 ⟨e.2, he, hca'⟩)
    exact absurd ⟨c', hmem, heq.symm⟩ hed

omit [DecidableEq F] in
theorem removeFunctions_spec {M : Type} (actions : ModuleActions M F I) : ∀ candidates module_,
    (∀ removal ∈ (removeFunctions actions candidates module_).2,
      actions.hasUses removal.1 removal.2 = false) ∧
    ((removeFunctions actions candidates module_).2.map snd).Sublist candidates := by
  intro candidates
  induction candidates with
  | nil =>
    intro module_
    exact ⟨nofun, .slnil⟩
  | cons f candidates ih =>
    intro module_
    rw [removeFunctions]
    split
    · rename_i hremo
      obtain ⟨hus, hsub⟩ := ih (actions.eraseFromParent f module_)
      rw [Bool.and_eq_true, Bool.not_eq_true'] at hremo
      refine ⟨fun removal hrem => ?_, hsub.cons_cons _⟩
      rcases mem_cons.1 hrem with heq | hrem
      · rw [heq]
        exact hremo.2
      · exact hus removal hrem
    · obtain ⟨hus, hsub⟩ := ih module_
      exact ⟨hus, hsub.cons _⟩

/-- The pass returns.  It passes every recorded call on once, those of a function that reaches no
cycle before all calls of it, and removes nothing that is still used. -/
theorem inlineAsyncCalls_ordered {M : Type} (actions : ModuleActions M F I) (module_ : M)
    (isSingleAwait : I → Bool) (functions : List (ModuleFunction F I)) {graph : AsyncCallsGraph F I}
    (hgraph : graph.Perm (buildAsyncCallsGraph isSingleAwait functions)) :
    ∃ inlined, inlineAsyncCalls actions graph module_ = some inlined ∧
      inlined.calls.Perm (recordedCalls isSingleAwait functions) ∧
      (∀ before f call after, inlined.calls = before ++ (f, call) :: after →
        ¬ ReachesCycle (recordedCalls isSingleAwait functions) call.function →
        ∀ other, (call.function, other) ∈ recordedCalls isSingleAwait functions →
          (call.function, other) ∈ before ∧ (call.function, other) ∉ after) ∧
      (∀ removal ∈ inlined.removals, actions.hasUses removal.1 removal.2 = false) ∧
      (inlined.removals.map snd).Nodup := by
  let recorded := recordedCalls isSingleAwait functions
  have hbuilt : Built recorded graph := (built_foldl recorded).perm hgraph.symm
  obtain ⟨middle, head, hhead, htails, hpending⟩ :=
    extract_spec (graph.length + 1) graph hbuilt.consistent (Nat.lt_succ_self _)
  obtain ⟨left, inverseTail, htail, hheads, -⟩ :=
    extract_spec (middle.length + 1) middle htails.consistent.turned (Nat.lt_succ_self _)
  have hcycles : ∀ f, f ∈ AsyncCallsGraph.functions middle → ReachesCycle recorded f :=
    fun f hf => reachesCycle_of_left htails.consistent hpending hf
  have hrest : (restCalls left ++ calls inverseTail.reverse).Perm (calls (order middle)) := by
    have hperm := calls_perm hheads.entries
    rw [calls_append] at hperm
    exact (Perm.append (restCalls_perm left)
      (calls_perm (reverse_perm inverseTail))).trans (perm_append_comm.trans hperm)
  have hperm : (calls head ++ (restCalls left ++ calls inverseTail.reverse)).Perm recorded := by
    have hentries := calls_perm htails.entries
    rw [calls_append] at hentries
    exact ((hrest.append_left _).trans hentries).trans hbuilt.calls
  have hfirst : (calls head ++ (restCalls left ++ calls inverseTail.reverse)).Pairwise
        (CalleeFirst recorded) := by
    have hlater : ∀ later ∈ restCalls left ++ calls inverseTail.reverse,
        ReachesCycle recorded later.1 := by
      intro later hlater
      obtain ⟨calls, hmem, -⟩ := mem_calls.1 (hrest.mem_iff.1 hlater)
      apply hcycles
      rw [← functions_order]
      exact mem_map_of_mem hmem
    refine pairwise_append.2 ⟨?_, ?_, ?_⟩
    · exact calleeFirst_calls htails.ordered fun call hcall =>
        hperm.mem_iff.1 (mem_append_left _ hcall)
    · exact pairwise_of_forall_mem_list fun call _ later hmem _ => hlater later hmem
    · exact fun call _ later hmem _ => hlater later hmem
  have hcandidates : (head.map fst ++ inverseTail.map fst ++
      AsyncCallsGraph.functions left).Nodup := by
    rw [append_assoc]
    have hmiddle := hheads.functions_perm.append_left (head.map fst)
    exact (hmiddle.trans htails.functions_perm).nodup_iff.2 hbuilt.links.nodup
  rw [inlineAsyncCalls, hhead, Option.bind_some, htail]
  refine ⟨_, rfl, hperm, ?_, ?_, ?_⟩
  · intro before f call after heq hcycle other hother
    change calls head ++
      (restCalls left ++ calls inverseTail.reverse) = before ++ (f, call) :: after at heq
    have hsplit := hfirst
    rw [heq] at hsplit
    have hafter : (call.function, other) ∉ after := by
      intro hmem
      have hpair := (pairwise_cons.1 (pairwise_append.1 hsplit).2.1).1 _ hmem
      exact hcycle (hpair rfl)
    refine ⟨?_, hafter⟩
    have hmem := hperm.mem_iff.2 hother
    rw [heq] at hmem
    rcases mem_append.1 hmem with hmem | hmem
    · exact hmem
    · rcases mem_cons.1 hmem with hself | hmem
      · -- A call of the callee itself would be a cycle.
        have hf : call.function = f := congrArg fst hself
        have hcall : (f, call) ∈ recorded := hperm.mem_iff.1 (by
          rw [heq]
          simp)
        exact absurd ⟨f, by rw [hf], .single ⟨call, hcall, hf⟩⟩ hcycle
      · exact absurd hmem hafter
  · exact (removeFunctions_spec actions _ _).1
  · exact (removeFunctions_spec actions _ _).2.nodup hcandidates

/-- A function that calls itself and is called, and one that calls nothing. -/
def recursiveFunctions : List (ModuleFunction Nat Nat) :=
  [⟨0, true, [⟨10, 1⟩, ⟨11, 2⟩]⟩, ⟨1, true, [⟨12, 1⟩, ⟨13, 2⟩]⟩, ⟨2, true, []⟩]

/-- No function has a use, and nothing happens to the module. -/
def idleActions : ModuleActions Unit Nat Nat where
  inlineCallIfNotDirectlyRecursive _ _ module_ := module_
  hasPrivateLinkage _ _ := true
  hasUses _ _ := false
  eraseFromParent _ module_ := module_

theorem inlineAsyncCalls_ordered_recursive : ∃ inlined, inlineAsyncCalls idleActions
      (buildAsyncCallsGraph (fun _ => true) recursiveFunctions).reverse () = some inlined ∧
    inlined.calls.Perm (recordedCalls (fun _ => true) recursiveFunctions) := by
  obtain ⟨inlined, hrun, hperm, -⟩ := inlineAsyncCalls_ordered idleActions () (fun _ => true)
    recursiveFunctions (reverse_perm _)
  exact ⟨inlined, hrun, hperm⟩

end USprache.CodeBuilder.AsyncCalls
