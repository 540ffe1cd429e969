import USprache.BuildSystem.SchedulingSafety

/-!
# Completeness of the execution

If no command fails and every process finishes some time then the build ends.  It ends
well exactly if no marked node depends on itself through marked nodes, and then every
marked node was executed once.
-/

namespace USprache.BuildSystem

open List

/-- Every process that runs long enough closes its pipe. -/
def Environment.Fair (env : Environment) : Prop :=
  ∀ call i, ∃ call', call ≤ call' ∧ env.closes call' i = true

namespace Build

open Library Relation

def MarkedProducer (build : Build) (j i : Nat) : Prop :=
  build.Marked j ∧ build.Marked i ∧ Produces build.nodes j i

def Acyclic (build : Build) : Prop := ∀ i, ¬TransGen build.MarkedProducer i i

section Runs

variable {build : Build} {env : Environment} {st : BuildState}

theorem loop_trace (hjobs : 1 ≤ build.maxNumberOfParallelJobs) : ∀ fuel c st, Inv build st →
    st.processGroup.finishedProcesses = [] →
    Trace.Always build.EventOk (build.loop env fuel c st).state.log := by
  intro fuel
  induction fuel with
  | zero => exact fun _ _ h _ => h.trace
  | succ fuel ih =>
    intro c st h htkn
    have htn := turn_spec env c hjobs h htkn
    rw [loop]
    cases hres : build.turn env c st with
    | running st' =>
      rw [hres] at htn
      exact ih (c + 1) st' htn.1 htn.2.1
    | returned result st' =>
      rw [hres] at htn
      exact htn.1

theorem loop_ended (hjobs : 1 ≤ build.maxNumberOfParallelJobs) : ∀ fuel c st, Inv build st →
    st.processGroup.finishedProcesses = [] → ∀ r st',
    build.loop env fuel c st = .returned r st' →
    r = false ∧ env.Fails ∨ Ended build r st' := by
  intro fuel
  induction fuel with
  | zero =>
    intro c st _ _ r st' h
    cases h
  | succ fuel ih =>
    intro c st h htkn r st' hlp
    have htn := turn_spec env c hjobs h htkn
    rw [loop] at hlp
    cases hres : build.turn env c st with
    | running st1 =>
      rw [hres] at htn hlp
      exact ih (c + 1) st1 htn.1 htn.2.1 r st' hlp
    | returned result1 st1 =>
      rw [hres] at htn hlp
      cases hlp
      exact htn.2

def Ends (build : Build) (env : Environment) (call : Nat) (st : BuildState) : Prop :=
  ∃ fuel result st', build.loop env fuel call st = .returned result st'

theorem ends_of_turn {c : Nat}
    (h : ∀ st', build.turn env c st = .running st' → Ends build env (c + 1) st') :
    Ends build env c st := by
  cases hres : build.turn env c st with
  | running st' =>
    obtain ⟨fuel, r, st'', hlp⟩ := h st' hres
    refine ⟨fuel + 1, r, st'', ?_⟩
    rw [loop, hres]
    exact hlp
  | returned r st' =>
    refine ⟨1, r, st', ?_⟩
    rw [loop, hres]

/-- The outer induction is on the nodes that are not finished, the inner one on the calls of
`DoWork` up to the one in which a process that runs now closes its pipe. -/
theorem loop_ends (hjobs : 1 ≤ build.maxNumberOfParallelJobs) (hfair : env.Fair) :
    ∀ (l c : Nat) (st : BuildState), Inv build st → st.processGroup.finishedProcesses = [] →
      build.numNodesToRebuild - st.buildStepsFinished ≤ l → Ends build env c st := by
  intro l
  induction l using Nat.strong_induction_on with
  | _ l ih =>
    -- A command finished, so fewer are left.
    have hlt : ∀ (c : Nat) (st st' : BuildState), Inv build st' → st'.processGroup.finishedProcesses = [] →
        st'.buildStepsFinished < build.numNodesToRebuild →
        build.numNodesToRebuild - st.buildStepsFinished ≤ l →
        st.buildStepsFinished < st'.buildStepsFinished → Ends build env c st' := by
      intro c st st' hinv htkn hend hl hc
      exact ih (build.numNodesToRebuild - st'.buildStepsFinished) (by omega) c st' hinv htkn
        (le_refl _)
    have hrun : ∀ (turns c : Nat) (st : BuildState) (i : Nat), Inv build st →
        st.processGroup.finishedProcesses = [] →
        build.numNodesToRebuild - st.buildStepsFinished ≤ l →
        i ∈ st.processGroup.runningProcesses → env.closes (c + turns) i = true →
        Ends build env c st := by
      intro turns
      induction turns with
      | zero =>
        intro c st i h htkn hl hi hclo
        refine ends_of_turn (fun st' htn => ?_)
        have hsp := turn_spec env c hjobs h htkn
        rw [htn] at hsp
        obtain ⟨hinv, htkn', hend, hc | ⟨-, -, hall⟩⟩ := hsp
        · exact hlt _ st st' hinv htkn' hend hl hc
        · have hopen := (hall i hi).2
          rw [add_zero] at hclo
          rw [hclo] at hopen
          cases hopen
      | succ turns ihturns =>
        intro c st i h htkn hl hi hclo
        refine ends_of_turn (fun st' htn => ?_)
        have hsp := turn_spec env c hjobs h htkn
        rw [htn] at hsp
        obtain ⟨hinv, htkn', hend, hc | ⟨hc, -, hall⟩⟩ := hsp
        · exact hlt _ st st' hinv htkn' hend hl hc
        · refine ihturns (c + 1) st' i hinv htkn' (by omega) (hall i hi).1 ?_
          rw [Nat.add_right_comm]
          exact hclo
    intro c st h htkn hl
    refine ends_of_turn (fun st' htn => ?_)
    have hsp := turn_spec env c hjobs h htkn
    rw [htn] at hsp
    obtain ⟨hinv, htkn', hend, hc | ⟨hc, hne, -⟩⟩ := hsp
    · exact hlt _ st st' hinv htkn' hend hl hc
    · obtain ⟨i, rest, hco⟩ := exists_cons_of_ne_nil hne
      have hi : i ∈ st'.processGroup.runningProcesses := by
        rw [hco]
        exact mem_cons_self
      obtain ⟨c', hle, hclo⟩ := hfair (c + 1) i
      refine hrun (c' - (c + 1)) (c + 1) st' i hinv htkn' (by omega) hi ?_
      rw [Nat.add_sub_cancel' hle]
      exact hclo

def markedNodes (build : Build) : List Nat := (build.nodesToRebuild.zipIdx.filter (·.1)).map (·.2)

variable {i : Nat}

theorem mem_markedNodes : i ∈ build.markedNodes ↔ build.Marked i := by
  rw [markedNodes, mem_map]
  constructor
  · rintro ⟨⟨rebuild, k⟩, hmem, rfl⟩
    obtain ⟨hmem, htr⟩ := mem_filter.1 hmem
    have hget := mem_zipIdx_iff_getElem?.1 hmem
    rw [htr] at hget
    exact hget
  · intro h
    exact ⟨(true, i), mem_filter.2 ⟨mem_zipIdx_iff_getElem?.2 h, rfl⟩, rfl⟩

theorem length_markedNodes (build : Build) :
    build.markedNodes.length = build.numNodesToRebuild := by
  have hc := congrArg (count true) (zipIdx_map_fst 0 build.nodesToRebuild)
  rw [count, countP_map, countP_eq_length_filter] at hc
  rw [markedNodes, length_map, numNodesToRebuild, count, ← hc]
  congr 2
  funext pair
  obtain ⟨rebuild, k⟩ := pair
  cases rebuild <;> rfl

theorem nodup_markedNodes (build : Build) : build.markedNodes.Nodup := by
  have hsub := (filter_sublist (p := fun pr : Bool × Nat => pr.1)
    (l := build.nodesToRebuild.zipIdx)).map (fun pr => pr.2)
  refine hsub.nodup ?_
  rw [show build.nodesToRebuild.zipIdx.map (fun pr => pr.2) = _ from
    zipIdx_map_snd 0 build.nodesToRebuild]
  exact nodup_range'

theorem nodup_of_trace {log : List Event} (h : Trace.Always build.EventOk log) : log.Nodup := by
  refine h.nodup (fun before e he => ?_)
  cases e with
  | started i => exact he.2.1
  | finished i => exact he.2

variable (h : Inv build st)

include h

theorem Inv.nodup_startedNodes : (startedNodes st.log).Nodup := by
  refine (nodup_of_trace h.trace).filterMap (fun e e' i he he' => ?_)
  cases e with
  | finished j => cases he
  | started j =>
    cases e' with
    | finished k => cases he'
    | started k =>
      cases he
      cases he'
      rfl

theorem Inv.marked_of_started (hi : .started i ∈ st.log) : build.Marked i := by
  obtain ⟨pre, post, hsp⟩ := append_of_mem hi
  exact (h.trace pre _ post hsp).1

theorem Inv.all_started
    (hc : build.numNodesToRebuild ≤ st.buildStepsStarted) (hi : build.Marked i) :
    .started i ∈ st.log := by
  have hsub : startedNodes st.log ⊆ build.markedNodes :=
    fun j hj => mem_markedNodes.2 (h.marked_of_started (mem_startedNodes.1 hj))
  have hpm := (subperm_of_subset h.nodup_startedNodes hsub).perm_of_length_le
    (by rw [length_markedNodes, ← h.started_count]; exact hc)
  exact mem_startedNodes.1 (hpm.mem_iff.2 (mem_markedNodes.2 hi))

theorem Inv.started_le : st.buildStepsStarted ≤ build.numNodesToRebuild := by
  have hsub : startedNodes st.log ⊆ build.markedNodes :=
    fun j hj => mem_markedNodes.2 (h.marked_of_started (mem_startedNodes.1 hj))
  rw [h.started_count, ← length_markedNodes]
  exact (subperm_of_subset h.nodup_startedNodes hsub).length_le

theorem Inv.precedes : Precedes build.MarkedProducer (startedNodes st.log) := by
  intro pre i after hsp j hji
  obtain ⟨l1, l2, hlog, hbef, haf⟩ := filterMap_eq_append_iff.1 hsp
  obtain ⟨m1, e, m2, rfl, hno, he, -⟩ := filterMap_eq_cons_iff.1 haf
  cases e with
  | finished k => cases he
  | started k =>
    cases he
    rw [← append_assoc] at hlog
    have hfin := (h.trace _ _ _ hlog).2.2 j hji.1 hji.2.2
    -- The finish of the producer has its start before it.
    obtain ⟨l, l', hsp'⟩ := append_of_mem hfin
    have hstd : .started j ∈ l := by
      refine (h.trace l (.finished j) (l' ++ .started i :: m2) ?_).1
      rw [hlog, hsp', append_assoc]
      rfl
    have hmem : .started j ∈ l1 ++ m1 := hsp' ▸ mem_append_left _ hstd
    rcases mem_append.1 hmem with hmem | hmem
    · rw [← hbef]
      exact mem_startedNodes.2 hmem
    · exact absurd (hno _ hmem) (by simp [startedIndex])

theorem Inv.not_ready (hi : i < build.nodes.length)
    (hne : st.nodesState[i]? ≠ some .ready) :
    (build.Marked i ∧ .started i ∉ st.log) ∨ i ∈ st.processGroup.active := by
  rw [← h.length] at hi
  rw [← h.required, ← h.active]
  rw [getElem?_eq_getElem hi] at hne ⊢
  cases hs : st.nodesState[i] with
  | ready => exact absurd (congrArg some hs) hne
  | rebuildRequired => exact .inl rfl
  | rebuildInProgress => exact .inr rfl

theorem all_ready_iff : st.nodesState.all (fun state => state = .ready) = true ↔
    (∀ i, build.Marked i → .started i ∈ st.log) ∧ st.processGroup.active = [] := by
  rw [all_eq_true]
  constructor
  · intro hall
    have hrdy : ∀ (i : Nat) (state : BuildGraphNodeState),
        st.nodesState[i]? = some state → state = .ready :=
      fun i state hi => of_decide_eq_true (hall state (mem_of_getElem? hi))
    refine ⟨fun i hi => ?_, ?_⟩
    · by_contra hnot
      cases hrdy i _ ((h.required i).2 ⟨hi, hnot⟩)
    · by_contra hne
      obtain ⟨i, rest, hco⟩ := exists_cons_of_ne_nil hne
      have hi : i ∈ st.processGroup.active := by
        rw [hco]
        exact mem_cons_self
      cases hrdy i _ ((h.active i).2 hi)
  · rintro ⟨hstd, hact⟩ state hmem
    obtain ⟨i, hi, hs⟩ := getElem_of_mem hmem
    by_contra hne
    have hnot : st.nodesState[i]? ≠ some .ready := by
      rw [getElem?_eq_getElem hi, hs]
      intro heq
      cases heq
      exact hne (decide_eq_true rfl)
    rcases h.not_ready (h.length ▸ hi) hnot with ⟨hmk, hnew⟩ | hmem
    · exact hnew (hstd i hmk)
    · rw [hact] at hmem
      exact not_mem_nil hmem

omit h in
theorem Marked.lt (h : build.Marked i) : i < build.nodes.length := by
  rw [← build.size_eq]
  exact (List.getElem?_eq_some_iff.1 h).1

theorem Stuck.not_acyclic (hstu : Stuck build st) : ¬build.Acyclic := by
  intro hacy
  have hc := h.finished_count
  have hact : st.processGroup.active = [] := by
    have hle := hstu.all_finished
    exact length_eq_zero_iff.1 (by omega)
  have hfin : { i | build.Marked i ∧ .started i ∉ st.log }.Finite :=
    Set.Finite.subset (Set.finite_lt_nat build.nodes.length) (fun i hi => hi.1.lt)
  have hl : { i | build.Marked i ∧ .started i ∉ st.log }.Nonempty := by
    by_contra he
    have hall : build.markedNodes ⊆ startedNodes st.log := by
      intro i hi
      by_contra hnot
      exact he ⟨i, mem_markedNodes.1 hi, fun hs => hnot (mem_startedNodes.2 hs)⟩
    have hlen := (subperm_of_subset build.nodup_markedNodes hall).length_le
    rw [length_markedNodes, ← h.started_count] at hlen
    exact absurd hstu.left (Nat.not_lt_of_le hlen)
  obtain ⟨i, ⟨hmk, hnew⟩, hmin⟩ := exists_without_predecessors hfin hl hacy
  have hreq := (h.required i).2 ⟨hmk, hnew⟩
  obtain ⟨j, hpro, hne⟩ := nodeToRebuildIndex_eq_none hstu.none_selected hmk.lt hreq
  obtain ⟨m, -, -, hm, -⟩ := id hpro
  rcases h.not_ready (List.getElem?_eq_some_iff.1 hm).1 hne with hj | hj
  · exact hmin j hj ⟨hj.1, hmk, hpro⟩
  · rw [hact] at hj
    exact not_mem_nil hj

omit h

theorem Ended.result_iff {r : Bool} (h : Ended build r st) : r = true ↔ build.Acyclic := by
  rw [h.result_eq, all_ready_iff h.inv]
  constructor
  · rintro ⟨hall, -⟩ i hii
    have hmk : build.Marked i := by
      obtain ⟨j, hij, -⟩ := TransGen.head'_iff.1 hii
      exact hij.1
    exact h.inv.precedes.not_transGen_self (mem_startedNodes.2 (hall i hmk)) hii
  · intro hacy
    rcases h.ends with hfin | hstu
    · have hc := h.inv.finished_count
      have hle := h.inv.started_le
      exact ⟨fun i hi => h.inv.all_started (by omega) hi, length_eq_zero_iff.1 (by omega)⟩
    · exact absurd hacy (Stuck.not_acyclic h.inv hstu)

def ExecutedOnce (log : List Event) (i : Nat) : Prop :=
  log.count (.started i) = 1 ∧ log.count (.finished i) = 1

theorem Ended.executedOnce (h : Ended build true st) (hi : build.Marked i) :
    ExecutedOnce st.log i := by
  obtain ⟨hall, hact⟩ := (all_ready_iff h.inv).1 h.result_eq.symm
  have hlog := nodup_of_trace h.inv.trace
  have hidle : i ∉ st.processGroup.runningProcesses := by
    rw [(append_eq_nil_iff.1 hact).1]
    exact not_mem_nil
  have hfin := (h.inv.finished_iff i).2 ⟨hall i hi, hidle⟩
  exact ⟨count_eq_one_of_mem hlog (hall i hi), count_eq_one_of_mem hlog hfin⟩

theorem ended_start (h : build.numNodesToRebuild = 0) : Ended build true build.start where
  inv := inv_start build
  result_eq := by
    symm
    rw [all_ready_iff (inv_start build)]
    refine ⟨fun i hi => ?_, rfl⟩
    have hnil : build.markedNodes = [] := by
      rw [← length_eq_zero_iff, length_markedNodes, h]
    exact absurd (mem_markedNodes.2 hi) (hnil ▸ not_mem_nil)
  ends := .inl (le_of_eq h)

theorem perform_trace (hjobs : 1 ≤ build.maxNumberOfParallelJobs) (env : Environment)
    (fuel : Nat) : Trace.Always build.EventOk (build.perform env fuel).state.log := by
  unfold perform
  by_cases hz : build.numNodesToRebuild = 0
  · rw [if_pos hz]
    exact (inv_start build).trace
  · rw [if_neg hz]
    exact loop_trace hjobs fuel 0 _ (inv_start build) rfl

theorem perform_ended (hjobs : 1 ≤ build.maxNumberOfParallelJobs) {fuel : Nat} {r : Bool}
    (h : build.perform env fuel = .returned r st) :
    r = false ∧ env.Fails ∨ Ended build r st := by
  unfold perform at h
  by_cases hz : build.numNodesToRebuild = 0
  · rw [if_pos hz] at h
    cases h
    exact .inr (ended_start hz)
  · rw [if_neg hz] at h
    exact loop_ended hjobs fuel 0 _ (inv_start build) rfl r st h

theorem perform_ends (hjobs : 1 ≤ build.maxNumberOfParallelJobs) (hfair : env.Fair) :
    ∃ fuel r st, build.perform env fuel = .returned r st := by
  by_cases hz : build.numNodesToRebuild = 0
  · exact ⟨0, true, build.start, if_pos hz⟩
  · obtain ⟨fuel, r, st, h⟩ := loop_ends hjobs hfair _ 0 _ (inv_start build) rfl (le_refl _)
    exact ⟨fuel, r, st, (if_neg hz).trans h⟩

/-- The execution is safe at every moment, whatever happens.  If nothing fails it ends, with
success exactly if there are no cycles among marked nodes. -/
theorem perform_safe_and_complete (build : Build) (hjobs : 1 ≤ build.maxNumberOfParallelJobs)
    (env : Environment) :
    (∀ fuel before i after, (build.perform env fuel).state.log = before ++ .started i :: after →
      build.Marked i ∧ .started i ∉ before ∧ .started i ∉ after ∧
        ∀ j, build.Marked j → Produces build.nodes j i → .finished j ∈ before) ∧
    (¬env.Fails → (env.Fair → ∃ fuel result st, build.perform env fuel = .returned result st) ∧
      ∀ fuel result st, build.perform env fuel = .returned result st →
        (result = true ↔ build.Acyclic) ∧
        (result = true → ∀ i, build.Marked i → ExecutedOnce st.log i)) := by
  refine ⟨fun fuel before i after hlog => ?_, fun hno => ⟨perform_ends hjobs, ?_⟩⟩
  · have htrace := perform_trace hjobs env fuel
    obtain ⟨hmarked, hbefore, hproducers⟩ := htrace before _ after hlog
    refine ⟨hmarked, hbefore, fun hafter => ?_, hproducers⟩
    have hnodup := nodup_of_trace htrace
    rw [hlog, nodup_append] at hnodup
    exact (nodup_cons.1 hnodup.2.1).1 hafter
  · intro fuel result st h
    have hended := (perform_ended hjobs h).resolve_left (fun hfailed => hno hfailed.2)
    refine ⟨hended.result_iff, fun htrue i hi => ?_⟩
    subst htrue
    exact hended.executedOnce hi

def compileAndCopy : Build where
  nodes := [ ⟨⟨SpecialBuildCommands.copyFile, [], [], [], [LexSynt.asciiText "a.o"],
      [LexSynt.asciiText "b.o"]⟩, none⟩,
    ⟨⟨LexSynt.asciiText "compiler", [], [], [], [LexSynt.asciiText "a.u"],
      [LexSynt.asciiText "a.o"]⟩, none⟩]
  nodesToRebuild := [true, true]
  maxNumberOfParallelJobs := 1
  size_eq := rfl

/-- Nothing fails, and every process finishes at once. -/
def quickEnvironment : Environment where
  starts _ := true
  succeeds _ := true
  polls _ := true
  closes _ _ := true

theorem perform_safe_and_complete_compileAndCopy :
    1 ≤ compileAndCopy.maxNumberOfParallelJobs ∧ ∃ st,
      compileAndCopy.perform quickEnvironment 2 = .returned true st ∧
      st.log = [.started 1, .finished 1, .started 0, .finished 0] ∧ compileAndCopy.Acyclic := by
  obtain ⟨st, hst, hlog⟩ : ∃ st, compileAndCopy.perform quickEnvironment 2 = .returned true st ∧
      st.log = [.started 1, .finished 1, .started 0, .finished 0] := ⟨_, rfl, rfl⟩
  have hno : ¬quickEnvironment.Fails := by
    rintro (⟨_, h⟩ | ⟨_, h⟩ | ⟨_, h⟩) <;> cases h
  refine ⟨le_refl 1, st, hst, hlog, ?_⟩
  exact (((perform_safe_and_complete compileAndCopy (le_refl 1) quickEnvironment).2 hno).2
    2 true st hst).1.1 rfl

end Runs

end Build
end USprache.BuildSystem
