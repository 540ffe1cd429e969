import USprache.BuildSystem.Scheduling
import USprache.Library.Trace

/-!
# Order of execution

A node is started only after every marked node that produces one of its files has finished,
and no node is started twice.  This holds of the log at every moment, whatever
commands do, and follows from an invariant of the build loop that relates the log to the
states of nodes.
-/

namespace USprache.BuildSystem

open List Nat

def Environment.Fails (env : Environment) : Prop :=
  (∃ i, env.starts i = false) ∨ (∃ i, env.succeeds i = false) ∨ ∃ call, env.polls call = false

def ProcessGroup.active (group : ProcessGroup) : List Nat :=
  group.runningProcesses ++ group.finishedProcesses

namespace Build

open Library

variable (build : Build)

def Marked (i : Nat) : Prop := build.nodesToRebuild[i]? = some true

def EventOk (before : List Event) : Event → Prop
  | .started i => build.Marked i ∧ .started i ∉ before ∧
      ∀ j, build.Marked j → Produces build.nodes j i → .finished j ∈ before
  | .finished i => .started i ∈ before ∧ .finished i ∉ before

def startedIndex : Event → Option Nat
  | .started i => some i
  | .finished _ => none

def startedNodes (log : List Event) : List Nat := log.filterMap startedIndex

theorem mem_startedNodes {log : List Event} {i : Nat} :
    i ∈ startedNodes log ↔ .started i ∈ log := by
  rw [startedNodes, mem_filterMap]
  constructor
  · rintro ⟨e, he, hi⟩
    cases e with
    | started j =>
      cases hi
      exact he
    | finished j => cases hi
  · exact fun h => ⟨_, h, rfl⟩

structure Inv (st : BuildState) : Prop where
  trace : Trace.Always build.EventOk st.log
  length : st.nodesState.length = build.nodes.length
  required : ∀ i, st.nodesState[i]? = some .rebuildRequired ↔ build.Marked i ∧ .started i ∉ st.log
  active : ∀ i, st.nodesState[i]? = some .rebuildInProgress ↔ i ∈ st.processGroup.active
  nodup : (st.processGroup.active).Nodup
  active_started : ∀ i ∈ st.processGroup.active, .started i ∈ st.log
  finished_iff : ∀ i, .finished i ∈ st.log ↔
    .started i ∈ st.log ∧ i ∉ st.processGroup.runningProcesses
  started_count : st.buildStepsStarted = (startedNodes st.log).length
  finished_count : st.buildStepsFinished + (st.processGroup.active).length = st.buildStepsStarted

theorem inv_start : Inv build build.start where
  trace := .nil
  length := (length_map _).trans build.size_eq
  required i := by
    simp only [start, getElem?_map, Marked]
    cases build.nodesToRebuild[i]? with
    | none => simp
    | some rebuild => cases rebuild <;> simp
  active i := by
    simp only [start, ProcessGroup.active]
    cases build.nodesToRebuild[i]? with
    | none => simp
    | some rebuild => cases rebuild <;> simp
  nodup := nodup_nil
  active_started i hi := nomatch hi
  finished_iff i := by simp [start]
  started_count := rfl
  finished_count := rfl

section Steps

variable {build} {env : Environment} {st : BuildState}

variable {i : Nat} {nodesState : List BuildGraphNodeState} {running : List Nat}

theorem canStartRebuild_iff {n : LoadedNode} (hn : build.nodes[i]? = some n) :
    canStartRebuild (buildOutputFileToNodeIndexMap build.nodes) nodesState n = true ↔
      ∀ j, Produces build.nodes j i → nodesState[j]? = some .ready := by
  rw [canStartRebuild, all_eq_true]
  constructor
  · rintro h j ⟨m, n', file, hm, hn', hout, hin⟩
    rw [hn] at hn'
    cases hn'
    have hall := all_eq_true.1 (h file hin) j (mem_buildOutputFileToNodeIndexMap.2 ⟨m, hm, hout⟩)
    exact of_decide_eq_true hall
  · intro h file hin
    rw [all_eq_true]
    intro j hj
    obtain ⟨m, hm, hout⟩ := mem_buildOutputFileToNodeIndexMap.1 hj
    exact decide_eq_true (h j ⟨m, n, file, hm, hn, hout, hin⟩)

theorem nodeToRebuildIndex_eq_some (h : build.nodeToRebuildIndex nodesState = some i) :
    nodesState[i]? = some .rebuildRequired ∧
      ∀ j, Produces build.nodes j i → nodesState[j]? = some .ready := by
  obtain ⟨⟨n, k⟩, hmem, hif⟩ := exists_of_findSome?_eq_some h
  have hn : build.nodes[k]? = some n := mem_zipIdx_iff_getElem?.1 hmem
  dsimp only at hif
  split at hif
  · rename_i hcond
    cases hif
    rw [Bool.and_eq_true, decide_eq_true_iff] at hcond
    exact ⟨hcond.1, (canStartRebuild_iff hn).1 hcond.2⟩
  · cases hif

theorem nodeToRebuildIndex_eq_none
    (h : build.nodeToRebuildIndex nodesState = none) (hi : i < build.nodes.length)
    (hreq : nodesState[i]? = some .rebuildRequired) :
    ∃ j, Produces build.nodes j i ∧ nodesState[j]? ≠ some .ready := by
  by_contra hall
  have hrdy : ∀ j, Produces build.nodes j i → nodesState[j]? = some .ready := by
    intro j hj
    by_contra hne
    exact hall ⟨j, hj, hne⟩
  have hn : build.nodes[i]? = some build.nodes[i] := getElem?_eq_getElem hi
  have hno := findSome?_eq_none_iff.1 h (build.nodes[i], i) (mem_zipIdx_iff_getElem?.2 hn)
  dsimp only at hno
  rw [if_pos] at hno
  · cases hno
  · rw [Bool.and_eq_true, decide_eq_true_iff]
    exact ⟨hreq, (canStartRebuild_iff hn).2 hrdy⟩

theorem Inv.eventOk_started (h : Inv build st)
    (hsel : build.nodeToRebuildIndex st.nodesState = some i) :
    build.EventOk st.log (.started i) := by
  obtain ⟨hreq, hrdy⟩ := nodeToRebuildIndex_eq_some hsel
  obtain ⟨hmk, hnew⟩ := (h.required i).1 hreq
  refine ⟨hmk, hnew, fun j hj hpro => ?_⟩
  have hs := hrdy j hpro
  have hstd : .started j ∈ st.log := by
    by_contra hnot
    rw [(h.required j).2 ⟨hj, hnot⟩] at hs
    cases hs
  refine (h.finished_iff j).2 ⟨hstd, fun hrun => ?_⟩
  rw [(h.active j).2 (mem_append_left _ hrun)] at hs
  cases hs

theorem getElem?_set_of_some {α : Type} {l : List α} {a : α} (h : l[i]? = some a)
    (b : α) (j : Nat) : (l.set i b)[j]? = if i = j then some b else l[j]? := by
  rw [getElem?_set]
  by_cases hij : i = j
  · rw [if_pos hij, if_pos hij, if_pos (List.getElem?_eq_some_iff.1 h).1]
  · rw [if_neg hij, if_neg hij]

theorem startedNodes_snoc (log : List Event) (i : Nat) :
    startedNodes (log ++ [.started i]) = startedNodes log ++ [i] := by
  rw [startedNodes, filterMap_append]
  rfl

theorem startedNodes_snoc_finished (log : List Event) (i : Nat) :
    startedNodes (log ++ [.finished i]) = startedNodes log := by
  rw [startedNodes, filterMap_append]
  exact append_nil _

theorem Inv.notMem_active (h : Inv build st)
    (hs : st.nodesState[i]? = some .rebuildRequired) : i ∉ st.processGroup.active := by
  intro hmem
  rw [(h.active i).2 hmem] at hs
  cases hs

theorem Inv.startProcess (h : Inv build st)
    (hsel : build.nodeToRebuildIndex st.nodesState = some i) :
    Inv build { beginStep st i with processGroup :=
      { st.processGroup with runningProcesses := st.processGroup.runningProcesses ++ [i] } } := by
  have hs := (nodeToRebuildIndex_eq_some hsel).1
  have hset := getElem?_set_of_some hs BuildGraphNodeState.rebuildInProgress
  have hnew := ((h.required i).1 hs).2
  have hidle := h.notMem_active hs
  have hpm : (ProcessGroup.active ⟨st.processGroup.runningProcesses ++ [i],
      st.processGroup.finishedProcesses⟩).Perm (i :: st.processGroup.active) := by
    rw [ProcessGroup.active, append_assoc]
    exact perm_middle
  refine ⟨h.trace.snoc (h.eventOk_started hsel), ?_, ?_, ?_, ?_, ?_, ?_, ?_, ?_⟩
  · exact (length_set).trans h.length
  · intro j
    simp only [beginStep, hset]
    by_cases hij : i = j
    · simp [hij]
    · rw [if_neg hij, h.required j]
      simp [Ne.symm hij]
  · intro j
    dsimp only [beginStep]
    rw [hset, hpm.mem_iff]
    by_cases hij : i = j
    · simp [hij]
    · rw [if_neg hij, h.active j]
      simp [Ne.symm hij]
  · exact hpm.nodup_iff.2 (nodup_cons.2 ⟨hidle, h.nodup⟩)
  · intro j hj
    rcases mem_cons.1 (hpm.mem_iff.1 hj) with rfl | hj
    · exact mem_append_right _ (mem_singleton_self _)
    · exact mem_append_left _ (h.active_started j hj)
  · intro j
    have hfin := h.finished_iff j
    simp only [beginStep, mem_append, mem_singleton, Event.started.injEq, reduceCtorEq]
    by_cases hij : j = i
    · subst hij
      rw [hfin]
      simp [hnew]
    · simp only [hij, or_false]
      exact hfin
  · dsimp only [beginStep]
    rw [startedNodes_snoc, length_append, length_singleton, h.started_count]
  · have hlen := hpm.length_eq
    rw [length_cons] at hlen
    have hc := h.finished_count
    dsimp only [beginStep]
    omega

theorem Inv.special (h : Inv build st) (hsel : build.nodeToRebuildIndex st.nodesState = some i) :
    Inv build { endStep (beginStep st i) i with
      log := (beginStep st i).log ++ [.finished i] } := by
  have hs := (nodeToRebuildIndex_eq_some hsel).1
  have hset : ∀ j, ((st.nodesState.set i .rebuildInProgress).set i .ready)[j]?
      = if i = j then some .ready else st.nodesState[j]? := by
    intro j
    rw [set_set]
    exact getElem?_set_of_some hs _ j
  have hnew := ((h.required i).1 hs).2
  have hidle := h.notMem_active hs
  have hnotFin : .finished i ∉ st.log := fun hf => hnew ((h.finished_iff i).1 hf).1
  have htra := h.trace.snoc (h.eventOk_started hsel)
  refine ⟨htra.snoc ⟨by simp, by simpa using hnotFin⟩, ?_, ?_, ?_, h.nodup, ?_, ?_, ?_, ?_⟩
  · dsimp only [endStep, beginStep]
    rw [length_set, length_set, h.length]
  · intro j
    simp only [endStep, beginStep, hset]
    by_cases hij : i = j
    · simp [hij]
    · rw [if_neg hij, h.required j]
      simp [Ne.symm hij]
  · intro j
    dsimp only [endStep, beginStep]
    rw [hset]
    by_cases hij : i = j
    · subst hij
      simp [hidle]
    · rw [if_neg hij, h.active j]
  · intro j hj
    exact mem_append_left _ (mem_append_left _ (h.active_started j hj))
  · intro j
    have hfin := h.finished_iff j
    simp only [endStep, beginStep, mem_append, mem_singleton, Event.started.injEq,
      Event.finished.injEq, reduceCtorEq]
    by_cases hij : j = i
    · subst hij
      have hrun : j ∉ st.processGroup.runningProcesses := fun hr => hidle (mem_append_left _ hr)
      simp [hrun]
    · simp only [hij, or_false]
      exact hfin
  · dsimp only [endStep, beginStep]
    rw [startedNodes_snoc_finished, startedNodes_snoc, length_append, length_singleton,
      h.started_count]
  · have hc := h.finished_count
    dsimp only [endStep, beginStep]
    omega

theorem Inv.finishProcess (h : Inv build st)
    (hpm : st.processGroup.runningProcesses.Perm (i :: running)) :
    Inv build { st with
      processGroup := ⟨running, st.processGroup.finishedProcesses ++ [i]⟩
      log := st.log ++ [.finished i] } := by
  have hact : st.processGroup.active.Perm
      (ProcessGroup.active ⟨running, st.processGroup.finishedProcesses ++ [i]⟩) := by
    rw [ProcessGroup.active, ProcessGroup.active, ← append_assoc]
    refine (hpm.append_right _).trans ?_
    exact (perm_append_singleton _ _).symm
  have hrun : i ∈ st.processGroup.runningProcesses := hpm.mem_iff.2 mem_cons_self
  have hnotFin : .finished i ∉ st.log := fun hf => ((h.finished_iff i).1 hf).2 hrun
  have hstd := h.active_started i (mem_append_left _ hrun)
  have hgone : i ∉ running := by
    have hnode := hpm.nodup_iff.1 (Nodup.of_append_left h.nodup)
    exact (nodup_cons.1 hnode).1
  refine ⟨h.trace.snoc ⟨hstd, hnotFin⟩, h.length, ?_, ?_, ?_, ?_, ?_, ?_, ?_⟩
  · intro j
    simp only [mem_append, mem_singleton, reduceCtorEq, or_false]
    exact h.required j
  · intro j
    rw [h.active j]
    exact hact.mem_iff
  · exact hact.nodup_iff.1 h.nodup
  · intro j hj
    exact mem_append_left _ (h.active_started j (hact.mem_iff.2 hj))
  · intro j
    have hfin := h.finished_iff j
    rw [hpm.mem_iff] at hfin
    simp only [mem_append]
    by_cases hij : j = i
    · subst hij
      simp [hstd, hgone]
    · rw [hfin]
      simp [hij]
  · rw [startedNodes_snoc_finished, h.started_count]
  · rw [← hact.length_eq, h.finished_count]

theorem Inv.take {finished : List Nat}
    (h : Inv build { st with processGroup := ⟨running, finished ++ [i]⟩ }) :
    Inv build { endStep st i with processGroup := ⟨running, finished⟩ } := by
  have hmem : i ∈ ProcessGroup.active ⟨running, finished ++ [i]⟩ := by
    simp [ProcessGroup.active]
  have hs := (h.active i).2 hmem
  have hset := getElem?_set_of_some hs BuildGraphNodeState.ready
  have hpm : (ProcessGroup.active ⟨running, finished ++ [i]⟩).Perm
      (i :: ProcessGroup.active ⟨running, finished⟩) := by
    rw [ProcessGroup.active, ← append_assoc]
    exact perm_append_singleton _ _
  have hnode := nodup_cons.1 (hpm.nodup_iff.1 h.nodup)
  refine ⟨h.trace, (length_set).trans h.length, ?_, ?_, hnode.2, ?_, h.finished_iff,
    h.started_count, ?_⟩
  · intro j
    dsimp only [endStep]
    rw [hset]
    by_cases hij : i = j
    · subst hij
      have hstd := h.active_started i hmem
      simp [hstd]
    · rw [if_neg hij]
      exact h.required j
  · intro j
    dsimp only [endStep]
    rw [hset]
    by_cases hij : i = j
    · subst hij
      simp [hnode.1]
    · rw [if_neg hij, h.active j, hpm.mem_iff]
      simp [Ne.symm hij]
  · exact fun j hj => h.active_started j (hpm.mem_iff.2 (mem_cons_of_mem _ hj))
  · have hc := h.finished_count
    have hlen := hpm.length_eq
    rw [length_cons] at hlen
    dsimp only [endStep] at hc ⊢
    omega

theorem Inv.takeFinished (h : Inv build st) : Inv build (takeFinished st) := by
  have hall : ∀ (finished : List Nat) (st : BuildState) (running : List Nat),
      Inv build { st with processGroup := ⟨running, finished⟩ } →
      Inv build { finished.foldr (fun i st => endStep st i) st with
        processGroup := ⟨running, []⟩ } := by
    intro finished
    induction finished using reverseRecOn with
    | nil => exact fun st running h => h
    | append_singleton finished i ih =>
      intro st running h
      rw [foldr_append]
      exact ih (endStep st i) running h.take
  exact hall _ st _ h

structure Abandoned (build : Build) (log : List Event) (running : List Nat) : Prop where
  trace : Trace.Always build.EventOk log
  nodup : running.Nodup
  started : ∀ i ∈ running, .started i ∈ log
  not_finished : ∀ i ∈ running, .finished i ∉ log

theorem Inv.abandoned (h : Inv build st) :
    Abandoned build st.log st.processGroup.runningProcesses where
  trace := h.trace
  nodup := Nodup.of_append_left h.nodup
  started i hi := h.active_started i (mem_append_left _ hi)
  not_finished i hi hf := ((h.finished_iff i).1 hf).2 hi

theorem Abandoned.erase {log : List Event} {running' : List Nat}
    (h : Abandoned build log running) (hpm : running.Perm (i :: running')) :
    Abandoned build log running' where
  trace := h.trace
  nodup := (nodup_cons.1 (hpm.nodup_iff.1 h.nodup)).2
  started j hj := h.started j (hpm.mem_iff.2 (mem_cons_of_mem _ hj))
  not_finished j hj := h.not_finished j (hpm.mem_iff.2 (mem_cons_of_mem _ hj))

variable (env)

theorem Abandoned.destroy : ∀ running log, Abandoned build log running →
    Trace.Always build.EventOk (log ++ (running.filter env.succeeds).map Event.finished) := by
  intro running
  induction running with
  | nil =>
    intro log h
    rw [filter_nil, map_nil, append_nil]
    exact h.trace
  | cons i running ih =>
    intro log h
    have hrs := h.erase (.refl _)
    by_cases hsuc : env.succeeds i = true
    · have hi := (nodup_cons.1 h.nodup).1
      have hsnoc : Abandoned build (log ++ [.finished i]) running := by
        refine ⟨h.trace.snoc ⟨h.started i mem_cons_self, h.not_finished i mem_cons_self⟩,
          hrs.nodup, ?_, ?_⟩
        · exact fun j hj => mem_append_left _ (hrs.started j hj)
        · intro j hj hf
          rcases mem_append.1 hf with hf | hf
          · exact hrs.not_finished j hj hf
          · cases mem_singleton.1 hf
            exact hi hj
      rw [filter_cons_of_pos hsuc, map_cons, append_cons]
      exact ih _ hsnoc
    · rw [filter_cons_of_neg hsuc]
      exact ih _ hrs

structure Grows (st st' : BuildState) : Prop where
  running : st.processGroup.runningProcesses ⊆ st'.processGroup.runningProcesses
  finished : st'.processGroup.finishedProcesses = st.processGroup.finishedProcesses
  count : st.buildStepsFinished ≤ st'.buildStepsFinished

theorem Grows.refl (st : BuildState) : Grows st st := ⟨Subset.refl _, rfl, le_refl _⟩

theorem Grows.trans {st1 st2 st3 : BuildState} (h : Grows st1 st2) (h' : Grows st2 st3) :
    Grows st1 st3 :=
  ⟨List.Subset.trans h.running h'.running, h'.finished.trans h.finished, le_trans h.count h'.count⟩

/-- The build loop cannot go on with starts, other than by waiting. -/
structure Stuck (build : Build) (st : BuildState) : Prop where
  none_selected : build.nodeToRebuildIndex st.nodesState = none
  left : st.buildStepsStarted < build.numNodesToRebuild
  all_finished : st.buildStepsStarted ≤ st.buildStepsFinished

def Waits (build : Build) (st : BuildState) : Prop :=
  (build.maxNumberOfParallelJobs ≤ st.processGroup.runningProcesses.length ∨
    build.numNodesToRebuild ≤ st.buildStepsStarted) ∨ st.buildStepsFinished < st.buildStepsStarted

def StartSpec (build : Build) (env : Environment) (st : BuildState) : StartResult → Prop
  | .started st' => Inv build st' ∧ Grows st st' ∧
      st'.buildStepsStarted = st.buildStepsStarted + 1 ∧
      st.buildStepsStarted < build.numNodesToRebuild
  | .wait st' => st' = st ∧ Waits build st
  | .stuck st' => st' = st ∧ Stuck build st
  | .failed st' => Abandoned build st'.log st'.processGroup.runningProcesses ∧ env.Fails

theorem startNode_spec (h : Inv build st) : StartSpec build env st (build.startNode env st) := by
  unfold startNode
  by_cases hcond : st.processGroup.runningProcesses.length < build.maxNumberOfParallelJobs ∧
      st.buildStepsStarted < build.numNodesToRebuild
  · rw [if_pos hcond]
    cases hsel : build.nodeToRebuildIndex st.nodesState with
    | none =>
      by_cases hfin : st.buildStepsFinished < st.buildStepsStarted
      · rw [if_pos hfin]
        exact ⟨rfl, .inr hfin⟩
      · rw [if_neg hfin]
        exact ⟨rfl, hsel, hcond.2, Nat.le_of_not_lt hfin⟩
    | some i =>
      have hfai : Abandoned build (beginStep st i).log
          (beginStep st i).processGroup.runningProcesses := by
        refine ⟨h.trace.snoc (h.eventOk_started hsel), h.abandoned.nodup, ?_, ?_⟩
        · exact fun j hj => mem_append_left _ (h.abandoned.started j hj)
        · intro j hj hf
          rcases mem_append.1 hf with hf | hf
          · exact h.abandoned.not_finished j hj hf
          · cases mem_singleton.1 hf
      dsimp only
      split
      · by_cases hsuc : env.succeeds i = true
        · rw [if_pos hsuc]
          refine ⟨h.special hsel, ⟨Subset.refl _, rfl, le_succ _⟩, rfl, hcond.2⟩
        · rw [if_neg hsuc]
          exact ⟨hfai, .inr (.inl ⟨i, Bool.eq_false_iff.2 hsuc⟩)⟩
      · by_cases hsts : env.starts i = true
        · rw [if_pos hsts]
          exact ⟨h.startProcess hsel, ⟨subset_append_left _ _, rfl, le_refl _⟩, rfl, hcond.2⟩
        · rw [if_neg hsts]
          exact ⟨hfai, .inl ⟨i, Bool.eq_false_iff.2 hsts⟩⟩
  · rw [if_neg hcond]
    refine ⟨rfl, .inl ?_⟩
    omega

def StartedSpec (build : Build) (env : Environment) (st : BuildState) : StartResult → Prop
  | .started _ => False
  | .wait st' => Inv build st' ∧ Grows st st' ∧ Waits build st'
  | .stuck st' => Inv build st' ∧ Grows st st' ∧ Stuck build st'
  | .failed st' => Abandoned build st'.log st'.processGroup.runningProcesses ∧ env.Fails

theorem startNodes_spec : ∀ fuel st, Inv build st →
    build.numNodesToRebuild - st.buildStepsStarted < fuel →
    StartedSpec build env st (build.startNodes env fuel st) := by
  intro fuel
  induction fuel with
  | zero => exact fun _ _ h => absurd h (not_lt_zero _)
  | succ fuel ih =>
    intro st h hf
    have hsp := startNode_spec env h
    rw [startNodes]
    generalize build.startNode env st = k at hsp ⊢
    cases k with
    | started st' =>
      obtain ⟨hinv, hgr, hc, hl⟩ := hsp
      have hrs := ih st' hinv (by omega)
      dsimp only
      cases hlp : build.startNodes env fuel st' with
      | started _ | failed st'' =>
        rw [hlp] at hrs
        exact hrs
      | wait st'' | stuck st'' =>
        rw [hlp] at hrs
        exact ⟨hrs.1, hgr.trans hrs.2.1, hrs.2.2⟩
    | wait st' =>
      obtain ⟨rfl, hwai⟩ := hsp
      exact ⟨h, Grows.refl _, hwai⟩
    | stuck st' =>
      obtain ⟨rfl, hstu⟩ := hsp
      exact ⟨h, Grows.refl _, hstu⟩
    | failed st' =>
      exact hsp

theorem moveLast_perm (r : List Nat) : (moveLast r).Perm r := by
  rcases eq_nil_or_concat r with rfl | ⟨init, last, rfl⟩
  · exact .refl _
  · rw [moveLast, concat_eq_append, getLast?_concat, dropLast_concat]
    exact (perm_append_singleton last init).symm

/-- What a call of `DoWork` leaves of a build.  Processes go on, unless their pipes are
closed. -/
structure WorkSpec (build : Build) (env : Environment) (call : Nat) (st : BuildState)
    (work : WorkResult) : Prop where
  inv : work.ok = true → Inv build { st with processGroup := work.group, log := st.log ++ work.log }
  goes_on : work.ok = true → ∀ i ∈ st.processGroup.runningProcesses,
    i ∈ work.group.finishedProcesses ∨ i ∈ work.group.runningProcesses ∧ env.closes call i = false
  fails : work.ok = false →
    Abandoned build (st.log ++ work.log) work.group.runningProcesses ∧ env.Fails

theorem removeFinished_spec (c : Nat) : ∀ fuel kept r finished log, r.length ≤ fuel →
    (∀ i ∈ kept, env.closes c i = false) →
    (∀ i ∈ st.processGroup.runningProcesses, i ∈ finished ∨ i ∈ kept ++ r) →
    Inv build { st with processGroup := ⟨kept ++ r, finished⟩, log := st.log ++ log } →
    WorkSpec build env c st
      (removeFinished (env.closes c) env.succeeds fuel kept r finished log) := by
  intro fuel
  induction fuel with
  | zero =>
    intro kept r finished log hf hkpt hall h
    have hrs : r = [] := length_eq_zero_iff.1 (le_zero.1 hf)
    subst hrs
    refine ⟨fun _ => h, fun _ i hi => ?_, fun hok => absurd hok (by simp [removeFinished])⟩
    have hmem := hall i hi
    rw [append_nil] at hmem
    rw [removeFinished, append_nil]
    exact hmem.imp_right (fun hk => ⟨hk, hkpt i hk⟩)
  | succ fuel ih =>
    intro kept r finished log hf hkpt hall h
    cases r with
    | nil =>
      rw [append_nil] at h hall
      refine ⟨fun _ => h, fun _ i hi => ?_, fun hok => absurd hok (by simp [removeFinished])⟩
      exact (hall i hi).imp_right (fun hk => ⟨hk, hkpt i hk⟩)
    | cons id r =>
      have hpm : (kept ++ id :: r).Perm (id :: (kept ++ moveLast r)) :=
        perm_middle.trans (((moveLast_perm r).symm.append_left kept).cons id)
      rw [removeFinished]
      by_cases hcls : env.closes c id = true
      · rw [if_pos hcls]
        by_cases hsuc : env.succeeds id = true
        · rw [if_pos hsuc]
          refine ih _ _ _ _ ?_ hkpt ?_ ?_
          · rw [(moveLast_perm r).length_eq]
            exact le_of_succ_le_succ hf
          · intro i hi
            rcases hall i hi with hfin | hmem
            · exact .inl (mem_append_left _ hfin)
            · rcases mem_cons.1 (hpm.mem_iff.1 hmem) with rfl | hmem
              · exact .inl (mem_append_right _ (mem_singleton_self _))
              · exact .inr hmem
          · have hnx := h.finishProcess hpm
            rw [append_assoc] at hnx
            exact hnx
        · rw [if_neg hsuc]
          refine ⟨fun hok => (by cases hok), fun hok => (by cases hok), fun _ => ⟨?_, ?_⟩⟩
          · exact h.abandoned.erase hpm
          · exact .inr (.inl ⟨id, Bool.eq_false_iff.2 hsuc⟩)
      · rw [if_neg hcls]
        have hmove : kept ++ id :: r = kept ++ [id] ++ r := by
          rw [append_assoc]
          rfl
        rw [hmove] at hall h
        refine ih _ _ _ _ (le_of_succ_le_succ hf) ?_ hall h
        intro i hi
        rcases mem_append.1 hi with hi | hi
        · exact hkpt i hi
        · rw [mem_singleton.1 hi]
          exact Bool.eq_false_iff.2 hcls

theorem doWork_spec (c : Nat) (h : Inv build st) :
    WorkSpec build env c st (doWork env c st.processGroup) := by
  have heq : Inv build { st with
      processGroup := st.processGroup, log := st.log ++ [] } := by
    rw [append_nil]
    exact h
  unfold doWork
  by_cases hidle : st.processGroup.runningProcesses = []
  · rw [if_pos hidle]
    refine ⟨fun _ => heq, fun _ i hi => ?_, fun hok => (by cases hok)⟩
    rw [hidle] at hi
    cases hi
  · rw [if_neg hidle]
    by_cases hpol : env.polls c = true
    · rw [if_pos hpol]
      refine removeFinished_spec env c _ _ _ _ _ (le_refl _) ?_ ?_ heq
      · nofun
      · exact fun i hi => .inr hi
    · rw [if_neg hpol]
      refine ⟨fun hok => (by cases hok), fun hok => (by cases hok), fun _ => ⟨?_, ?_⟩⟩
      · exact heq.abandoned
      · exact .inr (.inr ⟨c, Bool.eq_false_iff.2 hpol⟩)

theorem takeFinished_count (st : BuildState) : (Build.takeFinished st).buildStepsFinished
    = st.buildStepsFinished + st.processGroup.finishedProcesses.length := by
  have hall : ∀ (finished : List Nat),
      (finished.foldr (fun i st => endStep st i) st).buildStepsFinished
        = st.buildStepsFinished + finished.length := by
    intro finished
    induction finished with
    | nil => rfl
    | cons i finished ih =>
      rw [length_cons, ← add_assoc, ← ih]
      rfl
  exact hall _

structure Ended (build : Build) (result : Bool) (st : BuildState) : Prop where
  inv : Inv build st
  result_eq : result = st.nodesState.all (fun state => state = .ready)
  ends : build.numNodesToRebuild ≤ st.buildStepsFinished ∨ Stuck build st

/-- After a turn that does not end the build a command has finished, or all processes run
on. -/
def TurnSpec (build : Build) (env : Environment) (call : Nat) (st : BuildState) : Progress → Prop
  | .running st' => Inv build st' ∧ st'.processGroup.finishedProcesses = [] ∧
      st'.buildStepsFinished < build.numNodesToRebuild ∧
      (st.buildStepsFinished < st'.buildStepsFinished ∨
        st.buildStepsFinished ≤ st'.buildStepsFinished ∧
        st'.processGroup.runningProcesses ≠ [] ∧ ∀ i ∈ st.processGroup.runningProcesses,
          i ∈ st'.processGroup.runningProcesses ∧ env.closes call i = false)
  | .returned result st' => Trace.Always build.EventOk st'.log ∧
      (result = false ∧ env.Fails ∨ Ended build result st')

theorem Waits.all_finished (hjobs : 1 ≤ build.maxNumberOfParallelJobs) (h : Inv build st)
    (hwai : Waits build st) (hact : st.processGroup.active = []) :
    build.numNodesToRebuild ≤ st.buildStepsFinished := by
  have hc := h.finished_count
  rw [hact, length_nil] at hc
  have hrun : st.processGroup.runningProcesses = [] := (append_eq_nil_iff.1 hact).1
  rcases hwai with (hlim | hstd) | hfin
  · rw [hrun, length_nil] at hlim
    omega
  · omega
  · omega

theorem turn_spec (c : Nat) (hjobs : 1 ≤ build.maxNumberOfParallelJobs)
    (h : Inv build st) (htkn : st.processGroup.finishedProcesses = []) :
    TurnSpec build env c st (build.turn env c st) := by
  have hstd := startNodes_spec env (build.numNodesToRebuild + 1) st h (by omega)
  unfold turn
  generalize build.startNodes env (build.numNodesToRebuild + 1) st = k at hstd ⊢
  cases k with
  | started st1 =>
    exact hstd.elim
  | failed st1 =>
    exact ⟨Abandoned.destroy env _ _ hstd.1, .inl ⟨rfl, hstd.2⟩⟩
  | stuck st1 =>
    exact ⟨hstd.1.trace, .inr ⟨hstd.1, rfl, .inr hstd.2.2⟩⟩
  | wait st1 =>
    obtain ⟨hinv, hgr, hwai⟩ := hstd
    have hwork := doWork_spec env c hinv
    dsimp only
    generalize doWork env c st1.processGroup = work at hwork ⊢
    by_cases hok : work.ok = true
    · rw [if_pos hok]
      have htk := (hwork.inv hok).takeFinished
      have hc := takeFinished_count
        { st1 with processGroup := work.group, log := st1.log ++ work.log }
      dsimp only at hc
      by_cases hend : build.numNodesToRebuild ≤ (Build.takeFinished
          { st1 with processGroup := work.group, log := st1.log ++ work.log }).buildStepsFinished
      · rw [if_pos hend]
        exact ⟨htk.trace, .inr ⟨htk, rfl, .inl hend⟩⟩
      · rw [if_neg hend]
        refine ⟨htk, rfl, Nat.lt_of_not_le hend, ?_⟩
        have hlt := hgr.count
        by_cases hno : work.group.finishedProcesses = []
        · refine .inr ⟨by omega, ?_, ?_⟩
          · intro hidle
            have hgro : work.group.runningProcesses = [] := hidle
            have hrun : st1.processGroup.runningProcesses = [] := by
              by_contra hne
              obtain ⟨i, rest, hco⟩ := exists_cons_of_ne_nil hne
              have hi : i ∈ st1.processGroup.runningProcesses := by
                rw [hco]
                exact mem_cons_self
              rcases hwork.goes_on hok i hi with hi | ⟨hi, -⟩
              · rw [hno] at hi
                exact not_mem_nil hi
              · rw [hgro] at hi
                exact not_mem_nil hi
            have hact : st1.processGroup.active = [] := by
              rw [ProcessGroup.active, hrun, hgr.finished, htkn]
              rfl
            have hall := hwai.all_finished hjobs hinv hact
            omega
          · intro i hi
            rcases hwork.goes_on hok i (hgr.running hi) with hi | hi
            · rw [hno] at hi
              cases hi
            · exact hi
        · have hpos := length_pos_iff.2 hno
          exact .inl (by omega)
    · rw [if_neg hok]
      obtain ⟨haba, hfl⟩ := hwork.fails (Bool.eq_false_iff.2 hok)
      exact ⟨Abandoned.destroy env _ _ haba, .inl ⟨rfl, hfl⟩⟩

end Steps

end Build
end USprache.BuildSystem
