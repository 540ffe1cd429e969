import USprache.CodeBuilder.GraphFrames
import USprache.Library.Removal

/-!
# Destruction of unused temporary variables

After an expression the temporaries nothing refers to are destroyed and their nodes removed from
the graph.  A removal rewires links, so it may free other temporaries: passes over the storage
are made until one removes nothing.
-/

namespace USprache.CodeBuilder

open Library List

/-- What the destruction reads of a variable besides its node. -/
structure StackVariables (V : Type) extends VariableNodes V where
  preserveTemporary : V → Bool
  hasDestructor : V → Bool
  /-- `location` is `Location::Pointer`. -/
  locationPointer : V → Bool

/-- A variable is registered once, after it was created.  `CreateChildNode` makes references only,
and so are inner reference nodes. -/
structure StackVariablesStorage {V : Type} (vars : StackVariables V) where
  variables_ : List V
  nodup : variables_.Nodup
  value_root : ∀ v ∈ variables_, vars.valueType v = .value → vars.parent v = none
  value_not_inner : ∀ v ∈ variables_, vars.valueType v = .value →
    ∀ w, v ∉ vars.innerReferenceNodes w

inductive GeneratedCode (V : Type) where
  | callDestructor (var : V)
  | lifetimeEnd (var : V)
deriving DecidableEq

/-- `variables_state` and the code generated so far. -/
structure DestructionState (V : Type) where
  variablesState : ReferencesGraph V
  code : List (GeneratedCode V) := []

namespace ReferencesGraph

variable {V : Type} [DecidableEq V]

def nodeMoved (G : ReferencesGraph V) (node : V) : Bool :=
  match G.nodes.lookup node with
  | none => false
  | some state => state.moved

/-- A node that is neither a child nor an inner reference node stays until it is removed itself. -/
theorem lookup_removeNode {vars : Variables V} (G : ReferencesGraph V) {n v : V} (hv : v ≠ n)
    (hpar : vars.parent v = none) (hin : ∀ w, v ∉ vars.innerReferenceNodes w) :
    (G.removeNode vars n).nodes.lookup v = G.nodes.lookup v := by
  have hrec : ∀ (h : Nat) (G : ReferencesGraph V) (n : V), v ≠ n →
      (removeNodeRec vars h G n).nodes.lookup v = G.nodes.lookup v := by
    intro h
    induction h with
    | zero => exact fun _ _ _ => rfl
    | succ h ih =>
      intro G n hv
      have hfold : ∀ (ns : List V) (G : ReferencesGraph V), v ∉ ns →
          (ns.foldl (removeNodeRec vars h) G).nodes.lookup v = G.nodes.lookup v := by
        intro ns
        induction ns with
        | nil => exact fun _ _ => rfl
        | cons m ns ihNs =>
          intro G hmem
          rw [mem_cons, not_or] at hmem
          rw [foldl_cons, ihNs _ hmem.2]
          exact ih G m hmem.1
      have hchs : v ∉ (vars.children n).filterMap id := by
        intro hmem
        obtain ⟨ch, hch, heq⟩ := mem_filterMap.1 hmem
        have hsm : ch = some v := heq
        rw [hsm, vars.mem_children, hpar] at hch
        cases hch
      rw [removeNodeRec]
      split
      · rfl
      · show ((_ : ReferencesGraph V).dropNode vars n).nodes.lookup v = _
        show AList.lookup v (AList.erase n _) = _
        rw [AList.lookup_erase_ne hv, removeNodeLinks_nodes, hfold _ _ hchs]
        split
        · exact hfold _ _ (hin n)
        · rfl
  exact hrec _ G n hv

theorem nodeMoved_removeNode {vars : Variables V} (G : ReferencesGraph V) {n v : V} (hv : v ≠ n)
    (hpar : vars.parent v = none) (hin : ∀ w, v ∉ vars.innerReferenceNodes w) :
    (G.removeNode vars n).nodeMoved v = G.nodeMoved v := by
  unfold nodeMoved
  rw [lookup_removeNode G hv hpar hin]

end ReferencesGraph

namespace StackVariablesStorage

variable {V : Type} [DecidableEq V] (vars : StackVariables V)

def destructionCode (isFunctionlessContext : Bool) (G : ReferencesGraph V)
    (var : V) : List (GeneratedCode V) :=
  if vars.valueType var = .value ∧ !isFunctionlessContext ∧ !G.nodeMoved var then
    (if vars.hasDestructor var then [.callDestructor var] else []) ++
      (if vars.locationPointer var then [.lifetimeEnd var] else [])
  else []

/-- The predicate of the pass.  References are dropped whatever their links are. -/
def destroyIfUnused (isFunctionlessContext : Bool)
    (s : DestructionState V) (var : V) : DestructionState V × Bool :=
  if vars.preserveTemporary var then
    if s.variablesState.nodeMoved var then
      ({ s with variablesState := s.variablesState.removeNode vars.toVariables var }, true)
    else (s, false)
  else if vars.valueType var ≠ .value ∨
      !s.variablesState.hasOutgoingLinks vars.toVariableNodes var then
    ({ variablesState := s.variablesState.removeNode vars.toVariables var
       code := s.code ++
        destructionCode vars isFunctionlessContext s.variablesState var }, true)
  else (s, false)

/-- `DestroyUnusedTemporaryVariables` on the innermost storage. -/
def destroyUnusedTemporaryVariables (isFunctionlessContext : Bool)
    (fuel : Nat) (G : ReferencesGraph V) (variables_ : List V) :
    Option (DestructionState V × List V) :=
  removeAll (destroyIfUnused vars isFunctionlessContext) fuel { variablesState := G } variables_

variable (G : ReferencesGraph V)

def Removable (var : V) : Prop :=
  if vars.preserveTemporary var then G.nodeMoved var = true
  else vars.valueType var = .value → G.hasOutgoingLinks vars.toVariableNodes var = false

def DestroyedOnce (variables_ rest : List V)
    (code : List (GeneratedCode V)) : Prop :=
  ∀ v, code.count (.callDestructor v) =
    if v ∈ variables_ ∧ v ∉ rest ∧ vars.valueType v = .value ∧ vars.hasDestructor v = true ∧
      G.nodeMoved v = false then 1 else 0

structure Destroyed (isFunctionlessContext : Bool)
    (G : ReferencesGraph V) (variables_ : List V) (s : DestructionState V) (rest : List V) :
    Prop where
  order : rest.Sublist variables_
  settled : ∀ v ∈ rest, ¬ Removable vars s.variablesState v
  once : isFunctionlessContext = false → DestroyedOnce vars G variables_ rest s.code
  none_functionless : isFunctionlessContext = true → s.code = []

variable {vars} {isFunctionlessContext : Bool} {s : DestructionState V}

theorem destroyIfUnused_accepts {v : V} :
    (destroyIfUnused vars isFunctionlessContext s v).2 = true ↔
      Removable vars s.variablesState v := by
  unfold destroyIfUnused Removable
  by_cases hprs : vars.preserveTemporary v = true
  · rw [if_pos hprs]
    split
    · next hmvd => exact iff_of_true rfl hmvd
    · next hmvd => exact iff_of_false Bool.false_ne_true hmvd
  · rw [if_neg hprs, if_neg hprs]
    by_cases hv : vars.valueType v = .value
    · cases hlks : s.variablesState.hasOutgoingLinks vars.toVariableNodes v <;> simp [hv]
    · simp [hv]

theorem destroyIfUnused_quiet : QuietPredicate (destroyIfUnused vars isFunctionlessContext) := by
  intro s v h
  unfold destroyIfUnused at h ⊢
  split at h
  · next hprs =>
    rw [if_pos hprs]
    split at h
    · cases h
    · next hmvd => rw [if_neg hmvd]
  · next hprs =>
    rw [if_neg hprs]
    split at h
    · cases h
    · next hlks => rw [if_neg hlks]

/-- A variable that is removed leaves the graph, and its code depends on its state before. -/
theorem destroyIfUnused_removes {v : V}
    (h : (destroyIfUnused vars isFunctionlessContext s v).2 = true) :
    (destroyIfUnused vars isFunctionlessContext s v).1.variablesState =
        s.variablesState.removeNode vars.toVariables v ∧
      (destroyIfUnused vars isFunctionlessContext s v).1.code =
        s.code ++ destructionCode vars isFunctionlessContext s.variablesState v := by
  unfold destroyIfUnused at h ⊢
  split at h
  · next hprs =>
    rw [if_pos hprs]
    split at h
    · next hmvd =>
      rw [destructionCode, hmvd]
      simp
    · cases h
  · next hprs =>
    rw [if_neg hprs]
    split at h
    · next hlks =>
      rw [if_pos hlks]
      exact ⟨rfl, rfl⟩
    · cases h

theorem count_destructionCode (var v : V) :
    (destructionCode vars false G var).count (.callDestructor v) =
      if v = var ∧ vars.valueType v = .value ∧ vars.hasDestructor v = true ∧
        G.nodeMoved v = false then 1 else 0 := by
  have hlif : (if vars.locationPointer var = true then [GeneratedCode.lifetimeEnd var]
      else []).count (.callDestructor v) = 0 := by
    split <;> simp
  unfold destructionCode
  by_cases hv : v = var
  · subst hv
    by_cases hcode : vars.valueType v = .value ∧ G.nodeMoved v = false
    · rw [if_pos (by simp [hcode]), count_append, hlif]
      by_cases hdes : vars.hasDestructor v = true
      · simp [hdes, hcode]
      · simp [hdes]
    · rw [if_neg (by simpa using hcode), if_neg (fun h => hcode ⟨h.2.1, h.2.2.2⟩)]
      rfl
  · rw [if_neg (fun h : v = var ∧ _ => hv h.1)]
    split
    · rw [count_append, hlif]
      split
      · simp [Ne.symm hv]
      · rfl
    · rfl

theorem destructionCode_functionless (v : V) :
    destructionCode vars true G v = [] := by
  simp [destructionCode]

/-- Over a run each of the removed variables is met in the state it had at first. -/
theorem count_of_removalRun {s' : DestructionState V} {removed : List V} (hnode : removed.Nodup)
    (hroot : ∀ v ∈ removed, vars.valueType v = .value →
      vars.parent v = none ∧ ∀ w, v ∉ vars.innerReferenceNodes w)
    (hrun : RemovalRun (destroyIfUnused vars false) s removed s') (v : V) :
    s'.code.count (.callDestructor v) = s.code.count (.callDestructor v) +
      if v ∈ removed ∧ vars.valueType v = .value ∧ vars.hasDestructor v = true ∧
        s.variablesState.nodeMoved v = false then 1 else 0 := by
  induction removed generalizing s with
  | nil =>
    have heq : s' = s := hrun
    rw [heq]
    rfl
  | cons u removed ih =>
    obtain ⟨hcld, hrun⟩ := hrun
    obtain ⟨hg, hcode⟩ := destroyIfUnused_removes hcld
    rw [nodup_cons] at hnode
    rw [ih hnode.2 (fun w hw => hroot w (mem_cons_of_mem u hw)) hrun, hcode,
      count_append, count_destructionCode, hg]
    by_cases hvu : v = u
    · subst hvu
      rw [if_neg (fun h : v ∈ removed ∧ _ => hnode.1 h.1)]
      simp
    · rw [if_neg (fun h : v = u ∧ _ => hvu h.1)]
      by_cases hmem : v ∈ removed ∧ vars.valueType v = .value
      · obtain ⟨hpar, hin⟩ := hroot v (mem_cons_of_mem u hmem.1) hmem.2
        rw [ReferencesGraph.nodeMoved_removeNode _ hvu hpar hin]
        simp [hvu]
      · rw [if_neg (fun h => hmem ⟨h.1, h.2.1⟩), if_neg]
        intro h
        exact hmem ⟨(mem_cons.1 h.1).resolve_left hvu, h.2.1⟩

theorem code_of_functionless {s' : DestructionState V} {removed : List V}
    (hrun : RemovalRun (destroyIfUnused vars true) s removed s') : s'.code = s.code := by
  induction removed generalizing s with
  | nil =>
    have heq : s' = s := hrun
    rw [heq]
  | cons u removed ih =>
    obtain ⟨hcld, hrun⟩ := hrun
    rw [ih hrun, (destroyIfUnused_removes hcld).2, destructionCode_functionless, append_nil]

/-- The destruction terminates, and what it leaves is settled.  A context without a function has
no place for code. -/
theorem destroyUnusedTemporaryVariables_destroyed
    (storage : StackVariablesStorage vars) (G : ReferencesGraph V) (isFunctionlessContext : Bool) :
    ∃ fuel s rest, destroyUnusedTemporaryVariables vars isFunctionlessContext fuel G
        storage.variables_ = some (s, rest) ∧
      Destroyed vars isFunctionlessContext G storage.variables_ s rest := by
  have hreturns : (removeAll (destroyIfUnused vars isFunctionlessContext)
      (storage.variables_.length + 1) { variablesState := G } storage.variables_).isSome :=
    removeAll_returns _ _ _ (Nat.lt_succ_self _)
  obtain ⟨⟨s, rest⟩, hresult⟩ := Option.isSome_iff_exists.1 hreturns
  refine ⟨_, s, rest, hresult, ?_⟩
  obtain ⟨hsublist, hnone⟩ := removeAll_settled destroyIfUnused_quiet _ hresult
  obtain ⟨removed, hperm, hrun⟩ := removeAll_run destroyIfUnused_quiet _ hresult
  have hnodup : (removed ++ rest).Nodup := hperm.nodup_iff.2 storage.nodup
  have hmem : ∀ v, v ∈ storage.variables_ ∧ v ∉ rest ↔ v ∈ removed := by
    intro v
    rw [← hperm.mem_iff, mem_append]
    have hdisjoint : v ∈ removed → v ∉ rest := fun h h' => (nodup_append.1 hnodup).2.2 v h v h' rfl
    tauto
  constructor
  · exact hsublist
  · intro v hv hremovable
    have hcalled := hnone v hv
    rw [destroyIfUnused_accepts.2 hremovable] at hcalled
    cases hcalled
  · intro hcontext v
    subst hcontext
    have hvalues : ∀ v ∈ removed, vars.valueType v = .value →
        vars.parent v = none ∧ ∀ w, v ∉ vars.innerReferenceNodes w := by
      intro v hv hvalue
      have hstored := ((hmem v).2 hv).1
      exact ⟨storage.value_root v hstored hvalue, storage.value_not_inner v hstored hvalue⟩
    rw [count_of_removalRun (nodup_append.1 hnodup).1 hvalues hrun v]
    simp only [← hmem v, and_assoc]
    exact Nat.zero_add _
  · intro hcontext
    subst hcontext
    exact code_of_functionless hrun

def temporaryVariables : StackVariables Nat where
  parent _ := none
  children _ := []
  innerReferenceNodes _ := []
  height _ := 0
  mem_children := by simp
  height_child := by simp
  height_inner := by simp
  inner_bare := by simp
  valueType _ := .value
  isInnerReferenceNode _ := false
  isVariableInnerReferenceNode _ := false
  depth _ := 0
  depth_parent := by simp
  preserveTemporary _ := false
  hasDestructor _ := true
  locationPointer _ := true

def temporaryGraph : ReferencesGraph Nat :=
  ReferencesGraph.empty.addNode temporaryVariables.toVariables 0

/-- Three temporaries, of which each one refers to the one before. -/
def chainStorage : StackVariablesStorage temporaryVariables :=
  ⟨[0, 1, 2], by decide, fun _ _ _ => rfl, fun _ _ _ _ => not_mem_nil⟩

def chainGraph : ReferencesGraph Nat :=
  ⟨[⟨0, {}⟩, ⟨1, {}⟩, ⟨2, {}⟩].toAList, [⟨0, 1⟩, ⟨1, 2⟩]⟩

theorem destroyUnusedTemporaryVariables_destroyed_chain : ∃ fuel s rest,
    destroyUnusedTemporaryVariables temporaryVariables false fuel chainGraph [0, 1, 2] =
      some (s, rest) ∧ Destroyed temporaryVariables false chainGraph [0, 1, 2] s rest :=
  destroyUnusedTemporaryVariables_destroyed chainStorage chainGraph false

/-- Each pass destroys one of them. -/
example : (destroyUnusedTemporaryVariables temporaryVariables false 4 chainGraph [0, 1, 2]).map
    (fun result => result.1.code) = some [.callDestructor 2, .lifetimeEnd 2, .callDestructor 1,
      .lifetimeEnd 1, .callDestructor 0, .lifetimeEnd 0] := by
  decide +kernel

/-- `typeof( S() )`: the temporary is removed and no code is generated. -/
theorem not_destroyedOnce_functionless :
    ∃ s, destroyUnusedTemporaryVariables temporaryVariables true 2 temporaryGraph [0] =
        some (s, []) ∧
      ¬ DestroyedOnce temporaryVariables temporaryGraph [0] [] s.code := by
  refine ⟨_, rfl, fun h => ?_⟩
  have hcount := h 0
  revert hcount
  decide +kernel

end StackVariablesStorage
end USprache.CodeBuilder
