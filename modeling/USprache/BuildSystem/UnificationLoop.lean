import Mathlib.Algebra.Order.BigOperators.Group.List
import USprache.BuildSystem.UnificationStep

/-!
# The unification loop

Each step raises versions and uses only versions which are in the workspace, so the loop comes to an
end.  Its result is the same for each order of the iteration over hash maps.
-/

namespace USprache.BuildSystem

open List BuildTargetAbsoluteName

namespace BuildTargetAbsoluteName

def Raises (dep dep' : BuildTargetAbsoluteName) : Prop :=
  match dep.global? with
  | none => dep' = dep
  | some (g, version) => ∃ version', dep'.global? = some (g, version') ∧ version.key ≤ version'.key

theorem Raises.refl (dep : BuildTargetAbsoluteName) : dep.Raises dep := by
  rw [Raises]
  cases h : dep.global? with
  | none => rfl
  | some p => exact ⟨p.2, rfl, le_rfl⟩

variable {dep dep' : BuildTargetAbsoluteName}

theorem raises_of_global? {g : GlobalPackageBuildTargetName}
    {ver ver' : SemanticVersion} (h : dep.global? = some (g, ver))
    (h' : dep'.global? = some (g, ver')) (hle : ver.key ≤ ver'.key) : dep.Raises dep' := by
  rw [Raises, h]
  exact ⟨ver', h', hle⟩

theorem Raises.trans {dep1 dep2 dep3 : BuildTargetAbsoluteName} (h1 : dep1.Raises dep2)
    (h2 : dep2.Raises dep3) : dep1.Raises dep3 := by
  rw [Raises] at h1
  cases h : dep1.global? with
  | none =>
    rw [h] at h1
    obtain rfl := h1
    exact h2
  | some p =>
    rw [h] at h1
    obtain ⟨version2, hglo2, hle2⟩ := h1
    rw [Raises, hglo2] at h2
    obtain ⟨version3, hglo3, hle3⟩ := h2
    exact raises_of_global? h hglo3 (hle2.trans hle3)

def IsBelow (dep other : BuildTargetAbsoluteName) : Prop :=
  ∃ g version version', dep.global? = some (g, version) ∧ other.global? = some (g, version') ∧
    version.key < version'.key

theorem Raises.isBelow {other : BuildTargetAbsoluteName} (h : dep.Raises dep')
    (hb : dep'.IsBelow other) : dep.IsBelow other := by
  obtain ⟨g, version, ver', hglo, ho, hlt⟩ := hb
  rw [Raises] at h
  cases hdep : dep.global? with
  | none =>
    rw [hdep] at h
    obtain rfl := h
    rw [hdep] at hglo
    cases hglo
  | some p =>
    obtain ⟨g0, ver0⟩ := p
    rw [hdep] at h
    obtain ⟨version1, hglo1, hle⟩ := h
    rw [hglo] at hglo1
    obtain ⟨rfl, rfl⟩ := Prod.mk.inj (Option.some.inj hglo1)
    exact ⟨g, ver0, ver', hdep, ho, hle.trans_lt hlt⟩

theorem Raises.isBelow_of_ne (h : dep.Raises dep') (hne : dep' ≠ dep) : dep.IsBelow dep' := by
  rw [Raises] at h
  cases hdep : dep.global? with
  | none =>
    rw [hdep] at h
    exact absurd h hne
  | some p =>
    rw [hdep] at h
    obtain ⟨ver', hglo, hle⟩ := h
    refine ⟨p.1, p.2, ver', hdep, hglo, lt_of_le_of_ne hle fun heq => hne ?_⟩
    rw [← SemanticVersion.key_injective heq] at hglo
    exact eq_of_global? hglo hdep

theorem not_isBelow_self (dep : BuildTargetAbsoluteName) : ¬dep.IsBelow dep := by
  rintro ⟨g, version, version', hglo, hglo', hlt⟩
  rw [hglo] at hglo'
  obtain ⟨-, rfl⟩ := Prod.mk.inj (Option.some.inj hglo')
  exact lt_irrefl _ hlt

section

open scoped Classical

/-- The number of versions a dependency can still be raised to. -/
noncomputable def rank (names : List BuildTargetAbsoluteName) (dep : BuildTargetAbsoluteName) : Nat :=
  (names.filter fun other => decide (dep.IsBelow other)).length

theorem Raises.rank_le {dep dep' : BuildTargetAbsoluteName} (h : dep.Raises dep')
    (ns : List BuildTargetAbsoluteName) : dep'.rank ns ≤ dep.rank ns := by
  refine (monotone_filter_right ns fun other ho => ?_).length_le
  exact decide_eq_true (h.isBelow (of_decide_eq_true ho))

theorem Raises.rank_lt {dep dep' : BuildTargetAbsoluteName} (h : dep.Raises dep')
    {ns : List BuildTargetAbsoluteName} (hmem : dep' ∈ ns) (hne : dep' ≠ dep) :
    dep'.rank ns < dep.rank ns := by
  have hsp : (ns.filter fun other => decide (dep'.IsBelow other)) =
      (ns.filter fun other => decide (dep.IsBelow other)).filter
        fun other => decide (dep'.IsBelow other) := by
    rw [filter_filter]
    refine filter_congr fun other _ => ?_
    by_cases ho : dep'.IsBelow other
    · rw [decide_eq_true ho, decide_eq_true (h.isBelow ho), Bool.true_and]
    · rw [decide_eq_false ho, Bool.false_and]
  rw [rank, hsp]
  refine length_filter_lt_length_iff_exists.2 ⟨dep', ?_, ?_⟩
  · exact mem_filter.2 ⟨hmem, decide_eq_true (h.isBelow_of_ne hne)⟩
  · rw [decide_eq_true_eq]
    exact dep'.not_isBelow_self

end

end BuildTargetAbsoluteName

namespace WorkspaceInfo

variable {order : IterationOrder} {workspace : WorkspaceInfo}

/-- Only versions of dependencies differ.  They are raised, and they are versions which are there. -/
def Raised (workspace workspace' : WorkspaceInfo) : Prop :=
  ∃ f, workspace' = workspace.mapDependencies f ∧
    ∀ name dep, workspace.Uses name dep → dep.Raises (f name dep) ∧ f name dep ∈ workspace.names

theorem Raised.refl (hcls : workspace.IsClosed) : workspace.Raised workspace :=
  ⟨fun _ dep => dep, mapDependencies_id.symm, fun n dep hus => ⟨.refl dep, hcls n dep hus⟩⟩

theorem Raised.trans {workspace1 workspace2 : WorkspaceInfo} (h1 : workspace.Raised workspace1)
    (h2 : workspace1.Raised workspace2) : workspace.Raised workspace2 := by
  obtain ⟨f1, rfl, hf1⟩ := h1
  obtain ⟨f2, rfl, hf2⟩ := h2
  refine ⟨_, mapDependencies_mapDependencies, fun n dep hus => ?_⟩
  obtain ⟨hrai, hmem⟩ := hf2 n (f1 n dep) (uses_mapDependencies.2 ⟨dep, hus, rfl⟩)
  rw [names_mapDependencies] at hmem
  exact ⟨(hf1 n dep hus).1.trans hrai, hmem⟩

variable {workspace' : WorkspaceInfo}

theorem Raised.isClosed (h : workspace.Raised workspace') : workspace'.IsClosed := by
  obtain ⟨f, rfl, hf⟩ := h
  intro n dep' hus'
  obtain ⟨dep, hus, rfl⟩ := uses_mapDependencies.1 hus'
  rw [names_mapDependencies]
  exact (hf n dep hus).2

theorem Unified.raised {g : GlobalPackageBuildTargetName}
    (hcls : workspace.IsClosed) (h : workspace.Unified g workspace') : workspace.Raised workspace' := by
  obtain ⟨f, rfl, hf⟩ := h.exists_map
  refine ⟨f, rfl, fun n dep hus => ?_⟩
  rcases hf n dep hus with ⟨-, heq⟩ | ⟨ver, hmax, ⟨ver', hver⟩, hset⟩
  · rw [heq]
    exact ⟨.refl dep, hcls n dep hus⟩
  · constructor
    · exact raises_of_global?
        (versionOf?_eq_some_iff.1 hver)
        (versionOf?_eq_some_iff.1 hset)
        (hmax.le n dep ver' .refl hus hver)
    · -- The greatest version is the one of a dependency in the component.
      obtain ⟨n0, dep0, -, hus0, hver0⟩ := hmax.attained
      rw [eq_of_versionOf? hset hver0]
      exact hcls n0 dep0 hus0

/-- How often versions of the workspace can still be raised. -/
noncomputable def totalRank (workspace : WorkspaceInfo) : Nat := (workspace.names.map fun name =>
    ((workspace.target name).dependencies.map fun dep => dep.rank workspace.names).sum).sum

theorem Raised.totalRank_le (h : workspace.Raised workspace') :
    workspace'.totalRank ≤ workspace.totalRank := by
  obtain ⟨f, rfl, hf⟩ := h
  rw [totalRank, names_mapDependencies]
  refine sum_le_sum fun n _ => ?_
  rw [dependencies_mapDependencies, map_map]
  exact sum_le_sum fun dep hus => (hf n dep hus).1.rank_le workspace.names

theorem Raised.totalRank_lt (h : workspace.Raised workspace')
    (hne : workspace' ≠ workspace) : workspace'.totalRank < workspace.totalRank := by
  obtain ⟨f, rfl, hf⟩ := h
  rw [ne_eq, mapDependencies_eq_self_iff] at hne
  push Not at hne
  obtain ⟨n, dep, hus, hchg⟩ := hne
  rw [totalRank, names_mapDependencies]
  have hle : ∀ n, ((((workspace.mapDependencies f).target n).dependencies).map
      fun dep => dep.rank workspace.names).sum ≤
        ((workspace.target n).dependencies.map fun dep => dep.rank workspace.names).sum := by
    intro n
    rw [dependencies_mapDependencies, map_map]
    exact sum_le_sum fun dep hus => (hf n dep hus).1.rank_le workspace.names
  refine sum_lt_sum _ _ (fun n _ => hle n) ⟨n, hus.mem_names, ?_⟩
  rw [dependencies_mapDependencies, map_map]
  refine sum_lt_sum _ _ (fun dep hus => (hf n dep hus).1.rank_le workspace.names) ⟨dep, hus, ?_⟩
  exact (hf n dep hus).1.rank_lt (hf n dep hus).2 hchg

/-- What one full iteration over the global build targets makes of a workspace. -/
inductive UnifiedAll : List GlobalPackageBuildTargetName → WorkspaceInfo → WorkspaceInfo → Prop where
  | nil (workspace : WorkspaceInfo) : UnifiedAll [] workspace workspace
  | cons {g : GlobalPackageBuildTargetName} {gs : List GlobalPackageBuildTargetName}
      {workspace workspace1 workspace2 : WorkspaceInfo} (hfirst : workspace.Unified g workspace1)
      (hrest : UnifiedAll gs workspace1 workspace2) : UnifiedAll (g :: gs) workspace workspace2

variable {gs : List GlobalPackageBuildTargetName} {workspace1 workspace2 : WorkspaceInfo}

theorem UnifiedAll.unique (h1 : UnifiedAll gs workspace workspace1)
    (h2 : UnifiedAll gs workspace workspace2) : workspace1 = workspace2 := by
  induction h1 with
  | nil => cases h2; rfl
  | cons hfst hrs ih =>
    cases h2 with
    | cons hfst2 hrs2 =>
      rw [← hfst.unique hfst2] at hrs2
      exact ih hrs2

theorem UnifiedAll.raised (h : UnifiedAll gs workspace workspace1) (hcls : workspace.IsClosed) :
    workspace.Raised workspace1 := by
  induction h with
  | nil => exact .refl hcls
  | cons hfst hrs ih =>
    have hrai := hfst.raised hcls
    exact hrai.trans (ih hrai.isClosed)

/-- Versions are not lowered again, so a workspace that comes out unchanged was never changed. -/
theorem UnifiedAll.eq_of_cons {g : GlobalPackageBuildTargetName} (hcls : workspace.IsClosed)
    (hfst : workspace.Unified g workspace1) (hrs : UnifiedAll gs workspace1 workspace) :
    workspace1 = workspace := by
  by_contra hne
  have hrai := hfst.raised hcls
  have hlt := hrai.totalRank_lt hne
  have hle := (hrs.raised hrai.isClosed).totalRank_le
  omega

theorem UnifiedAll.unified (h : UnifiedAll gs workspace workspace) (hcls : workspace.IsClosed) :
    ∀ g ∈ gs, workspace.Unified g workspace := by
  induction gs with
  | nil => nofun
  | cons g gs ih =>
    cases h with
    | cons hfst hrs =>
      obtain rfl := UnifiedAll.eq_of_cons hcls hfst hrs
      intro g' hg'
      rcases mem_cons.1 hg' with rfl | hg'
      · exact hfst
      · exact ih hrs g' hg'

theorem unifyAll_fold (order : IterationOrder) : ∀ (gs : List GlobalPackageBuildTargetName)
    {workspace : WorkspaceInfo} (numChanged : Nat), workspace.IsClosed → ∃ workspace' numChanged',
        gs.foldlM (unifyNext order) (workspace, numChanged) = some (workspace', numChanged') ∧
        UnifiedAll gs workspace workspace' ∧
          (numChanged' = 0 ↔ numChanged = 0 ∧ workspace' = workspace) := by
  intro gs
  induction gs with
  | nil =>
    intro workspace numChanged hcls
    exact ⟨workspace, numChanged, rfl, .nil workspace, by simp only [and_true]⟩
  | cons g gs ih =>
    intro workspace numChanged hcls
    obtain ⟨workspace1, num1, huni, hfst, hc1⟩ := unifyBuildTarget_returns order hcls g
    have hrai := hfst.raised hcls
    obtain ⟨workspace', numChanged', hfold, hrs, hc⟩ := ih (numChanged + num1) hrai.isClosed
    refine ⟨workspace', numChanged', ?_, .cons hfst hrs, ?_⟩
    · rw [foldlM_cons, unifyNext, huni]
      exact hfold
    · rw [hc, Nat.add_eq_zero_iff, hc1, and_assoc]
      refine and_congr_right fun _ => ?_
      constructor
      · rintro ⟨rfl, rfl⟩
        rfl
      · rintro rfl
        have heq := UnifiedAll.eq_of_cons hcls hfst hrs
        exact ⟨heq, heq.symm⟩

theorem unifyAll_returns (order : IterationOrder) (hcls : workspace.IsClosed)
    (gs : List GlobalPackageBuildTargetName) :
    ∃ workspace' numChanged, workspace.unifyAll order gs = some (workspace', numChanged) ∧
      UnifiedAll gs workspace workspace' ∧ (numChanged = 0 ↔ workspace' = workspace) := by
  obtain ⟨workspace', numChanged, hfold, hall, hc⟩ := unifyAll_fold order gs 0 hcls
  simp only [true_and] at hc
  exact ⟨workspace', numChanged, hfold, hall, hc⟩

theorem unifyLoop_cases (hcls : workspace.IsClosed) (order : IterationOrder)
    (gs : List GlobalPackageBuildTargetName) :
    ∃ workspace', UnifiedAll gs workspace workspace' ∧ ((workspace' = workspace ∧
          ∀ remaining, unifyLoop order gs remaining workspace = some (some workspace)) ∨
        (workspace' ≠ workspace ∧ unifyLoop order gs 0 workspace = some none ∧
          ∀ remaining, unifyLoop order gs (remaining + 1) workspace =
            unifyLoop order gs remaining workspace')) := by
  obtain ⟨workspace', numChanged, huni, hall, hc⟩ := unifyAll_returns order hcls gs
  refine ⟨workspace', hall, ?_⟩
  by_cases hz : numChanged = 0
  · have heq := hc.1 hz
    refine .inl ⟨heq, fun remaining => ?_⟩
    rw [unifyLoop, huni]
    simp only [hz, heq, if_true]
  · refine .inr ⟨fun heq => hz (hc.2 heq), ?_, fun remaining => ?_⟩ <;>
      rw [unifyLoop, huni] <;> simp only [hz, if_false]

structure FixedPoint (gs : List GlobalPackageBuildTargetName) (workspace workspace' : WorkspaceInfo) :
    Prop where
  raised : workspace.Raised workspace'
  unified : ∀ g ∈ gs, workspace'.Unified g workspace'

theorem unifyLoop_fixedPoint : ∀ (remaining : Nat) {workspace workspace' : WorkspaceInfo},
    workspace.IsClosed → unifyLoop order gs remaining workspace = some (some workspace') →
      FixedPoint gs workspace workspace' := by
  intro remaining
  induction remaining with
  | zero =>
    intro workspace workspace' hcls h
    obtain ⟨workspace1, hall, ⟨rfl, hend⟩ | ⟨-, hlim, -⟩⟩ := unifyLoop_cases hcls order gs
    · rw [hend] at h
      cases h
      exact ⟨.refl hcls, hall.unified hcls⟩
    · rw [hlim] at h
      cases h
  | succ remaining ih =>
    intro workspace workspace' hcls h
    obtain ⟨workspace1, hall, ⟨rfl, hend⟩ | ⟨-, -, hnx⟩⟩ := unifyLoop_cases hcls order gs
    · rw [hend] at h
      cases h
      exact ⟨.refl hcls, hall.unified hcls⟩
    · rw [hnx] at h
      have hrai := hall.raised hcls
      have hfx := ih hrai.isClosed h
      exact ⟨hrai.trans hfx.raised, hfx.unified⟩

theorem unifyLoop_order (order o' : IterationOrder) (gs : List GlobalPackageBuildTargetName) :
    ∀ (remaining : Nat) {workspace : WorkspaceInfo}, workspace.IsClosed →
      ∃ r, unifyLoop order gs remaining workspace = some r ∧
        unifyLoop o' gs remaining workspace = some r := by
  intro remaining
  induction remaining with
  | zero =>
    intro workspace hcls
    obtain ⟨workspace1, hall, hcs⟩ := unifyLoop_cases hcls order gs
    obtain ⟨ws1', hall', hcs'⟩ := unifyLoop_cases hcls o' gs
    obtain rfl := hall.unique hall'
    obtain ⟨heq, hend⟩ | ⟨hne, hlim, -⟩ := hcs
    · obtain ⟨-, hend'⟩ | ⟨hne', -⟩ := hcs'
      · exact ⟨some workspace, hend 0, hend' 0⟩
      · exact absurd heq hne'
    · obtain ⟨heq', -⟩ | ⟨-, hlim', -⟩ := hcs'
      · exact absurd heq' hne
      · exact ⟨none, hlim, hlim'⟩
  | succ remaining ih =>
    intro workspace hcls
    obtain ⟨workspace1, hall, hcs⟩ := unifyLoop_cases hcls order gs
    obtain ⟨ws1', hall', hcs'⟩ := unifyLoop_cases hcls o' gs
    obtain rfl := hall.unique hall'
    obtain ⟨heq, hend⟩ | ⟨hne, -, hnx⟩ := hcs
    · obtain ⟨-, hend'⟩ | ⟨hne', -⟩ := hcs'
      · exact ⟨some workspace, hend _, hend' _⟩
      · exact absurd heq hne'
    · obtain ⟨heq', -⟩ | ⟨-, -, hnx'⟩ := hcs'
      · exact absurd heq' hne
      · rw [hnx, hnx']
        exact ih (hall.raised hcls).isClosed

theorem unifyLoop_terminates (order : IterationOrder) (gs : List GlobalPackageBuildTargetName) :
    ∀ (remaining : Nat) {workspace : WorkspaceInfo}, workspace.IsClosed →
      workspace.totalRank ≤ remaining →
      ∃ workspace', unifyLoop order gs remaining workspace = some (some workspace') := by
  intro remaining
  induction remaining with
  | zero =>
    intro workspace hcls hrank
    obtain ⟨workspace1, hall, ⟨-, hend⟩ | ⟨hne, -⟩⟩ := unifyLoop_cases hcls order gs
    · exact ⟨workspace, hend 0⟩
    · have hlt := (hall.raised hcls).totalRank_lt hne
      omega
  | succ remaining ih =>
    intro workspace hcls hrank
    obtain ⟨workspace1, hall, ⟨-, hend⟩ | ⟨hne, -, hnx⟩⟩ := unifyLoop_cases hcls order gs
    · exact ⟨workspace, hend _⟩
    · have hrai := hall.raised hcls
      have hlt := hrai.totalRank_lt hne
      rw [hnx]
      exact ih hrai.isClosed (by omega)

end WorkspaceInfo

end USprache.BuildSystem
