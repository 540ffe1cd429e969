import USprache.BuildSystem.UsersGraph

/-!
# One step of the unification

Unification of one global build target gives each dependency on it the greatest version in the
component of its user.  The result is determined by the workspace, so the order of the iteration over
hash maps does not matter.
-/

namespace USprache.BuildSystem

open Relation List BuildTargetAbsoluteName FiniteMap

theorem SemanticVersion.zero_key_le (version : SemanticVersion) :
    SemanticVersion.zero.key ≤ version.key := by
  simp only [zero, key, Prod.Lex.toLex_le_toLex]
  have hz : (0 : UInt32).toNat = 0 := rfl
  omega

namespace WorkspaceInfo

variable {order : IterationOrder} {workspace : WorkspaceInfo}

section

variable {f f' : BuildTargetAbsoluteName → BuildTargetAbsoluteName → BuildTargetAbsoluteName}

@[simp]
theorem names_mapDependencies : (workspace.mapDependencies f).names = workspace.names := by
  simp only [names, mapDependencies, mapValues, List.map_map]
  rfl

theorem target_mapDependencies (n : BuildTargetAbsoluteName) :
    (workspace.mapDependencies f).target n = { workspace.target n with
        publicDependencies := (workspace.target n).publicDependencies.map (f n)
        privateDependencies := (workspace.target n).privateDependencies.map (f n) } := by
  rw [WorkspaceInfo.target, WorkspaceInfo.target, find, find, mapDependencies, lookup_mapValues]
  cases workspace.buildTargets.lookup n <;> rfl

theorem dependencies_mapDependencies (n : BuildTargetAbsoluteName) :
    ((workspace.mapDependencies f).target n).dependencies =
      (workspace.target n).dependencies.map (f n) := by
  rw [target_mapDependencies, BuildTarget.dependencies, BuildTarget.dependencies, map_append]

theorem uses_mapDependencies {n dep' : BuildTargetAbsoluteName} :
    (workspace.mapDependencies f).Uses n dep' ↔ ∃ dep, workspace.Uses n dep ∧ f n dep = dep' := by
  rw [Uses, dependencies_mapDependencies, mem_map]
  rfl

theorem mapDependencies_congr (h : ∀ n dep, workspace.Uses n dep → f n dep = f' n dep) :
    workspace.mapDependencies f = workspace.mapDependencies f' := by
  simp only [mapDependencies, mapValues, WorkspaceInfo.mk.injEq, FiniteMap.mk.injEq]
  refine map_congr_left fun e he => ?_
  obtain ⟨n, t⟩ := e
  have hdeps : ∀ dep ∈ t.dependencies, f n dep = f' n dep := by
    intro dep hdep
    refine h n dep ?_
    rw [Uses, target_eq (find_eq_some_iff.2 he)]
    exact hdep
  have hpub := map_congr_left fun dep hdep => hdeps dep (mem_append_left _ hdep)
  have hprv := map_congr_left fun dep hdep => hdeps dep (mem_append_right _ hdep)
  simp only [hpub, hprv]

theorem mapDependencies_mapDependencies : (workspace.mapDependencies f).mapDependencies f' =
    workspace.mapDependencies fun n dep => f' n (f n dep) := by
  simp only [mapDependencies, mapValues, WorkspaceInfo.mk.injEq, FiniteMap.mk.injEq,
    List.map_map]
  refine map_congr_left fun e he => ?_
  simp only [Function.comp_apply, List.map_map, Prod.mk.injEq, BuildTarget.mk.injEq, true_and, and_true]
  exact ⟨rfl, rfl⟩

theorem mapDependencies_id : (workspace.mapDependencies fun _ dep => dep) = workspace := by
  simp only [mapDependencies, mapValues, map_id']

theorem mapDependencies_eq_self_iff :
    workspace.mapDependencies f = workspace ↔ ∀ n dep, workspace.Uses n dep → f n dep = dep := by
  constructor
  · intro heq n dep hus
    have hmap : ((workspace.mapDependencies f).target n).dependencies = _ :=
      dependencies_mapDependencies n
    rw [heq] at hmap
    exact (map_inj_left.1 (hmap.symm.trans (map_id _).symm)) dep hus
  · intro h
    exact (mapDependencies_congr h).trans mapDependencies_id

end

variable {g : GlobalPackageBuildTargetName}

theorem foldl_maxVersion (deps : List BuildTargetAbsoluteName) (s : SemanticVersion) :
    s.key ≤ (deps.foldl (maxVersion g) s).key ∧
      (∀ dep ∈ deps, ∀ version, dep.versionOf? g = some version →
        version.key ≤ (deps.foldl (maxVersion g) s).key) ∧
      (deps.foldl (maxVersion g) s = s ∨
        ∃ dep ∈ deps, dep.versionOf? g = some (deps.foldl (maxVersion g) s)) := by
  induction deps generalizing s with
  | nil => exact ⟨le_rfl, nofun, .inl rfl⟩
  | cons dep deps ih =>
    obtain ⟨hstart, hall, hatt⟩ := ih (maxVersion g s dep)
    have hst : s.key ≤ (maxVersion g s dep).key ∧
        (∀ version, dep.versionOf? g = some version → version.key ≤ (maxVersion g s dep).key) ∧
        (maxVersion g s dep = s ∨ dep.versionOf? g = some (maxVersion g s dep)) := by
      rw [maxVersion]
      cases hver : dep.versionOf? g with
      | none =>
        exact ⟨le_rfl, fun version h => absurd h (Option.some_ne_none version).symm, .inl rfl⟩
      | some version =>
        simp only [Option.some.injEq]
        by_cases hlt : s.key < version.key
        · rw [if_pos hlt]
          exact ⟨hlt.le, fun version' h => by rw [h], .inr rfl⟩
        · rw [if_neg hlt]
          exact ⟨le_rfl, fun version' h => by rw [← h]; exact not_lt.1 hlt, .inl rfl⟩
    rw [foldl_cons]
    refine ⟨hst.1.trans hstart, fun d hd version hver => ?_, ?_⟩
    · rcases mem_cons.1 hd with rfl | hd
      · exact (hst.2.1 version hver).trans hstart
      · exact hall d hd version hver
    · rcases hatt with heq | ⟨d, hd, hver⟩
      · rw [heq]
        exact hst.2.2.imp_right fun hver => ⟨dep, mem_cons_self, hver⟩
      · exact .inr ⟨d, mem_cons_of_mem dep hd, hver⟩

structure IsMaxVersion (workspace : WorkspaceInfo) (g : GlobalPackageBuildTargetName)
    (buildTargets : BuildTargetAbsoluteName → Prop) (version : SemanticVersion) : Prop where
  attained : ∃ name dep, buildTargets name ∧ workspace.Uses name dep ∧ dep.versionOf? g = some version
  le : ∀ name dep version', buildTargets name → workspace.Uses name dep →
    dep.versionOf? g = some version' → version'.key ≤ version.key

variable {version version' : SemanticVersion} {dep : BuildTargetAbsoluteName}

theorem IsMaxVersion.unique {buildTargets : BuildTargetAbsoluteName → Prop}
    (h : workspace.IsMaxVersion g buildTargets version)
    (h' : workspace.IsMaxVersion g buildTargets version') : version = version' := by
  obtain ⟨n, dep, hn, hus, hver⟩ := h.attained
  obtain ⟨n', dep', hn', hus', hver'⟩ := h'.attained
  apply SemanticVersion.key_injective
  exact le_antisymm (h'.le n dep version hn hus hver) (h.le n' dep' version' hn' hus' hver')

theorem isMaxVersion_getMaxBuildTargetDependencyVersion {buildTargets : List BuildTargetAbsoluteName}
    {n : BuildTargetAbsoluteName} (hn : n ∈ buildTargets)
    (hus : workspace.Uses n dep) (hver : dep.versionOf? g = some version) :
    workspace.IsMaxVersion g (· ∈ buildTargets)
      (workspace.getMaxBuildTargetDependencyVersion buildTargets g) := by
  have hfold : workspace.getMaxBuildTargetDependencyVersion buildTargets g =
      (buildTargets.flatMap fun n => (workspace.target n).dependencies).foldl (maxVersion g) .zero :=
    foldl_flatMap.symm
  obtain ⟨-, hall, hatt⟩ := foldl_maxVersion (g := g)
    (buildTargets.flatMap fun n => (workspace.target n).dependencies) .zero
  rw [← hfold] at hall hatt
  have hle : ∀ n dep version, n ∈ buildTargets → workspace.Uses n dep →
      dep.versionOf? g = some version →
        version.key ≤ (workspace.getMaxBuildTargetDependencyVersion buildTargets g).key :=
    fun n dep version hn hus => hall dep (mem_flatMap.2 ⟨n, hn, hus⟩) version
  refine ⟨?_, hle⟩
  rcases hatt with hz | ⟨dep', hdep', hver'⟩
  · refine ⟨n, dep, hn, hus, ?_⟩
    have heq : version = workspace.getMaxBuildTargetDependencyVersion buildTargets g := by
      apply SemanticVersion.key_injective
      refine le_antisymm (hle n dep version hn hus hver) ?_
      rw [hz]
      exact version.zero_key_le
    rw [← heq]
    exact hver
  · obtain ⟨n', hn', hus'⟩ := mem_flatMap.1 hdep'
    exact ⟨n', dep', hn', hus', hver'⟩

theorem setVersion_of_none (h : dep.versionOf? g = none) : setVersion g version dep = dep := by
  rw [setVersion, h]
  exact if_neg Bool.false_ne_true

theorem setVersion_of_some
    (h : dep.versionOf? g = some version') : setVersion g version dep = dep.withVersion version := by
  rw [setVersion, h]
  exact if_pos rfl

theorem versionOf?_setVersion
    (h : dep.versionOf? g = some version') : (setVersion g version dep).versionOf? g = some version := by
  rw [versionOf?_eq_some_iff] at h ⊢
  rw [setVersion_of_some (versionOf?_eq_some_iff.2 h)]
  exact global?_withVersion h version

theorem eq_of_versionOf? {dep' : BuildTargetAbsoluteName}
    (h : dep.versionOf? g = some version) (h' : dep'.versionOf? g = some version) : dep = dep' :=
  eq_of_global? (versionOf?_eq_some_iff.1 h) (versionOf?_eq_some_iff.1 h')

theorem setVersion_setVersion :
    setVersion g version (setVersion g version dep) = setVersion g version dep := by
  cases h : dep.versionOf? g with
  | none => rw [setVersion_of_none h, setVersion_of_none h]
  | some version' =>
    have hset : (setVersion g version dep).versionOf? g = some version := versionOf?_setVersion h
    exact eq_of_versionOf? (versionOf?_setVersion hset) hset

section

variable {buildTargets : List BuildTargetAbsoluteName}

theorem setDependencyVersion_fold : ∀ workspace numChanged,
    let result := buildTargets.foldl (setDependencyVersion g version) (workspace, numChanged)
    result.1 = (workspace.mapDependencies fun name dep =>
        if name ∈ buildTargets then setVersion g version dep else dep) ∧
      (result.2 = 0 ↔ numChanged = 0 ∧ ∀ name ∈ buildTargets, ∀ dep, workspace.Uses name dep →
        setVersion g version dep = dep) := by
  induction buildTargets with
  | nil =>
    intro workspace numChanged
    simp only [foldl_nil, not_mem_nil, if_false, mapDependencies_id, false_implies, implies_true,
      and_true]
  | cons name buildTargets ih =>
    intro workspace numChanged
    obtain ⟨hrs, hc⟩ := ih (workspace.mapDependencies fun n dependency =>
        if n = name then setVersion g version dependency else dependency)
      (numChanged + ((workspace.target name).dependencies.filter
        fun dependency => setVersion g version dependency ≠ dependency).length)
    refine ⟨?_, ?_⟩
    · rw [foldl_cons, setDependencyVersion, hrs, mapDependencies_mapDependencies]
      refine mapDependencies_congr fun n dep _ => ?_
      by_cases hn : n = name
      · rw [if_pos hn, if_pos (mem_cons.2 (.inl hn)), setVersion_setVersion, ite_self]
      · simp only [hn, if_false, mem_cons, false_or]
    · have hhd : ((workspace.target name).dependencies.filter
          fun dependency => setVersion g version dependency ≠ dependency).length = 0 ↔
          ∀ dep, workspace.Uses name dep → setVersion g version dep = dep := by
        rw [length_eq_zero_iff, filter_eq_nil_iff]
        simp only [decide_not, Bool.not_eq_true', decide_eq_false_iff_not, not_not]
        rfl
      rw [foldl_cons, setDependencyVersion, hc, Nat.add_eq_zero_iff, hhd, and_assoc]
      refine and_congr_right fun _ => ?_
      rw [forall_mem_cons]
      refine and_congr_right fun hfx => ?_
      -- The head has changed nothing, so the rest sees the same workspace.
      have heq : (workspace.mapDependencies fun n dependency =>
          if n = name then setVersion g version dependency else dependency) = workspace := by
        rw [mapDependencies_eq_self_iff]
        intro n dep hus
        by_cases hn : n = name
        · rw [if_pos hn]
          exact hfx dep (hn ▸ hus)
        · exact if_neg hn
      rw [heq]

theorem setBuildTargetDependencyVersion_fst :
    (workspace.setBuildTargetDependencyVersion buildTargets g version).1 =
      (workspace.mapDependencies fun n dep =>
        if n ∈ buildTargets then setVersion g version dep else dep) :=
  (setDependencyVersion_fold workspace 0).1

theorem setBuildTargetDependencyVersion_snd :
    (workspace.setBuildTargetDependencyVersion buildTargets g version).2 = 0 ↔
      (workspace.setBuildTargetDependencyVersion buildTargets g version).1 = workspace := by
  refine .trans (setDependencyVersion_fold workspace 0).2 ?_
  rw [setBuildTargetDependencyVersion_fst, mapDependencies_eq_self_iff]
  constructor
  · rintro ⟨-, hfx⟩ n dep hus
    by_cases hn : n ∈ buildTargets
    · rw [if_pos hn]
      exact hfx n hn dep hus
    · exact if_neg hn
  · intro hfx
    refine ⟨rfl, fun n hn dep hus => ?_⟩
    have heq := hfx n dep hus
    rw [if_pos hn] at heq
    exact heq

end

theorem getMaxBuildTargetDependencyVersion_congr {ws' : WorkspaceInfo}
    {buildTargets : List BuildTargetAbsoluteName}
    (h : ∀ n ∈ buildTargets, (ws'.target n).dependencies = (workspace.target n).dependencies) :
    ws'.getMaxBuildTargetDependencyVersion buildTargets g =
      workspace.getMaxBuildTargetDependencyVersion buildTargets g := by
  refine foldl_ext _ _ _ fun result n hn => ?_
  rw [h n hn]

/-- Components are disjoint, so a component sees the dependencies the workspace had before. -/
theorem unifyComponents_fold : ∀ {cs : List (Nat × List BuildTargetAbsoluteName)},
    cs.Pairwise (fun c c' => ∀ name ∈ c.2, name ∉ c'.2) →
    ∀ workspace numChanged,
      let result := cs.foldl (unifyComponent g) (workspace, numChanged)
        ∃ f, result.1 = workspace.mapDependencies f ∧ (∀ c ∈ cs, ∀ name ∈ c.2,
            f name = setVersion g (workspace.getMaxBuildTargetDependencyVersion c.2 g)) ∧
          (∀ name, (∀ c ∈ cs, name ∉ c.2) → f name = id) ∧
          (result.2 = 0 ↔ numChanged = 0 ∧ result.1 = workspace) := by
  intro cs
  induction cs with
  | nil =>
    intro _ workspace numChanged
    refine ⟨fun _ dep => dep, mapDependencies_id.symm, nofun,
      fun _ _ => rfl, ?_⟩
    simp only [foldl_nil, and_true]
  | cons c cs ih =>
    intro hdj workspace numChanged
    obtain ⟨index, buildTargets⟩ := c
    obtain ⟨hfirst, hdj⟩ := pairwise_cons.1 hdj
    rw [foldl_cons, unifyComponent]
    generalize hver : workspace.getMaxBuildTargetDependencyVersion buildTargets g = version
    have hfst : (workspace.setBuildTargetDependencyVersion buildTargets g version).1 = _ :=
      setBuildTargetDependencyVersion_fst
    have hsnd : (workspace.setBuildTargetDependencyVersion buildTargets g version).2 = 0 ↔ _ :=
      setBuildTargetDependencyVersion_snd
    generalize workspace.setBuildTargetDependencyVersion buildTargets g version = changed at hfst hsnd ⊢
    obtain ⟨ws1, num1⟩ := changed
    simp only at hfst hsnd ⊢
    obtain ⟨f, hres, hin, hout, hcnt⟩ := ih hdj ws1 (numChanged + num1)
    have hsk : ∀ name ∈ buildTargets, f name = id := fun name hnm =>
      hout name fun c hc => hfirst c hc name hnm
    have hkpt : ∀ c ∈ cs, ∀ name ∈ c.2, name ∉ buildTargets := fun c hc name hnm hmem =>
      hfirst c hc name hmem hnm
    have hmap : ws1.mapDependencies f = workspace.mapDependencies fun name dep =>
        f name (if name ∈ buildTargets then setVersion g version dep else dep) := by
      rw [hfst, mapDependencies_mapDependencies]
    refine ⟨_, hres.trans hmap, fun c hc name hnm => ?_, fun name hnm => ?_, ?_⟩
    · rcases mem_cons.1 hc with rfl | hc
      · rw [hsk name hnm, hver]
        funext dep
        exact if_pos hnm
      · have hsame : ws1.getMaxBuildTargetDependencyVersion c.2 g =
            workspace.getMaxBuildTargetDependencyVersion c.2 g := by
          refine getMaxBuildTargetDependencyVersion_congr fun n hn => ?_
          rw [hfst, dependencies_mapDependencies]
          simp only [if_neg (hkpt c hc n hn), map_id']
        rw [hin c hc name hnm, hsame]
        simp only [if_neg (hkpt c hc name hnm)]
    · obtain ⟨hfst', hrs⟩ := forall_mem_cons.1 hnm
      rw [hout name hrs]
      simp only [if_neg hfst']
    · have hbk : workspace.mapDependencies (fun name dep =>
          f name (if name ∈ buildTargets then setVersion g version dep else dep)) = workspace →
            ws1 = workspace := by
        intro heq
        rw [hfst, mapDependencies_eq_self_iff]
        intro name dep hus
        have hfx := mapDependencies_eq_self_iff.1 heq name dep hus
        by_cases hnm : name ∈ buildTargets
        · rw [hsk name hnm] at hfx
          exact hfx
        · exact if_neg hnm
      rw [hcnt, Nat.add_eq_zero_iff, hsnd, and_assoc]
      refine and_congr_right fun _ => ?_
      constructor
      · rintro ⟨hfirst, hrs⟩
        rw [hrs, hfirst]
      · intro heq
        have hfirst := hbk (hmap.symm.trans (hres.symm.trans heq))
        exact ⟨hfirst, heq.trans hfirst.symm⟩

structure Unified (workspace : WorkspaceInfo) (g : GlobalPackageBuildTargetName)
    (workspace' : WorkspaceInfo) : Prop where
  exists_map : ∃ f, workspace' = workspace.mapDependencies f ∧ ∀ name dep, workspace.Uses name dep →
      (dep.versionOf? g = none ∧ f name dep = dep) ∨
        ∃ version, workspace.IsMaxVersion g (ReflTransGen (workspace.Joined g) name) version ∧
          (∃ version', dep.versionOf? g = some version') ∧ (f name dep).versionOf? g = some version

theorem Unified.unique {ws1 ws2 : WorkspaceInfo} (h1 : workspace.Unified g ws1)
    (h2 : workspace.Unified g ws2) : ws1 = ws2 := by
  obtain ⟨f1, rfl, hf1⟩ := h1.exists_map
  obtain ⟨f2, rfl, hf2⟩ := h2.exists_map
  refine mapDependencies_congr fun n dep hus => ?_
  rcases hf1 n dep hus with ⟨hno, heq1⟩ | ⟨version1, hmax1, ⟨version', hver⟩, hset1⟩
  · rcases hf2 n dep hus with ⟨-, heq2⟩ | ⟨ver2, -, ⟨version', hver⟩, -⟩
    · rw [heq1, heq2]
    · rw [hno] at hver
      cases hver
  · rcases hf2 n dep hus with ⟨hno, -⟩ | ⟨ver2, hmax2, -, hset2⟩
    · rw [hno] at hver
      cases hver
    · rw [hmax1.unique hmax2] at hset1
      exact eq_of_versionOf? hset1 hset2

theorem unifyBuildTarget_returns (order : IterationOrder) (hcls : workspace.IsClosed)
    (g : GlobalPackageBuildTargetName) :
    ∃ ws' numChanged, workspace.unifyBuildTarget order g = some (ws', numChanged) ∧
      workspace.Unified g ws' ∧ (numChanged = 0 ↔ ws' = workspace) := by
  obtain ⟨publicUsersSet, huse, hset⟩ := buildBuildTargetUsersSet_returns order hcls g
  obtain ⟨cs, hfd, hcs⟩ := findBuildTargetUsersGraphConnectedComponents_returns order hcls hset
  have harr := hcs.perm (order.perm cs)
  obtain ⟨f, hres, hin, hout, hcnt⟩ := unifyComponents_fold (g := g) harr.disjoint workspace 0
  have huni : workspace.unifyBuildTarget order g =
      some ((order.arrange cs).foldl (unifyComponent g) (workspace, 0)) := by
    rw [unifyBuildTarget, huse, Option.bind_eq_bind, Option.bind_some, hfd]
    rfl
  simp only [true_and] at hcnt
  refine ⟨_, _, huni, ⟨f, hres, fun n dep hus => ?_⟩, hcnt⟩
  cases hver : dep.versionOf? g with
  | none =>
    refine .inl ⟨rfl, ?_⟩
    by_cases hn : ∃ c ∈ order.arrange cs, n ∈ c.2
    · obtain ⟨c, hc, hn⟩ := hn
      rw [hin c hc n hn, setVersion_of_none hver]
    · rw [hout n fun c hc hmem => hn ⟨c, hc, hmem⟩]
      rfl
  | some version' =>
    obtain ⟨c, hc, hn⟩ := harr.users n dep version' hus hver
    have hmax := isMaxVersion_getMaxBuildTargetDependencyVersion hn hus hver
    have hcon : (· ∈ c.2) = ReflTransGen (workspace.Joined g) n := by
      funext name'
      exact propext (harr.mem_iff c hc n hn name')
    rw [hcon] at hmax
    refine .inr ⟨_, hmax, ⟨version', rfl⟩, ?_⟩
    rw [hin c hc n hn]
    exact versionOf?_setVersion hver

end WorkspaceInfo

end USprache.BuildSystem
