import USprache.BuildSystem.UnificationLoop

/-!
# What the unification ensures

A build target is connected to the users of all dependencies it can see.  So at a fixed point of the
loop it sees one version of each global build target.
-/

namespace USprache.BuildSystem

open Relation List Option Function GlobalPackageBuildTargetName
open LexSynt (Text asciiText)

theorem count_dropWhile {α : Type} [DecidableEq α] {x el : α} (hne : x ≠ el) (l : List α) :
    (l.dropWhile (· = el)).count x = l.count x := by
  have hsp : (l.takeWhile (· = el) ++ l.dropWhile (· = el)).count x = l.count x := by
    rw [takeWhile_append_dropWhile]
  have hnot : x ∉ l.takeWhile (· = el) := by
    intro hmem
    have hel := mem_takeWhile_imp hmem
    exact hne (of_decide_eq_true hel)
  rw [count_append, count_eq_zero.2 hnot, Nat.zero_add] at hsp
  exact hsp

theorem mem_preserveRepeated {α : Type} [DecidableEq α] {le : α → α → Bool}
    (hant : ∀ a b, le a b = true → le b a = true → a = b) {x : α} {l : List α}
    (hsrt : l.Pairwise fun a b => le a b = true) (hc : 2 ≤ l.count x) :
    x ∈ preserveRepeated l := by
  induction l using preserveRepeated.induct with
  | case1 => exact absurd hc (by rw [count_nil]; omega)
  | case2 el r remaining hhd ih =>
    rw [preserveRepeated, if_pos hhd, mem_cons]
    by_cases hx : x = el
    · exact .inl hx
    · rw [count_cons_of_ne (Ne.symm hx), ← count_dropWhile hx] at hc
      exact .inr (ih ((pairwise_cons.1 hsrt).2.sublist (dropWhile_sublist _)) hc)
  | case3 el r remaining hhd ih =>
    rw [preserveRepeated, if_neg hhd]
    obtain ⟨hel, hrs⟩ := pairwise_cons.1 hsrt
    have hx : x ≠ el := by
      rintro rfl
      refine hhd ?_
      rw [count_cons_self] at hc
      have hmem : x ∈ r := count_pos_iff.1 (by omega)
      cases r with
      | nil => cases hmem
      | cons y r =>
        rw [head?_cons]
        rcases mem_cons.1 hmem with rfl | hmem
        · rfl
        · rw [hant y x ((pairwise_cons.1 hrs).1 x hmem) (hel y mem_cons_self)]
    rw [count_cons_of_ne (Ne.symm hx), ← count_dropWhile hx] at hc
    exact ih (hrs.sublist (dropWhile_sublist _)) hc

namespace GlobalPackageBuildTargetName

theorem key_injective : Injective key := by
  rintro ⟨package, path, name⟩ ⟨package', path', name'⟩ h
  simp only [key, EmbeddingLike.apply_eq_iff_eq, Prod.mk.injEq, textKey_injective.eq_iff] at h
  obtain ⟨rfl, rfl, rfl⟩ := h
  rfl

theorem eq_of_le (a b : GlobalPackageBuildTargetName) (hab : a.le b = true) (hba : b.le a = true) :
    a = b := key_injective (le_antisymm (of_decide_eq_true hab) (of_decide_eq_true hba))

theorem pairwise_mergeSort (l : List GlobalPackageBuildTargetName) :
    (l.mergeSort le).Pairwise fun a b => a.le b = true := by
  refine List.pairwise_mergeSort (fun a b c hab hbc => ?_) (fun a b => ?_) l
  · exact decide_eq_true ((of_decide_eq_true hab).trans (of_decide_eq_true hbc))
  · rw [Bool.or_eq_true, le, le, decide_eq_true_eq, decide_eq_true_eq]
    exact le_total a.key b.key

end GlobalPackageBuildTargetName

theorem two_le_count_filterMap {α β : Type} [DecidableEq β] {f : α → Option β} {a a' : α} {b : β}
    (hne : a ≠ a') (hfa : f a = some b) (hfa' : f a' = some b) :
    ∀ {l : List α}, a ∈ l → a' ∈ l → 2 ≤ (l.filterMap f).count b := by
  have hone : ∀ {a : α} {l : List α}, f a = some b → a ∈ l → 1 ≤ (l.filterMap f).count b :=
    fun hf hmem => count_pos_iff.2 (mem_filterMap.2 ⟨_, hmem, hf⟩)
  intro l
  induction l with
  | nil => nofun
  | cons e l ih =>
    intro ha ha'
    rcases mem_cons.1 ha with rfl | hmem
    · rw [filterMap_cons_some hfa, count_cons_self]
      have := hone hfa' ((mem_cons.1 ha').resolve_left (Ne.symm hne))
      omega
    · rcases mem_cons.1 ha' with rfl | hmem'
      · rw [filterMap_cons_some hfa', count_cons_self]
        have := hone hfa hmem
        omega
      · have hrs := ih hmem hmem'
        have hsub : (l.filterMap f).Sublist ((e :: l).filterMap f) :=
          (sublist_cons_self e l).filterMap f
        exact hrs.trans (hsub.count_le b)

namespace WorkspaceInfo

variable {order : IterationOrder} {workspace : WorkspaceInfo}

theorem preserveInListOnlyElementsWithMoreThanOneOccurrences_perm
    {l l' : List GlobalPackageBuildTargetName} (h : l.Perm l') :
    preserveInListOnlyElementsWithMoreThanOneOccurrences l =
      preserveInListOnlyElementsWithMoreThanOneOccurrences l' := by
  rw [
    preserveInListOnlyElementsWithMoreThanOneOccurrences]
  congr 1
  refine Perm.eq_of_pairwise (fun a b _ _ => eq_of_le a b)
    (pairwise_mergeSort _) (pairwise_mergeSort _) ?_
  exact (mergeSort_perm _ _).trans (h.trans (mergeSort_perm _ _).symm)

theorem globalPackagesBuildTargets_order (order o' : IterationOrder) (workspace : WorkspaceInfo) :
    workspace.globalPackagesBuildTargets order = workspace.globalPackagesBuildTargets o' :=
  preserveInListOnlyElementsWithMoreThanOneOccurrences_perm
    (((order.perm _).trans (o'.perm _).symm).filterMap _)

theorem globalPackagesBuildTargets_mapValues (order : IterationOrder) (workspace : WorkspaceInfo)
    {f : BuildTargetAbsoluteName → BuildTarget → BuildTarget}
    (hf : ∀ name t, (f name t).targetType = t.targetType) :
    globalPackagesBuildTargets order ⟨workspace.buildTargets.mapValues f⟩ =
      workspace.globalPackagesBuildTargets order := by
  apply preserveInListOnlyElementsWithMoreThanOneOccurrences_perm
  refine ((order.perm _).filterMap _).trans (.trans ?_ ((order.perm _).filterMap _).symm)
  rw [FiniteMap.mapValues, filterMap_map]
  refine Perm.of_eq (filterMap_congr fun e _ => ?_)
  simp only [comp_apply, hf]

variable {version : SemanticVersion} {dep name : BuildTargetAbsoluteName} {ver' : SemanticVersion}

theorem mem_globalPackagesBuildTargets (order : IterationOrder) {g : GlobalPackageBuildTargetName}
    {n n' : BuildTargetAbsoluteName} (hne : n ≠ n') (hn : n ∈ workspace.names)
    (hn' : n' ∈ workspace.names) (hty : (workspace.target n).targetType ≠ .executable)
    (hty' : (workspace.target n').targetType ≠ .executable) (hver : n.versionOf? g = some version)
    (hver' : n'.versionOf? g = some ver') : g ∈ workspace.globalPackagesBuildTargets order := by
  obtain ⟨t, hfd⟩ := mem_names_iff.1 hn
  obtain ⟨t', hfd'⟩ := mem_names_iff.1 hn'
  rw [target_eq hfd] at hty
  rw [target_eq hfd'] at hty'
  have he : (n, t) ≠ (n', t') := fun heq => hne (Prod.mk.inj heq).1
  refine mem_preserveRepeated eq_of_le (pairwise_mergeSort _) ?_
  rw [(mergeSort_perm _ _).count_eq]
  refine two_le_count_filterMap he ?_ ?_ (order.mem_arrange.2 (find_eq_some_iff.1 hfd))
    (order.mem_arrange.2 (find_eq_some_iff.1 hfd'))
  · simp only [if_neg hty]
    rw [BuildTargetAbsoluteName.versionOf?_eq_some_iff.1 hver, map_some]
  · simp only [if_neg hty']
    rw [BuildTargetAbsoluteName.versionOf?_eq_some_iff.1 hver', map_some]

/-- The dependency is one of the public dependencies including transitive ones, or of the private
dependencies with their transitive public dependencies. -/
def Sees (workspace : WorkspaceInfo) (name dep : BuildTargetAbsoluteName) : Prop :=
  TransGen workspace.PublicUses name dep ∨
    ∃ dep' ∈ (workspace.target name).privateDependencies, ReflTransGen workspace.PublicUses dep' dep

variable {g : GlobalPackageBuildTargetName}

theorem joined_of_publicUses {a user : BuildTargetAbsoluteName}
    (hver : dep.versionOf? g = some version) (huser : workspace.PublicUses user dep)
    (hp : ReflTransGen workspace.PublicUses a user) : ReflTransGen (workspace.Joined g) a user := by
  induction hp using ReflTransGen.head_induction_on with
  | refl => exact .refl
  | head hst hrs ih =>
    exact .head (.inr ⟨PublicUses.uses hst, dep, version, hver, .tail' hrs huser⟩) ih

theorem Sees.connected (h : workspace.Sees name dep) (hver : dep.versionOf? g = some version) :
    ∃ user, workspace.Uses user dep ∧ ReflTransGen (workspace.Joined g) name user := by
  rcases h with hpub | ⟨dep', hprv, hp⟩
  · obtain ⟨user, hp, huser⟩ := TransGen.tail'_iff.1 hpub
    exact ⟨user, PublicUses.uses huser, joined_of_publicUses hver huser hp⟩
  · have hus : workspace.Uses name dep' := mem_append_right _ hprv
    rcases ReflTransGen.cases_tail hp with rfl | ⟨user, hp, huser⟩
    · exact ⟨name, hus, .refl⟩
    · refine ⟨user, PublicUses.uses huser, .head ?_ (joined_of_publicUses hver huser hp)⟩
      exact .inr ⟨hus, dep, version, hver, .tail' hp huser⟩

theorem Sees.uses (h : workspace.Sees name dep) : ∃ user, workspace.Uses user dep := by
  rcases h with hpub | ⟨dep', hprv, hp⟩
  · obtain ⟨user, -, huser⟩ := TransGen.tail'_iff.1 hpub
    exact ⟨user, PublicUses.uses huser⟩
  · rcases ReflTransGen.cases_tail hp with rfl | ⟨user, -, huser⟩
    · exact ⟨name, mem_append_right _ hprv⟩
    · exact ⟨user, PublicUses.uses huser⟩

/-- If unification changes nothing, then a dependency has the version of its component. -/
theorem Unified.isMaxVersion (h : workspace.Unified g workspace) {user : BuildTargetAbsoluteName}
    (hus : workspace.Uses user dep)
    (hver : dep.versionOf? g = some version) :
    workspace.IsMaxVersion g (ReflTransGen (workspace.Joined g) user) version := by
  obtain ⟨f, hmap, hf⟩ := h.exists_map
  have hfx := mapDependencies_eq_self_iff.1 hmap.symm user dep hus
  rcases hf user dep hus with ⟨hno, -⟩ | ⟨version', hmax, -, hset⟩
  · rw [hno] at hver
    cases hver
  · rw [hfx, hver] at hset
    rw [some.inj hset]
    exact hmax

theorem Unified.version_eq (h : workspace.Unified g workspace) {dep' : BuildTargetAbsoluteName}
    (hsees : workspace.Sees name dep) (hsees' : workspace.Sees name dep')
    (hver : dep.versionOf? g = some version) (hver' : dep'.versionOf? g = some ver') :
    version = ver' := by
  obtain ⟨user, hus, hp⟩ := hsees.connected hver
  obtain ⟨user', hus', hp'⟩ := hsees'.connected hver'
  have hmax := h.isMaxVersion hus hver
  have hmax' := h.isMaxVersion hus' hver'
  have hcon : ReflTransGen (workspace.Joined g) user = ReflTransGen (workspace.Joined g) user' := by
    funext n
    refine propext ⟨fun hn => ?_, fun hn => ?_⟩
    · exact ((joined_reverse hp').trans hp).trans hn
    · exact ((joined_reverse hp).trans hp').trans hn
  rw [← hcon] at hmax'
  exact hmax.unique hmax'

section

variable (workspace)

theorem target_normalizeDependencies (name : BuildTargetAbsoluteName) :
    workspace.normalizeDependencies.target name = { workspace.target name with
        publicDependencies := normalizeList (workspace.target name).publicDependencies
        privateDependencies := normalizeList (workspace.target name).privateDependencies } := by
  rw [WorkspaceInfo.target, WorkspaceInfo.target, find, find, normalizeDependencies,
    FiniteMap.lookup_mapValues]
  cases workspace.buildTargets.lookup name with
  | some target => rfl
  | none =>
    simp only [map_none, getD_none, normalizeList, mergeSort_nil, removeAdjacentDuplicates]

theorem sees_normalizeDependencies (name dep : BuildTargetAbsoluteName) :
    workspace.normalizeDependencies.Sees name dep ↔ workspace.Sees name dep := by
  have hpub : workspace.normalizeDependencies.PublicUses = workspace.PublicUses := by
    funext a b
    rw [PublicUses, target_normalizeDependencies]
    exact propext mem_normalizeList
  rw [Sees, Sees, hpub, target_normalizeDependencies]
  simp only [mem_normalizeList]

end

theorem Valid.mem_iff_sees (h : workspace.Valid) {name : BuildTargetAbsoluteName}
    (hn : name ∈ workspace.names) :
    ∃ publicDeps privateDeps, workspace.getAllTargetPublicDependencies name = some publicDeps ∧
        workspace.getAllTargetPrivateAndTheirTransitivePublicDependencies name = some privateDeps ∧
        ∀ dep, dep ∈ publicDeps ++ privateDeps ↔ workspace.Sees name dep := by
  obtain ⟨publicDeps, hpub, hmem_pub⟩ := getAllTargetPublicDependencies_returns h hn
  obtain ⟨privateDeps, hprv, hmem_prv⟩ :=
    getAllTargetPrivateAndTheirTransitivePublicDependencies_returns h hn
  refine ⟨publicDeps, privateDeps, hpub, hprv, fun dep => ?_⟩
  rw [mem_append, hmem_pub, hmem_prv, Sees]

theorem Valid.version_eq (h : workspace.Valid)
    (huni : ∀ g ∈ workspace.globalPackagesBuildTargets order, ∀ name dep dep' version ver',
      workspace.Sees name dep → workspace.Sees name dep' → dep.versionOf? g = some version →
        dep'.versionOf? g = some ver' → version = ver')
    {name dep dep' : BuildTargetAbsoluteName} {version : SemanticVersion}
    (hsees : workspace.Sees name dep) (hsees' : workspace.Sees name dep')
    (hver : dep.versionOf? g = some version) (hver' : dep'.versionOf? g = some ver') :
    version = ver' := by
  by_cases heq : dep = dep'
  · rw [heq, hver'] at hver
    exact (some.inj hver).symm
  · have hlib : ∀ {d}, workspace.Sees name d →
        d ∈ workspace.names ∧ (workspace.target d).targetType ≠ .executable := by
      intro d hd
      obtain ⟨user, hus⟩ := hd.uses
      refine ⟨h.isClosed user d hus, ?_⟩
      rcases h.isLibrary user hus.mem_names d hus with hty | hty <;> rw [hty] <;> decide
    have hg := mem_globalPackagesBuildTargets order heq (hlib hsees).1 (hlib hsees').1
      (hlib hsees).2 (hlib hsees').2 hver hver'
    exact huni g hg name dep dep' version ver' hsees hsees' hver hver'

def UnificationStep (order : IterationOrder) (gs : List GlobalPackageBuildTargetName)
    (workspace workspace' : WorkspaceInfo) : Prop :=
  ∃ g ∈ gs, ∃ numChanged, workspace.unifyBuildTarget order g = some (workspace', numChanged)

variable {workspace' : WorkspaceInfo}

theorem raised_of_steps {gs : List GlobalPackageBuildTargetName}
    (hcls : workspace.IsClosed) (h : ReflTransGen (UnificationStep order gs) workspace workspace') :
    workspace.Raised workspace' := by
  induction h with
  | refl => exact .refl hcls
  | tail _ hst ih =>
    obtain ⟨g, -, numChanged, hunif⟩ := hst
    obtain ⟨workspace1, num1, huni1, huni, -⟩ := unifyBuildTarget_returns order ih.isClosed g
    rw [hunif] at huni1
    obtain ⟨rfl, -⟩ := Prod.mk.inj (some.inj huni1)
    exact ih.trans (huni.raised ih.isClosed)

theorem FixedPoint.unifyAll_eq {gs : List GlobalPackageBuildTargetName}
    (h : FixedPoint gs workspace workspace') : workspace'.unifyAll order gs = some (workspace', 0) := by
  have hall : ∀ gs', (∀ g ∈ gs', workspace'.Unified g workspace') → UnifiedAll gs' workspace' workspace' := by
    intro gs'
    induction gs' with
    | nil => exact fun _ => .nil workspace'
    | cons g gs' ih =>
      intro huni
      exact .cons (huni g mem_cons_self) (ih fun g' hg' => huni g' (mem_cons_of_mem g hg'))
  obtain ⟨workspace1, numChanged, hunif, hall1, hc⟩ := unifyAll_returns order h.raised.isClosed gs
  have heq := hall1.unique (hall gs h.unified)
  rw [hunif, heq, hc.2 heq]

/-- The result comes from a fixed point of the loop, and it is a valid workspace. -/
theorem unifyDependencies_cases (hok : workspace.Valid)
    (h : workspace.unifyDependenciesOnGlobalVersionedPackages order = some (some workspace')) :
    workspace'.Valid ∧ ∀ g ∈ workspace'.globalPackagesBuildTargets order,
      ∀ name dep dep' version ver', workspace'.Sees name dep → workspace'.Sees name dep' →
        dep.versionOf? g = some version → dep'.versionOf? g = some ver' → version = ver' := by
  rw [unifyDependenciesOnGlobalVersionedPackages] at h
  by_cases he : (workspace.globalPackagesBuildTargets order).isEmpty = true
  · simp only [if_pos he, some.injEq] at h
    obtain rfl := h
    refine ⟨hok, fun g hg => ?_⟩
    rw [isEmpty_iff.1 he] at hg
    cases hg
  · simp only [if_neg he] at h
    cases hlp : unifyLoop order (workspace.globalPackagesBuildTargets order) fullIterationsLimit
      workspace with
    | none =>
      rw [hlp] at h
      cases h
    | some r =>
      cases r with
      | none =>
        rw [hlp] at h
        cases h
      | some unified =>
        rw [hlp, map_eq_some_iff] at h
        obtain ⟨ok, hchk, heq⟩ := h
        cases ok with
        | false => cases heq
        | true =>
          obtain rfl := some.inj heq
          have hfx := unifyLoop_fixedPoint _ hok.isClosed hlp
          obtain ⟨f, hmap, -⟩ := hfx.raised
          refine ⟨valid_of_check hchk, fun g hg name dep dep' version ver' hsees hsees' => ?_⟩
          have hg' : g ∈ workspace.globalPackagesBuildTargets order := by
            rw [normalizeDependencies, globalPackagesBuildTargets_mapValues] at hg
            · rw [hmap, mapDependencies, globalPackagesBuildTargets_mapValues] at hg
              · exact hg
              · exact fun _ _ => rfl
            · exact fun _ _ => rfl
          rw [sees_normalizeDependencies] at hsees hsees'
          exact (hfx.unified g hg').version_eq hsees hsees'

theorem unifyDependencies_order (hcls : workspace.IsClosed) (order o' : IterationOrder) :
    ∃ r, workspace.unifyDependenciesOnGlobalVersionedPackages order = some r ∧
      workspace.unifyDependenciesOnGlobalVersionedPackages o' = some r := by
  rw [unifyDependenciesOnGlobalVersionedPackages, unifyDependenciesOnGlobalVersionedPackages,
    globalPackagesBuildTargets_order o' order]
  by_cases he : (workspace.globalPackagesBuildTargets order).isEmpty = true
  · simp only [if_pos he]
    exact ⟨some workspace, rfl, rfl⟩
  · simp only [if_neg he]
    obtain ⟨r, hlp, hlp'⟩ := unifyLoop_order order o'
      (workspace.globalPackagesBuildTargets order) fullIterationsLimit hcls
    rw [hlp, hlp']
    cases r with
    | none => exact ⟨none, rfl, rfl⟩
    | some unified =>
      obtain ⟨ok, hchk⟩ := checkWorkspaceDependencyGraphIsValid_returns
        unified.normalizeDependencies
      simp only [hchk]
      exact ⟨_, rfl, rfl⟩

/-- The steps of the loop raise versions, the loop comes to an end, the result has one version of each
global build target for each build target that sees it, and it does not depend on the order of the
iteration over hash maps. -/
theorem unifyDependenciesOnGlobalVersionedPackages_correct (order : IterationOrder)
    (workspace : WorkspaceInfo) (hcheck : workspace.checkWorkspaceDependencyGraphIsValid = some true) :
    (∀ workspace', ReflTransGen (UnificationStep order (workspace.globalPackagesBuildTargets order))
        workspace workspace' → workspace.Raised workspace') ∧
      (∃ limit workspace',
        unifyLoop order (workspace.globalPackagesBuildTargets order) limit workspace =
            some (some workspace') ∧
          workspace'.unifyAll order (workspace.globalPackagesBuildTargets order) =
            some (workspace', 0)) ∧
      (∀ workspace',
        workspace.unifyDependenciesOnGlobalVersionedPackages order = some (some workspace') →
        ∀ name ∈ workspace'.names, ∃ publicDependencies privateDependencies,
          workspace'.getAllTargetPublicDependencies name = some publicDependencies ∧
          workspace'.getAllTargetPrivateAndTheirTransitivePublicDependencies name =
            some privateDependencies ∧
          ∀ g, ∀ dep ∈ publicDependencies ++ privateDependencies,
            ∀ dep' ∈ publicDependencies ++ privateDependencies, ∀ version version',
              dep.versionOf? g = some version → dep'.versionOf? g = some version' →
                version = version') ∧
      ∃ result, ∀ order', workspace.unifyDependenciesOnGlobalVersionedPackages order' = some result := by
  have hvalid := valid_of_check hcheck
  refine ⟨fun workspace' hsteps => raised_of_steps hvalid.isClosed hsteps, ?_, ?_, ?_⟩
  · obtain ⟨workspace', hloop⟩ := unifyLoop_terminates order
      (workspace.globalPackagesBuildTargets order) workspace.totalRank hvalid.isClosed le_rfl
    exact ⟨_, workspace', hloop, (unifyLoop_fixedPoint _ hvalid.isClosed hloop).unifyAll_eq⟩
  · intro workspace' hunify name hname
    obtain ⟨hvalid', hunified⟩ := unifyDependencies_cases hvalid hunify
    obtain ⟨publicDependencies, privateDependencies, hpublic, hprivate, hmem⟩ := hvalid'.mem_iff_sees hname
    refine ⟨publicDependencies, privateDependencies, hpublic, hprivate, ?_⟩
    intro g dep hdep dep' hdep' version version' hversion hversion'
    exact hvalid'.version_eq hunified ((hmem dep).1 hdep) ((hmem dep').1 hdep') hversion hversion'
  · obtain ⟨result, hresult, -⟩ := unifyDependencies_order hvalid.isClosed order order
    refine ⟨result, fun order' => ?_⟩
    obtain ⟨result', hresult', hother⟩ := unifyDependencies_order hvalid.isClosed order order'
    rw [hresult] at hresult'
    rw [hother, hresult']

/-- The maps are iterated in the order in which they were filled. -/
def insertionOrder : IterationOrder where
  arrange := fun l => l
  perm := fun l => .refl l

/-- A build target with the name `l` of version 1.0 or 2.0 of the global package `p`. -/
def versionedLibrary (major : UInt32) : BuildTargetAbsoluteName :=
  ⟨⟨.globalVersionedPackage (asciiText "p") ⟨major, 0, 0, 0⟩, []⟩, asciiText "l"⟩

/-- An executable uses version 1.0 of a library and a library which uses version 2.0 of it. -/
def workspaceWithTwoVersions : WorkspaceInfo where
  buildTargets :=
    { entries :=
        [(⟨⟨.rootPackage, []⟩, asciiText "a"⟩,
            { targetType := .executable
              privateDependencies := [⟨⟨.rootPackage, []⟩, asciiText "b"⟩, versionedLibrary 1] }),
          (⟨⟨.rootPackage, []⟩, asciiText "b"⟩,
            { targetType := .library, publicDependencies := [versionedLibrary 2] }),
          (versionedLibrary 1, { targetType := .library }),
          (versionedLibrary 2, { targetType := .library })]
      distinct := by
        simp only [pairwise_cons, mem_cons, not_mem_nil, forall_eq_or_imp, KeysDiffer,
          false_implies, implies_true, Pairwise.nil, and_true]
        decide }

theorem unifyDependenciesOnGlobalVersionedPackages_twoVersions :
    workspaceWithTwoVersions.checkWorkspaceDependencyGraphIsValid = some true ∧
      (workspaceWithTwoVersions.unifyBuildTarget insertionOrder
          ⟨asciiText "p", [], asciiText "l"⟩).map (fun changed =>
        ((changed.1.target ⟨⟨.rootPackage, []⟩, asciiText "a"⟩).privateDependencies, changed.2)) =
        some ([⟨⟨.rootPackage, []⟩, asciiText "b"⟩, versionedLibrary 2], 1) ∧
      ∃ result, ∀ order',
        workspaceWithTwoVersions.unifyDependenciesOnGlobalVersionedPackages order' = some result := by
  have hcheck : workspaceWithTwoVersions.checkWorkspaceDependencyGraphIsValid = some true := by
    decide +kernel
  refine ⟨hcheck, by decide +kernel, ?_⟩
  exact (unifyDependenciesOnGlobalVersionedPackages_correct insertionOrder workspaceWithTwoVersions
    hcheck).2.2.2

end WorkspaceInfo

end USprache.BuildSystem
