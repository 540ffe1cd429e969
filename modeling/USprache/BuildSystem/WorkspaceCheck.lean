import USprache.BuildSystem.DependencyGraph

/-!
# The checks of a workspace are exact

The check of the dependency graph accepts the workspaces whose dependencies are libraries and
whose graph has no cycles, and no others.  The recursive functions that follow it have no guard
of their own; an accepted workspace bounds their depth.
-/

namespace USprache.BuildSystem

open Relation List Function BuildTargetAbsoluteName

theorem PackageNameBase.key_injective : Injective key := by
  intro a b h
  cases a with
  | rootPackage =>
    cases b with
    | rootPackage => rfl
    | globalVersionedPackage name ver => cases congrArg (fun k => (ofLex k).1) h
  | globalVersionedPackage name ver =>
    cases b with
    | rootPackage => cases congrArg (fun k => (ofLex k).1) h
    | globalVersionedPackage name' version' =>
      simp only [key, EmbeddingLike.apply_eq_iff_eq, Prod.mk.injEq, true_and,
        textKey_injective.eq_iff] at h
      rw [h.1, SemanticVersion.key_injective h.2]

/-- One of two packages is less than the other, or they are the same. -/
theorem PackageAbsoluteName.eq_of_not_lt {l r : PackageAbsoluteName} (hlr : l.lt r = false)
    (hrl : r.lt l = false) : l = r := by
  obtain ⟨base, path⟩ := l
  have heq := le_antisymm (not_lt.1 (of_decide_eq_false hrl)) (not_lt.1 (of_decide_eq_false hlr))
  simp only [EmbeddingLike.apply_eq_iff_eq, Prod.mk.injEq, textKey_injective.eq_iff] at heq
  rw [PackageNameBase.key_injective heq.1, heq.2]

theorem BuildTargetAbsoluteName.key_injective : Injective key := by
  rintro ⟨⟨base, path⟩, name⟩ ⟨⟨base', path'⟩, name'⟩ h
  simp only [key, EmbeddingLike.apply_eq_iff_eq, Prod.mk.injEq, textKey_injective.eq_iff] at h
  rw [PackageNameBase.key_injective h.1, h.2.1, h.2.2]

def StrictlySorted (list : List BuildTargetAbsoluteName) : Prop :=
  list.Pairwise fun a b => a.key < b.key

theorem strictlySorted_removeAdjacentDuplicates {l : List BuildTargetAbsoluteName}
    (h : l.Pairwise fun a b => a.key ≤ b.key) : StrictlySorted (removeAdjacentDuplicates l) := by
  induction l using removeAdjacentDuplicates.induct with
  | case1 => exact .nil
  | case2 a => exact pairwise_singleton _ a
  | case3 a r ih =>
    rw [removeAdjacentDuplicates, if_pos rfl]
    exact ih (pairwise_cons.1 h).2
  | case4 a b r hne ih =>
    rw [removeAdjacentDuplicates, if_neg hne]
    obtain ⟨ha, hbr⟩ := pairwise_cons.1 h
    refine pairwise_cons.2 ⟨fun x hx => lt_of_le_of_ne (ha x (mem_removeAdjacentDuplicates.1 hx)) ?_, ih hbr⟩
    intro heq
    -- An element equal to the first one would come before the second one.
    refine hne (key_injective (le_antisymm (ha b mem_cons_self) ?_))
    rw [heq]
    rcases mem_cons.1 (mem_removeAdjacentDuplicates.1 hx) with rfl | hx
    · exact le_refl _
    · exact (pairwise_cons.1 hbr).1 x hx

theorem strictlySorted_normalizeList (l : List BuildTargetAbsoluteName) :
    StrictlySorted (normalizeList l) := by
  refine strictlySorted_removeAdjacentDuplicates ?_
  have hp := @pairwise_mergeSort _ le
    (fun a b c hab hbc => decide_eq_true ((of_decide_eq_true hab).trans (of_decide_eq_true hbc)))
    (fun a b => by
      rw [Bool.or_eq_true, le, le, decide_eq_true_eq,
        decide_eq_true_eq]
      exact le_total a.key b.key) l
  exact hp.imp of_decide_eq_true

theorem foldlM_keeps_true {α : Type} {f : Bool → α → Option Bool} :
    ∀ {xs : List α}, (∀ x ∈ xs, ∀ r, f true x = some r → r = true) →
      ∀ r, xs.foldlM f true = some r → r = true := by
  intro xs
  induction xs with
  | nil => exact fun _ r h => (Option.some.inj h).symm
  | cons x xs ih =>
    intro hall r h
    rw [foldlM_cons] at h
    cases hx : f true x with
    | none =>
      rw [hx] at h
      cases h
    | some ok =>
      obtain rfl := hall x mem_cons_self ok hx
      rw [hx] at h
      exact ih (fun y hy => hall y (mem_cons_of_mem x hy)) r h

namespace WorkspaceInfo

variable {workspace retrieved : WorkspaceInfo} {name dep : BuildTargetAbsoluteName}

def DependOnLibraries (workspace : WorkspaceInfo) : Prop :=
  ∀ name dep, workspace.Uses name dep → ∃ target, workspace.find dep = some target ∧
    (target.targetType = .library ∨ target.targetType = .sharedLibrary)

def Acyclic (workspace : WorkspaceInfo) : Prop := ∀ name, ¬TransGen workspace.Uses name name

/-- In an acyclic graph the call stack never contains the target that is checked. -/
theorem eq_true_of_dependencyGraphIsValidR (hlib : workspace.DependOnLibraries)
    (hacy : workspace.Acyclic) :
    ∀ fuel name stack r,
      name ∈ workspace.names → (∀ caller ∈ stack, TransGen workspace.Uses caller name) →
      workspace.dependencyGraphIsValidR fuel name stack = some r → r = true := by
  intro fuel
  induction fuel with
  | zero => exact fun _ _ _ _ _ h => by cases h
  | succ fuel ih =>
    intro name stack r hn hstk h
    rw [dependencyGraphIsValidR, if_neg fun hmem => hacy name (hstk name hmem)] at h
    obtain ⟨target, hfd⟩ := mem_names_iff.1 hn
    rw [hfd] at h
    refine foldlM_keeps_true (fun dep hdep ok hok => ?_) r h
    have hus : workspace.Uses name dep := by
      rw [Uses, target_eq hfd]
      exact hdep
    obtain ⟨depT, hfd', hty⟩ := hlib name dep hus
    rw [if_neg fun heq : dep = name => hacy name (.single (heq ▸ hus))] at hok
    obtain ⟨res, hres, rfl⟩ := Option.map_eq_some_iff.1 hok
    have htrue := ih dep (stack ++ [name]) res (mem_names_iff.2 ⟨depT, hfd'⟩) (fun caller hc => by
      rcases mem_append.1 hc with hc | hc
      · exact (hstk caller hc).tail hus
      · obtain rfl := mem_singleton.1 hc
        exact .single hus) hres
    have hall : workspace.typeIsAllowed dep = true := by
      rw [typeIsAllowed, hfd']
      exact decide_eq_true hty
    rw [htrue, hall]
    rfl

theorem checkWorkspaceDependencyGraphIsValid_iff {r : Bool}
    (h : workspace.checkWorkspaceDependencyGraphIsValid = some r) :
    r = true ↔ workspace.DependOnLibraries ∧ workspace.Acyclic := by
  constructor
  · rintro rfl
    have hval := valid_of_check h
    refine ⟨fun name dep hus => ?_, fun name => Library.not_transGen_of_acc (hval.wellFounded.apply name) .refl⟩
    obtain ⟨t, hfd⟩ := mem_names_iff.1 (hval.mem_names name hus.mem_names dep hus)
    have hty := hval.isLibrary name hus.mem_names dep hus
    rw [target_eq hfd] at hty
    exact ⟨t, hfd, hty⟩
  · rintro ⟨hlib, hacy⟩
    refine foldlM_keeps_true (fun name hn ok hok => ?_) r h
    obtain ⟨res, hres, rfl⟩ := Option.map_eq_some_iff.1 hok
    exact eq_true_of_dependencyGraphIsValidR hlib hacy _ name [] res hn
      nofun hres

/-- What the lists of a target hold after the retrieval. -/
structure RetrievedExactly (workspace : WorkspaceInfo) (name : BuildTargetAbsoluteName)
    (target : BuildTarget) : Prop where
  mem_public : ∀ x, x ∈ target.publicDependenciesIncludingTransitive ↔
    TransGen workspace.PublicUses name x
  mem_private : ∀ x, x ∈ target.privateDependenciesIncludingTransitivePublicDependencies ↔
    (∃ dep ∈ (workspace.target name).privateDependencies, ReflTransGen workspace.PublicUses dep x) ∧
      ¬TransGen workspace.PublicUses name x
  sorted_public : StrictlySorted target.publicDependenciesIncludingTransitive
  sorted_private : StrictlySorted target.privateDependenciesIncludingTransitivePublicDependencies

theorem retrieveTargetDependencies_returns (hval : workspace.Valid) (hn : name ∈ workspace.names)
    (hempty : (workspace.target name).privateDependenciesIncludingTransitivePublicDependencies = []) :
    ∃ t, workspace.retrieveTargetDependencies name (workspace.target name) = some t ∧
      RetrievedExactly workspace name t := by
  obtain ⟨publicDependencies, hpub, hmem_pub⟩ := getAllTargetPublicDependencies_returns hval hn
  obtain ⟨privateDependencies, hprv, hmem_prv⟩ :=
    getAllTargetPrivateAndTheirTransitivePublicDependencies_returns hval hn
  obtain ⟨shared, hsh, -⟩ := getAllTargetSharedLibraryDependenciesToLink_returns hval hn
  refine ⟨_, by rw [retrieveTargetDependencies, hpub, hprv, hsh]; rfl, hmem_pub, fun x => ?_, ?_, ?_⟩
  · simp only [hempty, nil_append, mem_filter, hmem_prv, hmem_pub, decide_not, Bool.not_eq_true',
      decide_eq_false_iff_not]
  · obtain ⟨l, -, rfl⟩ := Option.map_eq_some_iff.1 hpub
    exact strictlySorted_normalizeList l
  · obtain ⟨l, -, rfl⟩ := Option.map_eq_some_iff.1 hprv
    simp only [hempty]
    exact (strictlySorted_normalizeList l).filter _

def BuildTarget.seen (target : BuildTarget) : List BuildTargetAbsoluteName :=
  target.publicDependenciesIncludingTransitive ++
    target.privateDependenciesIncludingTransitivePublicDependencies

theorem dependencyNamesDiffer_iff {t : BuildTarget} : dependencyNamesDiffer t = true ↔
    ∀ a ∈ BuildTarget.seen t, ∀ b ∈ BuildTarget.seen t, a.name = b.name → a = b := by
  rw [dependencyNamesDiffer]
  have hpair : ∀ a b : BuildTargetAbsoluteName,
      (!(decide (a.name = b.name) && a.packageName.lt b.packageName)) = true ↔
        (a.name = b.name → a.packageName.lt b.packageName = false) := fun a b => by
    rw [Bool.not_eq_true', Bool.and_eq_false_iff, decide_eq_false_iff_not, imp_iff_not_or]
  simp only [all_eq_true, hpair]
  constructor
  · intro h a ha b hb hname
    have hpkg := PackageAbsoluteName.eq_of_not_lt (h a ha b hb hname) (h b hb a ha hname.symm)
    obtain ⟨package, n⟩ := a
    obtain ⟨package', n'⟩ := b
    rw [show package = package' from hpkg, show n = n' from hname]
  · intro h a ha b hb hname
    obtain rfl := h a ha b hb hname
    exact decide_eq_false (lt_irrefl _)

theorem retrieve_eq {ok : Bool}
    (h : workspace.retrieveAndCheckWorkspaceTransitiveDependencies = some (retrieved, ok)) :
    retrieved.names = workspace.names ∧ ∀ n ∈ workspace.names,
      workspace.retrieveTargetDependencies n (workspace.target n) = some (retrieved.target n) := by
  rw [retrieveAndCheckWorkspaceTransitiveDependencies] at h
  split at h
  · next hall =>
    obtain ⟨rfl, -⟩ := Prod.mk.inj (Option.some.inj h)
    constructor
    · simp only [names, FiniteMap.mapValues, List.map_map]
      rfl
    · intro n hn
      obtain ⟨t, hfd⟩ := mem_names_iff.1 hn
      have hmem := find_eq_some_iff.1 hfd
      have hsm := all_eq_true.1 hall _ hmem
      obtain ⟨t', htg'⟩ := Option.isSome_iff_exists.1 hsm
      have hfd' : find ⟨workspace.buildTargets.mapValues fun n t =>
          (workspace.retrieveTargetDependencies n t).getD t⟩ n = some t' := by
        rw [find_eq_some_iff, FiniteMap.mapValues, mem_map]
        exact ⟨(n, t), hmem, by rw [htg', Option.getD_some]⟩
      rw [target_eq hfd, target_eq hfd', htg']
  · cases h

/-- The retrieval for a graph that was accepted. -/
theorem retrieve_exactly (hval : workspace.Valid) (hempty : ∀ name ∈ workspace.names,
      (workspace.target name).privateDependenciesIncludingTransitivePublicDependencies = []) :
    ∃ retrieved ok, workspace.retrieveAndCheckWorkspaceTransitiveDependencies = some (retrieved, ok) ∧
      retrieved.names = workspace.names ∧
      (∀ name ∈ workspace.names, RetrievedExactly workspace name (retrieved.target name)) ∧
      (ok = true ↔ ∀ name ∈ workspace.names, ∀ a ∈ BuildTarget.seen (retrieved.target name),
        ∀ b ∈ BuildTarget.seen (retrieved.target name), a.name = b.name → a = b) := by
  have hall : (workspace.buildTargets.entries.all fun entry =>
      (workspace.retrieveTargetDependencies entry.1 entry.2).isSome) = true := by
    rw [all_eq_true]
    rintro ⟨name, t⟩ hmem
    have hfd := find_eq_some_iff.2 hmem
    obtain ⟨t', heq, -⟩ := retrieveTargetDependencies_returns hval (mem_names_iff.2 ⟨t, hfd⟩)
      (hempty name (mem_names_iff.2 ⟨t, hfd⟩))
    rw [target_eq hfd] at heq
    exact Option.isSome_iff_exists.2 ⟨t', heq⟩
  obtain ⟨retrieved, hret⟩ : ∃ retrieved,
      workspace.retrieveAndCheckWorkspaceTransitiveDependencies = some (retrieved,
        retrieved.buildTargets.entries.all fun entry => dependencyNamesDiffer entry.2) :=
    ⟨_, if_pos hall⟩
  obtain ⟨hnames, htg⟩ := retrieve_eq hret
  refine ⟨retrieved, _, hret, hnames, fun name hn => ?_, ?_⟩
  · obtain ⟨t, heq, hex⟩ := retrieveTargetDependencies_returns hval hn (hempty name hn)
    rw [htg name hn] at heq
    rwa [Option.some.inj heq]
  · rw [all_eq_true, ← hnames]
    constructor
    · intro h name hn
      obtain ⟨t, hfd⟩ := mem_names_iff.1 hn
      rw [target_eq hfd]
      exact dependencyNamesDiffer_iff.1 (h _ (find_eq_some_iff.1 hfd))
    · rintro h ⟨name, t⟩ hmem
      have hfd := find_eq_some_iff.2 hmem
      have := h name (mem_names_iff.2 ⟨t, hfd⟩)
      rw [target_eq hfd] at this
      exact dependencyNamesDiffer_iff.2 this

/-- Without two build targets of the same name there are no conflicts of names. -/
theorem names_differ (hval : workspace.Valid) (hname : name ∈ workspace.names) {target : BuildTarget}
    (h : RetrievedExactly workspace name target)
    (hone : ∀ a ∈ workspace.names, ∀ b ∈ workspace.names, a.name = b.name → a = b) :
    ∀ a ∈ BuildTarget.seen target, ∀ b ∈ BuildTarget.seen target, a.name = b.name → a = b := by
  have hreaches : ∀ dep x, dep ∈ workspace.names → ReflTransGen workspace.PublicUses dep x →
      x ∈ workspace.names := by
    intro dep x hdep hx
    induction hx with
    | refl => exact hdep
    | tail _ hlast ih => exact hval.mem_names _ ih _ hlast.uses
  have hseen : ∀ x ∈ BuildTarget.seen target, x ∈ workspace.names := by
    intro x hx
    rcases mem_append.1 hx with hx | hx
    · exact hreaches name x hname ((h.mem_public x).1 hx).to_reflTransGen
    · obtain ⟨⟨dep, hdep, hx⟩, -⟩ := (h.mem_private x).1 hx
      exact hreaches dep x (hval.mem_names name hname dep (mem_append_right _ hdep)) hx
  exact fun a ha b hb => hone a (hseen a ha) b (hseen b hb)

/-- The check of the graph and the retrieval after it. -/
theorem workspace_checks_exact (workspace : WorkspaceInfo) :
    ∃ r, workspace.checkWorkspaceDependencyGraphIsValid = some r ∧
      (r = true ↔ workspace.DependOnLibraries ∧ workspace.Acyclic) ∧
      (r = true → (∀ name ∈ workspace.names,
          (workspace.target name).privateDependenciesIncludingTransitivePublicDependencies = []) →
        ∃ retrieved ok, workspace.retrieveAndCheckWorkspaceTransitiveDependencies = some (retrieved, ok) ∧
          retrieved.names = workspace.names ∧
          (∀ name ∈ workspace.names, RetrievedExactly workspace name (retrieved.target name)) ∧
          (ok = true ↔ ∀ name ∈ workspace.names, ∀ a ∈ BuildTarget.seen (retrieved.target name),
            ∀ b ∈ BuildTarget.seen (retrieved.target name), a.name = b.name → a = b)) := by
  obtain ⟨r, hres⟩ := checkWorkspaceDependencyGraphIsValid_returns workspace
  refine ⟨r, hres, checkWorkspaceDependencyGraphIsValid_iff hres, ?_⟩
  rintro rfl hempty
  exact retrieve_exactly (valid_of_check hres) hempty

def inRoot (name : String) : BuildTargetAbsoluteName := ⟨⟨.rootPackage, []⟩, LexSynt.asciiText name⟩

/-- A library `b`, on which a library `l` and a shared library `s` depend, and an executable `a`
with these two as private dependencies. -/
def diamond : WorkspaceInfo where
  buildTargets :=
    { entries :=
        [(inRoot "a", { targetType := .executable, privateDependencies := [inRoot "l", inRoot "s"] }),
          (inRoot "l", { targetType := .library, publicDependencies := [inRoot "b"] }),
          (inRoot "s", { targetType := .sharedLibrary, publicDependencies := [inRoot "b"] }),
          (inRoot "b", { targetType := .library })]
      distinct := by unfold KeysDiffer; decide }

theorem checkWorkspaceDependencyGraphIsValid_diamond :
    diamond.checkWorkspaceDependencyGraphIsValid = some true := by
  decide

theorem workspace_checks_exact_diamond : ∃ retrieved,
    diamond.retrieveAndCheckWorkspaceTransitiveDependencies = some (retrieved, true) ∧
      ∀ name ∈ diamond.names, RetrievedExactly diamond name (retrieved.target name) := by
  obtain ⟨r, hcheck, -, hretrieval⟩ := workspace_checks_exact diamond
  obtain rfl := Option.some.inj (hcheck.symm.trans checkWorkspaceDependencyGraphIsValid_diamond)
  obtain ⟨retrieved, ok, hretrieve, -, hexact, hok⟩ := hretrieval rfl (by decide)
  obtain rfl := hok.2 fun name hname =>
    names_differ (valid_of_check hcheck) hname (hexact name hname) (by decide)
  exact ⟨retrieved, hretrieve, hexact⟩

end WorkspaceInfo

end USprache.BuildSystem
