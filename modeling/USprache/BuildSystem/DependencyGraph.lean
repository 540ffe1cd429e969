import USprache.BuildSystem.Workspace
import USprache.Library.Reachability

/-!
# The dependency graph

What the check of a workspace ensures, and what the recursive functions over a workspace that
has passed it return.
-/

namespace USprache.BuildSystem

open Relation List
open Library (unvisited unvisited_mono unvisited_cons_lt foldlM_returns)

section

variable {α β : Type}

theorem foldlM_and {f : α → Option Bool} :
    ∀ {xs : List α} {b : Bool}, xs.foldlM (fun ok x => (f x).map (ok && ·)) b = some true →
      b = true ∧ ∀ x ∈ xs, f x = some true := by
  intro xs
  induction xs with
  | nil =>
    intro b h
    exact ⟨Option.some.inj h, fun _ hx => by cases hx⟩
  | cons x xs ih =>
    intro b h
    rw [foldlM_cons] at h
    cases hx : f x with
    | none =>
      rw [hx] at h
      cases h
    | some r =>
      rw [hx] at h
      obtain ⟨hand, hrs⟩ := ih h
      obtain ⟨rfl, rfl⟩ := (Bool.and_eq_true_iff).1 hand
      refine ⟨rfl, fun y hy => ?_⟩
      rcases mem_cons.1 hy with rfl | hy
      · exact hx
      · exact hrs y hy

theorem foldlM_collects {f : List α → β → Option (List α)} {S : β → α → Prop} {bs : List β}
    (h : ∀ b ∈ bs, ∀ r, ∃ r', f r b = some r' ∧ ∀ x, x ∈ r' ↔ x ∈ r ∨ S b x) :
    ∀ r, ∃ r', bs.foldlM f r = some r' ∧ ∀ x, x ∈ r' ↔ x ∈ r ∨ ∃ b ∈ bs, S b x := by
  induction bs with
  | nil =>
    intro r
    refine ⟨r, rfl, fun x => ?_⟩
    simp only [not_mem_nil, false_and, exists_false, or_false]
  | cons b bs ih =>
    intro r
    obtain ⟨r1, hb, hmem1⟩ := h b mem_cons_self r
    obtain ⟨r2, hbs, hmem2⟩ := ih (fun b' hb' => h b' (mem_cons_of_mem b hb')) r1
    refine ⟨r2, ?_, fun x => ?_⟩
    · rw [foldlM_cons, hb]
      exact hbs
    · rw [hmem2, hmem1, or_assoc]
      simp only [mem_cons, exists_eq_or_imp]

end

namespace WorkspaceInfo

variable (workspace : WorkspaceInfo)

def Uses (a b : BuildTargetAbsoluteName) : Prop := b ∈ (workspace.target a).dependencies

def PublicUses (a b : BuildTargetAbsoluteName) : Prop := b ∈ (workspace.target a).publicDependencies

/-- The chains of dependencies from the target have fewer targets than `n`, including it. -/
inductive HasDepth : Nat → BuildTargetAbsoluteName → Prop where
  | intro {n : Nat} {name : BuildTargetAbsoluteName} (h : ∀ dep, workspace.Uses name dep → HasDepth n dep) :
      HasDepth (n + 1) name

structure Valid : Prop where
  depth : ∀ name ∈ workspace.names, workspace.HasDepth workspace.fuel name
  mem_names : ∀ name ∈ workspace.names, ∀ dep, workspace.Uses name dep → dep ∈ workspace.names
  isLibrary : ∀ name ∈ workspace.names, ∀ dep, workspace.Uses name dep →
    (workspace.target dep).targetType = .library ∨ (workspace.target dep).targetType = .sharedLibrary

variable {workspace}

theorem PublicUses.uses {a b : BuildTargetAbsoluteName} (h : workspace.PublicUses a b) :
    workspace.Uses a b := mem_append_left _ h

variable {name : BuildTargetAbsoluteName} {n : Nat}

theorem find_eq_some_iff {t : BuildTarget} :
    workspace.find name = some t ↔ (name, t) ∈ workspace.buildTargets.entries := by
  rw [find, FiniteMap.lookup, FiniteMap.lookupIn_eq_some_iff workspace.buildTargets.distinct]
  constructor
  · rintro ⟨k, hmem, hk⟩
    obtain rfl := eq_of_beq hk
    exact hmem
  · exact fun hmem => ⟨name, hmem, beq_self_eq_true name⟩

theorem mem_names_iff : name ∈ workspace.names ↔ ∃ t, workspace.find name = some t := by
  rw [names, mem_map]
  constructor
  · rintro ⟨⟨_, t⟩, hmem, rfl⟩
    exact ⟨t, find_eq_some_iff.2 hmem⟩
  · rintro ⟨t, hfd⟩
    exact ⟨(name, t), find_eq_some_iff.1 hfd, rfl⟩

theorem target_eq {t : BuildTarget}
    (h : workspace.find name = some t) : workspace.target name = t := by
  rw [WorkspaceInfo.target, h, Option.getD_some]

theorem Uses.mem_names {a b : BuildTargetAbsoluteName} (h : workspace.Uses a b) :
    a ∈ workspace.names := by
  rw [mem_names_iff]
  cases hfd : workspace.find a with
  | some t => exact ⟨t, rfl⟩
  | none =>
    rw [Uses, WorkspaceInfo.target, hfd] at h
    cases h

theorem HasDepth.acc (h : workspace.HasDepth n name) :
    Acc (fun b a => workspace.Uses a b) name := by
  induction h with
  | intro _ ih => exact .intro _ ih

/-- One call of the check accepts a target only after it has accepted its dependencies. -/
theorem hasDepth_of_dependencyGraphIsValidR :
    ∀ {fuel : Nat} {name : BuildTargetAbsoluteName} {stack : List BuildTargetAbsoluteName},
      workspace.dependencyGraphIsValidR fuel name stack = some true →
      workspace.HasDepth fuel name ∧ name ∈ workspace.names ∧
        ∀ dep, workspace.Uses name dep → workspace.typeIsAllowed dep = true ∧ dep ∈ workspace.names := by
  intro fuel
  induction fuel with
  | zero =>
    intro name stack h
    cases h
  | succ fuel ih =>
    intro name stack h
    rw [dependencyGraphIsValidR] at h
    by_cases hstk : name ∈ stack
    · rw [if_pos hstk] at h
      cases h
    rw [if_neg hstk] at h
    cases hfd : workspace.find name with
    | none =>
      rw [hfd] at h
      cases h
    | some t =>
      rw [hfd] at h
      have hfold : t.dependencies.foldlM (fun ok dependency =>
          (if dependency = name then some false
            else (workspace.dependencyGraphIsValidR fuel dependency (stack ++ [name])).map
              (workspace.typeIsAllowed dependency && ·)).map (ok && ·)) true = some true := by
        rw [← h]
        congr 1
        funext ok dependency
        by_cases hsf : dependency = name
        · rw [if_pos hsf, if_pos hsf, Option.map_some, Bool.and_false]
        · rw [if_neg hsf, if_neg hsf, Option.map_map]
          congr 1
          funext r
          exact (Bool.and_assoc _ _ _).symm
      have hdeps := (foldlM_and hfold).2
      have hus : ∀ dep, workspace.Uses name dep → workspace.typeIsAllowed dep = true ∧
            workspace.dependencyGraphIsValidR fuel dep (stack ++ [name]) = some true := by
        intro dep hdep
        rw [Uses, target_eq hfd] at hdep
        have hchk := hdeps dep hdep
        by_cases hsf : dep = name
        · rw [if_pos hsf] at hchk
          cases hchk
        · rw [if_neg hsf, Option.map_eq_some_iff] at hchk
          obtain ⟨r, hres, hand⟩ := hchk
          obtain ⟨hty, rfl⟩ := Bool.and_eq_true_iff.1 hand
          exact ⟨hty, hres⟩
      refine ⟨.intro fun dep hdep => (ih (hus dep hdep).2).1, mem_names_iff.2 ⟨t, hfd⟩,
        fun dep hdep => ⟨(hus dep hdep).1, (ih (hus dep hdep).2).2.1⟩⟩

theorem unvisited_names_lt (seen : List BuildTargetAbsoluteName) :
    unvisited workspace.names seen < workspace.fuel := by
  exact Nat.lt_succ_of_le ((length_filter_le _ _).trans_eq (length_map _))

/-- The call stack has no duplicates, so it is not longer than the workspace. -/
theorem dependencyGraphIsValidR_returns : ∀ fuel name stack, unvisited workspace.names stack < fuel →
    ∃ r, workspace.dependencyGraphIsValidR fuel name stack = some r := by
  intro fuel
  induction fuel with
  | zero => exact fun _ _ h => absurd h (Nat.not_lt_zero _)
  | succ fuel ih =>
    intro name stack hf
    rw [dependencyGraphIsValidR]
    by_cases hstk : name ∈ stack
    · exact ⟨false, if_pos hstk⟩
    rw [if_neg hstk]
    cases hfd : workspace.find name with
    | none => exact ⟨false, rfl⟩
    | some t =>
      have hlt := unvisited_cons_lt (mem_names_iff.2 ⟨t, hfd⟩) hstk
      have hle : unvisited workspace.names (stack ++ [name]) ≤
          unvisited workspace.names (name :: stack) := by
        refine unvisited_mono _ fun x hx => ?_
        rw [mem_append, mem_singleton]
        exact (mem_cons.1 hx).symm
      have hst : ∀ dep ∈ t.dependencies, ∀ ok, True → ∃ ok', (if dep = name then some false
            else (workspace.dependencyGraphIsValidR fuel dep (stack ++ [name])).map
              fun r => ok && workspace.typeIsAllowed dep && r) = some ok' ∧ True := by
        intro dep _ ok _
        by_cases hsf : dep = name
        · exact ⟨false, if_pos hsf, trivial⟩
        · obtain ⟨r, hres⟩ := ih dep (stack ++ [name]) (by omega)
          rw [if_neg hsf, hres]
          exact ⟨_, rfl, trivial⟩
      obtain ⟨ok, hok, -⟩ := foldlM_returns trivial hst
      exact ⟨ok, hok⟩

theorem checkWorkspaceDependencyGraphIsValid_returns (workspace : WorkspaceInfo) :
    ∃ r, workspace.checkWorkspaceDependencyGraphIsValid = some r := by
  have hst : ∀ name ∈ workspace.names, ∀ ok, True →
      ∃ ok', (workspace.dependencyGraphIsValid name).map (ok && ·) = some ok' ∧ True := by
    intro name _ ok _
    obtain ⟨r, hres⟩ := dependencyGraphIsValidR_returns workspace.fuel name [] (unvisited_names_lt [])
    rw [dependencyGraphIsValid, hres]
    exact ⟨_, rfl, trivial⟩
  obtain ⟨ok, hok, -⟩ := foldlM_returns trivial hst
  exact ⟨ok, hok⟩

theorem valid_of_check (h : workspace.checkWorkspaceDependencyGraphIsValid = some true) :
    workspace.Valid := by
  have hall := (foldlM_and h).2
  refine ⟨fun name hn => ?_, fun name hn dep hdep => ?_, fun name hn dep hdep => ?_⟩
  · exact (hasDepth_of_dependencyGraphIsValidR (hall name hn)).1
  · exact ((hasDepth_of_dependencyGraphIsValidR (hall name hn)).2.2 dep hdep).2
  · obtain ⟨hty, hmem⟩ := (hasDepth_of_dependencyGraphIsValidR (hall name hn)).2.2 dep hdep
    obtain ⟨target, hfd⟩ := mem_names_iff.1 hmem
    rw [typeIsAllowed, hfd, decide_eq_true_eq] at hty
    rw [target_eq hfd]
    exact hty

theorem Valid.wellFounded (h : workspace.Valid) : WellFounded fun b a => workspace.Uses a b := by
  refine ⟨fun name => .intro name fun dep hdep => ?_⟩
  exact (h.depth dep (h.mem_names name hdep.mem_names dep hdep)).acc

theorem getAllTargetPublicDependenciesR_returns (h : workspace.HasDepth n name) :
    ∀ r, ∃ r', workspace.getAllTargetPublicDependenciesR n name r = some r' ∧
      ∀ x, x ∈ r' ↔ x ∈ r ∨ TransGen workspace.PublicUses name x := by
  induction h with
  | @intro n name hdeps ih =>
    intro r
    have hst : ∀ dep ∈ (workspace.target name).publicDependencies, ∀ r, ∃ r',
        (workspace.getAllTargetPublicDependenciesR n dep r).map (· ++ [dep]) = some r' ∧
          ∀ x, x ∈ r' ↔ x ∈ r ∨ (x = dep ∨ TransGen workspace.PublicUses dep x) := by
      intro dep hdep r
      obtain ⟨r', hres, hmem⟩ := ih dep (PublicUses.uses hdep) r
      refine ⟨r' ++ [dep], by rw [hres, Option.map_some], fun x => ?_⟩
      rw [mem_append, hmem, mem_singleton]
      tauto
    obtain ⟨r', hfold, hmem⟩ := foldlM_collects hst r
    refine ⟨r', hfold, fun x => ?_⟩
    rw [hmem, TransGen.head'_iff]
    refine or_congr_right ⟨?_, ?_⟩
    · rintro ⟨dep, hdep, rfl | htr⟩
      · exact ⟨x, hdep, .refl⟩
      · exact ⟨dep, hdep, htr.to_reflTransGen⟩
    · rintro ⟨dep, hdep, hrefl⟩
      rcases ReflTransGen.cases_head_iff.1 hrefl with rfl | ⟨_, hst, hrs⟩
      · exact ⟨dep, hdep, .inl rfl⟩
      · exact ⟨dep, hdep, .inr (.head' hst hrs)⟩

theorem getAllTargetPublicDependencies_returns (h : workspace.Valid) (hn : name ∈ workspace.names) :
    ∃ r, workspace.getAllTargetPublicDependencies name = some r ∧
      ∀ x, x ∈ r ↔ TransGen workspace.PublicUses name x := by
  obtain ⟨r, hres, hmem⟩ := getAllTargetPublicDependenciesR_returns (h.depth name hn) []
  refine ⟨normalizeList r, by rw [getAllTargetPublicDependencies, hres, Option.map_some],
    fun x => ?_⟩
  rw [mem_normalizeList, hmem]
  simp only [not_mem_nil, false_or]

theorem getAllTargetPrivateAndTheirTransitivePublicDependencies_returns (h : workspace.Valid)
    (hn : name ∈ workspace.names) :
    ∃ r, workspace.getAllTargetPrivateAndTheirTransitivePublicDependencies name = some r ∧
      ∀ x, x ∈ r ↔ ∃ dep ∈ (workspace.target name).privateDependencies,
        ReflTransGen workspace.PublicUses dep x := by
  have hst : ∀ dep ∈ (workspace.target name).privateDependencies, ∀ r, ∃ r',
      (workspace.getAllTargetPublicDependenciesR workspace.fuel dep r).map (· ++ [dep]) = some r' ∧
        ∀ x, x ∈ r' ↔ x ∈ r ∨ ReflTransGen workspace.PublicUses dep x := by
    intro dep hdep r
    have hdep' := h.mem_names name hn dep (mem_append_right _ hdep)
    obtain ⟨r', hres, hmem⟩ := getAllTargetPublicDependenciesR_returns (h.depth dep hdep') r
    refine ⟨r' ++ [dep], by rw [hres, Option.map_some], fun x => ?_⟩
    rw [mem_append, hmem, mem_singleton, reflTransGen_iff_eq_or_transGen]
    tauto
  obtain ⟨r, hfold, hmem⟩ := foldlM_collects hst []
  refine ⟨normalizeList r, ?_, fun x => ?_⟩
  · rw [getAllTargetPrivateAndTheirTransitivePublicDependencies, hfold, Option.map_some]
  · rw [mem_normalizeList, hmem]
    simp only [not_mem_nil, false_or]

inductive BringsIn (workspace : WorkspaceInfo) : BuildTargetAbsoluteName → BuildTargetAbsoluteName → Prop where
  | self {name : BuildTargetAbsoluteName} (h : (workspace.target name).targetType = .sharedLibrary) :
      BringsIn workspace name name
  | library {name dep x : BuildTargetAbsoluteName} (h : (workspace.target name).targetType = .library)
      (hdep : workspace.Uses name dep) (hx : BringsIn workspace dep x) : BringsIn workspace name x
  | sharedLibrary {name dep x : BuildTargetAbsoluteName}
      (h : (workspace.target name).targetType = .sharedLibrary) (hdep : workspace.PublicUses name dep)
      (hx : BringsIn workspace dep x) : BringsIn workspace name x

theorem BringsIn.isShared {x : BuildTargetAbsoluteName} (h : workspace.BringsIn name x) :
    (workspace.target x).targetType = .sharedLibrary := by
  induction h with
  | self h => exact h
  | library _ _ _ ih => exact ih
  | sharedLibrary _ _ _ ih => exact ih

theorem BringsIn.reaches {x : BuildTargetAbsoluteName} (h : workspace.BringsIn name x) :
    ReflTransGen workspace.Uses name x := by
  induction h with
  | self h => exact .refl
  | library _ hdep _ ih => exact .head hdep ih
  | sharedLibrary _ hdep _ ih => exact .head (PublicUses.uses hdep) ih

theorem getAllTargetSharedLibraryDependenciesToLinkR_returns (h : workspace.HasDepth n name) :
    ∀ r, ∃ r', workspace.getAllTargetSharedLibraryDependenciesToLinkR n name r = some r' ∧
        ∀ x, x ∈ r' ↔ x ∈ r ∨ workspace.BringsIn name x := by
  induction h with
  | @intro n name hdeps ih =>
    intro r
    rw [getAllTargetSharedLibraryDependenciesToLinkR]
    have hno : (workspace.target name).targetType ≠ .library →
        (workspace.target name).targetType ≠ .sharedLibrary → ∀ x, ¬workspace.BringsIn name x := by
      intro hlib hsh x hx
      cases hx with
      | self h | sharedLibrary h => exact hsh h
      | library h => exact hlib h
    cases hty : (workspace.target name).targetType with
    | executable | objectFile =>
      refine ⟨r, rfl, fun x => ?_⟩
      simp only [hno (by rw [hty]; decide) (by rw [hty]; decide) x, or_false]
    | library =>
      obtain ⟨r', hfold, hmem⟩ := foldlM_collects (fun dep hdep => ih dep hdep) r
      refine ⟨r', hfold, fun x => ?_⟩
      rw [hmem]
      refine or_congr_right ⟨?_, fun hx => ?_⟩
      · rintro ⟨dep, hdep, hx⟩
        exact .library hty hdep hx
      · cases hx with
        | self h | sharedLibrary h => rw [hty] at h; cases h
        | library _ hdep hx => exact ⟨_, hdep, hx⟩
    | sharedLibrary =>
      obtain ⟨r', hfold, hmem⟩ :=
        foldlM_collects (fun dep hdep => ih dep (PublicUses.uses hdep)) (r ++ [name])
      refine ⟨r', hfold, fun x => ?_⟩
      rw [hmem, mem_append, mem_singleton, or_assoc]
      refine or_congr_right ⟨?_, fun hx => ?_⟩
      · rintro (rfl | ⟨dep, hdep, hx⟩)
        · exact .self hty
        · exact .sharedLibrary hty hdep hx
      · cases hx with
        | self h => exact .inl rfl
        | library h => rw [hty] at h; cases h
        | sharedLibrary _ hdep hx => exact .inr ⟨_, hdep, hx⟩

theorem getAllTargetSharedLibraryDependenciesToLink_returns (h : workspace.Valid)
    (hn : name ∈ workspace.names) :
    ∃ r, workspace.getAllTargetSharedLibraryDependenciesToLink name = some r ∧
      ∀ x, x ∈ r ↔ ∃ dep, workspace.Uses name dep ∧ workspace.BringsIn dep x := by
  have hst : ∀ dep ∈ (workspace.target name).dependencies, ∀ r, ∃ r',
      workspace.getAllTargetSharedLibraryDependenciesToLinkR workspace.fuel dep r = some r' ∧
        ∀ x, x ∈ r' ↔ x ∈ r ∨ workspace.BringsIn dep x := fun dep hdep =>
    getAllTargetSharedLibraryDependenciesToLinkR_returns (h.depth dep (h.mem_names name hn dep hdep))
  obtain ⟨r, hfold, hmem⟩ := foldlM_collects hst []
  refine ⟨normalizeList r, ?_, fun x => ?_⟩
  · rw [getAllTargetSharedLibraryDependenciesToLink, hfold, Option.map_some]
  · rw [mem_normalizeList, hmem]
    simp only [not_mem_nil, false_or]
    rfl

end WorkspaceInfo

end USprache.BuildSystem
