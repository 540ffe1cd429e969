import USprache.BuildSystem.DependencyGraph
import USprache.BuildSystem.VersionUnification

/-!
# The users of a global build target

The search for connected components finds exactly the build targets which are joined, whatever the
order of the iteration over hash maps is.
-/

namespace USprache.BuildSystem

open Relation List Prod
open Library

namespace BuildTargetAbsoluteName

variable {n : BuildTargetAbsoluteName}

theorem versionOf?_eq_some_iff {g : GlobalPackageBuildTargetName}
    {ver : SemanticVersion} : n.versionOf? g = some ver ↔ n.global? = some (g, ver) := by
  rw [versionOf?]
  cases n.global? with
  | none => simp only [reduceCtorEq]
  | some p =>
    obtain ⟨g', version'⟩ := p
    by_cases hg : g' = g
    · simp only [hg, if_true, Option.some.injEq, Prod.mk.injEq, true_and]
    · simp only [hg, if_false, Option.some.injEq, Prod.mk.injEq, false_and, reduceCtorEq]

theorem eq_of_global? {n' : BuildTargetAbsoluteName}
    {p : GlobalPackageBuildTargetName × SemanticVersion} (h : n.global? = some p)
    (h' : n'.global? = some p) : n = n' := by
  obtain ⟨⟨base, path⟩, name⟩ := n
  obtain ⟨⟨base', path'⟩, name'⟩ := n'
  rw [← h'] at h
  cases base with
  | rootPackage =>
    rw [h'] at h
    cases h
  | globalVersionedPackage packageName version =>
    cases base' with
    | rootPackage => cases h
    | globalVersionedPackage packageName' version' =>
      obtain ⟨⟨rfl, rfl, rfl⟩, rfl⟩ := h
      rfl

theorem global?_withVersion {g : GlobalPackageBuildTargetName}
    {ver : SemanticVersion} (h : n.global? = some (g, ver)) (ver' : SemanticVersion) :
    (n.withVersion ver').global? = some (g, ver') := by
  obtain ⟨⟨base, path⟩, name⟩ := n
  cases base with
  | rootPackage => cases h
  | globalVersionedPackage packageName ver =>
    obtain ⟨rfl, -⟩ := h
    rfl

end BuildTargetAbsoluteName

theorem IterationOrder.mem_arrange (order : IterationOrder) {α : Type} {l : List α} {x : α} :
    x ∈ order.arrange l ↔ x ∈ l := (order.perm l).mem_iff

namespace WorkspaceInfo

variable (order : IterationOrder) (workspace : WorkspaceInfo)

/-- The build target depends publicly on some version of the given one, directly or not. -/
def PublicUser (g : GlobalPackageBuildTargetName) (name : BuildTargetAbsoluteName) : Prop :=
  ∃ dep version, dep.versionOf? g = some version ∧ TransGen workspace.PublicUses name dep

def Joined (g : GlobalPackageBuildTargetName) (a b : BuildTargetAbsoluteName) : Prop :=
  (workspace.PublicUser g a ∧ workspace.Uses b a) ∨ (workspace.Uses a b ∧ workspace.PublicUser g b)

def IsClosed : Prop := ∀ name dep, workspace.Uses name dep → dep ∈ workspace.names

variable {order workspace}

theorem Valid.isClosed (h : workspace.Valid) : workspace.IsClosed := fun name dep hus =>
  h.mem_names name hus.mem_names dep hus

variable {g : GlobalPackageBuildTargetName} {a b user name : BuildTargetAbsoluteName}
    {components : List (Nat × List BuildTargetAbsoluteName)}

theorem Joined.symm (h : workspace.Joined g a b) : workspace.Joined g b a := by
  rcases h with ⟨hpub, hus⟩ | ⟨hus, hpub⟩
  · exact .inr ⟨hus, hpub⟩
  · exact .inl ⟨hpub, hus⟩

theorem joined_reverse
    (h : ReflTransGen (workspace.Joined g) a b) : ReflTransGen (workspace.Joined g) b a := by
  induction h with
  | refl => exact .refl
  | tail _ hst ih => exact .head hst.symm ih

theorem mem_publicUsers :
    user ∈ workspace.publicUsers order name ↔ workspace.PublicUses user name := by
  rw [publicUsers, mem_flatMap, PublicUses]
  constructor
  · rintro ⟨⟨user', t⟩, he, hmem⟩
    obtain ⟨dep, hdep, rfl⟩ := mem_map.1 hmem
    obtain ⟨hdep, heq⟩ := mem_filter.1 hdep
    rw [target_eq (find_eq_some_iff.2 (order.mem_arrange.1 he)), ← of_decide_eq_true heq]
    exact hdep
  · intro hus
    obtain ⟨t, hfd⟩ := mem_names_iff.1 (PublicUses.uses hus).mem_names
    rw [target_eq hfd] at hus
    refine ⟨(user, t), order.mem_arrange.2 (find_eq_some_iff.1 hfd), ?_⟩
    exact mem_map.2 ⟨name, mem_filter.2 ⟨hus, decide_eq_true rfl⟩, rfl⟩

theorem mem_privateUsers : user ∈ workspace.privateUsers order name ↔
    name ∈ (workspace.target user).privateDependencies ∧ ¬workspace.PublicUses user name := by
  rw [privateUsers, mem_flatMap, PublicUses]
  constructor
  · rintro ⟨⟨user', t⟩, he, hmem⟩
    obtain ⟨dep, hdep, rfl⟩ := mem_map.1 hmem
    obtain ⟨hdep, hcond⟩ := mem_filter.1 hdep
    obtain ⟨heq, hnot⟩ := Bool.and_eq_true_iff.1 hcond
    rw [target_eq (find_eq_some_iff.2 (order.mem_arrange.1 he)), ← of_decide_eq_true heq]
    exact ⟨hdep, of_decide_eq_true hnot⟩
  · rintro ⟨hus, hnot⟩
    have hn : user ∈ workspace.names := Uses.mem_names (mem_append_right _ hus)
    obtain ⟨t, hfd⟩ := mem_names_iff.1 hn
    rw [target_eq hfd] at hus hnot
    refine ⟨(user, t), order.mem_arrange.2 (find_eq_some_iff.1 hfd), ?_⟩
    refine mem_map.2 ⟨name, mem_filter.2 ⟨hus, ?_⟩, rfl⟩
    exact Bool.and_eq_true_iff.2 ⟨decide_eq_true rfl, decide_eq_true hnot⟩

theorem mem_users : user ∈ workspace.publicUsers order name ++ workspace.privateUsers order name ↔
    workspace.Uses user name := by
  rw [mem_append, mem_publicUsers, mem_privateUsers, Uses, BuildTarget.dependencies,
    mem_append]
  tauto

theorem mem_versionsOf : name ∈ workspace.versionsOf order g ↔
    name ∈ workspace.names ∧ ∃ ver, name.versionOf? g = some ver := by
  rw [versionsOf, mem_filter, order.mem_arrange, order.mem_arrange, Option.isSome_iff_exists]

/-- The traversals over users always return, also if there are loops of dependencies. -/
theorem buildBuildTargetUsersSet_returns (order : IterationOrder) (hcls : workspace.IsClosed)
    (g : GlobalPackageBuildTargetName) :
    ∃ publicUsersSet, workspace.buildBuildTargetUsersSet order g = some publicUsersSet ∧
      ∀ name, name ∈ publicUsersSet ↔ workspace.PublicUser g name := by
  have huse : ∀ x ∈ workspace.names, ∀ y ∈ workspace.publicUsers order x, y ∈ workspace.names :=
    fun x _ y hy => (PublicUses.uses (mem_publicUsers.1 hy)).mem_names
  have hstep : ∀ x ∈ (workspace.versionsOf order g).flatMap (workspace.publicUsers order),
      ∀ st, True →
        ∃ st', traverse (workspace.publicUsers order) (fun _ _ => ()) workspace.fuel x st = some st' ∧
          True := by
    intro x hx st _
    obtain ⟨name, -, hx⟩ := mem_flatMap.1 hx
    have hmem := (PublicUses.uses (mem_publicUsers.1 hx)).mem_names
    obtain ⟨st', hst', -⟩ := traverse_returns huse workspace.fuel x st hmem (unvisited_names_lt st.1)
    exact ⟨st', hst', trivial⟩
  obtain ⟨st, hst, -⟩ := foldlM_returns (s := (([], ()) : List BuildTargetAbsoluteName × Unit))
    trivial hstep
  have hsp := traverseAll_spec (fun n st st' => traverse_spec workspace.fuel n st st') hst
  refine ⟨st.1, by rw [buildBuildTargetUsersSet, hst, Option.map_some], fun name => ?_⟩
  rw [hsp.mem_iff]
  have hrch : ∀ x y, ReflTransGen (fun x y => y ∈ workspace.publicUsers order x) x y ↔
      ReflTransGen workspace.PublicUses y x := by
    intro x y
    rw [← reflTransGen_swap]
    have hrel : (fun x y => y ∈ workspace.publicUsers order x) = Function.swap workspace.PublicUses := by
      funext x y
      exact propext mem_publicUsers
    rw [hrel]
  constructor
  · rintro ⟨user, hstart, hp⟩
    obtain ⟨dep, hdep, huser⟩ := mem_flatMap.1 hstart
    obtain ⟨-, ver, hver⟩ := mem_versionsOf.1 hdep
    refine ⟨dep, ver, hver, .tail' ((hrch _ _).1 hp) (mem_publicUsers.1 huser)⟩
  · rintro ⟨dep, ver, hver, hp⟩
    obtain ⟨user, hp, huser⟩ := TransGen.tail'_iff.1 hp
    refine ⟨user, mem_flatMap.2 ⟨dep, ?_, mem_publicUsers.2 huser⟩, (hrch _ _).2 hp⟩
    exact mem_versionsOf.2 ⟨hcls user dep (PublicUses.uses huser), ver, hver⟩

variable {publicUsersSet : List BuildTargetAbsoluteName}

theorem mem_neighbours (hset : ∀ name, name ∈ publicUsersSet ↔ workspace.PublicUser g name) :
    b ∈ workspace.neighbours order publicUsersSet a ↔ workspace.Joined g a b := by
  have hdown : b ∈ (workspace.target a).publicDependencies.filter (· ∈ publicUsersSet) ∨
      b ∈ (workspace.target a).privateDependencies.filter (· ∈ publicUsersSet) ↔
        workspace.Uses a b ∧ workspace.PublicUser g b := by
    simp only [mem_filter, decide_eq_true_eq, hset, Uses, BuildTarget.dependencies, mem_append]
    tauto
  rw [neighbours, mem_append, mem_append, or_assoc, hdown, Joined]
  by_cases ha : a ∈ publicUsersSet
  · rw [if_pos ha, mem_users]
    simp only [(hset a).1 ha, true_and]
  · have hnot : ¬workspace.PublicUser g a := fun h => ha ((hset a).2 h)
    rw [if_neg ha]
    simp only [not_mem_nil, hnot, false_and]

theorem mem_searchRoots : name ∈ (workspace.searchRoots order g).map fst ↔
    ∃ dep ∈ workspace.names, ∃ ver, dep.versionOf? g = some ver ∧ workspace.Uses name dep := by
  rw [searchRoots, zipIdx_map_fst, mem_flatMap]
  constructor
  · rintro ⟨dep, hdep, huser⟩
    obtain ⟨hmem, ver, hver⟩ := mem_versionsOf.1 hdep
    exact ⟨dep, hmem, ver, hver, mem_users.1 huser⟩
  · rintro ⟨dep, hmem, ver, hver, hus⟩
    exact ⟨dep, mem_versionsOf.2 ⟨hmem, ver, hver⟩, mem_users.2 hus⟩

structure Grouped (labels : List (BuildTargetAbsoluteName × Nat))
    (components : List (Nat × List BuildTargetAbsoluteName)) : Prop where
  nodup : (components.map fst).Nodup
  mem_iff : ∀ name index, (name, index) ∈ labels ↔ ∃ names, (index, names) ∈ components ∧ name ∈ names

theorem fst_pushToComponent {i : Nat} : (pushToComponent components i name).map fst =
    if i ∈ components.map fst then components.map fst
    else components.map fst ++ [i] := by
  induction components with
  | nil => rfl
  | cons c components ih =>
    obtain ⟨i', ns⟩ := c
    rw [pushToComponent]
    by_cases hix : i' = i
    · subst hix
      have hmem : i' ∈ ((i', ns) :: components).map fst := mem_cons_self
      rw [if_pos rfl, if_pos hmem]
      rfl
    · have hco : i ∈ ((i', ns) :: components).map fst ↔ i ∈ components.map fst := by
        rw [map_cons, mem_cons]
        exact or_iff_right (Ne.symm hix)
      rw [if_neg hix, map_cons, ih]
      simp only [hco]
      by_cases hmem : i ∈ components.map fst
      · rw [if_pos hmem, if_pos hmem, map_cons]
      · rw [if_neg hmem, if_neg hmem, map_cons, cons_append]

theorem mem_pushToComponent {idx i : Nat} {n : BuildTargetAbsoluteName} :
    (∃ ns, (i, ns) ∈ pushToComponent components idx name ∧ n ∈ ns) ↔
      (n, i) = (name, idx) ∨ ∃ ns, (i, ns) ∈ components ∧ n ∈ ns := by
  induction components with
  | nil =>
    simp only [pushToComponent, mem_singleton, not_mem_nil, false_and, exists_false, or_false,
      Prod.mk.injEq, and_assoc, exists_and_left, exists_eq_left]
    exact and_comm
  | cons c components ih =>
    obtain ⟨i', ns⟩ := c
    rw [pushToComponent]
    by_cases hix : i' = idx
    · rw [if_pos hix]
      simp only [mem_cons, or_and_right, exists_or, Prod.mk.injEq, and_assoc, exists_and_left,
        exists_eq_left, mem_append, ← hix]
      tauto
    · rw [if_neg hix]
      simp only [mem_cons, or_and_right, exists_or, ih]
      exact or_left_comm

theorem grouped_foldl (labels : List (BuildTargetAbsoluteName × Nat)) :
    Grouped labels (labels.foldl (fun components (name, idx) => pushToComponent components idx name)
      []) := by
  induction labels using reverseRecOn with
  | nil =>
    refine ⟨nodup_nil, fun name idx => ?_⟩
    simp only [not_mem_nil, foldl_nil, false_and, exists_false]
  | append_singleton labels label ih =>
    obtain ⟨name, idx⟩ := label
    rw [foldl_append, foldl_cons, foldl_nil]
    refine ⟨?_, fun n i => ?_⟩
    · rw [fst_pushToComponent]
      by_cases hmem : idx ∈ ((labels.foldl (fun components (name, idx) =>
          pushToComponent components idx name) []).map fst)
      · rw [if_pos hmem]
        exact ih.nodup
      · rw [if_neg hmem, nodup_append]
        refine ⟨ih.nodup, nodup_singleton _, fun a ha b hb hab => hmem ?_⟩
        rw [← mem_singleton.1 hb, ← hab]
        exact ha
    · rw [mem_pushToComponent, ← ih.mem_iff, mem_append, mem_singleton]
      exact or_comm

structure ConnectedComponents (workspace : WorkspaceInfo) (g : GlobalPackageBuildTargetName)
    (components : List (Nat × List BuildTargetAbsoluteName)) : Prop where
  disjoint : components.Pairwise fun c c' => ∀ name ∈ c.2, name ∉ c'.2
  mem_iff : ∀ c ∈ components, ∀ name ∈ c.2, ∀ name',
    name' ∈ c.2 ↔ ReflTransGen (workspace.Joined g) name name'
  users : ∀ name dep version, workspace.Uses name dep → dep.versionOf? g = some version →
    ∃ c ∈ components, name ∈ c.2

theorem ConnectedComponents.perm {cs' : List (Nat × List BuildTargetAbsoluteName)}
    (h : workspace.ConnectedComponents g components) (hpm : cs'.Perm components) :
    workspace.ConnectedComponents g cs' where
  disjoint := by
    refine (hpm.pairwise_iff ?_).2 h.disjoint
    exact fun hdj name hn hn' => hdj name hn' hn
  mem_iff c hc := h.mem_iff c (hpm.mem_iff.1 hc)
  users name dep version hus hver := by
    obtain ⟨c, hc, hn⟩ := h.users name dep version hus hver
    exact ⟨c, hpm.mem_iff.2 hc, hn⟩

theorem names_nodup : workspace.names.Nodup := by
  rw [names, Nodup, pairwise_map]
  exact workspace.buildTargets.distinct.imp fun hdf heq => by
    rw [KeysDiffer, heq, beq_self_eq_true] at hdf
    cases hdf

theorem componentIndexMap_returns {succs : BuildTargetAbsoluteName → List BuildTargetAbsoluteName}
    {roots : List (BuildTargetAbsoluteName × Nat)}
    (hsuc : ∀ name, ∀ next ∈ succs name, next ∈ workspace.names)
    (hroo : ∀ name ∈ roots.map fst, name ∈ workspace.names) :
    ∃ labels, labelledWorklist succs
      (roots.length + (workspace.names.map fun name => (succs name).length).sum) roots.reverse [] =
        some labels := by
  have hsum : ∑ name ∈ workspace.names.toFinset, (succs name).length =
      (workspace.names.map fun name => (succs name).length).sum :=
    sum_toFinset _ names_nodup
  have hrets := worklist_returns (S := workspace.names.toFinset)
    (fun name next hnx => mem_toFinset.2 (hsuc name next hnx))
    (roots.length + (workspace.names.map fun name => (succs name).length).sum)
    (roots.reverse.map fst) [] ?_ ?_
  · obtain ⟨result, hres⟩ := hrets
    rw [← map_nil, ← labelledWorklist_forget, Option.map_eq_some_iff] at hres
    obtain ⟨labels, hlab, -⟩ := hres
    exact ⟨labels, hlab⟩
  · intro name hn
    rw [map_reverse, mem_reverse] at hn
    exact mem_toFinset.2 (hroo name hn)
  · rw [length_map, length_reverse, Finset.filter_true_of_mem, hsum]
    exact fun _ _ => not_mem_nil

theorem findBuildTargetUsersGraphConnectedComponents_returns (order : IterationOrder)
    (hcls : workspace.IsClosed)
    (hset : ∀ name, name ∈ publicUsersSet ↔ workspace.PublicUser g name) :
    ∃ components,
      workspace.findBuildTargetUsersGraphConnectedComponents order publicUsersSet g = some components ∧
        workspace.ConnectedComponents g components := by
  have hmem : ∀ a b, b ∈ workspace.neighbours order publicUsersSet a ↔ workspace.Joined g a b :=
    fun a b => mem_neighbours hset
  have hns : ∀ name, ∀ next ∈ workspace.neighbours order publicUsersSet name,
      next ∈ workspace.names := by
    intro name next hnx
    rcases (hmem name next).1 hnx with ⟨-, hus⟩ | ⟨hus, -⟩
    · exact hus.mem_names
    · exact hcls name next hus
  have hroo : ∀ name ∈ (workspace.searchRoots order g).map fst, name ∈ workspace.names := by
    intro name hn
    obtain ⟨dep, -, ver, -, hus⟩ := mem_searchRoots.1 hn
    exact hus.mem_names
  obtain ⟨labels, hlab⟩ := componentIndexMap_returns hns hroo
  have hind : ((workspace.searchRoots order g).map snd).Nodup := by
    rw [searchRoots, zipIdx_map_snd]
    exact nodup_range'
  have hcs := labelledWorklist_components (fun a b hb => (hmem b a).2 ((hmem a b).1 hb).symm)
    (by rw [map_reverse]; exact nodup_reverse.2 hind) hlab
  have hrch : (fun a b => b ∈ workspace.neighbours order publicUsersSet a) = workspace.Joined g := by
    funext a b
    exact propext (hmem a b)
  have hgro := grouped_foldl (order.arrange labels)
  have hgrou : ∀ c ∈ (order.arrange labels).foldl
      (fun components (name, i) => pushToComponent components i name) [],
      ∀ name, name ∈ c.2 ↔ (name, c.1) ∈ labels := by
    rintro ⟨i, ns⟩ hc name
    rw [← order.mem_arrange (l := labels), hgro.mem_iff]
    refine ⟨fun hn => ⟨ns, hc, hn⟩, ?_⟩
    rintro ⟨names', hc', hn⟩
    obtain ⟨-, rfl⟩ := Prod.mk.inj (inj_on_of_nodup_map hgro.nodup hc hc' rfl)
    exact hn
  refine ⟨_, by rw [findBuildTargetUsersGraphConnectedComponents, hlab, Option.map_some], ?_, ?_, ?_⟩
  · have hdf := pairwise_map.1 hgro.nodup
    refine hdf.imp_of_mem fun {c c'} hc hc' hne name hn hn' => hne ?_
    exact eq_of_labels hcs.nodup ((hgrou c hc name).1 hn) ((hgrou c' hc' name).1 hn')
  · intro c hc name hn n'
    rw [hgrou c hc] at hn ⊢
    constructor
    · -- The root of a component is the only one with its index.
      intro hn'
      obtain ⟨root, hroot, hp⟩ := hcs.rooted name c.1 hn
      obtain ⟨root', hroot', hp'⟩ := hcs.rooted n' c.1 hn'
      rw [hrch] at hp hp'
      rw [mem_reverse] at hroot hroot'
      obtain ⟨rfl, -⟩ := Prod.mk.inj (inj_on_of_nodup_map hind hroot hroot' rfl)
      exact (joined_reverse hp).trans hp'
    · intro hp
      induction hp with
      | refl => exact hn
      | tail _ hst ih => exact hcs.closed _ c.1 ih _ ((hmem _ _).2 hst)
  · intro name dep ver hus hver
    have hroot : name ∈ (workspace.searchRoots order g).map fst :=
      mem_searchRoots.2 ⟨dep, hcls name dep hus, ver, hver, hus⟩
    have hlabe := hcs.roots_mem name (by rw [map_reverse]; exact mem_reverse.2 hroot)
    obtain ⟨⟨_, i⟩, hix, rfl⟩ := mem_map.1 hlabe
    obtain ⟨ns, hc, hn⟩ := (hgro.mem_iff _ i).1 (order.mem_arrange.2 hix)
    exact ⟨(i, ns), hc, hn⟩

end WorkspaceInfo

end USprache.BuildSystem
