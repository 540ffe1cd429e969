import USprache.BuildSystem.Workspace

/-!
# Relative package names

`ResolvePackageAbsoluteName` walks the components of a relative name from those of the package
that it is used in.  The result forgets what the parent is based on.
-/

namespace USprache.BuildSystem

open LexSynt (Text ascii asciiText)
open Ustlib.Path List

/-- `PackageName::name_base` -/
inductive RelativeNameBase where
  | currentPackage
  | globalVersionedPackage (name : Text) (version : SemanticVersion)

structure PackageName where
  nameBase : RelativeNameBase
  path : FilesystemPath

/-- The loop over the components of a relative path. -/
def resolveComponents : List Text → List Text → Option (List Text)
  | components, [] => some components
  | components, child :: rest =>
    if child = dot then resolveComponents components rest
    else if child = dotDot then
      if components = [] then none else resolveComponents components.dropLast rest
    else resolveComponents (components ++ [child]) rest

def concatComponents (components : List Text) : Text :=
  components.foldl (fun path c => (if path ≠ [] then path ++ asciiText "/" else path) ++ c) []

def resolvePackageAbsoluteName (parent : PackageAbsoluteName) (name : PackageName) :
    Except Text PackageAbsoluteName :=
  match name.nameBase with
  | .currentPackage =>
    if name.path = [] then .ok parent
    else match resolveComponents (componentsIter parent.path) (componentsIter name.path) with
      | some components =>
        -- The base has its default value here.
        .ok ⟨.rootPackage, normalize (concatComponents components)⟩
      | none =>
        .error (asciiText "Failed to resolve package dependency \"" ++ name.path ++
          asciiText "\" relative to \"" ++ parent.path ++ asciiText "\" - too many \"..\"!")
  | .globalVersionedPackage base version =>
    if ∃ c ∈ componentsIter name.path, c = dot ∨ c = dotDot then
      .error (asciiText "Paths with \".\" and \"..\" aren't allowed in global package names!")
    else .ok ⟨.globalVersionedPackage base version, name.path⟩

/-- The components of a path followed by others, with `.` and `..` resolved. -/
def walk (components rest : List Text) : List Text :=
  rest.foldl (fun cs c => if c = dot then cs else if c = dotDot then cs.dropLast else cs ++ [c]) components

def isPlain (c : Text) : Bool := c ≠ dot ∧ c ≠ dotDot

/-- Some prefix goes up more often than it and the base go down. -/
def Climbs (depth : Nat) (components : List Text) : Prop :=
  ∃ p, p <+: components ∧ depth + p.countP isPlain < p.count dotDot

variable {parent : PackageAbsoluteName} {cs ds names : List Text}

theorem resolveComponents_append : ∀ {xs : List Text} (cs : List Text),
    resolveComponents cs (xs ++ ds) =
    (resolveComponents cs xs).bind (resolveComponents · ds) := by
  intro xs
  induction xs with
  | nil => exact fun cs => rfl
  | cons c xs ih =>
    intro cs
    rw [cons_append, resolveComponents, resolveComponents]
    split_ifs
    · exact ih cs
    · rfl
    · exact ih cs.dropLast
    · exact ih (cs ++ [c])

theorem walk_of_resolveComponents : ∀ {r cs : List Text},
    resolveComponents cs r = some ds → ds = walk cs r := by
  intro r
  induction r with
  | nil => exact fun h => (Option.some.inj h).symm
  | cons c r ih =>
    intro cs h
    rw [resolveComponents] at h
    rw [walk, foldl_cons]
    split_ifs at h ⊢
    · exact ih h
    · exact ih h
    · exact ih h

theorem climbs_cons {dep : Nat} (c : Text) : Climbs dep (c :: cs) ↔
    ∃ p, p <+: cs ∧ dep + (c :: p).countP isPlain < (c :: p).count dotDot := by
  constructor
  · rintro ⟨p, hp, hlt⟩
    rcases prefix_cons_iff.1 hp with rfl | ⟨q, rfl, hq⟩
    · exact absurd hlt (Nat.not_lt_zero _)
    · exact ⟨q, hq, hlt⟩
  · rintro ⟨p, hp, hlt⟩
    exact ⟨c :: p, prefix_cons_iff.2 (.inr ⟨p, rfl, hp⟩), hlt⟩

theorem resolveComponents_eq_none_iff : ∀ {r cs : List Text},
    resolveComponents cs r = none ↔ Climbs cs.length r := by
  intro r
  induction r with
  | nil =>
    refine fun {cs} => ⟨fun h => (Option.some_ne_none _ h).elim, fun ⟨p, hp, hlt⟩ => ?_⟩
    rw [prefix_nil.1 hp] at hlt
    exact absurd hlt (Nat.not_lt_zero _)
  | cons c r ih =>
    intro cs
    rw [resolveComponents, climbs_cons]
    by_cases hdot : c = dot
    · rw [if_pos hdot, ih, hdot]
      exact exists_congr fun p => and_congr_right fun _ => by
        rw [countP_cons_of_neg (by decide), count_cons_of_ne (by decide)]
    rw [if_neg hdot]
    by_cases hdd : c = dotDot
    · have hcount : ∀ p : List Text, (c :: p).countP isPlain =
          p.countP isPlain ∧ (c :: p).count dotDot = p.count dotDot + 1 := fun p => by
        rw [hdd]
        exact ⟨countP_cons_of_neg (by decide), count_cons_self⟩
      rw [if_pos hdd]
      by_cases hcs : cs = []
      · rw [hcs]
        refine ⟨fun _ => ⟨[], nil_prefix, ?_⟩, fun _ => rfl⟩
        rw [(hcount []).1, (hcount []).2]
        exact Nat.one_pos
      · have hpos := length_pos_iff.2 hcs
        rw [if_neg hcs, ih, length_dropLast]
        refine exists_congr fun p => and_congr_right fun _ => ?_
        rw [(hcount p).1, (hcount p).2]
        omega
    · rw [if_neg hdd, ih, length_append, length_singleton]
      refine exists_congr fun p => and_congr_right fun _ => ?_
      rw [countP_cons_of_pos (show isPlain c = true from decide_eq_true ⟨hdot, hdd⟩), count_cons_of_ne hdd]
      omega

/-- The components of a path without `.` and `..`. -/
def AreOrdinary (cs : List Text) : Prop := ∃ root names, cs = rootPart root ++ names ∧ ∀ d ∈ names, IsOrdinary d

theorem areOrdinary_dropLast (h : AreOrdinary cs) : AreOrdinary cs.dropLast := by
  obtain ⟨root, names, rfl, hall⟩ := h
  cases names using reverseRecOn with
  | nil =>
    refine ⟨false, [], ?_, nofun⟩
    cases root <;> rfl
  | append_singleton names d =>
    rw [← append_assoc, dropLast_concat]
    exact ⟨root, names, rfl, fun x hx => hall x (mem_append_left _ hx)⟩

theorem areOrdinary_concat {d : Text} (h : AreOrdinary cs) (hd : IsOrdinary d) :
    AreOrdinary (cs ++ [d]) := by
  obtain ⟨root, names, rfl, hall⟩ := h
  refine ⟨root, names ++ [d], append_assoc _ _ _, fun x hx => ?_⟩
  rcases mem_append.1 hx with hx | hx
  · exact hall x hx
  · rwa [mem_singleton.1 hx]

theorem AreOrdinary.resolve : ∀ {r cs : List Text}, AreOrdinary cs → (∀ d ∈ r, IsName d) →
    resolveComponents cs r = some ds → AreOrdinary ds := by
  intro r
  induction r with
  | nil =>
    intro cs hcs _ h
    rwa [← Option.some.inj h]
  | cons c r ih =>
    intro cs hcs hall h
    obtain ⟨hc, hrs⟩ := forall_mem_cons.1 hall
    rw [resolveComponents] at h
    split_ifs at h with hdot hdd
    · exact ih hcs hrs h
    · exact ih (areOrdinary_dropLast hcs) hrs h
    · exact ih (areOrdinary_concat hcs ⟨hc, hdot, hdd⟩) hrs h

theorem componentsIter_concatComponents (h : AreOrdinary cs) :
    componentsIter (concatComponents cs) = cs := by
  obtain ⟨root, names, rfl, hall⟩ := h
  induction names using reverseRecOn with
  | nil => cases root <;> rfl
  | append_singleton names d ih =>
    have hd := (hall d (mem_append_right _ mem_cons_self)).1
    have hcs := ih fun x hx => hall x (mem_append_left _ hx)
    rw [← append_assoc, concatComponents, foldl_append, foldl_cons, foldl_nil, ← concatComponents]
    split_ifs with hne
    · rw [append_assoc, show asciiText "/" ++ d = separator :: d from rfl, componentsIter_append _ _ rfl hne,
        hcs, hd.dropWhile, componentsIter_name hd]
    · rw [not_not.1 hne] at hcs ⊢
      rw [nil_append, componentsIter_name hd, ← hcs]
      rfl

theorem componentsIter_resolved (h : AreOrdinary cs) :
    normalize (concatComponents cs) = joinComponents cs ∧ componentsIter (joinComponents cs) = cs := by
  have hcs := componentsIter_concatComponents h
  obtain ⟨root, names, rfl, hall⟩ := h
  exact ⟨normalize_of_ordinary hcs hall, (joined_joinComponents root names fun d hd => (hall d hd).1).components⟩

theorem areOrdinary_componentsIter {p : Text} (h : ∀ c ∈ componentsIter p, c ≠ dot ∧ c ≠ dotDot) :
    AreOrdinary (componentsIter p) := by
  obtain ⟨names, heq, hnames⟩ := components_shape p
  exact ⟨_, names, heq, fun d hd => ⟨hnames d hd, h d (heq ▸ mem_append_right _ hd)⟩⟩

theorem componentsIter_join {p q : Text} (hp : isAbsolute p = false) (hne : p ≠ [])
    (hq : isAbsolute q = false) :
    componentsIter (join p q) = componentsIter p ++ componentsIter q := by
  have hdrop : q.dropWhile isSeparator = q := by
    cases q with
    | nil => rfl
    | cons c q => exact dropWhile_cons_of_neg (by simpa [isAbsolute, isSeparator] using hq)
  rw [join, hq, if_neg Bool.false_ne_true, withSeparator]
  by_cases hlast : p.getLast? = some separator
  · obtain ⟨a, rfl⟩ := getLast?_eq_some_iff.1 hlast
    have ha : a ≠ [] := by
      rintro rfl
      cases hp
    rw [if_neg fun h => h.2 hlast, append_assoc, singleton_append, componentsIter_append _ a rfl ha,
      componentsIter_append _ a rfl ha, hdrop, show componentsIter ([].dropWhile isSeparator) = [] from rfl,
      append_nil]
  · rw [if_pos ⟨hne, hlast⟩, append_assoc, singleton_append, componentsIter_append _ p rfl hne, hdrop]

structure RelativeNameLaw (parent : PackageAbsoluteName) (path : FilesystemPath) : Prop where
  base : ∀ r, resolvePackageAbsoluteName parent ⟨.currentPackage, path⟩ = .ok r →
    r.nameBase = parent.nameBase
  walked : ∀ r, resolvePackageAbsoluteName parent ⟨.currentPackage, path⟩ = .ok r →
    componentsIter r.path = walk (componentsIter parent.path) (componentsIter path)
  fails : (∃ e, resolvePackageAbsoluteName parent ⟨.currentPackage, path⟩ = .error e) ↔
    Climbs (componentsIter parent.path).length (componentsIter path)
  concat : ∀ path2 r r2, isAbsolute path2 = false →
    resolvePackageAbsoluteName parent ⟨.currentPackage, path⟩ = .ok r →
    resolvePackageAbsoluteName r ⟨.currentPackage, path2⟩ = .ok r2 →
    resolvePackageAbsoluteName parent ⟨.currentPackage, join path path2⟩ = .ok r2

variable {path : FilesystemPath}

theorem isAbsolute_join {p2 : Text} (hne : path ≠ []) (hpath : isAbsolute path = false)
    (hpath2 : isAbsolute p2 = false) : join path p2 ≠ [] ∧ isAbsolute (join path p2) = false := by
  rw [join, hpath2, if_neg Bool.false_ne_true, withSeparator]
  cases path with
  | nil => exact absurd rfl hne
  | cons c path => split_ifs <;> exact ⟨cons_ne_nil _ _, hpath⟩

theorem AreOrdinary.plain (h : AreOrdinary cs) : ∀ c ∈ cs, c ≠ dot ∧ c ≠ dotDot := by
  obtain ⟨root, names, rfl, hall⟩ := h
  intro c hc
  rcases mem_append.1 hc with hc | hc
  · cases root
    · cases hc
    · rw [mem_singleton.1 hc]
      decide
  · exact (hall c hc).2

variable (hne : path ≠ []) (hpath : isAbsolute path = false)
  (hparent : ∀ c ∈ componentsIter parent.path, c ≠ dot ∧ c ≠ dotDot)

variable (parent) in
include hne hpath hparent in
theorem resolve_of_some (h : resolveComponents (componentsIter parent.path) (componentsIter path) = some cs) :
    resolvePackageAbsoluteName parent ⟨.currentPackage, path⟩ = .ok ⟨.rootPackage, joinComponents cs⟩ ∧
      componentsIter (joinComponents cs) = cs ∧ ∀ c ∈ cs, c ≠ dot ∧ c ≠ dotDot := by
  have hcs := (areOrdinary_componentsIter hparent).resolve (components_relative _ path rfl hpath) h
  obtain ⟨hnorm, hcomp⟩ := componentsIter_resolved hcs
  have heq : resolvePackageAbsoluteName parent ⟨.currentPackage, path⟩ = _ := if_neg hne
  rw [h] at heq
  exact ⟨by rw [heq, ← hnorm], hcomp, hcs.plain⟩

variable (parent) in
include hne in
theorem resolve_of_none (h : resolveComponents (componentsIter parent.path) (componentsIter path) = none) :
    ∃ e, resolvePackageAbsoluteName parent ⟨.currentPackage, path⟩ = .error e := by
  have heq : resolvePackageAbsoluteName parent ⟨.currentPackage, path⟩ = _ := if_neg hne
  rw [h] at heq
  exact ⟨_, heq⟩

include hne hpath hparent in
theorem resolve_join {p2 : FilesystemPath} {r r2 : PackageAbsoluteName} (hpath2 : isAbsolute p2 = false)
    (h : resolvePackageAbsoluteName parent ⟨.currentPackage, path⟩ = .ok r)
    (h2 : resolvePackageAbsoluteName r ⟨.currentPackage, p2⟩ = .ok r2) :
    resolvePackageAbsoluteName parent ⟨.currentPackage, join path p2⟩ = .ok r2 := by
  cases hcs : resolveComponents (componentsIter parent.path) (componentsIter path) with
  | none =>
    obtain ⟨e, herr⟩ := resolve_of_none parent hne hcs
    cases herr.symm.trans h
  | some cs =>
    obtain ⟨heq, hcomp, hplain⟩ := resolve_of_some parent hne hpath hparent hcs
    obtain rfl := Except.ok.inj (heq.symm.trans h)
    obtain ⟨hne', habs⟩ := isAbsolute_join hne hpath hpath2
    have happ : resolveComponents (componentsIter parent.path) (componentsIter (join path p2)) =
        resolveComponents cs (componentsIter p2) := by
      rw [componentsIter_join hpath hne hpath2, resolveComponents_append, hcs]
      rfl
    by_cases hnil : p2 = []
    · subst hnil
      obtain rfl := Except.ok.inj h2
      have hjn : _ = some cs := happ.trans rfl
      exact (resolve_of_some parent hne' habs hparent hjn).1
    cases hcs2 : resolveComponents cs (componentsIter p2) with
    | none =>
      obtain ⟨e, herr⟩ := resolve_of_none ⟨.rootPackage, joinComponents cs⟩ hnil (by rwa [hcomp])
      cases herr.symm.trans h2
    | some cs2 =>
      obtain ⟨heq2, -⟩ := resolve_of_some ⟨.rootPackage, joinComponents cs⟩ hnil hpath2
        (by rwa [hcomp]) (show _ = some cs2 by rwa [hcomp])
      rw [← h2, heq2]
      exact (resolve_of_some parent hne' habs hparent (happ.trans hcs2)).1

/-- The base is kept where it is the default one, or where it is not built anew. -/
theorem relativeNameLaw_iff (parent : PackageAbsoluteName) (path : FilesystemPath)
    (hparent : ∀ c ∈ componentsIter parent.path, c ≠ dot ∧ c ≠ dotDot) (hpath : isAbsolute path = false) :
    RelativeNameLaw parent path ↔ parent.nameBase = .rootPackage ∨ path = [] ∨
      Climbs (componentsIter parent.path).length (componentsIter path) := by
  by_cases hne : path = []
  · subst hne
    have hok : ∀ r, resolvePackageAbsoluteName parent ⟨.currentPackage, []⟩ = .ok r → parent = r := fun r h =>
      Except.ok.inj h
    refine ⟨fun _ => .inr (.inl rfl), fun _ => ⟨fun r h => ?_, fun r h => ?_, ?_, fun path2 r r2 hpath2 h h2 => ?_⟩⟩
    · rw [hok r h]
    · rw [hok r h]
      rfl
    · refine ⟨fun ⟨e, h⟩ => (by cases h), fun ⟨p, hp, hlt⟩ => ?_⟩
      rw [prefix_nil.1 hp] at hlt
      exact absurd hlt (Nat.not_lt_zero _)
    · rw [← hok r h] at h2
      rwa [join, hpath2]
  cases hcs : resolveComponents (componentsIter parent.path) (componentsIter path) with
  | none =>
    have hclimbs := resolveComponents_eq_none_iff.1 hcs
    obtain ⟨e, heq⟩ := resolve_of_none parent hne hcs
    have hok : ∀ r, resolvePackageAbsoluteName parent ⟨.currentPackage, path⟩ ≠ .ok r := by
      intro r h
      cases heq.symm.trans h
    exact ⟨fun _ => .inr (.inr hclimbs), fun _ => ⟨fun r h => absurd h (hok r), fun r h => absurd h (hok r),
      ⟨fun _ => hclimbs, fun _ => ⟨e, heq⟩⟩, fun _ r _ _ h => absurd h (hok r)⟩⟩
  | some cs =>
    have hclimbs : ¬Climbs (componentsIter parent.path).length (componentsIter path) := fun h =>
      Option.some_ne_none cs (hcs.symm.trans (resolveComponents_eq_none_iff.2 h))
    obtain ⟨heq, hcomp, -⟩ := resolve_of_some parent hne hpath hparent hcs
    have hok : ∀ r, resolvePackageAbsoluteName parent ⟨.currentPackage, path⟩ = .ok r →
        r = ⟨.rootPackage, joinComponents cs⟩ := fun r h => Except.ok.inj (h.symm.trans heq)
    refine ⟨fun h => .inl (h.base _ heq).symm, fun hbase => ⟨fun r h => ?_, fun r h => ?_, ?_, fun _ _ _ =>
      resolve_join hne hpath hparent⟩⟩
    · rw [hok r h, hbase.resolve_right (not_or.2 ⟨hne, hclimbs⟩)]
    · rw [hok r h, hcomp]
      exact walk_of_resolveComponents hcs
    · refine ⟨fun ⟨e, h⟩ => ?_, fun h => absurd h hclimbs⟩
      cases heq.symm.trans h

/-- A subpackage of a global package is looked for in the root package. -/
theorem not_relativeNameLaw_global : ¬RelativeNameLaw
    ⟨.globalVersionedPackage (asciiText "lib") ⟨1, 0, 0, 0⟩, []⟩ (asciiText "sub") := fun h =>
  absurd (h.base ⟨.rootPackage, asciiText "sub"⟩ (by decide)) (by decide)

theorem relativeNameLaw_iff_root : RelativeNameLaw ⟨.rootPackage, asciiText "a"⟩ (asciiText "../b") ↔
    PackageNameBase.rootPackage = .rootPackage ∨ asciiText "../b" = [] ∨
      Climbs (componentsIter (asciiText "a")).length (componentsIter (asciiText "../b")) :=
  relativeNameLaw_iff ⟨.rootPackage, asciiText "a"⟩ (asciiText "../b") (by decide) (by decide)

end USprache.BuildSystem
