import Mathlib.Algebra.Order.BigOperators.Group.List
import Mathlib.Data.List.Nodup
import Mathlib.Data.List.Perm.Subperm
import USprache.LexSynt.LexerDiscipline
import USprache.LexSynt.SourceGraphLoading

/-!
# Import graphs

`LoadSourceGraph` returns exactly if the lexical analysis of every file that imports
lead to ends, and of the prelude.  Import loops do not matter: a file on the stack is
not loaded, and the stack holds different files that exist.

A graph without errors is the import graph of its root.  The prelude has a node of its
own behind all others; it is a child of the nodes without imports.
-/

namespace USprache.LexSynt.SourceGraph

open Relation List Option Nat Prod View

variable {M Ast Contexts : Type}

inductive FileReached (vfs : Vfs) (rootFilePath : Path) : Path → Prop
  | root : FileReached vfs rootFilePath (vfs.getFullFilePath rootFilePath [])
  | imported {path q : Path} {imports : List Import} : FileReached vfs rootFilePath path →
      ImportsOf vfs path imports → q ∈ resolve vfs path imports → FileReached vfs rootFilePath q

/-- The main loop of the lexical analysis passes every element that it reaches. -/
def Analyzable (text : Text) : Prop :=
  ∀ st, Reached text st → st.it ≠ [] → elementPassed st.it = true

structure AllAnalyzable (vfs : Vfs) (rootFilePath : Path) (preludeCode : Text) : Prop where
  files : ∀ path text, FileReached vfs rootFilePath path →
    vfs.loadFileContent path = some text → vfs.isImportingFileAllowed path = true →
    Analyzable text
  prelude : Analyzable preludeCode

theorem start_it_length_le (text : Text) : (LexState.start text).it.length ≤ text.length := by
  unfold LexState.start
  split
  · rw [length_drop]
    omega
  · exact le_refl _

variable {text : Text} {vfs : Vfs}

theorem Analyzable.returns (h : Analyzable text) {fuel : Nat}
    (hf : text.length ≤ fuel) : ∃ r, lexicalAnalysis fuel text = .ok r :=
  LexState.loop_ok fuel .start (le_trans (start_it_length_le text) hf) h

variable (analysis : SyntaxAnalysis M Ast Contexts)

theorem loadImports_returns
    {load : Import → SourceGraph Ast Contexts → Option (Option Nat × SourceGraph Ast Contexts)}
    (nI : Nat) : ∀ imps i st, (∀ imp ∈ imps, ∀ g, ∃ res, load imp g = some res) →
      ∃ st', loadImports analysis load nI i imps st = some st' := by
  intro imps
  induction imps with
  | nil => exact fun _ st _ => ⟨st, rfl⟩
  | cons imp imps ih =>
    intro i st hld
    obtain ⟨res, hres⟩ := hld imp mem_cons_self st.graph
    rw [loadImports, hres]
    exact ih _ _ (fun other ho => hld other (mem_cons_of_mem _ ho))

theorem mem_files_of_loadFileContent {path : Path}
    (h : vfs.loadFileContent path = some text) : (path, text) ∈ vfs.files := by
  obtain ⟨l1, l2, hfil, -⟩ := lookup_eq_some_iff.1 h
  rw [hfil]
  exact mem_append_right _ mem_cons_self

structure StackOk (vfs : Vfs) (stack : List Path) : Prop where
  nodup : stack.Nodup
  exist : stack ⊆ vfs.files.map fst

theorem StackOk.length_le {stack : List Path} (h : StackOk vfs stack) :
    stack.length ≤ vfs.files.length := by
  have hlen := (subperm_of_subset h.nodup h.exist).length_le
  rwa [length_map] at hlen

theorem StackOk.push {stack : List Path} (h : StackOk vfs stack) {path : Path} (hpth : path ∉ stack)
    (ht : vfs.loadFileContent path = some text) :
    StackOk vfs (stack ++ [path]) where
  nodup := by
    rw [← concat_eq_append]
    exact h.nodup.concat hpth
  exist := by
    intro p hp
    rcases mem_append.1 hp with hp | hp
    · exact h.exist hp
    · rw [mem_singleton.1 hp]
      exact mem_map_of_mem (mem_files_of_loadFileContent ht)

/-- `LoadNode_r` returns: each level of the recursion puts another file on the stack. -/
theorem loadNode_returns {rootFilePath : Path} {N : Nat} (hash : Path → Text)
    (hends : ∀ path text, FileReached vfs rootFilePath path →
      vfs.loadFileContent path = some text → vfs.isImportingFileAllowed path = true →
      Analyzable text)
    (hN : ∀ path text, (path, text) ∈ vfs.files → text.length ≤ N) :
    ∀ fuel flP pFlP stack impSrcLoc g, FileReached vfs rootFilePath (vfs.getFullFilePath flP pFlP) →
      StackOk vfs stack → N + (vfs.files.length - stack.length) + 1 ≤ fuel →
      ∃ res, loadNode vfs analysis hash fuel flP pFlP stack impSrcLoc g = some res := by
  intro fuel
  induction fuel with
  | zero => exact fun _ _ _ _ _ _ _ h => absurd h (not_succ_le_zero _)
  | succ fuel ih =>
    intro flP pFlP stack impSrcLoc g hrch hstk hf
    generalize hfu : vfs.getFullFilePath flP pFlP = full at hrch
    rw [loadNode]
    simp only [hfu]
    by_cases hlp : full ∈ stack
    · rw [if_pos hlp]
      exact ⟨_, rfl⟩
    rw [if_neg hlp]
    cases g.nodesStorage.findIdx? (fun n => n.filePath = full) with
    | some i => exact ⟨_, rfl⟩
    | none =>
    cases ht : vfs.loadFileContent full with
    | none => exact ⟨_, rfl⟩
    | some text =>
    by_cases halw : vfs.isImportingFileAllowed full = false
    · exact ⟨_, if_pos halw⟩
    have htr : vfs.isImportingFileAllowed full = true := by simpa using halw
    have hlen := hN full text (mem_files_of_loadFileContent ht)
    obtain ⟨lexR, hlex⟩ := (hends full text hrch ht htr).returns (show text.length ≤ fuel by omega)
    simp only [if_neg halw, hlex]
    by_cases herrs : lexR.errors = []
    · rw [if_neg (fun h => h herrs)]
      obtain ⟨imps, himp⟩ := parseImports_returns (lt_succ_self lexR.lexems.length)
      have hof : ImportsOf vfs full imps := ⟨text, fuel, lexR, ht, htr, hlex, herrs, himp⟩
      have hpu := hstk.push hlp ht
      have hpus := hpu.length_le
      rw [length_append, length_singleton] at hpus
      have hca : ∀ imp ∈ imps, ∀ g', ∃ res,
          loadNode vfs analysis hash fuel imp.importName full (stack ++ [full])
            ⟨g.nodesStorage.length, imp.srcLoc⟩ g' = some res := by
        intro imp himpo g'
        refine ih _ _ _ _ _ (hrch.imported hof (mem_map_of_mem himpo)) hpu ?_
        rw [length_append, length_singleton]
        omega
      obtain ⟨st, hst⟩ := loadImports_returns analysis g.nodesStorage.length imps 0
        ⟨((g.pushNode (newNode vfs full)).addErrors (lexR.errors.map
            (fun err => err.setFileIndex g.nodesStorage.length))).modifyNode
          g.nodesStorage.length (fun n =>
            { n with childNodesIndices := replicate imps.length 0 }), []⟩ hca
      simp only [himp, hst]
      exact ⟨_, rfl⟩
    · rw [if_pos herrs]
      exact ⟨_, rfl⟩

namespace View

/-- The graph with a prelude.  Nodes without children import it. -/
def addPrelude (v : View) : View :=
  v.map (fun node => (node.1, if node.2 = [] then [v.length] else node.2)) ++ [(preludePath, [])]

theorem length_addPrelude (v : View) : v.addPrelude.length = v.length + 1 := by
  rw [addPrelude, length_append, length_map, length_singleton]

theorem paths_addPrelude (v : View) : v.addPrelude.paths = v.paths ++ [preludePath] := by
  rw [addPrelude, paths, map_append, List.map_map]
  rfl

variable {v : View} {k : Nat}

theorem pathAt_addPrelude {p : Path} (h : v.pathAt k = some p) :
    v.addPrelude.pathAt k = some p := by
  rw [pathAt, paths_addPrelude, getElem?_append_left (List.getElem?_eq_some_iff.1 h).1]
  exact h

theorem getElem?_addPrelude_of_lt (h : k < v.length) : v.addPrelude[k]? = v[k]?.map (fun n =>
    (n.1, if n.2 = [] then [v.length] else n.2)) := by
  rw [addPrelude, getElem?_append_left (by rw [length_map]; exact h), getElem?_map]

theorem getElem?_addPrelude_length (v : View) : v.addPrelude[v.length]? = some (preludePath, []) := by
  have hlen : v.length = (v.map (fun n =>
      (n.1, if n.2 = [] then [v.length] else n.2))).length := (length_map _).symm
  rw [addPrelude]
  nth_rewrite 2 [hlen]
  exact getElem?_concat_length

theorem child_addPrelude {a b : Nat} :
    Child v.addPrelude a b ↔ Child v a b ∨ b = v.length ∧ ∃ p, v[a]? = some (p, []) := by
  by_cases ha : a < v.length
  · obtain ⟨⟨p, chs⟩, hget⟩ : ∃ n, v[a]? = some n := ⟨_, getElem?_eq_getElem ha⟩
    rw [Child, Child, getElem?_addPrelude_of_lt ha, hget]
    by_cases hnil : chs = []
    · subst hnil
      simp
    · simp [hnil]
  · have hno : v[a]? = none := getElem?_eq_none (Nat.le_of_not_lt ha)
    rw [Child, Child, hno]
    constructor
    · rintro ⟨n, hget, hb⟩
      have hlt := (List.getElem?_eq_some_iff.1 hget).1
      rw [length_addPrelude] at hlt
      have hla : a = v.length := by omega
      rw [hla, getElem?_addPrelude_length] at hget
      cases hget
      cases hb
    · rintro (⟨n, hget, -⟩ | ⟨-, p, hget⟩)
      · cases hget
      · cases hget

theorem acc_addPrelude (hk : Acc (fun b a => Child v a b) k) :
    Acc (fun b a => Child v.addPrelude a b) k := by
  have hpre : Acc (fun b a => Child v.addPrelude a b) v.length := by
    refine ⟨_, fun b hb => ?_⟩
    obtain ⟨node, hget, hmem⟩ := hb
    rw [getElem?_addPrelude_length] at hget
    cases hget
    cases hmem
  induction hk with
  | intro k _ ih =>
    refine ⟨_, fun b hb => ?_⟩
    rcases child_addPrelude.1 hb with hb | ⟨rfl, -⟩
    · exact ih b hb
    · exact hpre

end View

theorem view_addPrelude (hash : Path → Text)
    (lxs : List Lexem) (g : SourceGraph Ast Contexts) :
    (addPrelude analysis hash lxs g).view = g.view.addPrelude := by
  have hlen : g.view.length = g.nodesStorage.length := length_map _
  rw [view, addPrelude, View.addPrelude, hlen, map_append, view, List.map_map, List.map_map]
  congr 1
  refine map_congr_left (fun node _ => ?_)
  dsimp only [Function.comp, importPrelude]
  split <;> rfl

/-- The nodes of files come before the node of the prelude. -/
def fileCount (preludeCode : Text) (g : SourceGraph Ast Contexts) : Nat :=
  if preludeCode = [] then g.nodesStorage.length else g.nodesStorage.length - 1

structure Correct (vfs : Vfs) (rootFilePath : Path) (preludeCode : Text)
    (g : SourceGraph Ast Contexts) : Prop where
  nodup : g.view.paths.Nodup
  root : g.view.pathAt 0 = some (vfs.getFullFilePath rootFilePath [])
  in_range : ∀ a b, g.view.Child a b → b < g.nodesStorage.length
  /-- The child with the index of an import is the node of the file it resolves to. -/
  imports : ∀ k < fileCount preludeCode g, ∃ path children imports,
    g.view[k]? = some (path, children) ∧ ImportsOf vfs path imports ∧
    (preludeCode = [] ∨ imports ≠ [] →
      children.map g.view.pathAt = (resolve vfs path imports).map some)
  acyclic : ∀ k, ¬TransGen g.view.Child k k
  reachable : ∀ k < g.nodesStorage.length, ReflTransGen g.view.Child 0 k
  /-- The prelude is imported by the files without imports, and only by them. -/
  prelude : preludeCode ≠ [] → g.nodesStorage[fileCount preludeCode g]?.map
      (fun node => (node.filePath, node.childNodesIndices, node.category))
      = some (preludePath, [], .builtInPrelude) ∧
    ∀ k, g.view.Child k (fileCount preludeCode g) ↔ k < fileCount preludeCode g ∧
      ∃ path, g.view.pathAt k = some path ∧ ImportsOf vfs path []

section Result

variable {rootFilePath : Path} {g : SourceGraph Ast Contexts}

theorem inv_empty (vfs : Vfs) (ctxs : Contexts) :
    Inv vfs [] [] (⟨[], ctxs, []⟩ : SourceGraph Ast Contexts) where
  nodup := nodup_nil
  in_range k hk := nomatch hk
  stack_iff p := by simp
  visited k p _ hp := by cases hp
  complete _ k hk := absurd hk (not_lt_zero k)

variable {path : Path} {v : View} {preludeCode : Text}

theorem mem_paths_of_fileReached (hg : Inv vfs [] [] g)
    (hroot : vfs.getFullFilePath rootFilePath [] ∈ g.view.paths)
    (h : FileReached vfs rootFilePath path) : path ∈ g.view.paths := by
  induction h with
  | root => exact hroot
  | imported _ himp hq ih =>
    obtain ⟨k, hk⟩ := mem_paths.1 ih
    obtain ⟨text, -, -, ht, halw, -⟩ := id himp
    exact (hg.visited k _ not_mem_nil hk text ht halw).2 _ himp _ hq

theorem analyzable_of_fileReached (hg : Inv vfs [] [] g)
    (hroot : vfs.getFullFilePath rootFilePath [] ∈ g.view.paths) {text : Text}
    (h : FileReached vfs rootFilePath path) (ht : vfs.loadFileContent path = some text)
    (halw : vfs.isImportingFileAllowed path = true) : Analyzable text := by
  obtain ⟨k, hk⟩ := mem_paths.1 (mem_paths_of_fileReached hg hroot h)
  exact (lexicalAnalysis_ends_iff text).1 (hg.visited k path not_mem_nil hk text ht halw).1

theorem Complete.node {k : Nat} (h : Complete vfs [] v k) :
    ∃ path chs imps, v[k]? = some (path, chs) ∧ ImportsOf vfs path imps ∧
      chs.map v.pathAt = (resolve vfs path imps).map some := by
  cases h with
  | intro _ path chs imps _ n imports_of denotes _ =>
    exact ⟨path, chs, imps, n, imports_of, denotes⟩

theorem length_eq_of_denotes {chs : List Nat}
    {imps : List Import} (h : chs.map v.pathAt = (resolve vfs path imps).map some) :
    chs.length = imps.length := by
  have hlen := congrArg length h
  rwa [length_map, length_map, resolve, length_map] at hlen

theorem Complete.leaf {k : Nat} (h : Complete vfs [] v k) :
    ∃ leaf p, ReflTransGen v.Child k leaf ∧ v[leaf]? = some (p, []) := by
  induction h with
  | intro k path chs imports outside n imports_of denotes complete ih =>
    cases hchs : chs with
    | nil =>
      rw [hchs] at n
      exact ⟨k, path, .refl, n⟩
    | cons c rest =>
      have hc : c ∈ chs := by
        rw [hchs]
        exact mem_cons_self
      obtain ⟨leaf, p, hrch, hleaf⟩ := ih c hc
      exact ⟨leaf, p, .head ⟨_, n, hc⟩ hrch, hleaf⟩

structure FilesLoaded (vfs : Vfs) (rootFilePath : Path) (v : View) : Prop where
  nodup : v.paths.Nodup
  root : v.pathAt 0 = some (vfs.getFullFilePath rootFilePath [])
  complete : ∀ k < v.length, Complete vfs [] v k
  reachable : ∀ k < v.length, ReflTransGen v.Child 0 k

theorem Loaded.filesLoaded {ctxs : Contexts} {r : Option Nat}
    (h : Loaded vfs [] [] (vfs.getFullFilePath rootFilePath []) ⟨[], ctxs, []⟩ g r)
    (herrs : g.errors = []) : FilesLoaded vfs rootFilePath g.view := by
  obtain ⟨i, -, -, hp, hi, hb⟩ := h.returns herrs
  have hz : i = 0 := by
    rcases hi with hi | hi
    · exact hi
    · rw [hi] at hp
      cases hp
  subst hz
  refine ⟨h.inv.nodup, hp, fun k hk => h.inv.complete herrs k hk not_mem_nil, ?_⟩
  intro k hk
  exact .mono (fun a b hab => hab.2) _ _ (hb k (zero_le k) hk)

theorem FilesLoaded.acc (h : FilesLoaded vfs rootFilePath v) (k : Nat) :
    Acc (fun b a => v.Child a b) k := by
  by_cases hk : k < v.length
  · exact (h.complete k hk).acc
  · refine ⟨_, fun b hb => ?_⟩
    obtain ⟨node, hget, -⟩ := hb
    exact absurd (List.getElem?_eq_some_iff.1 hget).1 hk

theorem FilesLoaded.child_lt (h : FilesLoaded vfs rootFilePath v) {a b : Nat}
    (hab : v.Child a b) : b < v.length := by
  obtain ⟨node, hget, hb⟩ := hab
  obtain ⟨path, children, imports, hnode, -, hden⟩ :=
    (h.complete a (List.getElem?_eq_some_iff.1 hget).1).node
  rw [hnode] at hget
  cases hget
  obtain ⟨p, -, hp⟩ := exists_path_of_denotes hden hb
  obtain ⟨_, hnode'⟩ := pathAt_eq_some.1 hp
  exact (List.getElem?_eq_some_iff.1 hnode').1

theorem FilesLoaded.correct (h : FilesLoaded vfs rootFilePath g.view) :
    Correct vfs rootFilePath [] g := by
  have hlen : g.nodesStorage.length = g.view.length := (length_map _).symm
  refine ⟨h.nodup, h.root, ?_, ?_, ?_, ?_, fun hne => absurd rfl hne⟩
  · intro a b hab
    rw [hlen]
    exact h.child_lt hab
  · intro k hk
    rw [fileCount, hlen] at hk
    obtain ⟨path, chs, imps, hnode, himp, hden⟩ := (h.complete k hk).node
    exact ⟨path, chs, imps, hnode, himp, fun _ => hden⟩
  · exact fun k => not_transGen_self_of_acc (h.acc k)
  · rw [hlen]
    exact h.reachable

theorem FilesLoaded.fileReached (h : FilesLoaded vfs rootFilePath v)
    (hpth : path ∈ v.paths) : FileReached vfs rootFilePath path := by
  have hall : ∀ k, ReflTransGen v.Child 0 k → ∀ p, v.pathAt k = some p →
      FileReached vfs rootFilePath p := by
    intro k hk
    induction hk with
    | refl =>
      intro p hp
      rw [h.root] at hp
      cases hp
      exact .root
    | @tail a b _ hab ih =>
      intro p hp
      obtain ⟨node, hget, hb⟩ := hab
      obtain ⟨q, children, imports, hnode, himp, hden⟩ :=
        (h.complete a (List.getElem?_eq_some_iff.1 hget).1).node
      rw [hnode] at hget
      cases hget
      obtain ⟨p', hmem, hp'⟩ := exists_path_of_denotes hden hb
      rw [hp] at hp'
      cases hp'
      exact (ih q (pathAt_eq_some.2 ⟨_, hnode⟩)).imported himp hmem
  obtain ⟨k, hk⟩ := mem_paths.1 hpth
  obtain ⟨_, hnode⟩ := pathAt_eq_some.1 hk
  exact hall k (h.reachable k (List.getElem?_eq_some_iff.1 hnode).1) path hk

theorem FilesLoaded.child_prelude_iff (h : FilesLoaded vfs rootFilePath v) (k : Nat) :
    v.addPrelude.Child k v.length ↔ k < v.length ∧
      ∃ path, v.addPrelude.pathAt k = some path ∧ ImportsOf vfs path [] := by
  rw [child_addPrelude]
  constructor
  · rintro (hch | ⟨-, p, hget⟩)
    · exact absurd (h.child_lt hch) (lt_irrefl _)
    · have hk := (List.getElem?_eq_some_iff.1 hget).1
      obtain ⟨path, chs, imps, hnode, himp, hden⟩ := (h.complete k hk).node
      rw [hget] at hnode
      cases hnode
      have hnil : imps = [] := length_eq_zero_iff.1 (length_eq_of_denotes hden).symm
      rw [hnil] at himp
      exact ⟨hk, p, pathAt_addPrelude (pathAt_eq_some.2 ⟨_, hget⟩), himp⟩
  · rintro ⟨hk, path, hp, himp⟩
    obtain ⟨path', chs, imps, hnode, himp', hden⟩ := (h.complete k hk).node
    have hp' := pathAt_addPrelude (pathAt_eq_some.2 ⟨_, hnode⟩)
    rw [hp] at hp'
    cases hp'
    rw [← himp.unique himp'] at hden
    have hnil : chs = [] := length_eq_zero_iff.1 (length_eq_of_denotes hden)
    rw [hnil] at hnode
    exact .inr ⟨rfl, path, hnode⟩

theorem FilesLoaded.addPrelude (hpre : preludeCode ≠ [])
    (h : FilesLoaded vfs rootFilePath g.view) (hapa : preludePath ∉ g.view.paths)
    (analysis : SyntaxAnalysis M Ast Contexts) (hash : Path → Text) (lxs : List Lexem) :
    Correct vfs rootFilePath preludeCode (addPrelude analysis hash lxs g) := by
  have hvw := view_addPrelude analysis hash lxs g
  have hsto : (SourceGraph.addPrelude analysis hash lxs g).nodesStorage.length
      = g.view.length + 1 := by
    rw [← length_addPrelude, ← hvw]
    exact (length_map _).symm
  have hcnt : fileCount preludeCode (SourceGraph.addPrelude analysis hash lxs g) = g.view.length := by
    rw [fileCount, if_neg hpre, hsto]
    rfl
  have hrch : ∀ {a b : Nat}, ReflTransGen g.view.Child a b →
      ReflTransGen g.view.addPrelude.Child a b :=
    fun hab => .mono (fun a b hab => child_addPrelude.2 (.inl hab)) _ _ hab
  refine ⟨?_, ?_, ?_, ?_, ?_, ?_, fun _ => ⟨?_, ?_⟩⟩
  · rw [hvw, paths_addPrelude, ← concat_eq_append]
    exact h.nodup.concat hapa
  · rw [hvw]
    exact pathAt_addPrelude h.root
  · intro a b hab
    rw [hvw] at hab
    rw [hsto]
    rcases child_addPrelude.1 hab with hab | ⟨rfl, -⟩
    · exact lt_succ_of_lt (h.child_lt hab)
    · exact lt_succ_self _
  · intro k hk
    rw [hcnt] at hk
    obtain ⟨path, chs, imps, hnode, himports, hden⟩ := (h.complete k hk).node
    rw [hvw, getElem?_addPrelude_of_lt hk, hnode]
    refine ⟨path, _, imps, rfl, himports, fun hne => ?_⟩
    have hchs : chs ≠ [] := by
      intro hnil
      have hlen := length_eq_of_denotes hden
      rw [hnil] at hlen
      exact hne.elim hpre (fun himp => himp (length_eq_zero_iff.1 hlen.symm))
    rw [if_neg hchs, ← hden]
    refine map_congr_left (fun c hc => ?_)
    obtain ⟨p, -, hp⟩ := exists_path_of_denotes hden hc
    rw [hp]
    exact pathAt_addPrelude hp
  · rw [hvw]
    exact fun k => not_transGen_self_of_acc (acc_addPrelude (h.acc k))
  · rw [hvw]
    intro k hk
    by_cases hlt : k < g.view.length
    · exact hrch (h.reachable k hlt)
    · have hla : k = g.view.length := by omega
      have hz : 0 < g.view.length := by
        obtain ⟨_, hget⟩ := pathAt_eq_some.1 h.root
        exact (List.getElem?_eq_some_iff.1 hget).1
      obtain ⟨leaf, p, hleaf, hget⟩ := (h.complete 0 hz).leaf
      rw [hla]
      exact (hrch hleaf).tail (child_addPrelude.2 (.inr ⟨rfl, p, hget⟩))
  · have hlen : g.view.length = (g.nodesStorage.map (importPrelude g.nodesStorage.length)).length := by
      rw [length_map, view, length_map]
    rw [hcnt, hlen, SourceGraph.addPrelude]
    rw [getElem?_concat_length]
    rfl
  · rw [hvw, hcnt]
    exact h.child_prelude_iff

theorem analyzable_nil : Analyzable [] := (lexicalAnalysis_ends_iff []).1 ⟨0, _, rfl⟩

theorem loadSourceGraph_cases {analysis : SyntaxAnalysis M Ast Contexts}
    {hash : Path → Text} {fuel : Nat}
    (h : loadSourceGraph vfs analysis hash fuel rootFilePath preludeCode = some g) :
    ∃ g0 r, Loaded vfs [] [] (vfs.getFullFilePath rootFilePath [])
        ⟨[], analysis.emptyContexts, []⟩ g0 r ∧
      (preludeCode = [] ∧ g = g0 ∨ preludeCode ≠ [] ∧ ∃ lexR,
        lexicalAnalysis fuel preludeCode = .ok lexR ∧
        g = addPrelude analysis hash lexR.lexems g0) := by
  rw [loadSourceGraph] at h
  cases hld : loadNode vfs analysis hash fuel rootFilePath [] [] ⟨0, ⟨0, 0⟩⟩
      ⟨[], analysis.emptyContexts, []⟩ with
  | none =>
    rw [hld] at h
    cases h
  | some res =>
    obtain ⟨r, g0⟩ := res
    rw [hld] at h
    dsimp only at h
    refine ⟨g0, r, loadNode_loaded vfs analysis hash fuel _ _ _ _ _ _ _ _ (inv_empty vfs _) hld, ?_⟩
    by_cases hpre : preludeCode = []
    · rw [if_pos hpre] at h
      exact .inl ⟨hpre, (some.inj h).symm⟩
    · rw [if_neg hpre] at h
      cases hlex : lexicalAnalysis fuel preludeCode with
      | error fault =>
        rw [hlex] at h
        cases h
      | ok lexR =>
        rw [hlex] at h
        exact .inr ⟨hpre, lexR, rfl, (some.inj h).symm⟩

theorem loadSourceGraph_returns
    (hash : Path → Text) (h : AllAnalyzable vfs rootFilePath preludeCode) :
    ∃ fuel g, loadSourceGraph vfs analysis hash fuel rootFilePath preludeCode = some g := by
  obtain ⟨N, hN⟩ : ∃ N, ∀ text ∈ preludeCode :: vfs.files.map snd, text.length ≤ N := by
    refine ⟨((preludeCode :: vfs.files.map snd).map length).sum, fun text ht => ?_⟩
    exact single_le_sum (fun _ _ => zero_le _) _ (mem_map_of_mem ht)
  have hfile : ∀ path text, (path, text) ∈ vfs.files → text.length ≤ N := fun path text hmem =>
    hN text (mem_cons_of_mem _ (mem_map_of_mem (f := snd) hmem))
  have hstk : StackOk vfs [] := ⟨nodup_nil, nil_subset _⟩
  obtain ⟨⟨result, g0⟩, hld⟩ := loadNode_returns analysis hash h.files hfile
    (N + vfs.files.length + 1) rootFilePath [] [] ⟨0, ⟨0, 0⟩⟩
    ⟨[], analysis.emptyContexts, []⟩ .root hstk (le_refl _)
  refine ⟨N + vfs.files.length + 1, ?_⟩
  rw [loadSourceGraph, hld]
  by_cases hpre : preludeCode = []
  · exact ⟨g0, if_pos hpre⟩
  · have hlen := hN preludeCode mem_cons_self
    obtain ⟨lexR, hlex⟩ := h.prelude.returns
      (show preludeCode.length ≤ N + vfs.files.length + 1 by omega)
    refine ⟨addPrelude analysis hash lexR.lexems g0, ?_⟩
    dsimp only
    rw [if_neg hpre, hlex]

/-- `LoadSourceGraph` returns exactly if all texts are analyzable.  A result without
errors is correct exactly if no file has the path that the code gives to the prelude. -/
theorem loadSourceGraph_correct (vfs : Vfs) (syntaxAnalysis : SyntaxAnalysis M Ast Contexts)
    (hash : Path → Text) (rootFilePath : Path) (preludeCode : Text) :
    ((∃ fuel g, loadSourceGraph vfs syntaxAnalysis hash fuel rootFilePath preludeCode = some g) ↔
      AllAnalyzable vfs rootFilePath preludeCode) ∧
    ∀ fuel g, loadSourceGraph vfs syntaxAnalysis hash fuel rootFilePath preludeCode = some g →
      g.errors = [] →
      (Correct vfs rootFilePath preludeCode g ↔
        (preludeCode ≠ [] → ¬FileReached vfs rootFilePath preludePath)) := by
  refine ⟨⟨?_, loadSourceGraph_returns syntaxAnalysis hash⟩, ?_⟩
  · rintro ⟨fuel, g, hg⟩
    obtain ⟨g0, result, hloaded, hcases⟩ := loadSourceGraph_cases hg
    refine ⟨fun path text => analyzable_of_fileReached hloaded.inv hloaded.visited, ?_⟩
    rcases hcases with ⟨hprelude, -⟩ | ⟨-, lexResult, hlex, -⟩
    · rw [hprelude]
      exact analyzable_nil
    · exact (lexicalAnalysis_ends_iff _).1 ⟨fuel, lexResult, hlex⟩
  · intro fuel g hg herrors
    obtain ⟨g0, result, hloaded, hcases⟩ := loadSourceGraph_cases hg
    rcases hcases with ⟨hprelude, rfl⟩ | ⟨hprelude, lexResult, -, rfl⟩
    · subst hprelude
      exact ⟨fun _ h => absurd rfl h, fun _ => (hloaded.filesLoaded herrors).correct⟩
    · have hfiles := hloaded.filesLoaded (append_eq_nil_iff.1 herrors).1
      constructor
      · intro hcorrect _ hreached
        have hmem := mem_paths_of_fileReached hloaded.inv hloaded.visited hreached
        have hnodup := hcorrect.nodup
        rw [view_addPrelude, paths_addPrelude, ← concat_eq_append, nodup_concat] at hnodup
        exact hnodup.1 hmem
      · intro hapart
        refine hfiles.addPrelude hprelude (fun hmem => hapart hprelude ?_) _ _ _
        exact hfiles.fileReached hmem

end Result

/-- A file system in which paths are the names in imports. -/
def plainVfs (files : List (Path × Text)) : Vfs where
  files := files
  getFullFilePath filePath _ := filePath
  isImportingFileAllowed _ := true
  isFileFromSourcesDirectory _ := true

def acceptAll : SyntaxAnalysis Unit Unit Unit where
  macroSrcLoc _ := ⟨0, ⟨0, 0⟩⟩
  emptyContexts := ()
  analyze _ _ _ _ _ := ((), ())
  macros _ := []
  errorMessages _ := []

def diamond : Vfs := plainVfs [(asciiText "r", asciiText "import \"a\" import \"b\""),
    (asciiText "a", asciiText "import \"b\""), (asciiText "b", [])]

theorem loadSourceGraph_correct_diamond :
    ∃ g, loadSourceGraph diamond acceptAll id 30 (asciiText "r") [] = some g ∧
      g.view = [(asciiText "r", [1, 2]), (asciiText "a", [2]), (asciiText "b", [])] ∧
      Correct diamond (asciiText "r") [] g := by
  have hrun : (loadSourceGraph diamond acceptAll id 30 (asciiText "r") []).map
      (fun g => (g.view, g.errors.length))
        = some ([(asciiText "r", [1, 2]), (asciiText "a", [2]), (asciiText "b", [])], 0) := by
    decide +kernel
  obtain ⟨g, hg, hresult⟩ := map_eq_some_iff.1 hrun
  obtain ⟨hview, herrors⟩ := Prod.mk.inj hresult
  refine ⟨g, hg, hview, ?_⟩
  exact ((loadSourceGraph_correct diamond acceptAll id (asciiText "r") []).2 30 g hg
    (length_eq_zero_iff.1 herrors)).2 (fun hne => absurd rfl hne)

/-- A file with a digit of two bytes is never loaded. -/
theorem loadSourceGraph_encoded_digit :
    ¬∃ fuel g, loadSourceGraph (plainVfs [(asciiText "r", [0xC0, 0xB0])]) acceptAll id fuel
      (asciiText "r") [] = some g := by
  rintro ⟨fuel, g, hg⟩
  have hload : loadNode (plainVfs [(asciiText "r", [0xC0, 0xB0])]) acceptAll id fuel
      (asciiText "r") [] [] ⟨0, ⟨0, 0⟩⟩ ⟨[], acceptAll.emptyContexts, []⟩ = none := by
    cases fuel with
    | zero => rfl
    | succ fuel =>
      have hlex : lexicalAnalysis fuel [0xC0, 0xB0] = .error .outOfFuel :=
        LexState.loop_of_encodedDigit _ fuel (by decide) (zero_le _) (by decide) (by decide)
      rw [loadNode]
      simp [plainVfs, Vfs.loadFileContent, hlex]
  rw [loadSourceGraph, hload] at hg
  cases hg

theorem loadSourceGraph_prelude_path :
    (loadSourceGraph (plainVfs [(preludePath, [])]) acceptAll id 20 preludePath
      (asciiText "class A\x7b\x7d")).map (fun g => (g.view.paths, g.errors.length))
        = some ([preludePath, preludePath], 0) := by
  decide +kernel

end USprache.LexSynt.SourceGraph
