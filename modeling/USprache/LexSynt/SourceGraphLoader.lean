import USprache.LexSynt.Imports

/-!
# The source graph loader

`LoadSourceGraph` loads a root file and, by recursion, the files it imports.  Each file
becomes a node, and the children of a node are the nodes of its imports in their order.
A stack of the files on the way from the root detects import loops, and a file that has
a node already is not loaded again.

The file system and the analysis of the syntax of a file are parameters.  The result
of a file that was not loaded is `none`, in the source it is `~0u`.
-/

namespace USprache.LexSynt

abbrev Path := Text

/-- `IVfs` over finitely many files. -/
structure Vfs where
  files : List (Path × Text)
  /-- The path of a file that is imported under a name by a file.  The empty parent path
  stands for the root. -/
  getFullFilePath : Path → Path → Path
  isImportingFileAllowed : Path → Bool
  isFileFromSourcesDirectory : Path → Bool

def Vfs.loadFileContent (vfs : Vfs) (fullFilePath : Path) : Option Text :=
  vfs.files.lookup fullFilePath

structure FileLoc where
  fileIndex : Nat
  srcLoc : SrcLoc
deriving DecidableEq

structure FileError where
  text : String
  srcLoc : FileLoc

def LexSyntError.setFileIndex (error : LexSyntError) (fileIndex : Nat) : FileError :=
  ⟨error.text, fileIndex, error.srcLoc⟩

inductive MacroContext where
  | expression
  | block
  | class_
  | namespace_
deriving DecidableEq

/-- `MacroMap` and `MacrosByContextMap`, for any type of macros. -/
abbrev MacroMap (M : Type) := List (Text × M)

abbrev MacrosByContextMap (M : Type) := List (MacroContext × MacroMap M)

/-- `Synt::SyntaxAnalysis` and what the loader reads of its result.  The lexems are those
of the file with the given index; the contexts are shared by all files. -/
structure SyntaxAnalysis (M Ast Contexts : Type) where
  macroSrcLoc : M → FileLoc
  emptyContexts : Contexts
  analyze : Nat → List Lexem → MacrosByContextMap M → Contexts → Text → Ast × Contexts
  macros : Ast → MacrosByContextMap M
  errorMessages : Ast → List FileError

namespace SourceGraph

inductive Category where
  | sourceOrInternalImport
  | otherImport
  | builtInPrelude
deriving DecidableEq

/-- A node.  It has no syntax tree before its file is analyzed. -/
structure Node (Ast : Type) where
  filePath : Path
  filePathHash : Text := []
  childNodesIndices : List Nat := []
  ast : Option Ast := none
  category : Category := .sourceOrInternalImport

end SourceGraph

structure SourceGraph (Ast Contexts : Type) where
  nodesStorage : List (SourceGraph.Node Ast)
  macroExpansionContexts : Contexts
  errors : List FileError

namespace SourceGraph

variable {M Ast Contexts : Type} (g : SourceGraph Ast Contexts)

def addErrors (errors : List FileError) : SourceGraph Ast Contexts :=
  { g with errors := g.errors ++ errors }

def modifyNode (index : Nat) (f : Node Ast → Node Ast) :
    SourceGraph Ast Contexts :=
  { g with nodesStorage := g.nodesStorage.modify index f }

def pushNode (node : Node Ast) : SourceGraph Ast Contexts :=
  { g with nodesStorage := g.nodesStorage ++ [node] }

variable (syntaxAnalysis : SyntaxAnalysis M Ast Contexts) (nodeIndex : Nat)

def mergeMacro
    (acc : MacroMap M × List FileError) (pair : Text × M) : MacroMap M × List FileError :=
  match acc.1.lookup pair.1 with
  | none => (acc.1 ++ [pair], acc.2)
  | some present =>
    if syntaxAnalysis.macroSrcLoc pair.2 ≠ syntaxAnalysis.macroSrcLoc present then
      (acc.1, acc.2 ++ [⟨"Macro \"" ++ messageText pair.1 ++ "\" redefinition.",
        ⟨nodeIndex, ⟨0, 0⟩⟩⟩])
    else (acc.1.map (fun p => if p.1 = pair.1 then pair else p), acc.2)

/-- The macros of one context.  `merged_macroses[context]` makes an empty map for a
context that is new. -/
def mergeContext
    (acc : MacrosByContextMap M × List FileError) (pair : MacroContext × MacroMap M) :
    MacrosByContextMap M × List FileError :=
  let res := pair.2.foldl (mergeMacro syntaxAnalysis nodeIndex)
    ((acc.1.lookup pair.1).getD [], acc.2)
  (acc.1.filter (fun p => p.1 ≠ pair.1) ++ [(pair.1, res.1)], res.2)

def mergeMacros
    (imported : List (MacrosByContextMap M)) : MacrosByContextMap M × List FileError :=
  imported.foldl (fun acc macros => macros.foldl (mergeContext syntaxAnalysis nodeIndex) acc)
    ([], [])

def importLoopMessage (loop : List Path) (fullFilePath : Path) : String :=
  "Import loop detected: " ++
    String.join (loop.map (fun path => messageText path ++ " -> ")) ++ messageText fullFilePath

def shownPath (fullFilePath filePath : Path) : String :=
  messageText (if fullFilePath = [] then filePath else fullFilePath)

def newNode (vfs : Vfs) (fullFilePath : Path) : Node Ast where
  filePath := fullFilePath
  category := if vfs.isFileFromSourcesDirectory fullFilePath then .sourceOrInternalImport
    else .otherImport

/-- The end of `LoadNode_r`: the macros of the imports are merged and the file is
analyzed. -/
def analyzeNode (hash : Path → Text)
    (nodeIndex : Nat) (fullFilePath : Path) (lexems : List Lexem)
    (imported : List (MacrosByContextMap M)) (g : SourceGraph Ast Contexts) :
    SourceGraph Ast Contexts :=
  let merged := mergeMacros syntaxAnalysis nodeIndex imported
  let res := syntaxAnalysis.analyze nodeIndex lexems merged.1 g.macroExpansionContexts
    (hash fullFilePath)
  let g := { g with
    errors := g.errors ++ merged.2 ++ syntaxAnalysis.errorMessages res.1
    macroExpansionContexts := res.2 }
  g.modifyNode nodeIndex (fun node =>
    { node with ast := some res.1, filePathHash := hash fullFilePath })

/-- What is known of the imports of a node while they are loaded one after another. -/
structure LoadingImports (M Ast Contexts : Type) where
  graph : SourceGraph Ast Contexts
  importedMacroses : List (MacrosByContextMap M)

/-- The body of the loop over imports, behind the recursive call. -/
def addImport (nodeIndex i : Nat)
    (importedMacroses : List (MacrosByContextMap M))
    (res : Option Nat × SourceGraph Ast Contexts) : LoadingImports M Ast Contexts :=
  match res.1 with
  | none => ⟨res.2, importedMacroses⟩
  | some childNodeIndex =>
    ⟨res.2.modifyNode nodeIndex (fun node =>
        { node with childNodesIndices := node.childNodesIndices.set i childNodeIndex }),
      match (res.2.nodesStorage[childNodeIndex]?).bind (·.ast) with
      | some ast => importedMacroses ++ [syntaxAnalysis.macros ast]
      | none => importedMacroses⟩

/-- The loop over imports, from the import with index `i` on. -/
def loadImports (syntaxAnalysis : SyntaxAnalysis M Ast Contexts)
    (loadNode : Import → SourceGraph Ast Contexts → Option (Option Nat × SourceGraph Ast Contexts))
    (nodeIndex : Nat) : Nat → List Import → LoadingImports M Ast Contexts →
      Option (LoadingImports M Ast Contexts)
  | _, [], st => some st
  | i, import_ :: imports, st =>
    match loadNode import_ st.graph with
    | none => none
    | some res =>
      loadImports syntaxAnalysis loadNode nodeIndex (i + 1) imports
        (addImport syntaxAnalysis nodeIndex i st.importedMacroses res)

/-- `LoadNode_r`.  The fuel bounds the depth of the recursion and the lexical analysis
of each file; without enough of it there is no result. -/
def loadNode (vfs : Vfs) (syntaxAnalysis : SyntaxAnalysis M Ast Contexts) (hash : Path → Text) :
    Nat → Path → Path → List Path → FileLoc → SourceGraph Ast Contexts →
      Option (Option Nat × SourceGraph Ast Contexts)
  | 0, _, _, _, _, _ => none
  | fuel + 1, filePath, parentFilePath, processedFilesStack, importSrcLoc, g =>
    let fullFilePath := vfs.getFullFilePath filePath parentFilePath
    -- Check for dependency loops.
    if fullFilePath ∈ processedFilesStack then
      let loop := processedFilesStack.dropWhile (fun path => path ≠ fullFilePath)
      some (none, g.addErrors [⟨importLoopMessage loop fullFilePath, importSrcLoc⟩])
    else
    -- Check, if already loaded.
    match g.nodesStorage.findIdx? (fun node => node.filePath = fullFilePath) with
    | some i => some (some i, g)
    | none =>
    let nodeIndex := g.nodesStorage.length
    let g := g.pushNode (newNode vfs fullFilePath)
    match vfs.loadFileContent fullFilePath with
    | none =>
      some (none, g.addErrors [⟨"Can not read file \"" ++ shownPath fullFilePath filePath ++ "\"",
        importSrcLoc⟩])
    | some loadedFile =>
    if vfs.isImportingFileAllowed fullFilePath = false then
      some (none, g.addErrors [⟨"Importing file \"" ++ shownPath fullFilePath filePath ++
        "\" isn't allowed.", importSrcLoc⟩])
    else
    match lexicalAnalysis fuel loadedFile with
    | .error _ => none
    | .ok lexResult =>
    let g := g.addErrors (lexResult.errors.map (fun error => error.setFileIndex nodeIndex))
    if lexResult.errors ≠ [] then some (none, g)
    else
    match parseImports (lexResult.lexems.length + 1) lexResult.lexems with
    | .error _ => none
    | .ok imports =>
    let g := g.modifyNode nodeIndex (fun node =>
      { node with childNodesIndices := List.replicate imports.length 0 })
    let loadImport := fun (import_ : Import) (g : SourceGraph Ast Contexts) =>
      loadNode vfs syntaxAnalysis hash fuel import_.importName fullFilePath
        (processedFilesStack ++ [fullFilePath]) ⟨nodeIndex, import_.srcLoc⟩ g
    match loadImports syntaxAnalysis loadImport nodeIndex 0 imports ⟨g, []⟩ with
    | none => none
    | some st =>
      some (some nodeIndex, analyzeNode syntaxAnalysis hash nodeIndex fullFilePath
        lexResult.lexems st.importedMacroses st.graph)

def preludePath : Path := asciiText "compiler_generated_prelude"

def importPrelude (preludeNodeIndex : Nat) (node : Node Ast) : Node Ast :=
  if node.childNodesIndices = [] then { node with childNodesIndices := [preludeNodeIndex] }
  else node

/-- `LoadSourceGraph` behind the load of the root file. -/
def addPrelude (hash : Path → Text)
    (lexems : List Lexem) (g : SourceGraph Ast Contexts) : SourceGraph Ast Contexts :=
  let preludeNodeIndex := g.nodesStorage.length
  let res := syntaxAnalysis.analyze preludeNodeIndex lexems [] g.macroExpansionContexts
    (hash preludePath)
  { nodesStorage := g.nodesStorage.map (importPrelude preludeNodeIndex) ++
      [{ filePath := preludePath, filePathHash := hash preludePath, ast := some res.1,
         category := .builtInPrelude }]
    macroExpansionContexts := res.2
    errors := g.errors ++ syntaxAnalysis.errorMessages res.1 }

def loadSourceGraph (vfs : Vfs) (syntaxAnalysis : SyntaxAnalysis M Ast Contexts)
    (hash : Path → Text) (fuel : Nat) (rootFilePath : Path) (preludeCode : Text) :
    Option (SourceGraph Ast Contexts) :=
  match loadNode vfs syntaxAnalysis hash fuel rootFilePath [] [] ⟨0, ⟨0, 0⟩⟩
      ⟨[], syntaxAnalysis.emptyContexts, []⟩ with
  | none => none
  | some (_, g) =>
    if preludeCode = [] then some g
    else
      match lexicalAnalysis fuel preludeCode with
      | .error _ => none
      | .ok lexResult => some (addPrelude syntaxAnalysis hash lexResult.lexems g)

end SourceGraph
end USprache.LexSynt
