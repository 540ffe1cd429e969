import USprache.LexSynt.Lexem

/-!
# Macro expansion

`ExpandMacro` of the syntax analyzer replaces a macro call by the lexems of the
macro's result template and parses them with an analyzer of their own.  What the
parser decides, which depends on the whole grammar, is data here: `Calls` are the
calls of `ExpandMacro` that one analyzer makes, each with the elements it has matched
and with the calls made for its result.  Any decisions are allowed that only use a
lexem for one call.
-/

namespace USprache.LexSynt

/-- `GetLine` of the packed location. -/
def SrcLoc.getLine (loc : SrcLoc) : Nat := loc.line % (maxLine + 1)

/-- `GetColumn` of the packed location. -/
def SrcLoc.getColumn (loc : SrcLoc) : Nat := loc.column % (maxColumn + 1)

/-- `std::to_string`. -/
def decimal (n : Nat) : Text := (Nat.toDigits 10 n).map ascii

def messageText (text : Text) : String := String.ofList (text.map fun b => Char.ofNat b.toNat)

namespace Macro

inductive MatchElementKind where
  | lexem
  | identifier
  | typename
  | expression
  | block
  | ifAlternative
  | optional
  | repeated
deriving DecidableEq

/-- The elements of a result template, one after another. -/
inductive ResultElements where
  | nil
  | lexem (lexem : Lexem) (rest : ResultElements)
  | variableElement (name : Text) (rest : ResultElements)
  /-- `separator` has the type `endOfFile` if there is none. -/
  | variableElementWithMacroBlock (name : Text) (subElements : ResultElements) (separator : Lexem)
      (rest : ResultElements)

/-- `ParsedMacroElement`.  The range of lexems is the list of them. -/
inductive ParsedElement where
  | mk (lexems : List Lexem) (subElements : List (List (Text × ParsedElement)))
      (kind : MatchElementKind) (needToAddBracketsInExpansion : Bool)

abbrev VariablesMap := List (Text × ParsedElement)

/-- `MacroNamesMap::GetElement`, with the innermost map first. -/
def getElement (names : List VariablesMap) (name : Text) : Option ParsedElement :=
  names.findSome? (·.lookup name)

end Macro

structure Macro where
  name : Text
  resultTemplateElements : Macro.ResultElements

/-- What `DoExpandMacro` builds.  `occurrences` is not in the source: it has the text
of every unique name that was replaced, with its identifier. -/
structure Expanding where
  uniqueIdentifiers : List (Text × Text)
  lexems : List Lexem
  errors : List LexSyntError
  occurrences : List (Text × Text)

namespace Expanding

def start : Expanding := ⟨[], [], [], []⟩

variable (st : Expanding)

def push (lexem : Lexem) : Expanding := { st with lexems := st.lexems ++ [lexem] }

def error (text : String) (srcLoc : SrcLoc) : Expanding :=
  { st with errors := st.errors ++ [⟨text, srcLoc⟩] }

def uniqueIdentifier (baseName text : Text) (count : Nat) : Text :=
  asciiText "_macro_ident_" ++ text.drop 2 ++ asciiText "_" ++ baseName ++ asciiText "_" ++
    decimal count

/-- The identifier of a lexem with a unique name, as a lexem. -/
def pushOccurrence (lexem : Lexem) (identifier : Text) : Expanding := { st with
    lexems := st.lexems ++ [{ lexem with type := .identifier, text := identifier }]
    occurrences := st.occurrences ++ [(lexem.text, identifier)] }

/-- A unique name is replaced by the identifier it already has, or by a new one. -/
def pushUnique (baseName : Text) (st : Expanding) (lexem : Lexem) : Expanding :=
  match st.uniqueIdentifiers.lookup lexem.text with
  | some identifier => st.pushOccurrence lexem identifier
  | none =>
    let identifier := uniqueIdentifier baseName lexem.text st.uniqueIdentifiers.length
    { st with uniqueIdentifiers := (lexem.text, identifier) :: st.uniqueIdentifiers }.pushOccurrence
      lexem identifier

def bracketLeft : Lexem := ⟨asciiText "(", ⟨0, 0⟩, .bracketLeft, 0⟩

def bracketRight : Lexem := ⟨asciiText ")", ⟨0, 0⟩, .bracketRight, 0⟩

def pushElement : Macro.ParsedElement → Expanding
  | .mk lexems _ _ true =>
    { st with lexems := st.lexems ++ [bracketLeft] ++ lexems ++ [bracketRight] }
  | .mk lexems _ _ false => { st with lexems := st.lexems ++ lexems }

def forEach {α : Type} (turn : α → Expanding → Expanding) (between : Expanding → Expanding) :
    List α → Expanding → Expanding
  | [], st => st
  | [x], st => turn x st
  | x :: y :: rest, st => forEach turn between (y :: rest) (between (turn x st))

def pushSeparator (separator : Lexem) (st : Expanding) : Expanding :=
  if separator.type ≠ .endOfFile then st.push separator else st

end Expanding

open Expanding in
def doExpandMacro (baseName : Text) (names : List Macro.VariablesMap) :
    Macro.ResultElements → Expanding → Expanding
  | .nil, st => st
  | .lexem lexem rest, st =>
    doExpandMacro baseName names rest
      (if lexem.type = .macroUniqueIdentifier then st.pushUnique baseName lexem else st.push lexem)
  | .variableElement name rest, st =>
    match Macro.getElement names name with
    | none => st.error (messageText name ++ " not found") ⟨0, 0⟩
    | some element => doExpandMacro baseName names rest (st.pushElement element)
  | .variableElementWithMacroBlock name subElements separator rest, st =>
    match Macro.getElement names name with
    | none => st.error (messageText name ++ " not found") separator.srcLoc
    | some (.mk _ maps kind _) =>
      if kind = .optional ∨ kind = .repeated then
        doExpandMacro baseName names rest
          (forEach (fun map st => doExpandMacro baseName (map :: names) subElements st)
            (pushSeparator separator) maps st)
      else st.error "Expected optional or repated." separator.srcLoc

/-- The parts of a syntax analyzer that an expansion reads. -/
structure Analyzer where
  lexems : List Lexem
  baseName : Text
  depth : Nat

/-- The calls of `ExpandMacro` that an analyzer makes.  `inner` are those of the
analyzer of the result. -/
inductive Calls where
  | none
  | call (position : Nat) (called : Macro) (elements : Macro.VariablesMap) (inner rest : Calls)

def depthLimit : Nat := 10

def totalExpansionsLimit : Nat := 32767

def eofLexem : Lexem := ⟨[], ⟨0, 0⟩, .endOfFile, 0⟩

namespace Analyzer

variable (a : Analyzer)

def location (position : Nat) : Nat × Nat :=
  let srcLoc := (a.lexems.getD position eofLexem).srcLoc
  (srcLoc.getLine, srcLoc.getColumn)

def locationName (location : Nat × Nat) : Text :=
  asciiText "_l" ++ decimal location.1 ++ asciiText "_c" ++ decimal location.2

/-- `macro_unique_identifiers_base_name` of an expansion. -/
def expansionBaseName (position : Nat) : Text :=
  a.baseName ++ locationName (a.location position)

def expand (position : Nat) (called : Macro) (elements : Macro.VariablesMap) :
    Expanding :=
  doExpandMacro (a.expansionBaseName position) [elements] called.resultTemplateElements .start

def resultAnalyzer (position : Nat) (called : Macro)
    (elements : Macro.VariablesMap) : Analyzer where
  lexems := (a.expand position called elements).lexems ++ [eofLexem]
  baseName := a.expansionBaseName position
  depth := a.depth + 1

/-- All expansions: those of the analyzer, each followed by those in its result. -/
def expansions (a : Analyzer) : Calls → List Expanding
  | .none => []
  | .call position called elements inner rest =>
    a.expand position called elements ::
      ((a.resultAnalyzer position called elements).expansions inner ++ a.expansions rest)

/-- The calls are ones that a parser can make: at lexems that are names of macros,
not twice at the same one since the parser never goes back, and below the limit of
the depth. -/
def CanCall (macros : List Macro) (a : Analyzer) : Calls → Prop
  | .none => True
  | .call position called elements inner rest =>
    called ∈ macros ∧
    (∃ lexem, a.lexems[position]? = some lexem ∧ lexem.type = .identifier ∧
      lexem.text = called.name) ∧
    position ∉ positions rest ∧
    a.depth < depthLimit ∧
    (a.resultAnalyzer position called elements).CanCall macros inner ∧
    a.CanCall macros rest
where
  positions : Calls → List Nat
    | .none => []
    | .call position _ _ _ rest => position :: positions rest

end Analyzer

/-- The analysis of a file: its lexems, the macros that are visible in it, and what the
parser does. -/
structure FileRun where
  lexems : List Lexem
  filePathHash : Text
  macros : List Macro
  calls : Calls
  canCall : Analyzer.CanCall macros ⟨lexems, filePathHash, 0⟩ calls
  bounded : (Analyzer.expansions ⟨lexems, filePathHash, 0⟩ calls).length ≤ totalExpansionsLimit

namespace FileRun

def analyzer (run : FileRun) : Analyzer := ⟨run.lexems, run.filePathHash, 0⟩

def expansions (run : FileRun) : List Expanding := run.analyzer.expansions run.calls

end FileRun

end USprache.LexSynt
