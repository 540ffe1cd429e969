import USprache.LexSynt.LexerProgress
import USprache.LexSynt.SyntaxAnalyzer

/-!
# Definitions of macros

`ParseMacroMatchBlock` parses a match template.  What decides whether an optional or a repeated
block is taken is either its first lexem or the lexem behind it, and a block with neither is an
error.
-/

namespace USprache.LexSynt

open List Option Prod

def keywordCount : Nat := 130

theorem isKeyword_iff (t : Text) :
    (∃ n ∈ List.range keywordCount, (Keyword.ofNat n).text = t) ↔ IsKeyword t := by
  constructor
  · rintro ⟨n, -, h⟩
    exact ⟨Keyword.ofNat n, h⟩
  · rintro ⟨kw, h⟩
    have hlt : kw.ctorIdx < keywordCount := by cases kw <;> decide
    exact ⟨kw.ctorIdx, mem_range.2 hlt, by rw [Keyword.ofNat_ctorIdx, h]⟩

instance : DecidablePred IsKeyword := fun text => decidable_of_iff _ (isKeyword_iff text)

namespace Macro

inductive BlockCheckLexemKind where
  | lexemAfterBlockEnd
  | lexemAtBlockStart
deriving DecidableEq

/-- The elements that other methods of the analyzer parse. -/
inductive ParsedKind where
  | typename
  | expression
  | block
  | ifAlternative
deriving DecidableEq

def ParsedKind.elementKind : ParsedKind → MatchElementKind
  | typename => .typename
  | expression => .expression
  | block => .block
  | ifAlternative => .ifAlternative

/-- The elements of a match template, one after another.  `separator` has the type `endOfFile` if
there is none. -/
inductive MatchElements where
  | nil
  | lexem (lexem : Lexem) (rest : MatchElements)
  | identifier (name : Text) (rest : MatchElements)
  | parsed (name : Text) (kind : ParsedKind) (rest : MatchElements)
  | optional (name : Text) (check : BlockCheckLexemKind) (subElements rest : MatchElements)
  | repeated (name : Text) (check : BlockCheckLexemKind) (separator : Lexem)
      (subElements rest : MatchElements)
deriving DecidableEq

namespace MatchElements

def firstLexem : MatchElements → Option Lexem
  | .lexem it _ => some it
  | _ => none

end MatchElements

def sameLexem (it lexem : Lexem) : Bool :=
  decide (it.type = lexem.type) && decide (it.text = lexem.text)

/-- `block_check_lexem_kind` of a block with the elements behind it. -/
def blockCheck (subElements rest : MatchElements) : Option BlockCheckLexemKind :=
  if subElements.firstLexem.isSome then some .lexemAtBlockStart
  else if rest.firstLexem.isSome then some .lexemAfterBlockEnd
  else none

def checkErrors (name : Text) (subElements rest : MatchElements) : List String :=
  if (blockCheck subElements rest).isSome then []
  else ["Expected lexem at start or after \"" ++ messageText name ++ "\" element."]

def sameLexemError (lexem next : Option Lexem) (text : String) : List String :=
  match lexem, next with
  | some lexem, some next => if sameLexem lexem next then [text] else []
  | _, _ => []

def optionalErrors (subElements rest : MatchElements) : List String :=
  sameLexemError subElements.firstLexem rest.firstLexem
    "Start lexem of optional macro block must be different from first lexem after optional block."

def repeatedErrors (separator : Lexem) (subElements rest : MatchElements) : List String :=
  if separator.type ≠ .endOfFile then
    sameLexemError (some separator) rest.firstLexem
      "Separator lexem of repeated macro block must be different from first lexem after repeated block."
  else
    sameLexemError subElements.firstLexem rest.firstLexem
      "Start lexem of repeated macro block without separator must be different from first lexem after repeated block."

/-- The second loop of `ParseMacroMatchBlock`, with the texts of its errors. -/
def detectEndLexems : MatchElements → List String × MatchElements
  | .nil => ([], .nil)
  | .lexem lexem rest => ((detectEndLexems rest).1, .lexem lexem (detectEndLexems rest).2)
  | .identifier name rest => ((detectEndLexems rest).1, .identifier name (detectEndLexems rest).2)
  | .parsed name kind rest => ((detectEndLexems rest).1, .parsed name kind (detectEndLexems rest).2)
  | .optional name check subElements rest =>
    (checkErrors name subElements rest ++ optionalErrors subElements rest ++ (detectEndLexems rest).1,
      .optional name ((blockCheck subElements rest).getD check) subElements (detectEndLexems rest).2)
  | .repeated name check separator subElements rest =>
    (checkErrors name subElements rest ++ repeatedErrors separator subElements rest ++
        (detectEndLexems rest).1,
      .repeated name ((blockCheck subElements rest).getD check) separator subElements
        (detectEndLexems rest).2)

inductive ElementType where
  | identifier
  | parsed (kind : ParsedKind)
  | optional
  | repeated

def elementType (text : Text) : Option ElementType :=
  if text = asciiText "ident" then some .identifier
  else if text = asciiText "ty" then some (.parsed .typename)
  else if text = asciiText "expr" then some (.parsed .expression)
  else if text = asciiText "block" then some (.parsed .block)
  else if text = asciiText "if_alternative" then some (.parsed .ifAlternative)
  else if text = asciiText "opt" then some .optional
  else if text = asciiText "rep" then some .repeated
  else none

end Macro

open Macro USprache.LexSynt.Parser

def addErrorIf (c : Prop) [Decidable c] (text : String) (srcLoc : SrcLoc) : Parser Unit :=
  if c then addError text srcLoc else return ()

def checkElementName (names : List Text) (it : Lexem) : Parser Unit := do
  addErrorIf (it.text ∈ names) ("\"" ++ messageText it.text ++ "\" macro parameter redefinition.")
    it.srcLoc
  addErrorIf (IsKeyword it.text) "Using keyword as macro element name" it.srcLoc

def parseSubElements (parseMacroMatchBlock : Parser MatchElements) : Parser MatchElements := do
  expectLexem .macroBracketLeft
  let subElements ← parseMacroMatchBlock
  expectLexem .macroBracketRight
  return subElements

def isMacroLexem (type : LexemType) : Bool :=
  type == .macroIdentifier || type == .macroUniqueIdentifier || type == .macroBracketLeft ||
    type == .macroBracketRight

/-- The separator of a repeated block, with none if it is not a separator. -/
def parseSeparator : Parser (Option Lexem) := do
  let it ← current
  if it.type = .macroBracketLeft then
    nextLexem
    let separator ← current
    if isMacroLexem separator.type then
      pushErrorMessage
      return none
    else
      nextLexem
      expectLexem .macroBracketRight
      return some separator
  else return some eofLexem

/-- What follows the name and the colon, in front of the elements behind.  With none the block
is given up. -/
def parseElementOfType (parseMacroMatchBlock : Parser MatchElements) (name typeText : Text) :
    Parser (Option (MatchElements → MatchElements)) :=
  match elementType typeText with
  | some .identifier => return some (.identifier name)
  | some (.parsed kind) => return some (.parsed name kind)
  | some .optional => do
    let subElements ← parseSubElements parseMacroMatchBlock
    return some (.optional name .lexemAfterBlockEnd subElements)
  | some .repeated => do
    let subElements ← parseSubElements parseMacroMatchBlock
    match ← parseSeparator with
    | some separator => return some (.repeated name .lexemAfterBlockEnd separator subElements)
    | none => return none
  | none => do
    let it ← current
    addError ("\"" ++ messageText typeText ++ "\" unknown macro variable type") it.srcLoc
    return some (.lexem eofLexem)

def parseMatchElement (parseMacroMatchBlock : Parser MatchElements) (names : List Text) (it : Lexem) :
    Parser (Option (MatchElements → MatchElements)) := do
  checkElementName names it
  nextLexem
  expectLexem .colon
  let type ← current
  if type.type ≠ .identifier then
    pushErrorMessage
    return none
  else
    nextLexem
    parseElementOfType parseMacroMatchBlock it.text type.text

/-- The first loop of `ParseMacroMatchBlock`, with `false` where it returns at once. -/
def parseMatchElements (parseMacroMatchBlock : Parser MatchElements) :
    Nat → List Text → Parser (MatchElements × Bool)
  | 0, _ => outOfFuel
  | fuel + 1, names => do
    if ← notEndOfFile then
      let it ← current
      if it.type = .macroBracketRight then return (.nil, true)
      else if it.type = .macroBracketLeft ∨ it.type = .macroUniqueIdentifier then
        pushErrorMessage
        return (.nil, false)
      else if it.type = .macroIdentifier then
        match ← parseMatchElement parseMacroMatchBlock names it with
        | some element =>
          let (rest, finished) ← parseMatchElements parseMacroMatchBlock fuel (it.text :: names)
          return (element rest, finished)
        | none => return (.nil, false)
      else
        nextLexem
        let (rest, finished) ← parseMatchElements parseMacroMatchBlock fuel names
        return (.lexem it rest, finished)
    else return (.nil, true)

def addErrors (srcLoc : SrcLoc) : List String → Parser Unit
  | [] => return ()
  | text :: texts => do
    addError text srcLoc
    addErrors srcLoc texts

def parseMacroMatchBlock : Nat → Parser MatchElements
  | 0 => outOfFuel
  | fuel + 1 => do
    let (elements, finished) ← parseMatchElements (parseMacroMatchBlock fuel) (fuel + 1) []
    if finished then
      let it ← current
      addErrors it.srcLoc (detectEndLexems elements).1
      return (detectEndLexems elements).2
    else return elements

namespace Macro.MatchElements

/-- Every block has the kind of check that its first lexem or the one behind it allows. -/
def WellFormed : MatchElements → Prop
  | nil => True
  | lexem _ rest => WellFormed rest
  | identifier _ rest => WellFormed rest
  | parsed _ _ rest => WellFormed rest
  | optional _ check subElements rest =>
    blockCheck subElements rest = some check ∧ WellFormed subElements ∧ WellFormed rest
  | repeated _ check _ subElements rest =>
    blockCheck subElements rest = some check ∧ WellFormed subElements ∧ WellFormed rest

def BlocksWellFormed : MatchElements → Prop
  | nil => True
  | lexem _ rest => BlocksWellFormed rest
  | identifier _ rest => BlocksWellFormed rest
  | parsed _ _ rest => BlocksWellFormed rest
  | optional _ _ subElements rest => WellFormed subElements ∧ BlocksWellFormed rest
  | repeated _ _ _ subElements rest => WellFormed subElements ∧ BlocksWellFormed rest

theorem firstLexem_detectEndLexems (elements : MatchElements) :
    (detectEndLexems elements).2.firstLexem = elements.firstLexem := by
  cases elements <;> rfl

theorem blockCheck_of_checkErrors {n : Text} {check : BlockCheckLexemKind}
    {sEls r : MatchElements} (h : checkErrors n sEls r = []) :
    blockCheck sEls (detectEndLexems r).2 = some ((blockCheck sEls r).getD check) := by
  have hcon : blockCheck sEls (detectEndLexems r).2 = blockCheck sEls r := by
    unfold blockCheck
    rw [firstLexem_detectEndLexems]
  unfold checkErrors at h
  split at h
  · next hsm =>
    obtain ⟨kind, hk⟩ := isSome_iff_exists.1 hsm
    rw [hcon, hk]
    rfl
  · cases h

theorem wellFormed_detectEndLexems {elements : MatchElements} (h : elements.BlocksWellFormed)
    (herrs : (detectEndLexems elements).1 = []) : (detectEndLexems elements).2.WellFormed := by
  induction elements with
  | nil => trivial
  | lexem _ _ ih | identifier _ _ ih | parsed _ _ _ ih => exact ih h herrs
  | optional _ _ _ _ _ ih | repeated _ _ _ _ _ _ ih =>
    obtain ⟨hchks, hrs⟩ := append_eq_nil_iff.1 herrs
    have hchk := (append_eq_nil_iff.1 hchks).1
    exact ⟨blockCheck_of_checkErrors hchk, h.1, ih h.2 hrs⟩

end Macro.MatchElements

/-- If there are no errors behind `p`, there were none in front of it, and its result has `Q`. -/
def Accepts {α : Type} (p : Parser α) (Q : α → Prop) : Prop :=
  ∀ (st : ParserState) (a : α) (st' : ParserState), p st = .ok (a, st') → st'.errorMessages = [] →
    st.errorMessages = [] ∧ Q a

namespace Accepts

variable {α β : Type} {p : Parser α} {Q : α → Prop} {R : β → Prop}

theorem pure {a : α} (ha : Q a) : Accepts (Pure.pure a) Q := by
  intro st b st' h herrs
  obtain ⟨rfl, rfl⟩ := mk.inj (Except.ok.inj h)
  exact ⟨herrs, ha⟩

theorem bind {f : α → Parser β} (hp : Accepts p Q) (hf : ∀ a, Accepts (f a) fun b => Q a → R b) :
    Accepts (p >>= f) R := by
  intro st b st' h herrs
  obtain ⟨⟨a, mid⟩, hpa, hfa⟩ := except_bind_ok (show (p st >>= fun r => f r.1 r.2) = _ from h)
  obtain ⟨hmid, hR⟩ := hf a mid b st' hfa herrs
  obtain ⟨hst, ha⟩ := hp st a mid hpa hmid
  exact ⟨hst, hR ha⟩

theorem mono {Q' : α → Prop} (hp : Accepts p Q) (h : ∀ a, Q a → Q' a) : Accepts p Q' := by
  intro st a st' hpa herrs
  exact (hp st a st' hpa herrs).imp_right (h a)

theorem current : Accepts current fun _ => True := by
  intro st it st' h herrs
  unfold Parser.current at h
  split at h
  · cases h
  · obtain ⟨rfl, rfl⟩ := mk.inj (Except.ok.inj h)
    exact ⟨herrs, trivial⟩

theorem notEndOfFile : Accepts notEndOfFile fun _ => True := by
  intro st b st' h herrs
  obtain ⟨rfl, rfl⟩ := mk.inj (Except.ok.inj h)
  exact ⟨herrs, trivial⟩

theorem nextLexem : Accepts nextLexem fun _ => True := by
  intro st _ st' h herrs
  obtain ⟨-, rfl⟩ := mk.inj (Except.ok.inj h)
  refine ⟨?_, trivial⟩
  unfold ParserState.nextLexem at herrs
  split at herrs
  · exact herrs
  · exact herrs

theorem addError {t : String} {srcLoc : SrcLoc} : Accepts (addError t srcLoc) fun _ => False := by
  intro st _ st' h herrs
  obtain ⟨-, rfl⟩ := mk.inj (Except.ok.inj h)
  exact absurd (append_eq_nil_iff.1 herrs).2 (cons_ne_nil _ _)

theorem errorMessages_pushErrorMessage (st : ParserState) (it : Lexem) :
    (st.pushErrorMessage it).errorMessages ≠ [] := by
  unfold ParserState.pushErrorMessage ParserState.addError ParserState.nextLexem
  dsimp only
  split_ifs with hla <;> simp_all
  all_goals
    intro hnil
    simp [hnil] at hla

theorem pushErrorMessage : Accepts pushErrorMessage fun _ => False := by
  refine bind current fun it st _ st' h herrs => ?_
  obtain ⟨-, rfl⟩ := mk.inj (Except.ok.inj h)
  exact absurd herrs (errorMessages_pushErrorMessage st it)

theorem ite {c : Prop} [Decidable c] {q : Parser α} (hp : c → Accepts p Q) (hq : ¬c → Accepts q Q) :
    Accepts (if c then p else q) Q := by
  split
  · next h => exact hp h
  · next h => exact hq h

theorem expectLexem (t : LexemType) : Accepts (expectLexem t) fun _ => True :=
  bind current fun _ => ite (fun _ => nextLexem.mono fun _ _ _ => trivial)
    fun _ => pushErrorMessage.mono fun _ h => h.elim

theorem outOfFuel : Accepts (outOfFuel : Parser α) Q := by
  intro st a st' h
  cases h

end Accepts

theorem accepts_addErrorIf (c : Prop) [Decidable c] (t : String) (srcLoc : SrcLoc) :
    Accepts (addErrorIf c t srcLoc) fun _ => True :=
  .ite (fun _ => Accepts.addError.mono fun _ h => h.elim) fun _ => .pure trivial

theorem accepts_checkElementName (ns : List Text) (it : Lexem) :
    Accepts (checkElementName ns it) fun _ => True :=
  .bind (accepts_addErrorIf _ _ _) fun _ =>
    (accepts_addErrorIf _ _ _).mono fun _ _ _ => trivial

theorem accepts_parseSeparator : Accepts parseSeparator fun sep => sep ≠ none := by
  refine .bind .current fun it => .ite (fun _ => ?_) fun _ => .pure fun _ => some_ne_none eofLexem
  refine .bind .nextLexem fun _ => .bind .current fun sep => .ite (fun _ => ?_) fun _ => ?_
  · exact .bind .pushErrorMessage fun _ => .pure fun h => h.elim
  · exact .bind .nextLexem fun _ => .bind (.expectLexem _) fun _ =>
      .pure fun _ _ _ _ _ => some_ne_none sep

def KeepsBlocks (element : Option (MatchElements → MatchElements)) : Prop :=
  ∃ f, element = some f ∧ ∀ rest : MatchElements, rest.BlocksWellFormed → (f rest).BlocksWellFormed

section ParseMacroMatchBlock

variable {parseBlk : Parser MatchElements} (hblock : Accepts parseBlk MatchElements.WellFormed)

include hblock

theorem accepts_parseSubElements : Accepts (parseSubElements parseBlk) MatchElements.WellFormed :=
  .bind (.expectLexem _) fun _ => .bind hblock fun _ => .bind (.expectLexem _) fun _ =>
    .pure fun _ hwell _ => hwell

theorem accepts_parseElementOfType (n tyT : Text) :
    Accepts (parseElementOfType parseBlk n tyT) KeepsBlocks := by
  unfold parseElementOfType
  match elementType tyT with
  | some .identifier | some (.parsed kind) => exact .pure ⟨_, rfl, fun _ h => h⟩
  | some .optional =>
    exact .bind (accepts_parseSubElements hblock) fun _ =>
      .pure fun hwell => ⟨_, rfl, fun _ h => ⟨hwell, h⟩⟩
  | some .repeated =>
    refine .bind (accepts_parseSubElements hblock) fun _ => .bind accepts_parseSeparator ?_
    rintro (_ | separator)
    · exact .pure fun h => absurd rfl h
    · exact .pure fun _ hwell => ⟨_, rfl, fun _ h => ⟨hwell, h⟩⟩
  | none =>
    exact .bind .current fun _ => .bind .addError fun _ => .pure fun h => h.elim

theorem accepts_parseMatchElement (ns : List Text) (it : Lexem) :
    Accepts (parseMatchElement parseBlk ns it) KeepsBlocks := by
  refine .bind (accepts_checkElementName ns it) fun _ => .bind .nextLexem fun _ =>
    .bind (.expectLexem _) fun _ => .bind .current fun t => .ite (fun _ => ?_) fun _ => ?_
  · exact .bind .pushErrorMessage fun _ => .pure fun h => h.elim
  · exact .bind .nextLexem fun _ =>
      .mono (accepts_parseElementOfType hblock it.text t.text) fun _ h _ _ _ _ _ => h

theorem accepts_parseMatchElements (fuel : Nat) : ∀ ns,
    Accepts (parseMatchElements parseBlk fuel ns) fun r =>
      r.2 = true ∧ r.1.BlocksWellFormed := by
  induction fuel with
  | zero => exact fun _ => .outOfFuel
  | succ fuel ih =>
    intro ns
    refine .bind .notEndOfFile fun more => .ite (fun _ => ?_) fun _ =>
      .pure fun _ => ⟨rfl, trivial⟩
    refine .bind .current fun it => .ite (fun _ => .pure fun _ _ => ⟨rfl, trivial⟩) fun _ =>
      .ite (fun _ => ?_) fun _ => .ite (fun _ => ?_) fun _ => ?_
    · exact .bind .pushErrorMessage fun _ => .pure fun h => h.elim
    · refine .bind (accepts_parseMatchElement hblock ns it) ?_
      rintro (_ | element)
      · refine .pure ?_
        rintro ⟨_, hno, -⟩
        cases hno
      · refine .bind (ih (it.text :: ns)) fun r => .pure fun hrs hel _ _ => ?_
        obtain ⟨f, hf, hkp⟩ := hel
        rw [some.inj hf]
        exact ⟨hrs.1, hkp r.1 hrs.2⟩
    · exact .bind .nextLexem fun _ => .bind (ih ns) fun _ => .pure fun hrs _ _ _ => hrs

end ParseMacroMatchBlock

theorem accepts_addErrors (srcLoc : SrcLoc) (ts : List String) :
    Accepts (addErrors srcLoc ts) fun _ => ts = [] := by
  induction ts with
  | nil => exact .pure rfl
  | cons text ts ih => exact .bind .addError fun _ => ih.mono fun _ _ h => h.elim

theorem accepts_parseMacroMatchBlock (fuel : Nat) :
    Accepts (parseMacroMatchBlock fuel) MatchElements.WellFormed := by
  induction fuel with
  | zero => exact .outOfFuel
  | succ fuel ih =>
    refine .bind (accepts_parseMatchElements ih (fuel + 1) []) fun result => .ite (fun _ => ?_)
      fun hnot => .pure fun h => absurd h.1 hnot
    exact .bind .current fun it => .bind (accepts_addErrors it.srcLoc _) fun _ =>
      .pure fun herrs _ h => MatchElements.wellFormed_detectEndLexems h.2 herrs

end USprache.LexSynt
