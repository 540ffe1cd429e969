import USprache.LexSynt.EncodedText
import USprache.LexSynt.ProgramWriter
import USprache.LexSynt.Reading

/-!
# The pieces of a written expression

The text that is written for an expression is a sequence of lexems and spaces.  No two
neighbours run together: the byte behind a lexem is never one that the lexical analyzer
would take as a part of it.
-/

namespace USprache.LexSynt

open List

/-! ## Expressions of operators and names -/

def IsIdentifier (name : Text) : Prop :=
  ∃ c chars, name = encode (c :: chars) ∧ isIdentifierStartChar c.toNat = true ∧
    ∀ c' ∈ chars, isIdentifierChar c'.toNat = true

def IsName (name : Text) : Prop := IsIdentifier name ∧ ¬IsKeyword name

def ComplexName.isTemplateParameterization : ComplexName → Bool
  | .templateParameterization _ _ _ => true
  | _ => false

mutual

/-- Names with scopes and template arguments.  Template arguments are not given twice. -/
inductive ComplexName.OfNames : ComplexName → Prop where
  | nameLookup {srcLoc : SrcLoc} {name : Text} (hname : IsName name) :
    ComplexName.OfNames (.nameLookup srcLoc name)
  | rootNamespaceNameLookup {srcLoc : SrcLoc} {name : Text} (hname : IsName name) :
    ComplexName.OfNames (.rootNamespaceNameLookup srcLoc name)
  | namesScopeNameFetch {srcLoc : SrcLoc} {name : Text} {base : ComplexName} (hname : IsName name)
    (hbase : ComplexName.OfNames base) :
    ComplexName.OfNames (.namesScopeNameFetch srcLoc name base)
  | templateParameterization {srcLoc : SrcLoc} {templateArgs : List Expression} {base : ComplexName}
    (hargs : AllOfOperators templateArgs) (hbase : ComplexName.OfNames base)
    (honce : base.isTemplateParameterization = false) :
    ComplexName.OfNames (.templateParameterization srcLoc templateArgs base)

inductive Expression.OfOperators : Expression → Prop where
  | name {name : ComplexName} (hname : ComplexName.OfNames name) :
    Expression.OfOperators (.typeName (.complexName name))
  | binaryOperator {srcLoc : SrcLoc} {operatorType : BinaryOperatorType} {left right : Expression}
    (hleft : Expression.OfOperators left) (hright : Expression.OfOperators right) :
    Expression.OfOperators (.binaryOperator srcLoc operatorType left right)
  | unaryMinus {srcLoc : SrcLoc} {expression : Expression}
    (hexpression : Expression.OfOperators expression) :
    Expression.OfOperators (.unaryMinus srcLoc expression)
  | logicalNot {srcLoc : SrcLoc} {expression : Expression}
    (hexpression : Expression.OfOperators expression) :
    Expression.OfOperators (.logicalNot srcLoc expression)
  | bitwiseNot {srcLoc : SrcLoc} {expression : Expression}
    (hexpression : Expression.OfOperators expression) :
    Expression.OfOperators (.bitwiseNot srcLoc expression)
  | ternaryOperator {srcLoc : SrcLoc} {condition branch0 branch1 : Expression}
    (hcondition : Expression.OfOperators condition) (hbranch0 : Expression.OfOperators branch0)
    (hbranch1 : Expression.OfOperators branch1) :
    Expression.OfOperators (.ternaryOperator srcLoc condition branch0 branch1)
  | subscriptOperator {srcLoc : SrcLoc} {expression index : Expression}
    (hexpression : Expression.OfOperators expression) (hindex : Expression.OfOperators index) :
    Expression.OfOperators (.subscriptOperator srcLoc expression index)
  | callOperator {srcLoc : SrcLoc} {expression : Expression} {arguments : List Expression}
    (hexpression : Expression.OfOperators expression) (harguments : AllOfOperators arguments) :
    Expression.OfOperators (.callOperator srcLoc expression arguments)
  | memberAccessOperator {srcLoc : SrcLoc} {expression : Expression} {memberName : Text}
    (hexpression : Expression.OfOperators expression) (hname : IsName memberName) :
    Expression.OfOperators (.memberAccessOperator srcLoc expression memberName none)
  | memberAccessOperatorWithTemplateArgs {srcLoc : SrcLoc} {expression : Expression}
    {memberName : Text} {templateArgs : List Expression}
    (hexpression : Expression.OfOperators expression) (hname : IsName memberName)
    (hargs : AllOfOperators templateArgs) :
    Expression.OfOperators (.memberAccessOperator srcLoc expression memberName (some templateArgs))
  | typeInfo {srcLoc : SrcLoc} {name : ComplexName} (hname : ComplexName.OfNames name) :
    Expression.OfOperators (.typeInfo srcLoc (.complexName name))
  | sameType {srcLoc : SrcLoc} {l r : ComplexName} (hl : ComplexName.OfNames l)
    (hr : ComplexName.OfNames r) :
    Expression.OfOperators (.sameType srcLoc (.complexName l) (.complexName r))
  | nonSyncExpression {srcLoc : SrcLoc} {name : ComplexName} (hname : ComplexName.OfNames name) :
    Expression.OfOperators (.nonSyncExpression srcLoc (.complexName name))
  | castMut {srcLoc : SrcLoc} {expression : Expression}
    (hexpression : Expression.OfOperators expression) :
    Expression.OfOperators (.castMut srcLoc expression)
  | castImut {srcLoc : SrcLoc} {expression : Expression}
    (hexpression : Expression.OfOperators expression) :
    Expression.OfOperators (.castImut srcLoc expression)
  | castRef {srcLoc : SrcLoc} {name : ComplexName} {expression : Expression}
    (hname : ComplexName.OfNames name) (hexpression : Expression.OfOperators expression) :
    Expression.OfOperators (.castRef srcLoc (.complexName name) expression)
  | castRefUnsafe {srcLoc : SrcLoc} {name : ComplexName} {expression : Expression}
    (hname : ComplexName.OfNames name) (hexpression : Expression.OfOperators expression) :
    Expression.OfOperators (.castRefUnsafe srcLoc (.complexName name) expression)

inductive AllOfOperators : List Expression → Prop where
  | nil : AllOfOperators []
  | cons {expression : Expression} {rest : List Expression}
    (hexpression : Expression.OfOperators expression) (hrest : AllOfOperators rest) :
    AllOfOperators (expression :: rest)

end

/-! ## Pieces -/

/-- The text of a lexem that has a fixed one, as far as expressions need it. -/
def fixedLexemText : LexemType → String
  | .bracketLeft => "("
  | .bracketRight => ")"
  | .squareBracketLeft => "["
  | .squareBracketRight => "]"
  | .templateBracketLeft => "</"
  | .templateBracketRight => "/>"
  | .doubleColon => "::"
  | .comma => ","
  | .dot => "."
  | .colon => ":"
  | .question => "?"
  | .plus => "+"
  | .minus => "-"
  | .asterisk => "*"
  | .slash => "/"
  | .percent => "%"
  | .ampersand => "&"
  | .pipe => "|"
  | .caret => "^"
  | .tilde => "~"
  | .exclamation => "!"
  | .less => "<"
  | .greater => ">"
  | .doubleEqual => "=="
  | .exclamationEqual => "!="
  | .lessEqual => "<="
  | .greaterEqual => ">="
  | .lessEqualGreater => "<=>"
  | .doubleAmpersand => "&&"
  | .doublePipe => "||"
  | .doubleLess => "<<"
  | .doubleGreater => ">>"
  | _ => ""

def operatorLexemType : BinaryOperatorType → LexemType
  | .add => .plus
  | .sub => .minus
  | .mul => .asterisk
  | .div => .slash
  | .rem => .percent
  | .equal => .doubleEqual
  | .notEqual => .exclamationEqual
  | .less => .less
  | .lessEqual => .lessEqual
  | .greater => .greater
  | .greaterEqual => .greaterEqual
  | .compareOrder => .lessEqualGreater
  | .and => .ampersand
  | .or => .pipe
  | .xor => .caret
  | .shiftLeft => .doubleLess
  | .shiftRight => .doubleGreater
  | .lazyLogicalAnd => .doubleAmpersand
  | .lazyLogicalOr => .doublePipe

inductive Piece where
  | space
  | lexem (shape : Shape)

namespace Piece

def text : Piece → Text
  | space => asciiText " "
  | lexem shape => shape.text

def shape? : Piece → Option Shape
  | space => none
  | lexem shape => some shape

def symbol (type : LexemType) : Piece := lexem ⟨type, asciiText (fixedLexemText type)⟩

def word (text : Text) : Piece := lexem ⟨.identifier, text⟩

end Piece

open Piece

def piecesText (pieces : List Piece) : Text := pieces.flatMap Piece.text

def shapesOf (pieces : List Piece) : List Shape := pieces.filterMap Piece.shape?

/-- The pieces of a list, with a comma and a space between them. -/
def separatedPieces (pieces : List (List Piece)) : List Piece :=
  [symbol .comma, space].intercalate pieces

mutual

def ComplexName.pieces : ComplexName → List Piece
  | .rootNamespaceNameLookup _ name => [symbol .doubleColon, word name]
  | .nameLookup _ name => [word name]
  | .namesScopeNameFetch _ name base => base.pieces ++ [symbol .doubleColon, word name]
  | .templateParameterization _ templateArgs base =>
    base.pieces ++ [symbol .templateBracketLeft, space] ++
      separatedPieces (piecesOfAll templateArgs) ++ [space, symbol .templateBracketRight]
  | _ => []

def TypeName.pieces : TypeName → List Piece
  | .complexName name => name.pieces
  | _ => []

def Expression.pieces : Expression → List Piece
  | .typeName type => type.pieces
  | .binaryOperator _ operatorType left right =>
    [symbol .bracketLeft, space] ++ left.pieces ++
      [space, symbol (operatorLexemType operatorType), space] ++ right.pieces ++
      [space, symbol .bracketRight]
  | .unaryMinus _ expression =>
    [symbol .bracketLeft, space, symbol .minus] ++ expression.pieces ++ [space, symbol .bracketRight]
  | .logicalNot _ expression =>
    [symbol .bracketLeft, space, symbol .exclamation] ++ expression.pieces ++
      [space, symbol .bracketRight]
  | .bitwiseNot _ expression =>
    [symbol .bracketLeft, space, symbol .tilde] ++ expression.pieces ++ [space, symbol .bracketRight]
  | .ternaryOperator _ condition branch0 branch1 =>
    [symbol .bracketLeft, space] ++ condition.pieces ++ [space, symbol .question, space] ++
      branch0.pieces ++ [space, symbol .colon, space] ++ branch1.pieces ++
      [space, symbol .bracketRight]
  | .subscriptOperator _ expression index =>
    [symbol .bracketLeft, space] ++ expression.pieces ++ [symbol .squareBracketLeft, space] ++
      index.pieces ++ [space, symbol .squareBracketRight, space, symbol .bracketRight]
  | .callOperator _ expression arguments =>
    [symbol .bracketLeft, space] ++ expression.pieces ++ [symbol .bracketLeft, space] ++
      separatedPieces (piecesOfAll arguments) ++
      [symbol .bracketRight, space, symbol .bracketRight]
  | .memberAccessOperator _ expression memberName none =>
    [symbol .bracketLeft, space] ++ expression.pieces ++
      [symbol .dot, word memberName, space, symbol .bracketRight]
  | .memberAccessOperator _ expression memberName (some templateArgs) =>
    [symbol .bracketLeft, space] ++ expression.pieces ++
      [symbol .dot, word memberName, symbol .templateBracketLeft] ++
      separatedPieces (piecesOfAll templateArgs) ++
      [symbol .templateBracketRight, space, symbol .bracketRight]
  | .typeInfo _ type =>
    [word Keyword.typeinfo_.text, symbol .templateBracketLeft, space] ++ type.pieces ++
      [space, symbol .templateBracketRight]
  | .sameType _ l r =>
    [word Keyword.same_type_.text, symbol .templateBracketLeft, space] ++ l.pieces ++
      [symbol .comma, space] ++ r.pieces ++ [space, symbol .templateBracketRight]
  | .nonSyncExpression _ type =>
    [symbol .templateBracketLeft, space] ++ type.pieces ++ [space, symbol .templateBracketRight]
  | .castMut _ expression =>
    [word Keyword.cast_mut_.text, symbol .bracketLeft, space] ++ expression.pieces ++
      [space, symbol .bracketRight]
  | .castImut _ expression =>
    [word Keyword.cast_imut_.text, symbol .bracketLeft, space] ++ expression.pieces ++
      [space, symbol .bracketRight]
  | .castRef _ type expression =>
    [word Keyword.cast_ref_.text, symbol .templateBracketLeft, space] ++ type.pieces ++
      [space, symbol .templateBracketRight, symbol .bracketLeft, space] ++ expression.pieces ++
      [space, symbol .bracketRight]
  | .castRefUnsafe _ type expression =>
    [word Keyword.cast_ref_unsafe_.text, symbol .templateBracketLeft, space] ++ type.pieces ++
      [space, symbol .templateBracketRight, symbol .bracketLeft, space] ++ expression.pieces ++
      [space, symbol .bracketRight]
  | _ => []

def piecesOfAll : List Expression → List (List Piece)
  | [] => []
  | expression :: rest => expression.pieces :: piecesOfAll rest

end

attribute [simp] ComplexName.pieces TypeName.pieces Expression.pieces ComplexName.elementWrite
  TypeName.elementWrite Expression.elementWrite

/-! ## The written text -/

@[simp] theorem piecesText_nil : piecesText [] = [] := rfl

@[simp] theorem piecesText_cons (pc : Piece) (pieces : List Piece) :
    piecesText (pc :: pieces) = pc.text ++ piecesText pieces := rfl

@[simp] theorem piecesText_append (pcs1 pcs2 : List Piece) :
    piecesText (pcs1 ++ pcs2) = piecesText pcs1 ++ piecesText pcs2 :=
  flatMap_append

theorem piecesText_separatedPieces (pieces : List (List Piece)) :
    piecesText (separatedPieces pieces) = separated (pieces.map piecesText) := by
  induction pieces with
  | nil => rfl
  | cons p rest ih =>
    cases rest with
    | nil => simp [separatedPieces, separated]
    | cons q rest =>
      simp only [separatedPieces, separated, map_cons, intercalate_cons_cons,
        piecesText_append] at ih ⊢
      rw [ih]
      rfl

theorem text_operator (opTy : BinaryOperatorType) : (symbol (operatorLexemType opTy)).text =
    asciiText (binaryOperatorToString opTy) := by
  cases opTy <;> rfl

mutual

theorem ComplexName.OfNames.elementWrite_eq :
    ∀ {name : ComplexName}, name.OfNames → name.elementWrite = piecesText name.pieces
  | _, .nameLookup _ | _, .rootNamespaceNameLookup _ => by simp; rfl
  | _, .namesScopeNameFetch _ hb => by simp [hb.elementWrite_eq]; rfl
  | _, .templateParameterization hargs hb _ => by
    simp [hb.elementWrite_eq, hargs.elementsWrite_eq, piecesText_separatedPieces]; rfl

theorem Expression.OfOperators.elementWrite_eq :
    ∀ {e : Expression}, e.OfOperators → e.elementWrite = piecesText e.pieces
  | _, .name hn => hn.elementWrite_eq
  | _, .binaryOperator hl hr => by
    simp [hl.elementWrite_eq, hr.elementWrite_eq, text_operator]; rfl
  | _, .unaryMinus h | _, .logicalNot h | _, .bitwiseNot h | _, .memberAccessOperator h _
  | _, .typeInfo h | _, .nonSyncExpression h | _, .castMut h | _, .castImut h => by
    simp [h.elementWrite_eq]; rfl
  | _, .ternaryOperator h h0 h1 => by
    simp [h.elementWrite_eq, h0.elementWrite_eq, h1.elementWrite_eq]; rfl
  | _, .subscriptOperator h h' | _, .sameType h h' | _, .castRef h h' | _, .castRefUnsafe h h' => by
    simp [h.elementWrite_eq, h'.elementWrite_eq]; rfl
  | _, .callOperator h hargs | _, .memberAccessOperatorWithTemplateArgs h _ hargs => by
    simp [h.elementWrite_eq, hargs.elementsWrite_eq, piecesText_separatedPieces]; rfl

theorem AllOfOperators.elementsWrite_eq : ∀ {es : List Expression}, AllOfOperators es →
    elementsWrite es = (piecesOfAll es).map piecesText
  | _, .nil => rfl
  | _, .cons h hrs => by
    rw [elementsWrite, piecesOfAll, map_cons, h.elementWrite_eq, hrs.elementsWrite_eq]

end

/-! ## Neighbours -/

def allFixedLexems : List (Text × LexemType) := fixedLexems 1 ++ fixedLexems 2 ++ fixedLexems 3

def Breaks (s : Shape) (b : UInt8) : Prop :=
  if s.type = .identifier then b.toNat < 0x80 ∧ isIdentifierChar b.toNat = false
  else
    (∀ entry ∈ allFixedLexems, ¬(s.text ++ [b]) <+: entry.1) ∧
    (s.type = .slash → b ≠ ascii '/' ∧ b ≠ ascii '*') ∧ (s.type = .question → b = ascii ' ')

instance (s : Shape) (b : UInt8) : Decidable (Breaks s b) := inferInstanceAs (Decidable (ite _ _ _))

def Piece.BreaksBefore (piece : Piece) (rest : Text) : Prop :=
  ∀ s ∈ piece.shape?, ∀ b ∈ rest.head?, Breaks s b

@[simp] def SeparatedBefore : List Piece → Text → Prop
  | [], _ => True
  | piece :: pieces, rest =>
    piece.BreaksBefore (piecesText pieces ++ rest) ∧ SeparatedBefore pieces rest

variable {rest : Text} {type : LexemType} {name : Text}

@[simp] theorem separatedBefore_append {pcs1 pcs2 : List Piece} :
    SeparatedBefore (pcs1 ++ pcs2) rest ↔
      SeparatedBefore pcs1 (piecesText pcs2 ++ rest) ∧ SeparatedBefore pcs2 rest := by
  induction pcs1 with
  | nil => simp
  | cons piece pcs1 ih =>
    simp only [cons_append, SeparatedBefore, ih, piecesText_append, append_assoc, and_assoc]

def StartByte (b : UInt8) : Prop :=
  b ∈ asciiText "(:<" ∨ 0x80 ≤ b.toNat ∨ isIdentifierStartChar b.toNat = true

def endBytes : Text := asciiText " .([),/:<"

def StartsExpression (text : Text) : Prop := ∃ b t, text = b :: t ∧ StartByte b

def EndsExpression (rest : Text) : Prop := ∀ b ∈ rest.head?, b ∈ endBytes

def symbolBytes : Text := asciiText "()[]\x7b\x7d,.:;?=+-*/%<>&|^~!@$"

theorem fixedLexems_symbolBytes : ∀ e ∈ allFixedLexems, ∀ b ∈ e.1, b ∈ symbolBytes := by
  decide +kernel

theorem symbolBytes_not_start :
    ∀ b ∈ symbolBytes, b.toNat < 0x80 ∧ isIdentifierStartChar b.toNat = false := by
  decide +kernel

theorem breaks_of_notMem {b : UInt8} (hty : type ≠ .identifier)
    (hb : b ∉ symbolBytes) (hq : type = .question → b = ascii ' ') :
    Breaks ⟨type, asciiText (fixedLexemText type)⟩ b := by
  unfold Breaks
  rw [if_neg hty]
  refine ⟨fun e he hpre => hb (fixedLexems_symbolBytes e he b ?_), fun _ => ?_, hq⟩
  · exact hpre.subset (by simp)
  · exact ⟨fun h => hb (h ▸ by decide), fun h => hb (h ▸ by decide)⟩

theorem isIdentifier_head (h : IsIdentifier name) :
    ∃ b t, name = b :: t ∧ (0x80 ≤ b.toNat ∨ isIdentifierStartChar b.toNat = true) := by
  obtain ⟨c, cs, rfl, hc, -⟩ := h
  obtain ⟨b, t, hbt⟩ := exists_cons_of_ne_nil (encode_ne_nil c cs)
  refine ⟨b, t, hbt, ?_⟩
  by_cases hb : b.toNat < 0x80
  · obtain ⟨c', chars', heq, hc', -⟩ := encode_eq_cons_ascii hbt hb
    cases heq
    exact .inr (hc' ▸ hc)
  · exact .inl (by omega)

theorem notMem_symbolBytes {b : UInt8}
    (hb : 0x80 ≤ b.toNat ∨ isIdentifierStartChar b.toNat = true) : b ∉ symbolBytes := by
  intro hmem
  obtain ⟨hlt, hst⟩ := symbolBytes_not_start b hmem
  rcases hb with hb | hb
  · omega
  · rw [hst] at hb
    cases hb

@[simp] theorem space_breaksBefore (rest : Text) : space.BreaksBefore rest := by
  rintro s ⟨⟩

@[simp] theorem symbol_breaksBefore_space (hty : type ≠ .identifier)
    (rest : Text) : (symbol type).BreaksBefore (space.text ++ rest) := by
  rintro s ⟨⟩ b ⟨⟩
  exact breaks_of_notMem hty (by decide) fun _ => rfl

theorem symbol_breaksBefore_name (hty : type ≠ .identifier)
    (hq : type ≠ .question) (hn : IsIdentifier name) (rest : Text) :
    (symbol type).BreaksBefore ((word name).text ++ rest) := by
  obtain ⟨b, t, rfl, hb⟩ := isIdentifier_head hn
  rintro s ⟨⟩ b' ⟨⟩
  exact breaks_of_notMem hty (notMem_symbolBytes hb) fun h => absurd h hq

theorem symbol_breaksBefore_expression
    (hty : type ∈ [LexemType.minus, .exclamation, .tilde, .templateBracketLeft]) {tx : Text}
    (ht : StartsExpression tx) : (symbol type).BreaksBefore tx := by
  obtain ⟨b, t, rfl, hb⟩ := ht
  rintro s ⟨⟩ b' ⟨⟩
  have hnot : type ≠ .identifier ∧ type ≠ .question := by
    revert type
    decide
  have hbs : ∀ type ∈ [LexemType.minus, .exclamation, .tilde, .templateBracketLeft],
      ∀ b ∈ asciiText "(:<", Breaks ⟨type, asciiText (fixedLexemText type)⟩ b := by
    decide +kernel
  rcases hb with hb | hb
  · exact hbs type hty b hb
  · exact breaks_of_notMem hnot.1 (notMem_symbolBytes hb) fun h => absurd h hnot.2

@[simp] theorem word_breaksBefore (t : Text) (h : EndsExpression rest) :
    (word t).BreaksBefore rest := by
  rintro s ⟨⟩ b hb
  have hbs : ∀ b ∈ endBytes, b.toNat < 0x80 ∧ isIdentifierChar b.toNat = false := by
    decide +kernel
  exact hbs b (h b hb)

@[simp] theorem symbol_breaksBefore_end
    (hty : type ∈ [LexemType.bracketRight, .templateBracketRight])
    (h : EndsExpression rest) : (symbol type).BreaksBefore rest := by
  rintro s ⟨⟩ b hb
  have hbs : ∀ type ∈ [LexemType.bracketRight, .templateBracketRight], ∀ b ∈ endBytes,
      Breaks ⟨type, asciiText (fixedLexemText type)⟩ b := by
    decide +kernel
  exact hbs type hty b (h b hb)

@[simp] theorem endsExpression_space (rest : Text) : EndsExpression (space.text ++ rest) := by
  rintro b ⟨⟩
  decide

/-- The lexems that stand behind an expression or a name without a space. -/
@[simp] theorem endsExpression_symbol
    (hty : type ∈ [LexemType.bracketLeft, .bracketRight, .squareBracketLeft, .templateBracketLeft,
      .templateBracketRight, .doubleColon, .comma, .dot]) (rest : Text) :
    EndsExpression ((symbol type).text ++ rest) := by
  have ht : ∀ type ∈ [LexemType.bracketLeft, .bracketRight, .squareBracketLeft,
      .templateBracketLeft, .templateBracketRight, .doubleColon, .comma, .dot],
      ∃ b ∈ endBytes, (symbol type).text.head? = some b := by
    decide
  obtain ⟨b, hb, hhd⟩ := ht type hty
  intro b' hb'
  rw [head?_append, hhd] at hb'
  cases hb'
  exact hb

theorem startsExpression_append {tx : Text} (h : StartsExpression tx) (rest : Text) :
    StartsExpression (tx ++ rest) := by
  obtain ⟨b, t, rfl, hb⟩ := h
  exact ⟨b, t ++ rest, rfl, hb⟩

theorem startsExpression_name (h : IsIdentifier name) : StartsExpression name := by
  obtain ⟨b, t, rfl, hb⟩ := isIdentifier_head h
  exact ⟨b, t, rfl, .inr hb⟩

def isAsciiIdentifier (s : String) : Bool :=
  s.toList.all (fun c => c.toNat < 0x80 && isIdentifierChar c.toNat) &&
    s.toList.head?.any (fun c => isIdentifierStartChar c.toNat)

theorem encode_ascii {cs : List Char} (h : ∀ c ∈ cs, c.toNat < 0x80) :
    encode cs = cs.map ascii := by
  induction cs with
  | nil => rfl
  | cons c cs ih =>
    rw [encode_cons_ascii (h c mem_cons_self), ih fun c hc => h c (mem_cons_of_mem _ hc)]
    rfl

theorem isIdentifier_asciiText {s : String} (h : isAsciiIdentifier s = true) :
    IsIdentifier (asciiText s) := by
  obtain ⟨hall, hhd⟩ := Bool.and_eq_true_iff.1 h
  rw [all_eq_true] at hall
  cases hs : s.toList with
  | nil => rw [hs] at hhd; cases hhd
  | cons c cs =>
    rw [hs] at hall hhd
    refine ⟨c, cs, ?_, hhd, fun c' hc' => ?_⟩
    · rw [asciiText, hs, encode_ascii]
      exact fun c hc => of_decide_eq_true (Bool.and_eq_true_iff.1 (hall c hc)).1
    · exact (Bool.and_eq_true_iff.1 (hall c' (mem_cons_of_mem _ hc'))).2

theorem Keyword.isIdentifier (kw : Keyword) : IsIdentifier kw.text := by
  refine isIdentifier_asciiText ?_
  cases kw <;> decide

/-! ### Trees -/

theorem ComplexName.OfNames.startsExpression {name : ComplexName} (h : name.OfNames) :
    StartsExpression (piecesText name.pieces) := by
  match h with
  | .nameLookup hn =>
    exact startsExpression_append (startsExpression_name hn.1) []
  | .rootNamespaceNameLookup hn => exact ⟨_, _, rfl, .inl (by decide)⟩
  | .namesScopeNameFetch hn hb =>
    rw [pieces, piecesText_append]
    exact startsExpression_append (hb.startsExpression) _
  | .templateParameterization hargs hb _ =>
    rw [pieces, append_assoc, append_assoc, piecesText_append]
    exact startsExpression_append (hb.startsExpression) _

theorem startsExpression_bracket (rest : Text) : StartsExpression (asciiText "(" ++ rest) :=
  ⟨_, _, rfl, .inl (by decide)⟩

theorem startsExpression_keyword (kw : Keyword) (rest : Text) :
    StartsExpression (kw.text ++ rest) :=
  startsExpression_append (startsExpression_name kw.isIdentifier) rest

theorem Expression.OfOperators.startsExpression {e : Expression} (h : e.OfOperators) :
    StartsExpression (piecesText e.pieces) := by
  cases h with
  | name hn => exact hn.startsExpression
  | nonSyncExpression hn => exact ⟨_, _, rfl, .inl (by decide)⟩
  | typeInfo hn => exact startsExpression_keyword .typeinfo_ _
  | sameType hl hr => exact startsExpression_keyword .same_type_ _
  | castMut h => exact startsExpression_keyword .cast_mut_ _
  | castImut h => exact startsExpression_keyword .cast_imut_ _
  | castRef hn h => exact startsExpression_keyword .cast_ref_ _
  | castRefUnsafe hn h => exact startsExpression_keyword .cast_ref_unsafe_ _
  | _ => exact startsExpression_bracket _

theorem operatorLexemType_ne_identifier (opTy : BinaryOperatorType) :
    operatorLexemType opTy ≠ .identifier := by
  cases opTy <;> decide

/-- Behind the template arguments of a member there is no space, even if there are none. -/
theorem templateBracketLeft_breaksBefore_args {es : List Expression}
    (h : AllOfOperators es) (rest : Text) :
    (symbol .templateBracketLeft).BreaksBefore (piecesText (separatedPieces (piecesOfAll es)) ++
      ((symbol .templateBracketRight).text ++ rest)) := by
  cases h with
  | nil =>
    rintro s ⟨⟩ b ⟨⟩
    decide
  | cons h hrs =>
    refine symbol_breaksBefore_expression (by decide) (startsExpression_append ?_ _)
    rw [piecesText_separatedPieces]
    have hst := h.startsExpression
    cases hrs with
    | nil => simpa [piecesOfAll, separated] using hst
    | cons h' hrs' =>
      exact startsExpression_append hst _

mutual

theorem ComplexName.OfNames.separatedBefore :
    ∀ {name : ComplexName}, name.OfNames → ∀ {rest : Text}, EndsExpression rest →
      SeparatedBefore name.pieces rest
  | _, .nameLookup _, _, hrs => by simp [hrs]
  | _, .rootNamespaceNameLookup hn, _, hrs => by simp [hrs, symbol_breaksBefore_name, hn.1]
  | _, .namesScopeNameFetch hn hb, _, hrs => by
    simp [hrs, hb.separatedBefore, symbol_breaksBefore_name, hn.1]
  | _, .templateParameterization hargs hb _, _, hrs => by
    simp [hrs, hb.separatedBefore, hargs.separatedBefore]

theorem Expression.OfOperators.separatedBefore :
    ∀ {e : Expression}, e.OfOperators → ∀ {rest : Text}, EndsExpression rest →
      SeparatedBefore e.pieces rest
  | _, .name hn, _, hrs => hn.separatedBefore hrs
  | _, .binaryOperator hl hr, _, hrs => by
    simp [hrs, hl.separatedBefore, hr.separatedBefore, operatorLexemType_ne_identifier]
  | _, .unaryMinus h, _, hrs | _, .logicalNot h, _, hrs | _, .bitwiseNot h, _, hrs => by
    simp [hrs, h.separatedBefore, symbol_breaksBefore_expression, startsExpression_append,
      h.startsExpression]
  | _, .ternaryOperator h h0 h1, _, hrs => by
    simp [hrs, h.separatedBefore, h0.separatedBefore, h1.separatedBefore]
  | _, .subscriptOperator h h', _, hrs | _, .callOperator h h', _, hrs | _, .sameType h h', _, hrs
  | _, .castRef h h', _, hrs | _, .castRefUnsafe h h', _, hrs => by
    simp [hrs, h.separatedBefore, h'.separatedBefore]
  | _, .memberAccessOperator h hn, _, hrs => by
    simp [hrs, h.separatedBefore, symbol_breaksBefore_name, hn.1]
  | _, .memberAccessOperatorWithTemplateArgs h hn hargs, _, hrs => by
    simp [hrs, h.separatedBefore, symbol_breaksBefore_name, hn.1, hargs.separatedBefore]
    exact templateBracketLeft_breaksBefore_args hargs _
  | _, .typeInfo h, _, hrs | _, .nonSyncExpression h, _, hrs | _, .castMut h, _, hrs
  | _, .castImut h, _, hrs => by simp [hrs, h.separatedBefore]

theorem AllOfOperators.separatedBefore :
    ∀ {es : List Expression}, AllOfOperators es → ∀ {rest : Text},
      EndsExpression rest → SeparatedBefore (separatedPieces (piecesOfAll es)) rest
  | _, .nil, _, _ => trivial
  | _, .cons h .nil, _, hrs => by
    simp [piecesOfAll, separatedPieces, h.separatedBefore hrs]
  | _, .cons h (.cons h' hrs'), _, hrs => by
    have ih := AllOfOperators.separatedBefore (.cons h' hrs') hrs
    simp only [piecesOfAll, separatedPieces, intercalate_cons_cons] at ih ⊢
    simp [h.separatedBefore, ih]

end

/-! ## What is written -/

/-- The keywords that are written for operators.  `non_sync` is not among them. -/
abbrev writtenKeywords : List Keyword :=
  [.typeinfo_, .same_type_, .cast_ref_, .cast_ref_unsafe_, .cast_imut_, .cast_mut_]

def Shape.IsWritten (s : Shape) : Prop :=
  (s.type = .identifier ∧ (IsName s.text ∨ ∃ keyword ∈ writtenKeywords, s.text = keyword.text)) ∨
  (s.type ≠ .identifier ∧ s.type ≠ .braceLeft ∧ (s.text, s.type) ∈ allFixedLexems)

abbrev writtenSymbols : List LexemType :=
  [.bracketLeft, .bracketRight, .squareBracketLeft, .squareBracketRight, .templateBracketLeft,
    .templateBracketRight, .doubleColon, .comma, .dot, .colon, .question, .plus, .minus, .asterisk,
    .slash, .percent, .ampersand, .pipe, .caret, .tilde, .exclamation, .less, .greater, .doubleEqual,
    .exclamationEqual, .lessEqual, .greaterEqual, .lessEqualGreater, .doubleAmpersand, .doublePipe,
    .doubleLess, .doubleGreater]

def AllWritten (pieces : List Piece) : Prop := ∀ piece ∈ pieces, ∀ s ∈ piece.shape?, s.IsWritten

@[simp] theorem allWritten_nil : AllWritten [] := by
  rintro _ ⟨⟩

@[simp] theorem allWritten_append {pcs1 pcs2 : List Piece} :
    AllWritten (pcs1 ++ pcs2) ↔ AllWritten pcs1 ∧ AllWritten pcs2 :=
  forall_mem_append

variable {pieces : List Piece}

@[simp] theorem allWritten_space_cons : AllWritten (space :: pieces) ↔ AllWritten pieces := by
  simp [AllWritten, shape?]

theorem writtenSymbols_fixed : ∀ type ∈ writtenSymbols, type ≠ .identifier ∧ type ≠ .braceLeft ∧
    (asciiText (fixedLexemText type), type) ∈ allFixedLexems := by
  decide

@[simp] theorem allWritten_symbol_cons {type : LexemType} (hty : type ∈ writtenSymbols) :
    AllWritten (symbol type :: pieces) ↔ AllWritten pieces := by
  have hsym : ∀ s ∈ (symbol type).shape?, s.IsWritten := by
    rintro s ⟨⟩
    exact .inr (writtenSymbols_fixed type hty)
  exact ⟨fun h pc hpc => h pc (mem_cons_of_mem _ hpc), fun h => forall_mem_cons.2 ⟨hsym, h⟩⟩

@[simp] theorem allWritten_name_cons {name : Text} (hn : IsName name) :
    AllWritten (word name :: pieces) ↔ AllWritten pieces := by
  have hwd : ∀ s ∈ (word name).shape?, s.IsWritten := by
    rintro s ⟨⟩
    exact .inl ⟨rfl, .inl hn⟩
  exact ⟨fun h pc hpc => h pc (mem_cons_of_mem _ hpc), fun h => forall_mem_cons.2 ⟨hwd, h⟩⟩

@[simp] theorem allWritten_keyword_cons {kw : Keyword} (hkw : kw ∈ writtenKeywords) :
    AllWritten (word kw.text :: pieces) ↔ AllWritten pieces := by
  have hwd : ∀ s ∈ (word kw.text).shape?, s.IsWritten := by
    rintro s ⟨⟩
    exact .inl ⟨rfl, .inr ⟨kw, hkw, rfl⟩⟩
  exact ⟨fun h pc hpc => h pc (mem_cons_of_mem _ hpc), fun h => forall_mem_cons.2 ⟨hwd, h⟩⟩

@[simp] theorem allWritten_operator_cons {opTy : BinaryOperatorType} :
    AllWritten (symbol (operatorLexemType opTy) :: pieces) ↔ AllWritten pieces :=
  allWritten_symbol_cons (by cases opTy <;> decide)

mutual

theorem ComplexName.OfNames.allWritten :
    ∀ {name : ComplexName}, name.OfNames → AllWritten name.pieces
  | _, .nameLookup hn | _, .rootNamespaceNameLookup hn => by simp [hn]
  | _, .namesScopeNameFetch hn hb => by simp [hn, hb.allWritten]
  | _, .templateParameterization hargs hb _ => by simp [hb.allWritten, hargs.allWritten]

theorem Expression.OfOperators.allWritten : ∀ {e : Expression}, e.OfOperators → AllWritten e.pieces
  | _, .name hn => hn.allWritten
  | _, .unaryMinus h | _, .logicalNot h | _, .bitwiseNot h | _, .typeInfo h
  | _, .nonSyncExpression h | _, .castMut h | _, .castImut h => by simp [h.allWritten]
  | _, .binaryOperator h h' | _, .subscriptOperator h h' | _, .callOperator h h' | _, .sameType h h'
  | _, .castRef h h' | _, .castRefUnsafe h h' => by simp [h.allWritten, h'.allWritten]
  | _, .ternaryOperator h h0 h1 => by simp [h.allWritten, h0.allWritten, h1.allWritten]
  | _, .memberAccessOperator h hn => by simp [h.allWritten, hn]
  | _, .memberAccessOperatorWithTemplateArgs h hn hargs => by
    simp [h.allWritten, hn, hargs.allWritten]

theorem AllOfOperators.allWritten : ∀ {es : List Expression}, AllOfOperators es →
    AllWritten (separatedPieces (piecesOfAll es))
  | _, .nil => allWritten_nil
  | _, .cons h .nil => by simp [piecesOfAll, separatedPieces, h.allWritten]
  | _, .cons h (.cons h' hrs) => by
    have ih := AllOfOperators.allWritten (.cons h' hrs)
    simp only [piecesOfAll, separatedPieces, intercalate_cons_cons] at ih ⊢
    simp [h.allWritten, ih]

end

abbrev symbolShape (type : LexemType) : Shape := ⟨type, asciiText (fixedLexemText type)⟩

abbrev wordShape (text : Text) : Shape := ⟨.identifier, text⟩

@[simp] theorem shapesOf_nil : shapesOf [] = [] := rfl

@[simp] theorem shapesOf_space_cons (pieces : List Piece) :
    shapesOf (.space :: pieces) = shapesOf pieces := rfl

@[simp] theorem shapesOf_symbol_cons (type : LexemType) (pieces : List Piece) :
    shapesOf (Piece.symbol type :: pieces) = symbolShape type :: shapesOf pieces := rfl

@[simp] theorem shapesOf_word_cons (t : Text) (pieces : List Piece) :
    shapesOf (Piece.word t :: pieces) = wordShape t :: shapesOf pieces := rfl

@[simp] theorem shapesOf_append (pcs1 pcs2 : List Piece) :
    shapesOf (pcs1 ++ pcs2) = shapesOf pcs1 ++ shapesOf pcs2 :=
  filterMap_append

theorem ComplexName.OfNames.startsName :
    ∀ {name : ComplexName}, name.OfNames → ∃ s rest, shapesOf name.pieces = s :: rest ∧
      (s.type = .doubleColon ∨ s.type = .identifier ∧ IsName s.text)
  | _, .nameLookup hn => ⟨_, _, rfl, Or.inr ⟨rfl, hn⟩⟩
  | _, .rootNamespaceNameLookup _ => ⟨_, _, rfl, Or.inl rfl⟩
  | _, .namesScopeNameFetch _ hb => by
    obtain ⟨s, rest, hsh, hs⟩ := hb.startsName
    exact ⟨s, _, by rw [pieces, shapesOf_append, hsh, cons_append], hs⟩
  | _, .templateParameterization _ hb _ => by
    obtain ⟨s, rest, hsh, hs⟩ := hb.startsName
    exact ⟨s, _, by rw [pieces, append_assoc, append_assoc, shapesOf_append,
      hsh, cons_append], hs⟩

abbrev startLexems : List LexemType :=
  [.identifier, .doubleColon, .bracketLeft, .templateBracketLeft]

theorem Expression.OfOperators.startsWith {e : Expression} (h : e.OfOperators) :
    StartsWith startLexems (shapesOf e.pieces) := by
  cases h with
  | name hn =>
    obtain ⟨s, rest, hsh, hs⟩ := hn.startsName
    refine ⟨s, rest, hsh, ?_⟩
    rcases hs with hs | ⟨hs, -⟩
    · simp [hs]
    · simp [hs]
  | _ => exact ⟨_, _, rfl, by decide⟩

end USprache.LexSynt
