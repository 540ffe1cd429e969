import USprache.Library.Outcome
import USprache.LexSynt.LexerProgress
import USprache.LexSynt.SyntaxAnalyzer

/-!
# Where `non_sync` expressions come from

The analyzer builds a `non_sync` expression only at the keyword.  So there is none in
what it builds from lexems without the keyword, whatever errors it finds in them.  Other
parts of the analyzer and macros could build one too; lexems at which those are called
are excluded.
-/

namespace USprache.LexSynt

open Library List Bool SyntaxAnalyzer

mutual

def ComplexName.hasNonSync : ComplexName → Bool
  | .rootNamespaceNameLookup _ _ => false
  | .rootNamespaceNameLookupCompletion _ _ => false
  | .nameLookup _ _ => false
  | .nameLookupCompletion _ _ => false
  | .typeofTypeName _ expression => expression.hasNonSync
  | .namesScopeNameFetch _ _ base => base.hasNonSync
  | .namesScopeNameFetchCompletion _ _ base => base.hasNonSync
  | .templateParameterization _ templateArgs base => anyNonSync templateArgs || base.hasNonSync

def TypeName.hasNonSync : TypeName → Bool
  | .complexName name => name.hasNonSync
  | .tupleType _ elementTypes => anyTypeNonSync elementTypes
  | .rawPointerType _ elementType => elementType.hasNonSync
  | .arrayTypeName _ elementType size => elementType.hasNonSync || size.hasNonSync
  | .functionType _ => false
  | .coroutineType _ => false
  | .mixinTypeName _ expression => expression.hasNonSync

def Expression.hasNonSync : Expression → Bool
  | .empty => false
  | .integerNumericConstant _ _ _ => false
  | .floatingPointNumericConstant _ _ _ => false
  | .booleanConstant _ _ => false
  | .moveOperator _ _ => false
  | .moveOperatorCompletion _ _ => false
  | .stringLiteral _ _ _ => false
  | .charLiteral _ _ _ => false
  | .typeInfo _ type => type.hasNonSync
  | .sameType _ l r => l.hasNonSync || r.hasNonSync
  | .nonSyncExpression _ _ => true
  | .callOperator _ expression arguments => expression.hasNonSync || anyNonSync arguments
  | .callOperatorSignatureHelp _ expression => expression.hasNonSync
  | .subscriptOperator _ expression index => expression.hasNonSync || index.hasNonSync
  | .memberAccessOperator _ expression _ none => expression.hasNonSync
  | .memberAccessOperator _ expression _ (some templateArgs) =>
    expression.hasNonSync || anyNonSync templateArgs
  | .memberAccessOperatorCompletion _ expression _ => expression.hasNonSync
  | .variableInitialization _ type _ => type.hasNonSync
  | .awaitOperator _ expression => expression.hasNonSync
  | .unaryMinus _ expression => expression.hasNonSync
  | .logicalNot _ expression => expression.hasNonSync
  | .bitwiseNot _ expression => expression.hasNonSync
  | .safeExpression _ expression => expression.hasNonSync
  | .unsafeExpression _ expression => expression.hasNonSync
  | .binaryOperator _ _ left right => left.hasNonSync || right.hasNonSync
  | .ternaryOperator _ condition branch0 branch1 =>
    condition.hasNonSync || branch0.hasNonSync || branch1.hasNonSync
  | .referenceToRawPointerOperator _ expression => expression.hasNonSync
  | .rawPointerToReferenceOperator _ expression => expression.hasNonSync
  | .takeOperator _ expression => expression.hasNonSync
  | .lambda _ => false
  | .castMut _ expression => expression.hasNonSync
  | .castImut _ expression => expression.hasNonSync
  | .castRef _ type expression => type.hasNonSync || expression.hasNonSync
  | .castRefUnsafe _ type expression => type.hasNonSync || expression.hasNonSync
  | .embed _ none expression => expression.hasNonSync
  | .embed _ (some elementType) expression => elementType.hasNonSync || expression.hasNonSync
  | .externalFunctionAccess _ type _ => type.hasNonSync
  | .externalVariableAccess _ type _ => type.hasNonSync
  | .typeName type => type.hasNonSync

def anyNonSync : List Expression → Bool
  | [] => false
  | expression :: rest => expression.hasNonSync || anyNonSync rest

def anyTypeNonSync : List TypeName → Bool
  | [] => false
  | type :: rest => type.hasNonSync || anyTypeNonSync rest

end

mutual

theorem ComplexName.hasNonSync_eraseSrcLocs :
    ∀ n : ComplexName, n.eraseSrcLocs.hasNonSync = n.hasNonSync
  | .rootNamespaceNameLookup _ _ => rfl
  | .rootNamespaceNameLookupCompletion _ _ => rfl
  | .nameLookup _ _ => rfl
  | .nameLookupCompletion _ _ => rfl
  | .typeofTypeName _ expression
  | .namesScopeNameFetch _ _ expression | .namesScopeNameFetchCompletion _ _ expression =>
    expression.hasNonSync_eraseSrcLocs
  | .templateParameterization _ templateArgs base =>
    congrArg₂ or (anyNonSync_eraseSrcLocsAll templateArgs) base.hasNonSync_eraseSrcLocs

theorem TypeName.hasNonSync_eraseSrcLocs : ∀ t : TypeName, t.eraseSrcLocs.hasNonSync = t.hasNonSync
  | .complexName name => name.hasNonSync_eraseSrcLocs
  | .tupleType _ elementTypes => anyTypeNonSync_eraseSrcLocsOfTypes elementTypes
  | .rawPointerType _ elementType => elementType.hasNonSync_eraseSrcLocs
  | .arrayTypeName _ elementType size =>
    congrArg₂ or elementType.hasNonSync_eraseSrcLocs size.hasNonSync_eraseSrcLocs
  | .functionType _ => rfl
  | .coroutineType _ => rfl
  | .mixinTypeName _ expression => expression.hasNonSync_eraseSrcLocs

theorem Expression.hasNonSync_eraseSrcLocs :
    ∀ e : Expression, e.eraseSrcLocs.hasNonSync = e.hasNonSync
  | .empty => rfl
  | .integerNumericConstant _ _ _ => rfl
  | .floatingPointNumericConstant _ _ _ => rfl
  | .booleanConstant _ _ => rfl
  | .moveOperator _ _ => rfl
  | .moveOperatorCompletion _ _ => rfl
  | .stringLiteral _ _ _ => rfl
  | .charLiteral _ _ _ => rfl
  | .typeInfo _ type => type.hasNonSync_eraseSrcLocs
  | .sameType _ l r => congrArg₂ or l.hasNonSync_eraseSrcLocs r.hasNonSync_eraseSrcLocs
  | .nonSyncExpression _ _ => rfl
  | .callOperator _ e arguments =>
    congrArg₂ or e.hasNonSync_eraseSrcLocs (anyNonSync_eraseSrcLocsAll arguments)
  | .callOperatorSignatureHelp _ e => e.hasNonSync_eraseSrcLocs
  | .subscriptOperator _ e index =>
    congrArg₂ or e.hasNonSync_eraseSrcLocs index.hasNonSync_eraseSrcLocs
  | .memberAccessOperator _ e _ none => e.hasNonSync_eraseSrcLocs
  | .memberAccessOperator _ e _ (some templateArgs) =>
    congrArg₂ or e.hasNonSync_eraseSrcLocs (anyNonSync_eraseSrcLocsAll templateArgs)
  | .memberAccessOperatorCompletion _ e _ => e.hasNonSync_eraseSrcLocs
  | .variableInitialization _ type _ => type.hasNonSync_eraseSrcLocs
  | .awaitOperator _ e | .unaryMinus _ e | .logicalNot _ e | .bitwiseNot _ e
  | .safeExpression _ e | .unsafeExpression _ e => e.hasNonSync_eraseSrcLocs
  | .binaryOperator _ _ left right =>
    congrArg₂ or left.hasNonSync_eraseSrcLocs right.hasNonSync_eraseSrcLocs
  | .ternaryOperator _ condition branch0 branch1 =>
    congrArg₂ or (congrArg₂ or condition.hasNonSync_eraseSrcLocs branch0.hasNonSync_eraseSrcLocs)
      branch1.hasNonSync_eraseSrcLocs
  | .referenceToRawPointerOperator _ e => e.hasNonSync_eraseSrcLocs
  | .rawPointerToReferenceOperator _ e => e.hasNonSync_eraseSrcLocs
  | .takeOperator _ e => e.hasNonSync_eraseSrcLocs
  | .lambda _ => rfl
  | .castMut _ e => e.hasNonSync_eraseSrcLocs
  | .castImut _ e => e.hasNonSync_eraseSrcLocs
  | .castRef _ type e =>
    congrArg₂ or type.hasNonSync_eraseSrcLocs e.hasNonSync_eraseSrcLocs
  | .castRefUnsafe _ type e =>
    congrArg₂ or type.hasNonSync_eraseSrcLocs e.hasNonSync_eraseSrcLocs
  | .embed _ none e => e.hasNonSync_eraseSrcLocs
  | .embed _ (some elementType) e =>
    congrArg₂ or elementType.hasNonSync_eraseSrcLocs e.hasNonSync_eraseSrcLocs
  | .externalFunctionAccess _ type _ => type.hasNonSync_eraseSrcLocs
  | .externalVariableAccess _ type _ => type.hasNonSync_eraseSrcLocs
  | .typeName type => type.hasNonSync_eraseSrcLocs

theorem anyNonSync_eraseSrcLocsAll :
    ∀ es : List Expression, anyNonSync (eraseSrcLocsAll es) = anyNonSync es
  | [] => rfl
  | expression :: rest =>
    congrArg₂ or expression.hasNonSync_eraseSrcLocs (anyNonSync_eraseSrcLocsAll rest)

theorem anyTypeNonSync_eraseSrcLocsOfTypes :
    ∀ ts : List TypeName, anyTypeNonSync (eraseSrcLocsOfTypes ts) = anyTypeNonSync ts
  | [] => rfl
  | type :: rest =>
    congrArg₂ or type.hasNonSync_eraseSrcLocs (anyTypeNonSync_eraseSrcLocsOfTypes rest)

end

def Avoids (it : Lexem) : Prop :=
  (∀ keyword ∈ [Keyword.non_sync_, .lambda_, .fn_, .generator_, .async_], it.text ≠ keyword.text) ∧
    it.type ≠ .braceLeft

def Clean (st : ParserState) : Prop := ∀ it ∈ st.lexems, Avoids it

theorem Clean.nextLexem {st : ParserState} (h : Clean st) : Clean st.nextLexem := by
  unfold ParserState.nextLexem
  split
  · exact fun it hit => h it (mem_of_mem_tail hit)
  · exact h

theorem Clean.pushErrorMessage {st : ParserState} (h : Clean st) (it : Lexem) :
    Clean (st.pushErrorMessage it) := by
  intro lx hlx
  rcases lexems_pushErrorMessage st it with heq | heq
  · exact h lx (heq ▸ hlx)
  · exact h.nextLexem lx (heq ▸ hlx)

variable {lxs : List Lexem}

theorem trySkipBrackets_subset {fuel : Nat} {closing : LexemType} {lxs' : List Lexem}
    (h : trySkipBrackets fuel closing lxs = .ok lxs') : lxs' ⊆ lxs := by
  induction fuel generalizing closing lxs lxs' with
  | zero => cases h
  | succ fuel ih =>
    match lxs with
    | [] | [_] => cases h; exact Subset.refl _
    | it :: next :: r =>
      have behind : ∀ {closing : LexemType} {it next : Lexem} {r lxs' : List Lexem},
          (if it.type = closing then (.ok (next :: r) : Except Fault (List Lexem))
            else trySkipBrackets fuel closing (next :: r)) = .ok lxs' →
          lxs' ⊆ it :: next :: r := by
        intro closing it next r lxs' h
        split at h
        · cases h; exact subset_cons_self _ _
        · exact List.Subset.trans (ih h) (subset_cons_self _ _)
      unfold trySkipBrackets at h
      cases hc : closingBracket it.type with
      | none =>
        rw [hc] at h
        exact behind h
      | some inner =>
        rw [hc] at h
        obtain ⟨skipped, hski, h⟩ := except_bind_ok h
        have hsub : skipped ⊆ it :: next :: r := List.Subset.trans (ih hski) (subset_cons_self _ _)
        match skipped with
        | [] | [_] => cases h; exact hsub
        | _ :: _ :: _ => exact List.Subset.trans (behind h) hsub

theorem tryRecoverAfterError_subset {expectedLxs : List LexemType} {fuel : Nat}
    {lxs' : List Lexem}
    (h : tryRecoverAfterError expectedLxs fuel lxs = .ok lxs') : lxs' ⊆ lxs := by
  induction fuel generalizing lxs lxs' with
  | zero => cases h
  | succ fuel ih =>
    match lxs with
    | [] | [_] => cases h; exact Subset.refl _
    | it :: next :: r =>
      have behind : ∀ {it next : Lexem} {r lxs' : List Lexem}, (if it.type ∈ expectedLxs then
              (.ok (it :: next :: r) : Except Fault (List Lexem))
            else tryRecoverAfterError expectedLxs fuel (next :: r)) = .ok lxs' →
          lxs' ⊆ it :: next :: r := by
        intro it next r lxs' h
        split at h
        · cases h; exact Subset.refl _
        · exact List.Subset.trans (ih h) (subset_cons_self _ _)
      unfold tryRecoverAfterError at h
      cases hc : closingBracket it.type with
      | none =>
        rw [hc] at h
        exact behind h
      | some closing =>
        rw [hc] at h
        obtain ⟨skipped, hski, h⟩ := except_bind_ok h
        have hsub : skipped ⊆ it :: next :: r :=
          List.Subset.trans (trySkipBrackets_subset hski) (subset_cons_self _ _)
        match skipped with
        | [] | [_] => cases h; exact hsub
        | _ :: _ :: _ => exact List.Subset.trans (behind h) hsub

namespace Parser

variable {α : Type} {p : Parser α} {R : α → Prop}

theorem keeps_current : Keeps Clean current Avoids := by
  intro st it st' hst h
  unfold current at h
  split at h
  · cases h
  · next heq =>
    cases h
    exact ⟨hst, hst it (heq ▸ mem_cons_self)⟩

theorem keeps_look {f : Lexem → Parser α} (h : ∀ it, Avoids it → Keeps Clean (f it) R) :
    Keeps Clean (current >>= f) R :=
  keeps_current.bind h

theorem keeps_notEndOfFile : Keeps Clean notEndOfFile fun _ => True := by
  intro st b st' hst h
  cases h
  exact ⟨hst, trivial⟩

theorem keeps_nextLexem : Keeps Clean nextLexem fun _ => True := by
  intro st u st' hst h
  cases h
  exact ⟨hst.nextLexem, trivial⟩

theorem keeps_next (h : Keeps Clean p R) : Keeps Clean (nextLexem >>= fun _ => p) R :=
  keeps_nextLexem.bind fun _ _ => h

theorem keeps_addError (t : String) (srcLoc : SrcLoc) :
    Keeps Clean (addError t srcLoc) fun _ => True := by
  intro st u st' hst h
  cases h
  exact ⟨hst, trivial⟩

theorem keeps_pushErrorMessage : Keeps Clean pushErrorMessage fun _ => True := by
  refine keeps_look fun it _ => ?_
  intro st u st' hst h
  cases h
  exact ⟨hst.pushErrorMessage it, trivial⟩

theorem keeps_report (h : Keeps Clean p R) : Keeps Clean (pushErrorMessage >>= fun _ => p) R :=
  keeps_pushErrorMessage.bind fun _ _ => h

theorem keeps_expectLexem (t : LexemType) : Keeps Clean (expectLexem t) fun _ => True :=
  keeps_look fun _ _ => .cond keeps_nextLexem keeps_pushErrorMessage

theorem keeps_expect {type : LexemType} (h : Keeps Clean p R) :
    Keeps Clean (expectLexem type >>= fun _ => p) R :=
  (keeps_expectLexem type).bind fun _ _ => h

theorem keeps_recover (fuel : Nat) (expectedLxs : List LexemType) :
    Keeps Clean (recover fuel expectedLxs) fun _ => True := by
  intro st u st' hst h
  obtain ⟨lexems, hlxs, h⟩ := except_bind_ok h
  cases h
  exact ⟨fun it hit => hst it (tryRecoverAfterError_subset hlxs hit), trivial⟩

theorem keeps_loop {β : Type} {turn : α → Parser (α ⊕ β)} {A : α → Prop} {R : β → Prop}
    (htn : ∀ a, A a → Keeps Clean (turn a) (Sum.elim A R)) (fuel : Nat) (a : α) (ha : A a) :
    Keeps Clean (loop turn fuel a) R := by
  induction fuel generalizing a with
  | zero => exact .error
  | succ fuel ih =>
    refine (htn a ha).bind fun r hr => ?_
    cases r with
    | inl a => exact ih a hr
    | inr b => exact .pure hr

end Parser

def NoNonSync (expression : Expression) : Prop := expression.hasNonSync = false

def NoNonSyncName (name : ComplexName) : Prop := name.hasNonSync = false

def NoNonSyncType (type : TypeName) : Prop := type.hasNonSync = false

def NoNonSyncs (expressions : List Expression) : Prop := anyNonSync expressions = false

def NoNonSyncTypes (types : List TypeName) : Prop := anyTypeNonSync types = false

theorem NoNonSyncs.concat {es : List Expression} {expression : Expression}
    (h : NoNonSyncs es) (he : NoNonSync expression) :
    NoNonSyncs (es ++ [expression]) := by
  induction es with
  | nil => exact or_eq_false_iff.2 ⟨he, rfl⟩
  | cons e rest ih =>
    obtain ⟨h1, h2⟩ := or_eq_false_iff.1 h
    exact or_eq_false_iff.2 ⟨h1, ih h2⟩

theorem NoNonSyncTypes.concat {ts : List TypeName} {ty : TypeName}
    (h : NoNonSyncTypes ts) (ht : NoNonSyncType ty) : NoNonSyncTypes (ts ++ [ty]) := by
  induction ts with
  | nil => exact or_eq_false_iff.2 ⟨ht, rfl⟩
  | cons t rest ih =>
    obtain ⟨h1, h2⟩ := or_eq_false_iff.1 h
    exact or_eq_false_iff.2 ⟨h1, ih h2⟩

/-- The methods build no `non_sync` expression from clean lexems. -/
structure KeepsClean (a : SyntaxAnalyzer) : Prop where
  noMacros : ∀ text, a.fetchMacro text = none
  tryParse : ∀ priority, Keeps Clean (a.tryParseBinaryOperator priority) NoNonSync
  rightPart : ∀ priority l, NoNonSync l →
    Keeps Clean (a.tryParseBinaryOperatorRightPart priority l) NoNonSync
  component : Keeps Clean a.parseBinaryOperatorComponent NoNonSync
  postfixOperators : ∀ expr, NoNonSync expr →
    Keeps Clean (a.tryParseBinaryOperatorComponentPostfixOperator expr) NoNonSync
  types : Keeps Clean a.parseTypeName NoNonSyncType
  nameTail : ∀ base, NoNonSyncName base → Keeps Clean (a.parseComplexNameTail base) NoNonSyncName

namespace KeepsClean

open USprache.LexSynt.Parser

variable {self : SyntaxAnalyzer} (h : KeepsClean self)

include h

theorem expressionInBrackets :
    Keeps Clean self.parseExpressionInBrackets NoNonSync :=
  keeps_expect <| (h.tryParse 0).bind fun _ he => keeps_expect <| .pure he

theorem typeInTemplateBrackets :
    Keeps Clean self.parseTypeNameInTemplateBrackets NoNonSyncType :=
  keeps_expect <| h.types.bind fun _ ht => keeps_expect <| .pure ht

omit h in
theorem templateArgsSeparator : Keeps Clean self.templateArgsSeparator fun _ => True := by
  refine keeps_look fun _ _ => .cond ?_ <| .cond ?_ ?_
  · refine keeps_next <| keeps_look fun _ _ => ?_
    exact .cond keeps_pushErrorMessage <| .pure trivial
  · exact keeps_report <| keeps_recover _ _
  · exact .pure trivial

theorem templateArgs : Keeps Clean self.parseTemplateArgs NoNonSyncs := by
  refine keeps_next <| keeps_loop (A := NoNonSyncs) (fun result hres => ?_) _ _ rfl
  refine keeps_notEndOfFile.bind fun _ _ => .cond ?_ <| .pure hres
  refine keeps_look fun _ _ => .cond ?_ ?_
  · exact keeps_next <| .pure hres
  · refine (h.tryParse 0).bind fun arg harg => templateArgsSeparator.bind fun _ _ => ?_
    exact .pure (hres.concat harg)

theorem nameTailWithTemplateArgs {base : ComplexName}
    (hb : NoNonSyncName base) :
    Keeps Clean (self.tryParseComplexNameTailWithTemplateArgs base) NoNonSyncName := by
  refine keeps_look fun _ _ => .cond ?_ <| h.nameTail _ hb
  refine h.templateArgs.bind fun args hargs => h.nameTail _ ?_
  exact or_eq_false_iff.2 ⟨hargs, hb⟩

theorem complexNameTail {base : ComplexName} (hb : NoNonSyncName base) :
    Keeps Clean (self.complexNameTail base) NoNonSyncName := by
  refine keeps_look fun _ _ => .cond ?_ <| .cond ?_ ?_
  · refine keeps_next <| keeps_look fun _ _ => ?_
    refine .cond ?_ <| .cond ?_ ?_
    · exact keeps_next <| h.nameTailWithTemplateArgs hb
    · exact keeps_next <| .pure hb
    · exact keeps_report <| .pure hb
  · exact keeps_next <| .pure hb
  · exact .pure hb

theorem complexName : Keeps Clean self.parseComplexName NoNonSyncName := by
  refine keeps_look fun it _ => ?_
  split
  · exact keeps_next <| .pure rfl
  · refine keeps_next <| keeps_look fun _ _ => ?_
    refine .cond ?_ <| .cond ?_ ?_
    · exact keeps_next <| h.nameTailWithTemplateArgs rfl
    · exact keeps_next <| .pure rfl
    · exact keeps_report <| keeps_look fun _ _ => .pure rfl
  · refine .cond ?_ ?_
    · refine keeps_next <| h.expressionInBrackets.bind fun _ he => ?_
      exact h.nameTail _ he
    · exact keeps_next <| h.nameTailWithTemplateArgs rfl
  · exact keeps_next <| .pure rfl
  · exact keeps_report <| keeps_look fun _ _ => .pure rfl

theorem nameExpression :
    Keeps Clean (do return (← self.parseComplexName).toExpression) NoNonSync :=
  h.complexName.bind fun _ hn => .pure hn

theorem arrayTypeName : Keeps Clean self.parseArrayTypeName NoNonSyncType := by
  refine keeps_look fun _ _ => keeps_next <| h.types.bind fun _ ht => ?_
  refine keeps_expect <| (h.tryParse 0).bind fun _ he => ?_
  exact keeps_expect <| .pure (or_eq_false_iff.2 ⟨ht, he⟩)

theorem tupleType : Keeps Clean self.parseTupleType NoNonSyncType := by
  refine keeps_look fun _ _ => keeps_next ?_
  refine keeps_expect <| Keeps.bind (keeps_loop (A := NoNonSyncTypes) (R := NoNonSyncTypes)
    (fun types htys => ?_) _ _ rfl) fun _ htys => .pure htys
  refine keeps_notEndOfFile.bind fun _ _ => .cond ?_ <| .pure htys
  refine keeps_look fun _ _ => .cond ?_ ?_
  · exact keeps_next <| .pure htys
  · refine h.types.bind fun _ ht => keeps_look fun _ _ => .cond ?_ ?_
    · exact keeps_next <| .pure (htys.concat ht)
    · refine .cond ?_ ?_
      · exact keeps_report <| .pure (htys.concat ht)
      · refine keeps_next <| keeps_look fun _ _ => .cond ?_ ?_
        · exact keeps_report <| .pure (htys.concat ht)
        · exact .pure (htys.concat ht)

theorem rawPointerType : Keeps Clean self.parseRawPointerType NoNonSyncType := by
  refine keeps_look fun _ _ => keeps_next ?_
  refine keeps_expect <| h.types.bind fun _ ht => ?_
  exact keeps_expect <| .pure ht

theorem typeNameInBrackets :
    Keeps Clean self.typeNameInBrackets NoNonSyncType :=
  keeps_next <| h.types.bind fun _ ht => keeps_expect <| .pure ht

theorem expressionMixin :
    Keeps Clean self.parseExpressionMixin fun r => NoNonSync r.2 :=
  keeps_look fun _ _ => keeps_next <| h.expressionInBrackets.bind fun _ he => .pure he

theorem typeName : Keeps Clean self.typeName NoNonSyncType := by
  refine keeps_look fun it hit => ?_
  have avoided : ∀ kw ∈ [Keyword.non_sync_, .lambda_, .fn_, .generator_, .async_],
      it.text ≠ kw.text := hit.1
  refine .cond h.arrayTypeName <| .cond h.typeNameInBrackets ?_
  refine .cond h.tupleType <| .cond h.rawPointerType ?_
  refine .ite (fun hc => ?_) fun _ => .ite (fun hc => ?_) fun _ => .cond ?_ ?_
  · rcases hc.2 with hc | hc
    · exact absurd hc (avoided _ (by decide))
    · exact absurd hc (avoided _ (by decide))
  · exact absurd hc.2 (avoided _ (by decide))
  · exact h.expressionMixin.bind fun _ he => .pure he
  · exact h.complexName.bind fun _ hn => .pure hn

theorem call :
    Keeps Clean self.parseCall fun as => ∀ a ∈ as, NoNonSyncs a := by
  refine keeps_expect <| Keeps.bind (keeps_loop (A := NoNonSyncs)
    (R := fun as => ∀ a ∈ as, NoNonSyncs a) (fun as hargs => ?_) _ _ rfl) fun as hargs => ?_
  · refine keeps_look fun _ _ => keeps_notEndOfFile.bind fun _ _ => ?_
    refine .cond ?_ <| .pure (by rintro _ ⟨⟩; exact hargs)
    refine (h.tryParse 0).bind fun _ harg => keeps_look fun _ _ => ?_
    have hargs' := hargs.concat harg
    refine .cond ?_ <| .cond ?_ ?_
    · refine keeps_next <| keeps_look fun _ _ => ?_
      refine .cond ?_ <| .pure hargs'
      exact keeps_report <| .pure (by rintro _ ⟨⟩; exact hargs')
    · exact .pure (by rintro _ ⟨⟩)
    · exact .pure (by rintro _ ⟨⟩; exact hargs')
  · cases as with
    | none => exact .pure hargs
    | some as => exact keeps_expect <| .pure hargs

variable {expr : Expression}

theorem subscriptOperator (it : Lexem)
    (hexpr : NoNonSync expr) : Keeps Clean (self.subscriptOperator it expr) NoNonSync := by
  refine keeps_next <| (h.tryParse 0).bind fun _ hix => ?_
  refine keeps_expect <| h.postfixOperators _ ?_
  exact or_eq_false_iff.2 ⟨hexpr, hix⟩

theorem callOperator (it : Lexem)
    (hexpr : NoNonSync expr) : Keeps Clean (self.callOperator it expr) NoNonSync := by
  refine h.call.bind fun as hargs => ?_
  cases as with
  | some as =>
    exact h.postfixOperators _ (or_eq_false_iff.2 ⟨hexpr, hargs as rfl⟩)
  | none => exact keeps_look fun _ _ => keeps_next <| .pure hexpr

theorem memberAccessOperator (hexpr : NoNonSync expr) :
    Keeps Clean (self.memberAccessOperator expr) NoNonSync := by
  refine keeps_next <| keeps_look fun _ _ => ?_
  refine .cond ?_ <| .cond ?_ <| .cond ?_ ?_
  · exact keeps_next <| h.postfixOperators _ hexpr
  · refine keeps_next <| keeps_look fun _ _ => .cond ?_ ?_
    · refine h.templateArgs.bind fun _ hargs => h.postfixOperators _ ?_
      exact or_eq_false_iff.2 ⟨hexpr, hargs⟩
    · exact h.postfixOperators _ hexpr
  · exact keeps_next <| .pure hexpr
  · exact keeps_report <| .pure rfl

theorem postfixOperator (hexpr : NoNonSync expr) :
    Keeps Clean (self.postfixOperator expr) NoNonSync := by
  refine keeps_look fun it hit => ?_
  split
  · exact h.subscriptOperator it hexpr
  · exact h.callOperator it hexpr
  · exact keeps_next <| h.postfixOperators _ hexpr
  · exact h.memberAccessOperator hexpr
  · exact keeps_next <| .pure hexpr
  · next hbra => exact absurd hbra hit.2
  · exact .pure hexpr

omit h in
theorem integerNumericConstant : Keeps Clean parseIntegerNumericConstant NoNonSync := by
  have number : ∀ it, Keeps Clean (parsedNumber it) fun _ => True := by
    intro it
    unfold parsedNumber
    cases decodeNumber it.text with
    | some num => exact .pure trivial
    | none => exact (keeps_addError _ _).bind fun _ _ => .pure trivial
  refine keeps_look fun it _ => keeps_next <| (number it).bind fun _ _ => ?_
  refine keeps_look fun _ _ => ?_
  refine .cond (.cond ?_ ?_) <| .pure rfl
  · exact (keeps_addError _ _).bind fun _ _ => keeps_next <| .pure rfl
  · exact keeps_next <| .pure rfl

omit h in
theorem literal {make : SrcLoc → Text → Text → Expression}
    (hmake : ∀ srcLoc v suffix, NoNonSync (make srcLoc v suffix)) :
    Keeps Clean (parseLiteral make) NoNonSync := by
  refine keeps_look fun _ _ => keeps_next <| keeps_look fun _ _ => ?_
  refine .cond ?_ <| .pure (hmake _ _ _)
  exact keeps_next <| .pure (hmake _ _ _)

omit h in
theorem charLiteral : Keeps Clean SyntaxAnalyzer.parseCharLiteral NoNonSync := by
  refine keeps_look fun _ _ => keeps_next <| keeps_look fun _ _ => ?_
  refine .cond (.cond ?_ ?_) <| .pure rfl
  · exact keeps_next <| .pure rfl
  · exact (keeps_addError _ _).bind fun _ _ => keeps_next <| .pure rfl

variable {make : SrcLoc → Expression → Expression}

theorem prefixOperator (hmake : ∀ srcLoc expr, NoNonSync expr → NoNonSync (make srcLoc expr)) :
    Keeps Clean (self.prefixOperator make) NoNonSync :=
  keeps_look fun _ _ => keeps_next <| h.component.bind fun _ he => .pure (hmake _ _ he)

theorem bracketsOperator (hmake : ∀ srcLoc expr, NoNonSync expr → NoNonSync (make srcLoc expr)) :
    Keeps Clean (self.bracketsOperator make) NoNonSync :=
  keeps_look fun _ _ => keeps_next <| h.expressionInBrackets.bind fun _ he => .pure (hmake _ _ he)

theorem bracketsOrTernaryOperator :
    Keeps Clean self.bracketsOrTernaryOperator NoNonSync := by
  refine keeps_expect <| (h.tryParse 0).bind fun _ he => ?_
  refine keeps_look fun _ _ => .cond ?_ <| .cond ?_ ?_
  · exact keeps_next <| .pure he
  · refine keeps_next <| (h.tryParse 0).bind fun _ he0 => ?_
    refine keeps_expect <| (h.tryParse 0).bind fun _ he1 => ?_
    refine keeps_expect <| .pure ?_
    exact or_eq_false_iff.2 ⟨or_eq_false_iff.2 ⟨he, he0⟩, he1⟩
  · exact keeps_report <| .pure he

omit h in
theorem moveOperator : Keeps Clean moveOperator NoNonSync := by
  refine keeps_next <| keeps_expect ?_
  refine keeps_look fun _ _ => .cond ?_ <| .cond ?_ ?_
  · exact keeps_next <| .pure rfl
  · exact keeps_next <| keeps_expect <| .pure rfl
  · exact keeps_report <| .pure rfl

theorem castRef {make : SrcLoc → TypeName → Expression → Expression}
    (hmake : ∀ srcLoc t expr, NoNonSyncType t → NoNonSync expr →
      NoNonSync (make srcLoc t expr)) : Keeps Clean (self.castRef make) NoNonSync := by
  refine keeps_look fun _ _ => keeps_next ?_
  refine h.typeInTemplateBrackets.bind fun _ ht => h.expressionInBrackets.bind fun _ he => ?_
  exact .pure (hmake _ _ _ ht he)

theorem embed : Keeps Clean self.embed NoNonSync := by
  refine keeps_look fun _ _ => keeps_next <| keeps_look fun _ _ => ?_
  refine .cond ?_ <| h.expressionInBrackets.bind fun _ he => .pure he
  refine keeps_next <| h.complexName.bind fun _ hn => ?_
  refine keeps_expect <| h.expressionInBrackets.bind fun _ he => ?_
  exact .pure (or_eq_false_iff.2 ⟨hn, he⟩)

theorem externalAccess (srcLoc : SrcLoc)
    {make : SrcLoc → TypeName → Text → Expression}
    (hmake : ∀ t n, NoNonSyncType t → NoNonSync (make srcLoc t n)) :
    Keeps Clean (self.externalAccess srcLoc make) NoNonSync := by
  refine keeps_next <| h.typeInTemplateBrackets.bind fun _ ht => ?_
  refine keeps_expect <| keeps_look fun _ _ => ?_
  refine .cond (keeps_report ?_) <| keeps_next ?_
  all_goals exact keeps_expect <| .pure (hmake _ _ ht)

theorem typeOperator {make : SrcLoc → TypeName → Expression}
    (hmake : ∀ srcLoc t, NoNonSyncType t → NoNonSync (make srcLoc t)) :
    Keeps Clean (self.typeOperator make) NoNonSync :=
  keeps_look fun _ _ => keeps_next <| h.typeInTemplateBrackets.bind fun _ ht => .pure (hmake _ _ ht)

theorem sameType : Keeps Clean self.sameType NoNonSync := by
  refine keeps_look fun _ _ => keeps_next ?_
  refine keeps_expect <| h.types.bind fun _ hl => ?_
  refine keeps_expect <| h.types.bind fun _ hr => ?_
  exact keeps_expect <| .pure (or_eq_false_iff.2 ⟨hl, hr⟩)

theorem nameComponent (it : Lexem) :
    Keeps Clean (self.nameComponent it) NoNonSync := by
  unfold SyntaxAnalyzer.nameComponent
  rw [h.noMacros]
  exact h.nameExpression

theorem keywordComponentTail :
    Keeps Clean self.keywordComponentTail NoNonSync := by
  refine keeps_look fun it hit => ?_
  refine .cond (h.typeOperator fun _ _ ht => ht) <| .cond h.sameType ?_
  -- The only branch that builds one is at the keyword.
  refine .ite (fun hc => absurd hc (hit.1 _ (by decide))) fun _ => ?_
  refine .cond (h.bracketsOperator fun _ _ he => he) ?_
  refine .cond (h.bracketsOperator fun _ _ he => he) ?_
  refine .cond (h.expressionMixin.bind fun _ he => .pure he) ?_
  exact .cond (h.types.bind fun _ ht => .pure ht) (h.nameComponent it)

theorem importComponent : Keeps Clean self.importComponent NoNonSync := by
  refine keeps_look fun _ _ => keeps_next <| keeps_look fun _ _ => ?_
  refine .cond (h.externalAccess _ fun _ _ ht => ht) ?_
  refine .cond (h.externalAccess _ fun _ _ ht => ht) ?_
  exact keeps_report h.keywordComponentTail

theorem identifierComponent :
    Keeps Clean self.identifierComponent NoNonSync := by
  refine keeps_look fun it hit => ?_
  refine .cond (keeps_next <| .pure rfl) ?_
  refine .cond (keeps_next <| .pure rfl) ?_
  refine .cond moveOperator ?_
  refine .cond (h.bracketsOperator fun _ _ he => he) ?_
  refine .ite (fun hc => absurd hc (hit.1 _ (by decide))) fun _ => ?_
  refine .cond (h.castRef fun _ _ _ ht he => or_eq_false_iff.2 ⟨ht, he⟩) ?_
  refine .cond (h.castRef fun _ _ _ ht he => or_eq_false_iff.2 ⟨ht, he⟩) ?_
  refine .cond (h.bracketsOperator fun _ _ he => he) ?_
  refine .cond (h.bracketsOperator fun _ _ he => he) ?_
  exact .cond h.embed <| .cond h.importComponent h.keywordComponentTail

theorem core :
    Keeps Clean self.parseBinaryOperatorComponentCore NoNonSync := by
  refine keeps_look fun it _ => ?_
  split
  · exact h.prefixOperator fun _ _ he => he
  · exact h.prefixOperator fun _ _ he => he
  · exact h.prefixOperator fun _ _ he => he
  · exact h.nameExpression
  · exact h.nameExpression
  · exact integerNumericConstant
  · exact literal fun _ _ _ => rfl
  · exact literal fun _ _ _ => rfl
  · exact charLiteral
  · exact h.bracketsOrTernaryOperator
  · exact h.types.bind fun _ ht => .pure ht
  · exact h.types.bind fun _ ht => .pure ht
  · exact h.bracketsOperator fun _ _ he => he
  · exact h.bracketsOperator fun _ _ he => he
  · exact h.identifierComponent
  · exact h.nameExpression
  · exact keeps_report <| .pure rfl

theorem binaryOperatorRightPart (priority : Nat) {l : Expression}
    (hl : NoNonSync l) : Keeps Clean (self.binaryOperatorRightPart priority l) NoNonSync := by
  refine keeps_look fun it _ => ?_
  cases (operatorsByPriorityTable.getD priority []).lookup it.type with
  | some operatorType =>
    refine keeps_next <| (h.tryParse _).bind fun _ hr => h.rightPart _ _ ?_
    exact or_eq_false_iff.2 ⟨hl, hr⟩
  | none => exact .pure hl

theorem binaryOperator (priority : Nat) :
    Keeps Clean (self.binaryOperator priority) NoNonSync :=
  .cond h.component <| (h.tryParse _).bind fun l hl => h.rightPart _ l hl

theorem bodies : KeepsClean self.bodies where
  noMacros := h.noMacros
  tryParse := h.binaryOperator
  rightPart priority _ hl := h.binaryOperatorRightPart priority hl
  component := h.core.bind fun expr he => h.postfixOperators expr he
  postfixOperators _ he := h.postfixOperator he
  types := h.typeName
  nameTail _ hb := h.complexNameTail hb

end KeepsClean

theorem keepsClean_analyzer {others : OtherParsers} (hmac : ∀ t, others.fetchMacro t = none)
    (fuel : Nat) : KeepsClean (analyzer others fuel) := by
  induction fuel with
  | zero =>
    exact ⟨hmac, fun _ => .error, fun _ _ _ => .error, .error, fun _ _ => .error, .error,
      fun _ _ => .error⟩
  | succ fuel ih => exact ih.bodies

theorem parseStandaloneExpression_noNonSync {others : OtherParsers}
    (hmac : ∀ t, others.fetchMacro t = none) {fuel : Nat}
    (hlxs : ∀ it ∈ lxs, Avoids it) {r : ExpressionParsingResult}
    (h : parseStandaloneExpression others fuel lxs = .ok r) :
    r.expression.hasNonSync = false := by
  obtain ⟨⟨e, st⟩, hpa, h⟩ := except_bind_ok h
  have hexpression : NoNonSync e :=
    ((keepsClean_analyzer hmac fuel).tryParse 0 (.start lxs) _ _ hlxs hpa).2
  cases hst : st.lexems with
  | nil =>
    simp only [hst] at h
    cases h
    exact hexpression
  | cons it rest =>
    simp only [hst] at h
    split at h
    · cases h; exact hexpression
    · cases h; exact hexpression

end USprache.LexSynt
