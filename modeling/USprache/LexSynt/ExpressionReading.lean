import USprache.LexSynt.NonSyncOrigin
import USprache.LexSynt.PrintedPieces

/-!
# Reading a written expression

The analyzer reads the lexems of a written expression without an error, and builds the
tree that was written up to source locations.  A written expression is always one
component: an operator is written in brackets, so that no priority matters outside of
them.  The exception are trees with `non_sync` expressions.
-/

namespace USprache.LexSynt

open Filter List Nat Reads Expression

abbrev BehindName (type : LexemType) : Prop :=
  type ∉ [LexemType.templateBracketLeft, .doubleColon, .completionScope]

abbrev BehindComponent (type : LexemType) : Prop := BehindName type ∧
    type ∉ [LexemType.squareBracketLeft, .bracketLeft, .signatureHelpBracketLeft, .dot,
      .completionDot, .braceLeft]

abbrev BehindOperand (priority : Nat) (type : LexemType) : Prop := BehindComponent type ∧
    ∀ operators ∈ operatorsByPriorityTable.drop priority, operators.lookup type = none

/-- `TryParseBinaryOperator` with the priority reads the operator. -/
def BinaryOperatorType.priority (operatorType : BinaryOperatorType) : Nat :=
  operatorsByPriorityTable.findIdx fun operators =>
    (operators.lookup (operatorLexemType operatorType)).isSome

theorem operator_read (opTy : BinaryOperatorType) :
    opTy.priority < operatorsByPriorityTable.length ∧
      (operatorsByPriorityTable.getD opTy.priority []).lookup
        (operatorLexemType opTy) = some opTy := by
  cases opTy <;> decide

theorem operator_behindOperand (opTy : BinaryOperatorType) :
    BehindOperand (opTy.priority + 1) (operatorLexemType opTy) := by
  cases opTy <;> decide

section Methods

variable {α β : Type} (others : OtherParsers)

/-- A method reads the lexems if the bound on the depth of the calls is large enough. -/
def MethodReads (method : SyntaxAnalyzer → Parser α) (shapes : List Shape) (F : LexemType → Prop)
    (R : α → Prop) : Prop :=
  ∀ᶠ n in atTop, Reads (method (analyzer others n)) shapes F R

theorem eventually_succ {P : Nat → Prop} (h : ∀ᶠ n in atTop, P (n + 1)) : ∀ᶠ n in atTop, P n := by
  rw [← map_add_atTop_eq_nat 1]
  exact h

variable {others} {method : SyntaxAnalyzer → Parser α} {shapes : List Shape}
  {F : LexemType → Prop} {R : α → Prop}

theorem MethodReads.mono {F1 : LexemType → Prop} {R' : α → Prop}
    (h : MethodReads others method shapes F R) (hF : ∀ t, F1 t → F t)
    (hR : ∀ a, R a → R' a) : MethodReads others method shapes F1 R' :=
  Eventually.mono h fun _ hn => hn.mono hF hR

theorem MethodReads.of_body (h : MethodReads others (fun self => method self.bodies) shapes F R) :
    MethodReads others method shapes F R :=
  eventually_succ h

theorem fuel_analyzer (others : OtherParsers) : ∀ n, (analyzer others n).fuel = n
  | 0 => rfl
  | n + 1 => congrArg (· + 1) (fuel_analyzer others n)

theorem fetchMacro_analyzer (others : OtherParsers) :
    ∀ n, (analyzer others n).fetchMacro = others.fetchMacro
  | 0 => rfl
  | n + 1 => fetchMacro_analyzer others n

theorem fuel_eventually_gt (others : OtherParsers) (k : Nat) :
    ∀ᶠ n in atTop, k < (analyzer others n).fuel := by
  filter_upwards [eventually_gt_atTop k] with n hn
  rw [fuel_analyzer]
  exact hn

end Methods

section Priorities

variable {others : OtherParsers} {shapes shs1 shs2 : List Shape} {F F1 F2 : LexemType → Prop}
  {R Q : Expression → Prop}

theorem binaryOperatorRightPart_stops (self : SyntaxAnalyzer) {priority : Nat} {l : Expression}
    (hF : ∀ t, F t → (operatorsByPriorityTable.getD priority []).lookup t = none)
    (hl : R l) : Reads (self.binaryOperatorRightPart priority l) [] F R := by
  refine current_behind fun it hit => ?_
  rw [hF _ hit]
  exact pure hl

theorem lookup_of_behindOperand {p priority : Nat} {t : LexemType} (h : BehindOperand p t)
    (hp : p ≤ priority) (hlt : priority < operatorsByPriorityTable.length) :
    (operatorsByPriorityTable.getD priority []).lookup t = none := by
  refine h.2 _ ?_
  rw [getD_eq_getElem _ _ hlt, mem_drop_iff_getElem]
  exact ⟨priority - p, by omega, by congr 1; omega⟩

theorem tryParseBinaryOperator_lower {p q : Nat} (hpq : p ≤ q)
    (hq : q ≤ operatorsByPriorityTable.length) (hF : ∀ t, F t → BehindOperand p t)
    (h : MethodReads others (·.tryParseBinaryOperator q) shapes F R) :
    MethodReads others (·.tryParseBinaryOperator p) shapes F R := by
  induction q, hpq using le_induction with
  | base => exact h
  | succ q hpq ih =>
    refine ih (by omega) (.of_body ?_)
    have hlk : ∀ t, F t → (operatorsByPriorityTable.getD q []).lookup t = none :=
      fun t hty => lookup_of_behindOperand (hF t hty) hpq hq
    have hr : ∀ᶠ n in atTop, ∀ l, R l →
        Reads ((analyzer others n).tryParseBinaryOperatorRightPart q l) [] F R :=
      eventually_succ (.of_forall fun n l hl => binaryOperatorRightPart_stops _ hlk hl)
    filter_upwards [h, hr] with n hn hrig
    change Reads ((analyzer others n).binaryOperator q) shapes F R
    rw [SyntaxAnalyzer.binaryOperator, if_neg (by omega)]
    exact bind_behind hn hrig fun _ hty => hty

theorem tryParseBinaryOperator_component {p : Nat} (hp : p ≤ operatorsByPriorityTable.length)
    (hF : ∀ t, F t → BehindOperand p t)
    (h : MethodReads others (·.parseBinaryOperatorComponent) shapes F R) :
    MethodReads others (·.tryParseBinaryOperator p) shapes F R := by
  refine tryParseBinaryOperator_lower hp le_rfl hF (.of_body ?_)
  filter_upwards [h] with n hn
  exact hn

end Priorities

/-! ## Lists of expressions -/

/-- The tree is the given one up to source locations. -/
def Expression.IsCopyOf (copy expression : Expression) : Prop :=
  copy.eraseSrcLocs = expression.eraseSrcLocs

def ReadsWritten (self : SyntaxAnalyzer) (expression : Expression) : Prop :=
  Reads self.parseExpression (shapesOf expression.pieces) (BehindOperand 0) (·.IsCopyOf expression)

theorem eraseSrcLocsAll_append (l1 l2 : List Expression) :
    eraseSrcLocsAll (l1 ++ l2) = eraseSrcLocsAll l1 ++ eraseSrcLocsAll l2 := by
  induction l1 with
  | nil => rfl
  | cons expression l1 ih =>
    rw [cons_append, eraseSrcLocsAll, eraseSrcLocsAll, ih, cons_append]

variable {arg : Expression}

theorem eraseSrcLocsAll_copy (as : List Expression) {copy : Expression}
    (hcp : copy.IsCopyOf arg) (r : List Expression) :
    eraseSrcLocsAll (as ++ [copy] ++ r) = eraseSrcLocsAll (as ++ arg :: r) := by
  rw [append_assoc, singleton_append, eraseSrcLocsAll_append, eraseSrcLocsAll_append,
    eraseSrcLocsAll, eraseSrcLocsAll, hcp]

theorem shapesOf_separated_singleton (e : Expression) :
    shapesOf (separatedPieces (piecesOfAll [e])) = shapesOf e.pieces := by
  simp [piecesOfAll, separatedPieces]

theorem shapesOf_separated_cons_cons (e second : Expression) (r : List Expression) :
    shapesOf (separatedPieces (piecesOfAll (e :: second :: r))) = shapesOf e.pieces ++
        symbolShape .comma :: shapesOf (separatedPieces (piecesOfAll (second :: r))) := by
  simp [piecesOfAll, separatedPieces]

theorem startsWith_separated {e : Expression} {r : List Expression} (h : e.OfOperators) :
    StartsWith startLexems (shapesOf (separatedPieces (piecesOfAll (e :: r)))) := by
  cases r with
  | nil =>
    rw [shapesOf_separated_singleton]
    exact h.startsWith
  | cons second r =>
    rw [shapesOf_separated_cons_cons]
    exact h.startsWith.append _

section Lists

variable (self : SyntaxAnalyzer) {F : LexemType → Prop}

def Adds {β : Type} (args : List Expression) (arg : Expression) (result : List Expression ⊕ β) :
    Prop :=
  ∃ copy : Expression, copy.IsCopyOf arg ∧ result = .inl (args ++ [copy])

theorem templateArgsTurn_last (h : arg.OfOperators) (hrds : ReadsWritten self arg)
    (as : List Expression) :
    Reads (self.templateArgsTurn as) (shapesOf arg.pieces) (· = .templateBracketRight)
      (Adds as arg) := by
  have hsts := h.startsWith
  refine notEndOfFile_starting hsts (current_starting hsts fun it hit => ?_)
  rw [if_neg (by rintro heq; rw [heq] at hit; revert hit; decide)]
  refine bind_behind hrds (fun copy hcp => ?_) (by rintro _ rfl; decide)
  have hsep : Reads self.templateArgsSeparator [] (· = .templateBracketRight) fun _ => True := by
    refine current_behind fun it hit => ?_
    simp only [hit]
    exact pure trivial
  exact map hsep fun _ _ => ⟨copy, hcp, rfl⟩

theorem templateArgsTurn_comma (h : arg.OfOperators)
    (hrds : ReadsWritten self arg) (as : List Expression) :
    Reads (self.templateArgsTurn as) (shapesOf arg.pieces ++ [symbolShape .comma])
      (· ∈ startLexems) (Adds as arg) := by
  have hsts := h.startsWith.append [symbolShape .comma]
  refine notEndOfFile_starting hsts (current_starting hsts fun it hit => ?_)
  rw [if_neg (by rintro heq; rw [heq] at hit; revert hit; decide)]
  refine bind hrds (fun copy hcp => ?_) (show BehindOperand 0 .comma by decide)
  have hsep : Reads self.templateArgsSeparator [symbolShape .comma] (· ∈ startLexems)
      fun _ => True := by
    refine current fun it hty _ => ?_
    rw [if_pos hty]
    refine nextLexem (current_behind fun it hit => ?_)
    rw [if_neg (by rintro heq; rw [heq] at hit; revert hit; decide)]
    exact pure trivial
  exact map hsep fun _ _ => ⟨copy, hcp, rfl⟩

theorem templateArgs_loop : ∀ {args : List Expression}, AllOfOperators args →
    (∀ arg ∈ args, ReadsWritten self arg) →
    ∀ {fuel : Nat}, args.length < fuel → ∀ as, Reads (Parser.loop self.templateArgsTurn fuel as)
        (shapesOf (separatedPieces (piecesOfAll args)) ++ [symbolShape .templateBracketRight])
        F (fun r => eraseSrcLocsAll r = eraseSrcLocsAll (as ++ args))
  | _, .nil, _, fuel + 1, _, as => by
    have htn : Reads (self.templateArgsTurn as) [symbolShape .templateBracketRight] F
        (· = .inr as) := by
      refine notEndOfFile (current fun it hty _ => ?_)
      rw [if_pos hty]
      exact nextLexem (pure rfl)
    refine bind_behind htn ?_ fun _ hty => hty
    rintro _ rfl
    exact pure (by rw [append_nil])
  | _, .cons h .nil, hrds, fuel + 1, hf, as => by
    rw [shapesOf_separated_singleton]
    refine bind (templateArgsTurn_last self h (hrds _ mem_cons_self) as) ?_ rfl
    rintro _ ⟨copy, hcp, rfl⟩
    refine (templateArgs_loop .nil nofun (lt_of_succ_lt_succ hf) (as ++ [copy])).mono
      (fun _ hty => hty) fun r hres => ?_
    rw [hres, eraseSrcLocsAll_copy as hcp]
  | _, .cons h (.cons h' hrs), hrds, fuel + 1, hf, as => by
    rw [shapesOf_separated_cons_cons, append_assoc, cons_append, append_cons]
    obtain ⟨hhd, htl⟩ := forall_mem_cons.1 hrds
    refine bind (templateArgsTurn_comma self h hhd as) ?_
      (((startsWith_separated h').append _).follows fun _ hty => hty)
    rintro _ ⟨copy, hcp, rfl⟩
    refine (templateArgs_loop (.cons h' hrs) htl (lt_of_succ_lt_succ hf)
      (as ++ [copy])).mono (fun _ hty => hty) fun r hres => ?_
    rw [hres, eraseSrcLocsAll_copy as hcp]

theorem callTurn_last (h : arg.OfOperators) (hrds : ReadsWritten self arg)
    (as : List Expression) :
    Reads (self.callTurn as) (shapesOf arg.pieces) (· = .bracketRight)
      (fun r => ∃ copy, copy.IsCopyOf arg ∧ r = .inr (some (as ++ [copy]))) := by
  have hsts := h.startsWith
  refine current_starting hsts fun it hit => notEndOfFile_starting hsts ?_
  rw [if_pos ⟨rfl, by rintro heq; rw [heq] at hit; revert hit; decide⟩]
  refine bind_behind hrds (fun copy hcp => ?_) (by rintro _ rfl; decide)
  refine current_behind fun it hit => ?_
  simp only [hit]
  exact pure ⟨copy, hcp, rfl⟩

theorem callTurn_comma (h : arg.OfOperators) (hrds : ReadsWritten self arg)
    (as : List Expression) :
    Reads (self.callTurn as) (shapesOf arg.pieces ++ [symbolShape .comma]) (· ∈ startLexems)
      (Adds as arg) := by
  have hsts := h.startsWith.append [symbolShape .comma]
  refine current_starting hsts fun it hit => notEndOfFile_starting hsts ?_
  rw [if_pos ⟨rfl, by rintro heq; rw [heq] at hit; revert hit; decide⟩]
  refine bind hrds (fun copy hcp => ?_) (show BehindOperand 0 .comma by decide)
  refine current fun it hty _ => ?_
  rw [if_pos hty]
  refine nextLexem (current_behind fun it hit => ?_)
  rw [if_neg (by rintro heq; rw [heq] at hit; revert hit; decide)]
  exact pure ⟨copy, hcp, rfl⟩

theorem call_loop : ∀ {arguments : List Expression}, AllOfOperators arguments →
    (∀ arg ∈ arguments, ReadsWritten self arg) →
    ∀ {fuel : Nat}, arguments.length < fuel → ∀ as, Reads (Parser.loop self.callTurn fuel as)
        (shapesOf (separatedPieces (piecesOfAll arguments))) (· = .bracketRight)
        (fun r => ∃ all, r = some all ∧ eraseSrcLocsAll all = eraseSrcLocsAll (as ++ arguments))
  | _, .nil, _, fuel + 1, _, as => by
    have htn : Reads (self.callTurn as) [] (· = .bracketRight) (· = .inr (some as)) := by
      refine current_behind fun it hit => notEndOfFile_behind fun b => ?_
      rw [if_neg fun h => h.2 hit]
      exact pure rfl
    refine bind_behind htn ?_ fun _ hty => hty
    rintro _ rfl
    exact pure ⟨as, rfl, by rw [append_nil]⟩
  | _, .cons h .nil, hrds, fuel + 1, hf, as => by
    rw [shapesOf_separated_singleton]
    refine bind_behind (callTurn_last self h (hrds _ mem_cons_self) as) ?_ fun _ hty => hty
    rintro _ ⟨copy, hcp, rfl⟩
    exact pure ⟨_, rfl, by rw [← eraseSrcLocsAll_copy as hcp, append_nil]⟩
  | _, .cons h (.cons h' hrs), hrds, fuel + 1, hf, as => by
    rw [shapesOf_separated_cons_cons, append_cons]
    obtain ⟨hhd, htl⟩ := forall_mem_cons.1 hrds
    refine bind (callTurn_comma self h hhd as) ?_
      ((startsWith_separated h').follows fun _ hty => hty)
    rintro _ ⟨copy, hcp, rfl⟩
    refine (call_loop (.cons h' hrs) htl (lt_of_succ_lt_succ hf) (as ++ [copy])).mono
      (fun _ hty => hty) ?_
    rintro _ ⟨all, rfl, hall⟩
    exact ⟨all, rfl, by rw [hall, eraseSrcLocsAll_copy as hcp]⟩

theorem parseCall_reads {as : List Expression} (h : AllOfOperators as)
    (hrds : ∀ arg ∈ as, ReadsWritten self arg) (hf : as.length < self.fuel) :
    Reads self.parseCall (symbolShape .bracketLeft ::
        (shapesOf (separatedPieces (piecesOfAll as)) ++ [symbolShape .bracketRight]))
      F (fun r => ∃ all, r = some all ∧ eraseSrcLocsAll all = eraseSrcLocsAll as) := by
  refine expectLexem rfl (bind (call_loop self h hrds hf []) ?_ rfl)
  rintro _ ⟨all, rfl, hall⟩
  exact expectLexem rfl (pure ⟨all, rfl, hall⟩)

end Lists

/-! ## Names -/

section Names

variable {others : OtherParsers} {shapes : List Shape} {F : LexemType → Prop}
  {R : ComplexName → Prop}

def ComplexName.IsCopyOf (copy name : ComplexName) : Prop := copy.eraseSrcLocs = name.eraseSrcLocs

def behindName (self : SyntaxAnalyzer) (name : ComplexName) : ComplexName → Parser ComplexName :=
  if name.isTemplateParameterization then self.parseComplexNameTail
  else self.tryParseComplexNameTailWithTemplateArgs

def ReadBehind (others : OtherParsers) (name : ComplexName) (shapes : List Shape)
    (F : LexemType → Prop) (R : ComplexName → Prop) : Prop :=
  ∀ᶠ n in atTop, ∀ copy : ComplexName, copy.IsCopyOf name →
    Reads (behindName (analyzer others n) name copy) shapes F R

/-- At a lexem that does not open template arguments, both ways to go on are the same. -/
theorem behindName_reads {self : SyntaxAnalyzer} {n copy : ComplexName} {s : Shape}
    (hs : s.type ≠ .templateBracketLeft)
    (h : Reads (self.parseComplexNameTail copy) (s :: shapes) F R) :
    Reads (behindName self n copy) (s :: shapes) F R := by
  unfold behindName
  split
  · exact h
  · refine current fun it hty _ => ?_
    rw [if_neg (by rw [hty]; exact hs)]
    exact h

theorem readBehind_end (name : ComplexName) (hF : ∀ t, F t → BehindName t) :
    ReadBehind others name [] F (·.IsCopyOf name) := by
  have htl : ∀ᶠ n in atTop, ∀ copy, copy.IsCopyOf name →
      Reads ((analyzer others n).parseComplexNameTail copy) [] F (·.IsCopyOf name) := by
    refine eventually_succ (.of_forall fun n copy hcp => ?_)
    refine current_behind fun it hit => ?_
    have hbh := hF _ hit
    simp only [BehindName, mem_cons, not_or] at hbh
    rw [if_neg hbh.2.1, if_neg hbh.2.2.1]
    exact pure hcp
  filter_upwards [htl] with n hn copy hcp
  unfold behindName
  split
  · exact hn copy hcp
  · refine current_behind fun it hit => ?_
    have hbh := hF _ hit
    simp only [BehindName, mem_cons, not_or] at hbh
    rw [if_neg hbh.1]
    exact hn copy hcp

variable {srcLoc : SrcLoc}

theorem readBehind_scope {name : Text} {base : ComplexName}
    (h : ReadBehind others (.namesScopeNameFetch srcLoc name base) shapes F R) :
    ReadBehind others base (symbolShape .doubleColon :: wordShape name :: shapes) F R := by
  refine eventually_succ ?_
  filter_upwards [h] with n hn copy hcp
  refine behindName_reads (by decide) ?_
  refine current fun it hty _ => ?_
  rw [if_pos hty]
  refine nextLexem (current fun it hty ht => ?_)
  rw [if_pos hty]
  refine nextLexem (hn _ ?_)
  rw [ht]
  exact congrArg (ComplexName.namesScopeNameFetch erasedSrcLoc name) hcp

theorem readBehind_templateArgs {args : List Expression}
    {base : ComplexName} (hargs : AllOfOperators args)
    (honce : base.isTemplateParameterization = false)
    (hrds : ∀ᶠ n in atTop, ∀ arg ∈ args, ReadsWritten (analyzer others n) arg)
    (h : ReadBehind others (.templateParameterization srcLoc args base) shapes F R) :
    ReadBehind others base (symbolShape .templateBracketLeft ::
        (shapesOf (separatedPieces (piecesOfAll args)) ++ [symbolShape .templateBracketRight]) ++
          shapes) F R := by
  filter_upwards [h, hrds, fuel_eventually_gt others args.length] with n hn hrea hf copy hcp
  rw [behindName, if_neg (by rw [honce]; decide)]
  refine current fun it hty _ => ?_
  rw [if_pos hty]
  refine bind (nextLexem (templateArgs_loop _ hargs hrea hf [])) (fun result hres => hn _ ?_)
    follows_true
  exact congrArg₂ (ComplexName.templateParameterization erasedSrcLoc) hres hcp

theorem IsName.ne_keyword {n : Text} (h : IsName n) (kw : Keyword) : n ≠ kw.text :=
  fun heq => h.2 ⟨kw, heq.symm⟩

theorem nameLookup_reads {name : Text} (hnm : IsName name)
    (h : ReadBehind others (.nameLookup srcLoc name) shapes F R) :
    MethodReads others (·.parseComplexName) (wordShape name :: shapes) F R := by
  filter_upwards [h] with n hn
  refine current fun it hty ht => ?_
  rw [hty]
  rw [if_neg (ht ▸ hnm.ne_keyword _)]
  refine nextLexem (hn _ ?_)
  rw [ht]
  rfl

theorem rootNamespaceNameLookup_reads {name : Text}
    (h : ReadBehind others (.rootNamespaceNameLookup srcLoc name) shapes F R) :
    MethodReads others (·.parseComplexName) (symbolShape .doubleColon :: wordShape name :: shapes)
      F R := by
  filter_upwards [h] with n hn
  refine current fun it hty _ => ?_
  rw [hty]
  refine nextLexem (current fun it hty ht => ?_)
  rw [if_pos hty]
  refine nextLexem (hn _ ?_)
  rw [ht]
  rfl

end Names

section Components

variable {others : OtherParsers} {shapes : List Shape} {F : LexemType → Prop}
  {R Q : Expression → Prop}

theorem postfixOperator_stops (self : SyntaxAnalyzer) {e : Expression} (hR : R e) :
    Reads (self.postfixOperator e) [] BehindComponent R := by
  refine current_behind fun it hit => ?_
  have hbh := hit.2
  split <;> try (next hty => simp [hty] at hbh)
  exact pure hR

theorem component_postfixOperator {A : Expression → Prop} {F1 : LexemType → Prop}
    {shs1 shs2 : List Shape}
    (h : MethodReads others (·.parseBinaryOperatorComponentCore) shs1 F1 A)
    (hop : ∀ᶠ n in atTop, ∀ e, A e →
      Reads ((analyzer others n).postfixOperator e) shs2 BehindComponent R)
    (hfo : Follows F1 shs2 BehindComponent) :
    MethodReads others (·.parseBinaryOperatorComponent) (shs1 ++ shs2) BehindComponent R := by
  have hcld : ∀ᶠ n in atTop, ∀ e, A e →
      Reads ((analyzer others n).tryParseBinaryOperatorComponentPostfixOperator e) shs2
        BehindComponent R :=
    eventually_succ hop
  refine .of_body ?_
  filter_upwards [h, hcld] with n hn hcal
  exact bind hn hcal hfo

theorem component_of_core
    (h : MethodReads others (·.parseBinaryOperatorComponentCore) shapes BehindComponent R) :
    MethodReads others (·.parseBinaryOperatorComponent) shapes BehindComponent R := by
  rw [← append_nil shapes]
  exact component_postfixOperator h (.of_forall fun _ _ hR => postfixOperator_stops _ hR)
    fun _ hty => hty

theorem expression_of_component
    (h : MethodReads others (·.parseBinaryOperatorComponent) shapes BehindComponent R) :
    MethodReads others (·.parseExpression) shapes (BehindOperand 0) R :=
  tryParseBinaryOperator_component (zero_le _) (fun _ hty => hty)
    (h.mono (fun _ hty => hty.1) fun _ hR => hR)

theorem core_brackets (h : MethodReads others (·.parseExpression) shapes (BehindOperand 0) R) :
    MethodReads others (·.parseBinaryOperatorComponentCore)
      (symbolShape .bracketLeft :: (shapes ++ [symbolShape .bracketRight])) F R := by
  filter_upwards [h] with n hn
  refine current fun it hty _ => ?_
  rw [hty]
  refine expectLexem rfl (bind hn (fun expression hR => ?_)
    (show BehindOperand 0 .bracketRight by decide))
  refine current fun it hty _ => ?_
  rw [if_pos hty]
  exact nextLexem (pure hR)

theorem expressionInBrackets
    (h : MethodReads others (·.parseExpression) shapes (BehindOperand 0) R) :
    MethodReads others (·.parseExpressionInBrackets)
      (symbolShape .bracketLeft :: (shapes ++ [symbolShape .bracketRight])) F R := by
  filter_upwards [h] with n hn
  refine expectLexem rfl (bind hn (fun expression hR => ?_)
    (show BehindOperand 0 .bracketRight by decide))
  exact expectLexem rfl (pure hR)

end Components

section Operators

variable {others : OtherParsers} {F : LexemType → Prop} {srcLoc : SrcLoc}

def CoreReads (others : OtherParsers) (expression : Expression) : Prop :=
  MethodReads others (·.parseBinaryOperatorComponentCore) (shapesOf expression.pieces) BehindName
    (·.IsCopyOf expression)

variable {e : Expression}

theorem CoreReads.component (h : CoreReads others e) :
    MethodReads others (·.parseBinaryOperatorComponent) (shapesOf e.pieces) BehindComponent
      (·.IsCopyOf e) :=
  component_of_core (h.mono (fun _ hty => hty.1) fun _ hcp => hcp)

theorem CoreReads.expression (h : CoreReads others e) :
    MethodReads others (·.parseExpression) (shapesOf e.pieces) (BehindOperand 0) (·.IsCopyOf e) :=
  expression_of_component h.component

theorem behindOperand_higher {p : Nat} {t : LexemType} (h : BehindOperand 0 t) :
    BehindOperand p t :=
  ⟨h.1, fun ops hmem => h.2 ops (mem_of_mem_drop hmem)⟩

theorem CoreReads.operand (h : CoreReads others e) {p : Nat}
    (hp : p ≤ operatorsByPriorityTable.length) :
    MethodReads others (·.tryParseBinaryOperator p) (shapesOf e.pieces) (BehindOperand p)
      (·.IsCopyOf e) :=
  tryParseBinaryOperator_component hp (fun _ hty => hty)
    (h.component.mono (fun _ hty => hty.1) fun _ hcp => hcp)

theorem rightPart_reads {opTy : BinaryOperatorType} {left right : Expression}
    (hright : CoreReads others right) :
    ∀ᶠ n in atTop, ∀ l, l.IsCopyOf left →
      Reads ((analyzer others n).tryParseBinaryOperatorRightPart opTy.priority l)
        (symbolShape (operatorLexemType opTy) :: shapesOf right.pieces) (BehindOperand 0)
        (·.IsCopyOf (.binaryOperator srcLoc opTy left right)) := by
  obtain ⟨hlt, hlk⟩ := operator_read opTy
  have hla : ∀ᶠ n in atTop, ∀ e, e.IsCopyOf (.binaryOperator srcLoc opTy left right) →
      Reads ((analyzer others n).tryParseBinaryOperatorRightPart opTy.priority e) []
        (BehindOperand 0) (·.IsCopyOf (.binaryOperator srcLoc opTy left right)) :=
    eventually_succ (.of_forall fun n e hcp => binaryOperatorRightPart_stops _
      (fun type hty => lookup_of_behindOperand hty (zero_le _) hlt) hcp)
  refine eventually_succ ?_
  filter_upwards [hright.operand hlt, hla] with n hn hlas l hl
  refine current fun it hty _ => ?_
  rw [hty, hlk]
  refine nextLexem (bind_behind hn (fun r hr => hlas _ ?_) fun _ => behindOperand_higher)
  exact congrArg₂ (binaryOperator erasedSrcLoc opTy) hl hr

theorem CoreReads.binaryOperator {opTy : BinaryOperatorType} {l r : Expression}
    (hl : CoreReads others l) (hr : CoreReads others r) :
    CoreReads others (.binaryOperator srcLoc opTy l r) := by
  obtain ⟨hlt, -⟩ := operator_read opTy
  have hop : MethodReads others (·.tryParseBinaryOperator opTy.priority)
      (shapesOf l.pieces ++ symbolShape (operatorLexemType opTy) :: shapesOf r.pieces)
      (BehindOperand 0) (·.IsCopyOf (.binaryOperator srcLoc opTy l r)) := by
    refine .of_body ?_
    filter_upwards [hl.operand hlt, rightPart_reads hr] with n hn hrig
    change Reads ((analyzer others n).binaryOperator _) _ _ _
    rw [SyntaxAnalyzer.binaryOperator, if_neg (by omega)]
    exact bind hn hrig (operator_behindOperand opTy)
  have hexpression := tryParseBinaryOperator_lower (zero_le _) hlt.le (fun _ hty => hty) hop
  simpa [CoreReads] using core_brackets hexpression

variable {self : SyntaxAnalyzer} {s : Shape} (make : SrcLoc → Expression → Expression)

theorem core_prefixOperator (srcLoc : SrcLoc)
    (h : CoreReads others e)
    (hcore : ∀ {self : SyntaxAnalyzer} {R : Expression → Prop},
      Reads (self.prefixOperator make) (s :: shapesOf e.pieces) BehindComponent R →
        Reads self.parseBinaryOperatorComponentCore (s :: shapesOf e.pieces) BehindComponent R)
    (hmake : ∀ loc (copy : Expression), copy.IsCopyOf e → (make loc copy).IsCopyOf (make srcLoc e)) :
    MethodReads others (·.parseBinaryOperatorComponentCore)
      (symbolShape .bracketLeft :: s :: (shapesOf e.pieces ++ [symbolShape .bracketRight]))
      BehindName (·.IsCopyOf (make srcLoc e)) := by
  have hprefix : MethodReads others (·.parseBinaryOperatorComponentCore) (s :: shapesOf e.pieces)
      BehindComponent (·.IsCopyOf (make srcLoc e)) := by
    filter_upwards [h.component] with n hn
    exact hcore (current fun it _ _ => nextLexem (map hn fun copy hcp => hmake _ copy hcp))
  exact core_brackets (expression_of_component (component_of_core hprefix))

theorem CoreReads.unaryMinus (h : CoreReads others e) :
    CoreReads others (.unaryMinus srcLoc e) := by
  have hcore := core_prefixOperator (s := symbolShape .minus) .unaryMinus srcLoc h
    (fun h => current fun it hty _ => by rw [hty]; exact h)
    fun _ _ hcp => congrArg (Expression.unaryMinus erasedSrcLoc) hcp
  simpa [CoreReads] using hcore

theorem CoreReads.logicalNot (h : CoreReads others e) :
    CoreReads others (.logicalNot srcLoc e) := by
  have hcore := core_prefixOperator (s := symbolShape .exclamation) .logicalNot srcLoc h
    (fun h => current fun it hty _ => by rw [hty]; exact h)
    fun _ _ hcp => congrArg (Expression.logicalNot erasedSrcLoc) hcp
  simpa [CoreReads] using hcore

theorem CoreReads.bitwiseNot (h : CoreReads others e) :
    CoreReads others (.bitwiseNot srcLoc e) := by
  have hcore := core_prefixOperator (s := symbolShape .tilde) .bitwiseNot srcLoc h
    (fun h => current fun it hty _ => by rw [hty]; exact h)
    fun _ _ hcp => congrArg (Expression.bitwiseNot erasedSrcLoc) hcp
  simpa [CoreReads] using hcore

theorem CoreReads.ternaryOperator {condition br0 br1 : Expression}
    (hcon : CoreReads others condition) (hbra0 : CoreReads others br0)
    (hbra1 : CoreReads others br1) :
    CoreReads others (.ternaryOperator srcLoc condition br0 br1) := by
  unfold CoreReads
  simp only [pieces, append_assoc, cons_append, nil_append,
    shapesOf_append, shapesOf_symbol_cons, shapesOf_space_cons]
  filter_upwards [hcon.expression, hbra0.expression, hbra1.expression] with n hn hn0 hn1
  refine current fun it hty _ => ?_
  rw [hty]
  refine expectLexem rfl (bind hn (fun copy hcp => ?_) (show BehindOperand 0 .question by decide))
  refine current fun it hty _ => ?_
  rw [hty, if_pos rfl]
  refine nextLexem (bind hn0 (fun copy0 hcp0 => expectLexem rfl ?_)
    (show BehindOperand 0 .colon by decide))
  refine bind hn1 (fun copy1 hcp1 => expectLexem rfl (pure ?_))
    (show BehindOperand 0 .bracketRight by decide)
  have hbra := congrArg₂ (Expression.ternaryOperator erasedSrcLoc copy.eraseSrcLocs) hcp0 hcp1
  exact hbra.trans (congrArg (Expression.ternaryOperator erasedSrcLoc · _ _) hcp)

/-! ### Postfix operators -/

theorem core_postfixOperator {e op : Expression} {shapes : List Shape} (h : CoreReads others e)
    (hop : ∀ᶠ n in atTop, ∀ copy, copy.IsCopyOf e →
      Reads ((analyzer others n).postfixOperator copy) shapes BehindComponent (·.IsCopyOf op))
    (hfo : Follows BehindName shapes BehindComponent) :
    MethodReads others (·.parseBinaryOperatorComponentCore)
      (symbolShape .bracketLeft :: (shapesOf e.pieces ++ (shapes ++ [symbolShape .bracketRight])))
      BehindName (·.IsCopyOf op) := by
  rw [← append_assoc]
  exact core_brackets (expression_of_component (component_postfixOperator h hop hfo))

theorem postfix_stops {op : Expression} : ∀ᶠ n in atTop, ∀ copy, copy.IsCopyOf op →
    Reads ((analyzer others n).tryParseBinaryOperatorComponentPostfixOperator copy) []
      BehindComponent (·.IsCopyOf op) :=
  eventually_succ (.of_forall fun _ _ hcp => postfixOperator_stops _ hcp)

theorem CoreReads.subscriptOperator {e i : Expression}
    (h : CoreReads others e) (hix : CoreReads others i) :
    CoreReads others (.subscriptOperator srcLoc e i) := by
  have hop : ∀ᶠ n in atTop, ∀ copy, copy.IsCopyOf e →
      Reads ((analyzer others n).postfixOperator copy) (symbolShape .squareBracketLeft ::
          (shapesOf i.pieces ++ [symbolShape .squareBracketRight])) BehindComponent
        (·.IsCopyOf (.subscriptOperator srcLoc e i)) := by
    filter_upwards [hix.expression, postfix_stops] with n hn hsto copy hcp
    refine current fun it hty _ => ?_
    rw [hty]
    refine nextLexem (bind hn (fun index' hi' => ?_)
      (show BehindOperand 0 .squareBracketRight by decide))
    refine expectLexem rfl (hsto _ ?_)
    exact congrArg₂ (Expression.subscriptOperator erasedSrcLoc) hcp hi'
  have hcore := core_postfixOperator h hop (show BehindName .squareBracketLeft by decide)
  simpa [CoreReads] using hcore

theorem CoreReads.callOperator {as : List Expression}
    (h : CoreReads others e) (harg : AllOfOperators as)
    (hrds : ∀ᶠ n in atTop, ∀ arg ∈ as, ReadsWritten (analyzer others n) arg) :
    CoreReads others (.callOperator srcLoc e as) := by
  have hop : ∀ᶠ n in atTop, ∀ copy, copy.IsCopyOf e →
      Reads ((analyzer others n).postfixOperator copy) (symbolShape .bracketLeft ::
          (shapesOf (separatedPieces (piecesOfAll as)) ++ [symbolShape .bracketRight]))
        BehindComponent (·.IsCopyOf (.callOperator srcLoc e as)) := by
    filter_upwards [hrds, fuel_eventually_gt others as.length, postfix_stops] with n hn hf
      hsto copy hcp
    refine current fun it hty _ => ?_
    rw [hty]
    refine bind_behind (parseCall_reads _ harg hn hf) ?_ fun _ hty => hty
    rintro _ ⟨all, rfl, hall⟩
    refine hsto _ ?_
    exact congrArg₂ (Expression.callOperator erasedSrcLoc) hcp hall
  have hcore := core_postfixOperator h hop (show BehindName .bracketLeft by decide)
  simpa [CoreReads] using hcore

theorem CoreReads.memberAccessOperator {member : Text}
    (h : CoreReads others e) (hn : IsName member) :
    CoreReads others (.memberAccessOperator srcLoc e member none) := by
  have hop : ∀ᶠ n in atTop, ∀ copy, copy.IsCopyOf e →
      Reads ((analyzer others n).postfixOperator copy) [symbolShape .dot, wordShape member]
        BehindComponent (·.IsCopyOf (.memberAccessOperator srcLoc e member none)) := by
    filter_upwards [postfix_stops] with n hsto copy hcp
    refine current fun it hty _ => ?_
    rw [hty]
    refine nextLexem (current fun it hty ht => ?_)
    rw [if_neg fun hawa => hn.ne_keyword .await_ (ht.symm.trans hawa.2), if_pos hty]
    refine nextLexem (current_behind fun next hnx => ?_)
    rw [if_neg fun hbra => hnx.1 (mem_cons.2 (.inl hbra))]
    refine hsto _ ?_
    rw [ht]
    exact congrArg (Expression.memberAccessOperator erasedSrcLoc · member none) hcp
  have hcore := core_postfixOperator h hop (show BehindName .dot by decide)
  simpa [CoreReads] using hcore

theorem CoreReads.memberAccessOperatorWithTemplateArgs {member : Text}
    {args : List Expression} (h : CoreReads others e) (hnm : IsName member)
    (hargs : AllOfOperators args)
    (hrds : ∀ᶠ n in atTop, ∀ arg ∈ args, ReadsWritten (analyzer others n) arg) :
    CoreReads others (.memberAccessOperator srcLoc e member (some args)) := by
  have hop : ∀ᶠ n in atTop, ∀ copy, copy.IsCopyOf e →
      Reads ((analyzer others n).postfixOperator copy)
        (symbolShape .dot :: wordShape member :: symbolShape .templateBracketLeft ::
          (shapesOf (separatedPieces (piecesOfAll args)) ++ [symbolShape .templateBracketRight]))
        BehindComponent
        (·.IsCopyOf (.memberAccessOperator srcLoc e member (some args))) := by
    filter_upwards [hrds, fuel_eventually_gt others args.length, postfix_stops] with n hn
      hf hsto copy hcp
    refine current fun it hty _ => ?_
    rw [hty]
    refine nextLexem (current fun it hty ht => ?_)
    rw [if_neg fun hawa => hnm.ne_keyword .await_ (ht.symm.trans hawa.2), if_pos hty]
    refine nextLexem (current fun next hnx _ => ?_)
    rw [if_pos hnx]
    refine bind_behind (nextLexem (templateArgs_loop _ hargs hn hf [])) (fun result hres => ?_)
      fun _ hty => hty
    refine hsto _ ?_
    rw [ht]
    exact congrArg₂ (Expression.memberAccessOperator erasedSrcLoc · member <| some ·) hcp hres
  have hcore := core_postfixOperator h hop (show BehindName .dot by decide)
  simpa [CoreReads] using hcore

def NameReads (others : OtherParsers) (name : ComplexName) : Prop :=
  MethodReads others (·.parseComplexName) (shapesOf name.pieces) BehindName (·.IsCopyOf name)

variable {name : ComplexName}

theorem NameReads.typeName (hnm : name.OfNames) (h : NameReads others name) :
    MethodReads others (·.parseTypeName) (shapesOf name.pieces) BehindName
      (·.eraseSrcLocs = (TypeName.complexName name).eraseSrcLocs) := by
  refine .of_body ?_
  filter_upwards [h] with n hn
  have hres : Reads ((analyzer others n).parseComplexName >>= fun a =>
      pure (TypeName.complexName a)) (shapesOf name.pieces) BehindName
      (·.eraseSrcLocs = (TypeName.complexName name).eraseSrcLocs) :=
    map hn fun copy hcp => congrArg TypeName.complexName hcp
  obtain ⟨s, rest, hsh, hs⟩ := hnm.startsName
  rw [hsh] at hres ⊢
  refine current fun it hty ht => ?_
  rcases hs with hs | ⟨hs, hsna⟩
  · rw [hs] at hty
    simpa [hty] using hres
  · rw [hs] at hty
    have hkw : ∀ kw : Keyword, it.text ≠ kw.text := ht ▸ hsna.ne_keyword
    simpa [hty, hkw] using hres

theorem CoreReads.complexName (hmacros : ∀ text, others.fetchMacro text = none)
    (hnm : name.OfNames) (h : NameReads others name) :
    CoreReads others (.typeName (.complexName name)) := by
  filter_upwards [h] with n hn
  have hres : Reads ((analyzer others n).parseComplexName >>= fun a => pure a.toExpression)
      (shapesOf name.pieces) BehindName (·.IsCopyOf (.typeName (.complexName name))) :=
    map hn fun copy hcp => congrArg (fun name => typeName (.complexName name)) hcp
  obtain ⟨s, rest, hsh, hs⟩ := hnm.startsName
  rw [pieces, TypeName.pieces, hsh]
  rw [hsh] at hres
  refine current fun it hty ht => ?_
  rcases hs with hs | ⟨hs, hsna⟩
  · rw [hs] at hty
    rw [hty]
    exact hres
  · rw [hs] at hty
    rw [hty]
    refine current fun it' hty' ht' => ?_
    have hkw : ∀ kw : Keyword, it'.text ≠ kw.text := ht' ▸ hsna.ne_keyword
    simp only [hkw]
    refine current fun it'' hty'' ht'' => ?_
    have hkw : ∀ kw : Keyword, it''.text ≠ kw.text := ht'' ▸ hsna.ne_keyword
    simp only [hkw, or_false]
    rw [SyntaxAnalyzer.nameComponent, fetchMacro_analyzer, hmacros]
    exact hres

/-! ### Operators with a keyword -/

theorem typeInTemplateBrackets (hnm : name.OfNames) (h : NameReads others name) :
    MethodReads others (·.parseTypeNameInTemplateBrackets) (symbolShape .templateBracketLeft ::
        (shapesOf name.pieces ++ [symbolShape .templateBracketRight])) F
      (·.eraseSrcLocs = (TypeName.complexName name).eraseSrcLocs) := by
  filter_upwards [h.typeName hnm] with n hn
  refine expectLexem rfl (bind hn (fun type hty => ?_)
    (show BehindName .templateBracketRight by decide))
  exact expectLexem rfl (pure hty)

theorem core_identifier {text : Text} {shapes : List Shape}
    {R : Expression → Prop} (h : Reads self.identifierComponent (wordShape text :: shapes) F R) :
    Reads self.parseBinaryOperatorComponentCore (wordShape text :: shapes) F R := by
  refine current fun it hty ht => ?_
  rw [hty]
  exact h

theorem core_bracketsOperator {t : Text} (srcLoc : SrcLoc) (h : CoreReads others e)
    (hcore : ∀ {self : SyntaxAnalyzer} {shapes : List Shape} {R : Expression → Prop},
      Reads (self.bracketsOperator make) (wordShape t :: shapes) BehindName R →
        Reads self.identifierComponent (wordShape t :: shapes) BehindName R)
    (hmake : ∀ loc (copy : Expression), copy.IsCopyOf e → (make loc copy).IsCopyOf (make srcLoc e)) :
    MethodReads others (·.parseBinaryOperatorComponentCore) (wordShape t ::
        symbolShape .bracketLeft :: (shapesOf e.pieces ++ [symbolShape .bracketRight])) BehindName
      (·.IsCopyOf (make srcLoc e)) := by
  filter_upwards [expressionInBrackets h.expression] with n hn
  exact core_identifier (hcore (current fun it _ _ => nextLexem (map hn fun copy hcp =>
    hmake _ copy hcp)))

theorem core_castRef {t : Text} (make : SrcLoc → TypeName → Expression → Expression)
    (srcLoc : SrcLoc) (hnm : name.OfNames) (hrds : NameReads others name) (h : CoreReads others e)
    (hcore : ∀ {self : SyntaxAnalyzer} {shapes : List Shape} {R : Expression → Prop},
      Reads (self.castRef make) (wordShape t :: shapes) BehindName R →
        Reads self.identifierComponent (wordShape t :: shapes) BehindName R)
    (hmake : ∀ loc (type : TypeName) (copy : Expression),
      type.eraseSrcLocs = (TypeName.complexName name).eraseSrcLocs → copy.IsCopyOf e →
        (make loc type copy).IsCopyOf (make srcLoc (.complexName name) e)) :
    MethodReads others (·.parseBinaryOperatorComponentCore) (wordShape t ::
        ((symbolShape .templateBracketLeft :: (shapesOf name.pieces ++
          [symbolShape .templateBracketRight])) ++ symbolShape .bracketLeft ::
            (shapesOf e.pieces ++ [symbolShape .bracketRight]))) BehindName
      (·.IsCopyOf (make srcLoc (.complexName name) e)) := by
  filter_upwards [typeInTemplateBrackets hnm hrds, expressionInBrackets h.expression] with n hty hn
  refine core_identifier (hcore (current fun it _ _ => nextLexem (bind hty (fun type htype => ?_)
    follows_true)))
  exact map hn fun copy hcp => hmake _ type copy htype hcp

theorem CoreReads.typeInfo (hnm : name.OfNames) (h : NameReads others name) :
    CoreReads others (.typeInfo srcLoc (.complexName name)) := by
  have hcore : MethodReads others (·.parseBinaryOperatorComponentCore)
      (wordShape Keyword.typeinfo_.text :: symbolShape .templateBracketLeft ::
        (shapesOf name.pieces ++ [symbolShape .templateBracketRight])) BehindName
      (·.IsCopyOf (.typeInfo srcLoc (.complexName name))) := by
    filter_upwards [typeInTemplateBrackets hnm h] with n hn
    refine core_identifier (current fun it hty ht => ?_)
    simp +decide only [ht, if_false]
    refine current fun it hty ht => ?_
    simp +decide only [ht, if_true]
    refine current fun it hty ht => nextLexem (map hn fun type hty => ?_)
    exact congrArg (Expression.typeInfo erasedSrcLoc) hty
  simpa [CoreReads] using hcore

theorem CoreReads.sameType {l r : ComplexName} (hl : l.OfNames) (hr : r.OfNames)
    (hlre : NameReads others l) (hrre : NameReads others r) :
    CoreReads others (.sameType srcLoc (.complexName l) (.complexName r)) := by
  have hcore : MethodReads others (·.parseBinaryOperatorComponentCore)
      (wordShape Keyword.same_type_.text :: symbolShape .templateBracketLeft ::
        (shapesOf l.pieces ++ symbolShape .comma ::
          (shapesOf r.pieces ++ [symbolShape .templateBracketRight]))) BehindName
      (·.IsCopyOf (.sameType srcLoc (.complexName l) (.complexName r))) := by
    filter_upwards [hlre.typeName hl, hrre.typeName hr] with n hnl hnr
    refine core_identifier (current fun it hty ht => ?_)
    simp +decide only [ht, if_false]
    refine current fun it hty ht => ?_
    simp +decide only [ht, if_false, if_true]
    refine current fun it hty ht => nextLexem (expectLexem rfl ?_)
    refine bind hnl (fun l' hl' => expectLexem rfl ?_) (show BehindName .comma by decide)
    refine bind hnr (fun r' hr' => expectLexem rfl (pure ?_))
      (show BehindName .templateBracketRight by decide)
    exact congrArg₂ (Expression.sameType erasedSrcLoc) hl' hr'
  simpa [CoreReads] using hcore

theorem CoreReads.castMut (h : CoreReads others e) :
    CoreReads others (.castMut srcLoc e) := by
  have hcore := core_bracketsOperator (t := Keyword.cast_mut_.text) .castMut srcLoc h
    (fun h => current fun it hty ht => by simpa +decide only [ht, if_false, if_true] using h)
    fun _ _ hcp => congrArg (Expression.castMut erasedSrcLoc) hcp
  simpa [CoreReads] using hcore

theorem CoreReads.castImut (h : CoreReads others e) :
    CoreReads others (.castImut srcLoc e) := by
  have hcore := core_bracketsOperator (t := Keyword.cast_imut_.text) .castImut srcLoc h
    (fun h => current fun it hty ht => by simpa +decide only [ht, if_false, if_true] using h)
    fun _ _ hcp => congrArg (Expression.castImut erasedSrcLoc) hcp
  simpa [CoreReads] using hcore

theorem CoreReads.castRef (hnm : name.OfNames)
    (hrds : NameReads others name) (h : CoreReads others e) :
    CoreReads others (.castRef srcLoc (.complexName name) e) := by
  have hcore := core_castRef (t := Keyword.cast_ref_.text) .castRef srcLoc hnm hrds h
    (fun h => current fun it hty ht => by simpa +decide only [ht, if_false, if_true] using h)
    fun _ _ _ => congrArg₂ (Expression.castRef erasedSrcLoc)
  simpa [CoreReads] using hcore

theorem CoreReads.castRefUnsafe (hnm : name.OfNames)
    (hrds : NameReads others name) (h : CoreReads others e) :
    CoreReads others (.castRefUnsafe srcLoc (.complexName name) e) := by
  have hcore := core_castRef (t := Keyword.cast_ref_unsafe_.text) .castRefUnsafe srcLoc hnm hrds h
    (fun h => current fun it hty ht => by simpa +decide only [ht, if_false, if_true] using h)
    fun _ _ _ => congrArg₂ (Expression.castRefUnsafe erasedSrcLoc)
  simpa [CoreReads] using hcore

end Operators

/-! ## Trees -/

section Trees

variable {others : OtherParsers} (hmacros : ∀ text, others.fetchMacro text = none)

theorem NameReads.of_readBehind {n : ComplexName}
    (h : ∀ {shapes : List Shape} {F : LexemType → Prop} {R : ComplexName → Prop},
      ReadBehind others n shapes F R →
        MethodReads others (·.parseComplexName) (shapesOf n.pieces ++ shapes) F R) :
    NameReads others n := by
  have hn := h (readBehind_end n fun _ hty => hty)
  rw [append_nil] at hn
  exact hn

include hmacros

set_option linter.unusedSectionVars false

mutual

theorem ComplexName.OfNames.reads : ∀ {n : ComplexName}, n.OfNames → n.hasNonSync = false →
    ∀ {shapes : List Shape} {F : LexemType → Prop} {R : ComplexName → Prop},
      ReadBehind others n shapes F R →
        MethodReads others (·.parseComplexName) (shapesOf n.pieces ++ shapes) F R
  | _, .nameLookup hn, _, _, _, _, h => nameLookup_reads hn h
  | _, .rootNamespaceNameLookup hn, _, _, _, _, h => rootNamespaceNameLookup_reads h
  | _, .namesScopeNameFetch hn hb, hsy, _, _, _, h => by
    have hbh := hb.reads hsy (readBehind_scope h)
    simpa using hbh
  | _, .templateParameterization hargs hb honce, hsy, _, _, _, h => by
    obtain ⟨hasSy, hbSy⟩ := Bool.or_eq_false_iff.1 hsy
    have hbh := hb.reads hbSy (readBehind_templateArgs hargs honce (hargs.read hasSy) h)
    simpa using hbh

theorem Expression.OfOperators.coreReads :
    ∀ {e : Expression}, e.OfOperators → e.hasNonSync = false → CoreReads others e
  | _, .name hn, hsy => .complexName hmacros hn (.of_readBehind (hn.reads hsy))
  | _, .binaryOperator hleft hright, hsy => by
    obtain ⟨hlSy, hrSy⟩ := Bool.or_eq_false_iff.1 hsy
    exact .binaryOperator (hleft.coreReads hlSy) (hright.coreReads hrSy)
  | _, .unaryMinus h, hsy => .unaryMinus (h.coreReads hsy)
  | _, .logicalNot h, hsy => .logicalNot (h.coreReads hsy)
  | _, .bitwiseNot h, hsy => .bitwiseNot (h.coreReads hsy)
  | _, .ternaryOperator h h0 h1, hsy => by
    obtain ⟨hsy, hsy1⟩ := Bool.or_eq_false_iff.1 hsy
    obtain ⟨hsy, hsy0⟩ := Bool.or_eq_false_iff.1 hsy
    exact .ternaryOperator (h.coreReads hsy) (h0.coreReads hsy0) (h1.coreReads hsy1)
  | _, .subscriptOperator h hix, hsy => by
    obtain ⟨hsy, hiSy⟩ := Bool.or_eq_false_iff.1 hsy
    exact .subscriptOperator (h.coreReads hsy) (hix.coreReads hiSy)
  | _, .callOperator h hargs, hsy => by
    obtain ⟨hsy, hasSy⟩ := Bool.or_eq_false_iff.1 hsy
    exact .callOperator (h.coreReads hsy) hargs (hargs.read hasSy)
  | _, .memberAccessOperator h hn, hsy => .memberAccessOperator (h.coreReads hsy) hn
  | _, .memberAccessOperatorWithTemplateArgs h hn hargs, hsy => by
    obtain ⟨hsy, hasSy⟩ := Bool.or_eq_false_iff.1 hsy
    exact .memberAccessOperatorWithTemplateArgs (h.coreReads hsy) hn hargs (hargs.read hasSy)
  | _, .typeInfo hn, hsy => .typeInfo hn (.of_readBehind (hn.reads hsy))
  | _, .sameType hl hr, hsy => by
    obtain ⟨hlSync, hrSync⟩ := Bool.or_eq_false_iff.1 hsy
    exact .sameType hl hr (.of_readBehind (hl.reads hlSync)) (.of_readBehind (hr.reads hrSync))
  | _, .nonSyncExpression _, hsy => nomatch hsy
  | _, .castMut h, hsy => .castMut (h.coreReads hsy)
  | _, .castImut h, hsy => .castImut (h.coreReads hsy)
  | _, .castRef hn h, hsy => by
    obtain ⟨hnSy, hsy⟩ := Bool.or_eq_false_iff.1 hsy
    exact .castRef hn (.of_readBehind (hn.reads hnSy)) (h.coreReads hsy)
  | _, .castRefUnsafe hn h, hsy => by
    obtain ⟨hnSy, hsy⟩ := Bool.or_eq_false_iff.1 hsy
    exact .castRefUnsafe hn (.of_readBehind (hn.reads hnSy)) (h.coreReads hsy)

theorem AllOfOperators.read : ∀ {es : List Expression}, AllOfOperators es → anyNonSync es = false →
    ∀ᶠ n in atTop, ∀ arg ∈ es, ReadsWritten (analyzer others n) arg
  | _, .nil, _ => .of_forall fun _ => nofun
  | _, .cons h hrs, hsy => by
    obtain ⟨hsy, hrsSy⟩ := Bool.or_eq_false_iff.1 hsy
    filter_upwards [(h.coreReads hsy).expression, hrs.read hrsSy] with n hn hres
    exact forall_mem_cons.2 ⟨hn, hres⟩

end

end Trees

end USprache.LexSynt
