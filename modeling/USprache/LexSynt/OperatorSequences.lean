import USprache.Library.OperatorTree
import USprache.LexSynt.WriterRoundTrip

/-!
# Sequences of binary operators

The analyzer groups the operands of a sequence of binary operators by the table of their
priorities.
-/

namespace USprache.LexSynt

open Filter List Reads Expression Library

structure Operand (others : OtherParsers) where
  shapes : List Shape
  expression : Expression
  reads : MethodReads others (·.parseBinaryOperatorComponent) shapes BehindComponent (·.IsCopyOf expression)

variable {others : OtherParsers}

def sequenceShapes (first : Operand others) (rest : List (BinaryOperatorType × Operand others)) : List Shape :=
  first.shapes ++ rest.flatMap fun (op, operand) => symbolShape (operatorLexemType op) :: operand.shapes

def treeExpression : OperatorTree (Operand others) BinaryOperatorType → Expression
  | .leaf operand => operand.expression
  | .node op l r => .binaryOperator erasedSrcLoc op (treeExpression l) (treeExpression r)

abbrev OperatorTree.shapes (t : OperatorTree (Operand others) BinaryOperatorType) : List Shape :=
  sequenceShapes t.first t.rest

abbrev ReadFrom (p : Nat) (t : OperatorTree (Operand others) BinaryOperatorType) : Prop :=
  t.AtLeast BinaryOperatorType.priority p

variable {t l r : OperatorTree (Operand others) BinaryOperatorType} {op : BinaryOperatorType} {p : Nat}

theorem shapes_node : OperatorTree.shapes (.node op l r) =
    OperatorTree.shapes l ++ symbolShape (operatorLexemType op) :: OperatorTree.shapes r := by
  simp only [sequenceShapes, OperatorTree.first, OperatorTree.rest, flatMap_append, flatMap_cons,
    append_assoc, cons_append]

def ReadsTree (t : OperatorTree (Operand others) BinaryOperatorType) (p : Nat) : Prop :=
  MethodReads others (·.tryParseBinaryOperator p) (OperatorTree.shapes t) (BehindOperand p)
    (·.IsCopyOf (treeExpression t))

def ReadsLeft (t : OperatorTree (Operand others) BinaryOperatorType) (p : Nat) : Prop :=
  ∀ (shapes : List Shape) (F : LexemType → Prop) (R : Expression → Prop),
    Follows (BehindOperand (p + 1)) shapes F →
    (∀ᶠ n in atTop, ∀ e, e.IsCopyOf (treeExpression t) →
      Reads ((analyzer others n).tryParseBinaryOperatorRightPart p e) shapes F R) →
    MethodReads others (·.tryParseBinaryOperator p) (OperatorTree.shapes t ++ shapes) F R

theorem behindOperand_mono {q : Nat} {ty : LexemType} (hpq : p ≤ q) (h : BehindOperand p ty) :
    BehindOperand q ty :=
  ⟨h.1, fun ops hmem => h.2 ops (drop_subset_drop_left _ hpq hmem)⟩

theorem rightPart_stops (hp : p < operatorsByPriorityTable.length) {R : Expression → Prop} :
    ∀ᶠ n in atTop, ∀ e, R e →
      Reads ((analyzer others n).tryParseBinaryOperatorRightPart p e) [] (BehindOperand p) R :=
  eventually_succ (.of_forall fun _ _ he =>
    binaryOperatorRightPart_stops _ (fun _ hty => lookup_of_behindOperand hty (Nat.le_refl p) hp) he)

theorem ReadsTree.left (h : ReadsTree t (p + 1)) (hp : p < operatorsByPriorityTable.length) :
    ReadsLeft t p := by
  intro shapes F R hfo hr
  refine .of_body ?_
  filter_upwards [h, hr] with n hn hrig
  change Reads ((analyzer others n).binaryOperator p) _ _ _
  rw [SyntaxAnalyzer.binaryOperator, if_neg (by omega)]
  exact bind hn hrig hfo

theorem ReadsLeft.tree (h : ReadsLeft t p) (hp : p < operatorsByPriorityTable.length) :
    ReadsTree t p := by
  have hr := h [] (BehindOperand p) (·.IsCopyOf (treeExpression t))
    (fun _ hty => behindOperand_mono (Nat.le_succ p) hty) (rightPart_stops hp)
  rwa [append_nil] at hr

/-- The loop reads the operator and its right operand, and goes on with both. -/
theorem ReadsLeft.node (hl : ReadsLeft l op.priority) (hr : ReadsTree r (op.priority + 1)) :
    ReadsLeft (.node op l r) op.priority := by
  intro shapes F R hfo hright
  obtain ⟨hlt, hlk⟩ := operator_read op
  rw [shapes_node, append_assoc]
  refine hl _ F R (operator_behindOperand op) (eventually_succ ?_)
  filter_upwards [hr, hright] with n hn hrig e he
  refine current fun it hty _ => ?_
  rw [hty, hlk]
  exact nextLexem (bind hn (fun e' he' => hrig _ (congrArg₂ (binaryOperator erasedSrcLoc op) he he')) hfo)

theorem readsTree_leaf (operand : Operand others) (hp : p ≤ operatorsByPriorityTable.length) :
    ReadsTree (.leaf operand) p := by
  have hshapes : OperatorTree.shapes (.leaf operand) = operand.shapes := append_nil _
  rw [ReadsTree, hshapes]
  exact tryParseBinaryOperator_component hp (fun _ hty => hty)
    (operand.reads.mono (fun _ hty => hty.1) fun _ hcp => hcp)

theorem reads_of_grouped (h : t.Grouped BinaryOperatorType.priority) : ∀ p, ReadFrom p t →
    (p ≤ operatorsByPriorityTable.length → ReadsTree t p) ∧
      (p < operatorsByPriorityTable.length → ReadsLeft t p) := by
  induction t with
  | leaf operand =>
    exact fun p _ => ⟨readsTree_leaf operand, fun hp => (readsTree_leaf operand hp).left hp⟩
  | node op l r ihl ihr =>
    obtain ⟨⟨hal, har⟩, hgl, hgr⟩ := h
    obtain ⟨hlt, -⟩ := operator_read op
    -- From the priority of the operator down to the lower ones.
    have hleft : ∀ k p, p + k = op.priority → ReadsLeft (.node op l r) p := by
      intro k
      induction k with
      | zero =>
        rintro p rfl
        exact .node ((ihl hgl _ hal).2 hlt) ((ihr hgr _ har).1 hlt)
      | succ k ih =>
        intro p hpk
        exact ((ih (p + 1) (by omega)).tree (by omega)).left (by omega)
    intro p hp
    have hp' : p ≤ op.priority := hp
    have hl := hleft (op.priority - p) p (by omega)
    exact ⟨fun _ => hl.tree (by omega), fun _ => hl⟩

/-- The expression that is read for a sequence is its only tree that is grouped by the table. -/
theorem binaryOperators_grouped (others : OtherParsers) (first : Operand others)
    (rs : List (BinaryOperatorType × Operand others)) :
    ∃ t : OperatorTree (Operand others) BinaryOperatorType,
      (∀ t' : OperatorTree (Operand others) BinaryOperatorType,
        t'.Grouped BinaryOperatorType.priority ∧ t'.first = first ∧ t'.rest = rs ↔ t' = t) ∧
      MethodReads others (·.parseExpression) (sequenceShapes first rs) (BehindOperand 0)
        (·.IsCopyOf (treeExpression t)) := by
  obtain ⟨t, ht⟩ := OperatorTree.exists_grouped BinaryOperatorType.priority first rs
  obtain ⟨hg, rfl, rfl⟩ := (ht t).2 rfl
  refine ⟨t, ht, (reads_of_grouped hg 0 ?_).1 (Nat.zero_le _)⟩
  cases t with
  | leaf operand => trivial
  | node op l r => exact Nat.zero_le _

def Operand.ofName (hmacros : ∀ text, others.fetchMacro text = none) {name : Text}
    (hname : IsName name) : Operand others where
  shapes := shapesOf (Expression.typeName (.complexName (.nameLookup erasedSrcLoc name))).pieces
  expression := .typeName (.complexName (.nameLookup erasedSrcLoc name))
  reads := (OfOperators.coreReads hmacros (.name (.nameLookup hname)) rfl).component

/-- In `a + a * a` the product is the right operand of the sum. -/
theorem binaryOperators_grouped_product :
    let a : Operand unusedParsers := .ofName (fun _ => rfl) isName_a
    MethodReads unusedParsers (·.parseExpression) (sequenceShapes a [(.add, a), (.mul, a)])
      (BehindOperand 0) (·.IsCopyOf (.binaryOperator erasedSrcLoc .add a.expression
        (.binaryOperator erasedSrcLoc .mul a.expression a.expression))) := by
  intro a
  obtain ⟨t, ht, hreads⟩ := binaryOperators_grouped unusedParsers a [(.add, a), (.mul, a)]
  obtain rfl := (ht (.node .add (.leaf a) (.node .mul (.leaf a) (.leaf a)))).1
    ⟨by simp [OperatorTree.Grouped, OperatorTree.AtLeast]; decide, rfl, rfl⟩
  exact hreads

end USprache.LexSynt
