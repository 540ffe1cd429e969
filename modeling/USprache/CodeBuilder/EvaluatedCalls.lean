import USprache.CodeBuilder.CallArguments

/-!
# Evaluated calls

A call that is evaluated in the compiler gets the constants of the objects that it would get
when executed, but for the argument of an immutable reference parameter that a conversion
constructor makes: its constant is the one before the conversion.
-/

namespace USprache.CodeBuilder.WithArgs.CallArguments

open LexSynt List BuiltArg

/-- What the conversion constructors of a program make of an argument. -/
structure Execution where
  construct : ConversionConstructor → Constant → Constant
  llvmType_construct : ∀ constructor src,
    (construct constructor src).llvmType = .classStruct constructor.class_

namespace Execution

variable (execution : Execution)

def held : LlvmValue → Option Constant
  | .hiddenResult => none
  | .built value => some value
  | .parentPart ref path => (held ref).bind fun value => value.part path
  | .converted constructor src => (held src).map (execution.construct constructor)

/-- The constant of a place is the value of the object at the same place. -/
inductive Entry : Option Constant → Option LlvmValue → Prop
  | hiddenResult : Entry none (some .hiddenResult)
  | object {constant : Constant} {llvmValue : LlvmValue} :
    execution.held llvmValue = some constant → Entry (some constant) (some llvmValue)

/-- The result of a call, by what the body of the function makes of the objects it gets. -/
def result {program : Program} (call : Call program) (body : List Constant → Constant) : Constant :=
  if call.returnsVoid then Call.voidConstant
  else body (call.llvmCallArgs.llvmArgs.filterMap fun llvmArg => llvmArg.bind execution.held)

end Execution

/-- A correct evaluator returns what the body of the function returns. -/
def Evaluates (evaluateConstexpr : List (Option Constant) → ResultConstexpr)
    (body : List Constant → Constant) : Prop :=
  ∀ constants constant, (evaluateConstexpr constants).errors = [] →
    (evaluateConstexpr constants).resultConstant = some constant →
    constant = body (constants.filterMap id)

/-- If a call without errors is evaluated, the evaluator gets the constants of the objects that
the call would get, and the call is replaced with its result. -/
def FoldsFaithfully (execution : Execution) {program : Program} (call : Call program) : Prop :=
  call.llvmCallArgs.errors = [] → call.isEvaluated = true →
    call.llvmCallArgs.llvmArgs.length = call.llvmArgSize ∧
    Forall₂ execution.Entry call.llvmCallArgs.constantLlvmArgs call.llvmCallArgs.llvmArgs ∧
    ∀ evaluateConstexpr body, Evaluates evaluateConstexpr body → ∀ constant,
      (call.doCallFunction evaluateConstexpr).1 = .constant constant →
      constant = execution.result call body

@[simp] theorem Argument.variable_type {program : Program} (arg : Argument program) :
    arg.variable_.type = arg.type := rfl

@[simp] theorem Argument.variable_llvmValue {program : Program} (arg : Argument program) :
    arg.variable_.llvmValue = .built arg.value := rfl

namespace Program

variable {program : Program}

def isAccepted (param : Param) (argument : Argument program) : Bool :=
  program.isPassable argument.variable_ param &&
    match param.valueType with
    | .referenceMut => argument.valueType = .referenceMut
    | .referenceImut => true
    | .value => !argument.hasOutgoingMutableNodes &&
      (isScalar param.type || !program.referenceIsConvertible argument.type param.type ||
        argument.valueType = .value && argument.type = param.type ||
        program.isCopyConstructible param.type && !program.isAbstract param.type)

def givesConstant (param : Param) (argument : Argument program) : Bool :=
  argument.constexprValue.isSome &&
    match param.valueType with
    | .referenceMut => false
    | .referenceImut => true
    | .value => program.referenceIsConvertible argument.type param.type

theorem classIsConvertibleTo_kind {other : Class} :
    ∀ {rank : Nat} {cls : Class}, program.classIsConvertibleTo other rank cls = true →
      cls = other ∨ (program.info other).kind.canBeParent = true := by
  intro rank
  induction rank with
  | zero =>
    intro cls h
    exact .inl (of_decide_eq_true h)
  | succ rank ih =>
    intro cls h
    rw [classIsConvertibleTo, Bool.or_eq_true, decide_eq_true_eq, any_eq_true] at h
    rcases h with h | ⟨p, hpar, h⟩
    · exact .inl h
    · rcases ih h with rfl | hk
      · exact .inr (program.canBeParent cls p hpar)
      · exact .inr hk

variable {type : LangType} {param : Param} {expr : Variable} {other : LangType}

theorem referenceIsConvertible_cases (h : program.referenceIsConvertible type other = true) :
    type = other ∨ ∃ cls otherClass, type = .classType cls ∧ other = .classType otherClass ∧
      program.classIsConvertibleTo otherClass (program.rank cls) cls = true := by
  unfold referenceIsConvertible at h
  rw [Bool.or_eq_true, decide_eq_true_eq] at h
  rcases h with h | h
  · exact .inl h
  · split at h
    · exact .inr ⟨_, _, rfl, rfl, h⟩
    · cases h

theorem eq_of_referenceIsConvertible (ho : program.canBeConstexpr other = true)
    (h : program.referenceIsConvertible type other = true) : type = other := by
  rcases referenceIsConvertible_cases h with heq | ⟨class_, otherClass, rfl, rfl, hcl⟩
  · exact heq
  · rcases classIsConvertibleTo_kind hcl with rfl | hk
    · rfl
    · rw [program.kind_of_constexpr otherClass ho] at hk
      cases hk

theorem referenceIsConvertible_self (type : LangType) :
    program.referenceIsConvertible type type = true := by
  unfold referenceIsConvertible
  rw [decide_eq_true rfl, Bool.true_or]

theorem createReferenceCast_self (ref : LlvmValue) (type : LangType) :
    program.createReferenceCast ref type type = some ref := by
  unfold createReferenceCast
  rw [referenceIsConvertible_self, if_neg (by decide), if_pos rfl]

theorem createReferenceCast_some (ref : LlvmValue)
    (h : program.referenceIsConvertible type other = true) :
    ∃ cast, program.createReferenceCast ref type other = some cast := by
  unfold createReferenceCast
  rw [h, if_neg (by decide)]
  split
  · exact ⟨ref, rfl⟩
  · next hne =>
    rcases referenceIsConvertible_cases h with heq | ⟨cls, otherClass, rfl, rfl, -⟩
    · exact absurd heq hne
    · exact ⟨_, rfl⟩

theorem eq_classType_of_llvmTypeOf {t : TargetPointers} {cls : Class}
    (h : llvmTypeOf t type = .classStruct cls) : type = .classType cls := by
  cases type with
  | classType other =>
    cases h
    rfl
  | fundamental type | enumType parent name type =>
    cases type <;> cases h
  | _ =>
    cases h

theorem exists_constructor (hpsb : program.isPassable expr param = true)
    (hconv : program.referenceIsConvertible expr.type param.type = false) :
    ∃ constructor, param.type = .classType constructor.class_ ∧
      program.convertArg expr param = convertVariable expr param.type constructor := by
  rw [isPassable, hconv] at hpsb
  obtain ⟨constructor, hcon⟩ := program.selected _ _ hpsb
  refine ⟨constructor, program.class_of_selected _ _ _ hcon, ?_⟩
  rw [convertArg, if_neg (by rw [hconv]; exact Bool.false_ne_true), hcon]

theorem convertArg_of_convertible (h : program.referenceIsConvertible expr.type param.type = true) :
    program.convertArg expr param = expr := by
  rw [convertArg, if_pos h]

theorem convertArg_convertible (hpsb : program.isPassable expr param = true) :
    program.referenceIsConvertible (program.convertArg expr param).type param.type = true := by
  cases hconv : program.referenceIsConvertible expr.type param.type with
  | true => rw [convertArg_of_convertible hconv, hconv]
  | false =>
    obtain ⟨constructor, -, hcv⟩ := exists_constructor hpsb hconv
    rw [hcv]
    exact referenceIsConvertible_self param.type

theorem buildReferenceArg_mut_errors (arg : Argument program)
    (hp : param.valueType = .referenceMut) :
    (program.buildReferenceArg param arg.variable_).errors = [] ↔ isAccepted param arg = true := by
  unfold buildReferenceArg isAccepted
  rw [hp]
  cases hpsb : program.isPassable arg.variable_ param with
  | false => simp [failed]
  | true =>
    by_cases hmut : arg.valueType = .referenceMut
    · simp [Argument.variable_, hmut]
    · simp [Argument.variable_, hmut, failed]

theorem buildReferenceArg_mut_constant (expr : Variable) (hp : param.valueType = .referenceMut) :
    (program.buildReferenceArg param expr).constant = none := by
  unfold buildReferenceArg
  split
  · rfl
  · split <;> rfl

theorem buildReferenceArg_imut_errors (arg : Argument program)
    (hp : param.valueType = .referenceImut) :
    (program.buildReferenceArg param arg.variable_).errors = [] ↔ isAccepted param arg = true := by
  unfold buildReferenceArg isAccepted
  rw [hp]
  cases program.isPassable arg.variable_ param with
  | false => simp [failed]
  | true => simp

theorem buildReferenceArg_imut
    (hp : param.valueType = .referenceImut) (hpsb : program.isPassable expr param = true) :
    program.buildReferenceArg param expr =
      ⟨if program.referenceIsConvertible expr.type param.type
        then program.createReferenceCast expr.llvmValue expr.type param.type
        else some (program.convertArg expr param).llvmValue, expr.constexprValue, []⟩ := by
  unfold buildReferenceArg
  rw [hpsb, hp]
  simp

theorem buildValueArg_converted (hpsb : program.isPassable expr param = true)
    (hconv : program.referenceIsConvertible expr.type param.type = false) :
    ∃ llvmV, program.buildValueArg param expr = ⟨some llvmV, none,
      if expr.hasOutgoingMutableNodes then [.referenceProtectionError] else []⟩ := by
  obtain ⟨constructor, hty, hcv⟩ := exists_constructor hpsb hconv
  refine ⟨.converted constructor expr.llvmValue, ?_⟩
  unfold buildValueArg
  rw [hpsb, hcv]
  simp [convertVariable]

theorem buildValueArg_compatible
    (hconv : program.referenceIsConvertible expr.type param.type = true) :
    (program.buildValueArg param expr).constant = expr.constexprValue ∧
      ((program.buildValueArg param expr).errors = [] →
        (program.buildValueArg param expr).llvmValue = if isScalar param.type = true ∨
          expr.valueType = .value ∧ expr.type = param.type then some expr.llvmValue
          else program.createReferenceCast expr.llvmValue expr.type param.type) ∧
      ((program.buildValueArg param expr).errors = [] ↔
        expr.hasOutgoingMutableNodes = false ∧ (isScalar param.type = true ∨
          (expr.valueType = .value ∧ expr.type = param.type) ∨
          program.isCopyConstructible param.type = true ∧ program.isAbstract param.type = false)) := by
  have hpsb : program.isPassable expr param = true := by
    rw [isPassable, hconv, Bool.true_or]
  unfold buildValueArg
  rw [hpsb, convertArg_of_convertible hconv]
  by_cases hsc : isScalar param.type = true
  · simp [hsc]
  · by_cases hmvd : expr.valueType = .value ∧ expr.type = param.type
    · simp [hmvd]
    · cases hcp : program.isCopyConstructible param.type with
      | false => simp [hsc, hmvd]
      | true =>
        cases habs : program.isAbstract param.type with
        | true | false => simp [hsc, hmvd]

theorem buildArg_errors (param : Param) (arg : Argument program) :
    (program.buildArg param arg.variable_).errors = [] ↔ isAccepted param arg = true := by
  unfold buildArg
  cases hv : param.valueType with
  | referenceMut => exact buildReferenceArg_mut_errors arg hv
  | referenceImut => exact buildReferenceArg_imut_errors arg hv
  | value =>
    show (program.buildValueArg param arg.variable_).errors = [] ↔ _
    unfold isAccepted
    rw [hv]
    cases hpsb : program.isPassable arg.variable_ param with
    | false =>
      unfold buildValueArg
      simp [hpsb, failed]
    | true =>
      cases hconv : program.referenceIsConvertible arg.type param.type with
      | false =>
        obtain ⟨llvmValue, hbt⟩ := buildValueArg_converted hpsb hconv
        rw [hbt]
        cases hmut : arg.hasOutgoingMutableNodes <;> simp [Argument.variable_, hmut]
      | true =>
        rw [(buildValueArg_compatible hconv).2.2]
        simp [Argument.variable_, or_assoc]

theorem buildArg_constant {arg : Argument program} (h : isAccepted param arg = true) :
    (program.buildArg param arg.variable_).constant.isSome = givesConstant param arg := by
  have hpsb : program.isPassable arg.variable_ param = true := by
    exact (Bool.and_eq_true_iff.1 h).1
  unfold buildArg givesConstant
  cases hv : param.valueType with
  | referenceMut =>
    show (program.buildReferenceArg param arg.variable_).constant.isSome = _
    rw [buildReferenceArg_mut_constant _ hv, Bool.and_false]
    rfl
  | referenceImut =>
    show (program.buildReferenceArg param arg.variable_).constant.isSome = _
    rw [buildReferenceArg_imut hv hpsb, Bool.and_true]
    rfl
  | value =>
    show (program.buildValueArg param arg.variable_).constant.isSome = _
    cases hconv : program.referenceIsConvertible arg.type param.type with
    | false =>
      obtain ⟨llvmValue, hbt⟩ := buildValueArg_converted hpsb hconv
      rw [hbt, Bool.and_false]
      rfl
    | true =>
      rw [(buildValueArg_compatible hconv).1, Bool.and_true]
      rfl

theorem held_converted_ne (execution : Execution) (arg : Argument program)
    {constructor : ConversionConstructor} (hty : param.type = .classType constructor.class_)
    (hconv : program.referenceIsConvertible arg.type param.type = false) :
    execution.held (.converted constructor (.built arg.value)) ≠ some arg.value := by
  intro h
  have hv : execution.construct constructor arg.value = arg.value := Option.some.inj h
  have hllvm : llvmTypeOf program.target arg.type = .classStruct constructor.class_ := by
    rw [← arg.llvmType_value, ← hv]
    exact execution.llvmType_construct constructor arg.value
  rw [eq_classType_of_llvmTypeOf hllvm, ← hty, referenceIsConvertible_self] at hconv
  cases hconv

/-- The constant is the value of the object, unless the object is made by a conversion. -/
theorem buildArg_entry (execution : Execution) {arg : Argument program}
    (hcx : program.canBeConstexpr param.type = true)
    (hacc : isAccepted param arg = true) (hgiv : givesConstant param arg = true) :
    ∃ cst llvmV, (program.buildArg param arg.variable_).constant = some cst ∧
      (program.buildArg param arg.variable_).llvmValue = some llvmV ∧
      (execution.held llvmV = some cst ↔ (param.valueType = .referenceImut →
        program.referenceIsConvertible arg.type param.type = true)) := by
  have herrs := (buildArg_errors param arg).2 hacc
  have hpsb : program.isPassable arg.variable_ param = true := by
    exact (Bool.and_eq_true_iff.1 hacc).1
  obtain ⟨hsm, hk⟩ := Bool.and_eq_true_iff.1 hgiv
  obtain ⟨cst, hc⟩ := Option.isSome_iff_exists.1 hsm
  have hv := arg.value_of_constexpr cst hc
  unfold buildArg at herrs ⊢
  cases href : param.valueType with
  | referenceMut =>
    rw [href] at hk
    cases hk
  | referenceImut =>
    rw [buildReferenceArg_imut href hpsb]
    cases hconv : program.referenceIsConvertible arg.type param.type with
    | true =>
      have hty := eq_of_referenceIsConvertible hcx hconv
      refine ⟨cst, .built arg.value, hc, ?_, ?_⟩
      · show ite _ _ _ = _
        rw [arg.variable_type, if_pos hconv, hty, createReferenceCast_self, arg.variable_llvmValue]
      · rw [Execution.held, hv]
        simp
    | false =>
      obtain ⟨constructor, hty, hcv⟩ := exists_constructor hpsb hconv
      have hne := held_converted_ne execution arg hty hconv
      refine ⟨cst, .converted constructor arg.variable_.llvmValue, hc, ?_, ?_⟩
      · show ite _ _ _ = _
        rw [arg.variable_type, hconv, hcv]
        rfl
      rw [← hv]
      constructor
      · intro h
        exact absurd h hne
      · intro h
        exact absurd (h rfl) Bool.false_ne_true
  | value =>
    rw [href] at hk herrs
    rw [if_neg (by decide)] at herrs ⊢
    have hconv : program.referenceIsConvertible arg.type param.type = true := hk
    have hty := eq_of_referenceIsConvertible hcx hconv
    rw [← arg.variable_type] at hconv
    obtain ⟨hpus, hbt, -⟩ := buildValueArg_compatible hconv
    refine ⟨cst, .built arg.value, hpus.trans hc, ?_, ?_⟩
    · rw [hbt herrs, arg.variable_type, hty, createReferenceCast_self, ite_self,
        arg.variable_llvmValue]
    · rw [Execution.held, hv]
      simp

end Program

namespace Call

variable {program : Program} (call : Call program)

def pairs : List (Param × Argument program) := call.functionType.params.zip call.exprs

def builtArgs : List BuiltArg := call.pairs.map fun pair => program.buildArg pair.1 pair.2.variable_

theorem length_exprs : call.exprs.length = call.functionType.params.length := call.length_args

theorem length_pairs : call.pairs.length = call.functionType.params.length := by
  rw [pairs, length_zip, call.length_exprs, Nat.min_self]

theorem length_builtArgs : call.builtArgs.length = call.functionType.params.length := by
  rw [builtArgs, length_map, call.length_pairs]

theorem addArg_eq (st : ArgsState) (n : Nat) :
    call.addArg st n = (call.builtArgs[n]?.map (st.add n)).getD st := by
  unfold addArg builtArgs pairs
  rw [getElem?_map, zip, getElem?_zipWith]
  cases call.functionType.params[n]? with
  | none => rfl
  | some param => cases call.exprs[n]? <;> rfl

variable (ns : List Nat)

theorem foldl_addArg_constants (st : ArgsState) :
    (ns.foldl call.addArg st).constantLlvmArgs = st.constantLlvmArgs ++
      ns.flatMap fun n => (call.builtArgs[n]?.bind constant).toList.map some := by
  induction ns generalizing st with
  | nil => rw [foldl_nil, flatMap_nil, append_nil]
  | cons n ns ih =>
    rw [foldl_cons, ih, flatMap_cons, ← append_assoc, addArg_eq]
    cases call.builtArgs[n]? with
    | none => simp
    | some arg => rfl

theorem foldl_addArg_errors (st : ArgsState) :
    (ns.foldl call.addArg st).errors = st.errors ++
      ns.flatMap fun n => (call.builtArgs[n]?.map errors).getD [] := by
  induction ns generalizing st with
  | nil => rw [foldl_nil, flatMap_nil, append_nil]
  | cons n ns ih =>
    rw [foldl_cons, ih, flatMap_cons, ← append_assoc, addArg_eq]
    cases call.builtArgs[n]? with
    | none => simp
    | some arg => rfl

theorem getElem?_addArg (state : ArgsState) (n i : Nat) : (call.addArg state n).llvmArgs[i]? =
    if i = n then state.llvmArgs[i]?.map fun old =>
      (call.builtArgs[i]?.bind llvmValue).or old
    else state.llvmArgs[i]? := by
  rw [addArg_eq]
  cases hbt : call.builtArgs[n]? with
  | none =>
    by_cases hn : i = n
    · subst hn
      simp [hbt]
    · simp [hn]
  | some arg =>
    show (state.add n arg).llvmArgs[i]? = _
    unfold ArgsState.add
    by_cases hn : i = n
    · subst hn
      rw [hbt]
      cases hv : arg.llvmValue with
      | none => simp [hv]
      | some llvmValue =>
        rw [getElem?_set_self']
        simp [hv, Function.const_def]
    · rw [if_neg hn]
      cases arg.llvmValue with
      | none => rfl
      | some llvmValue => exact getElem?_set_ne (Ne.symm hn)

theorem getElem?_foldl_addArg (st : ArgsState) (i : Nat) :
    (ns.foldl call.addArg st).llvmArgs[i]? =
      if i ∈ ns then st.llvmArgs[i]?.map fun old =>
        (call.builtArgs[i]?.bind llvmValue).or old
      else st.llvmArgs[i]? := by
  induction ns generalizing st with
  | nil => simp
  | cons n ns ih =>
    rw [foldl_cons, ih, getElem?_addArg]
    by_cases hn : i = n
    · subst hn
      cases st.llvmArgs[i]? with
      | none => simp
      | some old => cases call.builtArgs[i]?.bind llvmValue <;> simp
    · simp [hn]

theorem argNumbers_perm : call.argNumbers.Perm (List.range call.builtArgs.length) := by
  rw [call.length_builtArgs, ← call.length_exprs, argNumbers]
  split
  · exact reverse_perm _
  · exact .rfl

theorem mem_argNumbers {i : Nat} : i ∈ call.argNumbers ↔ i < call.builtArgs.length := by
  rw [call.argNumbers_perm.mem_iff, mem_range]

theorem buildArgs_llvmArgs : call.buildArgs.llvmArgs = call.builtArgs.map llvmValue := by
  apply ext_getElem?
  intro i
  rw [buildArgs, getElem?_foldl_addArg, getElem?_map]
  by_cases hi : i < call.builtArgs.length
  · have hexprs : i < call.exprs.length := by
      rw [call.length_exprs, ← call.length_builtArgs]
      exact hi
    rw [if_pos (call.mem_argNumbers.2 hi), getElem?_replicate, if_pos hexprs,
      getElem?_eq_getElem hi]
    simp
  · have hexprs : ¬ i < call.exprs.length := by
      rw [call.length_exprs, ← call.length_builtArgs]
      exact hi
    rw [if_neg fun hmem => hi (call.mem_argNumbers.1 hmem), getElem?_replicate,
      if_neg hexprs, getElem?_eq_none (Nat.le_of_not_lt hi)]
    rfl

theorem map_getElem?_range {α : Type} (l : List α) :
    (List.range l.length).map (fun i => l[i]?) = l.map some := by
  apply ext_getElem?
  intro i
  by_cases hi : i < l.length
  · simp [hi]
  · simp [hi]

theorem flatMap_argNumbers_perm {α : Type} (f : Option BuiltArg → List α) :
    (call.argNumbers.flatMap fun n => f call.builtArgs[n]?).Perm
      (call.builtArgs.flatMap fun arg => f (some arg)) := by
  have hpm := call.argNumbers_perm.flatMap_right fun n => f call.builtArgs[n]?
  have heq : ((range call.builtArgs.length).flatMap fun n => f call.builtArgs[n]?) =
      ((range call.builtArgs.length).map fun n => call.builtArgs[n]?).flatMap f := by
    rw [flatMap_map]
  rw [heq, map_getElem?_range, flatMap_map] at hpm
  exact hpm

theorem flatMap_argNumbers_of_forward {α : Type} (f : Option BuiltArg → List α)
    (h : call.evaluateArgsInReverseOrder = false) :
    (call.argNumbers.flatMap fun n => f call.builtArgs[n]?) =
      call.builtArgs.flatMap fun arg => f (some arg) := by
  have hmap : call.argNumbers.map (fun n => call.builtArgs[n]?) = call.builtArgs.map some := by
    rw [argNumbers, h, if_neg Bool.false_ne_true, call.length_exprs, ← call.length_builtArgs,
      map_getElem?_range]
  rw [← flatMap_map, hmap, flatMap_map]

theorem llvmCallArgs_errors : call.llvmCallArgs.errors = call.buildArgs.errors := by
  unfold llvmCallArgs
  split <;> rfl

theorem llvmCallArgs_eq : call.llvmCallArgs =
    if call.returnsByPointer then
      { call.buildArgs with
        llvmArgs := some .hiddenResult :: call.buildArgs.llvmArgs
        constantLlvmArgs := none :: call.buildArgs.constantLlvmArgs }
    else call.buildArgs := by
  unfold llvmCallArgs
  cases hptr : call.returnsByPointer with
  | false => rw [Bool.and_false]
  | true => rw [call.composite_of_byPointer hptr, Bool.and_true]

theorem errors_eq_nil_iff : call.llvmCallArgs.errors = [] ↔
    call.startErrors = [] ∧ ∀ p ∈ call.pairs, Program.isAccepted p.1 p.2 = true := by
  rw [call.llvmCallArgs_errors, buildArgs, foldl_addArg_errors, append_eq_nil_iff,
    ← length_eq_zero_iff (l := flatMap _ _),
    (call.flatMap_argNumbers_perm fun arg => (arg.map errors).getD []).length_eq,
    length_eq_zero_iff, flatMap_eq_nil_iff, builtArgs, forall_mem_map]
  simp only [Option.map_some, Option.getD_some, Program.buildArg_errors]

theorem length_constantLlvmArgs : call.buildArgs.constantLlvmArgs.length =
    call.builtArgs.countP fun arg => arg.constant.isSome := by
  rw [buildArgs, foldl_addArg_constants, nil_append, (call.flatMap_argNumbers_perm fun arg =>
      (arg.bind constant).toList.map some).length_eq]
  induction call.builtArgs with
  | nil => rfl
  | cons arg args ih =>
    rw [flatMap_cons, length_append, ih]
    cases hc : arg.constant with
    | none => simp [hc]
    | some constant => simp [hc, Nat.add_comm]

theorem length_eq_llvmArgSize_iff : call.llvmCallArgs.constantLlvmArgs.length = call.llvmArgSize ↔
    ∀ arg ∈ call.builtArgs, arg.constant.isSome = true := by
  have hc : call.llvmCallArgs.constantLlvmArgs.length = call.llvmArgSize ↔
      call.buildArgs.constantLlvmArgs.length = call.builtArgs.length := by
    rw [call.llvmCallArgs_eq, llvmArgSize, call.length_builtArgs]
    cases call.returnsByPointer with
    | false => rfl
    | true => exact Nat.add_right_cancel_iff
  rw [hc, call.length_constantLlvmArgs, countP_eq_length]

theorem length_llvmArgs : call.llvmCallArgs.llvmArgs.length = call.llvmArgSize := by
  rw [call.llvmCallArgs_eq, llvmArgSize]
  cases call.returnsByPointer with
  | false =>
    rw [if_neg Bool.false_ne_true, call.buildArgs_llvmArgs, length_map, call.length_builtArgs]
    rfl
  | true =>
    rw [if_pos rfl, length_cons, call.buildArgs_llvmArgs, length_map, call.length_builtArgs]
    rfl

/-- The call is built without an error, and each argument gives a constant. -/
def isFolded : Bool :=
  !(call.functionType.isUnsafe && !call.isInUnsafeBlock) && call.funcIsConstexpr &&
    call.isRealFunction && call.functionType.returned.valueType == .value &&
    program.referenceTagCount call.functionType.returned.type == 0 &&
    call.pairs.all fun pair =>
      Program.isAccepted pair.1 pair.2 && Program.givesConstant pair.1 pair.2

theorem startErrors_eq_nil_iff : call.startErrors = [] ↔
    (!(call.functionType.isUnsafe && !call.isInUnsafeBlock)) = true := by
  unfold startErrors
  split
  · rename_i h
    simp [h]
  · rename_i h
    simp [h]

theorem isFolded_iff : call.isFolded = true ↔
    call.llvmCallArgs.errors = [] ∧ call.isEvaluated = true := by
  have hcon : (∀ p ∈ call.pairs, Program.isAccepted p.1 p.2 = true) →
      ((∀ arg ∈ call.builtArgs, arg.constant.isSome = true) ↔
        ∀ p ∈ call.pairs, Program.givesConstant p.1 p.2 = true) := by
    intro hacc
    rw [builtArgs, forall_mem_map]
    exact forall₂_congr fun p hpr => by
      rw [Program.buildArg_constant (hacc p hpr)]
  rw [errors_eq_nil_iff, startErrors_eq_nil_iff, isFolded, isEvaluated]
  simp only [Bool.and_eq_true, beq_iff_eq, call.length_eq_llvmArgSize_iff, all_eq_true]
  constructor
  · rintro ⟨⟨⟨⟨⟨hsafe, hcx⟩, hreal⟩, hv⟩, htags⟩, hprs⟩
    have hacc := fun p hpr => (hprs p hpr).1
    exact ⟨⟨hsafe, hacc⟩, ⟨⟨⟨hcx, hreal⟩, (hcon hacc).2 fun p hpr => (hprs p hpr).2⟩, hv⟩, htags⟩
  · rintro ⟨⟨hsafe, hacc⟩, ⟨⟨⟨hcx, hreal⟩, hsm⟩, hv⟩, htags⟩
    exact ⟨⟨⟨⟨⟨hsafe, hcx⟩, hreal⟩, hv⟩, htags⟩, fun p hpr =>
      ⟨hacc p hpr, (hcon hacc).1 hsm p hpr⟩⟩

theorem forward_of_isFolded (h : call.isFolded = true) :
    call.evaluateArgsInReverseOrder = false := by
  cases hrev : call.evaluateArgsInReverseOrder with
  | false => rfl
  | true =>
    obtain ⟨type, params, hps⟩ := call.first_param_of_reverse hrev
    have hlen := call.length_exprs
    rw [hps] at hlen
    obtain ⟨expr, exprs, hexprs⟩ := exists_cons_of_length_eq_add_one hlen
    have hmem : ((⟨type, .referenceMut⟩ : Param), expr) ∈ call.pairs := by
      rw [pairs, hps, hexprs]
      exact mem_cons_self
    rw [isFolded, Bool.and_eq_true, all_eq_true] at h
    have hgiv := (Bool.and_eq_true_iff.1 (h.2 _ hmem)).2
    unfold Program.givesConstant at hgiv
    rw [Bool.and_false] at hgiv
    cases hgiv

theorem constantLlvmArgs_of_isFolded (h : call.isFolded = true) :
    call.buildArgs.constantLlvmArgs = call.builtArgs.map constant := by
  have hsm := call.length_eq_llvmArgSize_iff.1 (by
    have hev := (call.isFolded_iff.1 h).2
    rw [isEvaluated] at hev
    simp only [Bool.and_eq_true, beq_iff_eq] at hev
    exact hev.1.1.2)
  rw [buildArgs, foldl_addArg_constants, nil_append,
    call.flatMap_argNumbers_of_forward (fun arg => (arg.bind constant).toList.map some)
      (call.forward_of_isFolded h)]
  generalize call.builtArgs = args at hsm
  induction args with
  | nil => rfl
  | cons arg args ih =>
    obtain ⟨constant, hc⟩ := Option.isSome_iff_exists.1 (hsm arg mem_cons_self)
    rw [flatMap_cons, ih fun other ho => hsm other (mem_cons_of_mem _ ho)]
    simp [hc]

theorem entries_iff (execution : Execution) (h : call.isFolded = true) :
    Forall₂ execution.Entry call.llvmCallArgs.constantLlvmArgs call.llvmCallArgs.llvmArgs ↔
      ∀ pair ∈ call.pairs, pair.1.valueType = .referenceImut →
        program.referenceIsConvertible pair.2.type pair.1.type = true := by
  have hhid : Forall₂ execution.Entry call.llvmCallArgs.constantLlvmArgs
        call.llvmCallArgs.llvmArgs ↔
      Forall₂ execution.Entry call.buildArgs.constantLlvmArgs call.buildArgs.llvmArgs := by
    rw [call.llvmCallArgs_eq]
    cases call.returnsByPointer with
    | false => rfl
    | true =>
      show Forall₂ execution.Entry (none :: _) (some LlvmValue.hiddenResult :: _) ↔ _
      rw [forall₂_cons]
      exact and_iff_right .hiddenResult
  rw [hhid, call.constantLlvmArgs_of_isFolded h, call.buildArgs_llvmArgs,
    forall₂_map_left_iff, forall₂_map_right_iff, forall₂_same, builtArgs,
    forall_mem_map]
  apply forall₂_congr
  intro pair hpr
  rw [isFolded] at h
  simp only [Bool.and_eq_true, all_eq_true] at h
  obtain ⟨⟨⟨⟨⟨-, hcx⟩, -⟩, -⟩, -⟩, hprs⟩ := h
  have hp : program.canBeConstexpr pair.1.type = true :=
    call.params_of_constexpr hcx pair.1 (of_mem_zip hpr).1
  obtain ⟨constant, llvmValue, hc, hv, hheld⟩ :=
    Program.buildArg_entry execution hp (hprs pair hpr).1 (hprs pair hpr).2
  rw [hc, hv, ← hheld]
  constructor
  · intro he
    cases he with
    | object hob => exact hob
  · exact .object

end Call

namespace Execution

theorem filterMap_of_entries {execution : Execution} {csts : List (Option Constant)}
    {llvmAs : List (Option LlvmValue)} (h : Forall₂ execution.Entry csts llvmAs) :
    csts.filterMap id = llvmAs.filterMap fun llvmA => llvmA.bind execution.held := by
  induction h with
  | nil => rfl
  | cons he hrs ih =>
    cases he with
    | hiddenResult => exact ih
    | object hheld =>
      rw [filterMap_cons_some (b := _) (by rfl), ih, filterMap_cons_some (b := _) (by exact hheld)]

end Execution

theorem Call.constant_eq {program : Program} (call : Call program) (execution : Execution)
    (hev : call.isEvaluated = true)
    (hes : Forall₂ execution.Entry call.llvmCallArgs.constantLlvmArgs call.llvmCallArgs.llvmArgs)
    {evaluateConstexpr : List (Option Constant) → ResultConstexpr}
    {body : List Constant → Constant} (hbody : Evaluates evaluateConstexpr body)
    {cst : Constant} (h : (call.doCallFunction evaluateConstexpr).1 = .constant cst) :
    cst = execution.result call body := by
  unfold Call.doCallFunction at h
  simp only [hev, if_true] at h
  split at h
  · rename_i herrs
    split at h
    · rename_i value hv
      have heq := CallResult.constant.inj h
      have hv' := hbody _ value (isEmpty_iff.1 herrs) hv
      rw [← heq, Execution.result, hv', Execution.filterMap_of_entries hes]
    · cases h
  · cases h

/-- The constants are wrong exactly where a call is evaluated with an argument that a conversion
constructor makes for a parameter of an immutable reference. -/
theorem foldsFaithfully_iff {program : Program} (execution : Execution) (call : Call program) :
    FoldsFaithfully execution call ↔ (call.isFolded = true →
      ∀ pair ∈ call.pairs, pair.1.valueType = .referenceImut →
        program.referenceIsConvertible pair.2.type pair.1.type = true) := by
  constructor
  · intro h hfolded
    obtain ⟨herrors, hevaluated⟩ := call.isFolded_iff.1 hfolded
    exact (call.entries_iff execution hfolded).1 (h herrors hevaluated).2.1
  · intro h herrors hevaluated
    have hfolded := call.isFolded_iff.2 ⟨herrors, hevaluated⟩
    have hentries := (call.entries_iff execution hfolded).2 (h hfolded)
    exact ⟨call.length_llvmArgs, hentries, fun evaluateConstexpr body hbody constant hconstant =>
      call.constant_eq execution hevaluated hentries hbody hconstant⟩

/-- `struct Doubled{ i32 x; fn conversion_constructor( i32 in_x ) ( x= in_x * 2 ){} }` -/
def doubled : Class := .declared .root (asciiText "Doubled")

def i32 : LangType := .fundamental .i32_

def doubledProgram : Program where
  target := .bits64
  info _ := ⟨.struct_, [], true, true, 0⟩
  hasConversionConstructor src dst := decide (src.type = i32 ∧ dst = .classType doubled)
  getConversionConstructor src dst :=
    if src.type = i32 ∧ dst = .classType doubled then some ⟨doubled, 0⟩ else none
  rank _ := 0
  rank_parent _ parent hparent := nomatch hparent
  canBeParent _ parent hparent := nomatch hparent
  kind_of_constexpr _ _ := rfl
  selected _ _ h := ⟨⟨doubled, 0⟩, if_pos (of_decide_eq_true h)⟩
  class_of_selected src dst constructor h := by
    split at h
    · rename_i hsrc
      cases h
      exact hsrc.2
    · cases h

def doubledExecution : Execution where
  construct constructor
    | .scalar _ bits =>
      .aggregate (.classStruct constructor.class_) [.scalar (.integer 32) (bits * 2)]
    | .aggregate .. => .aggregate (.classStruct constructor.class_) []
  llvmType_construct _ src := by cases src <;> rfl

/-- `Get( 21 )` of `fn constexpr Get( Doubled& d ) : i32 { return d.x; }`. -/
def getCall : Call doubledProgram where
  functionType := ⟨[⟨.classType doubled, .referenceImut⟩], ⟨i32, .value⟩, false⟩
  isRealFunction := true
  returnsByPointer := false
  preevaluatedArgs := []
  args := [{
    type := i32
    valueType := .value
    constexprValue := some (.scalar (.integer 32) 21)
    hasOutgoingMutableNodes := false
    value := .scalar (.integer 32) 21
    llvmType_value := rfl
    value_of_constexpr := fun _ h => Option.some.inj h }]
  evaluateArgsInReverseOrder := false
  isInUnsafeBlock := false
  funcIsConstexpr := true
  length_args := rfl
  first_param_of_reverse h := nomatch h
  params_of_constexpr _ param hparam := by
    rw [mem_singleton.1 hparam]
    rfl
  composite_of_byPointer h := nomatch h

/-- The evaluator gets the number 21 for an object with the number 42 in it. -/
theorem not_foldsFaithfully_converted : ¬ FoldsFaithfully doubledExecution getCall := by
  intro h
  have herrors : getCall.llvmCallArgs.errors = [] := isEmpty_iff.1 (by decide +kernel)
  have hevaluated : getCall.isEvaluated = true := by decide +kernel
  have hconvertible := (getCall.entries_iff doubledExecution
    (getCall.isFolded_iff.2 ⟨herrors, hevaluated⟩)).1 (h herrors hevaluated).2.1
  have hnot : getCall.pairs.all (fun pair =>
      doubledProgram.referenceIsConvertible pair.2.type pair.1.type) = false := by decide +kernel
  have hall : getCall.pairs.all (fun pair =>
      doubledProgram.referenceIsConvertible pair.2.type pair.1.type) = true := by
    rw [all_eq_true]
    intro pair hpair
    apply hconvertible pair hpair
    rw [mem_singleton.1 hpair]
  rw [hnot] at hall
  cases hall

/-- `Get( Doubled( 21 ) )`, with a constant of the parameter's type. -/
def getDoubledCall : Call doubledProgram := { getCall with
  args := [{
    type := .classType doubled
    valueType := .value
    constexprValue := some (.aggregate (.classStruct doubled) [.scalar (.integer 32) 42])
    hasOutgoingMutableNodes := false
    value := .aggregate (.classStruct doubled) [.scalar (.integer 32) 42]
    llvmType_value := rfl
    value_of_constexpr := fun _ h => Option.some.inj h }] }

theorem foldsFaithfully_getDoubledCall :
    getDoubledCall.isFolded = true ∧ FoldsFaithfully doubledExecution getDoubledCall := by
  refine ⟨by decide +kernel, (foldsFaithfully_iff _ _).2 fun _ pair hpair _ => ?_⟩
  rw [mem_singleton.1 hpair]
  exact Program.referenceIsConvertible_self _

end USprache.CodeBuilder.WithArgs.CallArguments
