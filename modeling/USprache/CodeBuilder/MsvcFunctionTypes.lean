import USprache.CodeBuilder.MsvcTemplateNames

/-!
# Reading function types

Behind the return type a function type has its params, each with respect to the params before
it, then the marks of its notation.  Without any of these there is a single "void", which has
no terminator.
-/

namespace USprache.CodeBuilder.WithArgs.ManglerMsvc

open LexSynt Library Msvc List Option

variable {modifier : String} {Valid : Head → Prop}

def paramType : FunctionParam → LangType
  | .mk type _ => type

/-! ## References -/

def modifierText (modifier : String) : ValueType → Text
  | .value => []
  | .referenceMut => asciiText "A" ++ (asciiText modifier ++ asciiText "A")
  | .referenceImut => asciiText "A" ++ (asciiText modifier ++ asciiText "B")

theorem callNames_encodeReferenceModifier (kind : ValueType) :
    callNames (encodeReferenceModifier modifier kind) = [] := by
  cases kind <;> rfl

variable (ns : List Text)

theorem emit_encodeReferenceModifier (kind : ValueType) :
    emit ns (encodeReferenceModifier modifier kind) = modifierText modifier kind := by
  cases kind with
  | value => rfl
  | referenceMut | referenceImut => exact congrArg _ (congrArg _ (append_nil _))

variable {r r' : Text}

/-- The modifier of a reference, before something that does not start with its first byte. -/
theorem modifierText_decodes {kind kind' : ValueType}
    (hrs : ¬StartsWith 'A' r) (hrs' : ¬StartsWith 'A' r')
    (heq : modifierText modifier kind ++ r = modifierText modifier kind' ++ r') :
    kind = kind' ∧ r = r' := by
  have hst : ∀ {kind : ValueType} {r : Text}, kind ≠ .value →
      StartsWith 'A' (modifierText modifier kind ++ r) := by
    intro kind r href
    cases kind with
    | value => exact absurd rfl href
    | referenceMut => rfl
    | referenceImut => rfl
  by_cases hv : kind = .value
  · by_cases hv' : kind' = .value
    · subst hv hv'
      exact ⟨rfl, heq⟩
    · subst hv
      rw [modifierText, nil_append] at heq
      exact absurd (heq ▸ hst hv') hrs
  · by_cases hv' : kind' = .value
    · subst hv'
      rw [modifierText, nil_append] at heq
      exact absurd (heq ▸ hst hv) hrs'
    · -- Two references of different kinds differ behind the common part.
      have hne : asciiText "A" ++ r ≠ asciiText "B" ++ r' := fun h =>
        absurd (cons.inj h).1 (by decide)
      have hne' : asciiText "B" ++ r ≠ asciiText "A" ++ r' := fun h =>
        absurd (cons.inj h).1 (by decide)
      cases kind <;> cases kind' <;> simp only [modifierText, append_assoc,
        append_cancel_left_eq, not_true_eq_false] at heq hv hv'
      · exact ⟨rfl, heq⟩
      · exact absurd heq hne
      · exact absurd heq hne'
      · exact ⟨rfl, heq⟩

theorem emit_encodeWholeParam (t : LangType) (kind : ValueType) :
    emit ns (encodeWholeParam modifier (.mk t kind)) =
      modifierText modifier kind ++ emit ns (encodeHead modifier (.type t)) := by
  rw [encodeWholeParam, emit_append, emit_encodeReferenceModifier,
    tableAfter_of_callNames_nil (callNames_encodeReferenceModifier kind)]
  rfl

theorem fits_encodeWholeParam {ns : List Text} {t : LangType} {kind : ValueType}
    (h : Fits ns (encodeWholeParam modifier (.mk t kind))) :
    Fits ns (encodeHead modifier (.type t)) := by
  have hty := h.append.2
  rwa [tableAfter_of_callNames_nil (callNames_encodeReferenceModifier kind)] at hty

variable (hrd : Readable modifier Valid)

include hrd

theorem wholeParam_reads :
    Reads (encodeWholeParam modifier) (fun param => Valid (.type (paramType param)))
      (fun _ => True) := by
  rintro names hlen ⟨t, valueType⟩ ⟨type', valueType'⟩ r r' ⟨hok, hfit⟩ ⟨hok', hfit'⟩ _ _ heq
  simp only [emit_encodeWholeParam, append_assoc] at heq
  have hst : ∀ t r, ¬StartsWith 'A' (emit names (encodeHead modifier (.type t)) ++ r) :=
    fun t r => head_not_startsWith modifier names _ r (by decide)
  obtain ⟨rfl, hty⟩ := modifierText_decodes (hst _ _) (hst _ _) heq
  obtain ⟨hhd, hrs⟩ := hrd.reads names hlen ⟨hok, fits_encodeWholeParam hfit⟩
    ⟨hok', fits_encodeWholeParam hfit'⟩ trivial trivial hty
  cases hhd
  exact ⟨rfl, hrs⟩

theorem mark_reads :
    Reads encodeMark (fun mark => Valid (.mark mark)) (fun _ => True) := by
  intro ns hlen mark mark' r r' h h' _ _ heq
  have hread : Head.mark mark = .mark mark' ∧ r = r' := hrd.reads ns hlen h h' trivial trivial heq
  exact ⟨Head.mark.inj hread.1, hread.2⟩

omit hrd in
theorem mark_start (mark : Mark) (r : Text) :
    StartsWith 'U' (emit ns (encodeMark mark) ++ r) := by
  cases mark <;> rfl

theorem marks_reads :
    Reads (flatMap encodeMark) (fun marks => ∀ mark ∈ marks, Valid (.mark mark)) (StartsWith '@') :=
  (mark_reads hrd).list (StartsWith '@') (fun ns mark r _ _ => ⟨trivial, fun hsto => by
    rw [StartsWith, mark_start ns mark r] at hsto
    exact absurd (some.inj hsto) (by decide)⟩) (fun _ _ => trivial)

/-! ## Params -/

def paramLeads : Text := asciiText "A0123456789" ++ typeLeads

omit hrd in
theorem param_lead (modifier : String) (ns : List Text) (pre : List FunctionParam)
    (param : FunctionParam) :
    ∃ lead r, emit ns (encodeParamBehind modifier (paramsTable pre) param) = lead :: r ∧
      lead ∈ paramLeads := by
  rw [encodeParamBehind]
  cases hfd : (paramsTable pre).idxOf? param with
  | some i =>
    obtain ⟨hlt, -, -⟩ := idxOf?_eq_some_iff.1 hfd
    have hi : i < numBackReferences := lt_of_lt_of_le hlt (length_firstDistinct_le _ _)
    have hall : ∀ i < numBackReferences, digit i ∈ paramLeads := by decide
    exact ⟨digit i, [], rfl, hall i hi⟩
  | none =>
    obtain ⟨t, kind⟩ := param
    dsimp only
    rw [emit_encodeWholeParam]
    cases kind with
    | value =>
      obtain ⟨lead, r, ht, hld, -⟩ := head_lead modifier ns (.type t)
      exact ⟨lead, r, ht, mem_append_right _ hld⟩
    | referenceMut | referenceImut => exact ⟨ascii 'A', _, rfl, by decide⟩

variable (pre : List FunctionParam)

omit hrd in
theorem param_not_startsWith
    (param : FunctionParam) (r : Text) {c : Char} (hc : ascii c ∉ paramLeads) :
    ¬StartsWith c (emit ns (encodeParamBehind modifier (paramsTable pre) param) ++ r) := by
  obtain ⟨lead, text, ht, hld⟩ := param_lead modifier ns pre param
  rw [ht]
  intro hst
  rw [some.inj hst] at hld
  exact hc hld

theorem paramBehind_reads (pre : List FunctionParam) :
    Reads (encodeParamBehind modifier (paramsTable pre))
      (fun param => Valid (.type (paramType param))) (fun _ => True) := by
  rintro names hlen param param' r r' ⟨hok, hfit⟩ ⟨hok', hfit'⟩ _ _ heq
  have hlt : ∀ {param : FunctionParam} {i : Nat}, (paramsTable pre).idxOf? param = some i →
      i < numBackReferences ∧ (paramsTable pre)[i]? = some param := by
    intro param i hfd
    obtain ⟨hlt, hget, -⟩ := idxOf?_eq_some_iff.1 hfd
    exact ⟨lt_of_lt_of_le hlt (length_firstDistinct_le _ _),
      by rw [getElem?_eq_getElem hlt, hget]⟩
  -- A whole param does not start with a digit.
  have hd : ∀ {param : FunctionParam} {i : Nat} {r r' : Text}, i < numBackReferences →
      emit names (encodeWholeParam modifier param) ++ r ≠ [digit i] ++ r' := by
    rintro ⟨t, kind⟩ i r r' hi heq
    have hlea : digit i ∉ typeLeads ∧ digit i ≠ ascii 'A' := by
      refine ⟨digit_not_mem_typeLeads hi, ?_⟩
      have hall : ∀ i < numBackReferences, digit i ≠ ascii 'A' := by decide
      exact hall i hi
    rw [emit_encodeWholeParam] at heq
    cases kind with
    | value =>
      obtain ⟨lead, text, ht, hld, -⟩ := head_lead modifier names (.type t)
      rw [ht] at heq
      exact hlea.1 ((cons.inj heq).1 ▸ hld)
    | referenceMut | referenceImut => exact hlea.2 (cons.inj heq).1.symm
  simp only [encodeParamBehind] at heq hfit hfit'
  cases hfd : (paramsTable pre).idxOf? param with
  | some i =>
    cases hfd' : (paramsTable pre).idxOf? param' with
    | some j =>
      simp only [hfd, hfd', emit_pushElement, singleton_append, cons.injEq] at heq
      obtain rfl := digit_inj (hlt hfd).1 (hlt hfd').1 heq.1
      exact ⟨some.inj ((hlt hfd).2.symm.trans (hlt hfd').2), heq.2⟩
    | none =>
      simp only [hfd, hfd'] at heq
      exact absurd heq.symm (hd (hlt hfd).1)
  | none =>
    cases hfd' : (paramsTable pre).idxOf? param' with
    | some j =>
      simp only [hfd, hfd'] at heq
      exact absurd heq (hd (hlt hfd').1)
    | none =>
      simp only [hfd, hfd'] at heq hfit hfit'
      exact wholeParam_reads hrd names hlen ⟨hok, hfit⟩ ⟨hok', hfit'⟩ trivial
        trivial heq

def encodeParamsAndMarks (modifier : String) (before : List FunctionParam)
    (item : List FunctionParam × List Mark) : List Call :=
  encodeFunctionParams modifier item.1 (paramsTable before) ++ item.2.flatMap encodeMark

omit hrd in
theorem encodeParamsAndMarks_nil (marks : List Mark) :
    encodeParamsAndMarks modifier pre ([], marks) = marks.flatMap encodeMark := by
  rw [encodeParamsAndMarks, encodeFunctionParams, nil_append]

omit hrd in
theorem encodeParamsAndMarks_cons (param : FunctionParam)
    (params : List FunctionParam) (marks : List Mark) :
    encodeParamsAndMarks modifier pre (param :: params, marks) =
      encodeParamBehind modifier (paramsTable pre) param ++
        encodeParamsAndMarks modifier (pre ++ [param]) (params, marks) := by
  rw [encodeParamsAndMarks, encodeFunctionParams_cons, append_assoc]
  rfl

def ItemValid (Valid : Head → Prop) (item : List FunctionParam × List Mark) : Prop :=
  (∀ param ∈ item.1, Valid (.type (paramType param))) ∧ ∀ mark ∈ item.2, Valid (.mark mark)

theorem param_ne_marks {ns : List Text}
    (hlen : ns.length ≤ numBackReferences) {pre : List FunctionParam} {param : FunctionParam}
    {marks : List Mark} (hp : Valid (.type (paramType param)))
    (hfit : Fits ns (encodeParamBehind modifier (paramsTable pre) param))
    (hmar : ∀ mark ∈ marks, Valid (.mark mark)) (hfit' : Fits ns (marks.flatMap encodeMark))
    (hrs' : StartsWith '@' r') :
    emit ns (encodeParamBehind modifier (paramsTable pre) param) ++ r ≠
      emit ns (marks.flatMap encodeMark) ++ r' := by
  intro heq
  cases marks with
  | nil =>
    rw [flatMap_nil, emit_nil, nil_append] at heq
    exact param_not_startsWith ns pre param r (c := '@') (by decide) (heq ▸ hrs')
  | cons mark marks =>
    rw [flatMap_cons, emit_append, append_assoc] at heq
    have hst := mark_start ns mark
      (emit (tableAfter ns (encodeMark mark)) (marks.flatMap encodeMark) ++ r')
    rw [← heq, encodeParamBehind] at hst
    rw [encodeParamBehind] at heq hfit
    cases hfd : (paramsTable pre).idxOf? param with
    | some i =>
      obtain ⟨hlt, -, -⟩ := idxOf?_eq_some_iff.1 hfd
      have hi : i < numBackReferences := lt_of_lt_of_le hlt (length_firstDistinct_le _ _)
      have hall : ∀ i < numBackReferences, digit i ≠ ascii 'U' := by decide
      rw [hfd] at hst
      exact hall i hi (some.inj hst)
    | none =>
      obtain ⟨t, kind⟩ := param
      rw [hfd] at heq hst hfit
      cases kind with
      | value =>
        have hread : Head.type t = .mark mark ∧ _ := hrd.reads ns hlen
          ⟨hp, fits_encodeWholeParam hfit⟩
          ⟨hmar mark mem_cons_self, hfit'.append.1⟩ trivial trivial heq
        cases hread.1
      | referenceMut | referenceImut => exact absurd (some.inj hst) (by decide)

theorem paramsAndMarks_reads (pre : List FunctionParam) :
    Reads (encodeParamsAndMarks modifier pre) (ItemValid Valid) (StartsWith '@') := by
  rintro names hlen ⟨params, marks⟩
  induction params generalizing pre names with
  | nil =>
    rintro ⟨params', marks'⟩ r r' ⟨hok, hfit⟩ ⟨hok', hfit'⟩ hrs hrs' heq
    cases params' with
    | nil =>
      obtain ⟨rfl, htl⟩ := marks_reads hrd names hlen ⟨hok.2, hfit⟩ ⟨hok'.2, hfit'⟩ hrs hrs' heq
      exact ⟨rfl, htl⟩
    | cons param' params' =>
      rw [encodeParamsAndMarks_cons] at hfit'
      simp only [encodeParamsAndMarks_cons, emit_append,
        append_assoc] at heq
      exact absurd heq.symm (param_ne_marks hrd hlen (hok'.1 param' mem_cons_self)
        hfit'.append.1 hok.2 hfit hrs)
  | cons param params ih =>
    rintro ⟨params', marks'⟩ r r' ⟨hok, hfit⟩ ⟨hok', hfit'⟩ hrs hrs' heq
    rw [encodeParamsAndMarks_cons] at hfit
    cases params' with
    | nil =>
      simp only [encodeParamsAndMarks_cons, emit_append,
        append_assoc] at heq
      exact absurd heq (param_ne_marks hrd hlen (hok.1 param mem_cons_self)
        hfit.append.1 hok'.2 hfit' hrs')
    | cons param' params' =>
      rw [encodeParamsAndMarks_cons] at hfit'
      simp only [encodeParamsAndMarks_cons, emit_append, append_assoc] at heq
      obtain ⟨rfl, htl⟩ := paramBehind_reads hrd pre names hlen
        ⟨hok.1 param mem_cons_self, hfit.append.1⟩
        ⟨hok'.1 param' mem_cons_self, hfit'.append.1⟩ trivial trivial heq
      have hread : (params, marks) = (params', marks') ∧ r = r' :=
        ih (pre ++ [param]) _ (length_tableAfter_le hlen _)
        ⟨⟨fun p hp => hok.1 p (mem_cons_of_mem _ hp), hok.2⟩, hfit.append.2⟩
        ⟨⟨fun p hp => hok'.1 p (mem_cons_of_mem _ hp), hok'.2⟩, hfit'.append.2⟩ hrs
        hrs' htl
      obtain ⟨hitem, hrs⟩ := hread
      cases hitem
      exact ⟨rfl, hrs⟩

/-! ## The end of a function type -/

def encodeTail (modifier : String) (item : List FunctionParam × List Mark) : List Call :=
  encodeParamsAndMarks modifier [] item ++
    (if item.1.isEmpty && item.2.isEmpty then encodeFundamentalType .void_ else push "@") ++ push "Z"

section

omit hrd

theorem emit_encodeTail (item : List FunctionParam × List Mark) :
    emit ns (encodeTail modifier item) = emit ns (encodeParamsAndMarks modifier [] item) ++
        (if item.1.isEmpty && item.2.isEmpty then asciiText "XZ" else asciiText "@Z") := by
  rw [encodeTail, append_assoc, emit_append]
  congr 1
  split <;> rfl

/-- Params and marks, with the end of the list behind them, do not start with a character
that starts none of these. -/
theorem items_not_startsWith
    (item : List FunctionParam × List Mark) (hrs : StartsWith '@' r) {c : Char}
    (hc : ascii c ∉ terminator :: paramLeads) :
    ¬StartsWith c (emit ns (encodeParamsAndMarks modifier pre item) ++ r) := by
  rw [mem_cons, not_or] at hc
  obtain ⟨params, marks⟩ := item
  cases params with
  | nil =>
    rw [encodeParamsAndMarks_nil]
    intro hst
    cases marks with
    | nil =>
      rw [flatMap_nil, emit_nil, nil_append, StartsWith, hrs] at hst
      exact hc.1 (some.inj hst).symm
    | cons mark marks =>
      rw [flatMap_cons, emit_append, append_assoc, StartsWith, mark_start] at hst
      rw [← some.inj hst] at hc
      exact hc.2 (by decide)
  | cons param params =>
    rw [encodeParamsAndMarks_cons, emit_append, append_assoc]
    exact param_not_startsWith ns pre param _ hc.2

theorem items_ne_void {item : List FunctionParam × List Mark}
    (hitem : (item.1.isEmpty && item.2.isEmpty) = false) (r r' : Text) :
    emit ns (encodeParamsAndMarks modifier [] item) ++ (asciiText "@Z" ++ r) ≠
      asciiText "XZ" ++ r' := by
  obtain ⟨params, marks⟩ := item
  intro heq
  cases params with
  | nil =>
    cases marks with
    | nil => cases hitem
    | cons mark marks =>
      rw [encodeParamsAndMarks_nil, flatMap_cons, emit_append, append_assoc] at heq
      have hst := mark_start ns mark
        (emit (tableAfter ns (encodeMark mark)) (marks.flatMap encodeMark) ++ (asciiText "@Z" ++ r))
      rw [heq] at hst
      exact absurd (some.inj hst) (by decide)
  | cons param params =>
    obtain ⟨t, kind⟩ := param
    have hp : encodeParamBehind modifier (paramsTable []) (.mk t kind) =
        encodeWholeParam modifier (.mk t kind) := rfl
    rw [encodeParamsAndMarks_cons, emit_append, append_assoc, hp, emit_encodeWholeParam,
      append_assoc] at heq
    cases kind with
    | value =>
      obtain ⟨lead, text, ht, -, hvoid⟩ := head_lead modifier ns (.type t)
      rw [modifierText, nil_append, ht, cons_append] at heq
      have hld := cons.inj heq
      rw [hvoid hld.1, nil_append] at hld
      have hsto : StartsWith '@' (asciiText "@Z" ++ r) := rfl
      have hst := congrArg head? hld.2
      exact absurd hst (items_not_startsWith _ _ _ hsto (by decide : ascii 'Z' ∉ _))
    | referenceMut | referenceImut => exact absurd (cons.inj heq).1 (by decide)

end

theorem tail_reads :
    Reads (encodeTail modifier) (ItemValid Valid) (fun _ => True) := by
  rintro names hlen item item' r r' ⟨hok, hfit⟩ ⟨hok', hfit'⟩ _ _ heq
  simp only [emit_encodeTail, append_assoc] at heq
  have he : ∀ {item : List FunctionParam × List Mark},
      (item.1.isEmpty && item.2.isEmpty) = true → item = ([], []) := by
    rintro ⟨params, marks⟩ h
    rw [Bool.and_eq_true, List.isEmpty_iff, List.isEmpty_iff] at h
    exact Prod.ext h.1 h.2
  have hnil : emit names (encodeParamsAndMarks modifier [] ([], [])) = [] := by
    rfl
  cases hitem : item.1.isEmpty && item.2.isEmpty with
  | true =>
    rw [he hitem] at heq ⊢
    cases hitem' : item'.1.isEmpty && item'.2.isEmpty with
    | true =>
      rw [he hitem'] at heq
      rw [he hitem']
      exact ⟨rfl, append_cancel_left heq⟩
    | false =>
      rw [hitem'] at heq
      exact absurd heq.symm (items_ne_void names hitem' r' r)
  | false =>
    rw [hitem] at heq
    cases hitem' : item'.1.isEmpty && item'.2.isEmpty with
    | true =>
      rw [he hitem'] at heq
      exact absurd heq (items_ne_void names hitem r r')
    | false =>
      rw [hitem'] at heq
      have hsto : ∀ r, StartsWith '@' (asciiText "@Z" ++ r) := fun _ => rfl
      obtain ⟨hitem, hrs⟩ := paramsAndMarks_reads hrd [] names hlen
        ⟨hok, hfit.append.1.append.1⟩ ⟨hok', hfit'.append.1.append.1⟩ (hsto r)
        (hsto r') heq
      exact ⟨hitem, append_cancel_left hrs⟩

/-! ## Return types and function types -/

def returnPrefix (modifier : String) (returnType : LangType) (returnValueType : ValueType) :
    List Call :=
  if returnValueType ≠ .value then encodeReferenceModifier modifier returnValueType
    else if hasReturnMark returnType then push "?" ++ push "A" else []

def isMarked (returnType : LangType) (returnValueType : ValueType) : Bool :=
  decide (returnValueType = .value) && hasReturnMark returnType

omit hrd in
theorem callNames_returnPrefix (returnType : LangType) (returnKind : ValueType) :
    callNames (returnPrefix modifier returnType returnKind) = [] := by
  rw [returnPrefix]
  split
  · exact callNames_encodeReferenceModifier returnKind
  · split <;> rfl

omit hrd in
theorem emit_returnPrefix (returnType : LangType) (returnKind : ValueType) :
    emit ns (returnPrefix modifier returnType returnKind) = modifierText modifier returnKind ++
        (if isMarked returnType returnKind then asciiText "?A" else []) := by
  cases returnKind with
  | value =>
    rw [returnPrefix, if_neg (not_not.2 rfl), modifierText, nil_append, isMarked]
    cases hasReturnMark returnType <;> rfl
  | referenceMut | referenceImut =>
    rw [returnPrefix, if_pos (by decide), emit_encodeReferenceModifier]
    exact (append_nil _).symm

def encodeReturn (modifier : String) : FunctionParam → List Call
  | .mk returnType returnValueType =>
    returnPrefix modifier returnType returnValueType ++ encodeHead modifier (.type returnType)

theorem return_reads :
    Reads (encodeReturn modifier) (fun ret => Valid (.type (paramType ret))) (fun _ => True) := by
  rintro names hlen ⟨t, kind⟩ ⟨t', valueType'⟩ r r' ⟨hok, hfit⟩ ⟨hok', hfit'⟩ _ _ heq
  have hfitTy : ∀ {t kind}, Fits names (encodeReturn modifier (.mk t kind)) →
      Fits names (encodeHead modifier (.type t)) := by
    intro t kind hfit
    have hty := hfit.append.2
    rwa [tableAfter_of_callNames_nil (callNames_returnPrefix t kind)] at hty
  have ht : ∀ t kind r, emit names (encodeReturn modifier (.mk t kind)) ++ r =
      modifierText modifier kind ++ ((if isMarked t kind then asciiText "?A" else []) ++
        (emit names (encodeHead modifier (.type t)) ++ r)) := by
    intro t kind r
    rw [encodeReturn, emit_append, emit_returnPrefix,
      tableAfter_of_callNames_nil (callNames_returnPrefix t kind)]
    simp only [append_assoc]
  have hhd : ∀ {c : Char} t r, ascii c ∉ typeLeads →
      ¬StartsWith c (emit names (encodeHead modifier (.type t)) ++ r) :=
    fun t r hc => head_not_startsWith modifier names _ r hc
  have href : ∀ t kind r, ¬StartsWith 'A' ((if isMarked t kind then asciiText "?A" else []) ++
        (emit names (encodeHead modifier (.type t)) ++ r)) := by
    intro t kind r
    cases isMarked t kind with
    | true => exact fun hst => absurd (some.inj hst) (by decide)
    | false => exact hhd t r (by decide)
  have hmark : ∀ t r, ¬asciiText "?A" <+: emit names (encodeHead modifier (.type t)) ++ r := by
    rintro t r ⟨r', heq⟩
    refine hhd t r (by decide : ascii '?' ∉ _) ?_
    rw [← heq]
    rfl
  simp only [ht] at heq
  obtain ⟨rfl, hbh⟩ := modifierText_decodes (href _ _ _) (href _ _ _) heq
  obtain ⟨-, hty⟩ := optional_flag (hmark _ _) (hmark _ _) hbh
  have hread : Head.type t = .type t' ∧ r = r' := hrd.reads names hlen
    ⟨hok, hfitTy hfit⟩ ⟨hok', hfitTy hfit'⟩ trivial trivial hty
  rw [Head.type.inj hread.1]
  exact ⟨rfl, hread.2⟩

def FunctionValid (Valid : Head → Prop) : FunctionType → Prop
  | .mk params returned isUnsafe _ returnReferences returnInnerReferences referencesPollution =>
    Valid (.type (paramType returned)) ∧ ItemValid Valid (params,
        functionMarks isUnsafe returnReferences returnInnerReferences referencesPollution)

section

omit hrd

theorem isEmpty_functionMarks (isUnsafe : Bool) (rr : List ParamReference)
    (rir : List (List ParamReference)) (rp : List ReferencePollution) :
    (functionMarks isUnsafe rr rir rp).isEmpty =
      (!isUnsafe && rp.isEmpty && rr.isEmpty && rir.isEmpty) := by
  cases isUnsafe <;> cases rp <;> cases rr <;> cases rir <;> rfl

theorem encodeFunctionType_eq (params : List FunctionParam) (returned : FunctionParam)
    (isUnsafe : Bool) (callingConvention : CallingConvention) (rr : List ParamReference)
    (rir : List (List ParamReference)) (rp : List ReferencePollution) :
    encodeFunctionType modifier (.mk params returned isUnsafe callingConvention rr rir rp) =
      push (getCallingConventionName callingConvention) ++ (encodeReturn modifier returned ++
        encodeTail modifier (params, functionMarks isUnsafe rr rir rp)) := by
  cases returned
  have htab : paramsTable [] = [] := rfl
  rw [encodeFunctionType, encodeFunctionNotation_eq, encodeTail, encodeParamsAndMarks, htab,
    isEmpty_functionMarks, encodeReturn, encodeHead, encodeType, returnPrefix]
  simp only [append_assoc, Bool.and_assoc]

theorem callingConvention_decodes {convention convention' : CallingConvention}
    (heq : asciiText (getCallingConventionName convention) ++ r =
      asciiText (getCallingConventionName convention') ++ r') :
    convention = convention' ∧ r = r' := by
  cases convention <;> cases convention' <;>
    first
    | exact ⟨rfl, (cons.inj heq).2⟩
    | exact absurd (cons.inj heq).1 (by decide)

end

theorem function_reads :
    Reads (encodeFunctionType modifier) (FunctionValid Valid) (fun _ => True) := by
  rintro names hlen ⟨params, returned, isUnsafe, convention, rr, rir, rp⟩
    ⟨params', returned', isUnsafe', convention', rr', rir', rp'⟩ r r' ⟨hok, hfit⟩
    ⟨hok', hfit'⟩ _ _ heq
  rw [encodeFunctionType_eq] at hfit hfit'
  simp only [encodeFunctionType_eq, emit_append, emit_push, append_assoc] at heq
  have hbody := hfit.append.2
  have hbody' := hfit'.append.2
  obtain ⟨rfl, hret⟩ := callingConvention_decodes heq
  obtain ⟨rfl, htl⟩ := return_reads hrd names hlen ⟨hok.1, hbody.append.1⟩
    ⟨hok'.1, hbody'.append.1⟩ trivial trivial hret
  obtain ⟨hitem, hrs⟩ := tail_reads hrd _ (length_tableAfter_le hlen _)
    ⟨hok.2, hbody.append.2⟩ ⟨hok'.2, hbody'.append.2⟩ trivial trivial htl
  rw [Prod.mk.injEq] at hitem
  obtain ⟨rfl, rfl, rfl, rfl⟩ := functionMarks_inj hitem.2
  rw [hitem.1]
  exact ⟨rfl, hrs⟩

theorem named_encodeParamBehind {t : List FunctionParam}
    {param : FunctionParam} (h : Valid (.type (paramType param))) :
    Named (encodeParamBehind modifier t param) := by
  rw [encodeParamBehind]
  split
  · exact named_of_callNames_nil rfl
  · obtain ⟨ty, kind⟩ := param
    rw [encodeWholeParam, named_append]
    exact ⟨named_of_callNames_nil (callNames_encodeReferenceModifier kind), hrd.named (.type ty) h⟩

theorem named_encodeParamsAndMarks (pre : List FunctionParam)
    {item : List FunctionParam × List Mark} (h : ItemValid Valid item) :
    Named (encodeParamsAndMarks modifier pre item) := by
  obtain ⟨params, marks⟩ := item
  induction params generalizing pre with
  | nil =>
    exact named_flatMap fun mark hmark => hrd.named (.mark mark) (h.2 mark hmark)
  | cons param params ih =>
    rw [encodeParamsAndMarks_cons, named_append]
    exact ⟨named_encodeParamBehind hrd (h.1 param mem_cons_self),
      ih _ ⟨fun p hp => h.1 p (mem_cons_of_mem _ hp), h.2⟩⟩

theorem named_encodeFunctionType {fTy : FunctionType}
    (h : FunctionValid Valid fTy) : Named (encodeFunctionType modifier fTy) := by
  obtain ⟨params, ⟨returnType, returnKind⟩, isUnsafe, convention, rr, rir, rp⟩ := fTy
  rw [encodeFunctionType_eq, encodeReturn, encodeTail]
  simp only [named_append]
  refine ⟨named_of_callNames_nil rfl, ⟨?_, hrd.named _ h.1⟩,
    ⟨named_encodeParamsAndMarks hrd [] h.2, ?_⟩, named_of_callNames_nil rfl⟩
  · exact named_of_callNames_nil (callNames_returnPrefix returnType returnKind)
  · split <;> exact named_of_callNames_nil rfl

end USprache.CodeBuilder.WithArgs.ManglerMsvc
