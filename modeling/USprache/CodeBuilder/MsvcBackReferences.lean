import USprache.CodeBuilder.MsvcMangling

/-!
# Back references lose nothing

The digits of a name written with the MSVC mangler can be expanded again, as long as the text
is shorter than the positions of the slots can express.  A parameter of a function type is
replaced by a digit according to the other parameters of that function type only.
-/

namespace USprache.CodeBuilder

open LexSynt Library List Option

namespace Msvc

theorem searchBackReferences_keeps {res str : Text} {brs brs' : List BackReference}
    (h : searchBackReferences res str brs = .inr brs') {i : Nat} {br : BackReference}
    (hget : brs[i]? = some br) (hc : br.count ≠ 0) : brs'[i]? = some br := by
  induction brs generalizing brs' i with
  | nil => simp at hget
  | cons first brs ih =>
    rw [searchBackReferences] at h
    split at h
    · cases h
    · split at h
      case isTrue he =>
        cases h
        cases i with
        | zero =>
          rw [getElem?_cons_zero, some.injEq] at hget
          exact absurd (hget ▸ he) hc
        | succ i => exact hget
      case isFalse =>
        cases hsea : searchBackReferences res str brs with
        | inl j =>
          rw [hsea] at h
          cases h
        | inr rest =>
          rw [hsea] at h
          cases h
          cases i with
          | zero => exact hget
          | succ i => exact ih hsea hget

namespace ManglerState

theorem encodeNameImpl_keeps (s : ManglerState) (str : Text) (useTerminator : Bool) {i : Nat}
    {br : BackReference} (hget : s.backReferences[i]? = some br) (hc : br.count ≠ 0) :
    (s.encodeNameImpl str useTerminator).backReferences[i]? = some br := by
  unfold encodeNameImpl
  split
  · exact hget
  case h_2 hsea => exact searchBackReferences_keeps hsea hget hc

theorem run_keeps (s : ManglerState) (cs : List Call) {i : Nat} {br : BackReference}
    (hget : s.backReferences[i]? = some br) (hc : br.count ≠ 0) :
    (s.run cs).backReferences[i]? = some br := by
  induction cs generalizing s with
  | nil => exact hget
  | cons c cs ih =>
    apply ih
    cases c with
    | encodeName str => exact s.encodeNameImpl_keeps str true hget hc
    | encodeNameNoTerminator str => exact s.encodeNameImpl_keeps str false hget hc
    | pushElement str => exact hget

end ManglerState

def tableBehind (calls : List Call) : List Text := firstDistinct numBackReferences (callNames calls)

theorem Registers.slot {s : ManglerState} {ns : List Text} (h : Registers s ns) {i : Nat}
    {n : Text} (hn : ns[i]? = some n) :
    ∃ br, s.backReferences[i]? = some br ∧ br.Denotes s.res n := by
  obtain ⟨filled, hfil, hslo⟩ := h.slots
  obtain ⟨hlt, hget⟩ := List.getElem?_eq_some_iff.1 hn
  have hlen := hfil.length_eq
  have hbr := (forall₂_iff_get.1 hfil).2 i (by omega) hlt
  refine ⟨filled[i], ?_, ?_⟩
  · rw [hslo, getElem?_append_left (by omega), getElem?_eq_getElem]
  · rw [← hget]
    exact hbr

structure Lossless (calls : List Call) : Prop where
  res_eq : (({} : ManglerState).run calls).res =
    (({} : ManglerState).pieces calls).flatMap Piece.render
  expand_eq : expandPieces [] (({} : ManglerState).pieces calls) = calls.flatMap Call.uncompressed
  /-- A digit stands for a name of the table and is written for exactly these. -/
  digit_iff : ∀ before call after, calls = before ++ call :: after → ∀ name ∈ call.name?, ∀ i,
    (∃ useTerminator, (({} : ManglerState).run before).piece call = .digit i useTerminator) ↔
      (tableBehind before)[i]? = some name
  slot_keeps : ∀ before after, calls = before ++ after → ∀ (i : Nat) name,
    (tableBehind before)[i]? = some name →
      ∃ br, (({} : ManglerState).run before).backReferences[i]? = some br ∧
        (({} : ManglerState).run calls).backReferences[i]? = some br ∧
        br.text (({} : ManglerState).run calls).res = name

theorem namePiece_digit_iff {s : ManglerState} {ns : List Text} (h : Registers s ns)
    {str : Text} (hstr : str ≠ []) (useTerminator : Bool) (i : Nat) :
    (∃ flag, s.namePiece str useTerminator = .digit i flag) ↔ ns.idxOf? str = some i := by
  rw [namePiece_eq h hstr]
  cases ns.idxOf? str with
  | none => simp
  | some j => simp

theorem lossless_of_short {cs : List Call} (hns : ∀ n ∈ callNames cs, n ≠ [])
    (hsz : (({} : ManglerState).run cs).res.length < 2 ^ 32) : Lossless cs := by
  -- The part before a call meets the same conditions.
  have hbef : ∀ pre post, cs = pre ++ post →
      Registers (({} : ManglerState).run pre) (tableBehind pre) := by
    intro pre post hcas
    subst hcas
    apply registers_run
    · intro n hn
      apply hns
      rw [callNames, filterMap_append]
      exact mem_append_left _ hn
    · rw [ManglerState.run_append] at hsz
      have hle := ((({} : ManglerState).run pre).res_prefix_run post).length_le
      omega
  refine ⟨?_, (registers_start.run cs hns hsz).2, ?_, ?_⟩
  · rw [ManglerState.res_run]
    rfl
  · intro pre c post hcas n hn i
    have hregs := hbef pre (c :: post) hcas
    have hne : n ≠ [] := by
      apply hns
      rw [hcas, callNames, mem_filterMap]
      exact ⟨c, mem_append_right _ mem_cons_self, hn⟩
    rw [tableBehind, ← idxOf?_firstDistinct_eq_some_iff]
    cases c with
    | encodeName str =>
      cases hn
      exact namePiece_digit_iff hregs hne true i
    | encodeNameNoTerminator str =>
      cases hn
      exact namePiece_digit_iff hregs hne false i
    | pushElement str => cases hn
  · intro pre post hcas i n hn
    obtain ⟨br, hget, hden⟩ := (hbef pre post hcas).slot hn
    subst hcas
    rw [ManglerState.run_append]
    refine ⟨br, hget, ManglerState.run_keeps _ post hget hden.not_empty, ?_⟩
    rw [ManglerState.res_run]
    exact (hden.append _).text_eq

end Msvc

namespace WithArgs.ManglerMsvc

open Msvc

variable (pointerTypesModifier : String) (params : List FunctionParam)

def paramsTable : List FunctionParam :=
  firstDistinct numBackReferences (params.filter (fun param => !isTrivial param))

def encodeWholeParam : FunctionParam → List Call
  | .mk type valueType =>
    encodeReferenceModifier pointerTypesModifier valueType ++ encodeTypeFrom pointerTypesModifier type []

def encodeParamBehind (table : List FunctionParam) (param : FunctionParam) : List Call :=
  match table.idxOf? param with
  | some i => [.pushElement [digit i]]
  | none => encodeWholeParam pointerTypesModifier param

theorem paramsTable_concat (params : List FunctionParam) (param : FunctionParam) :
    paramsTable (params ++ [param]) =
      if isTrivial param then paramsTable params
      else addDistinct numBackReferences (paramsTable params) param := by
  rw [paramsTable, filter_append]
  cases htri : isTrivial param with
  | true =>
    rw [filter_singleton, htri, if_pos rfl]
    simp [paramsTable]
  | false =>
    rw [filter_singleton, htri, if_neg Bool.false_ne_true]
    exact firstDistinct_concat _ _ _

theorem not_mem_paramsTable {params : List FunctionParam} {param : FunctionParam}
    (h : isTrivial param = true) : param ∉ paramsTable params := by
  intro hmem
  have hfil := of_mem_filter (mem_of_mem_firstDistinct hmem)
  rw [h] at hfil
  cases hfil

theorem encodeWholeParam_of_isTrivial {t : LangType} {kind : ValueType}
    (h : isTrivial (.mk t kind) = true) :
    encodeWholeParam pointerTypesModifier (.mk t kind) =
      encodeTypeFrom pointerTypesModifier t [] := by
  cases kind with
  | value => rfl
  | referenceMut | referenceImut => cases t <;> cases h

theorem encodeFunctionParams_cons (pre : List FunctionParam) (param : FunctionParam)
    (params : List FunctionParam) :
    encodeFunctionParams pointerTypesModifier (param :: params) (paramsTable pre) =
      encodeParamBehind pointerTypesModifier (paramsTable pre) param ++
        encodeFunctionParams pointerTypesModifier params (paramsTable (pre ++ [param])) := by
  obtain ⟨t, kind⟩ := param
  rw [encodeFunctionParams, paramsTable_concat, encodeParamBehind]
  cases htri : isTrivial (.mk t kind) with
  | true =>
    have hfd : (paramsTable pre).idxOf? (.mk t kind) = none :=
      idxOf?_eq_none_iff.2 (not_mem_paramsTable htri)
    rw [if_pos rfl, if_pos rfl, hfd, encodeWholeParam_of_isTrivial _ htri]
  | false =>
    rw [if_neg Bool.false_ne_true, if_neg Bool.false_ne_true]
    cases hfd : (paramsTable pre).idxOf? (.mk t kind) with
    | some i =>
      obtain ⟨hlt, hget, -⟩ := idxOf?_eq_some_iff.1 hfd
      rw [addDistinct_of_mem (hget ▸ getElem_mem hlt)]
    | none =>
      rw [addDistinct_of_not_mem (idxOf?_eq_none_iff.1 hfd)]
      rfl

/-- What is written for the param of a number: it depends on the params before it. -/
def encodeParamAt (k : Nat) : List Call :=
  (params[k]?.map (encodeParamBehind pointerTypesModifier (paramsTable (params.take k)))).getD []

theorem encodeFunctionParams_behind (pre params : List FunctionParam) :
    encodeFunctionParams pointerTypesModifier params (paramsTable pre) =
      (List.range params.length).flatMap (fun k => (params[k]?.map
        (encodeParamBehind pointerTypesModifier (paramsTable (pre ++ params.take k)))).getD []) := by
  induction params generalizing pre with
  | nil => rfl
  | cons param params ih =>
    rw [encodeFunctionParams_cons, ih, length_cons, range_succ_eq_map, flatMap_cons, flatMap_map]
    simp

def typeLeads : Text := asciiText "XCEFGHIJKMND_UYWP"

theorem digit_not_mem_typeLeads {i : Nat} (h : i < numBackReferences) : digit i ∉ typeLeads := by
  have hall : ∀ i < numBackReferences, digit i ∉ typeLeads := by decide
  exact hall i h

/-- The first call for a type does not write a digit.  An "X" is all that is written. -/
theorem encodeTypeFrom_lead : ∀ t ds, ∃ lead rest cs, encodeTypeFrom pointerTypesModifier t ds =
    .pushElement (lead :: rest) :: cs ∧ lead ∈ typeLeads ∧
      (lead = ascii 'X' → rest = [] ∧ cs = [])
  | .array elementType elementCount, ds => by
    rw [encodeTypeFrom]
    exact encodeTypeFrom_lead elementType (ds ++ [elementCount])
  | .fundamental t, [] => by
    rw [encodeTypeFrom]
    cases t <;> exact ⟨_, _, _, rfl, by decide, by decide⟩
  | .tuple _, [] | .classType _, [] | .enumType .., [] | .rawPointer _, []
  | .functionPointer _, [] | .fundamental _, _ :: _ | .tuple _, _ :: _ | .classType _, _ :: _
  | .enumType .., _ :: _ | .rawPointer _, _ :: _ => by
    rw [encodeTypeFrom]
    exact ⟨_, _, _, rfl, by decide, fun h => absurd h (by decide)⟩
  | .functionPointer _, _ :: _ => by
    rw [encodeTypeFrom]
    exact ⟨_, _, _, rfl, by decide, fun h => absurd h (by decide)⟩

theorem encodeWholeParam_ne_digit (param : FunctionParam) {i : Nat} (hi : i < numBackReferences) :
    encodeWholeParam pointerTypesModifier param ≠ [.pushElement [digit i]] := by
  obtain ⟨t, kind⟩ := param
  intro h
  rw [encodeWholeParam] at h
  cases kind with
  | value =>
    obtain ⟨lead, rest, calls, hty, hld, -⟩ := encodeTypeFrom_lead pointerTypesModifier t []
    rw [encodeReferenceModifier, nil_append, hty, cons.injEq, Call.pushElement.injEq,
      cons.injEq] at h
    exact digit_not_mem_typeLeads hi (h.1.1 ▸ hld)
  | referenceMut | referenceImut => simp [encodeReferenceModifier, push] at h

/-- Back references of the params of one function type. -/
structure ParamsLossless : Prop where
  /-- Each param is written according to the params before it in the same list. -/
  calls_eq : encodeFunctionParams pointerTypesModifier params [] =
    (List.range params.length).flatMap (encodeParamAt pointerTypesModifier params)
  /-- It is replaced by a digit exactly when it stands at this place of the table. -/
  digit_iff : ∀ (k : Nat) param, params[k]? = some param → ∀ i < numBackReferences,
    encodeParamAt pointerTypesModifier params k = [.pushElement [digit i]] ↔
      (paramsTable (params.take k))[i]? = some param
  whole : ∀ (k : Nat) param, params[k]? = some param → param ∉ paramsTable (params.take k) →
    encodeParamAt pointerTypesModifier params k = encodeWholeParam pointerTypesModifier param

theorem paramsLossless (params : List FunctionParam) : ParamsLossless pointerTypesModifier params := by
  refine ⟨?_, ?_, ?_⟩
  · have h := encodeFunctionParams_behind pointerTypesModifier [] params
    rwa [paramsTable, filter_nil, firstDistinct_nil] at h
  · intro k param hp i hi
    rw [paramsTable, ← idxOf?_firstDistinct_eq_some_iff, ← paramsTable, encodeParamAt, hp,
      map_some, getD_some, encodeParamBehind]
    cases hfd : (paramsTable (params.take k)).idxOf? param with
    | none =>
      simp only [reduceCtorEq, iff_false]
      exact encodeWholeParam_ne_digit pointerTypesModifier param hi
    | some j =>
      obtain ⟨hlt, -, -⟩ := idxOf?_eq_some_iff.1 hfd
      have hj : j < numBackReferences := lt_of_lt_of_le hlt (length_firstDistinct_le _ _)
      have hinj : ∀ i < numBackReferences, ∀ j < numBackReferences, digit j = digit i → j = i := by
        decide
      constructor
      · intro h
        rw [cons.injEq, Call.pushElement.injEq, cons.injEq] at h
        rw [hinj i hi j hj h.1.1]
      · intro h
        rw [some.inj h]
  · intro k param hp hnew
    rw [encodeParamAt, hp, map_some, getD_some, encodeParamBehind, idxOf?_eq_none_iff.2 hnew]

/-- Back references lose nothing.  A template name has a table of its own, and only the whole
name comes to the table outside. -/
theorem backReferences_lossless : (∀ calls : List Call, (∀ name ∈ callNames calls, name ≠ []) →
      (({} : Msvc.ManglerState).run calls).res.length < 2 ^ 32 → Lossless calls) ∧
    (∀ (pointerTypesModifier : String) (params : List FunctionParam),
      ParamsLossless pointerTypesModifier params) ∧
    (∀ (s : Msvc.ManglerState) (name : Text) (args : List Call),
      s.run (encodeTemplateName name args) = s.encodeNameNoTerminator (({} : Msvc.ManglerState).run
          (push "?$" ++ [.encodeName name] ++ args ++ push "@")).res) :=
  ⟨fun _ hnames hsize => lossless_of_short hnames hsize, paramsLossless, fun _ _ _ => rfl⟩

theorem backReferences_lossless_repeated :
    Lossless [.pushElement (asciiText "P"), .encodeName (asciiText "a"), .encodeName (asciiText "a")] :=
  backReferences_lossless.1 _ (by decide) (by decide)

end WithArgs.ManglerMsvc

namespace Msvc

section LongName

variable {longName rest : Text} (hrs : longName = ascii 'a' :: ascii 'a' :: rest)

include hrs

/-- The size of a name of 2 ^ 32 bytes is stored as zero, so its slot stays empty. -/
theorem searchBackReferences_longName
    (hlen : longName.length = 2 ^ 32) :
    searchBackReferences [] longName (replicate numBackReferences .empty) =
      .inr (replicate numBackReferences .empty) := by
  have ht : BackReference.empty.text [] ≠ longName := by
    rw [hrs]
    exact (cons_ne_nil _ _).symm
  rw [numBackReferences, replicate_succ, searchBackReferences, if_neg ht, hlen]
  rfl

omit hrs in
/-- The next name gets that slot, for one byte at the position 2 ^ 32 + 1. -/
theorem searchBackReferences_behind_longName (hlen : longName.length = 2 ^ 32) :
    searchBackReferences (longName ++ [terminator]) [ascii 'a']
        (replicate numBackReferences .empty) =
      .inr (⟨1, 1⟩ :: replicate 9 .empty) := by
  have ht : BackReference.empty.text (longName ++ [terminator]) ≠ [ascii 'a'] :=
    (cons_ne_nil _ _).symm
  rw [numBackReferences, replicate_succ, searchBackReferences, if_neg ht, length_append, hlen]
  rfl

theorem searchBackReferences_found :
    searchBackReferences (longName ++ [terminator] ++ [ascii 'a'] ++ [terminator]) [ascii 'a']
      (⟨1, 1⟩ :: replicate 9 .empty) = .inl 0 := by
  rw [searchBackReferences, hrs]
  exact if_pos rfl

theorem pieces_longName
    (hlen : longName.length = 2 ^ 32) :
    ({} : ManglerState).pieces
        [.encodeName longName, .encodeName [ascii 'a'], .encodeName [ascii 'a']] =
      [.name longName true, .name [ascii 'a'] true, .digit 0 true] := by
  have hfst : ({} : ManglerState).perform (.encodeName longName) =
      ⟨replicate numBackReferences .empty, longName ++ [terminator]⟩ := by
    rw [ManglerState.perform, ManglerState.encodeName, ManglerState.encodeNameImpl,
      searchBackReferences_longName hrs hlen]
    rfl
  have hsnd : ManglerState.perform ⟨replicate numBackReferences .empty, longName ++ [terminator]⟩
      (.encodeName [ascii 'a']) = ⟨⟨1, 1⟩ :: replicate 9 .empty,
        longName ++ [terminator] ++ [ascii 'a'] ++ [terminator]⟩ := by
    rw [ManglerState.perform, ManglerState.encodeName, ManglerState.encodeNameImpl,
      searchBackReferences_behind_longName hlen]
    rfl
  rw [ManglerState.pieces, ManglerState.pieces, ManglerState.pieces, ManglerState.pieces,
    hfst, hsnd]
  simp only [ManglerState.piece, ManglerState.namePiece, searchBackReferences_longName hrs hlen,
    searchBackReferences_behind_longName hlen, searchBackReferences_found hrs]

theorem not_lossless_longName
    (hlen : longName.length = 2 ^ 32) :
    ¬Lossless [.encodeName longName, .encodeName [ascii 'a'], .encodeName [ascii 'a']] := by
  intro h
  have hexpand := h.expand_eq
  rw [pieces_longName hrs hlen] at hexpand
  have hlens := congrArg length hexpand
  have hnew : [ascii 'a'] ≠ longName := by
    intro heq
    rw [← heq] at hlen
    cases hlen
  simp [expandPieces, Piece.expand, Piece.register, addDistinct, hnew, terminatorIf,
    Call.uncompressed, hlen, numBackReferences] at hlens

end LongName

/-- Behind a name of 2 ^ 32 bytes a digit is written for another name than the one of its
number. -/
theorem backReferences_overflow :
    ¬∀ calls : List Call, (∀ name ∈ callNames calls, name ≠ []) → Lossless calls := by
  intro h
  have hlength : (replicate (2 ^ 32) (ascii 'a')).length = 2 ^ 32 := length_replicate
  have hrest : ∃ rest, replicate (2 ^ 32) (ascii 'a') = ascii 'a' :: ascii 'a' :: rest := by
    have hsize : 2 ^ 32 = 4294967294 + 1 + 1 := by norm_num
    rw [hsize, replicate_succ, replicate_succ]
    exact ⟨_, rfl⟩
  generalize replicate (2 ^ 32) (ascii 'a') = longName at hlength hrest
  obtain ⟨rest, hrest⟩ := hrest
  apply not_lossless_longName hrest hlength
  apply h
  simp [callNames, Call.name?, hrest]

end Msvc
end USprache.CodeBuilder
