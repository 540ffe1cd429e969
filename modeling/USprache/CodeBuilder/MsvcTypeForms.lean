import USprache.CodeBuilder.MsvcFunctionTypes

/-!
# Forms of types

What is written in the way of a type shows its form: the kind of the type and what it is made
of, and for classes and enums the qualified name.
-/

namespace USprache.CodeBuilder.WithArgs.ManglerMsvc

open LexSynt Library Msvc List

inductive HeadForm where
  | simple (type : FundamentalType)
  | keyword (name : Text)
  | array (dimensions : List UInt64) (elementType : LangType)
  | rawPointer (elementType : LangType)
  | functionPointer (functionType : FunctionType)
  | named (names : List QName)
  | enum_ (names : List QName)

def isByteType : FundamentalType → Bool
  | .byte8_ | .byte16_ | .byte32_ | .byte64_ | .byte128_ => true
  | _ => false

namespace HeadForm

def calls (modifier : String) : HeadForm → List Call
  | simple type => encodeFundamentalType type
  | keyword name => push "U" ++ [.pushElement name] ++ push "@" ++ push "@"
  | array dimensions elementType =>
    encodeDimensions dimensions ++ encodeHead modifier (.type elementType)
  | rawPointer elementType =>
    push "P" ++ push modifier ++ push "A" ++ encodeHead modifier (.type elementType)
  | functionPointer functionType => push "P" ++ push "6" ++ encodeFunctionType modifier functionType
  | named names => push "U" ++ names.flatMap (QName.calls modifier) ++ push "@"
  | enum_ names => push "W" ++ push "4" ++ names.flatMap (QName.calls modifier) ++ push "@"

def IsValid (Valid : Head → Prop) : HeadForm → Prop
  | simple type => isByteType type = false
  | keyword name => IsKeyword name
  | array dimensions elementType => dimensions ≠ [] ∧ Valid (.type elementType)
  | rawPointer elementType => Valid (.type elementType)
  | functionPointer functionType => FunctionValid Valid functionType
  | named names => ∀ q ∈ names, q.IsValid Valid
  | enum_ names => ∀ q ∈ names, q.IsValid Valid

inductive Kind where
  | simple | class_ | array | pointer | enum_
deriving DecidableEq

def kind : HeadForm → Kind
  | simple _ => .simple
  | keyword _ | named _ => .class_
  | array .. => .array
  | rawPointer _ | functionPointer _ => .pointer
  | enum_ _ => .enum_

def kindOf (b : UInt8) : Kind :=
  if b = ascii 'U' then .class_
  else if b = ascii 'Y' then .array
  else if b = ascii 'P' then .pointer
  else if b = ascii 'W' then .enum_
  else .simple

theorem IsValid.emit_start (modifier : String) {Valid : Head → Prop} {form : HeadForm}
    (h : form.IsValid Valid) (names : List Text) :
    ∃ b r, emit names (form.calls modifier) = b :: r ∧ kindOf b = form.kind := by
  cases form with
  | simple t => cases t <;> first | exact ⟨_, _, rfl, by decide⟩ | cases h
  | keyword name | named names => exact ⟨ascii 'U', _, rfl, rfl⟩
  | array dimensions elTy =>
    obtain ⟨dimension, others, rfl⟩ := exists_cons_of_ne_nil h.1
    exact ⟨ascii 'Y', _, rfl, rfl⟩
  | rawPointer elTy | functionPointer functionType => exact ⟨ascii 'P', _, rfl, rfl⟩
  | enum_ names => exact ⟨ascii 'W', _, rfl, rfl⟩

end HeadForm

variable {modifier : String} {Valid : Head → Prop}

def simpleTypes : List FundamentalType :=
  [.void_, .bool_, .i8_, .u8_, .i16_, .u16_, .i32_, .u32_, .i64_, .u64_, .i128_, .u128_,
    .ssize_type_, .size_type_, .f32_, .f64_, .char8_, .char16_, .char32_]

theorem simple_decodes :
    Decodes getFundamentalTypeMangledName (fun t => isByteType t = false) (fun _ => True) := by
  have hall : ∀ t, isByteType t = false → t ∈ simpleTypes := by
    intro t h
    cases t <;> first | decide | cases h
  have hfree : ∀ t ∈ simpleTypes, ∀ t' ∈ simpleTypes,
      getFundamentalTypeMangledName t <+: getFundamentalTypeMangledName t' → t = t' := by
    decide +kernel
  intro t t' r r' hty hty' _ _ heq
  have hsame : t = t' := by
    rcases prefix_or_prefix_of_prefix ⟨r, heq⟩ (prefix_append _ r') with hle | hle
    · exact hfree t (hall t hty) t' (hall t' hty') hle
    · exact (hfree t' (hall t' hty') t (hall t hty) hle).symm
  subst hsame
  exact ⟨rfl, append_cancel_left heq⟩

theorem keyword_terminator_notMem {n : Text} (h : IsKeyword n) : terminator ∉ n := by
  obtain ⟨kw, rfl⟩ := h
  exact notMem_identifier kw.isIdentifier (by decide) (by decide)

variable {qs : List QName}

theorem keyword_ne_names {n : Text} (h : IsKeyword n) {names : List Text}
    (hlen : names.length ≤ numBackReferences) (hok : ∀ q ∈ qs, q.IsValid Valid) (r r' : Text) :
    n ++ (asciiText "@" ++ r) ≠
      emit names (qs.flatMap (QName.calls modifier)) ++ (asciiText "@" ++ r') := by
  obtain ⟨kw, rfl⟩ := h
  obtain ⟨b, text, ht, hd, -⟩ := identifier_start kw.isIdentifier
  have hquestion : b ≠ ascii '?' := by
    rintro rfl
    apply notMem_identifier kw.isIdentifier (b := ascii '?') (by decide) (by decide)
    rw [ht]
    exact mem_cons_self
  have hb : b ≠ terminator := by
    rintro rfl
    apply keyword_terminator_notMem ⟨kw, rfl⟩
    rw [ht]
    exact mem_cons_self
  intro heq
  cases qs with
  | nil =>
    rw [ht] at heq
    exact hb (cons.inj heq).1
  | cons q qs =>
    have hq := hok q mem_cons_self
    rw [flatMap_cons, emit_append, append_assoc, QName.emit_calls, emitName] at heq
    cases hfd : names.idxOf? (q.str modifier) with
    | some i =>
      obtain ⟨hlt, -, -⟩ := idxOf?_eq_some_iff.1 hfd
      rw [hfd, ht] at heq
      rw [(cons.inj heq).1] at hd
      exact hd (isDigit_digit (by omega))
    | none =>
      rw [hfd] at heq
      cases q with
      | plain plainN =>
        have hn : IsTypeName plainN := hq
        rw [append_assoc] at heq
        exact hn.ne_keyword kw (terminated_decodes
          (keyword_terminator_notMem ⟨kw, rfl⟩) hn.terminator_notMem heq).1.symm
      | template form =>
        obtain ⟨text', ht'⟩ := template_text_start modifier form
        dsimp only [QName.str] at heq
        rw [ht, ht'] at heq
        exact hquestion (cons.inj heq).1

theorem dimensions_decodes {ds ds' : List UInt64} {r r' : Text} (hlen : ds.length = ds'.length)
    (heq : ds.flatMap (fun sz => sizeText sz.toNat) ++ r =
      ds'.flatMap (fun sz => sizeText sz.toNat) ++ r') :
    ds = ds' ∧ r = r' := by
  induction ds generalizing ds' with
  | nil =>
    obtain rfl := length_eq_zero_iff.1 hlen.symm
    exact ⟨rfl, heq⟩
  | cons dim ds ih =>
    cases ds' with
    | nil => cases hlen
    | cons dim' ds' =>
      rw [flatMap_cons, flatMap_cons, append_assoc, append_assoc] at heq
      obtain ⟨hsz, htl⟩ := sizeText_decodes dim.toNat_lt dim'.toNat_lt heq
      obtain ⟨hdim, hrs⟩ := ih (Nat.succ.inj hlen) htl
      rw [UInt64.toNat_inj.1 hsz, hdim]
      exact ⟨rfl, hrs⟩

theorem callNames_encodeDimensions (ds : List UInt64) : callNames (encodeDimensions ds) = [] := by
  rw [encodeDimensions]
  split
  · rfl
  · simp only [callNames_append, callNames_flatMap]
    simp [push, encodeSize, encodeNumber]

variable {ds : List UInt64}

theorem emit_encodeDimensions (h : ds ≠ []) (names : List Text) :
    emit names (encodeDimensions ds) = asciiText "Y" ++ (sizeText ds.length ++
      ds.flatMap (fun sz => sizeText sz.toNat)) := by
  rw [emit_of_callNames_nil (callNames_encodeDimensions ds), encodeDimensions,
    if_neg (by simpa using h)]
  show plainText _ = _
  simp only [plainText_append, plainText_push, plainText_encodeSize, plainText_flatMap,
    append_assoc]

theorem sizeText_ne_nil (n : Nat) : sizeText n ≠ [] := by
  rw [sizeText]
  rcases absValueText_cases (Nat.mod_lt n (by decide : 0 < 2 ^ 64)) with ⟨-, -, ht⟩ |
    ⟨digits, ht, -⟩
  · rw [ht]
    exact cons_ne_nil _ _
  · rw [ht]
    exact append_ne_nil_of_right_ne_nil _ (cons_ne_nil _ _)

theorem length_dimensions_le (ds : List UInt64) :
    ds.length ≤ (ds.flatMap (fun sz => sizeText sz.toNat)).length := by
  induction ds with
  | nil => exact Nat.le_refl _
  | cons dim ds ih =>
    have hpos := length_pos_of_ne_nil (sizeText_ne_nil dim.toNat)
    rw [flatMap_cons, length_append, length_cons]
    omega

section

attribute [local simp] HeadForm.calls

variable (modifier) (names : List Text)

theorem emit_rawPointer (elTy : LangType) :
    emit names ((HeadForm.rawPointer elTy).calls modifier) =
      asciiText "P" ++ ((asciiText modifier ++ asciiText "A") ++
        emit names (encodeHead modifier (.type elTy))) := by
  rw [HeadForm.calls, emit_append, emit_append, emit_append]
  simp only [emit_push, tableAfter_append, tableAfter_push, append_assoc]

theorem emit_functionPointer (fTy : FunctionType) :
    emit names ((HeadForm.functionPointer fTy).calls modifier) =
      asciiText "P" ++ (asciiText "6" ++ emit names (encodeFunctionType modifier fTy)) := by
  rw [HeadForm.calls, emit_append, emit_append]
  simp only [emit_push, tableAfter_append, tableAfter_push, append_assoc]

theorem emit_named (qs : List QName) :
    emit names ((HeadForm.named qs).calls modifier) =
      asciiText "U" ++ (emit names (qs.flatMap (QName.calls modifier)) ++ asciiText "@") := by
  rw [HeadForm.calls, emit_append, emit_append]
  simp only [emit_push, tableAfter_push, append_assoc]

theorem emit_enum (qs : List QName) :
    emit names ((HeadForm.enum_ qs).calls modifier) =
      asciiText "W4" ++ (emit names (qs.flatMap (QName.calls modifier)) ++ asciiText "@") := by
  rw [HeadForm.calls, emit_append]
  rfl

theorem emit_keyword (n : Text) :
    emit names ((HeadForm.keyword n).calls modifier) =
      asciiText "U" ++ (n ++ (asciiText "@" ++ asciiText "@")) := by
  rw [HeadForm.calls, emit_append, emit_append, emit_append]
  simp only [emit_push, emit_pushElement, append_assoc]

theorem emit_array {ds : List UInt64} (h : ds ≠ []) (names : List Text) (elTy : LangType) :
    emit names ((HeadForm.array ds elTy).calls modifier) = asciiText "Y" ++ (sizeText ds.length ++
        (ds.flatMap (fun sz => sizeText sz.toNat) ++
          emit names (encodeHead modifier (.type elTy)))) := by
  rw [HeadForm.calls, emit_append, emit_encodeDimensions h,
    tableAfter_of_callNames_nil (callNames_encodeDimensions ds)]
  simp only [append_assoc]

end

variable {names : List Text}

theorem fits_array {elTy : LangType}
    (h : Fits names ((HeadForm.array ds elTy).calls modifier)) :
    Fits names (encodeHead modifier (.type elTy)) := by
  have hel := h.append.2
  rwa [tableAfter_of_callNames_nil (callNames_encodeDimensions ds)] at hel

theorem fits_length_dimensions {elTy : LangType} (hne : ds ≠ [])
    (h : Fits names ((HeadForm.array ds elTy).calls modifier)) :
    ds.length < 2 ^ 64 := by
  have hlen := h.length_lt
  have hle := length_dimensions_le ds
  rw [emit_array modifier hne] at hlen
  simp only [length_append] at hlen
  omega

theorem fits_names (lead : List Call) (hld : callNames lead = [])
    (h : Fits names (lead ++ qs.flatMap (QName.calls modifier) ++ push "@")) :
    Fits names (qs.flatMap (QName.calls modifier)) := by
  have hns := h.append.1.append.2
  rwa [tableAfter_of_callNames_nil hld] at hns

theorem names_decodes (hrd : Readable modifier Valid)
    (hlen : names.length ≤ numBackReferences) {qs' : List QName} {r r' : Text}
    (hok : ∀ q ∈ qs, q.IsValid Valid) (hok' : ∀ q ∈ qs', q.IsValid Valid)
    (hfit : Fits names (qs.flatMap (QName.calls modifier)))
    (hfit' : Fits names (qs'.flatMap (QName.calls modifier)))
    (heq : emit names (qs.flatMap (QName.calls modifier)) ++ (asciiText "@" ++ r) =
      emit names (qs'.flatMap (QName.calls modifier)) ++ (asciiText "@" ++ r')) :
    qs = qs' ∧ r = r' := by
  have hsto : ∀ r, StartsWith '@' (asciiText "@" ++ r) := fun _ => rfl
  obtain ⟨hns, hrs⟩ := qnames_reads hrd names hlen ⟨hok, hfit⟩ ⟨hok', hfit'⟩ (hsto r) (hsto r') heq
  exact ⟨hns, append_cancel_left hrs⟩

def ModifierFits (modifier : String) : Prop := ¬StartsWith '6' (asciiText modifier ++ asciiText "A")

theorem pointer_ne_function (hmod : ModifierFits modifier) (r r' : Text) :
    asciiText modifier ++ (asciiText "A" ++ r) ≠ asciiText "6" ++ r' := by
  intro heq
  apply hmod
  rw [← append_assoc] at heq
  obtain ⟨b, t, ht⟩ : ∃ b t, asciiText modifier ++ asciiText "A" = b :: t :=
    exists_cons_of_ne_nil (append_ne_nil_of_right_ne_nil _ (cons_ne_nil _ _))
  rw [ht] at heq
  rw [ht, (cons.inj heq).1]
  rfl

theorem form_reads (hmod : ModifierFits modifier) (hrd : Readable modifier Valid) :
    Reads (HeadForm.calls modifier) (HeadForm.IsValid Valid) (fun _ => True) := by
  rintro names hlen form form' rest rest' ⟨hok, hfit⟩ ⟨hok', hfit'⟩ _ _ heq
  obtain ⟨b, text, ht, hb⟩ := hok.emit_start modifier names
  obtain ⟨b', text', ht', hb'⟩ := hok'.emit_start modifier names
  have hk : form.kind = form'.kind := by
    have hbs : b = b' := by
      dsimp only at heq
      rw [ht, ht'] at heq
      exact (cons.inj heq).1
    rw [← hb, ← hb', hbs]
  cases form <;> cases form' <;> simp only [HeadForm.kind, reduceCtorEq] at hk
  case simple.simple type type' =>
    simp only [HeadForm.calls, encodeFundamentalType, emit_pushElement] at heq
    obtain ⟨rfl, hrs⟩ := simple_decodes hok hok' trivial trivial heq
    exact ⟨rfl, hrs⟩
  case keyword.keyword name name' =>
    simp only [emit_keyword, append_assoc] at heq
    obtain ⟨rfl, hrs⟩ := terminated_decodes (keyword_terminator_notMem hok)
      (keyword_terminator_notMem hok') (append_cancel_left heq)
    exact ⟨rfl, append_cancel_left hrs⟩
  case keyword.named name qs' =>
    simp only [emit_keyword, emit_named, append_assoc] at heq
    exact absurd (append_cancel_left heq) (keyword_ne_names hok hlen hok' _ _)
  case named.keyword qs name' =>
    simp only [emit_keyword, emit_named, append_assoc] at heq
    exact absurd (append_cancel_left heq).symm (keyword_ne_names hok' hlen hok _ _)
  case named.named qs qs' =>
    simp only [emit_named, append_assoc] at heq
    obtain ⟨rfl, hrs⟩ := names_decodes hrd hlen hok hok' (fits_names (push "U") rfl hfit)
      (fits_names (push "U") rfl hfit') (append_cancel_left heq)
    exact ⟨rfl, hrs⟩
  case enum_.enum_ qs qs' =>
    simp only [emit_enum, append_assoc] at heq
    obtain ⟨rfl, hrs⟩ := names_decodes hrd hlen hok hok'
      (fits_names (push "W" ++ push "4") rfl hfit)
      (fits_names (push "W" ++ push "4") rfl hfit') (append_cancel_left heq)
    exact ⟨rfl, hrs⟩
  case array.array dimensions elementType dimensions' elementType' =>
    simp only [emit_array modifier hok.1, emit_array modifier hok'.1, append_assoc] at heq
    obtain ⟨hsz, hbh⟩ := sizeText_decodes (fits_length_dimensions hok.1 hfit)
      (fits_length_dimensions hok'.1 hfit') (append_cancel_left heq)
    obtain ⟨rfl, hel⟩ := dimensions_decodes hsz hbh
    have hread : Head.type elementType = .type elementType' ∧ rest = rest' :=
      hrd.reads names hlen ⟨hok.2, fits_array hfit⟩ ⟨hok'.2, fits_array hfit'⟩
        trivial trivial hel
    rw [Head.type.inj hread.1]
    exact ⟨rfl, hread.2⟩
  case rawPointer.rawPointer elementType elementType' =>
    simp only [emit_rawPointer, append_assoc] at heq
    have hel := append_cancel_left (append_cancel_left (append_cancel_left heq))
    have hread : Head.type elementType = .type elementType' ∧ rest = rest' :=
      hrd.reads names hlen ⟨hok, hfit.append.2⟩ ⟨hok', hfit'.append.2⟩
        trivial trivial hel
    rw [Head.type.inj hread.1]
    exact ⟨rfl, hread.2⟩
  case rawPointer.functionPointer elementType functionType' =>
    simp only [emit_rawPointer, append_assoc] at heq
    exact absurd (append_cancel_left heq) (pointer_ne_function hmod _ _)
  case functionPointer.rawPointer functionType elementType' =>
    simp only [emit_rawPointer, emit_functionPointer, append_assoc] at heq
    exact absurd (append_cancel_left heq).symm (pointer_ne_function hmod _ _)
  case functionPointer.functionPointer functionType functionType' =>
    simp only [emit_functionPointer, append_assoc] at heq
    obtain ⟨rfl, hrs⟩ := function_reads hrd names hlen ⟨hok, hfit.append.2⟩
      ⟨hok', hfit'.append.2⟩ trivial trivial
      (append_cancel_left (append_cancel_left heq))
    exact ⟨rfl, hrs⟩

end USprache.CodeBuilder.WithArgs.ManglerMsvc
