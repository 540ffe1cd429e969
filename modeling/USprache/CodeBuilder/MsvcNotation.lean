import USprache.CodeBuilder.MsvcEmission

/-!
# Reading the reference notation

The notation of a function type is written without names, so its text does not depend on the
table.
-/

namespace USprache.CodeBuilder.WithArgs.ManglerMsvc

open LexSynt Library Msvc List Nat

def plainText (calls : List Call) : Text := calls.flatMap Call.uncompressed

theorem plainText_append (cs cs' : List Call) :
    plainText (cs ++ cs') = plainText cs ++ plainText cs' := flatMap_append

theorem plainText_flatMap {α : Type} (encode : α → List Call) (xs : List α) :
    plainText (xs.flatMap encode) = xs.flatMap (fun a => plainText (encode a)) := by
  rw [plainText, flatMap_assoc]
  rfl

@[simp] theorem plainText_push (str : String) : plainText (push str) = asciiText str := append_nil _

def sizeText (n : Nat) : Text := absValueText (n % 2 ^ 64)

@[simp] theorem plainText_encodeSize (n : Nat) : plainText (encodeSize n) = sizeText n := by
  have hbts : numberText (apInt64 n) false = sizeText n := by
    simp [numberText, apInt64, sizeText]
  exact (append_nil _).trans hbts

variable {r r' : Text}

theorem sizeText_decodes {n n' : Nat} (h : n < 2 ^ 64) (h' : n' < 2 ^ 64)
    (heq : sizeText n ++ r = sizeText n' ++ r') : n = n' ∧ r = r' := by
  rw [sizeText, sizeText, mod_eq_of_lt h, mod_eq_of_lt h'] at heq
  exact absValueText_decodes h h' trivial trivial heq

/-- Behind the size of a list there is what is behind that of another list. -/
theorem sizeText_rest {n n' : Nat} (heq : sizeText n ++ r = sizeText n' ++ r') : r = r' :=
  (absValueText_decodes (mod_lt _ (by decide)) (mod_lt _ (by decide)) trivial trivial heq).2

/-- The number that is written for the second part of a reference. -/
def tagNumber (second : UInt8) : Nat :=
  if second = paramReferenceNumber then '_'.toNat else 'a'.toNat + second.toNat

theorem tagNumber_inj {second second' : UInt8} (h : tagNumber second = tagNumber second') :
    second = second' := by
  have hbar : '_'.toNat = 95 := rfl
  have ha : 'a'.toNat = 97 := rfl
  rw [tagNumber, tagNumber] at h
  split at h <;> split at h
  case isTrue.isTrue heq heq' => rw [heq, heq']
  case isTrue.isFalse => omega
  case isFalse.isTrue => omega
  case isFalse.isFalse =>
    rw [← UInt8.toNat_inj]
    omega

theorem tagNumber_lt (second : UInt8) : tagNumber second < 2 ^ 64 := by
  have hbar : '_'.toNat = 95 := rfl
  have ha : 'a'.toNat = 97 := rfl
  have hlt := second.toNat_lt
  rw [tagNumber]
  split <;> omega

variable (parRef : ParamReference)

theorem plainText_encodeParamReference :
    plainText (encodeParamReference parRef) = asciiText "2$$BY01DD0" ++
      (sizeText ('0'.toNat + parRef.first.toNat) ++
        (asciiText "D0" ++ (sizeText (tagNumber parRef.second) ++ asciiText "@"))) := by
  rfl

theorem paramReference_decodes :
    Decodes (fun parRef => plainText (encodeParamReference parRef)) (fun _ => True)
      (fun _ => True) := by
  rintro ⟨first, second⟩ ⟨first', second'⟩ r r' _ _ _ _ heq
  have hz : '0'.toNat = 48 := rfl
  have hlt := first.toNat_lt
  have hlt' := first'.toNat_lt
  simp only [plainText_encodeParamReference, append_assoc] at heq
  obtain ⟨hfst, heq⟩ := sizeText_decodes (by omega) (by omega) (append_cancel_left heq)
  obtain ⟨hsnd, heq⟩ := sizeText_decodes (tagNumber_lt _) (tagNumber_lt _) (append_cancel_left heq)
  have hfst : first = first' := by
    rw [← UInt8.toNat_inj]
    omega
  rw [hfst, tagNumber_inj hsnd]
  exact ⟨rfl, append_cancel_left heq⟩

def StartsWith (c : Char) (text : Text) : Prop := text.head? = some (ascii c)

theorem elements_decodes {α : Type} {t : α → Text} (h : Decodes t (fun _ => True) (fun _ => True))
    (hst : ∀ a r, StartsWith '2' (t a ++ r)) {xs xs' : List α}
    (heq : xs.flatMap t ++ (asciiText "@" ++ r) =
      xs'.flatMap t ++ (asciiText "@" ++ r')) : xs = xs' ∧ r = r' := by
  have hlist := h.list (StartsWith '@') (fun a r _ => ⟨trivial, fun hsto => by
    rw [StartsWith, hst a r] at hsto
    exact absurd (Option.some.inj hsto) (by decide)⟩) (fun _ _ => trivial)
  have hsto : ∀ r, StartsWith '@' (asciiText "@" ++ r) := fun _ => rfl
  obtain ⟨hels, hrs⟩ := hlist (fun _ _ => trivial) (fun _ _ => trivial) (hsto r) (hsto r') heq
  exact ⟨hels, append_cancel_left hrs⟩

theorem paramReference_start (r : Text) :
    StartsWith '2' (plainText (encodeParamReference parRef) ++ r) := by
  rfl

theorem plainText_encodePollution (pollution : ReferencePollution) :
    plainText (encodePollution pollution) = asciiText "2$$BY111D" ++
      (plainText (encodeParamReference pollution.dst) ++
        (plainText (encodeParamReference pollution.src) ++ asciiText "@")) := by
  have htwo : sizeText 2 = asciiText "1" := rfl
  simp only [encodePollution, plainText_append, append_assoc]
  rfl

theorem pollution_decodes :
    Decodes (fun pollution => plainText (encodePollution pollution)) (fun _ => True)
      (fun _ => True) := by
  rintro ⟨dst, src⟩ ⟨dst', src'⟩ r r' _ _ _ _ heq
  simp only [plainText_encodePollution, append_assoc] at heq
  obtain ⟨hdst, hbh⟩ :=
    paramReference_decodes trivial trivial trivial trivial (append_cancel_left heq)
  obtain ⟨hsrc, hend⟩ := paramReference_decodes trivial trivial trivial trivial hbh
  rw [hdst, hsrc]
  exact ⟨rfl, append_cancel_left hend⟩

variable (retRefs : List ParamReference)

theorem plainText_encodeReferencesArray :
    plainText (encodeReferencesArray retRefs) = asciiText "2$$BY1" ++
      (sizeText retRefs.length ++ (asciiText "1D" ++
        (retRefs.flatMap (fun ref => plainText (encodeParamReference ref)) ++ asciiText "@"))) := by
  have htwo : sizeText 2 = asciiText "1" := rfl
  simp only [encodeReferencesArray, plainText_append, plainText_encodeSize, plainText_flatMap,
    append_assoc]
  rfl

theorem referencesArray_decodes :
    Decodes (fun refs => plainText (encodeReferencesArray refs)) (fun _ => True)
      (fun _ => True) := by
  intro refs references' r r' _ _ _ _ heq
  simp only [plainText_encodeReferencesArray, append_assoc] at heq
  have hbody := append_cancel_left (sizeText_rest (append_cancel_left heq))
  exact elements_decodes paramReference_decodes paramReference_start hbody

/-- What the notation of a function type adds to its params. -/
inductive Mark where
  | unsafe_
  | pollution (referencesPollution : List ReferencePollution)
  | references (returnReferences : List ParamReference)
  | innerReferences (returnInnerReferences : List (List ParamReference))

def pollutionContent (referencesPollution : List ReferencePollution) : List Call :=
  push "$" ++ push "2" ++ push "$$B" ++ push "Y2" ++ encodeSize referencesPollution.length ++
    encodeSize 2 ++ encodeSize 2 ++ encodeFundamentalType .char8_ ++
    referencesPollution.flatMap encodePollution ++ push "@"

def referencesContent (returnReferences : List ParamReference) : List Call :=
  push "$" ++ encodeReferencesArray returnReferences

def innerReferencesContent (returnInnerReferences : List (List ParamReference)) : List Call :=
  push "$" ++ push "2" ++ push "U" ++ push "tup" ++ push "@" ++ push "@" ++
    returnInnerReferences.flatMap encodeReferencesArray ++ push "@"

def functionMarks (isUnsafe : Bool) (returnReferences : List ParamReference)
    (returnInnerReferences : List (List ParamReference))
    (referencesPollution : List ReferencePollution) : List Mark :=
  (if isUnsafe then [.unsafe_] else []) ++
    (if referencesPollution.isEmpty then [] else [.pollution referencesPollution]) ++
    (if returnReferences.isEmpty then [] else [.references returnReferences]) ++
    (if returnInnerReferences.isEmpty then [] else [.innerReferences returnInnerReferences])

def encodeMark : Mark → List Call
  | .unsafe_ => push "U" ++ push "unsafe" ++ push "@" ++ push "@"
  | .pollution referencesPollution => encodeReferencePollution referencesPollution
  | .references returnReferences => encodeReturnReferences returnReferences
  | .innerReferences returnInnerReferences => encodeReturnInnerReferences returnInnerReferences

theorem encodeFunctionNotation_eq (isUn : Bool) (retRefs : List ParamReference)
    (retInnRefs : List (List ParamReference))
    (refsPollution : List ReferencePollution) :
    encodeFunctionNotation isUn retRefs retInnRefs refsPollution =
      (functionMarks isUn retRefs retInnRefs refsPollution).flatMap encodeMark := by
  simp only [encodeFunctionNotation, functionMarks, unlessEmpty]
  cases isUn <;> cases refsPollution.isEmpty <;> cases retRefs.isEmpty <;>
    cases retInnRefs.isEmpty <;> simp [encodeMark]

theorem functionMarks_inj {isUn isUn' : Bool} {rr rr' : List ParamReference}
    {rir rir' : List (List ParamReference)} {rp rp' : List ReferencePollution}
    (h : functionMarks isUn rr rir rp = functionMarks isUn' rr' rir' rp') :
    isUn = isUn' ∧ rr = rr' ∧ rir = rir' ∧ rp = rp' := by
  cases isUn <;> cases isUn' <;> cases rr <;> cases rr' <;> cases rir <;> cases rir' <;>
    cases rp <;> cases rp' <;> simp_all [functionMarks]

theorem pollutionContent_decodes :
    Decodes (fun rp => plainText (pollutionContent rp)) (fun _ => True) (fun _ => True) := by
  intro rp rp' r r' _ _ _ _ heq
  have ht : ∀ rp r, plainText (pollutionContent rp) ++ r = asciiText "$2$$BY2" ++
      (sizeText rp.length ++ (asciiText "11D" ++
        (rp.flatMap (fun pollution => plainText (encodePollution pollution)) ++
          (asciiText "@" ++ r)))) := by
    intro rp r
    have htwo : sizeText 2 = asciiText "1" := rfl
    simp only [pollutionContent, plainText_append, plainText_encodeSize, plainText_flatMap,
      append_assoc]
    rfl
  simp only [ht] at heq
  have hbody := append_cancel_left (sizeText_rest (append_cancel_left heq))
  refine elements_decodes pollution_decodes (fun pollution r => ?_) hbody
  rfl

theorem referencesContent_decodes :
    Decodes (fun rr => plainText (referencesContent rr)) (fun _ => True) (fun _ => True) := by
  intro rr rr' r r' _ _ _ _ heq
  simp only [referencesContent, plainText_append, append_assoc] at heq
  exact referencesArray_decodes trivial trivial trivial trivial (append_cancel_left heq)

theorem innerReferencesContent_decodes :
    Decodes (fun rir => plainText (innerReferencesContent rir)) (fun _ => True) (fun _ => True) := by
  intro rir rir' r r' _ _ _ _ heq
  simp only [innerReferencesContent, plainText_append, plainText_flatMap,
    append_assoc, append_cancel_left_eq] at heq
  refine elements_decodes referencesArray_decodes (fun references r => ?_) heq
  rfl

theorem callNames_encodeParamReference :
    callNames (encodeParamReference parRef) = [] := rfl

theorem callNames_encodeReferencesArray :
    callNames (encodeReferencesArray retRefs) = [] := by
  simp only [encodeReferencesArray, callNames_append, callNames_flatMap,
    callNames_encodeParamReference]
  simp [push, encodeSize, encodeNumber, encodeFundamentalType]

theorem callNames_pollutionContent (refsPollution : List ReferencePollution) :
    callNames (pollutionContent refsPollution) = [] := by
  have hpol : ∀ pollution, callNames (encodePollution pollution) = [] := fun _ => rfl
  simp only [pollutionContent, callNames_append, callNames_flatMap, hpol]
  simp [push, encodeSize, encodeNumber, encodeFundamentalType]

theorem callNames_referencesContent :
    callNames (referencesContent retRefs) = [] := by
  rw [referencesContent, callNames_append, callNames_encodeReferencesArray]
  rfl

theorem callNames_innerReferencesContent (retInnRefs : List (List ParamReference)) :
    callNames (innerReferencesContent retInnRefs) = [] := by
  simp only [innerReferencesContent, callNames_append, callNames_flatMap,
    callNames_encodeReferencesArray]
  simp [push]

end USprache.CodeBuilder.WithArgs.ManglerMsvc
