import USprache.CodeBuilder.MsvcNames

/-!
# Template names

A template name is read by its name and by what is between the name and the end of the list.
A qualified name is a list of names, each of them written out or replaced by a digit.
-/

namespace USprache.CodeBuilder.WithArgs.ManglerMsvc

open LexSynt Library Msvc List Option

inductive TemplateForm where
  | class_ (name : Text) (args : List TemplateArg)
  | tuple (elementTypes : List LangType)
  | pollution (referencesPollution : List ReferencePollution)
  | references (returnReferences : List ParamReference)
  | innerReferences (returnInnerReferences : List (List ParamReference))

namespace TemplateForm

variable (modifier : String) (Valid : Head → Prop)

def name : TemplateForm → Text
  | class_ name _ => name
  | tuple _ => Keyword.tup_.text
  | pollution _ => asciiText "_RP"
  | references _ => asciiText "_RR"
  | innerReferences _ => asciiText "_RIR"

def content : TemplateForm → List Call
  | class_ _ args => encodeTemplateArgs modifier args
  | tuple elementTypes => encodeElementTypes modifier elementTypes
  | pollution referencesPollution => pollutionContent referencesPollution
  | references returnReferences => referencesContent returnReferences
  | innerReferences returnInnerReferences => innerReferencesContent returnInnerReferences

def text (form : TemplateForm) : Text :=
  written (push "?$" ++ [.encodeName form.name] ++ form.content modifier ++ push "@")

def IsValid : TemplateForm → Prop
  | class_ name args => IsTypeName name ∧ ∀ arg ∈ args, ArgValid Valid arg
  | tuple elementTypes => ∀ type ∈ elementTypes, Valid (.type type)
  | _ => True

end TemplateForm

variable {modifier : String} {Valid : Head → Prop}

namespace TemplateForm

variable {form : TemplateForm}

theorem IsValid.terminator_notMem_name (h : form.IsValid Valid) : terminator ∉ form.name := by
  cases form with
  | class_ name args => exact h.1.terminator_notMem
  | tuple elementTypes => exact notMem_identifier Keyword.tup_.isIdentifier (by decide) (by decide)
  | pollution referencesPollution => exact (by decide : terminator ∉ asciiText "_RP")
  | references returnReferences => exact (by decide : terminator ∉ asciiText "_RR")
  | innerReferences returnInnerReferences => exact (by decide : terminator ∉ asciiText "_RIR")

theorem IsValid.name_ne_nil (h : form.IsValid Valid) : form.name ≠ [] := by
  cases form with
  | class_ name args =>
    obtain ⟨b, rest, hn, -⟩ := h.1.exists_cons
    rw [hn]
    exact cons_ne_nil _ _
  | tuple elementTypes | pollution referencesPollution | references returnReferences
  | innerReferences returnInnerReferences => exact cons_ne_nil _ _

theorem IsValid.argsOf_tuple {elTs : List LangType} (h : (tuple elTs).IsValid Valid) :
    ∀ arg ∈ elTs.map TemplateArg.type, ArgValid Valid arg := by
  intro arg harg
  obtain ⟨t, hty, rfl⟩ := mem_map.1 harg
  exact h t hty

theorem named_args (hrd : Readable modifier Valid) {as : List TemplateArg}
    (h : ∀ arg ∈ as, ArgValid Valid arg) : Named (encodeTemplateArgs modifier as) := by
  rw [encodeTemplateArgs_eq]
  exact named_flatMap fun arg harg => named_arg hrd (h arg harg)

theorem IsValid.named_content (hrd : Readable modifier Valid)
    (h : form.IsValid Valid) : Named (form.content modifier) := by
  cases form with
  | class_ name args => exact named_args hrd h.2
  | tuple elementTypes =>
    rw [content, encodeElementTypes_eq]
    exact named_args hrd h.argsOf_tuple
  | pollution rp => exact named_of_callNames_nil (callNames_pollutionContent rp)
  | references rr => exact named_of_callNames_nil (callNames_referencesContent rr)
  | innerReferences rir => exact named_of_callNames_nil (callNames_innerReferencesContent rir)

theorem IsValid.text_eq (hrd : Readable modifier Valid)
    (h : form.IsValid Valid) (hsz : (form.text modifier).length < 2 ^ 32) :
    form.text modifier = asciiText "?$" ++ (form.name ++ (asciiText "@" ++
        (emit [form.name] (form.content modifier) ++ asciiText "@"))) ∧
      Fits [form.name] (form.content modifier) := by
  have hnam : Named (push "?$" ++ [.encodeName form.name] ++ form.content modifier ++ push "@") := by
    rw [named_append, named_append, named_append]
    refine ⟨⟨⟨named_of_callNames_nil rfl, ?_⟩, h.named_content hrd⟩, named_of_callNames_nil rfl⟩
    intro name hn
    rw [mem_singleton.1 hn]
    exact h.name_ne_nil
  obtain ⟨ht, hfit⟩ := written_eq hnam hsz
  have htab : tableAfter [] (push "?$" ++ [.encodeName form.name]) = [form.name] := by
    rfl
  have hct := hfit.append.1.append.2
  refine ⟨?_, hct⟩
  rw [text, ht, emit_append, emit_append, emit_append, htab]
  simp [emitName, terminatorIf, terminator, asciiText]

theorem name_mem_reservedNames (h : ∀ n as, form ≠ class_ n as) : form.name ∈ reservedNames := by
  cases form with
  | class_ n as => exact absurd rfl (h n as)
  | tuple elementTypes => exact (by decide : Keyword.tup_.text ∈ reservedNames)
  | pollution rp => exact (by decide : asciiText "_RP" ∈ reservedNames)
  | references rr => exact (by decide : asciiText "_RR" ∈ reservedNames)
  | innerReferences rir => exact (by decide : asciiText "_RIR" ∈ reservedNames)

end TemplateForm

theorem args_decodes (hrd : Readable modifier Valid) {n : Text} {as as' : List TemplateArg}
    {r r' : Text} (hok : ∀ arg ∈ as, ArgValid Valid arg)
    (hok' : ∀ arg ∈ as', ArgValid Valid arg)
    (hfit : Fits [n] (encodeTemplateArgs modifier as))
    (hfit' : Fits [n] (encodeTemplateArgs modifier as'))
    (heq : emit [n] (encodeTemplateArgs modifier as) ++ (asciiText "@" ++ r) =
      emit [n] (encodeTemplateArgs modifier as') ++ (asciiText "@" ++ r')) :
    as = as' ∧ r = r' := by
  have hsto : ∀ r, StartsWith '@' (asciiText "@" ++ r) := fun _ => rfl
  obtain ⟨hargs, hrs⟩ := args_reads hrd [n] (Nat.succ_le_succ (Nat.zero_le 9)) ⟨hok, hfit⟩ ⟨hok', hfit'⟩
    (hsto r) (hsto r') heq
  exact ⟨hargs, append_cancel_left hrs⟩

theorem content_decodes {α : Type} {encode : α → List Call}
    (h : Decodes (fun a => plainText (encode a)) (fun _ => True) (fun _ => True))
    (hns : ∀ a, callNames (encode a) = []) {ns : List Text} {a a' : α} {r r' : Text}
    (heq : emit ns (encode a) ++ (asciiText "@" ++ r) =
      emit ns (encode a') ++ (asciiText "@" ++ r')) : a = a' ∧ r = r' := by
  rw [emit_of_callNames_nil (hns a), emit_of_callNames_nil (hns a')] at heq
  obtain ⟨ha, hrs⟩ := h trivial trivial trivial trivial heq
  exact ⟨ha, append_cancel_left hrs⟩

theorem template_decodes (hrd : Readable modifier Valid) : Decodes (TemplateForm.text modifier)
    (fun form => form.IsValid Valid ∧ (form.text modifier).length < 2 ^ 32) (fun _ => True) := by
  rintro form form' rest rest' ⟨hok, hsz⟩ ⟨hok', hsz'⟩ _ _ heq
  obtain ⟨ht, hfit⟩ := hok.text_eq hrd hsz
  obtain ⟨ht', hfit'⟩ := hok'.text_eq hrd hsz'
  rw [ht, ht'] at heq
  simp only [append_assoc] at heq
  obtain ⟨hn, hct⟩ := terminated_decodes hok.terminator_notMem_name
    hok'.terminator_notMem_name (append_cancel_left heq)
  rw [← hn] at hct hfit'
  have hcl : ∀ {n : Text} {as : List TemplateArg} {other : TemplateForm},
      (TemplateForm.class_ n as).IsValid Valid → n = other.name → ∃ n' as', other = .class_ n' as' := by
    intro n as other hcl hn
    by_contra hno
    push Not at hno
    exact hcl.1.isDeclaredName.not_reserved
      (hn ▸ TemplateForm.name_mem_reservedNames fun n' as' => hno n' as')
  cases form with
  | class_ n as =>
    obtain ⟨n', as', rfl⟩ := hcl hok hn
    obtain ⟨hargs, hrs⟩ := args_decodes hrd hok.2 hok'.2 hfit hfit' hct
    have hn : n = n' := hn
    rw [hn, hargs]
    exact ⟨rfl, hrs⟩
  | tuple types =>
    cases form' with
    | class_ n' as' => obtain ⟨n, as, heq⟩ := hcl hok' hn.symm; cases heq
    | tuple ts' =>
      simp only [TemplateForm.content, encodeElementTypes_eq] at hct hfit hfit'
      obtain ⟨hargs, hrs⟩ := args_decodes hrd hok.argsOf_tuple hok'.argsOf_tuple hfit hfit' hct
      have hinj : Function.Injective TemplateArg.type := fun _ _ h => TemplateArg.type.inj h
      rw [map_injective_iff.2 hinj hargs]
      exact ⟨rfl, hrs⟩
    | pollution rp' | references rr' | innerReferences rir' =>
      exact absurd hn (by simp only [TemplateForm.name]; decide)
  | pollution rp =>
    cases form' with
    | class_ n' as' => obtain ⟨n, as, heq⟩ := hcl hok' hn.symm; cases heq
    | pollution rp' =>
      obtain ⟨rfl, hrs⟩ := content_decodes pollutionContent_decodes callNames_pollutionContent hct
      exact ⟨rfl, hrs⟩
    | tuple ts' | references rr' | innerReferences rir' =>
      exact absurd hn (by simp only [TemplateForm.name]; decide)
  | references rr =>
    cases form' with
    | class_ n' as' => obtain ⟨n, as, heq⟩ := hcl hok' hn.symm; cases heq
    | references rr' =>
      obtain ⟨rfl, hrs⟩ := content_decodes referencesContent_decodes callNames_referencesContent hct
      exact ⟨rfl, hrs⟩
    | tuple ts' | pollution rp' | innerReferences rir' =>
      exact absurd hn (by simp only [TemplateForm.name]; decide)
  | innerReferences rir =>
    cases form' with
    | class_ n' as' => obtain ⟨n, as, heq⟩ := hcl hok' hn.symm; cases heq
    | innerReferences rir' =>
      obtain ⟨rfl, hrs⟩ :=
        content_decodes innerReferencesContent_decodes callNames_innerReferencesContent hct
      exact ⟨rfl, hrs⟩
    | tuple ts' | pollution rp' | references rr' =>
      exact absurd hn (by simp only [TemplateForm.name]; decide)

inductive QName where
  | plain (name : Text)
  | template (form : TemplateForm)

namespace QName

def str (modifier : String) : QName → Text
  | plain name => name
  | template form => form.text modifier

def useTerminator : QName → Bool
  | plain _ => true
  | template _ => false

def calls (modifier : String) : QName → List Call
  | plain name => [.encodeName name]
  | template form => [.encodeNameNoTerminator (form.text modifier)]

def IsValid (Valid : Head → Prop) : QName → Prop
  | plain name => IsTypeName name
  | template form => form.IsValid Valid

@[simp] theorem emit_calls (ns : List Text) (q : QName) :
    emit ns (q.calls modifier) = emitName ns (q.str modifier) q.useTerminator := by
  cases q with
  | plain n => exact emit_encodeName ns n
  | template form => exact emit_encodeNameNoTerminator ns _

@[simp] theorem callNames_calls (q : QName) : callNames (q.calls modifier) = [q.str modifier] := by
  cases q <;> rfl

end QName

theorem template_text_start (modifier : String) (form : TemplateForm) :
    ∃ r, form.text modifier = ascii '?' :: r := by
  have hpre := (({} : Msvc.ManglerState).run (push "?$")).res_prefix_run
    ([.encodeName form.name] ++ form.content modifier ++ push "@")
  rw [← Msvc.ManglerState.run_append] at hpre
  obtain ⟨r, hrs⟩ := hpre
  refine ⟨ascii '$' :: r, ?_⟩
  rw [TemplateForm.text, written, append_assoc, append_assoc, ← append_assoc [_], ← hrs]
  rfl

/-- The first byte tells plain names from template names, and both from digits. -/
theorem QName.IsValid.exists_cons (modifier : String) {q : QName} (h : q.IsValid Valid) :
    ∃ b r, q.str modifier = b :: r ∧ ¬IsDigit b ∧ b ≠ terminator ∧
      (b = ascii '?' ↔ q.useTerminator = false) := by
  cases q with
  | plain name =>
    obtain ⟨b, r, hn, hd, hq⟩ := IsTypeName.exists_cons h
    refine ⟨b, r, hn, hd, ?_, by simp [hq, useTerminator]⟩
    rintro rfl
    apply IsTypeName.terminator_notMem h
    rw [hn]
    exact mem_cons_self
  | template form =>
    obtain ⟨r, hrs⟩ := template_text_start modifier form
    exact ⟨_, r, hrs, by decide, by decide, by simp [useTerminator]⟩

theorem isDigit_digit {i : Nat} (h : i < numBackReferences) : IsDigit (digit i) := by
  have hall : ∀ i < numBackReferences, '0'.toNat ≤ (digit i).toNat ∧ (digit i).toNat ≤ '9'.toNat := by
    decide
  exact hall i h

theorem digit_inj {i j : Nat} (hi : i < numBackReferences) (hj : j < numBackReferences)
    (h : digit i = digit j) : i = j := by
  have hall : ∀ i < numBackReferences, ∀ j < numBackReferences, digit i = digit j → i = j := by decide
  exact hall i hi j hj h

theorem qname_decodes (hrd : Readable modifier Valid) :
    Decodes (fun q : QName => q.str modifier ++ terminatorIf q.useTerminator)
      (fun q => q.IsValid Valid ∧ (q.str modifier).length < 2 ^ 32) (fun _ => True) := by
  rintro q q' rest rest' ⟨hok, hsz⟩ ⟨hok', hsz'⟩ _ _ heq
  obtain ⟨b, text, ht, -, -, hb⟩ := hok.exists_cons modifier
  obtain ⟨b', text', ht', -, -, hb'⟩ := hok'.exists_cons modifier
  have hk : q.useTerminator = q'.useTerminator := by
    cases hq : q.useTerminator <;> cases hq' : q'.useTerminator <;> simp_all
  cases q with
  | plain name =>
    cases q' with
    | plain n' =>
      simp only [append_assoc] at heq
      obtain ⟨rfl, hrs⟩ := terminated_decodes (IsTypeName.terminator_notMem hok)
        (IsTypeName.terminator_notMem hok') heq
      exact ⟨rfl, hrs⟩
    | template form' => cases hk
  | template form =>
    cases q' with
    | plain n' => cases hk
    | template form' =>
      have hnil : terminatorIf false = [] := rfl
      simp only [QName.useTerminator, hnil, append_nil] at heq
      obtain ⟨rfl, hrs⟩ := template_decodes hrd ⟨hok, hsz⟩ ⟨hok', hsz'⟩ trivial trivial heq
      exact ⟨rfl, hrs⟩

theorem qname_eq_of_str (hrd : Readable modifier Valid) {q q' : QName}
    (hok : q.IsValid Valid) (hok' : q'.IsValid Valid)
    (hsz : (q.str modifier).length < 2 ^ 32) (heq : q.str modifier = q'.str modifier) : q = q' := by
  have hsz' := heq ▸ hsz
  obtain ⟨b, text, ht, -, -, hb⟩ := hok.exists_cons modifier
  obtain ⟨b', text', ht', -, -, hb'⟩ := hok'.exists_cons modifier
  have hk : q.useTerminator = q'.useTerminator := by
    cases hq : q.useTerminator <;> cases hq' : q'.useTerminator <;> simp_all
  apply (qname_decodes hrd).injective trivial ⟨hok, hsz⟩ ⟨hok', hsz'⟩
  simp only [heq, hk]

theorem qname_reads (hrd : Readable modifier Valid) :
    Reads (QName.calls modifier) (QName.IsValid Valid) (fun _ => True) := by
  rintro names hlen q q' rest rest' ⟨hok, hfit⟩ ⟨hok', hfit'⟩ _ _ heq
  have hsz : (q.str modifier).length < 2 ^ 32 := hfit.name_length_lt _ (by simp)
  have hsz' : (q'.str modifier).length < 2 ^ 32 := hfit'.name_length_lt _ (by simp)
  obtain ⟨b, text, ht, hd, -⟩ := hok.exists_cons modifier
  obtain ⟨b', text', ht', hd', -⟩ := hok'.exists_cons modifier
  simp only [QName.emit_calls, emitName] at heq
  have hlt : ∀ {str : Text} {i : Nat}, names.idxOf? str = some i →
      i < numBackReferences ∧ names[i]? = some str := by
    intro str i hfd
    obtain ⟨hlt, hget, -⟩ := idxOf?_eq_some_iff.1 hfd
    exact ⟨by omega, by rw [getElem?_eq_getElem hlt, hget]⟩
  cases hfd : names.idxOf? (q.str modifier) with
  | some i =>
    cases hfd' : names.idxOf? (q'.str modifier) with
    | some j =>
      simp only [hfd, hfd', singleton_append, cons.injEq] at heq
      obtain rfl := digit_inj (hlt hfd).1 (hlt hfd').1 heq.1
      have hstr := some.inj ((hlt hfd).2.symm.trans (hlt hfd').2)
      exact ⟨qname_eq_of_str hrd hok hok' hsz hstr, heq.2⟩
    | none =>
      simp only [hfd, hfd'] at heq
      rw [ht', singleton_append, append_assoc, cons_append, cons.injEq] at heq
      exact absurd (heq.1 ▸ isDigit_digit (hlt hfd).1) hd'
  | none =>
    cases hfd' : names.idxOf? (q'.str modifier) with
    | some j =>
      simp only [hfd, hfd'] at heq
      rw [ht, singleton_append, append_assoc, cons_append, cons.injEq] at heq
      exact absurd (heq.1.symm ▸ isDigit_digit (hlt hfd').1) hd
    | none =>
      simp only [hfd, hfd'] at heq
      exact qname_decodes hrd ⟨hok, hsz⟩ ⟨hok', hsz'⟩ trivial trivial heq

theorem qname_not_end {ns : List Text} (hlen : ns.length ≤ numBackReferences) {q : QName}
    (hok : q.IsValid Valid) (r : Text) :
    ¬StartsWith '@' (emit ns (q.calls modifier) ++ r) := by
  obtain ⟨b, text, ht, -, hter, -⟩ := hok.exists_cons modifier
  rw [QName.emit_calls, emitName]
  intro hst
  cases hfd : ns.idxOf? (q.str modifier) with
  | none =>
    rw [hfd] at hst
    rw [ht] at hst
    exact hter (some.inj hst)
  | some i =>
    obtain ⟨hlt, -, -⟩ := idxOf?_eq_some_iff.1 hfd
    rw [hfd] at hst
    have hd := isDigit_digit (i := i) (by omega)
    rw [some.inj hst] at hd
    revert hd
    decide

theorem qnames_reads (hrd : Readable modifier Valid) :
    Reads (flatMap (QName.calls modifier)) (fun qs => ∀ q ∈ qs, q.IsValid Valid) (StartsWith '@') :=
  (qname_reads hrd).list (StartsWith '@')
    (fun _ _ r hlen hok => ⟨trivial, qname_not_end hlen hok r⟩) (fun _ _ => trivial)

end USprache.CodeBuilder.WithArgs.ManglerMsvc
