import Mathlib.Data.List.Induction
import USprache.LexSynt.MacroExpansion

/-!
# Hygiene of unique macro identifiers

An identifier for a unique name spells out where the expansion is: the location of the
macro call, behind the locations of the expansions around it.  Identifiers are
therefore different as long as an analyzer does not expand two calls at the same
location.  It does so for the lexems of a repeated block and for an argument that is
used twice, and where lexems of two files meet.
-/

namespace USprache.LexSynt

open List Nat Expanding

theorem append_separator_inj {α : Type} {x : α} {a a' b b' : List α} (hb : x ∉ b) (hb' : x ∉ b')
    (h : a ++ x :: b = a' ++ x :: b') : a = a' ∧ b = b' := by
  rcases append_eq_append_iff.1 h with ⟨c, hc, hrs⟩ | ⟨c, hc, hrs⟩
  · cases c with
    | nil =>
      rw [nil_append, cons.injEq] at hrs
      exact ⟨by rw [hc, append_nil], hrs.2⟩
    | cons y c =>
      rw [cons_append, cons.injEq] at hrs
      exact absurd (hrs.2 ▸ mem_append_right c mem_cons_self) hb
  · cases c with
    | nil =>
      rw [nil_append, cons.injEq] at hrs
      exact ⟨by rw [hc, append_nil], hrs.2.symm⟩
    | cons y c =>
      rw [cons_append, cons.injEq] at hrs
      exact absurd (hrs.2 ▸ mem_append_right c mem_cons_self) hb'

theorem ascii_digit {c : Char} (h : c.isDigit = true) :
    (ascii c).toNat = c.toNat ∧ '0'.toNat ≤ c.toNat ∧ c.toNat ≤ '9'.toNat := by
  have hle : '0'.toNat ≤ c.toNat ∧ c.toNat ≤ '9'.toNat := by
    rw [Char.isDigit, Bool.and_eq_true, decide_eq_true_iff, decide_eq_true_iff] at h
    exact ⟨UInt32.le_iff_toNat_le.1 h.1, UInt32.le_iff_toNat_le.1 h.2⟩
  have h9 : '9'.toNat = 57 := rfl
  refine ⟨?_, hle⟩
  exact mod_eq_of_lt (by omega)

theorem decimal_mem {n : Nat} {b : UInt8} (h : b ∈ decimal n) :
    '0'.toNat ≤ b.toNat ∧ b.toNat ≤ '9'.toNat := by
  obtain ⟨c, hc, rfl⟩ := mem_map.1 h
  have hd := ascii_digit (isDigit_of_mem_toDigits (by decide) (by decide) hc)
  rw [hd.1]
  exact hd.2

theorem separator_notMem_decimal (n : Nat) : ascii '_' ∉ decimal n := by
  intro h
  have hle := decimal_mem h
  exact absurd hle.2 (by decide)

theorem chars_of_decimal (n : Nat) :
    (decimal n).map (fun b => Char.ofNat b.toNat) = toDigits 10 n := by
  rw [decimal, map_map]
  refine (map_congr_left ?_).trans (map_id _)
  intro c hc
  have hd := ascii_digit (isDigit_of_mem_toDigits (by decide) (by decide) hc)
  rw [Function.comp, hd.1, Char.ofNat_toNat]
  rfl

theorem decimal_injective {m n : Nat} (h : decimal m = decimal n) : m = n := by
  have hds : toDigits 10 m = toDigits 10 n := by
    rw [← chars_of_decimal, h, chars_of_decimal]
  rw [← ofDigitChars_ten_toDigits (n := m), hds, ofDigitChars_ten_toDigits]

theorem length_decimal_le {n : Nat} (h : n < 10 ^ 5) : (decimal n).length ≤ 5 := by
  rw [decimal, length_map]
  exact (length_toDigits_le_iff (by decide) (by decide)).2 h

/-! ## Base names -/

/-- A hash of a file path, as it is used for the base name: 32 hexadecimal digits. -/
structure IsHash (hash : Text) : Prop where
  length_eq : hash.length = 32
  separator_notMem : ascii '_' ∉ hash

/-- The base name of expansions one in another, with their locations from the outermost
on. -/
def baseNameOf (hash : Text) (path : List (Nat × Nat)) : Text :=
  hash ++ path.flatMap Analyzer.locationName

theorem baseNameOf_concat (hash : Text) (p : List (Nat × Nat)) (loc : Nat × Nat) :
    baseNameOf hash (p ++ [loc]) = baseNameOf hash p ++ Analyzer.locationName loc := by
  simp [baseNameOf]

theorem locationName_eq (loc : Nat × Nat) : Analyzer.locationName loc =
    (ascii '_' :: ascii 'l' :: decimal loc.1) ++ ascii '_' :: ascii 'c' :: decimal loc.2 := by
  simp [Analyzer.locationName, asciiText]

theorem separator_notMem_cons {c : Char} (hc : ascii '_' ≠ ascii c) (n : Nat) :
    ascii '_' ∉ ascii c :: decimal n := by
  intro h
  rcases mem_cons.1 h with h | h
  · exact hc h
  · exact separator_notMem_decimal n h

theorem IsHash.ne_column {hash : Text} (h : IsHash hash) {col : Nat} (hcol : col ≤ maxColumn) :
    hash ≠ ascii 'c' :: decimal col := by
  rintro rfl
  have hlen := h.length_eq
  have hle := length_decimal_le (show col < 10 ^ 5 from lt_of_le_of_lt hcol (by decide))
  rw [length_cons] at hlen
  omega

theorem baseNameOf_last (n hash : Text) (p : List (Nat × Nat)) (loc : Nat × Nat) :
    n ++ ascii '_' :: baseNameOf hash (p ++ [loc]) =
      ((n ++ ascii '_' :: baseNameOf hash p) ++ ascii '_' :: ascii 'l' :: decimal loc.1) ++
        ascii '_' :: ascii 'c' :: decimal loc.2 := by
  rw [baseNameOf_concat, locationName_eq]
  simp only [append_assoc, cons_append]

variable {p : List (Nat × Nat)}

theorem IsHash.ne_baseNameOf {hash n n' : Text} (hhash : IsHash hash)
    {loc : Nat × Nat} (hloc : loc.2 ≤ maxColumn) :
    n ++ ascii '_' :: baseNameOf hash [] ≠ n' ++ ascii '_' :: baseNameOf hash (p ++ [loc]) := by
  intro h
  rw [baseNameOf_last, baseNameOf, flatMap_nil, append_nil] at h
  have hla := append_separator_inj hhash.separator_notMem (separator_notMem_cons (by decide) _) h
  exact hhash.ne_column hloc hla.2

variable {p' : List (Nat × Nat)}

theorem baseNameOf_inj {hash n n' : Text} (hhash : IsHash hash) (hp : ∀ loc ∈ p, loc.2 ≤ maxColumn)
    (hp' : ∀ loc ∈ p', loc.2 ≤ maxColumn)
    (h : n ++ ascii '_' :: baseNameOf hash p = n' ++ ascii '_' :: baseNameOf hash p') :
    p = p' := by
  induction p using reverseRecOn generalizing p' with
  | nil =>
    rcases eq_nil_or_concat p' with rfl | ⟨p', loc', rfl⟩
    · rfl
    · rw [concat_eq_append] at h hp'
      exact absurd h (hhash.ne_baseNameOf (hp' loc' (by simp)))
  | append_singleton p loc ih =>
    rcases eq_nil_or_concat p' with rfl | ⟨p', loc', rfl⟩
    · exact absurd h.symm (hhash.ne_baseNameOf (hp loc (by simp)))
    · rw [concat_eq_append] at h hp' ⊢
      rw [baseNameOf_last, baseNameOf_last] at h
      obtain ⟨h, hcol⟩ := append_separator_inj (separator_notMem_cons (by decide) _)
        (separator_notMem_cons (by decide) _) h
      obtain ⟨h, hline⟩ := append_separator_inj (separator_notMem_cons (by decide) _)
        (separator_notMem_cons (by decide) _) h
      have hloc : loc = loc' := Prod.ext (decimal_injective (cons.inj hline).2)
          (decimal_injective (cons.inj hcol).2)
      rw [hloc, ih (fun l hl => hp l (mem_append_left _ hl))
        (fun l hl => hp' l (mem_append_left _ hl)) h]

theorem uniqueIdentifier_eq (baseName t : Text) (c : Nat) : uniqueIdentifier baseName t c =
    ((asciiText "_macro_ident_" ++ t.drop 2) ++ ascii '_' :: baseName) ++
      ascii '_' :: decimal c := by
  simp [uniqueIdentifier, asciiText]

theorem uniqueIdentifier_count {baseName baseN' t t' : Text} {c c' : Nat}
    (h : uniqueIdentifier baseName t c = uniqueIdentifier baseN' t' c') : c = c' := by
  rw [uniqueIdentifier_eq, uniqueIdentifier_eq] at h
  exact decimal_injective (append_separator_inj (separator_notMem_decimal _)
    (separator_notMem_decimal _) h).2

theorem uniqueIdentifier_path {hash t t' : Text} {c c' : Nat} (hhash : IsHash hash)
    (hp : ∀ loc ∈ p, loc.2 ≤ maxColumn)
    (hp' : ∀ loc ∈ p', loc.2 ≤ maxColumn)
    (h : uniqueIdentifier (baseNameOf hash p) t c =
      uniqueIdentifier (baseNameOf hash p') t' c') : p = p' := by
  rw [uniqueIdentifier_eq, uniqueIdentifier_eq] at h
  exact baseNameOf_inj hhash hp hp' (append_separator_inj (separator_notMem_decimal _)
    (separator_notMem_decimal _) h).1

/-! ## One expansion -/

/-- The identifiers that were given so far, the last one first. -/
def Named (baseName : Text) : List (Text × Text) → Prop
  | [] => True
  | (text, identifier) :: rest =>
    identifier = uniqueIdentifier baseName text rest.length ∧ rest.lookup text = none ∧
      Named baseName rest

theorem Named.of_lookup {baseName t identifier : Text} {given : List (Text × Text)}
    (h : Named baseName given) (hlk : given.lookup t = some identifier) :
    ∃ c < given.length, identifier = uniqueIdentifier baseName t c := by
  induction given with
  | nil => cases hlk
  | cons e r ih =>
    rw [lookup_cons] at hlk
    split at hlk
    · rename_i heq
      rw [beq_iff_eq] at heq
      cases hlk
      exact ⟨r.length, lt_succ_self _, heq ▸ h.1⟩
    · obtain ⟨c, hc, hid⟩ := ih h.2.2 hlk
      exact ⟨c, lt_succ_of_lt hc, hid⟩

theorem Named.text_eq {baseName tx t' identifier : Text} {given : List (Text × Text)}
    (h : Named baseName given) (hlk : given.lookup tx = some identifier)
    (hlk' : given.lookup t' = some identifier) : tx = t' := by
  induction given with
  | nil => cases hlk
  | cons e r ih =>
    obtain ⟨t0, identifier0⟩ := e
    rw [lookup_cons] at hlk hlk'
    -- The last identifier has a number that no earlier one has.
    have hla : ∀ {t : Text}, r.lookup t = some identifier0 → False := by
      intro t ht
      obtain ⟨count, hc, hid⟩ := h.2.2.of_lookup ht
      rw [h.1] at hid
      exact absurd (uniqueIdentifier_count hid) (ne_of_gt hc)
    by_cases htext : tx = t0
    · by_cases ht' : t' = t0
      · rw [htext, ht']
      · rw [htext, beq_self_eq_true] at hlk
        rw [beq_false_of_ne ht'] at hlk'
        cases hlk
        exact (hla hlk').elim
    · rw [beq_false_of_ne htext] at hlk
      by_cases ht' : t' = t0
      · rw [ht', beq_self_eq_true] at hlk'
        cases hlk'
        exact (hla hlk).elim
      · rw [beq_false_of_ne ht'] at hlk'
        exact ih h.2.2 hlk hlk'

structure Consistent (baseName : Text) (st : Expanding) : Prop where
  named : Named baseName st.uniqueIdentifiers
  occurrences : ∀ o ∈ st.occurrences, st.uniqueIdentifiers.lookup o.1 = some o.2

namespace Consistent

variable {baseName : Text} {st : Expanding}

theorem push (h : Consistent baseName st) (lx : Lexem) : Consistent baseName (st.push lx) :=
  ⟨h.named, h.occurrences⟩

theorem error (h : Consistent baseName st) (t : String) (srcLoc : SrcLoc) :
    Consistent baseName (st.error t srcLoc) :=
  ⟨h.named, h.occurrences⟩

theorem pushElement (h : Consistent baseName st) (el : Macro.ParsedElement) :
    Consistent baseName (st.pushElement el) := by
  obtain ⟨lexems, subElements, kind, brackets⟩ := el
  cases brackets with
  | true | false => exact ⟨h.named, h.occurrences⟩

theorem pushSeparator (h : Consistent baseName st) (sep : Lexem) :
    Consistent baseName (st.pushSeparator sep) := by
  unfold Expanding.pushSeparator
  split
  · exact h.push sep
  · exact h

theorem pushUnique (h : Consistent baseName st) (lx : Lexem) :
    Consistent baseName (st.pushUnique baseName lx) := by
  unfold Expanding.pushUnique
  split
  · rename_i identifier hlk
    refine ⟨h.named, ?_⟩
    intro o ho
    rcases mem_append.1 ho with ho | ho
    · exact h.occurrences o ho
    · rw [mem_singleton.1 ho]
      exact hlk
  · rename_i hlk
    refine ⟨⟨rfl, hlk, h.named⟩, ?_⟩
    intro o ho
    show lookup o.1 ((lx.text, _) :: st.uniqueIdentifiers) = some o.2
    rw [lookup_cons]
    rcases mem_append.1 ho with ho | ho
    · have hold := h.occurrences o ho
      rw [beq_false_of_ne]
      · exact hold
      · intro heq
        rw [heq, hlk] at hold
        cases hold
    · rw [mem_singleton.1 ho, beq_self_eq_true]

theorem forEach {α : Type} {turn : α → Expanding → Expanding} {between : Expanding → Expanding}
    (htn : ∀ x st, Consistent baseName st → Consistent baseName (turn x st))
    (hbet : ∀ st, Consistent baseName st → Consistent baseName (between st)) (xs : List α)
    (h : Consistent baseName st) : Consistent baseName (forEach turn between xs st) := by
  fun_induction Expanding.forEach turn between xs st with
  | case1 => exact h
  | case2 x st => exact htn x st h
  | case3 x y rest st ih => exact ih (hbet _ (htn x st h))

theorem doExpandMacro (elements : Macro.ResultElements) (names : List Macro.VariablesMap)
    (h : Consistent baseName st) : Consistent baseName (doExpandMacro baseName names elements st) := by
  induction elements generalizing names st with
  | nil => exact h
  | lexem lexem rest ih =>
    refine ih names ?_
    split
    · exact h.pushUnique lexem
    · exact h.push lexem
  | variableElement name rest ih =>
    rw [LexSynt.doExpandMacro]
    split
    · exact h.error _ _
    · exact ih names (h.pushElement _)
  | variableElementWithMacroBlock name subElements separator rest ihSub ihRest =>
    rw [LexSynt.doExpandMacro]
    split
    · exact h.error _ _
    · split
      · refine ihRest names (h.forEach ?_ ?_ _)
        · intro map st hst
          exact ihSub (map :: names) hst
        · intro st hst
          exact hst.pushSeparator separator
      · exact h.error _ _

end Consistent

/-! ## Runs -/

namespace Analyzer

def locations (a : Analyzer) : Calls → List (Nat × Nat)
  | .none => []
  | .call position _ _ _ rest => a.location position :: a.locations rest

/-- No analyzer expands two calls at the same line and column. -/
def DistinctLocations (a : Analyzer) : Calls → Prop
  | .none => True
  | .call position called elements inner rest =>
    a.location position ∉ a.locations rest ∧
    (a.resultAnalyzer position called elements).DistinctLocations inner ∧
    a.DistinctLocations rest

/-- The expansions, each with the locations of the expansions around it and its own. -/
def located (a : Analyzer) (path : List (Nat × Nat)) : Calls → List (List (Nat × Nat) × Expanding)
  | .none => []
  | .call position called elements inner rest =>
    (path ++ [a.location position], a.expand position called elements) ::
      ((a.resultAnalyzer position called elements).located (path ++ [a.location position]) inner ++
        a.located path rest)

variable (cs : Calls) (a : Analyzer)

theorem located_expansions (p : List (Nat × Nat)) :
    (a.located p cs).map Prod.snd = a.expansions cs := by
  induction cs generalizing a p with
  | none => rfl
  | call position called elements inner rest ihInn ihR =>
    rw [located, expansions, map_cons, map_append, ihInn, ihR]

theorem located_path (p : List (Nat × Nat)) :
    ∀ x ∈ a.located p cs, ∃ loc ∈ a.locations cs, ∃ r, x.1 = p ++ loc :: r := by
  induction cs generalizing a p with
  | none => simp [located]
  | call position called elements inner r ihInn ihR =>
    intro x hx
    rcases mem_cons.1 hx with rfl | hx
    · exact ⟨_, mem_cons_self, [], rfl⟩
    rcases mem_append.1 hx with hx | hx
    · obtain ⟨loc, -, more, hp⟩ := ihInn _ _ x hx
      refine ⟨_, mem_cons_self, loc :: more, ?_⟩
      rw [hp, append_assoc, singleton_append]
    · obtain ⟨loc, hloc, more, hp⟩ := ihR a p x hx
      exact ⟨loc, mem_cons_of_mem _ hloc, more, hp⟩

theorem located_column_le (p : List (Nat × Nat))
    (hp : ∀ loc ∈ p, loc.2 ≤ maxColumn) :
    ∀ x ∈ a.located p cs, ∀ loc ∈ x.1, loc.2 ≤ maxColumn := by
  induction cs generalizing a p with
  | none => simp [located]
  | call pos called elements inner rest ihInn ihR =>
    have hp' : ∀ loc ∈ p ++ [a.location pos], loc.2 ≤ maxColumn := by
      intro loc hloc
      rcases mem_append.1 hloc with hloc | hloc
      · exact hp loc hloc
      · rw [mem_singleton.1 hloc]
        exact le_of_lt_succ (mod_lt _ (succ_pos _))
    intro x hx
    rcases mem_cons.1 hx with rfl | hx
    · exact hp'
    rcases mem_append.1 hx with hx | hx
    · exact ihInn _ _ hp' x hx
    · exact ihR a p hp x hx

theorem located_consistent (hash : Text) (cs : Calls) (a : Analyzer) (p : List (Nat × Nat))
    (hb : a.baseName = baseNameOf hash p) :
    ∀ x ∈ a.located p cs, Consistent (baseNameOf hash x.1) x.2 := by
  induction cs generalizing a p with
  | none => simp [located]
  | call pos called elements inner rest ihInn ihR =>
    have hb' : a.expansionBaseName pos = baseNameOf hash (p ++ [a.location pos]) := by
      rw [expansionBaseName, hb, baseNameOf_concat]
    intro x hx
    rcases mem_cons.1 hx with rfl | hx
    · show Consistent (baseNameOf hash (p ++ [a.location pos])) _
      rw [← hb']
      exact Consistent.doExpandMacro _ _ ⟨trivial, by simp [start]⟩
    rcases mem_append.1 hx with hx | hx
    · exact ihInn _ _ hb' x hx
    · exact ihR a p hb x hx

/-- Two expansions have the same path only if some analyzer expands two calls at the
same location. -/
theorem located_pairwise (p : List (Nat × Nat))
    (h : a.DistinctLocations cs) :
    (a.located p cs).Pairwise (fun x y => x.1 ≠ y.1) := by
  induction cs generalizing a p with
  | none => exact .nil
  | call pos called els inner r ihInn ihR =>
    obtain ⟨hloc, hin, hrs⟩ := h
    rw [located, pairwise_cons, pairwise_append]
    have hb : ∀ x ∈ (a.resultAnalyzer pos called els).located
        (p ++ [a.location pos]) inner, ∃ more, x.1 = p ++ a.location pos :: more ∧ more ≠ [] := by
      intro x hx
      obtain ⟨loc, -, more, hp⟩ := located_path inner _ _ x hx
      exact ⟨loc :: more, by rw [hp, append_assoc, singleton_append], by simp⟩
    have hbes : ∀ y ∈ a.located p r, ∀ more, p ++ a.location pos :: more ≠ y.1 := by
      intro y hy more heq
      obtain ⟨loc, hmem, more', hp⟩ := located_path r a p y hy
      rw [hp] at heq
      have := append_cancel_left heq
      rw [cons.injEq] at this
      exact hloc (this.1 ▸ hmem)
    refine ⟨?_, ihInn _ _ hin, ihR a p hrs, ?_⟩
    · intro y hy
      rcases mem_append.1 hy with hy | hy
      · obtain ⟨more, hp, hmo⟩ := hb y hy
        rw [hp]
        intro heq
        have := append_cancel_left heq
        exact hmo (cons.inj this).2.symm
      · exact hbes y hy []
    · intro x hx y hy
      obtain ⟨more, hp, -⟩ := hb x hx
      rw [hp]
      exact hbes y hy more

end Analyzer

/-- Identifiers of different expansions are different, and those of one expansion are
equal exactly for equal names. -/
def Hygienic (expansions : List Expanding) : Prop :=
  expansions.Pairwise (fun e e' => ∀ o ∈ e.occurrences, ∀ o' ∈ e'.occurrences, o.2 ≠ o'.2) ∧
  ∀ e ∈ expansions, ∀ o ∈ e.occurrences, ∀ o' ∈ e.occurrences, o.2 = o'.2 ↔ o.1 = o'.1

instance (expansions : List Expanding) : Decidable (Hygienic expansions) :=
  inferInstanceAs (Decidable (_ ∧ _))

theorem Consistent.same_expansion {baseName : Text} {e : Expanding} (h : Consistent baseName e) :
    ∀ o ∈ e.occurrences, ∀ o' ∈ e.occurrences, o.2 = o'.2 ↔ o.1 = o'.1 := by
  intro o ho o' ho'
  have hlk := h.occurrences o ho
  have hlk' := h.occurrences o' ho'
  constructor
  · intro heq
    rw [← heq] at hlk'
    exact h.named.text_eq hlk hlk'
  · intro heq
    rw [← heq, hlk] at hlk'
    exact Option.some.inj hlk'

theorem Consistent.other_expansion {hash : Text} {e e' : Expanding}
    (hhash : IsHash hash) (h : Consistent (baseNameOf hash p) e)
    (h' : Consistent (baseNameOf hash p') e')
    (hp : ∀ loc ∈ p, loc.2 ≤ maxColumn)
    (hp' : ∀ loc ∈ p', loc.2 ≤ maxColumn) (hne : p ≠ p') :
    ∀ o ∈ e.occurrences, ∀ o' ∈ e'.occurrences, o.2 ≠ o'.2 := by
  intro o ho o' ho' heq
  obtain ⟨count, -, hid⟩ := h.named.of_lookup (h.occurrences o ho)
  obtain ⟨count', -, hid'⟩ := h'.named.of_lookup (h'.occurrences o' ho')
  rw [hid, hid'] at heq
  exact hne (uniqueIdentifier_path hhash hp hp' heq)

/-- In every run in which no analyzer expands two calls at the same location, unique
macro identifiers are hygienic. -/
theorem run_hygienic (run : FileRun) (hhash : IsHash run.filePathHash)
    (hlocations : run.analyzer.DistinctLocations run.calls) : Hygienic run.expansions := by
  have hconsistent := Analyzer.located_consistent run.filePathHash run.calls run.analyzer []
    (by simp [baseNameOf, FileRun.analyzer])
  have hcolumn := Analyzer.located_column_le run.calls run.analyzer [] (by simp)
  have hpaths := Analyzer.located_pairwise run.calls run.analyzer [] hlocations
  rw [FileRun.expansions, ← Analyzer.located_expansions run.calls run.analyzer []]
  constructor
  · rw [pairwise_map]
    refine hpaths.imp_of_mem ?_
    intro x y hx hy hne
    exact (hconsistent x hx).other_expansion hhash (hconsistent y hy) (hcolumn x hx) (hcolumn y hy) hne
  · intro e he
    obtain ⟨x, hx, rfl⟩ := mem_map.1 he
    exact (hconsistent x hx).same_expansion

/-! ## Two macros

The macros of a file `macros.uh` that is imported:

    ?macro <? DECLARE_S:namespace ?> -> <? struct ??s{} ?>
    ?macro <? DECLARE_N:namespace ( ?r:rep<? ?n:ident ?> ) ?> -> <? ?r<? DECLARE_S ?> ?>
-/

namespace MacroHygieneExample

def lexem (type : LexemType) (text : String) (line column : Nat) : Lexem :=
  ⟨asciiText text, ⟨line, column⟩, type, 0⟩

def declareS : Macro where
  name := asciiText "DECLARE_S"
  resultTemplateElements := .lexem (lexem .identifier "struct" 1 39) <|
    .lexem (lexem .macroUniqueIdentifier "??s" 1 46) <|
    .lexem (lexem .braceLeft "\x7b" 1 49) <|
    .lexem (lexem .braceRight "\x7d" 1 50) .nil

def declareN : Macro where
  name := asciiText "DECLARE_N"
  resultTemplateElements := .variableElementWithMacroBlock (asciiText "?r")
      (.lexem (lexem .identifier "DECLARE_S" 2 69) .nil) eofLexem .nil

def repetition (name : Lexem) : Macro.VariablesMap :=
  [(asciiText "?n", .mk [name] [] .identifier false)]

def hash : Text := asciiText "0cc175b9c0f1b6a831c399e269772661"

theorem isHash_hash : IsHash hash := ⟨by decide +kernel, by decide +kernel⟩

/-- The file `import "macros.uh" DECLARE_N( a b )` with a line for each of them. -/
def repeatedBlock : FileRun where
  lexems := [lexem .identifier "import" 1 0, lexem .string "macros.uh" 1 7,
      lexem .identifier "DECLARE_N" 2 0, lexem .bracketLeft "(" 2 9, lexem .identifier "a" 2 11,
      lexem .identifier "b" 2 13, lexem .bracketRight ")" 2 15, lexem .endOfFile "EOF" 2 16]
  filePathHash := hash
  macros := [declareS, declareN]
  calls := .call 2 declareN
      [(asciiText "?r", .mk [lexem .identifier "a" 2 11, lexem .identifier "b" 2 13]
        [repetition (lexem .identifier "a" 2 11), repetition (lexem .identifier "b" 2 13)]
        .repeated false)]
      (.call 0 declareS [] .none (.call 1 declareS [] .none .none)) .none
  canCall := by
    refine ⟨by simp, ⟨_, rfl, rfl, rfl⟩, by decide, by decide, ?_, trivial⟩
    refine ⟨by simp, ⟨_, rfl, rfl, rfl⟩, by decide, by decide, trivial, ?_⟩
    exact ⟨by simp, ⟨_, rfl, rfl, rfl⟩, by decide, by decide, trivial, trivial⟩
  bounded := by decide

/-- The file `import "macros.uh" DECLARE_N( a ) DECLARE_S` with a line for each of
them. -/
def differentLines : FileRun where
  lexems := [lexem .identifier "import" 1 0, lexem .string "macros.uh" 1 7,
      lexem .identifier "DECLARE_N" 2 0, lexem .bracketLeft "(" 2 9, lexem .identifier "a" 2 11,
      lexem .bracketRight ")" 2 13, lexem .identifier "DECLARE_S" 3 0, lexem .endOfFile "EOF" 3 9]
  filePathHash := hash
  macros := [declareS, declareN]
  calls := .call 2 declareN
      [(asciiText "?r", .mk [lexem .identifier "a" 2 11] [repetition (lexem .identifier "a" 2 11)]
        .repeated false)]
      (.call 0 declareS [] .none .none) (.call 6 declareS [] .none .none)
  canCall := by
    refine ⟨by simp, ⟨_, rfl, rfl, rfl⟩, by decide, by decide, ?_, ?_⟩
    · exact ⟨by simp, ⟨_, rfl, rfl, rfl⟩, by decide, by decide, trivial, trivial⟩
    · exact ⟨by simp, ⟨_, rfl, rfl, rfl⟩, by decide, by decide, trivial, trivial⟩
  bounded := by decide

end MacroHygieneExample

open MacroHygieneExample in
theorem run_hygienic_different_lines :
    differentLines.expansions.map (·.occurrences.length) = [0, 1, 1] ∧
      Hygienic differentLines.expansions :=
  ⟨by decide +kernel, run_hygienic differentLines isHash_hash
    ⟨by decide +kernel, ⟨by decide +kernel, trivial, trivial⟩, by decide +kernel, trivial, trivial⟩⟩

open MacroHygieneExample in
/-- The two turns of a repeated block expand a macro call at the same location, and get
the same identifier. -/
theorem not_hygienic_repeated_block :
    IsHash repeatedBlock.filePathHash ∧ ¬Hygienic repeatedBlock.expansions :=
  ⟨isHash_hash, by decide +kernel⟩

end USprache.LexSynt
