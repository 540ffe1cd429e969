import USprache.BuildSystem.BuildGraph

/-!
# Dep files

The compiler writes the list of the files it has read as a rule of a makefile, and the
build system reads it back.  Writer and reader share nothing but the format: a backslash
before spaces, tabs, backslashes and `#`, a doubled `$`, and a `:` that ends a path only
before a space.
-/

namespace USprache.BuildSystem

open List

open LexSynt (Text ascii asciiText)

/-- The escape that `QuoteDepTargetString` puts before a character. -/
def quoteEscape (c : UInt8) : Text :=
  (if c = ascii ' ' ∨ c = ascii '\t' ∨ c = ascii '\\' ∨ c = ascii '#' then [ascii '\\'] else []) ++
    (if c = ascii '$' then [ascii '$'] else [])

def quoteDepTargetString : Text → Text
  | [] => []
  | c :: str => quoteEscape c ++ c :: quoteDepTargetString str

/-- The loop of `WriteDepFile`: all lines but the last are continued. -/
def writeDependencies : List FilesystemPath → Text
  | [] => []
  | [path] => ascii ' ' :: quoteDepTargetString path
  | path :: path' :: rest =>
    ascii ' ' :: (quoteDepTargetString path ++ asciiText " \\\n") ++ writeDependencies (path' :: rest)

def writeDepFile (outFilePath : FilesystemPath) (depsList : List FilesystemPath) : Text :=
  quoteDepTargetString outFilePath ++ asciiText ":" ++ writeDependencies depsList

namespace MakeDepFile

def isWhitespaceChar (c : UInt8) : Bool := c = ascii ' ' || c = ascii '\t' || c = ascii '\n'

def skipWhitespaces : Text → Text
  | [] => []
  | [c] => if isWhitespaceChar c then [] else [c]
  | c :: d :: s =>
    if isWhitespaceChar c then skipWhitespaces (d :: s)
    else if c = ascii '\\' ∧ d = ascii '\n' then skipWhitespaces s
    else c :: d :: s

def parsePath : Text → FilesystemPath × Text
  | [] => ([], [])
  | [c] => if isWhitespaceChar c then ([], [c]) else ([c], [])
  | c :: d :: s =>
    if isWhitespaceChar c then ([], c :: d :: s)
    -- A `:` is a part of the path unless a space follows.
    else if c = ascii ':' ∧ d = ascii ' ' then ([], c :: d :: s)
    else if c = ascii '\\' then
      if d = ascii '\n' then ([], c :: d :: s)
      else (d :: (parsePath s).1, (parsePath s).2)
    else if c = ascii '$' then (d :: (parsePath s).1, (parsePath s).2)
    else (c :: (parsePath (d :: s)).1, (parsePath (d :: s)).2)

theorem skipWhitespaces_length_le (s : Text) : (skipWhitespaces s).length ≤ s.length := by
  induction s using skipWhitespaces.induct with
  | case1 => exact le_refl 0
  | case2 c hc | case3 c hc => simp [skipWhitespaces, hc]
  | case4 c d s hc ih =>
    rw [skipWhitespaces, if_pos hc]
    simp only [length_cons] at ih ⊢
    omega
  | case5 c d s hc hcont ih =>
    rw [skipWhitespaces, if_neg hc, if_pos hcont]
    simp only [length_cons]
    omega
  | case6 c d s hc hcont =>
    rw [skipWhitespaces, if_neg hc, if_neg hcont]

theorem parsePath_length_le (s : Text) : (parsePath s).2.length ≤ s.length := by
  induction s using parsePath.induct with
  | case1 => exact le_refl 0
  | case2 c hc | case3 c hc | case4 c d s hc => simp [parsePath, hc]
  | case5 c d s hc hco => simp [parsePath, hco]
  | case6 s hc hco => simp [parsePath]
  | case7 d s hc hco hd ih =>
    rw [parsePath, if_neg hc, if_neg hco, if_pos rfl, if_neg hd]
    simp only [length_cons]
    omega
  | case8 d s hc hco hbk ih =>
    rw [parsePath, if_neg hc, if_neg hco, if_neg hbk, if_pos rfl]
    simp only [length_cons]
    omega
  | case9 c d s hc hco hbk hdol ih =>
    rw [parsePath, if_neg hc, if_neg hco, if_neg hbk, if_neg hdol]
    simp only [length_cons] at ih ⊢
    omega

section

-- Which of two functions `ust::path::normalize` is depends on the system.
variable (normalize : FilesystemPath → FilesystemPath)

/-- The loop of `ParseMakeDepFileContents`.  `prev_s` is the size of the text that an
iteration begins with; an iteration that ends with the same size can't advance. -/
def parseDependencies (fileContents : Text) : Option (List FilesystemPath) :=
  if (skipWhitespaces fileContents).isEmpty then some []
  else
    let parsed := parsePath (skipWhitespaces fileContents)
    if parsed.2.length = fileContents.length then none
    else (parseDependencies parsed.2).map (normalize parsed.1 :: ·)
termination_by fileContents.length
decreasing_by
  rename_i h
  have hpath := parsePath_length_le (skipWhitespaces fileContents)
  have hskip := skipWhitespaces_length_le fileContents
  simp only [parsed] at h ⊢
  omega

end

end MakeDepFile

def parseMakeDepFileContents (normalize : FilesystemPath → FilesystemPath) (fileContents : Text) :
    Option MakeDepFile :=
  let parsed := MakeDepFile.parsePath (MakeDepFile.skipWhitespaces fileContents)
  match MakeDepFile.skipWhitespaces parsed.2 with
  | [] => none
  | c :: rest =>
    if c ≠ ascii ':' then none
    else
      (MakeDepFile.parseDependencies normalize rest).map fun dependencies =>
        { destination := normalize parsed.1, dependencies := dependencies }

namespace MakeDepFile

/-- A character that the writer writes as it is and the parser reads as it is, a `:`
before a space apart. -/
theorem plain_of_quoteEscape_nil {c : UInt8} (h : quoteEscape c = []) (hnl : c ≠ ascii '\n') :
    isWhitespaceChar c = false ∧ c ≠ ascii '\\' ∧ c ≠ ascii '$' := by
  rw [quoteEscape, append_eq_nil_iff] at h
  obtain ⟨hbk, hdol⟩ := h
  simp only [ite_eq_right_iff, cons_ne_nil, imp_false, not_or] at hbk hdol
  refine ⟨?_, hbk.2.2.1, hdol⟩
  simp [isWhitespaceChar, hbk.1, hbk.2.1, hnl]

theorem quoteEscape_cases (c : UInt8) :
    quoteEscape c = [] ∨ quoteEscape c = [ascii '\\'] ∨ (c = ascii '$' ∧ quoteEscape c = [ascii '$']) := by
  by_cases hdol : c = ascii '$'
  · subst hdol
    exact .inr (.inr ⟨rfl, by decide⟩)
  · by_cases hbk : c = ascii ' ' ∨ c = ascii '\t' ∨ c = ascii '\\' ∨ c = ascii '#'
    · exact .inr (.inl (by rw [quoteEscape, if_pos hbk, if_neg hdol]; rfl))
    · exact .inl (by rw [quoteEscape, if_neg hbk, if_neg hdol]; rfl)

theorem quoteDepTargetString_head (str : Text) {d : UInt8} {s : Text}
    (h : quoteDepTargetString str = d :: s) : d ≠ ascii ' ' := by
  cases str with
  | nil => cases h
  | cons c str =>
    rw [quoteDepTargetString] at h
    obtain he | he | ⟨-, he⟩ := quoteEscape_cases c
    · rw [he] at h
      obtain ⟨rfl, -⟩ := cons.inj h
      rintro rfl
      revert he
      decide
    · rw [he] at h
      obtain ⟨rfl, -⟩ := cons.inj h
      decide
    · rw [he] at h
      obtain ⟨rfl, -⟩ := cons.inj h
      decide

/-- The parser stops in front of this text without having read anything. -/
def EndsPath (rest : Text) : Prop := parsePath rest = ([], rest)

theorem endsPath_nil : EndsPath [] := rfl

variable (s : Text)

theorem endsPath_space : EndsPath (ascii ' ' :: s) := by
  cases s <;> rfl

theorem endsPath_colon : EndsPath (ascii ':' :: ascii ' ' :: s) := by
  rw [EndsPath, parsePath, if_neg (by decide), if_pos ⟨rfl, rfl⟩]

theorem quoteDepTargetString_append (a b : Text) :
    quoteDepTargetString (a ++ b) = quoteDepTargetString a ++ quoteDepTargetString b := by
  induction a with
  | nil => rfl
  | cons c a ih =>
    rw [cons_append, quoteDepTargetString, quoteDepTargetString, ih]
    simp only [append_assoc, cons_append]

/-- A quoted path is read back, unless it ends with a `:` and a space follows. -/
theorem parsePath_quote (p r : Text) (hnl : ascii '\n' ∉ p) (hrs : EndsPath r)
    (hco : p.getLast? = some (ascii ':') → r.head? ≠ some (ascii ' ')) :
    parsePath (quoteDepTargetString p ++ r) = (p, r) := by
  induction p with
  | nil => exact hrs
  | cons c p ih =>
    have hc : c ≠ ascii '\n' := fun h => hnl (h ▸ mem_cons_self)
    have htl : parsePath (quoteDepTargetString p ++ r) = (p, r) := by
      apply ih (fun h => hnl (mem_cons_of_mem _ h))
      intro hla
      apply hco
      cases p with
      | nil => cases hla
      | cons d p => rwa [getLast?_cons_cons]
    rw [quoteDepTargetString]
    obtain he | he | ⟨rfl, he⟩ := quoteEscape_cases c
    · obtain ⟨hws, hbk, hdol⟩ := plain_of_quoteEscape_nil he hc
      rw [he, nil_append, cons_append]
      cases ht : quoteDepTargetString p ++ r with
      | nil =>
        rw [ht] at htl
        obtain ⟨rfl, rfl⟩ := Prod.mk.inj htl
        rw [parsePath, if_neg (by simp [hws])]
      | cons d s =>
        rw [ht] at htl
        -- A space right behind is not the quoted path's: it is the separator's.
        have hsep : ¬(c = ascii ':' ∧ d = ascii ' ') := by
          rintro ⟨rfl, rfl⟩
          cases hq : quoteDepTargetString p with
          | nil =>
            rw [hq, nil_append] at ht
            have hemp : p = [] := by
              cases p with
              | nil => rfl
              | cons e p =>
                rw [quoteDepTargetString, append_eq_nil_iff] at hq
                cases hq.2
            subst hemp
            exact hco rfl (by rw [ht]; rfl)
          | cons e t =>
            rw [hq] at ht
            obtain ⟨rfl, -⟩ := cons.inj ht
            exact quoteDepTargetString_head p hq rfl
        rw [parsePath, if_neg (by simp [hws]), if_neg hsep, if_neg hbk, if_neg hdol, htl]
    · rw [he]
      show parsePath (ascii '\\' :: c :: (quoteDepTargetString p ++ r)) = _
      rw [parsePath, if_neg (by decide), if_neg (fun h => absurd h.1 (by decide)), if_pos rfl,
        if_neg hc, htl]
    · show parsePath (ascii '$' :: ascii '$' :: (quoteDepTargetString p ++ r)) = _
      rw [parsePath, if_neg (by decide), if_neg (by decide), if_neg (by decide), if_pos rfl, htl]

theorem skipWhitespaces_quote (p r : Text) (hne : p ≠ []) (hnl : ascii '\n' ∉ p) :
    skipWhitespaces (quoteDepTargetString p ++ r) = quoteDepTargetString p ++ r := by
  cases p with
  | nil => exact absurd rfl hne
  | cons c p =>
    have hc : c ≠ ascii '\n' := fun h => hnl (h ▸ mem_cons_self)
    rw [quoteDepTargetString]
    obtain he | he | ⟨rfl, he⟩ := quoteEscape_cases c
    · obtain ⟨hws, hbk, -⟩ := plain_of_quoteEscape_nil he hc
      rw [he, nil_append, cons_append]
      cases quoteDepTargetString p ++ r with
      | nil => rw [skipWhitespaces, if_neg (by simp [hws])]
      | cons d s => rw [skipWhitespaces, if_neg (by simp [hws]), if_neg (fun h => hbk h.1)]
    · rw [he]
      show skipWhitespaces (ascii '\\' :: c :: (quoteDepTargetString p ++ r)) = _
      rw [skipWhitespaces, if_neg (by decide), if_neg (fun h => hc h.2)]
      rfl
    · show skipWhitespaces (ascii '$' :: ascii '$' :: (quoteDepTargetString p ++ r)) = _
      rfl

theorem skipWhitespaces_space :
    skipWhitespaces (ascii ' ' :: s) = skipWhitespaces s := by
  cases s with
  | nil => rfl
  | cons d s => rw [skipWhitespaces, if_pos (by decide)]

theorem skipWhitespaces_continuation :
    skipWhitespaces (asciiText " \\\n" ++ s) = skipWhitespaces s := by
  show skipWhitespaces (ascii ' ' :: ascii '\\' :: ascii '\n' :: s) = skipWhitespaces s
  rw [skipWhitespaces_space, skipWhitespaces, if_neg (by decide), if_pos ⟨rfl, rfl⟩]

section

variable (normalize : FilesystemPath → FilesystemPath) {p : Text}

theorem parseDependencies_step {t skipped r : Text}
    (hsk : skipWhitespaces t = skipped) (hne : skipped ≠ [])
    (hp : parsePath skipped = (p, r)) :
    parseDependencies normalize t =
      if r.length = t.length then none
      else (parseDependencies normalize r).map (normalize p :: ·) := by
  have hnonempty : skipped.isEmpty = false := by simpa using hne
  rw [parseDependencies, hsk, hnonempty, if_neg Bool.false_ne_true, hp]

theorem quoteDepTargetString_ne_nil (hne : p ≠ []) : quoteDepTargetString p ≠ [] := by
  cases p with
  | nil => exact absurd rfl hne
  | cons c p => simp [quoteDepTargetString]

theorem parseDependencies_quote {t r : Text} (hne : p ≠ [])
    (hnl : ascii '\n' ∉ p) (ht : skipWhitespaces t = quoteDepTargetString p ++ r)
    (hlt : r.length < t.length) (hrs : EndsPath r)
    (hco : p.getLast? = some (ascii ':') → r.head? ≠ some (ascii ' ')) :
    parseDependencies normalize t = (parseDependencies normalize r).map (normalize p :: ·) := by
  have hski : quoteDepTargetString p ++ r ≠ [] :=
    append_ne_nil_of_left_ne_nil (quoteDepTargetString_ne_nil hne) r
  rw [parseDependencies_step normalize ht hski (parsePath_quote p r hnl hrs hco),
    if_neg (ne_of_lt hlt)]

theorem parseDependencies_colon :
    parseDependencies normalize (ascii ':' :: ascii ' ' :: s) = none := by
  have hsk : skipWhitespaces (ascii ':' :: ascii ' ' :: s) = ascii ':' :: ascii ' ' :: s := by
    rw [skipWhitespaces, if_neg (by decide), if_neg (by decide)]
  rw [parseDependencies_step normalize hsk (cons_ne_nil _ _) (endsPath_colon s), if_pos rfl]

/-- A path that ends with a `:` in front of a space leaves the `:` behind. -/
theorem parseDependencies_quote_colon {t s : Text} (hnl : ascii '\n' ∉ p)
    (hla : p.getLast? = some (ascii ':'))
    (ht : skipWhitespaces t = quoteDepTargetString p ++ ascii ' ' :: s)
    (hlt : (ascii ':' :: ascii ' ' :: s).length < t.length) :
    parseDependencies normalize t = none := by
  obtain ⟨init, rfl⟩ := getLast?_eq_some_iff.1 hla
  have hq : quoteDepTargetString (init ++ [ascii ':']) ++ ascii ' ' :: s =
      quoteDepTargetString init ++ ascii ':' :: ascii ' ' :: s := by
    rw [quoteDepTargetString_append, append_assoc]
    rfl
  have hpa := parsePath_quote init (ascii ':' :: ascii ' ' :: s)
    (fun h => hnl (mem_append_left _ h)) (endsPath_colon s)
    (fun _ h => absurd (Option.some.inj h) (by decide))
  rw [parseDependencies_step normalize (ht.trans hq) (by simp) hpa, if_neg (ne_of_lt hlt),
    parseDependencies_colon]
  rfl

end

/-- The paths that the parser can tell from their separators: a `:` at the end is lost if
a space follows, so it may stand at the end of the last path only. -/
def Separable (dependencies : List FilesystemPath) : Prop :=
  ∀ path ∈ dependencies.dropLast, path.getLast? ≠ some (ascii ':')

theorem separable_singleton (p : FilesystemPath) : Separable [p] := nofun

theorem separable_cons_cons (p p' : FilesystemPath) (r : List FilesystemPath) :
    Separable (p :: p' :: r) ↔ p.getLast? ≠ some (ascii ':') ∧ Separable (p' :: r) := by
  rw [Separable, dropLast_cons_cons, forall_mem_cons]
  rfl

def Writable (path : FilesystemPath) : Prop := path ≠ [] ∧ ascii '\n' ∉ path

variable (normalize : FilesystemPath → FilesystemPath)

/-- Behind a continued line the loop starts at the separator, so it is stated for every
text that is the same up to whitespaces. -/
theorem parseDependencies_write
    (deps : List FilesystemPath) (hne : deps ≠ []) (hdeps : ∀ path ∈ deps, Writable path)
    (t : Text) (ht : skipWhitespaces t = skipWhitespaces (writeDependencies deps))
    (hlen : (writeDependencies deps).length ≤ t.length) :
    (Separable deps → parseDependencies normalize t = some (deps.map normalize)) ∧
      (¬Separable deps → parseDependencies normalize t = none) := by
  induction deps using writeDependencies.induct generalizing t with
  | case1 => exact absurd rfl hne
  | case2 path =>
    obtain ⟨hpth, hnl⟩ := hdeps path mem_cons_self
    have hsk : skipWhitespaces t = quoteDepTargetString path ++ [] := by
      rw [ht, writeDependencies, skipWhitespaces_space]
      simpa using skipWhitespaces_quote path [] hpth hnl
    have hlt : ([] : Text).length < t.length :=
      lt_of_lt_of_le (by simp [writeDependencies]) hlen
    refine ⟨fun _ => ?_, fun h => absurd (separable_singleton path) h⟩
    rw [parseDependencies_quote normalize hpth hnl hsk hlt endsPath_nil (fun _ h => by cases h),
      parseDependencies]
    rfl
  | case3 path p' r ih =>
    obtain ⟨hpth, hnl⟩ := hdeps path mem_cons_self
    have hsk : skipWhitespaces t = quoteDepTargetString path ++
        (asciiText " \\\n" ++ writeDependencies (p' :: r)) := by
      rw [ht, writeDependencies, cons_append, skipWhitespaces_space, append_assoc,
        skipWhitespaces_quote path _ hpth hnl]
    have hlt : (asciiText " \\\n" ++ writeDependencies (p' :: r)).length < t.length := by
      refine lt_of_lt_of_le ?_ hlen
      simp only [writeDependencies, length_append, length_cons]
      omega
    rw [separable_cons_cons]
    by_cases hla : path.getLast? = some (ascii ':')
    · refine ⟨fun h => absurd hla h.1, fun _ => ?_⟩
      apply parseDependencies_quote_colon normalize hnl hla hsk
      have hpos := length_pos_iff.2 (quoteDepTargetString_ne_nil hpth)
      refine lt_of_lt_of_le ?_ hlen
      show (writeDependencies (p' :: r)).length + 4 < _
      have hsep : (asciiText " \\\n").length = 3 := rfl
      simp only [writeDependencies, length_append, length_cons]
      omega
    · have hst := parseDependencies_quote normalize hpth hnl hsk hlt
        (endsPath_space _) (fun h => absurd h hla)
      obtain ⟨hsm, hno⟩ := ih (cons_ne_nil _ _) (fun p hp => hdeps p (mem_cons_of_mem _ hp)) _
        (skipWhitespaces_continuation _) (by simp)
      refine ⟨fun h => ?_, fun h => ?_⟩
      · rw [hst, hsm h.2]
        rfl
      · rw [hst, hno (fun h' => h ⟨hla, h'⟩)]
        rfl

theorem parseMakeDepFileContents_eq
    (outFilePath : FilesystemPath) (depsList : List FilesystemPath) (hout : Writable outFilePath)
    (hne : depsList ≠ []) :
    parseMakeDepFileContents normalize (writeDepFile outFilePath depsList) =
      (parseDependencies normalize (writeDependencies depsList)).map fun dependencies =>
        { destination := normalize outFilePath, dependencies := dependencies } := by
  obtain ⟨s, hs⟩ : ∃ s, writeDependencies depsList = ascii ' ' :: s := by
    cases depsList with
    | nil => exact absurd rfl hne
    | cons path rest => cases rest <;> exact ⟨_, rfl⟩
  have ht : writeDepFile outFilePath depsList =
      quoteDepTargetString outFilePath ++ ascii ':' :: writeDependencies depsList := by
    rw [writeDepFile, append_assoc]
    rfl
  have hsk := skipWhitespaces_quote outFilePath (ascii ':' :: writeDependencies depsList)
    hout.1 hout.2
  have hpa := parsePath_quote outFilePath (ascii ':' :: writeDependencies depsList) hout.2
    (hs ▸ endsPath_colon s) (fun _ h => absurd (Option.some.inj h) (by decide))
  have hco : skipWhitespaces (ascii ':' :: writeDependencies depsList) =
      ascii ':' :: writeDependencies depsList := by
    rw [hs, skipWhitespaces, if_neg (by decide), if_neg (by decide)]
  rw [parseMakeDepFileContents, ht, hsk, hpa, hco]
  simp only [ne_eq, not_true_eq_false, if_false]

/-- The dep file is read back if and only if no dependency but the last ends with a `:`. -/
theorem parseMakeDepFileContents_writeDepFile_iff
    (outFilePath : FilesystemPath) (depsList : List FilesystemPath) (hout : Writable outFilePath)
    (hne : depsList ≠ []) (hdeps : ∀ path ∈ depsList, Writable path) :
    parseMakeDepFileContents normalize (writeDepFile outFilePath depsList) =
        some { destination := normalize outFilePath, dependencies := depsList.map normalize } ↔
      Separable depsList := by
  have hloop := parseDependencies_write normalize depsList hne hdeps
    (writeDependencies depsList) rfl (le_refl _)
  rw [parseMakeDepFileContents_eq normalize outFilePath depsList hout hne]
  by_cases h : Separable depsList
  · rw [hloop.1 h]
    exact ⟨fun _ => h, fun _ => rfl⟩
  · rw [hloop.2 h]
    refine ⟨fun h' => ?_, fun h' => absurd h' h⟩
    cases h'

/-- Separators and escapes in the paths, and a `:` at the end of the last one. -/
theorem parseMakeDepFileContents_windows_paths : parseMakeDepFileContents id
        (writeDepFile (asciiText "C:\\out dir\\a:") [asciiText "C:\\#b\\", asciiText "$c :"]) =
      some { destination := asciiText "C:\\out dir\\a:",
             dependencies := [asciiText "C:\\#b\\", asciiText "$c :"] } :=
  (parseMakeDepFileContents_writeDepFile_iff id _ _ ⟨by decide, by decide⟩ (cons_ne_nil _ _)
    (forall_mem_cons.2 ⟨⟨by decide, by decide⟩,
      forall_mem_singleton.2 ⟨by decide, by decide⟩⟩)).2
    ((separable_cons_cons _ _ _).2 ⟨by decide, separable_singleton _⟩)

/-- A dependency `b:` in front of another one makes the whole file unreadable. -/
theorem parseMakeDepFileContents_trailing_colon :
    ¬∀ (outFilePath : FilesystemPath) (depsList : List FilesystemPath), Writable outFilePath →
      depsList ≠ [] → (∀ path ∈ depsList, Writable path) →
      parseMakeDepFileContents id (writeDepFile outFilePath depsList) =
        some { destination := id outFilePath, dependencies := depsList.map id } := by
  intro h
  have hout : Writable (asciiText "a") := ⟨by decide, by decide⟩
  have hdeps : ∀ path ∈ [asciiText "b:", asciiText "c"], Writable path :=
    forall_mem_cons.2 ⟨⟨by decide, by decide⟩, forall_mem_singleton.2 ⟨by decide, by decide⟩⟩
  have hnot : ¬Separable [asciiText "b:", asciiText "c"] :=
    fun hs => ((separable_cons_cons _ _ _).1 hs).1 (by decide)
  have hnone := (parseDependencies_write id _ (cons_ne_nil _ _) hdeps
    (writeDependencies [asciiText "b:", asciiText "c"]) rfl (le_refl _)).2 hnot
  have hsome := h _ _ hout (cons_ne_nil _ _) hdeps
  rw [parseMakeDepFileContents_eq id _ _ hout (cons_ne_nil _ _), hnone] at hsome
  cases hsome

end MakeDepFile

end USprache.BuildSystem
