import Mathlib.Data.List.TakeWhile
import USprache.LexSynt.ProgramString

/-!
# File URIs

A file path is given back by its URI, unless it looks like a path with a drive letter or is only
the name of a network root.
-/

namespace USprache.LanguageServer

open List

open LexSynt (Text ascii asciiText)

def isAlpha (c : UInt8) : Bool :=
  (ascii 'a' ≤ c && c ≤ ascii 'z') || (ascii 'A' ≤ c && c ≤ ascii 'Z')

def isDigit (c : UInt8) : Bool := ascii '0' ≤ c && c ≤ ascii '9'

def isAlnum (c : UInt8) : Bool := isAlpha c || isDigit c

def hexdigit (x : Nat) : UInt8 := (asciiText "0123456789ABCDEF").getD x 0

def hexDigitValue (c : UInt8) : Option Nat :=
  if ascii '0' ≤ c ∧ c ≤ ascii '9' then some (c.toNat - '0'.toNat)
  else if ascii 'a' ≤ c ∧ c ≤ ascii 'f' then some (c.toNat - 'a'.toNat + 10)
  else if ascii 'A' ≤ c ∧ c ≤ ascii 'F' then some (c.toNat - 'A'.toNat + 10)
  else none

/-- The functions of `llvm::sys::path` for the native style. -/
structure PathFunctions where
  isSeparator : UInt8 → Bool
  rootName : Text → Text
  convertToSlash : Text → Text
  native : Text → Text

def shouldEscape (c : UInt8) : Bool := !(isAlnum c || c ∈ asciiText "-_.~/:")

def percentEncode (content : Text) : Text := content.flatMap fun c =>
    if shouldEscape c then [ascii '%', hexdigit (c.toNat / 16), hexdigit (c.toNat % 16)] else [c]

def percentDecode : Text → Text
  | [] => []
  | c :: rest =>
    if c = ascii '%' then
      match rest with
      | c1 :: c2 :: rest2 =>
        match hexDigitValue c1, hexDigitValue c2 with
        | some d1, some d2 => UInt8.ofNat (d1 * 16 + d2) :: percentDecode rest2
        | _, _ => c :: percentDecode (c1 :: c2 :: rest2)
      | rest => c :: percentDecode rest
    else c :: percentDecode rest

def isWindowsPath (path : Text) : Bool :=
  1 < path.length && isAlpha (path.getD 0 0) && path.getD 1 0 = ascii ':'

variable (paths : PathFunctions)

def isNetworkPath (path : Text) : Bool :=
  2 < path.length && path.getD 0 0 = path.getD 1 0 && paths.isSeparator (path.getD 0 0)

def isValidScheme : Text → Bool
  | [] => false
  | c :: rest => isAlpha c && rest.all fun c => isAlnum c || c ∈ asciiText "+.-"

structure Uri where
  scheme : Text
  authority : Text
  body : Text
deriving DecidableEq

/-- Where a character is not found, its index is the length of the text. -/
def Uri.parse (str : Text) : Option Uri :=
  let pos := str.idxOf (ascii ':')
  if pos = str.length then none
  else
    let scheme := percentDecode (str.take pos)
    let uriStr := str.drop (pos + 1)
    if !isValidScheme scheme then none
    else if asciiText "//" <+: uriStr then
      let uriStr := uriStr.drop 2
      let pos := uriStr.idxOf (ascii '/')
      some ⟨scheme, percentDecode (uriStr.take pos), percentDecode (uriStr.drop pos)⟩
    else some ⟨scheme, [], percentDecode uriStr⟩

def Uri.fromFilePath (absolutePath : Text) : Uri :=
  let root := paths.rootName absolutePath
  if isNetworkPath paths root then
    let path := if root <+: absolutePath then absolutePath.drop root.length else absolutePath
    ⟨asciiText "file", root.drop 2, paths.convertToSlash path⟩
  else
    ⟨asciiText "file", [],
      (if isWindowsPath root then [ascii '/'] else []) ++ paths.convertToSlash absolutePath⟩

def Uri.toString (uri : Uri) : Text :=
  let result := percentEncode uri.scheme ++ [ascii ':']
  if uri.authority = [] ∧ uri.body = [] then result
  else
    (if uri.authority ≠ [] ∨ [ascii '/'] <+: uri.body then
      result ++ asciiText "//" ++ percentEncode uri.authority else result) ++ percentEncode uri.body

def Uri.asFilePath (uri : Uri) : Option Text :=
  if ¬[ascii '/'] <+: uri.body then none
  else if uri.authority ≠ [] then
    some (paths.native (asciiText "//" ++ uri.authority ++ uri.body))
  else if isWindowsPath (uri.body.drop 1) then some (paths.native (uri.body.drop 1))
  else some (paths.native uri.body)

structure PathFunctions.Posix : Prop where
  isSeparator_eq : paths.isSeparator = (· = ascii '/')
  rootName_local : ∀ path, ¬asciiText "//" <+: path → paths.rootName path = []
  rootName_network : ∀ path, paths.rootName (asciiText "//" ++ path) =
    if path.takeWhile (· ≠ ascii '/') = [] then []
    else asciiText "//" ++ path.takeWhile (· ≠ ascii '/')
  convertToSlash_eq : ∀ path, paths.convertToSlash path = path
  native_eq : ∀ path, ascii '\\' ∉ path → paths.native path = path

def IsNetworkRoot (path : Text) : Prop :=
  ∃ name, name ≠ [] ∧ ascii '/' ∉ name ∧ path = asciiText "//" ++ name

variable {paths} {authority body path name : Text} {c : UInt8}

theorem hexDigitValue_hexdigit : ∀ n : Fin 16, hexDigitValue (hexdigit n.1) = some n.1 := by
  decide

theorem percentEncode_cons_of_not (h : shouldEscape c = false) (s : Text) :
    percentEncode (c :: s) = c :: percentEncode s := by
  rw [percentEncode, flatMap_cons, if_neg (by rw [h]; exact Bool.false_ne_true)]
  rfl

theorem percentDecode_percentEncode (s : Text) : percentDecode (percentEncode s) = s := by
  induction s with
  | nil => rfl
  | cons c s ih =>
    cases h : shouldEscape c with
    | false =>
      have hc : c ≠ ascii '%' := by
        rintro rfl
        exact absurd h (by decide)
      rw [percentEncode_cons_of_not h, percentDecode.eq_def]
      show (if c = ascii '%' then _ else c :: percentDecode (percentEncode s)) = c :: s
      rw [if_neg hc, ih]
    | true =>
      have hlt := c.toNat_lt
      rw [percentEncode, flatMap_cons, if_pos h]
      show (match hexDigitValue (hexdigit (c.toNat / 16)),
          hexDigitValue (hexdigit (c.toNat % 16)) with
        | some d1, some d2 => UInt8.ofNat (d1 * 16 + d2) :: percentDecode (percentEncode s)
        | _, _ => _) = c :: s
      rw [hexDigitValue_hexdigit ⟨c.toNat / 16, by omega⟩,
        hexDigitValue_hexdigit ⟨c.toNat % 16, by omega⟩, ih]
      show UInt8.ofNat (c.toNat / 16 * 16 + c.toNat % 16) :: s = c :: s
      rw [Nat.div_add_mod', UInt8.ofNat_toNat]

theorem slash_notMem_percentEncode (h : ascii '/' ∉ name) : ascii '/' ∉ percentEncode name := by
  have hd : ∀ n : Fin 16, ascii '/' ≠ hexdigit n.1 := by decide
  intro hmem
  obtain ⟨c, hc, hmem⟩ := mem_flatMap.1 hmem
  have hlt := c.toNat_lt
  split at hmem
  · rcases mem_cons.1 hmem with h' | hmem
    · exact absurd h' (by decide)
    rcases mem_cons.1 hmem with h' | hmem
    · exact hd ⟨c.toNat / 16, by omega⟩ h'
    · exact hd ⟨c.toNat % 16, by omega⟩ (mem_singleton.1 hmem)
  · exact h (mem_singleton.1 hmem ▸ hc)

theorem Uri.parse_toString (haut : ascii '/' ∉ authority)
    (hbody : [ascii '/'] <+: body ∨ authority ≠ [] ∧ body = []) :
    Uri.parse (Uri.toString ⟨asciiText "file", authority, body⟩) =
      some ⟨asciiText "file", authority, body⟩ := by
  have hne : ¬(authority = [] ∧ body = []) := by
    rintro ⟨ha, hb⟩
    rcases hbody with h | h
    · rw [hb] at h
      exact absurd h (by decide)
    · exact h.1 ha
  have hsl : authority ≠ [] ∨ [ascii '/'] <+: body := hbody.symm.imp_left And.left
  have ht : Uri.toString ⟨asciiText "file", authority, body⟩ =
      asciiText "file" ++ ascii ':' :: (asciiText "//" ++
        (percentEncode authority ++ percentEncode body)) := by
    rw [Uri.toString]
    rw [if_neg hne, if_pos hsl]
    rfl
  have hpos : (percentEncode authority ++ percentEncode body).idxOf (ascii '/') =
      (percentEncode authority).length := by
    rw [idxOf_append, if_neg (slash_notMem_percentEncode haut)]
    rcases hbody with ⟨rest, rfl⟩ | ⟨-, rfl⟩
    · rw [singleton_append, percentEncode_cons_of_not (by decide), idxOf_cons_self, Nat.zero_add]
    · exact Nat.zero_add _
  rw [ht]
  show some (Uri.mk (asciiText "file")
    (percentDecode ((percentEncode authority ++ percentEncode body).take
      ((percentEncode authority ++ percentEncode body).idxOf (ascii '/'))))
    (percentDecode ((percentEncode authority ++ percentEncode body).drop
      ((percentEncode authority ++ percentEncode body).idxOf (ascii '/'))))) = _
  rw [hpos, take_left, drop_left, percentDecode_percentEncode, percentDecode_percentEncode]

theorem Uri.fromFilePath_local (hps : paths.Posix) (h : paths.rootName path = []) :
    Uri.fromFilePath paths path = ⟨asciiText "file", [], path⟩ := by
  rw [Uri.fromFilePath, h, hps.convertToSlash_eq]
  rfl

theorem Uri.fromFilePath_network (hps : paths.Posix) (hn : name ≠ [])
    (h : paths.rootName (asciiText "//" ++ (name ++ path)) = asciiText "//" ++ name) :
    Uri.fromFilePath paths (asciiText "//" ++ (name ++ path)) = ⟨asciiText "file", name, path⟩ := by
  have hnet : isNetworkPath paths (asciiText "//" ++ name) = true := by
    obtain ⟨c, name, rfl⟩ := exists_cons_of_ne_nil hn
    rw [isNetworkPath, hps.isSeparator_eq]
    show (decide (2 < name.length + 1 + 1 + 1) && true && true) = true
    rfl
  rw [Uri.fromFilePath, h]
  dsimp only
  rw [if_pos hnet, if_pos ⟨path, append_assoc _ _ _⟩, ← append_assoc,
    drop_left, hps.convertToSlash_eq]
  rfl

theorem PathFunctions.Posix.cases (hps : paths.Posix) (path : Text) :
    (paths.rootName path = [] ∧ ¬IsNetworkRoot path) ∨
      ∃ name r, name ≠ [] ∧ ascii '/' ∉ name ∧ (r = [] ∨ [ascii '/'] <+: r) ∧
        path = asciiText "//" ++ (name ++ r) ∧ paths.rootName path = asciiText "//" ++ name := by
  by_cases hsla : asciiText "//" <+: path
  · obtain ⟨r, rfl⟩ := hsla
    have hroot := hps.rootName_network r
    have hnot : ascii '/' ∉ r.takeWhile (· ≠ ascii '/') := fun h =>
      absurd (mem_takeWhile_imp h) (by decide)
    by_cases hn : r.takeWhile (· ≠ ascii '/') = []
    · refine .inl ⟨hroot.trans (if_pos hn), ?_⟩
      rintro ⟨name, hne, hsl, heq⟩
      obtain rfl := append_cancel_left heq
      rw [takeWhile_eq_self_iff.2] at hn
      · exact hne hn
      · intro c hc
        exact decide_eq_true fun h => hsl (h ▸ hc)
    · refine .inr ⟨_, r.dropWhile (· ≠ ascii '/'), hn, hnot, ?_, ?_, hroot.trans (if_neg hn)⟩
      · cases h : r.dropWhile (· ≠ ascii '/') with
        | nil => exact .inl rfl
        | cons c tail =>
          have hc := head?_dropWhile_not (· ≠ ascii '/') r
          rw [h] at hc
          exact .inr ⟨tail, congrArg (· :: tail) (not_not.1 (of_decide_eq_false hc)).symm⟩
      · rw [takeWhile_append_dropWhile]
  · refine .inl ⟨hps.rootName_local path hsla, ?_⟩
    rintro ⟨name, -, -, rfl⟩
    exact hsla (prefix_append _ _)

theorem Uri.parse_toString_fromFilePath (hps : paths.Posix) (habs : [ascii '/'] <+: path) :
    Uri.parse (Uri.fromFilePath paths path).toString = some (Uri.fromFilePath paths path) := by
  rcases hps.cases path with ⟨hroot, -⟩ | ⟨name, rest, hn, hsl, hrs, rfl, hroot⟩
  · rw [Uri.fromFilePath_local hps hroot]
    exact Uri.parse_toString not_mem_nil (.inl habs)
  · rw [Uri.fromFilePath_network hps hn hroot]
    exact Uri.parse_toString hsl (hrs.symm.imp_right fun h => ⟨hn, h⟩)

theorem Uri.asFilePath_fromFilePath_iff (hps : paths.Posix) (habs : [ascii '/'] <+: path)
    (hbsl : ascii '\\' ∉ path) :
    (Uri.fromFilePath paths path).asFilePath paths = some path ↔
      isWindowsPath (path.drop 1) = false ∧ ¬IsNetworkRoot path := by
  rcases hps.cases path with ⟨hroot, hnot⟩ | ⟨name, r, hn, hsl, hrs, rfl, hroot⟩
  · rw [Uri.fromFilePath_local hps hroot, Uri.asFilePath]
    obtain ⟨path, rfl⟩ := habs
    rw [show ([ascii '/'] ++ path).drop 1 = path from rfl]
    cases hwin : isWindowsPath path with
    | false =>
      rw [hps.native_eq _ hbsl]
      exact iff_of_true rfl ⟨rfl, hnot⟩
    | true =>
      rw [hps.native_eq path fun h => hbsl (mem_cons_of_mem _ h)]
      refine iff_of_false (fun h => ?_) fun h => Bool.noConfusion h.1
      exact Nat.ne_of_lt (Nat.lt_succ_self _) (congrArg length (Option.some.inj h))
  · rw [Uri.fromFilePath_network hps hn hroot, Uri.asFilePath]
    dsimp only
    rcases hrs with rfl | hrs
    · refine iff_of_false (Option.some_ne_none _).symm fun h => h.2 ⟨name, hn, hsl, ?_⟩
      rw [append_nil]
    · rw [if_neg (not_not_intro hrs), if_pos hn, append_assoc, hps.native_eq _ hbsl]
      have hwin : isWindowsPath ((asciiText "//" ++ (name ++ r)).drop 1) = false :=
        congrArg (· && _) (Bool.and_false _)
      refine iff_of_true rfl ⟨hwin, ?_⟩
      rintro ⟨other, -, ho, heq⟩
      refine ho (append_cancel_left heq ▸ mem_append_right _ ?_)
      exact hrs.subset (mem_singleton_self _)

/-- A path comes back through its URI, but for the paths that look like a path with a drive letter
and those that are only the name of a network root. -/
theorem Uri.filePath_exact (hpaths : paths.Posix) (habsolute : [ascii '/'] <+: path)
    (hbackslash : ascii '\\' ∉ path) :
    Uri.parse (Uri.fromFilePath paths path).toString = some (Uri.fromFilePath paths path) ∧
      ((Uri.fromFilePath paths path).asFilePath paths = some path ↔
        isWindowsPath (path.drop 1) = false ∧ ¬IsNetworkRoot path) :=
  ⟨parse_toString_fromFilePath hpaths habsolute,
    asFilePath_fromFilePath_iff hpaths habsolute hbackslash⟩

def posixPaths : PathFunctions where
  isSeparator := (· = ascii '/')
  rootName path :=
    if asciiText "//" <+: path ∧ (path.drop 2).takeWhile (· ≠ ascii '/') ≠ [] then
      asciiText "//" ++ (path.drop 2).takeWhile (· ≠ ascii '/')
    else []
  convertToSlash := id
  native := id

theorem posixPaths_posix : posixPaths.Posix where
  isSeparator_eq := rfl
  rootName_local _ h := if_neg fun h' => h h'.1
  rootName_network path := by
    show (if asciiText "//" <+: asciiText "//" ++ path ∧ path.takeWhile _ ≠ [] then _ else _) = _
    by_cases h : path.takeWhile (· ≠ ascii '/') = []
    · rw [if_pos h]
      exact if_neg fun h' => h'.2 h
    · rw [if_neg h]
      exact if_pos ⟨prefix_append _ _, h⟩
  convertToSlash_eq _ := rfl
  native_eq _ _ := rfl

theorem Uri.filePath_exact_encoded :
    Uri.parse (Uri.fromFilePath posixPaths (asciiText "/a%41/c:\x7F")).toString =
        some (Uri.fromFilePath posixPaths (asciiText "/a%41/c:\x7F")) ∧
      ((Uri.fromFilePath posixPaths (asciiText "/a%41/c:\x7F")).asFilePath posixPaths =
          some (asciiText "/a%41/c:\x7F") ↔
        isWindowsPath ((asciiText "/a%41/c:\x7F").drop 1) = false ∧
          ¬IsNetworkRoot (asciiText "/a%41/c:\x7F")) :=
  filePath_exact posixPaths_posix (by decide) (by decide)

/-- The leading slash of `/c:/x` is lost. -/
theorem Uri.not_filePath_kept :
    ¬∀ paths : PathFunctions, paths.Posix → ∀ path, [ascii '/'] <+: path → ascii '\\' ∉ path →
      Uri.parse (Uri.fromFilePath paths path).toString = some (Uri.fromFilePath paths path) ∧
        (Uri.fromFilePath paths path).asFilePath paths = some path := by
  intro h
  have hpath := h posixPaths posixPaths_posix (asciiText "/c:/x") (by decide) (by decide)
  exact absurd hpath.2 (by decide)

end USprache.LanguageServer
