import Mathlib.Data.List.Chain
import Mathlib.Data.List.TakeWhile
import USprache.LexSynt.ProgramString

/-!
# Filesystem paths

The functions of `ust::path` for the systems with `/` as the only separator.
-/

namespace USprache.Ustlib.Path

open LexSynt (Text ascii asciiText)
open List

def separator : UInt8 := ascii '/'

def isSeparator (c : UInt8) : Bool := c = separator

def isAbsolute (p : Text) : Bool := p.head? = some separator

/-- Adds a separator if the path ends with another byte. -/
def withSeparator (p : Text) : Text :=
  if p ≠ [] ∧ p.getLast? ≠ some separator then p ++ [separator] else p

def append (p0 p1 : Text) : Text := if isAbsolute p1 then p1 else withSeparator p0 ++ p1

/-- `join` for two components: it starts from the last absolute one. -/
def join (p0 p1 : Text) : Text := if isAbsolute p1 then p1 else withSeparator p0 ++ p1

/-- `components_raw_iterator::next`: the next component and the path behind it. -/
def nextComponent : Text → Option (Text × Text)
  | [] => none
  | c :: p =>
    -- The root of an absolute path is a component.
    if isSeparator c then some ([separator], p.dropWhile isSeparator)
    else some ((c :: p).takeWhile (!isSeparator ·), ((c :: p).dropWhile (!isSeparator ·)).dropWhile isSeparator)

def componentsFrom : Nat → Text → List Text
  | 0, _ => []
  | n + 1, p =>
    match nextComponent p with
    | none => []
    | some (component, rest) => component :: componentsFrom n rest

/-- All components of a path.  Each one takes a byte of the path at least. -/
def componentsIter (p : Text) : List Text := componentsFrom p.length p

def normalizeComponents : List Text → List Text → List Text
  | components, [] => components
  | components, component :: rest =>
    if component = asciiText "." then normalizeComponents components rest
    else if component = asciiText ".." then
      -- A component prior to `..` is removed, unless it is `..` or the root.
      if components ≠ [] ∧ components.getLast? ≠ some (asciiText "..") ∧
          components.getLast? ≠ some [separator] then
        normalizeComponents components.dropLast rest
      else normalizeComponents (components ++ [component]) rest
    else normalizeComponents (components ++ [component]) rest

def joinComponents (components : List Text) : Text :=
  components.foldl (fun result component => withSeparator result ++ component) []

def normalize (p : Text) : Text := joinComponents (normalizeComponents [] (componentsIter p))

/-! ## Components -/

variable {a b p q component : Text} {cs ds : List Text}

abbrev IsPlain (t : Text) : Prop := ∀ c ∈ t, isSeparator c = false

def IsName (component : Text) : Prop := component ≠ [] ∧ ∀ c ∈ component, isSeparator c = false

theorem nextComponent_length {r : Text} (h : nextComponent p = some (component, r)) :
    r.length < p.length := by
  cases p with
  | nil => cases h
  | cons c p =>
    rw [nextComponent] at h
    split at h <;> obtain ⟨rfl, rfl⟩ := Prod.mk.inj (Option.some.inj h)
    · exact Nat.lt_succ_of_le (dropWhile_sublist _).length_le
    · next hsep =>
      rw [dropWhile_cons_of_pos (by simpa using hsep)]
      exact Nat.lt_succ_of_le ((dropWhile_sublist _).trans (dropWhile_sublist _)).length_le

theorem componentsFrom_eq : ∀ (n m : Nat) (p : Text), p.length ≤ n → p.length ≤ m →
    componentsFrom n p = componentsFrom m p := by
  intro n
  induction n with
  | zero =>
    intro m p hn _
    obtain rfl := length_eq_zero_iff.1 (Nat.le_zero.1 hn)
    cases m <;> rfl
  | succ n ih =>
    intro m p hn hm
    cases m with
    | zero =>
      obtain rfl := length_eq_zero_iff.1 (Nat.le_zero.1 hm)
      rfl
    | succ m =>
      rw [componentsFrom, componentsFrom]
      cases h : nextComponent p with
      | none => rfl
      | some pr =>
        have hlt := nextComponent_length h
        exact congrArg (pr.1 :: ·) (ih m pr.2 (by omega) (by omega))

theorem componentsIter_cons (c : UInt8) (p : Text) : componentsIter (c :: p) =
    if isSeparator c then [separator] :: componentsIter (p.dropWhile isSeparator)
    else (c :: p).takeWhile (!isSeparator ·) ::
      componentsIter (((c :: p).dropWhile (!isSeparator ·)).dropWhile isSeparator) := by
  rw [componentsIter, length_cons, componentsFrom]
  have hlt := fun component r => @nextComponent_length (c :: p) component r
  cases h : isSeparator c with
  | true =>
    have hnext : nextComponent (c :: p) = some ([separator], p.dropWhile isSeparator) := if_pos h
    rw [hnext]
    exact congrArg (_ :: ·) (componentsFrom_eq _ _ _ (Nat.le_of_lt_succ (hlt _ _ hnext)) (le_refl _))
  | false =>
    have hnext : nextComponent (c :: p) = some ((c :: p).takeWhile (!isSeparator ·),
        ((c :: p).dropWhile (!isSeparator ·)).dropWhile isSeparator) := if_neg (by rw [h]; decide)
    rw [hnext]
    exact congrArg (_ :: ·) (componentsFrom_eq _ _ _ (Nat.le_of_lt_succ (hlt _ _ hnext)) (le_refl _))

theorem isSeparator_separator : isSeparator separator = true := decide_eq_true rfl

theorem IsPlain.notMem (h : IsPlain p) : separator ∉ p := fun hmem =>
  Bool.eq_false_iff.1 (h _ hmem) isSeparator_separator

theorem IsPlain.getLast?_ne (h : IsPlain p) : p.getLast? ≠ some separator := fun hlast =>
  h.notMem (mem_of_getLast? hlast)

theorem IsPlain.getElem?_ne (h : IsPlain p) (j : Nat) : p[j]? ≠ some separator := fun hj =>
  h.notMem (mem_of_getElem? hj)

theorem IsName.plain (h : IsName component) : IsPlain component := h.2

theorem takeWhile_separator (x : Text) :
    (x ++ separator :: b).takeWhile (!isSeparator ·) = x.takeWhile (!isSeparator ·) := by
  rw [takeWhile_append, takeWhile_cons_of_neg (by rw [isSeparator_separator]; decide), append_nil]
  split_ifs with h
  · exact (( takeWhile_prefix _).eq_of_length h).symm
  · rfl

theorem dropWhile_separator (x : Text) :
    (x ++ separator :: b).dropWhile (!isSeparator ·) = x.dropWhile (!isSeparator ·) ++ separator :: b := by
  rw [dropWhile_append, dropWhile_cons_of_neg (by rw [isSeparator_separator]; decide)]
  split_ifs with h
  · rw [List.isEmpty_iff.1 h, nil_append]
  · rfl

/-- The components of two parts of a path that a separator divides. -/
theorem componentsIter_append (n : Nat) : ∀ a : Text, a.length = n → a ≠ [] →
    componentsIter (a ++ separator :: b) = componentsIter a ++ componentsIter (b.dropWhile isSeparator) := by
  induction n using Nat.strongRecOn with
  | ind n ih =>
    intro a hn hne
    have hdrop : (separator :: b).dropWhile isSeparator = b.dropWhile isSeparator :=
      dropWhile_cons_of_pos isSeparator_separator
    -- What is left of the first part.
    have hrs : ∀ x : Text, x.length < n → componentsIter ((x ++ separator :: b).dropWhile isSeparator) =
        componentsIter (x.dropWhile isSeparator) ++ componentsIter (b.dropWhile isSeparator) := by
      intro x hlt
      rw [dropWhile_append]
      cases hx : x.dropWhile isSeparator with
      | nil => rfl
      | cons c r =>
        have hle := (dropWhile_sublist (l := x) isSeparator).length_le
        rw [hx] at hle
        exact ih _ (lt_of_le_of_lt hle hlt) (c :: r) rfl (cons_ne_nil c r)
    cases a with
    | nil => exact absurd rfl hne
    | cons c a =>
      rw [length_cons] at hn
      rw [cons_append, componentsIter_cons, componentsIter_cons]
      cases hc : isSeparator c with
      | true =>
        rw [if_pos rfl, if_pos rfl, hrs a (by omega), cons_append]
      | false =>
        rw [if_neg Bool.false_ne_true, if_neg Bool.false_ne_true, ← cons_append, takeWhile_separator,
          dropWhile_separator, hrs _ ?_, cons_append]
        rw [dropWhile_cons_of_pos (by rw [hc]; rfl)]
        exact lt_of_le_of_lt (dropWhile_sublist _).length_le (by omega)

theorem componentsIter_name (h : IsName component) : componentsIter component = [component] := by
  cases component with
  | nil => exact absurd rfl h.1
  | cons c r =>
    have hall : ∀ x ∈ c :: r, (!isSeparator x) = true := fun x hx => by rw [h.2 x hx]; rfl
    rw [componentsIter_cons, if_neg (by rw [h.2 c mem_cons_self]; decide), takeWhile_eq_self_iff.2 hall,
      dropWhile_eq_nil_iff.2 hall]
    rfl

theorem joinComponents_append (cs : List Text) (d : Text) :
    joinComponents (cs ++ [d]) = withSeparator (joinComponents cs) ++ d := by
  rw [joinComponents, foldl_append, foldl_cons, foldl_nil, ← joinComponents]

theorem relative_dropWhile (p : Text) : isAbsolute (p.dropWhile isSeparator) = false := by
  cases h : p.dropWhile isSeparator with
  | nil => rfl
  | cons c rest =>
    have hc := head_dropWhile_not isSeparator (l := p) (by rw [h]; exact cons_ne_nil _ _)
    simp only [h, head_cons, isSeparator] at hc
    simpa [isAbsolute] using hc

theorem components_relative (n : Nat) : ∀ p : Text, p.length = n → isAbsolute p = false →
    ∀ d ∈ componentsIter p, IsName d := by
  induction n using Nat.strongRecOn with
  | ind n ih =>
    intro p hn hrel d hd
    cases p with
    | nil => cases hd
    | cons c p =>
      have hc : isSeparator c = false := by simpa [isAbsolute, isSeparator] using hrel
      rw [length_cons] at hn
      rw [componentsIter_cons, if_neg (by rw [hc]; decide), mem_cons] at hd
      rcases hd with rfl | hd
      · refine ⟨by rw [takeWhile_cons_of_pos (by rw [hc]; rfl)]; exact cons_ne_nil _ _, fun x hx => ?_⟩
        simpa using mem_takeWhile_imp hx
      · refine ih _ ?_ _ rfl ?_ d hd
        · rw [dropWhile_cons_of_pos (by rw [hc]; rfl)]
          exact lt_of_le_of_lt ((dropWhile_sublist _).trans (dropWhile_sublist _)).length_le (by omega)
        · exact relative_dropWhile _

/-! ## Normalized paths -/

variable (root : Bool)

def rootPart : List Text := if root then [[separator]] else []

theorem components_shape (p : Text) : ∃ ns, componentsIter p = rootPart (isAbsolute p) ++ ns ∧
    ∀ d ∈ ns, IsName d := by
  cases h : isAbsolute p with
  | false => exact ⟨_, rfl, components_relative _ p rfl h⟩
  | true =>
    cases p with
    | nil => cases h
    | cons c p =>
      have hc : isSeparator c = true := by simpa [isAbsolute, isSeparator] using h
      exact ⟨componentsIter (p.dropWhile isSeparator), by rw [componentsIter_cons, if_pos hc]; rfl,
        components_relative _ _ rfl (relative_dropWhile p)⟩

structure Joined (names : List Text) (p : Text) : Prop where
  components : componentsIter p = rootPart root ++ names
  separated : p.IsChain fun x y => ¬(isSeparator x = true ∧ isSeparator y = true)
  empty : names = [] → p = (rootPart root).flatten
  last : names ≠ [] → p ≠ [] ∧ p.getLast? ≠ some separator

theorem IsName.chain (h : IsName component) :
    component.IsChain fun x y => ¬(isSeparator x = true ∧ isSeparator y = true) := by
  have hall : ∀ x ∈ component, ∀ y ∈ component, ¬(isSeparator x = true ∧ isSeparator y = true) :=
    fun x hx y _ hxy => Bool.eq_false_iff.1 (h.2 x hx) hxy.1
  exact (pairwise_of_forall_mem_list hall).isChain

theorem IsName.last (h : IsName component) (p : Text) :
    (p ++ component).getLast? ≠ some separator := by
  rw [getLast?_append_of_ne_nil _ h.1]
  exact h.plain.getLast?_ne

theorem IsName.dropWhile (h : IsName component) : component.dropWhile isSeparator = component := by
  cases component with
  | nil => rfl
  | cons c rest => exact dropWhile_cons_of_neg (by rw [h.2 c mem_cons_self]; decide)

/-- The first name follows the root, or nothing. -/
theorem joined_first (h : IsName component) :
    Joined root [component] (withSeparator (rootPart root).flatten ++ component) := by
  cases root with
  | false =>
    exact ⟨componentsIter_name h, h.chain, nofun, fun _ => ⟨h.1, h.last []⟩⟩
  | true =>
    refine ⟨?_, isChain_append.2 ⟨by decide, h.chain, fun x _ y hy hxy => ?_⟩,
      nofun, fun _ => ⟨cons_ne_nil _ _, h.last [separator]⟩⟩
    · show componentsIter (separator :: component) = _
      rw [componentsIter_cons, h.dropWhile, componentsIter_name h]
      rfl
    · exact Bool.eq_false_iff.1 (h.2 y (mem_of_mem_head? hy)) hxy.2

theorem Joined.concat {names : List Text} (hp : Joined root names p) (hnames : names ≠ [])
    (h : IsName component) : Joined root (names ++ [component]) (withSeparator p ++ component) := by
  obtain ⟨hne, hlast⟩ := hp.last hnames
  rw [show withSeparator p = p ++ [separator] from if_pos ⟨hne, hlast⟩]
  refine ⟨?_, ?_, fun h => absurd h (concat_ne_nil _ _),
    fun _ => ⟨append_ne_nil_of_right_ne_nil _ h.1, h.last _⟩⟩
  · rw [append_assoc, singleton_append, componentsIter_append _ p rfl hne, hp.components,
      h.dropWhile, componentsIter_name h, append_assoc]
  · refine isChain_append.2 ⟨isChain_append.2 ⟨hp.separated, .singleton _,
      fun x hx y _ hxy => hlast ?_⟩, h.chain, fun x _ y hy hxy => ?_⟩
    · rw [hx, of_decide_eq_true hxy.1]
    · exact Bool.eq_false_iff.1 (h.2 y (mem_of_mem_head? hy)) hxy.2

theorem joined_joinComponents (names : List Text) : (∀ d ∈ names, IsName d) →
    Joined root names (joinComponents (rootPart root ++ names)) := by
  induction names using reverseRecOn with
  | nil =>
    intro _
    cases root <;> exact ⟨by decide, by decide, fun _ => rfl, fun h => absurd rfl h⟩
  | append_singleton names d ih =>
    intro hall
    have hd := hall d (mem_append_right _ mem_cons_self)
    have hp := ih fun x hx => hall x (mem_append_left _ hx)
    rw [← append_assoc, joinComponents_append]
    by_cases hnames : names = []
    · rw [hp.empty hnames, hnames]
      exact joined_first root hd
    · exact hp.concat root hnames hd

/-! ## Places -/

def dot : Text := asciiText "."

def dotDot : Text := asciiText ".."

/-- Where a path leads to, from the root or from the current directory. -/
structure Place where
  root : Bool
  ups : Nat
  names : List Text

/-- A component is walked: `..` takes back an ordinary component, or else stays. -/
def Place.step (place : Place) (component : Text) : Place :=
  if component = [separator] then { place with root := true }
  else if component = dot then place
  else if component = dotDot then
    if place.names = [] then { place with ups := place.ups + 1 }
    else { place with names := place.names.dropLast }
  else { place with names := place.names ++ [component] }

def place (p : Text) : Place := (componentsIter p).foldl Place.step ⟨false, 0, []⟩

def IsOrdinary (component : Text) : Prop := IsName component ∧ component ≠ dot ∧ component ≠ dotDot

theorem IsName.ne_separator (h : IsName component) : component ≠ [separator] := by
  rintro rfl
  exact Bool.eq_false_iff.1 (h.2 separator mem_cons_self) isSeparator_separator

theorem isName_dotDot : IsName dotDot :=
  ⟨cons_ne_nil _ _, forall_mem_cons.2 ⟨rfl, forall_mem_singleton.2 rfl⟩⟩

namespace Place

variable {place : Place}

def written (place : Place) : List Text := replicate place.ups dotDot ++ place.names

theorem step_ordinary (h : IsOrdinary component) :
    place.step component = { place with names := place.names ++ [component] } := by
  rw [step, if_neg h.1.ne_separator, if_neg h.2.1, if_neg h.2.2]

theorem foldl_step_ordinary : ∀ {names : List Text}, (∀ d ∈ names, IsOrdinary d) → ∀ P : Place,
    names.foldl step P = { P with names := P.names ++ names } := by
  intro names
  induction names with
  | nil => exact fun _ P => by rw [append_nil]; rfl
  | cons d names ih =>
    intro h P
    obtain ⟨hd, hds⟩ := forall_mem_cons.1 h
    rw [foldl_cons, step_ordinary hd, ih hds, append_assoc]
    rfl

theorem foldl_step_written (hnames : ∀ d ∈ place.names, IsOrdinary d) :
    place.written.foldl step ⟨place.root, 0, []⟩ = place := by
  have hups : ∀ n k, (replicate n dotDot).foldl step ⟨place.root, k, []⟩ = ⟨place.root, k + n, []⟩ := by
    intro n
    induction n with
    | zero => exact fun _ => rfl
    | succ n ih =>
      intro k
      refine (ih (k + 1)).trans ?_
      rw [add_right_comm, add_assoc]
  rw [written, foldl_append, hups, foldl_step_ordinary hnames, zero_add]
  rfl

/-- Where no name can be taken back, `normalize` finds `..` or the root behind it, if anything. -/
theorem last_of_no_names (h : place.names = []) :
    ¬(rootPart place.root ++ place.written ≠ [] ∧
      (rootPart place.root ++ place.written).getLast? ≠ some dotDot ∧
      (rootPart place.root ++ place.written).getLast? ≠ some [separator]) := by
  rintro ⟨hne, hdd, hsep⟩
  rw [written, h, append_nil] at hne hdd hsep
  cases hups : place.ups with
  | zero =>
    rw [hups] at hne hsep
    cases hroot : place.root <;> rw [hroot] at hne hsep
    · exact hne rfl
    · exact hsep rfl
  | succ n =>
    rw [hups, replicate_succ', ← append_assoc, getLast?_concat] at hdd
    exact hdd rfl

theorem normalizeComponents_step (hc : IsName component) (hnames : ∀ d ∈ place.names, IsOrdinary d)
    (rest : List Text) :
    normalizeComponents (rootPart place.root ++ place.written) (component :: rest) =
      normalizeComponents (rootPart place.root ++ (place.step component).written) rest := by
  rw [normalizeComponents, ← dot, ← dotDot, step, if_neg hc.ne_separator]
  by_cases hdot : component = dot
  · rw [if_pos hdot, if_pos hdot]
  rw [if_neg hdot, if_neg hdot]
  by_cases hdd : component = dotDot
  · rw [if_pos hdd, if_pos hdd]
    rcases eq_nil_or_concat place.names with hempty | ⟨names, d, hsp⟩
    · rw [if_neg (last_of_no_names hempty), if_pos hempty, written, written, hempty, append_nil,
        append_nil, replicate_succ', hdd, append_assoc]
    · rw [concat_eq_append] at hsp
      have hd := hnames d (by rw [hsp]; exact mem_append_right _ mem_cons_self)
      have hw : rootPart place.root ++ place.written =
          rootPart place.root ++ (replicate place.ups dotDot ++ names) ++ [d] := by
        rw [written, hsp, append_assoc, append_assoc]
      rw [hw, getLast?_concat, if_pos ⟨concat_ne_nil _ _, fun h => hd.2.2 (Option.some.inj h),
        fun h => hd.1.ne_separator (Option.some.inj h)⟩, if_neg (hsp ▸ concat_ne_nil _ _),
        dropLast_concat, hsp, dropLast_concat]
      rfl
  · rw [if_neg hdd, if_neg hdd, written, written, append_assoc, append_assoc]

theorem names_step (hc : IsName component) (hnames : ∀ d ∈ place.names, IsOrdinary d) :
    (place.step component).root = place.root ∧ ∀ d ∈ (place.step component).names, IsOrdinary d := by
  rw [step, if_neg hc.ne_separator]
  split_ifs with hdot hdd
  · exact ⟨rfl, hnames⟩
  · exact ⟨rfl, hnames⟩
  · exact ⟨rfl, fun x hx => hnames x ((dropLast_sublist _).subset hx)⟩
  · refine ⟨rfl, fun x hx => ?_⟩
    rcases mem_append.1 hx with hx | hx
    · exact hnames x hx
    · rw [mem_singleton.1 hx]
      exact ⟨hc, hdot, hdd⟩

/-- The loop of `normalize` keeps the names of the place that the components walked lead to. -/
theorem normalizeComponents_eq (rest : List Text) : ∀ place : Place, (∀ d ∈ rest, IsName d) →
    (∀ d ∈ place.names, IsOrdinary d) →
    normalizeComponents (rootPart place.root ++ place.written) rest =
        rootPart place.root ++ (rest.foldl step place).written ∧
      (rest.foldl step place).root = place.root ∧ ∀ d ∈ (rest.foldl step place).names, IsOrdinary d := by
  induction rest with
  | nil => exact fun place _ h => ⟨rfl, rfl, h⟩
  | cons c rest ih =>
    intro place hall hnames
    obtain ⟨hc, hrest⟩ := forall_mem_cons.1 hall
    obtain ⟨hroot, hstep⟩ := names_step hc hnames
    rw [normalizeComponents_step hc hnames, foldl_cons, ← hroot]
    exact ih _ hrest hstep

end Place

theorem foldl_step_rootPart (ns : List Text) :
    (rootPart root ++ ns).foldl Place.step ⟨false, 0, []⟩ = ns.foldl Place.step ⟨root, 0, []⟩ := by
  cases root <;> rfl

theorem normalize_eq (p : Text) :
    normalize p = joinComponents (rootPart (isAbsolute p) ++ (place p).written) ∧
      (place p).root = isAbsolute p ∧ ∀ d ∈ (place p).names, IsOrdinary d := by
  obtain ⟨ns, heq, hnames⟩ := components_shape p
  obtain ⟨hnorm, hroot, hord⟩ := Place.normalizeComponents_eq ns ⟨isAbsolute p, 0, []⟩ hnames
    nofun
  have hstart : normalizeComponents [] (componentsIter p) =
      normalizeComponents (rootPart (isAbsolute p) ++ []) ns := by
    rw [heq]
    cases isAbsolute p with
    | false => rfl
    | true =>
      rfl
  rw [normalize, hstart, place, heq, foldl_step_rootPart]
  exact ⟨congrArg joinComponents hnorm, hroot, hord⟩

theorem isName_written {P : Place} (h : ∀ d ∈ P.names, IsOrdinary d) : ∀ d ∈ P.written, IsName d := by
  intro d hd
  rcases mem_append.1 hd with hd | hd
  · rw [(mem_replicate.1 hd).2]
    exact isName_dotDot
  · exact (h d hd).1

theorem isAbsolute_eq {root : Bool} {ns : List Text} (h : componentsIter p = rootPart root ++ ns)
    (hnames : ∀ d ∈ ns, IsName d) : isAbsolute p = root := by
  obtain ⟨names', heq, hnames'⟩ := components_shape p
  rw [h] at heq
  -- The head of the components is the root or a name.
  have hne : ∀ xs ys : List Text, (∀ d ∈ ys, IsName d) → [separator] :: xs ≠ ys := by
    rintro xs _ h rfl
    exact (h [separator] mem_cons_self).ne_separator rfl
  cases hp : isAbsolute p <;> cases root <;> rw [hp] at heq
  · exact absurd heq (hne _ _ hnames')
  · exact absurd heq.symm (hne _ _ hnames)

theorem normalize_of_ordinary {root : Bool} {names : List Text}
    (h : componentsIter p = rootPart root ++ names) (hnames : ∀ d ∈ names, IsOrdinary d) :
    normalize p = joinComponents (rootPart root ++ names) := by
  rw [(normalize_eq p).1, isAbsolute_eq h fun d hd => (hnames d hd).1, place, h, foldl_step_rootPart,
    Place.foldl_step_ordinary hnames]
  rfl

structure Normalized (p q : Text) : Prop where
  idempotent : normalize q = q
  absolute : isAbsolute q = isAbsolute p
  noDot : dot ∉ componentsIter q
  noDotDot : (componentsIter q).Pairwise fun c d => IsOrdinary c → d ≠ dotDot
  separated : ¬[separator, separator] <:+: q
  trailing : q.getLast? = some separator → q = [separator]
  samePlace : place q = place p

theorem normalize_normalized (p : Text) : Normalized p (normalize p) := by
  obtain ⟨heq, hroot, hord⟩ := normalize_eq p
  have hnames := isName_written hord
  have hj : Joined (isAbsolute p) (place p).written (normalize p) := heq ▸ joined_joinComponents _ _ hnames
  have habs := isAbsolute_eq hj.components hnames
  have hplace : place (normalize p) = place p := by
    rw [place, hj.components, foldl_step_rootPart, ← hroot]
    exact Place.foldl_step_written hord
  have hmem : ∀ d ∈ componentsIter (normalize p), d = [separator] ∨ d = dotDot ∨ IsOrdinary d := by
    intro d hd
    rw [hj.components, mem_append, Place.written, mem_append] at hd
    rcases hd with hd | hd | hd
    · cases hroot : isAbsolute p <;> rw [hroot] at hd
      · cases hd
      · exact .inl (mem_singleton.1 hd)
    · exact .inr (.inl (mem_replicate.1 hd).2)
    · exact .inr (.inr (hord d hd))
  refine ⟨?_, habs, fun h => ?_, ?_, fun h => ?_, fun h => ?_, hplace⟩
  · rw [(normalize_eq (normalize p)).1, habs, hplace, ← heq]
  · rcases hmem dot h with h | h | h
    · exact absurd h (by decide)
    · exact absurd h (by decide)
    · exact h.2.1 rfl
  · -- Only the root and `..` stand before a `..`.
    rw [hj.components, Place.written, ← append_assoc, pairwise_append]
    refine ⟨pairwise_of_forall_mem_list fun c hc d _ h => ?_, ?_, fun _ _ d hd _ => (hord d hd).2.2⟩
    · rcases mem_append.1 hc with hc | hc
      · cases hroot : isAbsolute p <;> rw [hroot] at hc
        · cases hc
        · exact absurd (mem_singleton.1 hc) h.1.ne_separator
      · exact absurd (mem_replicate.1 hc).2 h.2.2
    · exact pairwise_of_forall_mem_list fun _ _ d hd _ => (hord d hd).2.2
  · obtain ⟨a, b, hab⟩ := h
    have hch := hj.separated
    rw [← hab, append_assoc] at hch
    exact (isChain_cons_cons.1 (isChain_append.1 hch).2.1).1 ⟨isSeparator_separator, isSeparator_separator⟩
  · by_cases hw : (place p).written = []
    · have hq := hj.empty hw
      cases hroot : isAbsolute p <;> rw [hroot] at hq
      · rw [hq] at h
        cases h
      · exact hq
    · exact absurd h (hj.last hw).2

/-! ## Parents -/

def skipDuplicated (p : Text) : Nat → Nat
  | 0 => 0
  | i + 1 => if p[i + 1]? = some separator then skipDuplicated p i else i + 1

def parentFrom (p : Text) : Nat → Text
  | 0 => if p[0]? = some separator then p.take (skipDuplicated p 0 + 1) else p.take 0
  | i + 1 =>
    if p[i + 1]? = some separator then p.take (skipDuplicated p (i + 1) + 1) else parentFrom p i

def getParentPath (p : Text) : Option Text :=
  if p = [] ∨ p = asciiText "/" then none
  -- A trailing separator is skipped.
  else if p.getLast? = some separator then some (parentFrom p (p.length - 1 - 1))
  else some (parentFrom p (p.length - 1))

/-- Where a path ends that loses its last separators. -/
def orRoot (d : Text) : Text := if d = [] then [separator] else d

/-- Every path is without separators, or ends with some and a part without them. -/
theorem path_shape (p : Text) : IsPlain p ∨
    ∃ d n name, p = d ++ (replicate (n + 1) separator ++ name) ∧ d.getLast? ≠ some separator ∧
      IsPlain name := by
  have hsnoc : ∀ {p : Text} {c : UInt8}, IsPlain p → isSeparator c = false → IsPlain (p ++ [c]) := by
    intro p c hp hc x hx
    rcases mem_append.1 hx with hx | hx
    · exact hp x hx
    · rwa [mem_singleton.1 hx]
  induction p using reverseRecOn with
  | nil => exact .inl nofun
  | append_singleton p c ih =>
    cases hc : isSeparator c with
    | false =>
      rcases ih with ih | ⟨d, n, name, rfl, hd, hname⟩
      · exact .inl (hsnoc ih hc)
      · exact .inr ⟨d, n, name ++ [c], by simp only [append_assoc], hd, hsnoc hname hc⟩
    | true =>
      obtain rfl : c = separator := of_decide_eq_true hc
      rcases ih with ih | ⟨d, n, name, rfl, hd, hname⟩
      · exact .inr ⟨p, 0, [], rfl, ih.getLast?_ne, nofun⟩
      · by_cases hne : name = []
        · refine .inr ⟨d, n + 1, [], ?_, hd, nofun⟩
          rw [hne, append_nil, append_nil, append_assoc, replicate_succ' (n := n + 1)]
        · refine .inr ⟨_, 0, [], rfl, ?_, nofun⟩
          rw [← append_assoc, getLast?_append_of_ne_nil _ hne]
          exact hname.getLast?_ne

theorem getElem?_separators (d r : Text) (n : Nat) :
    (d ++ (replicate (n + 1) separator ++ r))[d.length + n]? = some separator := by
  rw [getElem?_append_right (Nat.le_add_right _ _), Nat.add_sub_cancel_left,
    getElem?_append_left (by rw [length_replicate]; exact Nat.lt_succ_self n), getElem?_replicate,
    if_pos (Nat.lt_succ_self n)]

variable {d : Text}

theorem skipDuplicated_eq (hd : d.getLast? ≠ some separator) (n : Nat) : ∀ r : Text,
    (d ++ (replicate (n + 1) separator ++ r)).take
      (skipDuplicated (d ++ (replicate (n + 1) separator ++ r)) (d.length + n) + 1) = orRoot d := by
  induction n with
  | zero =>
    intro r
    have hsep := getElem?_separators d r 0
    cases d using reverseRecOn with
    | nil => rfl
    | append_singleton d c =>
      rw [length_append, length_singleton] at hsep ⊢
      rw [skipDuplicated, if_pos hsep, orRoot, if_neg (concat_ne_nil _ _)]
      rw [getLast?_concat] at hd
      have hskip : skipDuplicated (d ++ [c] ++ (replicate 1 separator ++ r)) d.length = d.length := by
        cases hk : d.length with
        | zero => rfl
        | succ k =>
          refine if_neg ?_
          rw [getElem?_append_left (by rw [length_append, hk]; exact Nat.lt_succ_self _), ← hk,
            getElem?_concat_length]
          exact hd
      rw [hskip, take_append_of_le_length (by rw [length_append]; exact le_refl _)]
      exact take_of_length_le (by rw [length_append]; exact le_refl _)
  | succ n ih =>
    intro r
    have hsep := getElem?_separators d r (n + 1)
    rw [← add_assoc] at hsep ⊢
    rw [skipDuplicated, if_pos hsep, replicate_succ', append_assoc]
    exact ih _

theorem parentFrom_of_separator {i : Nat} (h : p[i]? = some separator) :
    parentFrom p i = p.take (skipDuplicated p i + 1) := by
  cases i with
  | zero | succ i => exact if_pos h

theorem parentFrom_name : ∀ k, (∀ j, j ≤ k → p[j]? ≠ some separator) → parentFrom p k = [] := by
  intro k
  induction k with
  | zero => exact fun h => if_neg (h 0 (le_refl _))
  | succ k ih =>
    intro h
    rw [parentFrom, if_neg (h (k + 1) (le_refl _))]
    exact ih fun j hj => h j (Nat.le_succ_of_le hj)

theorem parentFrom_add (i : Nat) : ∀ k, (∀ j, i < j → j ≤ i + k → p[j]? ≠ some separator) →
    parentFrom p (i + k) = parentFrom p i := by
  intro k
  induction k with
  | zero => exact fun _ => rfl
  | succ k ih =>
    intro h
    rw [← add_assoc, parentFrom, if_neg (h (i + k + 1) (by omega) (by omega))]
    exact ih fun j hij hj => h j hij (by omega)

variable {name : Text}

/-- The parent of a path that ends with separators and a name, and perhaps a last separator. -/
theorem parentFrom_eq {n : Nat} (hd : d.getLast? ≠ some separator)
    (hname : IsPlain name) (r : Text) :
    parentFrom (d ++ (replicate (n + 1) separator ++ (name ++ r))) (d.length + n + name.length) =
      orRoot d := by
  rw [parentFrom_add, parentFrom_of_separator (getElem?_separators _ _ _), skipDuplicated_eq hd]
  intro j hij hj
  rw [getElem?_append_right (by omega), getElem?_append_right (by rw [length_replicate]; omega),
    getElem?_append_left (by rw [length_replicate]; omega)]
  exact hname.getElem?_ne _

theorem componentsIter_shape {n : Nat} (hname : IsPlain name) :
    componentsIter (d ++ (replicate (n + 1) separator ++ name)) =
      componentsIter (orRoot d) ++ componentsIter name := by
  have hdrop : (replicate n separator ++ name).dropWhile isSeparator = name := by
    rw [dropWhile_append_of_pos fun c hc => (mem_replicate.1 hc).2 ▸ isSeparator_separator]
    cases name with
    | nil => rfl
    | cons c name => exact dropWhile_cons_of_neg (by rw [hname c mem_cons_self]; decide)
  rw [replicate_succ, cons_append, orRoot]
  split_ifs with h
  · rw [h, nil_append, componentsIter_cons, hdrop]
    rfl
  · rw [componentsIter_append _ d rfl h, hdrop]

theorem componentsIter_orRoot_ne_nil : componentsIter (orRoot d) ≠ [] := by
  cases d with
  | nil => exact cons_ne_nil _ _
  | cons c d =>
    rw [orRoot, if_neg (cons_ne_nil c d), componentsIter_cons]
    split_ifs
    · exact cons_ne_nil _ _
    · exact cons_ne_nil _ _

/-- A parent loses the last component; only the empty path and the root have none. -/
structure ParentLaw (p : Text) : Prop where
  none : getParentPath p = none ↔ componentsIter p = [] ∨ componentsIter p = [[separator]]
  components : ∀ q, getParentPath p = some q → componentsIter q = (componentsIter p).dropLast

theorem parentLaw_of_body {b : Text} (r : Text) (hb : b ≠ []) (hlast : b.getLast? ≠ some separator)
    (hp : getParentPath p = some (parentFrom (b ++ r) (b.length - 1)))
    (hc : componentsIter p = componentsIter b) : ParentLaw p := by
  have hpos := length_pos_iff.2 hb
  -- It is enough to know what is before the last component.
  have hlaw : ∀ q name, IsName name → parentFrom (b ++ r) (b.length - 1) = q →
      componentsIter b = componentsIter q ++ [name] → ParentLaw p := by
    intro q name hname hq hcb
    constructor
    · rw [hp, hc, hcb]
      refine ⟨fun h => (Option.some_ne_none _ h).elim, fun h => ?_⟩
      rcases h with h | h
      · exact absurd h (concat_ne_nil _ _)
      · obtain ⟨-, h⟩ := append_inj' (h.trans (nil_append [[separator]]).symm) rfl
        exact absurd (singleton_inj.1 h) hname.ne_separator
    · intro q' h
      rw [hp, hq] at h
      rw [hc, hcb, dropLast_concat, Option.some.inj h]
  rcases path_shape b with hname | ⟨d, n, name, rfl, hd, hname⟩
  · refine hlaw [] b ⟨hb, hname⟩ (parentFrom_name _ fun j hj => ?_) (componentsIter_name ⟨hb, hname⟩)
    rw [getElem?_append_left (by omega)]
    exact hname.getElem?_ne j
  · have hne : name ≠ [] := by
      rintro rfl
      refine hlast ?_
      rw [append_nil, replicate_succ', ← append_assoc, getLast?_concat]
    have hlen : (d ++ (replicate (n + 1) separator ++ name)).length - 1 = d.length + n + name.length := by
      rw [length_append, length_append, length_replicate]
      omega
    refine hlaw (orRoot d) name ⟨hne, hname⟩ ?_ ?_
    · rw [hlen, append_assoc, append_assoc]
      exact parentFrom_eq hd hname r
    · rw [componentsIter_shape hname, componentsIter_name ⟨hne, hname⟩]

theorem getParentPath_concat {b : Text} {c : UInt8} (h : b ++ [c] ≠ [separator]) :
    getParentPath (b ++ [c]) =
      some (parentFrom (b ++ [c]) (if c = separator then b.length - 1 else b.length)) := by
  have hne : ¬(b ++ [c] = [] ∨ b ++ [c] = asciiText "/") := not_or.2 ⟨concat_ne_nil _ _, h⟩
  rw [getParentPath, getLast?_concat, length_append]
  simp only [Option.some.injEq]
  split_ifs <;> rfl

theorem componentsIter_concat_separator (hb : b ≠ []) :
    componentsIter (b ++ [separator]) = componentsIter b := by
  rw [componentsIter_append _ b rfl hb]
  exact append_nil _

/-- The parent has all components of a path that ends with two separators. -/
theorem componentsIter_parentFrom (hlast : b.getLast? = some separator) (r : Text) :
    componentsIter (parentFrom (b ++ r) (b.length - 1)) = componentsIter b ∧
      componentsIter b ≠ [] := by
  rcases path_shape b with hname | ⟨d, n, name, rfl, hd, hname⟩
  · exact absurd hlast hname.getLast?_ne
  obtain rfl : name = [] := by
    by_contra hne
    rw [← append_assoc, getLast?_append_of_ne_nil _ hne] at hlast
    exact hname.getLast?_ne hlast
  have hlen : (d ++ (replicate (n + 1) separator ++ [])).length - 1 = d.length + n + 0 := by
    rw [append_nil, length_append, length_replicate]
    omega
  rw [hlen, append_assoc, append_assoc, componentsIter_shape hname]
  refine ⟨?_, append_ne_nil_of_left_ne_nil componentsIter_orRoot_ne_nil _⟩
  rw [show componentsIter [] = [] from rfl, append_nil]
  exact congrArg componentsIter (parentFrom_eq hd hname r)

/-- Only one trailing separator is skipped. -/
theorem parentLaw_iff (p : Text) : ParentLaw p ↔ ¬[separator, separator] <:+ p := by
  cases p using reverseRecOn with
  | nil =>
    exact ⟨fun _ h => absurd h.length_le (by decide),
      fun _ => ⟨by decide, nofun⟩⟩
  | append_singleton b c =>
    by_cases hc : c = separator
    · obtain rfl := hc
      rw [show [separator, separator] = [separator] ++ [separator] from rfl, suffix_append_self_iff,
        singleton_suffix_iff_getLast?_eq_some]
      by_cases hb : b = []
      · subst hb
        exact ⟨fun _ => by decide, fun _ => ⟨by decide, nofun⟩⟩
      have hp := getParentPath_concat (b := b) (c := separator) fun h =>
        hb (append_inj' (h.trans (nil_append [separator]).symm) rfl).1
      have hcomp := componentsIter_concat_separator hb
      refine ⟨fun h hlast => ?_, fun hlast => parentLaw_of_body [separator] hb hlast hp hcomp⟩
      obtain ⟨hall, hne⟩ := componentsIter_parentFrom hlast [separator]
      have hlt := congrArg length ((hall.symm.trans (h.components _ hp)).trans (by rw [hcomp]))
      rw [length_dropLast] at hlt
      have hpos := length_pos_iff.2 hne
      omega
    · have hlast : (b ++ [c]).getLast? ≠ some separator := by
        rw [getLast?_concat]
        exact fun h => hc (Option.some.inj h)
      have hp := getParentPath_concat (b := b) (c := c) fun h =>
        hc (singleton_inj.1 (append_inj' (h.trans (nil_append [separator]).symm) rfl).2)
      refine ⟨fun _ h => hlast ?_, fun _ => parentLaw_of_body [] (concat_ne_nil _ _) hlast ?_ rfl⟩
      · exact singleton_suffix_iff_getLast?_eq_some.1 (.trans ⟨[separator], rfl⟩ h)
      · rw [hp, if_neg hc, append_nil, length_append, length_singleton, Nat.add_sub_cancel]

/-! ## Extensions -/

/-- Iterates backwards up to the first dot or separator; the dot that an extension follows. -/
def extensionDot (p : Text) : Nat → Option Nat
  -- A dot at the start of the path is a single one.
  | 0 => none
  | i + 1 =>
    if p[i + 1]? = some (ascii '.') then
      if p[i]? = some (ascii '.') then
        if 0 < i then
          -- It is something like `some/path/..`.
          if p[i - 1]? = some separator then none else some (i + 1)
        -- `..` is a special name with no extension.
        else if i + 1 = p.length - 1 then none else some (i + 1)
      -- The file starts with a dot.
      else if p[i]? = some separator then none else some (i + 1)
    else if p[i + 1]? = some separator then none
    else extensionDot p i

def getFileExtension (p : Text) : Option Text :=
  if p = [] then none else (extensionDot p (p.length - 1)).map fun i => p.drop (i + 1)

def getPathWithoutExtension (p : Text) : Text :=
  if p = [] then p
  else match extensionDot p (p.length - 1) with
    | some i => p.take i
    | none => p

theorem extensionDot_some {k : Nat} : ∀ i, extensionDot p i = some k → p[k]? = some (ascii '.') := by
  intro i
  induction i with
  | zero => nofun
  | succ i ih =>
    intro h
    rw [extensionDot] at h
    by_cases hdot : p[i + 1]? = some (ascii '.')
    · have hk : ∀ {c : Prop} [Decidable c], (if c then none else some (i + 1)) = some k →
          p[k]? = some (ascii '.') := by
        intro c _ hif
        split_ifs at hif
        rwa [← Option.some.inj hif]
      rw [if_pos hdot] at h
      split at h
      · split at h <;> exact hk h
      · exact hk h
    · rw [if_neg hdot] at h
      split at h
      · cases h
      · exact ih h

theorem extensionDot_separator {i : Nat} (h : p[i]? = some separator) : extensionDot p i = none := by
  cases i with
  | zero => rfl
  | succ i => rw [extensionDot, h, if_neg (by decide), if_pos rfl]

/-- The dot of a name behind a separator, unless the name is `..` and an extension. -/
theorem extensionDot_name {dir n : Text} (hname : IsPlain n) (i : Nat) :
    extensionDot (dir ++ separator :: n) (dir.length + 1 + i) =
      if extensionDot n i = some 1 ∧ n[0]? = some (ascii '.') then none
      else (extensionDot n i).map (dir.length + 1 + ·) := by
  have hget : ∀ j, (dir ++ separator :: n)[dir.length + 1 + j]? = n[j]? := by
    intro j
    rw [getElem?_append_right (by omega), show dir.length + 1 + j - dir.length = j + 1 by omega,
      getElem?_cons_succ]
  have hsep : (dir ++ separator :: n)[dir.length]? = some separator := by
    rw [getElem?_append_right (le_refl _), Nat.sub_self, getElem?_cons_zero]
  have hno := hname.getElem?_ne
  induction i with
  | zero =>
    -- A dot would be the first byte of the name.
    have hdot : some separator ≠ some (ascii '.') := by decide
    have hnone : extensionDot (dir ++ separator :: n) (dir.length + 1 + 0) = none := by
      rw [extensionDot, hsep, if_neg hdot, if_pos rfl, extensionDot_separator hsep, ite_self,
        ite_self]
    exact hnone.trans (ite_self _).symm
  | succ i ih =>
    rw [← add_assoc, extensionDot, add_assoc _ i 1, hget, hget, extensionDot]
    by_cases hdot : n[i + 1]? = some (ascii '.')
    · rw [if_pos hdot, if_pos hdot]
      by_cases hprev : n[i]? = some (ascii '.')
      · rw [if_pos hprev, if_pos hprev, if_pos (by omega)]
        cases i with
        | zero =>
          rw [add_zero, Nat.add_sub_cancel, if_pos hsep, hprev]
          by_cases hlen : 0 + 1 = n.length - 1
          · rw [if_neg (lt_irrefl 0), if_pos hlen]
            exact (ite_self _).symm
          · rw [if_neg (lt_irrefl 0), if_neg hlen]
            exact (if_pos ⟨rfl, rfl⟩).symm
        | succ i =>
          rw [← add_assoc, Nat.add_sub_cancel, hget, if_neg (hno i), if_pos (Nat.succ_pos i),
            Nat.add_sub_cancel, if_neg (hno i), if_neg fun h => nomatch h.1]
          rfl
      · rw [if_neg hprev, if_neg (hno i), if_neg hprev, if_neg (hno i), if_neg]
        · rfl
        · rintro ⟨h, h0⟩
          cases Option.some.inj h
          exact hprev h0
    · rw [if_neg hdot, if_neg (hno _), if_neg hdot, if_neg (hno _)]
      exact ih

/-- The second byte is the last dot of a name that starts with one, and something follows. -/
theorem extensionDot_eq_one {n : Text} (hname : IsPlain n)
    (h0 : n[0]? = some (ascii '.')) (k : Nat) : extensionDot n (k + 1) = some 1 ↔
      n[1]? = some (ascii '.') ∧ 1 ≠ n.length - 1 ∧ ∀ j, 1 < j → j ≤ k + 1 → n[j]? ≠ some (ascii '.') := by
  have hno := hname.getElem?_ne
  induction k with
  | zero =>
    rw [extensionDot, h0, if_pos rfl, if_neg (lt_irrefl 0), if_neg (hno _)]
    split_ifs with h1 h2
    · exact ⟨nofun, fun h => absurd h2 h.2.1⟩
    · exact ⟨fun _ => ⟨h1, h2, fun j hj hle => absurd hle (not_le.2 hj)⟩, fun _ => rfl⟩
    · exact ⟨nofun, fun h => absurd h.1 h1⟩
  | succ k ih =>
    rw [extensionDot]
    by_cases hdot : n[k + 1 + 1]? = some (ascii '.')
    · rw [if_pos hdot]
      refine ⟨fun h => ?_, fun h => absurd hdot (h.2.2 _ (by omega) (le_refl _))⟩
      split_ifs at h <;> exact absurd (Option.some.inj h) (by omega)
    · rw [if_neg hdot, if_neg (hno (k + 1 + 1))]
      refine ih.trans <| and_congr_right fun _ => and_congr_right fun _ => ⟨fun h j hj hle => ?_, fun h j hj hle => ?_⟩
      · rcases Nat.le_succ_iff.1 hle with hle | rfl
        · exact h j hj hle
        · exact hdot
      · exact h j hj (Nat.le_succ_of_le hle)

/-- `..` and an extension without dots. -/
def IsDotDotExtension (name : Text) : Prop :=
  ∃ e, name = dotDot ++ e ∧ e ≠ [] ∧ ∀ c ∈ e, c ≠ ascii '.' ∧ isSeparator c = false

theorem isDotDotExtension_iff {n : Text} (hname : IsPlain n) :
    extensionDot n (n.length - 1) = some 1 ∧ n[0]? = some (ascii '.') ↔ IsDotDotExtension n := by
  constructor
  · rintro ⟨h, h0⟩
    match n, h0 with
    | [_], _ => cases h
    | _ :: b :: e, h0 =>
      obtain ⟨h1, hlen, hall⟩ := (extensionDot_eq_one hname h0 e.length).1 h
      obtain rfl := Option.some.inj h0
      obtain rfl := Option.some.inj h1
      refine ⟨e, rfl, fun he => hlen (he ▸ rfl), fun c hc => ⟨?_, hname c (mem_cons_of_mem _ (mem_cons_of_mem _ hc))⟩⟩
      rintro rfl
      obtain ⟨j, hj, hje⟩ := getElem_of_mem hc
      exact hall (j + 2) (by omega) (by omega) (hje ▸ getElem?_eq_getElem hj)
  · rintro ⟨e, rfl, hne, he⟩
    have hpos := length_pos_iff.2 hne
    refine ⟨(extensionDot_eq_one hname rfl e.length).2 ⟨rfl, ?_, fun j hj _ h => ?_⟩, rfl⟩
    · rw [show (dotDot ++ e).length - 1 = e.length + 1 from rfl]
      omega
    · obtain ⟨j, rfl⟩ := Nat.exists_eq_add_of_le' hj
      exact (he _ (mem_of_getElem? h)).1 rfl

/-- An extension is what follows a dot, and the last component has the same one.  A path that
ends with a separator is a directory, which has none. -/
structure ExtensionLaw (p : Text) : Prop where
  split : ∀ e, getFileExtension p = some e → p = getPathWithoutExtension p ++ ascii '.' :: e
  last : getFileExtension p =
    if p.getLast? = some separator then none else (componentsIter p).getLast?.bind getFileExtension

theorem getPathWithoutExtension_split (p e : Text) (h : getFileExtension p = some e) :
    p = getPathWithoutExtension p ++ ascii '.' :: e := by
  by_cases hp : p = []
  · rw [getFileExtension, if_pos hp] at h
    cases h
  rw [getFileExtension, if_neg hp] at h
  obtain ⟨i, hi, rfl⟩ := Option.map_eq_some_iff.1 h
  obtain ⟨hlt, hdot⟩ := List.getElem?_eq_some_iff.1 (extensionDot_some _ hi)
  rw [getPathWithoutExtension, if_neg hp, hi]
  show p = p.take i ++ ascii '.' :: p.drop (i + 1)
  rw [← hdot, ← drop_eq_getElem_cons hlt, take_append_drop]

theorem getFileExtension_name_iff (dir : Text) (hname : IsName name) :
    getFileExtension (dir ++ separator :: name) = getFileExtension name ↔ ¬IsDotDotExtension name := by
  obtain ⟨n, hn⟩ := Nat.exists_eq_succ_of_ne_zero (length_pos_iff.2 hname.1).ne'
  have hlen : (dir ++ separator :: name).length - 1 = dir.length + 1 + (name.length - 1) := by
    rw [length_append, length_cons]
    omega
  rw [← isDotDotExtension_iff hname.2, getFileExtension, getFileExtension, if_neg hname.1,
    if_neg (append_ne_nil_of_right_ne_nil _ (cons_ne_nil _ _)), hlen, extensionDot_name hname.2]
  split_ifs with h
  · rw [h.1]
    exact ⟨nofun, fun hnot => absurd ⟨rfl, h.2⟩ hnot⟩
  · rw [Option.map_map]
    refine ⟨fun _ => h, fun _ => Option.map_congr fun j _ => ?_⟩
    show (dir ++ separator :: name).drop (dir.length + 1 + j + 1) = name.drop (j + 1)
    rw [add_assoc, add_assoc, add_comm 1, drop_length_add_append, drop_succ_cons]

theorem extensionLaw_name {dir : Text} (hname : IsName name) :
    ExtensionLaw (dir ++ separator :: name) ↔ ¬IsDotDotExtension name := by
  have hsnoc : dir ++ separator :: name = dir ++ (replicate (0 + 1) separator ++ name) := rfl
  have hlast : (dir ++ separator :: name).getLast? ≠ some separator := by
    rw [append_cons]
    exact hname.last _
  have hcomp : (componentsIter (dir ++ separator :: name)).getLast? = some name := by
    rw [hsnoc, componentsIter_shape hname.2, componentsIter_name hname, getLast?_concat]
  rw [← getFileExtension_name_iff dir hname]
  refine ⟨fun h => ?_, fun h => ⟨getPathWithoutExtension_split _, ?_⟩⟩
  · have hext := h.last
    rwa [if_neg hlast, hcomp] at hext
  · rw [if_neg hlast, hcomp]
    exact h

/-- A directory, a separator, `..` and an extension without dots. -/
def HidesExtension (p : Text) : Prop :=
  ∃ dir name, IsDotDotExtension name ∧ p = dir ++ separator :: name

theorem IsDotDotExtension.isName {name : Text} (h : IsDotDotExtension name) : IsName name := by
  obtain ⟨e, rfl, -, he⟩ := h
  refine ⟨append_ne_nil_of_left_ne_nil isName_dotDot.1 _, fun c hc => ?_⟩
  rcases mem_append.1 hc with hc | hc
  · exact isName_dotDot.2 c hc
  · exact (he c hc).2

theorem extensionLaw_iff (p : Text) : ExtensionLaw p ↔ ¬HidesExtension p := by
  constructor
  · rintro h ⟨dir, name, hdots, rfl⟩
    exact (extensionLaw_name hdots.isName).1 h hdots
  intro hno
  rcases path_shape p with hname | ⟨d, n, name, rfl, -, hname⟩
  · refine ⟨getPathWithoutExtension_split p, ?_⟩
    by_cases hp : p = []
    · rw [hp]
      rfl
    · rw [if_neg fun h => hname.getLast?_ne h,
        componentsIter_name ⟨hp, hname⟩]
      rfl
  · have heq : d ++ (replicate (n + 1) separator ++ name) = (d ++ replicate n separator) ++ separator :: name := by
      rw [replicate_succ', append_assoc, append_assoc]
      rfl
    rw [heq] at hno ⊢
    by_cases hne : name = []
    · refine ⟨getPathWithoutExtension_split _, ?_⟩
      rw [hne, getLast?_concat, if_pos rfl, getFileExtension, if_neg (concat_ne_nil _ _), extensionDot_separator]
      · rfl
      · rw [length_append, length_singleton, Nat.add_sub_cancel, getElem?_concat_length]
    · exact (extensionLaw_name ⟨hne, hname⟩).2 fun hdots => hno ⟨_, name, hdots, rfl⟩

/-! ## The laws -/

def PathLaws (p : Text) : Prop := Normalized p (normalize p) ∧ ParentLaw p ∧ ExtensionLaw p

/-- `a//` keeps its component. -/
theorem not_pathLaws_separators : ¬PathLaws (asciiText "a//") := fun h =>
  absurd (h.2.1.components (asciiText "a") (by decide)) (by decide)

theorem pathLaws_iff (p : Text) :
    PathLaws p ↔ ¬[separator, separator] <:+ p ∧ ¬HidesExtension p :=
  ⟨fun h => ⟨(parentLaw_iff p).1 h.2.1, (extensionLaw_iff p).1 h.2.2⟩, fun h =>
    ⟨normalize_normalized p, (parentLaw_iff p).2 h.1, (extensionLaw_iff p).2 h.2⟩⟩

end USprache.Ustlib.Path
