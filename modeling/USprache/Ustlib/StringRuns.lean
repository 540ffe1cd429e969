import USprache.Ustlib.StringRefinement

/-!
# Programs with strings

A program has any number of strings and calls their methods in any order.  Next to it runs
the same program with lists.  As long as no size overflows and no capacity is doubled for
ever, the strings have the contents of the lists, and the results that the program sees are
the same.
-/

namespace USprache.Ustlib.StringBase

open List Function

open Library (Meets)
open USprache.Ustlib.Vector (Follows Returns Grows ensuredCapacity doubleCapacity_eq_none_iff resizedList)

inductive Observation (L : StringLayout)
  | value (value : L.Value)
  | truth (truth : Bool)
  | order (order : Int)

structure World (L : StringLayout) (n : Nat) where
  strings : Fin n → StringBase L
  requests : Nat
  observed : List (Observation L)

def World.start {L : StringLayout} {n : Nat} : World L n :=
  { strings := fun _ => empty, requests := 0, observed := [] }

abbrev SizeType (L : StringLayout) := Fin L.sizes

structure Chars (L : StringLayout) where
  values : List L.Value
  fits : values.length * L.elementSize < L.sizes

/-- What a method copies chars from: a string, an array, or a range of any other memory. -/
inductive Source (L : StringLayout) (n : Nat)
  | string (j : Fin n)
  | array (chars : Chars L)
  | range (chars : Chars L)

/-- A reference to the changed string itself is not allowed. -/
def Source.Avoids {L : StringLayout} {n : Nat} (i : Fin n) : Source L n → Prop
  | string j => j ≠ i
  | _ => True

instance {L : StringLayout} {n : Nat} (i : Fin n) (source : Source L n) :
    Decidable (source.Avoids i) :=
  match source with
  | .string j => inferInstanceAs (Decidable (j ≠ i))
  | .array _ => inferInstanceAs (Decidable True)
  | .range _ => inferInstanceAs (Decidable True)

/-- The calls of a program.  The methods that make a new string put it in the place of the
string `i`, which is destroyed. -/
inductive Operation (L : StringLayout) (n : Nat) : Type 1
  | constructor (i : Fin n)
  | constructFrom (i : Fin n) (source : Source L n)
  | constructFill (i : Fin n) (count : SizeType L) (value : L.Value)
  | concat (i : Fin n) (parts : List (Source L n))
  /-- The string `l` is on the left of the operator `+`. -/
  | addSource (i l : Fin n) (r : Source L n)
  /-- The string `r` is on the right of the operator `+`. -/
  | sourceAdd (i : Fin n) (l : Source L n) (r : Fin n)
  | substr (i j : Fin n) (startIndex endIndex : SizeType L)
  | fromIterator (i : Fin n) (values : List L.Value)
  | fromMappedRange (i : Fin n) {β : Type} (r : List β) (hr : r.length < L.sizes)
      (func : β → L.Value)
  | fromFillerFunction (i : Fin n) (size : SizeType L) {σ : Type} (func : σ → L.Value × σ)
      (state : σ)
  | assign (i : Fin n) (source : Source L n) (h : source.Avoids i)
  | addAssign (i : Fin n) (source : Source L n) (h : source.Avoids i)
  | pushBack (i : Fin n) (value : L.Value)
  | pushBackMany (i : Fin n) (count : SizeType L) (value : L.Value)
  | dropBack (i : Fin n)
  | dropBackMany (i : Fin n) (count : SizeType L)
  | popBack (i : Fin n)
  | resize (i : Fin n) (newSize : SizeType L) (value : L.Value)
  | swap (i : Fin n) (i0 i1 : SizeType L)
  | clear (i : Fin n)
  | shrinkToFit (i : Fin n)
  | equals (i : Fin n) (source : Source L n)
  | order (i j : Fin n)
  | startsWith (i : Fin n) (source : Source L n)
  | endsWith (i : Fin n) (source : Source L n)

variable {L : StringLayout} {n : Nat}

namespace World

variable (w : World L n)

def range : Source L n → Range L
  | .string j => (w.strings j).range
  | .array chars => arrayRange chars.values
  | .range chars => arrayRange chars.values

def construct : Source L n → Outcome (StringBase L × Nat)
  | .string j => copyConstruct w.requests (w.strings j)
  | .array chars => constructFromArray w.requests chars.values
  | .range chars => constructFromRange w.requests (w.range (.range chars))

variable (s : StringBase L)

def assign : Source L n → Outcome (StringBase L × Nat)
  | .string j => s.assign w.requests (w.strings j)
  | .array chars => s.assignArray w.requests chars.values
  | .range chars => s.assignRange w.requests (w.range (.range chars))

def addSource (l : StringBase L) : Source L n → Outcome (StringBase L × Nat)
  | .string j => add w.requests l (w.strings j)
  | .array chars => addArray w.requests l chars.values
  | .range chars => addRange w.requests l (w.range (.range chars))

def sourceAdd (r : StringBase L) : Source L n → Outcome (StringBase L × Nat)
  | .string j => add w.requests (w.strings j) r
  | .array chars => arrayAdd w.requests chars.values r
  | .range chars => rangeAdd w.requests (w.range (.range chars)) r

def addAssign : Source L n → Outcome (StringBase L × Nat)
  | .string j => s.addAssign w.requests (w.strings j)
  | .array chars => s.addAssignArray w.requests chars.values
  | .range chars => s.addAssignRange w.requests (w.range (.range chars))

def equals : Source L n → Outcome Bool
  | .string j => s.equals (w.strings j)
  | .array chars => s.equalsArray chars.values
  | .range chars => s.equalsRange (w.range (.range chars))

variable (src : Source L n)

theorem construct_eq :
    w.construct src = StringBase.constructFrom w.requests (w.range src) := by
  cases src <;> rfl

theorem assign_eq :
    w.assign s src = s.assignRange w.requests (w.range src) := by
  cases src <;> rfl

theorem addSource_eq (l : StringBase L) (src : Source L n) :
    w.addSource l src = plus w.requests l.range (w.range src) := by
  cases src <;> rfl

theorem sourceAdd_eq (r : StringBase L) (src : Source L n) :
    w.sourceAdd r src = plus w.requests (w.range src) r.range := by
  cases src <;> rfl

theorem addAssign_eq :
    w.addAssign s src = s.addAssignRange w.requests (w.range src) := by
  cases src <;> rfl

theorem equals_eq :
    w.equals s src = s.equalsRange (w.range src) := by
  cases src <;> rfl

def store (i : Fin n) (result : Outcome (StringBase L × Nat)) :
    Outcome (World L n) := do
  let (s, requests) ← result
  .ok { w with strings := Function.update w.strings i s, requests := requests }

/-- A method that needs no memory changes the string `i`. -/
def change (i : Fin n) (result : Outcome (StringBase L)) : Outcome (World L n) := do
  let s ← result
  .ok { w with strings := Function.update w.strings i s }

def observe (observation : Observation L) : World L n :=
  { w with observed := w.observed ++ [observation] }

def step : Operation L n → Outcome (World L n)
  | .constructor i => w.change i (.ok empty)
  | .constructFrom i source => w.store i (w.construct source)
  | .constructFill i count value => w.store i (StringBase.constructFill w.requests count value)
  | .concat i parts => w.store i (StringBase.concat w.requests (parts.map w.range))
  | .addSource i l r => w.store i (w.addSource (w.strings l) r)
  | .sourceAdd i l r => w.store i (w.sourceAdd (w.strings r) l)
  | .substr i j startIndex endIndex =>
    w.store i ((w.strings j).substr w.requests startIndex endIndex)
  | .fromIterator i values => w.store i (StringBase.fromIterator w.requests values)
  | .fromMappedRange i r _ func => w.store i (StringBase.fromMappedRange w.requests r func)
  | .fromFillerFunction i size func state =>
    w.store i (StringBase.fromFillerFunction w.requests size func state)
  | .assign i source _ => w.store i (w.assign (w.strings i) source)
  | .addAssign i source _ => w.store i (w.addAssign (w.strings i) source)
  | .pushBack i value => w.store i ((w.strings i).pushBack w.requests value)
  | .pushBackMany i count value => w.store i ((w.strings i).pushBackMany w.requests count value)
  | .dropBack i => w.change i (w.strings i).dropBack
  | .dropBackMany i count => w.change i ((w.strings i).dropBackMany count)
  | .popBack i => do
    let (s, value) ← (w.strings i).popBack
    let w ← w.change i (.ok s)
    .ok (w.observe (.value value))
  | .resize i newSize value => w.store i ((w.strings i).resize w.requests newSize value)
  | .swap i i0 i1 => w.change i ((w.strings i).swap i0 i1)
  | .clear i => w.change i (.ok (w.strings i).clear)
  | .shrinkToFit i => w.store i ((w.strings i).shrinkToFit w.requests)
  | .equals i source => do
    let truth ← w.equals (w.strings i) source
    .ok (w.observe (.truth truth))
  | .order i j => do
    let order ← (w.strings i).order (w.strings j)
    .ok (w.observe (.order order))
  | .startsWith i source => do
    let truth ← (w.strings i).startsWith (w.range source)
    .ok (w.observe (.truth truth))
  | .endsWith i source => do
    let truth ← (w.strings i).endsWith (w.range source)
    .ok (w.observe (.truth truth))

def run (w : World L n) : List (Operation L n) → Outcome (World L n)
  | [] => .ok w
  | operation :: operations => do
    let w ← w.step operation
    run w operations

end World

structure Lists (L : StringLayout) (n : Nat) where
  lists : Fin n → List L.Value
  observed : List (Observation L)

namespace Lists

def start : Lists L n := { lists := fun _ => [], observed := [] }

variable (a : Lists L n)

def set (i : Fin n) (values : List L.Value) : Lists L n :=
  { a with lists := Function.update a.lists i values }

def observe (observation : Observation L) : Lists L n :=
  { a with observed := a.observed ++ [observation] }

def contents : Source L n → List L.Value
  | .string j => a.lists j
  | .array chars => chars.values
  | .range chars => chars.values

def step : Operation L n → Option (Lists L n)
  | .constructor i => some (a.set i [])
  | .constructFrom i source => some (a.set i (a.contents source))
  | .constructFill i count value => some (a.set i (replicate count value))
  | .concat i parts => some (a.set i (parts.map a.contents).flatten)
  | .addSource i l r => some (a.set i (a.lists l ++ a.contents r))
  | .sourceAdd i l r => some (a.set i (a.contents l ++ a.lists r))
  | .substr i j startIndex endIndex =>
    if startIndex ≤ endIndex ∧ endIndex.val ≤ (a.lists j).length then
      some (a.set i (((a.lists j).drop startIndex).take (endIndex.val - startIndex.val)))
    else none
  | .fromIterator i values => some (a.set i values)
  | .fromMappedRange i r _ func => some (a.set i (r.map func))
  | .fromFillerFunction i size func state => some (a.set i (callResults func state size))
  | .assign i source _ => some (a.set i (a.contents source))
  | .addAssign i source _ => some (a.set i (a.lists i ++ a.contents source))
  | .pushBack i value => some (a.set i (a.lists i ++ [value]))
  | .pushBackMany i count value => some (a.set i (a.lists i ++ replicate count value))
  | .dropBack i => if a.lists i = [] then none else some (a.set i (a.lists i).dropLast)
  | .dropBackMany i count =>
    if (a.lists i).length < count then none
    else some (a.set i ((a.lists i).take ((a.lists i).length - count)))
  | .popBack i =>
    match (a.lists i).getLast? with
    | none => none
    | some last => some ((a.set i (a.lists i).dropLast).observe (.value last))
  | .resize i newSize value => some (a.set i (resizedList (a.lists i) newSize value))
  | .swap i i0 i1 =>
    match (a.lists i)[i0.val]?, (a.lists i)[i1.val]? with
    | some value0, some value1 => some (a.set i (((a.lists i).set i0 value1).set i1 value0))
    | _, _ => none
  | .clear i => some (a.set i [])
  | .shrinkToFit _ => some a
  | .equals i source => some (a.observe (.truth (a.lists i = a.contents source)))
  -- The order of lists is the lexicographic one.
  | .order i j => some (a.observe (.order (compareOrder (a.lists i) (a.lists j))))
  | .startsWith i source => some (a.observe (.truth (a.contents source <+: a.lists i)))
  | .endsWith i source => some (a.observe (.truth (a.contents source <:+ a.lists i)))

def run (a : Lists L n) : List (Operation L n) → Option (Lists L n)
  | [] => some a
  | operation :: operations => (a.step operation).bind (run · operations)

end Lists

/-- The calls that the code can carry out if there is memory: no size overflows where the code
does not check it, and no capacity is doubled for ever. -/
def Admissible (w : World L n) : Operation L n → Prop
  | .concat _ parts => (parts.map fun part => (w.range part).size).sum < L.sizes
  | .addSource _ l r => (w.strings l).size + (w.range r).size < L.sizes
  | .sourceAdd _ l r => (w.range l).size + (w.strings r).size < L.sizes
  | .fromIterator _ values => PushesFit empty w.requests values
  | .assign i source _ => Grows L.elements (w.strings i).capacity (w.range source).size
  | .addAssign i source _ => (w.strings i).size + (w.range source).size < L.sizes ∧
    Grows L.elements (w.strings i).capacity ((w.strings i).size + (w.range source).size)
  | .pushBack i _ => (w.strings i).size + 1 < L.sizes ∧
    Grows L.elements (w.strings i).capacity ((w.strings i).size + 1)
  | .pushBackMany i count _ => (w.strings i).size + count < L.sizes →
    Grows L.elements (w.strings i).capacity ((w.strings i).size + count)
  | .resize i newSize _ => Grows L.elements (w.strings i).capacity newSize
  | _ => True

def RunAdmissible (w : World L n) : List (Operation L n) → Prop
  | [] => True
  | operation :: operations =>
    Admissible w operation ∧ ∀ w', w.step operation = .ok w' → RunAdmissible w' operations

/-- The strings have the contents of the lists, and the programs saw the same results. -/
structure Refines (w : World L n) (a : Lists L n) : Prop where
  represents : ∀ i, (w.strings i).Represents (a.lists i)
  observed : w.observed = a.observed

theorem start_refines : Refines (World.start : World L n) Lists.start where
  represents _ := empty_represents
  observed := rfl

variable {w : World L n} {a : Lists L n}

theorem Refines.range (hw : Refines w a) (src : Source L n) :
    (w.range src).Represents (a.contents src) := by
  cases src with
  | string j => exact (hw.represents j).range
  | array cs | range cs => exact arrayRange_represents cs.fits

theorem Refines.parts (hw : Refines w a) (parts : List (Source L n)) :
    PartsRepresent (parts.map w.range) (parts.map a.contents) := by
  induction parts with
  | nil => exact .nil
  | cons part parts ih => exact .cons (hw.range part) ih

variable {vs : List L.Value}

theorem Refines.update (hw : Refines w a) {i : Fin n} {s : StringBase L}
    (hs : s.Represents vs) (requests : Nat) :
    Refines { w with strings := update w.strings i s, requests := requests }
      (a.set i vs) where
  represents j := by
    by_cases hj : j = i
    · subst hj
      simpa only [Lists.set, update_self] using hs
    · simpa only [Lists.set, update_of_ne hj] using hw.represents j
  observed := hw.observed

theorem Refines.store (hw : Refines w a) {i : Fin n} {r : Outcome (StringBase L × Nat)}
    (hres : Returns r fun r => r.1.Represents vs) :
    Returns (w.store i r) fun w' => Refines w' (a.set i vs) := by
  refine .bind hres ?_
  rintro ⟨s, requests⟩ hs
  exact hw.update hs requests

theorem Refines.observe (hw : Refines w a) (observation : Observation L) :
    Refines (w.observe observation) (a.observe observation) where
  represents := hw.represents
  observed := by
    show w.observed ++ [observation] = a.observed ++ [observation]
    rw [hw.observed]

theorem Refines.step (hw : Refines w a) (op : Operation L n) (hadm : Admissible w op) :
    Follows (w.step op) (a.step op) fun a' w' => Refines w' a' := by
  cases op with
  | constructor i => exact hw.update empty_represents w.requests
  | constructFrom i src =>
    refine hw.store ?_
    rw [World.construct_eq]
    exact constructFrom_returns (hw.range src)
  | constructFill i c v => exact hw.store (constructFill_returns c v)
  | concat i parts =>
    refine hw.store (concat_returns (hw.parts parts) ?_)
    rw [map_map]
    exact hadm
  | addSource i l r =>
    refine hw.store ?_
    rw [World.addSource_eq]
    exact plus_returns (hw.represents l).range (hw.range r) hadm
  | sourceAdd i l r =>
    refine hw.store ?_
    rw [World.sourceAdd_eq]
    exact plus_returns (hw.range l) (hw.represents r).range hadm
  | substr i j start endI =>
    show Follows _ (if start.val ≤ endI.val ∧ endI.val ≤ (a.lists j).length then _ else none) _
    rcases (hw.represents j).substr (n := w.requests) start endI with
      ⟨hhalt, hne⟩ | ⟨hle, hsub⟩
    · rw [if_neg hne]
      refine .inl ?_
      show w.store i ((w.strings j).substr w.requests start endI) = _
      rw [hhalt]
      rfl
    · rw [if_pos hle]
      exact hw.store hsub
  | fromIterator i vs =>
    refine hw.store ?_
    have h := empty_represents.pushAll vs hadm
    rwa [nil_append] at h
  | fromMappedRange i r hr f => exact hw.store (fromMappedRange_returns r f hr)
  | fromFillerFunction i sz f st =>
    exact hw.store (fromFillerFunction_returns f st sz.isLt)
  | assign i src _ =>
    refine hw.store ?_
    rw [World.assign_eq]
    exact (hw.represents i).assignRange (hw.range src) hadm
  | addAssign i src _ =>
    refine hw.store ?_
    rw [World.addAssign_eq]
    exact (hw.represents i).addAssignRange (hw.range src) hadm.1 hadm.2
  | pushBack i v => exact hw.store ((hw.represents i).pushBack v hadm.1 hadm.2)
  | pushBackMany i c v => exact hw.store ((hw.represents i).pushBackMany c v hadm)
  | dropBack i =>
    show Follows (w.change i (w.strings i).dropBack) (if a.lists i = [] then none else _) _
    rcases (hw.represents i).dropBack with ⟨hhalt, he⟩ | ⟨s, hdr, hne, hs⟩
    · rw [if_pos he, hhalt]
      exact .inl rfl
    · rw [if_neg hne, hdr]
      exact hw.update hs w.requests
  | dropBackMany i c =>
    show Follows (w.change i ((w.strings i).dropBackMany c))
      (if (a.lists i).length < c then none else _) _
    rcases (hw.represents i).dropBackMany c with ⟨hhalt, hlt⟩ | ⟨s, hdr, hge, hs⟩
    · rw [if_pos hlt, hhalt]
      exact .inl rfl
    · rw [if_neg hge, hdr]
      exact hw.update hs w.requests
  | popBack i =>
    rcases (hw.represents i).popBack with ⟨hhalt, hno⟩ | ⟨s, last, hpop, hla, hs⟩
    · have hst : a.step (.popBack i) = none := by rw [Lists.step, hno]
      rw [hst, World.step, hhalt]
      exact .inl rfl
    · have hst : a.step (.popBack i) =
          some ((a.set i (a.lists i).dropLast).observe (.value last)) := by
        rw [Lists.step, hla]
      rw [hst, World.step, hpop]
      exact (hw.update hs w.requests).observe (.value last)
  | resize i newSz v =>
    exact hw.store ((hw.represents i).resize v newSz.isLt hadm)
  | swap i i0 i1 =>
    rcases (hw.represents i).swap i0 i1 with ⟨hhalt, hne⟩ | ⟨s, x, y, hswap, hx, hy, hs⟩
    · have hst : a.step (.swap i i0 i1) = none := by
        rw [Lists.step]
        by_cases h0 : i0.val < (a.lists i).length
        · rw [getElem?_eq_none (not_lt.1 fun h1 => hne ⟨h0, h1⟩ : (a.lists i).length ≤ i1.val)]
          cases (a.lists i)[i0.val]? <;> rfl
        · rw [getElem?_eq_none (not_lt.1 h0)]
      rw [hst, World.step, hhalt]
      exact .inl rfl
    · have hst : a.step (.swap i i0 i1) = some (a.set i (((a.lists i).set i0 y).set i1 x)) := by
        rw [Lists.step, hx, hy]
      rw [hst, World.step, hswap]
      exact hw.update hs w.requests
  | clear i => exact hw.update ((hw.represents i).cut (Nat.zero_le _)) w.requests
  | shrinkToFit i =>
    have h := hw.store (i := i) ((hw.represents i).shrinkToFit (n := w.requests))
    have heq : a.set i (a.lists i) = a := by rw [Lists.set, update_eq_self]
    rwa [heq] at h
  | equals i src =>
    rw [World.step, World.equals_eq, (hw.represents i).equalsRange (hw.range src)]
    exact hw.observe _
  | order i j =>
    rw [World.step, (hw.represents i).order (hw.represents j)]
    exact hw.observe _
  | startsWith i src =>
    rw [World.step, (hw.represents i).startsWith (hw.range src)]
    exact hw.observe _
  | endsWith i src =>
    rw [World.step, (hw.represents i).endsWith (hw.range src)]
    exact hw.observe _

/-- Every run of a program with strings whose calls are all admissible follows the program with
lists: it halts if that one halts, and the strings refine the lists otherwise.  The order that
the program sees is a total one. -/
theorem program_refines (operations : List (Operation L n))
    (hadm : RunAdmissible World.start operations) :
    Follows (World.start.run operations) (Lists.start.run operations) (fun a w => Refines w a) ∧
      OrdersTotally (compareOrder : List L.Value → List L.Value → Int) := by
  refine ⟨?_, @compareOrder_totally (List L.Value) _ fun l r => decidableLT l r⟩
  suffices h : ∀ (w : World L n) (a : Lists L n), Refines w a → RunAdmissible w operations →
      Follows (w.run operations) (a.run operations) fun a w => Refines w a by
    exact h _ _ start_refines hadm
  clear hadm
  induction operations with
  | nil =>
    intro w a hw _
    exact hw
  | cons operation operations ih =>
    intro w a hw hadm
    refine (hw.step operation hadm.1).bind ?_
    intro a' w' hw' hrefines
    exact ih w' a' hrefines (hadm.2 w' hw')

/-- Chars of one byte, with a `size_type` of 4 bytes. -/
def narrowChars : StringLayout :=
  { wideSizeType := false, charType := .char8, provides := fun _ _ => true }

/-- An array and a char are appended, and the string is appended to another one. -/
def appends : List (Operation narrowChars 2) :=
  [.addAssign 0 (.array ⟨[65, 66], by decide⟩) trivial, .pushBack 0 67,
    .addAssign 1 (.string 0) (by decide)]

theorem program_refines_append :
    Follows (World.start.run appends) (Lists.start.run appends) (fun a w => Refines w a) ∧
      OrdersTotally (compareOrder : List narrowChars.Value → List narrowChars.Value → Int) :=
  program_refines _ ⟨⟨by decide, .inl rfl⟩, by
    intro w hw
    obtain rfl := Except.ok.inj hw
    refine ⟨⟨by decide, .inr ⟨0, by decide⟩⟩, fun w' hw' => ?_⟩
    obtain rfl := Except.ok.inj hw'
    exact ⟨⟨by decide, .inl rfl⟩, fun _ _ => trivial⟩⟩

/-- Values that do not fit into the block are stored behind its end. -/
theorem storeAt_overflow {p : Pointer L} (others : List L.Value)
    {cap : Nat} (hp : Holds p vs) (hrm : room p = cap * L.elementSize)
    (hle : vs.length ≤ cap) (hlt : cap < vs.length + others.length) :
    storeAt p vs.length others = .error .undefinedBehaviour := by
  induction others generalizing p vs with
  | nil => exact absurd hle (not_le.2 hlt)
  | cons v others ih =>
    rw [length_cons] at hlt
    by_cases hfit : vs.length + 1 ≤ cap
    · have hrm' : HasRoom p (vs.length + 1) := by
        rw [HasRoom, hrm]
        exact Nat.mul_le_mul_right _ hfit
      obtain ⟨q, hput, hstd⟩ := put_ok hrm' v
      have hlen : (vs ++ [v]).length = vs.length + 1 := by
        rw [length_append, length_singleton]
      have hrs := ih (hstd.holds_append hp) (hstd.same.room ▸ hrm)
        (by rw [hlen]; exact hfit) (by rw [hlen]; omega)
      rw [hlen] at hrs
      rw [storeAt, hput]
      exact hrs
    · have hsm : ¬(vs.length + 1) * L.elementSize ≤ room p := by
        rw [hrm]
        exact not_le.2 (mul_lt_mul_of_pos_right (by omega) elementSize_pos)
      have hput : put p vs.length v = .error .undefinedBehaviour := by
        cases p with
        | none => rfl
        | some block => exact if_neg hsm
      rw [storeAt, hput]
      rfl

theorem concatLoop_overflow {parts : List (Range L)} {contents : List (List L.Value)}
    (h : PartsRepresent parts contents) {p : Pointer L} {cap : Nat}
    (hp : Holds p vs) (hrm : room p = cap * L.elementSize) (hle : vs.length ≤ cap)
    (hcap : cap < L.sizes) (hlt : cap < vs.length + contents.flatten.length) :
    concatLoop p vs.length parts = .error .undefinedBehaviour := by
  induction h generalizing p vs with
  | nil => exact absurd hle (not_le.2 hlt)
  | @cons part cs parts contents hpart _ ih =>
    rw [flatten_cons, length_append] at hlt
    by_cases hfit : vs.length + cs.length ≤ cap
    · have hrm' : HasRoom p (vs.length + cs.length) := by
        rw [HasRoom, hrm]
        exact Nat.mul_le_mul_right _ hfit
      obtain ⟨q, hcp, hh, heq⟩ := memoryCopyAligned_ok hpart hp hrm'
      have hlen : (vs ++ cs).length = vs.length + cs.length := length_append
      have hrs := ih hh (heq.room ▸ hrm) (by rw [hlen]; exact hfit) (by rw [hlen]; omega)
      rw [concatLoop, hcp]
      show concatLoop q ((vs.length + part.size) % L.sizes) parts = _
      rw [hpart.size_eq, Nat.mod_eq_of_lt (by omega), ← hlen]
      exact hrs
    · have hsto := storeAt_overflow cs hp hrm hle (not_le.1 hfit)
      rw [concatLoop, memoryCopyAligned, hpart.size_eq, bytesOf_div hpart.bytes_lt,
        copyLoop_eq hpart.holds hpart.hasRoom (zero_add _), drop_zero, hsto]
      rfl

/-- `concat` writes behind its block if the sizes of the parts overflow when they are added. -/
theorem concat_overflow {parts : List (Range L)} {contents : List (List L.Value)} {m : Nat}
    (h : PartsRepresent parts contents) (hge : L.sizes ≤ (parts.map (·.size)).sum) :
    concat m parts = .error .outOfMemory ∨ concat m parts = .error .undefinedBehaviour := by
  have htot : totalSize parts < L.sizes := by
    rw [totalSize_eq]
    exact Nat.mod_lt _ (Nat.two_pow_pos _)
  have hens := empty_represents.ensureCapacity (n := m) htot (grows_zero _)
  rw [h.sum_eq] at hge
  unfold concat
  cases hres : (empty : StringBase L).ensureCapacity m (totalSize parts) with
  | error e =>
    rw [hres] at hens
    obtain rfl : e = .outOfMemory := hens
    exact .inl rfl
  | ok r =>
    obtain ⟨s, m'⟩ := r
    rw [hres] at hens
    obtain ⟨hs, -, -⟩ := hens
    have hlp := concatLoop_overflow h (.nil s.ptr) hs.room_eq (Nat.zero_le _) hs.capacity_lt
      (by rw [length_nil, zero_add]; exact lt_of_lt_of_le hs.capacity_lt hge)
    refine .inr ?_
    show (concatLoop s.ptr 0 parts >>= _) = _
    rw [length_nil] at hlp
    rw [hlp]
    rfl

/-- If the size of the text is a number of `size_type`, `concat` gives it or runs out of memory. -/
theorem concat_spec {parts : List (Range L)} {contents : List (List L.Value)} (h : PartsRepresent parts contents)
    (m : Nat) : ((parts.map (·.size)).sum < L.sizes →
        Returns (concat m parts) fun r => r.1.Represents contents.flatten) ∧
      (L.sizes ≤ (parts.map (·.size)).sum →
        concat m parts = .error .outOfMemory ∨ concat m parts = .error .undefinedBehaviour) :=
  ⟨concat_returns h, concat_overflow h⟩

theorem concat_spec_chars :
    Returns (concat 0 [arrayRange [(65 : narrowChars.Value)], arrayRange [66]])
      fun r => r.1.Represents [65, 66] :=
  (concat_spec (.cons (arrayRange_represents (by decide))
    (.cons (arrayRange_represents (by decide)) .nil)) 0).1 (by decide)

/-- No doubling of the first capacity reaches the largest size: `resize` does not end. -/
theorem program_refines_hang : ¬∀ (L : StringLayout) (operations : List (Operation L 1)),
    Follows (World.start.run operations) (Lists.start.run operations) (fun a w => Refines w a) ∧
      OrdersTotally (compareOrder : List L.Value → List L.Value → Int) := by
  intro hall
  have hfollows := (hall narrowChars [.pushBack 0 65, .resize 0 ⟨2 ^ 32 - 1, by decide⟩ 65]).1
  cases hfollows

end USprache.Ustlib.StringBase
