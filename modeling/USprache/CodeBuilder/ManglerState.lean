import Mathlib.Data.Nat.Digits.Defs
import USprache.LexSynt.ProgramString

/-!
# The state of the Itanium mangler

The mangler writes every name twice: in full, and with repeated parts replaced
by references to earlier parts.  A part is what is written between the creation
and the destruction of a node holder, which replaces the part by a reference if it
equals an earlier candidate and makes it a candidate itself otherwise.

A candidate is a span of the full text.  Positions and sizes are `uint16_t`.
`emitted`, the compressed text as characters and references, is read by no function
of the mangler.
-/

namespace USprache.CodeBuilder

open LexSynt

/-- The conversion to `LenType`. -/
def lenType (n : Nat) : Nat := n % 2 ^ 16

theorem lenType_of_lt {n : Nat} (h : n < 2 ^ 16) : lenType n = n := Nat.mod_eq_of_lt h

def base36Digits : List Char := "0123456789ABCDEFGHIJKLMNOPQRSTUVWXYZ".toList

def base36Digit (value : Nat) : UInt8 := ascii (base36Digits.getD value '0')

structure Substitution where
  start : Nat
  size : Nat
deriving DecidableEq

inductive Token where
  | char (c : UInt8)
  | reference (index : Nat)
deriving DecidableEq

structure ManglerState where
  substitutions : List Substitution := []
  resultFull : Text := []
  resultCompressed : Text := []
  emitted : List Token := []
deriving DecidableEq

/-- The positions a node holder remembers.  `emittedStart` is the length of
`emitted` at that moment. -/
structure NodeHolder where
  start : Nat
  compressedStart : Nat
  emittedStart : Nat
deriving DecidableEq

namespace ManglerState

variable (s : ManglerState)

def push (name : Text) : ManglerState := { s with
    resultFull := s.resultFull ++ name
    resultCompressed := s.resultCompressed ++ name
    emitted := s.emitted ++ name.map .char }

/-- `std::to_string` of a size. -/
def decimal (n : Nat) : Text := (Nat.toDigits 10 n).map ascii

def pushLengthPrefixed (name : Text) : ManglerState :=
  (s.push (decimal name.length)).push name

def takeResult : Text × ManglerState := (s.resultCompressed, {})

def openNode : NodeHolder :=
  { start := lenType s.resultFull.length
    compressedStart := lenType s.resultCompressed.length
    emittedStart := s.emitted.length }

/-- `std::string_view(result_full_).substr( start, size )`. -/
def part (start size : Nat) : Text := (s.resultFull.drop start).take size

def resize (text : Text) (n : Nat) : Text := text.take n ++ List.replicate (n - text.length) 0

/-- The digits of a reference.  Indices too large for three digits get none. -/
def referenceDigits (i : Nat) : Text :=
  if 0 < i then
    let n := toUInt32 (toUInt32 i + (2 ^ 32 - 1))
    if n < 36 then [base36Digit n]
    else if n < 36 * 36 then [base36Digit (n / 36), base36Digit (n % 36)]
    else if n < 36 * 36 * 36 then
      [base36Digit (n / (36 * 36)), base36Digit (n / 36 % 36), base36Digit (n % 36)]
    else []
  else []

def finalizePart (holder : NodeHolder) : ManglerState :=
  let size := lenType (s.resultFull.length - holder.start)
  let currentPart := s.part holder.start size
  match s.substitutions.findIdx? (fun sub => currentPart == s.part sub.start sub.size) with
  | some i =>
    { s with
      resultCompressed :=
        resize s.resultCompressed holder.compressedStart ++ [ascii 'S'] ++ referenceDigits i ++
          [ascii '_']
      emitted := s.emitted.take holder.emittedStart ++ [.reference i] }
  | none => { s with substitutions := s.substitutions ++ [⟨holder.start, size⟩] }

end ManglerState

/-- What the encoding functions do with a mangler state. -/
inductive ManglerCall where
  | pushChar (c : UInt8)
  | push (name : Text)
  | pushLengthPrefixed (name : Text)
  | openNode
  | closeNode
  | takeResult
deriving DecidableEq

/-- A mangler state and the node holders that are alive, the innermost first. -/
structure Mangling where
  state : ManglerState := {}
  holders : List NodeHolder := []
deriving DecidableEq

namespace Mangling

/-- Scopes nest, so the innermost holder is destroyed first and the result is
taken when no holder is left. -/
def step (m : Mangling) : ManglerCall → Option Mangling
  | .pushChar c => some { m with state := m.state.push [c] }
  | .push name => some { m with state := m.state.push name }
  | .pushLengthPrefixed name => some { m with state := m.state.pushLengthPrefixed name }
  | .openNode => some { m with holders := m.state.openNode :: m.holders }
  | .closeNode =>
    match m.holders with
    | [] => none
    | holder :: holders => some ⟨m.state.finalizePart holder, holders⟩
  | .takeResult =>
    match m.holders with
    | [] => some ⟨m.state.takeResult.2, []⟩
    | _ :: _ => none

def run (m : Mangling) : List ManglerCall → Option Mangling
  | [] => some m
  | call :: calls => (m.step call).bind (fun m' => run m' calls)

/-- The texts are short enough for `LenType` and there are no more candidates
than three digits can name. -/
def Fits (m : Mangling) : Prop :=
  m.state.resultFull.length < 2 ^ 16 ∧ m.state.resultCompressed.length < 2 ^ 16 ∧
    m.state.substitutions.length ≤ 36 * 36 * 36 + 1

instance (m : Mangling) : Decidable m.Fits := inferInstanceAs (Decidable (_ ∧ _ ∧ _))

def FitsAlong (m : Mangling) : List ManglerCall → Prop
  | [] => m.Fits
  | call :: calls => m.Fits ∧ ∀ m' ∈ m.step call, FitsAlong m' calls

instance decidableFitsAlong : (m : Mangling) → (calls : List ManglerCall) →
    Decidable (m.FitsAlong calls)
  | m, [] => inferInstanceAs (Decidable m.Fits)
  | m, call :: calls =>
    have : ∀ m' : Mangling, Decidable (m'.FitsAlong calls) := fun m' => decidableFitsAlong m' calls
    inferInstanceAs (Decidable (m.Fits ∧ ∀ m' ∈ m.step call, m'.FitsAlong calls))

end Mangling

/-- The sequence number of a reference: nothing for the first candidate, then
the numbers from zero on in base 36. -/
def sequenceId (i : Nat) : Text :=
  if i = 0 then []
  else if i = 1 then [base36Digit 0]
  else (Nat.digits 36 (i - 1)).reverse.map base36Digit

/-- `S_`, `S0_`, `S1_` and so on. -/
def referenceText (i : Nat) : Text := ascii 'S' :: (sequenceId i ++ [ascii '_'])

namespace Token

def render : Token → Text
  | char c => [c]
  | reference i => referenceText i

def expand (candidates : List Text) : Token → Text
  | char c => [c]
  | reference i => candidates.getD i []

/-- The candidate a reference names is among the first `n`. -/
def InRange (n : Nat) : Token → Prop
  | char _ => True
  | reference i => i < n

end Token

namespace ManglerState

variable (s : ManglerState)

/-- The texts of the candidates, in the order of their registration. -/
def candidates : List Text :=
  s.substitutions.map (fun sub => s.part sub.start sub.size)

/-- The compressed text with each reference replaced by its candidate. -/
def decompressed : Text := s.emitted.flatMap (Token.expand s.candidates)

def rendered : Text := s.emitted.flatMap Token.render

end ManglerState

end USprache.CodeBuilder
