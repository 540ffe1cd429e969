import USprache.Library.DistinctElements
import USprache.LexSynt.ProgramString

/-!
# The state of the MSVC mangler

A name that was written before is replaced by a digit.  The state keeps the first ten
different names, each as a position and a size in the text that is being written.

The text is a sequence of pieces, one for each call: something that is no name, a name that
is written out, or a digit.  A reader of the pieces keeps the same table as the mangler.
-/

namespace USprache.CodeBuilder.Msvc

open LexSynt Library List

def numBackReferences : Nat := 10

def terminator : UInt8 := ascii '@'

structure BackReference where
  pos : UInt32 := 0
  count : UInt32 := 0
deriving DecidableEq

def BackReference.empty : BackReference := {}

/-- `std::string_view(res).substr( pos, count )`. -/
def BackReference.text (backReference : BackReference) (res : Text) : Text :=
  (res.drop backReference.pos.toNat).take backReference.count.toNat

structure ManglerState where
  backReferences : List BackReference := replicate numBackReferences .empty
  res : Text := []
deriving DecidableEq

/-- `char(i + '0')`. -/
def digit (i : Nat) : UInt8 := UInt8.ofNat (i + '0'.toNat)

/-- The loop of `EncodeNameImpl` over the slots: the number of a slot with this name, or the
slots behind the loop. -/
def searchBackReferences (res str : Text) : List BackReference → Nat ⊕ List BackReference
  | [] => .inr []
  | br :: brs =>
    if br.text res = str then .inl 0
    else if br.count = 0 then
      -- Reached empty space - fill it.
      .inr (⟨UInt32.ofNat res.length, UInt32.ofNat str.length⟩ :: brs)
    else
      match searchBackReferences res str brs with
      | .inl i => .inl (i + 1)
      | .inr brs => .inr (br :: brs)

def terminatorIf (useTerminator : Bool) : Text := if useTerminator then [terminator] else []

namespace ManglerState

variable (s : ManglerState)

def encodeNameImpl (str : Text) (useTerminator : Bool) : ManglerState :=
  match searchBackReferences s.res str s.backReferences with
  | .inl i => { s with res := s.res ++ [digit i] }
  | .inr backReferences => ⟨backReferences, s.res ++ str ++ terminatorIf useTerminator⟩

def encodeName (str : Text) : ManglerState := s.encodeNameImpl str true

def encodeNameNoTerminator (str : Text) : ManglerState :=
  s.encodeNameImpl str false

def pushElement (str : Text) : ManglerState := { s with res := s.res ++ str }

end ManglerState

inductive Call where
  | encodeName (str : Text)
  | encodeNameNoTerminator (str : Text)
  | pushElement (str : Text)
deriving DecidableEq

namespace Call

def name? : Call → Option Text
  | encodeName str | encodeNameNoTerminator str => some str
  | pushElement _ => none

/-- What the call would write without back references. -/
def uncompressed : Call → Text
  | encodeName str => str ++ [terminator]
  | encodeNameNoTerminator str => str
  | pushElement str => str

end Call

namespace ManglerState

variable (s : ManglerState)

def perform : Call → ManglerState
  | .encodeName str => s.encodeName str
  | .encodeNameNoTerminator str => s.encodeNameNoTerminator str
  | .pushElement str => s.pushElement str

def run (calls : List Call) : ManglerState := calls.foldl perform s

@[simp] theorem run_nil : s.run [] = s := rfl

@[simp] theorem run_cons (c : Call) (cs : List Call) :
    s.run (c :: cs) = (s.perform c).run cs := rfl

theorem run_append (cs cs' : List Call) :
    s.run (cs ++ cs') = (s.run cs).run cs' := foldl_append

end ManglerState

/-- What one call writes.  The flag says whether the call ends the name with the terminator. -/
inductive Piece where
  | element (str : Text)
  | name (str : Text) (useTerminator : Bool)
  | digit (i : Nat) (useTerminator : Bool)
deriving DecidableEq

namespace Piece

def render : Piece → Text
  | element str => str
  | name str useTerminator => str ++ terminatorIf useTerminator
  | digit i _ => [Msvc.digit i]

def register (names : List Text) : Piece → List Text
  | name str _ => addDistinct numBackReferences names str
  | element _ | digit .. => names

/-- What the piece stands for.  A digit stands for a name of the table and for the
terminator behind it. -/
def expand (names : List Text) : Piece → Text
  | element str => str
  | name str useTerminator => str ++ terminatorIf useTerminator
  | digit i useTerminator => names.getD i [] ++ terminatorIf useTerminator

end Piece

def expandPieces (names : List Text) : List Piece → Text
  | [] => []
  | piece :: pieces => piece.expand names ++ expandPieces (piece.register names) pieces

namespace ManglerState

variable (s : ManglerState)

def namePiece (str : Text) (useTerminator : Bool) : Piece :=
  match searchBackReferences s.res str s.backReferences with
  | .inl i => .digit i useTerminator
  | .inr _ => .name str useTerminator

def piece : Call → Piece
  | .encodeName str => s.namePiece str true
  | .encodeNameNoTerminator str => s.namePiece str false
  | .pushElement str => .element str

def pieces (s : ManglerState) : List Call → List Piece
  | [] => []
  | call :: calls => s.piece call :: (s.perform call).pieces calls

theorem res_encodeNameImpl (str : Text) (useTerminator : Bool) :
    (s.encodeNameImpl str useTerminator).res = s.res ++ (s.namePiece str useTerminator).render := by
  unfold encodeNameImpl namePiece
  split
  · rfl
  · exact append_assoc _ _ _

theorem res_perform (c : Call) :
    (s.perform c).res = s.res ++ (s.piece c).render := by
  cases c with
  | encodeName str => exact s.res_encodeNameImpl str true
  | encodeNameNoTerminator str => exact s.res_encodeNameImpl str false
  | pushElement str => rfl

theorem res_run (s : ManglerState) (cs : List Call) :
    (s.run cs).res = s.res ++ (s.pieces cs).flatMap Piece.render := by
  induction cs generalizing s with
  | nil => rw [run_nil, pieces, flatMap_nil, append_nil]
  | cons call cs ih =>
    rw [run_cons, ih, res_perform, pieces, flatMap_cons, append_assoc]

theorem res_prefix_run (cs : List Call) : s.res <+: (s.run cs).res := by
  rw [res_run]
  exact prefix_append _ _

end ManglerState

structure BackReference.Denotes (br : BackReference) (res name : Text) : Prop where
  in_range : br.pos.toNat + br.count.toNat ≤ res.length
  text_eq : br.text res = name
  not_empty : br.count ≠ 0

theorem BackReference.Denotes.append {br : BackReference} {res n : Text} (h : br.Denotes res n)
    (more : Text) : br.Denotes (res ++ more) n := by
  refine ⟨?_, ?_, h.not_empty⟩
  · have hrg := h.in_range
    rw [length_append]
    omega
  · have hrg := h.in_range
    rw [← h.text_eq, text, text, drop_append_of_le_length (by omega),
      take_append_of_le_length (by rw [length_drop]; omega)]

/-- The slots stand for the names, one after another, and the other slots are empty. -/
structure Registers (s : ManglerState) (names : List Text) : Prop where
  slots : ∃ filled, Forall₂ (fun br name => br.Denotes s.res name) filled names ∧
    s.backReferences = filled ++ replicate (numBackReferences - names.length) .empty
  length_le : names.length ≤ numBackReferences

theorem registers_start : Registers {} [] := ⟨⟨[], .nil, rfl⟩, Nat.zero_le _⟩

variable {s : ManglerState} {names : List Text} {str : Text} (h : Registers s names)

include h

theorem Registers.append (more : Text) :
    Registers (s.pushElement more) names := by
  obtain ⟨filled, hfil, hslo⟩ := h.slots
  exact ⟨⟨filled, hfil.imp (fun br name hbr => hbr.append more), hslo⟩, h.length_le⟩

omit h in
/-- The search goes through the names of the table and then finds an empty slot, if there is
one. -/
theorem searchBackReferences_eq {res : Text} (hstr : str ≠ []) {filled : List BackReference}
    (h : Forall₂ (fun br name => br.Denotes res name) filled names) (n : Nat) :
    searchBackReferences res str (filled ++ replicate n .empty) =
      match names.idxOf? str with
      | some i => .inl i
      | none => .inr (filled ++
          match n with
          | 0 => []
          | n + 1 => ⟨UInt32.ofNat res.length, UInt32.ofNat str.length⟩ :: replicate n .empty) := by
  induction h with
  | nil =>
    cases n with
    | zero => rfl
    | succ n =>
      have ht : BackReference.empty.text res ≠ str := by
        exact fun h => hstr (by simpa [BackReference.text, BackReference.empty] using h.symm)
      rw [nil_append, replicate_succ, searchBackReferences, if_neg ht]
      rfl
  | @cons br name filled names hbr hfil ih =>
    rw [cons_append, searchBackReferences, hbr.text_eq, idxOf?_cons]
    by_cases hn : name = str
    · rw [if_pos hn, if_pos (beq_iff_eq.2 hn)]
    · rw [if_neg hn, if_neg hbr.not_empty, ih, if_neg (by simpa using hn)]
      cases names.idxOf? str with
      | none => rfl
      | some i => rfl

theorem namePiece_eq (hstr : str ≠ []) (useTerminator : Bool) :
    s.namePiece str useTerminator =
      match names.idxOf? str with
      | some i => .digit i useTerminator
      | none => .name str useTerminator := by
  obtain ⟨filled, hfil, hslo⟩ := h.slots
  rw [ManglerState.namePiece, hslo, searchBackReferences_eq hstr hfil]
  cases names.idxOf? str <;> rfl

theorem expand_namePiece (hstr : str ≠ []) (useTerminator : Bool) :
    (s.namePiece str useTerminator).expand names = str ++ terminatorIf useTerminator := by
  rw [namePiece_eq h hstr]
  cases hfd : names.idxOf? str with
  | none => rfl
  | some i =>
    obtain ⟨hlt, hget, -⟩ := idxOf?_eq_some_iff.1 hfd
    show names.getD i [] ++ _ = _
    rw [getD_eq_getElem _ _ hlt, hget]

theorem Registers.encodeNameImpl (hstr : str ≠ []) {useTerminator : Bool}
    (hsz : (s.encodeNameImpl str useTerminator).res.length < 2 ^ 32) :
    Registers (s.encodeNameImpl str useTerminator)
      ((s.namePiece str useTerminator).register names) := by
  obtain ⟨filled, hfil, hslo⟩ := h.slots
  have hpc := namePiece_eq h hstr useTerminator
  have hsea := searchBackReferences_eq hstr hfil (numBackReferences - names.length)
  rw [← hslo] at hsea
  cases hfd : names.idxOf? str with
  | some i =>
    rw [hfd] at hsea hpc
    rw [hpc, ManglerState.encodeNameImpl, hsea]
    exact h.append _
  | none =>
    rw [hfd] at hsea hpc
    have hnew : str ∉ names := idxOf?_eq_none_iff.1 hfd
    have hres := s.res_encodeNameImpl str useTerminator
    rw [hpc] at hres
    rw [hres, Piece.render] at hsz
    simp only [length_append] at hsz
    rw [hpc, Piece.register, addDistinct_of_not_mem hnew]
    have hall : Forall₂ (fun br name => br.Denotes (s.encodeNameImpl str useTerminator).res name)
        filled names := by
      rw [hres]
      exact hfil.imp (fun br name hbr => hbr.append _)
    cases hrm : numBackReferences - names.length with
    | zero =>
      rw [if_neg (by omega)]
      refine ⟨⟨filled, hall, ?_⟩, h.length_le⟩
      rw [ManglerState.encodeNameImpl, hsea, hrm]
      rfl
    | succ n =>
      rw [if_pos (by omega)]
      have hpos : (UInt32.ofNat s.res.length).toNat = s.res.length := Nat.mod_eq_of_lt (by omega)
      have hc : (UInt32.ofNat str.length).toNat = str.length := Nat.mod_eq_of_lt (by omega)
      have hden : BackReference.Denotes ⟨UInt32.ofNat s.res.length, UInt32.ofNat str.length⟩
          (s.encodeNameImpl str useTerminator).res str := by
        rw [hres]
        refine ⟨?_, ?_, ?_⟩
        · rw [hpos, hc, Piece.render, length_append, length_append]
          omega
        · rw [BackReference.text, hpos, hc, Piece.render, drop_left, take_left]
        · intro hz
          rw [← UInt32.toNat_inj, hc] at hz
          exact hstr (length_eq_zero_iff.1 hz)
      refine ⟨⟨filled ++ [_], rel_append hall (.cons hden .nil), ?_⟩, ?_⟩
      · rw [ManglerState.encodeNameImpl, hsea, hrm, length_append, length_singleton,
          show numBackReferences - (names.length + 1) = n by omega]
        simp
      · rw [length_append, length_singleton]
        omega

theorem register_namePiece (hstr : str ≠ []) (useTerminator : Bool) :
    (s.namePiece str useTerminator).register names = addDistinct numBackReferences names str := by
  rw [namePiece_eq h hstr]
  cases hfd : names.idxOf? str with
  | none => rfl
  | some i =>
    obtain ⟨hlt, hget, -⟩ := idxOf?_eq_some_iff.1 hfd
    have hmem : str ∈ names := hget ▸ getElem_mem hlt
    rw [addDistinct_of_mem hmem]
    rfl

def callNames (calls : List Call) : List Text := calls.filterMap Call.name?

/-- One call: the table of the mangler stays the one of the reader, who gets the text of the
call from its piece. -/
theorem Registers.perform {c : Call}
    (hn : ∀ n ∈ c.name?, n ≠ []) (hsz : (s.perform c).res.length < 2 ^ 32) :
    Registers (s.perform c) ((s.piece c).register names) ∧
      (s.piece c).expand names = c.uncompressed ∧
      (s.piece c).register names = (callNames [c]).foldl (addDistinct numBackReferences) names := by
  cases c with
  | encodeName str =>
    have hstr := hn str rfl
    exact ⟨h.encodeNameImpl hstr hsz, expand_namePiece h hstr true, register_namePiece h hstr true⟩
  | encodeNameNoTerminator str =>
    have hstr := hn str rfl
    refine ⟨h.encodeNameImpl hstr hsz, ?_, register_namePiece h hstr false⟩
    rw [ManglerState.piece, expand_namePiece h hstr]
    exact append_nil str
  | pushElement str => exact ⟨h.append str, rfl, rfl⟩

omit h in
theorem callNames_cons (c : Call) (cs : List Call) :
    callNames (c :: cs) = callNames [c] ++ callNames cs := by
  rw [callNames, callNames, callNames, ← filterMap_append, singleton_append]

theorem Registers.run (cs : List Call)
    (hns : ∀ n ∈ callNames cs, n ≠ []) (hsz : (s.run cs).res.length < 2 ^ 32) :
    Registers (s.run cs) ((callNames cs).foldl (addDistinct numBackReferences) names) ∧
      expandPieces names (s.pieces cs) = cs.flatMap Call.uncompressed := by
  induction cs generalizing s names with
  | nil => exact ⟨h, rfl⟩
  | cons c cs ih =>
    rw [callNames_cons, forall_mem_append] at hns
    have hle : (s.perform c).res.length ≤ (s.run (c :: cs)).res.length :=
      ((s.perform c).res_prefix_run cs).length_le
    have hn : ∀ n ∈ c.name?, n ≠ [] := by
      intro n hn
      apply hns.1
      rw [callNames, mem_filterMap]
      exact ⟨c, mem_singleton_self c, hn⟩
    obtain ⟨hregs, hexpand, htab⟩ := h.perform hn (by omega)
    obtain ⟨hrs, hpcs⟩ := ih hregs hns.2 hsz
    rw [callNames_cons, foldl_append, ← htab]
    refine ⟨hrs, ?_⟩
    rw [ManglerState.pieces, expandPieces, hexpand, hpcs, flatMap_cons]

omit h

theorem registers_run (cs : List Call) (hns : ∀ n ∈ callNames cs, n ≠ [])
    (hsz : (({} : ManglerState).run cs).res.length < 2 ^ 32) :
    Registers (({} : ManglerState).run cs) (firstDistinct numBackReferences (callNames cs)) := by
  have h := (registers_start.run cs hns hsz).1
  have htab := foldl_addDistinct numBackReferences [] (callNames cs)
  rw [firstDistinct_nil] at htab
  rwa [htab] at h

end USprache.CodeBuilder.Msvc
