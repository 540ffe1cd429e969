import Mathlib.Data.List.Forall2
import USprache.LexSynt.ProgramString
import USprache.Library.Splice

/-!
# Documents of the language server

A document keeps its current text, the last compiled state and the edits made
since that state was compiled.  A rebuild captures the text and the number of edits
recorded so far and runs in the background; whenever the document is touched later it
takes the result over if there is one.

The code builder, the source graph and the diagnostics are left out.  Whether the front
end accepts the text is an argument of the rebuild event.
-/

namespace USprache.LanguageServer

open LexSynt List

structure DocumentPosition where
  line : Nat
  character : Nat

structure DocumentRange where
  start : DocumentPosition
  stop : DocumentPosition

structure TextChange where
  rangeStart : Nat
  rangeEnd : Nat
  newCount : Nat
deriving DecidableEq

structure CompiledState where
  numTextChangesAtCompilationTaskStart : Nat
  text : Text
deriving DecidableEq

/-- A started background task: the state it will deliver, and whether it has
finished. -/
structure CompilationFuture where
  state : CompiledState
  ready : Bool

structure Document where
  text : Text := []
  lineToLinearPositionIndex : List Nat := buildLineToLinearPositionIndex []
  textChangesSinceCompiledState : Option (List TextChange) := none
  rebuildRequired : Bool := true
  compiledState : Option CompiledState := none
  compilationFuture : Option CompilationFuture := none
  rebuildFinished : Bool := false

def documentPositionToLinearPosition (pos : DocumentPosition) (text : Text) (index : List Nat) :
    Option Nat :=
  match index[pos.line]? with
  | none => none
  | some lineLinearPos =>
    match utf16PositionToUtf8Position (text.drop lineLinearPos) pos.character with
    | none => none
    | some columnOffset => some (toUInt32 (lineLinearPos + columnOffset))

namespace Document

variable (d : Document)

def setText (text : Text) : Document := { d with
    text := text
    textChangesSinceCompiledState := none
    lineToLinearPositionIndex := buildLineToLinearPositionIndex text
    rebuildRequired := true }

/-- The edits made before the task started are forgotten. -/
def tryTakeBackgroundStateUpdate : Document :=
  match d.compilationFuture with
  | some ⟨state, true⟩ =>
    { d with
      compiledState := some state
      compilationFuture := none
      rebuildFinished := true
      textChangesSinceCompiledState :=
        match d.textChangesSinceCompiledState with
        | none => some []
        | some changes => some (changes.drop state.numTextChangesAtCompilationTaskStart) }
  | _ => d

def updateText (range : DocumentRange) (newText : Text) : Document :=
  let d := d.tryTakeBackgroundStateUpdate
  match documentPositionToLinearPosition range.start d.text d.lineToLinearPositionIndex,
      documentPositionToLinearPosition range.stop d.text d.lineToLinearPositionIndex with
  | some start, some stop =>
    if stop < start then d
    else
      let text := d.text.take start ++ newText ++ d.text.drop stop
      { d with
        text := text
        lineToLinearPositionIndex := buildLineToLinearPositionIndex text
        textChangesSinceCompiledState :=
          match d.compiledState, d.textChangesSinceCompiledState with
          | some _, some changes => some (changes ++ [⟨start, stop, toUInt32 newText.length⟩])
          | _, changes => changes
        rebuildRequired := true }
  | _, _ => d

def startRebuild (frontEndSucceeds : Bool) : Document :=
  let d := d.tryTakeBackgroundStateUpdate
  if d.compilationFuture.isSome then d
  else if !frontEndSucceeds then { d with rebuildRequired := false, rebuildFinished := true }
  else
    -- The first rebuild starts the tracking of changes.
    let changes :=
      match d.compiledState, d.textChangesSinceCompiledState with
      | none, none => some []
      | _, changes => changes
    { d with
      rebuildRequired := false
      textChangesSinceCompiledState := changes
      compilationFuture := some
        { state :=
            { numTextChangesAtCompilationTaskStart :=
                match changes with
                | none => 0
                | some changes => changes.length
              text := d.text }
          ready := false } }

def finishCompilation : Document :=
  { d with compilationFuture := d.compilationFuture.map fun f => { f with ready := true } }

end Document

inductive Event where
  | setText (text : Text)
  | updateText (range : DocumentRange) (newText : Text)
  | startRebuild (frontEndSucceeds : Bool)
  | finishCompilation
  | tryTakeBackgroundStateUpdate

def Document.apply (d : Document) : Event → Document
  | .setText text => d.setText text
  | .updateText range newText => d.updateText range newText
  | .startRebuild frontEndSucceeds => d.startRebuild frontEndSucceeds
  | .finishCompilation => d.finishCompilation
  | .tryTakeBackgroundStateUpdate => d.tryTakeBackgroundStateUpdate

def Document.initial : Document := Document.setText {} []

def Document.run (d : Document) (events : List Event) : Document := events.foldl Document.apply d

/-- One change on a text whose unknown bytes are `none`. -/
def TextChange.replay (change : TextChange) (text : List (Option UInt8)) : List (Option UInt8) :=
  text.take change.rangeStart ++ replicate change.newCount none ++ text.drop change.rangeEnd

def replay (changes : List TextChange) (text : List (Option UInt8)) : List (Option UInt8) :=
  changes.foldl (fun text change => change.replay text) text

/-- The replayed text has the length of the current text, and each byte that
survived is the byte of the current text at its place. -/
def Agrees (replayed : List (Option UInt8)) (text : Text) : Prop :=
  Forall₂ (fun r b => r = none ∨ r = some b) replayed text

def Tracks (changes : List TextChange) (old new : Text) : Prop :=
  Agrees (replay changes (old.map some)) new

instance (changes : List TextChange) (old new : Text) : Decidable (Tracks changes old new) :=
  inferInstanceAs (Decidable (Forall₂ _ _ _))

/-- The tracked changes lead from the compiled text to the current one. -/
def Document.Faithful (d : Document) : Prop := ∀ state changes, d.compiledState = some state →
    d.textChangesSinceCompiledState = some changes → Tracks changes state.text d.text

end USprache.LanguageServer

/-!
## Positions across edits

The positions in the compiled text and in the current text are mapped to each other through the
changes recorded in between.
-/

namespace USprache.LanguageServer

open LexSynt List
open Library (Splice)

/-- One turn of the loop of `MapOldPositionToNewPosition`. -/
def TextChange.mapOld (change : TextChange) (currentPosition : Nat) : Option Nat :=
  if currentPosition < change.rangeStart then some currentPosition
  else if change.rangeEnd ≤ currentPosition then
    some (toUInt32 (currentPosition - change.rangeEnd +
      toUInt32 (change.rangeStart + change.newCount)))
  else none

/-- One turn of the loop of `MapNewPositionToOldPosition`. -/
def TextChange.mapNew (change : TextChange) (currentPosition : Nat) : Option Nat :=
  if currentPosition < change.rangeStart then some currentPosition
  else if toUInt32 (change.rangeStart + change.newCount) ≤ currentPosition then
    some (toUInt32 (currentPosition - toUInt32 (change.rangeStart + change.newCount) +
      change.rangeEnd))
  else none

def mapOldPositionToNewPosition (changes : List TextChange) (position : Nat) : Option Nat :=
  changes.foldlM (fun currentPosition change => change.mapOld currentPosition) position

/-- The changes are taken in reverse order. -/
def mapNewPositionToOldPosition (changes : List TextChange) (position : Nat) : Option Nat :=
  changes.reverse.foldlM (fun currentPosition change => change.mapNew currentPosition) position

variable (s : Splice UInt8)

/-- What is recorded of a replacement in the text, see `Document.updateText`. -/
def changeOf : TextChange := ⟨s.start, s.stop, s.new.length⟩

/-- No sum of a turn of `MapOldPositionToNewPosition` overflows. -/
def OldFits (p : Nat) : Prop :=
  s.newStop < 2 ^ 32 ∧ (s.stop ≤ p → p - s.stop + s.newStop < 2 ^ 32)

/-- No sum of a turn of `MapNewPositionToOldPosition` overflows. -/
def NewFits (q : Nat) : Prop :=
  s.newStop < 2 ^ 32 ∧ (s.newStop ≤ q → q - s.newStop + s.stop < 2 ^ 32)

def OldWalkFits : List (Splice UInt8) → Nat → Prop
  | [], _ => True
  | s :: splices, p => OldFits s p ∧ ∀ p', s.places p = some p' → OldWalkFits splices p'

def NewWalkFits : List (Splice UInt8) → Nat → Prop
  | [], _ => True
  | s :: splices, q => NewWalkFits splices q ∧
      ∀ q', (Splice.allPlaces splices).symm q = some q' → NewFits s q'

variable {s} {splices : List (Splice UInt8)} {p q : Nat}

theorem mapOld_changeOf (h : OldFits s p) : (changeOf s).mapOld p = s.places p := by
  show (if p < s.start then _ else if s.stop ≤ p then
    some (toUInt32 (p - s.stop + toUInt32 s.newStop)) else none) = _
  rw [toUInt32_of_lt h.1]
  by_cases hle : s.stop ≤ p
  · rw [toUInt32_of_lt (h.2 hle)]
    rfl
  · rw [if_neg hle]
    exact congrArg (ite _ _) (if_neg hle).symm

theorem mapNew_changeOf (h : NewFits s q) : (changeOf s).mapNew q = s.places.symm q := by
  show (if q < s.start then _ else if toUInt32 s.newStop ≤ q then
    some (toUInt32 (q - toUInt32 s.newStop + s.stop)) else none) = _
  rw [toUInt32_of_lt h.1]
  by_cases hle : s.newStop ≤ q
  · rw [toUInt32_of_lt (h.2 hle)]
    rfl
  · rw [if_neg hle]
    exact congrArg (ite _ _) (if_neg hle).symm

/-- Without overflow the positions are the places of the bytes that stay. -/
theorem mapOldPositionToNewPosition_eq (h : OldWalkFits splices p) :
    mapOldPositionToNewPosition (splices.map changeOf) p = Splice.allPlaces splices p := by
  induction splices generalizing p with
  | nil => rfl
  | cons s splices ih =>
    rw [mapOldPositionToNewPosition, map_cons, foldlM_cons, mapOld_changeOf h.1,
      Splice.allPlaces_cons]
    cases hp : s.places p with
    | none => rfl
    | some p' => exact ih (h.2 p' hp)

theorem mapNewPositionToOldPosition_eq (h : NewWalkFits splices q) :
    mapNewPositionToOldPosition (splices.map changeOf) q = (Splice.allPlaces splices).symm q := by
  induction splices generalizing q with
  | nil => rfl
  | cons s splices ih =>
    have hrs := ih h.1
    unfold mapNewPositionToOldPosition at hrs
    rw [mapNewPositionToOldPosition, map_cons, reverse_cons, foldlM_append, hrs,
      Splice.allPlaces_cons_symm]
    cases hq : (Splice.allPlaces splices).symm q with
    | none => rfl
    | some q' =>
      show ((changeOf s).mapNew q' >>= pure) = _
      rw [bind_pure, mapNew_changeOf (h.2 q' hq)]
      rfl

/-- The two mappings are inverse to each other, and a position is mapped exactly if its byte stays
in the text, to the place where it is then. -/
theorem positions_exact (splices : List (Splice UInt8)) (text : Text) :
    (∀ p q, OldWalkFits splices p → NewWalkFits splices q →
      (mapOldPositionToNewPosition (splices.map changeOf) p = some q ↔
        mapNewPositionToOldPosition (splices.map changeOf) q = some p)) ∧
    ∀ p, p < text.length → OldWalkFits splices p → ∀ q,
      (mapOldPositionToNewPosition (splices.map changeOf) p = some q ↔
        (Splice.origins splices text.length)[q]? = some (some p)) ∧
      (mapOldPositionToNewPosition (splices.map changeOf) p = some q →
        (Splice.applyAll splices text)[q]? = text[p]?) := by
  constructor
  · intro p q hp hq
    rw [mapOldPositionToNewPosition_eq hp, mapNewPositionToOldPosition_eq hq]
    exact (PEquiv.eq_some_iff _).symm
  · intro p hlt hp q
    rw [mapOldPositionToNewPosition_eq hp]
    refine ⟨Splice.allPlaces_eq_some_iff hlt, fun hq => ?_⟩
    rw [getElem?_eq_getElem hlt]
    exact Splice.getElem?_applyAll (getElem?_eq_getElem hlt) hq

theorem positions_exact_behind_removal : (mapOldPositionToNewPosition [⟨3, 7, 0⟩] 7 = some 3 ↔
      mapNewPositionToOldPosition [⟨3, 7, 0⟩] 3 = some 7) ∧
    (mapOldPositionToNewPosition [⟨3, 7, 0⟩] 7 = some 3 →
      (asciiText "abch")[3]? = (asciiText "abcdefgh")[7]?) := by
  have hexact := positions_exact [⟨3, 7, [], by decide⟩] (asciiText "abcdefgh")
  have hold : OldWalkFits [⟨3, 7, [], by decide⟩] 7 :=
    ⟨⟨by decide, fun _ => by decide⟩, fun _ _ => trivial⟩
  refine ⟨hexact.1 7 3 hold ⟨trivial, fun q' hq => ?_⟩, (hexact.2 7 (by decide) hold 3).2⟩
  obtain rfl := Option.some.inj hq
  exact ⟨by decide, fun _ => by decide⟩

end USprache.LanguageServer

/-!
## Change tracking

The recorded edits lead from the compiled text to the current text, as long as no edit
happens while tracking is off and a compilation is pending: such an edit is lost, and the
state that is delivered is taken for the current text.  Tracking is off after `SetText`
and before the first compiled state arrives.
-/

namespace USprache.LanguageServer

open LexSynt List Option

theorem tracks_nil (t : Text) : Tracks [] t t := by
  show Forall₂ _ (t.map some) t
  rw [forall₂_map_left_iff]
  exact forall₂_same.2 (fun b _ => .inr rfl)

theorem agrees_unknown (t : Text) : Agrees (replicate t.length none) t := by
  induction t with
  | nil => exact .nil
  | cons b t ih => exact .cons (.inl rfl) ih

theorem Agrees.replay {replayed : List (Option UInt8)} {t newT : Text}
    (h : Agrees replayed t) (s stop : Nat) :
    Agrees (TextChange.replay ⟨s, stop, newT.length⟩ replayed) (t.take s ++ newT ++ t.drop stop) :=
  rel_append (rel_append (forall₂_take s h) (agrees_unknown newT)) (forall₂_drop stop h)

theorem replay_append (chgs : List TextChange) (chg : TextChange) (t : List (Option UInt8)) :
    replay (chgs ++ [chg]) t = chg.replay (replay chgs t) := by
  rw [replay, foldl_append]
  rfl

theorem Tracks.edit {chgs : List TextChange} {old new : Text}
    (h : Tracks chgs old new) (s stop : Nat) (newT : Text) :
    Tracks (chgs ++ [⟨s, stop, newT.length⟩]) old (new.take s ++ newT ++ new.drop stop) := by
  rw [Tracks, replay_append]
  exact Agrees.replay h s stop

/-- A pending compilation starts from a text that the changes recorded since its
start lead to the current text; without tracking it is the current text. -/
def Pending (d : Document) (state : CompiledState) : Prop :=
  match d.textChangesSinceCompiledState with
  | none => state.text = d.text
  | some changes => state.numTextChangesAtCompilationTaskStart ≤ changes.length ∧
      Tracks (changes.drop state.numTextChangesAtCompilationTaskStart) state.text d.text

structure Document.Tracked (d : Document) : Prop where
  faithful : d.Faithful
  pending : ∀ future, d.compilationFuture = some future → Pending d future.state

/-- No edit escapes the tracking while a compilation is pending: a whole text is
set only when none is, and an edit needs a compiled state with tracking on, or
no compilation left after a finished one is taken over. -/
def Event.Safe (d : Document) : Event → Prop
  | .setText _ => d.compilationFuture = none
  | .updateText _ newText => newText.length < 2 ^ 32 ∧
      (d.tryTakeBackgroundStateUpdate.compilationFuture = none ∨
        (d.tryTakeBackgroundStateUpdate.compiledState.isSome ∧
          d.tryTakeBackgroundStateUpdate.textChangesSinceCompiledState.isSome))
  | .startRebuild _ => True
  | .finishCompilation => True
  | .tryTakeBackgroundStateUpdate => True

namespace Document

variable {d : Document}

theorem Tracked.setText (hfut : d.compilationFuture = none) (t : Text) : (d.setText t).Tracked where
  faithful _ changes _ hcha := absurd hcha (by simp [Document.setText])
  pending future hf := by
    rw [show (d.setText t).compilationFuture = d.compilationFuture from rfl, hfut] at hf
    exact absurd hf (by simp)

theorem Tracked.tryTake (h : d.Tracked) : d.tryTakeBackgroundStateUpdate.Tracked := by
  unfold tryTakeBackgroundStateUpdate
  split
  · next state hfut =>
    have hp := h.pending _ hfut
    refine ⟨fun s changes hs hc => ?_, fun f hf => absurd hf (by simp)⟩
    have hs : state = s := some.inj hs
    subst hs
    simp only [Pending] at hp
    cases hd : d.textChangesSinceCompiledState with
    | none =>
      rw [hd] at hp
      simp only [hd, some.injEq] at hc
      rw [← hc, show state.text = d.text from hp]
      exact tracks_nil d.text
    | some recorded =>
      rw [hd] at hp
      simp only [hd, some.injEq] at hc
      rw [← hc]
      exact hp.2
  · exact h

theorem Tracked.updateText (h : d.Tracked) {r : DocumentRange}
    {newT : Text} (hsafe : Event.Safe d (.updateText r newT)) :
    (d.updateText r newT).Tracked := by
  obtain ⟨hlen, hsafe⟩ := hsafe
  have h' := h.tryTake
  unfold Document.updateText
  generalize d.tryTakeBackgroundStateUpdate = d' at h' hsafe
  simp only
  split
  · next start stop hst hsto =>
    split
    · exact h'
    · rw [toUInt32_of_lt hlen]
      refine ⟨fun st changes hs hc => ?_, fun future hf => ?_⟩
      · simp only at hs hc
        cases hd : d'.textChangesSinceCompiledState with
        | none => simp [hd] at hc
        | some recorded =>
          simp only [hs, hd, some.injEq] at hc
          rw [← hc]
          exact (h'.faithful st recorded hs hd).edit start stop newT
      · simp only at hf
        obtain ⟨hcomp, hcha⟩ := hsafe.resolve_left (by simp [hf])
        obtain ⟨compiled, hcomp⟩ := isSome_iff_exists.1 hcomp
        obtain ⟨recorded, hrec⟩ := isSome_iff_exists.1 hcha
        have hp := h'.pending future hf
        simp only [Pending, hrec] at hp
        obtain ⟨hle, htrk⟩ := hp
        simp only [Pending, hcomp, hrec, length_append]
        refine ⟨by omega, ?_⟩
        rw [drop_append_of_le_length hle]
        exact htrk.edit start stop newT
  · exact h'

theorem Tracked.startRebuild (h : d.Tracked) (frontEndSucceeds : Bool) :
    (d.startRebuild frontEndSucceeds).Tracked := by
  have h' := h.tryTake
  unfold Document.startRebuild
  generalize d.tryTakeBackgroundStateUpdate = d' at h'
  simp only
  split
  · exact h'
  · split
    · exact ⟨h'.faithful, h'.pending⟩
    · refine ⟨fun st chgs hs hc => ?_, fun future hf => ?_⟩
      · rw [hs] at hc
        exact h'.faithful st chgs hs hc
      · simp only [some.injEq] at hf
        subst hf
        simp only [Pending]
        split
        · trivial
        · next chgs hc =>
          simp only [drop_length]
          exact ⟨Nat.le_refl _, tracks_nil d'.text⟩

theorem Tracked.finishCompilation (h : d.Tracked) : d.finishCompilation.Tracked := by
  refine ⟨h.faithful, fun future hf => ?_⟩
  obtain ⟨future', hf', rfl⟩ := map_eq_some_iff.1 hf
  exact h.pending future' hf'

theorem Tracked.apply (h : d.Tracked) {ev : Event} (hsafe : ev.Safe d) : (d.apply ev).Tracked := by
  cases ev with
  | setText t => exact .setText hsafe t
  | updateText range newText => exact h.updateText hsafe
  | startRebuild frontEndSucceeds => exact h.startRebuild frontEndSucceeds
  | finishCompilation => exact h.finishCompilation
  | tryTakeBackgroundStateUpdate => exact h.tryTake

def SafeRun : Document → List Event → Prop
  | _, [] => True
  | d, event :: events => event.Safe d ∧ SafeRun (d.apply event) events

theorem Tracked.run (h : d.Tracked) {evs : List Event}
    (hsafe : d.SafeRun evs) : (d.run evs).Tracked := by
  induction evs generalizing d with
  | nil => exact h
  | cons event evs ih => exact ih (h.apply hsafe.1) hsafe.2

/-- In every run without an unsafe event the recorded changes lead from the
compiled text to the current text. -/
theorem run_faithful (events : List Event) (hsafe : initial.SafeRun events) :
    (initial.run events).Faithful :=
  (Tracked.run (.setText rfl []) hsafe).faithful

def insertAtStart (newText : Text) : Event := .updateText ⟨⟨1, 0⟩, ⟨1, 0⟩⟩ newText

theorem run_faithful_second_rebuild :
    (initial.run [.startRebuild true, .finishCompilation, insertAtStart [0x61],
      .startRebuild true, insertAtStart [0x62], .finishCompilation,
      insertAtStart [0x63]]).Faithful := by
  refine run_faithful _ ⟨trivial, trivial, ⟨by decide, .inl (by decide +kernel)⟩, trivial,
    ⟨by decide, .inr (by decide +kernel)⟩, trivial, ⟨by decide, .inl (by decide +kernel)⟩, trivial⟩

/-- An edit made while the first compilation runs is not recorded. -/
theorem run_not_faithful_edit_during_first_rebuild :
    ¬ (initial.run [.startRebuild true, insertAtStart [0x61], .finishCompilation,
      .tryTakeBackgroundStateUpdate]).Faithful := by
  intro h
  exact absurd (h ⟨0, []⟩ [] (by decide +kernel) (by decide +kernel)) (by decide +kernel)

end Document

/-! ## Positions in the current text -/

section Positions

variable {t : List (Option UInt8)} {p q : Nat} {chgs : List TextChange}

theorem TextChange.getElem?_replay {chg : TextChange} (hlen : (chg.replay t).length < 2 ^ 32)
    (hp : p < t.length) (h : chg.mapOld p = some q) : (chg.replay t)[q]? = t[p]? := by
  rw [replay] at hlen ⊢
  rw [length_append, length_append, length_take, length_replicate, length_drop] at hlen
  rw [append_assoc]
  unfold mapOld at h
  split_ifs at h with hlt hle
  · obtain rfl := some.inj h
    rw [getElem?_append_left (by rw [length_take]; omega), getElem?_take_of_lt hlt]
  · rw [toUInt32_of_lt (n := chg.rangeStart + chg.newCount) (by omega),
      toUInt32_of_lt (by omega)] at h
    obtain rfl := some.inj h
    have hst : (t.take chg.rangeStart).length = chg.rangeStart := length_take_of_le (by omega)
    rw [getElem?_append_right (by omega), getElem?_append_right (by rw [length_replicate]; omega),
      getElem?_drop, hst, length_replicate]
    congr 1
    omega

theorem getElem?_replay (hlen : ∀ n ≤ chgs.length, (replay (chgs.take n) t).length < 2 ^ 32)
    (hp : p < t.length) (h : mapOldPositionToNewPosition chgs p = some q) :
    (replay chgs t)[q]? = t[p]? := by
  induction chgs generalizing t p with
  | nil =>
    obtain rfl := some.inj h
    rfl
  | cons chg chgs ih =>
    obtain ⟨p', hp', h⟩ := bind_eq_some_iff.1 h
    have hget := chg.getElem?_replay (hlen 1 (Nat.le_add_left 1 _)) hp hp'
    have hlt : p' < (chg.replay t).length := by
      rw [getElem?_eq_getElem hp] at hget
      exact (List.getElem?_eq_some_iff.1 hget).1
    rw [← hget]
    exact ih (fun n hn => hlen (n + 1) (Nat.succ_le_succ hn)) hlt h

theorem Tracks.getElem? {old new : Text} (h : Tracks chgs old new)
    (hlen : ∀ n ≤ chgs.length, (replay (chgs.take n) (old.map some)).length < 2 ^ 32)
    (hp : p < old.length) (hq : mapOldPositionToNewPosition chgs p = some q) :
    new[q]? = old[p]? := by
  have hget := getElem?_replay hlen (by rwa [length_map]) hq
  rw [getElem?_map, getElem?_eq_getElem hp] at hget
  obtain ⟨hlt, heq⟩ := List.getElem?_eq_some_iff.1 hget
  obtain ⟨hsame, hag⟩ := forall₂_iff_get.1 h
  have hlt' : q < new.length := hsame ▸ hlt
  have hbyte := hag q hlt hlt'
  rw [get_eq_getElem, heq] at hbyte
  rw [getElem?_eq_getElem hp, getElem?_eq_getElem hlt']
  exact (hbyte.resolve_left nofun).symm

end Positions

namespace Document

/-- In a run of safe events a position that is mapped from the compiled text to the current text is
that of the same byte there. -/
theorem run_positions {events : List Event} (hsafe : initial.SafeRun events) {s : CompiledState}
    {c : List TextChange} (hstate : (initial.run events).compiledState = some s)
    (hchanges : (initial.run events).textChangesSinceCompiledState = some c)
    (hlen : ∀ n ≤ c.length, (replay (c.take n) (s.text.map some)).length < 2 ^ 32)
    {p q : Nat} (hp : p < s.text.length) (h : mapOldPositionToNewPosition c p = some q) :
    (initial.run events).text[q]? = s.text[p]? :=
  ((Tracked.run (.setText rfl []) hsafe).faithful s c hstate hchanges).getElem? hlen hp h

theorem run_positions_insertion : (initial.run [.setText [0x62], .startRebuild true,
    .finishCompilation, insertAtStart [0x61]]).text[1]? = some 0x62 := by
  have hsafe : initial.SafeRun [.setText [0x62], .startRebuild true, .finishCompilation,
      insertAtStart [0x61]] := ⟨rfl, trivial, trivial, ⟨by decide, .inl (by decide +kernel)⟩, trivial⟩
  exact run_positions hsafe (s := ⟨0, [0x62]⟩) (c := [⟨0, 0, 1⟩]) (by decide +kernel)
    (by decide +kernel) (by decide) (p := 0) (by decide) (by decide)

end Document
end USprache.LanguageServer
