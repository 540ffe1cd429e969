import USprache.CodeBuilder.ManglerState

/-!
# Compressed names

A compressed name loses nothing: with every reference replaced by the candidate
it names, it is the full name.  The invariant says so for the whole text and,
for every holder that is alive, for the text written before it, because that
text is what remains when the holder's part turns into a reference.

The candidates are needed to read a name back: different full names may be compressed
to the same text.
-/

namespace USprache.CodeBuilder

open LexSynt List Token Option ManglerState

theorem referenceDigits_eq {i : Nat} (h : i ≤ 36 * 36 * 36) :
    ManglerState.referenceDigits i = sequenceId i := by
  rcases eq_zero_or_pos i with rfl | hpos
  · rfl
  have hn : toUInt32 (toUInt32 i + (2 ^ 32 - 1)) = i - 1 := by
    rw [toUInt32_of_lt (by omega : i < 2 ^ 32), toUInt32]
    omega
  obtain ⟨n, rfl⟩ : ∃ n, i = n + 1 := ⟨i - 1, by omega⟩
  simp only [referenceDigits, if_pos hpos, hn, Nat.add_sub_cancel, sequenceId]
  rcases eq_zero_or_pos n with rfl | hn0
  · rfl
  rw [if_neg (show n + 1 ≠ 1 by omega)]
  by_cases h1 : n < 36
  · rw [if_pos h1, Nat.digits_of_lt 36 n (by omega) h1]
    rfl
  rw [if_neg h1, Nat.digits_def' (by omega) hn0]
  by_cases h2 : n < 36 * 36
  · rw [if_pos h2, Nat.digits_of_lt 36 (n / 36) (by omega) (by omega)]
    rfl
  rw [if_neg h2, if_pos (by omega), Nat.digits_def' (by omega) (by omega : 0 < n / 36),
    Nat.digits_of_lt 36 (n / 36 / 36) (by omega) (by omega), Nat.div_div_eq_div_mul]
  rfl

namespace Token

theorem expand_append (candidates more : List Text) {t : Token}
    (h : t.InRange candidates.length) : t.expand (candidates ++ more) = t.expand candidates := by
  cases t with
  | char c => rfl
  | reference i =>
    show (candidates ++ more).getD i [] = candidates.getD i []
    rw [getD_append _ _ _ _ h]

theorem flatMap_expand_append (candidates more : List Text) {toks : List Token}
    (h : ∀ t ∈ toks, t.InRange candidates.length) :
    toks.flatMap (expand (candidates ++ more)) = toks.flatMap (expand candidates) :=
  congrArg flatten (map_congr_left (fun t ht => expand_append candidates more (h t ht)))

theorem flatMap_char (f : Token → Text) (hf : ∀ c, f (.char c) = [c]) (t : Text) :
    (t.map char).flatMap f = t := by
  induction t with
  | nil => rfl
  | cons c t ih => rw [map_cons, flatMap_cons, hf, ih, singleton_append]

theorem InRange.mono {n k : Nat} (hle : n ≤ k) {t : Token} (h : t.InRange n) : t.InRange k := by
  cases t with
  | char c => trivial
  | reference i => exact lt_of_lt_of_le h hle

end Token

namespace ManglerState

def SpansInside (s : ManglerState) : Prop :=
  ∀ sub ∈ s.substitutions, sub.start + sub.size ≤ s.resultFull.length

theorem length_candidates (s : ManglerState) : s.candidates.length = s.substitutions.length :=
  length_map _

variable {s : ManglerState} {holder : NodeHolder}

theorem candidates_push (h : s.SpansInside) (n : Text) : (s.push n).candidates = s.candidates := by
  refine map_congr_left (fun sub hsub => ?_)
  have hspan := h sub hsub
  show ((s.resultFull ++ n).drop sub.start).take sub.size =
    (s.resultFull.drop sub.start).take sub.size
  rw [drop_append_of_le_length (by omega), take_append_of_le_length]
  rw [length_drop]
  omega

theorem part_to_end (s : ManglerState) (st : Nat) :
    s.part st (s.resultFull.length - st) = s.resultFull.drop st := by
  rw [part, ← length_drop, take_length]

/-- The pieces are those of the compressed text and they expand to the full
text. -/
structure Lossless (s : ManglerState) : Prop where
  rendered : s.rendered = s.resultCompressed
  decompressed : s.decompressed = s.resultFull
  inRange : ∀ t ∈ s.emitted, t.InRange s.substitutions.length
  spansInside : s.SpansInside

/-- What a holder remembers is a point at which the name was lossless. -/
structure Marks (s : ManglerState) (holder : NodeHolder) : Prop where
  start_le : holder.start ≤ s.resultFull.length
  emittedStart_le : holder.emittedStart ≤ s.emitted.length
  rendered : (s.emitted.take holder.emittedStart).flatMap render =
    s.resultCompressed.take holder.compressedStart
  compressedStart_le : holder.compressedStart ≤ s.resultCompressed.length
  decompressed : (s.emitted.take holder.emittedStart).flatMap (expand s.candidates) =
    s.resultFull.take holder.start

theorem lossless_empty : Lossless {} where
  rendered := rfl
  decompressed := rfl
  inRange := by simp
  spansInside := by simp [SpansInside]

theorem Lossless.push (h : s.Lossless) (n : Text) : (s.push n).Lossless where
  rendered := by
    show (s.emitted ++ n.map char).flatMap render = s.resultCompressed ++ n
    rw [flatMap_append, flatMap_char _ (fun _ => rfl), ← h.rendered]
    rfl
  decompressed := by
    show (s.emitted ++ n.map char).flatMap (expand (s.push n).candidates) = s.resultFull ++ n
    rw [candidates_push h.spansInside, flatMap_append, flatMap_char _ (fun _ => rfl),
      ← h.decompressed]
    rfl
  inRange := by
    intro t ht
    rcases mem_append.1 ht with hold | hnew
    · exact h.inRange t hold
    · obtain ⟨c, -, rfl⟩ := mem_map.1 hnew
      trivial
  spansInside := by
    intro sub hsub
    have := h.spansInside sub hsub
    show sub.start + sub.size ≤ (s.resultFull ++ n).length
    rw [length_append]
    omega

theorem Marks.push (h : s.Marks holder)
    (hs : s.SpansInside) (n : Text) : (s.push n).Marks holder where
  start_le := by
    show _ ≤ (s.resultFull ++ n).length
    rw [length_append]
    exact Nat.le_add_right_of_le h.start_le
  emittedStart_le := by
    show _ ≤ (s.emitted ++ n.map char).length
    rw [length_append]
    exact Nat.le_add_right_of_le h.emittedStart_le
  rendered := by
    show ((s.emitted ++ n.map char).take _).flatMap _ = (s.resultCompressed ++ n).take _
    rw [take_append_of_le_length h.emittedStart_le, take_append_of_le_length h.compressedStart_le]
    exact h.rendered
  compressedStart_le := by
    show _ ≤ (s.resultCompressed ++ n).length
    rw [length_append]
    exact Nat.le_add_right_of_le h.compressedStart_le
  decompressed := by
    show ((s.emitted ++ n.map char).take _).flatMap _ = (s.resultFull ++ n).take _
    rw [candidates_push hs, take_append_of_le_length h.emittedStart_le,
      take_append_of_le_length h.start_le]
    exact h.decompressed

theorem Lossless.marks_openNode (h : s.Lossless)
    (hfu : s.resultFull.length < 2 ^ 16) (hcom : s.resultCompressed.length < 2 ^ 16) :
    s.Marks s.openNode := by
  have hst : s.openNode.start = s.resultFull.length := lenType_of_lt hfu
  have hcst : s.openNode.compressedStart = s.resultCompressed.length := lenType_of_lt hcom
  have hest : s.openNode.emittedStart = s.emitted.length := rfl
  constructor
  · exact hst.le
  · exact hest.le
  · rw [hest, hcst, take_length, take_length]
    exact h.rendered
  · exact hcst.le
  · rw [hest, hst, take_length, take_length]
    exact h.decompressed

/-- The two things the end of a part can do: write a reference to an equal
candidate, or register the part. -/
theorem finalizePart_cases (hm : s.Marks holder) (hfu : s.resultFull.length < 2 ^ 16)
    (hc : s.substitutions.length ≤ 36 * 36 * 36 + 1) :
    (∃ i, i < s.substitutions.length ∧ s.candidates.getD i [] = s.resultFull.drop holder.start ∧
      s.finalizePart holder = { s with
          resultCompressed := s.resultCompressed.take holder.compressedStart ++ referenceText i
          emitted := s.emitted.take holder.emittedStart ++ [.reference i] }) ∨
    s.finalizePart holder = { s with
        substitutions :=
          s.substitutions ++ [⟨holder.start, s.resultFull.length - holder.start⟩] } := by
  have hsz : lenType (s.resultFull.length - holder.start) =
      s.resultFull.length - holder.start := lenType_of_lt (by omega)
  unfold finalizePart
  simp only [hsz, part_to_end]
  split
  · rename_i i hfd
    left
    obtain ⟨hi, heq, -⟩ := findIdx?_eq_some_iff_getElem.1 hfd
    refine ⟨i, hi, ?_, ?_⟩
    · rw [getD_eq_getElem _ _ (by rwa [length_candidates])]
      simpa [candidates] using (beq_iff_eq.1 heq).symm
    · have hpad : holder.compressedStart - s.resultCompressed.length = 0 :=
        Nat.sub_eq_zero_of_le hm.compressedStart_le
      simp only [resize, hpad, replicate_zero, referenceText,
        referenceDigits_eq (show i ≤ 36 * 36 * 36 by omega), append_assoc,
        cons_append, nil_append]
  · right
    rfl

/-- The part is replaced by a reference and what was written before it stays. -/
theorem Lossless.finalizePart (h : s.Lossless)
    (hm : s.Marks holder) (hfu : s.resultFull.length < 2 ^ 16)
    (hc : s.substitutions.length ≤ 36 * 36 * 36 + 1) : (s.finalizePart holder).Lossless := by
  rcases finalizePart_cases hm hfu hc with ⟨i, hi, hcan, hs⟩ | hs
  · rw [hs]
    constructor
    · show (s.emitted.take holder.emittedStart ++ [reference i]).flatMap render = _
      rw [flatMap_append, hm.rendered, flatMap_singleton]
      rfl
    · show (s.emitted.take holder.emittedStart ++ [reference i]).flatMap
          (expand s.candidates) = s.resultFull
      rw [flatMap_append, hm.decompressed, flatMap_singleton]
      show s.resultFull.take holder.start ++ s.candidates.getD i [] = _
      rw [hcan, take_append_drop]
    · intro t ht
      rcases mem_append.1 ht with hold | hnew
      · exact h.inRange t (mem_of_mem_take hold)
      · rw [mem_singleton.1 hnew]
        exact hi
    · exact h.spansInside
  · rw [hs]
    constructor
    · exact h.rendered
    · refine Eq.trans ?_ h.decompressed
      show s.emitted.flatMap (expand (map _ (s.substitutions ++ [_]))) = _
      rw [map_append]
      exact flatMap_expand_append s.candidates _
        (fun t ht => by rw [length_candidates]; exact h.inRange t ht)
    · intro t ht
      refine (h.inRange t ht).mono ?_
      show _ ≤ (s.substitutions ++ [_]).length
      rw [length_append]
      exact Nat.le_add_right _ _
    · intro sub hsub
      rcases mem_append.1 hsub with hold | hnew
      · exact h.spansInside sub hold
      · have hle := hm.start_le
        rw [mem_singleton.1 hnew]
        show holder.start + (s.resultFull.length - holder.start) ≤ s.resultFull.length
        omega

theorem Marks.finalizePart {outer : NodeHolder} (h : s.Lossless)
    (hm : s.Marks holder) (ho : s.Marks outer)
    (hle : outer.emittedStart ≤ holder.emittedStart)
    (hcle : outer.compressedStart ≤ holder.compressedStart)
    (hfu : s.resultFull.length < 2 ^ 16)
    (hc : s.substitutions.length ≤ 36 * 36 * 36 + 1) :
    (s.finalizePart holder).Marks outer := by
  have hcs := hm.compressedStart_le
  have hes := hm.emittedStart_le
  have htk : (s.emitted.take holder.emittedStart).take outer.emittedStart =
      s.emitted.take outer.emittedStart := by
    rw [take_take, min_eq_left hle]
  rcases finalizePart_cases hm hfu hc with ⟨i, hi, -, hs⟩ | hs
  · have hemi : (s.emitted.take holder.emittedStart ++ [reference i]).take
        outer.emittedStart = s.emitted.take outer.emittedStart := by
      rw [take_append_of_le_length (by rw [length_take]; omega), htk]
    rw [hs]
    constructor
    · exact ho.start_le
    · show _ ≤ (s.emitted.take holder.emittedStart ++ [reference i]).length
      rw [length_append, length_take]
      omega
    · show ((s.emitted.take holder.emittedStart ++ [reference i]).take _).flatMap _ =
        (s.resultCompressed.take holder.compressedStart ++ referenceText i).take _
      rw [hemi, take_append_of_le_length (by rw [length_take]; omega),
        take_take, min_eq_left hcle]
      exact ho.rendered
    · show _ ≤ (s.resultCompressed.take holder.compressedStart ++ referenceText i).length
      rw [length_append, length_take]
      omega
    · show ((s.emitted.take holder.emittedStart ++ [reference i]).take _).flatMap _ = _
      rw [hemi]
      exact ho.decompressed
  · rw [hs]
    constructor
    · exact ho.start_le
    · exact ho.emittedStart_le
    · exact ho.rendered
    · exact ho.compressedStart_le
    · refine Eq.trans ?_ ho.decompressed
      show (s.emitted.take outer.emittedStart).flatMap
        (expand (map _ (s.substitutions ++ [_]))) = _
      rw [map_append]
      exact flatMap_expand_append s.candidates _ (fun t ht => by
        rw [length_candidates]
        exact h.inRange t (mem_of_mem_take ht))

end ManglerState

namespace Mangling

structure Invariant (m : Mangling) : Prop where
  lossless : m.state.Lossless
  marks : ∀ holder ∈ m.holders, m.state.Marks holder
  /-- An inner holder was created later than those around it. -/
  nested : m.holders.Pairwise (fun inner outer =>
    outer.emittedStart ≤ inner.emittedStart ∧ outer.compressedStart ≤ inner.compressedStart)

theorem invariant_start : Invariant {} where
  lossless := lossless_empty
  marks := by simp
  nested := .nil

variable {m : Mangling}

theorem Invariant.push (h : m.Invariant) (n : Text) :
    Invariant { m with state := m.state.push n } where
  lossless := h.lossless.push n
  marks := fun holder hmem => (h.marks holder hmem).push h.lossless.spansInside n
  nested := h.nested

theorem Invariant.openNode (h : m.Invariant) (hfit : m.Fits) :
    Invariant { m with holders := m.state.openNode :: m.holders } where
  lossless := h.lossless
  marks := by
    intro holder hmem
    rcases mem_cons.1 hmem with rfl | hmem
    · exact h.lossless.marks_openNode hfit.1 hfit.2.1
    · exact h.marks holder hmem
  nested := by
    refine .cons (fun outer hmem => ⟨?_, ?_⟩) h.nested
    · exact (h.marks outer hmem).emittedStart_le
    · show outer.compressedStart ≤ lenType m.state.resultCompressed.length
      rw [lenType_of_lt hfit.2.1]
      exact (h.marks outer hmem).compressedStart_le

theorem Invariant.closeNode {s : ManglerState} {holder : NodeHolder} {holders : List NodeHolder}
    (h : Invariant ⟨s, holder :: holders⟩) (hfit : Fits ⟨s, holder :: holders⟩) :
    Invariant ⟨s.finalizePart holder, holders⟩ := by
  have hm : s.Marks holder := h.marks holder mem_cons_self
  obtain ⟨hin, hnes⟩ := pairwise_cons.1 h.nested
  constructor
  · exact h.lossless.finalizePart hm hfit.1 hfit.2.2
  · intro outer hmem
    have ho : s.Marks outer := h.marks outer (mem_cons_of_mem _ hmem)
    exact ManglerState.Marks.finalizePart h.lossless hm ho (hin outer hmem).1
      (hin outer hmem).2 hfit.1 hfit.2.2
  · exact hnes

theorem Invariant.step {m' : Mangling} {cl : ManglerCall} (h : m.Invariant) (hfit : m.Fits)
    (hst : m.step cl = some m') : m'.Invariant := by
  cases cl with
  | pushChar c =>
    cases hst
    exact h.push [c]
  | push n =>
    cases hst
    exact h.push n
  | pushLengthPrefixed n =>
    cases hst
    exact (h.push (decimal n.length)).push n
  | openNode =>
    cases hst
    exact h.openNode hfit
  | closeNode =>
    obtain ⟨s, holders⟩ := m
    cases holders with
    | nil => cases hst
    | cons holder holders =>
      cases hst
      exact h.closeNode hfit
  | takeResult =>
    obtain ⟨s, holders⟩ := m
    cases holders with
    | nil =>
      cases hst
      exact invariant_start
    | cons holder holders => cases hst

theorem Invariant.run {m' : Mangling} {cs : List ManglerCall} (h : m.Invariant)
    (hfit : m.FitsAlong cs) (hrun : m.run cs = some m') : m'.Invariant := by
  induction cs generalizing m with
  | nil =>
    cases hrun
    exact h
  | cons call cs ih =>
    obtain ⟨next, hst, hrs⟩ := bind_eq_some_iff.1 hrun
    exact ih (h.step hfit.1 hst) (hfit.2 next hst) hrs

/-- A compressed name with its references replaced by their candidates is the
full name, so names with the same pieces and the same candidates have the same
full name. -/
theorem run_decompressed {calls : List ManglerCall} {m : Mangling}
    (hrun : run {} calls = some m) (hfits : FitsAlong {} calls) :
    m.state.rendered = m.state.resultCompressed ∧
    m.state.decompressed = m.state.resultFull ∧
    ∀ (calls' : List ManglerCall) (m' : Mangling), run {} calls' = some m' → FitsAlong {} calls' →
      m'.state.emitted = m.state.emitted → m'.state.candidates = m.state.candidates →
      m'.state.resultFull = m.state.resultFull := by
  have h : m.Invariant := invariant_start.run hfits hrun
  refine ⟨h.lossless.rendered, h.lossless.decompressed, ?_⟩
  intro calls' m' hrun' hfits' hemitted hcandidates
  have h' : m'.Invariant := invariant_start.run hfits' hrun'
  rw [← h.lossless.decompressed, ← h'.lossless.decompressed, decompressed,
    decompressed, hemitted, hcandidates]

/-- The calls `{ 1a } { 1b } { 1a }`, with braces for nodes. -/
def callsOfTwoNames : List ManglerCall := [.openNode, .pushLengthPrefixed [ascii 'a'], .closeNode,
    .openNode, .pushLengthPrefixed [ascii 'b'], .closeNode,
    .openNode, .pushLengthPrefixed [ascii 'a'], .closeNode]

def callsOfOneName : List ManglerCall :=
  [.openNode, .pushLengthPrefixed [ascii 'a'], .pushLengthPrefixed [ascii 'b'], .closeNode,
    .openNode, .pushLengthPrefixed [ascii 'a'], .pushLengthPrefixed [ascii 'b'], .closeNode]

theorem run_decompressed_two_names :
    ∃ m, run {} callsOfTwoNames = some m ∧ FitsAlong {} callsOfTwoNames ∧
      m.state.emitted = "1a1b".toList.map (fun c => Token.char (ascii c)) ++ [.reference 0] ∧
      m.state.rendered = m.state.resultCompressed ∧
      m.state.decompressed = m.state.resultFull := by
  obtain ⟨m, hrun⟩ : ∃ m, run {} callsOfTwoNames = some m :=
    isSome_iff_exists.1 (by decide +kernel)
  have hfits : FitsAlong {} callsOfTwoNames := by decide +kernel
  have hemitted : (run {} callsOfTwoNames).map (fun m => m.state.emitted) =
      some ("1a1b".toList.map (fun c => char (ascii c)) ++ [.reference 0]) := by
    decide +kernel
  rw [hrun] at hemitted
  have h := run_decompressed hrun hfits
  exact ⟨m, hrun, hfits, some.inj hemitted, h.1, h.2.1⟩

/-- Both names are compressed to `1a1bS_`, and the full names are `1a1b1a` and
`1a1b1a1b`. -/
theorem compressed_not_injective : ¬ ∀ (calls calls' : List ManglerCall) (m m' : Mangling),
    run {} calls = some m → run {} calls' = some m' →
    m.state.resultCompressed = m'.state.resultCompressed →
    m.state.resultFull = m'.state.resultFull := by
  intro h
  obtain ⟨m, hrun⟩ : ∃ m, run {} callsOfTwoNames = some m :=
    isSome_iff_exists.1 (by decide +kernel)
  obtain ⟨m', hrun'⟩ : ∃ m', run {} callsOfOneName = some m' :=
    isSome_iff_exists.1 (by decide +kernel)
  have hcompressed : (run {} callsOfTwoNames).map (fun m => m.state.resultCompressed) =
      (run {} callsOfOneName).map (fun m => m.state.resultCompressed) := by decide +kernel
  have hfull : (run {} callsOfTwoNames).map (fun m => m.state.resultFull) ≠
      (run {} callsOfOneName).map (fun m => m.state.resultFull) := by decide +kernel
  rw [hrun, hrun'] at hcompressed hfull
  exact hfull (congrArg some (h _ _ m m' hrun hrun' (some.inj hcompressed)))

end Mangling
end USprache.CodeBuilder
