import Mathlib.Algebra.BigOperators.Fin
import USprache.Library.PointUpdate
import USprache.Ustlib.VectorRefinement

/-!
# Programs with vectors

A program has any number of vectors and calls their methods in any order.  Next to it runs
the same program with lists.  As long as no size overflows and no capacity is doubled for
ever, the vectors have the contents of the lists, and every object that was ever stored is
in one place of one vector, was destroyed once or was handed out once.
-/

namespace USprache.Ustlib.Vector

open List Function Option

open Library (Meets sum_update_add)

structure World (n : Nat) (α : Type) where
  vectors : Fin n → Vector α
  history : History α

def World.start {n : Nat} {α : Type} : World n α :=
  { vectors := fun _ => empty, history := History.start }

/-- The calls of a program.  The references that a method takes are never to the vector itself.
The elements of a range are given by their values. -/
inductive Operation (L : ElementLayout) (n : Nat) (α : Type)
  | pushBack (i : Fin n) (value : α)
  | pushBackMany (i : Fin n) (count : SizeType L) (value : α)
  | appendCopy (i : Fin n) (range : List α)
  | appendFromOther (i j : Fin n) (h : i ≠ j)
  | appendFromIterator (i : Fin n) (values : List α)
  | popBack (i : Fin n)
  | dropBack (i : Fin n)
  | dropBackMany (i : Fin n) (count : SizeType L)
  | resize (i : Fin n) (newSize : SizeType L) (value : α)
  /-- The vector `i` is destroyed, and a new one takes its place. -/
  | construct (i : Fin n) (count : SizeType L) (value : α)
  /-- The vector `i` is destroyed, and a copy of the vector `j` takes its place. -/
  | copy (i j : Fin n) (h : i ≠ j)
  | copyAssign (i j : Fin n) (h : i ≠ j)
  | clear (i : Fin n)
  | shrinkToFit (i : Fin n)
  | swap (i : Fin n) (i0 i1 : SizeType L)
  | removeAdjacentDuplicates (i : Fin n) (eq : α → α → Bool)
  | retain (i : Fin n) (func : α → Bool)

variable {α : Type} {n : Nat} (L : ElementLayout) (w : World n α)

def World.modify (i : Fin n)
    (method : Vector α → History α → Except Stop (Vector α × History α)) :
    Except Stop (World n α) := do
  let (v, h) ← method (w.vectors i) w.history
  .ok { vectors := Function.update w.vectors i v, history := h }

def World.step : Operation L n α → Except Stop (World n α)
  | .pushBack i value => w.modify i fun v h => v.pushBack L h value
  | .pushBackMany i count value => w.modify i fun v h => v.pushBackMany L h count value
  | .appendCopy i range => w.modify i fun v h => v.appendCopy L h range
  | .appendFromOther i j _ => do
    let (v, other, h) ← (w.vectors i).appendFromOther L w.history (w.vectors j)
    .ok { vectors := Function.update (Function.update w.vectors i v) j other, history := h }
  | .appendFromIterator i values => w.modify i fun v h => v.appendFromIterator L h values
  | .popBack i => w.modify i fun v h => v.popBack L h
  | .dropBack i => w.modify i fun v h => v.dropBack L h
  | .dropBackMany i count => w.modify i fun v h => v.dropBackMany L h count
  | .resize i newSize value => w.modify i fun v h => v.resize L h newSize value
  | .construct i count value => w.modify i fun v h => do
    let h ← v.destructor L h
    Vector.construct L h (replicate count value)
  | .copy i j _ => w.modify i fun v h => do
    let h ← v.destructor L h
    copyConstruct L h (w.vectors j)
  | .copyAssign i j _ => w.modify i fun v h => v.copyAssign L h (w.vectors j)
  | .clear i => w.modify i fun v h => v.clear L h
  | .shrinkToFit i => w.modify i fun v h => v.shrinkToFit L h
  | .swap i i0 i1 => w.modify i fun v h => do
    let v ← v.swap L i0 i1
    .ok (v, h)
  | .removeAdjacentDuplicates i eq => w.modify i fun v h => v.removeAdjacentDuplicates L eq h
  | .retain i func => w.modify i fun v h => v.retain L func h

def World.run (w : World n α) : List (Operation L n α) → Except Stop (World n α)
  | [] => .ok w
  | operation :: operations => do
    let w ← w.step L operation
    run w operations

structure Lists (n : Nat) (α : Type) where
  lists : Fin n → List α
  handedOut : List α

def Lists.start : Lists n α := { lists := fun _ => [], handedOut := [] }

variable (a : Lists n α)

def Lists.set (i : Fin n) (values : List α) : Lists n α :=
  { a with lists := Function.update a.lists i values }

variable {L} in
def Lists.step : Operation L n α → Option (Lists n α)
  | .pushBack i value => some (a.set i (a.lists i ++ [value]))
  | .pushBackMany i count value => some (a.set i (a.lists i ++ replicate count value))
  | .appendCopy i range => some (a.set i (a.lists i ++ range))
  | .appendFromOther i j _ => some ((a.set i (a.lists i ++ a.lists j)).set j [])
  | .appendFromIterator i values => some (a.set i (a.lists i ++ values))
  | .popBack i =>
    match (a.lists i).getLast? with
    | none => none
    | some last =>
      some { a.set i (a.lists i).dropLast with handedOut := a.handedOut ++ [last] }
  | .dropBack i => if (a.lists i).isEmpty then none else some (a.set i (a.lists i).dropLast)
  | .dropBackMany i count =>
    if (a.lists i).length < count then none
    else some (a.set i ((a.lists i).take ((a.lists i).length - count)))
  | .resize i newSize value => some (a.set i (resizedList (a.lists i) newSize value))
  | .construct i count value => some (a.set i (replicate count value))
  | .copy i j _ => some (a.set i (a.lists j))
  | .copyAssign i j _ => some (a.set i (a.lists j))
  | .clear i => some (a.set i [])
  | .shrinkToFit _ => some a
  | .swap i i0 i1 =>
    match (a.lists i)[i0.val]?, (a.lists i)[i1.val]? with
    | some value0, some value1 => some (a.set i (((a.lists i).set i0 value1).set i1 value0))
    | _, _ => none
  -- The first of every run of equal elements is kept.
  | .removeAdjacentDuplicates i eq =>
    some (a.set i ((a.lists i).destutter (fun kept value => eq value kept = false)))
  | .retain i func => some (a.set i ((a.lists i).filter func))

variable {L} in
def Lists.run (a : Lists n α) : List (Operation L n α) → Option (Lists n α)
  | [] => some a
  | operation :: operations => (a.step operation).bind (run · operations)

/-- The calls that the code can carry out if there is memory: no size is `0` again after
`push_back`, and no capacity is doubled for ever. -/
def Admissible : Operation L n α → Prop
  | .pushBack i _ => PushesFit L (w.vectors i).capacity (w.vectors i).size 1
  | .appendFromIterator i values =>
    PushesFit L (w.vectors i).capacity (w.vectors i).size values.length
  | .pushBackMany i count _ => (w.vectors i).size + count < 2 ^ L.sizeTypeBits →
    Grows L (w.vectors i).capacity ((w.vectors i).size + count)
  | .appendCopy i range => (w.vectors i).size + range.length < 2 ^ L.sizeTypeBits →
    Grows L (w.vectors i).capacity ((w.vectors i).size + range.length)
  | .appendFromOther i j _ => (w.vectors i).size + (w.vectors j).size < 2 ^ L.sizeTypeBits →
    Grows L (w.vectors i).capacity ((w.vectors i).size + (w.vectors j).size)
  | .resize i newSize _ => Grows L (w.vectors i).capacity newSize
  | _ => True

def RunAdmissible (w : World n α) : List (Operation L n α) → Prop
  | [] => True
  | operation :: operations =>
    Admissible L w operation ∧ ∀ w', w.step L operation = .ok w' → RunAdmissible w' operations

/-- The vectors have the contents of the lists, in the objects `objects`.  Every object that was
ever stored is counted once: in a vector, among the destroyed ones or among the ones that
were handed out. -/
structure Refines (objects : Fin n → List (Object α)) : Prop where
  represents : ∀ i, (w.vectors i).Represents L (objects i)
  values : ∀ i, (objects i).map (·.value) = a.lists i
  handedOut : w.history.handedOut.map (·.value) = a.handedOut
  accounted : ∑ i, ids (objects i) + released w.history = Multiset.range w.history.stored

theorem start_refines : Refines L (World.start : World n α) Lists.start fun _ => [] where
  represents _ := empty_represents
  values _ := rfl
  handedOut := rfl
  accounted := by
    simp only [ids, map_nil, Multiset.coe_nil, Finset.sum_const_zero]
    rfl

variable {L} {w} {a} {objects : Fin n → List (Object α)}

variable (hw : Refines L w a objects)

include hw

variable {vs : List α}

theorem Refines.modify {i : Fin n} {handed : List α}
    {mth : Vector α → History α → Except Stop (Vector α × History α)}
    (hmet : Returns (mth (w.vectors i) w.history) (Becomes L w.history (objects i) vs handed)) :
    Returns (w.modify i mth) fun w' =>
      ∃ objs', Refines L w' { a.set i vs with handedOut := a.handedOut ++ handed } objs' := by
  refine .bind hmet ?_
  rintro ⟨v, h⟩ ⟨new, hv, hvs, hbal, hhan⟩
  refine ⟨update objects i new, ?_, ?_, ?_, ?_⟩
  · intro j
    by_cases hj : j = i
    · subst hj
      simpa only [update_self] using hv
    · simpa only [update_of_ne hj] using hw.represents j
  · intro j
    by_cases hj : j = i
    · subst hj
      simpa only [Lists.set, update_self] using hvs
    · simpa only [Lists.set, update_of_ne hj] using hw.values j
  · exact hhan.trans (by rw [hw.handedOut])
  · have hsum := sum_update_add ids objects i new
    have hacc := hw.accounted
    apply add_right_cancel (b := Multiset.range w.history.stored + ids (objects i))
    calc ∑ j, ids (update objects i new j) + released h +
          (Multiset.range w.history.stored + ids (objects i))
        = (∑ j, ids (update objects i new j) + ids (objects i)) + released h +
            Multiset.range w.history.stored := by ac_rfl
      _ = ∑ j, ids (objects j) + (ids new + released h + Multiset.range w.history.stored) := by
          rw [hsum]
          ac_rfl
      _ = ∑ j, ids (objects j) + released w.history + (Multiset.range h.stored + ids (objects i)) := by
          rw [hbal]
          ac_rfl
      _ = Multiset.range h.stored + (Multiset.range w.history.stored + ids (objects i)) := by
          rw [hacc]
          ac_rfl

theorem Refines.modify_keep (i : Fin n)
    (mth : Vector α → History α → Except Stop (Vector α × History α))
    (hmet : Returns (mth (w.vectors i) w.history) (Becomes L w.history (objects i) vs [])) :
    Returns (w.modify i mth) fun w' => ∃ objs', Refines L w' (a.set i vs) objs' := by
  have h := hw.modify hmet
  rwa [append_nil] at h

theorem Refines.appendFromOther {i j : Fin n} (hij : i ≠ j)
    (hgr : (w.vectors i).size + (w.vectors j).size < 2 ^ L.sizeTypeBits →
      Grows L (w.vectors i).capacity ((w.vectors i).size + (w.vectors j).size)) :
    Returns (w.step L (.appendFromOther i j hij)) fun w' => ∃ objs',
      Refines L w' ((a.set i (a.lists i ++ a.lists j)).set j []) objs' := by
  refine .bind ((hw.represents i).appendFromOther (hw.represents j) hgr) ?_
  rintro ⟨v, other, _⟩ ⟨hv, ho, m, rfl⟩
  refine ⟨update (update objects i (objects i ++ objects j)) j [], ?_, ?_,
    hw.handedOut, ?_⟩
  · intro k
    by_cases hkj : k = j
    · subst hkj
      simpa only [update_self] using ho
    · by_cases hki : k = i
      · subst hki
        simpa only [update_of_ne hkj, update_self] using hv
      · simpa only [update_of_ne hkj, update_of_ne hki] using hw.represents k
  · intro k
    by_cases hkj : k = j
    · subst hkj
      simp only [Lists.set, update_self, map_nil]
    · by_cases hki : k = i
      · subst hki
        simp only [Lists.set, update_of_ne hkj, update_self, map_append, hw.values]
      · simpa only [Lists.set, update_of_ne hkj, update_of_ne hki] using hw.values k
  · have hi := sum_update_add ids objects i (objects i ++ objects j)
    have hj := sum_update_add ids (update objects i (objects i ++ objects j)) j []
    rw [update_of_ne hij.symm] at hj
    have he : ids ([] : List (Object α)) = 0 := rfl
    rw [he, add_zero] at hj
    have hsum : ∑ k, ids (update (update objects i (objects i ++ objects j)) j [] k)
        = ∑ k, ids (objects k) := by
      apply add_right_cancel (b := ids (objects i) + ids (objects j))
      rw [← ids_append, ← hi, ← hj, ids_append]
      ac_rfl
    rw [hsum]
    exact hw.accounted

theorem Refines.replace {i : Fin n} {make : History α → Except Stop (Vector α × History α)}
    (hmake : ∀ h, Returns (make h) (Becomes L h [] vs [])) :
    Returns (w.modify i fun v h => do
      let h ← v.destructor L h
      make h) fun w' => ∃ objs', Refines L w' (a.set i vs) objs' := by
  refine hw.modify_keep i _ ?_
  rw [(hw.represents i).destructor]
  refine (hmake _).mono ?_
  intro result hres
  have hgone : Balanced w.history (objects i)
      { w.history with destroyed := w.history.destroyed ++ objects i } [] :=
    balanced_destroyed (.refl _)
  exact Becomes.trans hgone (append_nil _).symm hres

theorem Refines.step (op : Operation L n α)
    (hadm : Admissible L w op) :
    Follows (w.step L op) (a.step op) fun a' w' =>
      ∃ objs', Refines L w' a' objs' := by
  obtain ⟨lists, handed⟩ := a
  obtain rfl : (fun i => (objects i).map (·.value)) = lists := funext hw.values
  cases op with
  | pushBack i value =>
    obtain ⟨hnew, capacity, hens, -⟩ := hadm
    exact hw.modify_keep i (·.pushBack L · value)
      (((hw.represents i).pushBack value hnew hens).mono fun _ h => h.1)
  | pushBackMany i c value =>
    exact hw.modify_keep i (·.pushBackMany L · c value) ((hw.represents i).pushBackMany c value hadm)
  | appendCopy i r => exact hw.modify_keep i (·.appendCopy L · r) ((hw.represents i).appendCopy r hadm)
  | appendFromOther i j hij => exact hw.appendFromOther hij hadm
  | appendFromIterator i vs =>
    exact hw.modify_keep i (·.appendFromIterator L · vs) ((hw.represents i).appendFromIterator vs hadm)
  | popBack i =>
    have hi := hw.represents i
    by_cases hne : objects i = []
    · have hsz : (w.vectors i).size = 0 := by rw [hi.size_eq, hne, length_nil]
      simp only [Lists.step, hne, map_nil, getLast?_nil]
      refine .inl ?_
      rw [World.step, World.modify, Vector.popBack, if_pos hsz]
      rfl
    · simp only [Lists.step, getLast?_map, getLast?_eq_getLast_of_ne_nil hne, map_some]
      exact hw.modify (hi.popBack hne)
  | dropBack i =>
    have hi := hw.represents i
    by_cases hne : objects i = []
    · have hsz : (w.vectors i).size = 0 := by rw [hi.size_eq, hne, length_nil]
      simp only [Lists.step, hne, map_nil]
      refine .inl ?_
      rw [World.step, World.modify, Vector.dropBack, if_pos hsz]
      rfl
    · simp only [Lists.step, isEmpty_map, isEmpty_eq_false_iff.2 hne]
      exact hw.modify_keep i _ (hi.dropBack hne)
  | dropBackMany i c =>
    have hi := hw.represents i
    simp only [Lists.step, length_map]
    split
    · rename_i hlt
      refine .inl ?_
      rw [World.step, World.modify, Vector.dropBackMany, if_pos (by rw [hi.size_eq]; exact hlt)]
      rfl
    · exact hw.modify_keep i (·.dropBackMany L · c) (hi.dropBackMany (Nat.not_lt.1 ‹_›))
  | resize i newSz value =>
    exact hw.modify_keep i (·.resize L · newSz value) ((hw.represents i).resize value newSz.isLt hadm)
  | construct i c value =>
    exact hw.replace fun _ => construct_returns _ (by rw [length_replicate]; exact c.isLt)
  | copy i j hij => exact hw.replace fun _ => (hw.represents j).copyConstruct
  | copyAssign i j hij =>
    exact hw.modify_keep i (·.copyAssign L · _) ((hw.represents i).copyAssign (hw.represents j))
  | clear i => exact hw.modify_keep i _ (hw.represents i).clear
  | shrinkToFit i =>
    have hshr := hw.modify_keep i (fun v h => v.shrinkToFit L h) (hw.represents i).shrinkToFit
    rw [Lists.set, update_eq_self] at hshr
    exact hshr
  | swap i i0 i1 =>
    have hi := hw.represents i
    by_cases h0 : i0 < (objects i).length
    · by_cases h1 : i1 < (objects i).length
      · obtain ⟨v', hswap, hv'⟩ := hi.swap h0 h1
        simp only [Lists.step, getElem?_map, getElem?_eq_getElem h0, getElem?_eq_getElem h1,
          map_some]
        refine hw.modify_keep i (fun v h => do
          let v ← v.swap L i0 i1
          .ok (v, h)) ?_
        rw [hswap]
        refine ⟨_, hv', ?_, ?_, (append_nil _).symm⟩
        · rw [map_set, map_set]
        · rw [Balanced, ids_perm (set_set_perm h0 h1)]
      · simp only [Lists.step, getElem?_map, getElem?_eq_getElem h0,
          getElem?_eq_none (Nat.not_lt.1 h1)]
        refine .inl ?_
        rw [World.step, World.modify, Vector.swap, if_neg (by rw [hi.size_eq]; omega),
          if_pos (by rw [hi.size_eq]; omega)]
        rfl
    · simp only [Lists.step, getElem?_map, getElem?_eq_none (Nat.not_lt.1 h0), map_none]
      refine .inl ?_
      rw [World.step, World.modify, Vector.swap, if_pos (by rw [hi.size_eq]; omega)]
      rfl
  | removeAdjacentDuplicates i eq =>
    exact hw.modify_keep i (·.removeAdjacentDuplicates L eq ·)
      ((hw.represents i).removeAdjacentDuplicates eq)
  | retain i f => exact hw.modify_keep i (·.retain L f ·) ((hw.represents i).retain f)

omit hw

/-- Every run of a program with vectors whose calls are all admissible follows the program with
lists: it halts if that one halts, and the vectors refine the lists otherwise. -/
theorem run_refines (operations : List (Operation L n α))
    (hadm : RunAdmissible L World.start operations) :
    Follows (World.start.run L operations) (Lists.start.run operations) fun a w =>
      ∃ objects, Refines L w a objects := by
  suffices h : ∀ (w : World n α) (a : Lists n α) objects, Refines L w a objects →
      RunAdmissible L w operations →
      Follows (w.run L operations) (a.run operations) fun a w => ∃ objects, Refines L w a objects by
    exact h _ _ _ (start_refines L) hadm
  clear hadm
  induction operations with
  | nil =>
    intro w a objects hw _
    exact ⟨objects, hw⟩
  | cons operation operations ih =>
    intro w a objects hw hadm
    refine (hw.step operation hadm.1).bind ?_
    rintro a' w' hw' ⟨objects', hrefines⟩
    exact ih w' a' objects' hrefines (hadm.2 w' hw')

/-- A push and a pop of a number, with memory at hand. -/
theorem run_refines_push_pop :
    Follows (World.start.run ⟨true, 4, fun _ _ => true⟩ [.pushBack (0 : Fin 1) 7, .popBack 0])
      (Lists.start.run
        ([.pushBack 0 7, .popBack 0] : List (Operation ⟨true, 4, fun _ _ => true⟩ 1 Nat)))
      fun a w => ∃ objects, Refines ⟨true, 4, fun _ _ => true⟩ w a objects :=
  run_refines _ ⟨⟨by decide, 4, by decide, trivial⟩, fun _ _ => ⟨trivial, fun _ _ => trivial⟩⟩

/-! ## Elements without size

The size of a vector is limited by the memory unless its elements have no size. -/

def emptyStructs : ElementLayout :=
  { wideSizeType := false, elementSize := 0, provides := fun _ _ => true }

theorem resize_emptyStructs {c : Nat} (hpos : 0 < c) (hlt : c < 2 ^ 32) :
    ∃ v h, (empty : Vector Unit).resize emptyStructs History.start c () = .ok (v, h) ∧
      v.size = c := by
  have hfst : max emptyStructs.firstAllocationSize c = 4294967295 := by
    show max (2 ^ 32 - 1) c = 4294967295
    omega
  have hens : ∃ v h, (empty : Vector Unit).ensureCapacity emptyStructs History.start c =
      .ok (v, h) ∧ v.size = 0 := by
    refine ⟨⟨fun i => if (i + 1) * 0 ≤ 0 then none else none, 0, 0, 4294967295⟩, ⟨0, [], [], 1⟩, ?_,
      rfl⟩
    have hlt : ¬(empty : Vector Unit).capacity ≥ c := Nat.not_le.2 hpos
    have hz : (empty : Vector Unit).capacity = 0 := rfl
    rw [ensureCapacity, if_neg hlt, ensuredCapacity, if_neg hlt, hfst]
    rfl
  obtain ⟨v, h, hens, hsz⟩ := hens
  obtain ⟨v', hlp, -, -⟩ := constructAt_ok emptyStructs (h := h) (replicate c ())
    (.nil v) (Nat.zero_le _)
  refine ⟨{ v' with size := c }, { h with stored := h.stored + (replicate c ()).length }, ?_, rfl⟩
  have hgt : c > (empty : Vector Unit).size := hpos
  rw [resize, if_pos hgt, hens]
  show (constructAt emptyStructs v h v.size (replicate (c - v.size) ()) >>= _) = _
  rw [length_nil] at hlp
  rw [hsz, Nat.sub_zero, hlp]
  rfl

theorem pushBack_emptyStructs {v : Vector Unit} (h : History Unit) (hsz : v.size = 2 ^ 32 - 1) :
    ∃ v' h', v.pushBack emptyStructs h () = .ok (v', h') ∧ v'.size = 0 := by
  have hnew : (v.size + 1) % 2 ^ emptyStructs.sizeTypeBits = 0 := by
    rw [hsz]
    rfl
  have hens : v.ensureCapacity emptyStructs h 0 = .ok (v, h) := if_pos (Nat.zero_le _)
  have hput : v.put emptyStructs v.size ⟨h.stored, ()⟩ = .ok (v.write v.size ⟨h.stored, ()⟩) :=
    put_ok emptyStructs (Nat.zero_le _) _
  refine ⟨{ v.write v.size ⟨h.stored, ()⟩ with size := 0 }, { h with stored := h.stored + 1 }, ?_, rfl⟩
  rw [pushBack, hnew]
  simp only [hens, hput, bind, Except.bind]

/-- The largest size is followed by zero: `push_back` loses all elements. -/
theorem run_refines_overflow : ¬∀ (L : ElementLayout) (operations : List (Operation L 1 Unit)),
    Follows (World.start.run L operations) (Lists.start.run operations) fun a w =>
      ∃ objects, Refines L w a objects := by
  intro hall
  obtain ⟨v, h, hresize, hsize⟩ := resize_emptyStructs (by decide : 0 < 2 ^ 32 - 1) (by decide)
  obtain ⟨v', h', hpush, hsize'⟩ := pushBack_emptyStructs h hsize
  have hvectors : World.start.run emptyStructs
      [.resize (0 : Fin 1) ⟨2 ^ 32 - 1, by decide⟩ (), .pushBack 0 ()] =
      .ok { vectors := update (update (fun _ => empty) 0 v) 0 v', history := h' } := by
    show (((empty : Vector Unit).resize emptyStructs History.start (2 ^ 32 - 1) () >>= _) >>= _) = _
    rw [hresize]
    show (World.step emptyStructs _ _ >>= _) = _
    rw [World.step, World.modify]
    simp only [update_self]
    rw [hpush]
    rfl
  obtain ⟨objects, hrefines⟩ := hvectors ▸ hall emptyStructs
    [.resize 0 ⟨2 ^ 32 - 1, by decide⟩ (), .pushBack 0 ()]
  have hempty : objects 0 = [] := by
    apply eq_nil_of_length_eq_zero
    rw [← (hrefines.represents 0).size_eq]
    simpa only [update_self] using hsize'
  have hvalues := hrefines.values 0
  simp only [hempty] at hvalues
  exact append_ne_nil_of_right_ne_nil _ (cons_ne_nil _ _) hvalues.symm

end USprache.Ustlib.Vector
