import Mathlib.Algebra.Order.Group.Multiset
import Mathlib.Data.Multiset.Range
import USprache.Library.Outcome
import USprache.Ustlib.VectorMemory

/-!
# Vectors refine lists

A vector represents a list of objects.  Each method turns the represented list into the
one that the corresponding list operation gives, or stops because there is no memory for
the result.  Along with the values it keeps the balance of the objects: what is stored,
destroyed and handed out afterwards is what was there before and the newly stored objects.
-/

namespace USprache.Ustlib.Vector

open List Option Nat

open Library (Meets)

variable {α : Type} {L : ElementLayout} {v other : Vector α} {h : History α}
  {objects others : List (Object α)}

structure Represents (L : ElementLayout) (v : Vector α) (objects : List (Object α)) : Prop where
  holds : v.Holds objects
  size_eq : v.size = objects.length
  size_le : v.size ≤ v.capacity
  bytes_eq : v.bytes = v.capacity * L.elementSize
  bytes_lt : v.bytes < 2 ^ L.sizeTypeBits
  capacity_lt : v.capacity < 2 ^ L.sizeTypeBits

variable {n : Nat} {objects' : List (Object α)} {capacity newSize : Nat}

theorem Represents.hasRoom (hv : v.Represents L objects) (hn : n ≤ v.capacity) : v.HasRoom L n := by
  rw [HasRoom, hv.bytes_eq]
  exact mul_le_mul_right _ hn

theorem Represents.hasRoom_objects (hv : v.Represents L objects) :
    v.HasRoom L objects.length := hv.hasRoom (hv.size_eq ▸ hv.size_le)

/-- The objects of a vector take no more bytes than its block has. -/
theorem Represents.size_bytes_lt (hv : v.Represents L objects) :
    v.size * L.elementSize < 2 ^ L.sizeTypeBits :=
  lt_of_le_of_lt (mul_le_mul_right _ hv.size_le) (hv.bytes_eq ▸ hv.bytes_lt)

theorem empty_represents : (empty : Vector α).Represents L [] where
  holds := .nil _
  size_eq := rfl
  size_le := le_refl 0
  bytes_eq := (zero_mul _).symm
  bytes_lt := Nat.two_pow_pos _
  capacity_lt := Nat.two_pow_pos _

/-- A vector in the same block, with its first places changed and a new size. -/
theorem Represents.resized (hv : v.Represents L objects) {v' : Vector α} (heq : SameBlock v v')
    (hh : v'.Holds objects')
    (hn : n = objects'.length) (hle : n ≤ v.capacity) :
    ({ v' with size := n } : Vector α).Represents L objects' where
  holds := hh
  size_eq := hn
  size_le := heq.capacity ▸ hle
  bytes_eq := by rw [heq.bytes, heq.capacity, hv.bytes_eq]
  bytes_lt := heq.bytes ▸ hv.bytes_lt
  capacity_lt := heq.capacity ▸ hv.capacity_lt

theorem Represents.cut (hv : v.Represents L objects) (hn : n ≤ objects.length) :
    ({ v with size := n } : Vector α).Represents L (objects.take n) :=
  hv.resized (.refl v) (hv.holds.take n) (by rw [length_take, min_eq_left hn])
    (le_trans hn (hv.size_eq ▸ hv.size_le))

/-! ## The balance of the objects -/

def ids (objects : List (Object α)) : Multiset Nat := (objects.map (·.id) : List Nat)

theorem ids_append (a b : List (Object α)) : ids (a ++ b) = ids a + ids b := by
  rw [ids, map_append]
  rfl

theorem ids_perm {a b : List (Object α)} (h : a.Perm b) : ids a = ids b :=
  Multiset.coe_eq_coe.2 (h.map _)

theorem ids_fresh (id : Nat) (vs : List α) :
    ids (fresh id vs) + Multiset.range id = Multiset.range (id + vs.length) := by
  induction vs generalizing id with
  | nil => exact zero_add _
  | cons value vs ih =>
    rw [length_cons, add_comm _ 1, ← add_assoc, ← ih (id + 1), Multiset.range_succ,
      Multiset.add_cons]
    rfl

theorem fresh_map_value (id : Nat) (vs : List α) : (fresh id vs).map (·.value) = vs := by
  induction vs generalizing id with
  | nil => rfl
  | cons value vs ih => rw [fresh, map_cons, ih]

theorem fresh_length (id : Nat) (vs : List α) : (fresh id vs).length = vs.length := by
  rw [← length_map (·.value), fresh_map_value]

def released (h : History α) : Multiset Nat := ids h.destroyed + ids h.handedOut

/-- From one moment to another no object is lost or doubled. -/
def Balanced (h : History α) (objects : List (Object α)) (h' : History α)
    (objects' : List (Object α)) : Prop :=
  ids objects' + released h' + Multiset.range h.stored =
    ids objects + released h + Multiset.range h'.stored

theorem balanced_destroyed {gone : List (Object α)} (hpm : (objects' ++ gone).Perm objects) :
    Balanced h objects { h with destroyed := h.destroyed ++ gone } objects' := by
  rw [Balanced, released, ids_append, ← ids_perm hpm, ids_append]
  ac_rfl

theorem balanced_handedOut {gone : List (Object α)} (hpm : (objects' ++ gone).Perm objects) :
    Balanced h objects { h with handedOut := h.handedOut ++ gone } objects' := by
  rw [Balanced, released, ids_append, ← ids_perm hpm, ids_append]
  ac_rfl

variable (vs : List α)

theorem balanced_fresh : Balanced h objects { h with stored := h.stored + vs.length }
      (objects ++ fresh h.stored vs) := by
  rw [Balanced, ids_append, ← ids_fresh]
  show ids objects + ids (fresh h.stored vs) + released h + _ =
    ids objects + released h + (ids (fresh h.stored vs) + _)
  ac_rfl

theorem Balanced.trans {h0 h1 h2 : History α} {objs0 objs1 objs2 : List (Object α)}
    (h01 : Balanced h0 objs0 h1 objs1) (h12 : Balanced h1 objs1 h2 objs2) :
    Balanced h0 objs0 h2 objs2 := by
  apply add_right_cancel (b := Multiset.range h1.stored)
  calc ids objs2 + released h2 + Multiset.range h0.stored + Multiset.range h1.stored
      = ids objs2 + released h2 + Multiset.range h1.stored + Multiset.range h0.stored := by
        ac_rfl
    _ = ids objs1 + released h1 + Multiset.range h0.stored + Multiset.range h2.stored := by
        rw [h12]
        ac_rfl
    _ = ids objs0 + released h0 + Multiset.range h2.stored + Multiset.range h1.stored := by
        rw [h01]
        ac_rfl

/-- The result of a method: the values of the new vector, the values that were handed out
on the way, and the balance. -/
def Becomes (L : ElementLayout) (h : History α) (objects : List (Object α)) (values handed : List α)
    (result : Vector α × History α) : Prop :=
  ∃ objects', result.1.Represents L objects' ∧ objects'.map (·.value) = values ∧
    Balanced h objects result.2 objects' ∧
    result.2.handedOut.map (·.value) = h.handedOut.map (·.value) ++ handed

abbrev Returns {β : Type} (r : Except Stop β) (post : β → Prop) : Prop :=
  Meets (· = Stop.outOfMemory) r post

/-- What a program with lists does, the program with vectors does too, unless there is no
memory left. -/
def Follows {γ β : Type} (r : Except Stop γ) (expected : Option β) (post : β → γ → Prop) : Prop :=
  match expected with
  | none => r = .error .halt ∨ r = .error .outOfMemory
  | some b => Returns r (post b)

theorem Follows.bind {γ γ' β β' : Type} {r : Except Stop γ} {expected : Option β}
    {post : β → γ → Prop} {f : γ → Except Stop γ'} {g : β → Option β'} {post' : β' → γ' → Prop}
    (h : Follows r expected post)
    (hnext : ∀ b c, r = .ok c → post b c → Follows (f c) (g b) post') :
    Follows (r >>= f) (expected.bind g) post' := by
  cases expected with
  | none => exact h.imp (fun h => by rw [h]; rfl) (fun h => by rw [h]; rfl)
  | some b =>
    cases r with
    | ok c => exact hnext b c rfl h
    | error e =>
      obtain rfl : e = .outOfMemory := h
      show Follows _ (g b) post'
      cases g b with
      | none => exact .inr rfl
      | some _ => exact rfl

/-! ## Memory -/

theorem addOverflowCheckHalt_returns (a b : Nat) :
    Returns (addOverflowCheckHalt L a b) fun c => c = a + b ∧ c < 2 ^ L.sizeTypeBits := by
  unfold addOverflowCheckHalt
  split
  · exact ⟨rfl, ‹_›⟩
  · exact rfl

theorem mulOverflowCheckHalt_returns (a b : Nat) :
    Returns (mulOverflowCheckHalt L a b) fun c => c = a * b ∧ c < 2 ^ L.sizeTypeBits := by
  unfold mulOverflowCheckHalt
  split
  · exact ⟨rfl, ‹_›⟩
  · exact rfl

theorem requestMemory_returns (szBytes : Nat) :
    Returns (requestMemory L h szBytes) fun h' => ∃ n, h' = { h with requests := n } := by
  unfold requestMemory
  split
  · exact rfl
  · split
    · exact ⟨_, rfl⟩
    · exact rfl

theorem Represents.reallocate (hv : v.Represents L objects) {szBytes : Nat}
    (hcap : objects.length ≤ capacity) (hbs : szBytes = capacity * L.elementSize)
    (hbs_lt : szBytes < 2 ^ L.sizeTypeBits) (hcap_lt : capacity < 2 ^ L.sizeTypeBits) :
    Returns (v.reallocate L h capacity szBytes) fun r =>
      r.1.Represents L objects ∧ r.1.capacity = capacity ∧ ∃ n, r.2 = { h with requests := n } := by
  refine .bind (requestMemory_returns szBytes) ?_
  rintro _ ⟨n, rfl⟩
  refine ⟨?_, rfl, n, rfl⟩
  refine ⟨?_, hv.size_eq, ?_, hbs, hbs_lt, hcap_lt⟩
  · intro k obj hk
    obtain ⟨hlt, -⟩ := List.getElem?_eq_some_iff.1 hk
    have hfit : (k + 1) * L.elementSize ≤ szBytes := by
      rw [hbs]
      exact mul_le_mul_right _ (by omega)
    exact (if_pos hfit).trans (hv.holds k obj hk)
  · show v.size ≤ capacity
    rw [hv.size_eq]
    exact hcap

theorem sixteen_lt : 16 < 2 ^ L.sizeTypeBits := by
  unfold ElementLayout.sizeTypeBits
  split <;> decide

theorem firstAllocationSize_lt : L.firstAllocationSize < 2 ^ L.sizeTypeBits := by
  have hbts := sixteen_lt (L := L)
  unfold ElementLayout.firstAllocationSize
  split
  · omega
  · split
    · omega
    · exact lt_of_le_of_lt (div_le_self 16 _) hbts

theorem doubleCapacity_some {fuel cap' : Nat} (hcap : capacity < 2 ^ L.sizeTypeBits)
    (hdou : doubleCapacity L newSize fuel capacity = some cap') :
    newSize ≤ cap' ∧ cap' < 2 ^ L.sizeTypeBits := by
  induction fuel generalizing capacity with
  | zero => cases hdou
  | succ fuel ih =>
    rw [doubleCapacity] at hdou
    split at hdou
    · exact ih (mod_lt _ (Nat.two_pow_pos _)) hdou
    · cases hdou
      omega

theorem ensuredCapacity_some {cap' : Nat}
    (hcap : capacity < 2 ^ L.sizeTypeBits) (hnew : newSize < 2 ^ L.sizeTypeBits)
    (hens : ensuredCapacity L capacity newSize = some cap') :
    newSize ≤ cap' ∧ cap' < 2 ^ L.sizeTypeBits := by
  have hfst := firstAllocationSize_lt (L := L)
  unfold ensuredCapacity at hens
  split at hens
  · cases hens
    exact ⟨‹_›, hcap⟩
  · split at hens
    · cases hens
      omega
    · exact doubleCapacity_some hcap hens

/-- `ensure_capacity` ends: the capacity is large enough, or there is none yet, or it becomes
large enough by doubling, as a value of `size_type`. -/
def Grows (L : ElementLayout) (capacity newSize : Nat) : Prop :=
  capacity = 0 ∨ ∃ k, newSize ≤ capacity * 2 ^ k % 2 ^ L.sizeTypeBits

theorem doubleCapacity_eq_none_iff {fuel : Nat} (hcap : capacity < 2 ^ L.sizeTypeBits) :
    doubleCapacity L newSize fuel capacity = none ↔
      ∀ k < fuel, capacity * 2 ^ k % 2 ^ L.sizeTypeBits < newSize := by
  induction fuel generalizing capacity with
  | zero => exact ⟨fun _ k hk => absurd hk (not_lt_zero k), fun _ => rfl⟩
  | succ fuel ih =>
    have hst : ∀ k, capacity * 2 % 2 ^ L.sizeTypeBits * 2 ^ k % 2 ^ L.sizeTypeBits =
        capacity * 2 ^ (k + 1) % 2 ^ L.sizeTypeBits := by
      intro k
      rw [mod_mul_mod, mul_assoc, ← pow_succ']
    have hz : capacity * 2 ^ 0 % 2 ^ L.sizeTypeBits = capacity := by
      rw [pow_zero, mul_one, mod_eq_of_lt hcap]
    rw [doubleCapacity]
    split
    · rw [ih (mod_lt _ (Nat.two_pow_pos _))]
      constructor
      · intro h k hk
        cases k with
        | zero => rwa [hz]
        | succ k => exact hst k ▸ h k (by omega)
      · intro h k hk
        rw [hst k]
        exact h (k + 1) (by omega)
    · rename_i hge
      constructor
      · intro h
        cases h
      · intro h
        have hlt := h 0 (zero_lt_succ fuel)
        rw [hz] at hlt
        exact absurd hlt hge

theorem Grows.ensuredCapacity (hgr : Grows L capacity newSize)
    (hcap : capacity < 2 ^ L.sizeTypeBits) :
    ∃ cap', ensuredCapacity L capacity newSize = some cap' := by
  apply ne_none_iff_exists'.1
  unfold Vector.ensuredCapacity
  split
  · exact some_ne_none _
  · split
    · exact some_ne_none _
    · rename_i hlt hne
      obtain ⟨k, hk⟩ := hgr.resolve_left hne
      intro hno
      rw [doubleCapacity_eq_none_iff hcap] at hno
      by_cases hkw : k < L.sizeTypeBits + 1
      · have := hno k hkw
        omega
      · have hpow : capacity * 2 ^ k % 2 ^ L.sizeTypeBits = 0 := by
          obtain ⟨d, rfl⟩ := Nat.exists_eq_add_of_le (by omega : L.sizeTypeBits ≤ k)
          rw [pow_add, ← mul_assoc, mul_right_comm, mul_mod_left]
        omega

variable (hv : v.Represents L objects)

include hv

theorem Represents.ensureCapacity
    (hnew : newSize < 2 ^ L.sizeTypeBits)
    (hens : ensuredCapacity L v.capacity newSize = some capacity) :
    Returns (v.ensureCapacity L h newSize) fun r =>
      r.1.Represents L objects ∧ r.1.capacity = capacity ∧ newSize ≤ capacity ∧
        ∃ n, r.2 = { h with requests := n } := by
  have hle := ensuredCapacity_some hv.capacity_lt hnew hens
  unfold Vector.ensureCapacity
  split
  · rename_i hge
    rw [ensuredCapacity, if_pos hge] at hens
    cases hens
    exact ⟨hv, rfl, hle.1, h.requests, rfl⟩
  · have hlen : objects.length ≤ capacity := by
      have hsz := hv.size_eq
      have hsz' := hv.size_le
      omega
    rw [hens]
    refine .bind (mulOverflowCheckHalt_returns capacity L.elementSize) ?_
    intro sizeBytes hbs
    refine (hv.reallocate hlen hbs.1 hbs.2 hle.2).mono ?_
    rintro ⟨v', h'⟩ ⟨hv', hcap, hh'⟩
    exact ⟨hv', hcap, hle.1, hh'⟩

theorem Represents.shrinkToFit :
    Returns (v.shrinkToFit L h) (Becomes L h objects (objects.map (·.value)) []) := by
  have hsz := hv.size_eq
  have heq : ∀ n, Balanced h objects { h with requests := n } objects := fun _ => rfl
  unfold Vector.shrinkToFit
  split
  · split
    · rename_i hz
      obtain rfl : objects = [] := eq_nil_of_length_eq_zero (hsz ▸ hz)
      refine ⟨[], ?_, rfl, heq h.requests, (append_nil _).symm⟩
      exact ⟨.nil _, hsz, hz.le, (zero_mul _).symm, Nat.two_pow_pos _, Nat.two_pow_pos _⟩
    · have hbs := hv.size_bytes_lt
      rw [mod_eq_of_lt hbs]
      refine (hv.reallocate hsz.ge rfl hbs (lt_of_le_of_lt hv.size_le hv.capacity_lt)).mono ?_
      rintro ⟨v', h'⟩ ⟨hv', -, n, rfl⟩
      exact ⟨objects, hv', rfl, heq n, (append_nil _).symm⟩
  · exact ⟨objects, hv, rfl, heq h.requests, (append_nil _).symm⟩

/-! ## Appending -/

theorem Represents.constructAt (hrm : objects.length + vs.length ≤ v.capacity) :
    Returns (do
      let (v, h) ← Vector.constructAt L v h v.size vs
      .ok ({ v with size := objects.length + vs.length }, h))
      (Becomes L h objects (objects.map (·.value) ++ vs) []) := by
  obtain ⟨v', hlp, hh, heq⟩ := constructAt_ok L (h := h) vs hv.holds (hv.hasRoom hrm)
  rw [hv.size_eq, hlp]
  refine ⟨objects ++ fresh h.stored vs, ?_, ?_, balanced_fresh vs, (append_nil _).symm⟩
  · exact hv.resized heq hh (by rw [length_append, fresh_length]) hrm
  · rw [map_append, fresh_map_value]

theorem Represents.append
    (hsz : newSize = objects.length + vs.length) (hnew : newSize < 2 ^ L.sizeTypeBits)
    (hens : ensuredCapacity L v.capacity newSize = some capacity) :
    Returns (do
      let (v, h) ← v.ensureCapacity L h newSize
      let (v, h) ← Vector.constructAt L v h v.size vs
      .ok ({ v with size := newSize }, h))
      (Becomes L h objects (objects.map (·.value) ++ vs) []) := by
  refine .bind (hv.ensureCapacity hnew hens) ?_
  rintro ⟨v', _⟩ ⟨hv', hcap, hle, n, rfl⟩
  subst hsz
  exact hv'.constructAt vs (hcap ▸ hle)

/-- The condition for `count` elements to be pushed one by one: no size is `0` again, and no
capacity is doubled for ever. -/
def PushesFit (L : ElementLayout) : (capacity size count : Nat) → Prop
  | _, _, 0 => True
  | capacity, size, n + 1 =>
    size + 1 < 2 ^ L.sizeTypeBits ∧ ∃ capacity',
      ensuredCapacity L capacity (size + 1) = some capacity' ∧ PushesFit L capacity' (size + 1) n

theorem Represents.pushBack (value : α)
    (hnew : v.size + 1 < 2 ^ L.sizeTypeBits)
    (hens : ensuredCapacity L v.capacity (v.size + 1) = some capacity) :
    Returns (v.pushBack L h value) fun result =>
      Becomes L h objects (objects.map (·.value) ++ [value]) [] result ∧
        result.1.capacity = capacity := by
  unfold Vector.pushBack
  rw [mod_eq_of_lt hnew]
  refine .bind (hv.ensureCapacity hnew hens) ?_
  rintro ⟨v', _⟩ ⟨hv', hcap, hle, n, rfl⟩
  have hsz : v.size + 1 = objects.length + 1 := by rw [hv.size_eq]
  have hput := put_ok L (hv'.hasRoom (hcap ▸ hsz ▸ hle)) { id := h.stored, value := value }
  have hw := hv'.holds.write_append { id := h.stored, value := value }
  show Returns (put L v' v'.size _ >>= _) _
  rw [hv'.size_eq, hput]
  refine ⟨⟨objects ++ fresh h.stored [value], ?_, ?_, balanced_fresh [value],
    (append_nil _).symm⟩, hcap⟩
  · exact hv'.resized (.write _ _ _) hw (by rw [length_append]; exact hsz) (hcap ▸ hle)
  · rw [map_append, fresh_map_value]

omit hv in
theorem Becomes.trans {vs' handed handed' : List α} {h' : History α} {r : Vector α × History α}
    (hbal : Balanced h objects h' objects')
    (hhan : h'.handedOut.map (·.value) = h.handedOut.map (·.value) ++ handed)
    (hnx : Becomes L h' objects' vs' handed' r) :
    Becomes L h objects vs' (handed ++ handed') r := by
  obtain ⟨objs'', hv, hvs'', hbal', hhan'⟩ := hnx
  refine ⟨objs'', hv, hvs'', hbal.trans hbal', ?_⟩
  rw [hhan', hhan, append_assoc]

theorem Represents.appendFromIterator (hfit : PushesFit L v.capacity v.size vs.length) :
    Returns (v.appendFromIterator L h vs)
      (Becomes L h objects (objects.map (·.value) ++ vs) []) := by
  induction vs generalizing v h objects with
  | nil =>
    refine ⟨objects, hv, (append_nil _).symm, rfl, (append_nil _).symm⟩
  | cons val vs ih =>
    obtain ⟨hnew, capacity, hens, hfit⟩ := hfit
    refine .bind (hv.pushBack val hnew hens) ?_
    rintro ⟨v', h'⟩ ⟨⟨objects', hv', hvs, hbal, hhan⟩, hcap⟩
    have hsz : v'.size = v.size + 1 := by
      rw [hv'.size_eq, hv.size_eq, ← length_map (·.value), hvs, length_append,
        length_map, length_singleton]
    have hrs := ih (h := h') hv' (by rw [hsz, hcap]; exact hfit)
    refine .mono hrs ?_
    intro result hres
    rw [hvs, append_assoc] at hres
    exact Becomes.trans hbal hhan hres

theorem Represents.appendCopy (r : List α)
    (hgr : v.size + r.length < 2 ^ L.sizeTypeBits → Grows L v.capacity (v.size + r.length)) :
    Returns (v.appendCopy L h r) (Becomes L h objects (objects.map (·.value) ++ r) []) := by
  refine .bind (addOverflowCheckHalt_returns v.size r.length) ?_
  rintro _ ⟨rfl, hlt⟩
  obtain ⟨capacity, hens⟩ := (hgr hlt).ensuredCapacity hv.capacity_lt
  exact hv.append r (by rw [hv.size_eq]) hlt hens

theorem Represents.pushBackMany (c : Nat) (val : α)
    (hgr : v.size + c < 2 ^ L.sizeTypeBits → Grows L v.capacity (v.size + c)) :
    Returns (v.pushBackMany L h c val)
      (Becomes L h objects (objects.map (·.value) ++ List.replicate c val) []) := by
  refine .bind (addOverflowCheckHalt_returns v.size c) ?_
  rintro _ ⟨rfl, hlt⟩
  obtain ⟨capacity, hens⟩ := (hgr hlt).ensuredCapacity hv.capacity_lt
  exact hv.append (replicate c val) (by rw [hv.size_eq, length_replicate]) hlt hens

theorem Represents.appendFromOther (ho : other.Represents L others)
    (hgr : v.size + other.size < 2 ^ L.sizeTypeBits → Grows L v.capacity (v.size + other.size)) :
    Returns (v.appendFromOther L h other) fun r =>
      r.1.Represents L (objects ++ others) ∧ r.2.1.Represents L [] ∧
        ∃ n, r.2.2 = { h with requests := n } := by
  refine .bind (addOverflowCheckHalt_returns v.size other.size) ?_
  rintro _ ⟨rfl, hlt⟩
  obtain ⟨capacity, hens⟩ := (hgr hlt).ensuredCapacity hv.capacity_lt
  refine .bind (hv.ensureCapacity hlt hens) ?_
  rintro ⟨v', _⟩ ⟨hv', hcap, hle, n, rfl⟩
  have hsz : v.size + other.size = (objects ++ others).length := by
    rw [hv.size_eq, ho.size_eq, length_append]
  have hrm : v'.HasRoom L (v'.size + others.length) := by
    apply hv'.hasRoom
    rw [hv'.size_eq, ← length_append, ← hsz, hcap]
    exact hle
  obtain ⟨v'', hlp, hh, heq⟩ := copyBitsAt_ok L hv'.holds
    (by rw [hv'.size_eq, add_zero]) hrm ho.holds ho.hasRoom_objects
    (zero_add _)
  show Returns (copyBitsAt L v' other 0 other.size >>= _) _
  rw [ho.size_eq, hlp]
  refine ⟨?_, ho.cut (zero_le _), n, rfl⟩
  exact hv'.resized heq hh (ho.size_eq ▸ hsz) (hcap ▸ ho.size_eq ▸ hle)

/-! ## Removing -/

theorem Represents.destroyTail (hn : n ≤ objects.length) : Returns (do
    let h ← destroyAt L v h n (objects.length - n)
    .ok ({ v with size := n }, h))
      (Becomes L h objects ((objects.map (·.value)).take n) []) := by
  rw [destroyAt_ok L hv.holds hv.hasRoom_objects (by omega)]
  refine ⟨objects.take n, hv.cut hn, map_take, ?_, (append_nil _).symm⟩
  have hdr : (objects.drop n).take (objects.length - n) = objects.drop n :=
    take_of_length_le (le_of_eq length_drop)
  apply balanced_destroyed
  rw [hdr, take_append_drop]

theorem Represents.clear :
    Returns (v.clear L h) (Becomes L h objects [] []) := by
  have htl := hv.destroyTail (h := h) (zero_le _)
  unfold Vector.clear
  rw [hv.size_eq]
  exact htl

theorem Represents.dropBackMany {c : Nat} (hc : c ≤ objects.length) :
    Returns (v.dropBackMany L h c)
      (Becomes L h objects ((objects.map (·.value)).take (objects.length - c)) []) := by
  have htl := hv.destroyTail (h := h) (sub_le objects.length c)
  unfold Vector.dropBackMany
  rw [hv.size_eq, if_neg (by omega)]
  rwa [Nat.sub_sub_self hc] at htl

theorem Represents.last (hne : objects ≠ []) :
    v.size ≠ 0 ∧ v.get L (v.size - 1) = .ok (objects.getLast hne) ∧
      ({ v with size := v.size - 1 } : Vector α).Represents L objects.dropLast := by
  have hpos := length_pos_iff.2 hne
  refine ⟨by rw [hv.size_eq]; omega, ?_, ?_⟩
  · apply get_ok L hv.holds hv.hasRoom_objects
    rw [hv.size_eq, ← getLast?_eq_getElem?, getLast?_eq_getLast_of_ne_nil hne]
  · rw [dropLast_eq_take, hv.size_eq]
    exact hv.cut (sub_le _ 1)

theorem Represents.dropBack (hne : objects ≠ []) :
    Returns (v.dropBack L h) (Becomes L h objects (objects.map (·.value)).dropLast []) := by
  obtain ⟨hsz, hget, hcut⟩ := hv.last hne
  unfold Vector.dropBack
  rw [if_neg hsz, hget]
  refine ⟨objects.dropLast, hcut, map_dropLast, ?_, (append_nil _).symm⟩
  exact balanced_destroyed (by rw [dropLast_append_getLast hne])

theorem Represents.popBack (hne : objects ≠ []) :
    Returns (v.popBack L h)
      (Becomes L h objects (objects.map (·.value)).dropLast [(objects.getLast hne).value]) := by
  obtain ⟨hsz, hget, hcut⟩ := hv.last hne
  unfold Vector.popBack
  rw [if_neg hsz, hget]
  refine ⟨objects.dropLast, hcut, map_dropLast, ?_, map_append⟩
  exact balanced_handedOut (by rw [dropLast_append_getLast hne])

def resizedList (values : List α) (newSize : Nat) (value : α) : List α :=
  if newSize > values.length then values ++ List.replicate (newSize - values.length) value
  else values.take newSize

theorem Represents.resize (val : α)
    (hnew : newSize < 2 ^ L.sizeTypeBits) (hgr : Grows L v.capacity newSize) :
    Returns (v.resize L h newSize val)
      (Becomes L h objects (resizedList (objects.map (·.value)) newSize val) []) := by
  obtain ⟨capacity, hens⟩ := hgr.ensuredCapacity hv.capacity_lt
  unfold Vector.resize resizedList
  rw [hv.size_eq, length_map]
  split
  · refine .bind (hv.ensureCapacity hnew hens) ?_
    rintro ⟨v', _⟩ ⟨hv', hcap, hle, n, rfl⟩
    have hlp := hv'.constructAt (h := { h with requests := n })
      (replicate (newSize - objects.length) val)
      (by rw [length_replicate, hcap]; omega)
    have hsz : v'.size = objects.length := hv'.size_eq
    rw [length_replicate, Nat.add_sub_cancel' (by omega), ← hsz] at hlp
    rw [← hsz]
    exact hlp
  · split
    · have hdr := hv.dropBackMany (h := h) (sub_le objects.length newSize)
      rwa [Nat.sub_sub_self (by omega)] at hdr
    · refine ⟨objects, hv, ?_, rfl, (append_nil _).symm⟩
      rw [take_of_length_le (by rw [length_map]; omega)]

/-! ## Rearranging -/

theorem Represents.swap {i0 i1 : Nat} (h0 : i0 < objects.length)
    (h1 : i1 < objects.length) :
    ∃ v', v.swap L i0 i1 = .ok v' ∧
      v'.Represents L ((objects.set i0 objects[i1]).set i1 objects[i0]) := by
  unfold Vector.swap
  rw [hv.size_eq, if_neg (by omega), if_neg (by omega)]
  split
  · rename_i heq
    subst heq
    refine ⟨v, rfl, ?_⟩
    rwa [set_set, set_getElem_self]
  · have hget0 := get_ok L hv.holds hv.hasRoom_objects (getElem?_eq_getElem h0)
    have hget1 := get_ok L hv.holds hv.hasRoom_objects (getElem?_eq_getElem h1)
    have hput0 := put_ok L (hv.hasRoom_objects.mono h0) objects[i1]
    have hrm : (v.write i0 objects[i1]).HasRoom L (i1 + 1) := hv.hasRoom_objects.mono h1
    have hput1 := put_ok L hrm objects[i0]
    have hh := (hv.holds.write_set i0 objects[i1]).write_set i1 objects[i0]
    refine ⟨(v.write i0 objects[i1]).write i1 objects[i0], ?_, ?_⟩
    · rw [hget0, hget1]
      show (v.put L i0 objects[i1] >>= _) = _
      rw [hput0]
      exact hput1
    · exact hv.resized ((SameBlock.write _ _ _).trans (.write _ _ _)) hh
        (by rw [length_set, length_set]; exact hv.size_eq) hv.size_le

theorem Represents.compactLoop
    (keep : Vector α → Nat → Object α → Except Stop Bool)
    (test : List (Object α) → Object α → Bool) {m : Nat} (hm : m ≤ objects.length)
    (hkeep : ∀ (v : Vector α) kept obj, m ≤ kept.length → v.Holds kept →
      v.HasRoom L kept.length → keep v kept.length obj = .ok (test kept obj)) :
    Returns (compactLoop L keep v h m m (objects.length - m)) (Becomes L h objects
        ((compacted test (objects.take m) (objects.drop m)).map (·.value)) []) := by
  have hlen : (objects.take m).length = m := by rw [length_take, min_eq_left hm]
  have hrs : ∀ k obj, (objects.drop m)[k]? = some obj → v.cells (m + k) = some obj := by
    intro k obj hk
    rw [getElem?_drop] at hk
    exact hv.holds _ _ hk
  have hrm : v.HasRoom L (m + (objects.drop m).length) := by
    rw [length_drop, Nat.add_sub_cancel' hm]
    exact hv.hasRoom_objects
  obtain ⟨v', hlp, hh, hsz, hbs, hcap⟩ := compactLoop_ok L test (h := h) m hkeep
    hlen.ge hlen.le (hv.holds.take m) hrs hrm
  have hpm := compacted_append_dropped_perm test (objects.take m) (objects.drop m)
  rw [take_append_drop] at hpm
  rw [hlen, length_drop] at hlp
  rw [hlp]
  refine ⟨_, ⟨hh, hsz, ?_, ?_, hbs ▸ hv.bytes_lt, hcap ▸ hv.capacity_lt⟩, rfl,
    balanced_destroyed hpm, (append_nil _).symm⟩
  · have hle := length_compacted_le test (objects.take m) (objects.drop m)
    rw [length_drop] at hle
    have hsz' := hv.size_eq
    have hsz_le := hv.size_le
    rw [hsz, hcap]
    omega
  · rw [hbs, hcap, hv.bytes_eq]

omit hv in
theorem compacted_map_value_filter (f : α → Bool) (kept r : List (Object α)) :
    (compacted (fun _ obj => f obj.value) kept r).map (·.value) =
      kept.map (·.value) ++ (r.map (·.value)).filter f := by
  induction r generalizing kept with
  | nil => rw [compacted, map_nil, filter_nil, append_nil]
  | cons obj r ih =>
    rw [compacted, map_cons, filter_cons]
    split
    · rw [ih, map_append, append_assoc]
      rfl
    · rw [ih]

theorem Represents.retain (f : α → Bool) :
    Returns (v.retain L f h) (Becomes L h objects ((objects.map (·.value)).filter f) []) := by
  have hlp := hv.compactLoop (h := h) (fun _ _ obj => .ok (f obj.value))
    (fun _ obj => f obj.value) (zero_le _) (fun _ _ _ _ _ _ => rfl)
  rw [compacted_map_value_filter] at hlp
  unfold Vector.retain
  rw [hv.size_eq]
  exact hlp

def differsFromLast (eq : α → α → Bool) (kept : List (Object α)) (object : Object α) : Bool :=
  kept.getLast?.all fun previous => !eq object.value previous.value

omit hv in
theorem compacted_map_value_destutter (eq : α → α → Bool) (kept : List (Object α))
    (last : Object α) (r : List (Object α)) :
    (compacted (differsFromLast eq) (kept ++ [last]) r).map (·.value) = kept.map (·.value) ++
        (r.map (·.value)).destutter' (fun a b => eq b a = false) last.value := by
  induction r generalizing kept last with
  | nil => rw [compacted, map_append]; rfl
  | cons obj r ih =>
    have htest : differsFromLast eq (kept ++ [last]) obj = !eq obj.value last.value := by
      rw [differsFromLast, getLast?_concat]
      rfl
    rw [compacted, htest, map_cons]
    cases heq : eq obj.value last.value with
    | true =>
      rw [destutter'_cons_neg _ (by simp [heq])]
      exact ih kept last
    | false =>
      rw [destutter'_cons_pos _ (by simpa using heq)]
      rw [Bool.not_false, if_pos rfl, ih, map_append, append_assoc]
      rfl

theorem Represents.removeAdjacentDuplicates (eq : α → α → Bool) :
    Returns (v.removeAdjacentDuplicates L eq h) (Becomes L h objects
        ((objects.map (·.value)).destutter (fun a b => eq b a = false)) []) := by
  unfold Vector.removeAdjacentDuplicates
  rw [hv.size_eq]
  split
  · rename_i hle
    refine ⟨objects, hv, ?_, rfl, (append_nil _).symm⟩
    match objects, hle with
    | [], _ => rfl
    | [_], _ => rfl
  · obtain ⟨first, r, rfl⟩ := exists_cons_of_length_pos (by omega : 0 < objects.length)
    have hkeep : ∀ (v : Vector α) kept obj, 1 ≤ kept.length → v.Holds kept →
        v.HasRoom L kept.length → (do
          let previous ← v.get L (kept.length - 1)
          .ok (!eq obj.value previous.value)) =
            (.ok (differsFromLast eq kept obj) : Except Stop Bool) := by
      intro v kept obj hm hkpt hrm
      have hne : kept ≠ [] := length_pos_iff.1 hm
      have hla : kept[kept.length - 1]? = some (kept.getLast hne) := by
        rw [← getLast?_eq_getElem?, getLast?_eq_getLast_of_ne_nil hne]
      rw [get_ok L hkpt hrm hla, differsFromLast, getLast?_eq_getLast_of_ne_nil hne]
      rfl
    have hlp := hv.compactLoop (h := h) (fun v dst obj => do
      let previous ← v.get L (dst - 1)
      .ok (!eq obj.value previous.value)) (differsFromLast eq) (m := 1) (by simp) hkeep
    have hvs := compacted_map_value_destutter eq [] first r
    rw [nil_append] at hvs
    rw [take_succ_cons, take_zero, drop_succ_cons, drop_zero, hvs] at hlp
    exact hlp

/-! ## Construction, assignment and destruction -/

theorem Represents.destructor :
    v.destructor L h = .ok { h with destroyed := h.destroyed ++ objects } := by
  rw [Vector.destructor, hv.size_eq,
    destroyAt_ok L hv.holds hv.hasRoom_objects (le_of_eq (zero_add _)), drop_zero,
    take_length]

omit hv in
theorem construct_block {szBytes : Nat}
    (hcapacity : vs.length ≤ capacity) (hbs : szBytes = capacity * L.elementSize)
    (hbs_lt : szBytes < 2 ^ L.sizeTypeBits) (hcap_lt : capacity < 2 ^ L.sizeTypeBits) :
    Returns (do
      let (v, h) ← (empty : Vector α).reallocate L h capacity szBytes
      Vector.constructAt L { v with size := vs.length } h 0 vs)
      (Becomes L h [] vs []) := by
  refine .bind (empty_represents.reallocate (zero_le _) hbs hbs_lt hcap_lt) ?_
  rintro ⟨v', _⟩ ⟨hv', hcap, n, rfl⟩
  have hh : Holds { v' with size := vs.length } [] := .nil _
  obtain ⟨v'', hlp, hh', heq⟩ := constructAt_ok L (h := { h with requests := n }) vs
    hh (by rw [length_nil, zero_add]; exact hv'.hasRoom (hcap ▸ hcapacity))
  show Returns (constructAt L { v' with size := vs.length } _ 0 vs) _
  refine (congrArg (Returns · _) hlp).mpr ?_
  have hbal : Balanced h [] _ ([] ++ fresh h.stored vs) := balanced_fresh vs
  refine ⟨fresh h.stored vs, ?_, fresh_map_value _ _, hbal, (append_nil _).symm⟩
  refine ⟨hh', ?_, ?_, ?_, ?_, ?_⟩
  · rw [heq.size, fresh_length]
  · rw [heq.size, heq.capacity]
    exact hcap ▸ hcapacity
  · rw [heq.bytes, heq.capacity]
    exact hv'.bytes_eq
  · exact heq.bytes ▸ hv'.bytes_lt
  · exact heq.capacity ▸ hv'.capacity_lt

omit hv in
theorem construct_returns (hlen : vs.length < 2 ^ L.sizeTypeBits) :
    Returns (construct L h vs) (Becomes L h [] vs []) := by
  have hfst := firstAllocationSize_lt (L := L)
  unfold construct
  split
  · rename_i hz
    obtain rfl := eq_nil_of_length_eq_zero hz
    exact ⟨[], empty_represents, rfl, rfl, (append_nil _).symm⟩
  · refine .bind (mulOverflowCheckHalt_returns _ _) ?_
    intro sizeBytes hbs
    exact construct_block vs (le_max_right _ _) hbs.1 hbs.2 (by omega)

variable (ho : other.Represents L others)

include ho

omit hv in
/-- The block of a copy is not larger than a first block or the block of the original. -/
theorem Represents.copy_bytes_lt (hne : other.size ≠ 0) :
    max L.firstAllocationSize other.size * L.elementSize < 2 ^ L.sizeTypeBits := by
  rw [← Nat.mul_max_mul_right]
  apply Nat.max_lt.2 ⟨?_, ho.size_bytes_lt⟩
  unfold ElementLayout.firstAllocationSize
  split
  · rename_i hz
    rw [hz, mul_zero]
    exact Nat.two_pow_pos _
  · split
    · rw [one_mul]
      exact lt_of_le_of_lt (Nat.le_mul_of_pos_left _ (pos_of_ne_zero hne)) ho.size_bytes_lt
    · exact lt_of_le_of_lt (div_mul_le_self 16 _) sixteen_lt

omit hv in
theorem Represents.copyConstruct :
    Returns (copyConstruct L h other) (Becomes L h [] (others.map (·.value)) []) := by
  have hfst := firstAllocationSize_lt (L := L)
  unfold Vector.copyConstruct
  split
  · rename_i hz
    obtain rfl := eq_nil_of_length_eq_zero (ho.size_eq ▸ hz)
    exact ⟨[], empty_represents, rfl, rfl, (append_nil _).symm⟩
  · rename_i hne
    have hbs := ho.copy_bytes_lt hne
    have hsz : (others.map (·.value)).length = other.size := by
      rw [length_map, ho.size_eq]
    have hcap : max L.firstAllocationSize other.size < 2 ^ L.sizeTypeBits :=
      Nat.max_lt.2 ⟨hfst, lt_of_le_of_lt ho.size_le ho.capacity_lt⟩
    have hbl := construct_block (h := h) (others.map (·.value))
      (hsz ▸ le_max_right L.firstAllocationSize _) rfl hbs hcap
    show Returns (Vector.reallocate L empty h _
      (max L.firstAllocationSize other.size * L.elementSize % 2 ^ L.sizeTypeBits) >>= _) _
    rw [mod_eq_of_lt hbs]
    refine Eq.mp (congrArg (Returns · _) ?_) hbl
    congr 1
    funext ⟨v', h'⟩
    show _ = copyConstructAt L _ h' other 0 other.size
    rw [copyConstructAt_eq L ho.holds ho.hasRoom_objects
      (by rw [zero_add, ho.size_eq]), drop_zero, hsz]

section

omit ho

omit hv in
theorem length_assigned (hlen : objects.length = others.length) :
    (assigned objects others).length = objects.length := by
  rw [assigned, length_zipWith, hlen, min_self]

omit hv in
theorem assigned_map_value (hlen : objects.length = others.length) :
    (assigned objects others).map (·.value) = others.map (·.value) := by
  induction objects generalizing others with
  | nil =>
    obtain rfl := eq_nil_of_length_eq_zero hlen.symm
    rfl
  | cons object objects ih =>
    obtain ⟨other, others, rfl⟩ := exists_cons_of_length_pos (by rw [← hlen]; simp : 0 < others.length)
    rw [map_cons, ← ih (succ.inj hlen)]
    rfl

omit hv in
theorem ids_assigned (hlen : objects.length = others.length) :
    ids (assigned objects others) = ids objects := by
  suffices h : (assigned objects others).map (·.id) = objects.map (·.id) by rw [ids, ids, h]
  induction objects generalizing others with
  | nil => rfl
  | cons object objects ih =>
    obtain ⟨other, others, rfl⟩ := exists_cons_of_length_pos (by rw [← hlen]; simp : 0 < others.length)
    rw [map_cons, ← ih (succ.inj hlen)]
    rfl

end

theorem Represents.copyAssignAt :
    ∃ v' objects', Vector.copyAssignAt L v other 0 (min v.size other.size) = .ok v' ∧
      v'.Represents L objects' ∧ SameBlock v v' ∧ ids objects' = ids objects ∧
      (objects'.map (·.value)).take (min objects.length others.length) =
        (others.map (·.value)).take (min objects.length others.length) := by
  rw [hv.size_eq, ho.size_eq]
  generalize hm : min objects.length others.length = m
  have hlen : (objects.take m).length = (others.take m).length := by
    rw [length_take, length_take]
    omega
  obtain ⟨v', hlp, hh, heq⟩ := copyAssignAt_ok L [] [] m hv.holds
    hv.hasRoom_objects ho.holds ho.hasRoom_objects rfl (by omega) (by omega)
  have hass : (assigned (objects.take m) (others.take m)).length = m := by
    rw [length_assigned hlen, length_take]
    omega
  refine ⟨v', assigned (objects.take m) (others.take m) ++ objects.drop m, hlp, ?_, heq, ?_, ?_⟩
  · refine hv.resized heq hh (n := v'.size) ?_ (heq.size ▸ hv.size_le)
    rw [heq.size, hv.size_eq, length_append, length_drop]
    omega
  · rw [ids_append, ids_assigned hlen, ← ids_append, take_append_drop]
  · rw [map_append, take_append_of_le_length (by rw [length_map, hass]),
      assigned_map_value hlen]
    simp

theorem Represents.growTo (hlt : objects.length < others.length) :
    Returns (v.growTo L h other.size) fun r => r.1.Represents L objects ∧ others.length ≤ r.1.capacity ∧
      ∃ n, r.2 = { h with requests := n } := by
  have hsz := ho.size_eq
  have hbs := ho.size_bytes_lt
  unfold Vector.growTo
  split
  · rw [mod_eq_of_lt hbs]
    refine (hv.reallocate (by omega) rfl hbs
      (lt_of_le_of_lt ho.size_le ho.capacity_lt)).mono ?_
    rintro r ⟨hrep, hcap, hh⟩
    exact ⟨hrep, by omega, hh⟩
  · exact ⟨hv, by show _ ≤ v.capacity; omega, h.requests, rfl⟩

theorem Represents.copyTail
    (hlt : objects.length < others.length)
    (htk : objects.map (·.value) = (others.map (·.value)).take objects.length) :
    Returns (v.copyTail L h other) (Becomes L h objects (others.map (·.value)) []) := by
  have hsz := ho.size_eq
  refine .bind (hv.growTo ho hlt) ?_
  rintro ⟨v', _⟩ ⟨hv', hcap, n, rfl⟩
  have hsz' : v'.size = objects.length := hv'.size_eq
  have hlp := hv'.constructAt (h := { h with requests := n })
    ((others.drop objects.length).map (·.value))
    (by rw [length_map, length_drop, Nat.add_sub_cancel' hlt.le]; exact hcap)
  rw [length_map, length_drop, Nat.add_sub_cancel' hlt.le, ← hsz, htk, map_drop,
    take_append_drop, hsz', ← map_drop,
    ← copyConstructAt_eq L ho.holds ho.hasRoom_objects
      (n := other.size - objects.length) (by omega)] at hlp
  show Returns (copyConstructAt L v' _ other v'.size (other.size - v'.size) >>= _) _
  rw [hsz']
  exact hlp

theorem Represents.copyAssign :
    Returns (v.copyAssign L h other) (Becomes L h objects (others.map (·.value)) []) := by
  obtain ⟨v', objects', hass, hv', hsame, hids, htk⟩ := hv.copyAssignAt ho
  have hbal : Balanced h objects h objects' := by rw [Balanced, hids]
  have hlen : objects'.length = objects.length := by
    rw [← hv'.size_eq, hsame.size, hv.size_eq]
  have hsz : v'.size = objects'.length := hv'.size_eq
  have hlen' : (objects'.map (·.value)).length = objects'.length := length_map _
  have ho_len : (others.map (·.value)).length = others.length := length_map _
  unfold Vector.copyAssign
  rw [hass]
  suffices hrs : Returns (if v'.size < other.size then v'.copyTail L h other
      else if v'.size > other.size then do
        let h ← destroyAt L v' h other.size (v'.size - other.size)
        .ok ({ v' with size := other.size }, h)
      else .ok ({ v' with size := other.size }, h))
      (Becomes L h objects' (others.map (·.value)) []) by
    refine .mono hrs ?_
    intro result hres
    exact Becomes.trans hbal (append_nil _).symm hres
  rw [hsz, ho.size_eq]
  split
  · rename_i hlt
    rw [← hlen, min_eq_left hlt.le, take_of_length_le (by omega)] at htk
    exact hv'.copyTail ho hlt htk
  · split
    · rename_i hgt
      have htl := hv'.destroyTail (h := h) hgt.le
      rw [← hlen, min_eq_right hgt.le, take_of_length_le (l := others.map _) (by omega)] at htk
      rw [htk] at htl
      exact htl
    · have heq : objects'.length = others.length := by omega
      refine ⟨objects', ?_, ?_, rfl, (append_nil _).symm⟩
      · exact hv'.resized (.refl _) hv'.holds heq.symm (by have := hv'.size_le; omega)
      · rw [take_of_length_le (by omega),
          take_of_length_le (by omega)] at htk
        exact htk

end USprache.Ustlib.Vector
