import Mathlib.Data.Finset.Card

/-!
# Search along a path

A depth-first search that keeps only the vertices of the current path, and gives up at one that
it comes to again.  What it answers inside of a cycle is not the truth about a vertex, but the
answer for the vertex it starts with is.
-/

namespace USprache.Library

open Relation List Option

variable {V : Type*}

/-- Try the alternatives from left to right and stop at the first success. -/
def anyOf (go : V → Option Bool) : List V → Option Bool
  | [] => some false
  | v :: rest => (go v).bind fun found => if found then some true else anyOf go rest

variable {go : V → Option Bool} {vs : List V}

theorem anyOf_returns (h : ∀ v ∈ vs, ∃ b, go v = some b) : ∃ b, anyOf go vs = some b := by
  induction vs with
  | nil => exact ⟨false, rfl⟩
  | cons v vs ih =>
    obtain ⟨found, hfd⟩ := h v mem_cons_self
    rw [anyOf, hfd, bind_some]
    split
    · exact ⟨true, rfl⟩
    · exact ih fun w hw => h w (mem_cons_of_mem v hw)

theorem anyOf_eq_some {b : Bool} (h : anyOf go vs = some b) :
    b = true ↔ ∃ v ∈ vs, go v = some true := by
  induction vs with
  | nil =>
    cases h
    simp
  | cons v vs ih =>
    obtain ⟨found, hfd, hrs⟩ := bind_eq_some_iff.1 h
    cases found with
    | true =>
      cases hrs
      exact ⟨fun _ => ⟨v, mem_cons_self, hfd⟩, fun _ => rfl⟩
    | false =>
      rw [ih hrs]
      constructor
      · rintro ⟨w, hw, htr⟩
        exact ⟨w, mem_cons_of_mem v hw, htr⟩
      · rintro ⟨w, hw, htr⟩
        rcases mem_cons.1 hw with rfl | hw
        · rw [hfd] at htr
          cases htr
        · exact ⟨w, hw, htr⟩

theorem anyOf_eq_false (h : anyOf go vs = some false) : ∀ v ∈ vs, go v = some false := by
  induction vs with
  | nil =>
    intro v hv
    cases hv
  | cons w vs ih =>
    obtain ⟨found, hfd, hrs⟩ := bind_eq_some_iff.1 h
    cases found with
    | true => cases hrs
    | false =>
      intro v hv
      rcases mem_cons.1 hv with rfl | hv
      · exact hfd
      · exact ih hrs v hv

theorem anyOf_append (go : V → Option Bool) (vs ws : List V) : anyOf go (vs ++ ws) =
    (anyOf go vs).bind fun found => if found then some true else anyOf go ws := by
  induction vs with
  | nil => rfl
  | cons v vs ih =>
    rw [cons_append, anyOf, ih, anyOf]
    cases go v with
    | none => rfl
    | some found => cases found <;> rfl

theorem anyOf_singleton (go : V → Option Bool) (v : V) : anyOf go [v] = go v := by
  rw [anyOf]
  cases go v with
  | none => rfl
  | some found => cases found <;> rfl

variable [DecidableEq V] (successors : V → List V) (isGoal : V → Bool)

/-- Whether a goal can be reached without the vertices of the path, `none` if the fuel does not
last. -/
def pathSearch : Nat → List V → V → Option Bool
  | 0, _, _ => none
  | fuel + 1, path, v =>
    if v ∈ path then some false
    else if isGoal v then some true
    else anyOf (pathSearch fuel (v :: path)) (successors v)

variable {successors isGoal}

def Around (successors : V → List V) (path : List V) (v w : V) : Prop := w ∈ successors v ∧ w ∉ path

section Walks

omit [DecidableEq V]

variable {path : List V} {v w : V}

/-- The first step of a walk away from a vertex leads around it. -/
theorem exists_first_step (h : ReflTransGen (Around successors (v :: path)) v w) (hne : v ≠ w) :
    ∃ u ∈ successors v, u ∉ v :: path ∧ ReflTransGen (Around successors (v :: path)) u w := by
  rcases h.cases_head with heq | ⟨u, ⟨hu, haro⟩, hrs⟩
  · exact absurd heq hne
  · exact ⟨u, hu, haro, hrs⟩

/-- Behind its last visit of a vertex, a walk does not come to it again. -/
theorem exists_last_visit (h : ReflTransGen (Around successors path) v w) (hne : v ≠ w) :
    ∃ u ∈ successors v, u ∉ v :: path ∧ ReflTransGen (Around successors (v :: path)) u w := by
  have hwk : ∀ {x : V}, ReflTransGen (Around successors path) x w →
      ReflTransGen (Around successors (v :: path)) x w ∨ ∃ u ∈ successors v, u ∉ v :: path ∧
        ReflTransGen (Around successors (v :: path)) u w := by
    intro x hx
    induction hx using ReflTransGen.head_induction_on with
    | refl => exact .inl .refl
    | head hst _ ih =>
      rename_i y _
      rcases ih with hy | hexit
      · by_cases hyv : y = v
        · rw [hyv] at hy
          exact .inr (exists_first_step hy hne)
        · exact .inl (.head ⟨hst.1, by simp [hyv, hst.2]⟩ hy)
      · exact .inr hexit
  rcases hwk h with h | hexit
  · exact exists_first_step h hne
  · exact hexit

theorem Around.mono {u : V} (h : Around successors (u :: path) v w) : Around successors path v w :=
  ⟨h.1, fun hmem => h.2 (mem_cons_of_mem u hmem)⟩

theorem around_nil :
    ReflTransGen (Around successors []) v w ↔ ReflTransGen (fun v w => w ∈ successors v) v w := by
  have heq : Around successors [] = fun v w => w ∈ successors v := by
    funext v w
    simp [Around]
  rw [heq]

end Walks

theorem pathSearch_returns {ns : Finset V} (hcls : ∀ v ∈ ns, ∀ w ∈ successors v, w ∈ ns) :
    ∀ {fuel : Nat} {path : List V} {v : V}, v ∈ ns → (ns \ path.toFinset).card < fuel →
      ∃ b, pathSearch successors isGoal fuel path v = some b := by
  intro fuel
  induction fuel with
  | zero =>
    intro path v _ hf
    exact absurd hf (Nat.not_lt_zero _)
  | succ fuel ih =>
    intro path v hv hf
    rw [pathSearch]
    split
    · exact ⟨false, rfl⟩
    · rename_i hp
      split
      · exact ⟨true, rfl⟩
      · apply anyOf_returns
        intro w hw
        apply ih (hcls v hv w hw)
        have hlt : (ns \ (v :: path).toFinset).card < (ns \ path.toFinset).card := by
          apply Finset.card_lt_card
          rw [Finset.ssubset_iff_of_subset]
          · exact ⟨v, by simp [hv, hp], by simp⟩
          · intro x hx
            simp only [Finset.mem_sdiff, List.mem_toFinset, mem_cons, not_or] at hx ⊢
            exact ⟨hx.1, hx.2.2⟩
        omega

/-- A search that returns has found a goal exactly if one can be reached around the path. -/
theorem pathSearch_eq_some : ∀ {fuel : Nat} {path : List V} {v : V} {b : Bool},
    pathSearch successors isGoal fuel path v = some b →
      (b = true ↔ v ∉ path ∧ ∃ w, isGoal w = true ∧ ReflTransGen (Around successors path) v w) := by
  intro fuel
  induction fuel with
  | zero =>
    intro path v b h
    cases h
  | succ fuel ih =>
    intro path v b h
    rw [pathSearch] at h
    split at h
    · rename_i hp
      cases h
      exact iff_of_false Bool.false_ne_true fun hnot => hnot.1 hp
    · rename_i hp
      split at h
      · rename_i hgoal
        cases h
        exact ⟨fun _ => ⟨hp, v, hgoal, .refl⟩, fun _ => rfl⟩
      · rename_i hgoal
        constructor
        · intro htr
          obtain ⟨u, hu, hfd⟩ := (anyOf_eq_some h).1 htr
          obtain ⟨haro, w, hw, hrch⟩ := (ih hfd).1 rfl
          have hu' : Around successors path v u := ⟨hu, fun hmem => haro (mem_cons_of_mem v hmem)⟩
          exact ⟨hp, w, hw, .head hu' (hrch.lift id fun _ _ => Around.mono)⟩
        · rintro ⟨-, w, hw, hrch⟩
          have hne : v ≠ w := by
            rintro rfl
            exact hgoal hw
          obtain ⟨u, hu, haro, hrs⟩ := exists_last_visit hrch hne
          cases b with
          | true => rfl
          | false => exact (ih (anyOf_eq_false h u hu)).2 ⟨haro, w, hw, hrs⟩

theorem pathSearch_spec {ns : Finset V}
    (hcls : ∀ v ∈ ns, ∀ w ∈ successors v, w ∈ ns) {fuel : Nat} {v : V} (hv : v ∈ ns)
    (hf : ns.card < fuel) :
    ∃ b, pathSearch successors isGoal fuel [] v = some b ∧
      (b = true ↔ ∃ w, isGoal w = true ∧ ReflTransGen (fun v w => w ∈ successors v) v w) := by
  obtain ⟨b, hb⟩ := @pathSearch_returns V _ successors isGoal ns hcls fuel [] v hv (by
    simpa using hf)
  refine ⟨b, hb, ?_⟩
  rw [pathSearch_eq_some hb]
  simp only [not_mem_nil, not_false_eq_true, true_and, around_nil]

end USprache.Library
