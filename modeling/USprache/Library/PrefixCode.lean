import Mathlib.Data.List.Basic

/-!
# Prefix codes

A code maps values to words.  It decodes when the word of a value can be told apart from
what follows it, for the values and the followers it is meant for.
-/

namespace USprache.Library

open List

variable {α β : Type*}

/-- At the start of a text the words of `encode` for the values in `Valid` are read in one
way, if what is behind them is in `Follow`. -/
def Decodes (encode : α → List β) (Valid : α → Prop) (Follow : List β → Prop) : Prop :=
  ∀ ⦃a a' : α⦄ ⦃rest rest' : List β⦄, Valid a → Valid a' → Follow rest → Follow rest' →
    encode a ++ rest = encode a' ++ rest' → a = a' ∧ rest = rest'

namespace Decodes

variable {encode : α → List β} {Valid : α → Prop} {Follow : List β → Prop}

theorem mono {Valid' : α → Prop} {Follow' : List β → Prop} (h : Decodes encode Valid Follow)
    (hok : ∀ a, Valid' a → Valid a) (hfol : ∀ r, Follow' r → Follow r) :
    Decodes encode Valid' Follow' := by
  intro a a' r rest' ha ha' hrs hrs' heq
  exact h (hok a ha) (hok a' ha') (hfol _ hrs) (hfol _ hrs') heq

theorem of_prefixFree (h : ∀ a a', encode a <+: encode a' → a = a') :
    Decodes encode (fun _ => True) (fun _ => True) := by
  intro a a' r r' _ _ _ _ heq
  have haa' : a = a' := by
    rcases prefix_or_prefix_of_prefix ⟨r, heq⟩ (prefix_append (encode a') r') with hpre | hpre
    · exact h a a' hpre
    · exact (h a' a hpre).symm
  subst haa'
  exact ⟨rfl, append_cancel_left heq⟩

/-- A sequence of words is read in one way up to something that starts no word. -/
theorem list (Stop : List β → Prop) (h : Decodes encode Valid Follow)
    (hwd : ∀ a r, Valid a → Follow (encode a ++ r) ∧ ¬Stop (encode a ++ r))
    (hsto : ∀ r, Stop r → Follow r) :
    Decodes (flatMap encode) (fun as => ∀ a ∈ as, Valid a) Stop := by
  have hfol : ∀ (as : List α) (r : List β), (∀ a ∈ as, Valid a) → Stop r →
      Follow (as.flatMap encode ++ r) := by
    intro as r has hrs
    cases as with
    | nil => exact hsto r hrs
    | cons a as =>
      rw [flatMap_cons, append_assoc]
      exact (hwd a _ (has a mem_cons_self)).1
  intro as
  induction as with
  | nil =>
    intro as' r r' _ has' hrs _ heq
    cases as' with
    | nil => exact ⟨rfl, heq⟩
    | cons a' as' =>
      rw [flatMap_nil, nil_append, flatMap_cons, append_assoc] at heq
      exact absurd (heq ▸ hrs) (hwd a' _ (has' a' mem_cons_self)).2
  | cons a as ih =>
    intro as' r r' has has' hrs hrs' heq
    cases as' with
    | nil =>
      rw [flatMap_nil, nil_append, flatMap_cons, append_assoc] at heq
      exact absurd (heq.symm ▸ hrs') (hwd a _ (has a mem_cons_self)).2
    | cons a' as' =>
      rw [forall_mem_cons] at has has'
      simp only [flatMap_cons, append_assoc] at heq
      obtain ⟨rfl, htl⟩ := h has.1 has'.1 (hfol as r has.2 hrs) (hfol as' r' has'.2 hrs') heq
      obtain ⟨rfl, rfl⟩ := ih has.2 has'.2 hrs hrs' htl
      exact ⟨rfl, rfl⟩

/-- A prefix code with nothing behind its words is injective. -/
theorem injective (h : Decodes encode Valid Follow) (hnil : Follow []) {a a' : α} (ha : Valid a)
    (ha' : Valid a') (heq : encode a = encode a') : a = a' :=
  (h ha ha' hnil hnil (by rw [heq])).1

end Decodes

variable {r' r : List β}

/-- A text is split in one way behind its longest start of elements in `p`. -/
theorem append_inj_of_all {p : β → Prop} {a a' : List β} (ha : ∀ b ∈ a, p b)
    (ha' : ∀ b ∈ a', p b) (hrs : ∀ b ∈ r.head?, ¬p b) (hrs' : ∀ b ∈ r'.head?, ¬p b)
    (h : a ++ r = a' ++ r') : a = a' ∧ r = r' := by
  induction a generalizing a' with
  | nil =>
    cases a' with
    | nil => exact ⟨rfl, h⟩
    | cons b a' =>
      rw [nil_append] at h
      exact absurd (ha' b mem_cons_self) (hrs b (by rw [h]; rfl))
  | cons b a ih =>
    cases a' with
    | nil =>
      rw [nil_append] at h
      exact absurd (ha b mem_cons_self) (hrs' b (by rw [← h]; rfl))
    | cons b' a' =>
      rw [forall_mem_cons] at ha ha'
      rw [cons_append, cons_append, cons.injEq] at h
      obtain ⟨rfl, rfl⟩ := ih ha.2 ha'.2 h.2
      exact ⟨by rw [h.1], rfl⟩

/-- A part that starts with a fixed word may be there or not. -/
theorem optional_word {word body body' : List β} {p p' : Prop} [Decidable p]
    [Decidable p'] (hrs : ¬word <+: r) (hrs' : ¬word <+: r')
    (h : (if p then word ++ body else []) ++ r = (if p' then word ++ body' else []) ++ r') :
    (p ∧ p' ∧ body ++ r = body' ++ r') ∨ (¬p ∧ ¬p' ∧ r = r') := by
  by_cases hp : p <;> by_cases hp' : p'
  · rw [if_pos hp, if_pos hp', append_assoc, append_assoc] at h
    exact .inl ⟨hp, hp', append_cancel_left h⟩
  · rw [if_pos hp, if_neg hp', append_assoc] at h
    exact absurd ⟨_, h⟩ hrs'
  · rw [if_neg hp, if_pos hp', append_assoc] at h
    exact absurd ⟨_, h.symm⟩ hrs
  · rw [if_neg hp, if_neg hp'] at h
    exact .inr ⟨hp, hp', h⟩

theorem optional_flag {word : List β} {b b' : Bool} (hrs : ¬word <+: r) (hrs' : ¬word <+: r')
    (h : (if b then word else []) ++ r = (if b' then word else []) ++ r') :
    b = b' ∧ r = r' := by
  rw [← append_nil word] at h
  rcases optional_word hrs hrs' h with ⟨hb, hb', h⟩ | ⟨hb, hb', h⟩
  · exact ⟨hb.trans hb'.symm, h⟩
  · rw [Bool.not_eq_true] at hb hb'
    exact ⟨hb.trans hb'.symm, h⟩

end USprache.Library

/-!
## Conversion between encodings

A conversion takes one code after the other from the front of a sequence of units and
writes each to the end of another sequence.  If what is read for a symbol and what is
written for its code are its words, a text is converted to its other encoding.
-/

namespace USprache.Library

variable {α β γ σ : Type}

/-- Takes a code from the front.  It never stops at a sequence that is not empty. -/
structure Extractor (α γ : Type) where
  run : List α → γ × List α
  shorter : ∀ s, s ≠ [] → (run s).2.length < s.length

namespace Extractor

/-- The codes are taken until nothing is left, and each one is pushed to the result. -/
def convert (extractor : Extractor α γ) (push : List β → γ → List β) (s : List α) (res : List β) :
    List β :=
  if h : s = [] then res
  else
    have := extractor.shorter s h
    extractor.convert push (extractor.run s).2 (push res (extractor.run s).1)
termination_by s.length

def Reads (extractor : Extractor α γ) (code : σ → γ) (word : σ → List α) : Prop :=
  ∀ x rest, extractor.run (word x ++ rest) = (code x, rest)

/-- The codes are pushed as the words of the symbols. -/
def Writes (push : List β → γ → List β) (code : σ → γ) (word : σ → List β) : Prop :=
  ∀ res x, push res (code x) = res ++ word x

variable {extractor : Extractor α γ} {push : List β → γ → List β} {code : σ → γ}
  {word : σ → List α} {w' : σ → List β}

theorem convert_flatMap (hrds : extractor.Reads code word) (hwd : ∀ x, word x ≠ [])
    (hws : Writes push code w') (t : List σ) (res : List β) :
    extractor.convert push (t.flatMap word) res = res ++ t.flatMap w' := by
  induction t generalizing res with
  | nil =>
    rw [convert]
    simp
  | cons x t ih =>
    have hne : word x ++ t.flatMap word ≠ [] := by
      intro h
      exact hwd x (List.append_eq_nil_iff.1 h).1
    rw [List.flatMap_cons, convert, dif_neg hne]
    dsimp only
    rw [hrds, hws, ih, List.flatMap_cons, List.append_assoc]

end Extractor

end USprache.Library
