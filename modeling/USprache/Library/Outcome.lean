import Mathlib.Data.List.Basic

/-!
# Computations that may stop

`Meets allowed r post` says that a computation with the outcome `r` either returns a
result with `post` or stops for a reason that is allowed.  With no reason allowed it says
that the computation returns.
-/

namespace USprache.Library

variable {ε α β : Type} {allowed : ε → Prop}

def Meets (allowed : ε → Prop) (r : Except ε α) (post : α → Prop) : Prop :=
  match r with
  | .ok a => post a
  | .error e => allowed e

namespace Meets

variable {post post' : α → Prop} {post2 : β → Prop}

theorem ok {a : α} (h : post a) : Meets allowed (.ok a) post := h

theorem mono {r : Except ε α} (h : Meets allowed r post) (hpost : ∀ a, post a → post' a) :
    Meets allowed r post' := by
  cases r with
  | ok a => exact hpost a h
  | error e => exact h

theorem bind {r : Except ε α} {f : α → Except ε β} (h : Meets allowed r post)
    (hf : ∀ a, post a → Meets allowed (f a) post2) : Meets allowed (r >>= f) post2 := by
  cases r with
  | ok a => exact hf a h
  | error e => exact h

end Meets

end USprache.Library

/-!
## Computations with fuel

A function whose recursion is bounded by a fuel argument returns `none` when the fuel does
not last.  A loop over a list in such a function is a fold in `Option`.
-/

namespace USprache.Library

variable {α σ : Type*}

/-- A fold that succeeds also succeeds with steps that succeed at least as often. -/
theorem foldlM_mono {f g : σ → α → Option σ} {xs : List α}
    (h : ∀ x ∈ xs, ∀ s s', f s x = some s' → g s x = some s') :
    ∀ {s s' : σ}, xs.foldlM f s = some s' → xs.foldlM g s = some s' := by
  induction xs with
  | nil =>
    intro s s' hs
    exact hs
  | cons x xs ih =>
    intro s s' hs
    rw [List.foldlM_cons] at hs ⊢
    obtain ⟨s1, hx, hxs⟩ := Option.bind_eq_some_iff.1 hs
    rw [h x List.mem_cons_self s s1 hx]
    exact ih (fun y hy => h y (List.mem_cons_of_mem x hy)) hxs

/-- One fuel suffices for all members of a list, if more fuel never hurts. -/
theorem exists_common_fuel {P : α → Nat → Prop} (hmono : ∀ x n m, n ≤ m → P x n → P x m)
    {xs : List α} (h : ∀ x ∈ xs, ∃ n, P x n) : ∃ n, ∀ x ∈ xs, P x n := by
  induction xs with
  | nil => exact ⟨0, nofun⟩
  | cons x xs ih =>
    obtain ⟨n, hn⟩ := h x List.mem_cons_self
    obtain ⟨m, hm⟩ := ih (fun y hy => h y (List.mem_cons_of_mem x hy))
    refine ⟨max n m, ?_⟩
    intro y hy
    rcases List.mem_cons.1 hy with rfl | hy
    · exact hmono y n _ (Nat.le_max_left n m) hn
    · exact hmono y m _ (Nat.le_max_right n m) (hm y hy)

end USprache.Library

/-!
## Invariants of stateful computations

Rules for computations with a state that can fail.  `Keeps I p R` says that `p`, started
in a state with `I`, ends in one if it does not fail, with a result that has `R`.
-/

namespace USprache.Library

variable {σ ε α β : Type} {I : σ → Prop} {R : α → Prop} {Q : β → Prop}

def Keeps (I : σ → Prop) (p : StateT σ (Except ε) α) (R : α → Prop) : Prop :=
  ∀ s a s', I s → p s = .ok (a, s') → I s' ∧ R a

namespace Keeps

theorem pure {a : α} (ha : R a) : Keeps I (Pure.pure a : StateT σ (Except ε) α) R := by
  intro s b s' hs h
  cases h
  exact ⟨hs, ha⟩

variable {p : StateT σ (Except ε) α}

theorem bind {f : α → StateT σ (Except ε) β} (hp : Keeps I p R)
    (hf : ∀ a, R a → Keeps I (f a) Q) : Keeps I (p >>= f) Q := by
  intro s b s' hs h
  change (p s >>= fun r => f r.1 r.2) = .ok (b, s') at h
  cases hr : p s with
  | error fault => rw [hr] at h; cases h
  | ok r =>
    obtain ⟨a, s1⟩ := r
    rw [hr] at h
    obtain ⟨hs1, ha⟩ := hp s a s1 hs hr
    exact hf a ha s1 b s' hs1 h

theorem error {e : ε} : Keeps I (fun _ => .error e : StateT σ (Except ε) α) R := by
  intro s a s' _ h
  cases h

theorem ite {c : Prop} [Decidable c] {q : StateT σ (Except ε) α} (hp : c → Keeps I p R)
    (hq : ¬c → Keeps I q R) : Keeps I (if c then p else q) R := by
  split
  · exact hp ‹c›
  · exact hq ‹¬c›

theorem cond {c : Prop} [Decidable c] {q : StateT σ (Except ε) α} (hp : Keeps I p R)
    (hq : Keeps I q R) : Keeps I (if c then p else q) R :=
  .ite (fun _ => hp) fun _ => hq

end Keeps

end USprache.Library
