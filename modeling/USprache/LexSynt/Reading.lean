import Mathlib.Order.Filter.AtTopBot.Basic
import USprache.LexSynt.SyntaxAnalyzer

/-!
# Reading lexems without errors

`Reads p shapes F R` says that `p`, at lexems of the given types and texts, reads exactly
these and reports no error, provided the lexem behind them has a type with `F`.  Its
result has `R`.  The rules follow the steps of the parser, so that a method is read off
its body.

The bound on the depth of the calls only has to be large enough: results about the
methods hold for all but finitely many bounds.
-/

namespace USprache.LexSynt

open List

/-- What the parser uses of a lexem besides its location. -/
structure Shape where
  type : LexemType
  text : Text
deriving DecidableEq

def Lexem.shape (it : Lexem) : Shape := ⟨it.type, it.text⟩

def ParserState.withLexems (st : ParserState) (lexems : List Lexem) : ParserState :=
  { st with lexems := lexems }

def Reads {α : Type} (p : Parser α) (shapes : List Shape) (F : LexemType → Prop) (R : α → Prop) :
    Prop :=
  ∀ (st : ParserState) (lexems : List Lexem) (next : Lexem) (rest : List Lexem),
    lexems.map Lexem.shape = shapes → F next.type →
      ∃ a, p (st.withLexems (lexems ++ next :: rest)) = .ok (a, st.withLexems (next :: rest)) ∧ R a

def StartsWith (types : List LexemType) (shapes : List Shape) : Prop :=
  ∃ s rest, shapes = s :: rest ∧ s.type ∈ types

variable {shapes : List Shape} {ts : List LexemType}

theorem StartsWith.append (h : StartsWith ts shapes)
    (shs' : List Shape) : StartsWith ts (shapes ++ shs') := by
  obtain ⟨s, r, rfl, hs⟩ := h
  exact ⟨s, r ++ shs', rfl, hs⟩

/-- The lexem behind the first of two parts is of a type with `F1`. -/
def Follows (F1 : LexemType → Prop) (shapes : List Shape) (F2 : LexemType → Prop) : Prop :=
  match shapes with
  | [] => ∀ type, F2 type → F1 type
  | s :: _ => F1 s.type

theorem follows_true {F : LexemType → Prop} : Follows (fun _ => True) shapes F := by
  cases shapes with
  | nil => exact fun _ _ => trivial
  | cons _ _ => trivial

theorem StartsWith.follows
    {F1 F2 : LexemType → Prop} (h : StartsWith ts shapes) (hF : ∀ t ∈ ts, F1 t) :
    Follows F1 shapes F2 := by
  obtain ⟨s, rest, rfl, hs⟩ := h
  exact hF s.type hs

namespace Reads

open USprache.LexSynt.Parser

variable {α β : Type} {p : Parser α} {s : Shape} {F F1 F2 : LexemType → Prop} {R : α → Prop}
  {Q : β → Prop}

theorem mono {R' : α → Prop} (h : Reads p shapes F R) (hF : ∀ t, F1 t → F t)
    (hR : ∀ a, R a → R' a) : Reads p shapes F1 R' := by
  intro st lxs next r hlxs hnx
  obtain ⟨a, hp, ha⟩ := h st lxs next r hlxs (hF _ hnx)
  exact ⟨a, hp, hR a ha⟩

theorem pure {a : α} (ha : R a) : Reads (Pure.pure a) [] F R := by
  intro st lexems next rest hlxs hnx
  obtain rfl := map_eq_nil_iff.1 hlxs
  exact ⟨a, rfl, ha⟩

theorem bind {f : α → Parser β} {shs1 shs2 : List Shape} (hp : Reads p shs1 F1 R)
    (hf : ∀ a, R a → Reads (f a) shs2 F2 Q) (hfo : Follows F1 shs2 F2) :
    Reads (p >>= f) (shs1 ++ shs2) F2 Q := by
  intro st lexems next rs hlxs hnx
  obtain ⟨lxs1, lxs2, rfl, h1, h2⟩ := map_eq_append_iff.1 hlxs
  have behind : ∃ next' r', lxs2 ++ next :: rs = next' :: r' ∧ F1 next'.type := by
    cases lxs2 with
    | nil =>
      subst h2
      exact ⟨next, rs, rfl, hfo _ hnx⟩
    | cons it lxs2 =>
      subst h2
      exact ⟨it, _, rfl, hfo⟩
  obtain ⟨next', r', heq, hnx'⟩ := behind
  obtain ⟨a, hpa, ha⟩ := hp st lxs1 next' r' h1 hnx'
  obtain ⟨b, hfb, hb⟩ := hf a ha st lxs2 next rs h2 hnx
  refine ⟨b, ?_, hb⟩
  rw [append_assoc, heq]
  change (p _ >>= fun r => f r.1 r.2) = _
  rw [hpa, ← hfb, heq]
  rfl

theorem bind_behind {f : α → Parser β} (hp : Reads p shapes F1 R)
    (hf : ∀ a, R a → Reads (f a) [] F2 Q) (hF : ∀ t, F2 t → F1 t) :
    Reads (p >>= f) shapes F2 Q :=
  append_nil shapes ▸ Reads.bind hp hf hF

theorem map {f : α → β} (hp : Reads p shapes F R) (hf : ∀ a, R a → Q (f a)) :
    Reads (p >>= fun a => Pure.pure (f a)) shapes F Q :=
  Reads.bind_behind hp (fun a ha => Reads.pure (hf a ha)) fun _ hty => hty

variable {f : Lexem → Parser β}

theorem current (hf : ∀ it, it.type = s.type → it.text = s.text → Reads (f it) (s :: shapes) F Q) :
    Reads (current >>= f) (s :: shapes) F Q := by
  intro st lxs next r hlxs hnx
  obtain ⟨it, lxs, rfl, hit, hlxs'⟩ := map_eq_cons_iff.1 hlxs
  exact hf it (congrArg Shape.type hit) (congrArg Shape.text hit) st (it :: lxs) next r hlxs hnx

theorem current_behind (hf : ∀ it, F it.type → Reads (f it) [] F Q) :
    Reads (Parser.current >>= f) [] F Q := by
  intro st lexems next r hlxs hnx
  obtain rfl := map_eq_nil_iff.1 hlxs
  exact hf next hnx st [] next r rfl hnx

theorem nextLexem {f : Unit → Parser β} (hf : Reads (f ()) shapes F Q) :
    Reads (nextLexem >>= f) (s :: shapes) F Q := by
  intro st lxs next r hlxs hnx
  obtain ⟨it, lxs, rfl, hit, hlxs'⟩ := map_eq_cons_iff.1 hlxs
  have hnot : (st.withLexems (it :: lxs ++ next :: r)).nextLexem =
      st.withLexems (lxs ++ next :: r) := by
    unfold ParserState.nextLexem ParserState.notEndOfFile
    rw [if_pos (by simp [ParserState.withLexems])]
    rfl
  obtain ⟨b, hfb, hb⟩ := hf st lxs next r hlxs' hnx
  refine ⟨b, ?_, hb⟩
  change f () (ParserState.nextLexem _) = _
  rw [hnot, hfb]

theorem expectLexem {f : Unit → Parser β} {t : LexemType} (hs : s.type = t)
    (hf : Reads (f ()) shapes F Q) : Reads (expectLexem t >>= f) (s :: shapes) F Q := by
  have hexpect : Reads (Parser.expectLexem t) [s] (fun _ => True) fun _ => True := by
    refine Reads.current fun it hty _ => ?_
    rw [if_pos (hty.trans hs)]
    exact (Reads.nextLexem (f := Pure.pure) (Reads.pure trivial))
  exact Reads.bind hexpect (fun _ _ => hf) follows_true

theorem notEndOfFile {f : Bool → Parser β} (hf : Reads (f true) (s :: shapes) F Q) :
    Reads (notEndOfFile >>= f) (s :: shapes) F Q := by
  intro st lxs next r hlxs hnx
  obtain ⟨it, lxs, rfl, hit, hlxs'⟩ := map_eq_cons_iff.1 hlxs
  obtain ⟨b, hfb, hb⟩ := hf st (it :: lxs) next r hlxs hnx
  refine ⟨b, ?_, hb⟩
  have hnot : (st.withLexems (it :: lxs ++ next :: r)).notEndOfFile = true := by
    simp [ParserState.notEndOfFile, ParserState.withLexems]
  change f (ParserState.notEndOfFile _) _ = _
  rw [hnot, hfb]

theorem notEndOfFile_behind {f : Bool → Parser β} (hf : ∀ b, Reads (f b) [] F Q) :
    Reads (Parser.notEndOfFile >>= f) [] F Q := by
  intro st lxs next r hlxs hnx
  exact hf _ st lxs next r hlxs hnx

theorem current_starting (hsts : StartsWith ts shapes)
    (hf : ∀ it, it.type ∈ ts → Reads (f it) shapes F Q) :
    Reads (Parser.current >>= f) shapes F Q := by
  obtain ⟨s, rest, rfl, hs⟩ := hsts
  refine Reads.current fun it hty _ => hf it ?_
  rw [hty]
  exact hs

theorem notEndOfFile_starting (hsts : StartsWith ts shapes)
    {f : Bool → Parser β} (hf : Reads (f true) shapes F Q) :
    Reads (Parser.notEndOfFile >>= f) shapes F Q := by
  obtain ⟨s, rest, rfl, -⟩ := hsts
  exact Reads.notEndOfFile hf

end Reads

end USprache.LexSynt
