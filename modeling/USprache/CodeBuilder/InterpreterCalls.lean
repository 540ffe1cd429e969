import Mathlib.Algebra.Ring.Nat
import Mathlib.Data.List.Forall2
import USprache.CodeBuilder.InterpreterMemory

/-!
# By-value arguments

The loop of `Interpreter::ProcessCall` copies every by-value object to the end of the stack.  It
reads the object at `stack_.data()` plus its virtual address, which is the object only when the
address is one of the stack; an address behind the stack segment reads outside of the vector.
-/

namespace USprache.CodeBuilder.Interpreter

open List Memory

/-- An argument of a call: its value, and the allocated size of its object when the parameter
is passed by value. -/
structure CallArgument where
  value : Nat
  byVal : Option Nat

/-- One turn of the argument loop: the value that the callee gets. -/
def passArgument (m : Memory) (arg : CallArgument) : Except Stop (Memory × Nat) :=
  match arg.byVal with
  | none => .ok (m, arg.value)
  | some objectSize => do
    let newAddressValue := (m.bytes .stack).length
    let grown ← m.grow .stack ((newAddressValue + objectSize) % 2 ^ 64)
    let object ← grown.readSegment .stack arg.value objectSize
    let copied ← grown.write .stack newAddressValue object
    return (copied, newAddressValue)

def passArguments (m : Memory) : List CallArgument → Except Stop (Memory × List Nat)
  | [] => .ok (m, [])
  | arg :: args => do
    let (m, value) ← passArgument m arg
    let (m, values) ← passArguments m args
    return (m, value :: values)

variable (callFunction : Memory → List Nat → Memory)

/-- `ProcessCall` for a function of the program; `callFunction` is what its body does. -/
def processCall (m : Memory)
    (args : List CallArgument) : Except Stop Memory := do
  let (entry, values) ← passArguments m args
  (callFunction entry values).grow .stack (m.bytes .stack).length

/-- What the copy of an argument promises: it holds the bytes of the object at the call, and no
store into it reaches a byte of the caller. -/
structure ByvalCopied (m entry : Memory) (arg : CallArgument) (value : Nat) : Prop where
  copied : ∀ size, arg.byVal = some size →
    ∃ object, m.read arg.value size = .ok object ∧ entry.read value size = .ok object
  apart : ∀ size, arg.byVal = some size → ∀ i bytes after, i + bytes.length ≤ size →
    entry.store (value + i) bytes = .ok after → m.Extends after

/-- A call whose copies keep their promise and that gives the stack its size back. -/
def Passed (m : Memory)
    (args : List CallArgument) : Prop :=
  ∃ entry values after, passArguments m args = .ok (entry, values) ∧
    Forall₂ (ByvalCopied m entry) args values ∧
    processCall callFunction m args = .ok after ∧
    (after.bytes .stack).length = (m.bytes .stack).length

def CallArgument.copySize (arg : CallArgument) : Nat := arg.byVal.getD 0

/-- A by-value argument is the address of an object of its size. -/
def CallArgument.Live (m : Memory) (arg : CallArgument) : Prop :=
  ∀ size, arg.byVal = some size → ∃ object, m.read arg.value size = .ok object

def CallArgument.OnStack (arg : CallArgument) : Prop :=
  ∀ size, arg.byVal = some size → size = 0 ∨ arg.value < gGlobalsSegmentOffset

variable {m m' : Memory} {arg : CallArgument} {args : List CallArgument}

theorem getMemoryForVirtualAddress_stack {addr : Nat} (h : addr < gGlobalsSegmentOffset) :
    getMemoryForVirtualAddress addr = (.stack, addr) := by
  have hheap : gGlobalsSegmentOffset ≤ gHeapSegmentOffset := by decide
  rw [getMemoryForVirtualAddress, if_neg (by omega), if_neg (by omega)]

theorem Memory.stack_lt (m : Memory) : (m.bytes .stack).length < gGlobalsSegmentOffset :=
  lt_trans (m.lt_maxSize .stack) (by decide)

/-- A turn that ends keeps the caller's bytes, and its by-value object was on the stack. -/
theorem passArgument_spec {v : Nat} (hlive : arg.Live m) (h : passArgument m arg = .ok (m', v)) :
    m.Extends m' ∧ (m'.bytes .stack).length = (m.bytes .stack).length + arg.copySize ∧
      ∀ sz, arg.byVal = some sz → v = (m.bytes .stack).length ∧
        (sz = 0 ∨ arg.value < gGlobalsSegmentOffset) ∧
        m'.read v sz = m.read arg.value sz := by
  rw [passArgument] at h
  cases hby : arg.byVal with
  | none =>
    rw [hby] at h
    cases h
    exact ⟨.refl m, by rw [CallArgument.copySize, hby]; rfl, fun _ => nofun⟩
  | some sz =>
    obtain ⟨obj, hob⟩ := hlive sz hby
    obtain ⟨-, hbd⟩ := readSegment_length hob
    -- An object lies within its segment, so that the sum does not wrap.
    have hwrap : (m.bytes .stack).length + sz < 2 ^ 64 := by
      have hstk := m.stack_lt
      have hseg := m.lt_maxSize (getMemoryForVirtualAddress arg.value).1
      have hmax : (getMemoryForVirtualAddress arg.value).1.maxSize ≤ 1024 * 1024 * 64 := by
        cases (getMemoryForVirtualAddress arg.value).1 <;> decide
      rw [gGlobalsSegmentOffset, gMaxDataStackSize] at hstk
      omega
    simp only [hby, Nat.mod_eq_of_lt hwrap, bind_eq_ok] at h
    obtain ⟨grown, hgrow, bytes, hrd, copied, hw, hres⟩ := h
    cases hres
    have hext : m.Extends grown := grow_extends hgrow (Nat.le_add_right _ _)
    obtain ⟨hlen, hon⟩ := readSegment_length hrd
    have hstk := grown.stack_lt
    refine ⟨write_extends hext (le_refl _) hw, ?_, fun _ hsm => ?_⟩
    · rw [write_length hw, grow_length hgrow, CallArgument.copySize, hby]
      rfl
    · cases hsm
      refine ⟨rfl, by omega, ?_⟩
      have heq : bytes = obj := by
        rcases hon with rfl | hon
        · rw [length_eq_zero_iff.1 hlen, length_eq_zero_iff.1 (readSegment_length hob).1]
        · rw [Memory.read, getMemoryForVirtualAddress_stack (by omega)] at hob
          exact Except.ok.inj (hrd.symm.trans (readSegment_extends hext hob))
      have hcp := write_read hw
      rw [Memory.read, getMemoryForVirtualAddress_stack m.stack_lt, hob, ← heq, ← hcp, hlen]

theorem passArgument_ok (hlive : arg.Live m) (hon : arg.OnStack)
    (hfit : (m.bytes .stack).length + arg.copySize < gMaxDataStackSize) :
    ∃ r, passArgument m arg = .ok r := by
  rw [passArgument]
  cases hby : arg.byVal with
  | none => exact ⟨_, rfl⟩
  | some sz =>
    rw [CallArgument.copySize, hby] at hfit
    have hwrap : (m.bytes .stack).length + sz < 2 ^ 64 := lt_trans hfit (by decide)
    obtain ⟨grown, hgrow⟩ : ∃ grown, m.grow .stack ((m.bytes .stack).length + sz) = .ok grown :=
      ⟨_, dif_pos hfit⟩
    obtain ⟨obj, hob⟩ := hlive sz hby
    obtain ⟨bytes, hrd⟩ : ∃ bytes, grown.readSegment .stack arg.value sz = .ok bytes := by
      rcases hon sz hby with rfl | had
      · exact ⟨_, if_pos (.inl rfl)⟩
      · rw [Memory.read, getMemoryForVirtualAddress_stack had] at hob
        exact ⟨obj, readSegment_extends (grow_extends hgrow (Nat.le_add_right _ _)) hob⟩
    obtain ⟨copied, hw⟩ : ∃ copied, grown.write .stack (m.bytes .stack).length bytes = .ok copied :=
      ⟨_, dif_pos (le_of_eq (by
        rw [(readSegment_length hrd).1, grow_length hgrow]))⟩
    simp only [Nat.mod_eq_of_lt hwrap]
    exact ⟨_, bind_eq_ok.2 ⟨_, hgrow, bind_eq_ok.2 ⟨_, hrd, bind_eq_ok.2 ⟨_, hw, rfl⟩⟩⟩⟩

theorem passArguments_spec {m m' e : Memory} {vs : List Nat} (hext : m.Extends m')
    (hlive : ∀ arg ∈ args, arg.Live m) (h : passArguments m' args = .ok (e, vs)) :
    m'.Extends e ∧
      (e.bytes .stack).length = (m'.bytes .stack).length + (args.map (·.copySize)).sum ∧
      (∀ arg ∈ args, arg.OnStack) ∧ Forall₂ (ByvalCopied m e) args vs := by
  induction args generalizing m' vs with
  | nil =>
    cases h
    exact ⟨.refl _, rfl, nofun, .nil⟩
  | cons arg args ih =>
    rw [passArguments] at h
    simp only [bind_eq_ok] at h
    obtain ⟨⟨m1, v⟩, hpass, ⟨m2, vs'⟩, hrs, hres⟩ := h
    change Except.ok (m2, v :: vs') = _ at hres
    cases hres
    have hlive' : arg.Live m' := fun sz hsz =>
      (hlive arg mem_cons_self sz hsz).imp fun _ => read_extends hext
    obtain ⟨hext1, hlen, hcp⟩ := passArgument_spec hlive' hpass
    obtain ⟨hext2, hlen', hon, hcop⟩ :=
      ih (hext.trans hext1) (fun a ha => hlive a (mem_cons_of_mem _ ha)) hrs
    refine ⟨hext1.trans hext2, ?_, ?_, .cons ⟨fun sz hsz => ?_, ?_⟩ hcop⟩
    · rw [map_cons, sum_cons, hlen', hlen, add_assoc]
    · intro a ha
      rcases mem_cons.1 ha with rfl | ha
      · exact fun sz hsz => (hcp sz hsz).2.1
      · exact hon a ha
    · obtain ⟨obj, hob⟩ := hlive arg mem_cons_self sz hsz
      have hrd := (hcp sz hsz).2.2.trans (read_extends hext hob)
      exact ⟨obj, hob, read_extends hext2 hrd⟩
    · intro sz hsz i bytes after hi hsto
      obtain ⟨rfl, -⟩ := hcp sz hsz
      have hsz' : arg.copySize = sz := by rw [CallArgument.copySize, hsz]; rfl
      have hstk := e.stack_lt
      rw [store, getMemoryForVirtualAddress_stack (by omega)] at hsto
      exact write_extends (hext.trans (hext1.trans hext2))
        (Nat.le_add_right_of_le (hext .stack).length_le) hsto

theorem passArguments_ok (hlive : ∀ arg ∈ args, arg.Live m) (hon : ∀ arg ∈ args, arg.OnStack)
    (hfit : (m.bytes .stack).length + (args.map (·.copySize)).sum < gMaxDataStackSize) :
    ∃ r, passArguments m args = .ok r := by
  induction args generalizing m with
  | nil => exact ⟨_, rfl⟩
  | cons arg args ih =>
    rw [map_cons, sum_cons] at hfit
    obtain ⟨⟨m1, value⟩, hpass⟩ :=
      passArgument_ok (hlive arg mem_cons_self) (hon arg mem_cons_self) (by omega)
    obtain ⟨hext, hlen, -⟩ := passArgument_spec (hlive arg mem_cons_self) hpass
    have hlive' : ∀ a ∈ args, a.Live m1 := fun a ha sz hsz =>
      (hlive a (mem_cons_of_mem _ ha) sz hsz).imp fun _ => read_extends hext
    obtain ⟨r, hrs⟩ := ih hlive' (fun a ha => hon a (mem_cons_of_mem _ ha)) (by omega)
    exact ⟨_, bind_eq_ok.2 ⟨_, hpass, bind_eq_ok.2 ⟨_, hrs, rfl⟩⟩⟩

/-- By-value arguments are passed rightly exactly when their copies fit and every object is on
the stack. -/
theorem byval_passed_iff (m : Memory)
    (args : List CallArgument) (hlive : ∀ arg ∈ args, arg.Live m) :
    Passed callFunction m args ↔
      (m.bytes .stack).length + (args.map (·.copySize)).sum < gMaxDataStackSize ∧
        ∀ arg ∈ args, arg.OnStack := by
  constructor
  · rintro ⟨entry, values, after, hpass, -⟩
    obtain ⟨-, hlength, hon, -⟩ := passArguments_spec (.refl m) hlive hpass
    exact ⟨hlength ▸ entry.lt_maxSize .stack, hon⟩
  · intro ⟨hfits, hon⟩
    obtain ⟨⟨entry, values⟩, hpass⟩ := passArguments_ok hlive hon hfits
    obtain ⟨-, -, -, hcopies⟩ := passArguments_spec (.refl m) hlive hpass
    obtain ⟨after, hafter⟩ : ∃ after,
        (callFunction entry values).grow .stack (m.bytes .stack).length = .ok after :=
      ⟨_, dif_pos (m.lt_maxSize .stack)⟩
    exact ⟨entry, values, after, hpass, hcopies, bind_eq_ok.2 ⟨_, hpass, hafter⟩,
      grow_length hafter⟩

/-- One byte in every segment. -/
def smallMemory : Memory where
  bytes := fun _ => [7]
  lt_maxSize := fun s => by cases s <;> decide

theorem byval_passed_stack : Passed (fun m _ => m) smallMemory [⟨0, some 1⟩] :=
  (byval_passed_iff _ smallMemory [⟨0, some 1⟩] (by
    intro arg harg size hsize
    cases mem_singleton.1 harg
    cases hsize
    exact ⟨[7], rfl⟩)).2 ⟨by decide, by
      intro arg harg size hsize
      cases mem_singleton.1 harg
      exact .inr (by decide)⟩

/-- The object at the start of the globals is there, and a call that takes it by value reads
outside of the stack. -/
theorem not_byval_passed_globals : smallMemory.read gGlobalsSegmentOffset 1 = .ok [7] ∧
    ¬ Passed (fun m _ => m) smallMemory [⟨gGlobalsSegmentOffset, some 1⟩] := by
  refine ⟨rfl, ?_⟩
  rintro ⟨entry, values, after, hpass, -⟩
  cases hpass

end USprache.CodeBuilder.Interpreter
