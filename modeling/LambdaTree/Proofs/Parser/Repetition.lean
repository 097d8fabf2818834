/-
  LambdaTree.Proofs.Parser.Repetition

  Repetition as a loop and by recursion.  `many` calls its parser again and
  again, and stops where it fails or reads nothing.  The definition that it
  stands for is recursive: the parser and then once more the same, or nothing.
  Both call the parser on the same inputs in the same sessions, one success
  after another (`Successive`); they part only where the parser succeeds and
  reads nothing, where the loop stops and the recursion goes on.
-/

import LambdaTree.Proofs.Parser.Rounds
import Mathlib.Algebra.Ring.Nat

namespace LambdaTree

variable {ι α : Type} {σ : Signature}

namespace Parser

variable [Symbol ι] {rules : Rules ι σ} {p : Parser ι σ α} {m : Parser ι σ (List α)}
  {input last : Input ι} {s s' after : Session ι σ} {answer : Except Halt (Reply ι (List α))}
  {value : α} {values : List α} {pieces : List (α × Nat)}

/-! ## Successive values -/

/-- Calls of a parser that succeed one after another, each on what the one before has left
    and in the session that it has left, with their values and the numbers of symbols
    read. -/
inductive Successive (rules : Rules ι σ) (p : Parser ι σ α) :
    Input ι → Session ι σ → List (α × Nat) → Input ι → Session ι σ → Prop where
  | nil (input : Input ι) (s : Session ι σ) : Successive rules p input s [] input s
  | cons {input last : Input ι} {s s' after : Session ι σ} {value : α} {n : Nat}
      {pieces : List (α × Nat)}
      (h : Yields rules p input s (.ok (.success value (input.drop n))) s')
      (hsize : input.size = n + (input.drop n).size)
      (hlater : Successive rules p (input.drop n) s' pieces last after) :
      Successive rules p input s ((value, n) :: pieces) last after

namespace Successive

theorem mayCall (h : Successive rules p input s pieces last after)
    (hs : MayCall rules input s) : MayCall rules last after := by
  induction h with
  | nil input s => exact hs
  | cons h _ _ ih => exact ih (h.mayCall hs)

theorem suffix (h : Successive rules p input s pieces last after) (hs : MayCall rules input s) :
    last.Suffix input := by
  induction h with
  | nil input s => exact .same input
  | cons h _ _ ih =>
      have hsuffix := h.suffix hs
      exact (ih (h.mayCall hs)).trans hsuffix

end Successive

/-! ## Where a repetition stops -/

/-- Behind some values the parser fails, and they are the answer, or it halts. -/
inductive Stops (rules : Rules ι σ) (p : Parser ι σ α) (last : Input ι) (s : Session ι σ)
    (values : List α) : Except Halt (Reply ι (List α)) → Session ι σ → Prop where
  | failed {diagnostic : Diagnostic} {place : Input ι} {after : Session ι σ}
      (h : Yields rules p last s (.ok (.failure diagnostic place)) after) :
      Stops rules p last s values (.ok (.success values last)) after
  | halted {halt : Halt} {after : Session ι σ} (h : Yields rules p last s (.error halt) after) :
      Stops rules p last s values (.error halt) after

/-- Behind some values the parser succeeds and reads nothing.  Its value is kept, if the
    length of the input is known. -/
def StopsIdle (rules : Rules ι σ) (p : Parser ι σ α) (last : Input ι) (s : Session ι σ)
    (values : List α) (answer : Except Halt (Reply ι (List α))) (after : Session ι σ) : Prop :=
  ∃ value, Yields rules p last s (.ok (.success value last)) after ∧
    answer = (Halt.check last.length).map fun _ => .success (values ++ [value]) last

theorem Stops.cons (h : Stops rules p last s values answer after) (value : α) :
    Stops rules p last s (value :: values) (answer.map (Reply.map (value :: ·))) after := by
  cases h with
  | failed h => exact .failed h
  | halted h => exact .halted h

theorem StopsIdle.cons (h : StopsIdle rules p last s values answer after) (value : α) :
    StopsIdle rules p last s (value :: values) (answer.map (Reply.map (value :: ·))) after := by
  obtain ⟨kept, hkept, rfl⟩ := h
  refine ⟨kept, hkept, ?_⟩
  cases Halt.check last.length <;> rfl

/-! ## The loop -/

omit [Symbol ι] in
theorem map_append_nil (answer : Except Halt (Reply ι (List α))) :
    answer.map (Reply.map ([] ++ ·)) = answer := by
  rcases answer with halt | reply
  · rfl
  · cases reply <;> rfl

omit [Symbol ι] in
/-- One more value in front of those of an answer. -/
theorem map_append_cons (value : α) (values : List α) (answer : Except Halt (Reply ι (List α))) :
    answer.map (Reply.map (value :: values ++ ·)) =
      (answer.map (Reply.map (values ++ ·))).map (Reply.map (value :: ·)) := by
  rcases answer with halt | reply
  · rfl
  · cases reply <;> rfl

/-- Behind successes that have read something, the loop goes on. -/
theorem Successive.many (h : Successive rules p input s pieces last s')
    (hs : MayCall rules input s) (hread : ∀ piece ∈ pieces, 0 < piece.2)
    (hlater : Yields rules (.many p) last s' answer after) :
    Yields rules (.many p) input s (answer.map (Reply.map (pieces.map Prod.fst ++ ·))) after := by
  induction h with
  | nil input s => rwa [List.map_nil, map_append_nil]
  | cons h hsize _ ih =>
      rw [List.forall_mem_cons] at hread
      have hlt := hread.1
      rw [List.map_cons, map_append_cons, yields_many_iff hs, round_iff_of_success h,
        loopsOn_iff (by omega)]
      exact ⟨_, ih (h.mayCall hs) hread.2 hlater, rfl⟩

/-- Behind successes the recursion goes on, whether they have read something or not. -/
theorem Successive.recursion (hm : DefinedAs rules m (onceMore p m))
    (h : Successive rules p input s pieces last s')
    (hlater : Yields rules m last s' answer after) :
    Yields rules m input s (answer.map (Reply.map (pieces.map Prod.fst ++ ·))) after := by
  induction h with
  | nil input s => rwa [List.map_nil, map_append_nil]
  | cons h _ _ ih =>
      rw [List.map_cons, map_append_cons, yields_recursion_iff hm, round_iff_of_success h]
      exact ⟨_, ih hlater, rfl⟩

/-- Wherever a parser is called on what is left of an input, it reads something if it
    succeeds. -/
def NeverIdle (rules : Rules ι σ) (p : Parser ι σ α) (input : Input ι) : Prop :=
  ∀ i s value rest after, i.Suffix input → MayCall rules i s →
    Yields rules p i s (.ok (.success value rest)) after → rest.size < i.size

theorem NeverIdle.suffix {rest : Input ι} (h : NeverIdle rules p input)
    (hrest : rest.Suffix input) : NeverIdle rules p rest :=
  fun i s value place after hi hs hp => h i s value place after (hi.trans hrest) hs hp

theorem NeverIdle.read (hp : NeverIdle rules p input) (hs : MayCall rules input s)
    (h : Successive rules p input s pieces last after) : ∀ piece ∈ pieces, 0 < piece.2 := by
  induction h with
  | nil input s => simp
  | @cons input last s s' after value n pieces h hsize _ ih =>
      have hsuffix : (input.drop n).Suffix input := h.suffix hs
      have hlt := hp input s value _ s' (.same input) hs h
      rw [List.forall_mem_cons]
      exact ⟨by simp only; omega, ih (hp.suffix hsuffix) (h.mayCall hs)⟩

end Parser

end LambdaTree
