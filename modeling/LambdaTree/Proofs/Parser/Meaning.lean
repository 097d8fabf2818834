/-
  LambdaTree.Proofs.Parser.Meaning

  What a parser answers when nothing is remembered and nothing is recorded.
  `Parser.eval` follows `Parser.exec` without a session; `Parser.evalAt` is its
  instance for rules that may call each other to a bounded depth.

  A deeper bound only turns runs that were too deep into answers: answers that
  were given stay as they are (`evalAt_mono`).  The order in which this is said
  is `Approx`, where a run that went too deep approximates every answer.
-/

import LambdaTree.Parser.Run

namespace LambdaTree

/-! ## The order of answers -/

/-- `r` is the answer `s`, unless it ran too deep to say. -/
def Approx {α : Type} (r s : Except Halt α) : Prop :=
  r = .error .tooDeep ∨ r = s

namespace Approx

variable {α β : Type} {r s t : Except Halt α}

theorem refl (r : Except Halt α) : Approx r r :=
  Or.inr rfl

theorem tooDeep (s : Except Halt α) : Approx (.error .tooDeep) s :=
  Or.inl rfl

theorem trans (h₁ : Approx r s) (h₂ : Approx s t) : Approx r t := by
  rcases h₁ with h | h
  · exact Or.inl h
  · rw [h]
    exact h₂

theorem eq_of_ne (h : Approx r s) (hr : r ≠ .error .tooDeep) : r = s :=
  h.resolve_left hr

theorem eq_of_ok {v : α} (h : Approx (.ok v) s) : s = .ok v :=
  (h.eq_of_ne (by simp)).symm

/-- Two answers that approximate a common third do not contradict each other. -/
theorem eq_of_common (hr : Approx r t) (hs : Approx s t)
    (hr' : r ≠ .error .tooDeep) (hs' : s ≠ .error .tooDeep) : r = s :=
  (hr.eq_of_ne hr').trans (hs.eq_of_ne hs').symm

/-- Sequencing is monotone, also when the continuations are comparable only at values
    that are reached. -/
theorem bind {f g : α → Except Halt β} (h : Approx r s)
    (hk : ∀ v, s = .ok v → Approx (f v) (g v)) : Approx (r >>= f) (s >>= g) := by
  rcases h with h | h
  · -- The first part ran too deep, and so did the whole.
    rw [h]
    exact tooDeep _
  · subst h
    cases r with
    | error halt => exact refl _
    | ok v => exact hk v rfl

end Approx

/-- A computation that may meet a fault. -/
def Halt.check {α : Type} : Except Fault α → Except Halt α
  | .ok value => .ok value
  | .error cause => .error (.fault cause)

theorem Halt.check_eq_ok {α : Type} {x : Except Fault α} {v : α} (h : Halt.check x = .ok v) :
    x = .ok v := by
  cases x with
  | error cause => cases h
  | ok w => simpa [Halt.check] using h

namespace Parser

variable {ι α β : Type} {σ : Signature}

/-! ## Answers without a session -/

/-- The first success among answers, or the failure of all of them, with the failures so
    far, the latest first. -/
def settle (input : Input ι) :
    List (Except Halt (Reply ι α)) → List (Diagnostic × Input ι) → Except Halt (Reply ι α)
  | [], failures => Halt.check (allFailed input failures.reverse)
  | answer :: answers, failures => do
    match ← answer with
    | .success value rest => return .success value rest
    | .failure diagnostic rest => settle input answers ((diagnostic, rest) :: failures)

/-- The values of a step repeated until it fails, or succeeds with no less input left. -/
def collect (step : Input ι → Except Halt (Reply ι α)) (input : Input ι) :
    Except Halt (List α × Input ι) := do
  match ← step input with
  | .failure _ _ => return ([], input)
  | .success value rest =>
    let _ ← Halt.check rest.length
    let _ ← Halt.check input.length
    if rest.size < input.size then
      let (values, last) ← collect step rest
      return (value :: values, last)
    else
      return ([value], rest)
termination_by input.size

/-- A meaning of the rules that needs no session. -/
abbrev Calls (ι : Type) (σ : Signature) : Type :=
  (name : σ.Rule) → Input ι → Except Halt (Reply ι (σ.ruleValue name))

/-- What a parser answers when nothing is remembered, for a given meaning of the rules. -/
def eval [Symbol ι] (call : Calls ι σ) :
    {α : Type} → Parser ι σ α → Input ι → Except Halt (Reply ι α)
  | _, .succeed value, input => return .success value input
  | _, .fail message, input => return .failure (.stated message) input
  | _, .satisfy test, input => Halt.check (accept test input)
  | _, .seq function argument, input => do
    match ← eval call function input with
    | .failure diagnostic rest => return .failure (.nest .function [diagnostic.lines]) rest
    | .success f middle =>
      match ← eval call argument middle with
      | .failure diagnostic rest => return .failure (.nest .argument [diagnostic.lines]) rest
      | .success value rest => return .success (← Halt.check (f value)) rest
  | _, .choice _ alternative, input =>
    settle input (List.ofFn fun i => eval call (alternative i) input) []
  | _, .complete parser, input => do Halt.check (requireEnd (← eval call parser input))
  | _, .rule name, input => call name input
  | _, .many parser, input => do
    let (values, rest) ← collect (eval call parser) input
    return .success values rest
  | _, .memo _ parser, input => eval call parser input
  | _, .measure parser, input => do Halt.check (countRead input (← eval call parser input))
  | _, .tally _ parser, input => do
    let _ ← Halt.check input.length
    eval call parser input
  | _, .map change parser, input => return (← eval call parser input).map change

/-- The meaning of rules that may call each other to a given depth. -/
def callsAt [Symbol ι] (rules : Rules ι σ) : (depth : Nat) → Calls ι σ
  | 0, _, _ => .error .tooDeep
  | depth + 1, name, input => eval (callsAt rules depth) (rules name) input

/-- What a parser answers when rules may call each other to a given depth. -/
def evalAt [Symbol ι] (rules : Rules ι σ) (depth : Nat) (parser : Parser ι σ α)
    (input : Input ι) : Except Halt (Reply ι α) :=
  eval (callsAt rules depth) parser input

/-! ## Monotonicity -/

/-- One meaning of the rules approximates another. -/
def Calls.Approx (low high : Calls ι σ) : Prop :=
  ∀ name input, LambdaTree.Approx (low name input) (high name input)

theorem settle_mono {input : Input ι} {n : Nat} {f g : Fin n → Except Halt (Reply ι α)}
    (h : ∀ i, Approx (f i) (g i)) (failures : List (Diagnostic × Input ι)) :
    Approx (settle input (List.ofFn f) failures) (settle input (List.ofFn g) failures) := by
  induction n generalizing failures with
  | zero => simpa using Approx.refl _
  | succ n ih =>
      simp only [List.ofFn_succ, settle]
      refine (h 0).bind fun reply _ => ?_
      cases reply with
      | success value rest => exact Approx.refl _
      | failure diagnostic rest => exact ih (fun i => h i.succ) _

theorem collect_mono {f g : Input ι → Except Halt (Reply ι α)}
    (h : ∀ input, Approx (f input) (g input)) (input : Input ι) :
    Approx (collect f input) (collect g input) := by
  fun_induction collect f input with
  | case1 input ih =>
      rw [collect]
      refine (h input).bind fun reply _ => ?_
      cases reply with
      | failure diagnostic rest => exact Approx.refl _
      | success value rest =>
          -- The lengths are asked of the same inputs on both sides.
          refine (Approx.refl _).bind fun _ _ => (Approx.refl _).bind fun _ _ => ?_
          by_cases hlt : rest.size < input.size
          · simp only [hlt, if_true]
            exact (ih rest hlt).bind fun _ _ => Approx.refl _
          · simp only [hlt, if_false]
            exact Approx.refl _

theorem eval_mono [Symbol ι] {low high : Calls ι σ} (h : low.Approx high) (p : Parser ι σ α)
    (input : Input ι) : Approx (eval low p input) (eval high p input) := by
  induction p generalizing input with
  | succeed value => exact Approx.refl _
  | fail message => exact Approx.refl _
  | satisfy test => exact Approx.refl _
  | seq function argument ihf iha =>
      refine (ihf input).bind fun reply _ => ?_
      cases reply with
      | failure diagnostic rest => exact Approx.refl _
      | success f middle => exact (iha middle).bind fun _ _ => Approx.refl _
  | choice count alternative ih => exact settle_mono (fun i => ih i input) []
  | complete p ih => exact (ih input).bind fun _ _ => Approx.refl _
  | rule name => exact h name input
  | many p ih => exact (collect_mono ih input).bind fun _ _ => Approx.refl _
  | memo cell p ih => exact ih input
  | measure p ih => exact (ih input).bind fun _ _ => Approx.refl _
  | tally name p ih => exact (Approx.refl _).bind fun _ _ => ih input
  | map change p ih => exact (ih input).bind fun _ _ => Approx.refl _

section

variable [Symbol ι] (rules : Rules ι σ)

theorem callsAt_succ (depth : Nat) : (callsAt rules depth).Approx (callsAt rules (depth + 1)) := by
  -- At depth zero every call runs too deep; beyond, the rules call what is approximated.
  induction depth with
  | zero => exact fun _ _ => Approx.tooDeep _
  | succ depth ih => exact fun name input => eval_mono ih (rules name) input

theorem callsAt_mono {m n : Nat} (h : m ≤ n) : (callsAt rules m).Approx (callsAt rules n) := by
  induction h with
  | refl => exact fun _ _ => Approx.refl _
  | step _ ih => exact fun name input => (ih name input).trans (callsAt_succ rules _ name input)

/-- A deeper bound keeps every answer. -/
theorem evalAt_mono {m n : Nat} (h : m ≤ n) (p : Parser ι σ α) (input : Input ι) :
    Approx (evalAt rules m p input) (evalAt rules n p input) :=
  eval_mono (callsAt_mono rules h) p input

/-- Answers at two depths agree. -/
theorem evalAt_unique {m n : Nat} {p : Parser ι σ α} {input : Input ι}
    (hm : evalAt rules m p input ≠ .error .tooDeep)
    (hn : evalAt rules n p input ≠ .error .tooDeep) :
    evalAt rules m p input = evalAt rules n p input :=
  (evalAt_mono rules (Nat.le_max_left m n) p input).eq_of_common
    (evalAt_mono rules (Nat.le_max_right m n) p input) hm hn

end

end Parser

end LambdaTree
