/-
  LambdaTree.Term.Fold

  Folding a term: one case for each kind of node, applied from the leaves up.
  `Cases.descend` is the fold by recursion on the tree. `Cases.loop` computes
  it without recursion on the tree, with a list of tasks still to do and a
  list of the values folded so far, so that no tree is too deep for it; its
  cases may have effects, and `loop_enter` says that they happen in the order
  of the recursion. Every traversal of the library that combines the values of
  subterms is an instance of `Term.fold`, or of `Term.tryFold` if a case may fail.
-/

import LambdaTree.Term.Basic

namespace LambdaTree

variable {α ρ : Type} {m : Type → Type}

/-- What to do at each kind of node, given the values of its children. -/
structure Cases (m : Type → Type) (ρ : Type) where
  abs : String → ρ → m ρ
  app : ρ → ρ → m ρ
  var : String → m ρ

/-- A step of a fold that is still to be done. -/
inductive Task (α : Type) where
  /-- Fold a whole term. -/
  | enter (t : Term α)
  /-- Combine the values of the children of a term's topmost node. -/
  | leave (t : Term α)

/-- A bound on the number of steps that a task takes. -/
def Task.weight : Task α → Nat
  | .enter t => 2 * t.size
  | .leave _ => 1

/-- A bound on the number of steps that some tasks take together. -/
def Task.weights : List (Task α) → Nat
  | [] => 0
  | task :: tasks => task.weight + weights tasks

theorem Task.weights_enter_append (terms : List (Term α)) (rest : List (Task α)) :
    weights (terms.map Task.enter ++ rest) = 2 * Term.sizes terms + weights rest := by
  induction terms with
  | nil => simp [Term.sizes]
  | cons t terms ih =>
    simp only [List.map_cons, List.cons_append, weights, weight, Term.sizes, ih]
    omega

/-- Expanding a term into its children takes one of its two steps. -/
theorem Task.weights_expand_lt (t : Term α) (rest : List (Task α)) :
    weights (t.children.map Task.enter ++ .leave t :: rest) < weights (.enter t :: rest) := by
  rw [weights_enter_append, weights, weights, weight, weight, t.size_eq_children]
  omega

namespace Cases

/-- Does the tasks in order. Values are pushed on the list of folded values as they
    arise, so the argument of an application lies above its function. The answer is
    the list of values left at the end, or `none` when a value was missing. -/
def loop [Monad m] (cases : Cases m ρ) : List (Task α) → List ρ → m (Option (List ρ))
  | [], folded => pure (some folded)
  | .enter t :: rest, folded =>
    cases.loop (t.children.map .enter ++ .leave t :: rest) folded
  | .leave (.var _ name) :: rest, folded => do
    let value ← cases.var name
    cases.loop rest (value :: folded)
  | .leave (.abs _ binder _) :: rest, body :: folded => do
    let value ← cases.abs binder body
    cases.loop rest (value :: folded)
  | .leave (.app _ _ _) :: rest, arg :: func :: folded => do
    let value ← cases.app func arg
    cases.loop rest (value :: folded)
  | .leave _ :: _, _ => pure none
termination_by tasks => Task.weights tasks
decreasing_by
  · exact Task.weights_expand_lt t rest
  all_goals simp [Task.weights, Task.weight]

/-- The fold by recursion on the tree: the function before the argument, the children
    before their parent. -/
def descend [Monad m] (cases : Cases m ρ) : Term α → m ρ
  | .var _ name => cases.var name
  | .abs _ binder body => do
    let body ← cases.descend body
    cases.abs binder body
  | .app _ func arg => do
    let func ← cases.descend func
    let arg ← cases.descend arg
    cases.app func arg

/-- To enter a term is to fold it and go on with its value on top. -/
theorem loop_enter [Monad m] [LawfulMonad m] (cases : Cases m ρ) (t : Term α)
    (rest : List (Task α)) (folded : List ρ) :
    cases.loop (.enter t :: rest) folded =
      cases.descend t >>= fun value => cases.loop rest (value :: folded) := by
  induction t generalizing rest folded with
  | var note name => simp [loop, descend, Term.children]
  | abs note binder body ih =>
    rw [loop]
    simp [descend, Term.children, ih, loop]
  | app note func arg ihf iha =>
    rw [loop]
    simp [descend, Term.children, ihf, iha, loop]

/-- A run that starts with one term ends with its value alone. -/
theorem loop_single [Monad m] [LawfulMonad m] (cases : Cases m ρ) (t : Term α) :
    cases.loop [.enter t] [] = (fun value => some [value]) <$> cases.descend t := by
  rw [loop_enter]
  simp [loop]

/-- A run in which no case fails leaves one value, that of the term. -/
theorem loop_eq_ok {cases : Cases (Except ε) ρ} {t : Term α} {left : Option (List ρ)}
    (h : cases.loop [.enter t] [] = .ok left) :
    ∃ value, cases.descend t = .ok value ∧ left = some [value] := by
  rw [loop_single] at h
  cases hvalue : cases.descend t with
  | error e => rw [hvalue] at h; cases h
  | ok value => rw [hvalue] at h; cases h; exact ⟨value, rfl, rfl⟩

/-- A run fails as the recursion does. -/
theorem loop_eq_error {cases : Cases (Except ε) ρ} {t : Term α} {e : ε}
    (h : cases.loop [.enter t] [] = .error e) : cases.descend t = .error e := by
  rw [loop_single] at h
  cases hvalue : cases.descend t with
  | error e' => rw [hvalue] at h; cases h; rfl
  | ok value => rw [hvalue] at h; cases h

end Cases

namespace Term

/-- Cases without effects. -/
def pureCases (abs : String → ρ → ρ) (app : ρ → ρ → ρ) (var : String → ρ) : Cases Id ρ where
  abs := abs
  app := app
  var := var

/-- Replaces every node by the case for its kind. -/
def fold (abs : String → ρ → ρ) (app : ρ → ρ → ρ) (var : String → ρ) (t : Term α) : ρ :=
  match h : (pureCases abs app var).loop [.enter t] [] with
  | some [value] => value
  | none | some [] | some (_ :: _ :: _) => nomatch (Cases.loop_single _ t).symm.trans h

section

variable (abs : String → ρ → ρ) (app : ρ → ρ → ρ) (var : String → ρ)

theorem fold_eq_descend (t : Term α) :
    t.fold abs app var = (pureCases abs app var).descend t := by
  have single := Cases.loop_single (pureCases abs app var) t
  unfold fold
  split
  · rename_i value h
    have same : some [value] = some [(pureCases abs app var).descend t] := h.symm.trans single
    simpa using same
  all_goals (rename_i h; exact nomatch single.symm.trans h)

@[simp] theorem fold_var (note : α) (name : String) :
    (Term.var note name).fold abs app var = var name := by
  rw [fold_eq_descend]; rfl

@[simp] theorem fold_abs (note : α) (binder : String) (body : Term α) :
    (Term.abs note binder body).fold abs app var = abs binder (body.fold abs app var) := by
  simp only [fold_eq_descend]; rfl

@[simp] theorem fold_app (note : α) (func arg : Term α) :
    (Term.app note func arg).fold abs app var =
      app (func.fold abs app var) (arg.fold abs app var) := by
  simp only [fold_eq_descend]; rfl

end

/-- Replaces every node by the case for its kind, as long as no case fails. -/
def tryFold (cases : Cases (Except ε) ρ) (t : Term α) : Except ε ρ :=
  match h : cases.loop [.enter t] [] with
  | .error e => .error e
  | .ok (some [value]) => .ok value
  | .ok none | .ok (some []) | .ok (some (_ :: _ :: _)) =>
    False.elim (by obtain ⟨value, -, ⟨⟩⟩ := Cases.loop_eq_ok h)

theorem tryFold_eq_descend (cases : Cases (Except ε) ρ) (t : Term α) :
    t.tryFold cases = cases.descend t := by
  unfold tryFold
  split
  · rename_i e h
    exact (Cases.loop_eq_error h).symm
  · rename_i value h
    obtain ⟨_, hvalue, ⟨⟩⟩ := Cases.loop_eq_ok h
    exact hvalue.symm
  all_goals (rename_i h; obtain ⟨_, -, ⟨⟩⟩ := Cases.loop_eq_ok h)

/-- The same term with the same note on every node. -/
def annotate (note : β) (t : Term α) : Term β :=
  t.fold (.abs note) (.app note) (.var note)

/-- One application of a case, with the places in the record of the applications that
    made its operands. -/
inductive Call where
  | var (name : String)
  | abs (binder : String) (body : Nat)
  | app (func arg : Nat)
deriving DecidableEq

/-- Adds a call to the record; its value is its place there. -/
def record (call : Call) : StateM (Array Call) Nat :=
  modifyGet fun calls => (calls.size, calls.push call)

/-- The cases that do nothing but record their calls. -/
def recorder : Cases (StateM (Array Call)) Nat where
  abs binder body := record (.abs binder body)
  app func arg := record (.app func arg)
  var name := record (.var name)

/-- The calls of a fold in the order in which they happen. -/
def calls (t : Term α) : List Call :=
  ((recorder.loop [.enter t] []).run #[]).2.toList

end Term

end LambdaTree
