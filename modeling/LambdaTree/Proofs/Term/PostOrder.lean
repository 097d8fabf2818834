/-
  LambdaTree.Proofs.Term.PostOrder

  The order in which a fold calls its cases.  The loop over a list of tasks is
  the recursion on the tree (`Cases.loop_single`), so the calls are followed
  there: they go through the nodes in post-order, each with the values of the
  node's children, until one of them raises an error (`exists_calls`).
-/

import LambdaTree.Term.Fold
import LambdaTree.Term.Measure

namespace LambdaTree

variable {α γ δ ε ρ : Type} {m : Type → Type}

namespace Term

/-- The subterms of a term in post-order: the whole function side before the argument
    side, and both before the application. -/
def postorder : Term α → List (Term α)
  | .var note name => [.var note name]
  | .abs note binder body => body.postorder ++ [.abs note binder body]
  | .app note func arg => func.postorder ++ (arg.postorder ++ [.app note func arg])

theorem length_postorder (t : Term α) : t.postorder.length = t.size := by
  induction t with
  | var note name => rfl
  | abs note binder body ih =>
      rw [postorder, List.length_append, List.length_singleton, ih, size, Nat.add_comm]
  | app note func arg ihf iha =>
      rw [postorder, List.length_append, List.length_append, List.length_singleton, ihf, iha, size]
      omega

end Term

/-! ## Calls of cases that may raise an error -/

/-- A call of a case: the name at a node, and the values of the node's children. -/
inductive Visit (ρ : Type) where
  | var (name : String)
  | abs (binder : String) (body : ρ)
  | app (func arg : ρ)
deriving DecidableEq

namespace Cases

/-- What comes of a call. -/
def answer (cases : Cases m ρ) : Visit ρ → m ρ
  | .var name => cases.var name
  | .abs binder body => cases.abs binder body
  | .app func arg => cases.app func arg

/-- The call at the topmost node of a term, once its children are folded. -/
def visit [Monad m] (cases : Cases m ρ) : Term α → m (Visit ρ)
  | .var _ name => pure (.var name)
  | .abs _ binder body => do
    let body ← cases.descend body
    return .abs binder body
  | .app _ func arg => do
    let func ← cases.descend func
    let arg ← cases.descend arg
    return .app func arg

/-- A call that is put on record before it is made, so that an error leaves it there. -/
def recordedAnswer (cases : Cases (Except ε) ρ) (visit : Visit ρ) :
    ExceptT ε (StateM (List (Visit ρ))) ρ := do
  modify (· ++ [visit])
  liftExcept (cases.answer visit)

/-- The same cases with a record of their calls. -/
def recorded (cases : Cases (Except ε) ρ) : Cases (ExceptT ε (StateM (List (Visit ρ)))) ρ where
  abs binder body := cases.recordedAnswer (.abs binder body)
  app func arg := cases.recordedAnswer (.app func arg)
  var name := cases.recordedAnswer (.var name)

/-- Nodes are visited one after the other, each with the values of its children, until a
    call raises an error. -/
inductive Calls (cases : Cases (Except ε) ρ) :
    List (Term α) → List (Visit ρ) → Except ε Unit → Prop where
  | done : Calls cases [] [] (.ok ())
  | returned {s : Term α} {visit : Visit ρ} {value : ρ} {nodes : List (Term α)}
      {visits : List (Visit ρ)} {outcome : Except ε Unit} :
      cases.visit s = .ok visit → cases.answer visit = .ok value →
      Calls cases nodes visits outcome → Calls cases (s :: nodes) (visit :: visits) outcome
  | raised {s : Term α} {visit : Visit ρ} {e : ε} {nodes : List (Term α)} :
      cases.visit s = .ok visit → cases.answer visit = .error e →
      Calls cases (s :: nodes) [visit] (.error e)

namespace Calls

variable {cases : Cases (Except ε) ρ} {nodes nodes' : List (Term α)}
  {visits visits' : List (Visit ρ)} {outcome : Except ε Unit} {e : ε}

theorem append (h : Calls cases nodes visits (.ok ())) (h' : Calls cases nodes' visits' outcome) :
    Calls cases (nodes ++ nodes') (visits ++ visits') outcome := by
  generalize hok : (.ok () : Except ε Unit) = returned at h
  induction h with
  | done => exact h'
  | returned hvisit hanswer _ ih => exact .returned hvisit hanswer (ih hok)
  | raised => cases hok

/-- The nodes behind an error are not visited. -/
theorem stop (h : Calls cases nodes visits (.error e)) :
    Calls cases (nodes ++ nodes') visits (.error e) := by
  generalize herror : (.error e : Except ε Unit) = raised at h
  induction h with
  | done => cases herror
  | returned hvisit hanswer _ ih => exact .returned hvisit hanswer (ih herror)
  | raised hvisit hanswer => exact .raised hvisit hanswer

end Calls

/-- A computation on record that visits some nodes, and what comes of it. -/
def Records (cases : Cases (Except ε) ρ) (x : ExceptT ε (StateM (List (Visit ρ))) γ)
    (outcome : Except ε γ) (nodes : List (Term α)) : Prop :=
  ∀ record, ∃ visits, x.run.run record = (outcome, record ++ visits) ∧
    Calls cases nodes visits ((fun _ => ()) <$> outcome)

theorem records_answer {cases : Cases (Except ε) ρ} {s : Term α} {visit : Visit ρ}
    (h : cases.visit s = .ok visit) :
    Records cases (cases.recordedAnswer visit) (cases.answer visit) [s] := by
  intro record
  refine ⟨[visit], ?_, ?_⟩
  · rw [recordedAnswer]
    cases cases.answer visit <;> rfl
  · cases hanswer : cases.answer visit with
    | error e => exact .raised h hanswer
    | ok value => exact .returned h hanswer .done

/-- After an error nothing more is visited, so the nodes of the second part do not matter
    then. -/
theorem Records.bind {cases : Cases (Except ε) ρ} {x : ExceptT ε (StateM (List (Visit ρ))) γ}
    {outcome : Except ε γ} {f : γ → ExceptT ε (StateM (List (Visit ρ))) δ}
    {next : γ → Except ε δ} {nodes nodes' : List (Term α)} (hx : Records cases x outcome nodes)
    (hf : ∀ value, outcome = .ok value → Records cases (f value) (next value) nodes') :
    Records cases (x >>= f) (outcome >>= next) (nodes ++ nodes') := by
  intro record
  obtain ⟨visits, hrun, hcalls⟩ := hx record
  cases outcome with
  | error e =>
      refine ⟨visits, ?_, hcalls.stop⟩
      rw [ExceptT.run_bind, StateT.run_bind, hrun]
      rfl
  | ok value =>
      obtain ⟨visits', hrun', hcalls'⟩ := hf value rfl (record ++ visits)
      refine ⟨visits ++ visits', ?_, hcalls.append hcalls'⟩
      rw [ExceptT.run_bind, StateT.run_bind, hrun, ← List.append_assoc]
      exact hrun'

/-- Folding a term visits its nodes in post-order. -/
theorem records_descend (cases : Cases (Except ε) ρ) (t : Term α) :
    Records cases (cases.recorded.descend t) (cases.descend t) t.postorder := by
  induction t with
  | var note name => exact records_answer rfl
  | abs note binder body ih =>
      refine ih.bind fun value hvalue => records_answer ?_
      rw [visit, hvalue]
      rfl
  | app note func arg ihf iha =>
      refine ihf.bind fun left hleft => iha.bind fun right hright => records_answer ?_
      rw [visit, hleft, hright]
      rfl

/-- A loop that records its calls makes those of the recursion, and ends as it does. -/
theorem exists_calls (cases : Cases (Except ε) ρ) (t : Term α) :
    ∃ visits, (cases.recorded.loop [.enter t] []).run.run [] =
        ((fun value => some [value]) <$> cases.descend t, visits) ∧
      Calls cases t.postorder visits ((fun _ => ()) <$> cases.descend t) := by
  obtain ⟨visits, hrun, hcalls⟩ := records_descend cases t []
  refine ⟨visits, ?_, hcalls⟩
  rw [loop_single, ExceptT.run_map, StateT.run_map, hrun]
  rfl

end Cases

/-! ## The trace of a fold -/

namespace Term

/-- The call at a node whose place in the trace is given.  The node's children lie right
    before it: its body or its argument ends there, and the function before the argument. -/
def callAt (place : Nat) : Term α → Call
  | .var _ name => .var name
  | .abs _ binder _ => .abs binder (place - 1)
  | .app _ _ arg => .app (place - 1 - arg.size) (place - 1)

/-- The calls at the nodes of a term when the trace goes on from a place. -/
def traceFrom (place : Nat) (t : Term α) : List Call :=
  t.postorder.mapIdx fun i s => callAt (place + i) s

theorem length_traceFrom (place : Nat) (t : Term α) : (t.traceFrom place).length = t.size := by
  rw [traceFrom, List.length_mapIdx, length_postorder]

theorem traceFrom_abs (place : Nat) (note : α) (binder : String) (body : Term α) :
    (Term.abs note binder body).traceFrom place =
      body.traceFrom place ++ [.abs binder (place + body.size - 1)] := by
  rw [traceFrom, traceFrom, postorder, List.mapIdx_append, length_postorder]
  simp [callAt]

theorem traceFrom_app (place : Nat) (note : α) (func arg : Term α) :
    (Term.app note func arg).traceFrom place =
      func.traceFrom place ++ (arg.traceFrom (place + func.size) ++
        [.app (place + func.size - 1) (place + func.size + arg.size - 1)]) := by
  have hplace (i : Nat) : place + (i + func.size) = place + func.size + i := by omega
  have hfunc : place + func.size + arg.size - 1 - arg.size = place + func.size - 1 := by
    have hpos := func.size_pos
    omega
  rw [traceFrom, traceFrom, traceFrom, postorder, List.mapIdx_append, List.mapIdx_append,
    length_postorder, length_postorder]
  simp [callAt, hplace, hfunc]

theorem run_record (call : Call) (trace : Array Call) :
    (record call).run trace = (trace.size, trace.push call) := rfl

theorem size_append_traceFrom (t : Term α) (place : Nat) (trace : Array Call) :
    (trace ++ (t.traceFrom place).toArray).size = trace.size + t.size := by
  simp [length_traceFrom]

/-- The calls that a fold records come behind what the trace holds, and the value of a
    term is the place of its last call. -/
theorem run_descend_recorder (t : Term α) (trace : Array Call) :
    (recorder.descend t).run trace =
      (trace.size + t.size - 1, trace ++ (t.traceFrom trace.size).toArray) := by
  induction t generalizing trace with
  | var note name => rfl
  | abs note binder body ih =>
      rw [Cases.descend, StateT.run_bind, ih]
      show (record _).run _ = _
      rw [run_record, size_append_traceFrom, traceFrom_abs]
      refine Prod.ext ?_ ?_
      · show trace.size + body.size = trace.size + (1 + body.size) - 1
        omega
      · simp
  | app note func arg ihf iha =>
      rw [Cases.descend, StateT.run_bind, ihf]
      -- The trace of the argument starts behind that of the function.
      show (recorder.descend arg >>= fun place => record _).run _ = _
      rw [StateT.run_bind, iha]
      show (record _).run _ = _
      rw [run_record, size_append_traceFrom, size_append_traceFrom, traceFrom_app]
      refine Prod.ext ?_ ?_
      · show trace.size + func.size + arg.size = trace.size + (1 + (func.size + arg.size)) - 1
        omega
      · simp

/-- The trace of a fold has one call for each node, in post-order. -/
theorem calls_eq_traceFrom (t : Term α) : t.calls = t.traceFrom 0 := by
  rw [calls, Cases.loop_single, StateT.run_map, run_descend_recorder]
  show (#[] ++ (t.traceFrom 0).toArray).toList = t.traceFrom 0
  simp

/-- The fold with a list of tasks is the fold by recursion on the tree.  For cases with
    any effects, the loop ends with exactly one value, the one of the recursion, and never
    lacks a value on the way.  The cases are called once for each node, in post-order with
    the whole function side before the argument side; when calls raise errors, the first
    that does in this order is the last one made, and its error is the outcome. -/
theorem loop_folds_in_postorder (t : Term α) :
    (∀ {m : Type → Type} [Monad m] [LawfulMonad m] {ρ : Type} (cases : Cases m ρ),
      cases.loop [.enter t] [] = (fun value => some [value]) <$> cases.descend t) ∧
    (∀ {ρ : Type} (abs : String → ρ → ρ) (app : ρ → ρ → ρ) (var : String → ρ),
      t.fold abs app var = (pureCases abs app var).descend t) ∧
    (∀ {ε ρ : Type} (cases : Cases (Except ε) ρ), t.tryFold cases = cases.descend t ∧
      ∃ visits, (cases.recorded.loop [.enter t] []).run.run [] =
          ((fun value => some [value]) <$> cases.descend t, visits) ∧
        Cases.Calls cases t.postorder visits ((fun _ => ()) <$> cases.descend t)) ∧
    t.postorder.length = t.nodeCount ∧ t.calls = t.postorder.mapIdx callAt := by
  refine ⟨fun cases => cases.loop_single t, fun abs app var => t.fold_eq_descend abs app var,
    fun cases => ⟨t.tryFold_eq_descend cases, cases.exists_calls t⟩, ?_, ?_⟩
  · rw [length_postorder, nodeCount_eq_size]
  · rw [calls_eq_traceFrom, traceFrom]
    simp

/-- In `(λx. x) (y z)` both names of the argument raise an error.  The function side is
    folded first, the error is that of `y`, and neither `z` nor an application is reached. -/
theorem loop_raises_first_error :
    let t : Term Unit :=
      .app () (.abs () "x" (.var () "x")) (.app () (.var () "y") (.var () "z"))
    let cases : Cases (Except String) Nat :=
      { abs := fun _ body => .ok (body + 1)
        app := fun func arg => .ok (func + arg)
        var := fun name => if name = "x" then .ok 1 else .error name }
    let visits : List (Visit Nat) := [.var "x", .abs "x" 1, .var "y"]
    cases.loop [.enter t] [] = .error "y" ∧
      (cases.recorded.loop [.enter t] []).run.run [] = (.error "y", visits) ∧
      Cases.Calls cases t.postorder visits (.error "y") := by
  intro t cases visits
  obtain ⟨hloop, -, hcalls, -⟩ := loop_folds_in_postorder t
  obtain ⟨-, made, hrun, hmade⟩ := hcalls cases
  have hrecorded : (cases.recorded.loop [.enter t] []).run.run [] = (.error "y", visits) := by
    rw [hloop]
    rfl
  have hvisits : made = visits := congrArg Prod.snd (hrun.symm.trans hrecorded)
  refine ⟨?_, hrecorded, ?_⟩
  · rw [hloop]
    rfl
  · rw [← hvisits]
    exact hmade

end Term

end LambdaTree
