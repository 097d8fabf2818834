/-
  LambdaTree.Proofs.Parser.Triples

  Runs step by step, against their meanings.  `Run.Gives P x m Q` says that,
  started in a session with the precondition `P`, the computation `m` gives the
  answer `x`, and that the session that it leaves has the postcondition `Q`.
  Where `x` is the answer of `Parser.eval`, this is more than that remembering
  changes no answer: the run gives it at the same depth, and goes too deep where
  its meaning does.

  There is one rule for each way of building a parser (`Triple`).  What holds
  afterwards is said in two parts: what a success leaves at its place, and what
  a failure leaves.
-/

import LambdaTree.Proofs.Parser.Termination

namespace LambdaTree

variable {ι α β γ : Type} {σ : Signature}

/-! ## Answers of computations -/

namespace Run

/-- Started in a session with the precondition, a computation gives an answer; if that is
    a value, the session that it leaves has the postcondition. -/
def Gives (P : Session ι σ → Prop) (x : Except Halt α) (m : Run ι σ α)
    (Q : α → Session ι σ → Prop) : Prop :=
  ∀ s, P s → m.result s = x ∧ ∀ v, x = .ok v → Q v (m.after s)

namespace Gives

variable {P P' : Session ι σ → Prop} {x : Except Halt α} {m : Run ι σ α}
  {Q Q' : α → Session ι σ → Prop}

theorem mono (h : Gives P x m Q) (hP : ∀ s, P' s → P s) (hQ : ∀ v s, x = .ok v → Q v s → Q' v s) :
    Gives P' x m Q' := by
  intro s hs
  obtain ⟨hresult, hpost⟩ := h s (hP s hs)
  exact ⟨hresult, fun v hv => hQ v _ hv (hpost v hv)⟩

theorem or (h : Gives P x m Q) (h' : Gives P' x m Q) : Gives (fun s => P s ∨ P' s) x m Q := by
  rintro s (hs | hs)
  · exact h s hs
  · exact h' s hs

theorem pure {v : α} (h : ∀ s, P s → Q v s) : Gives P (.ok v) (Pure.pure v : Run ι σ α) Q := by
  intro s hs
  refine ⟨rfl, fun w hw => ?_⟩
  cases hw
  exact h s hs

theorem check {x : Except Fault α} (h : ∀ v s, x = .ok v → P s → Q v s) :
    Gives P (Halt.check x) (Run.check x : Run ι σ α) Q := by
  cases x with
  | ok v => exact pure fun s hs => h v s rfl hs
  | error fault => exact fun s hs => ⟨rfl, fun v hv => by cases hv⟩

theorem bind {f : α → Except Halt β} {k : α → Run ι σ β} {R : β → Session ι σ → Prop}
    (hm : Gives P x m Q) (hk : ∀ v, x = .ok v → Gives (Q v) (f v) (k v) R) :
    Gives P (x >>= f) (m >>= k) R := by
  intro s hs
  obtain ⟨rfl, hpost⟩ := hm s hs
  cases hr : m.result s with
  | error halt =>
      rw [result_bind_error hr]
      exact ⟨rfl, fun v hv => by cases hv⟩
  | ok v =>
      rw [result_bind_ok hr, after_bind_ok hr]
      exact hk v hr _ (hpost v hr)

end Gives

end Run

/-- A postcondition for replies: what holds where a success leaves the input, and what
    holds after a failure. -/
def Reply.Then (S : Input ι → Session ι σ → Prop) (F : Session ι σ → Prop) :
    Reply ι α → Session ι σ → Prop
  | .success _ rest => S rest
  | .failure _ _ => F

namespace Parser

variable {P : Session ι σ → Prop} {S S' : Input ι → Session ι σ → Prop}
  {F F' : Session ι σ → Prop} {i : Input ι}

/-! ## The steps of a run -/

theorem tryEach_gives_nil {failures : List (Diagnostic × Input ι)} (hF : ∀ s, P s → F s) :
    Run.Gives P (settle i [] failures) (tryEach i [] failures : Run ι σ (Reply ι α))
      (Reply.Then S F) := by
  rw [settle, tryEach]
  refine .check fun reply s hreply hs => ?_
  -- When every alternative has failed, so has the whole.
  cases hfailures : failures.reverse with
  | nil =>
      rw [hfailures] at hreply
      cases hreply
      exact hF s hs
  | cons first others =>
      rw [hfailures] at hreply
      obtain ⟨place, -, hplace⟩ := exists_of_bind_eq_ok hreply
      cases hplace
      exact hF s hs

theorem tryEach_gives_cons {x : Except Halt (Reply ι α)} {xs : List (Except Halt (Reply ι α))}
    {m : Run ι σ (Reply ι α)} {ms : List (Run ι σ (Reply ι α))}
    {failures : List (Diagnostic × Input ι)} (hm : Run.Gives P x m (Reply.Then S F))
    (hms : ∀ failures, Run.Gives F (settle i xs failures) (tryEach i ms failures)
      (Reply.Then S F')) :
    Run.Gives P (settle i (x :: xs) failures) (tryEach i (m :: ms) failures)
      (Reply.Then S F') := by
  rw [settle, tryEach]
  refine hm.bind fun reply _ => ?_
  cases reply with
  | success value rest => exact .pure fun s hs => hs
  | failure diagnostic rest => exact hms _

/-- A loop: each round that succeeds goes on from fewer symbols with the invariant of the
    place, and the one that fails leaves what holds at the end. -/
theorem iterate_gives {Live : Input ι → Prop} {f : Input ι → Except Halt (Reply ι α)}
    {step : Input ι → Run ι σ (Reply ι α)}
    (hlive : ∀ i value rest, Live i → f i = .ok (.success value rest) →
      Live rest ∧ rest.size < i.size)
    (hstep : ∀ i, Live i → Run.Gives (S i) (f i) (step i) (Reply.Then S (S' i))) (hi : Live i) :
    Run.Gives (S i) (collect f i) (iterate step i) fun values => S' values.2 := by
  fun_induction collect f i with
  | case1 i ih =>
      rw [iterate]
      refine (hstep i hi).bind fun reply hreply => ?_
      cases reply with
      | failure diagnostic rest => exact .pure fun s hs => hs
      | success value rest =>
          obtain ⟨hrest, hlt⟩ := hlive i value rest hi hreply
          have hcheck (x : Except Fault Nat) :
              Run.Gives (S rest) (Halt.check x) (Run.check x) fun _ => S rest :=
            .check fun _ _ _ hs => hs
          refine (hcheck _).bind fun _ _ => (hcheck _).bind fun _ _ => ?_
          simp only [hlt, if_true]
          exact (ih rest hlt hrest).bind fun values _ => .pure fun s hs => hs

end Parser

/-- A cursor that is not beyond the end of its data has its size as length. -/
theorem Input.length_of_over {data : Sequence ι} {n : Nat} (hdata : data.length = .ok n)
    {i : Input ι} (hi : i.Over data n) : i.length = .ok i.size := by
  obtain ⟨m, hm⟩ := Input.exists_length_of_over hdata hi
  rw [hm, Input.size_of_length hm]

/-- The session with an answer put in a cell for a length. -/
def Session.put (s : Session ι σ) (cell : σ.Cell) (length : Nat)
    (reply : Reply ι (σ.cellValue cell)) : Session ι σ :=
  { s with table := s.table.map (·.insert cell length reply) }

namespace Parser

/-! ## Where a success comes from -/

section

variable [Symbol ι] {calls : Calls ι σ} {i rest : Input ι}

theorem accept_eq_success {test : ι → Except Fault Bool} {symbol : ι}
    (h : accept test i = .ok (.success symbol rest)) :
    i.first = .ok symbol ∧ test symbol = .ok true ∧ rest.size < i.size := by
  have hshort : rest.size < i.size := accept_shortens h
  obtain ⟨more, -, h⟩ := exists_of_bind_eq_ok h
  cases more with
  | false => cases h
  | true =>
      obtain ⟨first, hfirst, h⟩ := exists_of_bind_eq_ok h
      obtain ⟨passed, hpassed, h⟩ := exists_of_bind_eq_ok h
      cases passed with
      | false =>
          obtain ⟨shown, -, h⟩ := exists_of_bind_eq_ok h
          cases h
      | true =>
          obtain ⟨_, -, h⟩ := exists_of_bind_eq_ok h
          cases h
          exact ⟨hfirst, hpassed, hshort⟩

theorem eval_seq_eq_success {function : Parser ι σ (α → Except Fault β)} {argument : Parser ι σ α}
    {value : β} (h : eval calls (.seq function argument) i = .ok (.success value rest)) :
    ∃ f middle a, eval calls function i = .ok (.success f middle) ∧
      eval calls argument middle = .ok (.success a rest) := by
  obtain ⟨reply, hf, h⟩ := exists_of_bind_eq_ok h
  cases reply with
  | failure diagnostic place => cases h
  | success f middle =>
      obtain ⟨reply, ha, h⟩ := exists_of_bind_eq_ok h
      cases reply with
      | failure diagnostic place => cases h
      | success a place =>
          obtain ⟨_, -, h⟩ := exists_of_bind_eq_ok h
          cases h
          exact ⟨f, middle, a, hf, ha⟩

theorem eval_apply_eq_success {function : α → β} {p : Parser ι σ α} {value : β}
    (h : eval calls (apply function p) i = .ok (.success value rest)) :
    ∃ a, eval calls p i = .ok (.success a rest) := by
  obtain ⟨f, middle, a, hf, ha⟩ := eval_seq_eq_success h
  cases hf
  exact ⟨a, ha⟩

theorem eval_combine_eq_success {function : α → β → γ} {p : Parser ι σ α} {q : Parser ι σ β}
    {value : γ} (h : eval calls (combine function p q) i = .ok (.success value rest)) :
    ∃ a middle b, eval calls p i = .ok (.success a middle) ∧
      eval calls q middle = .ok (.success b rest) := by
  obtain ⟨f, middle, b, hf, hb⟩ := eval_seq_eq_success h
  obtain ⟨a, ha⟩ := eval_apply_eq_success hf
  exact ⟨a, middle, b, ha, hb⟩

end

/-! ## Answers at a depth -/

section

variable [Symbol ι] {rules : Rules ι σ} {depth : Nat} {p : Parser ι σ α} {i : Input ι}
  {reply : Reply ι α}

theorem evalAt_suffix (h : evalAt rules depth p i = .ok reply) : reply.rest.Suffix i :=
  eval_keeps (forward_inputSuffix i) (callsAt_keeps (forward_inputSuffix i) rules depth) p
    (.same i) h

theorem evalAt_over {data : Sequence ι} {n : Nat} (hdata : data.length = .ok n)
    (hi : i.Over data n) (h : evalAt rules depth p i = .ok reply) : reply.rest.Over data n :=
  eval_keeps (Input.forward_over hdata) (callsAt_keeps (Input.forward_over hdata) rules depth) p
    hi h

theorem evalAt_shortens (hp : p.Consumes) (h : evalAt rules depth p i = .ok reply) :
    reply.Shortens i := by
  -- Outside a run there is no table, and the parser does what it means.
  have hkeeping := keeping_outside (ι := ι) (σ := σ) (E := fun _ => True) fun _ => trivial
  have hshort : (exec (callAt rules depth) p i).Keeps _ _ (Reply.Shortens i) :=
    exec_shortens hkeeping p hp
      (fun name i hi => callAt_keeps hkeeping rules depth name hi) trivial
  rw [← reply_eq_evalAt rules depth p i #[]] at h
  exact (hshort ⟨none, #[]⟩ rfl).2.1 reply h

end

/-! ## One rule for each way of building a parser -/

/-- Started in a session with the precondition, a parser answers what it means, and leaves
    a session with the postconditions. -/
def Triple [Symbol ι]
    (call : (name : σ.Rule) → Input ι → Run ι σ (Reply ι (σ.ruleValue name))) (calls : Calls ι σ)
    (P : Session ι σ → Prop) (p : Parser ι σ α) (i : Input ι) (S : Input ι → Session ι σ → Prop)
    (F : Session ι σ → Prop) : Prop :=
  Run.Gives P (eval calls p i) (exec call p i) (Reply.Then S F)

section

variable [Symbol ι] {call : (name : σ.Rule) → Input ι → Run ι σ (Reply ι (σ.ruleValue name))}
  {calls : Calls ι σ} {P P' : Session ι σ → Prop} {S S' : Input ι → Session ι σ → Prop}
  {F F' : Session ι σ → Prop} {i : Input ι} {p : Parser ι σ α}

namespace Triple

theorem mono (h : Triple call calls P p i S F) (hP : ∀ s, P' s → P s)
    (hS : ∀ value rest s, eval calls p i = .ok (.success value rest) → S rest s → S' rest s)
    (hF : ∀ s, F s → F' s) : Triple call calls P' p i S' F' := by
  refine Run.Gives.mono h hP fun reply s hreply hs => ?_
  cases reply with
  | success value rest => exact hS value rest s hreply hs
  | failure diagnostic rest => exact hF s hs

theorem succeed (value : α) (h : ∀ s, P s → S i s) : Triple call calls P (.succeed value) i S F :=
  .pure h

theorem satisfy {test : ι → Except Fault Bool}
    (hS : ∀ symbol rest s, accept test i = .ok (.success symbol rest) → P s → S rest s)
    (hF : ∀ s, P s → F s) : Triple call calls P (.satisfy test) i S F := by
  refine .check fun reply s hreply hs => ?_
  cases reply with
  | success symbol rest => exact hS symbol rest s hreply hs
  | failure diagnostic rest => exact hF s hs

theorem seq {function : Parser ι σ (α → Except Fault β)} {argument : Parser ι σ α}
    (hf : Triple call calls P function i S F)
    (ha : ∀ f middle, eval calls function i = .ok (.success f middle) →
      Triple call calls (S middle) argument middle S' F) :
    Triple call calls P (.seq function argument) i S' F := by
  refine Run.Gives.bind hf fun reply hreply => ?_
  cases reply with
  | failure diagnostic rest => exact .pure fun s hs => hs
  | success f middle =>
      refine Run.Gives.bind (ha f middle hreply) fun reply _ => ?_
      cases reply with
      | failure diagnostic rest => exact .pure fun s hs => hs
      | success value rest =>
          exact (Run.Gives.check (Q := fun _ => S' rest) fun _ _ _ hs => hs).bind
            fun _ _ => .pure fun s hs => hs

theorem apply {function : α → β} (h : Triple call calls P p i S F) :
    Triple call calls P (apply function p) i S F := by
  refine seq (succeed _ fun s hs => ⟨rfl, hs⟩) (S := fun middle s => middle = i ∧ P s)
    fun f middle hmiddle => ?_
  cases hmiddle
  exact h.mono (fun s hs => hs.2) (fun _ _ _ _ hs => hs) fun _ hs => hs

theorem combine {function : α → β → γ} {q : Parser ι σ β} (hp : Triple call calls P p i S F)
    (hq : ∀ value middle, eval calls p i = .ok (.success value middle) →
      Triple call calls (S middle) q middle S' F) :
    Triple call calls P (combine function p q) i S' F := by
  refine seq hp.apply fun f middle hmiddle => ?_
  obtain ⟨value, hvalue⟩ := eval_apply_eq_success hmiddle
  exact hq value middle hvalue

theorem many {Live : Input ι → Prop}
    (hlive : ∀ i value rest, Live i → eval calls p i = .ok (.success value rest) →
      Live rest ∧ rest.size < i.size)
    (hp : ∀ i, Live i → Triple call calls (S i) p i S (S' i)) (hi : Live i) :
    Triple call calls (S i) (.many p) i S' F :=
  Run.Gives.bind (iterate_gives hlive hp hi) fun _ _ => .pure fun _ hs => hs

theorem firstOf {alternatives : List (Parser ι σ α)}
    (h : ∀ failures, Run.Gives P
      (settle i (alternatives.map fun p => eval calls p i) failures)
      (tryEach i (alternatives.map fun p => exec call p i) failures) (Reply.Then S F)) :
    Triple call calls P (firstOf alternatives) i S F := by
  have heval : (List.ofFn fun k => eval calls (alternatives.get k) i) =
      alternatives.map fun p => eval calls p i :=
    List.ofFn_getElem_eq_map alternatives fun p => eval calls p i
  have hexec : (List.ofFn fun k => exec call (alternatives.get k) i) =
      alternatives.map fun p => exec call p i :=
    List.ofFn_getElem_eq_map alternatives fun p => exec call p i
  rw [Triple, Parser.firstOf, eval, exec, heval, hexec]
  exact h []

/-- An answer that is in the table is given again. -/
theorem memo_hit {cell : σ.Cell} {p : Parser ι σ (σ.cellValue cell)} {n : Nat}
    (hn : i.length = .ok n)
    (hfind : ∀ s, P s → ∃ table reply, s.table = some table ∧ table.find? cell n = some reply ∧
      eval calls p i = .ok reply ∧ reply.Then S F s) :
    Triple call calls P (.memo cell p) i S F := by
  intro s hs
  obtain ⟨table, reply, htable, hentry, heval, hpost⟩ := hfind s hs
  rw [exec, eval, heval, Run.result, Run.after, remember_hit htable hn hentry]
  refine ⟨rfl, fun v hv => ?_⟩
  cases hv
  exact hpost

/-- An answer that is not in the table is computed and put there. -/
theorem memo_miss {cell : σ.Cell} {p : Parser ι σ (σ.cellValue cell)} {n : Nat}
    (hn : i.length = .ok n)
    (hfind : ∀ s, P s → ∃ table, s.table = some table ∧ table.find? cell n = none)
    (hp : Triple call calls P p i S F)
    (hput : ∀ reply s, eval calls p i = .ok reply → reply.Then S F s →
      reply.Then S' F' (s.put cell n reply)) :
    Triple call calls P (.memo cell p) i S' F' := by
  intro s hs
  obtain ⟨table, htable, hentry⟩ := hfind s hs
  obtain ⟨hresult, hpost⟩ := hp s hs
  rw [exec, eval, Run.result, Run.after, remember_miss htable hn hentry, hresult]
  cases heval : eval calls p i with
  | error halt => exact ⟨rfl, fun v hv => by cases hv⟩
  | ok reply =>
      refine ⟨rfl, fun v hv => ?_⟩
      cases hv
      exact hput reply _ heval (hpost reply heval)

end Triple

end

end Parser

end LambdaTree
