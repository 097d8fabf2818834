/-
  LambdaTree.Proofs.Grammar.Visits

  What a run of the grammar finds in its table does not take it deeper than it
  may go: the run goes too deep exactly where the grammar without a table does
  (`run_eq_evalAt`).  An answer that is found was computed no less deep than
  where it is used.

  The reason is the order in which places are visited.  An expression is asked
  for only where nothing has been asked for at the place or behind it (`Fresh`).
  A term is asked for at such a place, or where a term was refused before, deeper
  inside (`Settled`).  Only behind a closing parenthesis are places fresh again
  although a term was refused in front of it.
-/

import LambdaTree.Proofs.Grammar.Termination
import LambdaTree.Proofs.Parser.Triples

namespace LambdaTree

namespace Grammar

open LambdaTree.Parser

variable {ι : Type} [Symbol ι]

/-- Sessions of the grammar. -/
abbrev State (ι : Type) : Type := Session ι (signature Signature.none)

/-! ## Places -/

/-- There is a table. -/
def Running (s : State ι) : Prop :=
  ∃ table, s.table = some table

/-- Nothing is remembered for an input or a shorter one. -/
def Fresh (i : Input ι) (s : State ι) : Prop :=
  ∃ table, s.table = some table ∧ ∀ cell n, n ≤ i.size → table.find? cell n = none

/-- The parser of terms, without its memo. -/
def termBody : Parser ι (signature Signature.none) (Term (Option Note)) :=
  firstOf [parenthesised, abstraction, variableTerm]

/-- A token that passes a test comes first, and `rest` is behind it. -/
def TokenBefore (test : Lexeme → Bool) (i rest : Input ι) : Prop :=
  ∃ symbol, accept (fun symbol => .ok ((Symbol.item symbol).isToken test)) i =
    .ok (.success symbol rest)

/-- It is remembered that there is no term here, as it is at this depth; and nothing is
    remembered behind a closing parenthesis. -/
def Settled (depth : Nat) (i : Input ι) (s : State ι) : Prop :=
  (∃ table diagnostic place, s.table = some table ∧
    table.find? Cell.term i.size = some (.failure diagnostic place) ∧
    evalAt ownRules depth termBody i = .ok (.failure diagnostic place)) ∧
  ∀ rest, TokenBefore (· == .closeParen) i rest → Fresh rest s

omit [Symbol ι] in
theorem Running.put {s : State ι} (h : Running s) (cell : (signature Signature.none).Cell) (n : Nat)
    (reply : Reply ι ((signature Signature.none).cellValue cell)) : Running (s.put cell n reply) := by
  obtain ⟨table, htable⟩ := h
  exact ⟨table.insert cell n reply, by rw [Session.put, htable]; rfl⟩

omit [Symbol ι] in
theorem Fresh.running {i : Input ι} {s : State ι} (h : Fresh i s) : Running s := by
  obtain ⟨table, htable, -⟩ := h
  exact ⟨table, htable⟩

omit [Symbol ι] in
theorem Fresh.miss {i : Input ι} {s : State ι} (h : Fresh i s)
    (cell : (signature Signature.none).Cell) :
    ∃ table, s.table = some table ∧ table.find? cell i.size = none := by
  obtain ⟨table, htable, hnone⟩ := h
  exact ⟨table, htable, hnone cell _ (Nat.le_refl _)⟩

theorem Settled.running {depth : Nat} {i : Input ι} {s : State ι} (h : Settled depth i s) :
    Running s := by
  obtain ⟨⟨table, _, _, htable, -⟩, -⟩ := h
  exact ⟨table, htable⟩

omit [Symbol ι] in
theorem Fresh.of_le {i j : Input ι} {s : State ι} (h : Fresh i s) (hle : j.size ≤ i.size) :
    Fresh j s := by
  obtain ⟨table, htable, hnone⟩ := h
  exact ⟨table, htable, fun cell n hn => hnone cell n (hn.trans hle)⟩

omit [Symbol ι] in
/-- What is put in the table for a longer input leaves a place fresh. -/
theorem Fresh.put {i : Input ι} {s : State ι} (h : Fresh i s) {n : Nat} (hlt : i.size < n)
    (cell : (signature Signature.none).Cell)
    (reply : Reply ι ((signature Signature.none).cellValue cell)) : Fresh i (s.put cell n reply) := by
  obtain ⟨table, htable, hnone⟩ := h
  refine ⟨table.insert cell n reply, by rw [Session.put, htable]; rfl, fun other m hm => ?_⟩
  rw [Table.find?_insert_of_ne _ _ (by omega)]
  exact hnone other m hm

theorem TokenBefore.size_lt {test : Lexeme → Bool} {i rest : Input ι}
    (h : TokenBefore test i rest) : rest.size < i.size := by
  obtain ⟨symbol, hsymbol⟩ := h
  exact (accept_eq_success hsymbol).2.2

/-- What is put in the table for a longer input leaves a place settled. -/
theorem Settled.put {depth : Nat} {i : Input ι} {s : State ι} (h : Settled depth i s) {n : Nat}
    {cell : (signature Signature.none).Cell} (hne : ¬(Cell.term = cell ∧ i.size = n))
    (hle : i.size ≤ n) (reply : Reply ι ((signature Signature.none).cellValue cell)) :
    Settled depth i (s.put cell n reply) := by
  obtain ⟨⟨table, diagnostic, place, htable, hfind, heval⟩, hfresh⟩ := h
  refine ⟨⟨table.insert cell n reply, diagnostic, place, by rw [Session.put, htable]; rfl, ?_,
    heval⟩, fun rest hrest => ?_⟩
  · rw [Table.find?_insert_of_ne _ _ hne]
    exact hfind
  · exact (hfresh rest hrest).put (Nat.lt_of_lt_of_le hrest.size_lt hle) cell reply

/-- With more depth a place stays settled. -/
theorem Settled.mono {m n : Nat} {i : Input ι} {s : State ι} (hmn : m ≤ n) (h : Settled m i s) :
    Settled n i s := by
  obtain ⟨⟨table, diagnostic, place, htable, hfind, heval⟩, hfresh⟩ := h
  refine ⟨⟨table, diagnostic, place, htable, hfind, ?_⟩, hfresh⟩
  have happrox := evalAt_mono ownRules hmn termBody i
  rw [heval] at happrox
  exact happrox.eq_of_ok

/-! ## First tokens -/

/-- The first token is not two different ones. -/
theorem TokenBefore.disjoint {test test' : Lexeme → Bool} {i rest rest' : Input ι}
    (h : TokenBefore test i rest) (h' : TokenBefore test' i rest')
    (hdisjoint : ∀ lexeme, test lexeme = true → test' lexeme = true → False) : False := by
  obtain ⟨symbol, hsymbol⟩ := h
  obtain ⟨symbol', hsymbol'⟩ := h'
  obtain ⟨hfirst, htest, -⟩ := accept_eq_success hsymbol
  obtain ⟨hfirst', htest', -⟩ := accept_eq_success hsymbol'
  obtain rfl : symbol = symbol' := Except.ok.inj (hfirst.symm.trans hfirst')
  cases hitem : Symbol.item symbol with
  | token value =>
      rw [hitem] at htest htest'
      exact hdisjoint value.lexeme (Except.ok.inj htest) (Except.ok.inj htest')
  | text value =>
      rw [hitem] at htest
      cases htest
  | number value =>
      rw [hitem] at htest
      cases htest

section

variable {σ : Signature} {calls : Calls ι σ} {i rest : Input ι}

theorem eval_token_eq_success {test : Lexeme → Bool} {symbol : ι}
    (h : eval calls (token test) i = .ok (.success symbol rest)) : TokenBefore test i rest :=
  ⟨symbol, Halt.check_eq_ok h⟩

theorem eval_binder_eq_success {name : String}
    (h : eval calls binder i = .ok (.success name rest)) :
    ∃ middle, TokenBefore (· == .lambda) i middle := by
  obtain ⟨_, h⟩ := eval_apply_eq_success h
  obtain ⟨_, _, _, h, -⟩ := eval_combine_eq_success h
  obtain ⟨_, middle, _, h, -⟩ := eval_combine_eq_success h
  exact ⟨middle, eval_token_eq_success h⟩

end

theorem termBody_consumes : (termBody : Parser ι _ _).Consumes := by
  have hparens : (parenthesised : Parser ι (signature Signature.none) _).Consumes :=
    .combine (.inl trivial)
  have habstraction : (abstraction : Parser ι (signature Signature.none) _).Consumes :=
    .combine (.inl binder_consumes)
  have hvariable : (variableTerm : Parser ι (signature Signature.none) _).Consumes :=
    .apply (.apply trivial)
  exact .firstOf (by simp [hparens, habstraction, hvariable])

/-! ## The parsers of the grammar -/

/-- The triples of the grammar at a depth. -/
abbrev TripleAt (depth : Nat) (P : State ι → Prop)
    (p : Parser ι (signature Signature.none) (Term (Option Note))) (i : Input ι)
    (S : Input ι → State ι → Prop) (F : State ι → Prop) : Prop :=
  Triple (callAt ownRules depth) (callsAt ownRules depth) P p i S F

section

variable {data : Sequence ι} {n : Nat} {depth : Nat} {i : Input ι} {P : State ι → Prop}
  {S : Input ι → State ι → Prop}

/-- What reads a single token leaves the session as it is. -/
theorem token_triple (test : Lexeme → Bool) :
    Triple (callAt ownRules depth) (callsAt ownRules depth) P (token test) i
      (fun rest s => TokenBefore test i rest ∧ P s) P :=
  .satisfy (fun symbol _ _ h hs => ⟨⟨symbol, h⟩, hs⟩) fun _ hs => hs

theorem binder_triple :
    Triple (callAt ownRules depth) (callsAt ownRules depth) P binder i (fun _ s => P s) P := by
  have htoken (test : Lexeme → Bool) (i : Input ι) :
      Triple (callAt ownRules depth) (callsAt ownRules depth) P (token test) i (fun _ s => P s) P :=
    (token_triple test).mono (fun _ hs => hs) (fun _ _ _ _ hs => hs.2) fun _ hs => hs
  exact .apply (.combine (.combine (htoken _ i) fun _ middle _ => htoken _ middle)
    fun _ middle _ => htoken _ middle)

/-- Without an opening parenthesis nothing is read. -/
theorem parenthesised_skip (h : ¬∃ rest, TokenBefore (· == .openParen) i rest) :
    TripleAt depth P parenthesised i S P := by
  refine .combine (token_triple _) fun _ middle hmiddle => ?_
  exact absurd ⟨middle, eval_token_eq_success hmiddle⟩ h

/-- Without a lambda nothing is read. -/
theorem abstraction_skip (h : ¬∃ rest, TokenBefore (· == .lambda) i rest) :
    TripleAt depth P abstraction i S P := by
  refine .combine binder_triple fun _ middle hmiddle => ?_
  exact absurd (eval_binder_eq_success hmiddle) h

theorem variableTerm_triple :
    TripleAt depth P variableTerm i (fun rest s => TokenBefore Lexeme.isWord i rest ∧ P s) P :=
  .apply (.apply (token_triple _))

/-- Without a word nothing is read. -/
theorem variableTerm_skip (h : ¬∃ rest, TokenBefore Lexeme.isWord i rest) :
    TripleAt depth P variableTerm i S P :=
  variableTerm_triple.mono (fun _ hs => hs) (fun _ rest _ _ hs => absurd ⟨rest, hs.1⟩ h)
    fun _ hs => hs

variable (hdata : data.length = .ok n)
  (hexpression : ∀ i : Input ι, i.Over data n →
    TripleAt depth (Fresh i) expression i (Settled depth) Running)
  (hi : i.Over data n)

include hdata hexpression hi

/-- The expression inside ends where a term was refused; behind the parenthesis that
    closes it nothing has been asked for. -/
theorem parenthesised_triple :
    TripleAt depth (Fresh i) parenthesised i Fresh Running := by
  have hopen : Triple (callAt ownRules depth) (callsAt ownRules depth) (Fresh i) openToken i Fresh
      Running :=
    (token_triple _).mono (fun _ hs => hs)
      (fun _ _ _ _ hs => hs.2.of_le (Nat.le_of_lt hs.1.size_lt)) fun _ hs => hs.running
  refine .combine hopen fun _ middle hmiddle => ?_
  refine .combine (hexpression middle (evalAt_over hdata hi hmiddle)) fun _ place _ => ?_
  exact (token_triple _).mono (fun _ hs => hs) (fun _ rest _ _ hs => hs.2.2 rest hs.1)
    fun _ hs => hs.running

theorem abstraction_triple :
    TripleAt depth (Fresh i) abstraction i (Settled depth) Running := by
  have hbinder : Triple (callAt ownRules depth) (callsAt ownRules depth) (Fresh i) binder i Fresh
      Running :=
    binder_triple.mono (fun _ hs => hs)
      (fun _ _ _ h hs => hs.of_le (evalAt_suffix h).size_le) fun _ hs => hs.running
  exact .combine hbinder fun _ middle hmiddle => hexpression middle (evalAt_over hdata hi hmiddle)

/-- At a fresh place the first token tells which kind of term is tried.  A term that is
    refused at its first token leaves the place fresh. -/
theorem termBody_triple :
    TripleAt depth (Fresh i) termBody i (fun rest s => Fresh rest s ∨ Settled depth rest s)
      fun s => Running s ∧ ∀ rest, TokenBefore (· == .closeParen) i rest → Fresh rest s := by
  refine .firstOf fun failures => ?_
  by_cases hopen : ∃ rest, TokenBefore (· == .openParen) i rest
  · obtain ⟨behind, hopen⟩ := hopen
    have hlambda : ¬∃ rest, TokenBefore (· == .lambda) i rest :=
      fun ⟨_, h⟩ => hopen.disjoint h (by simp +contextual)
    have hword : ¬∃ rest, TokenBefore Lexeme.isWord i rest :=
      fun ⟨_, h⟩ => hopen.disjoint h (by simp +contextual [Lexeme.isWord])
    refine tryEach_gives_cons ((parenthesised_triple hdata hexpression hi).mono (fun _ hs => hs)
      (fun _ _ _ _ hs => .inl hs) fun _ hs => hs) fun failures => ?_
    refine tryEach_gives_cons (abstraction_skip hlambda) fun failures => ?_
    refine tryEach_gives_cons (variableTerm_skip hword) fun failures => ?_
    exact tryEach_gives_nil fun s hs => ⟨hs, fun rest hrest =>
      (hopen.disjoint hrest (by simp +contextual)).elim⟩
  · by_cases hlambda : ∃ rest, TokenBefore (· == .lambda) i rest
    · have hskip : TripleAt depth (Fresh i) parenthesised i
          (fun rest s => Fresh rest s ∨ Settled depth rest s) (Fresh i) := parenthesised_skip hopen
      obtain ⟨behind, hlambda⟩ := hlambda
      have hword : ¬∃ rest, TokenBefore Lexeme.isWord i rest :=
        fun ⟨_, h⟩ => hlambda.disjoint h (by simp +contextual [Lexeme.isWord])
      refine tryEach_gives_cons hskip fun failures => ?_
      refine tryEach_gives_cons ((abstraction_triple hdata hexpression hi).mono (fun _ hs => hs)
        (fun _ _ _ _ hs => .inr hs) fun _ hs => hs) fun failures => ?_
      refine tryEach_gives_cons (variableTerm_skip hword) fun failures => ?_
      exact tryEach_gives_nil fun s hs => ⟨hs, fun rest hrest =>
        (hlambda.disjoint hrest (by simp +contextual)).elim⟩
    · -- No token of a term that calls expressions: the table is not touched.
      refine tryEach_gives_cons (parenthesised_skip hopen) fun failures => ?_
      refine tryEach_gives_cons (abstraction_skip hlambda) fun failures => ?_
      refine tryEach_gives_cons (F := Fresh i) (variableTerm_triple.mono (fun _ hs => hs)
        (fun _ rest _ _ hs => .inl (hs.2.of_le (Nat.le_of_lt hs.1.size_lt))) fun _ hs => hs)
        fun failures => ?_
      exact tryEach_gives_nil fun s hs => ⟨hs.running, fun rest hrest =>
        hs.of_le (Nat.le_of_lt hrest.size_lt)⟩

/-- A term is asked for at a fresh place, or where one was refused. -/
theorem term_triple :
    TripleAt depth (fun s => Fresh i s ∨ Settled depth i s) term i
      (fun rest s => Fresh rest s ∨ Settled depth rest s) (Settled depth i) := by
  have hlength : i.length = .ok i.size := Input.length_of_over hdata hi
  refine Run.Gives.or ?_ ?_
  · refine Triple.memo_miss hlength (fun _ hs => hs.miss _)
      (termBody_triple hdata hexpression hi) fun reply s hreply hs => ?_
    cases reply with
    | success value rest =>
        -- What the term left is shorter, so the new entry does not concern it.
        have hlt : rest.size < i.size := evalAt_shortens termBody_consumes hreply
        rcases hs with hs | hs
        · exact .inl (hs.put hlt _ _)
        · exact .inr (hs.put (by omega) (Nat.le_of_lt hlt) _)
    | failure diagnostic place =>
        obtain ⟨⟨table, htable⟩, hfresh⟩ := hs
        refine ⟨⟨table.insert Cell.term i.size (.failure diagnostic place), diagnostic, place,
          by rw [Session.put, htable]; rfl, Table.find?_insert_self _ _ _ _, hreply⟩, ?_⟩
        exact fun rest hrest => (hfresh rest hrest).put hrest.size_lt _ _
  · refine Triple.memo_hit hlength ?_
    rintro s ⟨⟨table, diagnostic, place, htable, hfind, heval⟩, hfresh⟩
    exact ⟨table, .failure diagnostic place, htable, hfind, heval,
      ⟨table, diagnostic, place, htable, hfind, heval⟩, hfresh⟩

/-- A chain of terms ends where a term is refused. -/
theorem application_triple :
    TripleAt depth (fun s => Fresh i s ∨ Settled depth i s) application i (Settled depth)
      (Settled depth i) := by
  refine .seq (.apply (term_triple hdata hexpression hi)) fun _ middle hmiddle => ?_
  have hstep (i : Input ι) (hi : i.Over data n) :
      Triple (callAt ownRules depth) (callsAt ownRules depth)
        (fun s => Fresh i s ∨ Settled depth i s) (combine Prod.mk (.succeed applyTo) term) i
        (fun rest s => Fresh rest s ∨ Settled depth rest s) (Settled depth i) := by
    refine .combine (S := fun place s => place = i ∧ (Fresh i s ∨ Settled depth i s))
      (.succeed _ fun _ hs => ⟨rfl, hs⟩) fun _ place hplace => ?_
    cases hplace
    exact (term_triple hdata hexpression hi).mono (fun _ hs => hs.2) (fun _ _ _ _ hs => hs)
      fun _ hs => hs
  refine .many (fun i value rest hi hvalue => ?_) hstep (evalAt_over hdata hi hmiddle)
  obtain ⟨_, place, t, hplace, hterm⟩ := eval_combine_eq_success hvalue
  cases hplace
  have hshort : (Reply.success t rest).Shortens i := evalAt_shortens termBody_consumes hterm
  exact ⟨evalAt_over hdata hi hterm, hshort⟩

/-- Where an application is refused, so is a single term; it was remembered. -/
theorem rule_triple :
    TripleAt depth (Fresh i) (ownRules .expression) i (Settled depth) Running := by
  refine .firstOf fun failures => ?_
  refine tryEach_gives_cons ((application_triple hdata hexpression hi).mono (fun _ hs => .inl hs)
    (fun _ _ _ _ hs => hs) fun _ hs => hs) fun failures => ?_
  refine tryEach_gives_cons (F := Running) ?_ fun failures => tryEach_gives_nil fun _ hs => hs
  refine Triple.memo_hit (Input.length_of_over hdata hi) ?_
  rintro s ⟨⟨table, diagnostic, place, htable, hfind, heval⟩, -⟩
  exact ⟨table, .failure diagnostic place, htable, hfind, heval, table, htable⟩

omit hexpression in
/-- An expression is asked for at fresh places only, and ends where a term is refused. -/
theorem expression_triple (depth : Nat) :
    TripleAt depth (Fresh i) expression i (Settled depth) Running := by
  induction depth generalizing i with
  | zero =>
      refine Triple.memo_miss (S := Settled 0) (F := Running) (Input.length_of_over hdata hi)
        (fun _ hs => hs.miss _) (fun s _ => ⟨rfl, fun v hv => by cases hv⟩) fun reply s hreply _ => ?_
      cases hreply
  | succ depth ih =>
      refine Triple.memo_miss (S := Settled depth) (F := Running) (Input.length_of_over hdata hi)
        (fun _ hs => hs.miss _) (rule_triple hdata (fun i hi => ih hi) hi) fun reply s hreply hs => ?_
      cases reply with
      | success value rest =>
          -- The rule has one call less; what was settled there is settled here.
          have hle : rest.size ≤ i.size := (evalAt_suffix hreply).size_le
          exact (hs.mono (Nat.le_succ depth)).put (by simp) hle _
      | failure diagnostic place => exact hs.put _ _ _

end

/-- A run of the grammar gives the answer that the grammar has at the same depth. -/
theorem run_eq_evalAt (depth : Nat) {input : Input ι} (hi : input.Within) (tally : Tally) :
    (run ownRules depth wholeExpression input tally).1 =
      Stop.ofReply (evalAt ownRules depth wholeExpression input.toCursor) := by
  obtain ⟨data, n, hdata, hover⟩ := Input.exists_over_toCursor hi
  have hstart : Fresh input.toCursor (⟨some .empty, tally⟩ : State ι) :=
    ⟨.empty, rfl, fun cell m _ => Table.find?_empty cell m⟩
  have hwhole : Run.Gives (Fresh input.toCursor)
      (evalAt ownRules depth wholeExpression input.toCursor)
      (exec (callAt ownRules depth) wholeExpression input.toCursor) fun _ _ => True :=
    (expression_triple hdata hover depth).bind fun _ _ => .check fun _ _ _ _ => trivial
  exact congrArg Stop.ofReply (hwhole _ hstart).1

end Grammar

end LambdaTree
