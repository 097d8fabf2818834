/-
  LambdaTree.Proofs.Grammar.Outcome

  What reading tokens comes to, in terms of the descent.  A run works through a
  cursor, remembers answers and is bounded; what it gives is what the descent
  gives on the lexemes of the tokens, unless it is the error for expressions
  nested beyond the limit (`parseTokensWithin_outcome`).

  Tokens that are left over and tokens that fit no rule are told apart by the
  cause of the diagnostic, which its message shows (`leftover_iff_message`).
-/

import LambdaTree.Proofs.Grammar.Unbounded

namespace LambdaTree

/-! ## What a message tells -/

namespace Diagnostic

/-- A message starts with the line of its cause. -/
theorem exists_toList_message (diagnostic : Diagnostic) :
    ∃ rest, diagnostic.message.toList = diagnostic.cause.line.toList ++ rest := by
  rw [message, lines, Text.unlines, String.toList_intercalate]
  cases diagnostic.details with
  | nil => exact ⟨[], by simp⟩
  | cons detail details => exact ⟨_, by simp; rfl⟩

/-- Whether input was left over can be told from the first word of the message, whatever
    a parser that always fails may say. -/
theorem leftover_iff_message (diagnostic : Diagnostic) :
    diagnostic.cause = .leftover ↔ "COMPLETE:".toList <+: diagnostic.message.toList := by
  obtain ⟨rest, hmessage⟩ := diagnostic.exists_toList_message
  rw [hmessage]
  cases diagnostic.cause with
  | leftover =>
      have hline : Cause.leftover.line.toList =
          "COMPLETE:".toList ++ " Parser did not consume entire input".toList := by decide
      rw [hline, List.append_assoc]
      exact ⟨fun _ => List.prefix_append _ _, fun _ => rfl⟩
  | _ => simp [Cause.line]

end Diagnostic

namespace Parser

variable {ι α : Type}

/-- Alternatives that all fail are refused as such. -/
theorem settle_cause {input rest : Input ι} {answers : List (Except Halt (Reply ι α))}
    {failures : List (Diagnostic × Input ι)} {diagnostic : Diagnostic}
    (h : settle input answers failures = .ok (.failure diagnostic rest)) :
    diagnostic.cause ≠ .leftover := by
  induction answers generalizing failures with
  | nil =>
      have hfailed := Halt.check_eq_ok h
      generalize failures.reverse = fs at hfailed
      cases fs with
      | nil =>
          cases hfailed
          simp
      | cons first others =>
          rw [allFailed] at hfailed
          cases hplace : furthest first.2 (others.map Prod.snd) with
          | error fault =>
              rw [hplace] at hfailed
              cases hfailed
          | ok place =>
              rw [hplace] at hfailed
              cases hfailed
              simp [Diagnostic.nest]
  | cons answer answers ih =>
      rcases answer with halt | ⟨value, rest'⟩ | ⟨diagnostic', rest'⟩
      · cases h
      · cases h
      · exact ih h

end Parser

namespace Grammar

open LambdaTree.Parser

/-! ## The errors of the grammar -/

/-- The error does not depend on the kind of input that is left. -/
theorem errorAt_alike {R : Input Token → Input Token → Prop} (h : Bisimulation Eq R)
    {i j : Input Token} (hij : R i j) (source : String) (diagnostic : Diagnostic) :
    errorAt source diagnostic i = errorAt source diagnostic j := by
  have hlength := h.length hij
  rw [errorAt, errorAt, hlength]
  cases hj : j.length with
  | error fault => rfl
  | ok n =>
      by_cases hn : n = 0
      · subst hn
        rfl
      · -- Inputs that are alike have the same first token, if they have any.
        have hmore : i.exceeds 0 = .ok true := by
          have hpos : 0 < n := by omega
          rw [Input.exceeds_eq, hlength, hj]
          simp [Functor.map, Except.map, hpos]
        have hfirst := (h.first hij hmore).eq
        simp only [bind, Except.bind, hn, if_false, hfirst]

/-- Where a rest of the tokens stands: at its first token, or at the end of the source. -/
def placeOf (source : String) : List Token → Span
  | [] => .point source.length
  | token :: _ => token.span

/-- The error for tokens that are left over. -/
def trailingError (source : String) (rest : List Token) (detail : String) : ParseError :=
  ⟨.trailingInput, placeOf source rest, some source, .complete, detail⟩

/-- The error for tokens that fit no rule. -/
def grammarError (source : String) (rest : List Token) (detail : String) : ParseError :=
  ⟨if rest = [] then .endOfInput else .unexpectedToken, placeOf source rest, some source, .grammar,
    detail⟩

theorem errorAt_plain (source : String) (diagnostic : Diagnostic) (rest : List Token) :
    errorAt source diagnostic (.plain rest) =
      .ok (if diagnostic.cause = .leftover then trailingError source rest diagnostic.message
        else grammarError source rest diagnostic.message) := by
  by_cases hcause : diagnostic.cause = .leftover
  · cases rest <;> simp [errorAt, Input.length, Input.first, bind, Except.bind, pure, Except.pure,
      hcause, trailingError, placeOf, Symbol.item, Item.span, Item.toToken, Functor.map, Except.map]
  · cases rest <;> simp [errorAt, Input.length, Input.first, bind, Except.bind, pure, Except.pure,
      hcause, grammarError, placeOf, Symbol.item, Item.span, Item.toToken, Functor.map, Except.map]

/-! ## The outcome of reading tokens -/

/-- What reading tokens comes to, where the nesting is within the limit. -/
inductive Outcome (source : String) (tokens : List Token) :
    Except Refusal (Term (Option Note)) → Prop where
  | accepted {t : Term (Option Note)} (h : read (tokens.map Token.lexeme) = .success t []) :
      Outcome source tokens (.ok t)
  | trailing {t : Term (Option Note)} {rest : List Token} (detail : String) (hrest : rest ≠ [])
      (hsuffix : rest <:+ tokens)
      (h : read (tokens.map Token.lexeme) = .success t (rest.map Token.lexeme)) :
      Outcome source tokens (.error (.malformed (trailingError source rest detail)))
  | refused {rest : List Token} (detail : String) (hsuffix : rest <:+ tokens)
      (h : read (tokens.map Token.lexeme) = .failure (rest.map Token.lexeme)) :
      Outcome source tokens (.error (.malformed (grammarError source rest detail)))

/-- Expressions are refused with the failures of all alternatives. -/
theorem expression_cause {depth : Nat} {tokens : List Token} {diagnostic : Diagnostic}
    {rest : Input Token}
    (h : eval (callsAt ownRules depth) expression (.plain tokens) = .ok (.failure diagnostic rest)) :
    diagnostic.cause ≠ .leftover := by
  cases depth with
  | zero => cases h
  | succ depth => exact settle_cause h

/-- The outcome of an answer at some depth. -/
theorem outcome_of_evalAt {depth : Nat} {tokens : List Token} (source : String)
    (hdeep : evalAt ownRules depth wholeExpression (.plain tokens) ≠ .error .tooDeep) :
    (∃ t, evalAt ownRules depth wholeExpression (.plain tokens) =
        .ok (.success t (.plain [])) ∧ Outcome source tokens (.ok t)) ∨
    ∃ diagnostic rest error, evalAt ownRules depth wholeExpression (.plain tokens) =
        .ok (.failure diagnostic (.plain rest)) ∧
      errorAt source diagnostic (.plain rest) = .ok error ∧
      Outcome source tokens (.error (.malformed error)) := by
  have hwithin := readsAt_within ownRules depth expression tokens
  have hdescent := mapRest_expression depth tokens
  rw [evalAt, wholeExpression, eval] at hdeep ⊢
  rw [readsAt] at hwithin hdescent
  generalize heval : eval (callsAt ownRules depth) expression (.plain tokens) = answer
    at hwithin hdescent hdeep ⊢
  cases heval ▸ eval_atPlain ownRules depth expression tokens with
  | halted halt =>
      -- A bound that is not met leaves no way to halt.
      have hne : readExpression depth (tokens.map Token.lexeme) ≠ .halted .tooDeep := by
        rw [← hdescent]
        rintro ⟨⟩
        exact hdeep rfl
      rw [readExpression_eq_read hne] at hdescent
      exact absurd hdescent.symm (read_ne_halted _ halt)
  | success t rest =>
      have hread : read (tokens.map Token.lexeme) = .success t (rest.map Token.lexeme) :=
        read_eq_success hdescent.symm
      -- Whether the expression is all there is tells acceptance from leftover tokens.
      cases rest with
      | nil => exact .inl ⟨t, rfl, .accepted hread⟩
      | cons token rest =>
          exact .inr ⟨_, _, _, rfl, errorAt_plain source _ _,
            .trailing _ (List.cons_ne_nil token rest) hwithin hread⟩
  | failure diagnostic rest =>
      have hread : read (tokens.map Token.lexeme) = .failure (rest.map Token.lexeme) :=
        read_eq_failure hdescent.symm
      refine .inr ⟨diagnostic, rest, _, rfl, errorAt_plain source _ _, ?_⟩
      rw [if_neg (expression_cause heval)]
      exact .refused _ hwithin hread

theorem rules_eq_ownRules {ι : Type} [Symbol ι]
    (others : (name : Signature.none.Rule) →
      Parser ι (signature Signature.none) (Signature.none.ruleValue name)) :
    rules others = ownRules := by
  rw [ownRules]
  congr
  funext name
  cases name

/-- Reading tokens is refused for its nesting, beyond what the descent may do with the
    levels allowed, or has the outcome of the descent without a bound. -/
theorem parseTokensWithin_outcome (limit : Nat) (tokens : List Token) (source : String) :
    (parseTokensWithin limit (.plain tokens) source = .error (.malformed (tooDeepError source)) ∧
      readExpression (limit + 1) (tokens.map Token.lexeme) = .halted .tooDeep) ∨
    Outcome source tokens (parseTokensWithin limit (.plain tokens) source) := by
  rcases run_plain ownRules_remembers wholeExpression_remembers (limit + 1) tokens #[] with
    ⟨hrun, hdeep⟩ | ⟨r, k, hrun, hne, halike⟩
  · left
    have hhalted : readsAt ownRules (limit + 1) wholeExpression tokens = .halted .tooDeep := by
      rw [readsAt, ← evalAt, hdeep]
      rfl
    rw [wholeExpression, readsAt_complete] at hhalted
    refine ⟨by simp only [parseTokensWithin, rules_eq_ownRules, hrun], ?_⟩
    rw [← mapRest_expression]
    -- Asking for the end of the tokens needs no levels, so it was the expression.
    rcases Reads.andThen_eq_halted hhalted with hexpr | ⟨t, rest, -, hend⟩
    · rw [hexpr]
      rfl
    · split at hend <;> cases hend
  · right
    rcases outcome_of_evalAt source hne with
      ⟨t, heval, ht⟩ | ⟨diagnostic, rest, error, heval, herror, houtcome⟩
    · rw [heval] at halike
      cases halike with
      | ok hreply =>
          cases hreply with
          | success hvalue hsliced =>
              simp only [parseTokensWithin, rules_eq_ownRules, hrun, Stop.ofReply, hvalue]
              exact ht
    · rw [heval] at halike
      cases halike with
      | ok hreply =>
          cases hreply with
          | failure _ hsliced =>
              -- The run reports a cursor, the outcome the tokens that are left behind it.
              rw [← errorAt_alike (bisimulation_slice tokens.toArray) hsliced] at herror
              simp only [parseTokensWithin, rules_eq_ownRules, hrun, Stop.ofReply, herror]
              exact houtcome

/-- Tokens are refused by the grammar only. -/
theorem parseTokensWithin_refusal {limit : Nat} {tokens : List Token} {source : String}
    {refusal : Refusal} (h : parseTokensWithin limit (.plain tokens) source = .error refusal) :
    ∃ error, refusal = .malformed error ∧ error.stage ≠ .tokenize := by
  rcases parseTokensWithin_outcome limit tokens source with ⟨hdeep, -⟩ | houtcome
  · cases hdeep.symm.trans h
    exact ⟨_, rfl, by simp [tooDeepError]⟩
  · rw [h] at houtcome
    cases houtcome with
    | trailing detail _ _ _ => exact ⟨_, rfl, by simp [trailingError]⟩
    | refused detail _ _ => exact ⟨_, rfl, by simp [grammarError]⟩

end Grammar

end LambdaTree
