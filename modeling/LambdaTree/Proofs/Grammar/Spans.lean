/-
  LambdaTree.Proofs.Grammar.Spans

  The grammar reads lexemes, and where tokens stand plays no part.  On two lists
  of tokens with the same lexemes the runs of the grammar go in step
  (`wholeExpression_respects`), so that they accept the same tree, or are both
  too deep, or are refused with the same diagnostic at tokens of the same index
  (`parseTokensWithin_sameLexemes`).  Only the spans of the errors differ.
-/

import LambdaTree.Proofs.Grammar.Outcome
import LambdaTree.Proofs.Parser.Lockstep

namespace LambdaTree

/-! ## Inputs with the same lexemes -/

/-- Tokens that differ in their spans at most. -/
def Token.SameLexeme (a b : Token) : Prop :=
  a.lexeme = b.lexeme

/-- Cursors at the same place of two lists of tokens. -/
def Input.SamePlace (tokens tokens' : List Token) (i j : Input Token) : Prop :=
  ∃ k, k ≤ tokens.length ∧ i = .view ⟨.symbols tokens.toArray, (k : Nat)⟩ ∧
    j = .view ⟨.symbols tokens'.toArray, (k : Nat)⟩

/-- A message shows the lexemes of tokens, not their spans. -/
theorem preview_tokens (tokens : List Token) :
    Symbol.preview tokens = String.intercalate " " ((tokens.map Token.lexeme).map Lexeme.text) := by
  rw [List.map_map]
  rfl

theorem bisimulation_samePlace {tokens tokens' : List Token}
    (h : tokens.map Token.lexeme = tokens'.map Token.lexeme) :
    Bisimulation Token.SameLexeme (Input.SamePlace tokens tokens') := by
  have hsize : tokens.toArray.size = tokens'.toArray.size := by
    simpa using congrArg List.length h
  refine ⟨?_, ?_, ?_, ?_⟩
  · rintro _ _ ⟨k, hk, rfl, rfl⟩
    rw [Input.length, Input.length, Cursor.length_symbols hk,
      Cursor.length_symbols (hsize ▸ hk), hsize]
  · rintro _ _ ⟨k, hk, rfl, rfl⟩ hmore
    have hlt := Input.exceeds_zero_symbols hk hmore
    rw [Input.first, Input.first, Cursor.get_symbols hlt, Cursor.get_symbols (hsize ▸ hlt)]
    -- The same index into the two lists of lexemes.
    have hget : (tokens.map Token.lexeme)[k]? = (tokens'.map Token.lexeme)[k]? := by rw [h]
    rw [List.getElem?_map, List.getElem?_map, List.getElem?_eq_getElem hlt,
      List.getElem?_eq_getElem (hsize ▸ hlt : k < tokens'.toArray.size)] at hget
    exact .ok (Option.some.inj hget)
  · rintro _ _ ⟨k, hk, rfl, rfl⟩ count
    rw [Input.head, Input.head, Cursor.head_symbols hk, Cursor.head_symbols (hsize ▸ hk),
      preview_tokens, preview_tokens]
    simp only [List.map_take, List.map_drop, h]
  · rintro _ _ ⟨k, hk, rfl, rfl⟩ hmore
    have hlt := Input.exceeds_zero_symbols hk hmore
    rw [Input.rest, Input.rest, Cursor.advance_symbols hlt, Cursor.advance_symbols (hsize ▸ hlt)]
    exact .ok ⟨k + 1, hlt, rfl, rfl⟩

namespace Grammar

open LambdaTree.Parser

/-! ## Parsers of the grammar -/

theorem nameOf_congr {a b : Token} (hab : a.SameLexeme b) : nameOf a = nameOf b := by
  obtain ⟨lexeme, span⟩ := a
  obtain ⟨lexeme', span'⟩ := b
  obtain rfl : lexeme = lexeme' := hab
  cases lexeme <;> rfl

section

variable {R : Input Token → Input Token → Prop} (h : Bisimulation Token.SameLexeme R)
  {call : (name : (signature Signature.none).Rule) → Input Token →
    Run Token (signature Signature.none) (Reply Token ((signature Signature.none).ruleValue name))}
include h

theorem token_respects (test : Lexeme → Bool) :
    Respects call R Token.SameLexeme (token test) := by
  refine .satisfy h fun a b hab => ?_
  have hlexeme : a.lexeme = b.lexeme := hab
  simp only [Symbol.item, Item.isToken, hlexeme]

theorem binder_respects : Respects call R Eq binder :=
  .apply (fun _ _ => nameOf_congr)
    (.seqLeft (.seqRight (token_respects h _) (token_respects h _)) (token_respects h _))

theorem variableTerm_respects : Respects call R Eq variableTerm :=
  .apply (fun _ _ hab => congrArg _ hab) (.apply (fun _ _ => nameOf_congr) (token_respects h _))

theorem expression_respects (hcall : ∀ name, Respects call R Eq (.rule name)) :
    Respects call R Eq expression :=
  .memo (σ := signature Signature.none) h Cell.expression (hcall Rule.expression)

theorem abstraction_respects (hcall : ∀ name, Respects call R Eq (.rule name)) :
    Respects call R Eq abstraction :=
  .combine (fun _ _ _ _ hbinder hbody => by rw [hbinder, hbody]) (binder_respects h)
    (expression_respects h hcall)

theorem parenthesised_respects (hcall : ∀ name, Respects call R Eq (.rule name)) :
    Respects call R Eq parenthesised :=
  .seqRight (token_respects h _) (.seqLeft (expression_respects h hcall) (token_respects h _))

theorem term_respects (hcall : ∀ name, Respects call R Eq (.rule name)) :
    Respects call R Eq term := by
  refine .memo (σ := signature Signature.none) h Cell.term (.firstOf h ?_)
  simp only [List.forall_mem_cons]
  exact ⟨parenthesised_respects h hcall, abstraction_respects h hcall, variableTerm_respects h,
    by simp⟩

theorem application_respects (hcall : ∀ name, Respects call R Eq (.rule name)) :
    Respects call R Eq application :=
  .chainLeft h (term_respects h hcall) (.succeed rfl)

/-- The rules of the grammar cannot tell tokens with the same lexemes apart. -/
theorem ownRules_respects (hcall : ∀ name, Respects call R Eq (.rule name))
    (name : (signature Signature.none).Rule) : Respects call R Eq (ownRules name) := by
  cases name with
  | other name => cases name
  | expression =>
      refine .firstOf h ?_
      simp only [List.forall_mem_cons]
      exact ⟨application_respects h hcall, term_respects h hcall, by simp⟩

theorem wholeExpression_respects (depth : Nat) :
    Respects (callAt ownRules depth) R Eq wholeExpression :=
  .complete h (expression_respects h (callAt_respects (fun _ => ownRules_respects h) depth))

end

/-! ## Readings in step -/

/-- The end of each source, or the spans of the tokens with one index. -/
inductive SameSpan (source source' : String) (tokens tokens' : List Token) : Span → Span → Prop where
  | atEnd : SameSpan source source' tokens tokens' (.point source.length) (.point source'.length)
  | atToken {p : Nat} {token token' : Token} (h : tokens[p]? = some token)
      (h' : tokens'[p]? = some token') : SameSpan source source' tokens tokens' token.span token'.span

/-- Two readings that differ in the spans of their errors at most, and in these only as
    their sources and tokens do. -/
inductive SameReading (source source' : String) (tokens tokens' : List Token) :
    Except Refusal (Term (Option Note)) → Except Refusal (Term (Option Note)) → Prop where
  | accepted (t : Term (Option Note)) : SameReading source source' tokens tokens' (.ok t) (.ok t)
  | tooDeep : SameReading source source' tokens tokens' (.error (.malformed (tooDeepError source)))
      (.error (.malformed (tooDeepError source')))
  | refused {error error' : ParseError} (hreason : error.reason = error'.reason)
      (hstage : error.stage = error'.stage) (hdetail : error.detail = error'.detail)
      (hspan : SameSpan source source' tokens tokens' error.span error'.span) :
      SameReading source source' tokens tokens' (.error (.malformed error))
        (.error (.malformed error'))

section

variable {tokens tokens' : List Token} {k : Nat}

theorem placeOf_drop (hlength : tokens.length = tokens'.length) (source source' : String) :
    SameSpan source source' tokens tokens' (placeOf source (tokens.drop k))
      (placeOf source' (tokens'.drop k)) := by
  rcases Nat.lt_or_ge k tokens.length with hlt | hge
  · have hlt' : k < tokens'.length := hlength ▸ hlt
    rw [List.drop_eq_getElem_cons hlt, List.drop_eq_getElem_cons hlt']
    exact .atToken (List.getElem?_eq_getElem hlt) (List.getElem?_eq_getElem hlt')
  · rw [List.drop_eq_nil_of_le hge, List.drop_eq_nil_of_le (hlength ▸ hge)]
    exact .atEnd

theorem drop_eq_nil_congr (hlength : tokens.length = tokens'.length) :
    tokens.drop k = [] ↔ tokens'.drop k = [] := by
  rw [List.drop_eq_nil_iff, List.drop_eq_nil_iff, hlength]

/-- The error at a cursor is that at the tokens from there on. -/
theorem errorAt_cursor (hk : k ≤ tokens.length) (source : String) (diagnostic : Diagnostic) :
    errorAt source diagnostic (.view ⟨.symbols tokens.toArray, (k : Nat)⟩) =
      .ok (if diagnostic.cause = .leftover then
        trailingError source (tokens.drop k) diagnostic.message
      else grammarError source (tokens.drop k) diagnostic.message) := by
  rw [← errorAt_plain]
  exact errorAt_alike (bisimulation_slice tokens.toArray) ⟨k, hk, rfl, rfl⟩ source diagnostic

/-- Reading two lists of tokens with the same lexemes. -/
theorem parseTokensWithin_sameLexemes (h : tokens.map Token.lexeme = tokens'.map Token.lexeme)
    (limit : Nat) (source source' : String) :
    SameReading source source' tokens tokens' (parseTokensWithin limit (.plain tokens) source)
      (parseTokensWithin limit (.plain tokens') source') := by
  have hlength : tokens.length = tokens'.length := by simpa using congrArg List.length h
  have hstart : Input.SamePlace tokens tokens' (Input.toCursor (.plain tokens))
      (Input.toCursor (.plain tokens')) := ⟨0, Nat.zero_le _, rfl, rfl⟩
  obtain ⟨r, r', hrun, hrun', halike⟩ := run_alike
    (wholeExpression_respects (bisimulation_samePlace h) (limit + 1)) hstart #[] #[]
  cases halike with
  | error halt =>
      cases halt with
      | tooDeep =>
          simp only [parseTokensWithin, rules_eq_ownRules, hrun, hrun', Stop.ofReply]
          exact .tooDeep
      | fault fault =>
          -- Tokens can always be read, so there is no fault to meet.
          have hparse : parseTokensWithin limit (.plain tokens) source =
              .error (.unreadable fault) := by
            simp only [parseTokensWithin, rules_eq_ownRules, hrun, Stop.ofReply]
          obtain ⟨_, hsame, -⟩ := parseTokensWithin_refusal hparse
          cases hsame
  | ok hreply =>
      cases hreply with
      | success hvalue hplace =>
          simp only [parseTokensWithin, rules_eq_ownRules, hrun, hrun', Stop.ofReply, hvalue]
          exact .accepted _
      | failure diagnostic hplace =>
          obtain ⟨k, hk, rfl, rfl⟩ := hplace
          have hk' : k ≤ tokens'.length := hlength ▸ hk
          simp only [parseTokensWithin, rules_eq_ownRules, hrun, hrun', Stop.ofReply,
            errorAt_cursor hk, errorAt_cursor hk']
          have hspan := @placeOf_drop tokens tokens' k hlength source source'
          by_cases hcause : diagnostic.cause = .leftover
          · simp only [hcause, if_true]
            exact .refused rfl rfl rfl hspan
          · simp only [hcause, if_false]
            refine .refused ?_ rfl rfl hspan
            simp only [grammarError, drop_eq_nil_congr hlength]

end

end Grammar

end LambdaTree
