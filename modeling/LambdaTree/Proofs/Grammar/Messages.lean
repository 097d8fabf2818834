/-
  LambdaTree.Proofs.Grammar.Messages

  The messages of the grammar stay small, however long the tokens are and
  however deep they are nested.  An expression is one of two alternatives, so
  its diagnostic has two parts at most, and no text of the grammar is stated by
  a failing parser: what a message shows are headers and the next few tokens.
-/

import LambdaTree.Proofs.Grammar.Outcome
import LambdaTree.Proofs.Parser.Messages

namespace LambdaTree

/-! ## The first answer of a session -/

namespace Parser

variable {ι : Type} {σ : Signature} {cell : σ.Cell} {input : Input ι}
  {m : Run ι σ (Reply ι (σ.cellValue cell))} {s : Session ι σ} {reply : Reply ι (σ.cellValue cell)}

/-- Where nothing is remembered yet, an answer is computed. -/
theorem result_of_remember (hs : s.table = none ∨ s.table = some .empty)
    (h : (remember cell input m).result s = .ok reply) : m.result s = .ok reply := by
  rcases hs with hnone | hempty
  · rwa [Run.result, remember_none hnone] at h
  · cases hlength : input.length with
    | error fault =>
        rw [Run.result, remember_fault hempty hlength] at h
        cases h
    | ok length =>
        rw [Run.result, remember_miss hempty hlength (Table.find?_empty cell length)] at h
        cases hm : m.result s with
        | error halt =>
            rw [hm] at h
            cases h
        | ok answer =>
            rw [hm] at h
            cases h
            rfl

end Parser

namespace Grammar

open LambdaTree.Parser

section

variable {ι : Type} [Symbol ι]

/-! ## Where messages come from -/

theorem not_states_term (text : String) :
    ¬(term : Parser ι (signature Signature.none) _).States text := by
  rintro ⟨i, h⟩
  match i with
  | 0 | 1 | 2 => simp [States, parenthesised, abstraction, variableTerm, binder, expression,
      openToken, closeToken, lambdaToken, wordToken, dotToken, token, seqRight, seqLeft, combine,
      apply, applyM] at h

/-- The grammar fails with no texts of its own. -/
theorem not_mayState_wholeExpression (text : String) :
    ¬MayState ownRules (wholeExpression : Parser ι (signature Signature.none) _) text := by
  rintro (h | ⟨name, -, h⟩)
  · exact h
  · cases name with
    | other name => cases name
    | expression =>
        obtain ⟨i, h⟩ := h
        match i with
        | 0 => simp [States, application, chainLeft, apply, applyM, combine, not_states_term] at h
        | 1 => exact not_states_term text h

/-- Of each of the two alternatives of an expression thirteen lines are kept. -/
theorem length_lines_wholeExpression {tokens : Input ι} {diagnostic : Diagnostic}
    (h : FailsWith ownRules wholeExpression tokens diagnostic) :
    diagnostic.lines.length ≤ 27 := by
  obtain ⟨place, s, depth, rest, hplace, hresult⟩ := h.exists_result
  have hs : s.table = none ∨ s.table = some .empty := hplace.imp And.right And.right
  obtain ⟨reply, hreply, hend⟩ := Run.result_bind_eq_ok hresult
  have hend : requireEnd reply = .ok (.failure diagnostic rest) := Run.result_check_eq_ok hend
  have hrule := result_of_remember hs hreply
  cases reply with
  | failure other place' =>
      cases hend
      cases depth with
      | zero => cases hrule
      | succ depth => exact length_lines_choice hrule
  | success t left =>
      -- The expression was read, and the only part are the tokens that remain.
      obtain ⟨more, -, hend⟩ := exists_of_bind_eq_ok hend
      cases more with
      | false => cases hend
      | true =>
          obtain ⟨text, -, hend⟩ := exists_of_bind_eq_ok hend
          cases hend
          have hlength := Diagnostic.length_nest_le .leftover [Text.lines ("Remaining: " ++ text)]
          rw [List.length_singleton] at hlength
          omega

theorem detail_of_errorAt {source : String} {diagnostic : Diagnostic} {rest : Input ι}
    {error : ParseError} (h : errorAt source diagnostic rest = .ok error) :
    error.detail = diagnostic.message := by
  obtain ⟨length, -, h⟩ := exists_of_bind_eq_ok h
  by_cases hend : length = 0
  · simp only [if_pos hend] at h
    cases h
    rfl
  · simp only [if_neg hend] at h
    obtain ⟨symbol, -, h⟩ := exists_of_bind_eq_ok h
    obtain ⟨span, -, h⟩ := exists_of_bind_eq_ok h
    cases h
    rfl

/-- The detail of an error is the message of a diagnostic, unless the nesting was too
    deep. -/
theorem failsWith_of_malformed {limit : Nat} {tokens : Input ι} {source : String}
    {error : ParseError}
    (h : parseTokensWithin limit tokens source = .error (.malformed error))
    (hdeep : error.reason ≠ .tooDeep) :
    ∃ diagnostic, FailsWith ownRules wholeExpression tokens diagnostic ∧
      error.detail = diagnostic.message := by
  simp only [parseTokensWithin, rules_eq_ownRules] at h
  split at h
  · cases h
  · rename_i diagnostic rest hrun
    split at h
    · rename_i found herror
      cases h
      exact ⟨diagnostic, .run hrun, detail_of_errorAt herror⟩
    · cases h
  · cases h
    exact absurd rfl hdeep
  · cases h

end

/-! ## Bounded messages -/

/-- The texts that show the first of the last tokens of a sequence. -/
def PreviewOf (tokens : List Token) (text : String) : Prop :=
  ∃ rest, rest <:+ tokens ∧ (Input.plain rest).preview = .ok text

/-- A message about tokens of at most twenty-seven lines.  Each line is a header or a preview
    of the tokens, or the mark in place of lines that were left out, indented at most
    thirteen times; so it is at most fifty-two characters longer than a header or a
    preview. -/
structure BoundedMessage (tokens : List Token) (message : String) : Prop where
  count : (Text.lines message).length ≤ 27
  origin : ∀ line ∈ Text.lines message,
    ∃ n base, n ≤ 13 ∧ Diagnostic.OwnLineOrMark (fun _ => False) (PreviewOf tokens) base ∧
      Diagnostic.Indented base n line
  width : ∀ line ∈ Text.lines message,
    ∃ base, Diagnostic.OwnLine (fun _ => False) (PreviewOf tokens) base ∧
      line.length ≤ base.length + 52

theorem boundedMessage_of_failsWith {tokens : Input Token} {items : List Token}
    {diagnostic : Diagnostic} (hitems : tokens.Holds items)
    (hlines : ∀ token ∈ items, '\n' ∉ token.text.toList)
    (h : FailsWith ownRules wholeExpression tokens diagnostic) :
    BoundedMessage items diagnostic.message := by
  have hstates : ∀ text, MayState ownRules wholeExpression text → '\n' ∉ text.toList :=
    fun text htext => absurd htext (not_mayState_wholeExpression (ι := Token) text)
  have hshows : ∀ text, tokens.Previews text → '\n' ∉ text.toList := fun text htext =>
    htext.newline_not_mem (fun token htoken => hlines token (hitems.mem_of_shows htoken) :
      ∀ token : Token, tokens.Shows token → '\n' ∉ token.text.toList)
  have hpreviews : ∀ text, tokens.Previews text → PreviewOf items text := by
    rintro text ⟨place, hplace, hpreview⟩
    obtain ⟨rest, hrest, hholds⟩ := hitems.of_suffix hplace
    exact ⟨rest, hrest, by rw [← hholds.preview_eq, hpreview]⟩
  have hexplained := h.explained hstates hshows
  have hindented : Diagnostic.WellIndented
      (Diagnostic.OwnLineOrMark (fun _ => False) (PreviewOf items)) diagnostic.lines :=
    Diagnostic.WellIndented.mono hexplained fun line hline => hline.imp_left fun hown =>
      hown.mono not_mayState_wholeExpression hpreviews
  have hmessage := Diagnostic.lines_message hexplained hstates hshows
  refine ⟨?_, fun line hline => ?_, fun line hline => ?_⟩
  · rw [hmessage]
    exact length_lines_wholeExpression h
  · rw [hmessage] at hline
    obtain ⟨j, hj⟩ := List.mem_iff_getElem?.mp hline
    obtain ⟨n, base, -, hn, hbase, hn'⟩ := hindented j line hj
    exact ⟨n, base, hn, hbase, hn'⟩
  · rw [hmessage] at hline
    exact hindented.length_le hline

/-- Messages stay bounded whatever the nesting.  Let tokens have no line feeds in their
    texts.  If the grammar fails on them, in a call or in a run, or reading them is refused
    with an error other than for its nesting, then the message has at most twenty-seven
    lines, each at most fifty-two characters longer than a header or a preview.

    The same argument serves every parser whose texts and items are single lines.  Line `j`
    of its message is indented `n` times for some `n ≤ j`, each time by four characters;
    and if the parser is a choice between `k` alternatives, there are at most `1 + 13 * k`
    lines. -/
theorem messages_stay_bounded :
    (∀ (tokens : Input Token) (items : List Token), tokens.Holds items →
      (∀ token ∈ items, '\n' ∉ token.text.toList) →
      (∀ diagnostic, FailsWith ownRules wholeExpression tokens diagnostic →
        BoundedMessage items diagnostic.message) ∧
      ∀ limit source error,
        parseTokensWithin limit tokens source = .error (.malformed error) →
        error.reason ≠ .tooDeep → BoundedMessage items error.detail) ∧
    ∀ {ι α : Type} {σ : Signature} [Symbol ι] [Symbol.SingleLine ι] (rules : Rules ι σ)
      (p : Parser ι σ α) (input : Input ι) (diagnostic : Diagnostic),
      (∀ text, MayState rules p text → '\n' ∉ text.toList) →
      (∀ symbol, input.Shows symbol → '\n' ∉ (Symbol.item symbol).shown.toList) →
      FailsWith rules p input diagnostic →
      (∀ j line, (Text.lines diagnostic.message)[j]? = some line →
        ∃ n base, n ≤ j ∧ Diagnostic.OwnLineOrMark (MayState rules p) input.Previews base ∧
          Diagnostic.Indented base n line ∧ line.length = base.length + 4 * n) ∧
      ∀ k (alternative : Fin k → Parser ι σ α), p = .choice k alternative →
        (Text.lines diagnostic.message).length ≤ 1 + 13 * k := by
  refine ⟨fun tokens items hitems hlines => ⟨fun diagnostic h => ?_, ?_⟩, ?_⟩
  · exact boundedMessage_of_failsWith hitems hlines h
  · intro limit source error h hdeep
    obtain ⟨diagnostic, hfails, hdetail⟩ := failsWith_of_malformed h hdeep
    rw [hdetail]
    exact boundedMessage_of_failsWith hitems hlines hfails
  · intro ι α σ _ _ rules p input diagnostic hstates hitems h
    have hshows : ∀ text, input.Previews text → '\n' ∉ text.toList :=
      fun text htext => htext.newline_not_mem hitems
    have hexplained := h.explained hstates hshows
    rw [Diagnostic.lines_message hexplained hstates hshows]
    refine ⟨fun j line hline => ?_, ?_⟩
    · obtain ⟨n, base, hj, -, hbase, hindented⟩ := hexplained j line hline
      exact ⟨n, base, hj, hbase, hindented, hindented.length_eq⟩
    · rintro k alternative rfl
      obtain ⟨place, s, depth, rest, -, hresult⟩ := h.exists_result
      exact length_lines_choice hresult

/-- A parenthesis that is never closed is refused with a bounded message; and two parsers
    that fail with a text each make at most twenty-seven lines. -/
theorem messages_stay_bounded_unclosed :
    let token : Token := ⟨.openParen, ⟨0, 1⟩⟩
    let noRules : Rules Char Signature.none := nofun
    let twoTexts : Parser Char Signature.none Unit := firstOf [.fail "one", .fail "two"]
    (∃ error, parseTokensWithin 300 (.plain [token]) "(" = .error (.malformed error) ∧
      error.reason ≠ .tooDeep ∧ BoundedMessage [token] error.detail) ∧
    ∃ diagnostic, FailsWith noRules twoTexts (.plain []) diagnostic ∧
      (Text.lines diagnostic.message).length ≤ 1 + 13 * 2 := by
  intro token noRules twoTexts
  obtain ⟨hgrammar, hgeneral⟩ := messages_stay_bounded
  constructor
  · obtain ⟨error, hparse, hdeep⟩ : ∃ error : ParseError,
        parseTokensWithin 300 (.plain [token]) "(" = .error (.malformed error) ∧
        error.reason ≠ .tooDeep :=
      ⟨⟨.endOfInput, ⟨1, 1⟩, some "(", .grammar, _⟩, by with_unfolding_all rfl, by simp⟩
    have hlines : ∀ other ∈ [token], '\n' ∉ other.text.toList := by decide
    exact ⟨error, hparse, hdeep, (hgrammar _ _ (.plain _) hlines).2 300 "(" error hparse hdeep⟩
  · have hfails : FailsWith noRules twoTexts (.plain [])
        (.nest .allAlternatives [["FAILURE: one"], ["FAILURE: two"]]) := by
      have hreply : (reply noRules 0 twoTexts (.plain []) #[]).1 = .ok (.failure
          (.nest .allAlternatives [["FAILURE: one"], ["FAILURE: two"]]) (.plain [])) := by
        with_unfolding_all rfl
      exact .call hreply
    have hstates : ∀ text, MayState noRules twoTexts text → '\n' ∉ text.toList := by
      rintro text (⟨i, h⟩ | ⟨name, -⟩)
      · match i with
        | 0 | 1 =>
            obtain rfl := h
            decide
      · cases name
    have hitems : ∀ symbol, (Input.plain ([] : List Char)).Shows symbol →
        '\n' ∉ (Symbol.item symbol).shown.toList :=
      fun symbol hsymbol => by cases (Input.Holds.plain []).mem_of_shows hsymbol
    exact ⟨_, hfails, (hgeneral _ _ _ _ hstates hitems hfails).2 2 _ rfl⟩

end Grammar

end LambdaTree
