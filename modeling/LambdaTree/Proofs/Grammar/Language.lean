/-
  LambdaTree.Proofs.Grammar.Language

  Reading tokens accepts the language of the grammar, with the trees of the
  canonical one, whose nodes carry no notes.  The tokens may be of any kind;
  spans play no part.  A run that is refused for its nesting says nothing about
  the tokens and is left out; any other run decides.
-/

import LambdaTree.Proofs.Grammar.Outcome
import LambdaTree.Proofs.Grammar.Recognition
import LambdaTree.Proofs.Term.Equality

namespace LambdaTree

namespace Grammar

variable {source : String} {tokens : List Token} {t : Term (Option Note)}

/-! ## What a run decides -/

/-- Tokens are accepted with a tree when the descent reads all of them as this tree. -/
theorem Outcome.eq_ok_iff {result : Except Refusal (Term (Option Note))}
    (h : Outcome source tokens result) :
    result = .ok t ↔ read (tokens.map Token.lexeme) = .success t [] := by
  cases h with
  | accepted hread => simp [hread]
  | trailing detail hrest _ hread => simp [hread, hrest]
  | refused detail _ hread => simp [hread]

/-- Unless a run hits the nesting limit, it has the outcome of the descent. -/
theorem outcome_of_ne_tooDeep {limit : Nat}
    (hlimit : parseTokensWithin limit (.plain tokens) source ≠
      .error (.malformed (tooDeepError source))) :
    Outcome source tokens (parseTokensWithin limit (.plain tokens) source) :=
  (parseTokensWithin_outcome limit tokens source).resolve_left fun h => hlimit h.1

/-- An outcome of the descent is no complaint about nesting. -/
theorem Outcome.ne_tooDeep {result : Except Refusal (Term (Option Note))}
    (h : Outcome source tokens result) : result ≠ .error (.malformed (tooDeepError source)) := by
  cases h with
  | accepted hread => simp
  | trailing detail hrest _ hread => simp [trailingError, tooDeepError]
  | @refused rest detail _ hread =>
      -- Neither of the two reasons that the grammar gives is that for nesting.
      by_cases hrest : rest = []
      · simp [grammarError, tooDeepError, hrest]
      · simp [grammarError, tooDeepError, hrest]

/-- Levels that are enough for the descent are enough for a run. -/
theorem parseTokensWithin_ne_tooDeep {limit : Nat}
    (h : readExpression (limit + 1) (tokens.map Token.lexeme) ≠ .halted .tooDeep) :
    parseTokensWithin limit (.plain tokens) source ≠ .error (.malformed (tooDeepError source)) :=
  ((parseTokensWithin_outcome limit tokens source).resolve_left fun hdeep => h hdeep.2).ne_tooDeep

/-! ## Source texts -/

/-- A text that falls into tokens is read from those that matter. -/
theorem parseWithin_of_tokenize {limit : Nat} {source : String} {tokens : List Token}
    (h : Lexer.tokenize source = .ok tokens) :
    parseWithin limit source =
      parseTokensWithin limit (.plain (Token.significant tokens)) source := by
  rw [parseWithin, tokensOf, h]
  rfl

/-- A text that is read as a term falls into tokens. -/
theorem exists_tokenize_of_parseWithin {limit : Nat} (h : parseWithin limit source = .ok t) :
    ∃ tokens, Lexer.tokenize source = .ok tokens := by
  cases htokens : Lexer.tokenize source with
  | ok tokens => exact ⟨tokens, rfl⟩
  | error stop =>
      have herror : ∃ refusal, tokensOf source = .error refusal := by
        rw [tokensOf, htokens]
        rcases stop with ⟨diagnostic, rest⟩ | halt
        · cases hplace : characterErrorAt source diagnostic rest with
          | ok error => exact ⟨.malformed error, by simp only [hplace]⟩
          | error fault => exact ⟨.unreadable fault, by simp only [hplace]⟩
        · cases halt with
          | tooDeep => exact ⟨_, rfl⟩
          | fault fault => exact ⟨_, rfl⟩
      obtain ⟨refusal, hrefusal⟩ := herror
      rw [parseWithin, hrefusal] at h
      cases h

/-! ## The trees that are read -/

/-- No rule of the grammar puts a note on a node. -/
theorem Derives.strip_eq {c : Category} {ts : List Lexeme} (h : Derives c ts t) :
    t.strip = t := by
  induction h with
  | word name => rw [Term.strip_var]
  | parens _ ih => exact ih
  | atom _ ih => exact ih
  | abstraction binder _ ih => rw [Term.strip_abs, ih]
  | head _ ih => exact ih
  | applied _ _ ihf iha => rw [Term.strip_app, ihf, iha]
  | single _ ih => exact ih
  | chain _ _ ihf iha => rw [Term.strip_app, ihf, iha]

theorem Derives.note_of_mem_labels {c : Category} {ts : List Lexeme} (h : Derives c ts t) :
    ∀ label ∈ t.labels, label.note = none := by
  rw [← h.strip_eq]
  exact Term.note_of_mem_labels_annotate none t

/-- Soundness, completeness and unambiguity.  Whenever the nesting limit is not hit,
    tokens are read as a tree if and only if their lexemes have this tree in the
    canonical grammar.  No sequence of lexemes has two trees, no node of a tree that was read
    carries a note, and the sequences accepted are the language of the ambiguous grammar. -/
theorem parseTokensWithin_eq_ok_iff_derives {limit : Nat}
    (hlimit : parseTokensWithin limit (.plain tokens) source ≠
      .error (.malformed (tooDeepError source))) :
    (∀ t, parseTokensWithin limit (.plain tokens) source = .ok t ↔
      Derives .expression (tokens.map Token.lexeme) t) ∧
    (∀ (ts : List Lexeme) (t u : Term (Option Note)),
      Derives .expression ts t → Derives .expression ts u → t = u) ∧
    (∀ t, parseTokensWithin limit (.plain tokens) source = .ok t →
      ∀ label ∈ t.labels, label.note = none) ∧
    ((∃ t, parseTokensWithin limit (.plain tokens) source = .ok t) ↔
      Generates .expression (tokens.map Token.lexeme)) := by
  have houtcome := outcome_of_ne_tooDeep hlimit
  -- Reading all tokens as a tree, by the run, by the descent and by the grammar.
  have haccepts (t : Term (Option Note)) : parseTokensWithin limit (.plain tokens) source = .ok t ↔
      Derives .expression (tokens.map Token.lexeme) t :=
    houtcome.eq_ok_iff.trans derives_iff_read.symm
  refine ⟨haccepts, fun ts t u => Derives.unique, fun t ht => ?_, ?_⟩
  · exact ((haccepts t).mp ht).note_of_mem_labels
  · rw [generates_iff_wellFormed, WellFormed]
    exact exists_congr haccepts

/-- An abstraction whose body is an application, within two levels. -/
theorem parseTokensWithin_binder_application :
    let tokens : List Token := [⟨.lambda, ⟨0, 1⟩⟩, ⟨.word "x", ⟨1, 2⟩⟩, ⟨.dot, ⟨2, 3⟩⟩,
      ⟨.word "x", ⟨3, 4⟩⟩, ⟨.openParen, ⟨5, 6⟩⟩, ⟨.word "y", ⟨6, 7⟩⟩, ⟨.closeParen, ⟨7, 8⟩⟩]
    let t : Term (Option Note) := .abs none "x" (.app none (.var none "x") (.var none "y"))
    parseTokensWithin 2 (.plain tokens) "λx.x (y)" = .ok t ∧
      Derives .expression (tokens.map Token.lexeme) t ∧
      (∀ label ∈ t.labels, label.note = none) ∧
      Generates .expression (tokens.map Token.lexeme) := by
  intro tokens t
  have hderives : Derives .expression (tokens.map Token.lexeme) t :=
    .single (.abstraction "x" (.chain (.head (.word "x"))
      (.atom (.parens (.single (.atom (.word "y")))))))
  have hlimit : parseTokensWithin 2 (.plain tokens) "λx.x (y)" ≠
      .error (.malformed (tooDeepError "λx.x (y)")) := by
    have hread : readExpression 3 (tokens.map Token.lexeme) = .success t [] := by
      with_unfolding_all rfl
    exact parseTokensWithin_ne_tooDeep (by simp [hread])
  obtain ⟨hiff, -, hnotes, hlanguage⟩ := parseTokensWithin_eq_ok_iff_derives hlimit
  have hparse := (hiff t).mpr hderives
  exact ⟨hparse, hderives, hnotes t hparse, hlanguage.mp ⟨t, hparse⟩⟩

end Grammar

end LambdaTree
