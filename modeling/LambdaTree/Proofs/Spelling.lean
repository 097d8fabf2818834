/-
  LambdaTree.Proofs.Spelling

  How a source is spelled does not matter to its tree.  Blanks may stand
  anywhere but inside a word, and a lambda may be written with either of its
  signs; the tokens that matter stay the same.  Sources with the same such
  tokens are read alike, and errors point to the same token in both.
-/

import LambdaTree.Proofs.Grammar.Language
import LambdaTree.Proofs.Grammar.Spans
import LambdaTree.Proofs.Lexer.Covering

namespace LambdaTree

open Lexer

theorem Lexer.tokenize_insert {front blanks rest : String} {tokens : List Token}
    (h : tokenize (front ++ rest) = .ok tokens) (hblanks : ∀ c ∈ blanks.toList, isBlank c = true)
    (hmid : ¬MidWord front.toList rest.toList) :
    ∃ tokens', tokenize (front ++ blanks ++ rest) = .ok tokens' ∧
      (Token.significant tokens').map Token.lexeme =
        (Token.significant tokens).map Token.lexeme := by
  have htiles := tokenize_eq_ok_iff.mp h
  rw [String.toList_append] at htiles
  refine Covers.tokenize ?_
  rw [String.toList_append, String.toList_append, List.append_assoc]
  exact htiles.covers_insert hblanks hmid

namespace Grammar

/-- The layout of a source does not matter.  Blanks put anywhere but into a word keep the
    lexemes of the tokens that matter, and other signs for lambdas keep all tokens.
    Sources whose tokens that matter have the same lexemes are read as the same tree, or
    refused with errors that are the same but for their spans, and these lie at the ends
    of the two sources, at tokens of the same index or around the whole sources. -/
theorem layout_irrelevant (limit : Nat) :
    (∀ front blanks rest tokens, tokenize (front ++ rest) = .ok tokens →
      (∀ c ∈ blanks.toList, isBlank c = true) → ¬MidWord front.toList rest.toList →
        ∃ tokens', tokenize (front ++ blanks ++ rest) = .ok tokens' ∧
          (Token.significant tokens').map Token.lexeme =
            (Token.significant tokens).map Token.lexeme) ∧
    (∀ source source' tokens, tokenize source = .ok tokens →
      source'.toList.map lambdaSign = source.toList.map lambdaSign →
        tokenize source' = .ok tokens) ∧
    ∀ source source' tokens tokens', tokenize source = .ok tokens →
      tokenize source' = .ok tokens' →
      (Token.significant tokens).map Token.lexeme =
        (Token.significant tokens').map Token.lexeme →
        SameReading source source' (Token.significant tokens) (Token.significant tokens')
          (parseWithin limit source) (parseWithin limit source') := by
  refine ⟨?_, ?_, ?_⟩
  · intro front blanks rest tokens h hblanks hmid
    exact tokenize_insert h hblanks hmid
  · intro source source' tokens h hsigns
    rw [tokenize_eq_ok_iff] at h ⊢
    exact h.of_lambdas hsigns
  · intro source source' tokens tokens' h h' hlexemes
    rw [parseWithin_of_tokenize h, parseWithin_of_tokenize h']
    exact parseTokensWithin_sameLexemes hlexemes limit source source'

/-- A parenthesis where a body should be, with blanks that merge with others before it and
    with the other sign. -/
theorem layout_irrelevant_missing_body :
    let tokens : List Token := [⟨.lambda, ⟨0, 1⟩⟩, ⟨.word "x", ⟨1, 2⟩⟩, ⟨.dot, ⟨2, 3⟩⟩,
      ⟨.blank " ", ⟨3, 4⟩⟩, ⟨.closeParen, ⟨4, 5⟩⟩]
    let spread : List Token := [⟨.lambda, ⟨0, 1⟩⟩, ⟨.word "x", ⟨1, 2⟩⟩, ⟨.dot, ⟨2, 3⟩⟩,
      ⟨.blank " \n\t", ⟨3, 6⟩⟩, ⟨.closeParen, ⟨6, 7⟩⟩]
    tokenize ("λx. " ++ ")") = .ok tokens ∧ (∀ c ∈ "\n\t".toList, isBlank c = true) ∧
      ¬MidWord "λx. ".toList ")".toList ∧
      (∃ tokens', tokenize ("λx. " ++ "\n\t" ++ ")") = .ok tokens' ∧
        (Token.significant tokens').map Token.lexeme =
          (Token.significant tokens).map Token.lexeme) ∧
      tokenize "λx. \n\t)" = .ok spread ∧
      "\\x. \n\t)".toList.map lambdaSign = "λx. \n\t)".toList.map lambdaSign ∧
      tokenize "\\x. \n\t)" = .ok spread ∧
      (Token.significant tokens).map Token.lexeme =
        (Token.significant spread).map Token.lexeme ∧
      SameReading "λx. )" "\\x. \n\t)" (Token.significant tokens) (Token.significant spread)
        (parse "λx. )") (parse "\\x. \n\t)") := by
  intro tokens spread
  obtain ⟨hinsert, hsigns, hsame⟩ := layout_irrelevant nestingLimit
  have htokens : tokenize ("λx. " ++ ")") = .ok tokens := by with_unfolding_all rfl
  have hblanks : ∀ c ∈ "\n\t".toList, isBlank c = true := List.all_eq_true.mp (by decide)
  have hmid : ¬MidWord "λx. ".toList ")".toList := by simp [MidWord]; decide
  have hspread : tokenize "λx. \n\t)" = .ok spread := by with_unfolding_all rfl
  have hsign : "\\x. \n\t)".toList.map lambdaSign = "λx. \n\t)".toList.map lambdaSign := by decide
  have hspread' := hsigns _ _ _ hspread hsign
  have hlexemes : (Token.significant tokens).map Token.lexeme =
      (Token.significant spread).map Token.lexeme := by decide
  exact ⟨htokens, hblanks, hmid, hinsert _ _ _ _ htokens hblanks hmid, hspread, hsign,
    hspread', hlexemes, hsame _ _ _ _ htokens hspread' hlexemes⟩

end Grammar

end LambdaTree
