/-
  LambdaTree.Proofs.Lexer.MaximalMunch

  The tokens of a text, told without running through it.  A list of tokens is a
  tiling of a text when their spans lie side by side from its first character to
  its last (`Abut`), the text under each span spells the token, and no two words
  and no two blanks are neighbours.  A text that falls into tokens has one
  tiling, which is what the lexer finds.

  The last condition is that of the longest piece: a word goes on with the next
  character exactly when the piece behind it is spelled as a word too
  (`continues_append_iff`).
-/

import LambdaTree.Proofs.Lexer.Tiling
import Mathlib.Data.List.Chain

namespace LambdaTree

namespace Lexer

/-! ## Neighbours that would be one lexeme -/

theorem not_isWordPart_of_isBlank {c : Char} (h : isBlank c = true) : isWordPart c = false := by
  rcases eq_of_isBlank h with rfl | rfl | rfl | rfl | rfl | rfl <;> decide

theorem isWordPart_of_isWordStart {c : Char} (h : isWordStart c = true) : isWordPart c = true := by
  simp [isWordPart, h]

/-- Every character of a piece tells words and blanks from all other lexemes. -/
theorem Spells.class_of_mem {lexeme : Lexeme} {piece : List Char} (h : Spells lexeme piece) :
    ∀ c ∈ piece, isWordPart c = lexeme.isWord ∧ isBlank c = lexeme.isBlank := by
  cases h with
  | @word first cs hfirst hcs =>
      intro c hc
      have hpart : isWordPart c = true := by
        rcases List.mem_cons.mp hc with rfl | hc
        · exact isWordPart_of_isWordStart hfirst
        · exact hcs c hc
      refine ⟨hpart, ?_⟩
      show isBlank c = false
      by_contra hblank
      have hnot := not_isWordPart_of_isBlank (Bool.eq_true_of_not_eq_false hblank)
      simp [hpart] at hnot
  | @blank first cs hfirst hcs =>
      intro c hc
      have hblank : isBlank c = true := by
        rcases List.mem_cons.mp hc with rfl | hc
        · exact hfirst
        · exact hcs c hc
      exact ⟨not_isWordPart_of_isBlank hblank, hblank⟩
  | lambda | backslash | dot | openParen | closeParen =>
      exact List.forall_mem_singleton.mpr (by decide)

/-- A lexeme goes on with the piece behind it when both are words or both are blanks. -/
theorem continues_append_iff {lexeme next : Lexeme} {piece : List Char} (h : Spells next piece)
    (rest : List Char) :
    Continues lexeme (piece ++ rest) ↔
      (lexeme.isWord = true ∧ next.isWord = true) ∨
        (lexeme.isBlank = true ∧ next.isBlank = true) := by
  cases piece with
  | nil => exact absurd rfl h.ne_nil
  | cons c cs =>
      obtain ⟨hword, hblank⟩ := h.class_of_mem c (List.mem_cons_self ..)
      cases lexeme <;> simp [Continues, Lexeme.isWord, Lexeme.isBlank, hword, hblank]

/-- The last character of one text and the first of the next are parts of words. -/
def MidWord (front rest : List Char) : Prop :=
  (∃ b ∈ front.getLast?, isWordPart b = true) ∧ ∃ c ∈ rest.head?, isWordPart c = true

/-- Where a piece ends, no word is cut in two. -/
theorem Spells.not_midWord {lexeme : Lexeme} {piece rest : List Char} (h : Spells lexeme piece)
    (hends : ¬Continues lexeme rest) (front : List Char) : ¬MidWord (front ++ piece) rest := by
  rintro ⟨⟨b, hb, hpart⟩, hrest⟩
  rw [List.getLast?_append_of_ne_nil _ h.ne_nil] at hb
  have hword := (h.class_of_mem b (List.mem_of_getLast? hb)).1.symm.trans hpart
  cases lexeme with
  | word name => exact hends hrest
  | blank | lambda | dot | openParen | closeParen | plain => cases hword

/-! ## Spans side by side -/

/-- Spans that are not empty and lie one behind the other, from one place to another.
    There are none only when the two places are one. -/
structure Abut (start stop : Int) (spans : List Span) : Prop where
  nonempty : ∀ span ∈ spans, span.start < span.stop
  starts : ∀ span ∈ spans.head?, span.start = start
  follows : spans.IsChain fun before after => after.start = before.stop
  ends : ∀ span ∈ spans.getLast?, span.stop = stop
  nil_iff : spans = [] ↔ start = stop

namespace Abut

variable {start stop : Int} {span : Span} {spans : List Span}

/-- Spans that lead somewhere lead forward. -/
theorem start_lt (hnonempty : ∀ s ∈ span :: spans, s.start < s.stop)
    (hfollows : (span :: spans).IsChain fun before after => after.start = before.stop)
    (hends : ∀ s ∈ (span :: spans).getLast?, s.stop = stop) : span.start < stop := by
  induction spans generalizing span with
  | nil =>
      have hspan := hnonempty span (List.mem_cons_self ..)
      have hstop : span.stop = stop := hends span rfl
      omega
  | cons next spans ih =>
      rw [List.isChain_cons_cons] at hfollows
      have hnext := ih (fun s hs => hnonempty s (List.mem_cons_of_mem _ hs)) hfollows.2
        (by simpa [List.getLast?_cons_cons] using hends)
      have hspan := hnonempty span (List.mem_cons_self ..)
      have hadjacent := hfollows.1
      omega

theorem nil_self (place : Int) : Abut place place [] :=
  ⟨by simp, by simp, .nil, by simp, by simp⟩

theorem le (h : Abut start stop spans) : start ≤ stop := by
  cases spans with
  | nil => exact le_of_eq (h.nil_iff.mp rfl)
  | cons span spans =>
      have hlt := start_lt h.nonempty h.follows h.ends
      have hstart : span.start = start := h.starts span rfl
      omega

theorem cons_iff :
    Abut start stop (span :: spans) ↔
      span.start = start ∧ span.start < span.stop ∧ Abut span.stop stop spans := by
  constructor
  · rintro ⟨hnonempty, hstarts, hfollows, hends, -⟩
    refine ⟨hstarts span rfl, hnonempty span (List.mem_cons_self ..), ?_⟩
    have hchain := List.isChain_cons.mp hfollows
    refine ⟨fun s hs => hnonempty s (List.mem_cons_of_mem _ hs), hchain.1, hchain.2, ?_, ?_⟩
    · intro s hs
      cases spans with
      | nil => cases hs
      | cons next spans => exact hends s (by rwa [List.getLast?_cons_cons])
    · -- Behind the last span there is nothing left; before another one there is.
      cases spans with
      | nil => exact ⟨fun _ => hends span rfl, fun _ => rfl⟩
      | cons next spans =>
          have hlt : next.start < stop := start_lt
            (fun s hs => hnonempty s (List.mem_cons_of_mem _ hs)) hchain.2
            (fun s hs => hends s (by rwa [List.getLast?_cons_cons]))
          have hadjacent : next.start = span.stop := hchain.1 next rfl
          refine ⟨nofun, fun hstop => ?_⟩
          omega
  · rintro ⟨hstart, hlt, htail⟩
    refine ⟨?_, ?_, List.isChain_cons.mpr ⟨htail.starts, htail.follows⟩, ?_, ?_⟩
    · intro s hs
      rcases List.mem_cons.mp hs with rfl | hs
      · exact hlt
      · exact htail.nonempty s hs
    · intro s hs
      cases hs
      exact hstart
    · intro s hs
      cases spans with
      | nil =>
          cases hs
          exact htail.nil_iff.mp rfl
      | cons next spans => exact htail.ends s (by rwa [List.getLast?_cons_cons] at hs)
    · have hle := htail.le
      refine ⟨nofun, fun hstop => ?_⟩
      omega

end Abut

/-! ## Tilings -/

/-- Neither two words nor two blanks. -/
def Apart (before after : Token) : Prop :=
  ¬(before.lexeme.isWord = true ∧ after.lexeme.isWord = true) ∧
    ¬(before.lexeme.isBlank = true ∧ after.lexeme.isBlank = true)

/-- Tokens that tile a text into pieces that could not be longer. -/
structure Tiling (source : String) (tokens : List Token) : Prop where
  abut : Abut 0 source.length (tokens.map Token.span)
  spells : ∀ token ∈ tokens, Spells token.lexeme (token.span.extract source).toList
  apart : tokens.IsChain Apart

theorem Tiles.abut {start : Int} {cs : List Char} {tokens : List Token}
    (h : Tiles start cs tokens) : Abut start (start + cs.length) (tokens.map Token.span) := by
  induction h with
  | nil start => simpa using Abut.nil_self start
  | @cons start piece rest lexeme tokens hspells _ _ ih =>
      have hpos := List.length_pos_iff.mpr hspells.ne_nil
      have hstop : start + (piece ++ rest).length = start + piece.length + rest.length := by
        rw [List.length_append]
        omega
      rw [List.map_cons, Abut.cons_iff, hstop]
      refine ⟨rfl, ?_, ih⟩
      show start < start + piece.length
      omega

theorem Tiles.apart {start : Int} {cs : List Char} {tokens : List Token}
    (h : Tiles start cs tokens) : tokens.IsChain Apart := by
  induction h with
  | nil start => exact .nil
  | cons hspells hends htail ih =>
      refine List.isChain_cons.mpr ⟨fun next hnext => ?_, ih⟩
      -- The next token is spelled by what the text goes on with.
      cases htail with
      | nil => cases hnext
      | cons hspells' _ _ =>
          cases hnext
          rw [continues_append_iff hspells', not_or] at hends
          exact hends

/-- The text that the first of some spans covers, and the text behind it. -/
theorem extract_append {front cs : List Char} {stop : Int} (hstart : front.length < stop)
    (hstop : stop ≤ (front ++ cs).length) :
    ∃ piece rest, cs = piece ++ rest ∧ stop = front.length + piece.length ∧
      ((⟨front.length, stop⟩ : Span).extract (String.ofList (front ++ cs))).toList = piece := by
  rw [List.length_append] at hstop
  have hlength : (cs.take (stop - front.length).toNat).length = (stop - front.length).toNat := by
    rw [List.length_take]
    omega
  refine ⟨cs.take (stop - front.length).toNat, cs.drop (stop - front.length).toNat,
    (List.take_append_drop _ cs).symm, by omega, ?_⟩
  have hpiece := extract_piece front (cs.take (stop - front.length).toNat)
    (cs.drop (stop - front.length).toNat)
  rw [List.take_append_drop, hlength] at hpiece
  have hend : (front.length : Int) + (stop - front.length).toNat = stop := by omega
  rwa [hend] at hpiece

theorem tiles_of_tiling (front : List Char) {cs : List Char} {tokens : List Token}
    (habut : Abut front.length (front ++ cs).length (tokens.map Token.span))
    (hspells : ∀ token ∈ tokens,
      Spells token.lexeme (token.span.extract (String.ofList (front ++ cs))).toList)
    (hapart : tokens.IsChain Apart) :
    Tiles front.length cs tokens := by
  -- By induction on the tokens; what lies in front grows by a piece with each of them.
  induction tokens generalizing front cs with
  | nil =>
      have hend := habut.nil_iff.mp rfl
      obtain rfl : cs = [] := by
        rw [List.length_append] at hend
        exact List.length_eq_zero_iff.mp (by omega)
      exact .nil _
  | cons token tokens ih =>
      obtain ⟨lexeme, start, stop⟩ := token
      rw [List.map_cons, Abut.cons_iff] at habut
      obtain ⟨hstart, hlt, htail⟩ := habut
      obtain rfl : start = front.length := hstart
      obtain ⟨piece, rest, rfl, rfl, hextract⟩ := extract_append hlt htail.le
      have hpiece : Spells lexeme piece := by
        have hfirst := hspells _ (List.mem_cons_self ..)
        rwa [hextract] at hfirst
      obtain ⟨hnext, hchain⟩ := List.isChain_cons.mp hapart
      have hplace : (front.length : Int) + piece.length = (front ++ piece).length := by simp
      rw [← List.append_assoc] at htail hspells
      have htiles : Tiles (front ++ piece).length rest tokens := by
        refine ih _ ?_ (fun token htoken => hspells token (List.mem_cons_of_mem _ htoken)) hchain
        rw [← hplace]
        exact htail
      rw [← hplace] at htiles
      refine .cons hpiece ?_ htiles
      cases htiles with
      | nil =>
          -- Nothing follows, so there is nothing to go on with.
          cases lexeme <;> simp [Continues]
      | cons hspells' _ _ =>
          rw [continues_append_iff hspells', not_or]
          exact hnext _ rfl

/-- The lexer computes the tiling.  A text falls into given tokens if and only if their
    spans lie side by side over the whole text, each token is spelled by the text under
    its span, and neither two words nor two blanks stand next to each other. -/
theorem tokenize_eq_ok_iff_tiling (source : String) (tokens : List Token) :
    tokenize source = .ok tokens ↔ Tiling source tokens := by
  rw [tokenize_eq_ok_iff]
  constructor
  · intro h
    have habut := h.abut
    have hspells := h.spells_extract [] rfl
    rw [Int.zero_add, String.length_toList] at habut
    rw [List.nil_append, String.ofList_toList] at hspells
    exact ⟨habut, hspells, h.apart⟩
  · rintro ⟨habut, hspells, hapart⟩
    refine tiles_of_tiling [] ?_ ?_ hapart
    · rw [List.nil_append, String.length_toList]
      exact habut
    · rw [List.nil_append, String.ofList_toList]
      exact hspells

/-- A digit goes on with the word before it, a blank with the blank before it. -/
example : tokenize "x1 \t\\(" = .ok [⟨.word "x1", ⟨0, 2⟩⟩, ⟨.blank " \t", ⟨2, 4⟩⟩,
    ⟨.lambda, ⟨4, 5⟩⟩, ⟨.openParen, ⟨5, 6⟩⟩] := by
  with_unfolding_all rfl

end Lexer

end LambdaTree
