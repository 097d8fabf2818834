/-
  LambdaTree.Proofs.Rejection

  Which texts fall into no tokens, and where they are refused.  A character is
  acceptable by itself or by what stands before it: capital letters and digits
  go on with a word but start none.  The first character that is acceptable in
  neither way (`Offending`) is where the lexer stops, and what the error of a
  text that is no term points at.
-/

import LambdaTree.Proofs.Grammar.Language
import LambdaTree.Proofs.Lexer.MaximalMunch
import Mathlib.Order.Bounds.Basic

namespace LambdaTree

namespace Lexer

open LambdaTree.Parser

/-! ## Offending characters -/

/-- Whether a character belongs to some lexeme. -/
def inAlphabet (c : Char) : Bool :=
  isWordPart c || c == 'λ' || c == '\\' || c == '.' || c == '(' || c == ')' || isBlank c

/-- A capital letter or a digit. -/
def isInnerPart (c : Char) : Bool :=
  ('A' ≤ c && c ≤ 'Z') || ('0' ≤ c && c ≤ '9')

/-- Whether a character is in no lexeme, or could only go on with a word while the one
    before it is no part of a word. -/
def offends (before : Option Char) (c : Char) : Bool :=
  !inAlphabet c || (isInnerPart c && !before.any isWordPart)

/-- The character at a place offends, behind the one before it if there is one. -/
def Offending (cs : List Char) (i : Nat) : Prop :=
  (cs[i]?).any (offends (if i = 0 then none else cs[i - 1]?)) = true

instance (cs : List Char) (i : Nat) : Decidable (Offending cs i) :=
  inferInstanceAs (Decidable (_ = true))

/-- Only a character that is there offends. -/
theorem Offending.exists_character {cs : List Char} {i : Nat} (h : Offending cs i) :
    ∃ c, cs[i]? = some c := by
  cases hget : cs[i]? with
  | none => simp [Offending, hget] at h
  | some c => exact ⟨c, rfl⟩

theorem isWordPart_of_isInnerPart {c : Char} (h : isInnerPart c = true) : isWordPart c = true := by
  rw [isWordPart, Bool.or_assoc]
  exact Bool.or_eq_true_iff.mpr (.inr h)

theorem not_isInnerPart_of_isWordStart {c : Char} (h : isWordStart c = true) :
    isInnerPart c = false := by
  simp only [isWordStart, Bool.or_eq_true, Bool.and_eq_true, decide_eq_true_eq, beq_iff_eq] at h
  rcases h with ⟨ha, -⟩ | rfl
  · -- Small letters come behind the capital letters, which come behind the digits.
    have hZ : ¬c ≤ 'Z' := fun hc => absurd (Char.le_trans ha hc) (by decide)
    have h9 : ¬c ≤ '9' := fun hc => absurd (Char.le_trans ha hc) (by decide)
    simp [isInnerPart, hZ, h9]
  · decide

theorem inAlphabet_of_isWordPart {c : Char} (h : isWordPart c = true) : inAlphabet c = true := by
  simp [inAlphabet, h]

theorem inAlphabet_of_isBlank {c : Char} (h : isBlank c = true) : inAlphabet c = true := by
  simp [inAlphabet, h]

theorem Spells.inAlphabet {lexeme : Lexeme} {piece : List Char} (h : Spells lexeme piece) :
    ∀ c ∈ piece, inAlphabet c = true := by
  have hclass := h.class_of_mem
  cases h with
  | word hc hcs => exact fun c hc => inAlphabet_of_isWordPart (hclass c hc).1
  | blank hc hcs => exact fun c hc => inAlphabet_of_isBlank (hclass c hc).2
  | lambda | backslash | dot | openParen | closeParen =>
      exact List.forall_mem_singleton.mpr (by decide)

/-- Behind some characters, the one before the first is the last of them. -/
theorem offending_append {front cs : List Char} {j : Nat} {c : Char} (hc : cs[j]? = some c) :
    Offending (front ++ cs) (front.length + j) ↔
      offends (if j = 0 then front.getLast? else cs[j - 1]?) c = true := by
  have hplace : (front ++ cs)[front.length + j]? = some c := by
    rw [List.getElem?_append_right (Nat.le_add_right _ _), Nat.add_sub_cancel_left, hc]
  have hbefore : (if front.length + j = 0 then none else (front ++ cs)[front.length + j - 1]?) =
      if j = 0 then front.getLast? else cs[j - 1]? := by
    cases j with
    | zero =>
        cases front with
        | nil => rfl
        | cons b front =>
            rw [List.getLast?_eq_getElem?, if_pos rfl, if_neg (by simp)]
            exact List.getElem?_append_left (by simp)
    | succ j =>
        rw [if_neg (by omega), if_neg (by omega), List.getElem?_append_right (by omega)]
        congr 1
        omega
  rw [Offending, hplace, hbefore]
  rfl

/-- No character of a piece offends. -/
theorem Spells.not_offending {lexeme : Lexeme} {piece : List Char} (h : Spells lexeme piece)
    (front rest : List Char) {j : Nat} (hj : j < piece.length) :
    ¬Offending (front ++ (piece ++ rest)) (front.length + j) := by
  have hget : (piece ++ rest)[j]? = some piece[j] := by
    rw [List.getElem?_append_left hj, List.getElem?_eq_getElem hj]
  have hmem : piece[j] ∈ piece := List.getElem_mem hj
  rw [offending_append hget, offends, h.inAlphabet _ hmem]
  intro hoffends
  obtain ⟨hinner, hbefore⟩ : isInnerPart piece[j] = true ∧ _ := by
    simpa only [Bool.not_true, Bool.false_or, Bool.and_eq_true] using hoffends
  -- A capital letter or a digit is inside a word, behind another of its characters.
  have hword := (h.class_of_mem _ hmem).1.symm.trans (isWordPart_of_isInnerPart hinner)
  cases j with
  | zero =>
      cases h with
      | word hc hcs => simp [not_isInnerPart_of_isWordStart hc] at hinner
      | blank | lambda | backslash | dot | openParen | closeParen => cases hword
  | succ j =>
      have hj' : j < piece.length := by omega
      have hpart := (h.class_of_mem piece[j] (List.getElem_mem hj')).1.trans hword
      rw [if_neg (by omega), Nat.add_sub_cancel, List.getElem?_append_left hj',
        List.getElem?_eq_getElem hj'] at hbefore
      simp [hpart] at hbefore

/-- Where no lexeme can be read, and no word is cut in two, is an offending character. -/
theorem offending_of_next_eq_none {front cs : List Char} (hnext : next cs = none) (hcs : cs ≠ [])
    (hends : ¬MidWord front cs) : Offending (front ++ cs) front.length := by
  cases cs with
  | nil => exact absurd rfl hcs
  | cons c cs =>
      have hoffends : Offending (front ++ c :: cs) (front.length + 0) ↔ _ := offending_append rfl
      rw [Nat.add_zero] at hoffends
      rw [hoffends, if_pos rfl, offends]
      cases hknown : inAlphabet c with
      | false => rfl
      | true =>
          -- Of the characters that belong to a lexeme, only these start none.
          rw [next] at hnext
          split_ifs at hnext with hstart hlambda hdot hopen hclose hblank
          have hpart : isWordPart c = true := by
            simp only [Bool.or_eq_true, not_or] at hlambda
            simpa [inAlphabet, hlambda, hdot, hopen, hclose, hblank] using hknown
          have hinner : isInnerPart c = true := by
            simpa [isWordPart, isInnerPart, hstart, Bool.or_assoc] using hpart
          have hbefore : front.getLast?.any isWordPart = false := by
            cases hlast : front.getLast? with
            | none => rfl
            | some b =>
                rw [Option.any_some, ← Bool.not_eq_true]
                exact fun hb => hends ⟨⟨b, hlast, hb⟩, c, rfl, hpart⟩
          simp [hinner, hbefore]

/-- The lexer reads up to the first offending character. -/
theorem many_readMeasured_offending {cs rest : List Char} {pieces : List (Lexeme × Int)}
    (h : Reads.many readMeasured cs = .success pieces rest) (front : List Char)
    (hends : ¬MidWord front cs) :
    ∃ passed, cs = passed ++ rest ∧
      (∀ j < passed.length, ¬Offending (front ++ cs) (front.length + j)) ∧
      (rest ≠ [] → Offending (front ++ cs) (front.length + passed.length)) := by
  -- Each piece that was read moves to the front, where it does not offend.
  fun_induction Reads.many readMeasured cs generalizing front pieces with
  | case1 cs place hs =>
      cases h
      exact ⟨[], rfl, by simp, fun hcs =>
        offending_of_next_eq_none (readMeasured_eq_failure hs) hcs hends⟩
  | case2 cs halt hs => cases h
  | case3 cs value rest' hs hlt ih =>
      obtain ⟨lexeme, length⟩ := value
      obtain ⟨values, last, hmany, hlast⟩ := Reads.andThen_eq_success h
      cases hlast
      obtain ⟨piece, rfl, rfl, hspells, hends'⟩ := readMeasured_eq_success hs
      obtain ⟨passed, rfl, hpassed, hrest⟩ := ih hmany (front ++ piece)
        (hspells.not_midWord hends' front)
      refine ⟨piece ++ passed, by simp, fun j hj => ?_, fun hne => ?_⟩
      · rcases Nat.lt_or_ge j piece.length with hlt' | hge
        · exact hspells.not_offending front _ hlt'
        · have hlater := hpassed (j - piece.length) (by rw [List.length_append] at hj; omega)
          rw [List.append_assoc, List.length_append] at hlater
          have hplace : front.length + piece.length + (j - piece.length) = front.length + j := by
            omega
          rwa [hplace] at hlater
      · have hlater := hrest hne
        rwa [List.append_assoc, List.length_append, Nat.add_assoc, ← List.length_append] at hlater
  | case4 cs value rest' hs hlt =>
      obtain ⟨lexeme, length⟩ := value
      obtain ⟨piece, rfl, rfl, hspells, -⟩ := readMeasured_eq_success hs
      have hpos := List.length_pos_iff.mpr hspells.ne_nil
      rw [List.length_append] at hlt
      omega

/-- A text falls into tokens and no character offends, or it is refused at the first that
    does. -/
theorem tokenize_offending_cases (source : String) :
    ((∃ tokens, tokenize source = .ok tokens) ∧ ∀ i, ¬Offending source.toList i) ∨
    ∃ diagnostic i, IsLeast {i | Offending source.toList i} i ∧
      tokenize source =
        .error (.refused diagnostic (.view ⟨.symbols source.toList.toArray, (i : Nat)⟩)) := by
  have hstart : ¬MidWord [] source.toList := by simp [MidWord]
  rcases tokenize_cases source with ⟨pieces, hmany, hok⟩ | ⟨pieces, diagnostic, k, hk, hmany, herror⟩
  · obtain ⟨passed, hpassed, hclean, -⟩ := many_readMeasured_offending hmany [] hstart
    rw [List.append_nil] at hpassed
    refine .inl ⟨⟨_, hok⟩, fun i => ?_⟩
    rcases Nat.lt_or_ge i source.toList.length with hlt | hge
    · have hi := hclean i (hpassed ▸ hlt)
      rwa [List.nil_append, List.length_nil, Nat.zero_add] at hi
    · rw [Offending, List.getElem?_eq_none hge]
      simp
  · obtain ⟨passed, hpassed, hclean, hrest⟩ := many_readMeasured_offending hmany [] hstart
    have hlength : passed.length = k := by
      have hsum := congrArg List.length hpassed
      rw [List.length_append, List.length_drop] at hsum
      omega
    subst hlength
    rw [List.nil_append, List.length_nil] at hclean hrest
    refine .inr ⟨diagnostic, passed.length, ⟨?_, fun j hj => ?_⟩, herror⟩
    · have hlast := hrest (by simpa using hk)
      rwa [Nat.zero_add] at hlast
    · by_contra hlt
      have hbefore := hclean j (Nat.lt_of_not_le hlt)
      rw [Nat.zero_add] at hbefore
      exact hbefore hj

end Lexer

/-! ## The error about a character -/

namespace Grammar

open Lexer

/-- The error for a text that is refused at a cursor is about the character there. -/
theorem characterErrorAt_symbols {source : String} {i : Nat} {c : Char}
    (hc : source.toList[i]? = some c) (diagnostic : Diagnostic) :
    characterErrorAt source diagnostic (.view ⟨.symbols source.toList.toArray, (i : Nat)⟩) =
      .ok ⟨.unexpectedCharacter c, ⟨i, i + 1⟩, some source, .tokenize, diagnostic.message⟩ := by
  obtain ⟨hi, hget⟩ := List.getElem?_eq_some_iff.mp hc
  have hsize : i < source.toList.toArray.size := by simpa using hi
  have hfirst : source.toList.toArray[i] = c := by simpa using hget
  have hstart : (source.length : Int) - (source.toList.toArray.size - i : Nat) = i := by
    rw [List.size_toArray, String.length_toList] at hsize ⊢
    omega
  simp only [characterErrorAt, Input.length, Input.first, Cursor.length_symbols hsize.le,
    Cursor.get_symbols hsize, hfirst, hstart, bind, Except.bind]
  rfl

section

variable {limit : Nat} {source : String}

/-- Once a text falls into tokens, whatever is wrong is for the grammar to say. -/
theorem parseWithin_refusal_of_tokenize {tokens : List Token} {refusal : Refusal}
    (hok : tokenize source = .ok tokens) (h : parseWithin limit source = .error refusal) :
    ∃ error, refusal = .malformed error ∧ error.stage ≠ .tokenize := by
  rw [parseWithin_of_tokenize hok] at h
  exact parseTokensWithin_refusal h

theorem parseWithin_of_refused {diagnostic : Diagnostic} {i : Nat} {c : Char}
    (herror : tokenize source =
      .error (.refused diagnostic (.view ⟨.symbols source.toList.toArray, (i : Nat)⟩)))
    (hc : source.toList[i]? = some c) :
    parseWithin limit source = .error (.malformed
      ⟨.unexpectedCharacter c, ⟨i, i + 1⟩, some source, .tokenize, diagnostic.message⟩) := by
  simp only [parseWithin, tokensOf, herror, characterErrorAt_symbols hc]
  rfl

end

/-- Exact rejection.  The lexer refuses a text if and only if some character offends, and
    then at the first that does; reading the text as a term fails at the stage of the
    lexer in these cases and no others, with the span of this character and a reason that
    quotes it.  No reading asks for a character that is not there. -/
theorem refused_iff_offending (limit : Nat) (source : String) :
    ((∃ stop, tokenize source = .error stop) ↔ ∃ i, Offending source.toList i) ∧
    ((∃ error, parseWithin limit source = .error (.malformed error) ∧ error.stage = .tokenize) ↔
      ∃ i, Offending source.toList i) ∧
    (∀ stop, tokenize source = .error stop →
      ∃ diagnostic i, IsLeast {i | Offending source.toList i} i ∧
        stop = .refused diagnostic (.view ⟨.symbols source.toList.toArray, (i : Nat)⟩)) ∧
    (∀ error, parseWithin limit source = .error (.malformed error) → error.stage = .tokenize →
      ∃ i c, IsLeast {i | Offending source.toList i} i ∧ source.toList[i]? = some c ∧
        error.span = ⟨i, i + 1⟩ ∧
        error.reason.text = "Unexpected character " ++ Text.quote (String.singleton c)) ∧
    ∀ fault, parseWithin limit source ≠ .error (.unreadable fault) := by
  rcases tokenize_offending_cases source with
    ⟨⟨tokens, hok⟩, hclean⟩ | ⟨diagnostic, i, hleast, herror⟩
  · have hnone : ¬∃ i, Offending source.toList i := fun ⟨i, hi⟩ => hclean i hi
    have hquiet (error : ParseError) (h : parseWithin limit source = .error (.malformed error)) :
        error.stage ≠ .tokenize := by
      obtain ⟨_, hsame, hstage⟩ := parseWithin_refusal_of_tokenize hok h
      cases hsame
      exact hstage
    refine ⟨⟨?_, fun h => absurd h hnone⟩, ⟨?_, fun h => absurd h hnone⟩, ?_, ?_, ?_⟩
    · rintro ⟨stop, hstop⟩
      cases hok.symm.trans hstop
    · rintro ⟨error, herror, hstage⟩
      exact absurd hstage (hquiet error herror)
    · intro stop hstop
      cases hok.symm.trans hstop
    · exact fun error herror hstage => absurd hstage (hquiet error herror)
    · intro fault hfault
      obtain ⟨_, hsame, -⟩ := parseWithin_refusal_of_tokenize hok hfault
      cases hsame
  · obtain ⟨c, hc⟩ := hleast.1.exists_character
    have hparse := @parseWithin_of_refused limit source diagnostic i c herror hc
    refine ⟨⟨fun _ => ⟨i, hleast.1⟩, fun _ => ⟨_, herror⟩⟩,
      ⟨fun _ => ⟨i, hleast.1⟩, fun _ => ⟨_, hparse, rfl⟩⟩, ?_, ?_, ?_⟩
    · intro stop hstop
      cases herror.symm.trans hstop
      exact ⟨diagnostic, i, hleast, rfl⟩
    · intro error hmalformed _
      cases hparse.symm.trans hmalformed
      exact ⟨i, c, hleast, hc, rfl, rfl⟩
    · rw [hparse]
      simp

/-- In `aB.C` the second capital letter is the first character that offends. -/
theorem refused_capital_after_dot :
    IsLeast {i | Offending "aB.C".toList i} 3 ∧
      (∃ diagnostic, tokenize "aB.C" =
        .error (.refused diagnostic (.view ⟨.symbols "aB.C".toList.toArray, (3 : Nat)⟩))) ∧
      ∃ error, parseWithin 2 "aB.C" = .error (.malformed error) ∧ error.stage = .tokenize ∧
        error.span = ⟨3, 4⟩ ∧ error.reason.text = "Unexpected character 'C'" := by
  have hleast : IsLeast {i | Offending "aB.C".toList i} 3 := by
    refine ⟨by decide, fun i hi => ?_⟩
    by_contra hlt
    have hclean : ∀ j < 3, ¬Offending "aB.C".toList j := by decide
    exact hclean i (Nat.lt_of_not_le hlt) hi
  obtain ⟨hlexer, hreader, hstop, herror, -⟩ := refused_iff_offending 2 "aB.C"
  obtain ⟨stop, htokenize⟩ := hlexer.mpr ⟨3, hleast.1⟩
  obtain ⟨error, hparse, hstage⟩ := hreader.mpr ⟨3, hleast.1⟩
  obtain ⟨diagnostic, i, hi, rfl⟩ := hstop stop htokenize
  obtain ⟨j, c, hj, hc, hspan, hreason⟩ := herror error hparse hstage
  obtain rfl := hi.unique hleast
  obtain rfl := hj.unique hleast
  obtain rfl : 'C' = c := by simpa using hc
  exact ⟨hleast, ⟨diagnostic, htokenize⟩, error, hparse, hstage, hspan, hreason⟩

end Grammar

end LambdaTree
