/-
  LambdaTree.Proofs.Lexer.Tiling

  The tokens of a text tile it.  A lexeme is spelled by a piece of the text
  (`Spells`), and a piece ends only where the lexeme could not go on
  (`Continues`).  `next_eq_some_iff` says that this describes the first lexeme
  of a text, and `tokenize_eq_ok_iff` that the tokens of a text are its pieces
  from the first character to the last, with the spans where they stand.
-/

import LambdaTree.Proofs.Lexer.Scan
import LambdaTree.Proofs.Parser.Memo
import Mathlib.Data.List.TakeWhile

namespace LambdaTree

namespace Lexer

open LambdaTree.Parser

/-! ## Pieces of a text -/

/-- A lexeme and a text that spells it. -/
inductive Spells : Lexeme → List Char → Prop where
  | word {c : Char} {cs : List Char} (hc : isWordStart c = true)
      (hcs : ∀ x ∈ cs, isWordPart x = true) : Spells (.word (String.ofList (c :: cs))) (c :: cs)
  | blank {c : Char} {cs : List Char} (hc : isBlank c = true)
      (hcs : ∀ x ∈ cs, isBlank x = true) : Spells (.blank (String.ofList (c :: cs))) (c :: cs)
  | lambda : Spells .lambda ['λ']
  | backslash : Spells .lambda ['\\']
  | dot : Spells .dot ['.']
  | openParen : Spells .openParen ['(']
  | closeParen : Spells .closeParen [')']

/-- A lexeme would take in the first of the characters that follow it. -/
def Continues : Lexeme → List Char → Prop
  | .word _, cs => ∃ c ∈ cs.head?, isWordPart c = true
  | .blank _, cs => ∃ c ∈ cs.head?, isBlank c = true
  | _, _ => False

theorem Spells.ne_nil {lexeme : Lexeme} {piece : List Char} (h : Spells lexeme piece) :
    piece ≠ [] := by
  cases h <;> simp

/-- Blank characters start no other lexeme. -/
theorem not_start_of_isBlank {c : Char} (h : isBlank c = true) :
    isWordStart c = false ∧ (c == 'λ' || c == '\\') = false ∧ (c == '.') = false ∧
      (c == '(') = false ∧ (c == ')') = false := by
  rcases eq_of_isBlank h with rfl | rfl | rfl | rfl | rfl | rfl <;> decide

section

variable {passes : Char → Bool} {cs rest : List Char}

/-- A stretch of characters that pass a test, before one that does not. -/
theorem span_append (hcs : ∀ x ∈ cs, passes x = true) (hrest : ¬∃ c ∈ rest.head?, passes c = true) :
    (cs ++ rest).takeWhile passes = cs ∧ (cs ++ rest).dropWhile passes = rest := by
  rw [List.takeWhile_append_of_pos hcs, List.dropWhile_append_of_pos hcs]
  cases rest with
  | nil => simp
  | cons c rest =>
      have hc : ¬passes c = true := fun h => hrest ⟨c, rfl, h⟩
      simp [hc]

theorem not_head_dropWhile (passes : Char → Bool) (cs : List Char) :
    ¬∃ c ∈ (cs.dropWhile passes).head?, passes c = true := by
  have hhead := List.head?_dropWhile_not passes cs
  rintro ⟨c, hc, hpasses⟩
  rw [Option.mem_def] at hc
  simp [hc, hpasses] at hhead

end

/-- The first lexeme of a text is spelled by a piece of it that is as long as can be. -/
theorem next_eq_some_iff {cs rest : List Char} {lexeme : Lexeme} :
    next cs = some (lexeme, rest) ↔
      ∃ piece, cs = piece ++ rest ∧ Spells lexeme piece ∧ ¬Continues lexeme rest := by
  constructor
  · -- By the class of the first character; words and blanks go on while their class does.
    fun_cases next cs with
    | case1 => nofun
    | case2 c cs hword =>
        rintro ⟨⟩
        refine ⟨c :: cs.takeWhile isWordPart, by simp, .word hword ?_, not_head_dropWhile _ cs⟩
        exact fun x hx => List.mem_takeWhile_imp hx
    | case3 c cs _ hlambda =>
        rintro ⟨⟩
        have hc : c = 'λ' ∨ c = '\\' := by simpa using hlambda
        rcases hc with rfl | rfl
        · exact ⟨['λ'], rfl, .lambda, id⟩
        · exact ⟨['\\'], rfl, .backslash, id⟩
    | case4 c cs _ _ hdot =>
        rintro ⟨⟩
        obtain rfl : c = '.' := by simpa using hdot
        exact ⟨['.'], rfl, .dot, id⟩
    | case5 c cs _ _ _ hopen =>
        rintro ⟨⟩
        obtain rfl : c = '(' := by simpa using hopen
        exact ⟨['('], rfl, .openParen, id⟩
    | case6 c cs _ _ _ _ hclose =>
        rintro ⟨⟩
        obtain rfl : c = ')' := by simpa using hclose
        exact ⟨[')'], rfl, .closeParen, id⟩
    | case7 c cs _ _ _ _ _ hblank =>
        rintro ⟨⟩
        refine ⟨c :: cs.takeWhile isBlank, by simp, .blank hblank ?_, not_head_dropWhile _ cs⟩
        exact fun x hx => List.mem_takeWhile_imp hx
    | case8 => nofun
  · rintro ⟨piece, rfl, hspells, hends⟩
    cases hspells with
    | word hc hcs =>
        obtain ⟨htake, hdrop⟩ := span_append hcs hends
        rw [List.cons_append, next, if_pos hc, htake, hdrop]
    | blank hc hcs =>
        -- Blanks are tried last, so every test before has to be refuted.
        obtain ⟨htake, hdrop⟩ := span_append hcs hends
        obtain ⟨hword, hlambda, hdot, hopen, hclose⟩ := not_start_of_isBlank hc
        simp [next, hword, hlambda, hdot, hopen, hclose, hc, htake, hdrop]
    | lambda => rfl
    | backslash => rfl
    | dot => rfl
    | openParen => rfl
    | closeParen => rfl

/-! ## Tilings -/

/-- The tokens of a text, from a place on: its pieces, each with its span. -/
inductive Tiles : Int → List Char → List Token → Prop where
  | nil (start : Int) : Tiles start [] []
  | cons {start : Int} {piece rest : List Char} {lexeme : Lexeme} {tokens : List Token}
      (hspells : Spells lexeme piece) (hends : ¬Continues lexeme rest)
      (htail : Tiles (start + piece.length) rest tokens) :
      Tiles start (piece ++ rest) (⟨lexeme, ⟨start, start + piece.length⟩⟩ :: tokens)

/-- Reads a lexeme and its length. -/
def readMeasured (cs : List Char) : Reads Char (Lexeme × Int) :=
  (readNext cs).andThen fun lexeme rest => .success (lexeme, (cs.length : Int) - rest.length) rest

theorem readMeasured_append {lexeme : Lexeme} {piece rest : List Char}
    (hspells : Spells lexeme piece) (hends : ¬Continues lexeme rest) :
    readMeasured (piece ++ rest) = .success (lexeme, (piece.length : Int)) rest := by
  have hnext : next (piece ++ rest) = some (lexeme, rest) :=
    next_eq_some_iff.mpr ⟨piece, rfl, hspells, hends⟩
  rw [readMeasured, readNext, hnext]
  simp

theorem readMeasured_eq_success {cs rest : List Char} {lexeme : Lexeme} {length : Int}
    (h : readMeasured cs = .success (lexeme, length) rest) :
    ∃ piece, cs = piece ++ rest ∧ length = piece.length ∧ Spells lexeme piece ∧
      ¬Continues lexeme rest := by
  obtain ⟨l, middle, hnext, hlast⟩ := Reads.andThen_eq_success h
  cases hlast
  rw [readNext] at hnext
  split at hnext
  · rename_i hsome
    cases hnext
    obtain ⟨piece, rfl, hspells, hends⟩ := next_eq_some_iff.mp hsome
    exact ⟨piece, rfl, by simp, hspells, hends⟩
  · cases hnext

theorem readMeasured_eq_failure {cs place : List Char} (h : readMeasured cs = .failure place) :
    next cs = none := by
  rcases Reads.andThen_eq_failure h with hnext | ⟨lexeme, rest, -, hlast⟩
  · rw [readNext] at hnext
    split at hnext
    · cases hnext
    · assumption
  · cases hlast

/-- The pieces of a text are read one after another. -/
theorem Tiles.many {start : Int} {cs : List Char} {tokens : List Token}
    (h : Tiles start cs tokens) :
    ∃ pieces, Reads.many readMeasured cs = .success pieces [] ∧ place start pieces = tokens := by
  induction h with
  | nil start => exact ⟨[], by rw [Reads.many]; rfl, rfl⟩
  | @cons start piece rest lexeme tokens hspells hends _ ih =>
      obtain ⟨pieces, hmany, hplace⟩ := ih
      -- No piece is empty, so the loop goes on behind it.
      have hpos := List.length_pos_iff.mpr hspells.ne_nil
      have hlt : rest.length < (piece ++ rest).length := by
        rw [List.length_append]
        omega
      refine ⟨(lexeme, piece.length) :: pieces, ?_, by rw [place, hplace]⟩
      rw [Reads.many, readMeasured_append hspells hends]
      simp only [hlt, if_true, hmany, Reads.success_andThen]

theorem tiles_of_many {cs : List Char} {pieces : List (Lexeme × Int)}
    (h : Reads.many readMeasured cs = .success pieces []) (start : Int) :
    Tiles start cs (place start pieces) := by
  fun_induction Reads.many readMeasured cs generalizing pieces start with
  | case1 cs rest hs =>
      cases h
      exact .nil start
  | case2 cs halt hs => cases h
  | case3 cs value rest hs hlt ih =>
      obtain ⟨lexeme, length⟩ := value
      obtain ⟨values, last, hmany, hlast⟩ := Reads.andThen_eq_success h
      cases hlast
      obtain ⟨piece, rfl, rfl, hspells, hends⟩ := readMeasured_eq_success hs
      exact .cons hspells hends (ih hmany (start + piece.length))
  | case4 cs value rest hs hlt =>
      -- A lexeme that leaves no fewer characters would have an empty piece.
      obtain ⟨lexeme, length⟩ := value
      obtain ⟨piece, rfl, rfl, hspells, hends⟩ := readMeasured_eq_success hs
      have hpos := List.length_pos_iff.mpr hspells.ne_nil
      rw [List.length_append] at hlt
      omega

/-! ## The tokens of a text -/

/-- The loop over the lexemes of a text always ends. -/
theorem many_readMeasured (cs : List Char) :
    ∃ pieces rest, Reads.many readMeasured cs = .success pieces rest := by
  fun_induction Reads.many readMeasured cs with
  | case1 cs place hs => exact ⟨[], cs, rfl⟩
  | case2 cs halt hs =>
      rcases Reads.andThen_eq_halted hs with hnext | ⟨lexeme, rest, -, hlast⟩
      · rw [readNext] at hnext
        split at hnext <;> cases hnext
      · cases hlast
  | case3 cs value rest hs hlt ih =>
      obtain ⟨pieces, last, hmany⟩ := ih
      exact ⟨value :: pieces, last, by rw [hmany]; rfl⟩
  | case4 cs value rest hs hlt => exact ⟨[value], rest, rfl⟩

theorem readsAt_lexemes {σ : Signature} (rules : Rules Char σ) (depth : Nat) (cs : List Char) :
    readsAt rules depth lexemes cs = (Reads.many readMeasured cs).andThen fun pieces rest =>
      if rest = [] then .success pieces rest else .failure rest := by
  have hmeasured : readsAt rules depth (.measure lexeme) = readMeasured := by
    funext cs
    rw [readsAt_measure, readsAt_lexeme, readMeasured]
  rw [lexemes, readsAt_complete, readsAt_many, hmeasured]

instance : IsEmpty Signature.none.Cell :=
  ⟨nofun⟩

/-- A run of the lexer gives the lexemes of a text when they take up all of it, and is
    refused otherwise, at the cursor behind the last of them. -/
theorem run_lexemes (rules : Rules Char Signature.none) (depth : Nat) (cs : List Char)
    (tally : Tally) :
    (∃ pieces, Reads.many readMeasured cs = .success pieces [] ∧
      (run rules depth lexemes (.plain cs) tally).1 = .ok pieces) ∨
    ∃ pieces diagnostic k, k < cs.length ∧
      Reads.many readMeasured cs = .success pieces (cs.drop k) ∧
      (run rules depth lexemes (.plain cs) tally).1 =
        .error (.refused diagnostic (.view ⟨.symbols cs.toArray, (k : Nat)⟩)) := by
  obtain ⟨pieces, rest, hmany⟩ := many_readMeasured cs
  have hreads (depth : Nat) := readsAt_lexemes rules depth cs
  simp only [hmany, Reads.success_andThen] at hreads
  have hrules (name : Signature.none.Rule) :
      (rules name).Remembers fun cell => (IsEmpty.false cell).elim :=
    remembers_of_isEmpty (rules name)
  rcases run_plain hrules (remembers_of_isEmpty lexemes) depth cs tally with
    ⟨-, hdeep⟩ | ⟨r, k, hrun, -, halike⟩
  · -- Lexemes call no rules, so no depth is too small for them.
    have hhalted := hreads depth
    rw [readsAt, ← evalAt, hdeep] at hhalted
    split at hhalted <;> cases hhalted
  · have hreads := hreads k
    rw [readsAt, ← evalAt] at hreads
    generalize evalAt rules k lexemes (.plain cs) = answer at hreads halike
    by_cases hrest : rest = []
    · -- Everything was read, so the answer is a success.
      subst hrest
      rw [if_pos rfl] at hreads
      refine .inl ⟨pieces, hmany, ?_⟩
      rw [hrun]
      cases halike with
      | error halt => cases hreads
      | ok hreply =>
          cases hreply with
          | success hvalue _ =>
              injection hreads with hpieces
              rw [← hpieces, ← hvalue]
              rfl
          | failure diagnostic _ => cases hreads
    · -- Something was left, so the answer is a failure.
      rw [if_neg hrest] at hreads
      cases halike with
      | error halt => cases hreads
      | ok hreply =>
          cases hreply with
          | success hvalue _ => cases hreads
          | failure diagnostic hsliced =>
              -- The cursor of the refusal stands where the list of what is left begins.
              obtain ⟨k, -, rfl, rfl⟩ := hsliced
              obtain rfl : cs.drop k = rest := by
                injection hreads with hplace
              refine .inr ⟨pieces, diagnostic, k, ?_, hmany, hrun⟩
              by_contra hge
              exact hrest (List.drop_eq_nil_of_le (Nat.le_of_not_lt hge))

/-- A text falls into tokens when its lexemes take up all of it, and is refused
    otherwise, at the cursor behind the last of them. -/
theorem tokenize_cases (source : String) :
    (∃ pieces, Reads.many readMeasured source.toList = .success pieces [] ∧
      tokenize source = .ok (place 0 pieces)) ∨
    ∃ pieces diagnostic k, k < source.toList.length ∧
      Reads.many readMeasured source.toList = .success pieces (source.toList.drop k) ∧
      tokenize source =
        .error (.refused diagnostic (.view ⟨.symbols source.toList.toArray, (k : Nat)⟩)) := by
  rw [tokenize]
  rcases run_lexemes _ 0 source.toList #[] with
    ⟨pieces, hmany, hrun⟩ | ⟨pieces, diagnostic, k, hk, hmany, hrun⟩
  · exact .inl ⟨pieces, hmany, by rw [hrun]; rfl⟩
  · exact .inr ⟨pieces, diagnostic, k, hk, hmany, by rw [hrun]; rfl⟩

/-- The tokens of a text are those that tile it. -/
theorem tokenize_eq_ok_iff {source : String} {tokens : List Token} :
    tokenize source = .ok tokens ↔ Tiles 0 source.toList tokens := by
  constructor
  · intro h
    rcases tokenize_cases source with ⟨pieces, hmany, hok⟩ | ⟨_, _, k, -, -, herror⟩
    · cases hok.symm.trans h
      exact tiles_of_many hmany 0
    · cases herror.symm.trans h
  · intro h
    obtain ⟨pieces, hmany, rfl⟩ := h.many
    rcases tokenize_cases source with ⟨pieces', hmany', hok⟩ | ⟨pieces', _, k, hk, hmany', -⟩
    · cases hmany'.symm.trans hmany
      exact hok
    · -- Something would be left over where nothing is.
      have hnil : source.toList.drop k = [] := by
        injection hmany'.symm.trans hmany
      have hle := List.drop_eq_nil_iff.mp hnil
      omega

/-! ## The text of a token -/

/-- The span of a piece extracts it. -/
theorem extract_piece (front piece rest : List Char) :
    (Span.extract ⟨front.length, front.length + piece.length⟩
      (String.ofList (front ++ (piece ++ rest)))).toList = piece := by
  rw [Span.extract, String.toList_ofList, String.toList_ofList]
  have hsize : (front ++ (piece ++ rest)).length = front.length + (piece.length + rest.length) := by
    simp
  -- Both ends lie within the text, so clamping leaves them as they are.
  have hfirst : (Slice.clamp (front ++ (piece ++ rest)).length 0
      (front ++ (piece ++ rest)).length front.length).toNat = front.length := by
    simp only [Slice.clamp]
    omega
  have hlast : (Slice.clamp (front ++ (piece ++ rest)).length 0
      (front ++ (piece ++ rest)).length (front.length + piece.length)).toNat =
        front.length + piece.length := by
    simp only [Slice.clamp]
    omega
  rw [Slice.between]
  simp only [hfirst, hlast]
  rw [List.take_append, List.drop_append]
  simp

/-- The source text of every token spells its lexeme. -/
theorem Tiles.spells_extract {start : Int} {cs : List Char} {tokens : List Token}
    (h : Tiles start cs tokens) (front : List Char) (hstart : start = front.length) :
    ∀ token ∈ tokens,
      Spells token.lexeme (token.span.extract (String.ofList (front ++ cs))).toList := by
  -- What has been passed grows by a piece with every token.
  induction h generalizing front with
  | nil start => simp
  | @cons start piece rest lexeme tokens hspells _ _ ih =>
      subst hstart
      intro token htoken
      rcases List.mem_cons.mp htoken with rfl | hmem
      · rw [extract_piece]
        exact hspells
      · have htext := ih (front ++ piece) (by simp) token hmem
        rwa [List.append_assoc] at htext

/-- What a token of a text was read from spells it. -/
theorem tokenize_spells {source : String} {tokens : List Token}
    (h : tokenize source = .ok tokens) :
    ∀ token ∈ tokens, Spells token.lexeme (token.span.extract source).toList := by
  have htiles := tokenize_eq_ok_iff.mp h
  have hspells := htiles.spells_extract [] rfl
  rwa [List.nil_append, String.ofList_toList] at hspells

end Lexer

end LambdaTree
