/-
  LambdaTree.Proofs.Lexer.Scan

  What the lexer reads off a list of characters.  `next` gives the first lexeme
  of a text and the characters behind it, by the class of the first character;
  words and blanks go on as far as characters of their class do.
  `readsAt_lexeme` says that the parser of lexemes does the same.
-/

import LambdaTree.Lexer
import LambdaTree.Proofs.Parser.Plain

namespace LambdaTree

namespace Lexer

open LambdaTree.Parser

/-! ## Classes of characters -/

/-- A small letter or an underscore. -/
def isWordStart (c : Char) : Bool :=
  ('a' ≤ c && c ≤ 'z') || c == '_'

/-- A letter, a digit or an underscore. -/
def isWordPart (c : Char) : Bool :=
  isWordStart c || ('A' ≤ c && c ≤ 'Z') || ('0' ≤ c && c ≤ '9')

/-- A space, line feed, tab, carriage return, line tabulation or form feed. -/
def isBlank (c : Char) : Bool :=
  c == ' ' || c == '\n' || c == '\t' || c == '\r' || c == '\x0b' || c == '\x0c'

/-- The lexer has these six for its blanks. -/
theorem contains_blankCharacters (c : Char) : blankCharacters.toList.contains c = isBlank c := by
  have hsix : blankCharacters.toList = [' ', '\n', '\t', '\r', '\x0b', '\x0c'] := by decide
  rw [hsix]
  simp only [List.contains_cons, List.contains_nil, Bool.or_false, isBlank, Bool.or_assoc]

theorem eq_of_isBlank {c : Char} (h : isBlank c = true) :
    c = ' ' ∨ c = '\n' ∨ c = '\t' ∨ c = '\r' ∨ c = '\x0b' ∨ c = '\x0c' := by
  simpa only [isBlank, Bool.or_eq_true, beq_iff_eq, or_assoc] using h

/-! ## Parsers of single characters -/

theorem singleton_le_iff (a c : Char) : String.singleton a ≤ String.singleton c ↔ a ≤ c := by
  -- Texts compare as their lists of characters do.
  have hlt : String.singleton c < String.singleton a ↔ c < a := by
    show (String.singleton c).toList < (String.singleton a).toList ↔ c < a
    rw [String.toList_singleton, String.toList_singleton, List.cons_lt_cons_iff]
    simp
  rw [← String.not_lt, hlt, Char.not_lt]

theorem between_singleton (a b c : Char) :
    Item.between (.text (String.singleton c)) (String.singleton a) (String.singleton b) =
      .ok (a ≤ c && c ≤ b) := by
  simp only [Item.between, singleton_le_iff]

theorem isText_singleton (a c : Char) :
    Item.isText (.text (String.singleton c)) (String.singleton a) = (c == a) := by
  simp only [Item.isText, Item.text.injEq, String.singleton_inj]
  rfl

theorem occursIn_singleton (c : Char) (text : List Char) :
    Item.occursIn [c] text = text.contains c := by
  induction text with
  | nil => rfl
  | cons d text ih =>
      rw [Item.occursIn, ih, List.contains_cons]
      simp [List.isPrefixOf]

theorem spell_characters (cs : List Char) : spell cs = String.ofList cs := by
  rw [← String.toList_inj, spell, String.toList_join, String.toList_ofList]
  simp [List.flatMap_map, Symbol.item, Item.characters]

section

variable {σ : Signature} {rules : Rules Char σ} {depth : Nat} {cs : List Char}

theorem readsAt_range (a b : Char) :
    readsAt rules depth (range (String.singleton a) (String.singleton b)) cs =
      Reads.one (fun c => a ≤ c && c ≤ b) cs :=
  readsAt_satisfy fun c => between_singleton a b c

theorem readsAt_text (a : Char) :
    readsAt rules depth (text (String.singleton a)) cs = Reads.one (· == a) cs :=
  readsAt_satisfy fun c => congrArg Except.ok (isText_singleton a c)

theorem readsAt_oneOf (texts : String) :
    readsAt rules depth (oneOf texts) cs = Reads.one (fun c => texts.toList.contains c) cs :=
  readsAt_satisfy fun c => by
    simp only [Symbol.item, Item.within, String.toList_singleton, occursIn_singleton]

theorem readsAt_wordStart : readsAt rules depth wordStart cs = Reads.one isWordStart cs := by
  have hone : readsAt rules depth wordStart cs = Reads.one _ cs :=
    readsAt_firstOf_one (.cons (readsAt_range 'a' 'z') (.cons (readsAt_text '_') .nil))
  rw [hone]
  congr 1
  funext c
  simp only [List.any_cons, List.any_nil, Bool.or_false, isWordStart]

theorem readsAt_wordPart : readsAt rules depth wordPart cs = Reads.one isWordPart cs := by
  have hone : readsAt rules depth wordPart cs = Reads.one _ cs :=
    readsAt_firstOf_one (.cons (readsAt_range 'a' 'z') (.cons (readsAt_text '_')
      (.cons (readsAt_range 'A' 'Z') (.cons (readsAt_range '0' '9') .nil))))
  rw [hone]
  congr 1
  funext c
  simp only [List.any_cons, List.any_nil, Bool.or_false, isWordPart, isWordStart, Bool.or_assoc]

/-! ## Lexemes -/

theorem readsAt_word :
    readsAt rules depth word cs = (Reads.one isWordStart cs).andThen fun c rest =>
      .success (String.ofList (c :: rest.takeWhile isWordPart)) (rest.dropWhile isWordPart) := by
  have hparts : readsAt rules depth wordPart = Reads.one isWordPart := funext fun _ =>
    readsAt_wordPart
  simp only [word, readsAt_combine, readsAt_wordStart, readsAt_many, hparts, Reads.many_one,
    Reads.success_andThen, spell_characters]

theorem readsAt_blank :
    readsAt rules depth blank cs = (Reads.one isBlank cs).andThen fun c rest =>
      .success (String.ofList (c :: rest.takeWhile isBlank)) (rest.dropWhile isBlank) := by
  have hblanks : readsAt rules depth (oneOf blankCharacters) = Reads.one isBlank := by
    funext cs
    rw [readsAt_oneOf, funext contains_blankCharacters]
  simp only [blank, many1, readsAt_apply, readsAt_combine, readsAt_many, hblanks, Reads.many_one,
    Reads.andThen_assoc, Reads.success_andThen, spell_characters]

theorem readsAt_lambda :
    readsAt rules depth (firstOf [text "λ", text "\\"]) cs =
      Reads.one (fun c => c == 'λ' || c == '\\') cs := by
  have hone : readsAt rules depth (firstOf [text "λ", text "\\"]) cs = Reads.one _ cs :=
    readsAt_firstOf_one (.cons (readsAt_text 'λ') (.cons (readsAt_text '\\') .nil))
  simpa only [List.any_cons, List.any_nil, Bool.or_false] using hone

end

/-- The first lexeme of a text and the characters behind it. -/
def next : List Char → Option (Lexeme × List Char)
  | [] => none
  | c :: cs =>
    if isWordStart c then
      some (.word (String.ofList (c :: cs.takeWhile isWordPart)), cs.dropWhile isWordPart)
    else if c == 'λ' || c == '\\' then some (.lambda, cs)
    else if c == '.' then some (.dot, cs)
    else if c == '(' then some (.openParen, cs)
    else if c == ')' then some (.closeParen, cs)
    else if isBlank c then
      some (.blank (String.ofList (c :: cs.takeWhile isBlank)), cs.dropWhile isBlank)
    else none

/-- What is read of a text when its first lexeme is. -/
def readNext (cs : List Char) : Reads Char Lexeme :=
  match next cs with
  | some (lexeme, rest) => .success lexeme rest
  | none => .failure cs

theorem readsAt_lexeme {σ : Signature} (rules : Rules Char σ) (depth : Nat) (cs : List Char) :
    readsAt rules depth lexeme cs = readNext cs := by
  rw [lexeme, readsAt_firstOf]
  simp only [List.map_cons, List.map_nil, readsAt_apply, readsAt_seqRight, readsAt_succeed,
    readsAt_word, readsAt_blank, readsAt_lambda, Reads.andThen_assoc, Reads.success_andThen]
  rw [show readsAt rules depth (text ".") cs = _ from readsAt_text '.',
    show readsAt rules depth (text "(") cs = _ from readsAt_text '(',
    show readsAt rules depth (text ")") cs = _ from readsAt_text ')']
  cases cs with
  | nil => rfl
  | cons c cs =>
      -- The alternatives before the one that fits all fail at the start, so the cases are
      -- the classes of the first character, in the order of the alternatives.
      simp only [Reads.one, readNext, next]
      by_cases hword : isWordStart c = true
      · simp [hword, Reads.firstOf]
      by_cases hlambda : (c == 'λ' || c == '\\') = true
      · simp [hword, hlambda, Reads.firstOf, Reads.andThen]
      by_cases hdot : (c == '.') = true
      · simp [hword, hlambda, hdot, Reads.firstOf, Reads.andThen]
      by_cases hopen : (c == '(') = true
      · simp [hword, hlambda, hdot, hopen, Reads.firstOf, Reads.andThen]
      by_cases hclose : (c == ')') = true
      · simp [hword, hlambda, hdot, hopen, hclose, Reads.firstOf, Reads.andThen]
      by_cases hblank : isBlank c = true
      · simp [hword, hlambda, hdot, hopen, hclose, hblank, Reads.firstOf, Reads.andThen]
      · simp [hword, hlambda, hdot, hopen, hclose, hblank, Reads.firstOf, Reads.andThen,
          Reads.furthest]

end Lexer

end LambdaTree
