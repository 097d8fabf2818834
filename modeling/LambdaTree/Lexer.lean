/-
  LambdaTree.Lexer

  From source text to tokens. A word starts with a small letter or an
  underscore and goes on with letters, digits and underscores; blanks are the
  six blank characters of ASCII; a lambda may be written as a backslash. Each
  stretch of blanks and each word is taken as long as possible, and the spans
  of the tokens follow from their lengths.
-/

import LambdaTree.Parser.Run

namespace LambdaTree

/-- No rules and no cells. -/
abbrev Signature.none : Signature where
  Rule := Empty
  Cell := Empty
  ruleValue := nofun
  cellValue := nofun
  cellEq := nofun

namespace Lexer

variable {ι : Type} [Symbol ι] {σ : Signature}

open LambdaTree.Parser

/-- The text of some symbols, one after another. -/
def spell (symbols : List ι) : String :=
  String.join (symbols.map fun symbol => (Symbol.item symbol).characters)

/-- A character that a word may start with. -/
def wordStart : Parser ι σ ι :=
  firstOf [range "a" "z", text "_"]

/-- A character that a word may go on with. -/
def wordPart : Parser ι σ ι :=
  firstOf [range "a" "z", text "_", range "A" "Z", range "0" "9"]

/-- A word, as far as it goes. -/
def word : Parser ι σ String :=
  combine (fun first others => spell (first :: others)) wordStart (.many wordPart)

/-- Space, line feed, tab, carriage return, line tabulation and form feed. -/
def blankCharacters : String := " \n\t\r\x0b\x0c"

/-- A stretch of blanks, as far as it goes. -/
def blank : Parser ι σ String :=
  apply spell (many1 (oneOf blankCharacters))

/-- One lexeme of any kind. -/
def lexeme : Parser ι σ Lexeme :=
  firstOf [
    apply .word word,
    seqRight (firstOf [text "λ", text "\\"]) (.succeed .lambda),
    seqRight (text ".") (.succeed .dot),
    seqRight (text "(") (.succeed .openParen),
    seqRight (text ")") (.succeed .closeParen),
    apply .blank blank]

/-- All lexemes of a text with their lengths. -/
def lexemes : Parser ι σ (List (Lexeme × Int)) :=
  .complete (.many (.measure lexeme))

/-- Lays lexemes of given lengths one after another from a place on. -/
def place (start : Int) : List (Lexeme × Int) → List Token
  | [] => []
  | (lexeme, length) :: others =>
    ⟨lexeme, ⟨start, start + length⟩⟩ :: place (start + length) others

/-- The tokens of a source text, blanks included. -/
def tokenize (source : String) : Except (Stop Char) (List Token) :=
  let rules : Rules Char Signature.none := nofun
  (place 0) <$> (run rules 0 lexemes (.plain source.toList) #[]).1

end Lexer

end LambdaTree
