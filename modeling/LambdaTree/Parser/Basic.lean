/-
  LambdaTree.Parser.Basic

  Parsers as data. A parser is built from a few constructors; what it does with
  an input is defined by recursion on it (`Parser.exec`). A parser may call
  named rules, through which it can be recursive, and may remember the answers
  of a part in a named cell. The names and the types of their values are the
  parser's signature.

  The constructors are the fundamental parsers. From them come mapping a value
  (`apply`), sequences that keep one of two values (`seqLeft`, `seqRight`),
  ordered choice over a list (`firstOf`), repetition at least once (`many1`)
  and operators that associate to the left (`chainLeft`).
-/

import LambdaTree.Input

namespace LambdaTree

/-- The rules that a parser may call and the cells that it may remember answers in, with
    the types of their values. -/
structure Signature where
  Rule : Type
  Cell : Type
  ruleValue : Rule → Type
  cellValue : Cell → Type
  cellEq : DecidableEq Cell

instance (σ : Signature) : DecidableEq σ.Cell := σ.cellEq

/-- Parsers of values of a type from symbols `ι`. Functions that a parser applies, and
    tests that it makes, may meet a fault. -/
inductive Parser (ι : Type) (σ : Signature) : Type → Type 1 where
  /-- Succeeds without reading anything. -/
  | succeed {α : Type} (value : α) : Parser ι σ α
  /-- Fails with a message. -/
  | fail {α : Type} (message : String) : Parser ι σ α
  /-- Reads one symbol that passes a test. -/
  | satisfy (test : ι → Except Fault Bool) : Parser ι σ ι
  /-- Reads a function and then its argument, and applies the one to the other. -/
  | seq {α β : Type} (function : Parser ι σ (α → Except Fault β)) (argument : Parser ι σ α) :
      Parser ι σ β
  /-- The first alternative that succeeds; each starts from the same input. -/
  | choice {α : Type} (count : Nat) (alternative : Fin count → Parser ι σ α) : Parser ι σ α
  /-- Fails when input is left over. -/
  | complete {α : Type} (parser : Parser ι σ α) : Parser ι σ α
  /-- Calls a rule, which is looked up only then and so may lead back here. -/
  | rule (name : σ.Rule) : Parser ι σ (σ.ruleValue name)
  /-- Zero or more times, as long as the parser succeeds and reads something. -/
  | many {α : Type} (parser : Parser ι σ α) : Parser ι σ (List α)
  /-- Remembers the answer for each length of input. -/
  | memo (cell : σ.Cell) (parser : Parser ι σ (σ.cellValue cell)) : Parser ι σ (σ.cellValue cell)
  /-- Pairs the value with the number of symbols read. -/
  | measure {α : Type} (parser : Parser ι σ α) : Parser ι σ (α × Int)
  /-- Records the length of the input under a name. -/
  | tally {α : Type} (name : String) (parser : Parser ι σ α) : Parser ι σ α
  /-- Changes the value. -/
  | map {α β : Type} (change : α → β) (parser : Parser ι σ α) : Parser ι σ β

/-- A parser for every rule. -/
abbrev Rules (ι : Type) (σ : Signature) : Type 1 :=
  (name : σ.Rule) → Parser ι σ (σ.ruleValue name)

namespace Parser

variable {ι α β γ : Type} {σ : Signature}

/-! ## Derived parsers -/

/-- The first of the listed alternatives that succeeds. -/
def firstOf (alternatives : List (Parser ι σ α)) : Parser ι σ α :=
  .choice alternatives.length alternatives.get

/-- Maps a function that may meet a fault over the value of a parser. -/
def applyM (function : α → Except Fault β) (argument : Parser ι σ α) : Parser ι σ β :=
  .seq (.succeed function) argument

/-- Maps a function over the value of a parser. It is a sequence whose function is there
    without reading anything. -/
def apply (function : α → β) (argument : Parser ι σ α) : Parser ι σ β :=
  applyM (fun value => .ok (function value)) argument

/-- Reads two parts and combines their values. -/
def combine (function : α → β → γ) (left : Parser ι σ α) (right : Parser ι σ β) : Parser ι σ γ :=
  .seq (apply (fun a b => .ok (function a b)) left) right

/-- Reads two parts and keeps the value of the first. -/
def seqLeft (left : Parser ι σ α) (right : Parser ι σ β) : Parser ι σ α :=
  combine (fun a _ => a) left right

/-- Reads two parts and keeps the value of the second. -/
def seqRight (left : Parser ι σ α) (right : Parser ι σ β) : Parser ι σ β :=
  combine (fun _ b => b) left right

/-- Once or more. -/
def many1 (parser : Parser ι σ α) : Parser ι σ (List α) :=
  combine List.cons parser (.many parser)

/-- Applies operators one after another, each to what came of those before it and to its
    own operand. -/
def foldOperators (first : α) (steps : List ((α → α → Except Fault α) × α)) : Except Fault α :=
  steps.foldlM (fun value step => step.1 value step.2) first

/-- One or more operands with operators between them, which associate to the left: an
    operand, and then any number of pairs of an operator and an operand. -/
def chainLeft (operand : Parser ι σ α) (operator : Parser ι σ (α → α → Except Fault α)) :
    Parser ι σ α :=
  .seq (apply foldOperators operand) (.many (combine Prod.mk operator operand))

/-- Meets a fault. -/
def raise (fault : Fault) : Parser ι σ α :=
  applyM (fun _ : Unit => .error fault) (.succeed ())

/-! ## Parsers of single symbols -/

/-- A symbol that is a given text. -/
def text [Symbol ι] (value : String) : Parser ι σ ι :=
  .satisfy fun symbol => .ok ((Symbol.item symbol).isText value)

/-- A symbol whose text lies between two texts, in the order of their characters. -/
def range [Symbol ι] (low high : String) : Parser ι σ ι :=
  .satisfy fun symbol => (Symbol.item symbol).between low high

/-- A symbol whose text is a part of a given text. -/
def oneOf [Symbol ι] (texts : String) : Parser ι σ ι :=
  .satisfy fun symbol => (Symbol.item symbol).within texts

/-- A token whose lexeme passes a test. -/
def token [Symbol ι] (test : Lexeme → Bool) : Parser ι σ ι :=
  .satisfy fun symbol => .ok ((Symbol.item symbol).isToken test)

end Parser

end LambdaTree
