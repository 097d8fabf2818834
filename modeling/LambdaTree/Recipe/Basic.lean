/-
  LambdaTree.Recipe.Basic

  Parsers described by data. A recipe names the combinators, tests, functions
  and ready-made rules to use; `Recipe.build` is the parser that it describes.
  A program is a recipe with definitions that it may refer to, by which it can
  be recursive.
-/

import LambdaTree.Grammar
import LambdaTree.Recipe.Value

namespace LambdaTree

namespace Recipe

/-- Tests of single items. -/
inductive Test where
  | any
  | never
  | positive
  | even
deriving DecidableEq

namespace Test

def name : Test → String
  | .any => "any"
  | .never => "never"
  | .positive => "positive"
  | .even => "even"

def named? (name : String) : Option Test :=
  [any, never, positive, even].find? fun test => test.name == name

def passes (test : Test) (item : Item) : Except Fault Bool :=
  match test, item with
  | .any, _ => .ok true
  | .never, _ => .ok false
  | .positive, .number n => .ok (0 < n)
  | .even, .number n => .ok (n % 2 = 0)
  | _, _ => .error (.misapplied test.name)

end Test

/-- The rules of the lexer and of the grammar. -/
inductive Rule where
  | word
  | blank
  | lexeme
  | lexemes
  | wordToken
  | lambdaToken
  | dotToken
  | openToken
  | closeToken
  | binder
  | expression
  | variableTerm
  | abstraction
  | parenthesised
  | term
  | application
  | wholeExpression
deriving DecidableEq

namespace Rule

def name : Rule → String
  | .word => "identifier"
  | .blank => "whitespace"
  | .lexeme => "token"
  | .lexemes => "tokens"
  | .wordToken => "identifier_token"
  | .lambdaToken => "lambda_token"
  | .dotToken => "dot_token"
  | .openToken => "lparen_token"
  | .closeToken => "rparen_token"
  | .binder => "binder_token"
  | .expression => "expression"
  | .variableTerm => "variable"
  | .abstraction => "abstraction"
  | .parenthesised => "parens"
  | .term => "term"
  | .application => "application"
  | .wholeExpression => "top_expression"

def all : List Rule :=
  [.word, .blank, .lexeme, .lexemes, .wordToken, .lambdaToken, .dotToken, .openToken, .closeToken,
    .binder, .expression, .variableTerm, .abstraction, .parenthesised, .term, .application,
    .wholeExpression]

def named? (name : String) : Option Rule :=
  all.find? fun rule => rule.name == name

end Rule

end Recipe

open Recipe in
/-- A description of a parser. -/
inductive Recipe where
  | succeed (value : Value)
  | fail (message : String)
  | satisfy (test : Test)
  | text (value : String)
  | range (low high : String)
  | oneOf (texts : String)
  | token (kind : String)
  | rule (name : Recipe.Rule)
  | apply (function : Function) (argument : Recipe)
  | seq (function argument : Recipe)
  | seqLeft (left right : Recipe)
  | seqRight (left right : Recipe)
  | chainLeft (operand operator : Recipe)
  | complete (parser : Recipe)
  | many (parser : Recipe)
  | many1 (parser : Recipe)
  | memo (parser : Recipe)
  | measure (parser : Recipe)
  | firstOf (alternatives : List Recipe)
  | refer (name : String)
  | tally (name : String) (parser : Recipe)

namespace Recipe

/-- Where something is written: in a definition, or in the main recipe, and on which way
    down. It is what tells one cell from another. -/
structure Place where
  definition : Option String
  path : List Nat
deriving DecidableEq

def Place.child (place : Place) (i : Nat) : Place :=
  { place with path := i :: place.path }

/-- Rules are called by name, cells are told apart by where they are written. -/
abbrev ownSignature : Signature where
  Rule := String
  Cell := Place
  ruleValue _ := Value
  cellValue _ := Value
  cellEq := inferInstance

/-- The rules and cells of recipes, beside those of the grammar. -/
abbrev signature : Signature := Grammar.signature ownSignature

variable {ι : Type} [Symbol ι]

/-- A lexeme read on its own, which has no place in a text. -/
def Value.ofLexeme (lexeme : Lexeme) : Value :=
  .token ⟨lexeme, Span.point 0⟩

/-- A value with a count. -/
def Value.ofMeasured (measured : Value × Int) : Value :=
  .list [measured.1, .number measured.2]

/-- The parser of a ready-made rule. -/
def Rule.parser : Rule → Parser ι signature Value
  | .word => .map .text Lexer.word
  | .blank => .map .text Lexer.blank
  | .lexeme => .map .ofLexeme Lexer.lexeme
  | .lexemes =>
    .map (fun read => .list (read.map fun entry => .ofMeasured (.ofLexeme entry.1, entry.2)))
      Lexer.lexemes
  | .wordToken => .map .ofSymbol Grammar.wordToken
  | .lambdaToken => .map .ofSymbol Grammar.lambdaToken
  | .dotToken => .map .ofSymbol Grammar.dotToken
  | .openToken => .map .ofSymbol Grammar.openToken
  | .closeToken => .map .ofSymbol Grammar.closeToken
  | .binder => .map .text Grammar.binder
  | .expression => .map .term Grammar.expression
  | .variableTerm => .map .term Grammar.variableTerm
  | .abstraction => .map .term Grammar.abstraction
  | .parenthesised => .map .term Grammar.parenthesised
  | .term => .map .term Grammar.term
  | .application => .map .term Grammar.application
  | .wholeExpression => .map .term Grammar.wholeExpression

/-- Whether a lexeme is of a kind, of which the plain one includes all. -/
def hasKind (kind : String) (lexeme : Lexeme) : Bool :=
  kind == Lexeme.plain.kind || lexeme.kind == kind

mutual

/-- The parser that a recipe describes, when it is written at a place. -/
def build (place : Place) : Recipe → Parser ι signature Value
  | .succeed value => .succeed value
  | .fail message => .fail message
  | .satisfy test => .map .ofSymbol (.satisfy fun symbol => test.passes (Symbol.item symbol))
  | .text value => .map .ofSymbol (Parser.text value)
  | .range low high => .map .ofSymbol (Parser.range low high)
  | .oneOf texts => .map .ofSymbol (Parser.oneOf texts)
  | .token kind => .map .ofSymbol (Parser.token (hasKind kind))
  | .rule name => name.parser
  | .apply function argument =>
    Parser.applyM (Value.closure function []).apply (build (place.child 0) argument)
  | .seq function argument =>
    .seq (.map Value.apply (build (place.child 0) function)) (build (place.child 1) argument)
  | .seqLeft left right =>
    Parser.seqLeft (build (place.child 0) left) (build (place.child 1) right)
  | .seqRight left right =>
    Parser.seqRight (build (place.child 0) left) (build (place.child 1) right)
  | .chainLeft operand operator =>
    Parser.chainLeft (build (place.child 0) operand)
      (.map Value.apply₂ (build (place.child 1) operator))
  | .complete parser => .complete (build (place.child 0) parser)
  | .many parser => .map .list (.many (build (place.child 0) parser))
  | .many1 parser => .map .list (Parser.many1 (build (place.child 0) parser))
  | .memo parser =>
    .memo (σ := signature) (Grammar.Cell.other place) (build (place.child 0) parser)
  | .measure parser => .map .ofMeasured (.measure (build (place.child 0) parser))
  | .firstOf alternatives => Parser.firstOf (buildAll place 0 alternatives)
  | .refer name => .rule (σ := signature) (Grammar.Rule.other name)
  | .tally name parser => .tally name (build (place.child 0) parser)

/-- The parsers of recipes written side by side, from the `i`-th on. -/
def buildAll (place : Place) (i : Nat) : List Recipe → List (Parser ι signature Value)
  | [] => []
  | recipe :: recipes => build (place.child i) recipe :: buildAll place (i + 1) recipes

end

mutual

/-- The names under which a recipe records lengths. -/
def tallyNames : Recipe → List String
  | .tally name parser => name :: parser.tallyNames
  | .apply _ parser | .complete parser | .many parser | .many1 parser | .memo parser
  | .measure parser => parser.tallyNames
  | .seq left right | .seqLeft left right | .seqRight left right | .chainLeft left right =>
    left.tallyNames ++ right.tallyNames
  | .firstOf alternatives => tallyNamesAll alternatives
  | _ => []

def tallyNamesAll : List Recipe → List String
  | [] => []
  | recipe :: recipes => recipe.tallyNames ++ tallyNamesAll recipes

end

/-- A recipe with named definitions. -/
structure Program where
  definitions : List (String × Recipe)
  main : Recipe

namespace Program

/-- The rules of the grammar and of the definitions. -/
def rules (program : Program) : Rules ι signature :=
  let built := program.definitions.map fun (name, recipe) => (name, build ⟨some name, []⟩ recipe)
  Grammar.rules (σ := ownSignature) fun name =>
    match built.lookup name with
    | some parser => parser
    | none => Parser.raise (.undefinedRule name)

/-- A depth of calls that only a run without end exceeds: no rule has to be called again
    on the same input before it has answered. -/
def depth (program : Program) (input : Input ι) : Nat :=
  (program.definitions.length + 1) * (input.size + 1) + 1

/-- What the described parser answers outside a run. -/
def reply (program : Program) (input : Input ι) (tally : Tally) :
    Except Halt (Reply ι Value) × Tally :=
  Parser.reply program.rules (program.depth input) (build ⟨none, []⟩ program.main) input tally

/-- Runs the described parser. -/
def run (program : Program) (input : Input ι) (tally : Tally) :
    Except (Parser.Stop ι) Value × Tally :=
  Parser.run program.rules (program.depth input) (build ⟨none, []⟩ program.main) input tally

/-- The names under which a program records lengths. -/
def tallyNames (program : Program) : List String :=
  (program.definitions.flatMap fun definition => definition.2.tallyNames) ++ program.main.tallyNames

end Program

end Recipe

end LambdaTree
