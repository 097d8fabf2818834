/-
  LambdaTree.Grammar

  From tokens to terms:

    expression   = application | term
    application  = term term ...            (associates to the left)
    term         = "(" expression ")" | abstraction | variable
    abstraction  = "λ" word "." expression
    variable     = word

  The body of an abstraction is a whole expression, so it goes on to the right
  as far as the parentheses around it allow. Expressions and terms are
  remembered for each place, so that refusing a malformed text takes no longer
  than reading a good one. Expressions may be nested to a limit. The nodes that
  are read carry no notes.
-/

import LambdaTree.Lexer
import LambdaTree.ParseError
import LambdaTree.Term.Note

namespace LambdaTree

/-- The rule for expressions, beside other rules. -/
inductive Grammar.Rule (ρ : Type) where
  | expression
  | other (name : ρ)

/-- The cells for expressions and terms, beside other cells. -/
inductive Grammar.Cell (κ : Type) where
  | expression
  | term
  | other (cell : κ)
deriving DecidableEq

/-- The rules and cells of the grammar, beside those of another signature. -/
abbrev Grammar.signature (σ : Signature) : Signature where
  Rule := Grammar.Rule σ.Rule
  Cell := Grammar.Cell σ.Cell
  ruleValue
    | .expression => Term (Option Note)
    | .other name => σ.ruleValue name
  cellValue
    | .expression => Term (Option Note)
    | .term => Term (Option Note)
    | .other cell => σ.cellValue cell
  cellEq := inferInstance

namespace Grammar

variable {ι : Type} [Symbol ι] {σ : Signature}

open LambdaTree.Parser

/-! ## Tokens -/

/-- Any word. -/
def wordToken : Parser ι σ ι := token Lexeme.isWord

def lambdaToken : Parser ι σ ι := token (· == .lambda)

def dotToken : Parser ι σ ι := token (· == .dot)

def openToken : Parser ι σ ι := token (· == .openParen)

def closeToken : Parser ι σ ι := token (· == .closeParen)

/-- The name of a word. -/
def nameOf (symbol : ι) : String :=
  (Symbol.item symbol).name

/-- A lambda, a word and a dot, for the name of the word. -/
def binder : Parser ι σ String :=
  apply nameOf (seqLeft (seqRight lambdaToken wordToken) dotToken)

/-! ## Terms -/

/-- The rule for expressions, whose answers are remembered. -/
def expression : Parser ι (signature σ) (Term (Option Note)) :=
  .memo (σ := signature σ) Cell.expression (.rule (σ := signature σ) Rule.expression)

/-- A word, as a variable. -/
def variableTerm : Parser ι σ (Term (Option Note)) :=
  apply (Term.var none) (apply nameOf wordToken)

/-- A binder and the expression that is its body. -/
def abstraction : Parser ι (signature σ) (Term (Option Note)) :=
  combine (Term.abs none) binder expression

/-- An expression in parentheses, which leave no trace in the tree. -/
def parenthesised : Parser ι (signature σ) (Term (Option Note)) :=
  seqRight openToken (seqLeft expression closeToken)

/-- The three kinds of term. Its answers are remembered. -/
def term : Parser ι (signature σ) (Term (Option Note)) :=
  .memo (σ := signature σ) Cell.term (firstOf [parenthesised, abstraction, variableTerm])

/-- Terms one after another, each applied to the next: operands with nothing between them
    for an operator. -/
def application : Parser ι (signature σ) (Term (Option Note)) :=
  chainLeft term (.succeed fun func arg => .ok (.app none func arg))

/-- An expression that takes up all tokens. -/
def wholeExpression : Parser ι (signature σ) (Term (Option Note)) :=
  .complete expression

/-- The rules of the grammar, beside rules for the other names. -/
def rules (others : (name : σ.Rule) → Parser ι (signature σ) (σ.ruleValue name)) :
    Rules ι (signature σ)
  | .expression => firstOf [application, term]
  | .other name => others name

/-! ## Reading terms -/

/-- Why reading gave no term. -/
inductive Refusal where
  /-- The text is not a term. -/
  | malformed (error : ParseError)
  /-- The tokens could not be read. -/
  | unreadable (fault : Fault)
deriving DecidableEq

/-- The error for tokens that the grammar refused: at the first token of the rest, or at
    the end of the source. -/
def errorAt (source : String) (diagnostic : Diagnostic) (rest : Input ι) :
    Except Fault ParseError := do
  let atEnd := (← rest.length) = 0
  let span ← if atEnd then pure (Span.point source.length) else (Symbol.item (← rest.first)).span
  let (reason, stage) :=
    if diagnostic.cause = .leftover then (Reason.trailingInput, Stage.complete)
    else if atEnd then (.endOfInput, .grammar)
    else (.unexpectedToken, .grammar)
  return ⟨reason, span, some source, stage, diagnostic.message⟩

/-- The error for expressions nested beyond the limit. -/
def tooDeepError (source : String) : ParseError :=
  ⟨.tooDeep, ⟨0, source.length⟩, some source, .grammar, ""⟩

/-- The term that tokens spell, with at most `limit` expressions open inside the whole.
    Symbols that are no tokens fit nowhere. -/
def parseTokensWithin (limit : Nat) (tokens : Input ι) (source : String) :
    Except Refusal (Term (Option Note)) :=
  let all : Rules ι (signature Signature.none) := rules nofun
  match (run all (limit + 1) wholeExpression tokens #[]).1 with
  | .ok t => .ok t
  | .error (.refused diagnostic rest) =>
    match errorAt source diagnostic rest with
    | .ok error => .error (.malformed error)
    | .error fault => .error (.unreadable fault)
  | .error (.halted .tooDeep) => .error (.malformed (tooDeepError source))
  | .error (.halted (.fault fault)) => .error (.unreadable fault)

/-- The error for a text that does not fall into tokens: at the character that starts
    none. -/
def characterErrorAt (source : String) (diagnostic : Diagnostic) (rest : Input Char) :
    Except Fault ParseError := do
  let start : Int := source.length - (← rest.length)
  let character ← rest.first
  return ⟨.unexpectedCharacter character, ⟨start, start + 1⟩, some source, .tokenize,
    diagnostic.message⟩

/-- The tokens of a source text, or why there are none. -/
def tokensOf (source : String) : Except Refusal (List Token) :=
  match Lexer.tokenize source with
  | .ok tokens => .ok tokens
  | .error (.refused diagnostic rest) =>
    match characterErrorAt source diagnostic rest with
    | .ok error => .error (.malformed error)
    | .error fault => .error (.unreadable fault)
  | .error (.halted .tooDeep) => .error (.malformed (tooDeepError source))
  | .error (.halted (.fault fault)) => .error (.unreadable fault)

/-- The term that a source text spells, with at most `limit` expressions open inside the
    whole. -/
def parseWithin (limit : Nat) (source : String) : Except Refusal (Term (Option Note)) := do
  let tokens ← tokensOf source
  parseTokensWithin limit (.plain (Token.significant tokens)) source

/-- How deep expressions may be nested. -/
def nestingLimit : Nat := 300

/-- The term that tokens spell, within the nesting limit. -/
def parseTokens (tokens : Input ι) (source : String) : Except Refusal (Term (Option Note)) :=
  parseTokensWithin nestingLimit tokens source

/-- The term that a source text spells, within the nesting limit. -/
def parse (source : String) : Except Refusal (Term (Option Note)) :=
  parseWithin nestingLimit source

end Grammar

end LambdaTree
