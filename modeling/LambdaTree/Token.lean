/-
  LambdaTree.Token

  What a source text is made of: words, blanks and marks. A token is a lexeme
  and the span that it was read from; two tokens are the same when their
  lexemes are, wherever they stand.
-/

import LambdaTree.Span
import LambdaTree.Text.Quoted

namespace LambdaTree

inductive Lexeme where
  /-- An identifier. -/
  | word (name : String)
  /-- A stretch of blank characters. -/
  | blank (text : String)
  | lambda
  | dot
  | openParen
  | closeParen
  /-- A token of no particular kind. -/
  | plain
deriving DecidableEq, Inhabited

namespace Lexeme

def kind : Lexeme → String
  | .word _ => "identifier"
  | .blank _ => "whitespace"
  | .lambda => "lambda"
  | .dot => "dot"
  | .openParen => "lparen"
  | .closeParen => "rparen"
  | .plain => "token"

/-- How a lexeme is shown in a message. -/
def text : Lexeme → String
  | .word name => name
  | .blank text => Text.quote text
  | .lambda => "λ"
  | .dot => "."
  | .openParen => "("
  | .closeParen => ")"
  | .plain => "token"

def isWord : Lexeme → Bool
  | .word _ => true
  | _ => false

def isBlank : Lexeme → Bool
  | .blank _ => true
  | _ => false

end Lexeme

structure Token where
  lexeme : Lexeme
  span : Span
deriving DecidableEq, Inhabited

namespace Token

/-- Tokens compare by their lexemes. -/
def same (a b : Token) : Bool := a.lexeme == b.lexeme

def text (token : Token) : String := token.lexeme.text

/-- The tokens that matter to the grammar: all but the blanks. -/
def significant (tokens : List Token) : List Token :=
  tokens.filter fun token => !token.lexeme.isBlank

/-- The pairs of places, the smaller first, that hold the same token. -/
def equalPairs (tokens : List Token) : List (Nat × Nat) :=
  tokens.zipIdx.flatMap fun (a, i) =>
    (tokens.zipIdx.drop (i + 1)).filterMap fun (b, j) => if a.same b then some (i, j) else none

/-- How many different tokens a list holds. -/
def distinct (tokens : List Token) : Nat :=
  (tokens.map Token.lexeme).eraseDups.length

end Token

end LambdaTree
