/-
  LambdaTree.Symbol

  What parsers read. An input is a sequence of symbols of one type: the
  characters of a text, tokens, or items, which are texts, numbers or tokens.
  Every symbol can be seen as an item, and a stretch of symbols can be shown
  in a message.
-/

import LambdaTree.Token

namespace LambdaTree

/-- A symbol of no settled type. -/
inductive Item where
  | text (value : String)
  | number (value : Int)
  | token (value : Token)
deriving DecidableEq

namespace Item

/-- Items compare by value, tokens among them by their lexemes. -/
def same : Item → Item → Bool
  | .text a, .text b => a == b
  | .number a, .number b => a == b
  | .token a, .token b => a.same b
  | _, _ => false

/-- How an item is shown in a message. -/
def shown : Item → String
  | .text value => value
  | .number value => toString value
  | .token value => value.text

/-- The token that an item is, when asked for a part that only tokens have. -/
def toToken (part : String) : Item → Except Fault Token
  | .token value => .ok value
  | .text _ => .error (.lacks "str" part)
  | .number _ => .error (.lacks "int" part)

/-- The span that an item was read from. -/
def span (item : Item) : Except Fault Span :=
  Token.span <$> item.toToken "span"

/-- Whether an item is a given text. -/
def isText (item : Item) (value : String) : Bool :=
  item = .text value

/-- Whether an item is a token whose lexeme passes a test. -/
def isToken (item : Item) (test : Lexeme → Bool) : Bool :=
  match item with
  | .token value => test value.lexeme
  | _ => false

/-- Whether a text lies between two texts, in the order of their characters. Other items
    have no such order. -/
def between (item : Item) (low high : String) : Except Fault Bool :=
  match item with
  | .text value => .ok (low ≤ value && value ≤ high)
  | _ => .error (.misapplied "between")

/-- Whether the characters of a text stand one after another somewhere in another. -/
def occursIn (part : List Char) : List Char → Bool
  | [] => part.isEmpty
  | c :: rest => part.isPrefixOf (c :: rest) || occursIn part rest

/-- Whether a text is a part of another. Other items are not parts of texts. -/
def within (item : Item) (texts : String) : Except Fault Bool :=
  match item with
  | .text value => .ok (occursIn value.toList texts.toList)
  | _ => .error (.misapplied "within")

/-- The name that an item stands for, when it is a word. -/
def name : Item → String
  | .token ⟨.word name, _⟩ => name
  | _ => ""

/-- The text of an item, when it is one. -/
def characters : Item → String
  | .text value => value
  | _ => ""

end Item

/-- A type of symbols that parsers can read. -/
class Symbol (ι : Type) where
  item : ι → Item
  /-- What a sequence of such symbols is called. -/
  container : Container
  /-- How a stretch of symbols is shown in a message. -/
  preview : List ι → String

/-- Characters make up a text, which is shown quoted. -/
instance : Symbol Char where
  item c := .text (String.singleton c)
  container := .text
  preview chars := Text.quote (String.ofList chars)

instance : Symbol Token where
  item := .token
  container := .list
  preview tokens := String.intercalate " " (tokens.map Token.text)

instance : Symbol Item where
  item := id
  container := .list
  preview items := String.intercalate " " (items.map Item.shown)

end LambdaTree
