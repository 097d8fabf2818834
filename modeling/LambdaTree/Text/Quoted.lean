/-
  LambdaTree.Text.Quoted

  Quoted texts. A text is written between single quotes, or between double
  quotes when it has a single quote and no double one. The backslash, the
  quote in use, line feed, carriage return and tab are escaped by a backslash;
  every other character that is not printable is written by its code point.
  Which characters are printable is a parameter of `quoteWith`.
-/

import LambdaTree.Text.Printable

namespace LambdaTree.Text

/-- The lower-case hexadecimal digit of a number below sixteen. -/
def hexDigit (n : Nat) : Char :=
  if n < 10 then Char.ofNat (0x30 + n) else Char.ofNat (0x57 + n)

/-- The last `width` hexadecimal digits of a number, leading zeros included. -/
def hexDigits : (width : Nat) → Nat → List Char
  | 0, _ => []
  | width + 1, n => hexDigits width (n / 16) ++ [hexDigit (n % 16)]

def singleQuote : Char := '\x27'

def doubleQuote : Char := '\x22'

/-- The quote that a text is written between. -/
def quoteFor (chars : List Char) : Char :=
  if chars.contains singleQuote && !chars.contains doubleQuote then doubleQuote else singleQuote

/-- An unprintable character by its code point, in the shortest of the three forms
    that holds it. -/
def escapeCode (c : Char) : List Char :=
  if c.toNat < 0x100 then '\\' :: 'x' :: hexDigits 2 c.toNat
  else if c.toNat < 0x10000 then '\\' :: 'u' :: hexDigits 4 c.toNat
  else '\\' :: 'U' :: hexDigits 8 c.toNat

/-- How one character is written inside the quote `quote`. -/
def escapeChar (printable : Char → Bool) (quote c : Char) : List Char :=
  if c = quote ∨ c = '\\' then ['\\', c]
  else if c = '\n' then ['\\', 'n']
  else if c = '\r' then ['\\', 'r']
  else if c = '\t' then ['\\', 't']
  else if printable c then [c]
  else escapeCode c

/-- The characters of a quoted text. -/
def quoteChars (printable : Char → Bool) (chars : List Char) : List Char :=
  let quote := quoteFor chars
  quote :: (chars.flatMap (escapeChar printable quote) ++ [quote])

/-- A quoted text, for a given choice of the printable characters. -/
def quoteWith (printable : Char → Bool) (text : String) : String :=
  String.ofList (quoteChars printable text.toList)

/-- A quoted text, with the printable characters of `isPrintable`. -/
def quote (text : String) : String :=
  quoteWith isPrintable text

end LambdaTree.Text
