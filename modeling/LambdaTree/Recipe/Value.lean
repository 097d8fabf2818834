/-
  LambdaTree.Recipe.Value

  Values of parsers that are described by data. A parser's value may be a
  function; functions take their arguments one at a time and keep those that
  they have until they have all.
-/

import LambdaTree.Symbol
import LambdaTree.Term.Note

namespace LambdaTree.Recipe

/-- The functions that a description may name. -/
inductive Function where
  | identity
  | wrap
  | length
  | toNumber
  | shown
  | concat
  | pair
  | first
  | append
  | add
  | subtract
  | multiply
  | variableTerm
  | abstraction
  | application
deriving DecidableEq

namespace Function

def name : Function → String
  | .identity => "id"
  | .wrap => "wrap"
  | .length => "len"
  | .toNumber => "int"
  | .shown => "str"
  | .concat => "concat"
  | .pair => "pair"
  | .first => "first"
  | .append => "cat"
  | .add => "add"
  | .subtract => "sub"
  | .multiply => "mul"
  | .variableTerm => "var"
  | .abstraction => "abs"
  | .application => "app"

def all : List Function :=
  [.identity, .wrap, .length, .toNumber, .shown, .concat, .pair, .first, .append, .add, .subtract,
    .multiply, .variableTerm, .abstraction, .application]

def named? (name : String) : Option Function :=
  all.find? fun function => function.name == name

end Function

inductive Value where
  | null
  | text (value : String)
  | number (value : Int)
  | list (values : List Value)
  | token (value : Token)
  | term (value : Term (Option Note))
  /-- A function with the arguments that it already has. -/
  | closure (function : Function) (arguments : List Value)

namespace Value

def ofItem : Item → Value
  | .text value => .text value
  | .number value => .number value
  | .token value => .token value

/-- The symbol that a parser read, as a value. -/
def ofSymbol [Symbol ι] (symbol : ι) : Value :=
  ofItem (Symbol.item symbol)

mutual

/-- A value as a text that shows its structure. -/
def describe : Value → String
  | .null => "None"
  | .text value => Text.quote value
  | .number value => toString value
  | .list values => "[" ++ String.intercalate ", " (describeAll values) ++ "]"
  | .token value => value.text
  | .term value => value.describe
  | .closure function _ => function.name

def describeAll : List Value → List String
  | [] => []
  | value :: values => value.describe :: describeAll values

end

/-- The term that a value is. -/
def toTerm : Value → Except Fault (Term (Option Note))
  | .term value => .ok value
  | value => .error (.notTerm value.describe)

/-- The texts that values are. -/
def texts? : List Value → Option (List String)
  | [] => some []
  | .text value :: values => (texts? values).map (value :: ·)
  | _ :: _ => none

end Value

/-- The number that decimal digits spell. -/
def decimal? (digits : List Char) : Option Nat :=
  if digits ≠ [] ∧ digits.all Char.isDigit then
    some (digits.foldl (fun n digit => 10 * n + (digit.toNat - '0'.toNat)) 0)
  else
    none

/-- A function applied to one more argument, after those that it has. -/
def Function.call (function : Function) (arguments : List Value) (argument : Value) :
    Except Fault Value :=
  match function, arguments, argument with
  | .identity, [], value => .ok value
  | .wrap, [], value => .ok (.list [value])
  | .length, [], .text value => .ok (.number value.length)
  | .length, [], .list values => .ok (.number values.length)
  | .toNumber, [], .text value =>
    match decimal? value.toList with
    | some n => .ok (.number n)
    | none => .error (.misapplied function.name)
  | .shown, [], .token value => .ok (.text value.text)
  | .shown, [], .text value => .ok (.text value)
  | .shown, [], value => .ok (.text value.describe)
  | .concat, [], .list values =>
    match Value.texts? values with
    | some texts => .ok (.text (String.join texts))
    | none => .error (.misapplied function.name)
  | .pair, [], value => .ok (.closure .pair [value])
  | .pair, [left], right => .ok (.list [left, right])
  | .first, [], value => .ok (.closure .first [value])
  | .first, [left], _ => .ok left
  | .append, [], value => .ok (.closure .append [value])
  | .append, [.text left], .text right => .ok (.text (left ++ right))
  | .add, [], value => .ok (.closure .add [value])
  | .add, [.number left], .number right => .ok (.number (left + right))
  | .subtract, [], value => .ok (.closure .subtract [value])
  | .subtract, [.number left], .number right => .ok (.number (left - right))
  | .multiply, [], value => .ok (.closure .multiply [value])
  | .multiply, [.number left], .number right => .ok (.number (left * right))
  | .variableTerm, [], .text name => .ok (.term (.var none name))
  | .abstraction, [], value => .ok (.closure .abstraction [value])
  | .abstraction, [.text binder], .term body => .ok (.term (.abs none binder body))
  | .application, [], value => .ok (.closure .application [value])
  | .application, [.term func], .term arg => .ok (.term (.app none func arg))
  | _, _, _ => .error (.misapplied function.name)

/-- A value applied to an argument. -/
def Value.apply (value argument : Value) : Except Fault Value :=
  match value with
  | .closure function arguments => function.call arguments argument
  | _ => .error (.misapplied value.describe)

/-- A value applied to two arguments, one after the other. -/
def Value.apply₂ (value left right : Value) : Except Fault Value := do
  (← value.apply left).apply right

end LambdaTree.Recipe
