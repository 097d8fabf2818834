/-
  LambdaTree.Fault

  What can go wrong when an operation is asked for something that its operand
  does not have. A fault is not a parser's refusal of its input: it ends the
  operation that meets it.
-/

namespace LambdaTree

/-- What an index ran out of. -/
inductive Container where
  | text
  | list
  | children
deriving DecidableEq

def Container.name : Container → String
  | .text => "string"
  | .list => "list"
  | .children => "tuple"

inductive Fault where
  /-- The length of a cursor that stands beyond the end of its data. -/
  | negativeLength
  /-- A position, counted from the start of a cursor, that it does not have. -/
  | badIndex (position : Int)
  /-- An index outside the data itself. -/
  | outOfRange (container : Container)
  /-- A slice whose step is zero. -/
  | zeroStep
  /-- A search that found nothing. -/
  | absent
  /-- The hash of a cursor. -/
  | unhashable
  /-- The size of a term that carries none, with the term's description. -/
  | unsized (description : String)
  /-- A value used as a term that is none, with the value's description. -/
  | notTerm (description : String)
  /-- A symbol asked for a part that symbols of its kind do not have. -/
  | lacks (kind part : String)
  /-- A function applied to a value outside its domain. -/
  | misapplied (function : String)
  /-- A reference to a rule that nobody defined. -/
  | undefinedRule (name : String)
deriving DecidableEq

/-- The text of a fault. -/
def Fault.message : Fault → String
  | .negativeLength => "__len__() should return >= 0"
  | .badIndex position => toString position
  | .outOfRange container => container.name ++ " index out of range"
  | .zeroStep => "slice step cannot be zero"
  | .absent => ""
  | .unhashable => "unhashable type: 'Stream'"
  | .unsized description => "Expression has not been sized:\n  expr = " ++ description
  | .notTerm description => "Unexpected expression in match_expr:\n  expr = " ++ description
  | .lacks kind part => "'" ++ kind ++ "' object has no attribute '" ++ part ++ "'"
  | .misapplied function => "not in the domain of " ++ function
  | .undefinedRule name => "undefined rule " ++ name

end LambdaTree
