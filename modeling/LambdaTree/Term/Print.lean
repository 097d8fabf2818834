/-
  LambdaTree.Term.Print

  Terms as source text. The body of an abstraction runs to the right as far as
  it can and application associates to the left, so parentheses go around an
  abstraction that is applied and around every argument that is no variable.
-/

import LambdaTree.Term.Fold

namespace LambdaTree

/-- How tightly a printed term holds together. -/
inductive Binding where
  | abstraction
  | application
  | atom
deriving DecidableEq

namespace Binding

def rank : Binding → Nat
  | .abstraction => 0
  | .application => 1
  | .atom => 2

/-- Whether a function of this binding needs parentheses. -/
def wrapsFunction (binding : Binding) : Bool := binding == .abstraction

/-- Whether an argument of this binding needs parentheses. -/
def wrapsArgument (binding : Binding) : Bool := binding.rank < Binding.atom.rank

end Binding

/-- A term's text and how tightly it holds together. -/
structure Printed where
  text : String
  binding : Binding
deriving DecidableEq

namespace Printed

def parenthesise (text : String) (wrap : Bool) : String :=
  if wrap then "(" ++ text ++ ")" else text

def abs (binder : String) (body : Printed) : Printed :=
  ⟨"λ" ++ binder ++ "." ++ body.text, .abstraction⟩

def app (func arg : Printed) : Printed :=
  ⟨parenthesise func.text func.binding.wrapsFunction ++ " " ++
    parenthesise arg.text arg.binding.wrapsArgument, .application⟩

def var (name : String) : Printed :=
  ⟨name, .atom⟩

end Printed

/-- The source text of a term. -/
def Term.print (t : Term α) : String :=
  (t.fold Printed.abs Printed.app Printed.var).text

end LambdaTree
