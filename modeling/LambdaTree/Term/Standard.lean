/-
  LambdaTree.Term.Standard

  Well-known terms, ready made.
-/

import LambdaTree.Term.Note

namespace LambdaTree.Term.Standard

def x : Term (Option Note) := .var none "x"

def y : Term (Option Note) := .var none "y"

def z : Term (Option Note) := .var none "z"

def f : Term (Option Note) := .var none "f"

/-- Gives back its argument. -/
def identity : Term (Option Note) := .abs none "x" x

/-- Gives back the first of two arguments. -/
def constant : Term (Option Note) := .abs none "x" (.abs none "y" x)

/-- Hands its third argument to the first two. -/
def distribute : Term (Option Note) :=
  .abs none "x" (.abs none "y" (.abs none "z" (.app none (.app none x z) (.app none y z))))

/-- Applies `f` to what comes of applying an argument to itself. -/
def selfApply : Term (Option Note) := .abs none "x" (.app none f (.app none x x))

/-- A fixed point of its argument. -/
def fixpoint : Term (Option Note) := .abs none "f" (.app none selfApply selfApply)

/-- The well-known terms by their customary letters. -/
def named? : String → Option (Term (Option Note))
  | "I" => some identity
  | "K" => some constant
  | "S" => some distribute
  | "Y" => some fixpoint
  | "x" => some x
  | "y" => some y
  | "z" => some z
  | "f" => some f
  | _ => none

end LambdaTree.Term.Standard
