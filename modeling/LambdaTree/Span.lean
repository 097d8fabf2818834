/-
  LambdaTree.Span

  Stretches of a source text, counted in characters. A span is two numbers;
  it may name places that the text does not have.
-/

import LambdaTree.Slice

namespace LambdaTree

/-- From `start` to before `stop`. -/
structure Span where
  start : Int
  stop : Int
deriving DecidableEq, Inhabited

namespace Span

/-- The empty span at a place. -/
def point (place : Int) : Span := ⟨place, place⟩

/-- The text that a span covers. -/
def extract (span : Span) (source : String) : String :=
  String.ofList (Slice.between span.start span.stop source.toList)

def describe (span : Span) : String :=
  "Span(start=" ++ toString span.start ++ ", end=" ++ toString span.stop ++ ")"

end Span

end LambdaTree
