/-
  LambdaTree.Text.Lines

  Texts as sequences of lines. A text always has at least one line, so a
  message is a first line and the lines that follow it.
-/

namespace LambdaTree.Text

/-- The lines of a text, split at every line feed. -/
def lines (text : String) : List String :=
  (text.toList.splitOn '\n').map String.ofList

/-- Puts lines back together, with a line feed between neighbours. -/
def unlines (parts : List String) : String :=
  String.intercalate "\n" parts

end LambdaTree.Text
