/-
  LambdaTree.Parser.Diagnostic

  Why a parser refused its input. A diagnostic has a cause, which is its first
  line, and further lines of detail; among them are the diagnostics of the
  parts that failed, indented below their first line. Of each part only the
  first lines are kept, so that a diagnostic grows with the number of its
  parts and not with their depth.
-/

import LambdaTree.Text.Lines

namespace LambdaTree

/-- What a refusal was about. -/
inductive Cause where
  /-- A parser that always fails, with the first line of its message. -/
  | stated (line : String)
  | endOfInput
  /-- The first symbol did not pass the test. -/
  | rejected
  /-- The first part of a sequence failed. -/
  | function
  /-- The second part of a sequence failed. -/
  | argument
  | noAlternatives
  | allAlternatives
  /-- Input was left over. -/
  | leftover
deriving DecidableEq

/-- The line that states a cause. -/
def Cause.line : Cause → String
  | .stated line => "FAILURE: " ++ line
  | .endOfInput => "SATISFY: Unexpected end of input"
  | .rejected => "SATISFY: Failed to satisfy condition at"
  | .function => "SEQ: Failed to parse function"
  | .argument => "SEQ: Failed to parse argument"
  | .noAlternatives => "ALT: No alternatives given"
  | .allAlternatives => "ALT: All alternatives failed"
  | .leftover => "COMPLETE: Parser did not consume entire input"

structure Diagnostic where
  cause : Cause
  details : List String
deriving DecidableEq

namespace Diagnostic

/-- All lines, the cause first. -/
def lines (diagnostic : Diagnostic) : List String :=
  diagnostic.cause.line :: diagnostic.details

def message (diagnostic : Diagnostic) : String :=
  Text.unlines diagnostic.lines

/-- How many lines of a part are kept beside its first. -/
def nestedLimit : Nat := 12

/-- Keeps the first lines; when there are more than the limit, the last of the kept
    lines says so. -/
def shorten (lines : List String) : List String :=
  if lines.length ≤ nestedLimit then lines else lines.take (nestedLimit - 1) ++ ["..."]

/-- The lines of a part, below the line that it is a part of. -/
def indent : List String → List String
  | [] => []
  | first :: others => ("  - " ++ first) :: (shorten others).map ("    " ++ ·)

/-- A cause and the lines of its parts. -/
def nest (cause : Cause) (parts : List (List String)) : Diagnostic :=
  ⟨cause, parts.flatMap indent⟩

/-- The diagnostic of a parser that always fails with a message. -/
def stated (message : String) : Diagnostic :=
  match Text.lines message with
  | [] => ⟨.stated "", []⟩
  | first :: others => ⟨.stated first, others⟩

end Diagnostic

end LambdaTree
