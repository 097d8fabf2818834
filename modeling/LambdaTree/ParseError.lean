/-
  LambdaTree.ParseError

  Why a source text is no term: a reason, the place, the stage of reading that
  noticed it, and the diagnostic of the parser as detail.
-/

import LambdaTree.Span
import LambdaTree.Text.Quoted

namespace LambdaTree

/-- The part of reading that refused a text. -/
inductive Stage where
  | tokenize
  | grammar
  | complete
  /-- A stage of one's own. -/
  | named (name : String)
deriving DecidableEq

def Stage.text : Stage → String
  | .tokenize => "tokenize"
  | .grammar => "grammar"
  | .complete => "complete"
  | .named name => name

inductive Reason where
  | unexpectedCharacter (character : Char)
  | unexpectedToken
  | endOfInput
  | trailingInput
  | tooDeep
  /-- A reason of one's own. -/
  | stated (text : String)
deriving DecidableEq

def Reason.text : Reason → String
  | .unexpectedCharacter character =>
    "Unexpected character " ++ Text.quote (String.singleton character)
  | .unexpectedToken => "Unexpected token"
  | .endOfInput => "Unexpected end of input"
  | .trailingInput => "Unexpected trailing input"
  | .tooDeep => "Expression nested too deeply"
  | .stated text => text

structure ParseError where
  reason : Reason
  span : Span
  source : Option String
  stage : Stage
  detail : String
deriving DecidableEq

namespace ParseError

/-- The reason and the place, with the source text there when the source is known. -/
def message (error : ParseError) : String :=
  let place := error.reason.text ++ " @ " ++ toString error.span.start ++ ":" ++
    toString error.span.stop
  match error.source with
  | none => place
  | some source => place ++ ": " ++ Text.quote (error.span.extract source)

/-- All parts of an error. -/
def describe (error : ParseError) : String :=
  let source := match error.source with
    | none => "None"
    | some source => Text.quote source
  "ParseError(message=" ++ Text.quote error.reason.text ++ ", span=" ++ error.span.describe ++
    ", source=" ++ source ++ ", stage=" ++ Text.quote error.stage.text ++ ", detail=" ++
    Text.quote error.detail ++ ")"

end ParseError

end LambdaTree
