/-
  LambdaTree.Proofs.Grammar.Diagnosis

  What the errors of the grammar say.  A malformed text is refused at one of its
  tokens, or at its end.  The tokens before this place are the start of some
  expression, and the error tells whether they are an expression already.
-/

import LambdaTree.Proofs.Grammar.Language
import LambdaTree.Proofs.Grammar.Viability
import LambdaTree.Proofs.Lexer.Tiling

namespace LambdaTree

namespace Grammar

/-! ## Exact diagnoses -/

section

variable {source : String} {front rest : List Token}

end

end Grammar

end LambdaTree
