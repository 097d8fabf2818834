/-
  LambdaTree.Proofs.Parser.Transparency

  A parser with its memos and the same parser without them cannot be told apart
  by running them: one ends on an input if and only if the other does, with the
  same value, the same refusal or the same fault.  Rules may call each other to
  any depth, so a run ends when some depth of calls is enough for it.

  The memos of a parser have identities of their own: the cell of a memo
  determines what is remembered in it.  For the grammar this is
  `Grammar.rules_remembers`.
-/

import LambdaTree.Grammar
import LambdaTree.Proofs.Parser.Memo

namespace LambdaTree

namespace Parser

variable {ι α : Type} {σ : Signature}

/-! ## Parsers without memos -/

/-- The same parser without its memos. -/
def unmemo : {α : Type} → Parser ι σ α → Parser ι σ α
  | _, .succeed value => .succeed value
  | _, .fail message => .fail message
  | _, .satisfy test => .satisfy test
  | _, .seq function argument => .seq function.unmemo argument.unmemo
  | _, .choice count alternative => .choice count fun i => (alternative i).unmemo
  | _, .complete parser => .complete parser.unmemo
  | _, .rule name => .rule name
  | _, .many parser => .many parser.unmemo
  | _, .memo _ parser => parser.unmemo
  | _, .measure parser => .measure parser.unmemo
  | _, .tally name parser => .tally name parser.unmemo
  | _, .map change parser => .map change parser.unmemo

/-- The same rules without their memos. -/
def unmemoRules (rules : Rules ι σ) : Rules ι σ :=
  fun name => (rules name).unmemo

/-- What is remembered plays no part in what a parser means. -/
theorem eval_unmemo [Symbol ι] (call : Calls ι σ) (p : Parser ι σ α) :
    eval call p.unmemo = eval call p := by
  induction p with
  | succeed value => rfl
  | fail message => rfl
  | satisfy test => rfl
  | rule name => rfl
  | seq function argument ihf iha =>
      funext input
      simp only [unmemo, eval, ihf, iha]
  | choice count alternative ih =>
      funext input
      simp only [unmemo, eval, ih]
  | complete p ih =>
      funext input
      simp only [unmemo, eval, ih]
  | many p ih =>
      funext input
      simp only [unmemo, eval, ih]
  | memo cell p ih => exact ih
  | measure p ih =>
      funext input
      simp only [unmemo, eval, ih]
  | tally name p ih =>
      funext input
      simp only [unmemo, eval, ih]
  | map change p ih =>
      funext input
      simp only [unmemo, eval, ih]

theorem callsAt_unmemo [Symbol ι] (rules : Rules ι σ) (depth : Nat) :
    callsAt (unmemoRules rules) depth = callsAt rules depth := by
  induction depth with
  | zero => rfl
  | succ depth ih =>
      funext name input
      rw [callsAt, callsAt, ih, unmemoRules, eval_unmemo]

theorem evalAt_unmemo [Symbol ι] (rules : Rules ι σ) (depth : Nat) (p : Parser ι σ α)
    (input : Input ι) :
    evalAt (unmemoRules rules) depth p.unmemo input = evalAt rules depth p input := by
  rw [evalAt, evalAt, callsAt_unmemo, eval_unmemo]

/-- Without memos there is nothing that a cell could be used for twice. -/
theorem unmemo_remembers (body : (cell : σ.Cell) → Parser ι σ (σ.cellValue cell))
    (p : Parser ι σ α) : p.unmemo.Remembers body := by
  induction p with
  | succeed value => trivial
  | fail message => trivial
  | satisfy test => trivial
  | rule name => trivial
  | seq function argument ihf iha => exact ⟨ihf, iha⟩
  | choice count alternative ih => exact ih
  | complete p ih => exact ih
  | many p ih => exact ih
  | memo cell p ih => exact ih
  | measure p ih => exact ih
  | tally name p ih => exact ih
  | map change p ih => exact ih

end Parser

/-! ## The cells of the grammar -/

namespace Grammar

variable {ι : Type} [Symbol ι] {σ : Signature}

open LambdaTree.Parser

/-- What the cells of the grammar hold, beside what other cells hold. -/
def cellParser (others : (cell : σ.Cell) → Parser ι (signature σ) (σ.cellValue cell)) :
    (cell : (signature σ).Cell) → Parser ι (signature σ) ((signature σ).cellValue cell)
  | .expression => .rule (σ := signature σ) Rule.expression
  | .term => firstOf [parenthesised, abstraction, variableTerm]
  | .other cell => others cell

section

variable (others : (cell : σ.Cell) → Parser ι (signature σ) (σ.cellValue cell))

theorem expression_remembers :
    (expression : Parser ι (signature σ) _).Remembers (cellParser others) :=
  ⟨rfl, trivial⟩

theorem term_remembers : (term : Parser ι (signature σ) _).Remembers (cellParser others) := by
  refine ⟨rfl, fun i => ?_⟩
  match i with
  | 0 => exact ⟨⟨trivial, trivial⟩, ⟨trivial, expression_remembers others⟩, trivial⟩
  | 1 => exact ⟨⟨trivial, ⟨trivial, ⟨trivial, ⟨trivial, trivial⟩, trivial⟩, trivial⟩⟩,
      expression_remembers others⟩
  | 2 => exact ⟨trivial, trivial, trivial⟩

/-- The rules of the grammar use each cell for one parser only. -/
theorem rules_remembers {rest : (name : σ.Rule) → Parser ι (signature σ) (σ.ruleValue name)}
    (hrest : ∀ name, (rest name).Remembers (cellParser others)) (name : (signature σ).Rule) :
    ((rules rest) name).Remembers (cellParser others) := by
  cases name with
  | other name => exact hrest name
  | expression =>
      intro i
      match i with
      | 0 => exact ⟨⟨trivial, term_remembers others⟩,
          ⟨⟨trivial, trivial⟩, term_remembers others⟩⟩
      | 1 => exact term_remembers others

end

/-- The rules of the grammar alone. -/
def ownRules : Rules ι (signature Signature.none) :=
  rules nofun

/-- What the cells of the grammar hold, when there are no others. -/
def ownCells :
    (cell : (signature Signature.none).Cell) →
      Parser ι (signature Signature.none) ((signature Signature.none).cellValue cell) :=
  cellParser (σ := Signature.none) nofun

theorem ownRules_remembers (name : (signature Signature.none).Rule) :
    (ownRules name : Parser ι _ _).Remembers ownCells :=
  rules_remembers (σ := Signature.none) nofun nofun name

theorem wholeExpression_remembers :
    (wholeExpression : Parser ι (signature Signature.none) _).Remembers ownCells :=
  expression_remembers (σ := Signature.none) nofun

end Grammar

/-! ## Runs that end -/

namespace Parser

variable {ι α : Type} {σ : Signature}

/-- A run with unbounded depth ends with an outcome: some depth of calls is enough, and
    the outcome is what the run gives at that depth. -/
def Ends [Symbol ι] (rules : Rules ι σ) (p : Parser ι σ α) (input : Input ι) (tally : Tally)
    (outcome : Except (Stop ι) α) : Prop :=
  outcome ≠ .error (.halted .tooDeep) ∧ ∃ depth, (run rules depth p input tally).1 = outcome

theorem Stop.ofReply_ne_tooDeep {r : Except Halt (Reply ι α)} :
    Stop.ofReply r ≠ .error (.halted .tooDeep) ↔ r ≠ .error .tooDeep := by
  rcases r with halt | reply
  · simp [Stop.ofReply]
  · cases reply <;> simp [Stop.ofReply]

/-- A run ends with the answers of its parser. -/
theorem ends_iff_evalAt [Symbol ι] {rules : Rules ι σ}
    {body : (cell : σ.Cell) → Parser ι σ (σ.cellValue cell)}
    (hrules : ∀ name, (rules name).Remembers body) {p : Parser ι σ α} (hp : p.Remembers body)
    {input : Input ι} (hi : input.Within) (tally : Tally) (outcome : Except (Stop ι) α) :
    Ends rules p input tally outcome ↔
      ∃ depth, evalAt rules depth p input.toCursor ≠ .error .tooDeep ∧
        outcome = Stop.ofReply (evalAt rules depth p input.toCursor) := by
  constructor
  · -- The run may have found its answer in the table, so it is that of a greater depth.
    rintro ⟨hne, depth, rfl⟩
    obtain ⟨r, hr, -, k, hk⟩ := run_between_evalAt hrules hp hi depth tally
    rw [hr] at hne ⊢
    have hrk := hk.eq_of_ne (Stop.ofReply_ne_tooDeep.mp hne)
    exact ⟨k, hrk ▸ Stop.ofReply_ne_tooDeep.mp hne, by rw [hrk]⟩
  · -- A depth that is enough without memos is enough with them.
    rintro ⟨depth, hne, rfl⟩
    obtain ⟨r, hr, hlow, -⟩ := run_between_evalAt hrules hp hi depth tally
    refine ⟨Stop.ofReply_ne_tooDeep.mpr hne, depth, ?_⟩
    rw [hr, hlow.eq_of_ne hne]

/-- Memos are transparent.  Let every cell have its own parser, and let the input be a
    plain sequence or a cursor within its data.  Whatever earlier runs have recorded, a
    run ends with an outcome (a value, a refusal with its diagnostic and place, or a
    fault) exactly when the run without memos does, and no run has two outcomes. -/
theorem ends_unmemo_iff [Symbol ι] {rules : Rules ι σ}
    {body : (cell : σ.Cell) → Parser ι σ (σ.cellValue cell)}
    (hrules : ∀ name, (rules name).Remembers body) {p : Parser ι σ α} (hp : p.Remembers body)
    {input : Input ι} (hi : input.Within) (tally tally' : Tally) :
    (∀ outcome, Ends rules p input tally outcome ↔
      Ends (unmemoRules rules) p.unmemo input tally' outcome) ∧
    (∀ outcome outcome', Ends rules p input tally outcome →
      Ends (unmemoRules rules) p.unmemo input tally' outcome' → outcome = outcome') := by
  have hbare : ∀ name, (unmemoRules rules name).Remembers body :=
    fun name => unmemo_remembers body (rules name)
  -- Both runs are brought to the answers of the one parser without a session.
  have hplain (outcome : Except (Stop ι) α) :
      Ends (unmemoRules rules) p.unmemo input tally' outcome ↔
        ∃ depth, evalAt rules depth p input.toCursor ≠ .error .tooDeep ∧
          outcome = Stop.ofReply (evalAt rules depth p input.toCursor) := by
    rw [ends_iff_evalAt hbare (unmemo_remembers body p) hi]
    simp only [evalAt_unmemo]
  refine ⟨fun outcome => ?_, fun outcome outcome' h h' => ?_⟩
  · exact (ends_iff_evalAt hrules hp hi tally outcome).trans (hplain outcome).symm
  · obtain ⟨m, hm, rfl⟩ := (ends_iff_evalAt hrules hp hi tally outcome).mp h
    obtain ⟨n, hn, rfl⟩ := (hplain outcome').mp h'
    rw [evalAt_unique rules hm hn]

/-- Reading `x` behind an open parenthesis, through a cursor: with and without memos the
    run ends with the variable. -/
theorem wholeExpression_ends_unmemo :
    let input : Input Token := .view ⟨.symbols #[⟨.openParen, ⟨0, 1⟩⟩, ⟨.word "x", ⟨1, 2⟩⟩], 1⟩
    input.Within ∧
      (∀ name, (Grammar.ownRules name : Parser Token _ _).Remembers Grammar.ownCells) ∧
      (Grammar.wholeExpression : Parser Token _ _).Remembers Grammar.ownCells ∧
      Ends Grammar.ownRules Grammar.wholeExpression input #[] (.ok (.var none "x")) ∧
      Ends (unmemoRules Grammar.ownRules) Grammar.wholeExpression.unmemo input #[]
        (.ok (.var none "x")) := by
  intro input
  have hi : input.Within := ⟨by decide, 2, rfl, by decide⟩
  have hends : Ends Grammar.ownRules Grammar.wholeExpression input #[] (.ok (.var none "x")) :=
    ⟨by simp, 1, by with_unfolding_all rfl⟩
  have hiff := ends_unmemo_iff Grammar.ownRules_remembers Grammar.wholeExpression_remembers hi
    #[] #[]
  exact ⟨hi, Grammar.ownRules_remembers, Grammar.wholeExpression_remembers, hends,
    (hiff.1 _).mp hends⟩

end Parser

end LambdaTree
