/-
  LambdaTree.Parser.Run

  What a parser does with an input. `Parser.exec` follows the parser; where the
  parser calls a rule it goes to a meaning of the rules that it is given, and
  `callAt` is the meaning in which rules call each other to a bounded depth. A
  run keeps a session: the table of remembered answers, which exists only
  inside a run, and the lengths recorded so far.

  A constructor that does more than pass its parts on has a step of its own:
  `satisfy` has `accept`, `choice` has `tryEach`, `complete` has `requireEnd`,
  `many` has `iterate`, `memo` has `remember`, `measure` has `countRead` and
  `tally` has `recordLength`. The others are read off `exec` itself.
-/

import LambdaTree.Parser.Table

namespace LambdaTree

/-- Why a run gave no answer. -/
inductive Halt where
  /-- Rules called each other beyond the depth allowed. -/
  | tooDeep
  | fault (fault : Fault)
deriving DecidableEq

/-- Names with the lengths of input recorded under them, in order. -/
abbrev Tally := Array (String × Nat)

structure Session (ι : Type) (σ : Signature) where
  /-- The remembered answers; outside a run there is no table. -/
  table : Option (Table ι σ)
  tally : Tally

/-- Computations in a session. What happened before a halt stays in the session. -/
abbrev Run (ι : Type) (σ : Signature) := ExceptT Halt (StateM (Session ι σ))

namespace Run

variable {ι α : Type} {σ : Signature}

/-- A computation that may meet a fault. -/
@[inline] def check (result : Except Fault α) : Run ι σ α :=
  match result with
  | .ok value => pure value
  | .error fault => throw (.fault fault)

end Run

namespace Parser

variable {ι α β : Type} {σ : Signature}

/-! ## The steps of a run -/

/-- The step of `satisfy`: the first symbol if it passes the test. A refusal stays at the
    input and shows the symbols there. -/
def accept [Symbol ι] (test : ι → Except Fault Bool) (input : Input ι) :
    Except Fault (Reply ι ι) := do
  if ← input.exceeds 0 then
    let symbol ← input.first
    if ← test symbol then
      return .success symbol (← input.rest)
    else
      return .failure (.nest .rejected [Text.lines (← input.preview)]) input
  else
    return .failure ⟨.endOfInput, []⟩ input

/-- Of some places of one input, the first of those with the least input left. -/
def furthest (best : Input ι) : List (Input ι) → Except Fault (Input ι)
  | [] => do
    let _ ← best.length
    return best
  | place :: places => do
    if (← place.length) < (← best.length) then
      furthest place places
    else
      furthest best places

/-- The answer when every alternative failed: a refusal with all their diagnostics, at the
    furthest place that one of them reached. -/
def allFailed (input : Input ι) (failures : List (Diagnostic × Input ι)) :
    Except Fault (Reply ι α) :=
  match failures with
  | [] => .ok (.failure ⟨.noAlternatives, []⟩ input)
  | first :: others => do
    let place ← furthest first.2 (others.map Prod.snd)
    return .failure (.nest .allAlternatives (failures.map fun failure => failure.1.lines)) place

/-- The step of `choice`: tries alternatives in order, with the failures so far, the latest
    first. -/
def tryEach (input : Input ι) :
    List (Run ι σ (Reply ι α)) → List (Diagnostic × Input ι) → Run ι σ (Reply ι α)
  | [], failures => Run.check (allFailed input failures.reverse)
  | alternative :: alternatives, failures => do
    match ← alternative with
    | .success value rest => return .success value rest
    | .failure diagnostic rest => tryEach input alternatives ((diagnostic, rest) :: failures)

/-- The step of `complete`: turns a success into a failure when input is left over. -/
def requireEnd [Symbol ι] : Reply ι α → Except Fault (Reply ι α)
  | .failure diagnostic rest => .ok (.failure diagnostic rest)
  | .success value rest => do
    if ← rest.exceeds 0 then
      let shown ← rest.preview
      return .failure (.nest .leftover [Text.lines ("Remaining: " ++ shown)]) rest
    else
      return .success value rest

/-- The step of `many`: repeats until a failure, or a success with no less input left. What
    a failure read is given back. -/
def iterate (step : Input ι → Run ι σ (Reply ι α)) (input : Input ι) :
    Run ι σ (List α × Input ι) := do
  match ← step input with
  | .failure _ _ => return ([], input)
  | .success value rest =>
    let _ ← Run.check rest.length
    let _ ← Run.check input.length
    if rest.size < input.size then
      let (values, last) ← iterate step rest
      return (value :: values, last)
    else
      return ([value], rest)
termination_by input.size

/-- The step of `memo`: answers from the table, or computes the answer and puts it there.
    Where there is no table, the answer is computed each time. -/
def remember (cell : σ.Cell) (input : Input ι) (compute : Run ι σ (Reply ι (σ.cellValue cell))) :
    Run ι σ (Reply ι (σ.cellValue cell)) := do
  match (← get).table with
  | none => compute
  | some table =>
    let length ← Run.check input.length
    match table.find? cell length with
    | some reply => return reply
    | none =>
      let reply ← compute
      modify fun session =>
        { session with table := session.table.map (·.insert cell length reply) }
      return reply

/-- The step of `measure`: pairs a value with the number of symbols that were read. -/
def countRead (input : Input ι) : Reply ι α → Except Fault (Reply ι (α × Int))
  | .failure diagnostic rest => .ok (.failure diagnostic rest)
  | .success value rest => do
    let before ← input.length
    let after ← rest.length
    return .success (value, (before : Int) - after) rest

/-- The step of `tally`: records the length of the input under a name. -/
def recordLength (name : String) (input : Input ι) : Run ι σ Unit := do
  let length ← Run.check input.length
  modify fun session => { session with tally := session.tally.push (name, length) }

/-! ## Running a parser -/

/-- What a parser does with an input, for a given meaning of the rules. -/
def exec [Symbol ι] (call : (name : σ.Rule) → Input ι → Run ι σ (Reply ι (σ.ruleValue name))) :
    {α : Type} → Parser ι σ α → Input ι → Run ι σ (Reply ι α)
  | _, .succeed value, input => return .success value input
  | _, .fail message, input => return .failure (.stated message) input
  | _, .satisfy test, input => Run.check (accept test input)
  | _, .seq function argument, input => do
    match ← exec call function input with
    | .failure diagnostic rest => return .failure (.nest .function [diagnostic.lines]) rest
    | .success f middle =>
      match ← exec call argument middle with
      | .failure diagnostic rest => return .failure (.nest .argument [diagnostic.lines]) rest
      | .success value rest => return .success (← Run.check (f value)) rest
  | _, .choice _ alternative, input =>
    tryEach input (List.ofFn fun i => exec call (alternative i) input) []
  | _, .complete parser, input => do Run.check (requireEnd (← exec call parser input))
  | _, .rule name, input => call name input
  | _, .many parser, input => do
    let (values, rest) ← iterate (exec call parser) input
    return .success values rest
  | _, .memo cell parser, input => remember cell input (exec call parser input)
  | _, .measure parser, input => do Run.check (countRead input (← exec call parser input))
  | _, .tally name parser, input => do
    recordLength name input
    exec call parser input
  | _, .map change parser, input => return (← exec call parser input).map change

/-- The meaning of rules that may call each other to a given depth. -/
def callAt [Symbol ι] (rules : Rules ι σ) :
    (depth : Nat) → (name : σ.Rule) → Input ι → Run ι σ (Reply ι (σ.ruleValue name))
  | 0, _, _ => throw .tooDeep
  | depth + 1, name, input => exec (callAt rules depth) (rules name) input

/-- What a parser answers outside a run, where nothing is remembered. -/
def reply [Symbol ι] (rules : Rules ι σ) (depth : Nat) (parser : Parser ι σ α) (input : Input ι)
    (tally : Tally) : Except Halt (Reply ι α) × Tally :=
  let (result, session) := (exec (callAt rules depth) parser input).run.run ⟨none, tally⟩
  (result, session.tally)

/-- Why a run gave no value. -/
inductive Stop (ι : Type) where
  /-- The parser refused the input. -/
  | refused (diagnostic : Diagnostic) (rest : Input ι)
  | halted (halt : Halt)

/-- The value of an answer. -/
def Stop.ofReply : Except Halt (Reply ι α) → Except (Stop ι) α
  | .ok (.success value _) => .ok value
  | .ok (.failure diagnostic rest) => .error (.refused diagnostic rest)
  | .error halt => .error (.halted halt)

/-- Runs a parser on an input, which is read through a cursor, with a table of its own. -/
def run [Symbol ι] (rules : Rules ι σ) (depth : Nat) (parser : Parser ι σ α) (input : Input ι)
    (tally : Tally) : Except (Stop ι) α × Tally :=
  let (result, session) :=
    (exec (callAt rules depth) parser input.toCursor).run.run ⟨some .empty, tally⟩
  (Stop.ofReply result, session.tally)

end Parser

end LambdaTree
