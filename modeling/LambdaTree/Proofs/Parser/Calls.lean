/-
  LambdaTree.Proofs.Parser.Calls

  Calling a parser outside a run.  There is no table then, and the answer is
  that of the parser without a session (`reply_eq_evalAt`): what a call answers
  does not depend on what was recorded before, and a deeper bound on the rules
  only turns calls that were too deep into answers.

  A call on a cursor and a call on the plain sequence of the symbols from its
  offset on therefore end together, with like answers.
-/

import LambdaTree.Proofs.Parser.Transparency

namespace LambdaTree

variable {ι α : Type} {σ : Signature}

/-! ## Calls without a table -/

/-- A computation that lies between an answer and the same answer gives it. -/
theorem Run.Between.eq {Inv : Session ι σ → Prop} {r : Except Halt α} {m : Run ι σ α}
    (h : Run.Between Inv r (fun _ => r) m) {s : Session ι σ} (hs : Inv s) : m.result s = r := by
  obtain ⟨-, hlow, n, hhigh⟩ := h s hs
  rcases hhigh with hdeep | heq
  · rw [hdeep] at hlow ⊢
    exact (hlow.elim id id).symm
  · exact heq

namespace Parser

variable [Symbol ι]

/-- Where there is no table, a parser does what it does without a session. -/
theorem exec_without_table
    {call : (name : σ.Rule) → Input ι → Run ι σ (Reply ι (σ.ruleValue name))} {calls : Calls ι σ}
    (hcall : ∀ name input, Run.Between (fun s => s.table = none) (calls name input)
      (fun _ => calls name input) (call name input)) (p : Parser ι σ α) (input : Input ι) :
    Run.Between (fun s => s.table = none) (eval calls p input) (fun _ => eval calls p input)
      (exec call p input) := by
  induction p generalizing input with
  | succeed value => exact .pure _
  | fail message => exact .pure _
  | satisfy test => exact .check _
  | seq function argument ihf iha =>
      refine (ihf input).bind_const (.const _) fun reply => ?_
      cases reply with
      | failure diagnostic rest => exact .pure _
      | success f middle =>
          refine (iha middle).bind_const (.const _) fun reply => ?_
          cases reply with
          | failure diagnostic rest => exact .pure _
          | success value rest =>
              exact (Run.Between.check _).bind_const (.const _) fun _ => .pure _
  | choice count alternative ih => exact tryEach_between (fun _ => .const _) (fun i => ih i input) []
  | complete p ih => exact (ih input).bind_const (.const _) fun _ => .check _
  | rule name => exact hcall name input
  | many p ih =>
      -- The loop may go on from any input, so none has to be ruled out.
      have hloop := @iterate_between ι _ σ (fun s => s.table = none) (fun _ => True) (eval calls p)
        (fun _ => eval calls p) (exec call p) (fun _ => .const _) (fun _ _ _ _ _ => trivial)
        (fun input _ => ih input) input trivial
      exact hloop.bind_const (.const _) fun _ => .pure _
  | memo cell p ih =>
      intro s hs
      have hrun : (exec call (.memo cell p) input).run.run s = (exec call p input).run.run s :=
        remember_none hs
      rw [Run.after, Run.result, hrun]
      exact ih input s hs
  | measure p ih => exact (ih input).bind_const (.const _) fun _ => .check _
  | tally name p ih =>
      exact recordLength_between (fun s tally hs => hs) name input (.const _) (ih input)
  | map change p ih => exact (ih input).bind_const (.const _) fun _ => .pure _

theorem callAt_without_table (rules : Rules ι σ) (depth : Nat) (name : σ.Rule) (input : Input ι) :
    Run.Between (fun s => s.table = none) (callsAt rules depth name input)
      (fun _ => callsAt rules depth name input) (callAt rules depth name input) := by
  induction depth generalizing name input with
  | zero => exact fun s hs => ⟨hs, Approx.refl _, 0, Approx.refl _⟩
  | succ depth ih => exact exec_without_table ih (rules name) input

/-- A call answers what its parser means. -/
theorem reply_eq_evalAt (rules : Rules ι σ) (depth : Nat) (p : Parser ι σ α) (input : Input ι)
    (tally : Tally) : (reply rules depth p input tally).1 = evalAt rules depth p input := by
  have hbetween := exec_without_table (callAt_without_table rules depth) p input
  exact hbetween.eq (s := ⟨none, tally⟩) rfl

/-! ## Calls that end -/

/-- A call with unbounded depth ends with an answer: some depth of calls is enough, and
    the answer is what the call gives at that depth. -/
def Answers (rules : Rules ι σ) (p : Parser ι σ α) (input : Input ι) (tally : Tally)
    (answer : Except Halt (Reply ι α)) : Prop :=
  answer ≠ .error .tooDeep ∧ ∃ depth, (reply rules depth p input tally).1 = answer

theorem answers_iff_evalAt {rules : Rules ι σ} {p : Parser ι σ α} {input : Input ι}
    {tally : Tally} {answer : Except Halt (Reply ι α)} :
    Answers rules p input tally answer ↔
      answer ≠ .error .tooDeep ∧ ∃ depth, evalAt rules depth p input = answer := by
  simp only [Answers, reply_eq_evalAt]

/-- Cursors and plain sequences.  Let a cursor stand within some symbols.  A call of a
    parser on the cursor ends if and only if the call on the plain sequence of the symbols
    from there on does.  Then both meet the same fault, or both succeed with the same
    value, or both fail with the same diagnostic; and what the first leaves is a cursor
    over the same symbols, what the second leaves is the plain sequence of the symbols
    from that cursor on. -/
theorem answers_cursor_iff_slice (rules : Rules ι σ) (p : Parser ι σ α) (data : Array ι) {k : Nat}
    (hk : k ≤ data.size) (tally tally' : Tally) :
    ((∃ answer, Answers rules p (.view ⟨.symbols data, k⟩) tally answer) ↔
      ∃ answer, Answers rules p (.plain (data.toList.drop k)) tally' answer) ∧
    ∀ answer answer', Answers rules p (.view ⟨.symbols data, k⟩) tally answer →
      Answers rules p (.plain (data.toList.drop k)) tally' answer' →
      Alike (Reply.Alike Eq (Input.SlicedAs data)) answer answer' := by
  have hsliced : Input.SlicedAs data (.view ⟨.symbols data, k⟩) (.plain (data.toList.drop k)) :=
    ⟨k, hk, rfl, rfl⟩
  have halike (depth : Nat) := evalAt_alike (bisimulation_slice data) rules depth p hsliced
  simp only [answers_iff_evalAt]
  refine ⟨⟨?_, ?_⟩, ?_⟩
  · rintro ⟨_, hne, depth, rfl⟩
    exact ⟨_, fun hdeep => hne (((halike depth).eq_error_iff _).mpr hdeep), depth, rfl⟩
  · rintro ⟨_, hne, depth, rfl⟩
    exact ⟨_, fun hdeep => hne (((halike depth).eq_error_iff _).mp hdeep), depth, rfl⟩
  · -- The two calls may have been given different depths; the first depth serves both.
    rintro _ _ ⟨hne, m, rfl⟩ ⟨hne', n, rfl⟩
    have hm : evalAt rules m p (.plain (data.toList.drop k)) ≠ .error .tooDeep :=
      fun hdeep => hne (((halike m).eq_error_iff _).mpr hdeep)
    rw [← evalAt_unique rules hm hne']
    exact halike m

/-- Between parentheses, a word is read as a variable, on a cursor and on the plain
    sequence, and both are left before the closing parenthesis. -/
theorem answers_expression_between_parentheses :
    let data : Array Token := #[⟨.openParen, ⟨0, 1⟩⟩, ⟨.word "x", ⟨1, 2⟩⟩, ⟨.closeParen, ⟨2, 3⟩⟩]
    1 ≤ data.size ∧
      Answers Grammar.ownRules Grammar.expression (.view ⟨.symbols data, (1 : Nat)⟩) #[]
        (.ok (.success (.var none "x") (.view ⟨.symbols data, (2 : Nat)⟩))) ∧
      Answers Grammar.ownRules Grammar.expression (.plain (data.toList.drop 1)) #[]
        (.ok (.success (.var none "x") (.plain (data.toList.drop 2)))) := by
  intro data
  have hk : 1 ≤ data.size := by decide
  have hcursor : Answers Grammar.ownRules Grammar.expression
      (.view ⟨.symbols data, (1 : Nat)⟩) #[]
      (.ok (.success (.var none "x") (.view ⟨.symbols data, (2 : Nat)⟩))) :=
    ⟨by simp, 1, by with_unfolding_all rfl⟩
  obtain ⟨hends, halike⟩ := answers_cursor_iff_slice Grammar.ownRules
    (Grammar.expression : Parser Token _ _) data hk #[] #[]
  obtain ⟨answer, hslice⟩ := hends.mp ⟨_, hcursor⟩
  refine ⟨hk, hcursor, ?_⟩
  cases halike _ _ hcursor hslice with
  | ok hreply =>
      cases hreply with
      | success hvalue hplace =>
          -- The cursor that is left tells where the plain sequence was left.
          obtain ⟨j, -, hview, rfl⟩ := hplace
          obtain rfl : 2 = j := by
            simp only [Input.view.injEq, Cursor.mk.injEq] at hview
            omega
          rw [hvalue]
          exact hslice

end Parser

end LambdaTree
