/-
  LambdaTree.Proofs.Grammar.NestingLimit

  What the limit on nesting does to reading: it refuses tokens, and does nothing
  else.  Tokens are refused for their nesting exactly when some start of an
  expression among them leaves more levels open than the limit allows
  (`parseTokensWithin_tooDeep_iff`); with any other limit they are read as with
  none (`parseTokensWithin_eq_of_ne_tooDeep`).

  A run that goes too deep is not taken for one that is refused: neither
  alternatives nor loops go on behind it (`choice_halts`, `many_halts`).
-/

import LambdaTree.Proofs.Grammar.Language
import LambdaTree.Proofs.Grammar.Overflow
import LambdaTree.Proofs.Grammar.Visits

namespace LambdaTree

/-! ## Halts are passed on -/

namespace Parser

variable {ι α : Type} {σ : Signature} {s : Session ι σ} {halt : Halt}

/-- The session that computations leave which are started one after another. -/
def afterAll (ms : List (Run ι σ α)) (s : Session ι σ) : Session ι σ :=
  ms.foldl (fun s m => m.after s) s

theorem tryEach_halts {input : Input ι} {before later : List (Run ι σ (Reply ι α))}
    {m : Run ι σ (Reply ι α)} {failures : List (Diagnostic × Input ι)}
    (hbefore : FailInTurn before s failures) (hm : m.result (afterAll before s) = .error halt)
    (earlier : List (Diagnostic × Input ι)) :
    (tryEach input (before ++ m :: later) earlier).result s = .error halt := by
  induction hbefore generalizing earlier with
  | nil s =>
      rw [List.nil_append, tryEach]
      exact Run.result_bind_error hm
  | cons h _ ih =>
      rw [List.cons_append, tryEach, Run.result_bind_ok h]
      exact ih hm _

/-- Some rounds of a loop: each succeeds and leaves less than it was given. -/
inductive Repeats (step : Input ι → Run ι σ (Reply ι α)) :
    Input ι → Session ι σ → Input ι → Session ι σ → Prop where
  | none (i : Input ι) (s : Session ι σ) : Repeats step i s i s
  | round {i rest place : Input ι} {s s' : Session ι σ} {value : α} {m n : Nat}
      (h : (step i).result s = .ok (.success value rest)) (hrest : rest.length = .ok m)
      (hi : i.length = .ok n) (hlt : m < n)
      (hlater : Repeats step rest ((step i).after s) place s') : Repeats step i s place s'

theorem iterate_halts {step : Input ι → Run ι σ (Reply ι α)} {input place : Input ι}
    {s' : Session ι σ} (hrounds : Repeats step input s place s')
    (hstep : (step place).result s' = .error halt) :
    (iterate step input).result s = .error halt := by
  induction hrounds with
  | none i s =>
      rw [iterate]
      exact Run.result_bind_error hstep
  | @round i rest place s s' value m n h hrest hi hlt _ ih =>
      have hsize : rest.size < i.size := by
        rw [Input.size_of_length hrest, Input.size_of_length hi]
        exact hlt
      rw [iterate, Run.result_bind_ok h]
      simp only [hrest, hi, Run.check, pure_bind, hsize, if_true]
      exact Run.result_bind_error (ih hstep)

section

variable [Symbol ι] {call : (name : σ.Rule) → Input ι → Run ι σ (Reply ι (σ.ruleValue name))}
  {input : Input ι}

/-- When an alternative halts, no further one is tried. -/
theorem choice_halts {count : Nat} {alternative : Fin count → Parser ι σ α} (k : Fin count)
    {failures : List (Diagnostic × Input ι)}
    (hbefore : FailInTurn
      ((List.ofFn fun i => exec call (alternative i) input).take k) s failures)
    (hk : (exec call (alternative k) input).result
      (afterAll ((List.ofFn fun i => exec call (alternative i) input).take k) s) = .error halt) :
    (exec call (.choice count alternative) input).result s = .error halt := by
  have hlt : (k : Nat) < (List.ofFn fun i => exec call (alternative i) input).length := by simp
  have hget : (List.ofFn fun i => exec call (alternative i) input)[(k : Nat)] =
      exec call (alternative k) input := by simp
  rw [exec, ← List.take_append_drop k (List.ofFn _), List.drop_eq_getElem_cons hlt, hget]
  exact tryEach_halts hbefore hk []

/-- When a round halts, the loop does not end before it. -/
theorem many_halts {p : Parser ι σ α} {place : Input ι} {s' : Session ι σ}
    (hrounds : Repeats (exec call p) input s place s')
    (hp : (exec call p place).result s' = .error halt) :
    (exec call (.many p) input).result s = .error halt := by
  exact Run.result_bind_error (iterate_halts hrounds hp)

end

end Parser

/-! ## Levels and the limit -/

namespace Grammar

open LambdaTree.Parser

variable {tokens : List Token} {source : String}

theorem readsAt_eq_halted_iff {σ : Signature} {rules : Rules Token σ} {depth : Nat} {α : Type}
    {p : Parser Token σ α} {halt : Halt} :
    readsAt rules depth p tokens = .halted halt ↔
      evalAt rules depth p (.plain tokens) = .error halt := by
  rw [readsAt, ← evalAt]
  rcases evalAt rules depth p (.plain tokens) with halt' | ⟨value, rest⟩ | ⟨diagnostic, rest⟩
  · simp
  · simp [Reads.ofReply]
  · simp [Reads.ofReply]

/-- A whole expression goes too deep where the descent does. -/
theorem evalAt_tooDeep_iff (depth : Nat) (tokens : List Token) :
    evalAt ownRules depth wholeExpression (.plain tokens) = .error .tooDeep ↔
      readExpression depth (tokens.map Token.lexeme) = .halted .tooDeep := by
  rw [← readsAt_eq_halted_iff, wholeExpression, readsAt_complete, ← mapRest_expression]
  cases readsAt ownRules depth expression tokens with
  | success t rest =>
      -- Asking for the end of the tokens needs no levels.
      rw [Reads.success_andThen]
      by_cases hrest : rest = []
      · simp [hrest, Reads.mapRest]
      · simp [hrest, Reads.mapRest]
  | failure rest => simp [Reads.andThen, Reads.mapRest]
  | halted halt => simp [Reads.andThen, Reads.mapRest]

/-- What a run reads its tokens through. -/
abbrev cursorAt (tokens : List Token) : Input Token :=
  Input.toCursor (.plain tokens)

theorem parseTokensWithin_of_tooDeep {limit : Nat}
    (h : evalAt ownRules (limit + 1) wholeExpression (cursorAt tokens) = .error .tooDeep) :
    parseTokensWithin limit (.plain tokens) source = .error (.malformed (tooDeepError source)) := by
  have hrun := run_eq_evalAt (limit + 1) (show (Input.plain tokens).Within from trivial) #[]
  rw [h] at hrun
  simp only [parseTokensWithin, rules_eq_ownRules, hrun, Stop.ofReply]

/-- Tokens are refused for their nesting exactly where the descent runs out of levels. -/
theorem parseTokensWithin_eq_tooDeep_iff {limit : Nat} :
    parseTokensWithin limit (.plain tokens) source = .error (.malformed (tooDeepError source)) ↔
      readExpression (limit + 1) (tokens.map Token.lexeme) = .halted .tooDeep := by
  constructor
  · intro hparse
    rcases parseTokensWithin_outcome limit tokens source with ⟨-, hdeep⟩ | houtcome
    · exact hdeep
    · exact absurd hparse houtcome.ne_tooDeep
  · intro hdeep
    have halike := evalAt_alike (bisimulation_slice tokens.toArray) ownRules (limit + 1)
      wholeExpression (Input.slicedAs_toCursor tokens)
    apply parseTokensWithin_of_tooDeep
    exact (halike.eq_error_iff _).mpr ((evalAt_tooDeep_iff (limit + 1) tokens).mpr hdeep)

/-- Tokens are refused for their nesting exactly when some start of an expression leaves
    more levels open than the limit. -/
theorem parseTokensWithin_tooDeep_iff {limit : Nat} :
    parseTokensWithin limit (.plain tokens) source = .error (.malformed (tooDeepError source)) ↔
      ∃ c, c <+: tokens.map Token.lexeme ∧ Viable c ∧ limit < openLevels c := by
  rw [parseTokensWithin_eq_tooDeep_iff, tooDeep_iff_openLevels]
  rfl

/-- Limits that do not refuse the tokens for their nesting make no difference. -/
theorem parseTokensWithin_eq_of_ne_tooDeep {m n : Nat}
    (hm : parseTokensWithin m (.plain tokens) source ≠ .error (.malformed (tooDeepError source)))
    (hn : parseTokensWithin n (.plain tokens) source ≠ .error (.malformed (tooDeepError source))) :
    parseTokensWithin m (.plain tokens) source = parseTokensWithin n (.plain tokens) source := by
  have hanswers : evalAt ownRules (m + 1) wholeExpression (cursorAt tokens) =
      evalAt ownRules (n + 1) wholeExpression (cursorAt tokens) :=
    evalAt_unique ownRules (fun h => hm (parseTokensWithin_of_tooDeep h))
      fun h => hn (parseTokensWithin_of_tooDeep h)
  have hrun (limit : Nat) :=
    run_eq_evalAt (limit + 1) (show (Input.plain tokens).Within from trivial) #[]
  simp only [parseTokensWithin, rules_eq_ownRules, hrun, hanswers]

/-- As many levels as there are tokens are always enough. -/
theorem parseTokensWithin_ne_tooDeep_of_length {limit : Nat} (h : tokens.length ≤ limit) :
    parseTokensWithin limit (.plain tokens) source ≠ .error (.malformed (tooDeepError source)) := by
  apply parseTokensWithin_ne_tooDeep
  rw [readExpression_eq_of_length (by simpa using Nat.lt_succ_of_le h)]
  exact read_ne_halted _ _

/-! ## Flat chains -/

/-- Names applied one after another. -/
def chainOf (first : String) (others : List String) : Term (Option Note) :=
  others.foldl (fun func name => .app none func (.var none name)) (.var none first)

theorem derives_chainOf (first : String) (others : List String) :
    Derives .spine ((first :: others).map .word) (chainOf first others) := by
  induction others using List.reverseRecOn with
  | nil => exact .head (.word first)
  | append_singleton others name ih =>
      rw [chainOf, List.foldl_append, ← List.cons_append, List.map_append]
      exact .applied ih (.word name)

/-- Words open no levels. -/
theorem levelsAfter_words (levels : List Level) (names : List String) :
    levelsAfter levels (names.map .word) = levels := by
  induction names with
  | nil => rfl
  | cons name names ih => exact ih

/-- A flat chain is read whatever the limit is. -/
theorem parseTokensWithin_chain {first : String} {others : List String}
    (h : tokens.map Token.lexeme = (first :: others).map .word) (limit : Nat) :
    parseTokensWithin limit (.plain tokens) source = .ok (chainOf first others) := by
  have hlevels : ∀ c, c <+: tokens.map Token.lexeme → openLevels c ≤ limit := by
    intro c hc
    rw [h] at hc
    obtain ⟨names, -, rfl⟩ := List.prefix_map_iff.mp hc
    rw [openLevels, levelsAfter_words]
    exact Nat.zero_le _
  have hlimit : parseTokensWithin limit (.plain tokens) source ≠
      .error (.malformed (tooDeepError source)) :=
    parseTokensWithin_ne_tooDeep (readExpression_ne_tooDeep hlevels)
  rw [(outcome_of_ne_tooDeep hlimit).eq_ok_iff, h]
  exact derives_iff_read.mp (derives_chainOf first others).spine_expression

/-- The limit on nesting only ever refuses, and only when it must.  There is one result
    for the tokens that all limits from their number on have; every limit has this result
    or the error for nesting, which is about the whole source.  It is the latter if and
    only if some start of an expression among the tokens leaves more levels open than the
    limit.  A flat chain is read whatever the limit.  And no alternatives or loops, of
    whatever parsers, go on behind one that went too deep. -/
theorem nesting_limit_only_refuses (tokens : List Token) (source : String) :
    (∃ result, result ≠ .error (.malformed (tooDeepError source)) ∧
      (∀ limit, tokens.length ≤ limit →
        parseTokensWithin limit (.plain tokens) source = result) ∧
      ∀ limit,
        parseTokensWithin limit (.plain tokens) source = .error (.malformed (tooDeepError source)) ∨
        parseTokensWithin limit (.plain tokens) source = result) ∧
    (∀ limit,
      parseTokensWithin limit (.plain tokens) source = .error (.malformed (tooDeepError source)) ↔
        ∃ c, c <+: tokens.map Token.lexeme ∧ Viable c ∧ limit < openLevels c) ∧
    ((tooDeepError source).reason.text = "Expression nested too deeply" ∧
      (tooDeepError source).stage.text = "grammar" ∧
      (tooDeepError source).span = ⟨0, source.length⟩ ∧ (tooDeepError source).detail = "") ∧
    (∀ first others, tokens.map Token.lexeme = (first :: others).map .word → ∀ limit,
      parseTokensWithin limit (.plain tokens) source = .ok (chainOf first others)) ∧
    (∀ {ι α : Type} [Symbol ι] {σ : Signature}
      (call : (name : σ.Rule) → Input ι → Run ι σ (Reply ι (σ.ruleValue name)))
      (input : Input ι) (s : Session ι σ),
      (∀ (count : Nat) (alternative : Fin count → Parser ι σ α) (k : Fin count) failures,
        let alternatives := List.ofFn fun i => exec call (alternative i) input
        FailInTurn (alternatives.take k) s failures →
        (exec call (alternative k) input).result (afterAll (alternatives.take k) s) =
          .error .tooDeep →
        (exec call (.choice count alternative) input).result s = .error .tooDeep) ∧
      ∀ (p : Parser ι σ α) place s', Repeats (exec call p) input s place s' →
        (exec call p place).result s' = .error .tooDeep →
        (exec call (.many p) input).result s = .error .tooDeep) := by
  refine ⟨?_, fun limit => parseTokensWithin_tooDeep_iff, ⟨rfl, rfl, rfl, rfl⟩,
    fun first others h limit => parseTokensWithin_chain h limit, fun call input s => ⟨?_, ?_⟩⟩
  · have hlong (limit : Nat) (h : tokens.length ≤ limit) :
        parseTokensWithin limit (.plain tokens) source ≠ .error (.malformed (tooDeepError source)) :=
      parseTokensWithin_ne_tooDeep_of_length h
    refine ⟨parseTokensWithin tokens.length (.plain tokens) source, hlong _ (Nat.le_refl _),
      fun limit h => parseTokensWithin_eq_of_ne_tooDeep (hlong limit h) (hlong _ (Nat.le_refl _)),
      fun limit => ?_⟩
    refine or_iff_not_imp_left.mpr fun hlimit => ?_
    exact parseTokensWithin_eq_of_ne_tooDeep hlimit (hlong _ (Nat.le_refl _))
  · intro count alternative k failures alternatives hbefore hk
    exact choice_halts k hbefore hk
  · intro p place s' hrounds hp
    exact many_halts hrounds hp

/-- Three levels are open behind `(λx.(y`, so two are not enough for it; a chain of three
    names needs none.  Where an expression goes too deep at once, so do an alternative and a
    loop of it. -/
theorem nesting_limit_three_levels :
    let source := "(λx.(y"
    let tokens : List Token := [⟨.openParen, ⟨0, 1⟩⟩, ⟨.lambda, ⟨1, 2⟩⟩, ⟨.word "x", ⟨2, 3⟩⟩,
      ⟨.dot, ⟨3, 4⟩⟩, ⟨.openParen, ⟨4, 5⟩⟩, ⟨.word "y", ⟨5, 6⟩⟩]
    let names : List Token := [⟨.word "a", ⟨0, 1⟩⟩, ⟨.word "b", ⟨2, 3⟩⟩, ⟨.word "c", ⟨4, 5⟩⟩]
    let nested : Parser Token (signature Signature.none) (Term (Option Note)) := expression
    Viable (tokens.map Token.lexeme) ∧ openLevels (tokens.map Token.lexeme) = 3 ∧
      parseTokensWithin 2 (.plain tokens) source = .error (.malformed (tooDeepError source)) ∧
      parseTokensWithin 0 (.plain names) source =
        .ok (.app none (.app none (.var none "a") (.var none "b")) (.var none "c")) ∧
      (exec (callAt ownRules 0) nested (.plain tokens)).result ⟨none, #[]⟩ = .error .tooDeep ∧
      (exec (callAt ownRules 0) (.choice 1 fun _ => nested) (.plain tokens)).result ⟨none, #[]⟩ =
        .error .tooDeep ∧
      (exec (callAt ownRules 0) (.many nested) (.plain tokens)).result ⟨none, #[]⟩ =
        .error .tooDeep := by
  intro source tokens names nested
  have hviable : Viable (tokens.map Token.lexeme) :=
    ⟨[.closeParen, .closeParen], ((wellFormed_word "y").parens.abstraction "x").parens⟩
  have hlevels : openLevels (tokens.map Token.lexeme) = 3 := by decide
  have hdeep : (exec (callAt ownRules 0) nested (.plain tokens)).result ⟨none, #[]⟩ =
      .error .tooDeep := rfl
  obtain ⟨-, hiff, -, -, hhalts⟩ := nesting_limit_only_refuses tokens source
  obtain ⟨-, -, -, hchain, -⟩ := nesting_limit_only_refuses names source
  obtain ⟨hchoice, hmany⟩ := hhalts (callAt ownRules 0) (.plain tokens) ⟨none, #[]⟩
  refine ⟨hviable, hlevels, (hiff 2).mpr ⟨_, List.prefix_rfl, hviable, by omega⟩,
    hchain "a" ["b", "c"] rfl 0, hdeep, ?_, ?_⟩
  · exact hchoice 1 (fun _ => nested) 0 [] (.nil _) hdeep
  · exact hmany nested _ _ (.none _ _) hdeep

end Grammar

end LambdaTree
