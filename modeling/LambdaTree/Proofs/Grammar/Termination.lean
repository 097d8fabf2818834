/-
  LambdaTree.Proofs.Grammar.Termination

  Reading terms comes to an end.  The rule for expressions calls itself only
  behind a parenthesis or a binder, so it is guarded (`ownRules_guarded`), and
  each parser of the grammar answers any tokens with a term or a refusal
  (`exists_evalAt`): there is no depth of calls that it might need beyond their
  number, and no fault that it could meet.
-/

import LambdaTree.Proofs.Grammar.Unbounded
import LambdaTree.Proofs.Parser.Calls
import LambdaTree.Proofs.Parser.Termination

namespace LambdaTree

/-- A finite sequence of symbols: a plain one, or a cursor within some symbols. -/
inductive Input.Finite {ι : Type} : Input ι → Prop where
  | plain (symbols : List ι) : Finite (.plain symbols)
  | view (data : Array ι) {k : Nat} (hk : k ≤ data.size) : Finite (.view ⟨.symbols data, k⟩)

theorem Input.Finite.toCursor {ι : Type} {input : Input ι} (h : input.Finite) :
    input.toCursor.Finite := by
  cases h with
  | plain symbols => exact .view symbols.toArray (Nat.zero_le _)
  | view data hk => exact .view data hk

theorem Input.Finite.within {ι : Type} {input : Input ι} (h : input.Finite) : input.Within := by
  cases h with
  | plain symbols => trivial
  | @view data k hk => exact ⟨Int.natCast_nonneg k, data.size, rfl, Int.ofNat_le.mpr hk⟩

namespace Grammar

open LambdaTree.Parser

/-! ## The rules are guarded -/

section

variable {ι : Type} [Symbol ι]

theorem binder_guarded : (binder : Parser ι (signature Signature.none) _).Guarded :=
  .apply (.combine (.combine trivial (.inl trivial)) (.inr trivial))

theorem binder_consumes : (binder : Parser ι (signature Signature.none) _).Consumes :=
  .apply (.combine (.inr trivial))

theorem term_guarded : (term : Parser ι (signature Signature.none) _).Guarded := by
  have hparens : (parenthesised : Parser ι (signature Signature.none) _).Guarded :=
    .combine trivial (.inl trivial)
  have habstraction : (abstraction : Parser ι (signature Signature.none) _).Guarded :=
    .combine binder_guarded (.inl binder_consumes)
  have hvariable : (variableTerm : Parser ι (signature Signature.none) _).Guarded :=
    .apply (.apply trivial)
  exact .firstOf (by simp [hparens, habstraction, hvariable])

/-- Every rule reads something before it calls one. -/
theorem ownRules_guarded (name : (signature Signature.none).Rule) :
    (ownRules name : Parser ι _ _).Guarded := by
  cases name with
  | other name => exact name.elim
  | expression =>
      have happlication : (application : Parser ι (signature Signature.none) _).Guarded :=
        ⟨.apply term_guarded, .inr (.combine trivial (.inr term_guarded))⟩
      exact .firstOf (by simp [happlication, term_guarded])

end

/-! ## Every answer is a term or a refusal -/

section

variable {ts : List Lexeme} {halt : Halt}

theorem andThen_ne_halted {r : Reading} {next : Term (Option Note) → List Lexeme → Reading}
    (hr : r ≠ .halted halt) (hnext : ∀ t rest, r = .success t rest → next t rest ≠ .halted halt) :
    r.andThen next ≠ .halted halt := by
  intro h
  rcases Reads.andThen_eq_halted h with hhalted | ⟨t, rest, hsuccess, hhalted⟩
  · exact hr hhalted
  · exact hnext t rest hsuccess hhalted

/-- Expecting a lexeme halts only where what comes next does, on fewer lexemes. -/
theorem expect_ne_halted {lexeme : Lexeme} {next : List Lexeme → Reading}
    (h : ∀ us, us.length < ts.length → next us ≠ .halted halt) :
    expect lexeme ts next ≠ .halted halt := by
  rcases expect_cases lexeme ts next with ⟨us, rfl, hnext⟩ | ⟨-, hfailure⟩
  · rw [hnext]
    exact h us (by simp)
  · simp [hfailure]

theorem expectWord_ne_halted {next : String → List Lexeme → Reading}
    (h : ∀ name us, us.length < ts.length → next name us ≠ .halted halt) :
    expectWord ts next ≠ .halted halt := by
  match ts with
  | .word name :: us => exact h name us (by simp)
  | [] | .blank _ :: _ | .lambda :: _ | .dot :: _ | .openParen :: _ | .closeParen :: _
  | .plain :: _ => simp [expectWord]

end

/-- The parsers of the grammar that give terms. -/
def termParsers : List (Parser Token (signature Signature.none) (Term (Option Note))) :=
  [expression, term, application, abstraction, parenthesised, wholeExpression]

section

variable {p : Parser Token (signature Signature.none) (Term (Option Note))}

/-- With a depth beyond the number of tokens, no parser of the grammar halts. -/
theorem readsAt_ne_halted (hp : p ∈ termParsers) {depth : Nat} {tokens : List Token}
    (hdepth : tokens.length < depth) (halt : Halt) :
    readsAt ownRules depth p tokens ≠ .halted halt := by
  have hread := mapRest_expression depth
  have hinner (us : List Lexeme) (hus : us.length < depth) (halt : Halt) :
      readExpression depth us ≠ .halted halt := by
    rw [readExpression_eq_of_length hus]
    exact read_ne_halted us halt
  -- It is enough to look at the lexemes, where each parser is part of the descent.
  have hlexemes {r : Reads Token (Term (Option Note))} {r' : Reading}
      (hmap : r.mapRest Token.lexeme = r') (hr' : r' ≠ .halted halt) : r ≠ .halted halt := by
    rintro rfl
    exact hr' hmap.symm
  have hts : (tokens.map Token.lexeme).length < depth := by simpa using hdepth
  have hexpression : readsAt ownRules depth expression tokens ≠ .halted halt :=
    hlexemes (hread tokens) (hinner _ hts halt)
  simp only [termParsers, List.mem_cons, List.not_mem_nil, or_false] at hp
  rcases hp with rfl | rfl | rfl | rfl | rfl | rfl
  · exact hexpression
  · refine hlexemes (mapRest_term hread tokens) ?_
    exact readTerm_ne_halted (fun us hus => hinner us (hus.trans hts)) halt
  · refine hlexemes (mapRest_application hread tokens) (andThen_ne_halted ?_ fun t rest hterm => ?_)
    · exact readTerm_ne_halted (fun us hus => hinner us (hus.trans hts)) halt
    · have hlt := readTerm_shorter (readExpression_within depth) hterm
      exact readChain_ne_halted t (fun us hus => hinner us (hus.trans (hlt.trans hts))) halt
  · refine hlexemes (mapRest_abstraction hread tokens) (expect_ne_halted fun us hus => ?_)
    refine expectWord_ne_halted fun name vs hvs => expect_ne_halted fun ws hws => ?_
    exact andThen_ne_halted (hinner ws (by omega) halt) fun t rest _ => by simp
  · refine hlexemes (mapRest_parenthesised hread tokens) (expect_ne_halted fun us hus => ?_)
    refine andThen_ne_halted (hinner us (by omega) halt) fun t rest _ => ?_
    exact expect_ne_halted fun _ _ => by simp
  · rw [wholeExpression, readsAt_complete]
    intro hhalted
    rcases Reads.andThen_eq_halted hhalted with hhalted | ⟨t, rest, -, hend⟩
    · exact hexpression hhalted
    · split at hend <;> cases hend

/-- The parsers of the grammar answer every finite sequence of tokens. -/
theorem exists_evalAt (hp : p ∈ termParsers) {input : Input Token} (hi : input.Finite) :
    ∃ reply, evalAt ownRules (input.size + 1) p input = .ok reply := by
  have hplain (tokens : List Token) (halt : Halt) :
      evalAt ownRules (tokens.length + 1) p (.plain tokens) ≠ .error halt := by
    intro hhalted
    apply readsAt_ne_halted hp (Nat.lt_succ_self tokens.length) halt
    rw [readsAt, ← evalAt, hhalted]
    rfl
  cases hanswer : evalAt ownRules (input.size + 1) p input with
  | ok reply => exact ⟨reply, rfl⟩
  | error halt =>
      cases hi with
      | plain tokens => exact absurd hanswer (hplain tokens halt)
      | @view data k hk =>
          -- A cursor halts where the plain sequence of the tokens from there on does.
          have hsliced : Input.SlicedAs data (.view ⟨.symbols data, k⟩)
            (.plain (data.toList.drop k)) := ⟨k, hk, rfl, rfl⟩
          have hsize : (Input.view ⟨.symbols data, k⟩ : Input Token).size =
              (data.toList.drop k).length := by
            have hlength : (Input.view ⟨.symbols data, k⟩ : Input Token).length =
              .ok (data.size - k) := Cursor.length_symbols hk
            rw [Input.size_of_length hlength]
            simp
          have halike := evalAt_alike (bisimulation_slice data) ownRules
            ((data.toList.drop k).length + 1) p hsliced
          rw [hsize] at hanswer
          exact absurd ((halike.eq_error_iff halt).mp hanswer) (hplain _ halt)

theorem termParsers_remember (hp : p ∈ termParsers) : p.Remembers ownCells := by
  have hexpression : (expression : Parser Token _ _).Remembers ownCells := ⟨rfl, trivial⟩
  have hrule : (firstOf [application, term] : Parser Token _ _).Remembers ownCells :=
    ownRules_remembers .expression
  have hterm : (term : Parser Token _ _).Remembers ownCells := hrule 1
  simp only [termParsers, List.mem_cons, List.not_mem_nil, or_false] at hp
  rcases hp with rfl | rfl | rfl | rfl | rfl | rfl
  · exact hexpression
  · exact hterm
  · exact hrule 0
  · exact hterm.2 1
  · exact hterm.2 0
  · exact wholeExpression_remembers

end

/-- Parsing ends.  Every parser of the grammar answers every finite sequence of tokens,
    inside a run and outside, with a term or a refusal; the rule for expressions does not
    depend on what it would be on a sequence that is not shorter than the one it reads.
    Every parser ends on every input if the references from it do not go round, or if all
    rules read something before they call one.  A loop, whatever it repeats, ends within
    one round more than there are symbols. -/
theorem parsing_ends :
    (∀ p ∈ termParsers, ∀ input : Input Token, input.Finite → ∀ tally,
      (∃ reply, Answers ownRules p input tally (.ok reply)) ∧
      ∃ outcome, Ends ownRules p input tally outcome ∧
        ∀ halt, outcome ≠ .error (.halted halt)) ∧
    (∀ (input : Input Token) s depth, MayCall ownRules input s →
      ∀ call, (∀ name i, i.Suffix input → i.size < input.size →
        call name i = callAt ownRules depth name i) →
      (exec call (ownRules .expression) input).run.run s =
        (exec (callAt ownRules depth) (ownRules .expression) input).run.run s) ∧
    (∀ {ι : Type} [Symbol ι] {σ : Signature} (rules : Rules ι σ) {α : Type} (p : Parser ι σ α),
      Acyclic rules p ∨ (∀ name, (rules name).Guarded) → ∀ input tally,
        (∃ answer, Answers rules p input tally answer) ∧
        ∃ outcome, Ends rules p input tally outcome) ∧
    (∀ {ι : Type} [Symbol ι] {σ : Signature} (rules : Rules ι σ) {α : Type} (p : Parser ι σ α)
      (input : Input ι) s depth, MayCall rules input s →
      (rounds (exec (callAt rules depth) p) (input.size + 1) input).run.run s =
        (some <$> iterate (exec (callAt rules depth) p) input).run.run s) := by
  refine ⟨fun p hp input hi tally => ⟨?_, ?_⟩, fun input s depth hs call hcall => ?_,
    fun rules α p hp input tally => ?_, fun rules α p input s depth hs => hs.rounds_eq p⟩
  · obtain ⟨reply, hreply⟩ := exists_evalAt hp hi
    exact ⟨reply, answers_iff_evalAt.mpr ⟨by simp, _, hreply⟩⟩
  · obtain ⟨reply, hreply⟩ := exists_evalAt hp hi.toCursor
    refine ⟨Stop.ofReply (.ok reply), ?_, fun halt => ?_⟩
    · rw [ends_iff_evalAt ownRules_remembers (termParsers_remember hp) hi.within]
      exact ⟨input.toCursor.size + 1, by simp [hreply], by rw [hreply]⟩
    · cases reply <;> simp [Stop.ofReply]
  · exact hs.same_of_guarded (ownRules_guarded .expression) hcall
  · refine ends_of_depths (fun input s hs => ?_) input tally
    rcases hp with hacyclic | hguarded
    · obtain ⟨enough, henough⟩ := hacyclic.exists_depth
      exact ⟨enough, henough enough (Nat.le_refl _) input s hs⟩
    · exact ⟨input.size + 1, hs.ends_of_guarded hguarded (Nat.lt_succ_self _) p⟩

/-- A binder that breaks off is answered, also when expressions could not be read from as
    many tokens; and a parser that reads nothing is not repeated for ever. -/
theorem parsing_ends_broken_binder :
    let data : Array Token := #[⟨.openParen, ⟨0, 1⟩⟩, ⟨.lambda, ⟨1, 2⟩⟩, ⟨.word "x", ⟨2, 3⟩⟩]
    let input : Input Token := .view ⟨.symbols data, (1 : Nat)⟩
    let shorter : (name : (signature Signature.none).Rule) → Input Token →
        Run Token (signature Signature.none) (Reply Token ((signature Signature.none).ruleValue name)) :=
      fun name i => if i.size < input.size then callAt ownRules 3 name i else throw .tooDeep
    let noRules : Rules Token Signature.none := fun name => name.elim
    let idle : Parser Token Signature.none Nat := .succeed 7
    input.Finite ∧ abstraction ∈ termParsers ∧ MayCall ownRules input ⟨none, #[]⟩ ∧
      Acyclic noRules (.many idle) ∧
      (∃ reply, Answers ownRules abstraction input #[] (.ok reply)) ∧
      (exec shorter (ownRules .expression) input).run.run ⟨none, #[]⟩ =
        (exec (callAt ownRules 3) (ownRules .expression) input).run.run ⟨none, #[]⟩ ∧
      (∃ outcome, Ends noRules (.many idle) input #[] outcome) ∧
      (rounds (exec (callAt noRules 0) idle) (input.size + 1) input).run.run ⟨none, #[]⟩ =
        (some <$> iterate (exec (callAt noRules 0) idle) input).run.run ⟨none, #[]⟩ := by
  intro data input shorter noRules idle
  have hfinite : input.Finite := .view data (by decide)
  have hmem : (abstraction : Parser Token _ _) ∈ termParsers := by simp [termParsers]
  have hcall : MayCall ownRules input ⟨none, #[]⟩ := .outside input rfl
  have hacyclic : Acyclic noRules (.many idle) := fun name _ => name.elim
  obtain ⟨hgrammar, hreentry, hacyclics, hloops⟩ := parsing_ends
  refine ⟨hfinite, hmem, hcall, hacyclic, (hgrammar _ hmem input hfinite #[]).1, ?_,
    (hacyclics _ _ (.inl hacyclic) input #[]).2, hloops _ idle input _ 0 (.outside input rfl)⟩
  refine hreentry input _ 3 hcall shorter fun name i _ hlt => ?_
  simp only [shorter, hlt, if_true]

end Grammar

end LambdaTree
