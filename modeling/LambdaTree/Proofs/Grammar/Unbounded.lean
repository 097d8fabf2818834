/-
  LambdaTree.Proofs.Grammar.Unbounded

  The descent with no bound on its levels.  Every expression inside another is
  read from fewer lexemes, so as many levels as there are lexemes are enough,
  and more levels change nothing (`readExpression_stable`).  `read` is the
  descent with enough levels: it reads a term and then a chain of terms, inside
  which it is called again (`read_eq`), and it always comes to an end
  (`read_ne_halted`).  With fewer levels the descent either stops or does the same
  (`readExpression_eq_read`).
-/

import LambdaTree.Proofs.Grammar.Descent

namespace LambdaTree

namespace Grammar

open LambdaTree.Parser

variable {inner inner' : List Lexeme → Reading} {ts : List Lexeme}

/-! ## How a term may start -/

/-- Whether a term may start with a lexeme. -/
def startsTerm : Lexeme → Bool
  | .word _ => true
  | .lambda => true
  | .openParen => true
  | _ => false

/-- A term breaks off right behind its first lexemes: what follows does not fit there. -/
inductive Broken : List Lexeme → List Lexeme → Prop where
  | start {rest : List Lexeme} (h : ∀ x ∈ rest.head?, startsTerm x = false) : Broken [] rest
  | lambda {rest : List Lexeme} (h : ∀ x ∈ rest.head?, x.isWord = false) : Broken [.lambda] rest
  | binder (name : String) {rest : List Lexeme} (h : ∀ x ∈ rest.head?, x ≠ .dot) :
      Broken [.lambda, .word name] rest

/-- The ways in which a sequence of lexemes may start, as far as it matters to terms. -/
inductive Start : List Lexeme → Prop where
  | parens (us : List Lexeme) : Start (.openParen :: us)
  | abstraction (binder : String) (us : List Lexeme) :
      Start (.lambda :: .word binder :: .dot :: us)
  | word (name : String) (us : List Lexeme) : Start (.word name :: us)
  | broken {c rest : List Lexeme} (h : Broken c rest) : Start (c ++ rest)

theorem start (ts : List Lexeme) : Start ts := by
  match ts with
  | .openParen :: us => exact .parens us
  | .word name :: us => exact .word name us
  | .lambda :: .word binder :: .dot :: us => exact .abstraction binder us
  | [] => exact .broken (.start (by simp))
  | .blank _ :: _ | .dot :: _ | .closeParen :: _ | .plain :: _ =>
      exact .broken (.start (by simp [startsTerm]))
  | [.lambda] => exact .broken (c := [.lambda]) (.lambda (by simp))
  | .lambda :: .blank _ :: _ | .lambda :: .dot :: _ | .lambda :: .closeParen :: _
  | .lambda :: .plain :: _ | .lambda :: .lambda :: _ | .lambda :: .openParen :: _ =>
      exact .broken (c := [.lambda]) (.lambda (by simp [Lexeme.isWord]))
  | [.lambda, .word name] =>
      exact .broken (c := [.lambda, .word name]) (.binder name (by simp))
  | .lambda :: .word name :: .blank _ :: _ | .lambda :: .word name :: .word _ :: _
  | .lambda :: .word name :: .closeParen :: _ | .lambda :: .word name :: .plain :: _
  | .lambda :: .word name :: .lambda :: _ | .lambda :: .word name :: .openParen :: _ =>
      exact .broken (c := [.lambda, .word name]) (.binder name (by simp))

theorem readTerm_parens (us : List Lexeme) :
    readTerm inner (.openParen :: us) =
      (inner us).andThen fun t rest => expect .closeParen rest fun last => .success t last := rfl

theorem readTerm_abstraction (binder : String) (us : List Lexeme) :
    readTerm inner (.lambda :: .word binder :: .dot :: us) =
      (inner us).andThen fun t last => .success (.abs none binder t) last := rfl

theorem readTerm_word (name : String) (us : List Lexeme) :
    readTerm inner (.word name :: us) = .success (.var none name) us := rfl

theorem readTerm_broken {c rest : List Lexeme} (h : Broken c rest) :
    readTerm inner (c ++ rest) = .failure rest := by
  cases h with
  | start h =>
      match rest with
      | [] | .blank _ :: _ | .dot :: _ | .closeParen :: _ | .plain :: _ => rfl
      | .word _ :: _ | .lambda :: _ | .openParen :: _ => simp [startsTerm] at h
  | lambda h =>
      match rest with
      | [] | .blank _ :: _ | .dot :: _ | .closeParen :: _ | .plain :: _ | .lambda :: _
      | .openParen :: _ => rfl
      | .word _ :: _ => simp [Lexeme.isWord] at h
  | binder name h =>
      cases rest with
      | nil => rfl
      | cons x rest =>
          have hx : x ≠ .dot := h x rfl
          simp [readTerm, expectWord, expect, hx]

/-! ## What came of a term -/

section

variable {t : Term (Option Note)} {rest : List Lexeme} {halt : Halt}

/-- The lexeme that is expected is there, or it is not. -/
theorem expect_cases (lexeme : Lexeme) (ts : List Lexeme) (next : List Lexeme → Reading) :
    (∃ us, ts = lexeme :: us ∧ expect lexeme ts next = next us) ∨
      (∀ x ∈ ts.head?, x ≠ lexeme) ∧ expect lexeme ts next = .failure ts := by
  cases ts with
  | nil => exact .inr ⟨by simp, rfl⟩
  | cons x us =>
      by_cases hx : x = lexeme
      · exact .inl ⟨us, by rw [hx], by simp [expect, hx]⟩
      · exact .inr ⟨by simpa using hx, by simp [expect, hx]⟩

/-- The terms that can be read. -/
theorem readTerm_eq_success (h : readTerm inner ts = .success t rest) :
    (∃ name, ts = .word name :: rest ∧ t = .var none name) ∨
    (∃ us, ts = .openParen :: us ∧ inner us = .success t (.closeParen :: rest)) ∨
    (∃ binder us body, ts = .lambda :: .word binder :: .dot :: us ∧
      inner us = .success body rest ∧ t = .abs none binder body) := by
  cases start ts with
  | parens us =>
      -- The expression inside must leave a closing parenthesis.
      rw [readTerm_parens] at h
      obtain ⟨t', middle, hus, hclose⟩ := Reads.andThen_eq_success h
      rcases expect_cases .closeParen middle (.success t') with ⟨last, rfl, hlast⟩ | ⟨-, hfail⟩
      · cases hlast.symm.trans hclose
        exact .inr (.inl ⟨us, rfl, hus⟩)
      · cases hfail.symm.trans hclose
  | abstraction binder us =>
      rw [readTerm_abstraction] at h
      obtain ⟨body, last, hus, hlast⟩ := Reads.andThen_eq_success h
      cases hlast
      exact .inr (.inr ⟨binder, us, body, rfl, hus, rfl⟩)
  | word name us =>
      cases h
      exact .inl ⟨name, rfl, rfl⟩
  | broken hb =>
      rw [readTerm_broken hb] at h
      cases h

/-- A term halts only where an expression inside it does. -/
theorem readTerm_eq_halted (h : readTerm inner ts = .halted halt) :
    (∃ us, ts = .openParen :: us ∧ inner us = .halted halt) ∨
    (∃ binder us, ts = .lambda :: .word binder :: .dot :: us ∧ inner us = .halted halt) := by
  cases start ts with
  | parens us =>
      rw [readTerm_parens] at h
      rcases Reads.andThen_eq_halted h with hus | ⟨t, middle, hus, hclose⟩
      · exact .inl ⟨us, rfl, hus⟩
      · rcases expect_cases .closeParen middle (.success t) with ⟨last, rfl, hlast⟩ | ⟨-, hfail⟩
        · cases hlast.symm.trans hclose
        · cases hfail.symm.trans hclose
  | abstraction binder us =>
      rw [readTerm_abstraction] at h
      rcases Reads.andThen_eq_halted h with hus | ⟨t, middle, hus, hnext⟩
      · exact .inr ⟨binder, us, rfl, hus⟩
      · cases hnext
  | word name us => cases h
  | broken hb =>
      rw [readTerm_broken hb] at h
      cases h

end

/-! ## Readings go on -/

theorem exists_tokens (ts : List Lexeme) : ∃ tokens : List Token, tokens.map Token.lexeme = ts :=
  ⟨ts.map fun lexeme => ⟨lexeme, default⟩, by simp [Function.comp_def]⟩

theorem readExpression_within (levels : Nat) (ts : List Lexeme) :
    (readExpression levels ts).Within ts := by
  -- Every parser has this; the descent is one, on tokens with any spans.
  obtain ⟨tokens, rfl⟩ := exists_tokens ts
  rw [← mapRest_expression]
  exact (readsAt_within ownRules levels expression tokens).mapRest

/-- A term that was read takes a lexeme at least. -/
theorem readTerm_tail (hinner : ∀ us, (inner us).Within us) {t : Term (Option Note)}
    {rest : List Lexeme} (h : readTerm inner ts = .success t rest) : rest <:+ ts.tail := by
  rcases readTerm_eq_success h with
    ⟨name, rfl, -⟩ | ⟨us, rfl, hus⟩ | ⟨binder, us, body, rfl, hus, -⟩
  · exact List.suffix_rfl
  · have hwithin : .closeParen :: rest <:+ us := by
      have hreads := hinner us
      rwa [hus] at hreads
    exact (List.suffix_cons _ _).trans hwithin
  · have hwithin : rest <:+ us := by
      have hreads := hinner us
      rwa [hus] at hreads
    exact hwithin.trans ((List.suffix_cons _ _).trans (List.suffix_cons _ _))

theorem readTerm_shorter (hinner : ∀ us, (inner us).Within us) {t : Term (Option Note)}
    {rest : List Lexeme} (h : readTerm inner ts = .success t rest) : rest.length < ts.length := by
  have hle := (readTerm_tail hinner h).length_le
  cases ts with
  | nil => cases h
  | cons x us => exact Nat.lt_succ_of_le hle

/-- A chain goes on with a term, or ends where none can be read. -/
theorem readChain_eq (hinner : ∀ us, (inner us).Within us) (func : Term (Option Note))
    (ts : List Lexeme) :
    readChain inner func ts =
      match readTerm inner ts with
      | .success arg rest => readChain inner (.app none func arg) rest
      | .failure _ => .success func ts
      | .halted halt => .halted halt := by
  rw [readChain]
  cases h : readTerm inner ts with
  | success arg rest => simp only [readTerm_shorter hinner h, if_true]
  | failure rest => rfl
  | halted halt => rfl

/-! ## Enough levels -/

/-- A term is read with expressions from fewer lexemes only. -/
theorem readTerm_congr (h : ∀ us, us.length < ts.length → inner us = inner' us) :
    readTerm inner ts = readTerm inner' ts := by
  cases start ts with
  | parens us => rw [readTerm_parens, readTerm_parens, h us (by simp)]
  | abstraction binder us => rw [readTerm_abstraction, readTerm_abstraction, h us (by simp; omega)]
  | word name us => rfl
  | broken hb => rw [readTerm_broken hb, readTerm_broken hb]

theorem readChain_congr (func : Term (Option Note))
    (h : ∀ us, us.length < ts.length → inner us = inner' us) :
    readChain inner func ts = readChain inner' func ts := by
  fun_induction readChain inner func ts with
  | case1 func ts rest hs =>
      rw [readTerm_congr h] at hs
      rw [readChain, hs]
  | case2 func ts halt hs =>
      rw [readTerm_congr h] at hs
      rw [readChain, hs]
  | case3 func ts arg rest hs hlt ih =>
      -- What is left for the chain is shorter, so the two still agree inside it.
      rw [readTerm_congr h] at hs
      conv_rhs => rw [readChain, hs]
      simp only [hlt, if_true]
      exact ih fun us hus => h us (hus.trans hlt)
  | case4 func ts arg rest hs hlt =>
      rw [readTerm_congr h] at hs
      rw [readChain, hs]
      simp only [hlt, if_false]

/-- With more levels than there are lexemes, their number does not matter. -/
theorem readExpression_stable {m n : Nat} (hm : ts.length < m) (hn : ts.length < n) :
    readExpression m ts = readExpression n ts := by
  induction m generalizing n ts with
  | zero => omega
  | succ m ih =>
      obtain ⟨n, rfl⟩ := Nat.exists_eq_succ_of_ne_zero (by omega : n ≠ 0)
      have hinner (us : List Lexeme) (hus : us.length < ts.length) :
          readExpression m us = readExpression n us := ih (by omega) (by omega)
      rw [readExpression, readExpression, ← readTerm_congr hinner]
      cases hterm : readTerm (readExpression m) ts with
      | failure rest => rfl
      | halted halt => rfl
      | success t rest =>
          -- The chain is read from what the term left.
          have hlt := readTerm_shorter (readExpression_within m) hterm
          exact readChain_congr t fun us hus => hinner us (hus.trans hlt)

/-- Reads an expression, with as many levels as it may take. -/
def read (ts : List Lexeme) : Reading :=
  readExpression (ts.length + 1) ts

theorem readExpression_eq_of_length {levels : Nat} (h : ts.length < levels) :
    readExpression levels ts = read ts :=
  readExpression_stable h (Nat.lt_succ_self _)

theorem read_within (ts : List Lexeme) : (read ts).Within ts :=
  readExpression_within _ ts

/-- An expression is a term and then a chain. -/
theorem read_eq (ts : List Lexeme) :
    read ts = (readTerm read ts).andThen (readChain read) := by
  have hinner (us : List Lexeme) (hus : us.length < ts.length) :
      readExpression ts.length us = read us := readExpression_eq_of_length hus
  rw [read, readExpression, readTerm_congr hinner]
  cases hterm : readTerm read ts with
  | failure rest => rfl
  | halted halt => rfl
  | success t rest =>
      have hlt := readTerm_shorter read_within hterm
      exact readChain_congr t fun us hus => hinner us (hus.trans hlt)

/-- Terms halt only where an expression from fewer lexemes does. -/
theorem readTerm_ne_halted (h : ∀ us, us.length < ts.length → ∀ halt, inner us ≠ .halted halt)
    (halt : Halt) : readTerm inner ts ≠ .halted halt := by
  intro hterm
  rcases readTerm_eq_halted hterm with ⟨us, rfl, hus⟩ | ⟨binder, us, rfl, hus⟩
  · exact h us (by simp) halt hus
  · exact h us (by simp only [List.length_cons]; omega) halt hus

theorem readChain_ne_halted (func : Term (Option Note))
    (h : ∀ us, us.length < ts.length → ∀ halt, inner us ≠ .halted halt) (halt : Halt) :
    readChain inner func ts ≠ .halted halt := by
  fun_induction readChain inner func ts with
  | case1 func ts rest hs => simp
  | case2 func ts halt' hs => exact absurd hs (readTerm_ne_halted h halt')
  | case3 func ts arg rest hs hlt ih => exact ih fun us hus => h us (hus.trans hlt)
  | case4 func ts arg rest hs hlt => simp

/-- Reading comes to an end. -/
theorem read_ne_halted (ts : List Lexeme) (halt : Halt) : read ts ≠ .halted halt := by
  -- By induction on the number of lexemes: whatever lies inside has fewer of them.
  induction hn : ts.length using Nat.strongRecOn generalizing ts halt with
  | ind n ih =>
      subst hn
      have hinner (us : List Lexeme) (hus : us.length < ts.length) (halt : Halt) :
          read us ≠ .halted halt := ih us.length hus us halt rfl
      intro h
      rw [read_eq] at h
      rcases Reads.andThen_eq_halted h with hterm | ⟨t, rest, hterm, hchain⟩
      · exact readTerm_ne_halted hinner halt hterm
      · have hlt := readTerm_shorter read_within hterm
        exact readChain_ne_halted t (fun us hus => hinner us (hus.trans hlt)) halt hchain

/-! ## Fewer levels -/

theorem readExpression_mono {m n : Nat} (hmn : m ≤ n)
    (h : readExpression m ts ≠ .halted .tooDeep) : readExpression n ts = readExpression m ts := by
  -- The bound on the levels is the depth of calls between the rules.
  obtain ⟨tokens, rfl⟩ := exists_tokens ts
  rw [← mapRest_expression] at h
  rw [← mapRest_expression, ← mapRest_expression]
  have happrox : Approx (evalAt ownRules m expression (.plain tokens))
      (evalAt ownRules n expression (.plain tokens)) := evalAt_mono _ hmn _ _
  have hne : evalAt ownRules m expression (.plain tokens) ≠ .error .tooDeep := by
    intro hdeep
    apply h
    rw [readsAt, show eval _ _ _ = _ from hdeep]
    rfl
  exact congrArg (fun r => (Reads.ofReply r).mapRest Token.lexeme) (happrox.eq_of_ne hne).symm

/-- With any number of levels, the descent stops for want of them or does what it does
    without a bound. -/
theorem readExpression_eq_read {levels : Nat} (h : readExpression levels ts ≠ .halted .tooDeep) :
    readExpression levels ts = read ts := by
  rcases Nat.lt_or_ge ts.length levels with hlt | hge
  · exact readExpression_eq_of_length hlt
  · exact (readExpression_mono (hge.trans (Nat.le_succ _)) h).symm

theorem read_eq_success {levels : Nat} {t : Term (Option Note)} {rest : List Lexeme}
    (h : readExpression levels ts = .success t rest) : read ts = .success t rest := by
  have hne : readExpression levels ts ≠ .halted .tooDeep := by simp [h]
  rw [← readExpression_eq_read hne, h]

theorem read_eq_failure {levels : Nat} {rest : List Lexeme}
    (h : readExpression levels ts = .failure rest) : read ts = .failure rest := by
  have hne : readExpression levels ts ≠ .halted .tooDeep := by simp [h]
  rw [← readExpression_eq_read hne, h]

end Grammar

end LambdaTree
