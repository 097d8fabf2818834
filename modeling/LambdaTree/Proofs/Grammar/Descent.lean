/-
  LambdaTree.Proofs.Grammar.Descent

  What the grammar reads off a list of lexemes, as a recursive descent.  A term
  is decided by its first lexemes; an expression is a first term and then terms
  as long as there are any, each applied to what came before.  The descent into
  an expression inside a term takes one of the levels that are allowed.

  `mapRest_expression` says that this is what the parsers of the grammar do on
  tokens, whatever the spans of the tokens are.
-/

import LambdaTree.Grammar
import LambdaTree.Proofs.Parser.Plain
import LambdaTree.Proofs.Parser.Transparency

namespace LambdaTree

/-! ## Places seen through a function -/

namespace Reads

variable {ι κ α β : Type}

/-- The same with every symbol of the place changed. -/
def mapRest (change : ι → κ) : Reads ι α → Reads κ α
  | .success value rest => .success value (rest.map change)
  | .failure rest => .failure (rest.map change)
  | .halted halt => .halted halt

theorem mapRest_andThen (change : ι → κ) (r : Reads ι α) {next : α → List ι → Reads ι β}
    {next' : α → List κ → Reads κ β}
    (h : ∀ value rest, (next value rest).mapRest change = next' value (rest.map change)) :
    (r.andThen next).mapRest change = (r.mapRest change).andThen next' := by
  cases r with
  | success value rest => exact h value rest
  | failure rest => rfl
  | halted halt => rfl

theorem mapRest_many (change : ι → κ) {step : List ι → Reads ι α} {step' : List κ → Reads κ α}
    (h : ∀ symbols, (step symbols).mapRest change = step' (symbols.map change))
    (symbols : List ι) :
    (many step symbols).mapRest change = many step' (symbols.map change) := by
  fun_induction many step symbols with
  | case1 symbols rest hs =>
      rw [many, ← h, hs]
      rfl
  | case2 symbols halt hs =>
      rw [many, ← h, hs]
      rfl
  | case3 symbols value rest hs hlt ih =>
      conv_rhs => rw [many, ← h, hs]
      simp only [mapRest, List.length_map, hlt, if_true]
      rw [← ih]
      exact mapRest_andThen change _ fun _ _ => rfl
  | case4 symbols value rest hs hlt =>
      rw [many, ← h, hs]
      simp only [mapRest, List.length_map, hlt, if_false]

theorem mapRest_furthest (change : ι → κ) (best : List ι) (places : List (List ι)) :
    (furthest best places).map change = furthest (best.map change) (places.map (List.map change)) := by
  induction places generalizing best with
  | nil => rfl
  | cons place places ih =>
      rw [furthest, ih, List.map_cons, furthest, List.length_map, List.length_map,
        apply_ite (List.map change)]

theorem mapRest_firstOf (change : ι → κ) (symbols : List ι) (rs : List (Reads ι α))
    (places : List (List ι)) :
    (firstOf symbols rs places).mapRest change =
      firstOf (symbols.map change) (rs.map (mapRest change)) (places.map (List.map change)) := by
  induction rs generalizing places with
  | nil =>
      cases places with
      | nil => rfl
      | cons place places => simp [firstOf, mapRest, mapRest_furthest]
  | cons r rs ih =>
      cases r with
      | success value rest => rfl
      | halted halt => rfl
      | failure rest =>
          rw [firstOf, ih]
          simp [firstOf, mapRest]

theorem Within.mapRest {change : ι → κ} {symbols : List ι} {r : Reads ι α} (h : r.Within symbols) :
    (r.mapRest change).Within (symbols.map change) := by
  cases r with
  | success value rest => exact List.IsSuffix.map change h
  | failure rest => exact List.IsSuffix.map change h
  | halted halt => trivial

end Reads

namespace Grammar

/-! ## Recursive descent -/

/-- Reading terms. -/
abbrev Reading : Type := Reads Lexeme (Term (Option Note))

/-- Reads one lexeme that is given, and goes on. -/
def expect (lexeme : Lexeme) (ts : List Lexeme) (next : List Lexeme → Reading) : Reading :=
  match ts with
  | [] => .failure []
  | first :: rest => if first = lexeme then next rest else .failure (first :: rest)

/-- Reads a word, and goes on. -/
def expectWord (ts : List Lexeme) (next : String → List Lexeme → Reading) : Reading :=
  match ts with
  | .word name :: rest => next name rest
  | _ => .failure ts

/-- Reads a term, for a way to read expressions. -/
def readTerm (inner : List Lexeme → Reading) : List Lexeme → Reading
  | .openParen :: ts =>
    (inner ts).andThen fun t rest => expect .closeParen rest fun last => .success t last
  | .lambda :: ts =>
    expectWord ts fun binder rest => expect .dot rest fun body =>
      (inner body).andThen fun t last => .success (.abs none binder t) last
  | .word name :: ts => .success (.var none name) ts
  | ts => .failure ts

/-- Reads further terms and applies what came before to them. -/
def readChain (inner : List Lexeme → Reading) (func : Term (Option Note)) (ts : List Lexeme) :
    Reading :=
  match readTerm inner ts with
  | .failure _ => .success func ts
  | .halted halt => .halted halt
  | .success arg rest =>
    if rest.length < ts.length then
      readChain inner (.app none func arg) rest
    else
      .success (.app none func arg) rest
termination_by ts.length

/-- Reads an expression, with a number of levels allowed. -/
def readExpression : (levels : Nat) → List Lexeme → Reading
  | 0, _ => .halted .tooDeep
  | levels + 1, ts =>
    (readTerm (readExpression levels) ts).andThen fun t rest =>
      readChain (readExpression levels) t rest

/-! ## The parsers of the grammar descend -/

open LambdaTree.Parser

section

variable {σ : Signature} {rules : Rules Token σ} {depth : Nat}

theorem mapRest_lexeme (lexeme : Lexeme)
    {next : Token → List Token → Reads Token (Term (Option Note))} {next' : List Lexeme → Reading}
    (h : ∀ first rest, (next first rest).mapRest Token.lexeme = next' (rest.map Token.lexeme))
    (tokens : List Token) :
    ((readsAt rules depth (token (· == lexeme)) tokens).andThen next).mapRest Token.lexeme =
      expect lexeme (tokens.map Token.lexeme) next' := by
  rw [token, readsAt_satisfy fun _ => rfl]
  cases tokens with
  | nil => rfl
  | cons first rest =>
      by_cases hl : first.lexeme = lexeme
      · simp [Reads.one, Symbol.item, Item.isToken, expect, hl, h]
      · simp [Reads.one, Symbol.item, Item.isToken, expect, hl, Reads.andThen, Reads.mapRest]

theorem mapRest_word {next : Token → List Token → Reads Token (Term (Option Note))}
    {next' : String → List Lexeme → Reading}
    (h : ∀ name span rest,
      (next ⟨.word name, span⟩ rest).mapRest Token.lexeme = next' name (rest.map Token.lexeme))
    (tokens : List Token) :
    ((readsAt rules depth wordToken tokens).andThen next).mapRest Token.lexeme =
      expectWord (tokens.map Token.lexeme) next' := by
  rw [wordToken, token, readsAt_satisfy fun _ => rfl]
  cases tokens with
  | nil => rfl
  | cons first rest =>
      obtain ⟨lexeme, span⟩ := first
      cases lexeme with
      | word name => exact h name span rest
      | _ => rfl

end

/-- The operator between the terms of an application. -/
def applyTo (func arg : Term (Option Note)) : Except Fault (Term (Option Note)) :=
  .ok (.app none func arg)

/-- Reading all further terms first and applying them afterwards is reading a chain. -/
theorem many_andThen_fold (inner : List Lexeme → Reading) (func : Term (Option Note))
    (ts : List Lexeme) :
    ((Reads.many (fun ts => (readTerm inner ts).andThen fun arg rest =>
        .success (applyTo, arg) rest) ts).andThen fun steps last =>
      .returns (foldOperators func steps) last) = readChain inner func ts := by
  fun_induction readChain inner func ts with
  | case1 func ts rest hs =>
      rw [Reads.many, hs]
      rfl
  | case2 func ts halt hs =>
      rw [Reads.many, hs]
      rfl
  | case3 func ts arg rest hs hlt ih =>
      -- The first argument is applied before the others, so the fold starts with it.
      rw [← ih, Reads.many, hs]
      simp only [Reads.success_andThen, hlt, if_true, Reads.andThen_assoc]
      rfl
  | case4 func ts arg rest hs hlt =>
      rw [Reads.many, hs]
      simp only [Reads.success_andThen, hlt, if_false]
      rfl

theorem readChain_cases (inner : List Lexeme → Reading) (func : Term (Option Note))
    (ts : List Lexeme) :
    (∃ t rest, readChain inner func ts = .success t rest) ∨
      ∃ halt, readChain inner func ts = .halted halt := by
  fun_induction readChain inner func ts with
  | case1 func ts rest hs => exact .inl ⟨func, ts, rfl⟩
  | case2 func ts halt hs => exact .inr ⟨halt, rfl⟩
  | case3 func ts arg rest hs hlt ih => exact ih
  | case4 func ts arg rest hs hlt => exact .inl ⟨_, rest, rfl⟩

section

variable {σ : Signature} {rules : Rules Token (signature σ)} {depth : Nat}
  {inner : List Lexeme → Reading}
  (hinner : ∀ tokens, (readsAt rules depth expression tokens).mapRest Token.lexeme =
    inner (tokens.map Token.lexeme))
  (tokens : List Token)

include hinner

theorem mapRest_parenthesised :
    (readsAt rules depth parenthesised tokens).mapRest Token.lexeme =
      expect .openParen (tokens.map Token.lexeme) fun ts =>
        (inner ts).andThen fun t rest => expect .closeParen rest fun last => .success t last := by
  simp only [parenthesised, readsAt_seqRight, readsAt_seqLeft, Reads.andThen_assoc,
    Reads.success_andThen]
  refine mapRest_lexeme .openParen (fun _ rest => ?_) tokens
  rw [Reads.mapRest_andThen Token.lexeme _ fun t rest => ?_, hinner]
  exact mapRest_lexeme .closeParen (fun _ _ => rfl) rest

theorem mapRest_abstraction :
    (readsAt rules depth abstraction tokens).mapRest Token.lexeme =
      expect .lambda (tokens.map Token.lexeme) fun ts =>
        expectWord ts fun binder rest => expect .dot rest fun body =>
          (inner body).andThen fun t last => .success (.abs none binder t) last := by
  simp only [abstraction, binder, readsAt_combine, readsAt_apply, readsAt_seqRight,
    readsAt_seqLeft, Reads.andThen_assoc, Reads.success_andThen]
  refine mapRest_lexeme .lambda (fun _ rest => ?_) tokens
  refine mapRest_word (fun name span rest => ?_) rest
  refine mapRest_lexeme .dot (fun _ rest => ?_) rest
  rw [Reads.mapRest_andThen Token.lexeme _ fun t rest => rfl, hinner]
  rfl

omit hinner in
theorem mapRest_variableTerm :
    (readsAt rules depth variableTerm tokens).mapRest Token.lexeme =
      expectWord (tokens.map Token.lexeme) fun name rest => .success (.var none name) rest := by
  simp only [variableTerm, readsAt_apply, Reads.andThen_assoc, Reads.success_andThen]
  exact mapRest_word (fun name span rest => rfl) tokens

/-- The three kinds of term differ in their first lexeme, so that at most one of them gets
    anywhere. -/
theorem mapRest_term :
    (readsAt rules depth term tokens).mapRest Token.lexeme =
      readTerm inner (tokens.map Token.lexeme) := by
  have hwithin (p : Parser Token (signature σ) (Term (Option Note))) :
      ((readsAt rules depth p tokens).mapRest Token.lexeme).Within (tokens.map Token.lexeme) :=
    (readsAt_within rules depth p tokens).mapRest
  have hparens := hwithin parenthesised
  have habs := hwithin abstraction
  rw [term, readsAt_memo, readsAt_firstOf, Reads.mapRest_firstOf]
  simp only [List.map_cons, List.map_nil]
  rw [mapRest_parenthesised hinner] at hparens ⊢
  rw [mapRest_abstraction hinner] at habs ⊢
  rw [mapRest_variableTerm]
  generalize tokens.map Token.lexeme = ts at hparens habs ⊢
  -- The first lexeme picks the alternative; the others fail in front of it.
  match ts with
  | [] => rfl
  | .openParen :: ts =>
      exact Reads.firstOf_eq_of_others [] [_, _] (by simp) (by simp [expect, expectWord]) hparens
  | .lambda :: ts =>
      exact Reads.firstOf_eq_of_others [_] [_] (by simp [expect]) (by simp [expectWord]) habs
  | .word name :: ts => rfl
  | .blank _ :: ts | .dot :: ts | .closeParen :: ts | .plain :: ts =>
      simp [expect, expectWord, readTerm, Reads.firstOf, Reads.furthest]

/-- Terms one after another are a first term and a chain. -/
theorem mapRest_application :
    (readsAt rules depth application tokens).mapRest Token.lexeme =
      (readTerm inner (tokens.map Token.lexeme)).andThen (readChain inner) := by
  simp only [application, chainLeft, readsAt_seq, readsAt_apply, Reads.andThen_assoc,
    Reads.success_andThen]
  rw [← mapRest_term hinner]
  refine Reads.mapRest_andThen Token.lexeme _ fun t rest => ?_
  have hstep (symbols : List Token) :
      (readsAt rules depth (combine Prod.mk (.succeed applyTo) term) symbols).mapRest Token.lexeme =
        (readTerm inner (symbols.map Token.lexeme)).andThen fun arg rest =>
          .success (applyTo, arg) rest := by
    rw [readsAt_combine, readsAt_succeed, Reads.success_andThen, ← mapRest_term hinner]
    exact Reads.mapRest_andThen Token.lexeme _ fun _ _ => rfl
  -- The parser collects operators with arguments and folds them at the end.
  rw [← many_andThen_fold, readsAt_many, ← Reads.mapRest_many Token.lexeme hstep]
  refine Reads.mapRest_andThen Token.lexeme _ fun steps last => ?_
  cases foldOperators t steps <;> rfl

end

theorem mapRest_expression (depth : Nat) (tokens : List Token) :
    (readsAt ownRules depth expression tokens).mapRest Token.lexeme =
      readExpression depth (tokens.map Token.lexeme) := by
  induction depth generalizing tokens with
  | zero => rfl
  | succ depth ih =>
      have hrule : readsAt ownRules (depth + 1) expression tokens =
          readsAt ownRules depth (firstOf [application, term]) tokens := rfl
      rw [hrule, readsAt_firstOf, Reads.mapRest_firstOf]
      simp only [List.map_cons, List.map_nil]
      -- A single term is a chain that ends at once, so the second alternative adds nothing:
      -- where the first fails, the second fails in the same place.
      rw [mapRest_application ih, mapRest_term ih, readExpression]
      cases readTerm (readExpression depth) (tokens.map Token.lexeme) with
      | success t rest =>
        rw [Reads.success_andThen]
        rcases readChain_cases (readExpression depth) t rest with ⟨t', rest', h⟩ | ⟨halt, h⟩
        · rw [h]
          rfl
        · rw [h]
          rfl
      | failure rest => simp [Reads.andThen, Reads.firstOf, Reads.furthest]
      | halted halt => rfl

end Grammar

end LambdaTree
