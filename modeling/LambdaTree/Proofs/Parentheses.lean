/-
  LambdaTree.Proofs.Parentheses

  Which parentheses of a printed term matter.  A term is printed with one kind
  of pair that could be left out: around an abstraction that is the last
  argument in its row, since its body ends where the row does.  Without any
  other pair, the text is still that of a term, but of another one.
-/

import LambdaTree.Proofs.Grammar.NestingLimit
import LambdaTree.Proofs.Term.Omission

namespace LambdaTree

open Grammar

variable {α : Type}

/-! ## Reading with levels to spare -/

/-- A text is read as a term under every nesting limit that it does not exceed, and there is
    one that it does not exceed. -/
structure ReadsAs (source : String) (t : Term (Option Note)) : Prop where
  reads : ∃ limit, parseWithin limit source = .ok t
  always : ∀ limit, parseWithin limit source = .ok t ∨
    parseWithin limit source = .error (.malformed (tooDeepError source))

theorem ReadsAs.unique {source : String} {t u : Term (Option Note)} (ht : ReadsAs source t)
    (hu : ReadsAs source u) : t = u := by
  obtain ⟨limit, hlimit⟩ := ht.reads
  rcases hu.always limit with h | h
  · simpa [hlimit] using h
  · simp [hlimit] at h

/-- A text that covers the lexemes of a tree is read as the tree. -/
theorem Covers.readsAs {source : String} {ts : List Lexeme} {t : Term (Option Note)}
    (h : Covers source.toList ts) (ht : Derives .expression ts t) : ReadsAs source t := by
  obtain ⟨tokens, htokens, rfl⟩ := h.tokenize
  have hread (limit : Nat) (hlimit : parseTokensWithin limit (.plain (Token.significant tokens))
      source ≠ .error (.malformed (tooDeepError source))) : parseWithin limit source = .ok t := by
    rw [parseWithin_of_tokenize htokens, (outcome_of_ne_tooDeep hlimit).eq_ok_iff]
    exact derives_iff_read.mp ht
  refine ⟨⟨_, hread _ (parseTokensWithin_ne_tooDeep_of_length (Nat.le_refl _))⟩, fun limit => ?_⟩
  by_cases hlimit : parseTokensWithin limit (.plain (Token.significant tokens)) source =
      .error (.malformed (tooDeepError source))
  · exact .inr (by rw [parseWithin_of_tokenize htokens, hlimit])
  · exact .inl (hread limit hlimit)

/-! ## Leaving out one pair -/

/-- The text around a subterm in parentheses and its own text, without the parentheses, are
    read as a term, which is the same for an abstraction as a last argument only. -/
theorem Term.Encloses.exists_readsAs {e s : Term α} {address : List Nat} {front rest : String}
    (h : e.Encloses address front.toList s rest.toList) (hnames : e.WordNames) :
    ∃ t, ReadsAs (front ++ s.print ++ rest) t ∧
      (t.same e = true ↔ s.binding = .abstraction ∧ e.LastArgumentAt address) := by
  obtain ⟨t, ht⟩ := h.exists_remains
  have hcovers := h.coversAs hnames [] [] (by simp [WordEnds]) .nil
  refine ⟨t, Covers.readsAs (by simpa using hcovers) ht.derives, ?_⟩
  rw [Term.same_iff_strip, ht.derives.strip_eq, ht.eq_strip_iff]

/-- The parentheses of a printed term.  Take any that match each other in the text of a term
    whose names are words.  They are those of a subterm, and the text without them is read as
    a term, whatever the nesting limit, unless it hits it.  This is the term that was printed
    if and only if the subterm is an abstraction and the argument of an application that is
    not the function of another.  It is another term if and only if the subterm is an
    abstraction that is applied, or an application that is an argument, or an abstraction
    that is an argument before others. -/
theorem parentheses_needed_but_last {e : Term α} (hnames : e.WordNames)
    {front inside rest : String} (hprint : e.print = front ++ "(" ++ inside ++ ")" ++ rest)
    (hinside : Balanced inside.toList) :
    ∃ t, ReadsAs (front ++ inside ++ rest) t ∧
      (∃ address s, e.Encloses address front.toList s rest.toList) ∧
      ∀ address s, e.Encloses address front.toList s rest.toList →
        e.subtermAt address = some s ∧ s.print = inside ∧
        (t.same e = true ↔ s.binding = .abstraction ∧ e.LastArgumentAt address) ∧
        (t.same e = false ↔
          (s.binding = .abstraction ∧ e.FunctionAt address) ∨
          (s.binding = .application ∧ ∃ parent, e.ArgumentOf parent address) ∨
          (s.binding = .abstraction ∧ e.InnerArgumentAt address)) := by
  have htext : e.print.toList =
      front.toList ++ '(' :: (inside.toList ++ ')' :: rest.toList) := by
    simp [hprint]
  -- The parentheses stand around one text only.
  have hsame {address : List Nat} {s : Term α}
      (h : e.Encloses address front.toList s rest.toList) : s.print = inside := by
    have htwo := h.toList_print.symm.trans htext
    exact String.toList_inj.mp (by simpa using htwo)
  obtain ⟨address, s, h, -⟩ := Term.exists_encloses hnames hinside htext
  obtain ⟨t, ht, -⟩ := h.exists_readsAs hnames
  rw [hsame h] at ht
  refine ⟨t, ht, ⟨address, s, h⟩, fun address s h => ?_⟩
  obtain ⟨u, hu, hiff⟩ := h.exists_readsAs hnames
  rw [hsame h] at hu
  obtain rfl := ht.unique hu
  refine ⟨h.subtermAt, hsame h, hiff, ?_⟩
  rw [← h.other_iff, ← hiff, Bool.not_eq_true]

/-- Two abstractions in parentheses, of which the second pair can be left out. -/
theorem parentheses_two_abstractions :
    let e : Term Nat := .app 1 (.abs 2 "x" (.var 3 "x")) (.abs 4 "y" (.var 5 "y"))
    e.WordNames ∧ Balanced "λx.x".toList ∧ Balanced "λy.y".toList ∧
      e.print = "" ++ "(" ++ "λx.x" ++ ")" ++ " (λy.y)" ∧
      e.print = "(λx.x) " ++ "(" ++ "λy.y" ++ ")" ++ "" ∧
      (∃ t, ReadsAs ("" ++ "λx.x" ++ " (λy.y)") t ∧ t.same e = false) ∧
      ∃ t, ReadsAs ("(λx.x) " ++ "λy.y" ++ "") t ∧ t.same e = true := by
  intro e
  have hnames : e.WordNames := by decide
  have hx : Balanced "λx.x".toList := .of_not_mem (by decide) (by decide)
  have hy : Balanced "λy.y".toList := .of_not_mem (by decide) (by decide)
  have hprint : e.print = "(λx.x) (λy.y)" := by
    simp only [e, Term.print_app, Term.print_abs, Term.print_var]
    decide
  have hfirst : e.print = "" ++ "(" ++ "λx.x" ++ ")" ++ " (λy.y)" := hprint.trans (by decide)
  have hsecond : e.print = "(λx.x) " ++ "(" ++ "λy.y" ++ ")" ++ "" := hprint.trans (by decide)
  have hfunction : e.Encloses [0] "".toList (.abs 2 "x" (.var 3 "x")) " (λy.y)".toList := by
    have hbehind : (Term.abs 4 "y" (.var 5 "y")).argumentText = "(λy.y)".toList := by
      simp only [Term.argumentText, Term.print_abs, Term.print_var]
      decide
    have hpair :=
      @Term.Encloses.function _ 1 (.abs 2 "x" (.var 3 "x")) (.abs 4 "y" (.var 5 "y")) rfl
    rw [hbehind] at hpair
    exact hpair
  have hargument : e.Encloses [1] "(λx.x) ".toList (.abs 4 "y" (.var 5 "y")) "".toList := by
    have hfront : (Term.abs 2 "x" (.var 3 "x")).functionText = "(λx.x)".toList := by
      simp only [Term.functionText, Term.print_abs, Term.print_var]
      decide
    have hpair :=
      @Term.Encloses.argument _ 1 (.abs 2 "x" (.var 3 "x")) (.abs 4 "y" (.var 5 "y")) rfl
    rw [hfront] at hpair
    exact hpair
  refine ⟨hnames, hx, hy, hfirst, hsecond, ?_, ?_⟩
  · obtain ⟨t, ht, -, hall⟩ := parentheses_needed_but_last hnames hfirst hx
    obtain ⟨-, -, -, hother⟩ := hall _ _ hfunction
    exact ⟨t, ht, hother.mpr (.inl ⟨rfl, [], rfl, Term.appliesAt_app⟩)⟩
  · obtain ⟨t, ht, -, hall⟩ := parentheses_needed_but_last hnames hsecond hy
    obtain ⟨-, -, hsame, -⟩ := hall _ _ hargument
    exact ⟨t, ht, hsame.mpr ⟨rfl, [], ⟨rfl, Term.appliesAt_app⟩, Term.not_functionAt_nil⟩⟩

end LambdaTree
