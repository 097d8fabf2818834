/-
  LambdaTree.Proofs.Term.Lexemes

  A term as the lexemes that its text is made of.  They have the term as their
  tree (`derives_lexemes`): parentheses stand around every function that is an
  abstraction and around every argument that is no variable, so what is applied
  is a spine and what it is applied to is an atom.

  Each level that the lexemes open goes with a step down into the term, so the
  depth of the term bounds how many are open at once (`peak_lexemes`).
-/

import LambdaTree.Proofs.Grammar.Nesting
import LambdaTree.Proofs.Term.Equality
import LambdaTree.Term.Measure
import LambdaTree.Term.Print

namespace LambdaTree

open Grammar

variable {α : Type}

/-! ## The lexemes of a term -/

/-- Some lexemes with or without parentheses around them. -/
def enclose (wrap : Bool) (ts : List Lexeme) : List Lexeme :=
  if wrap then .openParen :: (ts ++ [.closeParen]) else ts

namespace Term

/-- How tightly the text of a term holds together. -/
def binding : Term α → Binding
  | .var _ _ => .atom
  | .abs _ _ _ => .abstraction
  | .app _ _ _ => .application

/-- The lexemes that spell a term. -/
def lexemes : Term α → List Lexeme
  | .var _ name => [.word name]
  | .abs _ binder body => .lambda :: .word binder :: .dot :: body.lexemes
  | .app _ func arg =>
    enclose func.binding.wrapsFunction func.lexemes ++
      enclose arg.binding.wrapsArgument arg.lexemes

end Term

/-! ## Their tree -/

/-- The category of a text that holds together in some way. -/
def Binding.category : Binding → Category
  | .abstraction => .term
  | .application => .spine
  | .atom => .atom

theorem Grammar.Derives.expression_of_binding {binding : Binding} {ts : List Lexeme}
    {t : Term (Option Note)} (h : Derives binding.category ts t) : Derives .expression ts t := by
  cases binding with
  | abstraction => exact .single h
  | application => exact h.spine_expression
  | atom => exact .single (.atom h)

/-- A function that is wrapped where it has to be is a spine. -/
theorem derives_function {binding : Binding} {ts : List Lexeme} {t : Term (Option Note)}
    (h : Derives binding.category ts t) :
    Derives .spine (enclose binding.wrapsFunction ts) t := by
  cases binding with
  | abstraction => exact .head (.parens h.expression_of_binding)
  | application => exact h
  | atom => exact .head h

/-- An argument that is wrapped where it has to be is an atom. -/
theorem derives_argument {binding : Binding} {ts : List Lexeme} {t : Term (Option Note)}
    (h : Derives binding.category ts t) :
    Derives .atom (enclose binding.wrapsArgument ts) t := by
  cases binding with
  | abstraction => exact .parens h.expression_of_binding
  | application => exact .parens h.expression_of_binding
  | atom => exact h

namespace Term

/-- The lexemes of a term have it as their tree. -/
theorem derives_lexemes (t : Term α) : Derives t.binding.category t.lexemes t.strip := by
  rw [strip]
  induction t with
  | var note name =>
      rw [annotate_var]
      exact .word name
  | abs note binder body ih =>
      rw [annotate_abs]
      exact .abstraction binder ih.expression_of_binding
  | app note func arg ihf iha =>
      rw [annotate_app]
      exact .applied (derives_function ihf) (derives_argument iha)

end Term

/-! ## How deep they are nested -/

/-- The greatest number of levels that are open at once in some lexemes. -/
def peak (levels : List Level) : List Lexeme → Nat
  | [] => levels.length
  | x :: ts => max levels.length (peak (Level.after levels x) ts)

theorem length_le_peak (levels : List Level) (ts : List Lexeme) : levels.length ≤ peak levels ts := by
  cases ts with
  | nil => exact Nat.le_refl _
  | cons x ts => exact Nat.le_max_left _ _

theorem levelsAfter_le_peak {levels : List Level} {c ts : List Lexeme} (h : c <+: ts) :
    (levelsAfter levels c).length ≤ peak levels ts := by
  induction c generalizing levels ts with
  | nil => exact length_le_peak levels ts
  | cons x c ih =>
      obtain ⟨us, rfl⟩ := h
      exact (ih (List.prefix_append c us)).trans (Nat.le_max_right _ _)

theorem peak_append (levels : List Level) (ts us : List Lexeme) :
    peak levels (ts ++ us) = max (peak levels ts) (peak (levelsAfter levels ts) us) := by
  induction ts generalizing levels with
  | nil =>
      have hle := length_le_peak levels us
      rw [List.nil_append, peak]
      exact (Nat.max_eq_right hle).symm
  | cons x ts ih =>
      rw [List.cons_append, peak, peak, ih, Nat.max_assoc]
      rfl

/-- Parentheses add one level to what is inside. -/
theorem peak_enclose {ts : List Lexeme} {t : Term (Option Note)} (ht : Derives .expression ts t)
    {bound : Nat} (h : ∀ levels : List Level, peak levels ts ≤ levels.length + bound)
    (wrap : Bool) (levels : List Level) : peak levels (enclose wrap ts) ≤ levels.length + (bound + 1) := by
  cases wrap with
  | false => exact (h levels).trans (by omega)
  | true =>
      have hinside := h (.paren :: levels)
      have hlast : (levelsAfter (.paren :: levels) ts).length ≤ peak (.paren :: levels) ts :=
        levelsAfter_le_peak List.prefix_rfl
      have hclose : Level.after (levelsAfter (.paren :: levels) ts) .closeParen = levels := by
        obtain ⟨k, hk⟩ := ht.leaves (.paren :: levels)
        rw [hk]
        exact closeParen_after k
      have hopen : Level.after levels .openParen = .paren :: levels := rfl
      -- The highest point is inside: in front of the parentheses and behind them no more
      -- levels are open than there.
      rw [enclose, if_pos rfl, peak, hopen, peak_append, peak, peak, hclose]
      rw [List.length_cons] at hinside
      omega

namespace Term

/-- The lexemes of a term never have as many levels open as the term is deep. -/
theorem peak_lexemes (t : Term α) (levels : List Level) :
    peak levels t.lexemes ≤ levels.length + (t.depth - 1) := by
  induction t generalizing levels with
  | var note name => simp [lexemes, peak, Level.after]
  | abs note binder body ih =>
      have hdepth : (Term.abs note binder body).depth = 1 + body.depth := fold_abs _ _ _ _ _ _
      have hpos := body.depth_pos
      have hbody := ih (.binder :: levels)
      rw [List.length_cons] at hbody
      simp only [lexemes, peak, Level.after, hdepth]
      omega
  | app note func arg ihf iha =>
      have hdepth : (Term.app note func arg).depth = 1 + max func.depth arg.depth :=
        fold_app _ _ _ _ _ _
      have hposf := func.depth_pos
      have hposa := arg.depth_pos
      have hf := peak_enclose func.derives_lexemes.expression_of_binding ihf
        func.binding.wrapsFunction levels
      have ha := peak_enclose arg.derives_lexemes.expression_of_binding iha
        arg.binding.wrapsArgument levels
      -- The function closes all that it opens, so the argument starts from the same levels.
      have hclosed : levelsAfter levels (enclose func.binding.wrapsFunction func.lexemes) = levels :=
        (derives_function func.derives_lexemes).levelsAfter_spine
      rw [lexemes, peak_append, hclosed, hdepth]
      omega

/-- At most as many levels are open at once as there are nodes above the deepest one. -/
theorem openLevels_lexemes {t : Term α} {c : List Lexeme} (h : c <+: t.lexemes) :
    openLevels c + 1 ≤ t.depth := by
  have hpeak := t.peak_lexemes []
  have hle : openLevels c ≤ peak [] t.lexemes := levelsAfter_le_peak h
  have hpos := t.depth_pos
  rw [List.length_nil] at hpeak
  omega

end Term

end LambdaTree
