/-
  LambdaTree.Proofs.Grammar.Derivation

  The language of expressions, said twice.

  `Generates` is the grammar as one writes it down: an expression is some terms
  one after another.  It is ambiguous, because the body of an abstraction may
  end before any later term.  `Derives` is the canonical grammar, which gives
  each expression a tree: only the last of the terms may be an abstraction, so
  that a body always goes on to the right as far as it can.

  Both describe the same sequences (`generates_iff_wellFormed`): a term that
  follows an abstraction can be moved into its body.
-/

import LambdaTree.Term.Note
import LambdaTree.Token

namespace LambdaTree

namespace Grammar

/-! ## The canonical grammar -/

/-- What a sequence of lexemes may be. -/
inductive Category where
  /-- A variable or an expression in parentheses. -/
  | atom
  /-- An atom or an abstraction. -/
  | term
  /-- Atoms one after another, each applied to the next. -/
  | spine
  | expression
deriving DecidableEq

/-- The canonical grammar: a sequence of lexemes is of a category and has a tree. -/
inductive Derives : Category → List Lexeme → Term (Option Note) → Prop where
  | word (name : String) : Derives .atom [.word name] (.var none name)
  | parens {ts : List Lexeme} {t : Term (Option Note)} (h : Derives .expression ts t) :
      Derives .atom (.openParen :: (ts ++ [.closeParen])) t
  | atom {ts : List Lexeme} {t : Term (Option Note)} (h : Derives .atom ts t) : Derives .term ts t
  /-- The body is a whole expression. -/
  | abstraction (binder : String) {ts : List Lexeme} {t : Term (Option Note)}
      (h : Derives .expression ts t) :
      Derives .term (.lambda :: .word binder :: .dot :: ts) (.abs none binder t)
  | head {ts : List Lexeme} {t : Term (Option Note)} (h : Derives .atom ts t) : Derives .spine ts t
  /-- Application associates to the left. -/
  | applied {ts us : List Lexeme} {f a : Term (Option Note)} (hf : Derives .spine ts f)
      (ha : Derives .atom us a) : Derives .spine (ts ++ us) (.app none f a)
  /-- An expression of one term. -/
  | single {ts : List Lexeme} {t : Term (Option Note)} (h : Derives .term ts t) :
      Derives .expression ts t
  /-- An expression of several terms, of which all but the last are atoms. -/
  | chain {ts us : List Lexeme} {f a : Term (Option Note)} (hf : Derives .spine ts f)
      (ha : Derives .term us a) : Derives .expression (ts ++ us) (.app none f a)

/-- A sequence of lexemes that is an expression. -/
def WellFormed (ts : List Lexeme) : Prop :=
  ∃ t, Derives .expression ts t

/-! ## The ambiguous grammar -/

inductive Nonterminal where
  | expression
  | application
  /-- Any number of terms. -/
  | terms
  | term
  | abstraction
  | variableName
deriving DecidableEq

/-- The grammar as it is written down, without trees. -/
inductive Generates : Nonterminal → List Lexeme → Prop where
  | ofApplication {ts : List Lexeme} (h : Generates .application ts) : Generates .expression ts
  | ofTerm {ts : List Lexeme} (h : Generates .term ts) : Generates .expression ts
  | application {ts us : List Lexeme} (h : Generates .term ts) (hs : Generates .terms us) :
      Generates .application (ts ++ us)
  | noTerms : Generates .terms []
  | moreTerms {ts us : List Lexeme} (h : Generates .term ts) (hs : Generates .terms us) :
      Generates .terms (ts ++ us)
  | parens {ts : List Lexeme} (h : Generates .expression ts) :
      Generates .term (.openParen :: (ts ++ [.closeParen]))
  | ofAbstraction {ts : List Lexeme} (h : Generates .abstraction ts) : Generates .term ts
  | ofVariable {ts : List Lexeme} (h : Generates .variableName ts) : Generates .term ts
  | abstraction (binder : String) {ts : List Lexeme} (h : Generates .expression ts) :
      Generates .abstraction (.lambda :: .word binder :: .dot :: ts)
  | word (name : String) : Generates .variableName [.word name]

/-! ## Sequences of expressions -/

variable {c : Category} {ts us : List Lexeme} {t f g : Term (Option Note)}

theorem spine_append (hf : Derives .spine ts f) (hg : Derives .spine us g) :
    ∃ t, Derives .spine (ts ++ us) t := by
  generalize hc : Category.spine = c at hg
  induction hg with
  | head h => exact ⟨_, .applied hf h⟩
  | applied _ ha ih _ =>
      obtain ⟨t, ht⟩ := ih hc
      rw [← List.append_assoc]
      exact ⟨_, .applied ht ha⟩
  | _ => cases hc

/-- A spine before an expression is a longer spine. -/
theorem WellFormed.spine_append (hf : Derives .spine ts f) (h : WellFormed us) :
    WellFormed (ts ++ us) := by
  obtain ⟨t, ht⟩ := h
  cases ht with
  | single h => exact ⟨_, .chain hf h⟩
  | chain hg ha =>
      obtain ⟨t, ht⟩ := Grammar.spine_append hf hg
      rw [← List.append_assoc]
      exact ⟨_, .chain ht ha⟩

/-- What follows an expression can be taken into it: where it ends with an abstraction,
    into the body. -/
theorem wellFormed_append (h : Derives c ts t) (hus : WellFormed us) : WellFormed (ts ++ us) := by
  induction h with
  | word name => exact hus.spine_append (.head (.word name))
  | parens h => exact hus.spine_append (.head (.parens h))
  | atom _ ih => exact ih
  | abstraction binder _ ih =>
      -- The body takes in what follows.
      obtain ⟨t, ht⟩ := ih
      exact ⟨_, .single (.abstraction binder ht)⟩
  | head _ ih => exact ih
  | applied hf ha => exact hus.spine_append (.applied hf ha)
  | single _ ih => exact ih
  | chain hf _ _ iha =>
      -- Only the last term meets what follows; the atoms before it stay a spine.
      rw [List.append_assoc]
      exact iha.spine_append hf

/-! ## One language -/

theorem terms_append (h : Generates .terms ts) (hu : Generates .term us) :
    Generates .terms (ts ++ us) := by
  generalize hn : Nonterminal.terms = n at h
  induction h with
  | noTerms => simpa using Generates.moreTerms hu .noTerms
  | moreTerms h _ _ ih =>
      rw [List.append_assoc]
      exact .moreTerms h (ih hn)
  | _ => cases hn

/-- The nonterminal that a category falls under. -/
def Category.nonterminal : Category → Nonterminal
  | .atom => .term
  | .term => .term
  | .spine => .application
  | .expression => .expression

theorem Derives.generates (h : Derives c ts t) : Generates c.nonterminal ts := by
  induction h with
  | word name => exact .ofVariable (.word name)
  | parens _ ih => exact .parens ih
  | atom _ ih => exact ih
  | abstraction binder _ ih => exact .ofAbstraction (.abstraction binder ih)
  | head _ ih => simpa [Category.nonterminal] using Generates.application ih .noTerms
  | applied _ _ ihf iha =>
      -- The last argument goes behind the terms that there are.
      cases ihf with
      | application h hs =>
          rw [List.append_assoc]
          exact .application h (terms_append hs iha)
  | single _ ih => exact .ofTerm ih
  | chain _ _ ihf iha =>
      cases ihf with
      | application h hs =>
          rw [List.append_assoc]
          exact .ofApplication (.application h (terms_append hs iha))

/-- Whatever the ambiguous grammar generates is well formed, or is no terms at all. -/
theorem Generates.wellFormed {n : Nonterminal} (h : Generates n ts) :
    WellFormed ts ∨ n = .terms ∧ ts = [] := by
  induction h with
  | ofApplication _ ih => exact .inl (ih.resolve_right (by simp))
  | ofTerm _ ih => exact .inl (ih.resolve_right (by simp))
  | noTerms => exact .inr ⟨rfl, rfl⟩
  | parens _ ih =>
      obtain ⟨t, ht⟩ := ih.resolve_right (by simp)
      exact .inl ⟨t, .single (.atom (.parens ht))⟩
  | ofAbstraction _ ih => exact .inl (ih.resolve_right (by simp))
  | ofVariable _ ih => exact .inl (ih.resolve_right (by simp))
  | abstraction binder _ ih =>
      obtain ⟨t, ht⟩ := ih.resolve_right (by simp)
      exact .inl ⟨_, .single (.abstraction binder ht)⟩
  | word name => exact .inl ⟨_, .single (.atom (.word name))⟩
  | application _ _ ih ihs | moreTerms _ _ ih ihs =>
      -- A first term that is an abstraction swallows the terms behind it.
      obtain ⟨t, ht⟩ := ih.resolve_right (by simp)
      rcases ihs with hus | ⟨-, rfl⟩
      · exact .inl (wellFormed_append ht hus)
      · exact .inl (by simpa using ⟨t, ht⟩)

/-- The two grammars have one language. -/
theorem generates_iff_wellFormed : Generates .expression ts ↔ WellFormed ts := by
  constructor
  · intro h
    exact h.wellFormed.resolve_right (by simp)
  · rintro ⟨t, ht⟩
    exact ht.generates

end Grammar

end LambdaTree
