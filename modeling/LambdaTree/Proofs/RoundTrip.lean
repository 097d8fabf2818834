/-
  LambdaTree.Proofs.RoundTrip

  Printing a term and reading the text back.  The text of a term falls into the
  lexemes of the term, with single blanks between a function and its argument,
  when all names in the term are words (`covers_print`).  They are read as the
  term, as far as the nesting allows.  A name that is no word is lost, because
  whatever is read has words for names.
-/

import LambdaTree.Proofs.Grammar.Language
import LambdaTree.Proofs.Lexer.Covering
import LambdaTree.Proofs.Term.Lexemes

namespace LambdaTree

open Grammar Lexer

variable {α β : Type}

/-! ## Names -/

/-- Whether a text is a word: a small letter or an underscore, and then letters, digits
    and underscores. -/
def isWordText : List Char → Bool
  | [] => false
  | c :: cs => isWordStart c && cs.all isWordPart

namespace Term

/-- The names of all variables and binders of a term. -/
def names : Term α → List String
  | .var _ name => [name]
  | .abs _ binder body => binder :: body.names
  | .app _ func arg => func.names ++ arg.names

/-- Every variable and every binder is a word. -/
def WordNames (t : Term α) : Prop :=
  ∀ name ∈ t.names, isWordText name.toList = true

instance (t : Term α) : Decidable t.WordNames :=
  inferInstanceAs (Decidable (∀ name ∈ t.names, isWordText name.toList = true))

theorem names_strip (t : Term α) : t.strip.names = t.names := by
  rw [strip]
  induction t with
  | var note name => simp [names]
  | abs note binder body ih => simp [names, ih]
  | app note func arg ihf iha => simp [names, ihf, iha]

end Term

/-- What spells a word is the word, and a word. -/
theorem Lexer.Spells.isWordText {name : String} {piece : List Char}
    (h : Spells (.word name) piece) : isWordText name.toList = true := by
  cases h with
  | word hc hcs => simpa [LambdaTree.isWordText, hc] using hcs

/-- The names in a tree are words among the lexemes. -/
theorem Grammar.Derives.word_mem {c : Category} {ts : List Lexeme} {t : Term (Option Note)}
    (h : Derives c ts t) : ∀ name ∈ t.names, .word name ∈ ts := by
  induction h with
  | word name => simp [Term.names]
  | parens _ ih =>
      intro name hname
      simp [ih name hname]
  | atom _ ih => exact ih
  | abstraction binder _ ih =>
      intro name hname
      rcases List.mem_cons.mp hname with rfl | hname
      · simp
      · simp [ih name hname]
  | head _ ih => exact ih
  | single _ ih => exact ih
  | applied _ _ ihf iha | chain _ _ ihf iha =>
      intro name hname
      rcases List.mem_append.mp hname with hname | hname
      · exact List.mem_append_left _ (ihf name hname)
      · exact List.mem_append_right _ (iha name hname)

/-! ## The text of a term -/

namespace Term

theorem binding_fold (t : Term α) :
    (t.fold Printed.abs Printed.app Printed.var).binding = t.binding := by
  cases t <;> simp [Printed.abs, Printed.app, Printed.var, binding]

theorem print_var (note : α) (name : String) : (Term.var note name).print = name := by
  rw [print, fold_var, Printed.var]

theorem print_abs (note : α) (binder : String) (body : Term α) :
    (Term.abs note binder body).print = "λ" ++ binder ++ "." ++ body.print := by
  rw [print, fold_abs, Printed.abs, print]

theorem print_app (note : α) (func arg : Term α) :
    (Term.app note func arg).print =
      Printed.parenthesise func.print func.binding.wrapsFunction ++ " " ++
        Printed.parenthesise arg.print arg.binding.wrapsArgument := by
  rw [print, fold_app, Printed.app, binding_fold, binding_fold, print, print]

end Term

/-- The mark in front of a text that may be wrapped. -/
def opening (wrap : Bool) : List Char := if wrap then ['('] else []

/-- The mark behind a text that may be wrapped. -/
def closing (wrap : Bool) : List Char := if wrap then [')'] else []

theorem toList_parenthesise (text : String) (wrap : Bool) :
    (Printed.parenthesise text wrap).toList = opening wrap ++ (text.toList ++ closing wrap) := by
  cases wrap <;> simp [Printed.parenthesise, opening, closing]

namespace Term

/-- The text of a term that is applied. -/
def functionText (t : Term α) : List Char :=
  opening t.binding.wrapsFunction ++ (t.print.toList ++ closing t.binding.wrapsFunction)

/-- The text of a term that another is applied to. -/
def argumentText (t : Term α) : List Char :=
  opening t.binding.wrapsArgument ++ (t.print.toList ++ closing t.binding.wrapsArgument)

theorem toList_print_abs (note : α) (binder : String) (body : Term α) :
    (Term.abs note binder body).print.toList =
      'λ' :: (binder.toList ++ '.' :: body.print.toList) := by
  simp [print_abs]

theorem toList_print_app (note : α) (func arg : Term α) :
    (Term.app note func arg).print.toList = func.functionText ++ ' ' :: arg.argumentText := by
  simp [print_app, functionText, argumentText, toList_parenthesise]

end Term

/-! ## The tokens of the text -/

/-- A word would not go on with the first of these characters. -/
def WordEnds (cs : List Char) : Prop :=
  ¬∃ c ∈ cs.head?, isWordPart c = true

/-- A text covers some lexemes wherever it stands before what cannot go on with a word. -/
def CoversAs (text : List Char) (lexemes : List Lexeme) : Prop :=
  ∀ cs ts, WordEnds cs → Covers cs ts → Covers (text ++ cs) (lexemes ++ ts)

namespace CoversAs

variable {text text' : List Char} {us us' : List Lexeme} {name : String}

theorem word (hname : isWordText name.toList = true) : CoversAs name.toList [.word name] := by
  intro cs ts hends hcs
  cases htext : name.toList with
  | nil =>
      rw [htext] at hname
      cases hname
  | cons c rest =>
      rw [htext, isWordText, Bool.and_eq_true, List.all_eq_true] at hname
      have hofList : String.ofList (c :: rest) = name := by rw [← htext, String.ofList_toList]
      have hspells : Spells (.word name) (c :: rest) := hofList ▸ .word hname.1 hname.2
      exact hcs.piece hspells hends rfl

theorem parenthesised (h : CoversAs text us) (wrap : Bool) :
    CoversAs (opening wrap ++ (text ++ closing wrap)) (enclose wrap us) := by
  cases wrap with
  | false => simpa [opening, closing, enclose] using h
  | true =>
      intro cs ts _ hcs
      -- The tiles are laid from the right: a word must know what follows it.
      have hclose : Covers (')' :: cs) (.closeParen :: ts) := hcs.piece .closeParen id rfl
      have hinside := h (')' :: cs) (.closeParen :: ts) (by simp [WordEnds]; decide) hclose
      have hopen := hinside.piece .openParen id rfl
      simpa [opening, closing, enclose] using hopen

theorem abstraction (hname : isWordText name.toList = true) (h : CoversAs text us) :
    CoversAs ('λ' :: (name.toList ++ '.' :: text)) (.lambda :: .word name :: .dot :: us) := by
  intro cs ts hends hcs
  have hdot := (h cs ts hends hcs).piece .dot id rfl
  have hbinder := word hname _ _ (by simp [WordEnds]; decide) hdot
  have hlambda := hbinder.piece .lambda id rfl
  simpa using hlambda

/-- The blank between the two does not matter, but it ends the word before it. -/
theorem application (hfunc : CoversAs text us) (harg : CoversAs text' us') :
    CoversAs (text ++ ' ' :: text') (us ++ us') := by
  intro cs ts hends hcs
  have hspace : Covers ([' '] ++ _) _ :=
    (harg cs ts hends hcs).blanks (List.forall_mem_singleton.mpr (by decide))
  have hleft := hfunc _ _ (by simp [WordEnds]; decide) hspace
  simpa using hleft

end CoversAs

namespace Term

variable {note : α} {x : String} {t f a : Term α}

theorem WordNames.name (h : (Term.var note x).WordNames) : isWordText x.toList = true :=
  h x (List.mem_cons_self ..)

theorem WordNames.binder (h : (Term.abs note x t).WordNames) : isWordText x.toList = true :=
  h x (List.mem_cons_self ..)

theorem WordNames.body (h : (Term.abs note x t).WordNames) : t.WordNames :=
  fun name hname => h name (List.mem_cons_of_mem _ hname)

theorem WordNames.func (h : (Term.app note f a).WordNames) : f.WordNames :=
  fun name hname => h name (List.mem_append_left _ hname)

theorem WordNames.arg (h : (Term.app note f a).WordNames) : a.WordNames :=
  fun name hname => h name (List.mem_append_right _ hname)

end Term

/-- The text of a term covers its lexemes. -/
theorem covers_print {t : Term α} (h : t.WordNames) : CoversAs t.print.toList t.lexemes := by
  induction t with
  | var note name =>
      rw [Term.print_var]
      exact .word h.name
  | abs note binder body ih =>
      rw [Term.toList_print_abs]
      exact .abstraction h.binder (ih h.body)
  | app note func arg ihf iha =>
      rw [Term.toList_print_app]
      exact .application (.parenthesised (ihf h.func) _) (.parenthesised (iha h.arg) _)

theorem covers_functionText {t : Term α} (h : t.WordNames) :
    CoversAs t.functionText (enclose t.binding.wrapsFunction t.lexemes) :=
  (covers_print h).parenthesised _

theorem covers_argumentText {t : Term α} (h : t.WordNames) :
    CoversAs t.argumentText (enclose t.binding.wrapsArgument t.lexemes) :=
  (covers_print h).parenthesised _

theorem tokenize_print {e : Term α} (h : e.WordNames) :
    ∃ tokens, tokenize e.print = .ok tokens ∧
      (Token.significant tokens).map Token.lexeme = e.lexemes := by
  have hcovers := covers_print h [] [] (by simp [WordEnds]) .nil
  rw [List.append_nil, List.append_nil] at hcovers
  exact hcovers.tokenize

/-! ## Reading the text back -/

/-- The text of a term is read as the same term, but for the notes. -/
def RoundTrips (limit : Nat) (e : Term α) : Prop :=
  ∃ t, parseWithin limit e.print = .ok t ∧ t.same e = true

variable {limit : Nat} {e : Term α}

theorem roundTrips_of_wordNames (h : e.WordNames)
    (hlimit : parseWithin limit e.print ≠ .error (.malformed (tooDeepError e.print))) :
    RoundTrips limit e := by
  obtain ⟨tokens, htokens, hlexemes⟩ := tokenize_print h
  refine ⟨e.strip, ?_, ?_⟩
  · rw [parseWithin_of_tokenize htokens] at hlimit ⊢
    rw [(outcome_of_ne_tooDeep hlimit).eq_ok_iff, ← derives_iff_read, hlexemes]
    exact e.derives_lexemes.expression_of_binding
  · rw [Term.same_iff_strip, e.derives_lexemes.strip_eq]

/-- The names of a term that was read are words. -/
theorem wordNames_of_parseWithin {source : String} {t : Term (Option Note)}
    (h : parseWithin limit source = .ok t) : t.WordNames := by
  obtain ⟨tokens, htokens⟩ := exists_tokenize_of_parseWithin h
  rw [parseWithin_of_tokenize htokens] at h
  have hne : parseTokensWithin limit (.plain (Token.significant tokens)) source ≠
      .error (.malformed (tooDeepError source)) := by
    rw [h]
    simp
  have hderives := derives_iff_read.mpr ((outcome_of_ne_tooDeep hne).eq_ok_iff.mp h)
  -- A name in the tree is the word of a token, which its text spells.
  intro name hname
  obtain ⟨token, htoken, hlexeme⟩ := List.mem_map.mp (hderives.word_mem name hname)
  have hspells := tokenize_spells htokens token (List.mem_of_mem_filter htoken)
  rw [hlexeme] at hspells
  exact hspells.isWordText

/-- Printing and reading.  Unless its text hits the nesting limit, a term is read back as
    the same term if and only if its variables and binders are words.  Where they are, a
    depth within the limit is enough, because the text has never as many parentheses and
    binders open at once as the term is deep. -/
theorem roundTrips_iff_wordNames (limit : Nat) (e : Term α) :
    (parseWithin limit e.print ≠ .error (.malformed (tooDeepError e.print)) →
      (RoundTrips limit e ↔ e.WordNames)) ∧
    (e.WordNames → e.depth ≤ limit + 1 → RoundTrips limit e) ∧
    (e.WordNames → ∃ tokens, tokenize e.print = .ok tokens ∧
      ∀ c, c <+: (Token.significant tokens).map Token.lexeme → openLevels c + 1 ≤ e.depth) := by
  refine ⟨fun hlimit => ⟨?_, fun h => roundTrips_of_wordNames h hlimit⟩, ?_, ?_⟩
  · -- Names that were read are words, and the term has the same names.
    rintro ⟨t, hparse, hsame⟩
    have hnames := wordNames_of_parseWithin hparse
    rw [Term.same_iff_strip] at hsame
    rw [Term.WordNames, ← Term.names_strip, hsame, Term.names_strip] at hnames
    exact hnames
  · intro h hdepth
    obtain ⟨tokens, htokens, hlexemes⟩ := tokenize_print h
    refine roundTrips_of_wordNames h ?_
    rw [parseWithin_of_tokenize htokens]
    refine parseTokensWithin_ne_tooDeep (readExpression_ne_tooDeep fun c hc => ?_)
    rw [hlexemes] at hc
    have hopen := Term.openLevels_lexemes hc
    omega
  · intro h
    obtain ⟨tokens, htokens, hlexemes⟩ := tokenize_print h
    refine ⟨tokens, htokens, fun c hc => ?_⟩
    rw [hlexemes] at hc
    exact Term.openLevels_lexemes hc

/-- An abstraction and an application in parentheses, with notes, at the limit of the
    depth. -/
theorem roundTrips_applied_abstraction :
    let e : Term Nat := .app 1 (.abs 2 "x" (.var 3 "x")) (.app 4 (.var 5 "y") (.var 6 "z1"))
    e.print = "(λx.x) (y z1)" ∧ e.WordNames ∧ e.depth ≤ 2 + 1 ∧ RoundTrips 2 e ∧
      parseWithin 2 e.print ≠ .error (.malformed (tooDeepError e.print)) ∧
      (RoundTrips 2 e ↔ e.WordNames) := by
  intro e
  have hprint : e.print = "(λx.x) (y z1)" := by
    simp only [e, Term.print_app, Term.print_abs, Term.print_var]
    decide
  have hnames : e.WordNames := by decide
  have hdepth : e.depth ≤ 2 + 1 := by simp [e, Term.depth]
  obtain ⟨hiff, hdeep, -⟩ := roundTrips_iff_wordNames 2 e
  have htrip := hdeep hnames hdepth
  have hlimit : parseWithin 2 e.print ≠ .error (.malformed (tooDeepError e.print)) := by
    obtain ⟨t, hparse, -⟩ := htrip
    rw [hparse]
    simp
  exact ⟨hprint, hnames, hdepth, htrip, hlimit, hiff hlimit⟩

end LambdaTree
