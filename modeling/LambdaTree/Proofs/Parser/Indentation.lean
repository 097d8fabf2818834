/-
  LambdaTree.Proofs.Parser.Indentation

  How the lines of a diagnostic are indented.  A diagnostic contains those of
  its parts, which contain those of theirs, and at every level the lines are
  indented once more.  What keeps them short is where they stand: a line that
  is indented `n` times has at least `n` lines before it (`WellIndented`), and
  of a part only thirteen lines are kept.
-/

import LambdaTree.Parser.Diagnostic

namespace LambdaTree

/-! ## Lines of texts -/

namespace Text

/-- Lines that are put together are the lines of the whole. -/
theorem lines_unlines {parts : List String} (hne : parts ≠ [])
    (h : ∀ part ∈ parts, '\n' ∉ part.toList) : lines (unlines parts) = parts := by
  have hchars : (unlines parts).toList = ['\n'].intercalate (parts.map String.toList) := by
    rw [unlines, String.toList_intercalate]
    rfl
  have hsplit : (['\n'].intercalate (parts.map String.toList)).splitOn '\n' =
      parts.map String.toList :=
    List.splitOn_intercalate '\n' (by simpa using h) (by simpa using hne)
  rw [lines, hchars, hsplit, List.map_map]
  simp

theorem lines_of_newline_not_mem {text : String} (h : '\n' ∉ text.toList) :
    lines text = [text] := by
  have hlines := lines_unlines (List.cons_ne_nil text []) (by simpa using h)
  rwa [unlines, String.intercalate_singleton] at hlines

end Text

namespace Diagnostic

/-! ## Indented lines -/

/-- A line that is indented a number of times.  Each time it is marked as the first of its
    part, or stands under the one that is. -/
inductive Indented (base : String) : Nat → String → Prop where
  | zero : Indented base 0 base
  | first {n : Nat} {line : String} (h : Indented base n line) :
      Indented base (n + 1) ("  - " ++ line)
  | under {n : Nat} {line : String} (h : Indented base n line) :
      Indented base (n + 1) ("    " ++ line)

namespace Indented

variable {base line : String} {n : Nat}

theorem length_eq (h : Indented base n line) : line.length = base.length + 4 * n := by
  induction h with
  | zero => rfl
  | first _ ih =>
      rw [String.length_append, ih, show "  - ".length = 4 by decide]
      omega
  | under _ ih =>
      rw [String.length_append, ih, show "    ".length = 4 by decide]
      omega

theorem newline_not_mem (h : Indented base n line) (hbase : '\n' ∉ base.toList) :
    '\n' ∉ line.toList := by
  induction h with
  | zero => exact hbase
  | first _ ih => simpa using ih
  | under _ ih => simpa using ih

end Indented

/-- Every line is one of the base lines, indented at most as often as there are lines before
    it, and at most thirteen times. -/
def WellIndented (Base : String → Prop) (lines : List String) : Prop :=
  ∀ j line, lines[j]? = some line →
    ∃ n base, n ≤ j ∧ n ≤ nestedLimit + 1 ∧ Base base ∧ Indented base n line

variable {Base : String → Prop} {lines : List String} {parts : List (List String)} {cause : Cause}

theorem wellIndented_singleton {line : String} (h : Base line) : WellIndented Base [line] := by
  intro j other hother
  obtain ⟨hj, rfl⟩ := List.getElem?_eq_some_iff.mp hother
  obtain rfl : j = 0 := by simpa using hj
  exact ⟨0, line, Nat.le_refl 0, Nat.zero_le _, h, .zero⟩

theorem WellIndented.mono {Base' : String → Prop} (h : WellIndented Base lines)
    (hbase : ∀ line, Base line → Base' line) : WellIndented Base' lines := by
  intro j line hline
  obtain ⟨n, base, hj, hn, hb, hindented⟩ := h j line hline
  exact ⟨n, base, hj, hn, hbase base hb, hindented⟩

theorem WellIndented.newline_not_mem (h : WellIndented Base lines)
    (hbase : ∀ line, Base line → '\n' ∉ line.toList) : ∀ line ∈ lines, '\n' ∉ line.toList := by
  intro line hmem
  obtain ⟨j, hj⟩ := List.mem_iff_getElem?.mp hmem
  obtain ⟨n, base, -, -, hb, hindented⟩ := h j line hj
  exact hindented.newline_not_mem (hbase base hb)

/-! ## The lines of parts -/

theorem length_shorten_le (lines : List String) : (shorten lines).length ≤ nestedLimit := by
  rw [shorten]
  split
  · assumption
  · simp only [List.length_append, List.length_take, List.length_singleton, nestedLimit]
    omega

/-- What is kept of some lines stands where it stood. -/
theorem getElem?_shorten {k : Nat} {line : String} (h : (shorten lines)[k]? = some line) :
    lines[k]? = some line ∨ line = "..." := by
  rw [shorten] at h
  split at h
  · exact .inl h
  · rw [List.getElem?_append] at h
    split at h
    · rw [List.getElem?_take] at h
      split at h
      · exact .inl h
      · cases h
    · right
      simpa using (List.mem_iff_getElem?.mpr ⟨_, h⟩ : line ∈ ["..."])

theorem length_indent_le (lines : List String) : (indent lines).length ≤ nestedLimit + 1 := by
  cases lines with
  | nil => exact Nat.zero_le _
  | cons first others =>
      rw [indent, List.length_cons, List.length_map]
      exact Nat.succ_le_succ (length_shorten_le others)

theorem length_nest_le (cause : Cause) (parts : List (List String)) :
    (nest cause parts).lines.length ≤ 1 + 13 * parts.length := by
  have hdetails : (parts.flatMap indent).length ≤ 13 * parts.length := by
    induction parts with
    | nil => exact Nat.le_refl 0
    | cons part parts ih =>
        have hpart : (indent part).length ≤ 13 := length_indent_le part
        rw [List.flatMap_cons, List.length_append, List.length_cons]
        omega
  rw [nest, Diagnostic.lines, List.length_cons]
  show (parts.flatMap indent).length + 1 ≤ _
  omega

/-- Below the line that they are a part of, lines are indented once more and stand one
    further down. -/
theorem indented_of_getElem?_indent (hmark : Base "...") (h : WellIndented Base lines) {i : Nat}
    {line : String} (hline : (indent lines)[i]? = some line) :
    ∃ n base, n ≤ i + 1 ∧ n ≤ nestedLimit + 1 ∧ Base base ∧ Indented base n line := by
  cases lines with
  | nil => cases hline
  | cons first others =>
      cases i with
      | zero =>
          cases hline
          obtain ⟨n, base, hj, -, hb, hindented⟩ := h 0 first rfl
          exact ⟨n + 1, base, by omega, by omega, hb, hindented.first⟩
      | succ k =>
          have hmap : ((shorten others).map ("    " ++ ·))[k]? = some line := hline
          rw [List.getElem?_map, Option.map_eq_some_iff] at hmap
          obtain ⟨kept, hkept, rfl⟩ := hmap
          have hk : k < nestedLimit :=
            Nat.lt_of_lt_of_le (List.getElem?_eq_some_iff.mp hkept).1 (length_shorten_le others)
          rcases getElem?_shorten hkept with hother | rfl
          · obtain ⟨n, base, hj, -, hb, hindented⟩ := h (k + 1) kept hother
            exact ⟨n + 1, base, by omega, by omega, hb, hindented.under⟩
          · exact ⟨1, "...", by omega, by omega, hmark, .under .zero⟩

/-- A diagnostic is well indented if the lines of its parts are. -/
theorem wellIndented_nest (hmark : Base "...") (hcause : Base cause.line)
    (h : ∀ part ∈ parts, WellIndented Base part) :
    WellIndented Base (nest cause parts).lines := by
  -- The lines of a part may stand further down, but never further up, than in the part.
  have hparts : ∀ j line, (parts.flatMap indent)[j]? = some line →
      ∃ n base, n ≤ j + 1 ∧ n ≤ nestedLimit + 1 ∧ Base base ∧ Indented base n line := by
    induction parts with
    | nil =>
        intro j line hline
        cases hline
    | cons part parts ih =>
        intro j line hline
        rw [List.forall_mem_cons] at h
        rw [List.flatMap_cons] at hline
        rw [List.getElem?_append] at hline
        split at hline
        · exact indented_of_getElem?_indent hmark h.1 hline
        · obtain ⟨n, base, hj, hn, hb, hindented⟩ := ih h.2 _ line hline
          exact ⟨n, base, by omega, hn, hb, hindented⟩
  intro j line hline
  cases j with
  | zero =>
      cases hline
      exact ⟨0, cause.line, Nat.le_refl 0, Nat.zero_le _, hcause, .zero⟩
  | succ j => exact hparts j line hline

/-! ## Own lines -/

/-- The lines that come into a diagnostic without being those of a part: the headers, what
    the parser was told to state, and what is shown of the input. -/
inductive OwnLine (States Shows : String → Prop) : String → Prop where
  | header {cause : Cause} (h : ∀ line, cause ≠ .stated line) : OwnLine States Shows cause.line
  | stated {text : String} (h : States text) : OwnLine States Shows (Cause.stated text).line
  | shown {text : String} (h : Shows text) : OwnLine States Shows text
  | remaining {text : String} (h : Shows text) : OwnLine States Shows ("Remaining: " ++ text)

/-- An own line, or the mark in place of lines that were left out. -/
def OwnLineOrMark (States Shows : String → Prop) (line : String) : Prop :=
  OwnLine States Shows line ∨ line = "..."

section

variable {States Shows : String → Prop} {line : String}

theorem OwnLine.newline_not_mem (h : OwnLine States Shows line)
    (hstates : ∀ text, States text → '\n' ∉ text.toList)
    (hshows : ∀ text, Shows text → '\n' ∉ text.toList) : '\n' ∉ line.toList := by
  cases h with
  | @header cause h =>
      cases cause with
      | stated line => exact absurd rfl (h line)
      | endOfInput | rejected | function | argument | noAlternatives | allAlternatives
      | leftover => decide
  | stated h => simpa [Cause.line] using hstates _ h
  | shown h => exact hshows _ h
  | remaining h => simpa using hshows _ h

theorem OwnLine.mono {States' Shows' : String → Prop} (h : OwnLine States Shows line)
    (hstates : ∀ text, States text → States' text) (hshows : ∀ text, Shows text → Shows' text) :
    OwnLine States' Shows' line := by
  cases h with
  | header h => exact .header h
  | stated h => exact .stated (hstates _ h)
  | shown h => exact .shown (hshows _ h)
  | remaining h => exact .remaining (hshows _ h)

/-- Where own lines are single lines, the lines of the message are those of the
    diagnostic. -/
theorem lines_message {diagnostic : Diagnostic}
    (h : WellIndented (OwnLineOrMark States Shows) diagnostic.lines)
    (hstates : ∀ text, States text → '\n' ∉ text.toList)
    (hshows : ∀ text, Shows text → '\n' ∉ text.toList) :
    Text.lines diagnostic.message = diagnostic.lines := by
  refine Text.lines_unlines (List.cons_ne_nil _ _) (h.newline_not_mem fun line hline => ?_)
  rcases hline with hown | rfl
  · exact hown.newline_not_mem hstates hshows
  · decide

/-- Thirteen indentations make a line fifty-two characters longer.  The mark is shorter than
    any header. -/
theorem WellIndented.length_le {lines : List String}
    (h : WellIndented (OwnLineOrMark States Shows) lines) (hmem : line ∈ lines) :
    ∃ base, OwnLine States Shows base ∧ line.length ≤ base.length + 52 := by
  obtain ⟨j, hj⟩ := List.mem_iff_getElem?.mp hmem
  obtain ⟨n, base, -, hn, hbase, hindented⟩ := h j line hj
  have hn : n ≤ 13 := hn
  have hlength := hindented.length_eq
  rcases hbase with hown | rfl
  · exact ⟨base, hown, by omega⟩
  · refine ⟨Cause.endOfInput.line, .header (by simp), ?_⟩
    rw [show "...".length = 3 by decide] at hlength
    rw [show Cause.endOfInput.line.length = 32 by decide]
    omega

end

end Diagnostic

end LambdaTree
