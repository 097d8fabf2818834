/-
  LambdaTree.Proofs.Text.Quoting

  Quoted texts are read back.  `readChar` undoes `escapeChar` for one character,
  before any rest (`readChar_escapeChar`): a backslash says by the character
  behind it what it stands for, and a code point has a fixed number of digits.
  No escape begins with the quote in use, so the quote that ends a text is found,
  and a quoted text tells where it ends (`quoteChars_append_inj`).

  Which characters are printable makes no difference to any of this.
-/

import LambdaTree.Text.Quoted
import Mathlib.Algebra.Ring.Nat
import Mathlib.Tactic.SplitIfs

namespace LambdaTree.Text

/-! ## Code points -/

/-- The value of a hexadecimal digit in lower case. -/
def hexValue (c : Char) : Nat :=
  if c.toNat < 0x3a then c.toNat - 0x30 else c.toNat - 0x57

/-- The number that hexadecimal digits spell. -/
def readHex (digits : List Char) : Nat :=
  digits.foldl (fun n digit => 16 * n + hexValue digit) 0

theorem hexValue_hexDigit : ∀ d < 16, hexValue (hexDigit d) = d := by decide

theorem hexDigit_ne_newline : ∀ d < 16, hexDigit d ≠ '\n' := by decide

theorem length_hexDigits (width n : Nat) : (hexDigits width n).length = width := by
  induction width generalizing n with
  | zero => rfl
  | succ width ih => rw [hexDigits, List.length_append, ih, List.length_singleton]

theorem readHex_hexDigits (width n : Nat) : readHex (hexDigits width n) = n % 16 ^ width := by
  induction width generalizing n with
  | zero => simp [hexDigits, readHex, Nat.mod_one]
  | succ width ih =>
      have hdigit : hexValue (hexDigit (n % 16)) = n % 16 :=
        hexValue_hexDigit _ (Nat.mod_lt n (by decide))
      have hstep : readHex (hexDigits width (n / 16) ++ [hexDigit (n % 16)]) =
          16 * readHex (hexDigits width (n / 16)) + hexValue (hexDigit (n % 16)) := by
        simp [readHex]
      rw [hexDigits, hstep, ih, hdigit, Nat.pow_succ', Nat.mod_mul]
      omega

theorem newline_not_mem_hexDigits (width n : Nat) : '\n' ∉ hexDigits width n := by
  induction width generalizing n with
  | zero => simp [hexDigits]
  | succ width ih =>
      rw [hexDigits, List.mem_append, List.mem_singleton]
      rintro (hmem | hdigit)
      · exact ih (n / 16) hmem
      · exact hexDigit_ne_newline _ (Nat.mod_lt n (by decide)) hdigit.symm

/-- Every code point is below U+110000. -/
theorem toNat_lt (c : Char) : c.toNat < 0x110000 := by
  have hvalid := c.valid
  simp only [UInt32.isValidChar, Nat.isValidChar] at hvalid
  simp only [Char.toNat]
  omega

/-! ## Single characters -/

/-- The character whose code point is given by the first `width` digits. -/
def readCode (width : Nat) (text : List Char) : Char × List Char :=
  (Char.ofNat (readHex (text.take width)), text.drop width)

/-- Reads the first character of an escaped text. -/
def readChar : List Char → Option (Char × List Char)
  | [] => none
  | '\\' :: 'n' :: rest => some ('\n', rest)
  | '\\' :: 'r' :: rest => some ('\r', rest)
  | '\\' :: 't' :: rest => some ('\t', rest)
  | '\\' :: 'x' :: rest => some (readCode 2 rest)
  | '\\' :: 'u' :: rest => some (readCode 4 rest)
  | '\\' :: 'U' :: rest => some (readCode 8 rest)
  | '\\' :: c :: rest => some (c, rest)
  | c :: rest => some (c, rest)

theorem readCode_hexDigits {width : Nat} {c : Char} (h : c.toNat < 16 ^ width)
    (rest : List Char) : readCode width (hexDigits width c.toNat ++ rest) = (c, rest) := by
  have htake : (hexDigits width c.toNat ++ rest).take width = hexDigits width c.toNat :=
    List.take_left' (length_hexDigits _ _)
  have hdrop : (hexDigits width c.toNat ++ rest).drop width = rest :=
    List.drop_left' (length_hexDigits _ _)
  rw [readCode, htake, hdrop, readHex_hexDigits, Nat.mod_eq_of_lt h, Char.ofNat_toNat]

theorem readChar_escapeCode (c : Char) (rest : List Char) :
    readChar (escapeCode c ++ rest) = some (c, rest) := by
  have hbound := toNat_lt c
  rw [escapeCode]
  split
  · have hx : c.toNat < 16 ^ 2 := by assumption
    simp only [List.cons_append, readChar, readCode_hexDigits hx]
  · split
    · have hu : c.toNat < 16 ^ 4 := by assumption
      simp only [List.cons_append, readChar, readCode_hexDigits hu]
    · have hU : c.toNat < 16 ^ 8 := by omega
      simp only [List.cons_append, readChar, readCode_hexDigits hU]

/-- Texts are written between single or double quotes. -/
def IsQuote (quote : Char) : Prop :=
  quote = singleQuote ∨ quote = doubleQuote

theorem isQuote_quoteFor (chars : List Char) : IsQuote (quoteFor chars) := by
  rw [quoteFor]
  split
  · exact .inr rfl
  · exact .inl rfl

variable {printable : Char → Bool} {quote : Char}

/-- What is written for a character is read back as this character. -/
theorem readChar_escapeChar (hquote : IsQuote quote) (c : Char) (rest : List Char) :
    readChar (escapeChar printable quote c ++ rest) = some (c, rest) := by
  rw [escapeChar]
  split_ifs with hspecial hn hr ht hprintable
  · -- A backslash or a quote behind a backslash stands for itself.
    rcases hspecial with rfl | rfl
    · rcases hquote with rfl | rfl <;> rfl
    · rfl
  · rw [hn]
    rfl
  · rw [hr]
    rfl
  · rw [ht]
    rfl
  · have hc : c ≠ '\\' := fun h => hspecial (.inr h)
    rw [List.singleton_append, readChar.eq_def]
    simp [hc]
  · exact readChar_escapeCode c rest

/-- No escape begins with the quote in use. -/
theorem escapeChar_append_ne (hquote : IsQuote quote) (c : Char) (rest rest' : List Char) :
    escapeChar printable quote c ++ rest ≠ quote :: rest' := by
  have hslash : quote ≠ '\\' := by rcases hquote with rfl | rfl <;> decide
  intro h
  have hhead : (escapeChar printable quote c ++ rest).head? = some quote := by rw [h]; rfl
  rw [escapeChar] at hhead
  split_ifs at hhead with hspecial hn hr ht hprintable
  all_goals try exact hslash (Option.some.inj hhead).symm
  · exact hspecial (.inl (Option.some.inj hhead))
  · rw [escapeCode] at hhead
    split_ifs at hhead <;> exact hslash (Option.some.inj hhead).symm

theorem newline_not_mem_escapeCode (c : Char) : '\n' ∉ escapeCode c := by
  rw [escapeCode]
  split_ifs <;> simp [newline_not_mem_hexDigits]

theorem newline_not_mem_escapeChar (hquote : IsQuote quote) (c : Char) :
    '\n' ∉ escapeChar printable quote c := by
  rw [escapeChar]
  split_ifs with hspecial hn hr ht hprintable
  · rcases hspecial with rfl | rfl
    · rcases hquote with rfl | rfl <;> decide
    · decide
  · decide
  · decide
  · decide
  · simpa using fun h => hn h.symm
  · exact newline_not_mem_escapeCode c

/-! ## Whole texts -/

/-- The escapes of two texts that go on alike are those of one text. -/
theorem escapes_append_inj (hquote : IsQuote quote) {left right rest rest' : List Char}
    (h : left.flatMap (escapeChar printable quote) ++ quote :: rest =
      right.flatMap (escapeChar printable quote) ++ quote :: rest') :
    left = right ∧ rest = rest' := by
  induction left generalizing right with
  | nil =>
      cases right with
      | nil => exact ⟨rfl, (List.cons.inj h).2⟩
      | cons c right =>
          rw [List.flatMap_cons, List.append_assoc] at h
          exact absurd h.symm (escapeChar_append_ne hquote _ _ _)
  | cons c left ih =>
      rw [List.flatMap_cons, List.append_assoc] at h
      cases right with
      | nil => exact absurd h (escapeChar_append_ne hquote _ _ _)
      | cons d right =>
          rw [List.flatMap_cons, List.append_assoc] at h
          have hread := congrArg readChar h
          rw [readChar_escapeChar hquote, readChar_escapeChar hquote] at hread
          obtain ⟨rfl, hrest⟩ := Prod.mk.inj (Option.some.inj hread)
          obtain ⟨rfl, hend⟩ := ih hrest
          exact ⟨rfl, hend⟩

/-- A quoted text tells which text it is and where it ends, whatever comes behind it. -/
theorem quoteChars_append_inj {left right rest rest' : List Char}
    (h : quoteChars printable left ++ rest = quoteChars printable right ++ rest') :
    left = right ∧ rest = rest' := by
  simp only [quoteChars, List.cons_append, List.append_assoc, List.nil_append] at h
  obtain ⟨hquote, htail⟩ := List.cons.inj h
  rw [hquote] at htail
  exact escapes_append_inj (isQuote_quoteFor right) htail

/-- A quoted text is on one line. -/
theorem newline_not_mem_quoteWith (text : String) :
    '\n' ∉ (quoteWith printable text).toList := by
  have hquote := isQuote_quoteFor text.toList
  have hne : '\n' ≠ quoteFor text.toList := by
    rcases hquote with h | h <;> rw [h] <;> decide
  rw [quoteWith, String.toList_ofList, quoteChars]
  simp only [List.mem_cons, List.mem_append, List.mem_flatMap, List.not_mem_nil, or_false]
  rintro (h | ⟨c, -, h⟩ | h)
  · exact hne h
  · exact newline_not_mem_escapeChar hquote c h
  · exact hne h

end LambdaTree.Text
