/-
  LambdaTree.Proofs.Parser.Rounds

  One round of a repetition.  A repetition calls its parser and, behind a
  success, goes on; what it yields is told by what the call yields and what
  comes behind it (`Round`).  There is one such equivalence for `many`, one for
  `many1`, and one for the recursive definition that `many` stands for: the
  parser and then once more the same, or nothing (`onceMore`).
-/

import LambdaTree.Proofs.Parser.Deepening

namespace LambdaTree

variable {ι α β : Type} {σ : Signature}

/-! ## What is left of an input -/

namespace Input

variable {input rest : Input ι}

@[simp] theorem drop_zero (input : Input ι) : input.drop 0 = input := by
  cases input <;> simp [drop]

theorem drop_drop (input : Input ι) (m n : Nat) : (input.drop m).drop n = input.drop (m + n) := by
  cases input with
  | plain symbols => rw [drop, drop, drop, List.drop_drop]
  | view cursor =>
      have hsum : cursor.offset + (m : Int) + n = cursor.offset + ((m + n : Nat) : Int) := by omega
      rw [drop, drop, drop, hsum]

/-- A suffix is what is left behind some of the symbols. -/
theorem Suffix.exists_drop (h : rest.Suffix input) :
    ∃ n, rest = input.drop n ∧ input.size = n + rest.size := by
  cases h with
  | same _ => exact ⟨0, input.drop_zero.symm, (Nat.zero_add _).symm⟩
  | @plain rest symbols h =>
      refine ⟨symbols.length - rest.length, ?_, ?_⟩
      · rw [drop, ← List.suffix_iff_eq_drop.mp h]
      · have hle := h.length_le
        rw [size, size]
        omega
  | @view data n offset place hdata hle hn =>
      have hsize := Sequence.size_of_length hdata
      refine ⟨(place - offset).toNat, ?_, ?_⟩
      · have hplace : offset + ((place - offset).toNat : Int) = place := by omega
        rw [drop, hplace]
      · simp only [size, Cursor.size, Cursor.toSequence, Sequence.size, hsize]
        omega

/-- Behind something that was read, both lengths are known. -/
theorem Suffix.exists_lengths (h : rest.Suffix input) (hlt : rest.size < input.size) :
    (∃ m, rest.length = .ok m) ∧ ∃ n, input.length = .ok n := by
  cases h with
  | same _ => exact absurd hlt (Nat.lt_irrefl _)
  | plain _ => exact ⟨⟨_, rfl⟩, ⟨_, rfl⟩⟩
  | view hdata hle hn =>
      exact ⟨⟨_, length_view hdata hn⟩, ⟨_, length_view hdata (Int.le_trans hle hn)⟩⟩

/-- Where nothing was read, the input is left as it was. -/
theorem Suffix.eq_of_size (h : rest.Suffix input) (hle : ¬rest.size < input.size) :
    rest = input := by
  obtain ⟨n, rfl, hsize⟩ := h.exists_drop
  obtain rfl : n = 0 := by omega
  exact input.drop_zero

end Input

namespace Parser

section

variable [Symbol ι] {rules : Rules ι σ} {p : Parser ι σ α} {m : Parser ι σ (List α)}
  {input : Input ι} {s after : Session ι σ}

/-! ## Repetition by recursion -/

/-- A parser that is what a rule says, under the name of the rule. -/
inductive DefinedAs (rules : Rules ι σ) : {β : Type} → Parser ι σ β → Parser ι σ β → Prop where
  | rule (name : σ.Rule) : DefinedAs rules (.rule name) (rules name)

/-- The parser and then once more the same, or nothing. -/
def onceMore (p : Parser ι σ α) (again : Parser ι σ (List α)) : Parser ι σ (List α) :=
  firstOf [combine List.cons p again, .succeed []]

section

variable {q body : Parser ι σ β}

theorem DefinedAs.exec_succ (h : DefinedAs rules q body) (depth : Nat) (input : Input ι) :
    exec (callAt rules (depth + 1)) q input = exec (callAt rules depth) body input := by
  cases h
  rfl

theorem DefinedAs.exec_zero (h : DefinedAs rules q body) (input : Input ι) :
    exec (callAt rules 0) q input = throw .tooDeep := by
  cases h
  rfl

/-- A rule yields what its definition does. -/
theorem DefinedAs.yields_iff (h : DefinedAs rules q body) {answer : Except Halt (Reply ι β)} :
    Yields rules q input s answer after ↔ Yields rules body input s answer after := by
  rw [yields_iff_exists, yields_iff_exists]
  constructor
  · rintro ⟨hne, depth, hrun⟩
    cases depth with
    | zero =>
        rw [h.exec_zero] at hrun
        cases hrun
        exact absurd rfl hne
    | succ depth => exact ⟨hne, depth, by rwa [← h.exec_succ]⟩
  · rintro ⟨hne, depth, hrun⟩
    exact ⟨hne, depth + 1, by rwa [h.exec_succ]⟩

end

/-! ## What the parsers do -/

section

variable (call : (name : σ.Rule) → Input ι → Run ι σ (Reply ι (σ.ruleValue name)))

theorem exec_cons (p : Parser ι σ α) (again : Parser ι σ (List α)) (input : Input ι) :
    exec call (combine List.cons p again) input = do
      match ← exec call p input with
      | .failure diagnostic place =>
        return .failure (.nest .function [(Diagnostic.nest .argument [diagnostic.lines]).lines]) place
      | .success value middle =>
        match ← exec call again middle with
        | .failure diagnostic place => return .failure (.nest .argument [diagnostic.lines]) place
        | .success values rest => return .success (value :: values) rest := by
  simp only [combine, exec, exec_apply, bind_assoc]
  refine congrArg _ (funext fun reply => ?_)
  cases reply with
  | failure diagnostic place => rfl
  | success value middle =>
      simp only [pure_bind]
      refine congrArg _ (funext fun reply => ?_)
      cases reply <;> rfl

theorem exec_onceMore (p : Parser ι σ α) (again : Parser ι σ (List α)) (input : Input ι) :
    exec call (onceMore p again) input = do
      match ← exec call p input with
      | .failure _ _ => return .success [] input
      | .success value middle =>
        match ← exec call again middle with
        | .failure _ _ => return .success [] input
        | .success values rest => return .success (value :: values) rest := by
  have htry : exec call (onceMore p again) input =
      tryEach input [exec call (combine List.cons p again) input,
        exec call (.succeed []) input] [] := rfl
  rw [htry, tryEach, exec_cons, bind_assoc]
  refine congrArg _ (funext fun reply => ?_)
  cases reply with
  | failure diagnostic place => rfl
  | success value middle =>
      rw [bind_assoc]
      refine congrArg _ (funext fun reply => ?_)
      cases reply <;> rfl

theorem exec_many (p : Parser ι σ α) (input : Input ι) :
    exec call (.many p) input = do
      match ← exec call p input with
      | .failure _ _ => return .success [] input
      | .success value rest =>
        let _ ← Run.check rest.length
        let _ ← Run.check input.length
        if rest.size < input.size then
          return (← exec call (.many p) rest).map (value :: ·)
        else
          return .success [value] rest := by
  rw [exec, iterate, bind_assoc]
  refine congrArg _ (funext fun reply => ?_)
  cases reply with
  | failure diagnostic place => rfl
  | success value rest =>
      simp only [bind_assoc]
      refine congrArg _ (funext fun _ => congrArg _ (funext fun _ => ?_))
      by_cases hlt : rest.size < input.size
      · simp only [hlt, if_true, exec, bind_assoc, pure_bind, Reply.map]
      · simp only [hlt, if_false, pure_bind]

end

/-! ## Rounds -/

/-- What one call of a parser, and what comes behind its success, amount to. -/
inductive Round (rules : Rules ι σ) (p : Parser ι σ α) (input : Input ι) (s : Session ι σ)
    (onFailure : Diagnostic → Input ι → Reply ι β)
    (Later : α → Input ι → Session ι σ → Except Halt (Reply ι β) → Session ι σ → Prop) :
    Except Halt (Reply ι β) → Session ι σ → Prop where
  | failed {diagnostic : Diagnostic} {place : Input ι} {after : Session ι σ}
      (h : Yields rules p input s (.ok (.failure diagnostic place)) after) :
      Round rules p input s onFailure Later (.ok (onFailure diagnostic place)) after
  | halted {halt : Halt} {after : Session ι σ} (h : Yields rules p input s (.error halt) after) :
      Round rules p input s onFailure Later (.error halt) after
  | passed {value : α} {rest : Input ι} {s' after : Session ι σ}
      {answer : Except Halt (Reply ι β)}
      (h : Yields rules p input s (.ok (.success value rest)) s')
      (hlater : Later value rest s' answer after) :
      Round rules p input s onFailure Later answer after

section

variable {onFailure : Diagnostic → Input ι → Reply ι β}
  {Later Later' : α → Input ι → Session ι σ → Except Halt (Reply ι β) → Session ι σ → Prop}
  {answer : Except Halt (Reply ι β)}

theorem Round.mono (h : Round rules p input s onFailure Later answer after)
    (hlater : ∀ value rest s', Yields rules p input s (.ok (.success value rest)) s' →
      Later value rest s' answer after → Later' value rest s' answer after) :
    Round rules p input s onFailure Later' answer after := by
  cases h with
  | failed h => exact .failed h
  | halted h => exact .halted h
  | passed h hl => exact .passed h (hlater _ _ _ h hl)

theorem round_congr
    (hlater : ∀ value rest s', Yields rules p input s (.ok (.success value rest)) s' →
      (Later value rest s' answer after ↔ Later' value rest s' answer after)) :
    Round rules p input s onFailure Later answer after ↔
      Round rules p input s onFailure Later' answer after :=
  ⟨fun h => h.mono fun value rest s' hp => (hlater value rest s' hp).mp,
    fun h => h.mono fun value rest s' hp => (hlater value rest s' hp).mpr⟩

/-- Where the parser succeeds, only what comes behind counts. -/
theorem round_iff_of_success {value : α} {rest : Input ι} {s' : Session ι σ}
    (h : Yields rules p input s (.ok (.success value rest)) s') :
    Round rules p input s onFailure Later answer after ↔ Later value rest s' answer after := by
  constructor
  · intro hround
    cases hround with
    | failed h' => cases (h.unique h').1
    | halted h' => cases (h.unique h').1
    | passed h' hlater =>
        obtain ⟨hreply, rfl⟩ := h.unique h'
        cases hreply
        exact hlater
  · exact fun hlater => .passed h hlater

/-- A parser that calls another first yields what a round of the other amounts to. -/
theorem yields_iff_round {q : Parser ι σ β} {k : α → Input ι → Nat → Run ι σ (Reply ι β)}
    (hq : ∀ depth, exec (callAt rules depth) q input = do
      match ← exec (callAt rules depth) p input with
      | .failure diagnostic place => return onFailure diagnostic place
      | .success value rest => k value rest depth)
    (hk : ∀ value rest, Run.Deepening (k value rest)) :
    Yields rules q input s answer after ↔
      Round rules p input s onFailure (fun value rest s' => Run.Settles (k value rest) s')
        answer after := by
  rw [Yields, funext hq]
  constructor
  · intro h
    rcases h.of_bind with ⟨halt, hhalt, rfl⟩ | ⟨reply, s', hreply, hlater⟩
    · exact .halted hhalt
    · cases reply with
      | failure diagnostic place =>
          obtain ⟨rfl, rfl⟩ := Run.settles_pure_iff.mp hlater
          exact .failed hreply
      | success value rest => exact .passed hreply hlater
  · have hdeep : ∀ reply : Reply ι α, Run.Deepening fun depth => (match reply with
        | .failure diagnostic place => pure (onFailure diagnostic place)
        | .success value rest => k value rest depth : Run ι σ (Reply ι β)) := by
      intro reply
      cases reply with
      | failure diagnostic place => exact .const _
      | success value rest => exact hk value rest
    have hp := deepening_exec rules p input
    intro h
    cases h with
    | failed h => exact Run.Settles.bind hp hdeep h (Run.settles_pure_iff.mpr ⟨rfl, rfl⟩)
    | halted h => exact Run.Settles.bind_halt h
    | passed h hlater => exact Run.Settles.bind hp hdeep h hlater

end

/-! ## One round of each repetition -/

section

variable {answer : Except Halt (Reply ι (List α))}

/-- What comes behind a success of a parser that is repeated once more. -/
def Again (rules : Rules ι σ) (again : Parser ι σ (List α)) (value : α) (rest : Input ι)
    (s : Session ι σ) (answer : Except Halt (Reply ι (List α))) (after : Session ι σ) : Prop :=
  ∃ later, Yields rules again rest s later after ∧ answer = later.map (Reply.map (value :: ·))

/-- What comes behind a success in a loop: another round, or nothing if nothing was read. -/
def LoopsOn (rules : Rules ι σ) (p : Parser ι σ α) (input : Input ι) (value : α) (rest : Input ι)
    (s : Session ι σ) (answer : Except Halt (Reply ι (List α))) (after : Session ι σ) : Prop :=
  rest.size < input.size ∧ Again rules (.many p) value rest s answer after ∨
  rest = input ∧ after = s ∧
    answer = (Halt.check input.length).map fun _ => .success [value] input

/-- Behind a success that has read something, a loop goes on. -/
theorem loopsOn_iff {value : α} {rest : Input ι} {s : Session ι σ}
    (hlt : rest.size < input.size) :
    LoopsOn rules p input value rest s answer after ↔
      Again rules (.many p) value rest s answer after := by
  have hne : rest ≠ input := fun h => absurd (h ▸ hlt) (Nat.lt_irrefl _)
  simp only [LoopsOn, hlt, hne, true_and, false_and, or_false]

theorem yields_many_iff (hs : MayCall rules input s) :
    Yields rules (.many p) input s answer after ↔
      Round rules p input s (fun _ _ => .success [] input) (LoopsOn rules p input) answer after := by
  have hdeep : ∀ (value : α) (rest : Input ι), Run.Deepening fun depth => (do
      let _ ← Run.check rest.length
      let _ ← Run.check input.length
      if rest.size < input.size then
        return (← exec (callAt rules depth) (.many p) rest).map (value :: ·)
      else
        return .success [value] rest : Run ι σ (Reply ι (List α))) := by
    intro value rest
    refine .bind (.const _) fun _ => .bind (.const _) fun _ => ?_
    by_cases hlt : rest.size < input.size
    · simp only [hlt, if_true]
      exact (deepening_exec rules (.many p) rest).bind fun _ => .const _
    · simp only [hlt, if_false]
      exact .const _
  rw [yields_iff_round (fun depth => exec_many (callAt rules depth) p input) hdeep]
  refine round_congr fun value rest s' hp => ?_
  have hsuffix : rest.Suffix input := hp.suffix hs
  -- The lengths that the loop asks for can only be at fault where nothing was read.
  by_cases hlt : rest.size < input.size
  · obtain ⟨⟨m, hm⟩, n, hn⟩ := hsuffix.exists_lengths hlt
    rw [loopsOn_iff hlt]
    simp only [hlt, hm, hn, Run.check, pure_bind, if_true]
    exact Run.settles_map_iff (deepening_exec rules (.many p) rest)
  · obtain rfl : rest = input := hsuffix.eq_of_size hlt
    simp only [hlt, LoopsOn, if_false, false_and, true_and, false_or]
    cases rest.length with
    | ok n =>
        simp only [Run.check, pure_bind]
        exact Run.settles_pure_iff.trans And.comm
    | error fault =>
        simp only [Run.check]
        exact Run.settles_fault_iff.trans And.comm

theorem DefinedAs.not_yields_failure (hm : DefinedAs rules m (onceMore p m))
    {diagnostic : Diagnostic} {place : Input ι} :
    ¬Yields rules m input s (.ok (.failure diagnostic place)) after := by
  rw [hm.yields_iff, yields_iff_exists]
  rintro ⟨-, depth, hrun⟩
  have hresult : (exec (callAt rules depth) (onceMore p m) input).result s = _ :=
    congrArg Prod.fst hrun
  rw [exec_onceMore] at hresult
  obtain ⟨reply, -, h⟩ := Run.result_bind_eq_ok hresult
  cases reply with
  | failure diagnostic place => cases h
  | success value rest =>
      obtain ⟨reply, -, h⟩ := Run.result_bind_eq_ok h
      cases reply <;> cases h

/-- Behind a success, a repetition that never fails adds its values. -/
theorem settles_again_iff {again : Parser ι σ (List α)} {value : α}
    (hagain : ∀ diagnostic place after,
      ¬Yields rules again input s (.ok (.failure diagnostic place)) after)
    {onFailure : Diagnostic → Input ι → Reply ι (List α)} :
    Run.Settles (fun depth => do
      match ← exec (callAt rules depth) again input with
      | .failure diagnostic place => return onFailure diagnostic place
      | .success values rest => return .success (value :: values) rest) s answer after ↔
    Again rules again value input s answer after := by
  constructor
  · intro h
    rcases Run.Settles.of_bind h with ⟨halt, hhalt, rfl⟩ | ⟨reply, s', hreply, hlater⟩
    · exact ⟨.error halt, hhalt, rfl⟩
    · cases reply with
      | failure diagnostic place => exact absurd hreply (hagain _ _ _)
      | success values rest =>
          obtain ⟨rfl, rfl⟩ := Run.settles_pure_iff.mp hlater
          exact ⟨.ok (.success values rest), hreply, rfl⟩
  · have hconst : ∀ reply : Reply ι (List α), Run.Deepening fun _ => (match reply with
        | .failure diagnostic place => pure (onFailure diagnostic place)
        | .success values rest => pure (.success (value :: values) rest) :
          Run ι σ (Reply ι (List α))) := fun _ => .const _
    rintro ⟨later, hlater, rfl⟩
    cases later with
    | error halt => exact Run.Settles.bind_halt hlater
    | ok reply =>
        cases reply with
        | failure diagnostic place => exact absurd hlater (hagain _ _ _)
        | success values rest =>
            exact Run.Settles.bind (deepening_exec rules again input) hconst hlater
              (Run.settles_pure_iff.mpr ⟨rfl, rfl⟩)

theorem yields_recursion_iff (hm : DefinedAs rules m (onceMore p m)) :
    Yields rules m input s answer after ↔
      Round rules p input s (fun _ _ => .success [] input) (Again rules m) answer after := by
  rw [hm.yields_iff, yields_iff_round (fun depth => exec_onceMore (callAt rules depth) p m input)
    fun _ rest => (deepening_exec rules m rest).bind fun _ => .const _]
  exact round_congr fun _ _ _ _ => settles_again_iff fun _ _ _ => hm.not_yields_failure

end

end

end Parser

end LambdaTree
