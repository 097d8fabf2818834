/-
  LambdaTree.Proofs.Parser.Deepening

  Parsers in a session, with no bound on how deep rules call each other.  A
  deeper bound only turns runs that were too deep into answers, and leaves the
  others as they were, with the session at the end (`exec_deepens`).  So a
  parser yields at most one answer (`Yields`), and the answer of a computation
  of two parts is that of its parts, at whatever depth each of them gave it.

  Nothing is assumed about the session: what is remembered there may be
  anything.
-/

import LambdaTree.Proofs.Parser.OperatorChain

namespace LambdaTree

variable {ι α β : Type} {σ : Signature}

/-! ## Computations that run deeper -/

namespace Run

/-- A computation of two parts halts in the first, or does what the second does. -/
theorem run_bind_cases {m : Run ι σ α} {k : α → Run ι σ β} {s after : Session ι σ}
    {answer : Except Halt β} (h : (m >>= k).run.run s = (answer, after)) :
    (∃ halt, m.run.run s = (.error halt, after) ∧ answer = .error halt) ∨
      ∃ v s', m.run.run s = (.ok v, s') ∧ (k v).run.run s' = (answer, after) := by
  rw [run_bind, result, Run.after] at h
  generalize m.run.run s = outcome at h
  obtain ⟨result, s'⟩ := outcome
  cases result with
  | error halt =>
      cases h
      exact .inl ⟨halt, rfl, rfl⟩
  | ok v => exact .inr ⟨v, s', rfl, h⟩

/-- What a computation does the other does as well, unless it runs too deep. -/
def Deepens (m m' : Run ι σ α) : Prop :=
  ∀ s, m.result s ≠ .error .tooDeep → m'.run.run s = m.run.run s

namespace Deepens

variable {m m' m'' : Run ι σ α}

theorem refl (m : Run ι σ α) : Deepens m m :=
  fun _ _ => rfl

theorem tooDeep (m : Run ι σ α) : Deepens (throw .tooDeep) m :=
  fun _ hs => absurd rfl hs

theorem result_eq (h : Deepens m m') {s : Session ι σ} (hs : m.result s ≠ .error .tooDeep) :
    m'.result s = m.result s :=
  congrArg Prod.fst (h s hs)

theorem after_eq (h : Deepens m m') {s : Session ι σ} (hs : m.result s ≠ .error .tooDeep) :
    m'.after s = m.after s :=
  congrArg Prod.snd (h s hs)

theorem trans (h : Deepens m m') (h' : Deepens m' m'') : Deepens m m'' := by
  intro s hs
  have hs' : m'.result s ≠ .error .tooDeep := by rwa [h.result_eq hs]
  rw [h' s hs', h s hs]

theorem bind (h : Deepens m m') {k k' : α → Run ι σ β} (hk : ∀ v, Deepens (k v) (k' v)) :
    Deepens (m >>= k) (m' >>= k') := by
  intro s hs
  have hm : m.result s ≠ .error .tooDeep := fun hdeep => hs (result_bind_error hdeep)
  rw [run_bind, run_bind, h.result_eq hm, h.after_eq hm]
  cases hr : m.result s with
  | error halt => rfl
  | ok v =>
      rw [result_bind_ok hr] at hs
      exact hk v _ hs

end Deepens

end Run

/-! ## Parsers that run deeper -/

namespace Parser

theorem tryEach_deepens {input : Input ι} {n : Nat} {m m' : Fin n → Run ι σ (Reply ι α)}
    (h : ∀ i, (m i).Deepens (m' i)) (failures : List (Diagnostic × Input ι)) :
    (tryEach input (List.ofFn m) failures).Deepens (tryEach input (List.ofFn m') failures) := by
  induction n generalizing failures with
  | zero => simpa only [List.ofFn_zero] using Run.Deepens.refl _
  | succ n ih =>
      simp only [List.ofFn_succ, tryEach]
      refine (h 0).bind fun reply => ?_
      cases reply with
      | success value rest => exact .refl _
      | failure diagnostic rest => exact ih (fun i => h i.succ) _

theorem iterate_deepens {step step' : Input ι → Run ι σ (Reply ι α)}
    (h : ∀ input, (step input).Deepens (step' input)) (input : Input ι) :
    (iterate step input).Deepens (iterate step' input) := by
  fun_induction iterate step input with
  | case1 input ih =>
      rw [iterate]
      refine (h input).bind fun reply => ?_
      cases reply with
      | failure diagnostic rest => exact .refl _
      | success value rest =>
          refine (Run.Deepens.refl _).bind fun _ => (Run.Deepens.refl _).bind fun _ => ?_
          by_cases hlt : rest.size < input.size
          · simp only [hlt, if_true]
            exact (ih rest hlt).bind fun _ => .refl _
          · simp only [hlt, if_false]
            exact .refl _

theorem remember_deepens {cell : σ.Cell} {input : Input ι}
    {m m' : Run ι σ (Reply ι (σ.cellValue cell))} (h : m.Deepens m') :
    (remember cell input m).Deepens (remember cell input m') := by
  refine (Run.Deepens.refl _).bind fun session => ?_
  cases session.table with
  | none => exact h
  | some table =>
      refine (Run.Deepens.refl _).bind fun length => ?_
      cases table.find? cell length with
      | some reply => exact .refl _
      | none => exact h.bind fun reply => .refl _

section

variable [Symbol ι]

/-- A parser does what it did, if the rules that it calls do. -/
theorem exec_deepens {call call' : (name : σ.Rule) → Input ι → Run ι σ (Reply ι (σ.ruleValue name))}
    (h : ∀ name input, (call name input).Deepens (call' name input)) (p : Parser ι σ α)
    (input : Input ι) : (exec call p input).Deepens (exec call' p input) := by
  induction p generalizing input with
  | succeed value => exact .refl _
  | fail message => exact .refl _
  | satisfy test => exact .refl _
  | seq function argument ihf iha =>
      refine (ihf input).bind fun reply => ?_
      cases reply with
      | failure diagnostic rest => exact .refl _
      | success f middle => exact (iha middle).bind fun _ => .refl _
  | choice count alternative ih => exact tryEach_deepens (fun i => ih i input) []
  | complete p ih => exact (ih input).bind fun _ => .refl _
  | rule name => exact h name input
  | many p ih => exact (iterate_deepens ih input).bind fun _ => .refl _
  | memo cell p ih => exact remember_deepens (ih input)
  | measure p ih => exact (ih input).bind fun _ => .refl _
  | tally name p ih => exact (Run.Deepens.refl _).bind fun _ => ih input
  | map change p ih => exact (ih input).bind fun _ => .refl _

theorem callAt_deepens (rules : Rules ι σ) (depth : Nat) (name : σ.Rule) (input : Input ι) :
    (callAt rules depth name input).Deepens (callAt rules (depth + 1) name input) := by
  induction depth generalizing name input with
  | zero => exact .tooDeep _
  | succ depth ih => exact exec_deepens ih (rules name) input

end

end Parser

/-! ## Computations without a bound -/

namespace Run

/-- A computation at each depth, which a deeper one goes on with. -/
def Deepening (f : Nat → Run ι σ α) : Prop :=
  ∀ depth, (f depth).Deepens (f (depth + 1))

theorem Deepening.le {f : Nat → Run ι σ α} (h : Deepening f) {m n : Nat} (hle : m ≤ n) :
    (f m).Deepens (f n) := by
  induction hle with
  | refl => exact .refl _
  | step _ ih => exact ih.trans (h _)

theorem Deepening.const (m : Run ι σ α) : Deepening fun _ => m :=
  fun _ => .refl m

theorem Deepening.bind {f : Nat → Run ι σ α} (hf : Deepening f) {k : α → Nat → Run ι σ β}
    (hk : ∀ v, Deepening (k v)) : Deepening fun depth => f depth >>= fun v => k v depth :=
  fun depth => (hf depth).bind fun v => hk v depth

/-- At some depth the computation ends, with an answer and a session. -/
def Settles (f : Nat → Run ι σ α) (s : Session ι σ) (answer : Except Halt α)
    (after : Session ι σ) : Prop :=
  answer ≠ .error .tooDeep ∧ ∃ depth, (f depth).run.run s = (answer, after)

section

variable {f : Nat → Run ι σ α} {k : α → Nat → Run ι σ β} {s s' after : Session ι σ}

/-- From some depth on the computation ends in this way. -/
theorem Settles.exists_le (hf : Deepening f) {answer : Except Halt α}
    (h : Settles f s answer after) :
    ∃ depth, ∀ n, depth ≤ n → (f n).run.run s = (answer, after) := by
  obtain ⟨hne, depth, hrun⟩ := h
  refine ⟨depth, fun n hle => ?_⟩
  have hresult : (f depth).result s ≠ .error .tooDeep := by rwa [Run.result, hrun]
  rw [hf.le hle s hresult, hrun]

theorem Settles.unique (hf : Deepening f) {answer answer' : Except Halt α}
    {after' : Session ι σ} (h : Settles f s answer after) (h' : Settles f s answer' after') :
    answer = answer' ∧ after = after' := by
  obtain ⟨m, hm⟩ := h.exists_le hf
  obtain ⟨n, hn⟩ := h'.exists_le hf
  exact Prod.mk.inj ((hm _ (Nat.le_max_left m n)).symm.trans (hn _ (Nat.le_max_right m n)))

theorem settles_pure_iff {v : α} {answer : Except Halt α} :
    Settles (fun _ => (pure v : Run ι σ α)) s answer after ↔ answer = .ok v ∧ after = s := by
  constructor
  · rintro ⟨-, depth, hrun⟩
    cases hrun
    exact ⟨rfl, rfl⟩
  · rintro ⟨rfl, rfl⟩
    exact ⟨by simp, 0, rfl⟩

theorem settles_fault_iff {fault : Fault} {answer : Except Halt α} :
    Settles (fun _ => (throw (.fault fault) : Run ι σ α)) s answer after ↔
      answer = .error (.fault fault) ∧ after = s := by
  constructor
  · rintro ⟨-, depth, hrun⟩
    cases hrun
    exact ⟨rfl, rfl⟩
  · rintro ⟨rfl, rfl⟩
    exact ⟨by simp, 0, rfl⟩

theorem Settles.bind_halt {halt : Halt} (h : Settles f s (.error halt) after) :
    Settles (fun depth => f depth >>= fun v => k v depth) s (.error halt) after := by
  obtain ⟨hne, depth, hrun⟩ := h
  refine ⟨by simpa using hne, depth, ?_⟩
  have hresult : (f depth).result s = .error halt := congrArg Prod.fst hrun
  have hafter : (f depth).after s = after := congrArg Prod.snd hrun
  rw [run_bind, hresult, hafter]

theorem Settles.bind (hf : Deepening f) (hk : ∀ v, Deepening (k v)) {v : α}
    {answer : Except Halt β} (h : Settles f s (.ok v) s') (h' : Settles (k v) s' answer after) :
    Settles (fun depth => f depth >>= fun v => k v depth) s answer after := by
  obtain ⟨m, hm⟩ := h.exists_le hf
  obtain ⟨n, hn⟩ := h'.exists_le (hk v)
  have hfirst := hm _ (Nat.le_max_left m n)
  have hresult : (f (max m n)).result s = .ok v := congrArg Prod.fst hfirst
  have hafter : (f (max m n)).after s = s' := congrArg Prod.snd hfirst
  refine ⟨h'.1, max m n, ?_⟩
  rw [run_bind, hresult, hafter]
  exact hn _ (Nat.le_max_right m n)

/-- A computation of two parts ends in the first, or where the second does. -/
theorem Settles.of_bind {answer : Except Halt β}
    (h : Settles (fun depth => f depth >>= fun v => k v depth) s answer after) :
    (∃ halt, Settles f s (.error halt) after ∧ answer = .error halt) ∨
      ∃ v s', Settles f s (.ok v) s' ∧ Settles (k v) s' answer after := by
  obtain ⟨hne, depth, hrun⟩ := h
  rcases run_bind_cases hrun with ⟨halt, hhalt, rfl⟩ | ⟨v, s', hv, hrest⟩
  · exact .inl ⟨halt, ⟨by simpa using hne, depth, hhalt⟩, rfl⟩
  · exact .inr ⟨v, s', ⟨by simp, depth, hv⟩, hne, depth, hrest⟩

theorem settles_map_iff (hf : Deepening f) {g : α → β} {answer : Except Halt β} :
    Settles (fun depth => f depth >>= fun v => pure (g v)) s answer after ↔
      ∃ earlier, Settles f s earlier after ∧ answer = earlier.map g := by
  constructor
  · intro h
    rcases h.of_bind with ⟨halt, hhalt, rfl⟩ | ⟨v, s', hv, hpure⟩
    · exact ⟨.error halt, hhalt, rfl⟩
    · obtain ⟨rfl, rfl⟩ := settles_pure_iff.mp hpure
      exact ⟨.ok v, hv, rfl⟩
  · rintro ⟨earlier, h, rfl⟩
    cases earlier with
    | error halt => exact h.bind_halt
    | ok v => exact h.bind hf (fun v => .const _) (settles_pure_iff.mpr ⟨rfl, rfl⟩)

end

end Run

/-! ## The answers of parsers -/

namespace Parser

variable [Symbol ι] {rules : Rules ι σ} {p : Parser ι σ α} {input : Input ι}
  {s after : Session ι σ} {answer : Except Halt (Reply ι α)}

/-- Called on an input in a session, a parser ends with an answer and leaves a session:
    some depth of calls is enough. -/
def Yields (rules : Rules ι σ) (p : Parser ι σ α) (input : Input ι) (s : Session ι σ)
    (answer : Except Halt (Reply ι α)) (after : Session ι σ) : Prop :=
  Run.Settles (fun depth => exec (callAt rules depth) p input) s answer after

theorem yields_iff_exists : Yields rules p input s answer after ↔
    answer ≠ .error .tooDeep ∧
      ∃ depth, (exec (callAt rules depth) p input).run.run s = (answer, after) :=
  Iff.rfl

theorem deepening_exec (rules : Rules ι σ) (p : Parser ι σ α) (input : Input ι) :
    Run.Deepening fun depth => exec (callAt rules depth) p input :=
  fun depth => exec_deepens (callAt_deepens rules depth) p input

theorem Yields.unique (h : Yields rules p input s answer after)
    {answer' : Except Halt (Reply ι α)} {after' : Session ι σ}
    (h' : Yields rules p input s answer' after') : answer = answer' ∧ after = after' :=
  Run.Settles.unique (deepening_exec rules p input) h h'

theorem Yields.suffix {reply : Reply ι α} (h : Yields rules p input s (.ok reply) after)
    (hs : MayCall rules input s) : reply.rest.Suffix input := by
  obtain ⟨-, depth, hrun⟩ := h
  have hresult : (exec (callAt rules depth) p input).result s = .ok reply :=
    congrArg Prod.fst hrun
  exact hs.suffix hresult

theorem Yields.mayCall {reply : Reply ι α} (h : Yields rules p input s (.ok reply) after)
    (hs : MayCall rules input s) : MayCall rules reply.rest after := by
  obtain ⟨-, depth, hrun⟩ := h
  have hresult : (exec (callAt rules depth) p input).result s = .ok reply :=
    congrArg Prod.fst hrun
  have hafter : (exec (callAt rules depth) p input).after s = after := congrArg Prod.snd hrun
  rw [← hafter]
  exact hs.next hresult

end Parser

end LambdaTree
