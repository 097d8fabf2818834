/-
  LambdaTree.Proofs.Parser.Lockstep

  Two runs of one parser that go in step.  The inputs may have different
  symbols, as long as they are related; then a parser whose tests and functions
  cannot tell related symbols apart (`Respects`) gives related values, or the
  same diagnostic, at related places, and so do the tables of the two runs.
  Nothing is assumed about what the cells of memos are used for, and both runs
  go too deep together: they find the same answers in their tables, and make
  the same calls.

  There is one rule for each way of building a parser.  Values of different
  kinds need relations of their own, so a rule says how that of the whole
  follows from those of the parts.
-/

import LambdaTree.Proofs.Parser.Memo

namespace LambdaTree

variable {ι α β γ : Type} {σ : Signature}

/-! ## Sessions in step -/

/-- Tables that hold related answers in the same cells, for the same lengths. -/
def Table.Alike (R : Input ι → Input ι → Prop) (t t' : Table ι σ) : Prop :=
  ∀ cell length, Option.Rel (Reply.Alike Eq R) (t.find? cell length) (t'.find? cell length)

/-- Sessions without tables, or with tables that are alike. -/
def Session.Alike (R : Input ι → Input ι → Prop) (s s' : Session ι σ) : Prop :=
  Option.Rel (Table.Alike R) s.table s'.table

section

variable {R : Input ι → Input ι → Prop}

theorem Table.alike_empty : Table.Alike R (.empty : Table ι σ) .empty := by
  intro cell length
  rw [Table.find?_empty]
  exact .none

theorem Table.Alike.insert {t t' : Table ι σ} (h : t.Alike R t') (cell : σ.Cell) (length : Nat)
    {reply reply' : Reply ι (σ.cellValue cell)} (hreply : Reply.Alike Eq R reply reply') :
    (t.insert cell length reply).Alike R (t'.insert cell length reply') := by
  intro cell' length'
  by_cases hsame : cell' = cell ∧ length' = length
  · obtain ⟨rfl, rfl⟩ := hsame
    rw [Table.find?_insert_self, Table.find?_insert_self]
    exact .some hreply
  · rw [Table.find?_insert_of_ne _ _ hsame, Table.find?_insert_of_ne _ _ hsame]
    exact h cell' length'

theorem Session.Alike.remember {s s' : Session ι σ} (h : s.Alike R s') (cell : σ.Cell)
    (length : Nat) {reply reply' : Reply ι (σ.cellValue cell)}
    (hreply : Reply.Alike Eq R reply reply') :
    Session.Alike R { s with table := s.table.map (·.insert cell length reply) }
      { s' with table := s'.table.map (·.insert cell length reply') } := by
  rw [Session.Alike] at h ⊢
  generalize s.table = table at h ⊢
  generalize s'.table = table' at h ⊢
  cases h with
  | none => exact .none
  | some htable => exact .some (htable.insert cell length hreply)

end

namespace Run

/-- Started in sessions that are alike, two computations leave such sessions, and meet
    the same halt or give related values. -/
def InStep (R : Input ι → Input ι → Prop) (P : α → α → Prop) (m m' : Run ι σ α) : Prop :=
  ∀ s s', Session.Alike R s s' →
    Session.Alike R (m.after s) (m'.after s') ∧ Alike P (m.result s) (m'.result s')

namespace InStep

variable {R : Input ι → Input ι → Prop} {P : α → α → Prop} {Q : β → β → Prop}

theorem pure {a b : α} (h : P a b) : InStep R P (Pure.pure a : Run ι σ α) (Pure.pure b) :=
  fun _ _ hs => ⟨hs, .ok h⟩

theorem tooDeep : InStep R P (throw .tooDeep : Run ι σ α) (throw .tooDeep) :=
  fun _ _ hs => ⟨hs, .error _⟩

theorem check {x y : Except Fault α} (h : Alike P x y) :
    InStep R P (Run.check x : Run ι σ α) (Run.check y) := by
  cases h with
  | ok hab => exact pure hab
  | error fault => exact fun _ _ hs => ⟨hs, .error _⟩

theorem ofGet : InStep R (Session.Alike R) (get : Run ι σ (Session ι σ)) get :=
  fun _ _ hs => ⟨hs, .ok hs⟩

theorem ofModify {f g : Session ι σ → Session ι σ}
    (h : ∀ s s', Session.Alike R s s' → Session.Alike R (f s) (g s')) :
    InStep R Eq (modify f : Run ι σ PUnit) (modify g) :=
  fun s s' hs => ⟨h s s' hs, .ok rfl⟩

theorem bind {m m' : Run ι σ α} {k k' : α → Run ι σ β} (hm : InStep R P m m')
    (hk : ∀ a b, P a b → InStep R Q (k a) (k' b)) : InStep R Q (m >>= k) (m' >>= k') := by
  intro s s' hs
  obtain ⟨hafter, hresult⟩ := hm s s' hs
  generalize hx : m.result s = x at hresult
  generalize hy : m'.result s' = y at hresult
  cases hresult with
  | error halt =>
      rw [after_bind_error hx, after_bind_error hy, result_bind_error hx, result_bind_error hy]
      exact ⟨hafter, .error halt⟩
  | ok hab =>
      rw [after_bind_ok hx, after_bind_ok hy, result_bind_ok hx, result_bind_ok hy]
      exact hk _ _ hab _ _ hafter

/-- Two computations that begin by asking for the same. -/
theorem check_bind {x y : Except Fault α} {k k' : α → Run ι σ β} (hxy : x = y)
    (hk : ∀ a, x = .ok a → InStep R Q (k a) (k' a)) :
    InStep R Q (Run.check x >>= k) (Run.check y >>= k') := by
  subst hxy
  cases x with
  | error fault => exact fun _ _ hs => ⟨hs, .error _⟩
  | ok a => exact hk a rfl

end InStep

end Run

/-! ## The steps of a run -/

namespace Parser

variable [Symbol ι] {S : ι → ι → Prop} {R : Input ι → Input ι → Prop} {V : α → α → Prop}
  {i j : Input ι}

theorem tryEach_inStep (h : Bisimulation S R) (hij : R i j) {n : Nat}
    {m m' : Fin n → Run ι σ (Reply ι α)}
    (hm : ∀ k, Run.InStep R (Reply.Alike V R) (m k) (m' k))
    {fs gs : List (Diagnostic × Input ι)} (hs : FailuresAlike R fs gs) :
    Run.InStep R (Reply.Alike V R) (tryEach i (List.ofFn m) fs) (tryEach j (List.ofFn m') gs) := by
  induction n generalizing fs gs with
  | zero =>
      have hrev : FailuresAlike R fs.reverse gs.reverse := List.rel_reverse hs
      simpa only [List.ofFn_zero, tryEach] using Run.InStep.check (allFailed_alike h hij hrev)
  | succ n ih =>
      simp only [List.ofFn_succ, tryEach]
      refine (hm 0).bind fun a b hab => ?_
      cases hab with
      | success hvalue hrest => exact .pure (.success hvalue hrest)
      | failure diagnostic hrest => exact ih (fun k => hm k.succ) (.cons ⟨rfl, hrest⟩ hs)

theorem iterate_inStep (h : Bisimulation S R) {f g : Input ι → Run ι σ (Reply ι α)}
    (hfg : ∀ ⦃i j⦄, R i j → Run.InStep R (Reply.Alike V R) (f i) (g j)) (hij : R i j) :
    Run.InStep R (fun a b => List.Forall₂ V a.1 b.1 ∧ R a.2 b.2) (iterate f i) (iterate g j) := by
  fun_induction iterate f i generalizing j with
  | case1 i ih =>
      rw [iterate]
      refine (hfg hij).bind fun a b hab => ?_
      cases hab with
      | failure diagnostic _ => exact .pure ⟨.nil, hij⟩
      | @success value value' rest rest' hvalue hrest =>
          refine Run.InStep.check_bind (h.length hrest) fun n hn => ?_
          refine Run.InStep.check_bind (h.length hij) fun m hm => ?_
          -- Both lengths were found, so the sizes that steer the loop are the same.
          rw [h.size hrest hn, h.size hij hm]
          by_cases hlt : rest.size < i.size
          · simp only [hlt, if_true]
            refine (ih rest hlt hrest).bind fun x y hxy => ?_
            exact .pure ⟨.cons hvalue hxy.1, hxy.2⟩
          · simp only [hlt, if_false]
            exact .pure ⟨.cons hvalue .nil, hrest⟩

/-- Related inputs have the same length, so the answers are looked up and stored under the
    same key. -/
theorem remember_inStep (h : Bisimulation S R) (hij : R i j) (cell : σ.Cell)
    {m m' : Run ι σ (Reply ι (σ.cellValue cell))}
    (hm : Run.InStep R (Reply.Alike Eq R) m m') :
    Run.InStep R (Reply.Alike Eq R) (remember cell i m) (remember cell j m') := by
  refine Run.InStep.ofGet.bind fun s s' hs => ?_
  rw [Session.Alike] at hs
  generalize s.table = table at hs ⊢
  generalize s'.table = table' at hs ⊢
  cases hs with
  | none => exact hm
  | some htable =>
      refine Run.InStep.check_bind (h.length hij) fun n _ => ?_
      have hfind := htable cell n
      generalize Table.find? _ cell n = found at hfind ⊢
      generalize Table.find? _ cell n = found' at hfind ⊢
      cases hfind with
      | some hreply => exact .pure hreply
      | none =>
          refine hm.bind fun reply reply' hreply => ?_
          exact (Run.InStep.ofModify fun s s' hs => hs.remember cell n hreply).bind
            fun _ _ _ => .pure hreply

/-! ## Parsers that respect a relation -/

/-- A parser takes related inputs to related values, or to the same diagnostic, at related
    places. -/
def Respects (call : (name : σ.Rule) → Input ι → Run ι σ (Reply ι (σ.ruleValue name)))
    (R : Input ι → Input ι → Prop) (V : α → α → Prop) (p : Parser ι σ α) : Prop :=
  ∀ ⦃i j⦄, R i j → Run.InStep R (Reply.Alike V R) (exec call p i) (exec call p j)

variable {call : (name : σ.Rule) → Input ι → Run ι σ (Reply ι (σ.ruleValue name))}
  {W : β → β → Prop} {U : γ → γ → Prop}

namespace Respects

theorem succeed {value : α} (h : V value value) : Respects call R V (.succeed value) :=
  fun _ _ hij => .pure (.success h hij)

theorem satisfy (h : Bisimulation S R) {test : ι → Except Fault Bool}
    (htest : ∀ a b, S a b → test a = test b) : Respects call R S (.satisfy test) :=
  fun _ _ hij => .check (accept_alike h htest hij)

/-- Functions are related when they take related arguments to related values. -/
theorem seq {function : Parser ι σ (α → Except Fault β)} {argument : Parser ι σ α}
    (hf : Respects call R (fun f g => ∀ a b, V a b → Alike W (f a) (g b)) function)
    (ha : Respects call R V argument) : Respects call R W (.seq function argument) := by
  intro i j hij
  refine (hf hij).bind fun reply reply' hreply => ?_
  cases hreply with
  | failure diagnostic hrest => exact .pure (.failure _ hrest)
  | success hfg hmiddle =>
      refine (ha hmiddle).bind fun reply reply' hreply => ?_
      cases hreply with
      | failure diagnostic hrest => exact .pure (.failure _ hrest)
      | success hvalue hrest =>
          exact (Run.InStep.check (hfg _ _ hvalue)).bind fun _ _ hresult =>
            .pure (.success hresult hrest)

theorem firstOf (h : Bisimulation S R) {alternatives : List (Parser ι σ α)}
    (hp : ∀ p ∈ alternatives, Respects call R V p) : Respects call R V (.firstOf alternatives) :=
  fun _ _ hij => tryEach_inStep h hij (fun k => hp _ (List.get_mem alternatives k) hij) .nil

theorem complete (h : Bisimulation S R) {p : Parser ι σ α} (hp : Respects call R V p) :
    Respects call R V (.complete p) :=
  fun _ _ hij => (hp hij).bind fun _ _ hreply => .check (requireEnd_alike h hreply)

theorem many (h : Bisimulation S R) {p : Parser ι σ α} (hp : Respects call R V p) :
    Respects call R (List.Forall₂ V) (.many p) :=
  fun _ _ hij => (iterate_inStep h hp hij).bind fun _ _ hvalues =>
    .pure (.success hvalues.1 hvalues.2)

theorem memo (h : Bisimulation S R) (cell : σ.Cell) {p : Parser ι σ (σ.cellValue cell)}
    (hp : Respects call R Eq p) : Respects call R Eq (.memo cell p) :=
  fun _ _ hij => remember_inStep h hij cell (hp hij)

theorem apply {function : α → β} {argument : Parser ι σ α}
    (hf : ∀ a b, V a b → W (function a) (function b)) (ha : Respects call R V argument) :
    Respects call R W (.apply function argument) :=
  seq (succeed fun a b hab => .ok (hf a b hab)) ha

theorem combine {function : α → β → γ} {left : Parser ι σ α} {right : Parser ι σ β}
    (hf : ∀ a a' b b', V a a' → W b b' → U (function a b) (function a' b'))
    (hl : Respects call R V left) (hr : Respects call R W right) :
    Respects call R U (.combine function left right) :=
  seq (apply (fun a a' ha b b' hb => .ok (hf a a' b b' ha hb)) hl) hr

theorem seqLeft {left : Parser ι σ α} {right : Parser ι σ β} (hl : Respects call R V left)
    (hr : Respects call R W right) : Respects call R V (.seqLeft left right) :=
  combine (fun _ _ _ _ ha _ => ha) hl hr

theorem seqRight {left : Parser ι σ α} {right : Parser ι σ β} (hl : Respects call R V left)
    (hr : Respects call R W right) : Respects call R W (.seqRight left right) :=
  combine (fun _ _ _ _ _ hb => hb) hl hr

theorem chainLeft (h : Bisimulation S R) {operand : Parser ι σ α}
    {operator : Parser ι σ (α → α → Except Fault α)} (hoperand : Respects call R Eq operand)
    (hoperator : Respects call R Eq operator) :
    Respects call R Eq (.chainLeft operand operator) := by
  have hstep : Respects call R Eq (Parser.combine Prod.mk operator operand) :=
    combine (fun _ _ _ _ hf ha => by rw [hf, ha]) hoperator hoperand
  refine seq (apply (fun first first' hfirst steps steps' hsteps => ?_) hoperand) (many h hstep)
  rw [List.forall₂_eq_eq_eq] at hsteps
  exact .of_eq (by rw [hfirst, hsteps]) fun _ _ => rfl

end Respects

/-! ## Whole runs -/

/-- Rules that respect a relation as long as those they call do. -/
theorem callAt_respects {rules : Rules ι σ}
    (hrules : ∀ call : (name : σ.Rule) → Input ι → Run ι σ (Reply ι (σ.ruleValue name)),
      (∀ name, Respects call R Eq (.rule name)) → ∀ name, Respects call R Eq (rules name))
    (depth : Nat) (name : σ.Rule) : Respects (callAt rules depth) R Eq (.rule name) := by
  induction depth generalizing name with
  | zero => exact fun _ _ _ => .tooDeep
  | succ depth ih => exact hrules _ ih name

/-- Runs on inputs that are related as cursors halt alike or give like answers. -/
theorem run_alike {rules : Rules ι σ} {depth : Nat} {p : Parser ι σ α}
    (hp : Respects (callAt rules depth) R V p) (hij : R i.toCursor j.toCursor)
    (tally tally' : Tally) :
    ∃ r r', (run rules depth p i tally).1 = Stop.ofReply r ∧
      (run rules depth p j tally').1 = Stop.ofReply r' ∧ Alike (Reply.Alike V R) r r' := by
  have hstart : Session.Alike R (⟨some .empty, tally⟩ : Session ι σ) ⟨some .empty, tally'⟩ :=
    .some Table.alike_empty
  obtain ⟨-, halike⟩ := hp hij _ _ hstart
  exact ⟨_, _, rfl, rfl, halike⟩

end Parser

end LambdaTree
