/-
  LambdaTree.Proofs.Parser.Memo

  Remembering answers changes no answer.  `Parser.exec` is compared with
  `Parser.eval`, which remembers nothing: the answer of a run lies between the
  answers of `eval` at the depth of the run and at some greater depth
  (`exec_between`), because an answer found in the table may have been computed
  where more depth was left.

  The invariant of a run is that every entry of the table is an answer of the
  parser whose cell it is in, for every input of the entry's length
  (`Table.Sound`).  A length determines the input, since all inputs of a run
  are cursors over the same data.  The result for whole runs is
  `run_between_evalAt`; for runs on plain sequences it is `run_plain`.
-/

import LambdaTree.Proofs.Parser.Inputs

namespace LambdaTree

variable {ι α β : Type} {σ : Signature}

/-! ## Computations in a session -/

namespace Run

/-- What a computation gives when it starts in a session. -/
def result (m : Run ι σ α) (s : Session ι σ) : Except Halt α :=
  (m.run.run s).1

/-- The session that a computation leaves. -/
def after (m : Run ι σ α) (s : Session ι σ) : Session ι σ :=
  (m.run.run s).2

/-- A halt ends a computation; the session that it leaves stays. -/
theorem run_bind (m : Run ι σ α) (k : α → Run ι σ β) (s : Session ι σ) :
    (m >>= k).run.run s =
      match m.result s with
      | .ok v => (k v).run.run (m.after s)
      | .error halt => (.error halt, m.after s) := by
  rw [ExceptT.run_bind, StateT.run_bind, result, after]
  obtain ⟨r, s'⟩ := m.run.run s
  cases r <;> rfl

theorem run_get_bind (k : Session ι σ → Run ι σ α) (s : Session ι σ) :
    ((get : Run ι σ (Session ι σ)) >>= k).run.run s = (k s).run.run s :=
  rfl

section

variable {m : Run ι σ α} {k : α → Run ι σ β} {s : Session ι σ} {v : α} {halt : Halt}

theorem result_bind_ok (h : m.result s = .ok v) :
    (m >>= k).result s = (k v).result (m.after s) := by
  rw [result, run_bind, h, result]

theorem after_bind_ok (h : m.result s = .ok v) : (m >>= k).after s = (k v).after (m.after s) := by
  rw [after, run_bind, h]
  rfl

theorem result_bind_error (h : m.result s = .error halt) :
    (m >>= k).result s = .error halt := by
  rw [result, run_bind, h]

theorem after_bind_error (h : m.result s = .error halt) : (m >>= k).after s = m.after s := by
  rw [after, run_bind, h]

end

/-- Started in a session with the invariant, a computation leaves one with the invariant,
    and its answer lies above `low` and below some answer of the family `high`. -/
def Between (Inv : Session ι σ → Prop) (low : Except Halt α) (high : Nat → Except Halt α)
    (m : Run ι σ α) : Prop :=
  ∀ s, Inv s → Inv (m.after s) ∧ Approx low (m.result s) ∧ ∃ n, Approx (m.result s) (high n)

/-- The answers of a family only grow. -/
def Rising (high : Nat → Except Halt α) : Prop :=
  ∀ m n : Nat, m ≤ n → Approx (high m) (high n)

theorem Rising.const (r : Except Halt α) : Rising fun _ => r :=
  fun _ _ _ => Approx.refl r

theorem Rising.bind {high : Nat → Except Halt α} {highk : α → Nat → Except Halt β}
    (h : Rising high) (hk : ∀ v, Rising (highk v)) :
    Rising fun n => high n >>= fun v => highk v n :=
  fun m n hle => (h m n hle).bind fun v _ => hk v m n hle

namespace Between

variable {Inv : Session ι σ → Prop}

theorem pure (v : α) : Between Inv (.ok v) (fun _ => .ok v) (Pure.pure v : Run ι σ α) :=
  fun _ hs => ⟨hs, Approx.refl _, 0, Approx.refl _⟩

theorem check (x : Except Fault α) :
    Between Inv (Halt.check x) (fun _ => Halt.check x) (Run.check x : Run ι σ α) := by
  intro s hs
  cases x with
  | ok v => exact ⟨hs, Approx.refl _, 0, Approx.refl _⟩
  | error fault => exact ⟨hs, Approx.refl _, 0, Approx.refl _⟩

theorem bind {low : Except Halt α} {high : Nat → Except Halt α} {m : Run ι σ α}
    {lowk : α → Except Halt β} {highk : α → Nat → Except Halt β} {k : α → Run ι σ β}
    (hm : Between Inv low high m) (hrise : Rising high) (hrisek : ∀ v, Rising (highk v))
    (hk : ∀ v n, high n = .ok v → Between Inv (lowk v) (highk v) (k v)) :
    Between Inv (low >>= lowk) (fun n => high n >>= fun v => highk v n) (m >>= k) := by
  intro s hs
  obtain ⟨hafter, hlow, n, hhigh⟩ := hm s hs
  -- A halt of the first part is the halt of the whole, on all three sides.
  cases hr : m.result s with
  | error halt =>
      rw [hr] at hlow hhigh
      rw [after_bind_error hr, result_bind_error hr]
      refine ⟨hafter, hlow.bind (g := lowk) fun _ _ => Approx.refl _, n, ?_⟩
      exact hhigh.bind (f := fun v => highk v n) fun _ _ => Approx.refl _
  | ok v =>
      rw [hr] at hlow hhigh
      rw [after_bind_ok hr, result_bind_ok hr]
      -- The two parts need depths of their own; the greater of them serves both.
      have hn : high n = .ok v := hhigh.eq_of_ok
      obtain ⟨hafter', hlow', n', hhigh'⟩ := hk v n hn _ hafter
      refine ⟨hafter', ?_, max n n', ?_⟩
      · exact hlow.bind (g := fun _ => (k v).result (m.after s)) fun w hw => by
          cases hw
          exact hlow'
      · -- The value is still there at the greater depth.
        have hmax : high (max n n') = .ok v := by
          have := hrise n _ (Nat.le_max_left n n')
          rw [hn] at this
          exact this.eq_of_ok
        simp only [hmax]
        exact hhigh'.trans (hrisek v n' _ (Nat.le_max_right n n'))

/-- A continuation that needs no depth of its own. -/
theorem bind_const {low : Except Halt α} {high : Nat → Except Halt α} {m : Run ι σ α}
    {f : α → Except Halt β} {k : α → Run ι σ β} (hm : Between Inv low high m)
    (hrise : Rising high) (hk : ∀ v, Between Inv (f v) (fun _ => f v) (k v)) :
    Between Inv (low >>= f) (fun n => high n >>= f) (m >>= k) :=
  hm.bind hrise (fun v => .const (f v)) fun v _ _ => hk v

end Between

end Run

namespace Parser

/-! ## A run and its meaning -/

/-- Every memo of a parser remembers, in its cell, the answers of the parser that belongs
    to the cell. -/
def Remembers (body : (cell : σ.Cell) → Parser ι σ (σ.cellValue cell)) :
    {α : Type} → Parser ι σ α → Prop
  | _, .succeed _ | _, .fail _ | _, .satisfy _ | _, .rule _ => True
  | _, .seq function argument => function.Remembers body ∧ argument.Remembers body
  | _, .choice _ alternative => ∀ i, (alternative i).Remembers body
  | _, .complete parser | _, .many parser | _, .measure parser | _, .tally _ parser
  | _, .map _ parser => parser.Remembers body
  | _, .memo cell parser => parser = body cell ∧ parser.Remembers body

section

variable {Inv : Session ι σ → Prop} {Live : Input ι → Prop}

theorem tryEach_between {input : Input ι} {n : Nat} {f : Fin n → Except Halt (Reply ι α)}
    {g : Fin n → Nat → Except Halt (Reply ι α)} {m : Fin n → Run ι σ (Reply ι α)}
    (hrise : ∀ i, Run.Rising (g i)) (hm : ∀ i, Run.Between Inv (f i) (g i) (m i))
    (failures : List (Diagnostic × Input ι)) :
    Run.Between Inv (settle input (List.ofFn f) failures)
      (fun k => settle input (List.ofFn fun i => g i k) failures)
      (tryEach input (List.ofFn m) failures) := by
  induction n generalizing failures with
  | zero =>
      simp only [List.ofFn_zero, settle, tryEach]
      exact .check _
  | succ n ih =>
      simp only [List.ofFn_succ, settle, tryEach]
      -- First that what follows only grows with the depth, then the comparison itself.
      refine (hm 0).bind (hrise 0) (fun reply => ?_) fun reply k _ => ?_
      · cases reply with
        | success value rest => exact .const _
        | failure diagnostic rest => exact fun a b hle => settle_mono (fun i => hrise i.succ a b hle) _
      · cases reply with
        | success value rest => exact .pure _
        | failure diagnostic rest => exact ih (fun i => hrise i.succ) (fun i => hm i.succ) _

theorem iterate_between {f : Input ι → Except Halt (Reply ι α)}
    {g : Nat → Input ι → Except Halt (Reply ι α)} {step : Input ι → Run ι σ (Reply ι α)}
    (hrise : ∀ input, Run.Rising fun n => g n input)
    (hlive : ∀ n input reply, Live input → g n input = .ok reply → Live reply.rest)
    (hstep : ∀ input, Live input → Run.Between Inv (f input) (fun n => g n input) (step input))
    (input : Input ι) (hi : Live input) :
    Run.Between Inv (collect f input) (fun n => collect (g n) input) (iterate step input) := by
  have hrises : ∀ rest, Run.Rising fun n => collect (g n) rest :=
    fun rest a b hle => collect_mono (fun i => hrise i a b hle) rest
  fun_induction collect f input with
  | case1 input ih =>
      -- The induction is on the loop without a session; the other two are unfolded once.
      rw [funext fun n => collect.eq_def (g n) input, iterate]
      refine (hstep input hi).bind (hrise input) (fun reply => ?_) fun reply n hn => ?_
      · cases reply with
        | failure diagnostic rest => exact .const _
        | success value rest =>
            refine (Run.Rising.const _).bind fun _ => (Run.Rising.const _).bind fun _ => ?_
            by_cases hlt : rest.size < input.size
            · simp only [hlt, if_true]
              exact (hrises rest).bind fun _ => .const _
            · simp only [hlt, if_false]
              exact .const _
      · cases reply with
        | failure diagnostic rest => exact .pure _
        | success value rest =>
            -- The loop goes on from an input that the step left, which is live again.
            have hrest : Live rest := hlive n input _ hi hn
            by_cases hlt : rest.size < input.size
            · simp only [hlt, if_true]
              have htail := (ih rest hlt hrest).bind_const (hrises rest)
                fun values => .pure (value :: values.1, values.2)
              have htailRises := (hrises rest).bind fun values =>
                .const (.ok (value :: values.1, values.2))
              refine (Run.Between.check _).bind (.const _)
                (fun _ => (Run.Rising.const _).bind fun _ => htailRises) fun _ _ _ => ?_
              exact (Run.Between.check _).bind (.const _) (fun _ => htailRises) fun _ _ _ => htail
            · simp only [hlt, if_false]
              refine (Run.Between.check _).bind_const (.const _) fun _ => ?_
              exact (Run.Between.check _).bind_const (.const _) fun _ => .pure _

theorem recordLength_between (hrecord : ∀ s tally, Inv s → Inv { s with tally := tally })
    (name : String) (input : Input ι) {f : Except Halt α} {g : Nat → Except Halt α}
    {m : Run ι σ α} (hrise : Run.Rising g) (hm : Run.Between Inv f g m) :
    Run.Between Inv (Halt.check input.length >>= fun _ => f)
      (fun n => Halt.check input.length >>= fun _ => g n)
      (recordLength name input >>= fun _ => m) := by
  rw [recordLength, bind_assoc]
  refine (Run.Between.check _).bind (.const _) (fun _ => hrise) fun length _ _ s hs => ?_
  exact hm _ (hrecord s (s.tally.push (name, length)) hs)

end

section

variable [Symbol ι] {Inv : Session ι σ → Prop} {Live : Input ι → Prop}
  {body : (cell : σ.Cell) → Parser ι σ (σ.cellValue cell)}
  {call : (name : σ.Rule) → Input ι → Run ι σ (Reply ι (σ.ruleValue name))}
  {low : Calls ι σ} {high : Nat → Calls ι σ}

/-- What the comparison of a run with its meaning rests on: inputs stay among the live
    ones, calls of rules compare, memos and records keep the comparison. -/
structure Comparison (Inv : Session ι σ → Prop) (Live : Input ι → Prop)
    (body : (cell : σ.Cell) → Parser ι σ (σ.cellValue cell))
    (call : (name : σ.Rule) → Input ι → Run ι σ (Reply ι (σ.ruleValue name)))
    (low : Calls ι σ) (high : Nat → Calls ι σ) : Prop where
  forward : Forward Live
  rising : ∀ {m n : Nat}, m ≤ n → (high m).Approx (high n)
  live : ∀ n name input reply, Live input → high n name input = .ok reply → Live reply.rest
  rule : ∀ name input, Live input →
    Run.Between Inv (low name input) (fun n => high n name input) (call name input)
  memo : ∀ cell input m, Live input →
    Run.Between Inv (eval low (body cell) input) (fun n => eval (high n) (body cell) input) m →
    Run.Between Inv (eval low (body cell) input) (fun n => eval (high n) (body cell) input)
      (remember cell input m)
  record : ∀ s tally, Inv s → Inv { s with tally := tally }

namespace Comparison

variable (h : Comparison Inv Live body call low high)
include h

theorem eval_rising (p : Parser ι σ α) (input : Input ι) :
    Run.Rising fun n => eval (high n) p input :=
  fun _ _ hmn => eval_mono (h.rising hmn) p input

theorem eval_live {p : Parser ι σ α} {input : Input ι} {n : Nat} {reply : Reply ι α}
    (hi : Live input) (hr : eval (high n) p input = .ok reply) : Live reply.rest :=
  eval_keeps h.forward (h.live n) p hi hr

theorem exec_between (p : Parser ι σ α) (hp : p.Remembers body) (input : Input ι)
    (hi : Live input) :
    Run.Between Inv (eval low p input) (fun n => eval (high n) p input) (exec call p input) := by
  induction p generalizing input with
  | succeed value => exact .pure _
  | fail message => exact .pure _
  | satisfy test => exact .check _
  | seq function argument ihf iha =>
      refine (ihf hp.1 input hi).bind (h.eval_rising _ _) (fun reply => ?_) fun reply n hn => ?_
      · cases reply with
        | failure diagnostic rest => exact .const _
        | success f middle => exact (h.eval_rising argument middle).bind fun _ => .const _
      · cases reply with
        | failure diagnostic rest => exact .pure _
        | success f middle =>
            -- What the function left is live, so the argument compares there too.
            have hm : Live middle := h.eval_live hi hn
            refine (iha hp.2 middle hm).bind_const (h.eval_rising _ _) fun reply => ?_
            cases reply with
            | failure diagnostic rest => exact .pure _
            | success value rest =>
                exact (Run.Between.check _).bind_const (.const _) fun _ => .pure _
  | choice count alternative ih =>
      exact tryEach_between (fun i => h.eval_rising (alternative i) input)
        (fun i => ih i (hp i) input hi) []
  | complete p ih =>
      exact (ih hp input hi).bind_const (h.eval_rising _ _) fun _ => .check _
  | rule name => exact h.rule name input hi
  | many p ih =>
      have hloop := iterate_between (h.eval_rising p) (fun n input reply => h.eval_live) (ih hp)
        input hi
      exact hloop.bind_const (fun a b hle => collect_mono (fun i => h.eval_rising p i a b hle) input)
        fun _ => .pure _
  | memo cell p ih =>
      -- The cell is that of this parser, so what it holds is about the same answers.
      obtain ⟨rfl, hp⟩ := hp
      exact h.memo cell input _ hi (ih hp input hi)
  | measure p ih =>
      exact (ih hp input hi).bind_const (h.eval_rising _ _) fun _ => .check _
  | tally name p ih =>
      exact recordLength_between h.record name input (h.eval_rising p input) (ih hp input hi)
  | map change p ih =>
      exact (ih hp input hi).bind_const (h.eval_rising _ _) fun _ => .pure _

end Comparison

end

/-! ## The table of a run -/

section

variable {cell : σ.Cell} {input : Input ι} {m : Run ι σ (Reply ι (σ.cellValue cell))}
  {s : Session ι σ} {table : Table ι σ} {n : Nat} {reply : Reply ι (σ.cellValue cell)}

theorem remember_none (hs : s.table = none) :
    (remember cell input m).run.run s = m.run.run s := by
  rw [remember, Run.run_get_bind]
  simp only [hs]

theorem remember_hit (hs : s.table = some table) (hn : input.length = .ok n)
    (hfind : table.find? cell n = some reply) :
    (remember cell input m).run.run s = (.ok reply, s) := by
  rw [remember, Run.run_get_bind]
  simp only [hs, hn, Run.check, pure_bind, hfind]
  rfl

theorem remember_miss (hs : s.table = some table) (hn : input.length = .ok n)
    (hfind : table.find? cell n = none) :
    (remember cell input m).run.run s =
      match m.result s with
      | .ok reply =>
        (.ok reply, { m.after s with table := (m.after s).table.map (·.insert cell n reply) })
      | .error halt => (.error halt, m.after s) := by
  rw [remember, Run.run_get_bind]
  simp only [hs, hn, Run.check, pure_bind, hfind, Run.run_bind]
  cases m.result s <;> rfl

end

end Parser

/-! ## The inputs of a run -/

/-- A plain sequence, or a cursor whose offset lies within its data. -/
def Input.Within : Input ι → Prop
  | .plain _ => True
  | .view cursor => 0 ≤ cursor.offset ∧ ∃ n : Nat, cursor.data.length = .ok n ∧ cursor.offset ≤ n

/-- A cursor over given data of length `n`, not beyond its end. -/
def Input.Over (data : Sequence ι) (n : Nat) (input : Input ι) : Prop :=
  ∃ offset : Int, offset ≤ n ∧ input = .view ⟨data, offset⟩

section

variable {data : Sequence ι} {n : Nat}

theorem Input.length_view (hdata : data.length = .ok n) {offset : Int} (ho : offset ≤ n) :
    (Input.view ⟨data, offset⟩).length = .ok ((n : Int) - offset).toNat := by
  simp [Input.length, Cursor.length, Cursor.toSequence, Sequence.length, Sequence.lengthFrom,
    hdata, ho, bind, Except.bind]

theorem Input.exists_length_of_over (hdata : data.length = .ok n) {input : Input ι}
    (h : input.Over data n) : ∃ m, input.length = .ok m := by
  obtain ⟨offset, ho, rfl⟩ := h
  exact ⟨_, Input.length_view hdata ho⟩

/-- Among the cursors over the same data, the length determines the cursor. -/
theorem Input.over_unique (hdata : data.length = .ok n) {i j : Input ι} {m : Nat}
    (hi : i.Over data n) (hj : j.Over data n) (him : i.length = .ok m) (hjm : j.length = .ok m) :
    i = j := by
  obtain ⟨a, ha, rfl⟩ := hi
  obtain ⟨b, hb, rfl⟩ := hj
  rw [Input.length_view hdata ha] at him
  rw [Input.length_view hdata hb] at hjm
  have hab : ((n : Int) - a).toNat = ((n : Int) - b).toNat :=
    (Except.ok.inj him).trans (Except.ok.inj hjm).symm
  have : a = b := by omega
  rw [this]

theorem Input.forward_over [Symbol ι] (hdata : data.length = .ok n) :
    Parser.Forward (Input.Over data n) := by
  rintro _ j ⟨offset, ho, rfl⟩ - hj
  have hadvance : j = .view ⟨data, min (offset + 1) n⟩ := by
    simpa [Input.rest, Cursor.advance, hdata, bind, Except.bind, pure, Except.pure, Functor.map,
      Except.map, eq_comm] using hj
  exact ⟨min (offset + 1) n, by omega, hadvance⟩

/-- A run reads its input through cursors over the same data. -/
theorem Input.exists_over_toCursor {input : Input ι} (h : input.Within) :
    ∃ (data : Sequence ι) (n : Nat), data.length = .ok n ∧ input.toCursor.Over data n := by
  cases input with
  | plain symbols => exact ⟨.symbols symbols.toArray, symbols.length, by simp [Sequence.length],
      0, by omega, rfl⟩
  | view cursor =>
      obtain ⟨-, n, hn, ho⟩ := h
      exact ⟨cursor.data, n, hn, cursor.offset, ho, rfl⟩

end

/-! ## Entries are answers -/

section

variable [Symbol ι] {rules : Rules ι σ} {body : (cell : σ.Cell) → Parser ι σ (σ.cellValue cell)}
  {data : Sequence ι} {n : Nat}

/-- Every entry is what the parser of its cell answers to each input of the entry's
    length. -/
def Table.Sound (rules : Rules ι σ) (body : (cell : σ.Cell) → Parser ι σ (σ.cellValue cell))
    (Live : Input ι → Prop) (table : Table ι σ) : Prop :=
  ∀ cell input length reply, Live input → input.length = .ok length →
    table.find? cell length = some reply →
    ∃ depth, Parser.evalAt rules depth (body cell) input = .ok reply

theorem Table.sound_empty (Live : Input ι → Prop) :
    (Table.empty : Table ι σ).Sound rules body Live := by
  intro cell input length reply _ _ hfind
  simp at hfind

theorem Table.Sound.insert (hdata : data.length = .ok n) {table : Table ι σ}
    (h : table.Sound rules body (Input.Over data n)) {cell : σ.Cell} {input : Input ι} {m : Nat}
    {reply : Reply ι (σ.cellValue cell)} (hi : input.Over data n) (hm : input.length = .ok m)
    (hreply : ∃ depth, Parser.evalAt rules depth (body cell) input = .ok reply) :
    (table.insert cell m reply).Sound rules body (Input.Over data n) := by
  intro cell' input' m' reply' hi' hm' hfind
  by_cases hsame : cell' = cell ∧ m' = m
  · -- The new entry answers for one input only, since its length determines it.
    obtain ⟨rfl, rfl⟩ := hsame
    obtain rfl : input' = input := Input.over_unique hdata hi' hi hm' hm
    rw [Table.find?_insert_self] at hfind
    cases hfind
    exact hreply
  · rw [Table.find?_insert_of_ne _ _ hsame] at hfind
    exact h cell' input' m' reply' hi' hm' hfind

/-- The invariant of a session: what it remembers are answers. -/
def Session.Sound (rules : Rules ι σ) (body : (cell : σ.Cell) → Parser ι σ (σ.cellValue cell))
    (Live : Input ι → Prop) (s : Session ι σ) : Prop :=
  ∀ table, s.table = some table → table.Sound rules body Live

namespace Parser

theorem remember_between (hdata : data.length = .ok n) (depth : Nat) (cell : σ.Cell)
    (input : Input ι) (m : Run ι σ (Reply ι (σ.cellValue cell))) (hi : input.Over data n)
    (hm : Run.Between (Session.Sound rules body (Input.Over data n))
      (evalAt rules depth (body cell) input) (fun k => evalAt rules k (body cell) input) m) :
    Run.Between (Session.Sound rules body (Input.Over data n))
      (evalAt rules depth (body cell) input) (fun k => evalAt rules k (body cell) input)
      (remember cell input m) := by
  intro s hs
  cases htable : s.table with
  | none =>
      rw [Run.after, Run.result, remember_none htable]
      exact hm s hs
  | some table =>
      obtain ⟨length, hlength⟩ := Input.exists_length_of_over hdata hi
      cases hfind : table.find? cell length with
      | some reply =>
          rw [Run.after, Run.result, remember_hit htable hlength hfind]
          obtain ⟨k, hk⟩ := hs table htable cell input length reply hi hlength hfind
          refine ⟨hs, ?_, k, hk ▸ Approx.refl _⟩
          -- The entry was computed at depth `k`; compare both at the greater of the depths.
          have hlow := evalAt_mono rules (Nat.le_max_left depth k) (body cell) input
          have hhigh := evalAt_mono rules (Nat.le_max_right depth k) (body cell) input
          rw [hk] at hhigh
          rwa [hhigh.eq_of_ok] at hlow
      | none =>
          obtain ⟨hafter, hlow, k, hhigh⟩ := hm s hs
          rw [Run.after, Run.result, remember_miss htable hlength hfind]
          cases hr : m.result s with
          | error halt =>
              rw [hr] at hlow hhigh
              exact ⟨hafter, hlow, k, hhigh⟩
          | ok reply =>
              rw [hr] at hlow hhigh
              refine ⟨?_, hlow, k, hhigh⟩
              -- The answer goes into the table that the computation left, not the old one.
              intro table' htable'
              obtain ⟨inner, hinner, rfl⟩ := Option.map_eq_some_iff.mp htable'
              exact (hafter inner hinner).insert hdata hi hlength ⟨k, hhigh.eq_of_ok⟩

/-- The comparison of a run at some depth with what the rules mean. -/
theorem comparison_callAt (hdata : data.length = .ok n)
    (hrules : ∀ name, (rules name).Remembers body) (depth : Nat) :
    Comparison (Session.Sound rules body (Input.Over data n)) (Input.Over data n) body
      (callAt rules depth) (callsAt rules depth) (callsAt rules) := by
  induction depth with
  | zero =>
      refine ⟨Input.forward_over hdata, callsAt_mono rules,
        fun k name input reply => callsAt_keeps (Input.forward_over hdata) rules k name input reply,
        ?_, remember_between hdata 0, fun s tally hs => hs⟩
      exact fun name input _ s hs => ⟨hs, Approx.refl _, 0, Approx.refl _⟩
  | succ depth ih =>
      refine ⟨ih.forward, ih.rising, ih.live, ?_, remember_between hdata (depth + 1), ih.record⟩
      -- A call at this depth executes the rule with calls at the depth below.
      intro name input hi s hs
      obtain ⟨hafter, hlow, k, hhigh⟩ := ih.exec_between (rules name) (hrules name) input hi s hs
      exact ⟨hafter, hlow, k + 1, hhigh⟩

/-- A run answers what its parser means, at the depth of the run or at a greater one. -/
theorem run_between_evalAt (hrules : ∀ name, (rules name).Remembers body) {p : Parser ι σ α}
    (hp : p.Remembers body) {input : Input ι} (hi : input.Within) (depth : Nat) (tally : Tally) :
    ∃ r, (run rules depth p input tally).1 = Stop.ofReply r ∧
      Approx (evalAt rules depth p input.toCursor) r ∧
      ∃ k, Approx r (evalAt rules k p input.toCursor) := by
  obtain ⟨data, n, hdata, hover⟩ := Input.exists_over_toCursor hi
  have hempty : (⟨some .empty, tally⟩ : Session ι σ).Sound rules body (Input.Over data n) := by
    intro table htable
    cases htable
    exact Table.sound_empty _
  obtain ⟨-, hbetween⟩ :=
    (comparison_callAt hdata hrules depth).exec_between p hp input.toCursor hover _ hempty
  exact ⟨_, rfl, hbetween⟩

/-! ## Runs on plain sequences -/

/-- A run on a plain sequence goes beyond its depth, as does the parser without a session,
    or it answers like the parser at some depth. -/
theorem run_plain (hrules : ∀ name, (rules name).Remembers body) {p : Parser ι σ α}
    (hp : p.Remembers body) (depth : Nat) (symbols : List ι) (tally : Tally) :
    ((run rules depth p (.plain symbols) tally).1 = .error (.halted .tooDeep) ∧
      evalAt rules depth p (.plain symbols) = .error .tooDeep) ∨
    ∃ r k, (run rules depth p (.plain symbols) tally).1 = Stop.ofReply r ∧
      evalAt rules k p (.plain symbols) ≠ .error .tooDeep ∧
      Alike (Reply.Alike Eq (Input.SlicedAs symbols.toArray)) r
        (evalAt rules k p (.plain symbols)) := by
  have hi : (Input.plain symbols).Within := trivial
  obtain ⟨r, hrun, hlow, k, hhigh⟩ := run_between_evalAt hrules hp hi depth tally
  have halike (k : Nat) := evalAt_alike (bisimulation_slice symbols.toArray) rules k p
    (Input.slicedAs_toCursor symbols)
  by_cases hr : r = .error .tooDeep
  · subst hr
    have hdeep := hlow.elim id id
    exact .inl ⟨hrun, ((halike depth).eq_error_iff _).mp hdeep⟩
  · obtain rfl := hhigh.eq_of_ne hr
    exact .inr ⟨_, k, hrun, fun hdeep => hr (((halike k).eq_error_iff _).mpr hdeep), halike k⟩

omit [Symbol ι] in
/-- Where there are no cells, nothing is remembered. -/
theorem remembers_of_isEmpty [IsEmpty σ.Cell] (p : Parser ι σ α) : p.Remembers body := by
  induction p with
  | succeed value => trivial
  | fail message => trivial
  | satisfy test => trivial
  | rule name => trivial
  | seq function argument ihf iha => exact ⟨ihf, iha⟩
  | choice count alternative ih => exact ih
  | complete p ih => exact ih
  | many p ih => exact ih
  | memo cell p ih => exact (IsEmpty.false cell).elim
  | measure p ih => exact ih
  | tally name p ih => exact ih
  | map change p ih => exact ih

end Parser

end

end LambdaTree
