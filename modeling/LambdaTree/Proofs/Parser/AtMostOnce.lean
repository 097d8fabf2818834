/-
  LambdaTree.Proofs.Parser.AtMostOnce

  What a memo is for: during a run, the parser under it is called at most once
  for each length of input.  The calls are observed as one would by hand, with a
  record of the length in front of the parser (`watch`).  Watching a cell does
  not change what a run gives.

  Once the answer for a length is in the table, there is no other call for it.
  While the answer is still being computed the table does not help, and the
  reason is that the run ends.  Take the least depth of rules that is enough for
  the parser at this length (`remember_watched_of_cell`).  What is called inside
  through a rule is answered with less depth, so it is another length; and
  nothing is called inside without a rule, because no parser is a part of itself
  (`memos`).
-/

import LambdaTree.Proofs.Grammar.Termination
import LambdaTree.Proofs.Parser.Triples

namespace LambdaTree

variable {ι α β : Type} {σ : Signature}

/-! ## The length of an input -/

theorem Input.size_toCursor (input : Input ι) : input.toCursor.size = input.size := by
  cases input with
  | plain symbols =>
      simp [Input.toCursor, Input.size, Cursor.ofArray, Cursor.size, Cursor.toSequence,
        Sequence.size]
  | view cursor => rfl

theorem Input.length_of_within {input : Input ι} (h : input.Within) :
    input.length = .ok input.size := by
  cases input with
  | plain symbols => rfl
  | view cursor =>
      obtain ⟨-, n, hn, ho⟩ := h
      exact Input.length_of_over hn ⟨cursor.offset, ho, rfl⟩

namespace Parser

/-! ## Watching a cell -/

/-- The same parser, with the calls of what is remembered in a cell recorded under a label,
    and nothing else recorded. -/
def watch (cell : σ.Cell) (label : String) : {α : Type} → Parser ι σ α → Parser ι σ α
  | _, .succeed value => .succeed value
  | _, .fail message => .fail message
  | _, .satisfy test => .satisfy test
  | _, .seq function argument => .seq (function.watch cell label) (argument.watch cell label)
  | _, .choice count alternative => .choice count fun i => (alternative i).watch cell label
  | _, .complete parser => .complete (parser.watch cell label)
  | _, .rule name => .rule name
  | _, .many parser => .many (parser.watch cell label)
  | _, .memo other parser =>
    .memo other (if other = cell then .tally label (parser.watch cell label)
      else parser.watch cell label)
  | _, .measure parser => .measure (parser.watch cell label)
  | _, .tally _ parser => parser.watch cell label
  | _, .map change parser => .map change (parser.watch cell label)

/-- The same rules, with the calls of what is remembered in a cell recorded. -/
def watchRules (cell : σ.Cell) (label : String) (rules : Rules ι σ) : Rules ι σ :=
  fun name => (rules name).watch cell label

/-- The records of some lengths under a label. -/
def marks (label : String) (lengths : List Nat) : Tally :=
  (lengths.map fun length => (label, length)).toArray

/-- How many memos stand around one another in a parser. -/
def memos : {α : Type} → Parser ι σ α → Nat
  | _, .succeed _ | _, .fail _ | _, .satisfy _ | _, .rule _ => 0
  | _, .seq function argument => max function.memos argument.memos
  | _, .choice _ alternative => Finset.univ.sup fun i => (alternative i).memos
  | _, .complete parser | _, .many parser | _, .measure parser | _, .tally _ parser
  | _, .map _ parser => parser.memos
  | _, .memo _ parser => parser.memos + 1

end Parser

/-! ## Calls and the table -/

namespace Table

variable {cell other : σ.Cell} {n m : Nat}

/-- There is an answer in a cell for a length. -/
def Holds (t : Table ι σ) (cell : σ.Cell) (n : Nat) : Prop :=
  ∃ reply, t.find? cell n = some reply

/-- The table with the answer of a computation, unless it halted. -/
def store (t : Table ι σ) (cell : σ.Cell) (n : Nat) :
    Except Halt (Reply ι (σ.cellValue cell)) → Table ι σ
  | .ok reply => t.insert cell n reply
  | .error _ => t

theorem Holds.insert {t : Table ι σ} (h : t.Holds cell n) (reply : Reply ι (σ.cellValue other)) :
    (t.insert other m reply).Holds cell n := by
  by_cases hsame : cell = other ∧ n = m
  · obtain ⟨rfl, rfl⟩ := hsame
    exact ⟨reply, find?_insert_self t cell n reply⟩
  · obtain ⟨found, hfound⟩ := h
    exact ⟨found, (find?_insert_of_ne t reply hsame).trans hfound⟩

theorem Holds.store {t : Table ι σ} (h : t.Holds cell n)
    (r : Except Halt (Reply ι (σ.cellValue other))) : (t.store other m r).Holds cell n := by
  cases r with
  | error halt => exact h
  | ok reply => exact h.insert reply

/-- The calls of what a cell remembers, between two states of the table: no length is
    called twice, only lengths without an answer are called, answers stay, and unless the
    computation halted, the lengths called have answers. -/
structure Calls (cell : σ.Cell) (Bound : Nat → Prop) (t t' : Table ι σ) (r : Except Halt α)
    (lengths : List Nat) : Prop where
  nodup : lengths.Nodup
  bound : ∀ n ∈ lengths, Bound n
  new : ∀ n ∈ lengths, ¬t.Holds cell n
  kept : ∀ n, t.Holds cell n → t'.Holds cell n
  held : ∀ v, r = .ok v → ∀ n ∈ lengths, t'.Holds cell n

namespace Calls

variable {Bound Bound' : Nat → Prop} {t t' t'' : Table ι σ} {r : Except Halt α}
  {lengths lengths' : List Nat}

theorem nil : Calls cell Bound t t r [] where
  nodup := .nil
  bound := by simp
  new := by simp
  kept _ h := h
  held := by simp

theorem mono (h : Calls cell Bound t t' r lengths) (hbound : ∀ n, Bound n → Bound' n) :
    Calls cell Bound' t t' r lengths :=
  { h with bound := fun n hn => hbound n (h.bound n hn) }

theorem of_error {halt : Halt} (h : Calls cell Bound t t' (.error halt : Except Halt α) lengths) :
    Calls cell Bound t t' (.error halt : Except Halt β) lengths :=
  { h with held := by simp }

/-- What was called before has answers, so it is not called afterwards. -/
theorem append {v : α} {r : Except Halt β}
    (h : Calls cell Bound t t' (.ok v : Except Halt α) lengths)
    (h' : Calls cell Bound t' t'' r lengths') : Calls cell Bound t t'' r (lengths ++ lengths') where
  nodup := h.nodup.append h'.nodup fun n hn hn' => h'.new n hn' (h.held v rfl n hn)
  bound n hn := (List.mem_append.mp hn).elim (h.bound n) (h'.bound n)
  new n hn := (List.mem_append.mp hn).elim (h.new n) fun hn' hholds =>
    h'.new n hn' (h.kept n hholds)
  kept n hholds := h'.kept n (h.kept n hholds)
  held w hw n hn := (List.mem_append.mp hn).elim (fun hn' => h'.kept n (h.held v rfl n hn'))
    (h'.held w hw n)

theorem store {r : Except Halt (Reply ι (σ.cellValue other))}
    (h : Calls cell Bound t t' r lengths) : Calls cell Bound t (t'.store other m r) r lengths :=
  { h with
    kept := fun n hholds => (h.kept n hholds).store r
    held := fun v hv n hn => (h.held v hv n hn).store r }

/-- A call for a length that has no answer and is not called inside. -/
theorem call {r : Except Halt (Reply ι (σ.cellValue cell))}
    (h : Calls cell Bound t t' r lengths) (hnew : ¬t.Holds cell n) (hbound : Bound n)
    (hinside : n ∉ lengths) : Calls cell Bound t (t'.store cell n r) r (n :: lengths) where
  nodup := .cons hinside h.nodup
  bound := by
    rintro m (_ | ⟨_, hm⟩)
    · exact hbound
    · exact h.bound m hm
  new := by
    rintro m (_ | ⟨_, hm⟩)
    · exact hnew
    · exact h.new m hm
  kept m hholds := (h.kept m hholds).store r
  held := by
    rintro reply rfl m (_ | ⟨_, hm⟩)
    · exact ⟨reply, find?_insert_self t' cell n reply⟩
    · exact (h.held reply rfl m hm).store (.ok reply)

end Calls

end Table

/-! ## Computations and watched computations -/

namespace Run

/-- Started with the same table, a computation and the watched one give the same and leave
    the same table.  What they give is `x`, unless they went too deep; and the watched one
    records its calls, whatever was recorded before. -/
def WatchedFrom (t : Table ι σ) (Inv : Table ι σ → Prop) (cell : σ.Cell) (label : String)
    (Bound : Nat → Prop) (x : Except Halt α) (m watched : Run ι σ α) : Prop :=
  ∃ r t' lengths, Approx r x ∧ Inv t' ∧ Table.Calls cell Bound t t' r lengths ∧
    (∀ tally, ∃ tally', m.run.run ⟨some t, tally⟩ = (r, ⟨some t', tally'⟩)) ∧
    ∀ tally, watched.run.run ⟨some t, tally⟩ =
      (r, ⟨some t', tally ++ Parser.marks label lengths⟩)

/-- The same for every table with the invariant, where `x` is not too deep. -/
def Watched (Inv : Table ι σ → Prop) (cell : σ.Cell) (label : String) (Bound : Nat → Prop)
    (x : Except Halt α) (m watched : Run ι σ α) : Prop :=
  x ≠ .error .tooDeep → ∀ t, Inv t → WatchedFrom t Inv cell label Bound x m watched

variable {Inv : Table ι σ → Prop} {cell : σ.Cell} {label : String} {Bound Bound' : Nat → Prop}
  {t : Table ι σ} {x : Except Halt α} {m watched : Run ι σ α}

/-- A computation that makes no calls and leaves the table as it is. -/
theorem WatchedFrom.of_same {r : Except Halt α} (ht : Inv t) (hr : Approx r x)
    (hm : ∀ tally, m.run.run ⟨some t, tally⟩ = (r, ⟨some t, tally⟩))
    (hwatched : ∀ tally, watched.run.run ⟨some t, tally⟩ = (r, ⟨some t, tally⟩)) :
    WatchedFrom t Inv cell label Bound x m watched := by
  refine ⟨r, t, [], hr, ht, .nil, fun tally => ⟨tally, hm tally⟩, fun tally => ?_⟩
  rw [hwatched, Parser.marks]
  simp

theorem WatchedFrom.mono (h : WatchedFrom t Inv cell label Bound x m watched)
    (hbound : ∀ n, Bound n → Bound' n) : WatchedFrom t Inv cell label Bound' x m watched := by
  obtain ⟨r, t', lengths, hr, ht', hcalls, hrest⟩ := h
  exact ⟨r, t', lengths, hr, ht', hcalls.mono hbound, hrest⟩

namespace Watched

theorem mono (h : Watched Inv cell label Bound x m watched) (hbound : ∀ n, Bound n → Bound' n) :
    Watched Inv cell label Bound' x m watched :=
  fun hx t ht => (h hx t ht).mono hbound

theorem pure (v : α) : Watched Inv cell label Bound (.ok v) (Pure.pure v) (Pure.pure v) :=
  fun _ _ ht => .of_same ht (.refl _) (fun _ => rfl) fun _ => rfl

theorem check (x : Except Fault α) :
    Watched Inv cell label Bound (Halt.check x) (Run.check x) (Run.check x) := by
  cases x with
  | ok v => exact pure v
  | error fault => exact fun _ _ ht => .of_same ht (.refl _) (fun _ => rfl) fun _ => rfl

theorem tooDeep : Watched Inv cell label Bound x (throw .tooDeep) (throw .tooDeep) :=
  fun _ _ ht => .of_same ht (.tooDeep x) (fun _ => rfl) fun _ => rfl

theorem bind {f : α → Except Halt β} {k kwatched : α → Run ι σ β}
    (hm : Watched Inv cell label Bound x m watched)
    (hk : ∀ v, x = .ok v → Watched Inv cell label Bound (f v) (k v) (kwatched v)) :
    Watched Inv cell label Bound (x >>= f) (m >>= k) (watched >>= kwatched) := by
  intro hx t ht
  have hx' : x ≠ .error .tooDeep := by
    rintro rfl
    exact hx rfl
  obtain ⟨r, t', lengths, hr, ht', hcalls, hrun, hwatched⟩ := hm hx' t ht
  cases r with
  | error halt =>
      -- A halt of the first part is the halt of the whole.
      refine ⟨.error halt, t', lengths, ?_, ht', hcalls.of_error, fun tally => ?_, fun tally => ?_⟩
      · exact hr.bind (f := f) fun _ _ => .refl _
      · obtain ⟨tally', htally⟩ := hrun tally
        exact ⟨tally', by rw [run_bind, result, after, htally]⟩
      · rw [run_bind, result, after, hwatched]
  | ok v =>
      have hv : x = .ok v := hr.eq_of_ok
      subst hv
      obtain ⟨r, t'', lengths', hr, ht'', hcalls', hrun', hwatched'⟩ := hk v rfl hx t' ht'
      refine ⟨r, t'', lengths ++ lengths', hr, ht'', hcalls.append hcalls', fun tally => ?_,
        fun tally => ?_⟩
      · obtain ⟨tally', htally⟩ := hrun tally
        obtain ⟨tally'', htally'⟩ := hrun' tally'
        refine ⟨tally'', ?_⟩
        rw [run_bind, result, after, htally]
        exact htally'
      · rw [run_bind, result, after, hwatched]
        refine (hwatched' _).trans ?_
        simp [Parser.marks]

/-- A continuation that makes no calls. -/
theorem bind_check {f : α → Except Fault β} (hm : Watched Inv cell label Bound x m watched) :
    Watched Inv cell label Bound (x >>= fun v => Halt.check (f v)) (m >>= fun v => Run.check (f v))
      (watched >>= fun v => Run.check (f v)) :=
  hm.bind fun v _ => check (f v)

end Watched

end Run

namespace Parser

/-! ## The steps of a run -/

section

variable {Inv : Table ι σ → Prop} {cell : σ.Cell} {label : String} {Bound : Nat → Prop}

theorem tryEach_watched {input : Input ι} {n : Nat} {x : Fin n → Except Halt (Reply ι α)}
    {m watched : Fin n → Run ι σ (Reply ι α)}
    (h : ∀ i, Run.Watched Inv cell label Bound (x i) (m i) (watched i))
    (failures : List (Diagnostic × Input ι)) :
    Run.Watched Inv cell label Bound (settle input (List.ofFn x) failures)
      (tryEach input (List.ofFn m) failures) (tryEach input (List.ofFn watched) failures) := by
  induction n generalizing failures with
  | zero =>
      simp only [List.ofFn_zero, settle, tryEach]
      exact .check _
  | succ n ih =>
      simp only [List.ofFn_succ, settle, tryEach]
      refine (h 0).bind fun reply _ => ?_
      cases reply with
      | success value rest => exact .pure _
      | failure diagnostic rest => exact ih (fun i => h i.succ) _

theorem iterate_watched {Live : Input ι → Prop} {f : Input ι → Except Halt (Reply ι α)}
    {step watched : Input ι → Run ι σ (Reply ι α)}
    (hlive : ∀ i reply, Live i → f i = .ok reply → Live reply.rest)
    (hstep : ∀ i, Live i → Run.Watched Inv cell label Bound (f i) (step i) (watched i))
    {input : Input ι} (hi : Live input) :
    Run.Watched Inv cell label Bound (collect f input) (iterate step input)
      (iterate watched input) := by
  fun_induction collect f input with
  | case1 input ih =>
      rw [iterate, iterate]
      refine (hstep input hi).bind fun reply hreply => ?_
      cases reply with
      | failure diagnostic rest => exact .pure _
      | success value rest =>
          refine (Run.Watched.check _).bind fun _ _ => (Run.Watched.check _).bind fun _ _ => ?_
          by_cases hlt : rest.size < input.size
          · simp only [hlt, if_true]
            exact (ih rest hlt (hlive input _ hi hreply)).bind fun _ _ => .pure _
          · simp only [hlt, if_false]
            exact .pure _

theorem recordLength_run {input : Input ι} {n : Nat} (hn : input.length = .ok n)
    (m : Run ι σ α) (t : Option (Table ι σ)) (tally : Tally) :
    (recordLength label input >>= fun _ => m).run.run ⟨t, tally⟩ =
      m.run.run ⟨t, tally.push (label, n)⟩ := by
  rw [recordLength, hn]
  rfl

/-- A record that is not made while watching. -/
theorem recordLength_watched {input : Input ι} {n : Nat} (hn : input.length = .ok n)
    {name : String} {x : Except Halt α} {m watched : Run ι σ α}
    (h : Run.Watched Inv cell label Bound x m watched) :
    Run.Watched Inv cell label Bound x (recordLength name input >>= fun _ => m) watched := by
  intro hx t ht
  obtain ⟨r, t', lengths, hr, ht', hcalls, hrun, hwatched⟩ := h hx t ht
  refine ⟨r, t', lengths, hr, ht', hcalls, fun tally => ?_, hwatched⟩
  rw [recordLength_run hn]
  exact hrun _

/-- What is computed because it is not found in the table is stored. -/
theorem remember_run_of_miss {input : Input ι} {n : Nat} (hn : input.length = .ok n)
    {t t' : Table ι σ} (hfind : t.find? cell n = none)
    {m : Run ι σ (Reply ι (σ.cellValue cell))} {r : Except Halt (Reply ι (σ.cellValue cell))}
    {tally tally' : Tally} (h : m.run.run ⟨some t, tally⟩ = (r, ⟨some t', tally'⟩)) :
    (remember cell input m).run.run ⟨some t, tally⟩ =
      (r, ⟨some (t'.store cell n r), tally'⟩) := by
  rw [remember_miss rfl hn hfind, Run.result, Run.after, h]
  cases r <;> rfl

end

/-! ## Memos -/

/-- The inputs of a run: cursors over the data, no further back than where it starts. -/
def Ahead (data : Sequence ι) (size : Nat) (start i : Input ι) : Prop :=
  i.Over data size ∧ i.Suffix start

section

variable [Symbol ι] {rules : Rules ι σ} {body : (cell : σ.Cell) → Parser ι σ (σ.cellValue cell)}
  {data : Sequence ι} {size : Nat} {start : Input ι} {cell other : σ.Cell} {label : String}
  {input : Input ι} {depth : Nat}

theorem Ahead.rest (hdata : data.length = .ok size) (h : Ahead data size start input)
    {p : Parser ι σ α} {reply : Reply ι α} (hreply : evalAt rules depth p input = .ok reply) :
    Ahead data size start reply.rest :=
  ⟨evalAt_over hdata h.1 hreply, (evalAt_suffix hreply).trans h.2⟩

/-- A length at which what a cell remembers is answered with less than some depth, or with
    that depth and fewer than some number of memos around one another. -/
def Lower (rules : Rules ι σ) (body : (cell : σ.Cell) → Parser ι σ (σ.cellValue cell))
    (Live : Input ι → Prop) (cell : σ.Cell) (depth rank n : Nat) : Prop :=
  ∃ i enough, Live i ∧ i.length = .ok n ∧ evalAt rules enough (body cell) i ≠ .error .tooDeep ∧
    (enough < depth ∨ enough = depth ∧ (body cell).memos < rank)

theorem Lower.mono {Live : Input ι → Prop} {depth depth' rank rank' n : Nat}
    (hle : depth < depth' ∨ depth = depth' ∧ rank ≤ rank')
    (h : Lower rules body Live cell depth rank n) :
    Lower rules body Live cell depth' rank' n := by
  obtain ⟨i, enough, hi, hn, hends, hlt⟩ := h
  exact ⟨i, enough, hi, hn, hends, by omega⟩

section

variable (hdata : data.length = .ok size) (hi : Ahead data size start input)
  {Bound : Nat → Prop} {t : Table ι σ} {m watched : Run ι σ (Reply ι (σ.cellValue other))}

include hdata hi

theorem sound_store {r : Except Halt (Reply ι (σ.cellValue other))}
    (ht : t.Sound rules body (Input.Over data size))
    (hr : Approx r (evalAt rules depth (body other) input)) :
    (t.store other input.size r).Sound rules body (Input.Over data size) := by
  cases r with
  | error halt => exact ht
  | ok reply =>
      exact ht.insert hdata hi.1 (Input.length_of_over hdata hi.1) ⟨depth, hr.eq_of_ok⟩

/-- A computation in place of which its answer is found in the table. -/
theorem remember_watchedFrom_of_hit {reply : Reply ι (σ.cellValue other)}
    (hx : evalAt rules depth (body other) input ≠ .error .tooDeep)
    (ht : t.Sound rules body (Input.Over data size))
    (hfind : t.find? other input.size = some reply) :
    Run.WatchedFrom t (Table.Sound rules body (Input.Over data size)) cell label Bound
      (evalAt rules depth (body other) input) (remember other input m)
      (remember other input watched) := by
  have hn : input.length = .ok input.size := Input.length_of_over hdata hi.1
  -- The answer may have been found at another depth; answers at two depths agree.
  obtain ⟨k, hk⟩ := ht other input input.size reply hi.1 hn hfind
  have hne : evalAt rules k (body other) input ≠ .error .tooDeep := by simp [hk]
  rw [← evalAt_unique rules hne hx, hk]
  exact .of_same ht (.refl _) (fun _ => remember_hit rfl hn hfind) fun _ =>
    remember_hit rfl hn hfind

/-- A memo that is not watched. -/
theorem remember_watched_of_other (hm : Run.Watched (Table.Sound rules body (Input.Over data size))
      cell label Bound (evalAt rules depth (body other) input) m watched) :
    Run.Watched (Table.Sound rules body (Input.Over data size)) cell label Bound
      (evalAt rules depth (body other) input) (remember other input m)
      (remember other input watched) := by
  intro hx t ht
  have hn : input.length = .ok input.size := Input.length_of_over hdata hi.1
  cases hfind : t.find? other input.size with
  | some reply => exact remember_watchedFrom_of_hit hdata hi hx ht hfind
  | none =>
      obtain ⟨r, t', lengths, hr, ht', hcalls, hrun, hwatched⟩ := hm hx t ht
      refine ⟨r, t'.store other input.size r, lengths, hr, sound_store hdata hi ht' hr,
        hcalls.store, fun tally => ?_, fun tally => remember_run_of_miss hn hfind (hwatched tally)⟩
      obtain ⟨tally', htally⟩ := hrun tally
      exact ⟨tally', remember_run_of_miss hn hfind htally⟩

end

/-- The memo that is watched.  With the least depth that is enough for this input, what is
    called inside is answered with less, so it is not this input again. -/
theorem remember_watched_of_cell (hdata : data.length = .ok size)
    (hi : Ahead data size start input) {m watched : Run ι σ (Reply ι (σ.cellValue cell))}
    (hm : ∀ depth, Run.Watched (Table.Sound rules body (Input.Over data size)) cell label
      (Lower rules body (Ahead data size start) cell depth (body cell).memos)
      (evalAt rules depth (body cell) input) m watched) :
    Run.Watched (Table.Sound rules body (Input.Over data size)) cell label
      (Lower rules body (Ahead data size start) cell depth ((body cell).memos + 1))
      (evalAt rules depth (body cell) input) (remember cell input m)
      (remember cell input (recordLength label input >>= fun _ => watched)) := by
  intro hx t ht
  have hn : input.length = .ok input.size := Input.length_of_over hdata hi.1
  cases hfind : t.find? cell input.size with
  | some reply => exact remember_watchedFrom_of_hit hdata hi hx ht hfind
  | none =>
      classical
      -- The depth that is given may be more than enough, so the bound is taken at the least.
      have hsome : ∃ k, evalAt rules k (body cell) input ≠ .error .tooDeep := ⟨depth, hx⟩
      have hleast : Nat.find hsome ≤ depth := Nat.find_min' hsome hx
      have hends := Nat.find_spec hsome
      obtain ⟨r, t', lengths, hr, ht', hcalls, hrun, hwatched⟩ := hm _ hends t ht
      have hinside : input.size ∉ lengths := by
        intro hmem
        obtain ⟨i, k, hik, hlength, hk, hlt⟩ := hcalls.bound _ hmem
        obtain rfl : i = input := Input.over_unique hdata hik.1 hi.1 hlength hn
        exact Nat.find_min hsome (by omega) hk
      have hself : Lower rules body (Ahead data size start) cell depth ((body cell).memos + 1)
          input.size := ⟨input, depth, hi, hn, hx, by omega⟩
      have hnew : ¬t.Holds cell input.size := by
        rintro ⟨reply, hreply⟩
        rw [hfind] at hreply
        cases hreply
      rw [evalAt_unique rules hends hx] at hr
      refine ⟨r, t'.store cell input.size r, input.size :: lengths, hr,
        sound_store hdata hi ht' hr, ?_, fun tally => ?_, fun tally => ?_⟩
      · exact (hcalls.mono fun n => Lower.mono (by omega)).call hnew hself hinside
      · obtain ⟨tally', htally⟩ := hrun tally
        exact ⟨tally', remember_run_of_miss hn hfind htally⟩
      · refine remember_run_of_miss hn hfind ?_
        rw [recordLength_run hn, hwatched]
        simp [marks]

/-! ## Running a parser -/

/-- A parser and the watched parser, as long as calls of rules compare, at every depth: the
    memo that is watched goes down to the least depth that is enough. -/
theorem exec_watched (cell : σ.Cell) (label : String) (hdata : data.length = .ok size)
    {call watchedCall : (name : σ.Rule) → Input ι → Run ι σ (Reply ι (σ.ruleValue name))}
    (hcall : ∀ depth name i, Ahead data size start i →
      Run.Watched (Table.Sound rules body (Input.Over data size)) cell label
        (Lower rules body (Ahead data size start) cell depth 0) (callsAt rules depth name i)
        (call name i) (watchedCall name i))
    (p : Parser ι σ α) (hp : p.Remembers body) (depth : Nat) (hi : Ahead data size start input) :
    Run.Watched (Table.Sound rules body (Input.Over data size)) cell label
      (Lower rules body (Ahead data size start) cell depth p.memos)
      (eval (callsAt rules depth) p input) (exec call p input)
      (exec watchedCall (p.watch cell label) input) := by
  induction p generalizing depth input with
  | succeed value => exact .pure _
  | fail message => exact .pure _
  | satisfy test => exact .check _
  | seq function argument ihf iha =>
      have hf := (ihf hp.1 depth hi).mono fun n =>
        Lower.mono (.inr ⟨rfl, Nat.le_max_left function.memos argument.memos⟩)
      refine hf.bind fun reply hreply => ?_
      cases reply with
      | failure diagnostic rest => exact .pure _
      | success f middle =>
          have ha := (iha hp.2 depth (hi.rest hdata hreply)).mono fun n =>
            Lower.mono (.inr ⟨rfl, Nat.le_max_right function.memos argument.memos⟩)
          refine ha.bind fun reply _ => ?_
          cases reply with
          | failure diagnostic rest => exact .pure _
          | success value rest => exact (Run.Watched.check _).bind fun _ _ => .pure _
  | choice count alternative ih =>
      refine tryEach_watched (fun i => (ih i (hp i) depth hi).mono fun n => ?_) []
      exact Lower.mono (.inr ⟨rfl, Finset.le_sup (f := fun i => (alternative i).memos)
        (Finset.mem_univ i)⟩)
  | complete p ih => exact (ih hp depth hi).bind_check
  | rule name => exact hcall depth name input hi
  | many p ih =>
      have hlive (i : Input ι) (reply : Reply ι _) (hi : Ahead data size start i)
          (hreply : eval (callsAt rules depth) p i = .ok reply) :
          Ahead data size start reply.rest := hi.rest hdata hreply
      exact (iterate_watched hlive (fun i => ih hp depth) hi).bind fun _ _ => .pure _
  | memo other p ih =>
      obtain ⟨rfl, hp⟩ := hp
      by_cases hcell : other = cell
      · subst hcell
        simp only [watch, exec, if_true]
        exact remember_watched_of_cell hdata hi fun depth => ih hp depth hi
      · simp only [watch, exec, if_neg hcell]
        exact remember_watched_of_other hdata hi ((ih hp depth hi).mono fun n =>
          Lower.mono (.inr ⟨rfl, Nat.le_succ _⟩))
  | measure p ih => exact (ih hp depth hi).bind_check
  | tally name p ih =>
      have hn : input.length = .ok input.size := Input.length_of_over hdata hi.1
      rw [eval, hn]
      exact recordLength_watched hn (ih hp depth hi)
  | map change p ih => exact (ih hp depth hi).bind fun _ _ => .pure _

/-- A call of a rule and the watched call.  What is called in it is answered with less
    depth than the call itself. -/
theorem callAt_watched (hdata : data.length = .ok size)
    (hrules : ∀ name, (rules name).Remembers body) (given : Nat) (depth : Nat) (name : σ.Rule)
    (hi : Ahead data size start input) :
    Run.Watched (Table.Sound rules body (Input.Over data size)) cell label
      (Lower rules body (Ahead data size start) cell depth 0) (callsAt rules depth name input)
      (callAt rules given name input) (callAt (watchRules cell label rules) given name input) := by
  induction given generalizing depth name input with
  | zero => exact .tooDeep
  | succ given ih =>
      cases depth with
      | zero => exact fun hx => (hx rfl).elim
      | succ depth =>
          have hexec := exec_watched cell label hdata (fun depth name i hi => ih depth name hi)
            (rules name) (hrules name) depth hi
          exact hexec.mono fun n => Lower.mono (.inl (Nat.lt_succ_self depth))

/-- The lengths for which a run calls what a cell remembers, one after another.  They are
    what watching the cell records.  Neither they nor the outcome depend on what was
    recorded before, and watching does not change the outcome. -/
def CalledFor (rules : Rules ι σ) (depth : Nat) (p : Parser ι σ α) (input : Input ι)
    (cell : σ.Cell) (label : String) (lengths : List Nat) : Prop :=
  ∃ outcome, ∀ tally, (run rules depth p input tally).1 = outcome ∧
    run (watchRules cell label rules) depth (p.watch cell label) input tally =
      (outcome, tally ++ marks label lengths)

/-- A run that ends calls what a cell remembers at most once for each length. -/
theorem exists_calledFor (hrules : ∀ name, (rules name).Remembers body) {p : Parser ι σ α}
    (hp : p.Remembers body) (hi : input.Within) {tally : Tally} {outcome : Except (Stop ι) α}
    (hends : Ends rules p input tally outcome) (cell : σ.Cell) (label : String) (depth : Nat) :
    ∃ n lengths, input.length = .ok n ∧ lengths.Nodup ∧ (∀ length ∈ lengths, length ≤ n) ∧
      CalledFor rules depth p input cell label lengths := by
  obtain ⟨data, size, hdata, hover⟩ := Input.exists_over_toCursor hi
  obtain ⟨enough, henough, -⟩ := (ends_iff_evalAt hrules hp hi tally outcome).mp hends
  have hstart : Ahead data size input.toCursor input.toCursor := ⟨hover, .same _⟩
  obtain ⟨r, t', lengths, -, -, hcalls, hrun, hwatched⟩ :=
    exec_watched cell label hdata (fun k name i hi => callAt_watched hdata hrules depth k name hi)
      p hp enough hstart henough .empty (Table.sound_empty _)
  refine ⟨input.size, lengths, Input.length_of_within hi, hcalls.nodup, fun n hn => ?_,
    Stop.ofReply r, fun tally => ⟨?_, ?_⟩⟩
  · obtain ⟨i, -, hi, hlength, -⟩ := hcalls.bound n hn
    rw [← Input.size_of_length hlength, ← input.size_toCursor]
    exact hi.2.size_le
  · obtain ⟨tally', htally⟩ := hrun tally
    rw [run, htally]
  · rw [run, hwatched]

end

/-- Memos save work.  Let every cell have its own parser, and let the input be a plain
    sequence or a cursor within its data.  A run that ends calls the parser under a memo
    at most once for each length, up to the length of the input; the next run starts with
    an empty table, and makes the same calls again.  The parsers of the grammar, which end
    on every sequence of tokens, call what is remembered for expressions and for terms at
    most once more often than there are tokens. -/
theorem memo_calls_at_most_once :
    (∀ {ι : Type} [Symbol ι] {σ : Signature} {rules : Rules ι σ}
        {body : (cell : σ.Cell) → Parser ι σ (σ.cellValue cell)} {α : Type} {p : Parser ι σ α}
        {input : Input ι} {tally : Tally} {outcome : Except (Stop ι) α},
      (∀ name, (rules name).Remembers body) → p.Remembers body → input.Within →
      Ends rules p input tally outcome → ∀ (cell : σ.Cell) (label : String) (depth : Nat),
      ∃ n lengths, input.length = .ok n ∧ lengths.Nodup ∧ (∀ length ∈ lengths, length ≤ n) ∧
        CalledFor rules depth p input cell label lengths ∧
        ∀ tally,
          let watched := run (watchRules cell label rules) depth (p.watch cell label) input
          (watched (watched tally).2).2 = tally ++ marks label lengths ++ marks label lengths) ∧
    (∀ {ι : Type} [Symbol ι] {α : Type} {p : Parser ι (Grammar.signature Signature.none) α},
      p.Remembers Grammar.ownCells → ∀ (tokens : List ι)
        (cell : (Grammar.signature Signature.none).Cell) (label : String) (depth : Nat),
      ∃ lengths, lengths.Nodup ∧ lengths.length ≤ tokens.length + 1 ∧
        CalledFor Grammar.ownRules depth p (.plain tokens) cell label lengths) := by
  refine ⟨fun hrules hp hi hends cell label depth => ?_,
    fun {ι _ α p} hp tokens cell label depth => ?_⟩
  · obtain ⟨n, lengths, hn, hnodup, hle, outcome, hcalled⟩ :=
      exists_calledFor hrules hp hi hends cell label depth
    refine ⟨n, lengths, hn, hnodup, hle, ⟨outcome, hcalled⟩, fun tally => ?_⟩
    simp only [(hcalled _).2]
  · have hdepths (input : Input ι) (s : Session ι (Grammar.signature Signature.none))
        (hs : MayCall Grammar.ownRules input s) :
        ∃ depth, (exec (callAt Grammar.ownRules depth) p input).result s ≠ .error .tooDeep :=
      ⟨input.size + 1, hs.ends_of_guarded Grammar.ownRules_guarded (Nat.lt_succ_self _) p⟩
    have hi : (Input.plain tokens).Within := trivial
    obtain ⟨-, outcome, hends⟩ := ends_of_depths hdepths (.plain tokens) #[]
    obtain ⟨n, lengths, hn, hnodup, hle, hcalled⟩ :=
      exists_calledFor Grammar.ownRules_remembers hp hi hends cell label depth
    cases hn
    refine ⟨lengths, hnodup, ?_, hcalled⟩
    have hsub : lengths ⊆ List.range (tokens.length + 1) := fun length hlength =>
      List.mem_range.mpr (Nat.lt_succ_of_le (hle length hlength))
    simpa using (List.subperm_of_subset hnodup hsub).length_le

/-- Of two alternatives that begin with the same memo, the second takes the answer of the
    first from the table.  Two parentheses that are never closed are refused with no more
    calls for terms than there are tokens and one. -/
theorem memo_calls_at_most_once_ac :
    let σ : Signature := ⟨Empty, Unit, nofun, fun _ => Char, inferInstance⟩
    let body : (cell : σ.Cell) → Parser Char σ (σ.cellValue cell) := fun _ => text "a"
    let first : Parser Char σ Char := .memo (σ := σ) () (text "a")
    let either : Parser Char σ Char :=
      firstOf [seqRight first (text "b"), seqRight first (text "c")]
    let noRules : Rules Char σ := nofun
    let input : Input Char := .plain ['a', 'c']
    let tokens : List Token :=
      [⟨.openParen, ⟨0, 1⟩⟩, ⟨.openParen, ⟨1, 2⟩⟩, ⟨.word "x", ⟨2, 3⟩⟩]
    (∀ name, (noRules name).Remembers body) ∧ either.Remembers body ∧ input.Within ∧
      Ends noRules either input #[] (.ok 'c') ∧
      run (watchRules () "a" noRules) 0 (either.watch () "a") input #[] = (.ok 'c', #[("a", 2)]) ∧
      (∃ n lengths, input.length = .ok n ∧ lengths.Nodup ∧ (∀ length ∈ lengths, length ≤ n) ∧
        CalledFor noRules 0 either input () "a" lengths) ∧
      (Grammar.wholeExpression : Parser Token _ _).Remembers Grammar.ownCells ∧
      ∃ lengths, lengths.Nodup ∧ lengths.length ≤ 4 ∧
        CalledFor Grammar.ownRules 301 Grammar.wholeExpression (.plain tokens) .term "term"
          lengths := by
  intro σ body first either noRules input tokens
  have hrules (name : σ.Rule) : (noRules name).Remembers body := name.elim
  have heither : either.Remembers body := by
    intro i
    match i with
    | 0 => exact ⟨⟨trivial, rfl, trivial⟩, trivial⟩
    | 1 => exact ⟨⟨trivial, rfl, trivial⟩, trivial⟩
  have hinput : input.Within := trivial
  have hends : Ends noRules either input #[] (.ok 'c') :=
    ⟨by simp, 0, by with_unfolding_all rfl⟩
  obtain ⟨hgeneral, hgrammar⟩ := memo_calls_at_most_once
  obtain ⟨n, lengths, hn, hnodup, hle, hcalled, -⟩ :=
    hgeneral hrules heither hinput hends () "a" 0
  refine ⟨hrules, heither, hinput, hends, by with_unfolding_all rfl,
    ⟨n, lengths, hn, hnodup, hle, hcalled⟩, Grammar.wholeExpression_remembers, ?_⟩
  exact hgrammar Grammar.wholeExpression_remembers tokens .term "term" 301

end Parser

end LambdaTree
