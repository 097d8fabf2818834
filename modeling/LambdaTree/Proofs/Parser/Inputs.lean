/-
  LambdaTree.Proofs.Parser.Inputs

  Parsers ask an input for its length, its first symbol, how its first few
  symbols are shown, and what lies behind the first.  Inputs that answer these
  questions alike (`Bisimulation`), with symbols that need not be the same but
  only related, are treated alike by each step of a parser.  Where the symbols
  are the same, every parser gives like answers: the same value or the same
  diagnostic, at places that are again alike (`eval_alike`).

  Two instances matter.  On the diagonal the relation is a property of inputs
  that moving forward keeps, and every place a parser reports has it
  (`eval_keeps`).  And a cursor is like the plain sequence of the symbols from
  its offset on (`bisimulation_slice`).
-/

import LambdaTree.Proofs.Parser.Meaning
import Mathlib.Data.List.Forall2

namespace LambdaTree

/-! ## Like outcomes -/

/-- Both computations fail with the same error, or both give values that are related. -/
inductive Alike {ε α β : Type} (P : α → β → Prop) : Except ε α → Except ε β → Prop where
  | ok {a : α} {b : β} (h : P a b) : Alike P (.ok a) (.ok b)
  | error (e : ε) : Alike P (.error e) (.error e)

namespace Alike

variable {ε α β γ δ : Type} {P : α → β → Prop} {Q : γ → δ → Prop}

theorem of_eq {P : α → α → Prop} {x y : Except ε α} (hxy : x = y) (h : ∀ a, x = .ok a → P a a) :
    Alike P x y := by
  subst hxy
  cases x with
  | error e => exact error e
  | ok a => exact ok (h a rfl)

theorem bind {x : Except ε α} {y : Except ε β} {f : α → Except ε γ} {g : β → Except ε δ}
    (h : Alike P x y) (hk : ∀ a b, x = .ok a → P a b → Alike Q (f a) (g b)) :
    Alike Q (x >>= f) (y >>= g) := by
  cases h with
  | error e => exact error e
  | ok hab => exact hk _ _ rfl hab

/-- Two computations that begin alike. -/
theorem bind_eq {x y : Except ε α} {f : α → Except ε γ} {g : α → Except ε δ} (hxy : x = y)
    (hk : ∀ a, x = .ok a → Alike Q (f a) (g a)) : Alike Q (x >>= f) (y >>= g) := by
  subst hxy
  cases x with
  | error e => exact error e
  | ok a => exact hk a rfl

theorem eq {x y : Except ε α} (h : Alike Eq x y) : x = y := by
  cases h with
  | error e => rfl
  | ok hab => rw [hab]

theorem eq_error_iff {x : Except ε α} {y : Except ε β} (h : Alike P x y) (e : ε) :
    x = .error e ↔ y = .error e := by
  cases h with
  | error e' => simp
  | ok hab => simp

theorem check {x : Except Fault α} {y : Except Fault β} (h : Alike P x y) :
    Alike P (Halt.check x) (Halt.check y) := by
  cases h with
  | error e => exact error _
  | ok hab => exact ok hab

end Alike

/-- The place that a reply is about. -/
def Reply.rest {ι α : Type} : Reply ι α → Input ι
  | .success _ rest => rest
  | .failure _ rest => rest

/-- Related values or the same diagnostic, at related places. -/
inductive Reply.Alike {ι α : Type} (V : α → α → Prop) (R : Input ι → Input ι → Prop) :
    Reply ι α → Reply ι α → Prop where
  | success {a b : α} {i j : Input ι} (hvalue : V a b) (h : R i j) :
      Alike V R (.success a i) (.success b j)
  | failure (diagnostic : Diagnostic) {i j : Input ι} (h : R i j) :
      Alike V R (.failure diagnostic i) (.failure diagnostic j)

/-! ## Lengths -/

theorem Sequence.size_of_length {ι : Type} {data : Sequence ι} {n : Nat}
    (h : data.length = .ok n) : data.size = n := by
  induction data generalizing n with
  | symbols data =>
      simp only [length, Except.ok.injEq] at h
      simp [size, h]
  | view data offset ih =>
      cases hd : data.length with
      | error fault => simp [length, hd, bind, Except.bind] at h
      | ok m =>
          simp only [length, hd, bind, Except.bind, lengthFrom] at h
          split at h
          · have hn : ((m : Int) - offset).toNat = n := by simpa using h
            rw [size, ih hd]
            omega
          · cases h

/-- The size of an input is its length, if it has one. -/
theorem Input.size_of_length {ι : Type} {input : Input ι} {n : Nat} (h : input.length = .ok n) :
    input.size = n := by
  cases input with
  | plain symbols => simpa [Input.length, Input.size] using h
  | view cursor =>
      have hs : cursor.toSequence.size = n := Sequence.size_of_length h
      simp [Input.size, Cursor.size, hs]

/-! ## Inputs that answer alike -/

/-- Related inputs have the same length, first symbols that are related, first few symbols
    that are shown alike, and related inputs behind the first symbol. -/
structure Bisimulation {ι : Type} [Symbol ι] (S : ι → ι → Prop) (R : Input ι → Input ι → Prop) :
    Prop where
  length : ∀ {i j}, R i j → i.length = j.length
  first : ∀ {i j}, R i j → i.exceeds 0 = .ok true → Alike S i.first j.first
  shown : ∀ {i j}, R i j → ∀ count,
    Symbol.preview (i.head count) = Symbol.preview (j.head count)
  rest : ∀ {i j}, R i j → i.exceeds 0 = .ok true → Alike R i.rest j.rest

namespace Bisimulation

variable {ι α : Type} [Symbol ι] {S : ι → ι → Prop} {R : Input ι → Input ι → Prop}
  {i j : Input ι}

theorem exceeds (h : Bisimulation S R) (hij : R i j) (limit : Nat) :
    i.exceeds limit = j.exceeds limit := by
  rw [Input.exceeds_eq, Input.exceeds_eq, h.length hij]

theorem preview (h : Bisimulation S R) (hij : R i j) : i.preview = j.preview := by
  rw [Input.preview, Input.preview, h.shown hij, h.exceeds hij]

/-- Inputs that have a length have the same size. -/
theorem size (h : Bisimulation S R) (hij : R i j) {n : Nat} (hn : i.length = .ok n) :
    j.size = i.size := by
  rw [Input.size_of_length hn, Input.size_of_length (h.length hij ▸ hn)]

end Bisimulation

namespace Parser

variable {ι α : Type} {σ : Signature} [Symbol ι] {S : ι → ι → Prop} {V : α → α → Prop}
  {R : Input ι → Input ι → Prop} {i j : Input ι}

/-- A test that cannot tell related symbols apart accepts both or neither. -/
theorem accept_alike (h : Bisimulation S R) {test : ι → Except Fault Bool}
    (htest : ∀ a b, S a b → test a = test b) (hij : R i j) :
    Alike (Reply.Alike S R) (accept test i) (accept test j) := by
  refine Alike.bind_eq (h.exceeds hij 0) fun more hmore => ?_
  cases more with
  | false => exact .ok (.failure _ hij)
  | true =>
      refine (h.first hij hmore).bind fun a b _ hab => ?_
      refine Alike.bind_eq (htest a b hab) fun passed _ => ?_
      cases passed with
      | false => exact Alike.bind_eq (h.preview hij) fun shown _ => .ok (.failure _ hij)
      | true => exact (h.rest hij hmore).bind fun _ _ _ hrest => .ok (.success hab hrest)

theorem furthest_alike (h : Bisimulation S R) {is js : List (Input ι)} (hij : R i j)
    (hs : List.Forall₂ R is js) : Alike R (furthest i is) (furthest j js) := by
  induction hs generalizing i j with
  | nil => exact Alike.bind_eq (h.length hij) fun _ _ => .ok hij
  | cons hplace _ ih =>
      refine Alike.bind_eq (h.length hplace) fun n _ => ?_
      refine Alike.bind_eq (h.length hij) fun m _ => ?_
      by_cases hlt : n < m
      · simpa only [hlt, if_true] using ih hplace
      · simpa only [hlt, if_false] using ih hij

/-- Failures with the same diagnostics at related places. -/
abbrev FailuresAlike (R : Input ι → Input ι → Prop) :
    List (Diagnostic × Input ι) → List (Diagnostic × Input ι) → Prop :=
  List.Forall₂ fun a b => a.1 = b.1 ∧ R a.2 b.2

theorem allFailed_alike (h : Bisimulation S R) (hij : R i j)
    {fs gs : List (Diagnostic × Input ι)} (hs : FailuresAlike R fs gs) :
    Alike (Reply.Alike V R) (allFailed i fs) (allFailed j gs) := by
  have hlines : fs.map (fun f => f.1.lines) = gs.map (fun g => g.1.lines) := by
    induction hs with
    | nil => rfl
    | cons hfg _ ih => simp only [List.map_cons, hfg.1, ih]
  -- Without alternatives the failure is at the start, otherwise at the furthest place.
  cases hs with
  | nil => exact .ok (.failure _ hij)
  | cons hfg hrest =>
      have hplaces : List.Forall₂ R (List.map Prod.snd _) (List.map Prod.snd _) :=
        List.forall₂_map_left_iff.mpr (List.forall₂_map_right_iff.mpr (hrest.imp fun _ _ p => p.2))
      refine (furthest_alike h hfg.2 hplaces).bind fun _ _ _ hplace => ?_
      rw [hlines]
      exact .ok (.failure _ hplace)

theorem settle_alike (h : Bisimulation S R) (hij : R i j) {n : Nat}
    {f g : Fin n → Except Halt (Reply ι α)} (hfg : ∀ k, Alike (Reply.Alike Eq R) (f k) (g k))
    {fs gs : List (Diagnostic × Input ι)} (hs : FailuresAlike R fs gs) :
    Alike (Reply.Alike Eq R) (settle i (List.ofFn f) fs) (settle j (List.ofFn g) gs) := by
  induction n generalizing fs gs with
  | zero =>
      -- No alternative is left; the failures are reported from the first on.
      have hrev : FailuresAlike R fs.reverse gs.reverse := List.rel_reverse hs
      simpa only [List.ofFn_zero, settle] using (allFailed_alike h hij hrev).check
  | succ n ih =>
      simp only [List.ofFn_succ, settle]
      refine (hfg 0).bind fun a b _ hab => ?_
      cases hab with
      | success hvalue hrest => exact .ok (.success hvalue hrest)
      | failure diagnostic hrest => exact ih (fun k => hfg k.succ) (.cons ⟨rfl, hrest⟩ hs)

theorem requireEnd_alike (h : Bisimulation S R) {a b : Reply ι α} (hab : Reply.Alike V R a b) :
    Alike (Reply.Alike V R) (requireEnd a) (requireEnd b) := by
  cases hab with
  | failure diagnostic hrest => exact .ok (.failure _ hrest)
  | success hvalue hrest =>
      refine Alike.bind_eq (h.exceeds hrest 0) fun more _ => ?_
      cases more with
      | false => exact .ok (.success hvalue hrest)
      | true => exact Alike.bind_eq (h.preview hrest) fun _ _ => .ok (.failure _ hrest)

theorem countRead_alike (h : Bisimulation S R) (hij : R i j) {a b : Reply ι α}
    (hab : Reply.Alike Eq R a b) : Alike (Reply.Alike Eq R) (countRead i a) (countRead j b) := by
  cases hab with
  | failure diagnostic hrest => exact .ok (.failure _ hrest)
  | success hvalue hrest =>
      refine Alike.bind_eq (h.length hij) fun _ _ => ?_
      exact Alike.bind_eq (h.length hrest) fun _ _ => .ok (.success (by rw [hvalue]) hrest)

theorem collect_alike (h : Bisimulation S R) {f g : Input ι → Except Halt (Reply ι α)}
    (hfg : ∀ {i j}, R i j → Alike (Reply.Alike Eq R) (f i) (g j)) (hij : R i j) :
    Alike (fun a b => a.1 = b.1 ∧ R a.2 b.2) (collect f i) (collect g j) := by
  fun_induction collect f i generalizing j with
  | case1 i ih =>
      rw [collect]
      refine (hfg hij).bind fun a b _ hab => ?_
      cases hab with
      | failure diagnostic _ => exact .ok ⟨rfl, hij⟩
      | @success value _ rest rest' hvalue hrest =>
          subst hvalue
          refine Alike.bind_eq (by rw [h.length hrest]) fun n hn => ?_
          refine Alike.bind_eq (by rw [h.length hij]) fun m hm => ?_
          -- Both lengths were found, so the sizes that steer the loop are the same.
          rw [h.size hrest (Halt.check_eq_ok hn), h.size hij (Halt.check_eq_ok hm)]
          by_cases hlt : rest.size < i.size
          · simp only [hlt, if_true]
            refine (ih rest hlt hrest).bind fun x y _ hxy => ?_
            exact .ok ⟨by rw [hxy.1], hxy.2⟩
          · simp only [hlt, if_false]
            exact .ok ⟨rfl, hrest⟩

/-- Every parser answers inputs with the same symbols alike, if the rules do. -/
theorem eval_alike (h : Bisimulation Eq R) {call call' : Calls ι σ}
    (hcall : ∀ name {i j}, R i j → Alike (Reply.Alike Eq R) (call name i) (call' name j))
    (p : Parser ι σ α) (hij : R i j) :
    Alike (Reply.Alike Eq R) (eval call p i) (eval call' p j) := by
  induction p generalizing i j with
  | succeed value => exact .ok (.success rfl hij)
  | fail message => exact .ok (.failure _ hij)
  | satisfy test => exact (accept_alike h (fun _ _ hab => congrArg test hab) hij).check
  | seq function argument ihf iha =>
      refine (ihf hij).bind fun a b _ hab => ?_
      cases hab with
      | failure diagnostic hrest => exact .ok (.failure _ hrest)
      | success hf hmiddle =>
          subst hf
          -- The argument is read at the places that the function left, which are alike.
          refine (iha hmiddle).bind fun a b _ hab => ?_
          cases hab with
          | failure diagnostic hrest => exact .ok (.failure _ hrest)
          | success hvalue hrest =>
              subst hvalue
              exact Alike.bind_eq rfl fun _ _ => .ok (.success rfl hrest)
  | choice count alternative ih => exact settle_alike h hij (fun k => ih k hij) .nil
  | complete p ih => exact (ih hij).bind fun _ _ _ hab => (requireEnd_alike h hab).check
  | rule name => exact hcall name hij
  | many p ih =>
      refine (collect_alike h ih hij).bind fun a b _ hab => ?_
      obtain ⟨values, rest⟩ := a
      obtain ⟨values', rest'⟩ := b
      obtain ⟨hvalues, hrest⟩ := hab
      exact .ok (.success hvalues hrest)
  | memo cell p ih => exact ih hij
  | measure p ih => exact (ih hij).bind fun _ _ _ hab => (countRead_alike h hij hab).check
  | tally name p ih => exact Alike.bind_eq (by rw [h.length hij]) fun _ _ => ih hij
  | map change p ih =>
      refine (ih hij).bind fun a b _ hab => ?_
      cases hab with
      | success hvalue hrest => exact .ok (.success (by rw [hvalue]) hrest)
      | failure diagnostic hrest => exact .ok (.failure _ hrest)

theorem callsAt_alike (h : Bisimulation Eq R) (rules : Rules ι σ) (depth : Nat) (name : σ.Rule)
    (hij : R i j) :
    Alike (Reply.Alike Eq R) (callsAt rules depth name i) (callsAt rules depth name j) := by
  induction depth generalizing name i j with
  | zero => exact .error _
  | succ depth ih => exact eval_alike h (fun name => ih name) (rules name) hij

/-- At every depth, related inputs are answered alike. -/
theorem evalAt_alike (h : Bisimulation Eq R) (rules : Rules ι σ) (depth : Nat) (p : Parser ι σ α)
    (hij : R i j) : Alike (Reply.Alike Eq R) (evalAt rules depth p i) (evalAt rules depth p j) :=
  eval_alike h (fun name => callsAt_alike h rules depth name) p hij

/-! ## Properties that moving forward keeps -/

/-- A property of inputs that passes on to what lies behind the first symbol. -/
def Forward (P : Input ι → Prop) : Prop :=
  ∀ {i j : Input ι}, P i → i.exceeds 0 = .ok true → i.rest = .ok j → P j

theorem bisimulation_of_forward {P : Input ι → Prop} (h : Forward P) :
    Bisimulation Eq fun i j : Input ι => i = j ∧ P i where
  length := by
    rintro i _ ⟨rfl, -⟩
    rfl
  first := by
    rintro i _ ⟨rfl, -⟩ -
    exact Alike.of_eq rfl fun _ _ => rfl
  shown := by
    rintro i _ ⟨rfl, -⟩ count
    rfl
  rest := by
    rintro i _ ⟨rfl, hi⟩ hmore
    exact Alike.of_eq rfl fun j hj => ⟨rfl, h hi hmore hj⟩

/-- The place of every answer has a property that the input has and moving forward
    keeps. -/
theorem eval_keeps {P : Input ι → Prop} (h : Forward P) {call : Calls ι σ}
    (hcall : ∀ name i r, P i → call name i = .ok r → P r.rest) (p : Parser ι σ α)
    {r : Reply ι α} (hi : P i) (hr : eval call p i = .ok r) : P r.rest := by
  -- Each input that has the property is related to itself, and answers at related places
  -- are answers at places that have the property.
  have hcalls : ∀ name {i j : Input ι}, i = j ∧ P i →
      Alike (Reply.Alike Eq fun i j => i = j ∧ P i) (call name i) (call name j) := by
    rintro name i _ ⟨rfl, hi⟩
    refine Alike.of_eq rfl fun reply hreply => ?_
    have hrest := hcall name i reply hi hreply
    cases reply with
    | success value rest => exact .success rfl ⟨rfl, hrest⟩
    | failure diagnostic rest => exact .failure _ ⟨rfl, hrest⟩
  have halike := eval_alike (bisimulation_of_forward h) hcalls p ⟨rfl, hi⟩
  rw [hr] at halike
  cases halike with
  | ok hab =>
      cases hab with
      | success _ hrest => exact hrest.2
      | failure diagnostic hrest => exact hrest.2

theorem callsAt_keeps {P : Input ι → Prop} (h : Forward P) (rules : Rules ι σ) (depth : Nat)
    (name : σ.Rule) (i : Input ι) (r : Reply ι (σ.ruleValue name)) (hi : P i)
    (hr : callsAt rules depth name i = .ok r) : P r.rest := by
  induction depth generalizing name i with
  | zero => cases hr
  | succ depth ih => exact eval_keeps h (fun name i r => ih name i r) (rules name) hi hr

end Parser

/-! ## Cursors and plain sequences -/

/-- A cursor over some symbols, and the plain sequence of those from its offset on. -/
def Input.SlicedAs {ι : Type} (data : Array ι) (i j : Input ι) : Prop :=
  ∃ k, k ≤ data.size ∧ i = .view ⟨.symbols data, k⟩ ∧ j = .plain (data.toList.drop k)

section

variable {ι : Type} {data : Array ι} {k : Nat}

theorem Slice.startAt_ofNat (hk : k ≤ data.size) : Slice.startAt k data = k := by
  simp only [Slice.startAt, Slice.clamp]
  omega

theorem Cursor.length_symbols (hk : k ≤ data.size) :
    (⟨.symbols data, k⟩ : Cursor ι).length = .ok (data.size - k) := by
  have hle : (k : Int) ≤ data.size := by omega
  have hsub : ((data.size : Int) - k).toNat = data.size - k := by omega
  simp [Cursor.length, toSequence, Sequence.length, Sequence.lengthFrom, bind, Except.bind, hle,
    hsub]

theorem Cursor.get_symbols [Symbol ι] (hk : k < data.size) :
    (⟨.symbols data, k⟩ : Cursor ι).get 0 = .ok data[k] := by
  have hlength : ((Sequence.symbols data).length >>= Sequence.lengthFrom (k : Int)) =
      .ok (data.size - k) := Cursor.length_symbols (Nat.le_of_lt hk)
  have hplace : (0 : Int) ≤ 0 ∧ (0 : Int) < (data.size - k : Nat) := by omega
  have hneg : ¬(k : Int) < 0 := by omega
  have hpos : position? data.size k = some k := by
    simp [position?, hneg, hk]
  rw [Cursor.get, toSequence, Sequence.get, hlength]
  -- The index is not negative, so it is the place that is looked at.
  show (if (0 : Int) ≤ 0 ∧ (0 : Int) < (data.size - k : Nat) then
    (Sequence.symbols data).get (k + 0) else _) = _
  rw [if_pos hplace, Int.add_zero, Sequence.get, hpos]
  simp [hk]

theorem Cursor.head_symbols (hk : k ≤ data.size) (count : Nat) :
    (⟨.symbols data, k⟩ : Cursor ι).head count = (data.toList.drop k).take count := by
  simp [Cursor.head, Sequence.content, Slice.startAt_ofNat hk]

theorem Cursor.advance_symbols (hk : k < data.size) :
    (⟨.symbols data, k⟩ : Cursor ι).advance 1 = .ok ⟨.symbols data, (k + 1 : Nat)⟩ := by
  have hmin : min ((k : Int) + 1) data.size = (k + 1 : Nat) := by omega
  simp [Cursor.advance, Sequence.length, bind, Except.bind, pure, Except.pure, hmin]

theorem Input.exceeds_zero_symbols (hk : k ≤ data.size)
    (hmore : (Input.view ⟨.symbols data, k⟩ : Input ι).exceeds 0 = .ok true) : k < data.size := by
  simp [Input.exceeds, Cursor.length_symbols hk, Functor.map, Except.map] at hmore
  omega

theorem bisimulation_slice [Symbol ι] (data : Array ι) :
    Bisimulation Eq (Input.SlicedAs data) where
  length := by
    rintro _ _ ⟨k, hk, rfl, rfl⟩
    simp [Input.length, Cursor.length_symbols hk]
  first := by
    rintro _ _ ⟨k, hk, rfl, rfl⟩ hmore
    have hlt := Input.exceeds_zero_symbols hk hmore
    rw [List.drop_eq_getElem_cons (by simpa using hlt)]
    simp only [Input.first, Cursor.get_symbols hlt]
    exact .ok (by simp)
  shown := by
    rintro _ _ ⟨k, hk, rfl, rfl⟩ count
    simp [Input.head, Cursor.head_symbols hk]
  rest := by
    -- One step on is the next cursor on one side and the tail on the other.
    rintro _ _ ⟨k, hk, rfl, rfl⟩ hmore
    have hlt := Input.exceeds_zero_symbols hk hmore
    simp only [Input.rest, Cursor.advance_symbols hlt, Functor.map, Except.map, List.tail_drop]
    exact .ok ⟨k + 1, hlt, rfl, rfl⟩

/-- The cursor at the start of a sequence stands for all of it. -/
theorem Input.slicedAs_toCursor (symbols : List ι) :
    Input.SlicedAs symbols.toArray (Input.toCursor (.plain symbols)) (.plain symbols) :=
  ⟨0, Nat.zero_le _, rfl, rfl⟩

end

end LambdaTree
