/-
  LambdaTree.Proofs.Sequence.Views

  A cursor is, for all that can be asked of it, the list of the items from its
  offset on.  Which items a sequence holds is `Sequence.Holds`: the symbols
  themselves, or for a view within another sequence what that one holds from
  the offset on, through any number of views.  Lengths, indices, slices, walks
  and searches find their places from the offset each in its own way; all of
  them agree with the list (`Cursor.ActsAs`).
-/

import LambdaTree.Input
import LambdaTree.Proofs.Sequence.Slices
import Mathlib.Data.List.Forall2

namespace LambdaTree

variable {ι κ : Type}

/-! ## The items of a sequence -/

/-- The items that a sequence holds, where every view starts within its data. -/
inductive Sequence.Holds : Sequence ι → List ι → Prop where
  | symbols (data : Array ι) : Holds (.symbols data) data.toList
  | view {data : Sequence ι} {items : List ι} {offset : Int} (h : Holds data items)
      (hstart : 0 ≤ offset) (hend : offset ≤ items.length) :
      Holds (.view data offset) (items.drop offset.toNat)

/-- The items of a plain input, or of what lies from a cursor on. -/
inductive Input.Holds : Input ι → List ι → Prop where
  | plain (items : List ι) : Holds (.plain items) items
  | view {cursor : Cursor ι} {items : List ι} (h : cursor.toSequence.Holds items) :
      Holds (.view cursor) items

namespace Sequence.Holds

variable {data : Sequence ι} {items : List ι} {offset : Int}

theorem lengthFrom_eq (hend : offset ≤ items.length) (hstart : 0 ≤ offset) :
    lengthFrom offset items.length = .ok (items.drop offset.toNat).length := by
  rw [lengthFrom, if_pos hend, List.length_drop]
  congr 1
  omega

theorem length_eq (h : data.Holds items) : data.length = .ok items.length := by
  induction h with
  | symbols data => simp [Sequence.length]
  | @view data items offset _ hstart hend ih =>
      rw [Sequence.length, ih]
      exact lengthFrom_eq hend hstart

theorem size_eq (h : data.Holds items) : data.size = items.length := by
  induction h with
  | symbols data => simp [Sequence.size]
  | @view data items offset _ hstart hend ih =>
      rw [Sequence.size, ih, List.length_drop]
      omega

/-- Slices see the items. -/
theorem content_eq (h : data.Holds items) : data.content = items.toArray := by
  induction h with
  | symbols data => rfl
  | @view data items offset _ hstart hend ih =>
      have hplace : Slice.startAt offset items.toArray = offset.toNat := by
        simp only [Slice.startAt, Slice.clamp, List.size_toArray]
        omega
      have hall : (items.drop offset.toNat).length ≤ items.length - offset.toNat := by simp
      rw [content, ih, Slice.dropTo, hplace, List.size_toArray]
      apply Array.toList_inj.mp
      rw [Array.toList_extract, List.extract_eq_take_drop, List.take_of_length_le hall]

variable [Symbol ι]

theorem get_view (h : data.Holds items) (hstart : 0 ≤ offset) (hend : offset ≤ items.length)
    {index place : Int}
    (hplace : place = if index < 0 then index + (items.drop offset.toNat).length else index) :
    (Sequence.view data offset).get index =
      if 0 ≤ place ∧ place < (items.drop offset.toNat).length then data.get (offset + place)
      else .error (.badIndex place) := by
  rw [Sequence.get, h.length_eq, hplace]
  show (lengthFrom offset items.length >>= _) = _
  rw [lengthFrom_eq hend hstart]
  rfl

/-- The item at a place of the list is the symbol at this index. -/
theorem get_eq (h : data.Holds items) {k : Nat} {item : ι} (hitem : items[k]? = some item) :
    data.get k = .ok item := by
  induction h generalizing k with
  | symbols data =>
      obtain ⟨hlt, hitem⟩ := List.getElem?_eq_some_iff.mp hitem
      rw [Array.length_toList] at hlt
      have hpos : position? data.size k = some k := by
        have hneg : ¬(k : Int) < 0 := by omega
        simp [position?, hneg, hlt]
      rw [Sequence.get, hpos]
      simp only [Option.bind_some, Array.getElem?_eq_getElem hlt]
      rw [← hitem, Array.getElem_toList]
  | @view data items offset h hstart hend ih =>
      have hlt := (List.getElem?_eq_some_iff.mp hitem).1
      have hneg : ¬(k : Int) < 0 := by omega
      have hsum : offset + (k : Int) = (offset.toNat + k : Nat) := by omega
      rw [h.get_view hstart hend (if_neg hneg).symm, if_pos (by omega), hsum]
      exact ih (by rwa [← List.getElem?_drop])

/-- A walk over the last items meets them all. -/
theorem walkFrom_eq (h : data.Holds items) {count k : Nat} (hcount : k + count = items.length) :
    data.walkFrom count k = ⟨items.drop k, none⟩ := by
  induction count generalizing k with
  | zero => rw [walkFrom, List.drop_of_length_le (by omega)]
  | succ count ih =>
      have hlt : k < items.length := by omega
      have hnext : (k : Int) + 1 = (k + 1 : Nat) := by omega
      rw [walkFrom, h.get_eq (List.getElem?_eq_getElem hlt), hnext, ih (by omega),
        List.drop_eq_getElem_cons hlt]

end Sequence.Holds

/-- A cursor within its data holds what the data holds from the offset on. -/
theorem Cursor.exists_data {cursor : Cursor ι} {items : List ι}
    (h : cursor.toSequence.Holds items) :
    ∃ all, cursor.data.Holds all ∧ 0 ≤ cursor.offset ∧ cursor.offset ≤ all.length ∧
      items = all.drop cursor.offset.toNat := by
  cases h with
  | @view _ all _ hdata hstart hend => exact ⟨all, hdata, hstart, hend, rfl⟩

/-! ## Equal items -/

/-- Two lists have items that compare as equal, in the same order. -/
def SameItems [Symbol ι] [Symbol κ] : List ι → List κ → Prop :=
  List.Forall₂ fun a b => (Symbol.item a).same (Symbol.item b) = true

theorem Sequence.Walk.agree_eq [Symbol ι] [Symbol κ] {lefts : List ι} {rights : List κ}
    (hlength : lefts.length = rights.length) :
    ∃ answer, agree none none lefts rights = .ok answer ∧
      (answer = true ↔ SameItems lefts rights) := by
  induction lefts generalizing rights with
  | nil =>
      obtain rfl := List.length_eq_zero_iff.mp hlength.symm
      exact ⟨true, rfl, iff_of_true rfl .nil⟩
  | cons a lefts ih =>
      cases rights with
      | nil => cases hlength
      | cons b rights =>
          obtain ⟨answer, hagree, hiff⟩ := ih (Nat.succ.inj hlength)
          rw [agree]
          by_cases hsame : (Symbol.item a).same (Symbol.item b) = true
          · rw [if_pos hsame]
            exact ⟨answer, hagree, hiff.trans ⟨.cons hsame, fun h => (List.forall₂_cons.mp h).2⟩⟩
          · rw [if_neg hsame]
            exact ⟨false, rfl, iff_of_false (by simp) fun h => hsame (List.forall₂_cons.mp h).1⟩

theorem Input.Holds.length_eq {input : Input ι} {items : List ι} (h : input.Holds items) :
    input.length = .ok items.length := by
  cases h with
  | plain items => rfl
  | view h => exact h.length_eq

theorem Input.Holds.walk_eq [Symbol ι] {input : Input ι} {items : List ι}
    (h : input.Holds items) : input.walk = ⟨items, none⟩ := by
  cases h with
  | plain items => rfl
  | @view cursor items h =>
      obtain ⟨all, hdata, hstart, hend, rfl⟩ := Cursor.exists_data h
      have hplace : ((cursor.offset.toNat : Nat) : Int) = cursor.offset := by omega
      have hsum : cursor.offset.toNat + ((all.length : Int) - cursor.offset).toNat =
          all.length := by omega
      have hwalk := hdata.walkFrom_eq hsum
      rw [hplace] at hwalk
      simp only [Input.walk, Cursor.walk, hdata.length_eq, hwalk]

/-! ## Searches -/

/-- Where a range starts, when a negative start counts from the end of `size` items. -/
def rangeStart (size : Nat) (start : Int) : Int :=
  if start < 0 then max (size + start) 0 else start

/-- Where a range stops, when a negative stop counts from the end of `size` items. -/
def rangeStop (size : Nat) (stop : Option Int) : Option Int :=
  stop.map fun last => if last < 0 then size + last else last

/-- The first place from `low` on, and before `stop`, at which a list has an item that passes
    a test. -/
structure FirstPlace (test : ι → Bool) (items : List ι) (low : Int) (stop : Option Int)
    (place : Nat) : Prop where
  reached : low ≤ place
  before : ∀ last ∈ stop, (place : Int) < last
  passes : ∃ item, items[place]? = some item ∧ test item = true
  first : ∀ earlier item, low ≤ (earlier : Nat) → earlier < place → items[earlier]? = some item →
    test item = false

section

variable {test : ι → Bool} {items : List ι} {low : Int} {stop : Option Int} {place k : Nat}

theorem FirstPlace.lt_length (h : FirstPlace test items low stop place) :
    place < items.length := by
  obtain ⟨item, hitem, -⟩ := h.passes
  exact (List.getElem?_eq_some_iff.mp hitem).1

theorem FirstPlace.unique (h : FirstPlace test items low stop place) {place' : Nat}
    (h' : FirstPlace test items low stop place') : place = place' := by
  obtain ⟨item, hitem, hpasses⟩ := h.passes
  obtain ⟨item', hitem', hpasses'⟩ := h'.passes
  rcases Nat.lt_trichotomy place place' with hlt | heq | hgt
  · have hfalse := h'.first place item h.reached hlt hitem
    simp [hpasses] at hfalse
  · exact heq
  · have hfalse := h.first place' item' h'.reached hgt hitem'
    simp [hpasses'] at hfalse

/-- Where an item is refused, the first place is the first from the next one on. -/
theorem firstPlace_succ_iff {item : ι} (hitem : items[k]? = some item)
    (hrefused : test item = false) :
    FirstPlace test items (k + 1 : Nat) stop place ↔ FirstPlace test items k stop place := by
  constructor
  · rintro ⟨hreached, hbefore, hpasses, hfirst⟩
    refine ⟨by omega, hbefore, hpasses, fun earlier other hlow hless hother => ?_⟩
    by_cases hhere : earlier = k
    · rw [hhere, hitem] at hother
      rwa [← Option.some.inj hother]
    · exact hfirst earlier other (by omega) hless hother
  · rintro ⟨hreached, hbefore, ⟨other, hother, hpasses⟩, hfirst⟩
    have hne : k ≠ place := by
      intro heq
      rw [← heq, hitem] at hother
      rw [Option.some.inj hother, hpasses] at hrefused
      cases hrefused
    refine ⟨by omega, hbefore, ⟨other, hother, hpasses⟩, fun earlier other hlow => ?_⟩
    exact hfirst earlier other (by omega)

end

/-! ## Cursors -/

namespace Cursor

variable [Symbol ι] {cursor : Cursor ι} {items : List ι}

/-- The cursor answers every question as the list of items does. -/
structure ActsAs (cursor : Cursor ι) (items : List ι) : Prop where
  length : cursor.length = .ok items.length
  /-- Whether there are any items. -/
  truth : (Input.view cursor).exceeds 0 = .ok (!items.isEmpty)
  /-- Indices from zero on count from the start, negative ones from the end. -/
  inside : ∀ (k : Nat) (item : ι), items[k]? = some item →
    cursor.get k = .ok item ∧ cursor.get (k - items.length) = .ok item
  outside : ∀ index : Int, index < -items.length ∨ items.length ≤ index →
    ∃ place, cursor.get index = .error (.badIndex place)
  slice : ∀ slice : Slice, cursor.slice slice = slice.pick items.toArray
  /-- A slice goes from its start by its step until it comes to its stop. -/
  picked : ∀ (slice : Slice) (start stop step : Int),
    slice.bounds items.length = .ok (start, stop, step) →
    ∃ picked, cursor.slice slice = .ok picked ∧ ∀ n : Nat,
      picked[n]? =
        if Slice.Before start stop step n then items[(start + n * step).toNat]? else none
  sliceFault : ∀ (slice : Slice) (fault : Fault),
    cursor.slice slice = .error fault ↔ fault = .zeroStep ∧ slice.step = some 0
  walk : cursor.walk = ⟨items, none⟩
  list : cursor.toList = .ok items
  reversed : cursor.reversed = .ok items.reverse
  any : ∀ test, cursor.any test = .ok (items.any test)
  count : ∀ test, cursor.count test = .ok (items.countP test)
  /-- A search goes over a range, whose ends count from the end when negative. -/
  find : ∀ test start stop,
    (∀ place : Int, cursor.find test start stop = .ok place ↔ ∃ k : Nat, place = k ∧
      FirstPlace test items (rangeStart items.length start) (rangeStop items.length stop) k) ∧
    ∀ fault, cursor.find test start stop = .error fault ↔ fault = .absent ∧ ∀ k,
      ¬FirstPlace test items (rangeStart items.length start) (rangeStop items.length stop) k
  same : ∀ {κ : Type} [Symbol κ] (other : Input κ) (others : List κ), other.Holds others →
    ∃ answer, (Input.view cursor).same other = .ok answer ∧
      (answer = true ↔ SameItems items others)
  /-- Moving on drops the first items, as many as there are. -/
  advance : ∀ m : Nat, ∃ next n, cursor.advance m = .ok next ∧ next.data = cursor.data ∧
    cursor.data.length = .ok n ∧ 0 ≤ next.offset ∧ next.offset ≤ n ∧
    next.toSequence.Holds (items.drop (min m items.length))
  advance_advance : ∀ m n : Nat,
    (cursor.advance m >>= fun next => next.advance n) = cursor.advance (m + n : Nat)

/-- An index names a place from the start, or from the end when it is negative. -/
theorem get_inside (h : cursor.toSequence.Holds items) {k : Nat} {item : ι}
    (hitem : items[k]? = some item) {index : Int}
    (hindex : index = k ∨ index = k - items.length) : cursor.get index = .ok item := by
  obtain ⟨all, hdata, hstart, hend, rfl⟩ := exists_data h
  have hlt := (List.getElem?_eq_some_iff.mp hitem).1
  have hplace : (k : Int) =
      if index < 0 then index + (all.drop cursor.offset.toNat).length else index := by
    split <;> omega
  have hsum : cursor.offset + (k : Int) = (cursor.offset.toNat + k : Nat) := by omega
  rw [Cursor.get, toSequence, hdata.get_view hstart hend hplace, if_pos (by omega), hsum]
  exact hdata.get_eq (by rwa [← List.getElem?_drop])

theorem get_outside (h : cursor.toSequence.Holds items) {index : Int}
    (hindex : index < -items.length ∨ items.length ≤ index) :
    ∃ place, cursor.get index = .error (.badIndex place) := by
  obtain ⟨all, hdata, hstart, hend, rfl⟩ := exists_data h
  refine ⟨_, (hdata.get_view hstart hend rfl).trans (if_neg ?_)⟩
  split <;> omega

theorem backFrom_eq (h : cursor.toSequence.Holds items) {count : Nat}
    (hcount : count ≤ items.length) : cursor.backFrom count = .ok (items.take count).reverse := by
  induction count with
  | zero => rfl
  | succ count ih =>
      have hitem : items[count]? = some items[count] := List.getElem?_eq_getElem (by omega)
      have hget : cursor.get count = .ok items[count] := h.get_eq hitem
      rw [backFrom, hget, ih (by omega), List.take_succ_eq_append_getElem (by omega),
        List.reverse_append]
      rfl

/-- A search that is allowed enough steps finds the first place, if there is one. -/
theorem search_eq (h : cursor.toSequence.Holds items) (test : ι → Bool) (stop : Option Int)
    {bound k : Nat} (hbound : items.length < k + bound) :
    (∃ place, FirstPlace test items k stop place ∧
      cursor.search test stop bound k = .ok place) ∨
    (∀ place, ¬FirstPlace test items k stop place) ∧
      cursor.search test stop bound k = .error .absent := by
  induction bound generalizing k with
  | zero =>
      refine .inr ⟨fun place hplace => ?_, rfl⟩
      have hlt := hplace.lt_length
      have hle := hplace.reached
      omega
  | succ bound ih =>
      have hstop : (stop.all fun last => decide ((k : Int) < last)) = true ↔
          ∀ last ∈ stop, (k : Int) < last := by
        cases stop <;> simp
      rw [search]
      split
      · rename_i hbefore
        by_cases hlt : k < items.length
        · have hitem : items[k]? = some items[k] := List.getElem?_eq_getElem hlt
          have hget : cursor.get k = .ok items[k] := h.get_eq hitem
          have hnext : (k : Int) + 1 = (k + 1 : Nat) := by omega
          simp only [hget]
          split
          · rename_i hpasses
            refine .inl ⟨k, ⟨Int.le_refl _, hstop.mp hbefore, ⟨_, hitem, hpasses⟩, ?_⟩, rfl⟩
            intro earlier item hlow hless
            omega
          · rename_i hrefused
            simp only [← firstPlace_succ_iff hitem (Bool.eq_false_of_not_eq_true hrefused)]
            rw [hnext]
            exact ih (by omega)
        · -- Behind the last item the search ends, whatever the range.
          have hout : (items.length : Int) ≤ k := by omega
          obtain ⟨place, hget⟩ := get_outside h (.inr hout)
          simp only [hget]
          refine .inr ⟨fun place hplace => ?_, trivial⟩
          have hlt' := hplace.lt_length
          have hle := hplace.reached
          omega
      · rename_i hstopped
        refine .inr ⟨fun place hplace => hstopped (hstop.mpr fun last hlast => ?_), rfl⟩
        have hle := hplace.reached
        have hlt := hplace.before last hlast
        omega

/-- To find is to search the range that the ends name. -/
theorem find_eq (h : cursor.toSequence.Holds items) (test : ι → Bool) (start : Int)
    (stop : Option Int) :
    cursor.find test start stop = cursor.search test (rangeStop items.length stop)
      (items.length + 1) (rangeStart items.length start) := by
  have hlength : cursor.length = .ok items.length := h.length_eq
  have hsize : cursor.size = items.length := h.size_eq
  rw [find, hlength, hsize]
  cases stop with
  | none =>
      simp only [rangeStart, rangeStop]
      split <;> rfl
  | some last =>
      simp only [rangeStart, rangeStop, Option.map_some]
      by_cases hstart : start < 0
      · simp only [hstart, if_true]
        split <;> rfl
      · simp only [hstart, if_false]
        split <;> rfl

/-- The first place is found, and where there is none, nothing. -/
theorem find_spec (h : cursor.toSequence.Holds items) (test : ι → Bool) (start : Int)
    (stop : Option Int) :
    (∀ place : Int, cursor.find test start stop = .ok place ↔ ∃ k : Nat, place = k ∧
      FirstPlace test items (rangeStart items.length start) (rangeStop items.length stop) k) ∧
    ∀ fault, cursor.find test start stop = .error fault ↔ fault = .absent ∧ ∀ k,
      ¬FirstPlace test items (rangeStart items.length start) (rangeStop items.length stop) k := by
  obtain ⟨low, hlow⟩ : ∃ low : Nat, rangeStart items.length start = low :=
    ⟨(rangeStart items.length start).toNat, by simp only [rangeStart]; split <;> omega⟩
  have hbound : items.length < low + (items.length + 1) := by omega
  rw [find_eq h, hlow]
  rcases search_eq h test (rangeStop items.length stop) hbound with
    ⟨found, hfound, hsearch⟩ | ⟨hnone, hsearch⟩
  · rw [hsearch]
    refine ⟨fun place => ⟨fun hplace => ?_, ?_⟩, fun fault => ⟨fun hfault => ?_, ?_⟩⟩
    · cases hplace
      exact ⟨found, rfl, hfound⟩
    · rintro ⟨k, rfl, hk⟩
      rw [hfound.unique hk]
    · cases hfault
    · rintro ⟨-, hnone⟩
      exact absurd hfound (hnone found)
  · rw [hsearch]
    refine ⟨fun place => ⟨fun hplace => ?_, ?_⟩, fun fault => ⟨fun hfault => ?_, ?_⟩⟩
    · cases hplace
    · rintro ⟨k, -, hk⟩
      exact absurd hk (hnone k)
    · cases hfault
      exact ⟨rfl, hnone⟩
    · rintro ⟨rfl, -⟩
      rfl

theorem same_eq (h : cursor.toSequence.Holds items) [Symbol κ] {other : Input κ}
    {others : List κ} (hother : other.Holds others) :
    ∃ answer, (Input.view cursor).same other = .ok answer ∧
      (answer = true ↔ SameItems items others) := by
  have hview : (Input.view cursor).Holds items := .view h
  rw [Input.same, hview.length_eq, hother.length_eq, hview.walk_eq, hother.walk_eq]
  by_cases hlength : items.length = others.length
  · obtain ⟨answer, hagree, hiff⟩ := Sequence.Walk.agree_eq hlength
    refine ⟨answer, ?_, hiff⟩
    simp only [bind, Except.bind, hlength, if_true]
    exact hagree
  · refine ⟨false, ?_, iff_of_false (by simp) fun hsame => hlength hsame.length_eq⟩
    simp only [bind, Except.bind, hlength, if_false]
    rfl

theorem any_eq (h : cursor.toSequence.Holds items) (test : ι → Bool) :
    cursor.any test = .ok (items.any test) := by
  have hview : (Input.view cursor).Holds items := .view h
  have hwalk : cursor.walk = ⟨items, none⟩ := hview.walk_eq
  rw [any, hwalk, Sequence.Walk.any]
  cases items.any test <;> rfl

omit [Symbol ι] in
theorem advance_eq {all : List ι} (hdata : cursor.data.Holds all) (m : Int) :
    cursor.advance m = .ok ⟨cursor.data, min (cursor.offset + m) all.length⟩ := by
  rw [advance, hdata.length_eq]
  rfl

omit [Symbol ι] in
/-- Moving on drops the first items, as many as there are. -/
theorem holds_advance {all : List ι} (hdata : cursor.data.Holds all) (hstart : 0 ≤ cursor.offset)
    (hend : cursor.offset ≤ all.length) (m : Nat) :
    (Sequence.view cursor.data (min (cursor.offset + m) all.length)).Holds
      ((all.drop cursor.offset.toNat).drop (min m (all.drop cursor.offset.toNat).length)) := by
  have hplace : (min (cursor.offset + m) all.length).toNat =
      cursor.offset.toNat + min m (all.drop cursor.offset.toNat).length := by
    rw [List.length_drop]
    omega
  have hlow : 0 ≤ min (cursor.offset + m) all.length := by omega
  have hmoved : (Sequence.view cursor.data _).Holds _ := .view hdata hlow (by omega)
  rwa [hplace, ← List.drop_drop] at hmoved

/-- A cursor that stands within its data is the list of the items from there on.  Let some
    data hold a list of items, as a plain sequence or through views of one, and let the offset
    lie between its ends.  Then the length, the symbol at any index, the symbols of any slice,
    the walks in both directions, membership, counts, searches of any range and comparisons
    give what they give for the items from the offset on, with faults in the same cases; and
    moving on leaves a cursor for the items that are left, also when it is done in two parts. -/
theorem cursor_acts_as_suffix {all : List ι} (hdata : cursor.data.Holds all)
    (hstart : 0 ≤ cursor.offset) (hend : cursor.offset ≤ all.length) :
    cursor.ActsAs (all.drop cursor.offset.toNat) := by
  have h : cursor.toSequence.Holds (all.drop cursor.offset.toNat) := .view hdata hstart hend
  have hview : (Input.view cursor).Holds (all.drop cursor.offset.toNat) := .view h
  have hlength : cursor.length = .ok (all.drop cursor.offset.toNat).length := h.length_eq
  have hwalk : cursor.walk = ⟨all.drop cursor.offset.toNat, none⟩ := hview.walk_eq
  have hrest : cursor.rest = (all.drop cursor.offset.toNat).toArray := h.content_eq
  refine {
    length := hlength
    truth := ?_
    inside := fun k item hitem => ⟨get_inside h hitem (.inl rfl), get_inside h hitem (.inr rfl)⟩
    outside := fun index hindex => get_outside h hindex
    slice := fun slice => by rw [Cursor.slice, hrest]
    picked := fun slice start stop step hbounds => ?_
    sliceFault := fun slice fault => Slice.pick_fault_iff
    walk := hwalk
    list := by rw [toList, hlength, hwalk]; rfl
    reversed := ?_
    any := any_eq h
    count := fun test => by rw [count, hwalk]; rfl
    find := find_spec h
    same := fun other others hother => same_eq h hother
    advance := fun m => ?_
    advance_advance := fun m n => ?_ }
  · rw [Input.exceeds, hlength]
    cases all.drop cursor.offset.toNat <;> rfl
  · rw [← List.size_toArray] at hbounds
    rw [Cursor.slice, hrest]
    simpa only [List.getElem?_toArray] using Slice.pick_spec hbounds
  · rw [reversed, hlength]
    show cursor.backFrom (all.drop cursor.offset.toNat).length = _
    rw [backFrom_eq h (Nat.le_refl _), List.take_length]
  · refine ⟨_, all.length, advance_eq hdata m, rfl, hdata.length_eq, ?_, ?_,
      holds_advance hdata hstart hend m⟩
    · show 0 ≤ min (cursor.offset + m) all.length
      omega
    · exact Int.min_le_right _ _
  · have hsum : min (min (cursor.offset + m) all.length + (n : Int)) all.length =
        min (cursor.offset + (m + n : Nat)) all.length := by omega
    have hmoved : (⟨cursor.data, min (cursor.offset + m) all.length⟩ : Cursor ι).data.Holds all :=
      hdata
    rw [advance_eq hdata, advance_eq hdata, ← hsum]
    exact advance_eq hmoved n

/-- A cursor before the last two of four characters, over a view that leaves out the first. -/
theorem cursor_acts_as_suffix_of_view :
    let data : Sequence Char := .view (.symbols #['x', 'a', 'b', 'a']) 1
    data.Holds ['a', 'b', 'a'] ∧ (0 : Int) ≤ 1 ∧ (1 : Int) ≤ ['a', 'b', 'a'].length ∧
      (⟨data, 1⟩ : Cursor Char).ActsAs ['b', 'a'] := by
  intro data
  have hdata : (⟨data, 1⟩ : Cursor Char).data.Holds ['a', 'b', 'a'] :=
    .view (.symbols _) (by decide) (by decide)
  have hcursor := cursor_acts_as_suffix hdata (by decide) (by decide)
  exact ⟨hdata, by decide, by decide, hcursor⟩

end Cursor

end LambdaTree
