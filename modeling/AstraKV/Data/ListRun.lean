import AstraKV.Data.LinkedList
import AstraKV.Lib.Machine

/-!
# AstraKV.Data.ListRun

The list type against a plain sequence: the same results from the same
operations, in either container.

Each operation has a meaning on plain sequences, written with `List`
functions, and the list type is shown to answer and to change as that meaning
says. Since `items` hides the container, one simulation serves both. That the
conversion happens at the threshold and never back is a second invariant,
`Fits`.
-/

universe u

namespace AstraKV

open Machine

variable {α : Type u}

inductive ListOp (α : Type u) where
  | pushLeft (value : α)
  | pushRight (value : α)
  | popLeft
  | popRight
  | set (index : Int) (value : α)
  | insert (pivotIndex : Int) (value : α) (before : Bool)
  | trim (start stop : Int)
  | remove (value : α) (count : Int)
  | clear
  | size
  | empty
  | range (start stop : Int)

inductive ListReply (α : Type u) where
  | unit
  | bool (b : Bool)
  | count (n : Nat)
  | value (v : Option α)
  | values (vs : List α)

/-! ## plain sequences -/

/-- The position an index stands for, if it is in a sequence of length `n`. -/
def position? (n : Nat) (index : Int) : Option Nat :=
  if 0 ≤ index then (if index < n then some index.toNat else none)
  else if 0 ≤ n + index then some (n + index).toNat else none

/-- The items from one index to another, both counted from the end if negative. -/
def slice (items : List α) (start stop : Int) : List α :=
  let place (index : Int) := if index < 0 then items.length + index else index
  (items.take (place stop + 1).toNat).drop (place start).toNat

/-- What an operation is to a plain sequence. -/
def ListOp.meaning [DecidableEq α] (items : List α) : ListOp α → ListReply α × List α
  | .pushLeft value => (.unit, value :: items)
  | .pushRight value => (.unit, items ++ [value])
  | .popLeft => (.value items.head?, items.tail)
  | .popRight => (.value items.getLast?, items.dropLast)
  | .set index value =>
      match position? items.length index with
      | none => (.bool false, items)
      | some n => (.bool true, items.set n value)
  | .insert pivotIndex value before =>
      match position? items.length pivotIndex with
      | none => (.bool false, items)
      | some n => (.bool true, items.insertIdx (if before then n else n + 1) value)
  | .trim start stop => (.unit, slice items start stop)
  | .remove value count =>
      if 0 < count then
        (.count (min count.toNat (items.count value)), (List.erase · value)^[count.toNat] items)
      else (.count (items.count value), items.filter (· ≠ value))
  | .clear => (.unit, [])
  | .size => (.count items.length, items)
  | .empty => (.bool items.isEmpty, items)
  | .range start stop => (.values (slice items start stop), items)

namespace LinkedList

def step [DecidableEq α] (l : LinkedList α) : ListOp α → ListReply α × LinkedList α
  | .pushLeft value => (.unit, l.pushLeft value)
  | .pushRight value => (.unit, l.pushRight value)
  | .popLeft => (.value l.popLeft.1, l.popLeft.2)
  | .popRight => (.value l.popRight.1, l.popRight.2)
  | .set index value => (.bool (l.set index value).1, (l.set index value).2)
  | .insert pivotIndex value before =>
      (.bool (l.insert pivotIndex value before).1, (l.insert pivotIndex value before).2)
  | .trim start stop => (.unit, l.trim start stop)
  | .remove value count => (.count (l.remove value count).1, (l.remove value count).2)
  | .clear => (.unit, l.clear)
  | .size => (.count l.size, l)
  | .empty => (.bool l.isEmpty, l)
  | .range start stop => (.values (l.range start stop), l)

section Indices

variable {l : LinkedList α} {start stop index : Int}

/-- Clamping an index does not change the slice. -/
theorem slice_clamp {items : List α} {start' stop' : Int}
    (hstart : start' = if start < 0 then max (items.length + start) 0 else start)
    (hstop : stop' = if stop < 0 then max (items.length + stop) (-1) else stop) :
    slice items start stop = (items.take (stop' + 1).toNat).drop start'.toNat := by
  have hfrom : start'.toNat = (if start < 0 then items.length + start else start).toNat := by
    rw [hstart]
    split <;> omega
  have hto : (stop' + 1).toNat = ((if stop < 0 then items.length + stop else stop) + 1).toNat := by
    rw [hstop]
    split <;> omega
  rw [slice, hfrom, hto]

/-- `Range` is a slice of the items. -/
theorem range_eq_slice : l.range start stop = slice l.items start stop := by
  rw [slice_clamp rfl rfl]
  unfold range size
  dsimp only
  generalize hstart : (if start < 0 then max ((l.items.length : Int) + start) 0 else start) = a
  generalize hstop : (if stop < 0 then max ((l.items.length : Int) + stop) (-1) else stop) = b
  have ha : 0 ≤ a := by
    rw [← hstart]
    split <;> omega
  split
  · have hnil : l.items = [] := List.length_eq_zero_iff.mp (by omega)
    simp [hnil]
  split
  · rw [List.drop_eq_nil_of_le]
    simp only [List.length_take]
    omega
  split
  · split
    · omega
    · rw [List.take_of_length_le (l := l.items) (by omega), List.take_of_length_le]
      rw [List.length_drop]
      omega
  · split
    · rw [List.drop_eq_nil_of_le]
      simp only [List.length_take]
      omega
    · rw [List.drop_take]
      congr 1
      omega

/-- Setting the items there are changes nothing. -/
theorem setItems_items (l : LinkedList α) : l.setItems l.items = l := by
  unfold setItems items
  split <;> rfl

/-- `Trim` keeps a slice. -/
theorem trim_eq : l.trim start stop = l.setItems (slice l.items start stop) := by
  rw [← range_eq_slice]
  unfold trim range size clear
  dsimp only
  generalize hstart : (if start < 0 then max ((l.items.length : Int) + start) 0 else start) = a
  generalize (if stop < 0 then max ((l.items.length : Int) + stop) (-1) else stop) = b
  have ha : 0 ≤ a := by
    rw [← hstart]
    split <;> omega
  split
  · have hnil : l.items = [] := List.length_eq_zero_iff.mp (by omega)
    rw [← hnil, setItems_items]
  split
  · rfl
  generalize (if b ≥ (l.items.length : Int) then (l.items.length : Int) - 1 else b) = c
  split
  · rfl
  · rw [List.drop_take]
    congr 2
    omega

/-- The checks of `Set` and `Insert` on their index find the position it stands for. -/
theorem position?_eq (n : Nat) :
    position? n index =
      let index := if index < 0 then (n : Int) + index else index
      if index < 0 then none else if index ≥ n then none else some index.toNat := by
  unfold position?
  dsimp only
  obtain hneg | hpos := Int.lt_or_le index 0
  · rw [if_neg (by omega), if_pos hneg]
    split
    · rw [if_neg (by omega), if_neg (by omega)]
    · rw [if_pos (by omega)]
  · have hneg : ¬ index < 0 := by omega
    simp only [hpos, hneg, if_true, if_false]
    split
    · rw [if_neg (by omega)]
    · rw [if_pos (by omega)]

/-- An empty list has no positions. -/
theorem position?_zero : position? 0 index = none := by
  unfold position?
  split
  · rw [if_neg (by omega)]
  · rw [if_neg (by omega)]

/-- `Set` replaces the item at a position, if there is one. -/
theorem set_eq (value : α) :
    l.set index value =
      match position? l.items.length index with
      | none => (false, l)
      | some n => (true, l.setItems (l.items.set n value)) := by
  unfold set size
  by_cases hempty : l.items.length = 0
  · rw [if_pos (by omega), hempty, position?_zero]
  rw [if_neg (by omega), position?_eq]
  dsimp only
  generalize (if index < 0 then (l.items.length : Int) + index else index) = i
  split
  · rfl
  split
  · rfl
  · rfl

/-- `Insert` goes before or after a position, if there is one. -/
theorem insert_eq (value : α) (before : Bool) :
    l.insert index value before =
      match position? l.items.length index with
      | none => (false, l)
      | some n =>
          let l' := l.setItems (l.items.insertIdx (if before then n else n + 1) value)
          (true, if l.useVector then l'.checkConvertToDeque else l') := by
  unfold insert size
  by_cases hempty : l.items.length = 0
  · rw [if_pos (by omega), hempty, position?_zero]
  rw [if_neg (by omega), position?_eq]
  dsimp only
  generalize (if index < 0 then (l.items.length : Int) + index else index) = i
  split
  · rfl
  split
  · rfl
  · rfl

end Indices

section Remove

variable [DecidableEq α] {value : α} {count : Int} {items : List α}

/-- From nothing nothing is removed. -/
theorem iterate_erase_nil (n : Nat) : (List.erase · value)^[n] ([] : List α) = [] := by
  induction n with
  | zero => rfl
  | succ n ih => rw [Function.iterate_succ_apply, List.erase_nil, ih]

/-- Another item in front stays there. -/
theorem iterate_erase_cons_of_ne {item : α} (hne : item ≠ value) (n : Nat) :
    (List.erase · value)^[n] (item :: items) = item :: (List.erase · value)^[n] items := by
  induction n generalizing items with
  | zero => rfl
  | succ n ih =>
      rw [Function.iterate_succ_apply, Function.iterate_succ_apply]
      rw [List.erase_cons_tail (by simpa using hne), ih]

/-- Without a bound, every occurrence goes. -/
theorem removeLoop_all (removed : Nat) (hcount : count ≤ 0) :
    removeLoop value count removed items =
      (removed + items.count value, items.filter (· ≠ value)) := by
  induction items generalizing removed with
  | nil => rfl
  | cons item items ih =>
      unfold removeLoop
      by_cases hitem : item = value
      · rw [if_pos hitem, if_neg (by omega), ih, hitem, List.count_cons_self]
        simp
        omega
      · rw [if_neg hitem, ih, List.count_cons_of_ne hitem]
        simp [hitem]

/-- With `n` to go, the first `n` occurrences go. -/
theorem removeLoop_some (removed n : Nat) (hcount : count = removed + n) (hn : 0 < n) :
    removeLoop value count removed items =
      (removed + min n (items.count value), (List.erase · value)^[n] items) := by
  induction items generalizing removed n with
  | nil =>
      rw [iterate_erase_nil]
      simp [removeLoop]
  | cons item items ih =>
      unfold removeLoop
      by_cases hitem : item = value
      · rw [if_pos hitem, hitem, List.count_cons_self]
        obtain _ | n := n
        · omega
        rw [Function.iterate_succ_apply, List.erase_cons_head]
        by_cases hlast : n = 0
        · rw [if_pos (by omega), hlast, Nat.min_eq_left (by omega)]
          rfl
        · rw [if_neg (by omega), ih (removed + 1) n (by omega) (by omega)]
          congr 1
          omega
      · rw [if_neg hitem, ih removed n hcount hn, iterate_erase_cons_of_ne hitem,
          List.count_cons_of_ne hitem]

/-- Removing only ever removes. -/
theorem removeLoop_sublist (value : α) (count : Int) (removed : Nat) (items : List α) :
    (removeLoop value count removed items).2.Sublist items := by
  induction items generalizing removed with
  | nil => exact List.Sublist.refl []
  | cons item items ih =>
      unfold removeLoop
      split
      · split
        · exact List.sublist_cons_self item items
        · exact (ih (removed + 1)).cons item
      · exact (ih removed).cons_cons item

/-- `Remove` gives the number removed and leaves the rest. -/
theorem remove_eq (l : LinkedList α) (value : α) (count : Int) :
    (ListReply.count (l.remove value count).1, (l.remove value count).2.items) =
      (ListOp.remove value count).meaning l.items := by
  unfold remove ListOp.meaning
  dsimp only
  rw [items_setItems]
  by_cases hcount : 0 < count
  · rw [if_pos hcount, removeLoop_some 0 count.toNat (by omega) (by omega)]
    simp
  · rw [if_neg hcount, removeLoop_all 0 (by omega)]
    simp

end Remove

/-! ## the containers -/

/-- One container is empty, and the vector is the one in use only up to its threshold. -/
structure Fits (l : LinkedList α) : Prop where
  wellFormed : l.WellFormed
  vector_le : l.useVector = true → l.vector.length ≤ kListVectorThreshold

variable {l : LinkedList α}

/-- A new list is below the threshold. -/
theorem fits_empty : (empty : LinkedList α).Fits := ⟨wellFormed_empty, by simp [empty]⟩

/-- Fewer items fit. -/
theorem Fits.setItems (h : l.Fits) {items : List α} (hle : items.length ≤ l.items.length) :
    (l.setItems items).Fits := by
  refine ⟨h.wellFormed.setItems items, fun huse => ?_⟩
  unfold LinkedList.setItems at huse ⊢
  unfold LinkedList.items at hle
  split at huse
  · rename_i hvector
    rw [if_pos hvector] at hle ⊢
    exact hle.trans (h.vector_le hvector)
  · contradiction

/-- Past the threshold the vector is not in use. -/
theorem fits_checkConvertToDeque (h : l.WellFormed) : l.checkConvertToDeque.Fits := by
  refine ⟨h.checkConvertToDeque, fun huse => ?_⟩
  unfold checkConvertToDeque at huse ⊢
  split at huse
  · contradiction
  · rename_i hsmall
    rw [if_neg hsmall]
    exact Nat.le_of_not_lt fun hlarge => hsmall ⟨huse, hlarge⟩

/-- Pushing left converts when it has to. -/
theorem Fits.pushLeft (h : l.Fits) (value : α) : (l.pushLeft value).Fits := by
  unfold LinkedList.pushLeft
  cases huse : l.useVector with
  | true =>
      rw [if_pos rfl]
      exact fits_checkConvertToDeque (by simpa [WellFormed, huse] using h.wellFormed)
  | false => exact ⟨by simpa [WellFormed, huse] using h.wellFormed, by simp⟩

theorem Fits.pushRight (h : l.Fits) (value : α) : (l.pushRight value).Fits := by
  unfold LinkedList.pushRight
  cases huse : l.useVector with
  | true =>
      rw [if_pos rfl]
      exact fits_checkConvertToDeque (by simpa [WellFormed, huse] using h.wellFormed)
  | false => exact ⟨by simpa [WellFormed, huse] using h.wellFormed, by simp⟩

/-- Popping left never has to. -/
theorem Fits.popLeft (h : l.Fits) : l.popLeft.2.Fits := by
  unfold LinkedList.popLeft
  cases hitems : l.items with
  | nil => exact h
  | cons value rest => exact h.setItems (by simp [hitems])

theorem Fits.popRight (h : l.Fits) : l.popRight.2.Fits := by
  unfold LinkedList.popRight
  cases l.items.getLast? with
  | none => exact h
  | some value => exact h.setItems (by simp)

/-- `Set` keeps the size. -/
theorem Fits.set (h : l.Fits) (index : Int) (value : α) : (l.set index value).2.Fits := by
  rw [set_eq]
  cases position? l.items.length index with
  | none => exact h
  | some n => exact h.setItems (by simp)

/-- `Insert` converts when it has to. -/
theorem Fits.insert (h : l.Fits) (index : Int) (value : α) (before : Bool) :
    (l.insert index value before).2.Fits := by
  rw [insert_eq]
  cases position? l.items.length index with
  | none => exact h
  | some n =>
      cases huse : l.useVector with
      | true => exact fits_checkConvertToDeque (h.wellFormed.setItems _)
      | false =>
          refine ⟨h.wellFormed.setItems _, fun huse' => ?_⟩
          simp [LinkedList.setItems, huse] at huse'

/-- `Trim` never has to. -/
theorem Fits.trim (h : l.Fits) (start stop : Int) : (l.trim start stop).Fits := by
  rw [trim_eq]
  exact h.setItems ((List.drop_sublist _ _).trans (List.take_sublist _ _)).length_le

theorem Fits.remove [DecidableEq α] (h : l.Fits) (value : α) (count : Int) :
    (l.remove value count).2.Fits :=
  h.setItems (removeLoop_sublist value count 0 l.items).length_le

/-- Every operation keeps the container right. -/
theorem Fits.step [DecidableEq α] (h : l.Fits) (op : ListOp α) : (l.step op).2.Fits := by
  cases op with
  | pushLeft value => exact h.pushLeft value
  | pushRight value => exact h.pushRight value
  | popLeft => exact h.popLeft
  | popRight => exact h.popRight
  | set index value => exact h.set index value
  | insert pivotIndex value before => exact h.insert pivotIndex value before
  | trim start stop => exact h.trim start stop
  | remove value count => exact h.remove value count
  | clear => exact h.setItems (Nat.zero_le _)
  | size => exact h
  | empty => exact h
  | range start stop => exact h

/-- One operation does to the items what it does to a plain sequence. -/
theorem step_meaning [DecidableEq α] (h : l.WellFormed) (op : ListOp α) :
    ((l.step op).1, (l.step op).2.items) = op.meaning l.items := by
  cases op with
  | pushLeft value => simp [step, ListOp.meaning, items_pushLeft h]
  | pushRight value => simp [step, ListOp.meaning, items_pushRight h]
  | popLeft => simp [step, ListOp.meaning, popLeft_fst, items_popLeft]
  | popRight => simp [step, ListOp.meaning, popRight_fst, items_popRight]
  | set index value =>
      unfold step ListOp.meaning
      dsimp only
      rw [set_eq]
      cases position? l.items.length index with
      | none => rfl
      | some n => simp
  | insert pivotIndex value before =>
      unfold step ListOp.meaning
      dsimp only
      rw [insert_eq]
      cases position? l.items.length pivotIndex with
      | none => rfl
      | some n =>
          have hwf := h.setItems (l.items.insertIdx (if before then n else n + 1) value)
          cases l.useVector with
          | true => simp [items_checkConvertToDeque hwf]
          | false => simp
  | trim start stop => simp [step, ListOp.meaning, trim_eq]
  | remove value count => exact remove_eq l value count
  | clear => simp [step, ListOp.meaning, clear]
  | size => simp [step, ListOp.meaning, size]
  | empty => simp [step, ListOp.meaning, isEmpty]
  | range start stop => simp [step, ListOp.meaning, range_eq_slice]

/-- **The list type is a plain sequence.**  Over every run the results are those of a plain
sequence and `Range(0, -1)` reads its content, whichever container is in use; the other container
is empty, and a vector in use has at most 256 elements. -/
theorem run_meaning [DecidableEq α] (ops : List (ListOp α)) :
    let l := final step empty ops
    (run step empty ops).1 = (run ListOp.meaning [] ops).1 ∧
      l.range 0 (-1) = final ListOp.meaning [] ops ∧
      (l.useVector = true → l.deque = [] ∧ l.vector.length ≤ 256) ∧
      (l.useVector = false → l.vector = []) := by
  have hsim : Simulates (fun _ => True) (fun l items => l.items = items ∧ l.Fits)
      (step (α := α)) ListOp.meaning := by
    constructor
    · rintro l _ op - ⟨rfl, h⟩
      rw [← step_meaning h.wellFormed]
    · rintro l _ op - ⟨rfl, h⟩
      rw [← step_meaning h.wellFormed]
      exact ⟨rfl, h.step op⟩
  have hops : ∀ op ∈ ops, True := fun _ _ => trivial
  obtain ⟨hout, hitems, hfits⟩ := hsim.run ⟨rfl, fits_empty⟩ hops
  intro l
  have hwf : if l.useVector then l.deque = [] else l.vector = [] := hfits.wellFormed
  refine ⟨hout, range_all.trans hitems, fun huse => ⟨?_, hfits.vector_le huse⟩, fun huse => ?_⟩
  · rwa [if_pos huse] at hwf
  · rwa [if_neg (by rw [huse]; decide)] at hwf

end LinkedList

end AstraKV
