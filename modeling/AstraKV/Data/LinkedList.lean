import Mathlib

/-!
# AstraKV.Data.LinkedList

The list type (`LinkedList` of `linked_list.hpp`): a vector that turns into
a deque, for good, when it grows past a threshold.

The source has two containers and a flag, and every operation is written out
for both. `items` reads the one in use; what an operation does to it is the
same in either case, which is the content of the lemmas below. `WellFormed`
says that the container not in use is empty.
-/

universe u

namespace AstraKV

def kListVectorThreshold : Nat := 256

structure LinkedList (α : Type u) where
  useVector : Bool
  vector : List α
  deque : List α
deriving DecidableEq

namespace LinkedList

variable {α : Type u}

def empty : LinkedList α := ⟨true, [], []⟩

instance : Inhabited (LinkedList α) := ⟨empty⟩

def checkConvertToDeque (l : LinkedList α) : LinkedList α :=
  if l.useVector ∧ l.vector.length > kListVectorThreshold then
    ⟨false, [], l.deque ++ l.vector⟩
  else l

def pushLeft (l : LinkedList α) (value : α) : LinkedList α :=
  if l.useVector then { l with vector := value :: l.vector }.checkConvertToDeque
  else { l with deque := value :: l.deque }

def pushRight (l : LinkedList α) (value : α) : LinkedList α :=
  if l.useVector then { l with vector := l.vector ++ [value] }.checkConvertToDeque
  else { l with deque := l.deque ++ [value] }

/-- The container in use. -/
def items (l : LinkedList α) : List α := if l.useVector then l.vector else l.deque

/-- Put `items` into the container in use. -/
def setItems (l : LinkedList α) (items : List α) : LinkedList α :=
  if l.useVector then { l with vector := items } else { l with deque := items }

def popLeft (l : LinkedList α) : Option α × LinkedList α :=
  match l.items with
  | [] => (none, l)
  | value :: rest => (some value, l.setItems rest)

def popRight (l : LinkedList α) : Option α × LinkedList α :=
  match l.items.getLast? with
  | none => (none, l)
  | some value => (some value, l.setItems l.items.dropLast)

def size (l : LinkedList α) : Nat := l.items.length

/-- `Range(start, stop)`; negative indices count from the end. -/
def range (l : LinkedList α) (start stop : Int) : List α :=
  let size : Int := l.size
  if size = 0 then []
  else
    let start := if start < 0 then max (size + start) 0 else start
    let stop := if stop < 0 then max (size + stop) (-1) else stop
    if start ≥ size then []
    else
      let stop := if stop ≥ size then size - 1 else stop
      if start > stop then []
      else (l.items.drop start.toNat).take (stop - start + 1).toNat

/-- `Set(index, value)`; a negative index counts from the end. -/
def set (l : LinkedList α) (index : Int) (value : α) : Bool × LinkedList α :=
  let size : Int := l.size
  if size = 0 then (false, l)
  else
    let index := if index < 0 then size + index else index
    if index < 0 then (false, l)
    else if index ≥ size then (false, l)
    else (true, l.setItems (l.items.set index.toNat value))

def clear (l : LinkedList α) : LinkedList α := l.setItems []

/-- `Trim(start, stop)`; negative indices count from the end. -/
def trim (l : LinkedList α) (start stop : Int) : LinkedList α :=
  let size : Int := l.size
  if size = 0 then l
  else
    let start := if start < 0 then max (size + start) 0 else start
    let stop := if stop < 0 then max (size + stop) (-1) else stop
    if start ≥ size then l.clear
    else
      let stop := if stop ≥ size then size - 1 else stop
      if start > stop then l.clear
      else l.setItems ((l.items.take (stop + 1).toNat).drop start.toNat)

/-- Go through the container and erase `value`, from where `removed` are gone. -/
def removeLoop [DecidableEq α] (value : α) (count : Int) : Nat → List α → Nat × List α
  | removed, [] => (removed, [])
  | removed, item :: rest =>
      if item = value then
        if count > 0 ∧ (removed + 1 : Nat) ≥ count then (removed + 1, rest)
        else removeLoop value count (removed + 1) rest
      else
        let res := removeLoop value count removed rest
        (res.1, item :: res.2)

def remove [DecidableEq α] (l : LinkedList α) (value : α) (count : Int) : Nat × LinkedList α :=
  let res := removeLoop value count 0 l.items
  (res.1, l.setItems res.2)

/-- `Insert(pivot_index, value, before)`. -/
def insert (l : LinkedList α) (pivotIndex : Int) (value : α) (before : Bool) :
    Bool × LinkedList α :=
  let size : Int := l.size
  if size = 0 then (false, l)
  else
    let pivotIndex := if pivotIndex < 0 then size + pivotIndex else pivotIndex
    if pivotIndex < 0 then (false, l)
    else if pivotIndex ≥ size then (false, l)
    else
      let position := if before then pivotIndex.toNat else pivotIndex.toNat + 1
      let l' := l.setItems (l.items.insertIdx position value)
      (true, if l.useVector then l'.checkConvertToDeque else l')

def isEmpty (l : LinkedList α) : Bool := l.items.isEmpty

/-- `MemoryUsage()` for elements of `elementSize` bytes, a vector of capacity `capacity`. -/
def memoryUsage (l : LinkedList α) (elementSize capacity : Nat) : Nat :=
  if l.useVector then capacity * elementSize
  else l.deque.length * elementSize + l.deque.length * 8

/-! ## the items -/

/-- The container not in use is empty. -/
def WellFormed (l : LinkedList α) : Prop :=
  if l.useVector then l.deque = [] else l.vector = []

variable {l : LinkedList α}

/-- A new list uses the vector. -/
theorem wellFormed_empty : (empty : LinkedList α).WellFormed := rfl

/-- Turning into a deque keeps the items. -/
theorem items_checkConvertToDeque (h : l.WellFormed) : l.checkConvertToDeque.items = l.items := by
  unfold checkConvertToDeque
  split
  · rename_i hlarge
    simp only [WellFormed, hlarge.1, if_true] at h
    simp [items, hlarge.1, h]
  · rfl

/-- Turning into a deque leaves the vector empty. -/
theorem WellFormed.checkConvertToDeque (h : l.WellFormed) : l.checkConvertToDeque.WellFormed := by
  unfold LinkedList.checkConvertToDeque
  split
  · simp [WellFormed]
  · exact h

/-- Pushing right appends. -/
theorem items_pushRight (h : l.WellFormed) (value : α) :
    (l.pushRight value).items = l.items ++ [value] := by
  unfold pushRight
  cases huse : l.useVector with
  | true =>
      simp only [WellFormed, huse, if_true] at h
      rw [if_pos rfl, items_checkConvertToDeque (by simp [WellFormed, h])]
      simp [items, huse]
  | false => simp [items, huse]

/-- Pushing left prepends. -/
theorem items_pushLeft (h : l.WellFormed) (value : α) :
    (l.pushLeft value).items = value :: l.items := by
  unfold pushLeft
  cases huse : l.useVector with
  | true =>
      simp only [WellFormed, huse, if_true] at h
      rw [if_pos rfl, items_checkConvertToDeque (by simp [WellFormed, h])]
      simp [items, huse]
  | false => simp [items, huse]

/-- Pushing right fills the container in use. -/
theorem WellFormed.pushRight (h : l.WellFormed) (value : α) : (l.pushRight value).WellFormed := by
  unfold LinkedList.pushRight
  cases huse : l.useVector with
  | true =>
      rw [if_pos rfl]
      exact WellFormed.checkConvertToDeque (by simpa [WellFormed, huse] using h)
  | false => simpa [WellFormed, huse] using h

theorem WellFormed.pushLeft (h : l.WellFormed) (value : α) : (l.pushLeft value).WellFormed := by
  unfold LinkedList.pushLeft
  cases huse : l.useVector with
  | true =>
      rw [if_pos rfl]
      exact WellFormed.checkConvertToDeque (by simpa [WellFormed, huse] using h)
  | false => simpa [WellFormed, huse] using h

/-- The items that were set are read back. -/
@[simp] theorem items_setItems (items : List α) : (l.setItems items).items = items := by
  unfold setItems LinkedList.items
  cases huse : l.useVector <;> simp

/-- Setting items touches the container in use. -/
theorem WellFormed.setItems (h : l.WellFormed) (items : List α) :
    (l.setItems items).WellFormed := by
  unfold LinkedList.setItems WellFormed at *
  cases huse : l.useVector <;> simpa [huse] using h

/-- Popping left gives the first item. -/
theorem popLeft_fst : l.popLeft.1 = l.items.head? := by
  unfold popLeft
  cases l.items <;> rfl

theorem items_popLeft : l.popLeft.2.items = l.items.tail := by
  unfold popLeft
  cases hitems : l.items <;> simp [hitems]

/-- Popping right gives the last item. -/
theorem popRight_fst : l.popRight.1 = l.items.getLast? := by
  unfold popRight
  cases l.items.getLast? <;> rfl

theorem items_popRight : l.popRight.2.items = l.items.dropLast := by
  unfold popRight
  cases hlast : l.items.getLast? with
  | none => simp [List.getLast?_eq_none_iff.mp hlast]
  | some value => simp

/-- Popping left keeps to the container in use. -/
theorem WellFormed.popLeft (h : l.WellFormed) : l.popLeft.2.WellFormed := by
  unfold LinkedList.popLeft
  cases l.items with
  | nil => exact h
  | cons value rest => exact h.setItems rest

theorem WellFormed.popRight (h : l.WellFormed) : l.popRight.2.WellFormed := by
  unfold LinkedList.popRight
  cases l.items.getLast? with
  | none => exact h
  | some value => exact h.setItems _

/-- `Range(0, -1)` is all of it. -/
theorem range_all : l.range 0 (-1) = l.items := by
  unfold range size
  cases hitems : l.items with
  | nil => rfl
  | cons value rest =>
      simp only [List.length_cons]
      push_cast
      have hpos : ¬ ((rest.length : Int) + 1 = 0) := by omega
      have hstop : max ((rest.length : Int) + 1 + -1) (-1) = rest.length := by omega
      simp only [hpos, if_false, hstop]
      have hlt : ¬ ((0 : Int) ≥ rest.length + 1) := by omega
      have hge : ¬ ((rest.length : Int) ≥ rest.length + 1) := by omega
      have hgt : ¬ ((0 : Int) > rest.length) := by omega
      have hcount : ((rest.length : Int) - 0 + 1).toNat = (value :: rest).length := by
        rw [List.length_cons]
        omega
      simp only [hlt, hge, hgt, if_false, hcount, List.drop_zero, List.take_length]

/-- Values pushed one after another. -/
theorem foldl_pushRight (h : l.WellFormed) (values : List α) :
    (values.foldl pushRight l).items = l.items ++ values ∧
      (values.foldl pushRight l).WellFormed := by
  induction values generalizing l with
  | nil => simp [h]
  | cons value values ih =>
      obtain ⟨hitems, hwf⟩ := ih (h.pushRight value)
      rw [List.foldl_cons]
      exact ⟨by simp [hitems, items_pushRight h], hwf⟩

end LinkedList

end AstraKV
