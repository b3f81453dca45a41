import AstraKV.Lib.Framed

/-!
# AstraKV.Lib.Slice

Byte strings read through checked indices, and items read one after another
as long as they are all there.

An index that leaves the slice ends the program.  Reading gives `none` there,
so that a value is also the promise that no index did.

Items are read by a function that returns the item and the rest, and `Reads
item data as` says that `as` are the items one gets until the function fails.
Code that keeps a position instead of the rest reads the same items, as its
checks are about the distance from the position to the end.
-/

universe u v w

namespace Slice

open LittleEndian Framed

/-- Four bytes from `pos` on, each behind an index. -/
def fromLeBytes (buf : Bytes) (pos : Nat) : Option Nat := do
  let b₀ ← buf[pos]?
  let b₁ ← buf[pos + 1]?
  let b₂ ← buf[pos + 2]?
  let b₃ ← buf[pos + 3]?
  some (value [b₀, b₁, b₂, b₃])

/-- `buf[start..stop]`. -/
def subslice (buf : Bytes) (start stop : Nat) : Option Bytes :=
  if start ≤ stop ∧ stop ≤ buf.length then some ((buf.drop start).take (stop - start)) else none

variable {α : Type u} {ι : Type v} {buf : Bytes} {pos : Nat}

/-- What an iterator yields before the first `None`, if it gets there. -/
inductive Yields (next : ι → Option (Option α × ι)) : ι → List α → Prop where
  | done {it it' : ι} (h : next it = some (none, it')) : Yields next it []
  | more {it it' : ι} {a : α} {as : List α} (h : next it = some (some a, it'))
      (hrest : Yields next it' as) : Yields next it (a :: as)

/-- The items at the front of the data, up to the first that is not all there. -/
inductive Reads (item : Bytes → Option (α × Bytes)) : Bytes → List α → Prop where
  | done {data : Bytes} (h : item data = none) : Reads item data []
  | more {data rest : Bytes} {a : α} {as : List α} (h : item data = some (a, rest))
      (hrest : Reads item rest as) : Reads item data (a :: as)

/-- Where there are no items the first one fails. -/
theorem Reads.nil {item : Bytes → Option (α × Bytes)} {data : Bytes} (h : Reads item data []) :
    item data = none := by
  cases h with
  | done h => exact h

/-- Where there is one the others are read from the rest. -/
theorem Reads.cons {item : Bytes → Option (α × Bytes)} {data : Bytes} {a : α} {as : List α}
    (h : Reads item data (a :: as)) : ∃ rest, item data = some (a, rest) ∧ Reads item rest as := by
  cases h with
  | more h hrest => exact ⟨_, h, hrest⟩

/-- A loop that stops where there is no item, and takes in the one that is there, folds over the
items. -/
theorem Reads.loop {β : Type w} {item : Bytes → Option (α × Bytes)} {loop : Nat → β → Option β}
    {add : β → α → β} {as : List α} (h : Reads item (buf.drop pos) as)
    (hstop : ∀ pos acc, item (buf.drop pos) = none → loop pos acc = some acc)
    (hturn : ∀ pos acc a rest, item (buf.drop pos) = some (a, rest) →
      ∃ pos', rest = buf.drop pos' ∧ loop pos acc = loop pos' (add acc a))
    (acc : β) : loop pos acc = some (as.foldl add acc) := by
  induction as generalizing pos acc with
  | nil => exact hstop pos acc h.nil
  | cons a as ih =>
      obtain ⟨rest, hitem, hrest⟩ := h.cons
      obtain ⟨pos', rfl, hloop⟩ := hturn pos acc a rest hitem
      rw [hloop, ih hrest, List.foldl_cons]

/-- An iterator that does the same yields the items. -/
theorem Reads.yields {item : Bytes → Option (α × Bytes)} {next : ι → Option (Option α × ι)}
    {it : Nat → ι} {as : List α} (h : Reads item (buf.drop pos) as)
    (hstop : ∀ pos, item (buf.drop pos) = none → ∃ it', next (it pos) = some (none, it'))
    (hturn : ∀ pos a rest, item (buf.drop pos) = some (a, rest) →
      ∃ pos', rest = buf.drop pos' ∧ next (it pos) = some (some a, it pos')) :
    Yields next (it pos) as := by
  induction as generalizing pos with
  | nil =>
      obtain ⟨it', hnext⟩ := hstop pos h.nil
      exact .done hnext
  | cons a as ih =>
      obtain ⟨rest, hitem, hrest⟩ := h.cons
      obtain ⟨pos', rfl, hnext⟩ := hturn pos a rest hitem
      exact .more hnext (ih hrest)

/-- A number read at a position with four bytes behind it. -/
theorem fromLeBytes_eq (h : pos + 4 ≤ buf.length) :
    fromLeBytes buf pos = some (value ((buf.drop pos).take 4)) := by
  have h₀ : pos < buf.length := by omega
  have h₁ : pos + 1 < buf.length := by omega
  have h₂ : pos + 2 < buf.length := by omega
  have h₃ : pos + 3 < buf.length := by omega
  have hbytes : (buf.drop pos).take 4 =
      [buf[pos], buf[pos + 1], buf[pos + 2], buf[pos + 3]] := by
    rw [List.drop_eq_getElem_cons h₀, List.drop_eq_getElem_cons h₁,
      List.drop_eq_getElem_cons h₂, List.drop_eq_getElem_cons h₃]
    rfl
  rw [fromLeBytes, hbytes]
  simp [h₀, h₁, h₂, h₃]

/-- A subslice within the slice. -/
theorem subslice_eq {n : Nat} (h : pos + n ≤ buf.length) :
    subslice buf pos (pos + n) = some ((buf.drop pos).take n) := by
  rw [subslice, if_pos ⟨Nat.le_add_right pos n, h⟩, Nat.add_sub_cancel_left]

theorem take?_drop {n : Nat} (h : pos + n ≤ buf.length) :
    take? n (buf.drop pos) = some ((buf.drop pos).take n, buf.drop (pos + n)) := by
  rw [take?, if_pos (by rw [List.length_drop]; omega), List.drop_drop]

theorem take?_drop_eq_none {n : Nat} (h : buf.length < pos + n) (hn : 0 < n) :
    take? n (buf.drop pos) = none := by
  rw [take?, if_neg (by rw [List.length_drop]; omega)]

/-- There is always an end, when an item has a byte at least. -/
theorem exists_reads {item : Bytes → Option (α × Bytes)} {write : α → Bytes} {Fits : α → Prop}
    (h : Lawful item write Fits) (hwrite : ∀ a, write a ≠ []) (data : Bytes) :
    ∃ as, Reads item data as := by
  induction hn : data.length using Nat.strong_induction_on generalizing data with
  | _ n ih =>
      cases hitem : item data with
      | none => exact ⟨[], .done hitem⟩
      | some res =>
          obtain ⟨-, hdata⟩ := h.sound data res.1 res.2 hitem
          have hpos := List.length_pos_iff.mpr (hwrite res.1)
          have hlt : res.2.length < n := by
            rw [← hn, hdata, List.length_append]
            omega
          obtain ⟨as, has⟩ := ih res.2.length hlt res.2 rfl
          exact ⟨res.1 :: as, .more hitem has⟩

/-- Items written one after another are read back, and nothing behind them. -/
theorem reads_flatMap {item : Bytes → Option (α × Bytes)} {write : α → Bytes} {Fits : α → Prop}
    (h : Lawful item write Fits) (hwrite : ∀ a, write a ≠ []) {as : List α}
    (hfits : ∀ a ∈ as, Fits a) : Reads item (as.flatMap write) as := by
  induction as with
  | nil =>
      refine .done (Option.eq_none_iff_forall_ne_some.mpr fun res hres => ?_)
      obtain ⟨-, hnil⟩ := h.sound [] res.1 res.2 hres
      exact hwrite res.1 (List.append_eq_nil_iff.mp hnil.symm).1
  | cons a as ih =>
      obtain ⟨ha, has⟩ := List.forall_mem_cons.mp hfits
      rw [List.flatMap_cons]
      exact .more (h.complete a _ ha) (ih has)

end Slice
