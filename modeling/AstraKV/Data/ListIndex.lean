import AstraKV.Data.ListRun
import AstraKV.Lib.DecimalText
import AstraKV.Lib.Span

/-!
# AstraKV.Data.ListIndex

The signed indices of the list type.

`Range` and `Trim` are embedded once more with their arithmetic in view: a sum
of indices must be an `int64_t`, and an iterator must stay in the container.
`Index` has a convention of its own below the front of the list.

Negative indices count from the right, and `Range` and `Trim` clamp both ends
before they use them, so the only sums that can leave `int64_t` are those with
the size; a list of fewer than 2^63 items never gets there. `Index` has the
same convention, but takes an index below the front for the front and reads
the first item there, where `Range` has none.
-/

namespace AstraKV

open Decimal Span

namespace LinkedList

variable {α : Type} {l : LinkedList α} {start stop i : Int} {n : Nat}

/-! ## checked arithmetic -/

/-- A value of signed 64-bit arithmetic, where it does not overflow. -/
def int64 (value : Int) : Option Int := if IsInt64 value then some value else none

/-- An iterator moved by `n` in a container of `size` items. -/
def advance? (size : Nat) (it n : Int) : Option Int :=
  if 0 ≤ it + n ∧ it + n ≤ size then some (it + n) else none

/-- What `Range` and `Trim` do alike to their indices, for a list of `n` items: a result for an
empty list, one for positions that are not there, and one from the first and the last position. -/
def bounded? {β : Type} (n : Nat) (start stop : Int) (empty outside : β)
    (inside : Int → Int → Option β) : Option β := do
  let size ← int64 n
  if size = 0 then pure empty
  else
    let start ← (if start < 0 then (int64 (size + start)).map (max · 0) else pure start)
    let stop ← (if stop < 0 then (int64 (size + stop)).map (max · (-1)) else pure stop)
    if start ≥ size then pure outside
    else
      let stop ← (if stop ≥ size then int64 (size - 1) else pure stop)
      if start > stop then pure outside else inside start stop

/-- The range is copied from `begin() + start` to `begin() + stop + 1`. -/
def range? (l : LinkedList α) (start stop : Int) : Option (List α) :=
  bounded? l.size start stop [] [] fun start stop => do
    let reserved ← int64 (stop - start)
    let _ ← int64 (reserved + 1)
    let first ← advance? l.size 0 start
    let last ← advance? l.size 0 stop
    let last ← advance? l.size last 1
    pure ((l.items.take last.toNat).drop first.toNat)

/-- The second `erase` is in what the first has left. -/
def trim? (l : LinkedList α) (start stop : Int) : Option (LinkedList α) :=
  bounded? l.size start stop l l.clear fun start stop => do
    let last ← advance? l.size 0 stop
    let last ← advance? l.size last 1
    let kept := l.setItems (l.items.take last.toNat)
    let first ← advance? kept.size 0 start
    pure (kept.setItems (kept.items.drop first.toNat))

/-- A sum that fits is computed. -/
theorem int64_eq_some (h : IsInt64 i) : int64 i = some i := if_pos h

/-- An iterator moved within the container is one. -/
theorem advance?_eq_some {it : Int} (h : 0 ≤ it + i ∧ it + i ≤ n) :
    advance? n it i = some (it + i) := if_pos h

/-- `begin() + i`. -/
theorem advance?_begin (hi : 0 ≤ i) (hin : i ≤ n) : advance? n 0 i = some i := by
  rw [advance?_eq_some (by omega), Int.zero_add]

/-- A size below 2^63 fits. -/
theorem isInt64_natCast (hn : n < 2 ^ 63) : IsInt64 n := by
  unfold IsInt64
  omega

/-- A size and a negative index do not overflow. -/
theorem int64_fromEnd (hn : n < 2 ^ 63) (hi : IsInt64 i) (least : Int) :
    (if i < 0 then (int64 (n + i)).map (max · least) else pure i) =
      some (if i < 0 then max (n + i) least else i) := by
  unfold IsInt64 at hi
  split
  · rw [int64_eq_some (by unfold IsInt64; omega)]
    rfl
  · rfl

/-- The last index fits, too. -/
theorem int64_toLast (hn : n < 2 ^ 63) (hpos : 0 < n) :
    (if i ≥ n then int64 (n - 1) else pure i) = some (if i ≥ n then (n : Int) - 1 else i) := by
  split
  · exact int64_eq_some (by unfold IsInt64; omega)
  · rfl

/-- The indices without the checks. -/
def bounded {β : Type} (n : Nat) (start stop : Int) (empty outside : β) (inside : Int → Int → β) :
    β :=
  let size : Int := n
  if size = 0 then empty
  else
    let start := if start < 0 then max (size + start) 0 else start
    let stop := if stop < 0 then max (size + stop) (-1) else stop
    if start ≥ size then outside
    else
      let stop := if stop ≥ size then size - 1 else stop
      if start > stop then outside else inside start stop

/-- The indices are computed without overflow, and what is asked of the container is between two of
its positions. -/
theorem bounded?_eq_some {β : Type} {empty outside : β} {inside? : Int → Int → Option β}
    {inside : Int → Int → β} (hn : n < 2 ^ 63) (hstart : IsInt64 start) (hstop : IsInt64 stop)
    (h : ∀ first last : Int, 0 ≤ first → first ≤ last → last < n →
      inside? first last = some (inside first last)) :
    bounded? n start stop empty outside inside? =
      some (bounded n start stop empty outside inside) := by
  unfold bounded? bounded
  simp only [int64_eq_some (isInt64_natCast hn), Option.bind_eq_bind, Option.bind_some,
    int64_fromEnd hn hstart, int64_fromEnd hn hstop]
  generalize hfirst : (if start < 0 then max ((n : Int) + start) 0 else start) = first
  generalize (if stop < 0 then max ((n : Int) + stop) (-1) else stop) = last
  have hfirst0 : 0 ≤ first := by
    rw [← hfirst]
    split <;> omega
  by_cases hempty : (n : Int) = 0
  · rw [if_pos hempty, if_pos hempty]
    rfl
  rw [if_neg hempty, if_neg hempty]
  by_cases hbeyond : first ≥ n
  · rw [if_pos hbeyond, if_pos hbeyond]
    rfl
  rw [if_neg hbeyond, if_neg hbeyond, int64_toLast hn (by omega), Option.bind_some]
  generalize hlast : (if last ≥ n then (n : Int) - 1 else last) = last'
  have hlast' : last' < n := by
    rw [← hlast]
    split <;> omega
  by_cases hcrossed : first > last'
  · rw [if_pos hcrossed, if_pos hcrossed]
    rfl
  · rw [if_neg hcrossed, if_neg hcrossed, h first last' hfirst0 (by omega) hlast']

/-! ## Range and Trim -/

/-- `Range` as a choice between nothing and a slice. -/
theorem range_eq_bounded : l.range start stop = bounded l.size start stop [] []
    fun first last => (l.items.drop first.toNat).take (last - first + 1).toNat := rfl

/-- `Trim` as the same choice. -/
theorem trim_eq_bounded : l.trim start stop = bounded l.size start stop l l.clear
    fun first last => l.setItems ((l.items.take (last + 1).toNat).drop first.toNat) := rfl

/-- In `Range` every sum fits and every iterator stays inside. -/
theorem range?_eq_some (hsize : l.size < 2 ^ 63) (hstart : IsInt64 start) (hstop : IsInt64 stop) :
    l.range? start stop = some (l.range start stop) := by
  rw [range?, range_eq_bounded]
  refine bounded?_eq_some hsize hstart hstop fun first last hfirst hle hlast => ?_
  have hreserved : IsInt64 (last - first) ∧ IsInt64 (last - first + 1) := by
    unfold IsInt64
    omega
  have hcount : (last + 1).toNat - first.toNat = (last - first + 1).toNat := by omega
  simp only [Option.bind_eq_bind, int64_eq_some hreserved.1, int64_eq_some hreserved.2,
    advance?_begin hfirst (by omega : first ≤ l.size), advance?_begin (by omega) hlast.le,
    advance?_eq_some (by omega : 0 ≤ last + 1 ∧ last + 1 ≤ l.size), Option.bind_some,
    List.drop_take, hcount]
  rfl

/-- Of two settings the later counts. -/
theorem setItems_setItems (items items' : List α) :
    (l.setItems items).setItems items' = l.setItems items' := by
  unfold setItems
  cases huse : l.useVector <;> simp

/-- In `Trim` every sum fits and every iterator stays inside. -/
theorem trim?_eq_some (hsize : l.size < 2 ^ 63) (hstart : IsInt64 start) (hstop : IsInt64 stop) :
    l.trim? start stop = some (l.trim start stop) := by
  rw [trim?, trim_eq_bounded]
  refine bounded?_eq_some hsize hstart hstop fun first last hfirst hle hlast => ?_
  have hkept : (l.setItems (l.items.take (last + 1).toNat)).size = (last + 1).toNat := by
    unfold size at *
    rw [items_setItems, List.length_take]
    omega
  simp only [Option.bind_eq_bind, advance?_begin (by omega) hlast.le,
    advance?_eq_some (by omega : 0 ≤ last + 1 ∧ last + 1 ≤ l.size), Option.bind_some, hkept,
    advance?_begin hfirst (by omega : first ≤ (last + 1).toNat), items_setItems, setItems_setItems]
  rfl

/-- Setting items does not change the container. -/
theorem useVector_setItems (items : List α) : (l.setItems items).useVector = l.useVector := by
  unfold setItems
  cases huse : l.useVector <;> simp

/-- The positions of `Range`. -/
theorem range_eq_span (l : LinkedList α) (start stop : Int) :
    l.range start stop = span start stop l.items := by
  have hsize : l.size = l.items.length := rfl
  by_cases hempty : l.items = []
  · simp [range, span, hsize, hempty]
  · have hpos := List.length_pos_iff.mpr hempty
    have hfirst := first_nonneg l.items.length start
    have hstart : (if start < 0 then max ((l.items.length : Int) + start) 0 else start) =
        first l.items.length start := by
      unfold first position
      split <;> omega
    -- a stop before the list is -1 in the one and anything below in the other
    have hstop : (min ((l.items.length : Int) - 1)
          (if stop < 0 then max ((l.items.length : Int) + stop) (-1) else stop) + 1 -
            first l.items.length start).toNat =
        (last l.items.length stop + 1 - first l.items.length start).toNat := by
      unfold last position
      split <;> omega
    unfold range span
    dsimp only
    rw [hsize, hstart, ← hstop, if_neg (by omega)]
    generalize (if stop < 0 then max ((l.items.length : Int) + stop) (-1) else stop) = last'
    by_cases hout : first l.items.length start ≥ l.items.length
    · rw [if_pos hout, List.drop_eq_nil_of_le (by omega), List.take_nil]
    · have hmin : (if last' ≥ l.items.length then (l.items.length : Int) - 1 else last') =
          min ((l.items.length : Int) - 1) last' := by
        split <;> omega
      rw [if_neg hout, hmin]
      split
      · rw [show (min ((l.items.length : Int) - 1) last' + 1 -
          first l.items.length start).toNat = 0 by omega, List.take_zero]
      · congr 1
        omega

/-- **`Range` gives the positions between two indices, and `Trim` keeps them.**  No sum overflows
and no iterator leaves the container. -/
theorem range_trim_span (l : LinkedList α) (hsize : l.size < 2 ^ 63) (hstart : IsInt64 start)
    (hstop : IsInt64 stop) :
    l.range? start stop = some (span start stop l.items) ∧
      ∃ l', l.trim? start stop = some l' ∧ l'.items = span start stop l.items ∧
        l'.useVector = l.useVector := by
  rw [← range_eq_span]
  refine ⟨range?_eq_some hsize hstart hstop, _, trim?_eq_some hsize hstart hstop, ?_, ?_⟩
  · rw [trim_eq, items_setItems, range_eq_slice]
  · rw [trim_eq, useVector_setItems]

/-- From the last item but one to the end, and from before the list. -/
theorem range_trim_span_three :
    (⟨true, [1, 2, 3], []⟩ : LinkedList Nat).range? (-2) (2 ^ 63 - 1) = some [2, 3] ∧
      (⟨false, [], [1, 2, 3]⟩ : LinkedList Nat).range? (-2 ^ 63) (-2) = some [1, 2] :=
  ⟨(range_trim_span _ (by decide) (by decide) (by decide)).1,
    (range_trim_span _ (by decide) (by decide) (by decide)).1⟩

/-! ## Index and Set -/

/-- `Index(index)`: below the front it is the front. -/
def index (l : LinkedList α) (index : Int) : Option α :=
  let size : Int := l.size
  if size = 0 then none
  else
    let index := if index < 0 then max (size + index) 0 else index
    if index ≥ size then none else l.items[index.toNat]?

/-- An index has a position if that lies in the list. -/
theorem position?_eq_some_iff {k : Nat} : position? n i = some k ↔ k < n ∧ position n i = k := by
  unfold position? position
  constructor
  · intro h
    split at h <;> split at h <;> cases h <;> omega
  · rintro ⟨hk, hposition⟩
    split at hposition
    · rw [if_neg (by omega), if_pos (by omega), hposition]
      rfl
    · rw [if_pos (by omega), if_pos (by omega), hposition]
      rfl

/-- An index has no position if it lies outside, counted from either end. -/
theorem position?_eq_none_iff : position? n i = none ↔ ¬ (-(n : Int) ≤ i ∧ i < n) := by
  unfold position?
  split <;> split <;> simp <;> omega

/-- `Index` reads the item at the position. -/
theorem index_of_position? {k : Nat} (hk : position? l.size i = some k) :
    l.index i = l.items[k]? := by
  obtain ⟨hlt, hposition⟩ := position?_eq_some_iff.mp hk
  unfold position at hposition
  have hindex : (if i < 0 then max ((l.size : Int) + i) 0 else i) = k := by
    split at hposition <;> split <;> omega
  unfold index
  dsimp only
  rw [if_neg (by omega), hindex, if_neg (by omega)]
  rfl

/-- From the size on `Index` reads nothing. -/
theorem index_of_ge (hi : (l.size : Int) ≤ i) : l.index i = none := by
  have hindex : (if i < 0 then max ((l.size : Int) + i) 0 else i) = i := by
    split <;> omega
  unfold index
  dsimp only
  rw [hindex, if_pos hi, ite_self]

/-- Below the front; an empty list has none. -/
theorem index_of_lt (hi : i < -(l.size : Int)) : l.index i = l.items.head? := by
  have hindex : (if i < 0 then max ((l.size : Int) + i) 0 else i) = 0 := by
    rw [if_pos (by omega)]
    omega
  unfold index
  dsimp only
  rw [hindex]
  unfold size
  cases l.items with
  | nil => rfl
  | cons value rest =>
      simp
      omega

/-- In an empty list it reads nothing. -/
theorem index_of_empty (hempty : l.items = []) : l.index i = none := by
  unfold index size
  rw [hempty]
  rfl

/-- `Range` from a position to itself is that item. -/
theorem range_of_position? {k : Nat} {value : α} (hk : position? l.size i = some k)
    (hvalue : l.items[k]? = some value) : l.range i i = [value] := by
  obtain ⟨hlt, hposition⟩ := position?_eq_some_iff.mp hk
  have hfirst : (first l.items.length i).toNat = k := by
    unfold first size at *
    omega
  have hcount : (last l.items.length i + 1 - first l.items.length i).toNat = 1 := by
    unfold first last size at *
    omega
  rw [range_eq_span, span, hfirst, hcount, List.take_one, List.head?_drop, hvalue]
  rfl

/-- The conventions of `Index`, `Set` and `Range` for an index. -/
structure IndexAgrees (l : LinkedList α) (i : Int) : Prop where
  /-- What can be read can be written. -/
  read_iff : ∀ v, (l.index i).isSome = true ↔ (l.set i v).1 = true
  set_iff : ∀ v, (l.set i v).1 = true ↔ -(l.size : Int) ≤ i ∧ i < l.size
  written : ∀ v, (l.set i v).1 = true → (l.set i v).2.index i = some v ∧
    ∀ k : Nat, (k : Int) ≠ position l.size i → (l.set i v).2.items[k]? = l.items[k]?
  rejected : ∀ v, (l.set i v).1 = false → (l.set i v).2 = l
  single : ∀ v, l.index i = some v → l.range i i = [v]

/-- At a position the two agree. -/
theorem indexAgrees_of_position? {k : Nat} (hk : position? l.size i = some k) :
    l.IndexAgrees i := by
  obtain ⟨hlt, hposition⟩ := position?_eq_some_iff.mp hk
  have hset : ∀ v, l.set i v = (true, l.setItems (l.items.set k v)) := by
    intro v
    rw [set_eq, show position? l.items.length i = some k from hk]
  have hindex := index_of_position? hk
  have hin : -(l.size : Int) ≤ i ∧ i < l.size := by
    by_contra hout
    rw [position?_eq_none_iff.mpr hout] at hk
    cases hk
  constructor
  case read_iff =>
    intro v
    rw [hset, hindex, List.getElem?_eq_getElem hlt]
    simp
  case set_iff =>
    intro v
    rw [hset]
    simp [hin]
  case written =>
    intro v _
    have hsize : (l.setItems (l.items.set k v)).size = l.size := by simp [size]
    rw [hset]
    constructor
    · rw [index_of_position? (k := k) (by rw [hsize, hk]), items_setItems]
      simp [show k < l.items.length from hlt]
    · intro k' hk'
      have hne : k ≠ k' := by omega
      rw [items_setItems, List.getElem?_set_ne hne]
  case rejected =>
    intro v hfalse
    rw [hset] at hfalse
    cases hfalse
  case single =>
    intro v hv
    exact range_of_position? hk (hindex.symm.trans hv)

/-- Where there is neither position nor item they agree, too. -/
theorem indexAgrees_of_none (hnone : position? l.size i = none) (hindex : l.index i = none) :
    l.IndexAgrees i := by
  have hset : ∀ v, l.set i v = (false, l) := by
    intro v
    rw [set_eq, show position? l.items.length i = none from hnone]
  constructor
  case read_iff => simp [hset, hindex]
  case set_iff =>
    intro v
    rw [hset, iff_false_left Bool.false_ne_true]
    exact position?_eq_none_iff.mp hnone
  case written =>
    intro v htrue
    rw [hset] at htrue
    cases htrue
  case rejected =>
    intro v _
    rw [hset]
  case single =>
    intro v hv
    rw [hindex] at hv
    cases hv

/-- **Where the conventions agree.**  They do from the front of the list on; below it `Index` reads
the front, and `Set` and `Range` find nothing. -/
theorem indexAgrees_iff (l : LinkedList α) (i : Int) :
    l.IndexAgrees i ↔ l.items = [] ∨ -(l.size : Int) ≤ i := by
  constructor
  · intro h
    by_contra hnot
    obtain ⟨hitems, hlow⟩ := not_or.mp hnot
    obtain ⟨value, rest, hcons⟩ := List.exists_cons_of_ne_nil hitems
    have hindex : l.index i = some value := by
      rw [index_of_lt (not_le.mp hlow), hcons]
      rfl
    have hset := (h.read_iff value).mp (by rw [hindex]; rfl)
    exact hlow ((h.set_iff value).mp hset).1
  · intro h
    cases hk : position? l.size i with
    | some k => exact indexAgrees_of_position? hk
    | none =>
        refine indexAgrees_of_none hk ?_
        obtain hempty | hlow := h
        · exact index_of_empty hempty
        · have hout := position?_eq_none_iff.mp hk
          exact index_of_ge (not_lt.mp fun hlt => hout ⟨hlow, hlt⟩)

/-- Below the front of a list of one. -/
theorem index_below_front :
    (⟨true, [7], []⟩ : LinkedList Nat).index (-2) = some 7 ∧
      ((⟨true, [7], []⟩ : LinkedList Nat).set (-2) 8).1 = false ∧
      (⟨true, [7], []⟩ : LinkedList Nat).range (-2) (-2) = [] := by
  decide

end LinkedList

end AstraKV
