import Mathlib

/-!
# AstraKV.Lib.Span

The part of a list between two signed positions.

A negative position counts from the end, -1 for the last item.  Positions
outside are moved to the nearest one inside, and a list without the positions
asked for gives nothing.

The two positions are worked out first and the part cut then, so a span is
empty exactly if they cross. Whether the list is empty does not have to be
asked: then every stop lies before every start.
-/

universe u

namespace Span

variable {α : Type u}

/-- A signed position in a list of `n` items, from the front. -/
def position (n : Nat) (i : Int) : Int := if i < 0 then n + i else i

/-- The first position of the part. -/
def first (n : Nat) (start : Int) : Int := max 0 (position n start)

/-- The last position of the part. -/
def last (n : Nat) (stop : Int) : Int := min (n - 1) (position n stop)

def span (start stop : Int) (l : List α) : List α :=
  (l.drop (first l.length start).toNat).take (last l.length stop + 1 - first l.length start).toNat

variable {l : List α} {start stop : Int}

/-- The first position is one of the list or behind it. -/
theorem first_nonneg (n : Nat) (start : Int) : 0 ≤ first n start := le_max_left _ _

/-- A position from the front is taken as it is. -/
theorem first_of_nonneg (n : Nat) (h : 0 ≤ start) : first n start = start := by
  unfold first position
  omega

/-- The last position is before the end. -/
theorem last_lt (n : Nat) (stop : Int) : last n stop < n := by
  unfold last
  omega

/-- A span has the positions from the first to the last. -/
theorem length_span :
    (span start stop l).length = (last l.length stop + 1 - first l.length start).toNat := by
  have hfirst := first_nonneg l.length start
  have hlast := last_lt l.length stop
  rw [span, List.length_take, List.length_drop]
  omega

/-- It is empty if they cross. -/
theorem span_eq_nil_iff : span start stop l = [] ↔ last l.length stop < first l.length start := by
  rw [← List.length_eq_zero_iff, length_span]
  omega

end Span
