import AstraKV.Data.StreamData
import AstraKV.Lib.Cut

/-!
# AstraKV.Data.StreamOrder

The order of stream IDs, and what `XRead` and `XRange` return of a stream
whose entries increase.

`compare_ids` is the lexicographic order of the pairs that the IDs are
parsed to, so distinct texts can be equal in it.

With the order of IDs reduced to the lexicographic order of pairs, a range and
a read are filters of an increasing list, and reading page by page from the
last ID seen goes through the whole rest without a gap or a repetition. Where
the entries do not increase none of this holds, which is why the statements
ask for it.
-/

namespace AstraKV

namespace StreamData

variable {s : StreamData} {a b start : Bytes} {count : Int}

/-! ## the order of IDs -/

def pairKey (p : UInt64 × UInt64) : ℕ ×ₗ ℕ := toLex (p.1.toNat, p.2.toNat)

/-- What an ID counts for when it is compared. -/
def idKey (id : Bytes) : ℕ ×ₗ ℕ := pairKey (parseId id)

/-- Comparing IDs compares their pairs. -/
theorem compareIds_eq (a b : Bytes) :
    compareIds a b = if idKey a < idKey b then -1 else if idKey b < idKey a then 1 else 0 := by
  simp only [idKey, pairKey, Prod.Lex.toLex_lt_toLex]
  simp only [compareIds, UInt64.lt_iff_toNat_lt, ← UInt64.toNat_inj, ne_eq]
  grind

theorem compareIds_neg_iff : compareIds a b < 0 ↔ idKey a < idKey b := by
  grind [compareIds_eq]

theorem compareIds_pos_iff : 0 < compareIds a b ↔ idKey b < idKey a := by
  rw [compareIds_eq]
  by_cases h : idKey a < idKey b
  · simp [h, h.le]
  · by_cases h' : idKey b < idKey a <;> simp [h, h']

theorem compareIds_nonpos_iff : compareIds a b ≤ 0 ↔ idKey a ≤ idKey b := by
  rw [← not_lt, compareIds_pos_iff, not_lt]

theorem compareIds_nonneg_iff : 0 ≤ compareIds a b ↔ idKey b ≤ idKey a := by
  rw [← not_lt, compareIds_neg_iff, not_lt]

/-- Every entry is past the ones before it. -/
def Increasing (s : StreamData) : Prop :=
  s.entries.Pairwise fun e e' => compareIds e.id e'.id < 0

/-- A stream increases if the pairs of its IDs do. -/
theorem increasing_iff : s.Increasing ↔ (s.entries.map fun e => idKey e.id).Pairwise (· < ·) := by
  simp only [Increasing, compareIds_neg_iff, List.pairwise_map]

/-! ## reading on from an ID -/

/-- A reader that asks for the entries past `start`, then for those past the last one it was given,
until it is given none.  The pages it saw, if it asked at most `fuel` times. -/
def readPages (s : StreamData) (count : Int) : Nat → Bytes → Option (List (List StreamEntry))
  | 0, _ => none
  | fuel + 1, start =>
      let page := s.xRead start count
      match page.getLast? with
      | none => some []
      | some last => (s.readPages count fuel last.id).map fun pages => page :: pages

/-- A reader who has seen the entries up to `start` is given the next ones. -/
theorem xRead_append {seen rest : List StreamEntry} (hcount : 0 < count)
    (hentries : s.entries = seen ++ rest) (hseen : ∀ e ∈ seen, compareIds e.id start ≤ 0)
    (hrest : ∀ e ∈ rest, 0 < compareIds e.id start) :
    ∃ page later, rest = page ++ later ∧ s.xRead start count = page ∧ (page = [] → rest = []) := by
  have hnone : (seen.filter fun e => compareIds e.id start > 0) = [] := by
    simpa [List.filter_eq_nil_iff] using hseen
  have hall : (rest.filter fun e => compareIds e.id start > 0) = rest := by
    simpa [List.filter_eq_self] using hrest
  have hread : s.xRead start count = rest.take count.toNat := by
    rw [xRead, cut, if_pos hcount, hentries, List.filter_append, hnone, hall, List.nil_append]
  refine ⟨rest.take count.toNat, rest.drop count.toNat, by simp, hread, fun hnil => ?_⟩
  exact (List.take_eq_nil_iff.mp hnil).resolve_left (by omega)

/-- Paging on from what has been seen gives the rest. -/
theorem readPages_append {seen rest : List StreamEntry} {fuel : Nat}
    (hentries : s.entries = seen ++ rest) (h : s.Increasing) (hcount : 0 < count)
    (hseen : ∀ e ∈ seen, compareIds e.id start ≤ 0)
    (hrest : ∀ e ∈ rest, 0 < compareIds e.id start) (hfuel : rest.length < fuel) :
    ∃ pages, s.readPages count fuel start = some pages ∧ pages.flatten = rest := by
  induction fuel generalizing seen rest start with
  | zero => simp at hfuel
  | succ fuel ih =>
      obtain ⟨page, later, hsplit, hread, hempty⟩ := xRead_append hcount hentries hseen hrest
      unfold readPages
      rw [hread]
      obtain rfl | ⟨init, last, rfl⟩ := List.eq_nil_or_concat page
      · exact ⟨[], rfl, by rw [hempty rfl, List.flatten_nil]⟩
      · -- what was read goes up to the last entry of the page, the rest is past it
        rw [List.concat_eq_append] at hsplit ⊢
        have hentries' : s.entries = (seen ++ init) ++ last :: later := by
          rw [hentries, hsplit]
          simp
        have hpairs := h
        rw [Increasing, hentries', List.pairwise_append, List.pairwise_cons] at hpairs
        obtain ⟨-, ⟨hlater, -⟩, hbefore⟩ := hpairs
        have hseen' : ∀ e ∈ seen ++ init ++ [last], compareIds e.id last.id ≤ 0 := by
          intro e he
          obtain he | he := List.mem_append.mp he
          · exact (hbefore e he last (by simp)).le
          · rw [List.mem_singleton.mp he, compareIds_self]
        have hlater' : ∀ e ∈ later, 0 < compareIds e.id last.id := fun e he =>
          compareIds_pos_iff.mpr (compareIds_neg_iff.mp (hlater e he))
        obtain ⟨pages, hpages, hflatten⟩ := ih (by rw [hentries']; simp) hseen' hlater' (by
          rw [hsplit] at hfuel
          simp at hfuel
          omega)
        exact ⟨(init ++ [last]) :: pages, by simp [hpages], by simp [hflatten, hsplit]⟩

/-! ## a range of IDs -/

/-- The search stops at the first entry past `b`, and no entry behind that one is in the range. -/
theorem xRange_eq (h : s.Increasing) (a b : Bytes) (count : Int) :
    s.xRange a b count =
      cut count (s.entries.filter fun e => 0 ≤ compareIds e.id a ∧ compareIds e.id b ≤ 0) := by
  unfold xRange
  rw [Cut.filter_takeWhile]
  · refine congrArg (cut count) (List.filter_congr fun e _ => ?_)
    grind
  · refine h.imp fun {e e'} hlt hstop => ?_
    simp only [compareIds_neg_iff, compareIds_nonpos_iff, compareIds_nonneg_iff] at *
    grind

/-- Reading page by page gives every entry once, and a range is cut from the entries in it. -/
theorem reads_exact (h : s.Increasing) :
    (∀ start count fuel, (∀ e ∈ s.entries, 0 < compareIds e.id start) → 0 < count →
      s.entries.length < fuel →
        ∃ pages, s.readPages count fuel start = some pages ∧ pages.flatten = s.entries) ∧
    ∀ a b count, s.xRange a b count =
      let found := s.entries.filter fun e => 0 ≤ compareIds e.id a ∧ compareIds e.id b ≤ 0
      if 0 < count then found.take count.toNat else found :=
  ⟨fun _ _ _ hstart hcount hfuel =>
    readPages_append (List.nil_append _).symm h hcount (by simp) hstart hfuel, xRange_eq h⟩

theorem reads_exact_two :
    ∃ pages, readPages ⟨[⟨[49, 45, 48], []⟩, ⟨[50, 45, 48], []⟩], 2, 0⟩ 1 3 [48] = some pages ∧
      pages.flatten = [⟨[49, 45, 48], []⟩, ⟨[50, 45, 48], []⟩] := by
  have h : Increasing ⟨[⟨[49, 45, 48], []⟩, ⟨[50, 45, 48], []⟩], 2, 0⟩ := by
    unfold Increasing
    decide
  exact (reads_exact h).1 [48] 1 3 (by decide) (by decide) (by decide)

end StreamData

end AstraKV
