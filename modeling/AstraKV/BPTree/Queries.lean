import AstraKV.BPTree.Run

/-!
# AstraKV.BPTree.Queries

Ranks, bounds and iteration on the trees that runs reach, in terms of the
set of their members.

Ranks are 32-bit numbers, so the results about them ask for fewer than
`2 ^ 32` members; `fromRank_wraps` is what happens beyond.

The statements speak of the set of members only: a rank is the number of
smaller members, a bound is a least or greatest member, and an iteration
visits the members from there on in order. Each of them is the corresponding
fact about the sorted list of the tree, carried over by `Represents`. An empty
tree has no root, and asking it for a bound is left out here as in the source.
-/

universe u v

namespace AstraKV

open Cut BPTreePath

namespace BPTree

variable {α : Type u} [LinearOrder α]

/-! ## ranks in a sorted list -/

/-- In a sorted list of the members of `s`, as many members are smaller than a key as stand
before it. -/
theorem card_smaller {s : Finset α} {L₁ L₂ : List α} {k : α}
    (hsorted : (L₁ ++ k :: L₂).Pairwise (· < ·)) (hmem : ∀ x, x ∈ L₁ ++ k :: L₂ ↔ x ∈ s) :
    (s.filter (· < k)).card = L₁.length := by
  have hparts := List.pairwise_append.mp hsorted
  have hright := (List.pairwise_cons.mp hparts.2.1).1
  have hset : s.filter (· < k) = L₁.toFinset := by
    ext x
    have hx := hmem x
    rw [Finset.mem_filter, ← hx, List.mem_toFinset, List.mem_append, List.mem_cons]
    constructor
    · intro hin
      obtain hin' | hin' | hin' := hin.1
      · exact hin'
      · exact (lt_irrefl k (hin' ▸ hin.2)).elim
      · exact (lt_asymm hin.2 (hright x hin')).elim
    · intro hin
      exact ⟨Or.inl hin, hparts.2.2 x hin k List.mem_cons_self⟩
  have hnodup : L₁.Nodup := hparts.1.imp fun hlt => ne_of_lt hlt
  rw [hset, List.toFinset_card_of_nodup hnodup]

/-- In a sorted list the index of a key is the number of smaller ones. -/
theorem card_smaller_getElem {s : Finset α} {L : List α} (hsorted : L.Pairwise (· < ·))
    (hmem : ∀ x, x ∈ L ↔ x ∈ s) {r : Nat} (hr : r < L.length) :
    (s.filter (· < L[r])).card = r := by
  have hsplit : L = L.take r ++ L[r] :: L.drop (r + 1) := by
    rw [← List.drop_eq_getElem_cons hr, List.take_append_drop]
  rw [hsplit] at hsorted hmem
  rw [card_smaller hsorted hmem, List.length_take, Nat.min_eq_left (Nat.le_of_lt hr)]

/-- What a path to rank `r` ends at. -/
theorem Represents.endsAt {t : BPTree α} {s : Finset α} (h : Represents t s) {r : Nat}
    {p : BPTreePath α} (hp : EndsAt t.inOrder r p) :
    ∃ k, terminal? p = some k ∧ k ∈ s ∧ (s.filter (· < k)).card = r := by
  have hlt := hp.lt
  refine ⟨t.inOrder[r], ?_, (h.mem _).mp (List.getElem_mem hlt),
    card_smaller_getElem h.sorted h.mem hlt⟩
  rw [hp.terminal, List.getElem?_eq_getElem hlt]

/-- Members with the same rank are the same. -/
theorem eq_of_card_smaller {s : Finset α} {a b : α} (ha : a ∈ s) (hb : b ∈ s)
    (h : (s.filter (· < a)).card = (s.filter (· < b)).card) : a = b := by
  have hlt {x y : α} (hx : x ∈ s) (hxy : x < y) :
      (s.filter (· < x)).card < (s.filter (· < y)).card := by
    refine Finset.card_lt_card ⟨fun z hz => ?_, fun hsub => ?_⟩
    · rw [Finset.mem_filter] at hz ⊢
      exact ⟨hz.1, lt_trans hz.2 hxy⟩
    · have hx' := hsub (Finset.mem_filter.mpr ⟨hx, hxy⟩)
      exact lt_irrefl x (Finset.mem_filter.mp hx').2
  obtain hab | hab | hab := lt_trichotomy a b
  · have hcard := hlt ha hab
    omega
  · exact hab
  · have hcard := hlt hb hab
    omega

variable [Inhabited α]

/-- `GetRank` of a member. -/
theorem Represents.getRank_mem {t : BPTree α} {s : Finset α} (h : Represents t s) {k : α}
    (hk : k ∈ s) (reverse : Bool) :
    t.getRank k reverse = some (if reverse then
        t.size - 1 - UInt32.ofNat (s.filter (· < k)).card
      else UInt32.ofNat (s.filter (· < k)).card) := by
  obtain ⟨L₁, k', L₂, hlist, hequiv, hanswer⟩ | ⟨habsent, -⟩ :=
    getRank_spec h.holds (h.cuts k) reverse
  · obtain rfl := eq_of_equiv hequiv
    have hsorted := h.sorted
    have hmem := h.mem
    rw [hlist] at hsorted hmem
    rw [hanswer, card_smaller hsorted hmem]
    have hsize : t.size = UInt32.ofNat t.inOrder.length := h.holds.count
    rw [hsize]
    cases reverse with
    | false => rfl
    | true =>
        simp only [if_true]
        congr 1
        grind
  · have hor := habsent k ((h.mem k).mpr hk)
    rw [or_self] at hor
    exact (lt_irrefl k hor).elim

/-- A key that is not in the set has no rank. -/
theorem Represents.getRank_absent {t : BPTree α} {s : Finset α} (h : Represents t s) {k : α}
    (hk : k ∉ s) (reverse : Bool) : t.getRank k reverse = none := by
  obtain ⟨L₁, k', L₂, hlist, hequiv, -⟩ | ⟨-, hanswer⟩ :=
    getRank_spec h.holds (h.cuts k) reverse
  · obtain rfl := eq_of_equiv hequiv
    refine (hk ((h.mem k).mp ?_)).elim
    rw [hlist]
    simp
  · exact hanswer

/-- `FromRank` and `GetRank` are the two directions of the order of a tree of fewer than `2 ^ 32`
keys. -/
theorem reach_ranks (ops : List (BPTreeOp α)) (hsmall : (members ops).card < 2 ^ 32) :
    (∀ r < (reach ops).size, ∃ p k, fromRank (reach ops) r = some p ∧ terminal? p = some k ∧
      k ∈ members ops ∧ ((members ops).filter (· < k)).card = r.toNat ∧ rank p = r) ∧
    (∀ k ∈ members ops, ∃ g, (reach ops).getRank k false = some g ∧
      g.toNat = ((members ops).filter (· < k)).card ∧
      (reach ops).getRank k true = some ((reach ops).size - 1 - g) ∧
      ∃ p, fromRank (reach ops) g = some p ∧ terminal? p = some k) ∧
    (∀ k ∉ members ops, ∀ reverse, (reach ops).getRank k reverse = none) := by
  have hrep := reach_represents ops
  have hsize := hrep.size_eq hsmall
  have hlen := hrep.card
  have hfrom (r : UInt32) (hr : r.toNat < (members ops).card) :=
    fromRank_spec hrep.holds (by omega) r (by omega)
  refine ⟨fun r hr => ?_, fun k hk => ?_, fun k hk => hrep.getRank_absent hk⟩
  · obtain ⟨p, hres, hends⟩ := hfrom r (by rw [← hsize]; exact UInt32.lt_iff_toNat_lt.mp hr)
    obtain ⟨k, hkey, hmem, hcard⟩ := hrep.endsAt hends
    refine ⟨p, k, hres, hkey, hmem, hcard, ?_⟩
    rw [rank_spec hends, UInt32.ofNat_toNat]
  · have hcard : ((members ops).filter (· < k)).card < (members ops).card := by
      refine Finset.card_lt_card ⟨Finset.filter_subset _ _, fun hsub => ?_⟩
      exact lt_irrefl k (Finset.mem_filter.mp (hsub hk)).2
    have hnat : (UInt32.ofNat ((members ops).filter (· < k)).card).toNat =
        ((members ops).filter (· < k)).card :=
      UInt32.toNat_ofNat_of_lt' (Nat.lt_trans hcard hsmall)
    obtain ⟨p, hres, hends⟩ := hfrom (UInt32.ofNat ((members ops).filter (· < k)).card)
      (by rw [hnat]; exact hcard)
    obtain ⟨k', hkey, hmem, hcard'⟩ := hrep.endsAt hends
    rw [hnat] at hcard'
    obtain rfl := eq_of_card_smaller hmem hk hcard'
    exact ⟨_, hrep.getRank_mem hk false, hnat, hrep.getRank_mem hk true, p, hres, hkey⟩

theorem reach_ranks_two :
    (members [BPTreeOp.insert 5, .insert 3]).card < 2 ^ 32 ∧
    ∃ g, (reach [BPTreeOp.insert 5, .insert 3]).getRank 5 false = some g ∧ g.toNat = 1 := by
  have hsmall : (members [BPTreeOp.insert 5, .insert 3]).card < 2 ^ 32 := by decide
  obtain ⟨g, hg, hnat, -⟩ := (reach_ranks [BPTreeOp.insert 5, .insert 3] hsmall).2.1 5 (by decide)
  exact ⟨hsmall, g, hg, hnat.trans (by decide)⟩

/-- When the counter of a tree with the keys `0, …, n` reads 1, rank 0 leads to `n`. -/
theorem fromRank_fillTo {n : Nat} (hn : UInt32.ofNat (n + 1) = 1) :
    (reach (fillTo (n + 1))).size = 1 ∧ 0 ∈ members (fillTo (n + 1)) ∧
    ∃ p, fromRank (reach (fillTo (n + 1))) 0 = some p ∧ terminal? p = some n := by
  have hrep := reach_represents (fillTo (n + 1))
  have hcard := hrep.card
  rw [members_fillTo, Finset.card_range] at hcard
  have hsize : (reach (fillTo (n + 1))).count = 1 := by rw [hrep.holds.count, ← hcard, hn]
  obtain ⟨p, hres, hends⟩ := fromRank_last hrep.holds
    (List.ne_nil_of_length_pos (by omega)) 0 (by rw [hsize]; rfl)
  obtain ⟨k, hkey, hmem, hrank⟩ := hrep.endsAt hends
  rw [← hcard, members_fillTo] at hrank
  rw [members_fillTo, Finset.mem_range] at hmem
  -- the members below `k` are `0, …, k - 1`
  have hbelow : (Finset.range (n + 1)).filter (· < k) = Finset.range k := by
    ext x
    rw [Finset.mem_filter, Finset.mem_range, Finset.mem_range]
    omega
  rw [hbelow, Finset.card_range, Nat.add_sub_cancel] at hrank
  refine ⟨hsize, ?_, p, hres, by rw [hkey, hrank]⟩
  rw [members_fillTo, Finset.mem_range]
  omega

/-- With `2 ^ 32 + 1` keys `Size()` is 1, and rank 0 leads to the largest key. -/
theorem fromRank_wraps :
    (reach (fillTo (2 ^ 32 + 1))).size = 1 ∧ 0 ∈ members (fillTo (2 ^ 32 + 1)) ∧
    ∃ p, fromRank (reach (fillTo (2 ^ 32 + 1))) 0 = some p ∧ terminal? p = some (2 ^ 32) :=
  fromRank_fillTo (by decide)

/-! ## bounds and iteration -/

/-- `GEQ` finds the least member from `q` on, or runs past the end. -/
theorem Represents.geq {t : BPTree α} {s : Finset α} (h : Represents t s) (hne : s.Nonempty)
    (q : α) : ∃ p, t.geq q = some p ∧
      ((p = [] ∧ ∀ k ∈ s, k < q) ∨
        ∃ k ∈ s, terminal? p = some k ∧ q ≤ k ∧ ∀ x ∈ s, q ≤ x → k ≤ x) := by
  obtain ⟨x, hx⟩ := hne
  have hmem := h.mem
  obtain ⟨p, L₁, L₂, hres, hlist, hbelow, habove, hnil, hends⟩ :=
    geq_spec h.holds (h.cuts q) (List.ne_nil_of_mem ((hmem x).mpr hx))
  have hsorted := h.sorted
  rw [hlist] at hmem hsorted
  refine ⟨p, hres, ?_⟩
  cases L₂ with
  | nil =>
      left
      refine ⟨hnil rfl, fun k hk => hbelow k ?_⟩
      have hk' := (hmem k).mpr hk
      rwa [List.append_nil] at hk'
  | cons k L₂ =>
      right
      have hkey := (hends (by simp)).terminal
      rw [hlist] at hkey
      refine ⟨k, (hmem k).mp (by simp), by rw [hkey]; simp, le_of_not_gt (habove k (by simp)),
        fun y hy hqy => ?_⟩
      have hright := (List.pairwise_cons.mp (List.pairwise_append.mp hsorted).2.1).1
      have hy' := (hmem y).mpr hy
      rw [List.mem_append, List.mem_cons] at hy'
      obtain hy' | hy' | hy' := hy'
      · exact (not_le_of_gt (hbelow y hy') hqy).elim
      · exact le_of_eq hy'.symm
      · exact le_of_lt (hright y hy')

/-- `LEQ` finds the greatest member up to `q`, or runs past the front. -/
theorem Represents.leq {t : BPTree α} {s : Finset α} (h : Represents t s) (hne : s.Nonempty)
    (q : α) : ∃ p, t.leq q = some p ∧
      ((p = [] ∧ ∀ k ∈ s, q < k) ∨
        ∃ k ∈ s, terminal? p = some k ∧ k ≤ q ∧ ∀ x ∈ s, x ≤ q → x ≤ k) := by
  obtain ⟨x, hx⟩ := hne
  have hmem := h.mem
  obtain ⟨p, L₁, L₂, hres, hlist, hbelow, habove, hnil, hends⟩ :=
    leq_spec h.holds (h.cuts q) (List.ne_nil_of_mem ((hmem x).mpr hx))
  have hsorted := h.sorted
  rw [hlist] at hmem hsorted
  refine ⟨p, hres, ?_⟩
  by_cases hnone : L₁ = []
  · left
    refine ⟨hnil hnone, fun k hk => habove k ?_⟩
    have hk' := (hmem k).mpr hk
    rwa [hnone, List.nil_append] at hk'
  · right
    -- the bound is the last of the keys not above `q`
    obtain ⟨A, k, rfl⟩ : ∃ A k, L₁ = A ++ [k] :=
      ⟨_, _, (List.dropLast_append_getLast hnone).symm⟩
    have hkey := (hends hnone).terminal
    rw [hlist] at hkey
    refine ⟨k, (hmem k).mp (by simp), by rw [hkey]; simp, le_of_not_gt (hbelow k (by simp)),
      fun y hy hyq => ?_⟩
    have hleft := (List.pairwise_append.mp (List.pairwise_append.mp hsorted).1).2.2
    have hy' := (hmem y).mpr hy
    rw [List.mem_append, List.mem_append, List.mem_singleton] at hy'
    obtain (hy' | hy') | hy' := hy'
    · exact le_of_lt (hleft y hy' k (by simp))
    · exact le_of_eq hy'
    · exact (not_le_of_gt (habove y hy') hyq).elim

/-- Bounds, repeated moves and iteration on a non-empty reachable tree.  `IterateReverse` counts
its ranks from the last key. -/
theorem reach_walks {σ : Type v} (ops : List (BPTreeOp α)) (hne : (members ops).Nonempty)
    (cb : σ → α → σ × Bool) (s : σ) :
    (∀ q, ∃ p, (reach ops).geq q = some p ∧
      ((p = [] ∧ ∀ k ∈ members ops, k < q) ∨
        ∃ k ∈ members ops, terminal? p = some k ∧ q ≤ k ∧ ∀ x ∈ members ops, q ≤ x → k ≤ x)) ∧
    (∀ q, ∃ p, (reach ops).leq q = some p ∧
      ((p = [] ∧ ∀ k ∈ members ops, q < k) ∨
        ∃ k ∈ members ops, terminal? p = some k ∧ k ≤ q ∧ ∀ x ∈ members ops, x ≤ q → x ≤ k)) ∧
    ((members ops).card < 2 ^ 32 →
      ∃ L : List α, L.Pairwise (· < ·) ∧ (∀ k, k ∈ L ↔ k ∈ members ops) ∧
        (∀ r < (reach ops).size, ∃ p, fromRank (reach ops) r = some p ∧
          terminal? p = L[r.toNat]? ∧
          ∀ fuel ≥ L.length, visits next fuel p = some (L.drop (r.toNat + 1)) ∧
            visits prev fuel p = some (L.take r.toNat).reverse) ∧
        ∀ a b : UInt32, a ≤ b → b < (reach ops).size →
          iterate (reach ops) a b cb s =
            some (callUntil cb s ((L.drop a.toNat).take (b.toNat + 1 - a.toNat))) ∧
          iterateReverse (reach ops) a b cb s =
            some (callUntil cb s ((L.reverse.drop a.toNat).take (b.toNat + 1 - a.toNat)))) := by
  have hrep := reach_represents ops
  refine ⟨hrep.geq hne, hrep.leq hne, fun hsmall => ⟨_, hrep.sorted, hrep.mem, ?_, ?_⟩⟩
  · intro r hr
    have hsize := hrep.size_eq hsmall
    have hlen := hrep.card
    have hlt : r.toNat < (reach ops).inOrder.length := by
      rw [← hlen, ← hsize]
      exact UInt32.lt_iff_toNat_lt.mp hr
    obtain ⟨p, hres, hends⟩ := fromRank_spec hrep.holds (by omega) _ hlt
    exact ⟨p, hres, hends.terminal, fun fuel hfuel =>
      ⟨visits_next hends (by omega), visits_prev hends (by omega)⟩⟩
  · intro a b hab hb
    have hsize := hrep.size_eq hsmall
    have hlen := hrep.card
    have hlt : b.toNat < (reach ops).inOrder.length := by
      rw [← hlen, ← hsize]
      exact UInt32.lt_iff_toNat_lt.mp hb
    exact ⟨iterate_spec hrep.holds (by omega) cb s,
      iterateReverse_spec hrep.holds (by omega) hab hlt cb s⟩

theorem reach_walks_two :
    (members [BPTreeOp.insert 5, .insert 3]).Nonempty ∧
    ∃ p, (reach [BPTreeOp.insert 5, .insert 3]).geq 4 = some p ∧
      (p = [] ∨ ∃ k ∈ members [BPTreeOp.insert 5, .insert 3], terminal? p = some k ∧ 4 ≤ k) := by
  have hne : (members [BPTreeOp.insert 5, .insert 3]).Nonempty := ⟨5, by decide⟩
  obtain ⟨p, hp, hor⟩ := (reach_walks [BPTreeOp.insert 5, .insert 3] hne
    (fun (s : List Nat) k => (k :: s, true)) []).1 4
  refine ⟨hne, p, hp, ?_⟩
  obtain ⟨hnil, -⟩ | ⟨k, hk, hterm, hle, -⟩ := hor
  · exact Or.inl hnil
  · exact Or.inr ⟨k, hk, hterm, hle⟩

/-- In a tree of 0 and 1, `Iterate(0, 0)` visits 0 and `IterateReverse(0, 0)` visits 1. -/
theorem iterateReverse_from_last :
    iterate (reach [BPTreeOp.insert 0, .insert 1]) 0 0 (fun s k => (k :: s, true)) [] =
      some ([0], true) ∧
    iterateReverse (reach [BPTreeOp.insert 0, .insert 1]) 0 0 (fun s k => (k :: s, true)) [] =
      some ([1], true) := by
  decide +kernel

end BPTree

end AstraKV
