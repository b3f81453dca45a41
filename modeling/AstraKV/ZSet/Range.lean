import AstraKV.BPTree.Iterate
import AstraKV.ZSet.InStep

/-!
# AstraKV.ZSet.Range

Ranks and ranges of a sorted set whose three structures are in step, as
slices of one list: the members with their scores in the order of the tree.

`Ascends` names the list: the pairs of members and scores in the ascending
order of their keys. A rank is an index of it, a range of ranks a slice, a
range of scores a filter; reversed ranges are slices of the reversed list. The
loops of the source look each rank up from the root again and convert between
64-bit and 32-bit ranks, so the results ask for fewer than 2^32 members.
-/

universe u

namespace AstraKV

open Cut BPTree BPTreePath

namespace ZSetBPlus

variable {M : Type u} {hash : M → UInt64} {z : ZSetBPlus M}

/-- The key of a member with its score. -/
def keyOf (hash : M → UInt64) (p : M × Binary64) : ScoredMemberCompact := makeElement hash p.1 p.2

/-- `asc` lists the members with their scores in ascending order. -/
structure Ascends (hash : M → UInt64) (z : ZSetBPlus M) (asc : List (M × Binary64)) : Prop where
  keys : z.orderedSet.inOrder = asc.map (keyOf hash)
  perm : asc.Perm z.getAll

variable {asc : List (M × Binary64)}

/-- A sorted set in step has such a list. -/
theorem InStep.exists_ascends (h : InStep hash z) : ∃ asc, Ascends hash z asc := by
  have hcomp : Relation.Comp (fun l r => l = List.map (elementOf hash) r) List.Perm
      z.orderedSet.inOrder z.memberToScore.entries := by
    rw [List.eq_map_comp_perm]
    exact h.stores.perm
  obtain ⟨r, hkeys, hperm⟩ := hcomp
  refine ⟨r.map fun e => (e.1, e.2), ?_, hperm.map _⟩
  rw [hkeys, List.map_map]
  rfl

/-- The list of a sorted set has the members with their scores. -/
theorem Ascends.mem [DecidableEq M] (h : Ascends hash z asc) {m : M} {s : Binary64} :
    (m, s) ∈ asc ↔ z.getScore m = some s := by
  rw [h.perm.mem_iff, getScore, ← Dict.mem_entries, getAll]
  simp

/-- The keys of the list ascend. -/
theorem Ascends.sorted (h : Ascends hash z asc) (hz : InStep hash z) :
    asc.Pairwise fun p q => keyOf hash p < keyOf hash q := by
  have hsorted := hz.stores.sorted
  rwa [h.keys, List.pairwise_map] at hsorted

/-- No member is in the list twice. -/
theorem Ascends.nodup (h : Ascends hash z asc) (hz : InStep hash z) : asc.Nodup := by
  refine (h.sorted hz).imp fun {p q} hlt => ?_
  rintro rfl
  exact ScoredMemberCompact.lt_irrefl _ hlt

/-- The list is as long as the map of scores. -/
theorem Ascends.length (h : Ascends hash z asc) : asc.length = z.memberToScore.entries.length := by
  rw [h.perm.length_eq, getAll, List.length_map]

/-- The reverse map leads from every key back to its member. -/
theorem Ascends.rangeEntry (h : Ascends hash z asc) (hz : InStep hash z) {p : M × Binary64}
    (hp : p ∈ asc) : z.rangeEntry true (keyOf hash p) = [p] := by
  have hmem : p.1 ∈ z.memberToScore := by
    obtain ⟨e, he, rfl⟩ := List.mem_map.mp (h.perm.mem_iff.mp hp)
    exact List.mem_map.mpr ⟨e, he, rfl⟩
  have hback := hz.back p.1 hmem
  unfold ZSetBPlus.rangeEntry
  rw [show (keyOf hash p).memberHash = hash p.1 from rfl, hback]
  rfl

/-- The size is the number of members, modulo 2^32. -/
theorem InStep.size_mod (h : InStep hash z) :
    z.size.toNat = z.memberToScore.entries.length % 2 ^ 32 := by
  unfold ZSetBPlus.size BPTree.size
  rw [h.stores.holds.count, h.stores.length, UInt32.toNat_toUInt64]
  exact UInt32.toNat_ofNat'

/-- Below that it is their number. -/
theorem InStep.size (h : InStep hash z) (hsmall : z.memberToScore.entries.length < 2 ^ 32) :
    z.size.toNat = z.memberToScore.entries.length := by
  rw [h.size_mod, Nat.mod_eq_of_lt hsmall]

/-! ## ranks -/

/-- In a sorted list as many keys are below one as stand before it. -/
theorem countP_below {L₁ L₂ : List ScoredMemberCompact} {k : ScoredMemberCompact}
    (h : (L₁ ++ k :: L₂).Pairwise (· < ·)) :
    (L₁ ++ k :: L₂).countP (fun x => x < k) = L₁.length := by
  obtain ⟨-, hcons, hcross⟩ := List.pairwise_append.mp h
  have hleft : L₁.countP (fun x => x < k) = L₁.length :=
    List.countP_eq_length.mpr fun x hx => decide_eq_true (hcross x hx k List.mem_cons_self)
  have hright : (k :: L₂).countP (fun x => x < k) = 0 := by
    refine List.countP_eq_zero.mpr fun x hx => ?_
    rw [decide_eq_true_iff]
    cases List.mem_cons.mp hx with
    | inl hx => exact hx ▸ ScoredMemberCompact.lt_irrefl k
    | inr hx => exact ScoredMemberCompact.lt_asymm ((List.pairwise_cons.mp hcons).1 x hx)
  rw [List.countP_append, hleft, hright, Nat.add_zero]

theorem countP_above {L₁ L₂ : List ScoredMemberCompact} {k : ScoredMemberCompact}
    (h : (L₁ ++ k :: L₂).Pairwise (· < ·)) :
    (L₁ ++ k :: L₂).countP (fun x => k < x) = L₂.length := by
  obtain ⟨-, hcons, hcross⟩ := List.pairwise_append.mp h
  have hleft : L₁.countP (fun x => k < x) = 0 := by
    refine List.countP_eq_zero.mpr fun x hx => ?_
    rw [decide_eq_true_iff]
    exact ScoredMemberCompact.lt_asymm (hcross x hx k List.mem_cons_self)
  have hright : L₂.countP (fun x => k < x) = L₂.length :=
    List.countP_eq_length.mpr fun x hx =>
      decide_eq_true ((List.pairwise_cons.mp hcons).1 x hx)
  have hself : (k :: L₂).countP (fun x => k < x) = L₂.countP fun x => k < x :=
    List.countP_cons_of_neg (by simpa using ScoredMemberCompact.lt_irrefl k)
  rw [List.countP_append, hleft, hself, hright, Nat.zero_add]

/-- `GetRank` counts the keys below the member's, or above it. -/
theorem Ascends.getRank [DecidableEq M] (h : Ascends hash z asc) (hz : InStep hash z)
    (hsmall : asc.length < 2 ^ 32) {m : M} {s : Binary64} (hscore : z.getScore m = some s)
    (reverse : Bool) :
    ∃ r, z.getRank hash m reverse = some r ∧
      r.toNat = if reverse then asc.countP fun p => keyOf hash (m, s) < keyOf hash p
        else asc.countP fun p => keyOf hash p < keyOf hash (m, s) := by
  have hstores := hz.stores.perm_entries (Dict.perm_cons_erase hscore)
  have hlookup : z.memberToScore.lookup m = some s := hscore
  unfold ZSetBPlus.getRank
  rw [hlookup]
  dsimp only
  obtain ⟨L₁, k, L₂, hlist, hequiv, hrank⟩ | ⟨habsent, -⟩ :=
    getRank_spec hstores.holds hstores.cuts_self reverse
  · obtain rfl := hstores.eq_of_equiv (by rw [hlist]; simp) hequiv
    have hsorted := hstores.sorted
    have hcount (p : ScoredMemberCompact → Bool) :
        (asc.countP fun q => p (keyOf hash q)) =
          (L₁ ++ elementOf hash ⟨m, s⟩ :: L₂).countP p := by
      rw [← hlist, h.keys, List.countP_map]
      rfl
    have hlen : asc.length = L₁.length + (L₂.length + 1) := by
      have hparts := congrArg List.length hlist
      rwa [h.keys, List.length_map, List.length_append, List.length_cons] at hparts
    have hall : (UInt32.ofNat z.orderedSet.inOrder.length).toNat = asc.length := by
      rw [h.keys, List.length_map]
      exact UInt32.toNat_ofNat_of_lt' hsmall
    have hleft : (UInt32.ofNat L₁.length).toNat = L₁.length :=
      UInt32.toNat_ofNat_of_lt' (by show L₁.length < 2 ^ 32; omega)
    rw [hlist] at hsorted
    refine ⟨_, congrArg (Option.map UInt32.toUInt64) hrank, ?_⟩
    rw [UInt32.toNat_toUInt64]
    cases reverse with
    | false => exact hleft.trans ((hcount _).trans (countP_below hsorted)).symm
    | true =>
        have hone : (1 : UInt32).toNat = 1 := rfl
        have hsub : (UInt32.ofNat z.orderedSet.inOrder.length - UInt32.ofNat L₁.length - 1).toNat =
            L₂.length := by
          rw [UInt32.toNat_sub_of_le, UInt32.toNat_sub_of_le, hall, hleft, hone]
          · omega
          · rw [UInt32.le_iff_toNat_le, hall, hleft]
            omega
          · rw [UInt32.le_iff_toNat_le, UInt32.toNat_sub_of_le, hall, hleft, hone]
            · omega
            · rw [UInt32.le_iff_toNat_le, hall, hleft]
              omega
        exact hsub.trans ((hcount _).trans (countP_above hsorted)).symm
  · have hself : elementOf hash ⟨m, s⟩ ∈ z.orderedSet.inOrder := hstores.perm.mem_iff.mpr (by simp)
    have hor := habsent _ hself
    rw [or_self] at hor
    exact (ScoredMemberCompact.lt_irrefl _ hor).elim

/-! ## ranges of ranks -/

/-- The list a range of ranks is a slice of. -/
def directed (reverse : Bool) (asc : List (M × Binary64)) : List (M × Binary64) :=
  if reverse then asc.reverse else asc

/-- The reversed list is as long. -/
theorem length_directed (reverse : Bool) : (directed reverse asc).length = asc.length := by
  cases reverse with
  | false => rfl
  | true => exact List.length_reverse

/-- Looking a rank up leads to the key of that index. -/
theorem Ascends.lookupRank (h : Ascends hash z asc) (hz : InStep hash z)
    (hsmall : asc.length < 2 ^ 32) {i : UInt64} (hi : i.toNat < asc.length) (reverse : Bool) :
    ∃ p path, (directed reverse asc)[i.toNat]? = some p ∧ p ∈ asc ∧ path ≠ [] ∧
      z.orderedSet.fromRank (if reverse then (z.size - 1 - i).toUInt32 else i.toUInt32) =
        some path ∧
      terminal? path = some (keyOf hash p) := by
  have hlen : z.orderedSet.inOrder.length = asc.length := by rw [h.keys, List.length_map]
  have hsize := hz.size (by rw [← h.length]; exact hsmall)
  rw [← h.length] at hsize
  -- the position in ascending order
  obtain ⟨r, hr, hget⟩ : ∃ r : UInt32,
      (if reverse then (z.size - 1 - i).toUInt32 else i.toUInt32) = r ∧ r.toNat < asc.length ∧
        (directed reverse asc)[i.toNat]? = asc[r.toNat]? := by
    refine ⟨_, rfl, ?_⟩
    cases reverse with
    | false =>
        have hnat : i.toUInt32.toNat = i.toNat := by
          rw [UInt64.toNat_toUInt32]
          exact Nat.mod_eq_of_lt (by omega)
        simp only [Bool.false_eq_true, if_false, directed]
        rw [hnat]
        exact ⟨hi, rfl⟩
    | true =>
        have hone : (1 : UInt64).toNat = 1 := rfl
        have hsub : (z.size - 1 - i).toNat = asc.length - 1 - i.toNat := by
          rw [UInt64.toNat_sub_of_le, UInt64.toNat_sub_of_le, hsize, hone]
          · rw [UInt64.le_iff_toNat_le, hone]
            omega
          · rw [UInt64.le_iff_toNat_le, UInt64.toNat_sub_of_le, hsize, hone]
            · omega
            · rw [UInt64.le_iff_toNat_le, hone]
              omega
        have hnat : (z.size - 1 - i).toUInt32.toNat = asc.length - 1 - i.toNat := by
          rw [UInt64.toNat_toUInt32, hsub]
          exact Nat.mod_eq_of_lt (by omega)
        simp only [if_true, directed]
        rw [hnat]
        exact ⟨by omega, List.getElem?_reverse (by omega)⟩
  obtain ⟨hlt, hget⟩ := hget
  obtain ⟨path, hpath, hends⟩ := fromRank_spec hz.stores.holds (by omega) r (by omega)
  refine ⟨asc[r.toNat], path, ?_, List.getElem_mem hlt, ?_, by rw [hr]; exact hpath, ?_⟩
  · rw [hget]
    exact List.getElem?_eq_getElem hlt
  · rintro rfl
    exact hends
  · rw [hends.terminal, h.keys, List.getElem?_map, List.getElem?_eq_getElem hlt]
    rfl

/-- The loop appends the slice it goes over. -/
theorem Ascends.rankLoop (h : Ascends hash z asc) (hz : InStep hash z)
    (hsmall : asc.length < 2 ^ 32) (reverse : Bool) {n : Nat} {i : UInt64}
    {result : List (M × Binary64)} (hn : i.toNat + n ≤ asc.length) :
    z.rankLoop reverse true n i result =
      some (result ++ ((directed reverse asc).drop i.toNat).take n) := by
  induction n generalizing i result with
  | zero => simp [ZSetBPlus.rankLoop]
  | succ n ih =>
      obtain ⟨p, path, hget, hp, hne, hpath, hkey⟩ :=
        h.lookupRank hz hsmall (by omega : i.toNat < asc.length) reverse
      have hlt : i.toNat < (directed reverse asc).length := by
        rw [length_directed]
        omega
      have hnext : (i + 1).toNat = i.toNat + 1 := by
        rw [UInt64.toNat_add, show (1 : UInt64).toNat = 1 from rfl]
        exact Nat.mod_eq_of_lt (by omega)
      have hsplit : (directed reverse asc).drop i.toNat =
          p :: (directed reverse asc).drop (i.toNat + 1) := by
        rw [List.getElem?_eq_getElem hlt] at hget
        rw [List.drop_eq_getElem_cons hlt, Option.some.inj hget]
      unfold ZSetBPlus.rankLoop
      dsimp only
      rw [hpath]
      cases path with
      | nil => contradiction
      | cons rec rest =>
          dsimp only
          rw [hkey]
          dsimp only
          rw [h.rangeEntry hz hp, ih (by omega), hnext, hsplit, List.take_succ_cons,
            List.append_assoc, List.singleton_append]

/-- `GetRangeByRank` is a slice of the ascending, or descending, list. -/
theorem Ascends.getRangeByRank (h : Ascends hash z asc) (hz : InStep hash z)
    (hsmall : asc.length < 2 ^ 32) (start stop : UInt64) (reverse : Bool) :
    z.getRangeByRank start stop reverse true =
      some (((directed reverse asc).drop start.toNat).take
        (min stop.toNat (asc.length - 1) + 1 - start.toNat)) := by
  have hsize := hz.size (by rw [← h.length]; exact hsmall)
  rw [← h.length] at hsize
  unfold ZSetBPlus.getRangeByRank
  by_cases hout : z.size ≤ start
  · rw [UInt64.le_iff_toNat_le, hsize] at hout
    rw [if_pos (by rw [UInt64.le_iff_toNat_le, hsize]; exact hout),
      List.drop_of_length_le (by rw [length_directed]; exact hout), List.take_nil]
  · rw [if_neg hout]
    rw [UInt64.le_iff_toNat_le, hsize] at hout
    have hsub : (z.size - 1).toNat = asc.length - 1 := by
      rw [UInt64.toNat_sub_of_le, hsize]
      · rfl
      · rw [UInt64.le_iff_toNat_le, hsize]
        exact Nat.one_le_iff_ne_zero.mpr (by omega)
    have hmin : (if z.size - 1 < stop then z.size - 1 else stop).toNat =
        min stop.toNat (asc.length - 1) := by
      by_cases hlt : z.size - 1 < stop
      · rw [if_pos hlt, hsub]
        rw [UInt64.lt_iff_toNat_lt, hsub] at hlt
        omega
      · rw [if_neg hlt]
        rw [UInt64.lt_iff_toNat_lt, hsub] at hlt
        omega
    dsimp only
    rw [hmin, h.rankLoop hz hsmall reverse (by omega), List.nil_append]

/-! ## ranges of scores -/

/-- Along an order a front with a downward property is a filter. -/
theorem takeWhile_eq_filter {α : Type*} {R : α → α → Prop} {p : α → Bool} {l : List α}
    (hl : l.Pairwise R) (hp : ∀ a b, R a b → p b = true → p a = true) :
    l.takeWhile p = l.filter p := by
  induction l with
  | nil => rfl
  | cons a l ih =>
      obtain ⟨ha, hl⟩ := List.pairwise_cons.mp hl
      cases hpa : p a with
      | true => rw [List.takeWhile_cons_of_pos hpa, List.filter_cons_of_pos hpa, ih hl]
      | false =>
          rw [List.takeWhile_cons_of_neg (by simp [hpa]), List.filter_cons_of_neg (by simp [hpa])]
          refine (List.filter_eq_nil_iff.mpr fun b hb hpb => ?_).symm
          rw [hp a b (ha b hb) hpb] at hpa
          contradiction

/-- The walk takes keys up to the first past the greatest score. -/
theorem scoreWalk_spec {σ : Type*} {L : List ScoredMemberCompact} {n r : Nat}
    {path : BPTreePath ScoredMemberCompact} (max : Binary64) (f : σ → ScoredMemberCompact → σ)
    (s : σ) (hp : EndsAt L r path) (hn : L.length ≤ n + r) :
    scoreWalk max f n path s =
      some (((L.drop r).takeWhile fun e => ¬ max < e.score).foldl f s) := by
  induction n generalizing r path s with
  | zero =>
      have hlt := hp.lt
      omega
  | succ n ih =>
      have hlt := hp.lt
      obtain ⟨hmore, hend⟩ := next_spec hp
      have hkey : terminal? path = some L[r] := by
        rw [hp.terminal]
        exact List.getElem?_eq_getElem hlt
      unfold scoreWalk
      rw [hkey, List.drop_eq_getElem_cons hlt]
      dsimp only
      by_cases hmax : max < L[r].score
      · rw [if_pos hmax, List.takeWhile_cons_of_neg (by simpa using hmax)]
        rfl
      · rw [if_neg hmax, List.takeWhile_cons_of_pos (by simpa using hmax), List.foldl_cons]
        by_cases hlast : r + 1 = L.length
        · rw [hend hlast, List.drop_of_length_le (Nat.le_of_eq hlast.symm)]
          rfl
        · obtain ⟨hgo, hends⟩ := hmore (by omega)
          cases hnext : next path with
          | mk go path' =>
              rw [hnext] at hgo hends
              obtain rfl : go = true := hgo
              exact ih (f s L[r]) hends (by omega)

/-- `min <= score && score <= max`. -/
def within (min max : Binary64) (score : Binary64) : Bool := min ≤ score ∧ score ≤ max

/-- The walk takes in the keys with a score in the range, in order. -/
theorem InStep.walkRange {σ : Type*} (hz : InStep hash z)
    (hnum : ∀ e ∈ z.orderedSet.inOrder, e.score.isNaN = false)
    (hsmall : z.orderedSet.inOrder.length < 2 ^ 32) {min max : Binary64}
    (hmin : min.isNaN = false) (hmax : max.isNaN = false) (f : σ → ScoredMemberCompact → σ)
    (s : σ) :
    z.walkRange min max f s =
      some ((z.orderedSet.inOrder.filter fun e => within min max e.score).foldl f s) := by
  have hholds := hz.stores.holds
  have hsorted := hz.stores.sorted
  unfold ZSetBPlus.walkRange
  generalize z.orderedSet.inOrder = L at hnum hsmall hholds hsorted ⊢
  by_cases hempty : L = []
  · subst hempty
    have hcount : z.orderedSet.isEmpty = true := by
      unfold BPTree.isEmpty
      rw [hholds.count]
      rfl
    rw [if_pos hcount]
    rfl
  · have hcount : z.orderedSet.isEmpty = false := by
      unfold BPTree.isEmpty
      rw [hholds.count, beq_eq_false_iff_ne]
      intro hzero
      have hnat := congrArg UInt32.toNat hzero
      rw [UInt32.toNat_ofNat_of_lt' hsmall] at hnat
      exact hempty (List.length_eq_zero_iff.mp hnat)
    have hcuts : Cuts (⟨min, 0⟩ : ScoredMemberCompact) L :=
      ScoredMemberCompact.cuts_of_sorted hsorted hmin
    obtain ⟨path, L₁, L₂, hgeq, rfl, hbelow, habove, hnil, hcons⟩ := geq_spec hholds hcuts hempty
    -- nothing of the left part is in the range, and all of the right part reaches `min`
    have hleft : L₁.filter (fun e => within min max e.score) = [] := by
      refine List.filter_eq_nil_iff.mpr fun e he => ?_
      have hlt := hbelow e he
      have hne := hnum e (List.mem_append_left _ he)
      rw [ScoredMemberCompact.lt_iff hne hmin] at hlt
      dsimp only at hlt
      have hzero : ¬ e.memberHash < 0 := UInt64.not_lt_zero
      unfold within
      rw [decide_eq_true_iff, Binary64.le_iff hmin hne]
      rintro ⟨hle, -⟩
      rcases hlt with hlt | ⟨-, hlt⟩
      · omega
      · exact hzero hlt
    have hright : L₂.takeWhile (fun e => ¬ max < e.score) =
        L₂.filter fun e => within min max e.score := by
      have hsorted₂ := (List.pairwise_append.mp hsorted).2.1
      rw [takeWhile_eq_filter hsorted₂]
      · refine List.filter_congr fun e he => ?_
        have hne := hnum e (List.mem_append_right _ he)
        have hge := habove e he
        rw [ScoredMemberCompact.lt_iff hne hmin] at hge
        dsimp only at hge
        unfold within
        rw [decide_eq_decide, Binary64.not_lt hmax hne, Binary64.le_iff hmin hne]
        have hle : min.order ≤ e.score.order := Int.not_lt.mp (not_or.mp hge).1
        tauto
      · intro a b hab hb
        obtain ⟨hna, hnb⟩ := ScoredMemberCompact.isNaN_of_lt hab
        rw [ScoredMemberCompact.lt_iff hna hnb] at hab
        simp only [decide_eq_true_eq] at hb ⊢
        rw [Binary64.not_lt hmax hnb, Binary64.le_iff hnb hmax] at hb
        rw [Binary64.not_lt hmax hna, Binary64.le_iff hna hmax]
        omega
    rw [if_neg (by rw [hcount]; simp), hgeq, List.filter_append, hleft, List.nil_append, ← hright]
    by_cases hL₂ : L₂ = []
    · rw [hnil hL₂, hL₂]
      rfl
    · have hends := hcons hL₂
      have hwalk := scoreWalk_spec max f s hends (Nat.le_add_right _ _)
      rw [List.drop_left] at hwalk
      cases path with
      | nil => exact hends.elim
      | cons rec rest => exact hwalk

/-- `GetRangeByScore` and `CountRange` pick the scores in the range. -/
theorem Ascends.scoreRange (h : Ascends hash z asc) (hz : InStep hash z)
    (hsmall : asc.length < 2 ^ 32) (hnum : ∀ p ∈ asc, p.2.isNaN = false) {min max : Binary64}
    (hmin : min.isNaN = false) (hmax : max.isNaN = false) :
    z.getRangeByScore min max true = some (asc.filter fun p => within min max p.2) ∧
    ∃ count, z.countRange min max = some count ∧
      count.toNat = (asc.filter fun p => within min max p.2).length := by
  have hkeys : ∀ e ∈ z.orderedSet.inOrder, e.score.isNaN = false := by
    intro e he
    rw [h.keys] at he
    obtain ⟨p, hp, rfl⟩ := List.mem_map.mp he
    exact hnum p hp
  have hlen : z.orderedSet.inOrder.length < 2 ^ 32 := by
    rw [h.keys, List.length_map]
    exact hsmall
  have hfilter : (z.orderedSet.inOrder.filter fun e => within min max e.score) =
      (asc.filter fun p => within min max p.2).map (keyOf hash) := by
    rw [h.keys, List.filter_map]
    rfl
  have hsub : ∀ p ∈ asc.filter fun p => within min max p.2, p ∈ asc :=
    fun p hp => (List.mem_filter.mp hp).1
  have hle := (List.length_filter_le (fun p : M × Binary64 => within min max p.2) asc)
  unfold ZSetBPlus.getRangeByScore ZSetBPlus.countRange
  rw [hz.walkRange hkeys hlen hmin hmax, hz.walkRange hkeys hlen hmin hmax, hfilter]
  generalize (asc.filter fun p => within min max p.2) = ps at hsub hle
  constructor
  · suffices hall : ∀ acc, (ps.map (keyOf hash)).foldl
        (fun result elem => result ++ z.rangeEntry true elem) acc = acc ++ ps by
      exact congrArg some ((hall []).trans (List.nil_append ps))
    induction ps with
    | nil => simp
    | cons p ps ih =>
        intro acc
        rw [List.map_cons, List.foldl_cons, h.rangeEntry hz (hsub p List.mem_cons_self),
          ih (fun q hq => hsub q (List.mem_cons_of_mem p hq)) (by simp at hle; omega),
          List.append_assoc, List.singleton_append]
  · refine ⟨_, rfl, ?_⟩
    suffices hall : ∀ count : UInt64, (ps.map (keyOf hash)).foldl (fun count _ => count + 1) count =
        count + UInt64.ofNat ps.length by
      rw [hall, UInt64.zero_add]
      exact UInt64.toNat_ofNat_of_lt' (by show ps.length < 2 ^ 64; omega)
    clear hsub hle
    induction ps with
    | nil => simp
    | cons p ps ih =>
        intro count
        rw [List.map_cons, List.foldl_cons, ih, List.length_cons, UInt64.ofNat_add]
        grind

end ZSetBPlus

end AstraKV
