import AstraKV.BPTree.Search
import AstraKV.BPTree.Walk

/-!
# AstraKV.BPTree.Rank

Ranks: `Rank()` of a path from the cached counts along it, and `ToRank`
back from a rank to a path.

A rank is 32 bits wide, so going from ranks to paths is exact only for a
tree of fewer than `2 ^ 32` keys; the rank of a path is right modulo
`2 ^ 32` in any tree.

`Rank()` adds up, over the records of a path, the keys and the cached counts
to the left of the position. So the count of every node on the way enters
once, and an error anywhere in the tree would show here; with all counts right
the sum is the number of keys before the terminal one. `ToRank` reads the same
counts the other way, subtracting what it skips.
-/

universe u

namespace AstraKV

open Weave Cut BPTreeNode

variable {α : Type u}

namespace BPTreePath

variable {H N h i : Nat} {L : List α} {n m : BPTreeNode α} {path rest : BPTreePath α}

/-! ## from a path to its rank -/

/-- How many keys lie before a child. -/
theorem headWeave_length (cs : List (BPTreeNode α)) (ks : List α) (hlen : cs.length = ks.length) :
    (headWeave (cs.map toList) ks).length = totalSize cs + ks.length := by
  induction cs generalizing ks with
  | nil =>
      obtain rfl : ks = [] := List.length_eq_zero_iff.mp hlen.symm
      rfl
  | cons c cs ih =>
      cases ks with
      | nil => simp at hlen
      | cons k ks =>
          have ih' := ih ks (by simpa using hlen)
          rw [List.map_cons, headWeave_cons, List.length_append, List.length_cons, ih',
            totalSize_cons, List.length_cons]
          omega

/-- A record on the way counts the keys before its child. -/
theorem rankPart_frame {s : Nat} {r : PathRecord α} (hr : FrameOK (Good h) s r) :
    rankPart false r = UInt32.ofNat r.before.length := by
  have hlen := hr.length_children
  have hpos := hr.pos_le
  have hsum : sumTreeCounts (r.node.children.take r.pos) =
      UInt32.ofNat (totalSize (r.node.children.take r.pos)) :=
    sumTreeCounts_eq fun c hc => (hr.others c (List.mem_append_left _ hc)).1.counted
  unfold rankPart PathRecord.before
  rw [headWeave_length _ _ (by simp only [List.length_take]; omega), List.length_take,
    Nat.min_eq_left hpos]
  simp only [hr.isLeaf, Bool.false_eq_true, if_false, Nat.add_zero, hsum, UInt32.ofNat_add]

/-- The records above a node count the keys before it. -/
theorem rankSum_frames {s : Nat} (hframes : FramesOK h s path) :
    (path.map (rankPart false)).sum = UInt32.ofNat (before path).length := by
  induction path generalizing h s with
  | nil => rfl
  | cons r rest ih =>
      obtain ⟨hr, -, hrest⟩ := hframes
      rw [List.map_cons, List.sum_cons, rankPart_frame hr, ih hrest, before, List.length_append,
        ← UInt32.ofNat_add, Nat.add_comm]

/-- The last record counts the keys before its position. -/
theorem rankPart_last (hn : NodeOK (ChildOf h) (h == 0) 0 n) (hi : i ≤ n.keys.length) :
    rankPart true ⟨n, i⟩ = UInt32.ofNat (n.itemsTo i).length := by
  unfold rankPart
  cases h with
  | zero =>
      have hleaf : NodeOK (ChildOf 0) true 0 n := hn
      simp only [hleaf.isLeaf, if_true, hleaf.leaf_itemsTo, List.length_take,
        Nat.min_eq_left hi, UInt32.zero_add]
  | succ h =>
      have hinner : NodeOK (ChildOf (h + 1)) false 0 n := hn
      have hsum : sumTreeCounts (n.children.take (i + 1)) =
          UInt32.ofNat (totalSize (n.children.take (i + 1))) :=
        sumTreeCounts_eq fun c hc => (hinner.child c (List.mem_of_mem_take hc)).counted
      have hlength : (n.itemsTo i).length = totalSize (n.children.take (i + 1)) + i := by
        unfold itemsTo weaveTo
        rw [length_weave, ← List.map_take, List.map_map, List.length_take, Nat.min_eq_left hi,
          Nat.add_comm]
        rfl
      simp only [hinner.isLeaf, Bool.false_eq_true, if_false, if_true, hsum, hlength,
        UInt32.ofNat_add]

/-- `Rank()` counts the keys before the path's terminal key. -/
theorem rank_spec {r : Nat} {p : BPTreePath α} (hp : EndsAt L r p) : rank p = UInt32.ofNat r := by
  cases p with
  | nil => exact hp.elim
  | cons rec rest =>
      obtain ⟨node, pos⟩ := rec
      obtain ⟨H, N, h, hplace, hi, hr⟩ := hp
      rw [rank, rankPart_last hplace.nodeOK (Nat.le_of_lt hi), rankSum_frames hplace.frames,
        ← UInt32.ofNat_add, ← hr, List.length_append, Nat.add_comm]

end BPTreePath

/-! ## from a rank to its path -/

namespace BPTree

open BPTreePath

variable {H N h : Nat} {L : List α} {n : BPTreeNode α} {path : BPTreePath α}

/-- A place's size fits 32 bits when the tree's does. -/
theorem treeCount_toNat (hp : Place H N L h n path) (hL : L.length < 2 ^ 32) :
    n.treeCount.toNat = n.toList.length := by
  have hcount : n.treeCount = UInt32.ofNat n.toList.length := hp.fitting.1.counted
  have hlen := congrArg List.length hp.toList
  simp only [List.length_append] at hlen
  rw [hcount]
  exact UInt32.toNat_ofNat_of_lt' (by
    show n.toList.length < 2 ^ 32
    omega)

/-- A node of the tree holds a key. -/
theorem length_pos (hp : Place H N L h n path) : 0 < n.toList.length := by
  have hsub := (keys_sublist n).length_le
  have hpos := hp.pos
  unfold numItems at hpos
  omega

/-- The scan of one node, given that the way down from each child is right. -/
theorem toRankScan_spec (hp : Place H N L (h + 1) n path) (hL : L.length < 2 ^ 32)
    (hdown : ∀ {c : BPTreeNode α} {path : BPTreePath α} {rank : UInt32}, Place H N L h c path →
      rank.toNat < c.toList.length →
      ∃ p, toRankFrom c rank path = some p ∧ EndsAt L ((before path).length + rank.toNat) p)
    (i : Nat) (rank : UInt32)
    (hrank : (PathRecord.before ⟨n, i⟩).length + rank.toNat < n.toList.length)
    (hi : i ≤ n.keys.length) :
    ∃ p, toRankScan n (n.children.drop i) i rank path = some p ∧
      EndsAt L ((before path).length + (PathRecord.before ⟨n, i⟩).length + rank.toNat) p := by
  have hlen := hp.nodeOK.length_children
  obtain ⟨cs, hcs⟩ : ∃ cs, cs = n.children.drop i := ⟨_, rfl⟩
  rw [← hcs]
  induction cs generalizing i rank with
  | nil =>
      have hnil := congrArg List.length hcs
      rw [List.length_drop, List.length_nil] at hnil
      omega
  | cons c cs ih =>
      have hc : n.children[i]? = some c := by
        rw [← List.head?_drop, ← hcs]
        rfl
      have hcs' : cs = n.children.drop (i + 1) := by
        rw [← List.drop_drop, ← hcs]
        rfl
      have hpush := hp.push hc
      have hsize := treeCount_toNat hpush hL
      have hitems := hpush.itemsTo_pop
      have hlist := hpush.toList_pop
      dsimp only at hitems hlist
      unfold toRankScan
      dsimp only
      by_cases hinside : c.treeCount > rank
      · -- the rank lies in child `i`
        rw [if_pos hinside]
        have hlt : rank.toNat < c.toList.length := by
          rw [← hsize]
          exact UInt32.lt_iff_toNat_lt.mp hinside
        obtain ⟨p, hres, hends⟩ := hdown hpush hlt
        rw [before, List.length_append] at hends
        exact ⟨p, hres, hends⟩
      · rw [if_neg hinside]
        have hge : c.toList.length ≤ rank.toNat := by
          rw [← hsize]
          exact Nat.le_of_not_lt fun hlt => hinside (UInt32.lt_iff_toNat_lt.mpr hlt)
        have hsub : (rank - c.treeCount).toNat = rank.toNat - c.toList.length := by
          rw [UInt32.toNat_sub_of_le _ _ (UInt32.le_iff_toNat_le.mpr (by rw [hsize]; exact hge)),
            hsize]
        have hlt : i < n.keys.length := by
          -- after the last child there are no keys left
          by_contra hge'
          have hafter := after_last (i := i) (Nat.le_of_not_lt hge') hlen
          rw [hlist, hafter, List.append_nil, List.length_append] at hrank
          omega
        by_cases hzero : rank - c.treeCount = 0
        · rw [if_pos hzero]
          refine ⟨_, rfl, H, N, h + 1, hp, hlt, ?_⟩
          rw [hzero] at hsub
          rw [List.length_append, hitems, List.length_append]
          simp only [UInt32.toNat_zero] at hsub
          omega
        · rw [if_neg hzero]
          have hpos : rank.toNat - c.toList.length ≠ 0 := by
            intro h0
            refine hzero (UInt32.toNat.inj ?_)
            rw [hsub, h0]
            rfl
          have hone : (rank - c.treeCount - 1).toNat = rank.toNat - c.toList.length - 1 := by
            have hle : (1 : UInt32) ≤ rank - c.treeCount := by
              rw [UInt32.le_iff_toNat_le, hsub]
              exact Nat.one_le_iff_ne_zero.mpr hpos
            rw [UInt32.toNat_sub_of_le _ _ hle, hsub]
            rfl
          have hbefore : (PathRecord.before ⟨n, i + 1⟩).length =
              (PathRecord.before ⟨n, i⟩).length + c.toList.length + 1 := by
            rw [hp.nodeOK.before_succ hlt, hitems, List.length_append, List.length_append,
              List.length_singleton]
          obtain ⟨p, hres, hends⟩ := ih (i + 1) (rank - c.treeCount - 1)
            (by rw [hbefore, hone]; omega) hlt hcs'
          rw [hbefore, hone] at hends
          refine ⟨p, hres, ?_⟩
          have hsum : (before path).length +
              ((PathRecord.before ⟨n, i⟩).length + c.toList.length + 1) +
              (rank.toNat - c.toList.length - 1) =
              (before path).length + (PathRecord.before ⟨n, i⟩).length + rank.toNat := by omega
          rwa [hsum] at hends

/-- Going down to a rank ends at the key of that rank. -/
theorem toRankFrom_spec {rank : UInt32} (hL : L.length < 2 ^ 32) (hp : Place H N L h n path)
    (hrank : rank.toNat < n.toList.length) :
    ∃ p, toRankFrom n rank path = some p ∧ EndsAt L ((before path).length + rank.toNat) p := by
  induction h generalizing n path rank with
  | zero =>
      have hleaf := hp.isLeaf_zero
      have hto := hp.nodeOK.leaf_itemsTo rank.toNat
      rw [hp.nodeOK.leaf_toList] at hrank
      obtain ⟨leaf, ks, cs, cnt⟩ := n
      obtain rfl : leaf = true := hleaf
      unfold toRankFrom
      refine ⟨_, rfl, H, N, 0, hp, hrank, ?_⟩
      rw [hto, List.length_append, List.length_take, Nat.min_eq_left (Nat.le_of_lt hrank)]
  | succ h ih =>
      have hleaf := hp.isLeaf_succ
      obtain ⟨c, hc⟩ := hp.exists_child (Nat.zero_le _)
      have hpush := hp.push hc
      have hscan := toRankScan_spec hp hL (fun hp' hr => ih hp' hr) 0 rank
        (by rw [before_zero, List.length_nil, Nat.zero_add]; exact hrank) (Nat.zero_le _)
      obtain ⟨leaf, ks, cs, cnt⟩ := n
      obtain rfl : leaf = false := hleaf
      unfold toRankFrom
      rw [if_neg (by simp)]
      by_cases hzero : rank = 0
      · subst hzero
        rw [if_pos rfl]
        cases cs with
        | nil => simp at hc
        | cons d cs =>
            obtain rfl : d = c := by simpa using hc
            have hlt : (0 : UInt32).toNat < d.toList.length := length_pos hpush
            obtain ⟨p, hres, hends⟩ := ih hpush hlt
            rw [before, before_zero, List.append_nil] at hends
            exact ⟨p, hres, hends⟩
      · rw [if_neg hzero]
        rw [before_zero, List.length_nil, Nat.add_zero, List.drop_zero] at hscan
        exact hscan

/-- One less than the counter leads to the last key, whatever the size. -/
theorem fromRank_last {t : BPTree α} (hT : Holds t L) (hne : L ≠ []) (rank : UInt32)
    (hlast : rank + 1 = t.count) :
    ∃ p, fromRank t rank = some p ∧ EndsAt L (L.length - 1) p := by
  obtain ⟨-, rfl, -⟩ | ⟨root, H, N, hroot, htree, -⟩ := hT.shape
  · contradiction
  · obtain ⟨-, hends⟩ := digRight_endsAt htree.place
    rw [before, List.nil_append, htree.toList] at hends
    unfold fromRank
    rw [hroot]
    exact ⟨_, if_pos hlast, hends⟩

/-- `FromRank` finds the path to every rank of a tree whose size fits its counter. -/
theorem fromRank_spec {t : BPTree α} (hT : Holds t L) (hL : L.length < 2 ^ 32) (rank : UInt32)
    (hrank : rank.toNat < L.length) :
    ∃ p, fromRank t rank = some p ∧ EndsAt L rank.toNat p := by
  by_cases hlast : rank + 1 = t.count
  · have hnat := congrArg UInt32.toNat hlast
    rw [hT.count, UInt32.toNat_ofNat_of_lt' hL, UInt32.toNat_add,
      show (1 : UInt32).toNat = 1 from rfl, Nat.mod_eq_of_lt (by omega)] at hnat
    have hres := fromRank_last hT (List.ne_nil_of_length_pos (by omega)) rank hlast
    rwa [← hnat, Nat.add_sub_cancel] at hres
  · obtain ⟨-, rfl, -⟩ | ⟨root, H, N, hroot, htree, -⟩ := hT.shape
    · simp at hrank
    · obtain ⟨p, hres, hends⟩ := toRankFrom_spec hL htree.place (by rw [htree.toList]; exact hrank)
      rw [before, List.length_nil, Nat.zero_add] at hends
      unfold fromRank
      rw [hroot]
      exact ⟨p, (if_neg hlast).trans hres, hends⟩

/-! ## GetRank -/

section Order

variable [Inhabited α] [LT α] [DecidableLT α] {t : BPTree α} {item : α}

/-- The outcomes of asking for the rank of `item` in a tree that reads `L`. -/
theorem getRank_spec (hT : Holds t L) (hcuts : Cuts item L) (reverse : Bool) :
    (∃ L₁ k L₂, L = L₁ ++ k :: L₂ ∧ (¬ item < k ∧ ¬ k < item) ∧
      getRank t item reverse =
        some (if reverse then UInt32.ofNat L.length - UInt32.ofNat L₁.length - 1
          else UInt32.ofNat L₁.length)) ∨
    ((∀ k ∈ L, k < item ∨ item < k) ∧ getRank t item reverse = none) := by
  unfold getRank
  obtain ⟨hroot, rfl, -⟩ | ⟨root, H, N, hroot, htree, -⟩ := hT.shape
  · rw [hroot]
    exact Or.inr ⟨by simp, rfl⟩
  · have hloc := locate_root hcuts htree
    rw [hroot]
    dsimp only
    generalize locate item root [] = res at hloc
    cases hloc with
    | @found h m i rest place lt equiv =>
        obtain ⟨tail, hlist, -⟩ := place.around lt
        left
        have hends : EndsAt L (before rest ++ m.itemsTo i).length (⟨m, i⟩ :: rest) :=
          ⟨H, N, h, place, lt, rfl⟩
        refine ⟨_, _, _, hlist, equiv, ?_⟩
        dsimp only
        rw [rank_spec hends, hT.count]
    | @missed leaf pos rest place falls sides =>
        obtain ⟨hlist, hbelow, habove⟩ := place.gap falls sides
        right
        refine ⟨fun k hk => ?_, rfl⟩
        rw [hlist, List.mem_append] at hk
        cases hk with
        | inl hk => exact Or.inl (hbelow k hk)
        | inr hk => exact Or.inr (habove k hk)

end Order

end BPTree

end AstraKV
