import AstraKV.BPTree.Spine
import AstraKV.Lib.Cut

/-!
# AstraKV.BPTree.Search

`BSearch` in one node and `Locate` through the tree.

A path into a sound tree is a `Place`: the node it ends at, with the
frames above it, spells out the list of the whole tree.  `Locate` walks
from place to place, and on the way keeps the query between the keys
before and after the hole.

`Cuts q L` is all that the search needs of the order: the keys of `L` split
into those below `q`, at most one that compares equal, and those above. It
holds in a sorted list, and it also holds of the pairs of scores and hashes
that are not linearly ordered, where two keys may compare equal without being
so. `Located` says where `Locate` has ended: at the key, or at the gap in a
leaf where it would go.
-/

universe u

namespace AstraKV

open Weave Cut BPTreeNode

variable {α : Type u} [LT α] [DecidableLT α] {q : α}

/-! ## comparing -/

/-- Comparing equal means smaller neither way. -/
theorem compareTo_eq_zero {a b : α} : compareTo a b = 0 ↔ ¬ a < b ∧ ¬ b < a := by
  unfold compareTo
  grind

/-- Comparing below is being smaller. -/
theorem compareTo_neg {a b : α} : compareTo a b < 0 ↔ a < b := by
  unfold compareTo
  grind

/-! ## BSearch -/

/-- What a search result says about the keys: the key equivalent to `q`, or the
place where `q` falls. -/
def SearchResult.Correct (q : α) (ks : List α) (res : SearchResult) : Prop :=
  if res.found then ∃ h : res.index < ks.length, ¬ q < ks[res.index] ∧ ¬ ks[res.index] < q
  else Falls q ks res.index

namespace BPTreeNode

/-- The loop keeps everything left of its interval below and everything right of it above.
-/
theorem bSearchLoop_spec [Inhabited α] {ks : List α} (hcuts : Cuts q ks) {span lo hi : Nat}
    (hspan : hi - lo ≤ span) (hlo : lo ≤ hi) (hhi : hi ≤ ks.length)
    (hbelow : ∀ x ∈ ks.take lo, x < q) (habove : ∀ y ∈ ks.drop hi, q < y) :
    SearchResult.Correct q ks (bSearchLoop ks (compareTo q) span lo hi) := by
  induction span generalizing lo hi with
  | zero =>
      obtain rfl : lo = hi := by omega
      exact ⟨hhi, hbelow, habove⟩
  | succ span ih =>
      unfold bSearchLoop
      by_cases hlt : lo < hi
      · have hmid : (lo + hi) / 2 < ks.length := by omega
        have hkey : ks.getD ((lo + hi) / 2) default = ks[(lo + hi) / 2] := by simp [hmid]
        simp only [hlt, if_true, hkey]
        by_cases hzero : compareTo q ks[(lo + hi) / 2] = 0
        · rw [if_pos hzero]
          exact ⟨hmid, compareTo_eq_zero.mp hzero⟩
        · rw [if_neg hzero]
          by_cases hneg : compareTo q ks[(lo + hi) / 2] < 0
          · rw [if_pos hneg]
            exact ih (by omega) (by omega) (by omega) hbelow
              (hcuts.drop_self_gt hmid (compareTo_neg.mp hneg))
          · rw [if_neg hneg]
            have hk : ks[(lo + hi) / 2] < q := by
              rw [compareTo_neg] at hneg
              rw [compareTo_eq_zero] at hzero
              grind
            exact ih (by omega) (by omega) hhi (hcuts.take_succ_lt hmid hk) habove
      · rw [if_neg hlt]
        obtain rfl : lo = hi := by omega
        exact ⟨hhi, hbelow, habove⟩

/-- `BSearch` finds the key, or the place between its neighbours. -/
theorem bSearch_spec [Inhabited α] {n : BPTreeNode α} (hpos : 0 < n.numItems)
    (hcuts : Cuts q n.keys) : SearchResult.Correct q n.keys (n.bSearch (compareTo q)) := by
  have hlast : n.keys.length - 1 < n.keys.length := by
    unfold numItems at hpos
    omega
  have hkey : n.key (n.numItems - 1) = n.keys[n.keys.length - 1] := by
    simp [key, numItems, hlast]
  have hdrop : n.keys.drop (n.keys.length - 1 + 1) = [] := List.drop_of_length_le (by omega)
  unfold bSearch
  simp only [hkey]
  by_cases hneg : compareTo q n.keys[n.keys.length - 1] < 0
  · rw [if_neg (by omega)]
    exact bSearchLoop_spec hcuts (by omega) (by omega) (by unfold numItems; omega) (by simp)
      (hcuts.drop_self_gt hlast (compareTo_neg.mp hneg))
  · rw [if_pos (by omega)]
    rw [compareTo_neg] at hneg
    by_cases hzero : compareTo q n.keys[n.keys.length - 1] = 0
    · rw [if_neg (by omega)]
      exact ⟨hlast, compareTo_eq_zero.mp hzero⟩
    · rw [if_pos (by unfold compareTo at hzero ⊢; grind)]
      rw [compareTo_eq_zero] at hzero
      have hk : n.keys[n.keys.length - 1] < q := by grind
      have hbelow := hcuts.take_succ_lt hlast hk
      refine ⟨Nat.le_refl _, ?_, ?_⟩
      · rw [numItems, List.take_length]
        rwa [List.take_of_length_le (by omega)] at hbelow
      · rw [numItems, List.drop_length]
        simp

end BPTreeNode

/-! ## Locate -/

namespace BPTreePath

/-- `q` lies between the keys before and after the hole. -/
structure Sides (q : α) (path : BPTreePath α) : Prop where
  below : ∀ x ∈ before path, x < q
  above : ∀ y ∈ after path, q < y

omit [DecidableLT α] in
/-- Going down next to where `q` falls keeps it in between. -/
theorem Sides.push {H N h : Nat} {L : List α} {n c : BPTreeNode α} {path : BPTreePath α} {i : Nat}
    (hs : Sides q path) (hcuts : Cuts q L) (hp : Place H N L (h + 1) n path)
    (hc : n.children[i]? = some c) (hfalls : Falls q n.keys i) :
    Sides q (⟨n, i⟩ :: path) := by
  have hpush := hp.push hc
  have hlen := hp.nodeOK.length_children
  have hle := hfalls.le
  have hL := hpush.toList
  constructor
  · cases i with
    | zero =>
        intro x hx
        simp only [before, PathRecord.before, List.take_zero, List.map_nil, headWeave_nil,
          List.append_nil] at hx
        exact hs.below x hx
    | succ i =>
        -- the keys before the hole end with key `i`, which is below `q`
        have hi : i < n.keys.length := by omega
        have hci : i < n.children.length := by omega
        obtain ⟨Y, hY⟩ : ∃ Y, before (⟨n, i + 1⟩ :: path) = Y ++ [n.keys[i]] := by
          refine ⟨before path ++ (headWeave ((n.children.take i).map toList) (n.keys.take i) ++
            (n.children[i]).toList), ?_⟩
          rw [before, PathRecord.before, ← List.take_append_getElem hi,
            ← List.take_append_getElem hci, List.map_append, headWeave_append _ _ _ _ (by
              simp only [List.length_map, List.length_take]; omega)]
          simp
        have hki : n.keys[i] < q := by
          refine hfalls.below _ ?_
          rw [← List.take_append_getElem hi]
          exact List.mem_append_right _ List.mem_cons_self
        rw [hY, List.append_assoc, List.append_assoc, List.singleton_append] at hL
        rw [← hL] at hcuts
        have hlt := hcuts.lt_left fun hq => hcuts.asymm _ (by simp) hq hki
        intro x hx
        rw [hY, List.mem_append, List.mem_singleton] at hx
        cases hx with
        | inl hx => exact hlt x hx
        | inr hx => rwa [hx]
  · by_cases hi : i < n.keys.length
    · -- the keys after the hole start with key `i`, which is above `q`
      obtain ⟨Y, hY⟩ : ∃ Y, after (⟨n, i⟩ :: path) = n.keys[i] :: Y := by
        have hci : i + 1 < n.children.length := by omega
        refine ⟨(n.children[i + 1]).toList ++ tailWeave (n.keys.drop (i + 1))
          ((n.children.drop (i + 1 + 1)).map toList) ++ after path, ?_⟩
        rw [after, PathRecord.after, List.drop_eq_getElem_cons hi,
          List.drop_eq_getElem_cons hci, List.map_cons, tailWeave_cons]
        simp
      have hki : q < n.keys[i] := by
        refine hfalls.above _ ?_
        rw [List.drop_eq_getElem_cons hi]
        exact List.mem_cons_self
      rw [hY] at hL
      rw [← hL] at hcuts
      have hgt := hcuts.gt_right (hcuts.asymm _ (by simp) hki)
      intro y hy
      rw [hY, List.mem_cons] at hy
      cases hy with
      | inl hy => rwa [hy]
      | inr hy => exact hgt y hy
    · intro y hy
      have hkeys : n.keys.drop i = [] := List.drop_of_length_le (by omega)
      have hchildren : n.children.drop (i + 1) = [] := List.drop_of_length_le (by omega)
      simp only [after, PathRecord.after, hkeys, hchildren, List.map_nil, tailWeave_nil,
        List.nil_append] at hy
      exact hs.above y hy

/-- What `Locate` can answer in a tree that reads `L`: a key equivalent to `q`, or the
position in a leaf where `q` falls. -/
inductive Located (q : α) (H N : Nat) (L : List α) : Bool × BPTreePath α → Prop
  | found {h : Nat} {m : BPTreeNode α} {i : Nat} {rest : BPTreePath α}
      (place : Place H N L h m rest) (lt : i < m.keys.length)
      (equiv : ¬ q < m.keys[i] ∧ ¬ m.keys[i] < q) : Located q H N L (true, ⟨m, i⟩ :: rest)
  | missed {m : BPTreeNode α} {i : Nat} {rest : BPTreePath α}
      (place : Place H N L 0 m rest) (falls : Falls q m.keys i) (sides : Sides q rest) :
      Located q H N L (false, ⟨m, i⟩ :: rest)

omit [DecidableLT α] in
/-- The list of the whole tree, cut where `q` falls into a leaf. -/
theorem Place.gap {H N : Nat} {L : List α} {leaf : BPTreeNode α} {pos : Nat}
    {rest : BPTreePath α} (hp : Place H N L 0 leaf rest) (hfalls : Falls q leaf.keys pos)
    (hs : Sides q rest) :
    L = (before rest ++ leaf.itemsTo pos) ++ (leaf.itemsFrom pos ++ after rest) ∧
    (∀ x ∈ before rest ++ leaf.itemsTo pos, x < q) ∧
    (∀ y ∈ leaf.itemsFrom pos ++ after rest, q < y) := by
  have hitems := hp.nodeOK.itemsTo_append (i := pos) hfalls.le
  have hto := hp.nodeOK.leaf_itemsTo pos
  have hfrom := hp.nodeOK.leaf_itemsFrom pos
  refine ⟨?_, fun x hx => ?_, fun y hy => ?_⟩
  · rw [← hp.toList, ← hitems]
    simp only [List.append_assoc]
  · rw [hto, List.mem_append] at hx
    cases hx with
    | inl hx => exact hs.below x hx
    | inr hx => exact hfalls.below x hx
  · rw [hfrom, List.mem_append] at hy
    cases hy with
    | inl hy => exact hfalls.above y hy
    | inr hy => exact hs.above y hy

end BPTreePath

namespace BPTree

open BPTreePath

variable [Inhabited α]

/-- Locating among the children follows the child of that index. -/
theorem locateIn_eq {cs : List (BPTreeNode α)} {i : Nat} {c : BPTreeNode α}
    (hc : cs[i]? = some c) (path : BPTreePath α) : locateIn q cs i path = locate q c path := by
  induction cs generalizing i with
  | nil => simp at hc
  | cons d cs ih =>
      cases i with
      | zero =>
          obtain rfl : d = c := by simpa using hc
          rw [locateIn]
      | succ i => rw [locateIn, ih (by simpa using hc)]

/-- One step of `Locate`: stop at the key or in a leaf, or go down. -/
theorem locate_eq (n : BPTreeNode α) (path : BPTreePath α) :
    locate q n path =
      let res := n.bSearch (compareTo q)
      if res.found then (true, ⟨n, res.index⟩ :: path)
      else if n.isLeaf then (false, ⟨n, res.index⟩ :: path)
      else locateIn q n.children res.index (⟨n, res.index⟩ :: path) := by
  obtain ⟨leaf, ks, cs, cnt⟩ := n
  rw [locate]

/-- From a place whose sides fit the query `Locate` ends correctly. -/
theorem locate_spec {H N h : Nat} {L : List α} {n : BPTreeNode α} {path : BPTreePath α}
    (hcuts : Cuts q L) (hp : Place H N L h n path) (hs : Sides q path) :
    Located q H N L (locate q n path) := by
  induction h generalizing n path with
  | zero =>
      have hres := bSearch_spec hp.pos (hcuts.sublist hp.keys_sublist)
      rw [locate_eq, hp.isLeaf]
      unfold SearchResult.Correct at hres
      by_cases hfound : (n.bSearch (compareTo q)).found = true
      · simp only [hfound, if_true] at hres ⊢
        obtain ⟨hlt, hequiv⟩ := hres
        exact .found hp hlt hequiv
      · simp only [hfound, Bool.false_eq_true, if_false] at hres ⊢
        exact .missed hp hres hs
  | succ h ih =>
      have hres := bSearch_spec hp.pos (hcuts.sublist hp.keys_sublist)
      rw [locate_eq, hp.isLeaf]
      unfold SearchResult.Correct at hres
      by_cases hfound : (n.bSearch (compareTo q)).found = true
      · simp only [hfound, if_true] at hres ⊢
        obtain ⟨hlt, hequiv⟩ := hres
        exact .found hp hlt hequiv
      · simp only [hfound, Bool.false_eq_true, if_false] at hres ⊢
        obtain ⟨c, hc⟩ := hp.exists_child hres.le
        rw [if_neg (by simp), locateIn_eq hc]
        exact ih (hp.push hc) (hs.push hcuts hp hc hres)

end BPTree

/-! ## what a tree stores -/

namespace BPTree

open BPTreePath

section Stored

variable {α : Type u}

/-- `t` has a root that reads `L`, and its height and node counters are right. -/
def Shaped (t : BPTree α) (L : List α) : Prop :=
  ∃ root H N, t.root = some root ∧ TreeOf H N L root ∧
    t.height = UInt32.ofNat (H + 1) ∧ t.numNodes = UInt32.ofNat N

/-- A tree may change hands: only its root and the two counters matter. -/
theorem Shaped.of_tree {t : BPTree α} {L : List α} {root : BPTreeNode α} {H N : Nat}
    (hroot : t.root = some root) (htree : TreeOf H N L root)
    (hheight : t.height = UInt32.ofNat (H + 1)) (hnodes : t.numNodes = UInt32.ofNat N) :
    Shaped t L := ⟨root, H, N, hroot, htree, hheight, hnodes⟩

/-- `Shaped`, or the empty tree. -/
def Stored (t : BPTree α) (L : List α) : Prop :=
  t.root = none ∧ L = [] ∧ t.height = 0 ∧ t.numNodes = 0 ∨ Shaped t L

/-- `t` stores the keys `L` in order, and all its counters are right modulo `2 ^ 32`. -/
structure Holds (t : BPTree α) (L : List α) : Prop where
  shape : Stored t L
  count : t.count = UInt32.ofNat L.length

/-- A new tree holds the empty list. -/
theorem holds_empty : Holds (empty : BPTree α) [] := ⟨Or.inl ⟨rfl, rfl, rfl, rfl⟩, rfl⟩

/-- The keys of a tree in order. -/
def inOrder (t : BPTree α) : List α :=
  match t.root with
  | none => []
  | some root => root.toList

/-- The list a tree holds is its in-order reading. -/
theorem Holds.inOrder_eq {t : BPTree α} {L : List α} (hT : Holds t L) : t.inOrder = L := by
  unfold inOrder
  obtain ⟨hroot, rfl, -⟩ | ⟨root, H, N, hroot, htree, -⟩ := hT.shape
  · rw [hroot]
  · rw [hroot]
    exact htree.toList

end Stored

section Order

variable [Inhabited α] {t : BPTree α} {L : List α}

/-- From the root, where there are no sides yet, `Locate` ends correctly. -/
theorem locate_root {root : BPTreeNode α} {H N : Nat} (hcuts : Cuts q L)
    (htree : TreeOf H N L root) : Located q H N L (locate q root []) :=
  locate_spec hcuts htree.place ⟨by simp [before], by simp [after]⟩

/-- `Contains` on a tree with a root. -/
theorem contains_spec (hT : Holds t L) (hcuts : Cuts q L) (hne : L ≠ []) :
    (∃ k ∈ L, (¬ q < k ∧ ¬ k < q) ∧ t.contains q = some true) ∨
    ((∀ k ∈ L, k < q ∨ q < k) ∧ t.contains q = some false) := by
  unfold contains
  obtain ⟨-, rfl, -⟩ | ⟨root, H, N, hroot, htree, -⟩ := hT.shape
  · contradiction
  · have hloc := locate_root hcuts htree
    rw [hroot, Option.map_some]
    generalize locate q root [] = res at hloc
    cases hloc with
    | found place lt equiv =>
        obtain ⟨tail, hlist, -⟩ := place.around lt
        exact Or.inl ⟨_, by rw [hlist]; simp, equiv, rfl⟩
    | missed place falls sides =>
        obtain ⟨hlist, hbelow, habove⟩ := place.gap falls sides
        right
        refine ⟨fun k hk => ?_, rfl⟩
        rw [hlist, List.mem_append] at hk
        cases hk with
        | inl hk => exact Or.inl (hbelow k hk)
        | inr hk => exact Or.inr (habove k hk)

end Order

end BPTree

end AstraKV
