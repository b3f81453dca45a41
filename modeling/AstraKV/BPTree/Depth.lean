import AstraKV.BPTree.ClearHeap

/-!
# AstraKV.BPTree.Depth

The path array has room for 16 records, and only an assert stands in front
of its end.

The operations on paths again, with the asserts of `Push`: there is no
result when one fails.  A node below the root has at least five children or
seven keys, so 16 levels hold any tree whose keys can be counted in 32
bits.

The bound is an induction on the height: below the root a subtree of height
`h` holds at least `8 * 5 ^ h` keys less one, so a root of height 14 would
have more than 2^32 keys. Each operation on paths is then shown to give the
result of its plain version as long as the path lies in such a tree. `Rests`
says that it does: the path points to a key, or has run past either end.
-/

universe u v

namespace AstraKV

open Weave Cut BPTreeNode

/-! ## paths with their asserts -/

namespace BPTreePath

variable {α : Type u}

def kMaxDepth : Nat := 16

/-- `Push`: the array has room, and the path does not end in a leaf. -/
def push? (r : PathRecord α) (path : BPTreePath α) : Option (BPTreePath α) :=
  if path.length < kMaxDepth ∧ ∀ last ∈ path.head?, last.node.isLeaf = false then
    some (r :: path)
  else none

def digLeft? : BPTreeNode α → BPTreePath α → Option (BPTreePath α)
  | ⟨leaf, ks, [], cnt⟩, path => push? ⟨⟨leaf, ks, [], cnt⟩, 0⟩ path
  | ⟨leaf, ks, c :: cs, cnt⟩, path =>
      (push? ⟨⟨leaf, ks, c :: cs, cnt⟩, 0⟩ path).bind fun path =>
        if leaf then some path else digLeft? c path

mutual
def digRightFrom? : BPTreeNode α → BPTreePath α → Option (BPTreePath α)
  | ⟨leaf, ks, cs, cnt⟩, path =>
      if leaf then push? ⟨⟨leaf, ks, cs, cnt⟩, ks.length - 1⟩ path
      else
        (push? ⟨⟨leaf, ks, cs, cnt⟩, ks.length⟩ path).bind fun path =>
          digRightIn? cs ks.length path

def digRightIn? : List (BPTreeNode α) → Nat → BPTreePath α → Option (BPTreePath α)
  | [], _, path => some path
  | c :: _, 0, path => digRightFrom? c path
  | _ :: cs, i + 1, path => digRightIn? cs i path
end

def digRight? (path : BPTreePath α) : Option (BPTreePath α) :=
  match path with
  | [] => some []
  | r :: rest => digRightFrom? (r.node.child r.pos) (r :: rest)

/-- `Next()`; only the way down pushes. -/
def next? : BPTreePath α → Option (Bool × BPTreePath α)
  | [] => some (false, [])
  | ⟨node, pos⟩ :: rest =>
      if node.isLeaf then some (next (⟨node, pos⟩ :: rest))
      else
        (digLeft? (node.child (pos + 1)) (⟨node, pos + 1⟩ :: rest)).map fun path => (true, path)

def prev? : BPTreePath α → Option (Bool × BPTreePath α)
  | [] => some (false, [])
  | ⟨node, pos⟩ :: rest =>
      if node.isLeaf then some (prev (⟨node, pos⟩ :: rest))
      else (digRight? (⟨node, pos⟩ :: rest)).map fun path => (true, path)

end BPTreePath

namespace BPTree

open BPTreePath

variable {α : Type u} [Inhabited α]

section Search

variable [LT α] [DecidableLT α]

mutual
def locate? (q : α) : BPTreeNode α → BPTreePath α → Option (Bool × BPTreePath α)
  | ⟨leaf, ks, cs, cnt⟩, path =>
      let res := bSearch ⟨leaf, ks, cs, cnt⟩ (compareTo q)
      (push? ⟨⟨leaf, ks, cs, cnt⟩, res.index⟩ path).bind fun path =>
        if res.found then some (true, path)
        else if leaf then some (false, path)
        else locateIn? q cs res.index path

def locateIn? (q : α) :
    List (BPTreeNode α) → Nat → BPTreePath α → Option (Bool × BPTreePath α)
  | [], _, path => some (false, path)
  | c :: _, 0, path => locate? q c path
  | _ :: cs, i + 1, path => locateIn? q cs i path
end

end Search

omit [Inhabited α] in
mutual
def toRankFrom? : BPTreeNode α → UInt32 → BPTreePath α → Option (BPTreePath α)
  | ⟨leaf, ks, cs, cnt⟩, rank, path =>
      if leaf then push? ⟨⟨leaf, ks, cs, cnt⟩, rank.toNat⟩ path
      else if rank = 0 then
        match cs with
        | [] => none
        | c :: _ => (push? ⟨⟨leaf, ks, cs, cnt⟩, 0⟩ path).bind fun path => toRankFrom? c rank path
      else toRankScan? ⟨leaf, ks, cs, cnt⟩ cs 0 rank path

def toRankScan? (node : BPTreeNode α) :
    List (BPTreeNode α) → Nat → UInt32 → BPTreePath α → Option (BPTreePath α)
  | [], _, _, _ => none
  | c :: cs, i, rank, path =>
      let subtreeCnt := c.treeCount
      if subtreeCnt > rank then
        (push? ⟨node, i⟩ path).bind fun path => toRankFrom? c rank path
      else
        let rank := rank - subtreeCnt
        if rank = 0 then push? ⟨node, i⟩ path
        else toRankScan? node cs (i + 1) (rank - 1) path
end

def fromRank? (t : BPTree α) (rank : UInt32) : Option (BPTreePath α) :=
  match t.root with
  | none => none
  | some root =>
      if rank + 1 = t.count then digRightFrom? root []
      else toRankFrom? root rank []

end BPTree

/-! ## how high a tree can be -/

namespace BPTreeNode

variable {α : Type u} {h : Nat} {n : BPTreeNode α}

/-- Children with `k - 1` keys each hold that many times their number. -/
theorem totalSize_ge {k : Nat} {cs : List (BPTreeNode α)}
    (hcs : ∀ c ∈ cs, k ≤ c.toList.length + 1) : cs.length * k ≤ totalSize cs + cs.length := by
  induction cs with
  | nil => simp
  | cons c cs ih =>
      have hc := hcs c List.mem_cons_self
      have hrest := ih fun d hd => hcs d (List.mem_cons_of_mem c hd)
      rw [List.length_cons, totalSize_cons, Nat.add_mul]
      omega

/-- With `k + 1` children of `8 * 5 ^ h - 1` keys or more. -/
theorem size_ge_of_children (hlen : n.children.length = n.keys.length + 1)
    (hcs : ∀ c ∈ n.children, 8 * 5 ^ h ≤ c.toList.length + 1) {k : Nat} (hk : k ≤ n.keys.length) :
    (k + 1) * (8 * 5 ^ h) ≤ n.toList.length + 1 := by
  have hsum := totalSize_ge hcs
  have hmul : (k + 1) * (8 * 5 ^ h) ≤ n.children.length * (8 * 5 ^ h) :=
    Nat.mul_le_mul_right _ (by omega)
  rw [length_toList]
  omega

/-- Seven keys in a leaf, and five children in an inner node. -/
theorem Good.size_ge (hn : Good h n) : 8 * 5 ^ h ≤ n.toList.length + 1 := by
  induction h generalizing n with
  | zero =>
      have hfill : 7 ≤ n.numItems := hn.fill_le
      have hnode : NodeOK (ChildOf 0) true 0 n := (sound_iff 0 n).mp hn.1
      unfold numItems at hfill
      rw [hnode.leaf_toList]
      omega
  | succ h ih =>
      have hfill : 4 ≤ n.numItems := hn.fill_le
      have hnode : NodeOK (Good h) false 0 n := hn.1
      have hsize := size_ge_of_children hnode.length_children
        (fun c hc => ih (hnode.child c hc)) hfill
      rw [Nat.pow_succ]
      omega

end BPTreeNode

namespace BPTreePath

variable {α : Type u} {H N h i : Nat} {L : List α} {n root : BPTreeNode α}
  {path rest : BPTreePath α}

/-- Fewer than `2 ^ 32` keys make at most 14 levels. -/
theorem TreeOf.height_le (htree : TreeOf H N L root) (hL : L.length < 2 ^ 32) : H ≤ 13 := by
  cases H with
  | zero => omega
  | succ H =>
      have hnode : NodeOK (Good H) false 0 root := htree.sound
      have hsize := size_ge_of_children hnode.length_children
        (fun c hc => (hnode.child c hc).size_ge) htree.pos
      rw [htree.toList] at hsize
      by_contra hhigh
      have hpow : 5 ^ 13 ≤ 5 ^ H := Nat.pow_le_pow_right (by decide) (by omega)
      omega

/-- A place in a tree has a root above it. -/
theorem Place.treeOf (hp : Place H N L h n path) : ∃ root, TreeOf H N L root := by
  induction path generalizing h n with
  | nil =>
      obtain rfl : h = H := hp.height
      refine ⟨n, hp.fitting.1, hp.pos, ?_, hp.nodes⟩
      have hlist := hp.toList
      rwa [before, after, List.nil_append, List.append_nil] at hlist
  | cons r path ih => exact ih hp.pop

/-- A tree of fewer than 2^32 keys has at most 14 levels. -/
theorem Place.height_le (hp : Place H N L h n path) (hL : L.length < 2 ^ 32) : H ≤ 13 := by
  obtain ⟨root, htree⟩ := hp.treeOf
  exact htree.height_le hL

/-! ## the asserts hold -/

/-- There is room for one more record. -/
theorem push?_place (hp : Place H N L h n rest) (hL : L.length < 2 ^ 32) (i : Nat) :
    push? ⟨n, i⟩ rest = some (⟨n, i⟩ :: rest) := by
  refine if_pos ⟨?_, ?_⟩
  · have hheight := hp.height
    have hle := hp.height_le hL
    unfold kMaxDepth
    omega
  · cases rest with
    | nil => simp
    | cons r rest =>
        rintro last ⟨⟩
        exact hp.frames.1.isLeaf

/-- Digging to the left never runs into the end of the array. -/
theorem digLeft?_place (hp : Place H N L h n path) (hL : L.length < 2 ^ 32) :
    digLeft? n path = some (digLeft n path) := by
  induction h generalizing n path with
  | zero =>
      have hpush := push?_place hp hL 0
      have hchildren := hp.nodeOK.children_nil
      obtain ⟨leaf, ks, cs, cnt⟩ := n
      obtain rfl : cs = [] := hchildren
      rw [digLeft?, digLeft, hpush]
  | succ h ih =>
      obtain ⟨c, hc⟩ := hp.exists_child (Nat.zero_le _)
      have hpush := push?_place hp hL 0
      have hdown := ih (hp.push hc)
      have hleaf := hp.isLeaf_succ
      obtain ⟨leaf, ks, cs, cnt⟩ := n
      cases cs with
      | nil => simp at hc
      | cons d cs =>
          obtain rfl : d = c := by simpa using hc
          obtain rfl : leaf = false := hleaf
          rw [digLeft?, digLeft, hpush, Option.bind_some]
          exact hdown

/-- Digging right through one child follows that child. -/
theorem digRightIn?_eq {cs : List (BPTreeNode α)}
    (hdown : ∀ c, cs[i]? = some c → digRightFrom? c path = some (digRightFrom c path)) :
    digRightIn? cs i path = some (digRightIn cs i path) := by
  induction cs generalizing i with
  | nil => rfl
  | cons c cs ih =>
      cases i with
      | zero => exact hdown c rfl
      | succ i => exact ih hdown

/-- Digging to the right never runs into the end of the array. -/
theorem digRightFrom?_place (hp : Place H N L h n path) (hL : L.length < 2 ^ 32) :
    digRightFrom? n path = some (digRightFrom n path) := by
  induction h generalizing n path with
  | zero =>
      have hpush := push?_place hp hL (n.keys.length - 1)
      have hleaf := hp.isLeaf_zero
      obtain ⟨leaf, ks, cs, cnt⟩ := n
      obtain rfl : leaf = true := hleaf
      rw [digRightFrom?, digRightFrom]
      exact hpush
  | succ h ih =>
      have hpush := push?_place hp hL n.keys.length
      have hdown := digRightIn?_eq (i := n.keys.length) fun c hc => ih (hp.push hc)
      have hleaf := hp.isLeaf_succ
      obtain ⟨leaf, ks, cs, cnt⟩ := n
      obtain rfl : leaf = false := hleaf
      rw [digRightFrom?, digRightFrom]
      simp only [Bool.false_eq_true, if_false]
      rw [hpush, Option.bind_some]
      exact hdown

/-- Digging to the right from a record never runs into the end of the array. -/
theorem digRight?_place (hp : Place H N L (h + 1) n rest) (hi : i ≤ n.numItems)
    (hL : L.length < 2 ^ 32) :
    digRight? (⟨n, i⟩ :: rest) = some (digRight (⟨n, i⟩ :: rest)) := by
  obtain ⟨c, hc⟩ := hp.exists_child hi
  rw [digRight?, digRight, child_eq hc]
  exact digRightFrom?_place (hp.push hc) hL

/-- The positions a caller can hold: before the end or past it, at a key, or at the end of a
leaf. -/
inductive Rests (L : List α) : BPTreePath α → Prop
  | nil : Rests L []
  | key {r : Nat} {path : BPTreePath α} (ends : EndsAt L r path) : Rests L path
  | gap {H N i : Nat} {n : BPTreeNode α} {rest : BPTreePath α} (place : Place H N L 0 n rest)
      (le : i ≤ n.numItems) : Rests L (⟨n, i⟩ :: rest)

/-- After a step forward the path rests again. -/
theorem EndsAt.rests_next {r : Nat} (hp : EndsAt L r path) : Rests L (next path).2 := by
  obtain ⟨hmore, hend⟩ := next_spec hp
  have hlt := hp.lt
  by_cases hlast : r + 1 = L.length
  · rw [hend hlast]
    exact .nil
  · exact .key (hmore (by omega)).2

/-- A step forward keeps the path at rest. -/
theorem Rests.next (hp : Rests L path) : Rests L (next path).2 := by
  cases hp with
  | nil => exact .nil
  | key hp => exact hp.rests_next
  | @gap H N i n rest place le =>
      by_cases hi : i < n.keys.length
      · have hends : EndsAt L (before rest ++ n.itemsTo i).length (⟨n, i⟩ :: rest) :=
          ⟨H, N, 0, place, hi, rfl⟩
        exact hends.rests_next
      · obtain ⟨hmore, hend⟩ := next_leaf place (i := i) (by unfold numItems; omega)
        have hsize := congrArg List.length place.toList
        rw [List.length_append] at hsize
        by_cases hlast : (before rest ++ n.toList).length = L.length
        · rw [hend hlast]
          exact .nil
        · exact .key (hmore (by omega)).2

/-- A step back from a place leaves the path at rest. -/
theorem Place.rests_prev (hp : Place H N L h n rest) (hi : i ≤ n.numItems) :
    Rests L (prev (⟨n, i⟩ :: rest)).2 := by
  obtain ⟨hmore, hend⟩ := prev_spec hp hi rfl
  by_cases hzero : (before rest ++ n.itemsTo i).length = 0
  · rw [hend hzero]
    exact .nil
  · exact .key (hmore (by omega)).2

/-- A step back keeps the path at rest. -/
theorem Rests.prev (hp : Rests L path) : Rests L (prev path).2 := by
  cases hp with
  | nil => exact .nil
  | key hp =>
      cases path with
      | nil => exact hp.elim
      | cons r rest =>
          obtain ⟨H, N, h, hplace, hi, -⟩ := hp
          exact hplace.rests_prev (Nat.le_of_lt hi)
  | gap place le => exact place.rests_prev le

/-- A path that ends at a separator ends in a node with children. -/
theorem Rests.inner (hp : Rests L (⟨n, i⟩ :: rest)) (hinner : n.isLeaf = false) :
    ∃ H N h, Place H N L (h + 1) n rest ∧ i < n.numItems := by
  cases hp with
  | key hp =>
      obtain ⟨H, N, h, hplace, hi, -⟩ := hp
      cases h with
      | zero => simp [hplace.isLeaf_zero] at hinner
      | succ h => exact ⟨H, N, h, hplace, hi⟩
  | gap place le => simp [place.isLeaf_zero] at hinner

theorem Rests.digRight (hp : Rests L path)
    (hinner : ∀ last ∈ path.head?, last.node.isLeaf = false) : Rests L (digRight path) := by
  cases path with
  | nil => exact .nil
  | cons r rest =>
      obtain ⟨n, i⟩ := r
      obtain ⟨H, N, h, hplace, hi⟩ := hp.inner (hinner _ rfl)
      obtain ⟨c, hc⟩ := hplace.exists_child (Nat.le_of_lt hi)
      rw [BPTreePath.digRight, child_eq hc]
      exact .key (digRight_endsAt (hplace.push hc)).2

/-- `Next` meets no assert. -/
theorem Rests.next?_eq (hp : Rests L path) (hL : L.length < 2 ^ 32) :
    next? path = some (BPTreePath.next path) := by
  cases path with
  | nil => rfl
  | cons r rest =>
      obtain ⟨n, i⟩ := r
      rw [next?]
      by_cases hleaf : n.isLeaf = true
      · rw [if_pos hleaf]
      · obtain ⟨H, N, h, hplace, hi⟩ := hp.inner (by simpa using hleaf)
        obtain ⟨c, hc⟩ := hplace.exists_child (i := i + 1) hi
        rw [if_neg hleaf, child_eq hc, digLeft?_place (hplace.push hc) hL, BPTreePath.next,
          if_neg hleaf, child_eq hc]
        rfl

/-- `DigRight` meets no assert. -/
theorem Rests.digRight?_eq (hp : Rests L path) (hL : L.length < 2 ^ 32)
    (hinner : ∀ last ∈ path.head?, last.node.isLeaf = false) :
    digRight? path = some (BPTreePath.digRight path) := by
  cases path with
  | nil => rfl
  | cons r rest =>
      obtain ⟨n, i⟩ := r
      obtain ⟨H, N, h, hplace, hi⟩ := hp.inner (hinner _ rfl)
      exact digRight?_place hplace (Nat.le_of_lt hi) hL

/-- `Prev` meets no assert. -/
theorem Rests.prev?_eq (hp : Rests L path) (hL : L.length < 2 ^ 32) :
    prev? path = some (BPTreePath.prev path) := by
  cases path with
  | nil => rfl
  | cons r rest =>
      obtain ⟨n, i⟩ := r
      rw [prev?]
      by_cases hleaf : n.isLeaf = true
      · rw [if_pos hleaf]
      · have hinner : ∀ last ∈ (⟨n, i⟩ :: rest : BPTreePath α).head?, last.node.isLeaf = false := by
          rintro last ⟨⟩
          simpa using hleaf
        rw [if_neg hleaf, hp.digRight?_eq hL hinner, BPTreePath.prev, if_neg hleaf]
        rfl

end BPTreePath

namespace BPTree

open BPTreePath

section

variable {α : Type u} {H N h i : Nat} {L : List α} {n : BPTreeNode α} {path : BPTreePath α}

/-- The scan over the children of one node meets none if the recursion does not. -/
theorem toRankScan?_eq (hp : Place H N L (h + 1) n path) (hL : L.length < 2 ^ 32)
    (hdown : ∀ {c : BPTreeNode α} {path : BPTreePath α} (rank : UInt32), Place H N L h c path →
      toRankFrom? c rank path = toRankFrom c rank path)
    {cs : List (BPTreeNode α)} (hcs : n.children.drop i = cs) (rank : UInt32) :
    toRankScan? n cs i rank path = toRankScan n cs i rank path := by
  induction cs generalizing i rank with
  | nil => rfl
  | cons c cs ih =>
      have hc : n.children[i]? = some c := by
        rw [← List.head?_drop, hcs]
        rfl
      have hnext : n.children.drop (i + 1) = cs := by
        rw [← List.drop_drop, hcs]
        rfl
      have hpush := push?_place hp hL i
      rw [toRankScan?, toRankScan, hpush, Option.bind_some, hdown rank (hp.push hc)]
      simp only [ih hnext]

/-- Going down to a rank meets no assert. -/
theorem toRankFrom?_eq (hp : Place H N L h n path) (hL : L.length < 2 ^ 32) (rank : UInt32) :
    toRankFrom? n rank path = toRankFrom n rank path := by
  induction h generalizing n path rank with
  | zero =>
      have hpush := push?_place hp hL rank.toNat
      have hleaf := hp.isLeaf_zero
      obtain ⟨leaf, ks, cs, cnt⟩ := n
      obtain rfl : leaf = true := hleaf
      unfold toRankFrom? toRankFrom
      rw [if_pos rfl, if_pos rfl]
      exact hpush
  | succ h ih =>
      obtain ⟨c, hc⟩ := hp.exists_child (Nat.zero_le _)
      have hpush := push?_place hp hL 0
      have hfirst := ih (hp.push hc) rank
      have hscan := toRankScan?_eq (i := 0) hp hL (fun rank hp' => ih hp' rank) rfl rank
      have hleaf := hp.isLeaf_succ
      obtain ⟨leaf, ks, cs, cnt⟩ := n
      cases cs with
      | nil => simp at hc
      | cons d cs =>
          obtain rfl : d = c := by simpa using hc
          obtain rfl : leaf = false := hleaf
          rw [List.drop_zero] at hscan
          dsimp only at hscan
          unfold toRankFrom? toRankFrom
          rw [if_neg Bool.false_ne_true, if_neg Bool.false_ne_true]
          dsimp only
          rw [hscan, hpush, Option.bind_some, hfirst]

variable [Inhabited α] [LT α] [DecidableLT α] {q : α}

/-- Locating in one child follows that child. -/
theorem locateIn?_eq {cs : List (BPTreeNode α)}
    (hdown : ∀ c, cs[i]? = some c → locate? q c path = some (locate q c path)) :
    locateIn? q cs i path = some (locateIn q cs i path) := by
  induction cs generalizing i with
  | nil => rfl
  | cons c cs ih =>
      cases i with
      | zero => exact hdown c rfl
      | succ i => exact ih hdown

/-- `Locate` meets no assert. -/
theorem locate?_place (hp : Place H N L h n path) (hL : L.length < 2 ^ 32) :
    locate? q n path = some (locate q n path) := by
  induction h generalizing n path with
  | zero =>
      have hpush := push?_place hp hL (n.bSearch (compareTo q)).index
      have hleaf := hp.isLeaf_zero
      obtain ⟨leaf, ks, cs, cnt⟩ := n
      obtain rfl : leaf = true := hleaf
      rw [locate?, locate]
      rw [hpush, Option.bind_some]
      split <;> rfl
  | succ h ih =>
      have hpush := push?_place hp hL (n.bSearch (compareTo q)).index
      have hdown := locateIn?_eq (i := (n.bSearch (compareTo q)).index) fun c hc =>
        ih (hp.push hc)
      have hleaf := hp.isLeaf_succ
      obtain ⟨leaf, ks, cs, cnt⟩ := n
      obtain rfl : leaf = false := hleaf
      rw [locate?, locate]
      rw [hpush, Option.bind_some]
      split
      · rfl
      · exact hdown

end

section

variable {α : Type u} [LinearOrder α] [Inhabited α] {t : BPTree α} {path : BPTreePath α}

/-- The paths that come out of the operations of `t`: looked up, and moved from there. -/
inductive Walked (t : BPTree α) : BPTreePath α → Prop
  | locate {root : BPTreeNode α} (hroot : t.root = some root) (q : α) :
      Walked t (locate q root []).2
  | toRank {rank : UInt32} {path : BPTreePath α} (hrank : rank < t.count)
      (hpath : fromRank t rank = some path) : Walked t path
  | next {path : BPTreePath α} (hpath : Walked t path) : Walked t (next path).2
  | prev {path : BPTreePath α} (hpath : Walked t path) : Walked t (prev path).2
  | digRight {path : BPTreePath α} (hpath : Walked t path)
      (hinner : ∀ last ∈ path.head?, last.node.isLeaf = false) : Walked t (digRight path)

omit [Inhabited α] in
/-- A rank below the count is an index of the tree's list. -/
theorem Represents.lt_length {s : Finset α} (h : Represents t s) (hsmall : s.card < 2 ^ 32)
    {rank : UInt32} (hrank : rank < t.count) : rank.toNat < t.inOrder.length := by
  have hcount := h.size_eq hsmall
  have hlt := UInt32.lt_iff_toNat_lt.mp hrank
  rwa [← h.card, ← hcount]

/-- Every path a caller can come by is at rest. -/
theorem Walked.rests {s : Finset α} (h : Represents t s) (hsmall : s.card < 2 ^ 32)
    (hpath : Walked t path) : Rests t.inOrder path := by
  induction hpath with
  | @locate root hroot q =>
      obtain ⟨H, N, htree, -⟩ := h.holds.treeOf hroot
      have hloc := locate_root (h.cuts q) htree
      generalize BPTree.locate q root [] = res at hloc
      cases hloc with
      | found place lt equiv => exact .key ⟨H, N, _, place, lt, rfl⟩
      | missed place falls sides => exact .gap place falls.le
  | toRank hrank hpath =>
      have hL : t.inOrder.length < 2 ^ 32 := by rwa [← h.card]
      obtain ⟨path', hpath', hends⟩ := fromRank_spec h.holds hL _ (h.lt_length hsmall hrank)
      rw [hpath] at hpath'
      obtain rfl := Option.some.inj hpath'
      exact .key hends
  | next _ ih => exact ih.next
  | prev _ ih => exact ih.prev
  | digRight _ hinner ih => exact ih.digRight hinner

omit [LinearOrder α] [Inhabited α] in
/-- `FromRank` meets no assert. -/
theorem fromRank?_eq {L : List α} (hT : Holds t L) (hL : L.length < 2 ^ 32) (rank : UInt32) :
    fromRank? t rank = fromRank t rank := by
  unfold fromRank? fromRank
  obtain ⟨hroot, -⟩ | ⟨root, H, N, hroot, htree, -⟩ := hT.shape
  · rw [hroot]
  · rw [hroot]
    dsimp only
    rw [digRightFrom?_place htree.place hL, toRankFrom?_eq htree.place hL]

/-- While a tree has fewer than `2 ^ 32` keys no operation pushes past the end of the path. -/
theorem pushes_fit (ops : List (BPTreeOp α)) (hsmall : (members ops).card < 2 ^ 32) :
    (reach ops).height.toNat ≤ kMaxDepth ∧
    (∀ rank < (reach ops).count, ∃ path, fromRank? (reach ops) rank = some path ∧
      fromRank (reach ops) rank = some path) ∧
    (∀ path, Walked (reach ops) path →
      next? path = some (next path) ∧ prev? path = some (prev path) ∧
      ((∀ last ∈ path.head?, last.node.isLeaf = false) →
        digRight? path = some (digRight path))) ∧
    ∀ root, (reach ops).root = some root →
      (∀ d ∈ root.leafDepths, d ≤ kMaxDepth) ∧
      (∀ q, locate? q root [] = some (locate q root [])) ∧
      ∀ (ι : Type v) [DecidableEq ι] (block : ι → Option (BPTreeBlock ι α))
        (l : Layout block root) fuel, root.nodes ≤ fuel →
        ∃ s, ((reach ops).onHeap l).clear (some kMaxDepth) fuel = some s := by
  have hrep := reach_represents ops
  have hL : (reach ops).inOrder.length < 2 ^ 32 := by rwa [← hrep.card]
  refine ⟨?_, fun rank hrank => ?_, fun path hpath => ?_, fun root hroot => ?_⟩
  · obtain ⟨-, -, hheight, -⟩ | ⟨root, H, N, -, htree, hheight, -⟩ := hrep.holds.shape
    · rw [hheight]
      decide
    · have hle := htree.height_le hL
      rw [hheight, UInt32.toNat_ofNat_of_lt' (by show H + 1 < 2 ^ 32; omega)]
      unfold kMaxDepth
      omega
  · obtain ⟨path, hpath, -⟩ := fromRank_spec hrep.holds hL rank (hrep.lt_length hsmall hrank)
    exact ⟨path, (fromRank?_eq hrep.holds hL rank).trans hpath, hpath⟩
  · have hrests := hpath.rests hrep hsmall
    exact ⟨hrests.next?_eq hL, hrests.prev?_eq hL, hrests.digRight?_eq hL⟩
  · obtain ⟨H, N, htree, -⟩ := hrep.holds.treeOf hroot
    have hle := htree.height_le hL
    refine ⟨fun d hd => ?_, fun q => locate?_place htree.place hL,
      fun ι _ block l fuel hfuel => ?_⟩
    · rw [htree.sound.leafDepths.2 d hd]
      unfold kMaxDepth
      omega
    · exact ⟨_, clear_layout (reach ops) htree l (by simp [kMaxDepth]; omega) hfuel⟩

theorem pushes_fit_two_hundred :
    (reach (fillTo 200)).height.toNat ≤ kMaxDepth ∧
      ∃ path, fromRank? (reach (fillTo 200)) 100 = some path ∧
        next? path = some (next path) := by
  have hsmall : (members (fillTo 200)).card < 2 ^ 32 := by
    rw [members_fillTo, Finset.card_range]
    decide
  obtain ⟨hheight, hrank, hwalk, -⟩ := pushes_fit.{0, 0} (fillTo 200) hsmall
  obtain ⟨path, hchecked, hpath⟩ := hrank 100 (by decide +kernel)
  exact ⟨hheight, path, hchecked, (hwalk path (.toRank (by decide +kernel) hpath)).1⟩

end

end BPTree

end AstraKV
