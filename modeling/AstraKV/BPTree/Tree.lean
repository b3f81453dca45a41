import AstraKV.BPTree.Path

/-!
# AstraKV.BPTree.Tree

The tree itself (`BPTree` of `zset/bplustree.hpp`), for keys with an
`operator<` and a default constructor.

The three counters are the source's `uint32_t` fields.  Operations that
dereference the root of an empty tree, or look for a rank past the end,
have no defined result in the source; here they return `none`.

The functions follow the source's division into a public operation and the
helpers it calls with a path. Where the source changes a child through a
pointer and leaves the ancestors alone, the model rebuilds the root from the
path with `writeBack`; where it walks up in a loop, the model recurses on the
path. The order of the keys is only ever asked through `operator<`, so nothing
here assumes that it is linear.
-/

universe u

namespace AstraKV

structure BPTree (α : Type u) where
  root : Option (BPTreeNode α)
  count : UInt32
  height : UInt32
  numNodes : UInt32

namespace BPTree

open BPTreeNode BPTreePath

variable {α : Type u}

def empty : BPTree α := ⟨none, 0, 0, 0⟩

instance : Inhabited (BPTree α) := ⟨empty⟩

def size (t : BPTree α) : UInt32 := t.count

def isEmpty (t : BPTree α) : Bool := t.count == 0

def nodeCount (t : BPTree α) : UInt32 := t.numNodes

/-- The bookkeeping of `CreateNode`. -/
def createNode (t : BPTree α) : BPTree α := { t with numNodes := t.numNodes + 1 }

/-- The bookkeeping of `DestroyNode`. -/
def destroyNode (t : BPTree α) : BPTree α := { t with numNodes := t.numNodes - 1 }

variable [Inhabited α]

/-! ## Locate -/

section Search

variable [LT α] [DecidableLT α]

mutual
/-- `Locate`: chart the path towards `q`.  The flag says that `q` was found;
if not, the path ends in a leaf at the first key greater than `q`. -/
def locate (q : α) : BPTreeNode α → BPTreePath α → Bool × BPTreePath α
  | ⟨leaf, ks, cs, cnt⟩, path =>
      let res := bSearch ⟨leaf, ks, cs, cnt⟩ (compareTo q)
      let path := ⟨⟨leaf, ks, cs, cnt⟩, res.index⟩ :: path
      if res.found then (true, path)
      else if leaf then (false, path)
      else locateIn q cs res.index path

/-- Continue in child `i` of the list. -/
def locateIn (q : α) : List (BPTreeNode α) → Nat → BPTreePath α → Bool × BPTreePath α
  | [], _, path => (false, path)
  | c :: _, 0, path => locate q c path
  | _ :: cs, i + 1, path => locateIn q cs i path
end

def contains (t : BPTree α) (item : α) : Option Bool :=
  t.root.map fun root => (locate item root []).1

end Search

/-! ## Insert -/

/-- `RebalanceLeafAndInsert`: make room in the full leaf through its parent,
the last record of `ancestors`.  The new root, if that succeeded. -/
def rebalanceLeafAndInsert (leaf : BPTreeNode α) (item : α) (insertPos : Nat) :
    BPTreePath α → Option (BPTreeNode α)
  | [] => none
  | ⟨parent, pos⟩ :: rest =>
      match (parent.setChild pos leaf).rebalanceChild pos insertPos with
      | none => none
      | some (parent, i, j) =>
          let parent := parent.setChild i ((parent.child i).leafInsert j item)
          some (writeBack (parent.increaseTreeCount 1) (increaseSubtreeCounts rest 1))

/-- A node that took in a new right neighbour of child `pos` after it was split:
`median` and `right` go to whichever of the halves now holds that child. -/
def splitInsert (node : BPTreeNode α) (pos : Nat) (median : α) (right : BPTreeNode α) :
    BPTreeNode α × α × BPTreeNode α :=
  let (node, nextMedian, nextRight) := node.split
  if pos ≤ node.numItems then
    ((node.innerInsert pos median right).increaseTreeCount 1, nextMedian, nextRight)
  else
    (node.increaseTreeCount (-right.treeCount), nextMedian,
      (nextRight.innerInsert (pos - node.numItems - 1) median right).increaseTreeCount
        (right.treeCount + 1))

/-- Make room in the full inner child `parentPos` and put (`median`, `right`) in. -/
def rebalanceInsert (parent : BPTreeNode α) (parentPos pos : Nat) (median : α)
    (right : BPTreeNode α) : Option (BPTreeNode α) :=
  match parent.rebalanceChild parentPos pos with
  | none => none
  | some (parent, i, j) =>
      let parent := parent.setChild i ((parent.child i).innerInsert j median right)
      if i ≠ parentPos then
        -- child `pos`, and with it `right`, was migrated to the sibling
        let parent := parent.setChild parentPos
          ((parent.child parentPos).increaseTreeCount (-right.treeCount))
        some (parent.setChild i ((parent.child i).increaseTreeCount (right.treeCount + 1)))
      else
        some (parent.setChild parentPos ((parent.child parentPos).increaseTreeCount 1))

/-- The propagation loop of `InsertToFullLeaf`: `node` was split, and `median`
and its right half `right` have to be added to the ancestors. -/
def propagateSplit (t : BPTree α) (node : BPTreeNode α) (median : α) (right : BPTreeNode α) :
    BPTreePath α → BPTree α
  | [] =>
      let t := t.createNode
      let newRoot : BPTreeNode α := ⟨false, [median], [node, right], 0⟩
      { t with
        root := some (newRoot.setTreeCount (node.treeCount + right.treeCount + 1))
        height := t.height + 1 }
  | ⟨parent, pos⟩ :: rest =>
      let node := parent.setChild pos node
      if node.numItems < kMaxInnerKeys then
        let node := (node.innerInsert pos median right).increaseTreeCount 1
        { t with root := some (writeBack node (increaseSubtreeCounts rest 1)) }
      else
        let rebalanced :=
          match rest with
          | [] => none
          | ⟨grand, grandPos⟩ :: upper =>
              (rebalanceInsert (grand.setChild grandPos node) grandPos pos median right).map
                fun grand =>
                  writeBack (grand.increaseTreeCount 1) (increaseSubtreeCounts upper 1)
        match rebalanced with
        | some root => { t with root := some root }
        | none =>
            let (node, nextMedian, nextRight) := splitInsert node pos median right
            propagateSplit t.createNode node nextMedian nextRight rest

def insertToFullLeaf (t : BPTree α) (item : α) (leaf : BPTreeNode α) (insertPos : Nat)
    (ancestors : BPTreePath α) : BPTree α :=
  match rebalanceLeafAndInsert leaf item insertPos ancestors with
  | some root => { t with root := some root }
  | none =>
      let t := t.createNode
      let (node, median, right) := leaf.split
      if insertPos ≤ node.numItems then
        propagateSplit t (node.leafInsert insertPos item) median right ancestors
      else
        propagateSplit t node median
          (right.leafInsert (insertPos - node.numItems - 1) item) ancestors

section Search

variable [LT α] [DecidableLT α]

/-- `Insert`: true if inserted, false if skipped. -/
def insert (t : BPTree α) (item : α) : Bool × BPTree α :=
  match t.root with
  | none =>
      let t := t.createNode
      (true,
        { t with root := some ((BPTreeNode.empty true).initSingle item), count := 1, height := 1 })
  | some root =>
      match locate item root [] with
      | (true, _) => (false, t)
      | (false, []) => (false, t)
      | (false, ⟨leaf, pos⟩ :: ancestors) =>
          let t :=
            if leaf.numItems = kMaxLeafKeys then insertToFullLeaf t item leaf pos ancestors
            else
              { t with
                root := some (writeBack (leaf.leafInsert pos item)
                  (increaseSubtreeCounts ancestors 1)) }
          (true, { t with count := t.count + 1 })

end Search

/-! ## Delete -/

/-- The loop at the end of `Delete(path)`: merge or rebalance up the path
while the node holds too few items. -/
def rebalanceUp (t : BPTree α) (node : BPTreeNode α) : BPTreePath α → BPTree α
  | [] =>
      if node.numItems < node.minItems ∧ node.numItems = 0 then
        let t :=
          if node.isLeaf then { t with root := none } else { t with root := some (node.child 0) }
        { t with height := t.height - 1 }.destroyNode
      else { t with root := some node }
  | ⟨parent, pos⟩ :: rest =>
      if node.numItems < node.minItems then
        let (parent, retired) := (parent.setChild pos node).mergeOrRebalanceChild pos
        let parent := parent.increaseTreeCount (-1)
        if retired then rebalanceUp t.destroyNode parent rest
        else { t with root := some (writeBack parent (increaseSubtreeCounts rest (-1))) }
      else
        { t with
          root := some (writeBack node (increaseSubtreeCounts (⟨parent, pos⟩ :: rest) (-1))) }

/-- `Delete(path)`: remove the key the path ends at.  A separator is replaced
by the rightmost key of its left subtree, which is removed instead. -/
def deletePath (t : BPTree α) (path : BPTreePath α) : BPTree α :=
  match path with
  | [] => t
  | ⟨node, keyPos⟩ :: rest =>
      let t := { t with count := t.count - 1 }
      if node.isLeaf then rebalanceUp t (node.shiftLeft keyPos false) rest
      else
        match digRightFrom (node.child keyPos) [] with
        | [] => t
        | ⟨leaf, _⟩ :: below =>
            let node := node.setKey keyPos (leaf.key (leaf.numItems - 1))
            rebalanceUp t leaf.leafEraseRight (below ++ ⟨node, keyPos⟩ :: rest)

/-! ## Ranks -/

mutual
/-- `ToRank`: the path to the item of rank `rank` below the node. -/
def toRankFrom : BPTreeNode α → UInt32 → BPTreePath α → Option (BPTreePath α)
  | ⟨leaf, ks, cs, cnt⟩, rank, path =>
      if leaf then some (⟨⟨leaf, ks, cs, cnt⟩, rank.toNat⟩ :: path)
      else if rank = 0 then
        match cs with
        | [] => none
        | c :: _ => toRankFrom c rank (⟨⟨leaf, ks, cs, cnt⟩, 0⟩ :: path)
      else toRankScan ⟨leaf, ks, cs, cnt⟩ cs 0 rank path

/-- The scan over the children of `node` from child `i` on. -/
def toRankScan (node : BPTreeNode α) :
    List (BPTreeNode α) → Nat → UInt32 → BPTreePath α → Option (BPTreePath α)
  | [], _, _, _ => none
  | c :: cs, i, rank, path =>
      let subtreeCnt := c.treeCount
      if subtreeCnt > rank then toRankFrom c rank (⟨node, i⟩ :: path)
      else
        let rank := rank - subtreeCnt
        if rank = 0 then some (⟨node, i⟩ :: path)
        else toRankScan node cs (i + 1) (rank - 1) path
end

/-- `FromRank`; the last rank goes straight down the right edge. -/
def fromRank (t : BPTree α) (rank : UInt32) : Option (BPTreePath α) :=
  match t.root with
  | none => none
  | some root =>
      if rank + 1 = t.count then some (digRightFrom root [])
      else toRankFrom root rank []

section Search

variable [LT α] [DecidableLT α]

/-- `Delete(item)`. -/
def delete (t : BPTree α) (item : α) : Bool × BPTree α :=
  match t.root with
  | none => (false, t)
  | some root =>
      match locate item root [] with
      | (true, path) => (true, deletePath t path)
      | (false, _) => (false, t)

def getRank (t : BPTree α) (item : α) (reverse : Bool) : Option UInt32 :=
  match t.root with
  | none => none
  | some root =>
      match locate item root [] with
      | (true, path) => some (if reverse then t.count - path.rank - 1 else path.rank)
      | (false, _) => none

/-- `GEQ`: the path to the first key not less than `q`, empty if there is none. -/
def geq (t : BPTree α) (q : α) : Option (BPTreePath α) :=
  t.root.map fun root =>
    match locate q root [] with
    | (true, path) => path
    | (false, path) => if path.hasValidTerminal then path else (next path).2

/-- `LEQ`: the path to the last key not greater than `q`, empty if there is none. -/
def leq (t : BPTree α) (q : α) : Option (BPTreePath α) :=
  t.root.map fun root =>
    match locate q root [] with
    | (true, path) => path
    | (false, path) => (prev path).2

end Search

/-! ## Iterate -/

/-- The loop of `Iterate` from `path` on, for at most `n` items.  The callback
carries a state and says whether to go on. -/
def iterateLoop {σ : Type*} (cb : σ → α → σ × Bool) :
    Nat → BPTreePath α → σ → Option (σ × Bool)
  | 0, _, s => some (s, true)
  | n + 1, path, s =>
      match terminal? path with
      | none => none
      | some k =>
          match cb s k with
          | (s, false) => some (s, false)
          | (s, true) =>
              match next path with
              | (false, _) => some (s, true)
              | (true, path) => iterateLoop cb n path s

/-- `Iterate(rankStart, rankEnd, cb)`: the callback's final state and the result. -/
def iterate {σ : Type*} (t : BPTree α) (rankStart rankEnd : UInt32) (cb : σ → α → σ × Bool)
    (s : σ) : Option (σ × Bool) :=
  if t.size ≤ rankStart then some (s, true)
  else
    match fromRank t rankStart with
    | none => none
    | some path => iterateLoop cb (rankEnd.toNat + 1 - rankStart.toNat) path s

/-- The loop of `IterateReverse`, which does not look at what `Prev` returns. -/
def iterateReverseLoop {σ : Type*} (cb : σ → α → σ × Bool) :
    Nat → BPTreePath α → σ → Option (σ × Bool)
  | 0, _, s => some (s, true)
  | n + 1, path, s =>
      match terminal? path with
      | none => none
      | some k =>
          match cb s k with
          | (s, false) => some (s, false)
          | (s, true) => iterateReverseLoop cb n (prev path).2 s

/-- `IterateReverse(rankStart, rankEnd, cb)`; ranks count from the last key. -/
def iterateReverse {σ : Type*} (t : BPTree α) (rankStart rankEnd : UInt32)
    (cb : σ → α → σ × Bool) (s : σ) : Option (σ × Bool) :=
  match fromRank t (t.count - 1 - rankStart) with
  | none => none
  | some path => iterateReverseLoop cb (rankEnd.toNat + 1 - rankStart.toNat) path s

end BPTree

end AstraKV
