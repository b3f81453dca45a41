import Mathlib

/-!
# AstraKV.BPTree.Node

The B+tree node (`detail::BPTreeNode` of `zset/bplustree_internal.hpp`).

A node is the list of its keys and, when it is not a leaf, the list of its
children and a cached 32-bit subtree count.  The lists stand for the used
part of the two arrays in the 256-byte node block: `num_items_` is the
length of `keys`, and the `memmove`s and copy loops of the source are
appends, `take`s and `drop`s.  Keys live in inner nodes too: key `i` sorts
between the subtrees of child `i` and child `i + 1`.

The layout constants are computed as in the source, from the size of the block
and of a pointer, and so is every branch on whether a node is a leaf. Moving
items between siblings comes in two directions that are not mirror images: the
source moves the separator along with the keys, and the children only in inner
nodes.
-/

universe u

namespace AstraKV

/-! ## BPNodeLayout -/

def kBPNodeSize : Nat := 256

/-- `sizeof(ScoredMemberCompact)`: a double and a 64-bit hash. -/
def kKeySize : Nat := 16

def kKeyOffset : Nat := 4

def kSubTreeLen : Nat := 4

/-- `sizeof(BPTreeNode*)`. -/
def kPointerSize : Nat := 8

def kMaxLeafKeys : Nat := (kBPNodeSize - kKeyOffset) / kKeySize

def kMinLeafKeys : Nat := kMaxLeafKeys / 2

def kMaxInnerKeys : Nat :=
  (kBPNodeSize - kPointerSize - kKeyOffset - kSubTreeLen) / (kKeySize + kPointerSize)

def kMinInnerKeys : Nat := kMaxInnerKeys / 2

/-- Fifteen keys of 16 bytes fit beside the header of a leaf block. -/
theorem kMaxLeafKeys_eq : kMaxLeafKeys = 15 := rfl

theorem kMinLeafKeys_eq : kMinLeafKeys = 7 := rfl

/-- An inner block has room for ten keys and eleven children. -/
theorem kMaxInnerKeys_eq : kMaxInnerKeys = 10 := rfl

theorem kMinInnerKeys_eq : kMinInnerKeys = 5 := rfl

/-! ## The node -/

structure BPTreeNode (α : Type u) where
  isLeaf : Bool
  keys : List α
  children : List (BPTreeNode α)
  innerTreeCount : UInt32

/-- The three-way comparison of `KeyCompareTo`, from the key type's `operator<`. -/
def compareTo {α : Type u} [LT α] [DecidableLT α] (a b : α) : Int :=
  if a < b then -1 else if b < a then 1 else 0

structure SearchResult where
  index : Nat
  found : Bool
deriving DecidableEq, Repr

namespace BPTreeNode

variable {α : Type u}

/-- A node as `CreateNode` hands it out: no keys yet. -/
def empty (leaf : Bool) : BPTreeNode α := ⟨leaf, [], [], 0⟩

instance : Inhabited (BPTreeNode α) := ⟨empty true⟩

def numItems (n : BPTreeNode α) : Nat := n.keys.length

def maxItems (n : BPTreeNode α) : Nat := if n.isLeaf then kMaxLeafKeys else kMaxInnerKeys

def minItems (n : BPTreeNode α) : Nat := if n.isLeaf then kMinLeafKeys else kMinInnerKeys

def availableSlotCount (n : BPTreeNode α) : Nat := n.maxItems - n.numItems

def initSingle (n : BPTreeNode α) (key : α) : BPTreeNode α := { n with keys := [key] }

def child (n : BPTreeNode α) (i : Nat) : BPTreeNode α := n.children.getD i default

def setChild (n : BPTreeNode α) (i : Nat) (c : BPTreeNode α) : BPTreeNode α :=
  { n with children := n.children.set i c }

def setKey (n : BPTreeNode α) (i : Nat) (k : α) : BPTreeNode α := { n with keys := n.keys.set i k }

/-- Keys of a subtree as the node caches them: `NumItems()` for a leaf, the
stored count for an inner node. -/
def treeCount (n : BPTreeNode α) : UInt32 :=
  if n.isLeaf then UInt32.ofNat n.numItems else n.innerTreeCount

def setTreeCount (n : BPTreeNode α) (cnt : UInt32) : BPTreeNode α :=
  { n with innerTreeCount := cnt }

/-- `IncreaseTreeCount(delta)`; the signed delta is added modulo `2 ^ 32`. -/
def increaseTreeCount (n : BPTreeNode α) (delta : UInt32) : BPTreeNode α :=
  n.setTreeCount (n.innerTreeCount + delta)

/-- The sum the loops over `GetChildTreeCount` accumulate. -/
def sumTreeCounts (cs : List (BPTreeNode α)) : UInt32 := (cs.map treeCount).sum

mutual
/-- `DEBUG_TreeCount()`: the keys of a subtree, counted. -/
def debugTreeCount : BPTreeNode α → UInt32
  | ⟨leaf, ks, cs, _⟩ => UInt32.ofNat ks.length + if leaf then 0 else debugTreeCounts cs

def debugTreeCounts : List (BPTreeNode α) → UInt32
  | [] => 0
  | c :: cs => debugTreeCount c + debugTreeCounts cs
end

variable [Inhabited α]

def key (n : BPTreeNode α) (i : Nat) : α := n.keys.getD i default

/-! ## BSearch -/

/-- The halving loop of `BSearch`; `span` bounds `hi - lo`. -/
def bSearchLoop (ks : List α) (cmp : α → Int) : Nat → Nat → Nat → SearchResult
  | 0, _, hi => ⟨hi, false⟩
  | span + 1, lo, hi =>
      if lo < hi then
        let mid := (lo + hi) / 2
        let cmpRes := cmp (ks.getD mid default)
        if cmpRes = 0 then ⟨mid, true⟩
        else if cmpRes < 0 then bSearchLoop ks cmp span lo mid
        else bSearchLoop ks cmp span (mid + 1) hi
      else ⟨hi, false⟩

/-- Index of the first key not less than the query; the last key is checked first. -/
def bSearch (n : BPTreeNode α) (cmp : α → Int) : SearchResult :=
  let hi := n.numItems
  let cmpRes := cmp (n.key (hi - 1))
  if 0 ≤ cmpRes then
    if 0 < cmpRes then ⟨hi, false⟩ else ⟨hi - 1, true⟩
  else bSearchLoop n.keys cmp (hi - 1) 0 (hi - 1)

/-! ## Inserting into and removing from one node -/

def leafInsert (n : BPTreeNode α) (index : Nat) (item : α) : BPTreeNode α :=
  { n with keys := n.keys.insertIdx index item }

/-- `child` becomes the right neighbour of `item`.  The tree count is left to the caller. -/
def innerInsert (n : BPTreeNode α) (index : Nat) (item : α) (child : BPTreeNode α) :
    BPTreeNode α :=
  { n with
    keys := n.keys.insertIdx index item
    children := n.children.insertIdx (index + 1) child }

/-- Drop key `index`; an inner node drops child `index`, or child `index + 1`
when `childStepRight`.  When the last key goes, nothing is moved and the
last child falls off. -/
def shiftLeft (n : BPTreeNode α) (index : Nat) (childStepRight : Bool) : BPTreeNode α :=
  { n with
    keys := n.keys.eraseIdx index
    children :=
      if n.isLeaf then n.children
      else if n.numItems - index - 1 > 0 then
        n.children.eraseIdx (index + if childStepRight then 1 else 0)
      else n.children.dropLast }

def leafEraseRight (n : BPTreeNode α) : BPTreeNode α := { n with keys := n.keys.dropLast }

/-! ## Moving items between siblings -/

/-- The left sibling `dest` after `sep` and the first `count - 1` keys of `src`, and the
children around them, were appended to it. -/
def takeFromRight (dest : BPTreeNode α) (sep : α) (src : BPTreeNode α) (count : Nat) :
    BPTreeNode α :=
  let keys := dest.keys ++ sep :: src.keys.take (count - 1)
  if src.isLeaf then { dest with keys := keys }
  else
    { dest with
      keys := keys
      children := dest.children ++ src.children.take count
      innerTreeCount :=
        dest.treeCount + sumTreeCounts (src.children.take count) + UInt32.ofNat count }

/-- The source of a move to the left: its first `count` items are gone. -/
def dropFront (src : BPTreeNode α) (count : Nat) : BPTreeNode α :=
  if src.isLeaf then { src with keys := src.keys.drop count }
  else
    { src with
      keys := src.keys.drop count
      children := src.children.drop count
      innerTreeCount :=
        src.treeCount - sumTreeCounts (src.children.take count) - UInt32.ofNat count }

/-- Move `count` items from child `childPos` to its left sibling, through the separator. -/
def rebalanceChildToLeft (n : BPTreeNode α) (childPos count : Nat) : BPTreeNode α :=
  let src := n.child childPos
  let dest := n.child (childPos - 1)
  (((n.setKey (childPos - 1) (src.key (count - 1))).setChild (childPos - 1)
    (dest.takeFromRight (n.key (childPos - 1)) src count)).setChild childPos
    (src.dropFront count))

/-- The right sibling `dest` after the last `count - 1` keys of `src` and `sep`, and the
children around them, were put in front of it. -/
def takeFromLeft (dest : BPTreeNode α) (sep : α) (src : BPTreeNode α) (count : Nat) :
    BPTreeNode α :=
  let keys := src.keys.drop (src.numItems - count + 1) ++ sep :: dest.keys
  if src.isLeaf then { dest with keys := keys }
  else
    let moved := src.children.drop (src.numItems - count + 1)
    { dest with
      keys := keys
      children := moved ++ dest.children
      innerTreeCount := dest.treeCount + sumTreeCounts moved + UInt32.ofNat count }

/-- The source of a move to the right: its last `count` items are gone. -/
def dropBack (src : BPTreeNode α) (count : Nat) : BPTreeNode α :=
  if src.isLeaf then { src with keys := src.keys.take (src.numItems - count) }
  else
    { src with
      keys := src.keys.take (src.numItems - count)
      children := src.children.take (src.numItems - count + 1)
      innerTreeCount :=
        src.treeCount - sumTreeCounts (src.children.drop (src.numItems - count + 1)) -
          UInt32.ofNat count }

/-- Move `count` items from child `childPos` to its right sibling, through the separator. -/
def rebalanceChildToRight (n : BPTreeNode α) (childPos count : Nat) : BPTreeNode α :=
  let src := n.child childPos
  let dest := n.child (childPos + 1)
  (((n.setKey childPos (src.key (src.numItems - count))).setChild childPos
    (src.dropBack count)).setChild (childPos + 1)
    (dest.takeFromLeft (n.key childPos) src count))

/-- How much to move to a sibling with `destFree` free slots: all of them when
the insertion is at the far edge of the full node, else half of them. -/
def moveCount (destFree : Nat) (atEdge : Bool) : Nat :=
  if destFree > 0 then
    if atEdge then destFree
    else if destFree > 1 then destFree / 2
    else 0
  else 0

/-- Rebalance the full child `pos`, into which an item was to go at
`insertPos`, with a sibling: the left one if possible, else the right one.
On success, the index of the child to insert into and the position there. -/
def rebalanceChild (n : BPTreeNode α) (pos insertPos : Nat) :
    Option (BPTreeNode α × Nat × Nat) :=
  let node := n.child pos
  let left := n.child (pos - 1)
  let right := n.child (pos + 1)
  let toLeft :=
    if pos > 0 then moveCount left.availableSlotCount (insertPos == node.numItems) else 0
  if toLeft > 0 then
    let n := n.rebalanceChildToLeft pos toLeft
    if insertPos < toLeft then some (n, pos - 1, left.numItems + insertPos + 1)
    else some (n, pos, insertPos - toLeft)
  else
    let toRight :=
      if pos < n.numItems then moveCount right.availableSlotCount (insertPos == 0) else 0
    if toRight > 0 then
      let n := n.rebalanceChildToRight pos toRight
      if insertPos > node.numItems - toRight then
        some (n, pos + 1, insertPos - (node.numItems - toRight + 1))
      else some (n, pos, insertPos)
    else none

/-- Keep the left half in the node; the middle key and the right half come out. -/
def split (n : BPTreeNode α) : BPTreeNode α × α × BPTreeNode α :=
  let mid := n.numItems / 2
  let median := n.key mid
  let rightKeys := n.keys.drop (mid + 1)
  if n.isLeaf then
    ({ n with keys := n.keys.take mid }, median, ⟨n.isLeaf, rightKeys, [], 0⟩)
  else
    let rightChildren := n.children.drop (mid + 1)
    let rightSubtreeCount := UInt32.ofNat rightKeys.length + sumTreeCounts rightChildren
    ({ n with
        keys := n.keys.take mid
        children := n.children.take (mid + 1)
        innerTreeCount := n.innerTreeCount + -(rightSubtreeCount + 1) },
      median,
      ⟨n.isLeaf, rightKeys, rightChildren, rightSubtreeCount⟩)

/-- Append the separator and the whole right sibling. -/
def mergeFromRight (n : BPTreeNode α) (key : α) (right : BPTreeNode α) : BPTreeNode α :=
  if n.isLeaf then { n with keys := n.keys ++ key :: right.keys }
  else
    { n with
      keys := n.keys ++ key :: right.keys
      children := n.children ++ right.children
      innerTreeCount := n.innerTreeCount + (right.treeCount + 1) }

/-- Merge the underfull child `pos` with a sibling, or move items over from
one.  The flag says that a child was retired. -/
def mergeOrRebalanceChild (n : BPTreeNode α) (pos : Nat) : BPTreeNode α × Bool :=
  let node := n.child pos
  let left := n.child (pos - 1)
  let right := n.child (pos + 1)
  if pos > 0 ∧ left.numItems + 1 + node.numItems ≤ left.maxItems then
    ((n.setChild (pos - 1) (left.mergeFromRight (n.key (pos - 1)) node)).shiftLeft (pos - 1) true,
      true)
  else if pos < n.numItems then
    if node.numItems + 1 + right.numItems ≤ right.maxItems then
      ((n.setChild pos (node.mergeFromRight (n.key pos) right)).shiftLeft pos true, true)
    else (n.rebalanceChildToLeft (pos + 1) ((right.numItems - node.numItems) / 2), false)
  else if pos > 0 then
    (n.rebalanceChildToRight (pos - 1) ((left.numItems - node.numItems) / 2), false)
  else (n, false)

end BPTreeNode

end AstraKV
