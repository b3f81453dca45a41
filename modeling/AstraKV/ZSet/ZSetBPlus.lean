import AstraKV.BPTree.Clear
import AstraKV.BPTree.Tree
import AstraKV.Lib.Dict
import AstraKV.ZSet.ScoredMember

/-!
# AstraKV.ZSet.ZSetBPlus

The sorted set (`ZSetBPlus` of `zset/bplustree_zset.cpp`): a tree of scores
and member hashes, the scores by member, and the members by hash.

The hash of a member is a parameter.  Where the source dereferences a node
that is not there, the result here is `none`.

Every operation touches the three structures in the order of the source. `Add`
with another score deletes the key of the old score from the tree and inserts
one for the new; nothing checks that the deletion found a key, or that the
hash of a member is not already taken by another one. What follows from that
is the subject of the other modules.
-/

universe u

namespace AstraKV

open BPTreePath

structure ZSetBPlus (M : Type u) where
  orderedSet : BPTree ScoredMemberCompact
  memberToScore : Dict M Binary64
  hashToMember : Dict UInt64 M

namespace ZSetBPlus

variable {M : Type u}

def empty : ZSetBPlus M := ⟨BPTree.empty, ∅, ∅⟩

instance : Inhabited (ZSetBPlus M) := ⟨empty⟩

def makeElement (hash : M → UInt64) (member : M) (score : Binary64) : ScoredMemberCompact :=
  ⟨score, hash member⟩

def findMemberByHash (z : ZSetBPlus M) (hash : UInt64) : Option M := z.hashToMember.lookup hash

def size (z : ZSetBPlus M) : UInt64 := z.orderedSet.size.toUInt64

def isEmpty (z : ZSetBPlus M) : Bool := z.orderedSet.isEmpty

def clear (z : ZSetBPlus M) : ZSetBPlus M := ⟨z.orderedSet.clear, ∅, ∅⟩

/-- Members with their scores, in the map's order. -/
def getAll (z : ZSetBPlus M) : List (M × Binary64) :=
  z.memberToScore.entries.map fun e => (e.1, e.2)

section Members

variable [DecidableEq M]

def getScore (z : ZSetBPlus M) (member : M) : Option Binary64 := z.memberToScore.lookup member

def contains (z : ZSetBPlus M) (member : M) : Bool := (z.memberToScore.lookup member).isSome

variable (hash : M → UInt64)

/-- True if a new member was added, false if its score was updated. -/
def add (z : ZSetBPlus M) (member : M) (score : Binary64) : Bool × ZSetBPlus M :=
  match z.memberToScore.lookup member with
  | some oldScore =>
      if ¬ oldScore.Equal score then
        let t := (z.orderedSet.delete (makeElement hash member oldScore)).2
        let t := (t.insert (makeElement hash member score)).2
        (false, ⟨t, z.memberToScore.insert member score,
          z.hashToMember.insert (hash member) member⟩)
      else (false, z)
  | none =>
      let t := (z.orderedSet.insert (makeElement hash member score)).2
      (true, ⟨t, z.memberToScore.insert member score,
        z.hashToMember.insert (hash member) member⟩)

/-- True if removed, false if not found. -/
def remove (z : ZSetBPlus M) (member : M) : Bool × ZSetBPlus M :=
  match z.memberToScore.lookup member with
  | some score =>
      let t := (z.orderedSet.delete (makeElement hash member score)).2
      (true, ⟨t, z.memberToScore.erase member, z.hashToMember.erase (hash member)⟩)
  | none => (false, z)

def getRank (z : ZSetBPlus M) (member : M) (reverse : Bool) : Option UInt64 :=
  match z.memberToScore.lookup member with
  | none => none
  | some score =>
      (z.orderedSet.getRank (makeElement hash member score) reverse).map UInt32.toUInt64

end Members

/-! ## ranges -/

/-- What one key adds to a range: nothing when its hash leads to no member. -/
def rangeEntry (z : ZSetBPlus M) (withScores : Bool) (elem : ScoredMemberCompact) :
    List (M × Binary64) :=
  match z.findMemberByHash elem.memberHash with
  | some member => [(member, if withScores then elem.score else ⟨0⟩)]
  | none => []

/-- The walk along `Next()` up to the first score above `max`; `f` takes in one key. -/
def scoreWalk {σ : Type*} (max : Binary64) (f : σ → ScoredMemberCompact → σ) :
    Nat → BPTreePath ScoredMemberCompact → σ → Option σ
  | 0, _, _ => none
  | n + 1, path, s =>
      match terminal? path with
      | none => none
      | some elem =>
          if max < elem.score then some s
          else
            match next path with
            | (false, _) => some (f s elem)
            | (true, path) => scoreWalk max f n path (f s elem)

/-- The walk from the first key not less than `(min, 0)` on.  The tree has a turn for every key. -/
def walkRange {σ : Type*} (z : ZSetBPlus M) (min max : Binary64)
    (f : σ → ScoredMemberCompact → σ) (s : σ) : Option σ :=
  if z.orderedSet.isEmpty then some s
  else
    match z.orderedSet.geq ⟨min, 0⟩ with
    | none => none
    | some [] => some s
    | some path => scoreWalk max f z.orderedSet.inOrder.length path s

def getRangeByScore (z : ZSetBPlus M) (min max : Binary64) (withScores : Bool) :
    Option (List (M × Binary64)) :=
  z.walkRange min max (fun result elem => result ++ z.rangeEntry withScores elem) []

def countRange (z : ZSetBPlus M) (min max : Binary64) : Option UInt64 :=
  z.walkRange min max (fun count _ => count + 1) 0

/-- The loop of `GetRangeByRank` for `n` ranks from `i` on. -/
def rankLoop (z : ZSetBPlus M) (reverse withScores : Bool) :
    Nat → UInt64 → List (M × Binary64) → Option (List (M × Binary64))
  | 0, _, result => some result
  | n + 1, i, result =>
      let rank := if reverse then (z.size - 1 - i).toUInt32 else i.toUInt32
      match z.orderedSet.fromRank rank with
      | none => none
      | some [] => rankLoop z reverse withScores n (i + 1) result
      | some path =>
          match terminal? path with
          | none => none
          | some elem =>
              rankLoop z reverse withScores n (i + 1) (result ++ z.rangeEntry withScores elem)

def getRangeByRank (z : ZSetBPlus M) (start stop : UInt64) (reverse withScores : Bool) :
    Option (List (M × Binary64)) :=
  if z.size ≤ start then some []
  else
    let stop := if z.size - 1 < stop then z.size - 1 else stop
    rankLoop z reverse withScores (stop.toNat + 1 - start.toNat) start []

end ZSetBPlus

end AstraKV
