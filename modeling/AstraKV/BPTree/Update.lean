import AstraKV.BPTree.Queries

/-!
# AstraKV.BPTree.Update

`ForceUpdate`, which puts another key in the place of one without looking at
the order, and `Delete` of the key a path leads to; and runs of all the calls
that change a tree (`calls_refine_set`).

The two kinds of calls differ in what they owe their caller. `Delete` of a
path relies on the path being one of this tree, taken since the last change:
`root?` names the tree a path belongs to, and every way to come by a path is
shown to give the tree's own root. `ForceUpdate` relies on the new key fitting
where the old one was (`Fits`); given that, it is erasing the one and
inserting the other.
-/

universe u

namespace AstraKV

open Weave Cut BPTreeNode BPTreePath

variable {α : Type u}

/-! ## another key -/

namespace BPTreeNode

variable {P : BPTreeNode α → Prop} {leaf : Bool} {e : UInt32} {n : BPTreeNode α} {i : Nat} {k : α}

/-- Overwriting a key leaves their number. -/
@[simp] theorem numItems_setKey : (n.setKey i k).numItems = n.numItems := List.length_set

/-- Overwriting a key leaves the size of the subtree. -/
theorem length_toList_setKey : (n.setKey i k).toList.length = n.toList.length := by
  rw [length_toList, length_toList, setKey, List.length_set]

/-- Overwriting a key keeps the invariant of the node. -/
theorem NodeOK.setKey (hn : NodeOK P leaf e n) (i : Nat) (k : α) :
    NodeOK P leaf e (n.setKey i k) where
  isLeaf := hn.isLeaf
  fits := by
    have hfits := hn.fits
    unfold Fits at hfits ⊢
    simpa [BPTreeNode.setKey] using hfits
  le_max := by
    rw [numItems_setKey]
    exact hn.le_max
  count := by
    have hcount : (n.setKey i k).treeCount = n.treeCount := by
      unfold treeCount
      rw [numItems_setKey]
      rfl
    rw [hcount, length_toList_setKey]
    exact hn.count
  child := hn.child

/-- Overwriting a key keeps the subtree sound. -/
theorem Sound.setKey {h : Nat} (hn : Sound h n) (i : Nat) (k : α) : Sound h (n.setKey i k) :=
  (sound_iff h _).mpr (((sound_iff h n).mp hn).setKey i k)

/-- Overwriting a key leaves the number of blocks. -/
theorem nodes_setKey : (n.setKey i k).nodes = n.nodes := by
  rw [nodes_eq, nodes_eq, BPTreeNode.setKey]

end BPTreeNode

namespace BPTreePath

variable {H N h i : Nat} {L tail : List α} {m : BPTreeNode α} {rest : BPTreePath α} {k : α}

/-- Counts corrected by nothing are as they were. -/
theorem increaseSubtreeCounts_zero (path : BPTreePath α) : increaseSubtreeCounts path 0 = path := by
  unfold increaseSubtreeCounts
  simp

/-- Another key in the place of key `i`. -/
theorem Place.setKey (hp : Place H N L h m rest) (hi : i < m.keys.length)
    (htail : m.itemsFrom i = m.keys[i] :: tail) (k : α) :
    TreeOf H N (before rest ++ m.itemsTo i ++ k :: (tail ++ after rest))
      (writeBack (m.setKey i k) rest) := by
  have hfitting : Fitting h rest (m.setKey i k) := by
    refine ⟨hp.fitting.1.setKey i k, fun hne => ?_⟩
    rw [numItems_setKey]
    exact hp.fitting.2 hne
  have htree := writeBack_spec (δ := 0) hp.frames hfitting
    (by rw [length_toList_setKey, UInt32.add_zero]) fun _ => by
      rw [numItems_setKey]
      exact hp.pos
  have hlist : (m.setKey i k).toList = m.itemsTo i ++ k :: tail := by
    have hi' : i ≤ (m.setKey i k).numItems := by
      rw [numItems_setKey]
      exact hi.le
    have hitems := (hp.nodeOK.setKey i k).itemsTo_append hi'
    rw [setKey_itemsTo, setKey_itemsFrom hi htail] at hitems
    exact hitems.symm
  rw [increaseSubtreeCounts_zero, hlist, nodes_setKey, hp.height, hp.nodes] at htree
  simpa only [List.append_assoc, List.cons_append] using htree

end BPTreePath

namespace BPTree

variable [Inhabited α] {t : BPTree α} {L : List α}

section ForceUpdate

variable [LT α] [DecidableLT α]

/-- `ForceUpdate`: nothing where one of its assertions fails. -/
def forceUpdate (t : BPTree α) (old newObj : α) : Option (BPTree α) :=
  match t.root with
  | none => none
  | some root =>
      match locate old root [] with
      | (true, ⟨node, pos⟩ :: rest) =>
          some { t with root := some (writeBack (node.setKey pos newObj) rest) }
      | _ => none

/-- The outcomes of putting `newObj` in the place of `old` in a tree that reads `L`. -/
inductive Updated (old newObj : α) (L : List α) : Option (BPTree α) → Prop
  | missing {L₁ L₂ : List α} (list : L = L₁ ++ L₂) (below : ∀ x ∈ L₁, x < old)
      (above : ∀ y ∈ L₂, old < y) : Updated old newObj L none
  | replaced {L₁ L₂ : List α} {k : α} {t' : BPTree α} (list : L = L₁ ++ k :: L₂)
      (equiv : ¬ old < k ∧ ¬ k < old) (holds : Holds t' (L₁ ++ newObj :: L₂)) :
      Updated old newObj L (some t')

/-- `ForceUpdate` puts the new key where the one that compares equal to the old was. -/
theorem forceUpdate_spec {old : α} (newObj : α) (hT : Holds t L) (hcuts : Cuts old L) :
    Updated old newObj L (t.forceUpdate old newObj) := by
  unfold forceUpdate
  obtain ⟨hroot, rfl, -⟩ | ⟨root, H, N, hroot, htree, hheight, hnodes⟩ := hT.shape
  · rw [hroot]
    have hnil : ([] : List α) = [] ++ [] := rfl
    exact .missing hnil (by simp) (by simp)
  · have hloc := locate_root hcuts htree
    rw [hroot]
    dsimp only
    generalize locate old root [] = res at hloc
    cases hloc with
    | @missed leaf pos rest place falls sides =>
        obtain ⟨hL, hbelow, habove⟩ := place.gap falls sides
        exact .missing hL hbelow habove
    | @found h m i rest place lt equiv =>
        obtain ⟨tail, hL, htail⟩ := place.around lt
        refine .replaced hL equiv ⟨.inr ⟨_, H, N, rfl, place.setKey lt htail newObj, hheight,
          hnodes⟩, ?_⟩
        rw [hT.count, hL]
        simp

end ForceUpdate

end BPTree

/-! ## the root of a path -/

namespace BPTreePath

/-- The node a path starts from. -/
def root? (path : BPTreePath α) : Option (BPTreeNode α) := path.getLast?.map PathRecord.node

/-- A path has the root of its upper part. -/
theorem root?_cons (r : PathRecord α) (path : BPTreePath α) :
    root? (r :: path) = some ((root? path).getD r.node) := by
  unfold root?
  rw [List.getLast?_cons]
  cases path.getLast? <;> rfl

/-- Leaving records at the lower end does not change the root. -/
theorem root?_of_suffix {path path' : BPTreePath α} {root : BPTreeNode α} (hsuffix : path' <:+ path)
    (hne : path' ≠ []) (h : root? path = some root) : root? path' = some root := by
  obtain ⟨below, rfl⟩ := hsuffix
  unfold root? at h ⊢
  rwa [List.getLast?_append_of_ne_nil _ hne] at h

/-- Digging to the left stays below the same root. -/
theorem root?_digLeft (n : BPTreeNode α) (path : BPTreePath α) :
    root? (digLeft n path) = some ((root? path).getD n) := by
  fun_induction digLeft n path with
  | case1 | case2 => exact root?_cons _ _
  | case3 leaf ks c cs cnt path hleaf ih =>
      rw [ih, root?_cons]
      rfl

mutual

/-- Digging to the right does, too. -/
theorem root?_digRightFrom (n : BPTreeNode α) (path : BPTreePath α) :
    root? (digRightFrom n path) = some ((root? path).getD n) := by
  obtain ⟨leaf, ks, cs, cnt⟩ := n
  rw [digRightFrom]
  split
  · exact root?_cons _ path
  · exact root?_digRightIn cs _ (root?_cons _ path)

/-- Through one of the children as well. -/
theorem root?_digRightIn (cs : List (BPTreeNode α)) (i : Nat) {path : BPTreePath α}
    {root : BPTreeNode α} (h : root? path = some root) :
    root? (digRightIn cs i path) = some root := by
  match cs, i with
  | [], _ => exact h
  | c :: _, 0 =>
      rw [digRightIn, root?_digRightFrom c path, h]
      rfl
  | _ :: cs, i + 1 =>
      rw [digRightIn]
      exact root?_digRightIn cs i h

end

theorem root?_digRight {path : BPTreePath α} {root : BPTreeNode α} (h : root? path = some root) :
    root? (digRight path) = some root := by
  cases path with
  | nil => exact h
  | cons r rest =>
      rw [digRight, root?_digRightFrom, h]
      rfl

/-- A move of the last position. -/
theorem root?_move {node : BPTreeNode α} {pos pos' : Nat} {rest : BPTreePath α}
    {root : BPTreeNode α} (h : root? (⟨node, pos⟩ :: rest) = some root) :
    root? (⟨node, pos'⟩ :: rest) = some root := by
  rw [root?_cons] at h ⊢
  exact h

/-- A step forward stays in the tree. -/
theorem root?_next {path : BPTreePath α} {root : BPTreeNode α} (h : root? path = some root)
    (hne : (next path).2 ≠ []) : root? (next path).2 = some root := by
  cases path with
  | nil => exact h
  | cons r rest =>
      obtain ⟨node, pos⟩ := r
      unfold next at hne ⊢
      dsimp only at hne ⊢
      by_cases hleaf : node.isLeaf = true
      · rw [if_pos hleaf] at hne ⊢
        by_cases hpos : pos + 1 < node.numItems
        · rw [if_pos hpos]
          exact root?_move h
        · rw [if_neg hpos] at hne ⊢
          exact root?_of_suffix ((List.dropWhile_suffix _).trans (List.suffix_cons _ _)) hne h
      · rw [if_neg hleaf, root?_digLeft, root?_move h]
        rfl

/-- A step back stays in the tree. -/
theorem root?_prev {path : BPTreePath α} {root : BPTreeNode α} (h : root? path = some root)
    (hne : (prev path).2 ≠ []) : root? (prev path).2 = some root := by
  cases path with
  | nil => exact h
  | cons r rest =>
      obtain ⟨node, pos⟩ := r
      have hsuffix := List.dropWhile_suffix (l := (⟨node, pos⟩ :: rest : BPTreePath α))
        fun r => r.pos == 0
      unfold prev at hne ⊢
      dsimp only at hne ⊢
      by_cases hleaf : node.isLeaf = true
      · rw [if_pos hleaf] at hne ⊢
        cases hdrop : (⟨node, pos⟩ :: rest : BPTreePath α).dropWhile fun r => r.pos == 0 with
        | nil =>
            rw [hdrop] at hne
            contradiction
        | cons r path =>
            rw [hdrop] at hsuffix
            exact root?_move (root?_of_suffix hsuffix (List.cons_ne_nil r path) h)
      · rw [if_neg hleaf]
        exact root?_digRight h

end BPTreePath

namespace BPTree

section Locate

variable [Inhabited α] [LT α] [DecidableLT α]

mutual

/-- `Locate` stays below the root it started from. -/
theorem root?_locate (q : α) (n : BPTreeNode α) (path : BPTreePath α) :
    root? (locate q n path).2 = some ((root? path).getD n) := by
  obtain ⟨leaf, ks, cs, cnt⟩ := n
  rw [locate]
  split
  · exact root?_cons _ path
  · split
    · exact root?_cons _ path
    · exact root?_locateIn q cs _ (root?_cons _ path)

/-- In one of the children as well. -/
theorem root?_locateIn (q : α) (cs : List (BPTreeNode α)) (i : Nat) {path : BPTreePath α}
    {root : BPTreeNode α} (h : root? path = some root) :
    root? (locateIn q cs i path).2 = some root := by
  match cs, i with
  | [], _ => exact h
  | c :: _, 0 =>
      rw [locateIn, root?_locate q c path, h]
      rfl
  | _ :: cs, i + 1 =>
      rw [locateIn]
      exact root?_locateIn q cs i h

end

end Locate

mutual

/-- Going down to a rank stays below the root. -/
theorem root?_toRankFrom (n : BPTreeNode α) (rank : UInt32) {path path' : BPTreePath α}
    (h : toRankFrom n rank path = some path') : root? path' = some ((root? path).getD n) := by
  match n with
  | ⟨leaf, ks, [], cnt⟩ =>
      rw [toRankFrom] at h
      split at h
      · obtain rfl := Option.some.inj h
        exact root?_cons _ path
      · split at h
        · contradiction
        · exact root?_toRankScan _ [] 0 rank h
  | ⟨leaf, ks, c :: cs, cnt⟩ =>
      rw [toRankFrom] at h
      split at h
      · obtain rfl := Option.some.inj h
        exact root?_cons _ path
      · split at h
        · rw [root?_toRankFrom c rank h, root?_cons]
          rfl
        · exact root?_toRankScan _ (c :: cs) 0 rank h

theorem root?_toRankScan (node : BPTreeNode α) (cs : List (BPTreeNode α)) (i : Nat) (rank : UInt32)
    {path path' : BPTreePath α} (h : toRankScan node cs i rank path = some path') :
    root? path' = some ((root? path).getD node) := by
  match cs with
  | [] =>
      rw [toRankScan] at h
      contradiction
  | c :: cs =>
      rw [toRankScan] at h
      dsimp only at h
      split at h
      · rw [root?_toRankFrom c rank h, root?_cons]
        rfl
      · split at h
        · obtain rfl := Option.some.inj h
          exact root?_cons _ path
        · exact root?_toRankScan node cs (i + 1) _ h

end

/-! ## the key a path leads to -/

/-- A path to a rank is one of the tree. -/
theorem fromRank_root {t : BPTree α} {rank : UInt32} {path : BPTreePath α}
    (h : t.fromRank rank = some path) : root? path = t.root := by
  unfold fromRank at h
  cases hroot : t.root with
  | none =>
      rw [hroot] at h
      contradiction
  | some root =>
      rw [hroot] at h
      dsimp only at h
      split at h
      · obtain rfl := Option.some.inj h
        exact root?_digRightFrom root []
      · exact root?_toRankFrom root rank h

section Bounds

variable [Inhabited α] [LT α] [DecidableLT α] {t : BPTree α} {q : α} {path : BPTreePath α}

theorem geq_root (h : t.geq q = some path) (hne : path ≠ []) : root? path = t.root := by
  unfold geq at h
  obtain ⟨root, hroot, rfl⟩ := Option.map_eq_some_iff.mp h
  have hlocate := root?_locate q root []
  rw [hroot]
  generalize locate q root [] = res at hne hlocate
  obtain ⟨found, path⟩ := res
  cases found with
  | true => exact hlocate
  | false =>
      dsimp only at hne ⊢
      split
      · exact hlocate
      · rename_i hvalid
        rw [if_neg hvalid] at hne
        exact root?_next hlocate hne

theorem leq_root (h : t.leq q = some path) (hne : path ≠ []) : root? path = t.root := by
  unfold leq at h
  obtain ⟨root, hroot, rfl⟩ := Option.map_eq_some_iff.mp h
  have hlocate := root?_locate q root []
  rw [hroot]
  generalize locate q root [] = res at hne hlocate
  obtain ⟨found, path⟩ := res
  cases found with
  | true => exact hlocate
  | false => exact root?_prev hlocate hne

end Bounds

/-- All leaves are equally deep, so a subtree has one height. -/
theorem sound_height {h h' : Nat} {n : BPTreeNode α} (hn : Sound h n) (hn' : Sound h' n)
    (hpos : 0 < n.numItems) : h = h' := by
  induction h generalizing h' n with
  | zero =>
      have hleaf := hn'.isLeaf.symm.trans hn.isLeaf
      exact (beq_iff_eq.mp hleaf).symm
  | succ h ih =>
      cases h' with
      | zero => exact absurd (hn.isLeaf.symm.trans hn'.isLeaf) (by simp)
      | succ h' =>
          have hlen := NodeOK.length_children hn
          obtain ⟨c, hc⟩ := List.exists_mem_of_length_pos (l := n.children) (by omega)
          have hgood := NodeOK.child hn c hc
          have hgood' := NodeOK.child hn' c hc
          rw [ih hgood.1 hgood'.1 (Good.numItems_pos hgood)]

/-- The tree a place is in. -/
theorem place_treeOf {H N h i : Nat} {L : List α} {m root : BPTreeNode α} {rest : BPTreePath α}
    (hp : Place H N L h m rest) (hroot : root? (⟨m, i⟩ :: rest) = some root) :
    TreeOf H N L root := by
  induction rest generalizing h m i with
  | nil =>
      obtain rfl : h = H := hp.height
      obtain rfl : m = root := Option.some.inj hroot
      refine ⟨hp.fitting.1, hp.pos, ?_, hp.nodes⟩
      have hlist := hp.toList
      rwa [before, after, List.nil_append, List.append_nil] at hlist
  | cons r rest ih =>
      refine ih hp.pop (i := r.pos) ?_
      exact root?_of_suffix (List.suffix_cons _ _) (List.cons_ne_nil _ _) hroot

section Delete

variable [Inhabited α] {t : BPTree α} {L : List α} {r : Nat} {path : BPTreePath α}

/-- `Delete` of a path takes out the key that the path leads to. -/
theorem deletePath_endsAt (hT : Holds t L) (hends : EndsAt L r path) (hroot : root? path = t.root) :
    Holds (t.deletePath path) (L.eraseIdx r) := by
  cases path with
  | nil => exact hends.elim
  | cons rec rest =>
      obtain ⟨m, i⟩ := rec
      obtain ⟨H, N, h, place, hi, hr⟩ := hends
      obtain ⟨tail, hL, htail⟩ := place.around hi
      obtain ⟨hnone, -⟩ | ⟨root, H', N', hsome, htree, hheight, hnodes⟩ := hT.shape
      · rw [hnone, root?_cons] at hroot
        contradiction
      · have htree' := place_treeOf place (hroot.trans hsome)
        obtain rfl := sound_height htree.sound htree'.sound htree.pos
        obtain rfl : N' = N := htree.nodes.symm.trans htree'.nodes
        have herase : L.eraseIdx r = before rest ++ m.itemsTo i ++ (tail ++ after rest) := by
          rw [hL, List.eraseIdx_append_of_length_le hr.le, hr, Nat.sub_self]
          rfl
        rw [herase]
        refine ⟨deletePath_spec place hi htail hheight hnodes, ?_⟩
        rw [deletePath_count, hT.count, hL]
        · simp only [List.length_append, List.length_cons, UInt32.ofNat_add]
          grind
        · cases h with
          | zero => exact Or.inl place.isLeaf_zero
          | succ h =>
              right
              obtain ⟨c, hc⟩ := place.exists_child (Nat.le_of_lt hi)
              obtain ⟨leaf, below, hdig, -⟩ :=
                digRightFrom_spec (place.push hc).fitting.1 (place.push hc).pos
              rw [child_eq hc, hdig]
              simp

end Delete

end BPTree

/-! ## runs -/

/-- The calls that change a tree, `Delete` of a path among them. -/
inductive BPTreeCall (α : Type u) where
  | insert (item : α)
  | delete (item : α)
  | deleteRank (rank : UInt32)
  | deleteGEQ (q : α)
  | deleteLEQ (q : α)
  | forceUpdate (old newObj : α)

namespace BPTree

section Sets

variable [LinearOrder α] {s f : Finset α} {k : α}

/-- Take the least member of `f` out of `s`. -/
def eraseLeast (s f : Finset α) : Bool × Finset α :=
  if h : f.Nonempty then (true, s.erase (f.min' h)) else (false, s)

def eraseGreatest (s f : Finset α) : Bool × Finset α :=
  if h : f.Nonempty then (true, s.erase (f.max' h)) else (false, s)

/-- The same calls on a set. -/
def setCall (s : Finset α) : BPTreeCall α → Bool × Finset α
  | .insert k => (decide (k ∉ s), Insert.insert k s)
  | .delete k => (decide (k ∈ s), s.erase k)
  | .deleteRank rank => eraseLeast s (s.filter fun x => rank.toNat ≤ (s.filter (· < x)).card)
  | .deleteGEQ q => eraseLeast s (s.filter (q ≤ ·))
  | .deleteLEQ q => eraseGreatest s (s.filter (· ≤ q))
  | .forceUpdate old newObj =>
      (decide (old ∈ s), if old ∈ s then Insert.insert newObj (s.erase old) else s)

/-- `newObj` has the place of `old` among the others. -/
def Fits (old newObj : α) (s : Finset α) : Prop :=
  ∀ x ∈ s, (x < old → x < newObj) ∧ (old < x → newObj < x)

/-- What a call asks of its caller: a rank there is, a tree with a root, and for `ForceUpdate` a key
there is and another that fits in its place. -/
def Allowed (s : Finset α) : BPTreeCall α → Prop
  | .insert _ | .delete _ => True
  | .deleteRank rank => s.card < 2 ^ 32 ∧ rank.toNat < s.card
  | .deleteGEQ _ | .deleteLEQ _ => s.Nonempty
  | .forceUpdate old newObj => old ∈ s ∧ Fits old newObj s

instance : (s : Finset α) → (c : BPTreeCall α) → Decidable (Allowed s c)
  | _, .insert _ | _, .delete _ => .isTrue trivial
  | s, .deleteRank rank => inferInstanceAs (Decidable (s.card < 2 ^ 32 ∧ rank.toNat < s.card))
  | s, .deleteGEQ _ | s, .deleteLEQ _ => inferInstanceAs (Decidable s.Nonempty)
  | s, .forceUpdate old newObj =>
      inferInstanceAs
        (Decidable (old ∈ s ∧ ∀ x ∈ s, (x < old → x < newObj) ∧ (old < x → newObj < x)))

/-- Erasing the least of a part erases the member it names. -/
theorem eraseLeast_eq (hk : k ∈ f) (hleast : ∀ x ∈ f, k ≤ x) :
    eraseLeast s f = (true, s.erase k) := by
  have hmin : f.min' ⟨k, hk⟩ = k :=
    le_antisymm (f.min'_le k hk) (hleast _ (f.min'_mem ⟨k, hk⟩))
  rw [eraseLeast, dif_pos ⟨k, hk⟩, hmin]

/-- Erasing the greatest does the same. -/
theorem eraseGreatest_eq (hk : k ∈ f) (hgreatest : ∀ x ∈ f, x ≤ k) :
    eraseGreatest s f = (true, s.erase k) := by
  have hmax : f.max' ⟨k, hk⟩ = k :=
    le_antisymm (hgreatest _ (f.max'_mem ⟨k, hk⟩)) (f.le_max' k hk)
  rw [eraseGreatest, dif_pos ⟨k, hk⟩, hmax]

theorem eraseLeast_empty : eraseLeast s (∅ : Finset α) = (false, s) :=
  dif_neg Finset.not_nonempty_empty

theorem eraseGreatest_empty : eraseGreatest s (∅ : Finset α) = (false, s) :=
  dif_neg Finset.not_nonempty_empty

end Sets

variable [LinearOrder α] [Inhabited α] {t : BPTree α} {s : Finset α} {k : α}

/-- `Delete` of a path that was found. -/
def deleteFound (t : BPTree α) : Option (BPTreePath α) → Bool × BPTree α
  | none | some [] => (false, t)
  | some (r :: rest) => (true, t.deletePath (r :: rest))

omit [LinearOrder α] in
/-- A path that was found is deleted at. -/
theorem deleteFound_eq {t : BPTree α} {path : BPTreePath α} (hne : path ≠ []) :
    t.deleteFound (some path) = (true, t.deletePath path) := by
  cases path with
  | nil => contradiction
  | cons r rest => rfl

def call (t : BPTree α) : BPTreeCall α → Bool × BPTree α
  | .insert k => t.insert k
  | .delete k => t.delete k
  | .deleteRank rank => t.deleteFound (t.fromRank rank)
  | .deleteGEQ q => t.deleteFound (t.geq q)
  | .deleteLEQ q => t.deleteFound (t.leq q)
  | .forceUpdate old newObj =>
      match t.forceUpdate old newObj with
      | none => (false, t)
      | some t' => (true, t')

/-- Taking out the key that a path leads to. -/
theorem Represents.deletePath {r : Nat} {path : BPTreePath α} (h : Represents t s)
    (hends : EndsAt t.inOrder r path) (hroot : root? path = t.root)
    (hk : terminal? path = some k) : Represents (t.deletePath path) (s.erase k) := by
  have hr := hends.lt
  rw [hends.terminal, List.getElem?_eq_getElem hr] at hk
  obtain rfl := Option.some.inj hk
  have hnodup : t.inOrder.Nodup := h.sorted.imp fun hlt => ne_of_lt hlt
  refine .of_holds (deletePath_endsAt h.holds hends hroot)
    (h.sorted.sublist (List.eraseIdx_sublist _ _)) fun x => ?_
  rw [← hnodup.erase_getElem r hr, hnodup.mem_erase_iff, Finset.mem_erase, h.mem]

/-- Deleting at a rank erases the member of that rank. -/
theorem deleteRank_simulates (h : Represents t s) {rank : UInt32} (hsmall : s.card < 2 ^ 32)
    (hrank : rank.toNat < s.card) :
    (t.deleteFound (t.fromRank rank)).1 = (setCall s (.deleteRank rank)).1 ∧
      Represents (t.deleteFound (t.fromRank rank)).2 (setCall s (.deleteRank rank)).2 := by
  have hcard := h.card
  obtain ⟨path, hpath, hends⟩ := fromRank_spec h.holds (by omega) rank (by omega)
  obtain ⟨k, hk, hks, hsmaller⟩ := h.endsAt hends
  have hne : path ≠ [] := fun hnil => by rw [hnil] at hends; exact hends
  have hleast : ∀ x ∈ s.filter fun x => rank.toNat ≤ (s.filter (· < x)).card, k ≤ x := by
    intro x hx
    obtain ⟨hxs, hx⟩ := Finset.mem_filter.mp hx
    by_contra hlt
    have hsub : s.filter (· < x) ⊂ s.filter (· < k) := by
      refine ⟨fun y hy => ?_, fun hsub => ?_⟩
      · obtain ⟨hys, hy⟩ := Finset.mem_filter.mp hy
        exact Finset.mem_filter.mpr ⟨hys, hy.trans (not_le.mp hlt)⟩
      · exact lt_irrefl x (Finset.mem_filter.mp
          (hsub (Finset.mem_filter.mpr ⟨hxs, not_le.mp hlt⟩))).2
    have hless := Finset.card_lt_card hsub
    omega
  rw [hpath, deleteFound_eq hne, setCall,
    eraseLeast_eq (Finset.mem_filter.mpr ⟨hks, hsmaller.ge⟩) hleast]
  exact ⟨rfl, h.deletePath hends (fromRank_root hpath) hk⟩

/-- Deleting at a lower bound erases the least member from there on. -/
theorem deleteGEQ_simulates (h : Represents t s) (hne : s.Nonempty) (q : α) :
    (t.deleteFound (t.geq q)).1 = (setCall s (.deleteGEQ q)).1 ∧
      Represents (t.deleteFound (t.geq q)).2 (setCall s (.deleteGEQ q)).2 := by
  obtain ⟨path, hpath, ⟨rfl, hall⟩ | ⟨k, hks, hk, hqk, hleast⟩⟩ := h.geq hne q
  · have hempty : s.filter (q ≤ ·) = ∅ :=
      Finset.filter_eq_empty_iff.mpr fun x hx => not_le.mpr (hall x hx)
    rw [hpath, setCall, hempty, eraseLeast_empty]
    exact ⟨rfl, h⟩
  · obtain ⟨path', L₁, L₂, hpath', -, -, -, hnil, hends⟩ :=
      geq_spec h.holds (h.cuts q) (List.ne_nil_of_mem ((h.mem k).mpr hks))
    obtain rfl : path = path' := Option.some.inj (hpath.symm.trans hpath')
    have hpath_ne : path ≠ [] := fun heq => by rw [heq] at hk; contradiction
    have hends := hends fun heq => hpath_ne (hnil heq)
    rw [hpath, deleteFound_eq hpath_ne, setCall, eraseLeast_eq
      (Finset.mem_filter.mpr ⟨hks, hqk⟩) fun x hx => hleast x (Finset.mem_filter.mp hx).1
        (Finset.mem_filter.mp hx).2]
    exact ⟨rfl, h.deletePath hends (geq_root hpath hpath_ne) hk⟩

/-- Deleting at an upper bound erases the greatest member up to there. -/
theorem deleteLEQ_simulates (h : Represents t s) (hne : s.Nonempty) (q : α) :
    (t.deleteFound (t.leq q)).1 = (setCall s (.deleteLEQ q)).1 ∧
      Represents (t.deleteFound (t.leq q)).2 (setCall s (.deleteLEQ q)).2 := by
  obtain ⟨path, hpath, ⟨rfl, hall⟩ | ⟨k, hks, hk, hkq, hgreatest⟩⟩ := h.leq hne q
  · have hempty : s.filter (· ≤ q) = ∅ :=
      Finset.filter_eq_empty_iff.mpr fun x hx => not_le.mpr (hall x hx)
    rw [hpath, setCall, hempty, eraseGreatest_empty]
    exact ⟨rfl, h⟩
  · obtain ⟨path', L₁, L₂, hpath', -, -, -, hnil, hends⟩ :=
      leq_spec h.holds (h.cuts q) (List.ne_nil_of_mem ((h.mem k).mpr hks))
    obtain rfl : path = path' := Option.some.inj (hpath.symm.trans hpath')
    have hpath_ne : path ≠ [] := fun heq => by rw [heq] at hk; contradiction
    have hends := hends fun heq => hpath_ne (hnil heq)
    rw [hpath, deleteFound_eq hpath_ne, setCall, eraseGreatest_eq
      (Finset.mem_filter.mpr ⟨hks, hkq⟩) fun x hx => hgreatest x (Finset.mem_filter.mp hx).1
        (Finset.mem_filter.mp hx).2]
    exact ⟨rfl, h.deletePath hends (leq_root hpath hpath_ne) hk⟩

/-- Another key in the place of a key: the tree is in order just when the key fits. -/
theorem forceUpdate_sorted_iff (h : Represents t s) {old : α} (newObj : α) (hold : old ∈ s) :
    ∃ t', t.forceUpdate old newObj = some t' ∧ Holds t' t'.inOrder ∧
      (∀ x, x ∈ t'.inOrder ↔ x = newObj ∨ x ∈ s.erase old) ∧
      (t'.inOrder.Pairwise (· < ·) ↔ Fits old newObj s) := by
  have hspec := forceUpdate_spec newObj h.holds (h.cuts old)
  have hmem := h.mem
  have hsorted := h.sorted
  generalize t.forceUpdate old newObj = res at hspec
  cases hspec with
  | @missing L₁ L₂ list below above =>
      have hin := (hmem old).mpr hold
      rw [list, List.mem_append] at hin
      exact (hin.elim (fun hin => lt_irrefl old (below old hin)) fun hin =>
        lt_irrefl old (above old hin)).elim
  | @replaced L₁ L₂ k t' list equiv holds =>
      obtain rfl := eq_of_equiv equiv
      rw [list] at hmem hsorted
      have hinOrder := holds.inOrder_eq
      have hparts := List.pairwise_append.mp hsorted
      have hright := (List.pairwise_cons.mp hparts.2.1).1
      have hleft : ∀ x ∈ L₁, x < old := fun x hx => hparts.2.2 x hx old List.mem_cons_self
      refine ⟨t', rfl, by rwa [hinOrder], fun x => ?_, ?_⟩
      · have hx := hmem x
        rw [hinOrder, Finset.mem_erase, ← hx]
        simp only [List.mem_append, List.mem_cons]
        have hne : x ∈ L₁ ∨ x ∈ L₂ → x ≠ old := by
          rintro (hin | hin) rfl
          · exact lt_irrefl x (hleft x hin)
          · exact lt_irrefl x (hright x hin)
        tauto
      · rw [hinOrder]
        constructor
        · intro hnew x hx
          have hparts' := List.pairwise_append.mp hnew
          have hin := (hmem x).mpr hx
          rw [List.mem_append, List.mem_cons] at hin
          obtain hin | rfl | hin := hin
          · exact ⟨fun _ => hparts'.2.2 x hin newObj List.mem_cons_self,
              fun hlt => (lt_asymm hlt (hleft x hin)).elim⟩
          · exact ⟨fun hlt => (lt_irrefl x hlt).elim, fun hlt => (lt_irrefl x hlt).elim⟩
          · exact ⟨fun hlt => (lt_asymm hlt (hright x hin)).elim,
              fun _ => (List.pairwise_cons.mp hparts'.2.1).1 x hin⟩
        · intro hfits
          refine pairwise_insert (hsorted.sublist ((List.sublist_cons_self old L₂).append_left L₁))
            (fun x hx => ?_) fun x hx => ?_
          · exact (hfits x ((hmem x).mp (by simp [hx]))).1 (hleft x hx)
          · exact (hfits x ((hmem x).mp (by simp [hx]))).2 (hright x hx)

/-- `ForceUpdate` erases one member and inserts the other. -/
theorem forceUpdate_simulates (h : Represents t s) {old newObj : α} (hold : old ∈ s)
    (hfits : Fits old newObj s) :
    (t.call (.forceUpdate old newObj)).1 = (setCall s (.forceUpdate old newObj)).1 ∧
      Represents (t.call (.forceUpdate old newObj)).2 (setCall s (.forceUpdate old newObj)).2 := by
  obtain ⟨t', hres, hholds, hmem, hsorted⟩ := forceUpdate_sorted_iff h newObj hold
  unfold call setCall
  dsimp only
  rw [hres, if_pos hold, decide_eq_true hold]
  refine ⟨rfl, hholds, hsorted.mpr hfits, fun x => ?_⟩
  rw [hmem, Finset.mem_insert]

/-- Every allowed call answers and changes the tree as it does the set. -/
theorem call_simulates (h : Represents t s) (c : BPTreeCall α) (hc : Allowed s c) :
    (t.call c).1 = (setCall s c).1 ∧ Represents (t.call c).2 (setCall s c).2 := by
  cases c with
  | insert k => exact insert_simulates h k
  | delete k => exact delete_simulates h k
  | deleteRank rank => exact deleteRank_simulates h hc.1 hc.2
  | deleteGEQ q => exact deleteGEQ_simulates h hc q
  | deleteLEQ q => exact deleteLEQ_simulates h hc q
  | forceUpdate old newObj => exact forceUpdate_simulates h hc.1 hc.2

/-- **A tree stays a set** under all calls that change it, in any order, as long as each is given
what it asks for: a rank in range, a tree that is not empty, another key that fits in the place of
the old one. -/
theorem calls_refine_set {calls : List (BPTreeCall α)}
    (hallowed : Machine.Along setCall Allowed (∅ : Finset α) calls) :
    (Machine.run call (empty : BPTree α) calls).1 =
        (Machine.run setCall (∅ : Finset α) calls).1 ∧
      Represents (Machine.final call (empty : BPTree α) calls)
        (Machine.final setCall (∅ : Finset α) calls) :=
  Machine.simulates_along (R := Represents) (fun _ _ c h hc => call_simulates h c hc)
    represents_empty hallowed

theorem calls_refine_set_seven :
    (Machine.run call (empty : BPTree Nat) [.insert 10, .insert 20, .insert 30,
      .forceUpdate 20 25, .deleteRank 0, .deleteGEQ 26, .delete 25]).1 =
        [true, true, true, true, true, true, true] :=
  (calls_refine_set (by decide +kernel)).1.trans (by decide +kernel)

end BPTree

end AstraKV
