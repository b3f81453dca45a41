import AstraKV.BPTree.Pair

/-!
# AstraKV.BPTree.Walk

Walking the tree along its explicit path: digging down to a leaf, `Next`
and `Prev`.

A path *ends at* rank `r` when exactly `r` keys of the tree's list come
before its terminal key.  That one number is what the position field
encodes differently in leaves, in inner nodes on the way down and in inner
nodes reached from below.

Digging starts at a place and ends at the first or last key of its subtree.
`Next` digs into the child right of a key, or climbs until it comes out of a
child that is not the last; `Prev` is the mirror image. Together they step
through the list of the tree one key at a time, and each says so when there is
no key left on its side.
-/

universe u

namespace AstraKV

open Weave BPTreeNode

variable {α : Type u}

/-! ## positions in an inner node -/

namespace BPTreeNode

/-- Up to a separator a node ends with the child left of it. -/
theorem PairAt.itemsTo_left {n l c : BPTreeNode α} {A B : List α} {s : α}
    {X Y : List (BPTreeNode α)} (hp : PairAt n A s B X l c Y) :
    n.itemsTo A.length = headWeave (X.map toList) A ++ l.toList := by
  have hchildren : n.children.take (A.length + 1) = X ++ l :: [] := by
    rw [hp.children, ← hp.length_left, List.take_append, List.take_of_length_le (by omega)]
    simp
  have hkeys : n.keys.take A.length = A ++ [] := by
    rw [hp.keys, List.take_left, List.append_nil]
  unfold itemsTo weaveTo
  rw [← List.map_take, hchildren, hkeys, List.map_append, List.map_cons,
    weave_focus _ (by rw [List.length_map, hp.length_left])]
  simp

/-- What is before child `i + 1` ends with key `i`. -/
theorem NodeOK.before_succ {P : BPTreeNode α → Prop} {e : UInt32} {n : BPTreeNode α} {i : Nat}
    (hn : NodeOK P false e n) (hi : i < n.keys.length) :
    PathRecord.before ⟨n, i + 1⟩ = n.itemsTo i ++ [n.keys[i]] := by
  obtain ⟨A, s, B, X, l, c, Y, hp, hA⟩ := hn.pair hi
  subst hA
  have hkey : n.keys[A.length] = s := by simp [hp.keys]
  rw [hp.before_right, hp.itemsTo_left, hkey, List.append_assoc]

/-- Nothing of a node lies before its first child. -/
theorem before_zero (n : BPTreeNode α) : PathRecord.before ⟨n, 0⟩ = [] := rfl

/-- Nothing of it lies after its last. -/
theorem after_last {n : BPTreeNode α} {i : Nat} (hi : n.keys.length ≤ i)
    (hlen : n.children.length = n.keys.length + 1) : PathRecord.after ⟨n, i⟩ = [] := by
  have hkeys : n.keys.drop i = [] := List.drop_of_length_le hi
  have hchildren : n.children.drop (i + 1) = [] := List.drop_of_length_le (by omega)
  unfold PathRecord.after
  simp only [hkeys, hchildren, List.map_nil, tailWeave_nil]

end BPTreeNode

namespace BPTreePath

variable {H N h r i : Nat} {L : List α} {n m : BPTreeNode α} {path rest : BPTreePath α}

/-- The path leads to the key of rank `r` of a tree that reads `L`. -/
def EndsAt (L : List α) (r : Nat) : BPTreePath α → Prop
  | [] => False
  | ⟨m, i⟩ :: rest =>
      ∃ H N h, Place H N L h m rest ∧ i < m.keys.length ∧ (before rest ++ m.itemsTo i).length = r

/-- The rank a path ends at is one of the list. -/
theorem EndsAt.lt {path : BPTreePath α} (hp : EndsAt L r path) : r < L.length := by
  cases path with
  | nil => exact hp.elim
  | cons rec rest =>
      obtain ⟨H, N, h, hplace, hi, hr⟩ := hp
      obtain ⟨tail, hL, -⟩ := hplace.around hi
      rw [hL, ← hr]
      simp

/-- The terminal key is the key of that rank. -/
theorem EndsAt.terminal {path : BPTreePath α} (hp : EndsAt L r path) : terminal? path = L[r]? := by
  cases path with
  | nil => exact hp.elim
  | cons rec rest =>
      obtain ⟨H, N, h, hplace, hi, hr⟩ := hp
      obtain ⟨tail, hL, -⟩ := hplace.around hi
      have hkey : terminal? (rec :: rest) = some rec.node.keys[rec.pos] :=
        List.getElem?_eq_getElem hi
      rw [hkey, hL, ← hr]
      simp

/-- The keys up to and including child `pos` of the last record, seen from that child. -/
theorem Place.itemsTo_pop {f : PathRecord α} (hp : Place H N L h m (f :: rest)) :
    f.node.itemsTo f.pos = f.before ++ m.toList := by
  have hitems := hp.frames.1.setChild_itemsTo m
  rwa [setChild_self hp.linked.1] at hitems

/-- A parent reads as its child with what lies around it. -/
theorem Place.toList_pop {f : PathRecord α} (hp : Place H N L h m (f :: rest)) :
    f.node.toList = f.before ++ m.toList ++ f.after := by
  have hlist := hp.frames.1.setChild_toList m
  rwa [setChild_self hp.linked.1] at hlist

/-! ## digging -/

/-- Digging to the left ends at the first key of the subtree. -/
theorem digLeft_spec (hp : Place H N L h n path) :
    EndsAt L (before path).length (digLeft n path) := by
  induction h generalizing n path with
  | zero =>
      have hchildren := hp.nodeOK.children_nil
      have hto := hp.nodeOK.leaf_itemsTo 0
      obtain ⟨leaf, ks, cs, cnt⟩ := n
      obtain rfl : cs = [] := hchildren
      unfold digLeft
      exact ⟨H, N, 0, hp, hp.pos, by rw [hto]; simp⟩
  | succ h ih =>
      obtain ⟨c, hc⟩ := hp.exists_child (Nat.zero_le _)
      have hpush := ih (hp.push hc)
      have hleaf := hp.isLeaf
      obtain ⟨leaf, ks, cs, cnt⟩ := n
      cases cs with
      | nil => simp at hc
      | cons d cs =>
          obtain rfl : d = c := by simpa using hc
          obtain rfl : leaf = false := hleaf
          unfold digLeft
          rw [before, before_zero, List.append_nil] at hpush
          exact hpush

/-- Digging right among the children follows that child. -/
theorem digRightIn_eq {cs : List (BPTreeNode α)} {c : BPTreeNode α} (hc : cs[i]? = some c)
    (path : BPTreePath α) : digRightIn cs i path = digRightFrom c path := by
  induction cs generalizing i with
  | nil => simp at hc
  | cons d cs ih =>
      cases i with
      | zero =>
          obtain rfl : d = c := by simpa using hc
          rw [digRightIn]
      | succ i => rw [digRightIn, ih (by simpa using hc)]

/-- One step of digging to the right. -/
theorem digRightFrom_eq (n : BPTreeNode α) (path : BPTreePath α) :
    digRightFrom n path =
      if n.isLeaf then ⟨n, n.numItems - 1⟩ :: path
      else digRightIn n.children n.numItems (⟨n, n.numItems⟩ :: path) := by
  obtain ⟨leaf, ks, cs, cnt⟩ := n
  rw [digRightFrom]
  rfl

/-- Digging to the right below a good node reaches its last leaf, by the same records whatever
the path above is. -/
theorem digRightFrom_spec (hn : Sound h n) (hpos : 0 < n.numItems) :
    ∃ leaf below, (∀ path, digRightFrom n path = ⟨leaf, leaf.numItems - 1⟩ :: (below ++ path)) ∧
      ∀ {H N L path}, Place H N L h n path →
        Place H N L 0 leaf (below ++ path) ∧ after (below ++ path) = after path := by
  induction h generalizing n with
  | zero =>
      refine ⟨n, [], fun path => ?_, fun hp => ⟨hp, rfl⟩⟩
      rw [digRightFrom_eq, hn.isLeaf]
      rfl
  | succ h ih =>
      have hnode : NodeOK (Good h) false 0 n := hn
      have hlen := hnode.length_children
      obtain ⟨c, hc⟩ : ∃ c, n.children[n.numItems]? = some c := by
        have hlt : n.numItems < n.children.length := by
          unfold numItems
          omega
        exact ⟨_, List.getElem?_eq_getElem hlt⟩
      have hgood := hnode.child c (List.mem_of_getElem? hc)
      obtain ⟨leaf, below, hdig, hplace⟩ := ih hgood.1 hgood.numItems_pos
      refine ⟨leaf, below ++ [⟨n, n.numItems⟩], fun path => ?_, fun {H N L path} hp => ?_⟩
      · rw [digRightFrom_eq, hn.isLeaf, if_neg (by simp), digRightIn_eq hc, hdig, List.append_assoc]
        rfl
      · obtain ⟨hleaf, hafter⟩ := hplace (hp.push hc)
        rw [List.append_assoc]
        refine ⟨hleaf, hafter.trans ?_⟩
        rw [after, after_last (i := n.numItems) (Nat.le_refl _) hlen, List.nil_append]

/-- Digging to the right ends at the last key of the subtree. -/
theorem digRight_endsAt (hp : Place H N L h n path) :
    0 < (before path ++ n.toList).length ∧
      EndsAt L ((before path ++ n.toList).length - 1) (digRightFrom n path) := by
  obtain ⟨leaf, below, hdig, hplace⟩ := digRightFrom_spec hp.fitting.1 hp.pos
  obtain ⟨hleaf, hafter⟩ := hplace hp
  have hsame : before (below ++ path) ++ leaf.toList = before path ++ n.toList := by
    have hL := hleaf.toList.trans hp.toList.symm
    rw [hafter] at hL
    exact List.append_cancel_right hL
  have hkeys := hleaf.nodeOK.leaf_toList
  have hpos := hleaf.pos
  unfold numItems at hpos
  rw [← hsame, hdig, hkeys]
  refine ⟨by simp; omega, H, N, 0, hleaf, by unfold numItems; omega, ?_⟩
  rw [hleaf.nodeOK.leaf_itemsTo]
  simp only [List.length_append, List.length_take, numItems]
  omega

/-! ## climbing -/

/-- Leaving a finished subtree to the right: up to the first record with a separator left. -/
theorem climbRight_spec (hp : Place H N L h m rest) :
    ((before rest ++ m.toList).length < L.length →
      EndsAt L (before rest ++ m.toList).length
        (rest.dropWhile fun f => f.pos == f.node.numItems)) ∧
    ((before rest ++ m.toList).length = L.length →
      rest.dropWhile (fun f => f.pos == f.node.numItems) = []) := by
  induction rest generalizing h m with
  | nil =>
      have hL := congrArg List.length hp.toList
      rw [after, List.append_nil] at hL
      exact ⟨fun hlt => by omega, fun _ => rfl⟩
  | cons f rest ih =>
      have hpop := hp.pop
      have hlen := hpop.nodeOK.length_children
      have hsame : before (f :: rest) ++ m.toList = before rest ++ f.node.itemsTo f.pos := by
        rw [hp.itemsTo_pop, before, List.append_assoc]
      by_cases hend : f.pos = f.node.numItems
      · -- the node is finished as well
        have hafter : f.after = [] := after_last (i := f.pos) (Nat.le_of_eq hend.symm) hlen
        have hwhole : f.node.itemsTo f.pos = f.node.toList := by
          rw [hp.itemsTo_pop, hp.toList_pop, hafter, List.append_nil]
        rw [hsame, hwhole, List.dropWhile_cons_of_pos (by simpa using hend)]
        exact ih hpop
      · have hlt : f.pos < f.node.keys.length := by
          have hle := hp.frames.1.pos_le
          unfold numItems at hend
          omega
        have hends : EndsAt L (before (f :: rest) ++ m.toList).length (f :: rest) :=
          ⟨H, N, h + 1, hpop, hlt, congrArg List.length hsame.symm⟩
        rw [List.dropWhile_cons_of_neg (by simpa using hend)]
        refine ⟨fun _ => hends, fun hL => ?_⟩
        have hbound := hends.lt
        omega

/-- Leaving a subtree to the left: up to the first record with a separator before it. -/
theorem climbLeft_spec (hp : Place H N L h m rest) :
    match rest.dropWhile fun f => f.pos == 0 with
    | [] => (before rest).length = 0
    | f :: up => 0 < (before rest).length ∧
        EndsAt L ((before rest).length - 1) (⟨f.node, f.pos - 1⟩ :: up) := by
  induction rest generalizing h m with
  | nil => rfl
  | cons f rest ih =>
      have hpop := hp.pop
      by_cases hzero : f.pos = 0
      · have hbefore : before (f :: rest) = before rest := by
          obtain ⟨node, pos⟩ := f
          obtain rfl : pos = 0 := hzero
          rw [before, before_zero, List.append_nil]
        rw [List.dropWhile_cons_of_pos (by simpa using hzero), hbefore]
        exact ih hpop
      · obtain ⟨node, pos⟩ := f
        obtain ⟨j, rfl⟩ := Nat.exists_eq_succ_of_ne_zero hzero
        have hj : j < node.keys.length := hp.frames.1.pos_le
        have hbefore : before (⟨node, j + 1⟩ :: rest) =
            before rest ++ node.itemsTo j ++ [node.keys[j]] := by
          rw [before, hpop.nodeOK.before_succ hj, List.append_assoc]
        rw [List.dropWhile_cons_of_neg (by simp)]
        dsimp only
        rw [hbefore, List.length_append, List.length_singleton, Nat.add_sub_cancel]
        exact ⟨by omega, H, N, h + 1, hpop, hj, rfl⟩

/-! ## Next and Prev -/

/-- From a gap position in a leaf on: the first key not passed yet. -/
theorem next_leaf (hp : Place H N L 0 m rest) (hi : m.numItems ≤ i + 1) :
    ((before rest ++ m.toList).length < L.length →
      (next (⟨m, i⟩ :: rest)).1 = true ∧
        EndsAt L (before rest ++ m.toList).length (next (⟨m, i⟩ :: rest)).2) ∧
    ((before rest ++ m.toList).length = L.length → next (⟨m, i⟩ :: rest) = (false, [])) := by
  obtain ⟨hmore, hend⟩ := climbRight_spec hp
  rw [next, if_pos hp.isLeaf_zero, if_neg (by omega)]
  dsimp only
  constructor
  · intro hlt
    have hends := hmore hlt
    cases hdrop : rest.dropWhile fun f => f.pos == f.node.numItems with
    | nil =>
        rw [hdrop] at hends
        exact hends.elim
    | cons f up =>
        rw [hdrop] at hends
        exact ⟨rfl, hends⟩
  · intro hL
    rw [hend hL]
    rfl

/-- `Next` goes one rank up, or says that there is none. -/
theorem next_spec {p : BPTreePath α} (hp : EndsAt L r p) :
    (r + 1 < L.length → (next p).1 = true ∧ EndsAt L (r + 1) (next p).2) ∧
    (r + 1 = L.length → next p = (false, [])) := by
  cases p with
  | nil => exact hp.elim
  | cons rec rest =>
      obtain ⟨node, pos⟩ := rec
      obtain ⟨H, N, h, hplace, hi, hr⟩ := hp
      cases h with
      | zero =>
          have hto := hplace.nodeOK.leaf_itemsTo pos
          have hlist := hplace.nodeOK.leaf_toList
          have hrank : (before rest).length + pos = r := by
            rw [hto, List.length_append, List.length_take] at hr
            omega
          by_cases hmore : pos + 1 < node.numItems
          · -- the next key is in the same leaf
            have hends : EndsAt L (r + 1) (⟨node, pos + 1⟩ :: rest) := by
              refine ⟨H, N, 0, hplace, hmore, ?_⟩
              rw [hplace.nodeOK.leaf_itemsTo, List.length_append, List.length_take]
              unfold numItems at hmore
              omega
            have hlt := hends.lt
            rw [next, if_pos hplace.isLeaf_zero, if_pos hmore]
            exact ⟨fun _ => ⟨rfl, hends⟩, fun hL => by omega⟩
          · have hlast : (before rest ++ node.toList).length = r + 1 := by
              rw [hlist, List.length_append]
              unfold numItems at hmore
              omega
            rw [← hlast]
            exact next_leaf hplace (by omega)
      | succ h =>
          obtain ⟨c, hc⟩ := hplace.exists_child (i := pos + 1) hi
          have hdig := digLeft_spec (hplace.push hc)
          rw [before, hplace.nodeOK.before_succ hi, ← List.append_assoc, List.length_append, hr]
            at hdig
          have hlt := hdig.lt
          rw [next, if_neg (by rw [hplace.isLeaf_succ]; simp), child_eq hc]
          exact ⟨fun _ => ⟨rfl, hdig⟩, fun hL => by simp at hlt; omega⟩

/-- `Prev` from a position with `r` keys before it, be it a key's or the end of a leaf. -/
theorem prev_spec (hp : Place H N L h m rest) (hi : i ≤ m.numItems)
    (hr : (before rest ++ m.itemsTo i).length = r) :
    (0 < r → (prev (⟨m, i⟩ :: rest)).1 = true ∧ EndsAt L (r - 1) (prev (⟨m, i⟩ :: rest)).2) ∧
    (r = 0 → prev (⟨m, i⟩ :: rest) = (false, [])) := by
  cases h with
  | zero =>
      have hto := hp.nodeOK.leaf_itemsTo
      rw [hto, List.length_append, List.length_take] at hr
      unfold numItems at hi
      rw [prev, if_pos hp.isLeaf_zero]
      by_cases hzero : i = 0
      · -- nothing is left in the leaf
        subst hzero
        rw [List.dropWhile_cons_of_pos (by simp)]
        have hclimb := climbLeft_spec hp
        have hr' : (before rest).length = r := by omega
        rw [hr'] at hclimb
        cases hdrop : rest.dropWhile fun f => f.pos == 0 with
        | nil =>
            rw [hdrop] at hclimb
            exact ⟨fun hpos => by dsimp only at hclimb; omega, fun _ => rfl⟩
        | cons f up =>
            rw [hdrop] at hclimb
            exact ⟨fun _ => ⟨rfl, hclimb.2⟩, fun h0 => by have hpos := hclimb.1; omega⟩
      · rw [List.dropWhile_cons_of_neg (by simpa using hzero)]
        refine ⟨fun _ => ⟨rfl, H, N, 0, hp, ?_, ?_⟩, fun h0 => by omega⟩
        · show i - 1 < m.keys.length
          omega
        · rw [hto (i - 1), List.length_append, List.length_take]
          omega
  | succ h =>
      obtain ⟨c, hc⟩ := hp.exists_child hi
      have hpush := hp.push hc
      have hsame : before (⟨m, i⟩ :: rest) ++ c.toList = before rest ++ m.itemsTo i := by
        rw [hpush.itemsTo_pop, before, List.append_assoc]
      obtain ⟨hpos, hdig⟩ := digRight_endsAt hpush
      rw [hsame, hr] at hpos hdig
      rw [prev, if_neg (by rw [hp.isLeaf_succ]; simp), digRight, child_eq hc]
      exact ⟨fun _ => ⟨rfl, hdig⟩, fun h0 => by omega⟩

/-- `Prev` from a key. -/
theorem prev_endsAt {p : BPTreePath α} (hp : EndsAt L r p) :
    (0 < r → (prev p).1 = true ∧ EndsAt L (r - 1) (prev p).2) ∧
    (r = 0 → prev p = (false, [])) := by
  cases p with
  | nil => exact hp.elim
  | cons rec rest =>
      obtain ⟨H, N, h, hplace, hi, hr⟩ := hp
      exact prev_spec hplace (Nat.le_of_lt hi) hr

end BPTreePath

end AstraKV
