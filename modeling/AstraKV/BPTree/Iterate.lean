import AstraKV.BPTree.Rank

/-!
# AstraKV.BPTree.Iterate

`GEQ`, `LEQ`, `Iterate` and `IterateReverse`: from an end point, along
`Next` or `Prev`, as calls of the callback on a slice of the tree's list.

A loop of the source has two ways to end: the number of keys asked for is
reached, or the callback returns false. Both are in `callUntil`, a fold over
the slice; the loops are shown to be that fold, from any end point and with
any state of the callback.
-/

universe u

namespace AstraKV

open Weave Cut BPTreeNode BPTreePath

variable {α : Type u} {σ : Type*}

/-- Call `cb` on the items in order until it returns false. -/
def callUntil (cb : σ → α → σ × Bool) : σ → List α → σ × Bool
  | s, [] => (s, true)
  | s, k :: ks =>
      match cb s k with
      | (s, false) => (s, false)
      | (s, true) => callUntil cb s ks

/-- The keys a caller sees who moves along the tree until `move` returns false; nothing when
`fuel` moves were not enough. -/
def visits (move : BPTreePath α → Bool × BPTreePath α) : Nat → BPTreePath α → Option (List α)
  | 0, _ => none
  | fuel + 1, path =>
      match move path with
      | (false, _) => some []
      | (true, path) =>
          match terminal? path with
          | none => none
          | some k => (visits move fuel path).map (k :: ·)

namespace BPTree

variable {H N h r n : Nat} {L : List α} {path : BPTreePath α}

/-! ## repeated moves -/

/-- A move that arrives at a key visits it and goes on from there. -/
theorem visits_succ {move : BPTreePath α → Bool × BPTreePath α} {k : α}
    (hgo : (move path).1 = true) (hkey : terminal? (move path).2 = some k) :
    visits move (n + 1) path = (visits move n (move path).2).map (k :: ·) := by
  rw [visits]
  cases hmove : move path with
  | mk go path' =>
      rw [hmove] at hgo hkey
      obtain rfl : go = true := hgo
      dsimp only at hkey ⊢
      rw [hkey]

/-- Repeated `Next` visits the keys after the one the path ends at, and then stops. -/
theorem visits_next (hp : EndsAt L r path) (hfuel : L.length ≤ n + r) :
    visits next n path = some (L.drop (r + 1)) := by
  induction n generalizing r path with
  | zero =>
      have hlt := hp.lt
      omega
  | succ n ih =>
      obtain ⟨hmore, hend⟩ := next_spec hp
      have hlt := hp.lt
      by_cases hlast : r + 1 = L.length
      · rw [visits, hend hlast, List.drop_of_length_le (Nat.le_of_eq hlast.symm)]
      · obtain ⟨hgo, hends⟩ := hmore (by omega)
        have hkey := hends.terminal
        rw [List.getElem?_eq_getElem hends.lt] at hkey
        rw [visits_succ hgo hkey, ih hends (by omega), Option.map_some,
          ← List.drop_eq_getElem_cons hends.lt]

/-- Repeated `Prev` visits the keys before the one the path ends at, and then stops. -/
theorem visits_prev (hp : EndsAt L r path) (hfuel : r < n) :
    visits prev n path = some (L.take r).reverse := by
  induction n generalizing r path with
  | zero => omega
  | succ n ih =>
      obtain ⟨hmore, hend⟩ := prev_endsAt hp
      by_cases hfirst : r = 0
      · rw [visits, hend hfirst, hfirst]
        rfl
      · obtain ⟨hgo, hends⟩ := hmore (by omega)
        have hkey := hends.terminal
        have hlt := hends.lt
        rw [List.getElem?_eq_getElem hlt] at hkey
        rw [visits_succ hgo hkey, ih hends (by omega), Option.map_some]
        obtain ⟨j, rfl⟩ := Nat.exists_eq_succ_of_ne_zero hfirst
        simp only [Nat.succ_eq_add_one, Nat.add_sub_cancel] at hlt ⊢
        rw [← List.take_append_getElem hlt, List.reverse_append, List.reverse_singleton,
          List.singleton_append]

/-! ## the loops -/

/-- Walking forward calls the callback on the next keys, until it says stop. -/
theorem iterateLoop_spec (cb : σ → α → σ × Bool) (s : σ) (hp : EndsAt L r path) :
    iterateLoop cb n path s = some (callUntil cb s ((L.drop r).take n)) := by
  induction n generalizing r path s with
  | zero => rfl
  | succ n ih =>
      have hlt := hp.lt
      obtain ⟨hmore, hend⟩ := next_spec hp
      have hkey : terminal? path = some L[r] := by
        rw [hp.terminal]
        exact List.getElem?_eq_getElem hlt
      rw [List.drop_eq_getElem_cons hlt, List.take_succ_cons]
      unfold iterateLoop callUntil
      rw [hkey]
      dsimp only
      cases cb s L[r] with
      | mk s' go =>
          cases go with
          | false => rfl
          | true =>
              dsimp only
              by_cases hlast : r + 1 = L.length
              · rw [hend hlast, List.drop_of_length_le (Nat.le_of_eq hlast.symm), List.take_nil]
                rfl
              · obtain ⟨hgo, hends⟩ := hmore (by omega)
                cases hnext : next path with
                | mk go' path' =>
                    rw [hnext] at hgo hends
                    dsimp only at hgo hends
                    subst hgo
                    exact ih s' hends

/-- Walking back calls it on the keys before, nearest first. -/
theorem iterateReverseLoop_spec (cb : σ → α → σ × Bool) (s : σ) (hp : EndsAt L r path)
    (hn : n ≤ r + 1) :
    iterateReverseLoop cb n path s = some (callUntil cb s ((L.take (r + 1)).reverse.take n)) := by
  induction n generalizing r path s with
  | zero => rfl
  | succ n ih =>
      have hlt := hp.lt
      obtain ⟨hmore, -⟩ := prev_endsAt hp
      have hkey : terminal? path = some L[r] := by
        rw [hp.terminal]
        exact List.getElem?_eq_getElem hlt
      rw [← List.take_append_getElem hlt, List.reverse_append, List.reverse_singleton,
        List.singleton_append, List.take_succ_cons]
      unfold iterateReverseLoop callUntil
      rw [hkey]
      dsimp only
      cases cb s L[r] with
      | mk s' go =>
          cases go with
          | false => rfl
          | true =>
              dsimp only
              cases n with
              | zero => rfl
              | succ n =>
                  obtain ⟨-, hends⟩ := hmore (by omega)
                  rw [ih s' hends (by omega), Nat.sub_add_cancel (by omega)]

/-- `Iterate` calls back on the keys of ranks `rankStart` to `rankEnd`. -/
theorem iterate_spec {t : BPTree α} (hT : Holds t L) (hL : L.length < 2 ^ 32)
    {rankStart rankEnd : UInt32} (cb : σ → α → σ × Bool) (s : σ) :
    iterate t rankStart rankEnd cb s =
      some (callUntil cb s
        ((L.drop rankStart.toNat).take (rankEnd.toNat + 1 - rankStart.toNat))) := by
  have hsize : t.size.toNat = L.length := by
    unfold size
    rw [hT.count]
    exact UInt32.toNat_ofNat_of_lt' hL
  unfold iterate
  by_cases hout : t.size ≤ rankStart
  · have hle : L.length ≤ rankStart.toNat := by
      rw [← hsize]
      exact UInt32.le_iff_toNat_le.mp hout
    rw [if_pos hout, List.drop_of_length_le hle, List.take_nil]
    rfl
  · have hlt : rankStart.toNat < L.length := by
      rw [← hsize]
      exact Nat.lt_of_not_le fun hle => hout (UInt32.le_iff_toNat_le.mpr hle)
    obtain ⟨p, hres, hends⟩ := fromRank_spec hT hL _ hlt
    rw [if_neg hout, hres]
    exact iterateLoop_spec cb s hends

/-- `IterateReverse` counts ranks from the last key: it calls back on ranks `Size() - 1 - a`
down to `Size() - 1 - b`. -/
theorem iterateReverse_spec {t : BPTree α} (hT : Holds t L) (hL : L.length < 2 ^ 32)
    {rankStart rankEnd : UInt32} (hle : rankStart ≤ rankEnd) (hlt : rankEnd.toNat < L.length)
    (cb : σ → α → σ × Bool) (s : σ) :
    iterateReverse t rankStart rankEnd cb s =
      some (callUntil cb s
        ((L.reverse.drop rankStart.toNat).take (rankEnd.toNat + 1 - rankStart.toNat))) := by
  have hle' : rankStart.toNat ≤ rankEnd.toNat := UInt32.le_iff_toNat_le.mp hle
  have hcount : t.count.toNat = L.length := by
    rw [hT.count]
    exact UInt32.toNat_ofNat_of_lt' hL
  have hrank : (t.count - 1 - rankStart).toNat = L.length - 1 - rankStart.toNat := by
    have hone : (1 : UInt32) ≤ t.count := by
      rw [UInt32.le_iff_toNat_le, hcount]
      exact Nat.one_le_iff_ne_zero.mpr (by omega)
    have hsub : (t.count - 1).toNat = L.length - 1 := by
      rw [UInt32.toNat_sub_of_le _ _ hone, hcount]
      rfl
    rw [UInt32.toNat_sub_of_le _ _ (by rw [UInt32.le_iff_toNat_le, hsub]; omega), hsub]
  obtain ⟨p, hres, hends⟩ := fromRank_spec hT hL (t.count - 1 - rankStart) (by omega)
  unfold iterateReverse
  rw [hres]
  dsimp only
  rw [iterateReverseLoop_spec cb s hends (by omega), hrank,
    show L.length - 1 - rankStart.toNat + 1 = L.length - rankStart.toNat by omega,
    List.reverse_take, Nat.sub_sub_self (by omega)]

/-! ## GEQ and LEQ -/

section Order

variable [Inhabited α] [LT α] [DecidableLT α] {t : BPTree α} {q : α}

/-- `GEQ` ends at the first key not less than `q`, or is empty when there is none. -/
theorem geq_spec (hT : Holds t L) (hcuts : Cuts q L) (hne : L ≠ []) :
    ∃ path L₁ L₂, geq t q = some path ∧ L = L₁ ++ L₂ ∧ (∀ x ∈ L₁, x < q) ∧
      (∀ y ∈ L₂, ¬ y < q) ∧ (L₂ = [] → path = []) ∧ (L₂ ≠ [] → EndsAt L L₁.length path) := by
  obtain ⟨-, rfl, -⟩ | ⟨root, H, N, hroot, htree, -⟩ := hT.shape
  · contradiction
  · have hloc := locate_root hcuts htree
    unfold geq
    rw [hroot, Option.map_some]
    generalize locate q root [] = res at hloc
    cases hloc with
    | @found h m i rest place lt equiv =>
        obtain ⟨tail, hL, -⟩ := place.around lt
        have hcuts' := hL ▸ hcuts
        refine ⟨_, _, _, rfl, hL, hcuts'.lt_left equiv.1, fun y hy => ?_, by simp,
          fun _ => ⟨H, N, h, place, lt, rfl⟩⟩
        cases List.mem_cons.mp hy with
        | inl hy => exact hy ▸ equiv.2
        | inr hy => exact hcuts'.asymm y (by simp [hy]) (hcuts'.gt_right equiv.2 y hy)
    | @missed leaf pos rest place falls sides =>
        obtain ⟨hL, hbelow, habove⟩ := place.gap falls sides
        have hcuts' := hL ▸ hcuts
        have hlen := congrArg List.length hL
        dsimp only
        refine ⟨_, _, _, rfl, hL, hbelow,
          fun y hy => hcuts'.asymm y (List.mem_append_right _ hy) (habove y hy), ?_, ?_⟩
        · intro hnil
          have hpos : leaf.numItems ≤ pos := by
            rw [List.append_eq_nil_iff, place.nodeOK.leaf_itemsFrom] at hnil
            exact List.drop_eq_nil_iff.mp hnil.1
          have hto : leaf.itemsTo pos = leaf.toList := by
            rw [place.nodeOK.leaf_itemsTo, place.nodeOK.leaf_toList,
              List.take_of_length_le hpos]
          have hvalid : hasValidTerminal (⟨leaf, pos⟩ :: rest) = false :=
            decide_eq_false (by show ¬ pos < leaf.numItems; omega)
          rw [hvalid]
          rw [hnil, List.append_nil, hto] at hL
          have hend := (next_leaf place (i := pos) (by omega)).2 (congrArg List.length hL.symm)
          rw [if_neg (by simp), hend]
        · intro hsome
          by_cases hpos : pos < leaf.numItems
          · have hvalid : hasValidTerminal (⟨leaf, pos⟩ :: rest) = true := decide_eq_true hpos
            rw [hvalid, if_pos rfl]
            exact ⟨H, N, 0, place, hpos, rfl⟩
          · -- the end of the leaf: the next key is further up
            have hto : leaf.itemsTo pos = leaf.toList := by
              rw [place.nodeOK.leaf_itemsTo, place.nodeOK.leaf_toList,
                List.take_of_length_le (Nat.le_of_not_lt hpos)]
            have hvalid : hasValidTerminal (⟨leaf, pos⟩ :: rest) = false := decide_eq_false hpos
            have hlt : (before rest ++ leaf.toList).length < L.length := by
              have hsize := List.length_pos_iff.mpr hsome
              rw [hto, List.length_append] at hlen
              omega
            rw [hvalid, if_neg (by simp), hto]
            exact ((next_leaf place (i := pos) (by omega)).1 hlt).2

/-- `LEQ` ends at the last key not greater than `q`, or is empty when there is none. -/
theorem leq_spec (hT : Holds t L) (hcuts : Cuts q L) (hne : L ≠ []) :
    ∃ path L₁ L₂, leq t q = some path ∧ L = L₁ ++ L₂ ∧ (∀ x ∈ L₁, ¬ q < x) ∧
      (∀ y ∈ L₂, q < y) ∧ (L₁ = [] → path = []) ∧
      (L₁ ≠ [] → EndsAt L (L₁.length - 1) path) := by
  obtain ⟨-, rfl, -⟩ | ⟨root, H, N, hroot, htree, -⟩ := hT.shape
  · contradiction
  · have hloc := locate_root hcuts htree
    unfold leq
    rw [hroot, Option.map_some]
    generalize locate q root [] = res at hloc
    cases hloc with
    | @found h m i rest place lt equiv =>
        obtain ⟨tail, hL, -⟩ := place.around lt
        have hcuts' := hL ▸ hcuts
        have hends : EndsAt L (before rest ++ m.itemsTo i).length (⟨m, i⟩ :: rest) :=
          ⟨H, N, h, place, lt, rfl⟩
        refine ⟨_, before rest ++ m.itemsTo i ++ [m.keys[i]], tail ++ after rest, rfl,
          by rw [hL]; simp, fun x hx => ?_, hcuts'.gt_right equiv.2, by simp, fun _ => ?_⟩
        · cases List.mem_append.mp hx with
          | inl hx =>
              intro hq
              exact hcuts'.asymm x (List.mem_append_left _ hx) hq (hcuts'.lt_left equiv.1 x hx)
          | inr hx => exact List.mem_singleton.mp hx ▸ equiv.1
        · rw [List.length_append, List.length_singleton, Nat.add_sub_cancel]
          exact hends
    | @missed leaf pos rest place falls sides =>
        obtain ⟨hL, hbelow, habove⟩ := place.gap falls sides
        have hcuts' := hL ▸ hcuts
        obtain ⟨hmore, hend⟩ := prev_spec place falls.le rfl
        dsimp only
        refine ⟨_, _, _, rfl, hL, fun x hx hq => hcuts'.asymm x (List.mem_append_left _ hx) hq
          (hbelow x hx), habove, fun hnil => ?_, fun hsome => ?_⟩
        · rw [hend (by rw [hnil]; rfl)]
        · exact (hmore (List.length_pos_iff.mpr hsome)).2

end Order

end BPTree

end AstraKV
