import AstraKV.Data.VectorData
import AstraKV.Lib.Dict
import AstraKV.Lib.Points

/-!
# AstraKV.Data.VectorSearch

`Search` after any run of `Add` and `Remove`, over an index that does what
hnswlib says.  A label is the place of an ID, and `Remove` marks the first
place of the ID whatever is at the others.

`Documented` collects what hnswlib says of its functions, as far as the
results here depend on it: what `addPoint` adds, what `markDelete` hides, and
that a search returns labels that are there, each once, the farthest on top.
`Indexed` relates the labels of the index to the IDs and keeps a list of the
labels that were hidden. An ID added twice has two places, and removing it
hides the first of them each time.
-/

namespace AstraKV

open Machine

/-- What hnswlib says of its index: `vectors` are the vectors that a search may find, by label. -/
structure Hnsw.Documented (H : Hnsw) (vectors : H.Index → Nat → Option (List Binary32))
    (distance : List Binary32 → List Binary32 → Binary32) (le : Binary32 → Binary32 → Prop) :
    Prop where
  create : ∀ dim label, vectors (H.create dim) label = none
  addPoint : ∀ {index index' vec label}, H.addPoint index vec label = some index' →
    vectors index' = Function.update (vectors index) label (some vec)
  /-- It throws if there is no such label, or if it is deleted already. -/
  markDelete_eq_none : ∀ {index label}, H.markDelete index label = none ↔ vectors index label = none
  markDelete : ∀ {index index' label}, H.markDelete index label = some index' →
    vectors index' = Function.update (vectors index) label none
  /-- At most `k` of the vectors, the farthest on top. -/
  searchKnn : ∀ {index query k result}, H.searchKnn index query k = some result →
    result.length ≤ k ∧ (result.map Prod.snd).Nodup ∧
      (∀ top ∈ result, ∃ vec, vectors index top.2 = some vec ∧ top.1 = distance query vec) ∧
      result.Pairwise fun top next => le next.1 top.1

inductive VectorOp where
  | add (id : Bytes) (vec : List Binary32)
  | remove (id : Bytes)

namespace VectorData

variable {H : Hnsw}

def step (v : VectorData H) : VectorOp → Bool × VectorData H
  | .add id vec => v.add id vec
  | .remove id => v.remove id

/-- The ID that is removed. -/
def removing (v : VectorData H) : VectorOp → Option Bytes
  | .add _ _ => none
  | .remove id => if (v.remove id).1 then some id else none

/-! ## what the operations do -/

/-- `Add` refuses, or appends an entry under the next label. -/
theorem add_cases (v : VectorData H) (id : Bytes) (vec : List Binary32) :
    v.add id vec = (false, v) ∨
      ∃ index, vec.length = v.dim ∧ H.addPoint v.index vec v.nextLabel = some index ∧
        v.add id vec =
          (true, ⟨v.dim, index, v.idToVecStorage ++ vec, v.ids ++ [id], v.nextLabel + 1⟩) := by
  unfold VectorData.add
  split
  · exact .inl rfl
  · rename_i hvec
    split
    · exact .inl rfl
    · rename_i index hadd
      exact .inr ⟨index, not_not.mp hvec, hadd, rfl⟩

/-- `Remove` hides the first place of the ID, if it has one that can be hidden. -/
theorem remove_cases (v : VectorData H) (id : Bytes) :
    (id ∉ v.ids ∧ v.remove id = (false, v)) ∨
      ∃ idx, v.ids.idxOf? id = some idx ∧
        ((H.markDelete v.index idx = none ∧ v.remove id = (false, v)) ∨
          ∃ index, H.markDelete v.index idx = some index ∧
            v.remove id = (true, { v with index := index })) := by
  unfold VectorData.remove
  split
  · rename_i hnone
    exact .inl ⟨List.idxOf?_eq_none_iff.mp hnone, rfl⟩
  · rename_i idx hidx
    refine .inr ⟨idx, hidx, ?_⟩
    split
    · rename_i hmark
      exact .inl ⟨hmark, rfl⟩
    · rename_i index hmark
      exact .inr ⟨index, hmark, rfl⟩

/-! ## the index and the IDs -/

variable {vectors : H.Index → Nat → Option (List Binary32)}
  {distance : List Binary32 → List Binary32 → Binary32} {le : Binary32 → Binary32 → Prop}
  {v : VectorData H} {gone : List Bytes} {i : Nat}

/-- Place `i` is the first one of an ID that was removed. -/
def Buried (gone : List Bytes) (v : VectorData H) (i : Nat) : Prop :=
  ∃ id ∈ gone, v.ids.idxOf? id = some i

/-- The index has the vectors of all places but those that are buried. -/
structure Indexed (vectors : H.Index → Nat → Option (List Binary32)) (gone : List Bytes)
    (v : VectorData H) : Prop where
  formed : v.WellFormed
  label : v.nextLabel = v.ids.length
  nodup : gone.Nodup
  present : ∀ id ∈ gone, id ∈ v.ids
  point : ∀ i < v.ids.length, ¬ Buried gone v i → vectors v.index i = some (v.slice i)
  no_point : ∀ i, v.ids.length ≤ i ∨ Buried gone v i → vectors v.index i = none

/-- A later ID does not change the first place of one that is there. -/
theorem idxOf?_append_of_mem {l : List Bytes} {x y : Bytes} (h : x ∈ l) :
    (l ++ [y]).idxOf? x = l.idxOf? x := by
  obtain ⟨i, hi⟩ := Option.isSome_iff_exists.mp (List.isSome_idxOf?.mpr h)
  rw [hi]
  obtain ⟨hlt, heq, hfirst⟩ := List.idxOf?_eq_some_iff.mp hi
  refine List.idxOf?_eq_some_iff.mpr ⟨?_, ?_, fun j hj => ?_⟩
  · rw [List.length_append]
    exact Nat.lt_add_right _ hlt
  · rw [List.getElem_append_left hlt, heq]
  · rw [List.getElem_append_left (hj.trans hlt)]
    exact hfirst j hj

/-- A place lies within the list. -/
theorem lt_of_idxOf? {l : List Bytes} {x : Bytes} (h : l.idxOf? x = some i) : i < l.length :=
  (List.idxOf?_eq_some_iff.mp h).1

/-- The floats of the places there were, after those of one more place. -/
theorem slice_append (h : v.WellFormed) (id : Bytes) (index : H.Index) (n : Nat)
    {vec : List Binary32} (hvec : vec.length = v.dim) :
    let v' : VectorData H := ⟨v.dim, index, v.idToVecStorage ++ vec, v.ids ++ [id], n⟩
    (∀ i < v.ids.length, v'.slice i = v.slice i) ∧ v'.slice v.ids.length = vec := by
  refine ⟨fun i hi => ?_, ?_⟩
  · have hle := slice_of_lt h hi
    simp only [slice]
    rw [List.drop_append_of_le_length (by omega), List.take_append_of_le_length (by
      rw [List.length_drop]
      omega)]
  · simp only [slice]
    rw [← h, List.drop_left, List.take_of_length_le hvec.le]

/-- A new vector set is indexed. -/
theorem indexed_new (hH : H.Documented vectors distance le) (dim : Nat) :
    Indexed vectors [] (new H dim) where
  formed := wellFormed_new H dim
  label := rfl
  nodup := List.nodup_nil
  present := by simp
  point i hi := absurd hi (Nat.not_lt_zero i)
  no_point i _ := hH.create dim i

/-- `Add` keeps labels and IDs in step. -/
theorem Indexed.add (hH : H.Documented vectors distance le) (h : Indexed vectors gone v)
    (id : Bytes) (vec : List Binary32) : Indexed vectors gone (v.add id vec).2 := by
  have hformed := h.formed.add id vec
  obtain hsame | ⟨index, hvec, hadd, heq⟩ := add_cases v id vec
  · rwa [hsame]
  · rw [heq] at hformed ⊢
    have hbury : ∀ i, (∃ x ∈ gone, (v.ids ++ [id]).idxOf? x = some i) ↔ Buried gone v i := by
      intro i
      refine exists_congr fun x => and_congr_right fun hx => ?_
      rw [idxOf?_append_of_mem (h.present x hx)]
    obtain ⟨hold, hnew⟩ := slice_append h.formed id index (v.nextLabel + 1) hvec
    have hfound := hH.addPoint hadd
    rw [h.label] at hfound
    refine ⟨hformed, ?_, h.nodup, fun x hx => ?_, fun i hi hlive => ?_, fun i hi => ?_⟩
    · simp [h.label]
    · exact List.mem_append_left _ (h.present x hx)
    · dsimp only at hi ⊢
      rw [List.length_append, List.length_singleton] at hi
      rw [hfound]
      by_cases hlast : i = v.ids.length
      · rw [hlast, Function.update_self, hnew]
      · have hlt : i < v.ids.length := by omega
        rw [Function.update_of_ne hlast, hold i hlt]
        exact h.point i hlt fun hburied => hlive ((hbury i).mpr hburied)
    · dsimp only at hi ⊢
      rw [List.length_append, List.length_singleton] at hi
      have hi' : i ≠ v.ids.length ∧ (v.ids.length ≤ i ∨ Buried gone v i) := by
        obtain hge | hburied := hi
        · exact ⟨by omega, .inl (by omega)⟩
        · obtain ⟨x, hx, hplace⟩ := (hbury i).mp hburied
          exact ⟨(lt_of_idxOf? hplace).ne, .inr ⟨x, hx, hplace⟩⟩
      rw [hfound, Function.update_of_ne hi'.1]
      exact h.no_point i hi'.2

/-- The first place of an ID is buried if the ID was removed. -/
theorem buried_iff {id : Bytes} (hidx : v.ids.idxOf? id = some i) :
    Buried gone v i ↔ id ∈ gone := by
  constructor
  · rintro ⟨x, hx, hplace⟩
    obtain ⟨_, hid, -⟩ := List.idxOf?_eq_some_iff.mp hidx
    obtain ⟨_, hx', -⟩ := List.idxOf?_eq_some_iff.mp hplace
    rwa [← hid, hx']
  · exact fun hid => ⟨id, hid, hidx⟩

/-- A removal succeeds if the ID is there and was not removed before. -/
theorem Indexed.remove_iff (hH : H.Documented vectors distance le) (h : Indexed vectors gone v)
    (id : Bytes) : (v.remove id).1 = true ↔ id ∈ v.ids ∧ id ∉ gone := by
  obtain ⟨habsent, heq⟩ | ⟨idx, hidx, ⟨hmark, heq⟩ | ⟨index, hmark, heq⟩⟩ := remove_cases v id
  · rw [heq]
    exact iff_of_false Bool.false_ne_true fun hid => habsent hid.1
  · rw [heq]
    refine iff_of_false Bool.false_ne_true fun hid => ?_
    have hpoint := h.point idx (lt_of_idxOf? hidx) fun hgone => hid.2 ((buried_iff hidx).mp hgone)
    rw [hH.markDelete_eq_none.mp hmark] at hpoint
    contradiction
  · rw [heq]
    have hmem : id ∈ v.ids := List.isSome_idxOf?.mp (by rw [hidx]; rfl)
    refine iff_of_true rfl ⟨hmem, fun hgone => ?_⟩
    have hnone := hH.markDelete_eq_none.mpr (h.no_point idx (.inr ((buried_iff hidx).mpr hgone)))
    rw [hmark] at hnone
    contradiction

/-- `Remove` hides a label and keeps them in step. -/
theorem Indexed.remove (hH : H.Documented vectors distance le) (h : Indexed vectors gone v)
    (id : Bytes) :
    Indexed vectors (gone ++ (v.removing (.remove id)).toList) (v.remove id).2 := by
  have hremoved := h.remove_iff hH id
  have hformed := h.formed.remove id
  obtain ⟨-, heq⟩ | ⟨idx, hidx, ⟨-, heq⟩ | ⟨index, hmark, heq⟩⟩ := remove_cases v id
  · simpa [removing, heq] using h
  · simpa [removing, heq] using h
  · have hremoving : v.removing (.remove id) = some id := by simp [removing, heq]
    rw [heq] at hremoved hformed ⊢
    rw [hremoving, Option.toList_some]
    obtain ⟨hmem, hgone⟩ := hremoved.mp rfl
    have hfound := hH.markDelete hmark
    have hbury : ∀ i, Buried (gone ++ [id]) { v with index := index } i ↔
        Buried gone v i ∨ i = idx := by
      intro i
      unfold Buried
      simp only [List.mem_append, List.mem_singleton]
      constructor
      · rintro ⟨x, hx | rfl, hplace⟩
        · exact .inl ⟨x, hx, hplace⟩
        · exact .inr (Option.some.inj (hplace.symm.trans hidx))
      · rintro (⟨x, hx, hplace⟩ | rfl)
        · exact ⟨x, .inl hx, hplace⟩
        · exact ⟨id, .inr rfl, hidx⟩
    refine ⟨hformed, h.label, ?_, ?_, fun i hi hlive => ?_, fun i hi => ?_⟩
    · exact List.nodup_append.mpr ⟨h.nodup, List.nodup_singleton id, by
        rintro x hx x' hx' rfl
        exact hgone (List.mem_singleton.mp hx' ▸ hx)⟩
    · intro x hx
      obtain hx | hx := List.mem_append.mp hx
      · exact h.present x hx
      · rwa [List.mem_singleton.mp hx]
    · rw [hbury, not_or] at hlive
      dsimp only
      rw [hfound, Function.update_of_ne hlive.2]
      exact h.point i hi hlive.1
    · rw [hbury] at hi
      dsimp only at hi ⊢
      rw [hfound]
      by_cases hlast : i = idx
      · rw [hlast, Function.update_self]
      · rw [Function.update_of_ne hlast]
        exact h.no_point i (by tauto)

theorem Indexed.step (hH : H.Documented vectors distance le) (h : Indexed vectors gone v)
    (op : VectorOp) : Indexed vectors (gone ++ (v.removing op).toList) (v.step op).2 := by
  cases op with
  | add id vec =>
      have hkeep := h.add hH id vec
      simpa [removing, VectorData.step] using hkeep
  | remove id => exact h.remove hH id

/-! ## searches -/

/-- What a search finds: places that are not buried, the nearest first. -/
theorem Indexed.search (hH : H.Documented vectors distance le) (h : Indexed vectors gone v)
    (query : List Binary32) (k : Nat) :
    ∃ places : List Nat, places.Nodup ∧ places.length ≤ k ∧
      (∀ i ∈ places, i < v.ids.length ∧ ¬ Buried gone v i) ∧
      v.search query k = places.map (fun i => (v.ids.getD i [], distance query (v.slice i))) ∧
      (v.search query k).Pairwise fun near far => le near.2 far.2 := by
  have hnothing : ∃ places : List Nat, places.Nodup ∧ places.length ≤ k ∧
      (∀ i ∈ places, i < v.ids.length ∧ ¬ Buried gone v i) ∧
      ([] : List (Bytes × Binary32)) =
        places.map (fun i => (v.ids.getD i [], distance query (v.slice i))) ∧
      ([] : List (Bytes × Binary32)).Pairwise fun near far => le near.2 far.2 :=
    ⟨[], by simp⟩
  unfold VectorData.search
  split
  · exact hnothing
  · dsimp only
    split
    · exact hnothing
    · split
      · exact hnothing
      · rename_i result hresult
        obtain ⟨hlength, hnodup, htops, hsorted⟩ := hH.searchKnn hresult
        have hplace : ∀ top ∈ result, top.2 < v.ids.length ∧ ¬ Buried gone v top.2 ∧
            top.1 = distance query (v.slice top.2) := by
          intro top htop
          obtain ⟨vec, hvec, hdistance⟩ := htops top htop
          have hlive : ¬ (v.ids.length ≤ top.2 ∨ Buried gone v top.2) := fun hnone => by
            rw [h.no_point top.2 hnone] at hvec
            contradiction
          obtain ⟨hlt, hburied⟩ := not_or.mp hlive
          rw [h.point top.2 (by omega) hburied] at hvec
          exact ⟨by omega, hburied, by rw [hdistance, Option.some.inj hvec]⟩
        have hmap : (result.filterMap fun top => v.ids[top.2]?.map fun id => (id, top.1)) =
            result.map fun top => (v.ids.getD top.2 [], distance query (v.slice top.2)) := by
          rw [← List.filterMap_eq_map]
          refine List.filterMap_congr fun top htop => ?_
          obtain ⟨hlt, -, hdistance⟩ := hplace top htop
          simp [hlt, hdistance]
        refine ⟨(result.map Prod.snd).reverse, List.nodup_reverse.mpr hnodup, ?_, ?_, ?_, ?_⟩
        · simp only [List.length_reverse, List.length_map]
          exact hlength.trans (min_le_left _ _)
        · intro i hi
          obtain ⟨top, htop, rfl⟩ := List.mem_map.mp (List.mem_reverse.mp hi)
          exact ⟨(hplace top htop).1, (hplace top htop).2.1⟩
        · rw [hmap, List.map_reverse, List.map_map]
          rfl
        · rw [hmap, List.pairwise_reverse, List.pairwise_map]
          refine hsorted.imp_of_mem fun htop hnext hle => ?_
          rwa [← (hplace _ htop).2.2, ← (hplace _ hnext).2.2]

/-- An ID that is there once is at its first place. -/
theorem idxOf?_of_count {l : List Bytes} {x : Bytes} (hone : l.count x ≤ 1) (hi : i < l.length)
    (hx : l[i] = x) : l.idxOf? x = some i := by
  refine List.idxOf?_eq_some_iff.mpr ⟨hi, hx, fun j hj heq => ?_⟩
  have hbefore : x ∈ l.take i := List.mem_take_iff_getElem.mpr ⟨j, by omega, heq⟩
  have hfrom : x ∈ l.drop i := List.mem_drop_iff_getElem.mpr ⟨0, by omega, by simpa using hx⟩
  have hcount : (l.take i).count x + (l.drop i).count x = l.count x := by
    rw [← List.count_append, List.take_append_drop]
  have hpos := List.count_pos_iff.mpr hbefore
  have hpos' := List.count_pos_iff.mpr hfrom
  omega

/-- **A search finds what was not removed, and one removal buries one place.**  After any run of
`Add` and `Remove`, what is found are places of the IDs, none twice, each with the distance of the
vector that is there, the nearest first, and no place is the first one of an ID that was removed; so
an ID that was added once and removed is not found.  An ID can be removed once, however often it is
added. -/
theorem search_after_run (hH : H.Documented vectors distance le) (dim : Nat) (ops : List VectorOp)
    (query : List Binary32) (k : Nat) :
    let v := final VectorData.step (new H dim) ops
    let gone := points VectorData.step removing (new H dim) ops
    (∃ places : List Nat, places.Nodup ∧ places.length ≤ k ∧
      (∀ i ∈ places, i < v.ids.length ∧ ∀ id ∈ gone, v.ids.idxOf? id ≠ some i) ∧
      v.search query k = places.map (fun i => (v.ids.getD i [], distance query (v.slice i))) ∧
      (v.search query k).Pairwise fun near far => le near.2 far.2) ∧
    (∀ id ∈ gone, v.ids.count id ≤ 1 → ∀ near ∈ v.search query k, near.1 ≠ id) ∧
    gone.Nodup ∧ ∀ id, (v.remove id).1 = true ↔ id ∈ v.ids ∧ id ∉ gone := by
  intro v gone
  have h : Indexed vectors gone v :=
    invariant_points (I := Indexed vectors) (fun _ _ op h => h.step hH op) (indexed_new hH dim) ops
  obtain ⟨places, hnodup, hlength, hlive, hsearch, hsorted⟩ := h.search hH query k
  refine ⟨⟨places, hnodup, hlength, fun i hi => ?_, hsearch, hsorted⟩, ?_, h.nodup, h.remove_iff hH⟩
  · exact ⟨(hlive i hi).1, fun id hid hplace => (hlive i hi).2 ⟨id, hid, hplace⟩⟩
  · rintro id hid hone near hnear rfl
    rw [hsearch] at hnear
    obtain ⟨i, hi, rfl⟩ := List.mem_map.mp hnear
    obtain ⟨hlt, hburied⟩ := hlive i hi
    dsimp only at hid hone
    rw [List.getD_eq_getElem _ _ hlt] at hid hone
    exact hburied ⟨_, hid, idxOf?_of_count hone hlt rfl⟩

end VectorData

/-- An index that looks at every point; the bits of distances are ordered as the distances are. -/
def Hnsw.scan (distance : List Binary32 → List Binary32 → Binary32) : Hnsw where
  Index := Dict Nat (List Binary32)
  create _ := ∅
  addPoint index vec label := some (index.insert label vec)
  markDelete index label := if label ∈ index then some (index.erase label) else none
  searchKnn index query k :=
    some (((index.entries.map fun point => (distance query point.2, point.1)).insertionSort
      fun near far => near.1.bits ≤ far.1.bits).take k).reverse

theorem Hnsw.documented_scan (distance : List Binary32 → List Binary32 → Binary32) :
    (Hnsw.scan distance).Documented (fun index label => AList.lookup label index) distance
      fun near far => near.bits ≤ far.bits where
  create _ _ := rfl
  addPoint := by
    rintro index index' vec label hadd
    obtain rfl := Option.some.inj hadd
    funext i
    by_cases hi : i = label
    · rw [hi, Function.update_self]
      exact AList.lookup_insert index
    · rw [Function.update_of_ne hi]
      exact AList.lookup_insert_ne hi
  markDelete_eq_none := by
    intro (index : Dict Nat (List Binary32)) label
    show (if label ∈ index then some (index.erase label) else none) = none ↔
      index.lookup label = none
    rw [AList.lookup_eq_none]
    simp
  markDelete := by
    intro (index : Dict Nat (List Binary32)) index' label hmark
    have hmark : (if label ∈ index then some (index.erase label) else none) = some index' := hmark
    split at hmark
    · obtain rfl := Option.some.inj hmark
      funext i
      by_cases hi : i = label
      · rw [hi, Function.update_self]
        exact AList.lookup_erase label index
      · rw [Function.update_of_ne hi]
        exact AList.lookup_erase_ne hi
    · contradiction
  searchKnn := by
    intro index query k result hsearch
    obtain rfl := Option.some.inj hsearch
    have hperm := List.perm_insertionSort
      (fun near far : Binary32 × Nat => near.1.bits ≤ far.1.bits)
      (index.entries.map fun point => (distance query point.2, point.1))
    have htake := List.take_sublist k
      ((index.entries.map fun point => (distance query point.2, point.1)).insertionSort
        fun near far => near.1.bits ≤ far.1.bits)
    refine ⟨?_, ?_, fun top htop => ?_, ?_⟩
    · rw [List.length_reverse]
      exact List.length_take_le _ _
    · rw [List.map_reverse, List.nodup_reverse]
      refine (htake.map Prod.snd).nodup ((hperm.map Prod.snd).nodup_iff.mpr ?_)
      rw [List.map_map]
      exact index.nodupKeys
    · have hmem := hperm.mem_iff.mp (htake.subset (List.mem_reverse.mp htop))
      obtain ⟨⟨label, vec⟩, hpoint, rfl⟩ := List.mem_map.mp hmem
      exact ⟨vec, AList.mem_lookup_iff.mpr hpoint, rfl⟩
    · rw [List.pairwise_reverse]
      refine List.Pairwise.sublist htake (List.pairwise_insertionSort _ _)

/-- The squared distance of one-dimensional vectors, if they are 0.0 and 1.0. -/
def unitDistance (query vec : List Binary32) : Binary32 :=
  if query = vec then ⟨0⟩ else ⟨0x3f800000⟩

/-- Of an ID that was added twice the second place is found after the removal, and cannot be
removed. -/
theorem VectorData.search_after_run_twice :
    let ops : List VectorOp := [.add [97] [⟨0⟩], .add [98] [⟨0x3f800000⟩], .add [97] [⟨0⟩],
      .remove [97]]
    let v := final VectorData.step (.new (Hnsw.scan unitDistance) 1) ops
    v.search [⟨0⟩] 2 = [([97], ⟨0⟩), ([98], ⟨0x3f800000⟩)] ∧ (v.remove [97]).1 = false := by
  intro ops v
  obtain ⟨-, -, -, hremove⟩ :=
    search_after_run (Hnsw.documented_scan unitDistance) 1 ops [⟨0⟩] 2
  refine ⟨by decide +kernel, ?_⟩
  rw [← Bool.not_eq_true, hremove]
  decide +kernel

end AstraKV
