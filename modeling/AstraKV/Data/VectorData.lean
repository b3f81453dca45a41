import AstraKV.Lib.LittleEndian

/-!
# AstraKV.Data.VectorData

The vector type (`VectorData` of `vector_data.cpp`) over an index of the
hnswlib library, which is a parameter.

The index works with labels, and the label of a vector is its place in the
lists of IDs and of components, which grow together and never shrink: removing
only marks the label in the index. `WellFormed` is that agreement, and it is
all that is needed to read an entry within its storage.
-/

namespace AstraKV

/-- The bits of a `float`; nothing here computes with them. -/
structure Binary32 where
  bits : UInt32
deriving DecidableEq

/-- `hnswlib::HierarchicalNSW` as far as it is used; a call that throws has no result. -/
structure Hnsw where
  Index : Type
  create : Nat → Index
  addPoint : Index → List Binary32 → Nat → Option Index
  markDelete : Index → Nat → Option Index
  /-- Distances and labels in the order of the queue's `top()`. -/
  searchKnn : Index → List Binary32 → Nat → Option (List (Binary32 × Nat))

structure VectorData (H : Hnsw) where
  dim : Nat
  index : H.Index
  idToVecStorage : List Binary32
  ids : List Bytes
  nextLabel : Nat

namespace VectorData

variable {H : Hnsw}

def new (H : Hnsw) (dim : Nat) : VectorData H := ⟨dim, H.create dim, [], [], 0⟩

/-- `Add`: an ID already there is added once more. -/
def add (v : VectorData H) (id : Bytes) (vec : List Binary32) : Bool × VectorData H :=
  if vec.length ≠ v.dim then (false, v)
  else
    match H.addPoint v.index vec v.nextLabel with
    | none => (false, v)
    | some index =>
        (true, ⟨v.dim, index, v.idToVecStorage ++ vec, v.ids ++ [id], v.nextLabel + 1⟩)

/-- `Remove` marks the label in the index and nothing else. -/
def remove (v : VectorData H) (id : Bytes) : Bool × VectorData H :=
  match v.ids.idxOf? id with
  | none => (false, v)
  | some idx =>
      match H.markDelete v.index idx with
      | none => (false, v)
      | some index => (true, { v with index := index })

/-- The floats stored for label `idx`. -/
def slice (v : VectorData H) (idx : Nat) : List Binary32 :=
  (v.idToVecStorage.drop (idx * v.dim)).take v.dim

def get (v : VectorData H) (id : Bytes) : List Binary32 :=
  match v.ids.idxOf? id with
  | none => []
  | some idx =>
      if idx * v.dim + v.dim > v.idToVecStorage.length then [] else v.slice idx

def contains (v : VectorData H) (id : Bytes) : Bool := id ∈ v.ids

/-- `Search`: the nearest first; labels without an ID are left out. -/
def search (v : VectorData H) (query : List Binary32) (k : Nat) : List (Bytes × Binary32) :=
  if query.length ≠ v.dim ∨ v.ids = [] then []
  else
    let searchK := min k v.ids.length
    if searchK = 0 then []
    else
      match H.searchKnn v.index query searchK with
      | none => []
      | some result =>
          (result.filterMap fun top => v.ids[top.2]?.map fun id => (id, top.1)).reverse

def size (v : VectorData H) : Nat := v.ids.length

def memoryUsage (v : VectorData H) : Nat :=
  v.idToVecStorage.length * 4 + v.ids.length * 32 + v.ids.length * 128

def allEntries (v : VectorData H) : List (Bytes × List Binary32) :=
  v.ids.zipIdx.map fun entry => (entry.1, v.slice entry.2)

/-! ## the entries -/

variable {v : VectorData H} {id : Bytes} {vec : List Binary32}

/-- There is a vector for each ID. -/
def WellFormed (v : VectorData H) : Prop := v.idToVecStorage.length = v.ids.length * v.dim

/-- A new vector set is well formed. -/
theorem wellFormed_new (H : Hnsw) (dim : Nat) : (new H dim).WellFormed := by
  simp [WellFormed, new]

/-- `Add` appends to both lists, or to neither. -/
theorem WellFormed.add (h : v.WellFormed) (id : Bytes) (vec : List Binary32) :
    (v.add id vec).2.WellFormed := by
  unfold VectorData.add
  split
  · exact h
  · rename_i hvec
    split
    · exact h
    · rw [WellFormed] at h ⊢
      simp only [List.length_append, List.length_singleton, h, not_not.mp hvec]
      ring

/-- `Remove` leaves the lists. -/
theorem WellFormed.remove (h : v.WellFormed) (id : Bytes) : (v.remove id).2.WellFormed := by
  unfold VectorData.remove
  split
  · exact h
  · split <;> exact h

/-- `Add` keeps the dimension. -/
theorem dim_add : (v.add id vec).2.dim = v.dim := by
  unfold VectorData.add
  split
  · rfl
  · split <;> rfl

/-- The components of a listed ID lie within the storage. -/
theorem slice_of_lt (h : v.WellFormed) {i : Nat} (hi : i < v.ids.length) :
    i * v.dim + v.dim ≤ v.idToVecStorage.length := by
  rw [h]
  calc
    i * v.dim + v.dim = (i + 1) * v.dim := by ring
    _ ≤ v.ids.length * v.dim := Nat.mul_le_mul_right _ hi

/-- A vector that is taken in is the last entry. -/
theorem allEntries_add (h : v.WellFormed) (hvec : vec.length = v.dim)
    (hadd : H.addPoint v.index vec v.nextLabel ≠ none) :
    (v.add id vec).2.allEntries = v.allEntries ++ [(id, vec)] := by
  obtain ⟨index, hindex⟩ := Option.ne_none_iff_exists'.mp hadd
  unfold VectorData.add
  rw [if_neg (not_not.mpr hvec), hindex]
  simp only [allEntries, List.zipIdx_append, List.map_append]
  congr 1
  · refine List.map_congr_left fun entry hentry => ?_
    have hi : entry.2 < v.ids.length := by
      have hlt := List.snd_lt_of_mem_zipIdx hentry
      simpa using hlt
    have hle := slice_of_lt h hi
    simp only [slice]
    rw [List.drop_append_of_le_length (by omega), List.take_append_of_le_length (by
      rw [List.length_drop]
      omega)]
  · have hdrop : (v.idToVecStorage ++ vec).drop (v.ids.length * v.dim) = vec := by
      rw [← h, List.drop_left]
    simp [slice, hdrop, List.take_of_length_le hvec.le]

/-- Every entry listed has all its components. -/
theorem length_of_mem_allEntries (h : v.WellFormed) {entry : Bytes × List Binary32}
    (hentry : entry ∈ v.allEntries) : entry.2.length = v.dim := by
  obtain ⟨⟨id, i⟩, hmem, rfl⟩ := List.mem_map.mp hentry
  have hi : i < v.ids.length := by simpa using List.snd_lt_of_mem_zipIdx hmem
  have hle := slice_of_lt h hi
  simp only [slice, List.length_take, List.length_drop]
  omega

/-- `Remove` keeps the dimension. -/
theorem dim_remove : (v.remove id).2.dim = v.dim := by
  unfold VectorData.remove
  split
  · rfl
  · split <;> rfl

end VectorData

end AstraKV
