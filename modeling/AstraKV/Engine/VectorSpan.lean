import AstraKV.Engine.Decode
import AstraKV.Engine.VectorRecord

/-!
# AstraKV.Engine.VectorSpan

`deserialize_vector` as it moves a pointer over the record.

The size of a vector is computed in 32 bits where the end of the record is
looked at and where the pointer moves on, but the span handed to
`VectorData::Add` has as many floats as the record says.

The check is `vec_sz`, a product cut to 32 bits, against the end of the
record; the span has `dim` floats whatever their size. So the bytes read are
tracked one by one, by address (`touched`): an entry reads its length, its ID
and the bytes of its floats, and some of these lie outside the record exactly
when the floats of an entry end behind it. With dimensions below 2^30 the
product fits and nothing of this happens.
-/

namespace AstraKV

open Framed LittleEndian Reader

variable {H : Hnsw} {data : Bytes} {beyond : Nat → UInt8} {v : VectorData H} {c : Cursor}
  {dim vdim count p i : Nat}

/-! ## pointer code -/

section Pointer

variable (data : Bytes) (beyond : Nat → UInt8)

/-- The floats that `Add` is handed.  It reads them if the vectors of the key have the dimension
`vdim` that they have. -/
def spanAt (vdim dim : Nat) : Reader (List Binary32) := fun c =>
  (some (floats beyond dim (data.drop c.ptr)),
    ⟨c.ptr + floatBytes dim,
      c.touched ++ if dim = vdim then List.range' c.ptr (4 * dim) else []⟩)

/-- An ID and the floats behind it, which one check covers. -/
def vectorItemAt (vdim dim : Nat) : Reader (Bytes × List Binary32) := do
  let len ← lengthAt data beyond
  check data (len + floatBytes dim)
  let id ← fetch data beyond len
  let vec ← spanAt data beyond vdim dim
  pure (id, vec)

/-- The dimension and the count. -/
def vectorHeaderAt : Reader (Nat × Nat) := do
  let dim ← fetchNat data beyond 4
  let count ← fetchNat data beyond 4
  pure (dim, count)

def deserializeVectorAt (v : VectorData H) : (Bool × VectorData H) × Cursor :=
  if data.length < 8 then ((false, v), ⟨0, []⟩)
  else
    match vectorHeaderAt data beyond ⟨0, []⟩ with
    | (none, c) => ((false, v), c)
    | (some (dim, count), c) =>
        loop (vectorItemAt data beyond v.dim dim) (fun v entry => (v.add entry.1 entry.2).2)
          count v c

end Pointer

/-! ## where the floats are -/

/-- Where the floats of the entry at `ptr` begin, if it is all there by its size in 32 bits. -/
def floatStart? (data : Bytes) (dim ptr : Nat) : Option Nat :=
  (get? 4 (data.drop ptr)).bind fun res =>
    if ptr + 4 + res.1 + floatBytes dim ≤ data.length then some (ptr + 4 + res.1) else none

def floatStartsFrom (data : Bytes) (dim : Nat) : Nat → Nat → List Nat
  | 0, _ => []
  | count + 1, ptr =>
      match floatStart? data dim ptr with
      | none => []
      | some p => p :: floatStartsFrom data dim count (p + floatBytes dim)

def dimField (data : Bytes) : Nat := value (data.take 4)

/-- Where the floats of the entries begin, as far as entries are there. -/
def floatStarts (data : Bytes) : List Nat :=
  if data.length < 8 then []
  else floatStartsFrom data (dimField data) (value ((data.drop 4).take 4)) 8

/-! ## an entry -/

/-- The length of the ID at `ptr`. -/
def lengthField (data : Bytes) (ptr : Nat) : Nat := value ((data.drop ptr).take 4)

/-- Where the floats of an entry begin, if it passes the check. -/
theorem floatStart?_eq (hlen : c.ptr + 4 ≤ data.length) :
    floatStart? data dim c.ptr =
      if c.ptr + 4 + lengthField data c.ptr + floatBytes dim ≤ data.length then
        some (c.ptr + 4 + lengthField data c.ptr)
      else none := by
  unfold floatStart?
  rw [get?_drop hlen]
  rfl

/-- Without four bytes left there is no length. -/
theorem get?_length_eq_none (hlen : ¬ c.ptr + 4 ≤ data.length) :
    get? 4 (data.drop c.ptr) = none := by
  simp [get?, take?]
  omega

/-- Reading the length touches its four bytes. -/
theorem lengthAt_apply (hlen : c.ptr + 4 ≤ data.length) :
    lengthAt data beyond c =
      (some (lengthField data c.ptr), ⟨c.ptr + 4, c.touched ++ List.range' c.ptr 4⟩) := by
  rw [lengthAt, bind_apply, check, if_neg (by omega)]
  exact fetchNat_apply hlen

/-- The ID at `ptr`, behind its length. -/
def idField (data : Bytes) (ptr : Nat) : Bytes := (data.drop (ptr + 4)).take (lengthField data ptr)

/-- The decoder of lists finds the same floats. -/
theorem vectorItem_drop :
    vectorItem beyond dim (data.drop c.ptr) = (floatStart? data dim c.ptr).map fun p =>
      ((idField data c.ptr, floats beyond dim (data.drop p)), data.drop (p + floatBytes dim)) := by
  unfold vectorItem getBytes?
  by_cases hlen : c.ptr + 4 ≤ data.length
  · rw [floatStart?_eq hlen, get?_drop hlen]
    simp only [Option.bind_eq_bind, Option.bind_some, take?, List.length_drop, List.drop_drop]
    rw [← lengthField]
    by_cases hid : c.ptr + 4 + lengthField data c.ptr ≤ data.length
    · rw [if_pos (by omega)]
      simp only [Option.bind_some, List.length_drop, List.drop_drop]
      by_cases hin : c.ptr + 4 + lengthField data c.ptr + floatBytes dim ≤ data.length
      · rw [if_pos (by omega), if_pos hin]
        rfl
      · rw [if_neg (by omega), if_neg hin]
        rfl
    · rw [if_neg (by omega), if_neg (by omega)]
      rfl
  · have hnone : floatStart? data dim c.ptr = none := by
      rw [floatStart?, get?_length_eq_none hlen]
      rfl
    rw [hnone, get?_length_eq_none hlen]
    rfl

/-- An entry that is not all there is not taken in, and nothing outside is read of it. -/
theorem vectorItemAt_none (h : floatStart? data dim c.ptr = none) (beyond : Nat → UInt8)
    (vdim : Nat) :
    ∃ c', vectorItemAt data beyond vdim dim c = (none, c') ∧
      ∀ i, Outside data c' i ↔ Outside data c i := by
  unfold vectorItemAt
  by_cases hlen : c.ptr + 4 ≤ data.length
  · rw [floatStart?_eq hlen] at h
    have hout : ¬ c.ptr + 4 + lengthField data c.ptr + floatBytes dim ≤ data.length := by
      intro hin
      rw [if_pos hin] at h
      cases h
    refine ⟨_, ?_, fun i => outside_advance hlen⟩
    rw [bind_apply, lengthAt_apply hlen]
    dsimp only
    rw [bind_apply, check, if_pos (by dsimp only; omega)]
  · refine ⟨c, ?_, fun i => Iff.rfl⟩
    rw [bind_apply, lengthAt, bind_apply, check, if_pos (by omega)]

/-- Behind an entry whose floats begin at `p`. -/
def behind (data : Bytes) (vdim dim : Nat) (c : Cursor) (p : Nat) : Cursor :=
  ⟨p + floatBytes dim, c.touched ++ List.range' c.ptr 4 ++
    List.range' (c.ptr + 4) (lengthField data c.ptr) ++
      if dim = vdim then List.range' p (4 * dim) else []⟩

/-- An entry that passes has room for the size computed. -/
theorem floatStart?_eq_some (h : floatStart? data dim c.ptr = some p) :
    c.ptr + 4 ≤ data.length ∧ p = c.ptr + 4 + lengthField data c.ptr ∧
      p + floatBytes dim ≤ data.length := by
  have hlen : c.ptr + 4 ≤ data.length := by
    by_contra hnot
    rw [floatStart?, get?_length_eq_none hnot] at h
    cases h
  rw [floatStart?_eq hlen] at h
  split at h
  · rename_i hin
    obtain rfl := Option.some.inj h
    exact ⟨hlen, rfl, hin⟩
  · cases h

/-- Reading such an entry touches its ID and its floats. -/
theorem vectorItemAt_some (h : floatStart? data dim c.ptr = some p) :
    vectorItemAt data beyond vdim dim c =
      (some (idField data c.ptr, floats beyond dim (data.drop p)), behind data vdim dim c p) := by
  obtain ⟨hlen, rfl, hin⟩ := floatStart?_eq_some h
  have hid : c.ptr + 4 + lengthField data c.ptr ≤ data.length := by omega
  have hfetch : fetch data beyond (lengthField data c.ptr)
      ⟨c.ptr + 4, c.touched ++ List.range' c.ptr 4⟩ = _ := fetch_apply hid
  unfold vectorItemAt
  rw [bind_apply, lengthAt_apply hlen]
  dsimp only
  rw [bind_apply, check, if_neg (by dsimp only; omega)]
  dsimp only
  rw [bind_apply, hfetch]
  rfl

/-- Outside, the floats are read and nothing else. -/
theorem outside_behind (h : floatStart? data dim c.ptr = some p) :
    Outside data (behind data vdim dim c p) i ↔ Outside data c i ∨
      (dim = vdim ∧ data.length ≤ i ∧ p ≤ i ∧ i < p + 4 * dim) := by
  obtain ⟨hlen, rfl, hin⟩ := floatStart?_eq_some h
  have hhead : Outside data ⟨c.ptr + 4 + lengthField data c.ptr, c.touched ++ List.range' c.ptr 4 ++
      List.range' (c.ptr + 4) (lengthField data c.ptr)⟩ i ↔ Outside data c i := by
    have hid : c.ptr + 4 + lengthField data c.ptr ≤ data.length := by omega
    exact (outside_advance (c := ⟨c.ptr + 4, c.touched ++ List.range' c.ptr 4⟩) hid).trans
      (outside_advance hlen)
  rw [← hhead]
  unfold Outside behind
  dsimp only
  by_cases hdim : dim = vdim
  · rw [if_pos hdim, List.mem_append (s := c.touched ++ _ ++ _), List.mem_range'_1]
    tauto
  · rw [if_neg hdim, List.append_nil]
    tauto

/-! ## the record -/

section Loop

variable {σ : Type} {insert : σ → Bytes × List Binary32 → σ} {s : σ}

/-- The pointer loop reads the items of the record. -/
theorem loop_vectorItemAt :
    (loop (vectorItemAt data beyond vdim dim) insert count s c).1 =
      ((readItems (vectorItem beyond dim) insert count (data.drop c.ptr) s).1.isSome,
        (readItems (vectorItem beyond dim) insert count (data.drop c.ptr) s).2) := by
  induction count generalizing s c with
  | zero => rfl
  | succ count ih =>
      unfold loop readItems
      rw [vectorItem_drop]
      cases hstart : floatStart? data dim c.ptr with
      | none =>
          obtain ⟨c', hnone, -⟩ := vectorItemAt_none hstart beyond vdim
          rw [hnone]
          rfl
      | some p =>
          rw [vectorItemAt_some hstart]
          exact ih

/-- Outside, a loop over entries reads their floats and nothing else. -/
theorem outside_loop :
    Outside data (loop (vectorItemAt data beyond vdim dim) insert count s c).2 i ↔
      Outside data c i ∨ (dim = vdim ∧ data.length ≤ i ∧
        ∃ p ∈ floatStartsFrom data dim count c.ptr, p ≤ i ∧ i < p + 4 * dim) := by
  induction count generalizing s c with
  | zero => simp [loop, floatStartsFrom]
  | succ count ih =>
      unfold loop floatStartsFrom
      cases hstart : floatStart? data dim c.ptr with
      | none =>
          obtain ⟨c', hnone, houtside⟩ := vectorItemAt_none hstart beyond vdim
          rw [hnone]
          simp [houtside]
      | some p =>
          rw [vectorItemAt_some hstart]
          refine ih.trans ?_
          rw [outside_behind hstart]
          simp only [behind, List.exists_mem_cons_iff]
          tauto

end Loop

/-- Reading the header touches eight bytes. -/
theorem vectorHeaderAt_apply (hlen : 8 ≤ data.length) :
    vectorHeaderAt data beyond ⟨0, []⟩ =
      (some (dimField data, value ((data.drop 4).take 4)),
        ⟨8, List.range' 0 4 ++ List.range' 4 4⟩) := by
  have hcount : fetchNat data beyond 4 ⟨4, List.range' 0 4⟩ = _ :=
    fetchNat_apply (c := ⟨4, List.range' 0 4⟩) (by dsimp only; omega)
  unfold vectorHeaderAt
  rw [bind_apply, fetchNat_apply (by dsimp only; omega)]
  show (fetchNat data beyond 4 >>= fun count => pure (dimField data, count))
    ⟨4, List.range' 0 4⟩ = _
  rw [bind_apply, hcount]
  rfl

/-- It is the decoder of the engine. -/
theorem deserializeVectorAt_fst (data : Bytes) (beyond : Nat → UInt8) (v : VectorData H) :
    (deserializeVectorAt data beyond v).1 = deserializeVector beyond data v := by
  unfold deserializeVectorAt deserializeVector readRecord
  by_cases hlen : data.length < 8
  · rw [if_pos hlen]
    by_cases hdim : data.length < 4
    · have hnone : get? 4 data = none := by simp [get?, take?, hdim]
      rw [hnone]
    · have hsome : get? 4 data = some (dimField data, data.drop 4) :=
        get?_drop (c := ⟨0, []⟩) (by dsimp only; omega)
      have hnone : get? 4 (data.drop 4) = none := by
        simp [get?, take?]
        omega
      rw [hsome]
      dsimp only
      rw [hnone]
  · have hdim : get? 4 data = some (dimField data, data.drop 4) :=
      get?_drop (c := ⟨0, []⟩) (by dsimp only; omega)
    have hcount : get? 4 (data.drop 4) =
        some (value ((data.drop 4).take 4), data.drop 8) :=
      get?_drop (c := ⟨4, []⟩) (by dsimp only; omega)
    rw [if_neg hlen, vectorHeaderAt_apply (by omega), hdim]
    dsimp only
    rw [hcount]
    exact loop_vectorItemAt

/-- What is touched outside the record are floats of an entry. -/
theorem outside_deserializeVectorAt (data : Bytes) (beyond : Nat → UInt8) (v : VectorData H) :
    Outside data (deserializeVectorAt data beyond v).2 i ↔
      dimField data = v.dim ∧ data.length ≤ i ∧
        ∃ p ∈ floatStarts data, p ≤ i ∧ i < p + 4 * dimField data := by
  unfold deserializeVectorAt floatStarts
  by_cases hlen : data.length < 8
  · rw [if_pos hlen, if_pos hlen]
    simp [Outside]
  · have hheader : ¬ Outside data ⟨8, List.range' 0 4 ++ List.range' 4 4⟩ i := by
      unfold Outside
      rw [List.mem_append, List.mem_range'_1, List.mem_range'_1]
      omega
    rw [if_neg hlen, if_neg hlen, vectorHeaderAt_apply (by omega)]
    dsimp only
    rw [outside_loop, or_iff_right hheader]

/-- The floats begin within the record. -/
theorem floatStart_le (h : p ∈ floatStarts data) :
    p + floatBytes (dimField data) ≤ data.length := by
  have hfrom : ∀ count ptr, p ∈ floatStartsFrom data (dimField data) count ptr →
      p + floatBytes (dimField data) ≤ data.length := by
    intro count
    induction count with
    | zero => exact fun ptr hp => absurd hp List.not_mem_nil
    | succ count ih =>
        intro ptr hp
        unfold floatStartsFrom at hp
        cases hstart : floatStart? data (dimField data) ptr with
        | none =>
            rw [hstart] at hp
            cases hp
        | some q =>
            rw [hstart] at hp
            obtain rfl | hp := List.mem_cons.mp hp
            · exact (floatStart?_eq_some (c := ⟨ptr, []⟩) hstart).2.2
            · exact ih _ hp
  unfold floatStarts at h
  split at h
  · cases h
  · exact hfrom _ _ h

/-- **When a record is read in its bounds.**  It is if its dimension is not the one of the vectors
it is read into, or four times that fits in 32 bits, or the floats of each entry that is taken in
are there in full. -/
theorem deserializeVector_inside_iff (data : Bytes) (beyond : Nat → UInt8) (v : VectorData H) :
    ((deserializeVectorAt data beyond v).1 = deserializeVector beyond data v ∧
        ∀ i ∈ (deserializeVectorAt data beyond v).2.touched, i < data.length) ↔
      dimField data ≠ v.dim ∨ dimField data < 2 ^ 30 ∨
        ∀ p ∈ floatStarts data, p + 4 * dimField data ≤ data.length := by
  rw [and_iff_right (deserializeVectorAt_fst data beyond v), ← not_outside_iff]
  simp only [outside_deserializeVectorAt]
  constructor
  · intro hinside
    by_contra hnot
    simp only [not_or, not_not, not_lt, not_forall, not_le] at hnot
    obtain ⟨hdim, -, p, hp, hover⟩ := hnot
    have hle := floatStart_le hp
    exact hinside ⟨data.length, hdim, le_rfl, p, hp, by omega, hover⟩
  · rintro hcond ⟨i, hdim, hout, p, hp, -, hlt⟩
    obtain hne | hsmall | hin := hcond
    · exact hne hdim
    · have hle := floatStart_le hp
      have hbytes : floatBytes (dimField data) = dimField data * 4 := Nat.mod_eq_of_lt (by omega)
      omega
    · have hle := hin p hp
      omega

/-- A record of 13 bytes that announces a vector of 2^30 floats. -/
def wrapped : Bytes := [0, 0, 0, 64, 1, 0, 0, 0, 1, 0, 0, 0, 97]

/-- None of the floats is there, and all of them are read. -/
theorem wrapped_outside :
    ¬ ∀ i ∈ (deserializeVectorAt wrapped (fun _ => 0)
      (VectorData.new Env.bare.hnsw (2 ^ 30))).2.touched, i < wrapped.length := by
  have hdim : dimField wrapped = 2 ^ 30 := by decide
  have hstart : floatStarts wrapped = [13] := by decide +kernel
  have hout : Outside wrapped (deserializeVectorAt wrapped (fun _ => 0)
      (VectorData.new Env.bare.hnsw (2 ^ 30))).2 13 := by
    rw [outside_deserializeVectorAt, hdim, hstart]
    exact ⟨rfl, by decide, 13, List.mem_singleton_self 13, le_rfl, by decide⟩
  intro h
  exact absurd (h 13 hout.1) (by decide)

end AstraKV
