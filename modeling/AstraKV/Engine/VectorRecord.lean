import AstraKV.Engine.Local
import AstraKV.Engine.Reply
import AstraKV.Engine.RoundTrip

/-!
# AstraKV.Engine.VectorRecord

What the vectors of a key are read as from their record.  The record has the
dimension in it, but the container it is read into has the dimension of the
caller, and vectors of any other are not taken in.

Most callers that only want to look use a dimension of zero or that of their
query, so a record of another dimension is read as an empty vector set, put
into the map, and registered: looking at the vectors hides them. The record
itself is sound; with the right dimension it gives back every entry in order,
repetitions included.
-/

namespace AstraKV

open Framed LittleEndian Machine Slot

variable {H : Hnsw} {v : VectorData H}

/-! ## records -/

/-- Reading one float more. -/
theorem floats_succ (beyond : Nat → UInt8) (dim : Nat) {bs : Bytes} (hbs : bs.length = 4)
    (data : Bytes) :
    floats beyond (dim + 1) (bs ++ data) = ⟨UInt32.ofNat (value bs)⟩ :: floats beyond dim data := by
  obtain ⟨b₀, b₁, b₂, b₃, rfl⟩ : ∃ b₀ b₁ b₂ b₃, bs = [b₀, b₁, b₂, b₃] := by
    match bs, hbs with
    | [b₀, b₁, b₂, b₃], _ => exact ⟨b₀, b₁, b₂, b₃, rfl⟩
  unfold floats
  rw [List.range_succ_eq_map, List.map_cons, List.map_map]
  congr 1
  refine List.map_congr_left fun i _ => ?_
  have hshift : (List.range' (4 * (i + 1)) 4).map (fun n =>
      ([b₀, b₁, b₂, b₃] ++ data)[n]?.getD (beyond (n - ([b₀, b₁, b₂, b₃] ++ data).length))) =
      (List.range' (4 * i) 4).map fun n => data[n]?.getD (beyond (n - data.length)) := by
    have hrange : List.range' (4 * (i + 1)) 4 = (List.range' (4 * i) 4).map (4 + ·) := by
      rw [List.map_add_range', Nat.mul_succ, Nat.add_comm]
    rw [hrange, List.map_map]
    refine List.map_congr_left fun n _ => ?_
    have hget : ([b₀, b₁, b₂, b₃] ++ data)[4 + n]? = data[n]? := by
      rw [List.getElem?_append_right (by simp)]
      simp
    have hlength : 4 + n - ([b₀, b₁, b₂, b₃] ++ data).length = n - data.length := by
      simp
      omega
    simp only [Function.comp_apply, hget, hlength]
  simp only [Function.comp_apply, hshift]

/-- Floats written are read back. -/
theorem floats_flatMap (beyond : Nat → UInt8) (xs : List Binary32) (data : Bytes) :
    floats beyond xs.length (xs.flatMap (fun x => put 4 x.bits.toNat) ++ data) = xs := by
  induction xs with
  | nil => rfl
  | cons x xs ih =>
      rw [List.length_cons, List.flatMap_cons, List.append_assoc,
        floats_succ beyond _ (length_put 4 _), ih, value_put]
      congr 1
      have hlt := x.bits.toNat_lt
      rw [Nat.mod_eq_of_lt (show x.bits.toNat < 256 ^ 4 from hlt), UInt32.ofNat_toNat]

/-- `addPoint` never throws. -/
def Hnsw.Accepts (H : Hnsw) : Prop := ∀ index vec label, H.addPoint index vec label ≠ none

namespace VectorData

def FitsRecord (v : VectorData H) : Prop :=
  v.dim * 4 < 2 ^ 32 ∧ v.ids.length < 2 ^ 32 ∧ ∀ id ∈ v.ids, id.length < 2 ^ 32

/-- One turn of the decoder. -/
def readd (v : VectorData H) (entry : Bytes × List Binary32) : VectorData H :=
  (v.add entry.1 entry.2).2

/-- An entry written is read back. -/
theorem vectorItem_put (beyond : Nat → UInt8) {entry : Bytes × List Binary32}
    (hid : entry.1.length < 2 ^ 32) (hdim : entry.2.length * 4 < 2 ^ 32) (rest : Bytes) :
    vectorItem beyond entry.2.length (putBytes entry.1 ++
        (entry.2.flatMap fun x => put 4 x.bits.toNat).take (floatBytes entry.2.length) ++ rest) =
      some (entry, rest) := by
  have hbytes : floatBytes entry.2.length = entry.2.length * 4 := Nat.mod_eq_of_lt hdim
  have hlength : (entry.2.flatMap fun x => put 4 x.bits.toNat).length = entry.2.length * 4 := by
    simp [List.length_flatMap]
  rw [vectorItem, hbytes, ← hlength, List.take_length, List.append_assoc, getBytes?_putBytes,
    clip_of_lt hid]
  simp only [Option.bind_eq_bind, Option.bind_some, take?_append, floats_flatMap]

/-- A vector set is read back by adding its entries again. -/
theorem deserializeVector_serialize (beyond : Nat → UInt8) (hformed : v.WellFormed)
    (hfits : v.FitsRecord) (start : VectorData H) :
    deserializeVector beyond (serializeVector v) start =
      (true, v.allEntries.foldl readd start) := by
  obtain ⟨hdim, hcount, hids⟩ := hfits
  have hitem : ∀ entry ∈ v.allEntries, ∀ rest, vectorItem beyond v.dim (putBytes entry.1 ++
      (entry.2.flatMap fun x => put 4 x.bits.toNat).take (floatBytes v.dim) ++ rest) =
        some (entry, rest) := by
    intro entry hentry rest
    have hvec := length_of_mem_allEntries hformed hentry
    have hid : entry.1 ∈ v.ids := by
      obtain ⟨⟨id, i⟩, hmem, rfl⟩ := List.mem_map.mp hentry
      exact List.fst_mem_of_mem_zipIdx hmem
    rw [← hvec] at hdim ⊢
    exact vectorItem_put beyond (hids entry.1 hid) hdim rest
  have hlength : v.allEntries.length < 2 ^ 32 := by simpa [allEntries] using hcount
  unfold deserializeVector serializeVector resize
  dsimp only
  rw [List.append_assoc, List.append_assoc, get?_put]
  dsimp only
  rw [Nat.mod_eq_of_lt (show v.dim < 256 ^ 4 by omega), ← List.append_assoc]
  exact readRecord_of_complete hlength hitem _ start

/-- Adding them leaves the dimension. -/
theorem dim_foldl_readd (entries : List (Bytes × List Binary32)) (start : VectorData H) :
    (entries.foldl readd start).dim = start.dim := by
  induction entries generalizing start with
  | nil => rfl
  | cons entry entries ih => rw [List.foldl_cons, ih, readd, dim_add]

/-- Entries of the right dimension are all added. -/
theorem allEntries_foldl_readd (hadd : H.Accepts) {entries : List (Bytes × List Binary32)}
    {start : VectorData H} (hstart : start.WellFormed)
    (h : ∀ entry ∈ entries, entry.2.length = start.dim) :
    (entries.foldl readd start).allEntries = start.allEntries ++ entries := by
  induction entries generalizing start with
  | nil => simp
  | cons entry entries ih =>
      obtain ⟨hentry, hentries⟩ := List.forall_mem_cons.mp h
      have hrest : ∀ entry' ∈ entries, entry'.2.length = (start.readd entry).dim := by
        intro entry' h'
        rw [readd, dim_add, hentries entry' h']
      have hformed : (start.readd entry).WellFormed := hstart.add entry.1 entry.2
      rw [List.foldl_cons, ih hformed hrest, readd, allEntries_add hstart hentry (hadd _ _ _),
        List.append_assoc]
      rfl

/-- The record is read into a container of any dimension, but only one of the dimension of the
vectors takes them in. -/
theorem deserializeVector_of_fits (beyond : Nat → UInt8) (hadd : H.Accepts)
    (hformed : v.WellFormed) (hfits : v.FitsRecord) (dim : Nat) :
    ∃ v', deserializeVector beyond (serializeVector v) (.new H dim) = (true, v') ∧ v'.dim = dim ∧
      (dim = v.dim → v'.allEntries = v.allEntries) := by
  refine ⟨_, deserializeVector_serialize beyond hformed hfits _, dim_foldl_readd _ _,
    fun hdim => ?_⟩
  exact allEntries_foldl_readd hadd (wellFormed_new H dim) fun entry hentry =>
    (length_of_mem_allEntries hformed hentry).trans hdim.symm

end VectorData

/-! ## the callers -/

/-- The operations that look for the vectors of `key`, a search with a query of dimension `dim`. -/
def Op.ReloadsVector (key : Bytes) (dim : Nat) : Op → Prop
  | .vecget k _ | .vecdel k _ | .vecsize k => k = key
  | .vecsearch k query _ => k = key ∧ query.length = dim
  | _ => False

namespace Engine

variable {E : Env} {e : Engine E} {key : Bytes} {c : Call} {op : Op}

/-- The map has vectors of the same dimension and with the same entries. -/
def HasVectors (e : Engine E) (key : Bytes) (v : VectorData E.hnsw) : Prop :=
  ∃ v', e.find .kVector key = some v' ∧ v'.dim = v.dim ∧ v'.allEntries = v.allEntries

/-- The value found in the map afterwards. -/
theorem Leaves.find {s : Slot E} {e' : Engine E} {t : KeyType} (h : Leaves e key s e') :
    e'.find t key = s.value t := congrArg (fun s => s.value t) h.slot_self

/-- A read that goes through is a look. -/
theorem act_read {s : Slot E} {disk guarded : Bool} {t : KeyType} {dim : Nat}
    (h : s.valid c.now = true ∨ guarded = false) :
    s.act c disk (.read guarded t dim) = s.fetch c t dim := by
  unfold Slot.act
  obtain h | h := h <;> simp [h]

/-- The vectors of a key without vectors in the map come back from their record only by a search. -/
theorem reload_keeps_iff {v : VectorData E.hnsw} (hadd : E.hnsw.Accepts) (hdim : 0 < v.dim)
    (hformed : v.WellFormed) (hfits : v.FitsRecord) (hnew : e.find .kVector key = none)
    (hrecord : e.rocksGet key = some (serializeVector v)) (hop : op.ReloadsVector key v.dim)
    (hvalid : ∀ dim, op.shape E c = .read true .kVector dim → (e.slot key).valid c.now = true) :
    (e.step (c, op)).2.HasVectors key v ↔ ∃ query k, op = .vecsearch key query k := by
  have hfetched : ∀ dim, ∃ v', ((e.slot key).fetch c .kVector dim).value .kVector = some v' ∧
      v'.dim = dim ∧ (dim = v.dim → v'.allEntries = v.allEntries) := by
    intro dim
    obtain ⟨v', hdecode, hv'⟩ :=
      VectorData.deserializeVector_of_fits c.beyond hadd hformed hfits dim
    refine ⟨v', ?_, hv'⟩
    have hvalue : (e.slot key).value .kVector = none := hnew
    have hload : (e.slot key).load c .kVector dim = some v' := by
      rw [Slot.load, show (e.slot key).record = _ from hrecord, Option.bind_some, Slot.decode,
        hdecode]
      rfl
    rw [value_fetch, Slot.found, hvalue, hload]
    rfl
  -- a search is the only caller that passes on the dimension
  have hcaller : ∀ {e' : Engine E} {s : Slot E} {v'}, Leaves e key s e' →
      s.value .kVector = some v' → v'.dim = 0 → ¬ e'.HasVectors key v := by
    intro e' s v' hleaves hvalue hzero hhas
    obtain ⟨v'', hfind, hdim', -⟩ := hhas
    rw [hleaves.find, hvalue] at hfind
    obtain rfl := Option.some.inj hfind
    omega
  cases op with
  | vecget k id =>
      obtain rfl := hop
      obtain ⟨v', hv', hzero, -⟩ := hfetched 0
      have hleaves : Leaves e k ((e.slot k).act c e.disk (.read true .kVector 0))
          (e.vecget c k id).2 :=
        (getOrCreateVector_fetches e c k 0).guarded_leaves (answer_snd _)
      rw [act_read (.inl (hvalid 0 rfl))] at hleaves
      exact iff_of_false (hcaller hleaves hv' hzero) (by simp)
  | vecdel k id =>
      obtain rfl := hop
      obtain ⟨v', hv', hzero, -⟩ := hfetched 0
      have hleaves : Leaves e k (change e.disk (c.putOk 0) ((e.slot k).fetch c .kVector 0) .kVector
          (persistIf (fun ok => ok) fun v => v.remove id)) (e.vecdel c k id).2 :=
        (getOrCreateVector_fetches e c k 0).update_leaves (fun v => v.remove id) fun ok => ok
      have hvalue : (change e.disk (c.putOk 0) ((e.slot k).fetch c .kVector 0) .kVector
          (persistIf (fun ok => ok) fun v => v.remove id)).value .kVector =
            some (v'.remove id).2 := value_change hv'
      exact iff_of_false (hcaller hleaves hvalue (VectorData.dim_remove.trans hzero)) (by simp)
  | vecsize k =>
      obtain rfl := hop
      obtain ⟨v', hv', hzero, -⟩ := hfetched 0
      have hleaves : Leaves e k ((e.slot k).act c e.disk (.read false .kVector 0))
          (e.vecsize c k).2 :=
        (getOrCreateVector_fetches e c k 0).answer_leaves _
      rw [act_read (.inr rfl)] at hleaves
      exact iff_of_false (hcaller hleaves hv' hzero) (by simp)
  | vecsearch k query n =>
      obtain ⟨rfl, hquery⟩ := hop
      obtain ⟨v', hv', hdim', hentries⟩ := hfetched query.length
      have hleaves : Leaves e k ((e.slot k).act c e.disk (.read true .kVector query.length))
          (e.vecsearch c k query n).2 :=
        (getOrCreateVector_fetches e c k query.length).guarded_leaves (answer_snd _)
      rw [act_read (.inl (hvalid query.length rfl))] at hleaves
      refine iff_of_true ⟨v', hleaves.find.trans hv', hdim'.trans hquery, hentries hquery⟩ ?_
      exact ⟨query, n, rfl⟩
  | _ => exact hop.elim

/-- After a restart the record is first read as a set, which registers the key, and so a search
gets as far as the record. -/
theorem reload_keeps_of_search :
    let v : VectorData Env.bare.hnsw := (VectorData.add (.new _ 1) [97] [⟨1⟩]).2
    let e := final step
      (new Env.bare ⟨[47], 0, .k2Q⟩ (some (AList.singleton [107] (serializeVector v))))
      [(.ofNow 5, .scard [107])]
    (e.step (.ofNow 6, .vecsearch [107] [⟨2⟩] 1)).2.HasVectors [107] v := by
  intro v e
  have hadd : Env.bare.hnsw.Accepts := fun _ _ _ => Option.some_ne_none _
  have hfits : v.FitsRecord := ⟨by decide, by decide, by decide⟩
  have hnew : e.find .kVector [107] = none :=
    Option.isNone_iff_eq_none.mp (by decide +kernel)
  have hrecord : e.rocksGet [107] = some (serializeVector v) := by decide +kernel
  have hop : (Op.vecsearch [107] [⟨2⟩] 1).ReloadsVector [107] v.dim := ⟨rfl, rfl⟩
  have hvalid : (e.slot [107]).valid 6 = true := by decide +kernel
  have hformed : v.WellFormed := by
    unfold VectorData.WellFormed
    decide
  exact (reload_keeps_iff (c := .ofNow 6) hadd (by decide) hformed hfits hnew hrecord hop
    fun _ _ => hvalid).mpr ⟨_, _, rfl⟩

/-- The size of the vectors of a key is asked after a restart. -/
theorem vecsize_empties :
    ∃ records : Dict Bytes Bytes,
      (final step (new Env.bare ⟨[47], 0, .k2Q⟩ (some ∅))
        [(.ofNow 5, .vecadd [107] [97] [⟨1⟩])]).rocksdb = some records ∧
      ((final step (new Env.bare ⟨[47], 0, .k2Q⟩ (some ∅))
        [(.ofNow 5, .vecadd [107] [97] [⟨1⟩])]).find .kVector [107]).map
          (fun v => (v.dim, v.allEntries)) = some (1, [([97], [⟨1⟩])]) ∧
      ((final step (new Env.bare ⟨[47], 0, .k2Q⟩ (some records))
        [(.ofNow 6, .vecsize [107])]).find .kVector [107]).map (fun v => (v.dim, v.allEntries)) =
        some (0, []) :=
  ⟨_, rfl, by decide +kernel, by decide +kernel⟩

end Engine

end AstraKV
