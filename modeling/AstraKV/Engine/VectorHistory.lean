import AstraKV.Engine.VectorRecord
import AstraKV.Engine.Kind
import AstraKV.Lib.WriteLog

/-!
# AstraKV.Engine.VectorHistory

The vectors of a key over the history of its `vecadd` calls, and after a
removal.

The IDs, their vectors and the labels of the index only grow: an ID added
again is there twice, and an ID removed is there still.  An eviction drops
all of them, and the next `vecadd` starts anew.

The log of a key is the list of what was added to it since it last had no
metadata, and the entries are that log without any merging: `vecsize` counts
repetitions, `vecget` finds the first, and listing shows all. `HasEntries` is
the invariant of such a run. What one would expect, that the latest vector of
an ID counts and a removed ID is gone, holds exactly as long as no ID is added
twice and none is removed.
-/

namespace AstraKV

open Machine Slot WriteLog

namespace VectorData

variable {H : Hnsw} {v : VectorData H} {id : Bytes} {vec : List Binary32}

/-- The entries have the IDs listed. -/
@[simp] theorem map_fst_allEntries : v.allEntries.map Prod.fst = v.ids := by
  unfold allEntries
  rw [List.map_map]
  exact List.zipIdx_map_fst 0 v.ids

/-- `size` is the number of entries. -/
theorem size_eq : v.size = v.allEntries.length := by
  rw [← List.length_map Prod.fst, map_fst_allEntries, size]

/-- `Get` finds the vector of an ID that is there once. -/
theorem get_of_mem (h : v.WellFormed) (hnodup : v.ids.Nodup) (hmem : (id, vec) ∈ v.allEntries) :
    v.get id = vec := by
  obtain ⟨⟨id', i⟩, hzip, heq⟩ := List.mem_map.mp hmem
  obtain ⟨rfl, rfl⟩ := Prod.mk.inj heq
  obtain ⟨hi, hid⟩ := List.getElem?_eq_some_iff.mp (List.mk_mem_zipIdx_iff_getElem?.mp hzip)
  have hidx : v.ids.idxOf? id' = some i := by
    refine List.idxOf?_eq_some_iff.mpr ⟨hi, hid, fun j hj heq => ?_⟩
    have hji : j = i := hnodup.getElem_inj_iff.mp (heq.trans hid.symm)
    omega
  have hle := slice_of_lt h hi
  rw [get, hidx]
  exact if_neg (by omega)

end VectorData

/-! ## the history of a key -/

variable {E : Env}

/-- What an operation adds to the vectors of a key. -/
def addOf (k : Bytes) : Op → Option (Bytes × List Binary32)
  | .vecadd key id vec => if key = k then some (id, vec) else none
  | _ => none

/-- The calls of `vecadd` for a key. -/
def adds (k : Bytes) (ops : List (Call × Op)) : List (Bytes × List Binary32) :=
  ops.filterMap fun i => addOf k i.2

/-- The key is used with `vecadd` only, and with vectors of one dimension. -/
def OnlyAdds (k : Bytes) (dim : Nat) (i : Call × Op) : Prop :=
  i.2.key = some k → ∃ id vec, i.2 = .vecadd k id vec ∧ vec.length = dim

/-- An operation on another key adds nothing. -/
theorem addOf_of_ne {k : Bytes} {op : Op} (h : op.key ≠ some k) : addOf k op = none := by
  cases op with
  | vecadd key id vec => exact if_neg fun heq => h (by rw [← heq]; rfl)
  | _ => rfl

namespace Slot

variable {s s' : Slot E} {c : Call} {dim : Nat} {entries : List (Bytes × List Binary32)}

/-- The slot of a key used for vectors of one dimension, which are `entries`. -/
inductive HasEntries (dim : Nat) (s : Slot E) : List (Bytes × List Binary32) → Prop
  | absent (hvalue : s.value .kVector = none) (hmetadata : s.metadata = none) : HasEntries dim s []
  | present (v : VectorData E.hnsw) (m : KeyMetadata) (hvalue : s.value .kVector = some v)
      (hformed : v.WellFormed) (hdim : v.dim = dim) (hmetadata : s.metadata = some m)
      (htype : m.type = .kVector) (hexpire : m.expireTimeMs = none) : HasEntries dim s v.allEntries

/-- A key that a pass leaves without metadata has lost its vectors. -/
theorem HasEntries.swept (h : s.HasEntries dim entries) {o : Options} {disk : Bool}
    (hswept : Swept c o disk s s') :
    s'.HasEntries dim (if s'.metadata = none then [] else entries) := by
  cases h with
  | absent hvalue hmetadata =>
      rw [ite_self]
      cases hswept with
      | kept => exact .absent hvalue hmetadata
      | expired h => exact .absent rfl rfl
      | evicted i m' hlimit hm' hvalid =>
          rw [hmetadata] at hm'
          contradiction
  | present v m hvalue hformed hdim hmetadata htype hexpire =>
      cases hswept with
      | kept =>
          rw [if_neg (by simp [hmetadata])]
          exact .present v m hvalue hformed hdim hmetadata htype hexpire
      | expired h => exact .absent rfl rfl
      | evicted i m' hlimit hm' hvalid =>
          obtain rfl : m = m' := Option.some.inj (hmetadata.symm.trans hm')
          have hnone : (s.evict disk (c.putOk (i + 1)) m.type).metadata = none := rfl
          rw [if_pos hnone, htype]
          exact .absent value_evict_self rfl

/-- A `vecadd` adds its vector to those that are there. -/
theorem HasEntries.vecadd (h : s.HasEntries dim entries) (hadd : E.hnsw.Accepts) {disk : Bool}
    (k id : Bytes) {vec : List Binary32} (hvec : vec.length = dim) :
    (s.act c disk (Op.shape E c (.vecadd k id vec))).HasEntries dim (entries ++ [(id, vec)]) := by
  have hvalue' : (s.act c disk (Op.shape E c (.vecadd k id vec))).value .kVector =
      some ((s.edited .kVector (.new E.hnsw vec.length)).add id vec).2 := value_edit
  have hmetadata' : (s.act c disk (Op.shape E c (.vecadd k id vec))).metadata = _ := metadata_edit
  cases h with
  | absent hvalue hmetadata =>
      rw [edited, hvalue, Option.getD_none] at hvalue'
      rw [if_pos hvalue] at hmetadata'
      have hformed := VectorData.wellFormed_new E.hnsw vec.length
      have hentries : ((VectorData.new E.hnsw vec.length).add id vec).2.allEntries =
          [] ++ [(id, vec)] :=
        VectorData.allEntries_add hformed rfl (hadd _ _ _)
      rw [← hentries]
      exact .present _ _ hvalue' (hformed.add id vec) (VectorData.dim_add.trans hvec) hmetadata'
        rfl rfl
  | present v m hvalue hformed hdim hmetadata htype hexpire =>
      rw [edited, hvalue, Option.getD_some] at hvalue'
      rw [if_neg (by simp [hvalue]), hmetadata] at hmetadata'
      rw [← VectorData.allEntries_add hformed (hvec.trans hdim.symm) (hadd _ _ _)]
      exact .present _ m hvalue' (hformed.add id vec) (VectorData.dim_add.trans hdim) hmetadata'
        htype hexpire

end Slot

namespace Engine

variable {e : Engine E} {k : Bytes} {dim : Nat} {ops : List (Call × Op)}

/-- The entries of the vectors of a key, none if it has none. -/
def vectors (e : Engine E) (k : Bytes) : List (Bytes × List Binary32) :=
  ((e.find .kVector k).map VectorData.allEntries).getD []

/-- What a run adds to the vectors of a key after the last step that leaves the key without
metadata. -/
def standing (k : Bytes) (e : Engine E) (entries : List (Bytes × List Binary32)) :
    List (Call × Op) → List (Bytes × List Binary32)
  | [] => entries
  | i :: is =>
      let e' := (e.step i).2
      standing k e' (if (e'.slot k).metadata = none then [] else entries ++ (addOf k i.2).toList) is

/-- What stands is the last part of what was added. -/
theorem exists_append_standing (entries : List (Bytes × List Binary32)) :
    ∃ earlier, entries ++ adds k ops = earlier ++ standing k e entries ops := by
  induction ops generalizing e entries with
  | nil => exact ⟨[], by simp [adds, standing]⟩
  | cons i ops ih =>
      have hadds : adds k (i :: ops) = (addOf k i.2).toList ++ adds k ops := by
        unfold adds
        rw [List.filterMap_cons]
        cases addOf k i.2 <;> rfl
      rw [hadds, standing, ← List.append_assoc]
      split
      · obtain ⟨earlier, hearlier⟩ := ih (e := (e.step i).2) []
        exact ⟨entries ++ (addOf k i.2).toList ++ earlier, by simpa using hearlier⟩
      · exact ih _

/-- A step adds its entry, or leaves the key without any. -/
theorem hasEntries_step {entries : List (Bytes × List Binary32)} (hadd : E.hnsw.Accepts)
    (h : (e.slot k).HasEntries dim entries) {i : Call × Op} (hi : OnlyAdds k dim i) :
    ((e.step i).2.slot k).HasEntries dim (if ((e.step i).2.slot k).metadata = none then []
      else entries ++ (addOf k i.2).toList) := by
  obtain ⟨c, op⟩ := i
  refine HasEntries.swept ?_ ((step_steps e c op).slot k)
  by_cases hkey : op.key = some k
  · obtain ⟨id, vec, rfl, hvec⟩ := hi hkey
    rw [acted_self hkey]
    simpa [addOf] using h.vecadd hadd k id hvec
  · rw [acted_of_ne hkey, addOf_of_ne hkey, Option.toList_none, List.append_nil]
    exact h

/-- The vectors of a key are those that stand. -/
theorem hasEntries_run {entries : List (Bytes × List Binary32)} (hadd : E.hnsw.Accepts)
    (h : (e.slot k).HasEntries dim entries) (hops : ∀ i ∈ ops, OnlyAdds k dim i) :
    ((final step e ops).slot k).HasEntries dim (standing k e entries ops) := by
  induction ops generalizing e entries with
  | nil => exact h
  | cons i ops ih =>
      obtain ⟨hi, hops⟩ := List.forall_mem_cons.mp hops
      exact ih (hasEntries_step hadd h hi) hops

/-- The vectors of the key are these entries. -/
theorem vectors_of_hasEntries {entries : List (Bytes × List Binary32)}
    (h : (e.slot k).HasEntries dim entries) : e.vectors k = entries := by
  have hvalue : (e.slot k).value .kVector = e.find .kVector k := rfl
  unfold vectors
  rw [← hvalue]
  cases h with
  | absent hnone hmetadata => rw [hnone]; rfl
  | present v m hsome => rw [hsome]; rfl

/-- A key without a step of its own stays empty. -/
theorem slot_of_no_adds (hnew : e.slot k = .empty) (hops : ∀ i ∈ ops, OnlyAdds k dim i)
    (hnone : adds k ops = []) : (final step e ops).slot k = .empty := by
  have hother : ∀ i ∈ ops, i.2.key ≠ some k := by
    intro i hi hkey
    obtain ⟨id, vec, hop, -⟩ := hops i hi hkey
    have hadd := List.filterMap_eq_nil_iff.mp hnone i hi
    simp [hop, addOf] at hadd
  have hstep : ∀ (e : Engine E) (i : Call × Op), e.slot k = .empty → i.2.key ≠ some k →
      (e.step i).2.slot k = .empty := by
    intro e i he hi
    have hswept := (step_steps e i.1 i.2).slot k
    rw [acted_of_ne hi, he] at hswept
    generalize (e.step i).2.slot k = s at hswept ⊢
    cases hswept with
    | kept => rfl
    | expired h => rfl
    | evicted j m hlimit hm => cases hm
  exact invariant_along hstep hnew (along_of_forall hother e)

/-- `vecget`, `vecsize` and `AllEntries` go by the latest vector of each ID in the log. -/
structure Follows (e : Engine E) (k : Bytes) (log : List (Bytes × List Binary32)) : Prop where
  vecget : ∀ id vec, latest? log id = some vec →
    ∀ c, (e.step (c, .vecget k id)).1 = .vector vec
  vecsize : ∀ c, (e.step (c, .vecsize k)).1 = .int (log.map Prod.fst).dedup.length
  nodup : ((e.vectors k).map Prod.fst).Nodup
  entries : ∀ id vec, (id, vec) ∈ e.vectors k ↔ latest? log id = some vec

/-- The vectors that stand, if they have every ID of the log once. -/
theorem follows_of_hasEntries {earlier later : List (Bytes × List Binary32)}
    (h : (e.slot k).HasEntries dim later) (hempty : earlier ++ later = [] → e.slot k = .empty)
    (hnodup : (later.map Prod.fst).Nodup)
    (hall : ∀ id ∈ (earlier ++ later).map Prod.fst, id ∈ later.map Prod.fst) :
    e.Follows k (earlier ++ later) := by
  have hentries := (lists_each_once_iff.mpr ⟨hnodup, hall⟩).2
  have hcount := length_dedup_keys hnodup hall
  have hvectors := vectors_of_hasEntries h
  refine ⟨fun id vec hlatest c => ?_, fun c => ?_, hvectors ▸ hnodup, hvectors ▸ hentries⟩
  · have hmem := (hentries id vec).mpr hlatest
    rw [step_reply rfl]
    cases h with
    | absent => cases hmem
    | present v m hvalue hformed hdim hmetadata htype hexpire =>
        have hvalid : (e.slot k).valid c.now = true := by
          simp [Slot.valid, hmetadata, KeyMetadata.isExpired, hexpire]
        have hget := VectorData.get_of_mem hformed (VectorData.map_fst_allEntries ▸ hnodup) hmem
        simp [Slot.reply, Slot.guarded, hvalid, answer_found (found_of_value hvalue), hget]
  · rw [step_reply rfl, hcount]
    cases h with
    | absent hvalue hmetadata =>
        have hnil : earlier = [] := by
          rw [List.append_nil] at hall
          exact List.map_eq_nil_iff.mp (List.eq_nil_iff_forall_not_mem.mpr fun id hid => by
            cases hall id hid)
        have hslot := hempty (by rw [hnil]; rfl)
        rw [hslot]
        rfl
    | present v m hvalue =>
        simp [Slot.reply, answer_found (found_of_value hvalue), VectorData.size_eq]

/-- A key that is used with `vecadd` alone goes by the latest vector of each ID if and only if no ID
was added twice since the key was last evicted, and every ID was added since. -/
theorem vectors_follow_iff (hadd : E.hnsw.Accepts) (hnew : e.slot k = .empty)
    (hops : ∀ i ∈ ops, OnlyAdds k dim i) :
    (final step e ops).Follows k (adds k ops) ↔
      ((standing k e [] ops).map Prod.fst).Nodup ∧
        ∀ id ∈ (adds k ops).map Prod.fst, id ∈ (standing k e [] ops).map Prod.fst := by
  obtain ⟨earlier, hearlier⟩ : ∃ earlier, [] ++ adds k ops = earlier ++ standing k e [] ops :=
    exists_append_standing []
  rw [List.nil_append] at hearlier
  have hslot : (e.slot k).HasEntries dim [] := by
    rw [hnew]
    exact .absent rfl rfl
  have hentries := hasEntries_run hadd hslot hops
  have hvectors := vectors_of_hasEntries hentries
  have hempty := slot_of_no_adds hnew hops
  constructor
  · rintro ⟨-, -, hnodup, hlatest⟩
    rw [hvectors] at hnodup hlatest
    rw [hearlier] at hlatest ⊢
    exact lists_each_once_iff.mp ⟨hnodup, hlatest⟩
  · rintro ⟨hnodup, hall⟩
    rw [hearlier] at hall hempty ⊢
    exact follows_of_hasEntries hentries hempty hnodup hall

theorem vectors_follow_iff_two :
    let ops := [(Call.ofNow 5, Op.vecadd [107] [97] [⟨1⟩]), (.ofNow 6, .vecadd [107] [98] [⟨2⟩])]
    (final step (new Env.bare ⟨[], 0, .k2Q⟩ none) ops).Follows [107] (adds [107] ops) := by
  intro ops
  have hops : ∀ i ∈ ops, OnlyAdds [107] 1 i := by
    rintro i hi -
    obtain rfl | rfl : i = _ ∨ i = _ := by simpa [ops] using hi
    · exact ⟨[97], [⟨1⟩], rfl, rfl⟩
    · exact ⟨[98], [⟨2⟩], rfl, rfl⟩
  exact (vectors_follow_iff (fun _ _ _ => Option.some_ne_none _) rfl hops).mpr
    ⟨by decide +kernel, by decide +kernel⟩

/-- An ID added again is there twice, and its first vector is found. -/
theorem vecadd_duplicates :
    let ops := [(Call.ofNow 5, Op.vecadd [107] [97] [⟨1⟩]), (.ofNow 6, .vecadd [107] [97] [⟨2⟩])]
    let e := final step (new Env.bare ⟨[], 0, .k2Q⟩ none) ops
    (e.step (.ofNow 7, .vecget [107] [97])).1 = .vector [⟨1⟩] ∧
      latest? (adds [107] ops) [97] = some [⟨2⟩] ∧
      (e.step (.ofNow 7, .vecsize [107])).1 = .int 2 ∧
      e.vectors [107] = [([97], [⟨1⟩]), ([97], [⟨2⟩])] ∧ ¬ e.Follows [107] (adds [107] ops) := by
  intro ops e
  have hget : (e.step (.ofNow 7, .vecget [107] [97])).1 = .vector [⟨1⟩] := by decide +kernel
  have hlatest : latest? (adds [107] ops) [97] = some [⟨2⟩] := by decide +kernel
  refine ⟨hget, hlatest, by decide +kernel, by decide +kernel, fun h => ?_⟩
  have hfollows := h.vecget [97] [⟨2⟩] hlatest (.ofNow 7)
  rw [hget] at hfollows
  exact absurd hfollows (by decide)

end Engine

/-! ## a removal -/

namespace VectorData

variable {H : Hnsw} {v : VectorData H} {id : Bytes}

/-- Nothing finds the ID, in the vectors or in those read back from their record. -/
structure Gone (id : Bytes) (v : VectorData H) : Prop where
  contains : v.contains id = false
  get : v.get id = []
  allEntries : ∀ entry ∈ v.allEntries, entry.1 ≠ id
  remove : (v.remove id).1 = false
  reloaded : ∀ beyond query k,
    ∀ result ∈ (deserializeVector beyond (serializeVector v) (.new H v.dim)).2.search query k,
      result.1 ≠ id

/-- After a removal the ID is gone, whatever else is added. -/
def RemoveWorks (id : Bytes) (v : VectorData H) : Prop :=
  (v.remove id).1 = true → (v.remove id).2.size + 1 = v.size ∧
    ∀ others : List (Bytes × List Binary32), (∀ entry ∈ others, entry.1 ≠ id) →
      (others.foldl readd (v.remove id).2).Gone id

/-- A removal takes nothing away but in the index. -/
theorem remove_snd : ∃ index, (v.remove id).2 = { v with index := index } := by
  unfold remove
  split
  · exact ⟨v.index, rfl⟩
  · split
    · exact ⟨v.index, rfl⟩
    · exact ⟨_, rfl⟩

/-- A removal is refused if the ID is not there, or the index does not mark its label. -/
theorem remove_fst_eq_false : (v.remove id).1 = false ↔
    id ∉ v.ids ∨ ∃ idx, v.ids.idxOf? id = some idx ∧ H.markDelete v.index idx = none := by
  unfold remove
  split
  · rename_i hnone
    exact iff_of_true rfl (.inl (List.idxOf?_eq_none_iff.mp hnone))
  · rename_i idx hidx
    have hmem : id ∈ v.ids := List.isSome_idxOf?.mp (by rw [hidx]; rfl)
    split
    · rename_i hmark
      exact iff_of_true rfl (.inr ⟨idx, hidx, hmark⟩)
    · rename_i index hmark
      refine iff_of_false Bool.true_eq_false_eq_False (not_or.mpr ⟨not_not.mpr hmem, ?_⟩)
      rintro ⟨idx', hidx', hmark'⟩
      obtain rfl := Option.some.inj (hidx.symm.trans hidx')
      rw [hmark] at hmark'
      contradiction

/-- `Remove` keeps its word if and only if it refuses. -/
theorem remove_works_iff (v : VectorData H) (id : Bytes) :
    v.RemoveWorks id ↔
      id ∉ v.ids ∨ ∃ idx, v.ids.idxOf? id = some idx ∧ H.markDelete v.index idx = none := by
  rw [← remove_fst_eq_false]
  constructor
  · intro h
    rw [← Bool.not_eq_true]
    intro hremoved
    obtain ⟨hsize, -⟩ := h hremoved
    obtain ⟨index, hsame⟩ : ∃ index, (v.remove id).2 = { v with index := index } := remove_snd
    rw [hsame] at hsize
    exact Nat.succ_ne_self _ hsize
  · intro hrefused hremoved
    rw [hrefused] at hremoved
    contradiction

/-- A removal changes nothing but the index. -/
theorem remove_keeps : (v.remove id).2.contains = v.contains ∧ (v.remove id).2.get = v.get ∧
    (v.remove id).2.size = v.size ∧ (v.remove id).2.allEntries = v.allEntries ∧
    serializeVector (v.remove id).2 = serializeVector v := by
  obtain ⟨index, hsame⟩ : ∃ index, (v.remove id).2 = { v with index := index } := remove_snd
  rw [hsame]
  exact ⟨rfl, rfl, rfl, rfl, rfl⟩

/-- An ID removed is there still. -/
theorem remove_leaves :
    let v := (VectorData.add (.new Env.bare.hnsw 1) [97] [⟨1⟩]).2
    (v.remove [97]).1 = true ∧ (v.remove [97]).2.contains [97] = true ∧
      (v.remove [97]).2.get [97] = [⟨1⟩] ∧ ¬ v.RemoveWorks [97] := by
  intro v
  refine ⟨rfl, rfl, rfl, fun h => ?_⟩
  obtain ⟨hsize, -⟩ := h rfl
  exact absurd hsize (by decide)

end VectorData

end AstraKV
