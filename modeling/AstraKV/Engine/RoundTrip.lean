import AstraKV.Engine.Codec
import AstraKV.ZSet.Index

/-!
# AstraKV.Engine.RoundTrip

What a record is read as.  Every record decodes; the lengths and counts in it
are cut to 32 bits, and below that bound a record decodes to the value it was
made from.

Written and read back, a string of 2^32 bytes or more comes out shorter
(`clip`), and of a container only as many elements as the 32-bit count says.
The first half of the module states what comes back without any bound, so that
nothing is assumed about values in the maps; the second half says that what
fits comes back as it was, up to the order of a hash table.
-/

namespace AstraKV

open Framed LittleEndian

/-! ## items -/

def clipPair (p : Bytes × Bytes) : Bytes × Bytes := (clip p.1, clip p.2)

/-- A pair is read back clipped. -/
theorem pairItem_putPair (p : Bytes × Bytes) (rest : Bytes) :
    pairItem (putPair p ++ rest) = some (clipPair p, rest) := by
  simp [pairItem, putPair, getBytes?_putBytes, clipPair]

/-- A pair that fits is not clipped. -/
theorem clipPair_eq_self {p : Bytes × Bytes} :
    clipPair p = p ↔ p.1.length < 2 ^ 32 ∧ p.2.length < 2 ^ 32 := by
  rw [clipPair, Prod.ext_iff, clip_eq_self, clip_eq_self]

/-- A member with its score is read back clipped. -/
theorem zsetItem_put (entry : Bytes × Binary64) (rest : Bytes) :
    zsetItem (putBytes entry.1 ++ put 8 entry.2.bits.toNat ++ rest) =
      some ((clip entry.1, entry.2), rest) := by
  simp [zsetItem, getBytes?_putBytes, get?_put]

/-- An entry is read back clipped, with as many fields as were counted. -/
theorem streamItem_putEntry (entry : StreamEntry) (rest : Bytes) :
    streamItem (putEntry entry ++ rest) =
      some (⟨clip entry.id,
        (entry.fields.take (entry.fields.length % 2 ^ 32)).map clipPair⟩,
        (entry.fields.drop (entry.fields.length % 2 ^ 32)).flatMap putPair ++ rest) := by
  have hfields := readItems_flatMap (fun fields field => fields ++ [field])
    pairItem_putPair (Nat.mod_le entry.fields.length (2 ^ 32)) rest []
  rw [List.foldl_append_eq_append, List.nil_append, ← List.flatMap_def,
    List.flatMap_singleton'] at hfields
  rw [streamItem, putEntry, List.append_assoc, List.append_assoc, getBytes?_putBytes]
  simp only [Option.bind_eq_bind, Option.bind_some, get?_put]
  rw [show (256 : Nat) ^ 4 = 2 ^ 32 by rfl, hfields]

/-! ## records -/

/-- A sorted set read from the record of another. -/
theorem deserializeZset_serialize (hash : Bytes → UInt64) (zs start : ZSetBPlus Bytes) :
    deserializeZset hash (serializeZset zs) start =
      (true, ((zs.getAll.take (zs.getAll.length % 2 ^ 32)).map fun entry =>
        (clip entry.1, entry.2)).foldl (fun zs entry => (zs.add hash entry.1 entry.2).2) start) :=
  readRecord_flatMap zsetItem_put _ _ _

/-- What a list comes back as. -/
theorem deserializeList_serialize (lst start : LinkedList Bytes) :
    deserializeList (serializeList lst) start =
      (true, ((lst.items.take (lst.items.length % 2 ^ 32)).map clip).foldl LinkedList.pushRight
        start) := by
  rw [← LinkedList.range_all]
  exact readRecord_flatMap getBytes?_putBytes _ _ _

/-- What a hash comes back as. -/
theorem deserializeHash_serialize (h start : Dict Bytes Bytes) :
    deserializeHash (serializeHash h) start =
      (true, (((h.entries.map fun entry => (entry.1, entry.2)).take
        (h.entries.length % 2 ^ 32)).map clipPair).foldl
          (fun h entry => h.insert entry.1 entry.2) start) := by
  have hlength : (h.entries.map fun entry => (entry.1, entry.2)).length = h.entries.length :=
    List.length_map _
  rw [← hlength]
  exact readRecord_flatMap pairItem_putPair _ _ _

/-- What a set comes back as. -/
theorem deserializeSet_serialize (s start : Dict Bytes UInt8) :
    deserializeSet (serializeSet s) start =
      (true, ((s.keys.take (s.keys.length % 2 ^ 32)).map clip).foldl
        (fun s member => s.insert member 0) start) :=
  readRecord_flatMap getBytes?_putBytes _ _ _

/-- The record of a stream of one entry. -/
theorem deserializeStream_serialize_one (now : Int) {s : StreamData} {entry : StreamEntry}
    (h : s.entries = [entry]) :
    deserializeStream now (serializeStream s) .empty =
      (true, (StreamData.empty.xAdd now (clip entry.id)
        ((entry.fields.take (entry.fields.length % 2 ^ 32)).map clipPair)).2) := by
  unfold serializeStream deserializeStream resize readRecord
  rw [h]
  dsimp only
  rw [List.length_singleton, List.flatMap_singleton, List.append_assoc, get?_put]
  dsimp only
  rw [Nat.mod_eq_of_lt (by decide), readItems, streamItem_putEntry]
  rfl

/-! ## values that fit -/

/-- A list is read back as it is if it is short enough and its elements are not cut. -/
theorem map_take_eq_self_iff {α : Type} {f : α → α} {as : List α} :
    (as.take (as.length % 2 ^ 32)).map f = as ↔ as.length < 2 ^ 32 ∧ ∀ a ∈ as, f a = a := by
  constructor
  · intro h
    have hlen : as.length < 2 ^ 32 := by
      have hlength := congrArg List.length h
      rw [List.length_map, List.length_take, Nat.min_eq_left (Nat.mod_le _ _)] at hlength
      rw [← hlength]
      exact Nat.mod_lt _ (by decide)
    rw [Nat.mod_eq_of_lt hlen, List.take_length] at h
    exact ⟨hlen, List.map_inj_left.mp (h.trans (List.map_id' as).symm)⟩
  · rintro ⟨hlen, h⟩
    rw [Nat.mod_eq_of_lt hlen, List.take_length]
    exact (List.map_congr_left h).trans (List.map_id' as)

/-- Fewer than 2^32 items that fit come back as they are. -/
theorem map_take_of_lt {α : Type} {f : α → α} {l : List α} (hlen : l.length < 2 ^ 32)
    (h : ∀ a ∈ l, f a = a) : (l.take (l.length % 2 ^ 32)).map f = l :=
  map_take_eq_self_iff.mpr ⟨hlen, h⟩

/-- The scores come back, and with them the ordered index if the hashes and scores of the members
can be told apart. -/
theorem deserializeZset_of_fits (hash : Bytes → UInt64) {zs : ZSetBPlus Bytes}
    (hlen : zs.getAll.length < 2 ^ 32) (h : ∀ entry ∈ zs.getAll, entry.1.length < 2 ^ 32) :
    ∃ zs', deserializeZset hash (serializeZset zs) .empty = (true, zs') ∧
      (∀ m, zs'.getScore m = zs.getScore m) ∧
      (ZSetBPlus.InStep hash zs → ZSetBPlus.Same zs' zs) := by
  have hscore : ∀ m, (zs.memberToScore.entries.foldl
      (fun (zs : ZSetBPlus Bytes) e => (zs.add hash e.1 e.2).2) .empty).getScore m =
        zs.getScore m := by
    refine Dict.foldl_entries ZSetBPlus.getScore (fun zs m s => (zs.add hash m s).2) ?_
      zs.memberToScore ZSetBPlus.getScore_empty
    intro zs m s hnone m'
    rw [ZSetBPlus.getScore_add]
    simp [hnone]
  refine ⟨_, ?_, hscore, fun hz => hz.rebuilt.same hz hscore⟩
  rw [deserializeZset_serialize hash zs .empty,
    map_take_of_lt hlen fun entry hentry => by rw [clip_of_lt (h entry hentry)], ZSetBPlus.getAll,
    List.foldl_map]

/-- A list that fits comes back with its items. -/
theorem deserializeList_of_fits {lst : LinkedList Bytes} (hlen : lst.items.length < 2 ^ 32)
    (h : ∀ item ∈ lst.items, item.length < 2 ^ 32) :
    ∃ lst', deserializeList (serializeList lst) .empty = (true, lst') ∧ lst'.items = lst.items := by
  refine ⟨_, deserializeList_serialize lst .empty, ?_⟩
  rw [map_take_of_lt hlen fun item hitem => clip_of_lt (h item hitem),
    (LinkedList.foldl_pushRight LinkedList.wellFormed_empty _).1]
  rfl

/-- A hash that fits comes back with its fields. -/
theorem deserializeHash_of_fits {h : Dict Bytes Bytes} (hlen : h.entries.length < 2 ^ 32)
    (hfits : ∀ entry ∈ h.entries, entry.1.length < 2 ^ 32 ∧ entry.2.length < 2 ^ 32) :
    ∃ h', deserializeHash (serializeHash h) ∅ = (true, h') ∧ ∀ f, h'.lookup f = h.lookup f := by
  refine ⟨_, deserializeHash_serialize h ∅, fun f => ?_⟩
  have hmap := map_take_of_lt (l := h.entries.map fun entry => (entry.1, entry.2)) (f := clipPair)
    (by rwa [List.length_map]) fun p hp => by
      obtain ⟨entry, hentry, rfl⟩ := List.mem_map.mp hp
      exact clipPair_eq_self.mpr (hfits entry hentry)
  rw [List.length_map] at hmap
  rw [hmap, List.foldl_map]
  exact Dict.foldl_entries (fun (d : Dict Bytes Bytes) f => d.lookup f)
    (fun d f v => d.insert f v) (fun d f v _ f' => Dict.lookup_insert_ite) h
    AList.lookup_empty f

/-- Members inserted one after another. -/
theorem isSome_foldl_insert (members : List Bytes) (start : Dict Bytes UInt8) (m : Bytes) :
    ((members.foldl (fun s member => AList.insert member 0 s) start).lookup m).isSome =
      (decide (m ∈ members) || (start.lookup m).isSome) := by
  induction members generalizing start with
  | nil => simp
  | cons member members ih =>
      rw [List.foldl_cons, ih, Dict.lookup_insert_ite]
      by_cases hm : m = member <;> simp [hm]

/-- A set that fits comes back with its members. -/
theorem deserializeSet_of_fits {s : Dict Bytes UInt8} (hlen : s.keys.length < 2 ^ 32)
    (h : ∀ m ∈ s.keys, m.length < 2 ^ 32) :
    ∃ s', deserializeSet (serializeSet s) ∅ = (true, s') ∧
      ∀ m, (s'.lookup m).isSome = (s.lookup m).isSome := by
  refine ⟨_, deserializeSet_serialize s ∅, fun m => ?_⟩
  rw [map_take_of_lt hlen fun m hm => clip_of_lt (h m hm), isSome_foldl_insert]
  rw [Bool.eq_iff_iff, AList.lookup_isSome]
  simp [AList.mem_keys]

/-- Decoding undoes encoding for the four containers. -/
theorem codecs_round_trip (hash : Bytes → UInt64) :
    (∀ zs : ZSetBPlus Bytes, zs.getAll.length < 2 ^ 32 →
      (∀ entry ∈ zs.getAll, entry.1.length < 2 ^ 32) →
        ∃ zs', deserializeZset hash (serializeZset zs) .empty = (true, zs') ∧
          ∀ m, zs'.getScore m = zs.getScore m) ∧
    (∀ lst : LinkedList Bytes, lst.items.length < 2 ^ 32 →
      (∀ item ∈ lst.items, item.length < 2 ^ 32) →
        ∃ lst', deserializeList (serializeList lst) .empty = (true, lst') ∧
          lst'.items = lst.items) ∧
    (∀ h : Dict Bytes Bytes, h.entries.length < 2 ^ 32 →
      (∀ entry ∈ h.entries, entry.1.length < 2 ^ 32 ∧ entry.2.length < 2 ^ 32) →
        ∃ h', deserializeHash (serializeHash h) ∅ = (true, h') ∧
          ∀ f, h'.lookup f = h.lookup f) ∧
    ∀ s : Dict Bytes UInt8, s.keys.length < 2 ^ 32 → (∀ m ∈ s.keys, m.length < 2 ^ 32) →
      ∃ s', deserializeSet (serializeSet s) ∅ = (true, s') ∧
        ∀ m, (s'.lookup m).isSome = (s.lookup m).isSome :=
  ⟨fun _ hlen h => (deserializeZset_of_fits hash hlen h).imp fun _ hread => ⟨hread.1, hread.2.1⟩,
    fun _ => deserializeList_of_fits, fun _ => deserializeHash_of_fits,
    fun _ => deserializeSet_of_fits⟩

end AstraKV
