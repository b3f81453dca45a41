import AstraKV.Engine.Sweep

/-!
# AstraKV.Engine.Memory

How `memory_usage` changes: what the removal of a key takes off it, and that
cleanup never adds to it.

The accounting adds up, for each map, the lengths of the keys and an estimate
of the values, and 64 bytes for each registered key. Both sums run over hash
tables, so the order of their entries must not matter: a key taken out takes
its own share off, wherever it stood. Everything that only removes therefore
lowers the sum, which is what the loop of the eviction needs to make progress.
-/

namespace AstraKV

/-- What `memory_usage` counts for a registered key and its value. -/
def Slot.footprint {E : Env} (c : Call) (key : Bytes) (s : Slot E) : Nat :=
  match s.metadata with
  | none => 0
  | some m =>
      match s.value m.type with
      | none => 64
      | some v => key.length + Engine.valueMemory c m.type v + 64

namespace Engine

variable {E : Env} {e e' : Engine E} {c : Call} {key : Bytes} {t t' : KeyType} {v : Value E t}

/-! ## one map -/

/-- A key taken out of its map takes its share off. -/
theorem mapMemory_remove_self (h : e.find t key = some v) :
    (e.remove t key).mapMemory c t + (key.length + valueMemory c t v) = e.mapMemory c t := by
  have hdata : (e.remove t key).data t = (e.data t).erase key := Function.update_self _ _ _
  unfold mapMemory
  rw [hdata, (((Dict.perm_cons_erase h).map _).sum_eq), List.map_cons, List.sum_cons]
  exact Nat.add_comm _ _

/-- A key taken out of one map leaves the other maps. -/
theorem mapMemory_remove_of_ne (h : t' ≠ t) :
    (e.remove t key).mapMemory c t' = e.mapMemory c t' := by
  have hdata : (e.remove t key).data t' = e.data t' := Function.update_of_ne h _ _
  unfold mapMemory
  rw [hdata]

/-- A key taken out of all maps adds to none. -/
theorem mapMemory_removeAll_le : (e.removeAll key).mapMemory c t ≤ e.mapMemory c t := by
  have hsub : ((e.data t).erase key).entries.Sublist (e.data t).entries :=
    List.kerase_sublist key (e.data t).entries
  exact (hsub.map _).sum_le_sum fun _ _ => Nat.zero_le _

/-! ## all of it -/

/-- The usage, map by map, and the registered keys. -/
theorem memoryUsage_eq :
    e.memoryUsage c = ((mapTypes.map (e.mapMemory c)).sum + e.count * 64 : Nat) := by
  simp only [memoryUsage, mapTypes, List.map_cons, List.map_nil, List.sum_cons, List.sum_nil]
  push_cast
  ring

/-- The usage depends on the maps and the metadata alone. -/
theorem memoryUsage_congr (hdata : e'.data = e.data) (hmetas : e'.metas = e.metas) :
    e'.memoryUsage c = e.memoryUsage c := by
  unfold memoryUsage mapMemory count
  rw [hdata, hmetas]

/-- Every type but `kNone` has a map. -/
theorem mem_mapTypes (ht : t ≠ .kNone) : t ∈ mapTypes := by
  cases t <;> first | contradiction | decide

/-- Taking a key out of one map lowers the usage by its share. -/
theorem memoryUsage_remove (h : e.find t key = some v) :
    (e.remove t key).memoryUsage c + (key.length + valueMemory c t v : Nat) = e.memoryUsage c := by
  have ht : t ≠ .kNone := by
    rintro rfl
    exact v.elim
  have hperm := List.perm_cons_erase (mem_mapTypes ht)
  have hother : (mapTypes.erase t).map ((e.remove t key).mapMemory c) =
      (mapTypes.erase t).map (e.mapMemory c) := by
    refine List.map_congr_left fun t' ht' => mapMemory_remove_of_ne ?_
    exact ((show mapTypes.Nodup by decide).mem_erase_iff.mp ht').1
  have hself := mapMemory_remove_self (c := c) h
  have hcount : (e.remove t key).count = e.count := rfl
  rw [memoryUsage_eq, memoryUsage_eq, (hperm.map _).sum_eq, (hperm.map _).sum_eq, List.map_cons,
    List.map_cons, List.sum_cons, List.sum_cons, hother, hcount]
  omega

/-- Unregistering a key lowers it by 64. -/
theorem memoryUsage_unregisterKey (h : key ∈ e.metas) :
    (e.unregisterKey key).memoryUsage c + 64 = e.memoryUsage c := by
  obtain ⟨m, hm⟩ := Dict.exists_lookup h
  have hlength : e.metas.entries.length = (e.metas.erase key).entries.length + 1 :=
    (Dict.perm_cons_erase hm).length_eq
  have hcount : e.count = (e.unregisterKey key).count + 1 := by
    simpa [count, unregisterKey, KeyMetadataManager.unregisterKey, AList.keys, List.keys]
      using hlength
  have hmaps : (e.unregisterKey key).mapMemory c = e.mapMemory c := rfl
  rw [memoryUsage_eq, memoryUsage_eq, hcount, hmaps]
  omega

/-- A write to RocksDB changes neither a map nor the metadata. -/
theorem maps_rocksPut (ok : Bool) (record : Bytes) :
    (e.rocksPut ok key record).data = e.data ∧ (e.rocksPut ok key record).metas = e.metas := by
  unfold rocksPut
  split <;> exact ⟨rfl, rfl⟩

/-- An eviction takes off what the key and its value take up. -/
theorem memoryUsage_evictKey {m : KeyMetadata} (hm : e.metas.lookup key = some m) (ok : Bool) :
    (e.evictKey ok m.type key).memoryUsage c + ((e.slot key).footprint c key : Nat) =
      e.memoryUsage c := by
  have hmeta : (e.slot key).metadata = some m := hm
  have hvalue : (e.slot key).value m.type = e.find m.type key := rfl
  have hmem : key ∈ e.metas := Dict.mem_of_lookup hm
  unfold evictKey Slot.footprint
  rw [hmeta]
  dsimp only
  rw [hvalue]
  cases hfind : e.find m.type key with
  | none => exact memoryUsage_unregisterKey (e := { e with eviction2q := _ }) hmem
  | some v =>
      obtain ⟨hdata, hmetas⟩ : (e.persist ok m.type key v).data = e.data ∧
          (e.persist ok m.type key v).metas = e.metas := maps_rocksPut ok (serialize m.type v)
      have hkept : (e.persist ok m.type key v).memoryUsage c = e.memoryUsage c :=
        memoryUsage_congr hdata hmetas
      have hfound : (e.persist ok m.type key v).find m.type key = some v := by
        unfold find
        rw [hdata]
        exact hfind
      have hdropped := memoryUsage_remove (c := c) hfound
      have hforgotten : ∀ (e₁ : Engine E) tracker, e₁.metas = e.metas →
          (({ e₁ with eviction2q := tracker } : Engine E).unregisterKey key).memoryUsage c + 64 =
            e₁.memoryUsage c := by
        intro e₁ tracker hmetas₁
        rw [memoryUsage_unregisterKey (hmetas₁ ▸ hmem)]
        exact memoryUsage_congr rfl rfl
      have hlast := hforgotten ((e.persist ok m.type key v).remove m.type key)
        (((e.persist ok m.type key v).remove m.type key).eviction2q.removeKey key) hmetas
      push_cast at hdropped ⊢
      omega

/-! ## cleanup -/

/-- What is counted for one key is part of what is counted. -/
theorem footprint_le_memoryUsage {m : KeyMetadata} (hm : e.metas.lookup key = some m) :
    ((e.slot key).footprint c key : Nat) ≤ e.memoryUsage c := by
  have hrest := memoryUsage_evictKey (c := c) hm true
  have hnonneg : 0 ≤ (e.evictKey true m.type key).memoryUsage c := by
    rw [memoryUsage_eq]
    exact Int.natCast_nonneg _
  omega

/-- With less in every map and fewer keys registered the usage is less. -/
theorem memoryUsage_le (hmaps : ∀ t, e'.mapMemory c t ≤ e.mapMemory c t)
    (hmetas : e'.metas.keys.Sublist e.metas.keys) : e'.memoryUsage c ≤ e.memoryUsage c := by
  have hsum : (mapTypes.map (e'.mapMemory c)).sum ≤ (mapTypes.map (e.mapMemory c)).sum :=
    List.sum_le_sum fun t _ => hmaps t
  have hcount : e'.count ≤ e.count := hmetas.length_le
  rw [memoryUsage_eq, memoryUsage_eq]
  omega

/-- Asking for a key does not add to it. -/
theorem memoryUsage_isValid_le (now : Int) (key : Bytes) :
    (e.isValid now key).2.memoryUsage c ≤ e.memoryUsage c := by
  refine memoryUsage_le (fun _ => le_rfl) ?_
  unfold isValid KeyMetadataManager.isValid
  cases e.metas.lookup key with
  | none => exact .refl _
  | some m =>
      dsimp only
      split
      · exact (List.kerase_sublist key e.metas.entries).map _
      · exact .refl _

theorem memoryUsage_cleanupKey_le (now : Int) (acc : Int × Engine E) (key : Bytes) :
    (cleanupKey now acc key).2.memoryUsage c ≤ acc.2.memoryUsage c := by
  have hvalid := memoryUsage_isValid_le (e := acc.2) (c := c) now key
  unfold cleanupKey
  split
  · rename_i e' heq
    rwa [heq] at hvalid
  · rename_i e' heq
    rw [heq] at hvalid
    exact (memoryUsage_le (e := e') (fun _ => mapMemory_removeAll_le) (.refl _)).trans hvalid

theorem memoryUsage_foldl_cleanupKey_le (now : Int) (keys : List Bytes) (acc : Int × Engine E) :
    (keys.foldl (cleanupKey now) acc).2.memoryUsage c ≤ acc.2.memoryUsage c := by
  induction keys generalizing acc with
  | nil => exact le_rfl
  | cons key keys ih => exact (ih _).trans (memoryUsage_cleanupKey_le now acc key)

/-- Cleanup does not add to the memory in use. -/
theorem memoryUsage_cleanupExpired_le (c' : Call) :
    (e.cleanupExpired c').2.memoryUsage c ≤ e.memoryUsage c :=
  memoryUsage_foldl_cleanupKey_le c'.now e.metas.keys (0, e)

end Engine

end AstraKV
