import AstraKV.Data.DashRun
import AstraKV.Lib.Tour

/-!
# AstraKV.Data.DashScan

`AllKeys`, `AllEntries` and `ForEach` of the sharded map take the reader lock
of one shard after the other, so that calls of other clients may come between
two shards.  What they return need not be the map of any one moment, but it is
that of one moment shard by shard.

The scan is a tour of the shards, with any calls of the others between two
visits. What it collects is `mapAt` the moments of its visits, one moment for
each shard; `allEntries_scan_torn` shows that no single moment will do. Keys
keep to their shards throughout, so none is listed twice.
-/

universe u v w x y

namespace AstraKV

namespace DashMap

open Machine

namespace Shared

variable {α : Type u} {β : Type v} {ι : Type w} {κ : Type x} {γ : Type y} [DecidableEq ι]
  [DecidableEq α] [DecidableEq κ] {hash : α → UInt64} {look : Dict α β → List γ}
  {s : Touring κ (Shared ι α β) γ} {client : κ}
  {steps : List (TourStep κ (CallStep ι α β))}

/-- A call of some client, or the next turn of the loop of a bulk read, with `look` for what is read
of a shard. -/
def scanStep (hash : α → UInt64) (look : Dict α β → List γ) (s : Touring κ (Shared ι α β) γ) :
    TourStep κ (CallStep ι α β) → Option (List γ) × Touring κ (Shared ι α β) γ :=
  s.tourStep (fun s => s.map.shards.length) (fun s idx => look (s.map.shard idx)) (step hash)

/-- The map after the first steps of a run. -/
def mapAt (hash : α → UInt64) (look : Dict α β → List γ) (s : Touring κ (Shared ι α β) γ)
    (steps : List (TourStep κ (CallStep ι α β))) (moment : Nat) : DashMap α β :=
  (final (scanStep hash look) s (steps.take moment)).shared.map

/-- A call leaves the number of shards. -/
theorem length_shards_step (s : Shared ι α β) (call : CallStep ι α β) :
    (s.step hash call).2.map.shards.length = s.map.shards.length := by
  cases call with
  | insert key value => exact length_shards_setShard
  | remove key => exact length_shards_setShard
  | clear client =>
      unfold step
      dsimp only
      split
      · exact length_shards_setShard
      · rfl

/-- Every step keeps what the calls keep. -/
theorem scan_invariant {I : Shared ι α β → Prop} (hcall : ∀ t call, I t → I (t.step hash call).2)
    (hs : I s.shared) (steps : List (TourStep κ (CallStep ι α β))) :
    I (final (scanStep hash look) s steps).shared := by
  unfold scanStep
  exact Touring.shared_invariant hcall hs steps

/-- At every moment the keys are homed. -/
theorem homed_mapAt (hhomed : s.shared.map.Homed hash) (moment : Nat) :
    (mapAt hash look s steps moment).Homed hash :=
  scan_invariant (I := fun t : Shared ι α β => t.map.Homed hash)
    (fun _ call ht => homed_step ht call) hhomed _

/-- A scan leaves the number of shards. -/
theorem length_shards_scan (steps : List (TourStep κ (CallStep ι α β))) :
    (final (scanStep hash look) s steps).shared.map.shards.length =
      s.shared.map.shards.length :=
  scan_invariant (I := fun t : Shared ι α β => t.map.shards.length = s.shared.map.shards.length)
    (fun t call ht => (length_shards_step t call).trans ht) rfl steps

/-- The shard of a key is the same all along. -/
theorem shardIndex_mapAt (moment : Nat) (hv : UInt64) :
    (mapAt hash look s steps moment).shardIndex hv = s.shared.map.shardIndex hv := by
  unfold shardIndex mapAt
  rw [length_shards_scan]

/-- The moments at which a bulk read was at the shards, one after the other. -/
structure Moments (numShards length : Nat) (moment : Nat → Nat) : Prop where
  lt : ∀ idx < numShards, moment idx < length
  increasing : ∀ idx idx', idx < idx' → idx' < numShards → moment idx < moment idx'

/-- A bulk read returns after the last shard, with each shard as it was at some moment. -/
theorem exists_scan (hstart : s.touring client = none)
    (hcount : steps.countP (TourStep.visits client) = s.shared.map.shards.length) :
    ∃ moment, Moments s.shared.map.shards.length steps.length moment ∧
      (scanStep hash look (final (scanStep hash look) s steps) (.visit client)).1 =
        some ((List.range s.shared.map.shards.length).flatMap fun idx =>
          look ((mapAt hash look s steps (moment idx)).shard idx)) := by
  have hvisited : ∃ moment, Touring.Visited (fun t : Shared ι α β => t.map.shards.length)
      (fun t idx => look (t.map.shard idx)) (step hash) s client steps
      s.shared.map.shards.length moment := by
    rw [← hcount]
    exact Touring.exists_visited length_shards_step hstart hcount.le
  obtain ⟨moment, hlt, hincreasing, hprogress⟩ := hvisited
  refine ⟨moment, ⟨hlt, hincreasing⟩, ?_⟩
  have hdone : (final (scanStep hash look) s steps).shared.map.shards.length ≤
      ((final (scanStep hash look) s steps).progress client).1 := by
    rw [length_shards_scan]
    exact (congrArg Prod.fst hprogress).ge
  exact (Touring.visit_fst_of_le hdone).trans (congrArg (fun p => some p.2) hprogress)

/-- A key that is found in some shard, read at whatever moment, is found in its own. -/
theorem shardIndex_eq_of_mem (hhomed : s.shared.map.Homed hash) {moment idx : Nat} {key : α}
    (hidx : idx < s.shared.map.shards.length)
    (hkey : key ∈ (mapAt hash look s steps moment).shard idx) :
    s.shared.map.shardIndex (hash key) = idx := by
  rw [← shardIndex_mapAt (s := s) moment]
  refine (homed_mapAt hhomed moment).home idx ?_ key hkey
  unfold mapAt
  rwa [length_shards_scan]

/-- The shards list no key twice, whatever the moment each was read at. -/
theorem nodup_keys_flatMap (hhomed : s.shared.map.Homed hash) (moment : Nat → Nat) :
    ((List.range s.shared.map.shards.length).flatMap fun idx =>
      ((mapAt hash look s steps (moment idx)).shard idx).keys).Nodup := by
  refine List.nodup_flatMap.mpr ⟨fun idx _ => AList.keys_nodup _, ?_⟩
  refine List.nodup_range.imp_of_mem fun {idx idx'} hidx hidx' hne key hkey hkey' => hne ?_
  rw [← shardIndex_eq_of_mem hhomed (List.mem_range.mp hidx) hkey]
  exact shardIndex_eq_of_mem hhomed (List.mem_range.mp hidx') hkey'

/-- **A bulk read is exact shard by shard.**  What `AllEntries` and `ForEach` come upon while others
insert, remove and clear has no key twice, and has each key with the value it had, or lacks it as
the map did, at the moment its shard was read. -/
theorem allEntries_scan {s : Touring κ (Shared ι α β) (α × β)} (hhomed : s.shared.map.Homed hash)
    (hstart : s.touring client = none)
    (hcount : steps.countP (TourStep.visits client) = s.shared.map.shards.length) :
    ∃ entries moment,
      (scanStep hash pairs (final (scanStep hash pairs) s steps) (.visit client)).1 =
        some entries ∧
      (entries.map Prod.fst).Nodup ∧
      Moments s.shared.map.shards.length steps.length moment ∧
      ∀ key value, (key, value) ∈ entries ↔
        (mapAt hash pairs s steps (moment (s.shared.map.shardIndex (hash key)))).get true hash key =
          some value := by
  obtain ⟨moment, hmoments, hout⟩ := exists_scan hstart hcount
  refine ⟨_, moment, hout, ?_, hmoments, fun key value => ?_⟩
  · simp only [List.map_flatMap, map_fst_pairs]
    exact nodup_keys_flatMap hhomed moment
  · rw [get, if_pos rfl, shardIndex_mapAt]
    simp only [List.mem_flatMap, List.mem_range, mem_pairs]
    constructor
    · rintro ⟨idx, hidx, hlookup⟩
      rwa [shardIndex_eq_of_mem hhomed hidx (Dict.mem_of_lookup hlookup)]
    · exact fun hlookup => ⟨_, shardIndex_lt hhomed.pos _, hlookup⟩

/-- `AllKeys` likewise. -/
theorem allKeys_scan {s : Touring κ (Shared ι α β) α} (hhomed : s.shared.map.Homed hash)
    (hstart : s.touring client = none)
    (hcount : steps.countP (TourStep.visits client) = s.shared.map.shards.length) :
    ∃ keys moment,
      (scanStep hash AList.keys (final (scanStep hash AList.keys) s steps) (.visit client)).1 =
        some keys ∧
      keys.Nodup ∧ Moments s.shared.map.shards.length steps.length moment ∧
      ∀ key, key ∈ keys ↔ (mapAt hash AList.keys s steps
        (moment (s.shared.map.shardIndex (hash key)))).contains true hash key = true := by
  obtain ⟨moment, hmoments, hout⟩ := exists_scan hstart hcount
  refine ⟨_, moment, hout, nodup_keys_flatMap hhomed moment, hmoments, fun key => ?_⟩
  rw [contains, if_pos rfl, shardIndex_mapAt, AList.lookup_isSome]
  simp only [List.mem_flatMap, List.mem_range]
  constructor
  · rintro ⟨idx, hidx, hkey⟩
    rwa [shardIndex_eq_of_mem hhomed hidx hkey]
  · exact fun hkey => ⟨_, shardIndex_lt hhomed.pos _, hkey⟩

section Torn

def tornStart : Touring Unit (Shared Unit Nat Nat) (Nat × Nat) := ⟨.new 2, fun _ => none⟩

/-- A key of each shard comes in between the two shards. -/
def tornSteps : List (TourStep Unit (CallStep Unit Nat Nat)) :=
  [.visit (), .move (.insert 2 0), .move (.insert 1 0), .visit ()]

theorem tornStart_homed : tornStart.shared.map.Homed UInt64.ofNat := homed_new Nat.two_pos

theorem tornSteps_count :
    tornSteps.countP (TourStep.visits ()) = tornStart.shared.map.shards.length := rfl

theorem allEntries_scan_torn :
    ∃ entries, (scanStep UInt64.ofNat pairs
        (final (scanStep UInt64.ofNat pairs) tornStart tornSteps) (.visit ())).1 = some entries ∧
      (entries.map Prod.fst).Nodup := by
  obtain ⟨entries, -, hout, hnodup, -⟩ := allEntries_scan tornStart_homed rfl tornSteps_count
  exact ⟨entries, hout, hnodup⟩

/-- The later key is there without the earlier one. -/
example : (scanStep UInt64.ofNat pairs (final (scanStep UInt64.ofNat pairs) tornStart tornSteps)
    (.visit ())).1 = some [(1, 0)] := by decide +kernel

end Torn

end Shared

end DashMap

end AstraKV
