import AstraKV.Data.DashMap
import AstraKV.Lib.LastStep

/-!
# AstraKV.Data.DashRun

The sharded map over whole runs: one call after the other it is the map
without shards, and its counter may part from its keys when a `Clear` runs
beside an `Insert`.

The meaning of a map is a function from keys to values, and each call is
answered from it: `Sharded` and `Unsharded` say of a map which function it
shows, `Shows` is what both have in common. The second half breaks `Clear`
into its turns, one shard each and the counter last, and lets other clients'
calls come between them. The excess of the counter then follows from what was
inserted and removed in shards already emptied.
-/

universe u v w

namespace AstraKV

namespace DashMap

open Machine

variable {α : Type u} {β : Type v}

/-! ## one call after the other -/

inductive DashOp (α : Type u) (β : Type v) where
  | insert (key : α) (value : β)
  | insertView (key : α) (value : β)
  | get (key : α)
  | getView (key : α)
  | remove (key : α)
  | removeView (key : α)
  | contains (key : α)
  | containsView (key : α)
  | size
  | clear

inductive DashReply (β : Type v) where
  | unit
  | bool (b : Bool)
  | value (v : Option β)
  | count (n : UInt64)
deriving DecidableEq

section Step

variable [DecidableEq α] (threadSafe : Bool) (hash viewHash : α → UInt64)

def step (m : DashMap α β) : DashOp α β → DashReply β × DashMap α β
  | .insert key value =>
      let res := m.insert threadSafe hash key value
      (.bool res.1, res.2)
  | .insertView key value =>
      let res := m.insertView threadSafe hash key value
      (.bool res.1, res.2)
  | .get key => (.value (m.get threadSafe hash key), m)
  | .getView key => (.value (m.getView threadSafe viewHash key), m)
  | .remove key =>
      let res := m.remove threadSafe hash key
      (.bool res.1, res.2)
  | .removeView key =>
      let res := m.removeView threadSafe hash key
      (.bool res.1, res.2)
  | .contains key => (.bool (m.contains threadSafe hash key), m)
  | .containsView key => (.bool (m.containsView threadSafe viewHash key), m)
  | .size => (.count (m.size threadSafe), m)
  | .clear => (.unit, m.clear threadSafe)

end Step

/-- What an operation does to the values of the keys. -/
def DashOp.meaning [DecidableEq α] (f : α → Option β) : DashOp α β → α → Option β
  | .insert key value | .insertView key value => Function.update f key (some value)
  | .remove key | .removeView key => Function.update f key none
  | .clear => fun _ => none
  | _ => f

/-- The latest value of each key present. -/
def latest [DecidableEq α] (ops : List (DashOp α β)) : α → Option β :=
  ops.foldl DashOp.meaning fun _ => none

section New

variable {hash : α → UInt64} {n : Nat}

/-- The shards of a new map are empty. -/
theorem shard_new (idx : Nat) : (new true n : DashMap α β).shard idx = ∅ := by
  unfold shard new
  rw [if_pos rfl, List.getD_eq_getElem?_getD, List.getElem?_replicate]
  split <;> rfl

/-- So its keys are homed. -/
theorem homed_new (hn : 0 < n) : (new true n : DashMap α β).Homed hash := by
  refine ⟨by simpa [new] using hn, fun idx _ key hkey => ?_⟩
  rw [shard_new] at hkey
  exact absurd hkey (AList.notMem_empty key)

/-- The counter of a new map is right. -/
theorem excess_new : (new true n : DashMap α β).excess = 0 := by
  have hkeys : (new true n : DashMap α β).allKeys true = [] := by
    refine List.flatMap_eq_nil_iff.mpr fun map hmap => ?_
    obtain ⟨-, rfl⟩ := List.mem_replicate.mp hmap
    rfl
  rw [excess_eq_zero, count, hkeys]
  rfl

end New

section Shows

variable [DecidableEq α] {threadSafe : Bool} {hash viewHash : α → UInt64} {m : DashMap α β}
  {f : α → Option β} {n : Nat}

/-- All that can be asked about the map goes by `f`. -/
structure Shows (threadSafe : Bool) (hash viewHash : α → UInt64) (f : α → Option β)
    (m : DashMap α β) : Prop where
  get : ∀ key, m.get threadSafe hash key = f key
  getView : ∀ key, m.getView threadSafe viewHash key = f key
  contains : ∀ key, m.contains threadSafe hash key = (f key).isSome
  containsView : ∀ key, m.containsView threadSafe viewHash key = (f key).isSome
  nodup : (m.allKeys threadSafe).Nodup
  allKeys : ∀ key, key ∈ m.allKeys threadSafe ↔ (f key).isSome = true
  size : m.size threadSafe = UInt64.ofNat (m.allKeys threadSafe).length
  fst_allEntries : (m.allEntries threadSafe).map Prod.fst = m.allKeys threadSafe
  allEntries : ∀ key value, (key, value) ∈ m.allEntries threadSafe ↔ f key = some value
  forEach : m.forEach threadSafe = m.allEntries threadSafe

/-- The shards are in order and hold `f`. -/
structure Sharded (hash : α → UInt64) (f : α → Option β) (m : DashMap α β) : Prop where
  homed : m.Homed hash
  get : ∀ key, m.get true hash key = f key
  excess : m.excess = 0

/-- The map without shards, taken for a single shard. -/
def asShard (m : DashMap α β) : DashMap α β := ⟨[m.single], m.sizeUnlocked, ∅, 0⟩

/-- The map without shards holds `f`. -/
def Unsharded (f : α → Option β) (m : DashMap α β) : Prop := Sharded (fun _ => 0) f m.asShard

/-- A sharded map answers from the function it stands for. -/
theorem Sharded.shows (h : Sharded hash f m) (hview : ∀ key, viewHash key = hash key) :
    Shows true hash viewHash f m where
  get := h.get
  getView key := by
    rw [← h.get, getView, hview]
    rfl
  contains key := by
    rw [← h.get]
    rfl
  containsView key := by
    rw [← h.get, containsView, hview]
    rfl
  nodup := h.homed.nodup_allKeys
  allKeys key := by rw [← h.get, h.homed.mem_allKeys]
  size := excess_eq_zero.mp h.excess
  fst_allEntries := map_fst_allEntries true m
  allEntries key value := by rw [← h.get, h.homed.mem_allEntries]
  forEach := rfl

theorem Unsharded.shows (h : Unsharded f m) (hash viewHash : α → UInt64) :
    Shows false hash viewHash f m := by
  have hkeys : m.asShard.allKeys true = m.allKeys false := List.append_nil _
  have hentries : m.asShard.allEntries true = m.allEntries false := List.append_nil _
  have hshows : Shows true _ _ f m.asShard := Sharded.shows h fun _ => rfl
  refine ⟨hshows.get, hshows.get, hshows.contains, hshows.contains, m.single.keys_nodup, ?_, ?_,
    map_fst_allEntries false m, ?_, rfl⟩
  · exact hkeys ▸ hshows.allKeys
  · exact hkeys ▸ hshows.size
  · exact hentries ▸ hshows.allEntries

/-- A new sharded map has no keys. -/
theorem sharded_new (hn : 0 < n) :
    Sharded hash (fun _ => none) (new true n : DashMap α β) := by
  refine ⟨homed_new hn, fun key => ?_, excess_new⟩
  rw [get, if_pos rfl, shard_new]
  rfl

/-- A new map without shards has none. -/
theorem unsharded_new : Unsharded (fun _ => none) (new false n : DashMap α β) :=
  sharded_new Nat.one_pos

/-- `Insert` updates the function at its key. -/
theorem Sharded.insert (h : Sharded hash f m) (key : α) (value : β) :
    Sharded hash (Function.update f key (some value)) (m.insert true hash key value).2 := by
  refine ⟨h.homed.insert key value, fun key' => ?_,
    (h.homed.excess_insert key value).trans h.excess⟩
  rw [h.homed.get_insert, Function.update_apply, h.get]

/-- `Remove` clears it there. -/
theorem Sharded.remove (h : Sharded hash f m) (key : α) :
    Sharded hash (Function.update f key none) (m.remove true hash key).2 := by
  refine ⟨h.homed.remove key, fun key' => ?_, (h.homed.excess_remove key).trans h.excess⟩
  rw [h.homed.get_remove, Function.update_apply, h.get]

/-- `Clear` clears it everywhere. -/
theorem Sharded.clear (h : Sharded hash f m) : Sharded hash (fun _ => none) (m.clear true) := by
  have hhomed := h.homed.clear
  refine ⟨hhomed, fun key => h.homed.get_clear, ?_⟩
  have hkeys : (m.clear true).allKeys true = [] := by
    refine List.eq_nil_iff_forall_not_mem.mpr fun key hkey => ?_
    rw [hhomed.mem_allKeys, h.homed.get_clear] at hkey
    contradiction
  rw [excess_eq_zero, DashMap.count, hkeys]
  rfl

/-- `Insert` updates the function at its key. -/
theorem Unsharded.insert (h : Unsharded f m) (hash : α → UInt64) (key : α) (value : β) :
    Unsharded (Function.update f key (some value)) (m.insert false hash key value).2 :=
  Sharded.insert h key value

/-- `Remove` clears it there. -/
theorem Unsharded.remove (h : Unsharded f m) (hash : α → UInt64) (key : α) :
    Unsharded (Function.update f key none) (m.remove false hash key).2 :=
  Sharded.remove h key

/-- `Clear` clears it everywhere. -/
theorem Unsharded.clear (h : Unsharded f m) : Unsharded (fun _ => none) (m.clear false) :=
  Sharded.clear h

/-- What an operation answers, by the values of the keys and their number. -/
def DashOp.answer (f : α → Option β) (n : UInt64) : DashOp α β → DashReply β
  | .insert key _ | .insertView key _ => .bool (f key).isNone
  | .get key | .getView key => .value (f key)
  | .remove key | .removeView key | .contains key | .containsView key => .bool (f key).isSome
  | .size => .count n
  | .clear => .unit

/-- `Insert` says whether the key is new. -/
theorem insert_fst (key : α) (value : β) :
    (m.insert threadSafe hash key value).1 = (m.get threadSafe hash key).isNone := by
  cases threadSafe <;> rfl

/-- `Remove` says whether the key was there. -/
theorem remove_fst (key : α) :
    (m.remove threadSafe hash key).1 = (m.get threadSafe hash key).isSome := by
  cases threadSafe <;> rfl

/-- A call is answered from the function and the size. -/
theorem Shows.step_fst (h : Shows threadSafe hash viewHash f m) (op : DashOp α β) :
    (m.step threadSafe hash viewHash op).1 = op.answer f (m.size threadSafe) := by
  cases op with
  | insert key value | insertView key value =>
      refine congrArg DashReply.bool ((insert_fst key value).trans ?_)
      rw [h.get]
  | get key => exact congrArg DashReply.value (h.get key)
  | getView key => exact congrArg DashReply.value (h.getView key)
  | remove key | removeView key =>
      refine congrArg DashReply.bool ((remove_fst key).trans ?_)
      rw [h.get]
  | contains key => exact congrArg DashReply.bool (h.contains key)
  | containsView key => exact congrArg DashReply.bool (h.containsView key)
  | size => rfl
  | clear => rfl

/-- A call changes the function as it says. -/
theorem Sharded.step (h : Sharded hash f m) (op : DashOp α β) :
    Sharded hash (op.meaning f) (m.step true hash viewHash op).2 := by
  cases op with
  | insert key value | insertView key value => exact h.insert key value
  | remove key | removeView key => exact h.remove key
  | clear => exact h.clear
  | _ => exact h

/-- Without shards a call changes the function the same way. -/
theorem Unsharded.step (h : Unsharded f m) (op : DashOp α β) :
    Unsharded (op.meaning f) (m.step false hash viewHash op).2 := by
  cases op with
  | insert key value | insertView key value => exact h.insert hash key value
  | remove key | removeView key => exact h.remove hash key
  | clear => exact h.clear
  | _ => exact h

/-- Two maps that show the same have the same size. -/
theorem Shows.size_eq {m' : DashMap α β} {threadSafe' : Bool} {hash' viewHash' : α → UInt64}
    (h : Shows threadSafe hash viewHash f m) (h' : Shows threadSafe' hash' viewHash' f m') :
    m.size threadSafe = m'.size threadSafe' := by
  have hperm : (m.allKeys threadSafe).Perm (m'.allKeys threadSafe') :=
    (List.perm_ext_iff_of_nodup h.nodup h'.nodup).mpr fun key => by rw [h.allKeys, h'.allKeys]
  rw [h.size, h'.size, hperm.length_eq]

/-- A run changes the function call by call. -/
theorem Sharded.run (h : Sharded hash f m) (ops : List (DashOp α β)) :
    Sharded hash (ops.foldl DashOp.meaning f)
      (final (DashMap.step true hash viewHash) m ops) := by
  induction ops generalizing f m with
  | nil => exact h
  | cons op ops ih => exact ih (h.step op)

/-- Without shards a run changes it the same way. -/
theorem Unsharded.run (h : Unsharded f m) (ops : List (DashOp α β)) :
    Unsharded (ops.foldl DashOp.meaning f) (final (DashMap.step false hash viewHash) m ops) := by
  induction ops generalizing f m with
  | nil => exact h
  | cons op ops ih => exact ih (h.step op)

end Shows

/-- **Shards make no difference.**  Over every run the sharded map answers as the map without
shards, and both show every key present once with its latest value. -/
theorem sharded_eq_unsharded [DecidableEq α] {n : Nat} {hash viewHash : α → UInt64} (hn : 0 < n)
    (hview : ∀ key, viewHash key = hash key) (ops : List (DashOp α β)) :
    (run (step true hash viewHash) (new true n) ops).1 =
        (run (step false hash viewHash) (new false n) ops).1 ∧
      Shows true hash viewHash (latest ops) (final (step true hash viewHash) (new true n) ops) ∧
      Shows false hash viewHash (latest ops)
        (final (step false hash viewHash) (new false n) ops) := by
  have hsim : Simulates (fun _ => True)
      (fun m m' => ∃ f, Sharded hash f m ∧ Unsharded f m')
      (step true hash viewHash) (step (α := α) (β := β) false hash viewHash) := by
    constructor
    · rintro m m' op - ⟨f, hm, hm'⟩
      have hshows := hm.shows hview
      have hshows' := hm'.shows hash viewHash
      rw [hshows.step_fst, hshows'.step_fst, hshows.size_eq hshows']
    · rintro m m' op - ⟨f, hm, hm'⟩
      exact ⟨op.meaning f, hm.step op, hm'.step op⟩
  have hnew : Sharded hash (fun _ => none) (new true n : DashMap α β) := sharded_new hn
  have hnew' : Unsharded (fun _ => none) (new false n : DashMap α β) := unsharded_new
  have hops : ∀ op ∈ ops, True := fun _ _ => trivial
  have hout := (hsim.run ⟨_, hnew, hnew'⟩ hops).1
  exact ⟨hout, (hnew.run ops).shows hview, (hnew'.run ops).shows hash viewHash⟩

/-- Three shards, and a hash that tells keys apart by their length. -/
theorem sharded_eq_unsharded_three :
    (run (step true (fun key => UInt64.ofNat key.length) fun key => UInt64.ofNat key.length)
        (new true 3)
        [DashOp.insert [97] 1, .insert [97, 98] (2 : Nat), .removeView [97], .size]).1 =
      [.bool true, .bool true, .bool true, .count 1] :=
  (sharded_eq_unsharded (α := List Nat) (n := 3) (by decide) (fun _ => rfl) _).1.trans
    (by decide +kernel)

/-! ## calls at the same time -/

variable {ι : Type w}

/-- The map and, for each client within a `Clear`, the shard it comes to next. -/
structure Shared (ι : Type w) (α : Type u) (β : Type v) where
  map : DashMap α β
  clearing : ι → Option Nat

/-- A step of some client. -/
inductive CallStep (ι : Type w) (α : Type u) (β : Type v) where
  | insert (key : α) (value : β)
  | remove (key : α)
  | clear (client : ι)

namespace Shared

variable [DecidableEq ι] [DecidableEq α] {hash : α → UInt64} {s : Shared ι α β} {i : ι}

def new (n : Nat) : Shared ι α β := ⟨.new true n, fun _ => none⟩

/-- `Clear` takes the shards one by one and then stores the size. -/
def step (hash : α → UInt64) (s : Shared ι α β) :
    CallStep ι α β → DashReply β × Shared ι α β
  | .insert key value =>
      let res := s.map.insert true hash key value
      (.bool res.1, { s with map := res.2 })
  | .remove key =>
      let res := s.map.remove true hash key
      (.bool res.1, { s with map := res.2 })
  | .clear client =>
      let idx := (s.clearing client).getD 0
      if idx < s.map.shards.length then
        (.unit, ⟨s.map.clearShard idx, Function.update s.clearing client (some (idx + 1))⟩)
      else (.unit, ⟨s.map.storeSize, Function.update s.clearing client none⟩)

/-- The step is the store at the end of a `Clear`. -/
def Stores (s : Shared ι α β) (call : CallStep ι α β) : Prop :=
  ∃ client, call = .clear client ∧ s.map.shards.length ≤ (s.clearing client).getD 0

/-- No call is in progress. -/
def Quiet (s : Shared ι α β) : Prop := ∀ client, s.clearing client = none

/-- A turn of any client keeps the keys homed. -/
theorem homed_step (h : s.map.Homed hash) (call : CallStep ι α β) :
    (s.step hash call).2.map.Homed hash := by
  cases call with
  | insert key value => exact h.insert key value
  | remove key => exact h.remove key
  | clear client =>
      unfold step
      dsimp only
      split
      · rename_i hidx
        exact h.clearShard hidx
      · exact h.of_shards rfl

/-- A `Clear` that has begun ends with a store. -/
theorem clearing_run {calls : List (CallStep ι α β)}
    (halong : Along (step hash) (fun s call => ¬ s.Stores call) s calls)
    (hi : s.clearing i ≠ none) : (final (step hash) s calls).clearing i ≠ none := by
  refine invariant_along (I := fun s => s.clearing i ≠ none) ?_ hi halong
  intro s call hi hcall
  cases call with
  | insert key value => exact hi
  | remove key => exact hi
  | clear client =>
      unfold step
      dsimp only
      split
      · by_cases heq : i = client
        · simp [heq]
        · simpa [heq] using hi
      · rename_i hidx
        exact absurd ⟨client, rfl, not_lt.mp hidx⟩ hcall

/-- Without a store, and with no call in progress at the end, the counter and the keys go
together. -/
theorem excess_run {calls : List (CallStep ι α β)} (hhomed : s.map.Homed hash)
    (halong : Along (step hash) (fun s call => ¬ s.Stores call) s calls)
    (hquiet : (final (step hash) s calls).Quiet) :
    (final (step hash) s calls).map.excess = s.map.excess := by
  induction calls generalizing s with
  | nil => rfl
  | cons call calls ih =>
      rw [final_cons, ih (homed_step hhomed call) halong.2 hquiet]
      cases call with
      | insert key value => exact hhomed.excess_insert key value
      | remove key => exact hhomed.excess_remove key
      | clear client =>
          have hidx : (s.clearing client).getD 0 < s.map.shards.length :=
            not_le.mp fun hle => halong.1 ⟨client, rfl, hle⟩
          have hbusy : (s.step hash (.clear client)).2.clearing client ≠ none := by
            unfold step
            dsimp only
            rw [if_pos hidx]
            simp
          have hafter : Along (step hash) (fun s call => ¬ s.Stores call)
              (s.step hash (.clear client)).2 calls := halong.2
          have hstill := clearing_run hafter hbusy
          exact absurd (hquiet client) hstill

/-- After the last store the counter lags behind by the keys that were there. -/
theorem excess_of_last {calls₁ calls₂ : List (CallStep ι α β)} {call : CallStep ι α β}
    (hhomed : s.map.Homed hash) (hstores : (final (step hash) s calls₁).Stores call)
    (halong : Along (step hash) (fun s call => ¬ s.Stores call)
      (final (step hash) s (calls₁ ++ [call])) calls₂)
    (hquiet : (final (step hash) s (calls₁ ++ call :: calls₂)).Quiet) :
    (final (step hash) s (calls₁ ++ call :: calls₂)).map.excess =
      0 - UInt64.ofNat (final (step hash) s calls₁).map.count := by
  have hsplit : final (step hash) s (calls₁ ++ call :: calls₂) =
      final (step hash) (final (step hash) s (calls₁ ++ [call])) calls₂ := by
    rw [← final_append, List.append_assoc]
    rfl
  have hhomed' : (final (step hash) s (calls₁ ++ [call])).map.Homed hash :=
    invariant_run (I := fun s : Shared ι α β => s.map.Homed hash)
      (fun s call h => homed_step h call) hhomed _
  rw [hsplit] at hquiet ⊢
  rw [excess_run hhomed' halong hquiet, final_append]
  obtain ⟨client, rfl, hidx⟩ := hstores
  have hstore : (final (step hash) (final (step hash) s calls₁) [CallStep.clear client]).map =
      (final (step hash) s calls₁).map.storeSize := by
    rw [final_cons, final_nil, step, if_neg (not_lt.mpr hidx)]
  rw [hstore]
  rfl

/-- With no call in progress the size is the number of keys, if and only if the last store of a
`Clear` found the shards empty. -/
theorem size_exact_iff {n : Nat} (hn : 0 < n) {calls : List (CallStep ι α β)}
    (hquiet : (final (step hash) (new n) calls).Quiet) :
    (final (step hash) (new n) calls).map.size true =
        UInt64.ofNat (final (step hash) (new n) calls).map.count ↔
      AtLast (step hash) Stores (fun s => UInt64.ofNat s.map.count = 0) (new n) calls := by
  have hexact : (final (step hash) (new n) calls).map.excess = 0 ↔ _ := excess_eq_zero
  rw [size, if_pos rfl, ← hexact]
  constructor
  · rintro hzero calls₁ call calls₂ rfl hstores halong
    rw [excess_of_last (homed_new hn) hstores halong hquiet] at hzero
    exact (sub_eq_zero.mp hzero).symm
  · intro hlast
    obtain hnone | ⟨calls₁, call, calls₂, rfl, hstores, halong⟩ :=
      along_or_last (step hash) Stores (new n) calls
    · rw [excess_run (homed_new hn) hnone hquiet]
      exact excess_new
    · rw [excess_of_last (homed_new hn) hstores halong hquiet,
        hlast calls₁ call calls₂ rfl hstores halong]
      rfl

theorem size_exact_iff_cleared :
    let calls := [.insert 4 0, .clear true, .insert 5 1, .clear true, .clear true]
    AtLast (step UInt64.ofNat) Stores (fun s => UInt64.ofNat s.map.count = 0)
      (new 2 : Shared Bool Nat Nat) calls := by
  intro calls
  have hquiet : (final (step UInt64.ofNat) (new 2) calls).Quiet := by
    unfold Quiet
    decide +kernel
  exact (size_exact_iff (by decide) hquiet).mp (by decide +kernel)

/-- A key goes into the shard before the size is stored. -/
theorem insert_uncounted :
    let calls := [.clear true, .insert 5 1, .clear true]
    let s := final (step UInt64.ofNat) (new 1 : Shared Bool Nat Nat) calls
    s.Quiet ∧ s.map.size true = 0 ∧ s.map.count = 1 ∧ s.map.size true ≠ UInt64.ofNat s.map.count ∧
      (s.step UInt64.ofNat (.remove 5)).2.map.size true = 18446744073709551615 := by
  unfold Quiet
  decide +kernel

/-! ## a client alone -/

/-- A client alone clears one shard a turn, and the counter last. -/
theorem clear_turns (hi : s.clearing i = none) {n : Nat} (hn : n ≤ s.map.shards.length) :
    final (step hash) s (List.replicate n (.clear i)) =
      ⟨(List.range n).foldl clearShard s.map,
        Function.update s.clearing i (if n = 0 then none else some n)⟩ := by
  induction n with
  | zero =>
      rw [if_pos rfl, ← hi, Function.update_eq_self]
      rfl
  | succ n ih =>
      have hidx : (if n = 0 then none else some n).getD 0 = n := by
        split
        · rename_i hzero
          exact hzero.symm
        · rfl
      rw [List.replicate_succ', final_append, ih (by omega), List.range_succ, List.foldl_append,
        final_cons, final_nil, step]
      simp only [Function.update_self, Function.update_idem, hidx, length_shards_foldl_clearShard]
      rw [if_pos (Nat.lt_of_succ_le hn), if_neg (Nat.succ_ne_zero n)]
      rfl

/-- A client alone clears the map. -/
theorem clear_alone (hpos : 0 < s.map.shards.length) (hi : s.clearing i = none) :
    final (step hash) s (List.replicate (s.map.shards.length + 1) (.clear i)) =
      { s with map := s.map.clear true } := by
  rw [List.replicate_succ', final_append, clear_turns hi le_rfl, final_cons, final_nil, step,
    if_neg hpos.ne']
  simp only [Function.update_self, Function.update_idem, Option.getD_some,
    length_shards_foldl_clearShard]
  rw [if_neg (lt_irrefl _), ← hi, Function.update_eq_self]
  rfl

end Shared

end DashMap

end AstraKV
