import AstraKV.Data.MetadataRun

/-!
# AstraKV.Data.AccessCount

The LFU counter over a run of calls of the metadata manager, against the
number of accesses since the key was registered.  No call decays counters.

The counter is a byte that is incremented before it is capped, so it goes
round: it is the number of accesses modulo 256, and no call but an access or a
registration changes it.
-/

namespace AstraKV

open Machine

/-- A call of the manager, other than one that decays counters. -/
inductive MetaOp where
  | on (key : Bytes) (call : KeyCall)
  | clear

namespace KeyMetadataManager

/-- A call, with what it answers left out. -/
def step (metas : KeyMetadataManager) : MetaOp → Unit × KeyMetadataManager
  | .on key call => ((), (metas.on key call).2)
  | .clear => ((), metas.clear)

def after (metas : KeyMetadataManager) (ops : List MetaOp) : KeyMetadataManager :=
  final step metas ops

/-- The accesses to the key since it was registered last. -/
def hits (key : Bytes) (n : Option Nat) : MetaOp → Option Nat
  | .on k (.registerKey _) => if k = key then some 0 else n
  | .on k (.updateAccessInfo _) => if k = key then n.map (· + 1) else n
  | _ => n

/-- The key is there, and has been accessed `n` times since it was registered in the run. -/
def Accessed (metas : KeyMetadataManager) (ops : List MetaOp) (key : Bytes) (n : Nat) : Prop :=
  key ∈ metas.after ops ∧ ops.foldl (hits key) none = some n

variable {metas : KeyMetadataManager} {ops : List MetaOp} {op : MetaOp} {key : Bytes} {n : Nat}
  {m m' : KeyMetadata} {now : Int}

/-- A run with one more call is that call after the run. -/
theorem after_append_singleton :
    metas.after (ops ++ [op]) = (step (metas.after ops) op).2 :=
  final_append step metas ops [op]

/-- An access counts one up, modulo 256. -/
theorem lfuCounter_updateAccess : (m.updateAccess now).lfuCounter = m.lfuCounter + 1 := by
  have hle : m.lfuCounter + 1 ≤ 255 := by
    rw [UInt8.le_iff_toNat_le]
    exact Nat.le_of_lt_succ (m.lfuCounter + 1).toNat_lt
  exact if_pos hle

/-- The counter read for a key is that of its metadata. -/
theorem getLFUCounter_eq (h : metas.lookup key = some m) :
    metas.getLFUCounter key = m.lfuCounter := by
  simp [getLFUCounter, h]

/-- What is valid is what was there. -/
theorem lookup_of_lookup_isValid {k : Bytes} (h : (metas.isValid now k).2.lookup key = some m) :
    metas.lookup key = some m := by
  have herase : (metas.erase k).lookup key = some m → metas.lookup key = some m := by
    rw [Dict.lookup_erase_ite]
    split
    · exact fun h => nomatch h
    · exact id
  unfold isValid at h
  split at h
  · exact h
  · split at h
    · exact herase h
    · exact h

/-- Setting an expiry leaves the counter. -/
theorem lfuCounter_setExpireMs (ms : Int) : (m.setExpireMs ms).lfuCounter = m.lfuCounter := by
  unfold KeyMetadata.setExpireMs
  split <;> rfl

/-- A call about a key changes its counter if it is an access, and sets it back if it is a
registration. -/
theorem lookup_on (call : KeyCall) (h : (metas.on key call).2.lookup key = some m')
    (r : Option Nat) :
    (hits key r (.on key call) = some 0 ∧ m'.lfuCounter = 0) ∨
      ∃ m, metas.lookup key = some m ∧
        ((hits key r (.on key call) = r.map (· + 1) ∧ m'.lfuCounter = m.lfuCounter + 1) ∨
          (hits key r (.on key call) = r ∧ m'.lfuCounter = m.lfuCounter)) := by
  -- a call that changes something else in the metadata
  have hother : ∀ {f : KeyMetadata → KeyMetadata}, (metas.lookup key).map f = some m' →
      (∀ m, (f m).lfuCounter = m.lfuCounter) →
        ∃ m, metas.lookup key = some m ∧ m'.lfuCounter = m.lfuCounter := by
    intro f hmap hf
    obtain ⟨m, hm, rfl⟩ := Option.map_eq_some_iff.mp hmap
    exact ⟨m, hm, hf m⟩
  cases call with
  | registerKey type =>
      have hlookup : (metas.registerKey key type).lookup key = some m' := h
      rw [registerKey, AList.lookup_insert] at hlookup
      obtain rfl := Option.some.inj hlookup
      exact .inl ⟨if_pos rfl, rfl⟩
  | updateAccessInfo now =>
      have hlookup : (metas.updateAccessInfo now key).2.lookup key = some m' := h
      rw [(updateAccessInfo_eq metas key now).2] at hlookup
      obtain ⟨m, hm, rfl⟩ := Option.map_eq_some_iff.mp hlookup
      exact .inr ⟨m, hm, .inl ⟨if_pos rfl, lfuCounter_updateAccess⟩⟩
  | unregisterKey =>
      have hlookup : (metas.erase key).lookup key = some m' := h
      rw [AList.lookup_erase] at hlookup
      exact nomatch hlookup
  | isValid now => exact .inr ⟨m', lookup_of_lookup_isValid h, .inr ⟨rfl, rfl⟩⟩
  | getKeyType now =>
      have hlookup : (metas.getKeyType now key).2.lookup key = some m' := h
      rw [getKeyType_snd] at hlookup
      exact .inr ⟨m', lookup_of_lookup_isValid hlookup, .inr ⟨rfl, rfl⟩⟩
  | setExpireMs t =>
      obtain ⟨m, hm, hcounter⟩ := hother ((setExpireMs_eq metas key t).2.symm.trans h)
        fun _ => lfuCounter_setExpireMs t
      exact .inr ⟨m, hm, .inr ⟨rfl, hcounter⟩⟩
  | setExpireSeconds now seconds =>
      obtain ⟨m, hm, hcounter⟩ := hother
        ((setExpireMs_eq metas key (now + seconds * 1000)).2.symm.trans h)
        fun _ => lfuCounter_setExpireMs (now + seconds * 1000)
      exact .inr ⟨m, hm, .inr ⟨rfl, hcounter⟩⟩
  | persist =>
      obtain ⟨m, hm, hcounter⟩ := hother ((persist_eq metas key).2.symm.trans h) fun _ => rfl
      exact .inr ⟨m, hm, .inr ⟨rfl, hcounter⟩⟩
  | incrementKeyVersion =>
      obtain ⟨m, hm, hcounter⟩ := hother (lookup_incrementKeyVersion.symm.trans h) fun _ => rfl
      exact .inr ⟨m, hm, .inr ⟨rfl, hcounter⟩⟩
  | getTtlMs | getTtlSeconds | getExpireTimeMs | getKeyVersion | getAccessTime | getLFUCounter
  | hasTTL => exact .inr ⟨m', h, .inr ⟨rfl, rfl⟩⟩

/-- A key that is there was registered, or it was there before with the counter it has, or with one
less if it was accessed. -/
theorem lookup_step (h : (step metas op).2.lookup key = some m') (r : Option Nat) :
    (hits key r op = some 0 ∧ m'.lfuCounter = 0) ∨
      ∃ m, metas.lookup key = some m ∧
        ((hits key r op = r.map (· + 1) ∧ m'.lfuCounter = m.lfuCounter + 1) ∨
          (hits key r op = r ∧ m'.lfuCounter = m.lfuCounter)) := by
  cases op with
  | on k call =>
      by_cases hk : k = key
      · subst hk
        exact lookup_on call h r
      · have hlookup : (metas.on k call).2.lookup key = some m' := h
        rw [lookup_on_of_ne (Ne.symm hk)] at hlookup
        refine .inr ⟨m', hlookup, .inr ⟨?_, rfl⟩⟩
        cases call with
        | registerKey | updateAccessInfo => exact if_neg hk
        | _ => rfl
  | clear => exact nomatch h

/-- **The counter goes round.**  It is the number of accesses modulo 256. -/
theorem lfuCounter_after (metas : KeyMetadataManager) (ops : List MetaOp)
    (h : (metas.after ops).lookup key = some m) (hn : ops.foldl (hits key) none = some n) :
    m.lfuCounter.toNat = n % 256 := by
  induction ops using List.reverseRecOn generalizing m n with
  | nil => cases hn
  | append_singleton ops op ih =>
      rw [after_append_singleton] at h
      rw [List.foldl_append, List.foldl_cons, List.foldl_nil] at hn
      obtain ⟨hhits, hcounter⟩ | ⟨m₀, hm₀, ⟨hhits, hcounter⟩ | ⟨hhits, hcounter⟩⟩ :=
        lookup_step h (ops.foldl (hits key) none)
      · obtain rfl := Option.some.inj (hhits.symm.trans hn)
        rw [hcounter]
        rfl
      · obtain ⟨n₀, hn₀, rfl⟩ := Option.map_eq_some_iff.mp (hhits.symm.trans hn)
        have hone : (1 : UInt8).toNat = 1 := rfl
        rw [hcounter, UInt8.toNat_add, ih hm₀ hn₀, hone]
        omega
      · rw [hcounter, ih hm₀ (hhits.symm.trans hn)]

/-- The counter that the manager answers with. -/
theorem Accessed.counter (h : Accessed metas ops key n) :
    ((metas.after ops).getLFUCounter key).toNat = n % 256 := by
  obtain ⟨hmem, hn⟩ := h
  obtain ⟨m, hm⟩ := Dict.exists_lookup hmem
  rw [getLFUCounter_eq hm, lfuCounter_after metas ops hm hn]

/-- Before it was accessed for the last time it had been accessed once less. -/
theorem Accessed.before (h : Accessed metas (ops ++ [op]) key n) :
    n = 0 ∨ Accessed metas ops key n ∨ ∃ n₀, n = n₀ + 1 ∧ Accessed metas ops key n₀ := by
  obtain ⟨hmem, hn⟩ := h
  obtain ⟨m, hm⟩ := Dict.exists_lookup hmem
  rw [after_append_singleton] at hm
  rw [List.foldl_append, List.foldl_cons, List.foldl_nil] at hn
  obtain ⟨hhits, -⟩ | ⟨m₀, hm₀, ⟨hhits, -⟩ | ⟨hhits, -⟩⟩ :=
    lookup_step hm (ops.foldl (hits key) none)
  · exact .inl (Option.some.inj (hn.symm.trans hhits))
  · obtain ⟨n₀, hn₀, rfl⟩ := Option.map_eq_some_iff.mp (hhits.symm.trans hn)
    exact .inr (.inr ⟨n₀, rfl, Dict.mem_of_lookup hm₀, hn₀⟩)
  · exact .inr (.inl ⟨Dict.mem_of_lookup hm₀, hhits.symm.trans hn⟩)

/-- One more access is one more to count. -/
theorem accessed_append_access (h : Accessed metas ops key n) (now : Int) :
    Accessed metas (ops ++ [.on key (.updateAccessInfo now)]) key (n + 1) := by
  obtain ⟨hmem, hn⟩ := h
  obtain ⟨m, hm⟩ := Dict.exists_lookup hmem
  refine ⟨?_, ?_⟩
  · rw [after_append_singleton]
    have hlookup : ((metas.after ops).updateAccessInfo now key).2.lookup key = _ :=
      (updateAccessInfo_eq _ key now).2
    rw [hm] at hlookup
    exact Dict.mem_of_lookup hlookup
  · rw [List.foldl_append, hn]
    simp [hits]

/-- The counters over a run say how often keys were accessed, up to 255. -/
structure CountsAccesses (metas : KeyMetadataManager) (ops : List MetaOp) : Prop where
  counter : ∀ p, p <+: ops → ∀ key n, Accessed metas p key n →
    ((metas.after p).getLFUCounter key).toNat = min n 255
  /-- An access does not bring the counter down. -/
  grows : ∀ p now key n, p ++ [.on key (.updateAccessInfo now)] <+: ops → Accessed metas p key n →
    (metas.after p).getLFUCounter key ≤
      (metas.after (p ++ [.on key (.updateAccessInfo now)])).getLFUCounter key
  /-- The key that is accessed as often as another has no smaller counter. -/
  ordered : ∀ p, p <+: ops → ∀ key key' n n', Accessed metas p key n → Accessed metas p key' n' →
    n ≤ n' → (metas.after p).getLFUCounter key ≤ (metas.after p).getLFUCounter key'

/-- **How long counters count.**  They do if no key is accessed more than 255 times: the next access
takes the counter back to zero. -/
theorem countsAccesses_iff (metas : KeyMetadataManager) (ops : List MetaOp) :
    CountsAccesses metas ops ↔
      ∀ p, p <+: ops → ∀ key n, Accessed metas p key n → n ≤ 255 := by
  constructor
  · intro h p hp key n hn
    induction p using List.reverseRecOn generalizing n with
    | nil => exact absurd hn.2 (by simp)
    | append_singleton p op ih =>
        have hprefix : p <+: ops := (List.prefix_append p [op]).trans hp
        obtain rfl | hsame | ⟨n₀, rfl, hless⟩ := hn.before
        · omega
        · exact ih hprefix n hsame
        · -- one access more than 255 would leave 0 where 255 is asked for
          have hle := ih hprefix n₀ hless
          have hcounter := hn.counter
          rw [h.counter _ hp key _ hn] at hcounter
          omega
  · intro h
    have hcounter : ∀ p, p <+: ops → ∀ key n, Accessed metas p key n →
        ((metas.after p).getLFUCounter key).toNat = n := by
      intro p hp key n hn
      have hle := h p hp key n hn
      rw [hn.counter, Nat.mod_eq_of_lt (by omega)]
    constructor
    case counter =>
      intro p hp key n hn
      rw [hcounter p hp key n hn, min_eq_left (h p hp key n hn)]
    case grows =>
      intro p now key n hp hn
      have hprefix : p <+: ops := (List.prefix_append p _).trans hp
      rw [UInt8.le_iff_toNat_le, hcounter p hprefix key n hn,
        hcounter _ hp key _ (accessed_append_access hn now)]
      omega
    case ordered =>
      intro p hp key key' n n' hn hn' hle
      rw [UInt8.le_iff_toNat_le, hcounter p hp key n hn, hcounter p hp key' n' hn']
      exact hle

/-- A registration starts the count at zero. -/
theorem accessed_register (metas : KeyMetadataManager) (key : Bytes) (type : KeyType) :
    Accessed metas [.on key (.registerKey type)] key 0 := by
  refine ⟨?_, by simp [hits]⟩
  simp [after, final, run, step, KeyMetadataManager.on, registerKey]

/-- Any number of accesses can follow a registration. -/
theorem accessed_replicate (metas : KeyMetadataManager) (key : Bytes) (type : KeyType) (now : Int)
    (n : Nat) :
    Accessed metas
      (.on key (.registerKey type) :: List.replicate n (.on key (.updateAccessInfo now)))
      key n := by
  induction n with
  | zero => exact accessed_register metas key type
  | succ n ih =>
      rw [List.replicate_succ', ← List.cons_append]
      exact accessed_append_access ih now

/-- A key that has been accessed 256 times counts as one that has not. -/
theorem counter_wraps :
    ∃ ops, Accessed ∅ ops [97] 256 ∧ (after ∅ ops).getLFUCounter [97] = 0 := by
  have h := accessed_replicate ∅ [97] .kBytes 0 256
  exact ⟨_, h, UInt8.toNat_inj.mp h.counter⟩

end KeyMetadataManager

end AstraKV
