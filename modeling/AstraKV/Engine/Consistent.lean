import AstraKV.Engine.Course

/-!
# AstraKV.Engine.Consistent

The maps and the metadata agree on every key as long as no step finds the
key stored under another type, forgets an expired key that is still stored,
or loads a record over a value of another type.

Metadata never outlives the value it names; the other direction, that every
stored value is named, is what such a step breaks.

Each key is looked at by itself: `Slot.Consistent` is about its values in the
maps and its metadata, and an operation on the slot keeps it unless it is one
of the three steps above (`Shape.Sound` is the negation). A pass keeps it
always, since cleanup and eviction drop value and metadata together. From the
slots the statement about the engine follows: every key is in one map, its
type is that of the map, and what is listed is what exists.
-/

namespace AstraKV

open Slot Machine

namespace Slot

variable {E : Env} {s : Slot E} {c : Call} {t : KeyType}

def Stored (s : Slot E) : Prop := ∃ t, s.value t ≠ none

/-- Stored in the map of type `t` or in none. -/
def OnlyAs (s : Slot E) (t : KeyType) : Prop := ∀ t', s.value t' ≠ none → t' = t

/-- Whatever map holds the key, the metadata names it, and it names a map that holds the key. -/
structure Consistent (s : Slot E) : Prop where
  named : ∀ t, s.value t ≠ none → ∃ m, s.metadata = some m ∧ m.type = t
  kept : ∀ m, s.metadata = some m → s.value m.type ≠ none

/-- A consistent slot with a value of one type has no other. -/
theorem Consistent.onlyAs (h : s.Consistent) (ht : s.value t ≠ none) : s.OnlyAs t := by
  intro t' ht'
  obtain ⟨m, hm, rfl⟩ := h.named t ht
  obtain ⟨m', hm', rfl⟩ := h.named t' ht'
  rw [hm] at hm'
  rw [Option.some.inj hm']

/-- An empty slot is consistent. -/
theorem consistent_empty : (empty : Slot E).Consistent :=
  ⟨fun _ h => absurd rfl h, fun _ h => nomatch h⟩

/-- Only the values and the type in the metadata count. -/
theorem Consistent.congr {s' : Slot E} (h : s.Consistent) (hvalue : s'.value = s.value)
    (htype : s'.metadata.map KeyMetadata.type = s.metadata.map KeyMetadata.type) :
    s'.Consistent := by
  constructor
  · intro t ht
    rw [hvalue] at ht
    obtain ⟨m, hm, rfl⟩ := h.named t ht
    rw [hm] at htype
    exact Option.map_eq_some_iff.mp htype
  · intro m' hm'
    rw [hm'] at htype
    obtain ⟨m, hm, htype⟩ := Option.map_eq_some_iff.mp htype.symm
    rw [hvalue, ← htype]
    exact h.kept m hm

/-- Writing a record does not touch values or metadata. -/
theorem Consistent.save (h : s.Consistent) (disk ok : Bool) (record : Bytes) :
    (save disk ok s record).Consistent := by
  refine h.congr ?_ ?_ <;> unfold Slot.save <;> split <;> rfl

/-- A value may be replaced. -/
theorem Consistent.set (h : s.Consistent) (ht : s.value t ≠ none) (v : Value E t) :
    (s.set t v).Consistent := by
  constructor
  · intro t' ht'
    by_cases heq : t' = t
    · exact h.named t' (heq ▸ ht)
    · rw [value_set_of_ne heq] at ht'
      exact h.named t' ht'
  · intro m hm
    by_cases heq : m.type = t
    · subst heq
      simp
    · rw [value_set_of_ne heq]
      exact h.kept m hm

/-- Storing over a value of the same type keeps a slot consistent. -/
theorem Consistent.store (h : s.Consistent) (ht : s.value t ≠ none) (disk ok : Bool)
    (res : Bool × Value E t) : (store disk ok s t res).Consistent := by
  unfold Slot.store
  cases res.1 with
  | true => exact (h.set ht res.2).save disk ok _
  | false => exact h.set ht res.2

/-- A key stored under no other type may be stored and registered. -/
theorem consistent_register (h : s.OnlyAs t) (v : Value E t) :
    ((s.set t v).register t).Consistent := by
  constructor
  · intro t' ht'
    refine ⟨_, rfl, ?_⟩
    by_cases heq : t' = t
    · exact heq.symm
    · rw [value_register, value_set_of_ne heq] at ht'
      exact (h t' ht').symm
  · intro m hm
    obtain rfl := Option.some.inj hm
    simp [KeyMetadata.ofType]

/-- Where nothing is stored the metadata can go. -/
theorem Consistent.forget (h : ¬ s.Stored) : { s with metadata := none }.Consistent :=
  ⟨fun t ht => absurd ⟨t, ht⟩ h, fun _ hm => nomatch hm⟩

/-- A check forgets the metadata of nothing that is stored. -/
theorem Consistent.check (h : s.Consistent) (hsound : s.Stored → s.expired c.now = false) :
    (s.check c.now).Consistent := by
  unfold Slot.check
  cases hexpired : s.expired c.now with
  | false => exact h
  | true =>
      refine Consistent.forget fun hstored => ?_
      rw [hsound hstored] at hexpired
      contradiction

/-- A load brings its value with fresh metadata. -/
theorem Consistent.fetch (h : s.Consistent) {dim : Nat}
    (hsound : s.value t = none → s.load c t dim ≠ none → ¬ s.Stored) :
    (s.fetch c t dim).Consistent := by
  unfold Slot.fetch
  split
  · rename_i v hvalue hload
    refine consistent_register (fun t' ht' => ?_) v
    exact absurd ⟨t', ht'⟩ (hsound hvalue (by rw [hload]; simp))
  · exact h

/-- Changing a value leaves it where it is. -/
theorem Consistent.change (h : s.Consistent) (disk ok : Bool) (f : Value E t → Bool × Value E t) :
    (change disk ok s t f).Consistent := by
  unfold Slot.change
  cases hvalue : s.value t with
  | none => exact h
  | some v => exact h.store (by rw [hvalue]; simp) disk ok (f v)

/-- Evicting a key drops the value its metadata names, and the metadata. -/
theorem Consistent.evict (h : s.Consistent) (disk ok : Bool) {m : KeyMetadata}
    (hm : s.metadata = some m) : (evict disk ok s m.type).Consistent := by
  obtain ⟨v, hv⟩ := Option.ne_none_iff_exists'.mp (h.kept m hm)
  unfold Slot.evict
  rw [hv]
  refine Consistent.forget ?_
  rintro ⟨t, ht⟩
  by_cases heq : t = m.type
  · subst heq
    exact ht value_drop_self
  · rw [value_drop_of_ne heq, value_save] at ht
    obtain ⟨m', hm', htype⟩ := h.named t ht
    rw [hm] at hm'
    rw [Option.some.inj hm', htype] at heq
    contradiction

/-- A pass keeps a slot consistent. -/
theorem Swept.consistent {o : Options} {disk : Bool} {s' : Slot E} (h : Swept c o disk s s')
    (hs : s.Consistent) : s'.Consistent := by
  cases h with
  | kept => exact hs
  | expired h => exact consistent_empty
  | evicted i m hlimit hm hvalid => exact hs.evict disk _ hm

end Slot

/-! ## the condition -/

/-- The operation does not part the values of the slot from its metadata. -/
def Shape.Sound {E : Env} (c : Call) (s : Slot E) : Shape E → Prop
  | .idle | .del | .change _ _ => True
  | .check | .expire _ => s.Stored → s.expired c.now = false
  | .get => (s.Stored → s.expired c.now = false) ∧
      (s.value .kBytes = none → s.record ≠ none → ¬ s.Stored)
  | .put _ => s.OnlyAs .kBytes
  | .jsondel => s.OnlyAs .kJson
  | .read guarded t dim => (guarded = true → s.Stored → s.expired c.now = false) ∧
      (s.value t = none → s.load c t dim ≠ none → ¬ s.Stored)
  | .update t dim _ => s.value t = none → s.load c t dim ≠ none → ¬ s.Stored
  | .edit t _ _ => s.OnlyAs t

/-- A sound operation keeps a slot consistent. -/
theorem Slot.Consistent.act {E : Env} {s : Slot E} {c : Call} {disk : Bool} {shape : Shape E}
    (h : s.Consistent) (hsound : shape.Sound c s) : (s.act c disk shape).Consistent := by
  cases shape with
  | idle => exact h
  | check => exact h.check hsound
  | expire ms =>
      unfold Slot.act
      dsimp only
      split
      · refine h.congr rfl ?_
        cases s.metadata with
        | none => rfl
        | some m =>
            simp only [Option.map_some]
            unfold KeyMetadata.setExpireMs
            split <;> rfl
      · exact h.check hsound
  | get =>
      have htouch : ∀ s' : Slot E, s'.Consistent → (s'.touch c.now).Consistent := by
        intro s' hs'
        refine hs'.congr rfl ?_
        rw [Slot.touch, Option.map_map]
        rfl
      unfold Slot.act
      dsimp only
      split
      · rename_i hvalid
        split
        · exact htouch s h
        · rename_i record hvalue hrecord
          -- a valid key is stored under some type
          cases hm : s.metadata with
          | none => simp [Slot.valid, hm] at hvalid
          | some m =>
              exact absurd ⟨m.type, h.kept m hm⟩ (hsound.2 hvalue (by rw [hrecord]; simp))
        · exact h
      · exact h.check hsound.1
  | put value => exact (consistent_register hsound value).save disk _ _
  | del => exact consistent_empty
  | jsondel =>
      refine Consistent.forget (s := { s.drop .kJson with record := none }) ?_
      rintro ⟨t, ht⟩
      by_cases heq : t = .kJson
      · subst heq
        exact ht (value_drop_self (s := s) (t := .kJson))
      · exact heq (hsound t fun hnone => ht ((value_drop_of_ne heq).trans hnone))
  | read guarded t dim =>
      unfold Slot.act
      dsimp only
      split
      · rename_i hguarded
        exact h.check (hsound.1 (Bool.and_eq_true_iff.mp hguarded).1)
      · exact h.fetch hsound.2
  | update t dim f => exact (h.fetch hsound).change disk _ f
  | change t f => exact h.change disk _ f
  | edit t fresh f =>
      unfold Slot.act
      dsimp only
      split
      · rename_i v hvalue
        exact h.store (by rw [hvalue]; simp) disk _ _
      · refine (consistent_register hsound _).store ?_ disk _ _
        simp

/-! ## runs -/

namespace Engine

variable {E : Env} {e : Engine E}

/-- The step keeps values and metadata together for the key of its operation. -/
def Sound (e : Engine E) (i : Call × Op) : Prop :=
  ∀ key, i.2.key = some key → (i.2.shape E i.1).Sound i.1 (e.slot key)

/-- Every key in a map is in one map, which its metadata names, and `exists`, `type` and the maps
agree about it as long as it is not expired. -/
structure Consistent (e : Engine E) : Prop where
  oneMap : ∀ k t t', k ∈ e.data t → k ∈ e.data t' → t = t'
  named : ∀ k t, k ∈ e.data t → ∃ m, e.metas.lookup k = some m ∧ m.type = t
  existsKey : ∀ c k, (e.slot k).expired c.now = false →
    ((e.existsKey c k).1 = true ↔ ∃ t, k ∈ e.data t)
  type : ∀ c k t, (e.slot k).expired c.now = false → k ∈ e.data t → (e.type c k).1 = t

/-- A key in a map is a value in its slot. -/
theorem mem_data_iff {k : Bytes} {t : KeyType} : k ∈ e.data t ↔ (e.slot k).value t ≠ none := by
  rw [← AList.lookup_isSome, Option.isSome_iff_ne_none]
  rfl

/-- An engine is consistent if its slots are. -/
theorem consistent_of_slots (h : ∀ k, (e.slot k).Consistent) : e.Consistent := by
  constructor
  · intro k t t' ht ht'
    exact (h k).onlyAs (mem_data_iff.mp ht') t (mem_data_iff.mp ht)
  · intro k t ht
    exact (h k).named t (mem_data_iff.mp ht)
  · intro c k hexpired
    rw [show (e.existsKey c k).1 = (e.slot k).valid c.now from isValid_fst c.now]
    constructor
    · intro hvalid
      cases hm : (e.slot k).metadata with
      | none => simp [Slot.valid, hm] at hvalid
      | some m => exact ⟨m.type, mem_data_iff.mpr ((h k).kept m hm)⟩
    · rintro ⟨t, ht⟩
      obtain ⟨m, hm, -⟩ := (h k).named t (mem_data_iff.mp ht)
      simpa [Slot.valid, Slot.expired, hm] using hexpired
  · intro c k t hexpired ht
    obtain ⟨m, hm, rfl⟩ := (h k).named t (mem_data_iff.mp ht)
    unfold Engine.type
    rw [getKeyType_of_not_expired hexpired, hm]
    rfl

/-- A sound step keeps every slot consistent. -/
theorem consistent_step (e : Engine E) (i : Call × Op) (h : ∀ k, (e.slot k).Consistent)
    (hsound : e.Sound i) (k : Bytes) : ((e.step i).2.slot k).Consistent := by
  exact (step_steps e i.1 i.2).keeps (h k) (fun hkey => (h k).act (hsound k hkey))
    fun _ _ hswept => hswept.consistent

/-- In a new engine a slot has at most a record. -/
theorem slot_new (opts : Options) (stored : Option (Dict Bytes Bytes)) (k : Bytes) :
    ∃ record, (new E opts stored).slot k = { Slot.empty with record := record } :=
  ⟨_, rfl⟩

/-- Runs whose steps are sound reach consistent states only. -/
theorem reach_consistent (opts : Options) (stored : Option (Dict Bytes Bytes))
    (ops : List (Call × Op)) (hsound : Along step Sound (new E opts stored) ops) :
    (final step (new E opts stored) ops).Consistent := by
  refine consistent_of_slots (invariant_along consistent_step (fun k => ?_) hsound)
  obtain ⟨record, hslot⟩ := slot_new (E := E) opts stored k
  rw [hslot]
  exact consistent_empty.congr rfl rfl

theorem reach_consistent_put :
    (final step (new Env.bare ⟨[], 0, .k2Q⟩ none)
      [(.ofNow 5, .put [107] [118]), (.ofNow 6, .existsKey [107])]).Consistent := by
  refine reach_consistent _ _ _ ⟨fun key hkey t ht => absurd rfl ht, fun key hkey => ?_, trivial⟩
  cases hkey
  exact fun _ => by decide +kernel

/-- A byte string and a sorted set under one key. -/
theorem put_zadd_inconsistent :
    ¬ (final step (new Env.bare ⟨[], 0, .k2Q⟩ none)
      [(.ofNow 5, .put [107] [118]), (.ofNow 6, .zadd [107] [109] ⟨0⟩)]).Consistent := by
  intro h
  have heq := h.oneMap [107] .kBytes .kZSet (by decide +kernel) (by decide +kernel)
  contradiction

end Engine

end AstraKV
