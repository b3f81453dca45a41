import AstraKV.Engine.Reply
import AstraKV.Engine.RoundTrip

/-!
# AstraKV.Engine.Collection

Sorted sets, hashes and sets as one kind of thing: a collection of elements
under names, written one element at a time and kept in a record.

`Collection E t` lists what one such type needs: an element is looked up under
a name, written under a name, and survives the way through a record if its
name and value fit. The laws that connect these are fields of the structure,
so that a result about two writers or about a lost element is proved once and
holds for sorted sets, hashes and sets.
-/

namespace AstraKV

open Framed Slot

/-- A type of value whose elements are added under their names. -/
structure Collection (E : Env) (t : KeyType) where
  Element : Type
  fresh : Value E t
  get : Value E t → Bytes → Option Element
  add : Value E t → Bytes → Element → Value E t
  /-- The lengths of the element fit its place in a record. -/
  Fits : Bytes → Element → Prop
  get_fresh : ∀ name, get fresh name = none
  get_add_self : ∀ v name x, get v name = none → get (add v name x) name = some x
  get_add_of_ne : ∀ v name x name', name' ≠ name → get (add v name x) name' = get v name'
  /-- A collection of few elements that fit is read from its record as it is. -/
  decode_of_fits : ∀ (c : Call) (v : Value E t) (names : List Bytes), names.length < 2 ^ 32 →
    (∀ name x, get v name = some x → name ∈ names ∧ Fits name x) →
      ∃ v', decode E c 0 t (Engine.serialize (E := E) t v) = some v' ∧
        ∀ name, get v' name = get v name
  /-- What is read from a record fits. -/
  fits_of_decode : ∀ (c : Call) (v v' : Value E t),
    decode E c 0 t (Engine.serialize (E := E) t v) = some v' →
      ∀ name x, get v' name = some x → Fits name x

namespace Collection

variable {E : Env}

/-- A container into which elements went one by one has no others. -/
theorem mem_of_get_foldl {β χ : Type} (get : β → Bytes → Option χ) (add : β → Bytes → χ → β)
    (hadd : ∀ v name x name' x', get (add v name x) name' = some x' →
      get v name' = some x' ∨ (name' = name ∧ x' = x))
    {l : List (Bytes × χ)} {start : β} {name : Bytes} {x : χ}
    (h : get (l.foldl (fun v entry => add v entry.1 entry.2) start) name = some x) :
    get start name = some x ∨ (name, x) ∈ l := by
  induction l generalizing start with
  | nil => exact .inl h
  | cons entry l ih =>
      obtain h | h := ih h
      · obtain h | ⟨rfl, rfl⟩ := hadd _ _ _ _ _ h
        · exact .inl h
        · exact .inr List.mem_cons_self
      · exact .inr (List.mem_cons_of_mem _ h)

/-- A clipped string fits a record. -/
theorem length_clip_lt (bs : Bytes) : (clip bs).length < 2 ^ 32 := by
  rw [length_clip]
  exact Nat.mod_lt _ (by decide)

/-- As many distinct entries as there are names for them. -/
theorem length_entries_lt {χ : Type} {d : Dict Bytes χ} {names : List Bytes}
    (hlen : names.length < 2 ^ 32) (h : ∀ name x, d.lookup name = some x → name ∈ names) :
    d.entries.length < 2 ^ 32 := by
  have hsub : d.keys ⊆ names := by
    intro name hname
    obtain ⟨x, hx⟩ := Dict.exists_lookup (AList.mem_keys.mpr hname)
    exact h name x hx
  have hle : d.keys.length ≤ names.length := (d.keys_nodup.subperm hsub).length_le
  rw [AList.keys, List.keys, List.length_map] at hle
  omega

/-! ## the three types -/

section Members

variable {χ : Type} {v : χ}

/-- A score after `Add` was there before, or is the one written. -/
theorem getScore_add_or (hash : Bytes → UInt64) (zs : ZSetBPlus Bytes) (m : Bytes) (s : Binary64)
    (m' : Bytes) (s' : Binary64) (h : (zs.add hash m s).2.getScore m' = some s') :
    zs.getScore m' = some s' ∨ (m' = m ∧ s' = s) := by
  rw [ZSetBPlus.getScore_add] at h
  split at h
  · rename_i hm
    exact .inr ⟨hm.1, (Option.some.inj h).symm⟩
  · exact .inl h

/-- A value after an insertion was there before, or is the one written. -/
theorem lookup_insert_or (d : Dict Bytes χ) (name : Bytes) (x : χ) (name' : Bytes) (x' : χ)
    (h : (AList.insert name x d).lookup name' = some x') :
    d.lookup name' = some x' ∨ (name' = name ∧ x' = x) := by
  rw [Dict.lookup_insert_ite] at h
  split at h
  · rename_i hname
    exact .inr ⟨hname, (Option.some.inj h).symm⟩
  · exact .inl h

end Members

/-- What `zadd` writes. -/
def zset (E : Env) : Collection E .kZSet where
  Element := Binary64
  fresh := .empty
  get := ZSetBPlus.getScore
  add zs member score := (zs.add E.memberHash member score).2
  Fits member _ := member.length < 2 ^ 32
  get_fresh := ZSetBPlus.getScore_empty
  get_add_self zs member score h := by
    rw [ZSetBPlus.getScore_add, if_pos]
    simp [h]
  get_add_of_ne zs member score member' h := by
    rw [ZSetBPlus.getScore_add, if_neg fun h' => h h'.1]
  decode_of_fits c zs members hlen h := by
    have hcount : zs.getAll.length < 2 ^ 32 := by
      rw [ZSetBPlus.getAll, List.length_map]
      exact length_entries_lt hlen fun member score hscore => (h member score hscore).1
    obtain ⟨zs', hdecode, hget, -⟩ := deserializeZset_of_fits E.memberHash hcount
      fun entry hentry => by
      obtain ⟨entry, hmem, rfl⟩ := List.mem_map.mp hentry
      exact (h entry.1 entry.2 (Dict.mem_entries.mp hmem)).2
    exact ⟨zs', congrArg complete hdecode, hget⟩
  fits_of_decode c zs zs' hdecode member score hget := by
    have hzs' : complete (deserializeZset E.memberHash (serializeZset zs) .empty) = some zs' :=
      hdecode
    rw [deserializeZset_serialize] at hzs'
    obtain rfl := Option.some.inj hzs'
    obtain hnone | hmem := mem_of_get_foldl ZSetBPlus.getScore
      (fun zs m s => (zs.add E.memberHash m s).2) (getScore_add_or E.memberHash) hget
    · simp [ZSetBPlus.getScore_empty] at hnone
    · obtain ⟨entry, -, heq⟩ := List.mem_map.mp hmem
      rw [← (Prod.mk.inj heq).1]
      exact length_clip_lt _

/-- What `hset` writes. -/
def hash (E : Env) : Collection E .kHash where
  Element := Bytes
  fresh := ∅
  get h field := AList.lookup field h
  add h field value := AList.insert field value h
  Fits field value := field.length < 2 ^ 32 ∧ value.length < 2 ^ 32
  get_fresh := AList.lookup_empty
  get_add_self h field value _ := AList.lookup_insert h
  get_add_of_ne h field value field' hne := AList.lookup_insert_ne hne
  decode_of_fits c h fields hlen hfits := by
    have hcount := length_entries_lt hlen fun field value hvalue => (hfits field value hvalue).1
    obtain ⟨h', hdecode, hget⟩ := deserializeHash_of_fits hcount fun entry hentry =>
      (hfits entry.1 entry.2 (Dict.mem_entries.mp hentry)).2
    exact ⟨h', congrArg complete hdecode, hget⟩
  fits_of_decode c h h' hdecode field value hget := by
    have hh' : complete (deserializeHash (serializeHash h) ∅) = some h' := hdecode
    rw [deserializeHash_serialize] at hh'
    obtain rfl := Option.some.inj hh'
    obtain hnone | hmem := mem_of_get_foldl (fun h field => AList.lookup field h)
      (fun h field value => AList.insert field value h) lookup_insert_or hget
    · simp at hnone
    · obtain ⟨entry, -, heq⟩ := List.mem_map.mp hmem
      obtain ⟨rfl, rfl⟩ := Prod.mk.inj heq
      exact ⟨length_clip_lt _, length_clip_lt _⟩

/-- What `sadd` writes. -/
def set (E : Env) : Collection E .kSet where
  Element := Unit
  fresh := ∅
  get s member := (AList.lookup member s).map fun _ => ()
  add s member _ := AList.insert member 0 s
  Fits member _ := member.length < 2 ^ 32
  get_fresh member := by simp
  get_add_self s member _ _ := by simp
  get_add_of_ne s member _ member' hne := by simp [AList.lookup_insert_ne hne]
  decode_of_fits c s members hlen h := by
    have hmembers : ∀ member x, s.lookup member = some x →
        member ∈ members ∧ member.length < 2 ^ 32 := fun member x hx => h member () (by simp [hx])
    have hcount : s.keys.length < 2 ^ 32 := by
      rw [AList.keys, List.keys, List.length_map]
      exact length_entries_lt hlen fun member x hx => (hmembers member x hx).1
    obtain ⟨s', hdecode, hget⟩ := deserializeSet_of_fits hcount fun member hmember => by
      obtain ⟨x, hx⟩ := Dict.exists_lookup (AList.mem_keys.mpr hmember)
      exact (hmembers member x hx).2
    refine ⟨s', congrArg complete hdecode, fun member => ?_⟩
    have hsame := hget member
    cases hs : s.lookup member <;> cases hs' : s'.lookup member <;> simp [hs, hs'] at hsame ⊢
  fits_of_decode c s s' hdecode member x hget := by
    have hs' : complete (deserializeSet (serializeSet s) ∅) = some s' := hdecode
    rw [deserializeSet_serialize] at hs'
    obtain rfl := Option.some.inj hs'
    have hsome := isSome_foldl_insert ((s.keys.take (s.keys.length % 2 ^ 32)).map clip) ∅ member
    obtain ⟨y, hy, -⟩ := Option.map_eq_some_iff.mp hget
    rw [hy] at hsome
    have hmem : member ∈ (s.keys.take (s.keys.length % 2 ^ 32)).map clip := by
      simpa using hsome.symm
    obtain ⟨m, -, rfl⟩ := List.mem_map.mp hmem
    exact length_clip_lt m

/-! ## the commands -/

/-- What the command that writes an element does to the slot of its key. -/
def shape {t : KeyType} (K : Collection E t) (name : Bytes) (x : K.Element) : Shape E :=
  .edit t (fun _ => K.fresh) (persistIf (fun _ => true) fun v => (true, K.add v name x))

/-- `zadd` writes a member to a sorted set. -/
theorem shape_zadd (c : Call) (key member : Bytes) (score : Binary64) :
    (Op.zadd key member score).shape E c = (zset E).shape member score := rfl

/-- `hset` writes a field to a hash. -/
theorem shape_hset (c : Call) (key field value : Bytes) :
    (Op.hset key field value).shape E c = (hash E).shape field value := rfl

/-- `sadd` writes a member to a set. -/
theorem shape_sadd (c : Call) (key member : Bytes) :
    (Op.sadd key member).shape E c = (set E).shape member () := rfl

end Collection

end AstraKV
