import AstraKV.Engine.RoundTrip
import AstraKV.Lib.Cursor

/-!
# AstraKV.Engine.Decode

The decoders of records as they move a pointer over a string: what they read
lies in the string, they accept exactly the strings with a record at their
front, and it is the items of that record that go into the container.

The decoders of `AstraKV.Engine.Codec` read byte lists; the ones here are
shown to come to the same.

A string in memory is its bytes and whatever follows them, and a read past the
end has no result. So that a decoder never reads past the end is not a
separate statement: it has a result on every string (`Agrees`). `Lawful` says
what an item is when read back from a record, and one general theorem about
records then covers all the container types.
-/

namespace AstraKV

open Framed LittleEndian Reader

/-! ## pointer code -/

section Pointer

variable (data : Bytes) (beyond : Nat → UInt8)

def lengthAt : Reader Nat := do
  check data 4
  fetchNat data beyond 4

def bytesAt : Reader Bytes := do
  let len ← lengthAt data beyond
  check data len
  fetch data beyond len

/-- A byte string and the number of `k` bytes behind it, which one check covers. -/
def bytesNatAt (k : Nat) : Reader (Bytes × Nat) := do
  let len ← lengthAt data beyond
  check data (len + k)
  let bs ← fetch data beyond len
  let n ← fetchNat data beyond k
  pure (bs, n)

def zsetItemAt : Reader (Bytes × Binary64) := do
  let res ← bytesNatAt data beyond 8
  pure (res.1, ⟨UInt64.ofNat res.2⟩)

def pairItemAt : Reader (Bytes × Bytes) := do
  let field ← bytesAt data beyond
  let value ← bytesAt data beyond
  pure (field, value)

/-- A field of a stream entry: the check of its name covers the length of its value. -/
def fieldItemAt : Reader (Bytes × Bytes) := do
  let res ← bytesNatAt data beyond 4
  check data res.2
  let value ← fetch data beyond res.2
  pure (res.1, value)

def streamItemAt : Reader StreamEntry := do
  let res ← bytesNatAt data beyond 4
  let fields ← many (fieldItemAt data beyond) res.2
  pure ⟨res.1, fields⟩

def deserializeZsetAt (hash : Bytes → UInt64) (zs : ZSetBPlus Bytes) :=
  record data beyond (zsetItemAt data beyond) (fun zs entry => (zs.add hash entry.1 entry.2).2) zs

def deserializeListAt (lst : LinkedList Bytes) :=
  record data beyond (bytesAt data beyond) LinkedList.pushRight lst

def deserializeHashAt (h : Dict Bytes Bytes) :=
  record data beyond (pairItemAt data beyond) (fun h entry => h.insert entry.1 entry.2) h

def deserializeSetAt (s : Dict Bytes UInt8) :=
  record data beyond (bytesAt data beyond) (fun s member => s.insert member 0) s

def deserializeStreamAt (now : Int) (s : StreamData) :=
  record data beyond (streamItemAt data beyond)
    (fun s entry => (s.xAdd now entry.id entry.fields).2) s

end Pointer

/-! ## agreement -/

section Agreement

variable {data : Bytes} {beyond : Nat → UInt8}

/-- Reading a string by its length stays inside. -/
theorem agrees_bytesAt : Agrees data (bytesAt data beyond) getBytes? :=
  (agrees_fetchNat 4).bind fun len => agrees_fetch len

theorem agrees_bytesNatAt (k : Nat) : Agrees data (bytesNatAt data beyond k) fun rest =>
    getBytes? rest >>= fun res => get? k res.2 >>= fun res' => some ((res.1, res'.1), res'.2) := by
  have h : Agrees data (bytesNatAt data beyond k) _ :=
    (agrees_fetchNat 4).bind fun len => agrees_fetch_fetchNat len k
  simpa only [getBytes?, Option.bind_eq_bind, Option.bind_assoc] using h

theorem agrees_zsetItemAt : Agrees data (zsetItemAt data beyond) zsetItem := by
  have h : Agrees data (zsetItemAt data beyond) _ := (agrees_bytesNatAt 8).bind fun res =>
    agrees_pure ((res.1, ⟨UInt64.ofNat res.2⟩) : Bytes × Binary64)
  refine h.congr fun rest => ?_
  unfold zsetItem
  cases getBytes? rest with
  | none => rfl
  | some res => cases hscore : get? 8 res.2 <;> simp [hscore]

theorem agrees_pairItemAt : Agrees data (pairItemAt data beyond) pairItem :=
  agrees_bytesAt.bind fun field => agrees_bytesAt.bind fun value => agrees_pure (field, value)

theorem agrees_fieldItemAt : Agrees data (fieldItemAt data beyond) pairItem := by
  have h : Agrees data (fieldItemAt data beyond) _ := (agrees_bytesNatAt 4).bind fun res => by
    have hvalue : Agrees data ((check data res.2 >>= fun _ => fetch data beyond res.2) >>=
        fun value => pure (res.1, value)) _ :=
      (agrees_fetch res.2).bind fun value => agrees_pure (res.1, value)
    rwa [bind_assoc] at hvalue
  refine h.congr fun rest => ?_
  unfold pairItem
  cases getBytes? rest with
  | none => rfl
  | some res => cases hlen : get? 4 res.2 <;> simp [getBytes?, hlen]

theorem agrees_streamItemAt : Agrees data (streamItemAt data beyond) streamItem := by
  have h : Agrees data (streamItemAt data beyond) _ := (agrees_bytesNatAt 4).bind fun res =>
    (agrees_fieldItemAt.many res.2).bind fun fields =>
      agrees_pure (⟨res.1, fields⟩ : StreamEntry)
  refine h.congr fun rest => ?_
  unfold streamItem
  cases getBytes? rest with
  | none => rfl
  | some res =>
      cases hcount : get? 4 res.2 with
      | none => simp [hcount]
      | some res' =>
          rcases hfields : readItems pairItem (fun fields field => fields ++ [field])
            res'.1 res'.2 [] with ⟨_ | rest, fields⟩ <;> simp [hcount, hfields]

end Agreement

/-! ## records -/

def FitsPair (p : Bytes × Bytes) : Prop := p.1.length < 2 ^ 32 ∧ p.2.length < 2 ^ 32

def FitsEntry (entry : StreamEntry) : Prop :=
  entry.id.length < 2 ^ 32 ∧ entry.fields.length < 2 ^ 32 ∧ ∀ p ∈ entry.fields, FitsPair p

def putScored (entry : Bytes × Binary64) : Bytes := putBytes entry.1 ++ put 8 entry.2.bits.toNat

/-- A member with its score is read back. -/
theorem lawful_zsetItem :
    Lawful zsetItem putScored fun entry => entry.1.length < 2 ^ 32 where
  complete entry rest h := by rw [putScored, zsetItem_put, clip_of_lt h]
  sound data entry rest h := by
    obtain ⟨⟨member, data⟩, hmember, h⟩ := Option.bind_eq_some_iff.mp h
    obtain ⟨⟨score, data⟩, hscore, h⟩ := Option.bind_eq_some_iff.mp h
    obtain ⟨rfl, rfl⟩ := Prod.mk.inj (Option.some.inj h)
    obtain ⟨hfits, rfl⟩ := lawful_getBytes?.sound _ _ _ hmember
    obtain ⟨hlt, rfl⟩ := get?_eq_some.mp hscore
    refine ⟨hfits, ?_⟩
    rw [putScored, UInt64.toNat_ofNat_of_lt' hlt, List.append_assoc]

/-- A pair is read back. -/
theorem lawful_pairItem : Lawful pairItem putPair FitsPair where
  complete p rest h := by rw [pairItem_putPair, clipPair_eq_self.mpr h]
  sound data p rest h := by
    obtain ⟨⟨field, data⟩, hfield, h⟩ := Option.bind_eq_some_iff.mp h
    obtain ⟨⟨value, data⟩, hvalue, h⟩ := Option.bind_eq_some_iff.mp h
    obtain ⟨rfl, rfl⟩ := Prod.mk.inj (Option.some.inj h)
    obtain ⟨hfits, rfl⟩ := lawful_getBytes?.sound _ _ _ hfield
    obtain ⟨hfits', rfl⟩ := lawful_getBytes?.sound _ _ _ hvalue
    exact ⟨⟨hfits, hfits'⟩, by rw [putPair, List.append_assoc]⟩

/-- An entry is read back. -/
theorem lawful_streamItem : Lawful streamItem putEntry FitsEntry where
  complete entry rest h := by
    obtain ⟨hid, hcount, hfields⟩ := h
    have hmap := map_take_of_lt hcount fun p hp => clipPair_eq_self.mpr (hfields p hp)
    rw [streamItem_putEntry, clip_of_lt hid, hmap, Nat.mod_eq_of_lt hcount, List.drop_length]
    rfl
  sound data entry rest h := by
    obtain ⟨⟨id, data⟩, hid, hrest⟩ := Option.bind_eq_some_iff.mp h
    obtain ⟨⟨count, data⟩, hcount, hfields⟩ := Option.bind_eq_some_iff.mp hrest
    obtain ⟨hlen, rfl⟩ := lawful_getBytes?.sound _ _ _ hid
    obtain ⟨hlt, rfl⟩ := get?_eq_some.mp hcount
    rcases hread : readItems pairItem (fun fields field => fields ++ [field]) count data []
      with ⟨_ | left, fields⟩
    · simp [hread] at hfields
    · simp only [hread, Option.some.injEq, Prod.mk.injEq] at hfields
      obtain ⟨rfl, rfl⟩ := hfields
      obtain ⟨as, rfl, hfits, rfl⟩ := lawful_pairItem.of_readItems (congrArg Prod.fst hread)
      rw [readItems_of_complete fun p hp rest => lawful_pairItem.complete p rest (hfits p hp),
        List.foldl_append_eq_append, List.nil_append, ← List.flatMap_def,
        List.flatMap_singleton'] at hread
      obtain rfl := (Prod.mk.inj hread).2
      exact ⟨⟨hlen, hlt, hfits⟩, by simp [putEntry]⟩

/-- A decoder in memory, and the records it is there for. -/
structure ReadsRecords {α σ : Type} (decodeAt : Bytes → (Nat → UInt8) → σ → (Bool × σ) × Cursor)
    (decode : Bytes → σ → Bool × σ) (write : α → Bytes) (Fits : α → Prop) (insert : σ → α → σ) :
    Prop where
  /-- It is the decoder of the engine. -/
  same : ∀ data beyond s, (decodeAt data beyond s).1 = decode data s
  /-- All it reads is in the string. -/
  inside : ∀ data beyond s, ∀ i ∈ (decodeAt data beyond s).2.touched, i < data.length
  /-- It accepts the strings with a record at their front. -/
  accepts_iff : ∀ data beyond s, (decodeAt data beyond s).1.1 = true ↔
    ∃ as record, record <+: data ∧ IsRecord write Fits as record
  /-- The items of that record go into the container, in order. -/
  items : ∀ data beyond s as record, record <+: data → IsRecord write Fits as record →
    (decodeAt data beyond s).1.2 = as.foldl insert s

/-- What agrees and is lawful item by item reads records. -/
theorem readsRecords {α σ : Type} {item : Bytes → Option (α × Bytes)}
    {itemAt : Bytes → (Nat → UInt8) → Reader α} {write : α → Bytes} {Fits : α → Prop}
    (hagrees : ∀ data beyond, Agrees data (itemAt data beyond) item)
    (hlawful : Lawful item write Fits) (insert : σ → α → σ) :
    ReadsRecords (fun data beyond s => record data beyond (itemAt data beyond) insert s)
      (fun data s => readRecord item insert data s) write Fits insert where
  same data beyond s := ((hagrees data beyond).record beyond insert s).1
  inside data beyond s := ((hagrees data beyond).record beyond insert s).2
  accepts_iff data beyond s := by
    rw [((hagrees data beyond).record beyond insert s).1]
    exact hlawful.readRecord_iff
  items data beyond s as r hprefix hrecord := by
    obtain ⟨rest, rfl⟩ := hprefix
    rw [((hagrees _ beyond).record beyond insert s).1, hlawful.readRecord_append hrecord]

/-- The five decoders read inside the string, accept the strings with a record at the front and
hand over its items. -/
theorem decoders_read_records (hash : Bytes → UInt64) (now : Int) :
    ReadsRecords (deserializeZsetAt · · hash) (deserializeZset hash) putScored
        (fun entry => entry.1.length < 2 ^ 32) (fun zs entry => (zs.add hash entry.1 entry.2).2) ∧
      ReadsRecords deserializeListAt deserializeList putBytes (fun item => item.length < 2 ^ 32)
        LinkedList.pushRight ∧
      ReadsRecords deserializeHashAt deserializeHash putPair FitsPair
        (fun h entry => AList.insert entry.1 entry.2 h) ∧
      ReadsRecords deserializeSetAt deserializeSet putBytes (fun member => member.length < 2 ^ 32)
        (fun s member => AList.insert member 0 s) ∧
      ReadsRecords (deserializeStreamAt · · now) (deserializeStream now) putEntry FitsEntry
        (fun s entry => (s.xAdd now entry.id entry.fields).2) :=
  ⟨readsRecords (fun _ _ => agrees_zsetItemAt) lawful_zsetItem _,
    readsRecords (fun _ _ => agrees_bytesAt) lawful_getBytes? _,
    readsRecords (fun _ _ => agrees_pairItemAt) lawful_pairItem _,
    readsRecords (fun _ _ => agrees_bytesAt) lawful_getBytes? _,
    readsRecords (fun _ _ => agrees_streamItemAt) lawful_streamItem _⟩

end AstraKV
