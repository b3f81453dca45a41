import AstraKV.Engine.EntryBuffer
import AstraKV.Lib.Fill

/-!
# AstraKV.Engine.StreamBuffer

Streams through the C interface: the fields that `astrakv_xadd` decodes, and
the entries that `astrakv_xread` and `astrakv_xrange` write into a buffer
whose size they have computed before.

The C interface makes two passes over the entries, one to add up the size and
one to write, and a buffer that is too short would be written past its end.
They agree when every length fits 32 bits. What is written is then the same
format as in a record, without the header of the stream, and decodes to the
entries. Fields come in the other direction in a format of pairs, which
`decodeFields` reads up to the first that is incomplete.
-/

namespace AstraKV

open LittleEndian Framed Slice Filling

/-! ## fields on their way in -/

/-- The loop of `astrakv_xadd` from `ptr` on; nothing when it reads behind the end. -/
def decodeFieldsLoop (data : Bytes) (ptr : Nat) (fvec : List (Bytes × Bytes)) :
    Option (List (Bytes × Bytes)) :=
  if ptr + 4 ≤ data.length then do
    let flen ← fromLeBytes data ptr
    if ptr + 4 + flen > data.length then some fvec
    else do
      let field ← subslice data (ptr + 4) (ptr + 4 + flen)
      if ptr + 4 + flen + 4 > data.length then some fvec
      else do
        let vlen ← fromLeBytes data (ptr + 4 + flen)
        if ptr + 4 + flen + 4 + vlen > data.length then some fvec
        else do
          let value ← subslice data (ptr + 4 + flen + 4) (ptr + 4 + flen + 4 + vlen)
          decodeFieldsLoop data (ptr + 4 + flen + 4 + vlen) (fvec ++ [(field, value)])
  else some fvec
termination_by data.length - ptr

def decodeFields (data : Bytes) : Option (List (Bytes × Bytes)) := decodeFieldsLoop data 0 []

/-! ## entries on their way out -/

/-- The turn of the size pass for one entry. -/
def addEntrySize (total : Nat) (entry : StreamEntry) : Nat :=
  entry.fields.foldl (fun total p => total + (4 + p.1.length + 4 + p.2.length))
    (total + (4 + entry.id.length + 4))

/-- The size pass. -/
def streamBufferSize (entries : List StreamEntry) : Nat := entries.foldl addEntrySize 4

def writeField (p : Bytes × Bytes) (w : Filling) : Option Filling :=
  copyBytes p.1 w >>= copyBytes p.2

/-- The turn of the write pass for one entry. -/
def writeEntry (entry : StreamEntry) (w : Filling) : Option Filling := do
  let w ← copyBytes entry.id w
  let w ← memcpy (put 4 entry.fields.length) w
  copyEach writeField entry.fields w

/-- The write pass. -/
def writeEntries (entries : List StreamEntry) (w : Filling) : Option Filling := do
  let w ← memcpy (put 4 entries.length) w
  copyEach writeEntry entries w

/-- `*out` for some entries, a null pointer for none; nothing at all when a copy leaves the
allocation.  `junk` is the memory as `malloc` found it. -/
def streamBuffer (junk : Nat → UInt8) (entries : List StreamEntry) : Option (Option Bytes) :=
  if entries.isEmpty then some none
  else
    let total := streamBufferSize entries
    (writeEntries entries ⟨(List.range total).map junk, 0⟩).map fun w => some w.buf

/-- The format that `kv.h` gives for the entries: their number, and of each the ID, the number of
the fields, and the fields. -/
def decodeStream (buf : Bytes) : Option (List StreamEntry) := do
  let (count, rest) ← get? 4 buf
  match readItems streamItem (fun entries entry => entries ++ [entry]) count rest [] with
  | (some [], entries) => some entries
  | _ => none

namespace Engine

variable {E : Env}

/-- `astrakv_xadd`: the ID in `*id_out`, or -1. -/
def astrakvXadd (c : Call) (e : Engine E) (key id fields : Bytes) :
    Option (Option Bytes × Engine E) :=
  (decodeFields fields).map fun fvec =>
    let res := e.xadd c key id fvec
    (if res.1 = [] then none else some res.1, res.2)

/-- `astrakv_xread`. -/
def astrakvXread (junk : Nat → UInt8) (c : Call) (e : Engine E) (key startId : Bytes)
    (count : Int) : Option (Option Bytes) × Engine E :=
  let res := e.xread c key startId count
  (streamBuffer junk res.1, res.2)

/-- `astrakv_xrange`. -/
def astrakvXrange (junk : Nat → UInt8) (c : Call) (e : Engine E) (key startId endId : Bytes)
    (count : Int) : Option (Option Bytes) × Engine E :=
  let res := e.xrange c key startId endId count
  (streamBuffer junk res.1, res.2)

end Engine

/-! ## the fields are decoded -/

variable {data : Bytes} {ptr : Nat} {ps : List (Bytes × Bytes)} {entries : List StreamEntry}

/-- The loop collects the fields that are there. -/
theorem decodeFieldsLoop_of_reads (h : Reads pairItem (data.drop ptr) ps)
    (fvec : List (Bytes × Bytes)) : decodeFieldsLoop data ptr fvec = some (fvec ++ ps) := by
  have hloop : decodeFieldsLoop data ptr fvec =
      some (ps.foldl (fun fvec p => fvec ++ [p]) fvec) := by
    refine h.loop (fun ptr fvec hnone => ?_) (fun ptr fvec p rest hitem => ?_) fvec
    · rw [decodeFieldsLoop]
      cases pairAt_none hnone with
      | ended hlen => simp [hlen]
      | cutField n hpos hn hlen =>
          by_cases hfield : ptr + 4 + n ≤ data.length
          · simp [hpos, hn, hfield.not_gt, subslice_eq hfield, hlen]
          · simp [hpos, hn, not_le.mp hfield]
      | cutValue field n hpos hflen hfield hn hlen =>
          have hpos' : ptr + 4 ≤ data.length := by omega
          have hpos'' : ptr + 4 + field.length ≤ data.length := by omega
          simp [hpos', hflen, hpos''.not_gt, hfield, hpos.not_gt, hn, hlen]
    · rw [decodeFieldsLoop]
      cases pairAt_some hitem with
      | whole field value hlen hflen hfield hvlen hvalue =>
          have hpos : ptr + 4 ≤ data.length := by omega
          have hpos' : ptr + 4 + field.length ≤ data.length := by omega
          have hpos'' : ptr + 4 + field.length + 4 ≤ data.length := by omega
          refine ⟨_, rfl, ?_⟩
          simp [hpos, hflen, hpos'.not_gt, hfield, hpos''.not_gt, hvlen, hlen.not_gt, hvalue]
  rw [hloop, foldl_collect]

theorem decodeFields_of_reads (h : Reads pairItem data ps) : decodeFields data = some ps := by
  have hstart : Reads pairItem (data.drop 0) ps := h
  rw [decodeFields, decodeFieldsLoop_of_reads hstart, List.nil_append]

/-- Packed fields decode to themselves. -/
theorem decodeFields_packFields (h : ∀ p ∈ ps, FitsPair p) :
    decodeFields (packFields ps) = some ps := by
  rw [packFields_of_fits h]
  exact decodeFields_of_reads (reads_flatMap lawful_pairItem putPair_ne_nil h)

/-! ## the two passes agree -/

/-- The length of a packed string. -/
theorem length_putBytes_of_lt {bs : Bytes} (h : bs.length < 2 ^ 32) :
    (putBytes bs).length = 4 + bs.length := by
  simp [putBytes_of_lt h]

/-- The sizes of the fields add up to their length. -/
theorem foldl_fieldSize {fields : List (Bytes × Bytes)} (h : ∀ p ∈ fields, FitsPair p)
    (total : Nat) :
    fields.foldl (fun total p => total + (4 + p.1.length + 4 + p.2.length)) total =
      total + (fields.flatMap putPair).length := by
  induction fields generalizing total with
  | nil => rfl
  | cons p fields ih =>
      obtain ⟨hp, hfields⟩ := List.forall_mem_cons.mp h
      rw [List.foldl_cons, ih hfields, List.flatMap_cons, List.length_append, putPair,
        List.length_append, length_putBytes_of_lt hp.1, length_putBytes_of_lt hp.2]
      omega

/-- The size of an entry is its length. -/
theorem addEntrySize_of_fits {entry : StreamEntry} (h : FitsEntry entry) (total : Nat) :
    addEntrySize total entry = total + (putEntry entry).length := by
  obtain ⟨hid, -, hfields⟩ := h
  rw [addEntrySize, foldl_fieldSize hfields, putEntry, List.length_append, List.length_append,
    length_putBytes_of_lt hid, length_put]
  omega

/-- The sizes of the entries add up to theirs. -/
theorem foldl_addEntrySize (h : ∀ entry ∈ entries, FitsEntry entry) (total : Nat) :
    entries.foldl addEntrySize total = total + (entries.flatMap putEntry).length := by
  induction entries generalizing total with
  | nil => rfl
  | cons entry entries ih =>
      obtain ⟨hentry, hentries⟩ := List.forall_mem_cons.mp h
      rw [List.foldl_cons, addEntrySize_of_fits hentry, ih hentries, List.flatMap_cons,
        List.length_append, Nat.add_assoc]

/-- The size computed is the length written. -/
theorem streamBufferSize_of_fits (h : ∀ entry ∈ entries, FitsEntry entry) :
    streamBufferSize entries = (put 4 entries.length ++ entries.flatMap putEntry).length := by
  rw [streamBufferSize, foldl_addEntrySize h, List.length_append, length_put]

/-- A field is written in its format. -/
theorem writes_writeField (p : Bytes × Bytes) : Writes (writeField p) (putPair p) :=
  (writes_copyBytes p.1).bind (writes_copyBytes p.2)

theorem writes_writeEntry (entry : StreamEntry) : Writes (writeEntry entry) (putEntry entry) :=
  (writes_copyBytes entry.id).bind
    ((writes_memcpy _).bind (writes_copyEach writes_writeField entry.fields))

theorem writes_writeEntries (entries : List StreamEntry) :
    Writes (writeEntries entries) (put 4 entries.length ++ entries.flatMap putEntry) :=
  (writes_memcpy _).bind (writes_copyEach writes_writeEntry entries)

/-- The write pass stays in the allocation and fills it. -/
theorem streamBuffer_of_fits (junk : Nat → UInt8) (hne : entries ≠ [])
    (h : ∀ entry ∈ entries, FitsEntry entry) :
    streamBuffer junk entries =
      some (some (put 4 entries.length ++ entries.flatMap putEntry)) := by
  have hsize : ((List.range (streamBufferSize entries)).map junk).length =
      (put 4 entries.length ++ entries.flatMap putEntry).length := by
    rw [List.length_map, List.length_range, streamBufferSize_of_fits h]
  have hfill := (writes_writeEntries entries).fill hsize
  rw [streamBuffer, if_neg (by simpa using hne)]
  dsimp only
  rw [hfill]
  rfl

/-- What is written decodes to the entries. -/
theorem decodeStream_put (hlen : entries.length < 2 ^ 32)
    (h : ∀ entry ∈ entries, FitsEntry entry) :
    decodeStream (put 4 entries.length ++ entries.flatMap putEntry) = some entries := by
  have hread : readItems streamItem (fun entries entry => entries ++ [entry]) entries.length
      (entries.flatMap putEntry ++ []) [] = _ :=
    readItems_of_complete (fun entry hentry rest => lawful_streamItem.complete entry rest
      (h entry hentry)) [] []
  rw [List.append_nil, foldl_collect, List.nil_append] at hread
  rw [decodeStream, get?_put, Nat.mod_eq_of_lt (show entries.length < 256 ^ 4 from hlen)]
  simp only [Option.bind_eq_bind, Option.bind_some, hread]

/-- Fields packed as `kv.h` says are decoded as they were.  A buffer for entries has the size that
was computed, whatever was in the memory, and gives the entries back; for none there is no
buffer. -/
theorem stream_buffers :
    (∀ ps : List (Bytes × Bytes), (∀ p ∈ ps, FitsPair p) →
      decodeFields (packFields ps) = some ps) ∧
    (∀ (junk : Nat → UInt8) (entries : List StreamEntry), entries ≠ [] →
      entries.length < 2 ^ 32 → (∀ entry ∈ entries, FitsEntry entry) →
        ∃ buf : Bytes, (∀ junk', streamBuffer junk' entries = streamBuffer junk entries) ∧
          streamBuffer junk entries = some (some buf) ∧
          buf.length = streamBufferSize entries ∧ decodeStream buf = some entries) ∧
    (∀ junk : Nat → UInt8, streamBuffer junk [] = some none) ∧
    ∀ (E : Env) (junk : Nat → UInt8) (c : Call) (e : Engine E) (key startId endId : Bytes)
        (count : Int),
      (e.astrakvXread junk c key startId count).1 =
          streamBuffer junk (e.xread c key startId count).1 ∧
        (e.astrakvXrange junk c key startId endId count).1 =
          streamBuffer junk (e.xrange c key startId endId count).1 := by
  refine ⟨fun ps h => decodeFields_packFields h, fun junk entries hne hlen h => ?_,
    fun junk => rfl, fun E junk c e key startId endId count => ⟨rfl, rfl⟩⟩
  have hbuffer := fun junk => streamBuffer_of_fits junk hne h
  refine ⟨_, fun junk' => (hbuffer junk').trans (hbuffer junk).symm, hbuffer junk, ?_, ?_⟩
  · rw [streamBufferSize_of_fits h]
  · exact decodeStream_put hlen h

/-- A pair with an empty field, and an entry without fields. -/
theorem stream_buffers_one :
    decodeFields (packFields [([], [118])]) = some [([], [118])] ∧
      ∃ buf : Bytes,
        (∀ junk', streamBuffer junk' [⟨[49], []⟩] = streamBuffer (fun _ => 0) [⟨[49], []⟩]) ∧
        streamBuffer (fun _ => 0) [⟨[49], []⟩] = some (some buf) ∧
        buf.length = streamBufferSize [⟨[49], []⟩] ∧ decodeStream buf = some [⟨[49], []⟩] :=
  ⟨stream_buffers.1 _ (by simp [FitsPair]),
    stream_buffers.2.1 _ _ (by decide) (by decide) (by simp [FitsEntry])⟩

/-- No entries come as a null pointer and no bytes, without the count of the format. -/
theorem no_entries_no_count :
    ¬ ∀ (junk : Nat → UInt8) (entries : List StreamEntry), entries.length < 2 ^ 32 →
      (∀ entry ∈ entries, FitsEntry entry) →
        ∃ out : Option Bytes, streamBuffer junk entries = some out ∧
          (out.getD []).length = streamBufferSize entries ∧
          decodeStream (out.getD []) = some entries := by
  intro h
  obtain ⟨out, hout, hsize, -⟩ := h (fun _ => 0) [] (by decide) (by simp)
  obtain rfl : none = out := Option.some.inj hout
  exact absurd hsize (by decide)

end AstraKV
