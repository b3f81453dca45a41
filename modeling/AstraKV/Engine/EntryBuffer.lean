import AstraKV.Engine.Decode
import AstraKV.Engine.Ops
import AstraKV.Lib.Slice

/-!
# AstraKV.Engine.EntryBuffer

The buffers of `astrakv_hgetall` and `astrakv_smembers` in the Rust binding,
where they are decoded in three places each: counted by `len`, gone through
by an iterator, and copied out by `parse_hash_entries` or
`parse_set_members`.

A position is a `usize`; a slice has less than `2^63` bytes and a length less
than `2^32`, so that no sum of the checks wraps.

The three decoders are written differently, one as a loop with a position, one
as an iterator with a state, one pushing onto a vector; what they have in
common is how an item is read at a position. So the buffer is first read as a
list of items (`Reads`), and each decoder is shown to go through that list. On
a buffer that was packed from entries that fit, the list is the entries.
-/

namespace AstraKV

open LittleEndian Framed Slice

/-- What the callback of `astrakv_hgetall` appends, pair after pair. -/
def packFields (ps : List (Bytes × Bytes)) : Bytes :=
  ps.flatMap fun p => put 4 p.1.length ++ p.1 ++ (put 4 p.2.length ++ p.2)

/-- What the callback of `astrakv_smembers` appends, member after member. -/
def packMembers (ms : List Bytes) : Bytes := ms.flatMap fun m => put 4 m.length ++ m

/-! ## fields and values -/

structure HashEntries where
  buf : Bytes

structure HashEntriesIter where
  buf : Bytes
  pos : Nat

/-- The loop of `HashEntries::len` from `pos` on. -/
def HashEntries.lenLoop (buf : Bytes) (pos count : Nat) : Option Nat :=
  if pos + 4 ≤ buf.length then do
    let flen ← fromLeBytes buf pos
    if pos + 4 + flen + 4 > buf.length then some count
    else do
      let vlen ← fromLeBytes buf (pos + 4 + flen)
      if pos + 4 + flen + 4 + vlen > buf.length then some count
      else HashEntries.lenLoop buf (pos + 4 + flen + 4 + vlen) (count + 1)
  else some count
termination_by buf.length - pos

def HashEntries.len (entries : HashEntries) : Option Nat := HashEntries.lenLoop entries.buf 0 0

def HashEntries.iter (entries : HashEntries) : HashEntriesIter := ⟨entries.buf, 0⟩

def HashEntriesIter.next (it : HashEntriesIter) :
    Option (Option (Bytes × Bytes) × HashEntriesIter) :=
  if it.pos + 4 > it.buf.length then some (none, it)
  else do
    let flen ← fromLeBytes it.buf it.pos
    let pos := it.pos + 4
    if pos + flen + 4 > it.buf.length then some (none, { it with pos })
    else do
      let field ← subslice it.buf pos (pos + flen)
      let pos := pos + flen
      let vlen ← fromLeBytes it.buf pos
      let pos := pos + 4
      if pos + vlen > it.buf.length then some (none, { it with pos })
      else do
        let value ← subslice it.buf pos (pos + vlen)
        some (some (field, value), { it with pos := pos + vlen })

/-- The loop of `parse_hash_entries` from `pos` on. -/
def parseHashLoop (buf : Bytes) (pos : Nat) (entries : List (Bytes × Bytes)) :
    Option (List (Bytes × Bytes)) :=
  if pos + 4 ≤ buf.length then do
    let flen ← fromLeBytes buf pos
    if pos + 4 + flen + 4 > buf.length then some entries
    else do
      let field ← subslice buf (pos + 4) (pos + 4 + flen)
      let vlen ← fromLeBytes buf (pos + 4 + flen)
      if pos + 4 + flen + 4 + vlen > buf.length then some entries
      else do
        let value ← subslice buf (pos + 4 + flen + 4) (pos + 4 + flen + 4 + vlen)
        parseHashLoop buf (pos + 4 + flen + 4 + vlen) (entries ++ [(field, value)])
  else some entries
termination_by buf.length - pos

def parseHashEntries (buf : Bytes) : Option (List (Bytes × Bytes)) := parseHashLoop buf 0 []

/-! ## members -/

structure SetMembers where
  buf : Bytes

structure SetMembersIter where
  buf : Bytes
  pos : Nat

/-- The loop of `SetMembers::len` from `pos` on. -/
def SetMembers.lenLoop (buf : Bytes) (pos count : Nat) : Option Nat :=
  if pos + 4 ≤ buf.length then do
    let mlen ← fromLeBytes buf pos
    if pos + 4 + mlen > buf.length then some count
    else SetMembers.lenLoop buf (pos + 4 + mlen) (count + 1)
  else some count
termination_by buf.length - pos

def SetMembers.len (members : SetMembers) : Option Nat := SetMembers.lenLoop members.buf 0 0

def SetMembers.iter (members : SetMembers) : SetMembersIter := ⟨members.buf, 0⟩

def SetMembersIter.next (it : SetMembersIter) : Option (Option Bytes × SetMembersIter) :=
  if it.pos + 4 > it.buf.length then some (none, it)
  else do
    let mlen ← fromLeBytes it.buf it.pos
    let pos := it.pos + 4
    if pos + mlen > it.buf.length then some (none, { it with pos })
    else do
      let member ← subslice it.buf pos (pos + mlen)
      some (some member, { it with pos := pos + mlen })

/-- The loop of `parse_set_members` from `pos` on. -/
def parseSetLoop (buf : Bytes) (pos : Nat) (members : List Bytes) : Option (List Bytes) :=
  if pos + 4 ≤ buf.length then do
    let mlen ← fromLeBytes buf pos
    if pos + 4 + mlen > buf.length then some members
    else do
      let member ← subslice buf (pos + 4) (pos + 4 + mlen)
      parseSetLoop buf (pos + 4 + mlen) (members ++ [member])
  else some members
termination_by buf.length - pos

def parseSetMembers (buf : Bytes) : Option (List Bytes) := parseSetLoop buf 0 []

/-! ## what stands at a position -/

variable {buf : Bytes} {pos : Nat}

/-- Too few bytes for a length, too few for what it counts, or all of it. -/
inductive BytesAt (buf : Bytes) (pos : Nat) : Option (Bytes × Bytes) → Prop where
  | ended (hlen : buf.length < pos + 4) : BytesAt buf pos none
  | cut (n : Nat) (hpos : pos + 4 ≤ buf.length) (hn : fromLeBytes buf pos = some n)
      (hlen : buf.length < pos + 4 + n) : BytesAt buf pos none
  | whole (bs : Bytes) (hlen : pos + 4 + bs.length ≤ buf.length)
      (hn : fromLeBytes buf pos = some bs.length)
      (hbs : subslice buf (pos + 4) (pos + 4 + bs.length) = some bs) :
      BytesAt buf pos (some (bs, buf.drop (pos + 4 + bs.length)))

/-- A string read at a position is one read from the rest. -/
theorem bytesAt_drop (buf : Bytes) (pos : Nat) : BytesAt buf pos (getBytes? (buf.drop pos)) := by
  by_cases hpos : pos + 4 ≤ buf.length
  · have hn := fromLeBytes_eq hpos
    have hget : getBytes? (buf.drop pos) =
        take? (value ((buf.drop pos).take 4)) (buf.drop (pos + 4)) := by
      rw [getBytes?, get?, take?_drop hpos]
      rfl
    generalize value ((buf.drop pos).take 4) = n at hn hget
    by_cases hlen : pos + 4 + n ≤ buf.length
    · have hbs := subslice_eq hlen
      rw [hget, take?_drop hlen]
      obtain ⟨bs, hbytes⟩ : ∃ bs, (buf.drop (pos + 4)).take n = bs := ⟨_, rfl⟩
      obtain rfl : bs.length = n := by
        rw [← hbytes, List.length_take, List.length_drop]
        omega
      rw [hbytes] at hbs ⊢
      exact .whole bs hlen hn hbs
    · rw [hget, take?_drop_eq_none (by omega) (by omega)]
      exact .cut n hpos hn (by omega)
  · have hnone : getBytes? (buf.drop pos) = none := by
      rw [getBytes?, get?, take?_drop_eq_none (by omega) (by decide)]
      rfl
    rw [hnone]
    exact .ended (by omega)

/-- The same for a field and its value, where one check is for the field and the length behind
it. -/
inductive PairAt (buf : Bytes) (pos : Nat) : Option ((Bytes × Bytes) × Bytes) → Prop where
  | ended (hlen : buf.length < pos + 4) : PairAt buf pos none
  | cutField (n : Nat) (hpos : pos + 4 ≤ buf.length) (hn : fromLeBytes buf pos = some n)
      (hlen : buf.length < pos + 4 + n + 4) : PairAt buf pos none
  | cutValue (field : Bytes) (n : Nat) (hpos : pos + 4 + field.length + 4 ≤ buf.length)
      (hflen : fromLeBytes buf pos = some field.length)
      (hfield : subslice buf (pos + 4) (pos + 4 + field.length) = some field)
      (hn : fromLeBytes buf (pos + 4 + field.length) = some n)
      (hlen : buf.length < pos + 4 + field.length + 4 + n) : PairAt buf pos none
  | whole (field value : Bytes)
      (hlen : pos + 4 + field.length + 4 + value.length ≤ buf.length)
      (hflen : fromLeBytes buf pos = some field.length)
      (hfield : subslice buf (pos + 4) (pos + 4 + field.length) = some field)
      (hvlen : fromLeBytes buf (pos + 4 + field.length) = some value.length)
      (hvalue : subslice buf (pos + 4 + field.length + 4)
        (pos + 4 + field.length + 4 + value.length) = some value) :
      PairAt buf pos
        (some ((field, value), buf.drop (pos + 4 + field.length + 4 + value.length)))

theorem pairAt_drop (buf : Bytes) (pos : Nat) : PairAt buf pos (pairItem (buf.drop pos)) := by
  have hfirst := bytesAt_drop buf pos
  unfold pairItem
  generalize getBytes? (buf.drop pos) = item at hfirst
  cases hfirst with
  | ended hlen => exact .ended hlen
  | cut n hpos hn hlen => exact .cutField n hpos hn (by omega)
  | whole field hlen hflen hfield =>
      have hsecond := bytesAt_drop buf (pos + 4 + field.length)
      dsimp only [Option.bind_eq_bind, Option.bind_some]
      generalize getBytes? (buf.drop (pos + 4 + field.length)) = item at hsecond
      cases hsecond with
      | ended hlen' => exact .cutField field.length (by omega) hflen hlen'
      | cut n hpos hn hlen' => exact .cutValue field n hpos hflen hfield hn hlen'
      | whole value hlen' hvlen hvalue =>
          exact .whole field value hlen' hflen hfield hvlen hvalue

/-- Where the rest has no string there is none at the position. -/
theorem bytesAt_none (h : getBytes? (buf.drop pos) = none) : BytesAt buf pos none :=
  h ▸ bytesAt_drop buf pos

/-- Where it has one it is the one at the position. -/
theorem bytesAt_some {item : Bytes × Bytes} (h : getBytes? (buf.drop pos) = some item) :
    BytesAt buf pos (some item) := h ▸ bytesAt_drop buf pos

/-- Where the rest has no pair there is none at the position. -/
theorem pairAt_none (h : pairItem (buf.drop pos) = none) : PairAt buf pos none :=
  h ▸ pairAt_drop buf pos

/-- Where it has one it is the one at the position. -/
theorem pairAt_some {item : (Bytes × Bytes) × Bytes} (h : pairItem (buf.drop pos) = some item) :
    PairAt buf pos (some item) := h ▸ pairAt_drop buf pos

/-! ## each loop reads the items -/

/-- Items appended one by one. -/
theorem foldl_collect {α : Type*} (as done : List α) :
    as.foldl (fun done a => done ++ [a]) done = done ++ as := by
  rw [List.foldl_append_eq_append, ← List.flatMap_def, List.flatMap_singleton']

variable {ps : List (Bytes × Bytes)} {ms : List Bytes}

/-- `len` counts the pairs. -/
theorem HashEntries.lenLoop_of_reads (h : Reads pairItem (buf.drop pos) ps) (count : Nat) :
    HashEntries.lenLoop buf pos count = some (count + ps.length) := by
  have hloop : HashEntries.lenLoop buf pos count = some (ps.foldl (fun n _ => n + 1) count) := by
    refine h.loop (fun pos count hnone => ?_) (fun pos count p rest hitem => ?_) count
    · rw [HashEntries.lenLoop]
      cases pairAt_none hnone with
      | ended hlen => simp [hlen]
      | cutField n hpos hn hlen => simp [hpos, hn, hlen]
      | cutValue field n hpos hflen hfield hn hlen =>
          have hpos' : pos + 4 ≤ buf.length := by omega
          simp [hpos', hflen, hn, hlen]
    · rw [HashEntries.lenLoop]
      cases pairAt_some hitem with
      | whole field value hlen hflen hfield hvlen hvalue =>
          have hpos : pos + 4 ≤ buf.length := by omega
          have hpos' : pos + 4 + field.length + 4 ≤ buf.length := by omega
          refine ⟨_, rfl, ?_⟩
          simp [hpos, hflen, hvlen, hpos'.not_gt, hlen.not_gt]
  rw [hloop, List.foldl_add_const, Nat.one_mul]

/-- The iterator yields them. -/
theorem HashEntriesIter.yields_of_reads (h : Reads pairItem (buf.drop pos) ps) :
    Yields HashEntriesIter.next ⟨buf, pos⟩ ps := by
  refine h.yields (fun pos hnone => ?_) fun pos p rest hitem => ?_
  · cases pairAt_none hnone with
    | ended hlen => exact ⟨⟨buf, pos⟩, by simp [HashEntriesIter.next, hlen]⟩
    | cutField n hpos hn hlen =>
        exact ⟨⟨buf, pos + 4⟩, by simp [HashEntriesIter.next, hpos.not_gt, hn, hlen]⟩
    | cutValue field n hpos hflen hfield hn hlen =>
        have hpos' : pos + 4 ≤ buf.length := by omega
        refine ⟨⟨buf, pos + 4 + field.length + 4⟩, ?_⟩
        simp [HashEntriesIter.next, hpos'.not_gt, hflen, hpos.not_gt, hfield, hn, hlen]
  · cases pairAt_some hitem with
    | whole field value hlen hflen hfield hvlen hvalue =>
        have hpos : pos + 4 ≤ buf.length := by omega
        have hpos' : pos + 4 + field.length + 4 ≤ buf.length := by omega
        refine ⟨_, rfl, ?_⟩
        simp [HashEntriesIter.next, hpos.not_gt, hflen, hpos'.not_gt, hfield, hvlen, hlen.not_gt,
          hvalue]

/-- The parser copies them out. -/
theorem parseHashLoop_of_reads (h : Reads pairItem (buf.drop pos) ps)
    (entries : List (Bytes × Bytes)) :
    parseHashLoop buf pos entries = some (entries ++ ps) := by
  have hloop : parseHashLoop buf pos entries =
      some (ps.foldl (fun entries p => entries ++ [p]) entries) := by
    refine h.loop (fun pos entries hnone => ?_) (fun pos entries p rest hitem => ?_) entries
    · rw [parseHashLoop]
      cases pairAt_none hnone with
      | ended hlen => simp [hlen]
      | cutField n hpos hn hlen => simp [hpos, hn, hlen]
      | cutValue field n hpos hflen hfield hn hlen =>
          have hpos' : pos + 4 ≤ buf.length := by omega
          simp [hpos', hflen, hpos.not_gt, hfield, hn, hlen]
    · rw [parseHashLoop]
      cases pairAt_some hitem with
      | whole field value hlen hflen hfield hvlen hvalue =>
          have hpos : pos + 4 ≤ buf.length := by omega
          have hpos' : pos + 4 + field.length + 4 ≤ buf.length := by omega
          refine ⟨_, rfl, ?_⟩
          simp [hpos, hflen, hpos'.not_gt, hfield, hvlen, hlen.not_gt, hvalue]
  rw [hloop, foldl_collect]

/-- `len` counts the members. -/
theorem SetMembers.lenLoop_of_reads (h : Reads getBytes? (buf.drop pos) ms) (count : Nat) :
    SetMembers.lenLoop buf pos count = some (count + ms.length) := by
  have hloop : SetMembers.lenLoop buf pos count = some (ms.foldl (fun n _ => n + 1) count) := by
    refine h.loop (fun pos count hnone => ?_) (fun pos count m rest hitem => ?_) count
    · rw [SetMembers.lenLoop]
      cases bytesAt_none hnone with
      | ended hlen => simp [hlen]
      | cut n hpos hn hlen => simp [hpos, hn, hlen]
    · rw [SetMembers.lenLoop]
      cases bytesAt_some hitem with
      | whole bs hlen hn hbs =>
          have hpos : pos + 4 ≤ buf.length := by omega
          refine ⟨_, rfl, ?_⟩
          simp [hpos, hn, hlen.not_gt]
  rw [hloop, List.foldl_add_const, Nat.one_mul]

/-- The iterator yields them. -/
theorem SetMembersIter.yields_of_reads (h : Reads getBytes? (buf.drop pos) ms) :
    Yields SetMembersIter.next ⟨buf, pos⟩ ms := by
  refine h.yields (fun pos hnone => ?_) fun pos m rest hitem => ?_
  · cases bytesAt_none hnone with
    | ended hlen => exact ⟨⟨buf, pos⟩, by simp [SetMembersIter.next, hlen]⟩
    | cut n hpos hn hlen =>
        exact ⟨⟨buf, pos + 4⟩, by simp [SetMembersIter.next, hpos.not_gt, hn, hlen]⟩
  · cases bytesAt_some hitem with
    | whole bs hlen hn hbs =>
        have hpos : pos + 4 ≤ buf.length := by omega
        refine ⟨_, rfl, ?_⟩
        simp [SetMembersIter.next, hpos.not_gt, hn, hlen.not_gt, hbs]

/-- The parser copies them out. -/
theorem parseSetLoop_of_reads (h : Reads getBytes? (buf.drop pos) ms) (members : List Bytes) :
    parseSetLoop buf pos members = some (members ++ ms) := by
  have hloop : parseSetLoop buf pos members =
      some (ms.foldl (fun members m => members ++ [m]) members) := by
    refine h.loop (fun pos members hnone => ?_) (fun pos members m rest hitem => ?_) members
    · rw [parseSetLoop]
      cases bytesAt_none hnone with
      | ended hlen => simp [hlen]
      | cut n hpos hn hlen => simp [hpos, hn, hlen]
    · rw [parseSetLoop]
      cases bytesAt_some hitem with
      | whole bs hlen hn hbs =>
          have hpos : pos + 4 ≤ buf.length := by omega
          refine ⟨_, rfl, ?_⟩
          simp [hpos, hn, hlen.not_gt, hbs]
  rw [hloop, foldl_collect]

/-! ## agreement -/

/-- The three decoders of a hash come to the same items, and none of them leaves the buffer. -/
structure HashEntries.DecodeTo (buf : Bytes) (ps : List (Bytes × Bytes)) : Prop where
  len : HashEntries.len ⟨buf⟩ = some ps.length
  iter : Yields HashEntriesIter.next (HashEntries.iter ⟨buf⟩) ps
  parse : parseHashEntries buf = some ps

/-- The three decoders of a set come to the same items, and none of them leaves the buffer. -/
structure SetMembers.DecodeTo (buf : Bytes) (ms : List Bytes) : Prop where
  len : SetMembers.len ⟨buf⟩ = some ms.length
  iter : Yields SetMembersIter.next (SetMembers.iter ⟨buf⟩) ms
  parse : parseSetMembers buf = some ms

/-- All three decode a buffer to the pairs it reads as. -/
theorem HashEntries.decodeTo_of_reads (h : Reads pairItem buf ps) :
    HashEntries.DecodeTo buf ps := by
  have hstart : Reads pairItem (buf.drop 0) ps := h
  constructor
  · rw [HashEntries.len, HashEntries.lenLoop_of_reads hstart, Nat.zero_add]
  · exact HashEntriesIter.yields_of_reads hstart
  · rw [parseHashEntries, parseHashLoop_of_reads hstart, List.nil_append]

/-- All three decode a buffer to the members it reads as. -/
theorem SetMembers.decodeTo_of_reads (h : Reads getBytes? buf ms) :
    SetMembers.DecodeTo buf ms := by
  have hstart : Reads getBytes? (buf.drop 0) ms := h
  constructor
  · rw [SetMembers.len, SetMembers.lenLoop_of_reads hstart, Nat.zero_add]
  · exact SetMembersIter.yields_of_reads hstart
  · rw [parseSetMembers, parseSetLoop_of_reads hstart, List.nil_append]

/-- Pairs that fit are packed one after the other. -/
theorem packFields_of_fits (h : ∀ p ∈ ps, FitsPair p) : packFields ps = ps.flatMap putPair :=
  List.flatMap_congr fun p hp => by
    rw [putPair, putBytes_of_lt (h p hp).1, putBytes_of_lt (h p hp).2]

theorem packMembers_of_lt (h : ∀ m ∈ ms, m.length < 2 ^ 32) :
    packMembers ms = ms.flatMap putBytes :=
  List.flatMap_congr fun m hm => (putBytes_of_lt (h m hm)).symm

/-- A packed string is not empty. -/
theorem putBytes_ne_nil (bs : Bytes) : putBytes bs ≠ [] := by simp [putBytes, put]

theorem putPair_ne_nil (p : Bytes × Bytes) : putPair p ≠ [] := by
  simp [putPair, putBytes_ne_nil]

/-- The decoders of each kind agree on every buffer, and on one of the C interface they have the
list that was packed. -/
theorem entry_buffers_decode :
    (∀ buf, ∃ ps, HashEntries.DecodeTo buf ps) ∧
    (∀ buf, ∃ ms, SetMembers.DecodeTo buf ms) ∧
    (∀ ps : List (Bytes × Bytes), (∀ p ∈ ps, p.1.length < 2 ^ 32 ∧ p.2.length < 2 ^ 32) →
      HashEntries.DecodeTo (packFields ps) ps) ∧
    (∀ ms : List Bytes, (∀ m ∈ ms, m.length < 2 ^ 32) →
      SetMembers.DecodeTo (packMembers ms) ms) ∧
    ∀ (E : Env) (e : Engine E) (key : Bytes),
      (e.astrakvHgetall key).1 = packFields (e.forEachHash key).1 ∧
        (e.astrakvSmembers key).1 = packMembers (e.forEachSet key).1 := by
  refine ⟨fun buf => ?_, fun buf => ?_, fun ps h => ?_, fun ms h => ?_, fun E e key => ⟨rfl, rfl⟩⟩
  · obtain ⟨ps, hps⟩ := exists_reads lawful_pairItem putPair_ne_nil buf
    exact ⟨ps, HashEntries.decodeTo_of_reads hps⟩
  · obtain ⟨ms, hms⟩ := exists_reads lawful_getBytes? putBytes_ne_nil buf
    exact ⟨ms, SetMembers.decodeTo_of_reads hms⟩
  · rw [packFields_of_fits h]
    exact HashEntries.decodeTo_of_reads (reads_flatMap lawful_pairItem putPair_ne_nil h)
  · rw [packMembers_of_lt h]
    exact SetMembers.decodeTo_of_reads (reads_flatMap lawful_getBytes? putBytes_ne_nil h)

/-- A pair with an empty value, and a member. -/
theorem entry_buffers_decode_one :
    HashEntries.DecodeTo (packFields [([102], [])]) [([102], [])] ∧
      SetMembers.DecodeTo (packMembers [[109, 1]]) [[109, 1]] :=
  ⟨entry_buffers_decode.2.2.1 _ (by decide), entry_buffers_decode.2.2.2.1 _ (by decide)⟩

end AstraKV
