import AstraKV.Engine.Ops
import AstraKV.Lib.Utf8

/-!
# AstraKV.Engine.ZsetBuffer

The entries of a sorted set on their way through the C interface: packed by
`astrakv_zrange` and `astrakv_zrangebyscore`, and taken apart by
`parse_zset_entries` of the Rust binding, where a member is a string.

The packed form is exact in bytes; what is not is the last step, where the
binding makes a `String` of the member with `from_utf8_lossy`. Members that
are valid UTF-8 come through, others come out with replacement characters, and
two of them may come out equal. Scores cross as their eight bytes and are
never changed.
-/

namespace AstraKV

open LittleEndian Framed Utf8

/-- The member behind its length, then the score. -/
def packEntry (entry : Bytes × Binary64) : Bytes :=
  putBytes entry.1 ++ put 8 entry.2.bits.toNat

def packedSize (entries : List (Bytes × Binary64)) : Nat :=
  (entries.map fun entry => 4 + entry.1.length + 8).sum

/-- The buffer for some entries, a null pointer for none.  What is not written of it is as `malloc`
left it. -/
def packEntries (junk : Nat → UInt8) (entries : List (Bytes × Binary64)) : Option Bytes :=
  if entries.isEmpty then none
  else
    let out := entries.flatMap packEntry
    some (out ++ (List.range (packedSize entries - out.length)).map junk)

namespace Engine

variable {E : Env}

/-- `astrakv_zrange`. -/
def astrakvZrange (junk : Nat → UInt8) (e : Engine E) (key : Bytes) (start stop : Int)
    (reverse : Bool) : Option (Option Bytes) × Engine E :=
  let res := e.zrange key start stop reverse
  (res.1.map (packEntries junk), res.2)

/-- `astrakv_zrangebyscore`. -/
def astrakvZrangebyscore (junk : Nat → UInt8) (e : Engine E) (key : Bytes) (min max : Binary64) :
    Option (Option Bytes) × Engine E :=
  let res := e.zrangebyscore key min max
  (res.1.map (packEntries junk), res.2)

end Engine

/-- The loop of `parse_zset_entries` from `pos` on. -/
def parseLoop : Nat → Bytes → List (Bytes × Binary64)
  | 0, _ => []
  | fuel + 1, buf =>
      match get? 4 buf with
      | none => []
      | some (mlen, rest) =>
          if mlen + 8 > rest.length then []
          else
            let member := fromUtf8Lossy (rest.take mlen)
            let score : Binary64 := ⟨UInt64.ofNat (value ((rest.drop mlen).take 8))⟩
            (member, score) :: parseLoop fuel (rest.drop (mlen + 8))

def parseZsetEntries (buf : Bytes) : List (Bytes × Binary64) := parseLoop buf.length buf

/-- The end of `Kv::zrange` and `Kv::zrangebyscore`. -/
def entriesOf : Option Bytes → List (Bytes × Binary64)
  | none => []
  | some buf => parseZsetEntries buf

variable {entries : List (Bytes × Binary64)}

/-- A turn of the loop takes bytes off, so that there is fuel for all turns. -/
theorem parseLoop_of_le {buf : Bytes} {fuel fuel' : Nat} (h : buf.length ≤ fuel)
    (h' : buf.length ≤ fuel') : parseLoop fuel buf = parseLoop fuel' buf := by
  induction fuel generalizing buf fuel' with
  | zero =>
      obtain rfl := List.length_eq_zero_iff.mp (Nat.le_zero.mp h)
      cases fuel' <;> rfl
  | succ fuel ih =>
      cases fuel' with
      | zero =>
          obtain rfl := List.length_eq_zero_iff.mp (Nat.le_zero.mp h')
          rfl
      | succ fuel' =>
          unfold parseLoop
          cases hget : get? 4 buf with
          | none => rfl
          | some res =>
              obtain ⟨mlen, rest⟩ := res
              obtain ⟨-, rfl⟩ := get?_eq_some.mp hget
              dsimp only
              split
              · rfl
              · rw [List.length_append, length_put] at h h'
                have hrest : (rest.drop (mlen + 8)).length ≤ min fuel fuel' := by
                  rw [List.length_drop]
                  omega
                rw [ih (hrest.trans (min_le_left _ _)) (hrest.trans (min_le_right _ _))]

/-- The length of a packed entry. -/
theorem length_packEntry (entry : Bytes × Binary64) (h : entry.1.length < 2 ^ 32) :
    (packEntry entry).length = 4 + entry.1.length + 8 := by
  rw [packEntry, putBytes_of_lt h]
  simp [Nat.add_assoc]

/-- Nothing of the buffer is left unwritten. -/
theorem packEntries_of_lt (junk : Nat → UInt8) (hlt : ∀ entry ∈ entries, entry.1.length < 2 ^ 32)
    (hne : entries ≠ []) : packEntries junk entries = some (entries.flatMap packEntry) := by
  have hsize : (entries.flatMap packEntry).length = packedSize entries := by
    rw [List.length_flatMap, packedSize]
    exact congrArg List.sum
      (List.map_congr_left fun entry h => length_packEntry entry (hlt entry h))
  unfold packEntries
  rw [if_neg (by simpa using hne)]
  dsimp only
  rw [hsize, Nat.sub_self, List.range_zero, List.map_nil, List.append_nil]

/-- One turn of the loop. -/
theorem parseLoop_packEntry {entry : Bytes × Binary64} (h : entry.1.length < 2 ^ 32) (fuel : Nat)
    (rest : Bytes) :
    parseLoop (fuel + 1) (packEntry entry ++ rest) =
      (fromUtf8Lossy entry.1, entry.2) :: parseLoop fuel rest := by
  obtain ⟨member, score⟩ := entry
  have hscore : (put 8 score.bits.toNat).length = 8 := length_put 8 _
  have hvalue : UInt64.ofNat (value (put 8 score.bits.toNat)) = score.bits := by
    rw [value_put, Nat.mod_eq_of_lt (show score.bits.toNat < 256 ^ 8 from score.bits.toNat_lt),
      UInt64.ofNat_toNat]
  have hdrop : (member ++ (put 8 score.bits.toNat ++ rest)).drop (member.length + 8) = rest := by
    rw [← List.append_assoc, List.drop_left' (by rw [List.length_append, hscore])]
  rw [packEntry, putBytes_of_lt h, List.append_assoc, List.append_assoc, parseLoop, get?_put,
    Nat.mod_eq_of_lt (show member.length < 256 ^ 4 from h)]
  dsimp only
  rw [if_neg (by simp), List.take_left, List.drop_left, List.take_left' hscore, hvalue, hdrop]

/-- What comes out are the entries with their members converted. -/
theorem entriesOf_packEntries (junk : Nat → UInt8)
    (hlt : ∀ entry ∈ entries, entry.1.length < 2 ^ 32) :
    entriesOf (packEntries junk entries) =
      entries.map fun entry => (fromUtf8Lossy entry.1, entry.2) := by
  have hturns : ∀ fuel, entries.length ≤ fuel → parseLoop fuel (entries.flatMap packEntry) =
      entries.map fun entry => (fromUtf8Lossy entry.1, entry.2) := by
    intro fuel hfuel
    induction entries generalizing fuel with
    | nil => cases fuel <;> rfl
    | cons entry entries ih =>
        obtain ⟨hentry, hentries⟩ := List.forall_mem_cons.mp hlt
        rw [List.length_cons] at hfuel
        obtain ⟨fuel, rfl⟩ : ∃ m, fuel = m + 1 := ⟨fuel - 1, by omega⟩
        rw [List.flatMap_cons, parseLoop_packEntry hentry, ih hentries fuel (by omega)]
        rfl
  by_cases hne : entries = []
  · rw [hne]
    rfl
  · rw [packEntries_of_lt junk hlt hne, entriesOf, parseZsetEntries,
      ← hturns (max entries.length (entries.flatMap packEntry).length) (le_max_left _ _)]
    exact parseLoop_of_le le_rfl (le_max_right _ _)

/-- The entries come out as they went in if and only if every member is valid UTF-8. -/
theorem zset_entries_cross_iff (junk : Nat → UInt8)
    (hlt : ∀ entry ∈ entries, entry.1.length < 2 ^ 32) :
    entriesOf (packEntries junk entries) = entries ↔ ∀ entry ∈ entries, Valid entry.1 := by
  have hid : entries.map id = entries := List.map_id entries
  rw [entriesOf_packEntries junk hlt]
  constructor
  · intro h entry hentry
    have hsame := List.map_inj_left.mp (h.trans hid.symm) entry hentry
    exact fromUtf8Lossy_eq_self.mp (congrArg Prod.fst hsame)
  · intro h
    refine (List.map_congr_left fun entry hentry => ?_).trans hid
    exact Prod.ext (fromUtf8Lossy_eq_self.mpr (h entry hentry)) rfl

/-- Two entries with members in UTF-8. -/
theorem zset_entries_cross_iff_two :
    entriesOf (packEntries (fun _ => 0) [([0x61], ⟨1⟩), ([0xC3, 0xA9], ⟨2⟩)]) =
      [([0x61], ⟨1⟩), ([0xC3, 0xA9], ⟨2⟩)] := by
  refine (zset_entries_cross_iff _ (by decide)).mpr fun entry hentry => ?_
  obtain rfl | rfl : entry = _ ∨ entry = _ := by simpa using hentry
  · exact valid_char (Char.ofNat 0x61)
  · exact valid_char (Char.ofNat 0xE9)

/-- A member of one byte that is no character. -/
theorem member_replaced :
    entriesOf (packEntries (fun _ => 0) [([0xFF], ⟨1⟩)]) = [([0xEF, 0xBF, 0xBD], ⟨1⟩)] ∧
      entriesOf (packEntries (fun _ => 0) [([0xFF], ⟨1⟩)]) ≠ [([0xFF], ⟨1⟩)] := by
  decide

end AstraKV
