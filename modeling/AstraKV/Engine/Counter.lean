import AstraKV.Engine.Increment
import AstraKV.Engine.ReadBack
import AstraKV.Lib.DecimalText

/-!
# AstraKV.Engine.Counter

A field of a hash as a counter.  `hincrby` reads the text of the field with
`strtoll`, adds to the number and writes the sum with `to_string`; call after
call it does what a counter does (`tally`), as long as the sums are
`int64_t`.  No text makes it fail: it counts from the number that the text
begins with.

The condition is about the numbers, not about the calls: the text of the field
is a number in decimal, and no sum on the way leaves `int64_t`. `CountsOn` is
the invariant of the run, which compares the engine with the one before the
first call, so that other fields, other keys and the answers of `hget` are
covered along with the number.
-/

namespace AstraKV

open Machine Slot Decimal

namespace Engine

variable {E : Env} {e : Engine E} {c c' : Call} {k f : Bytes} {d n v : Int}

/-- The hash that `hincrby` writes to: the one in the map, else what a load of the record leaves in
a new one. -/
def hashOf (e : Engine E) (k : Bytes) : Dict Bytes Bytes :=
  (e.find .kHash k).getD (e.loadHash k ∅).2

/-- The hash that `hincrby` writes to, from the slot of the key. -/
theorem hashOf_eq : e.hashOf k = (e.slot k).edited .kHash
    (((e.slot k).record.map fun data => deserializeHash data ∅).getD (false, ∅)).2 := by
  rw [hashOf, loadHash_snd]
  rfl

/-- If the hash is in the map, it is that one. -/
theorem hashOf_of_find {h : Dict Bytes Bytes} (hfind : e.find .kHash k = some h) :
    e.hashOf k = h := by
  rw [hashOf, hfind, Option.getD_some]

/-! ## one call -/

/-- The field has the number `n`, and the call at `c` has it count on by `d`. -/
structure Adds (e : Engine E) (c : Call) (k f : Bytes) (d n : Int) : Prop where
  reply : (e.hincrby c k f d).1 = some (n + d)
  hash : (e.hincrby c k f d).2.find .kHash k =
    some (AList.insert f (ofInt (n + d)) (e.hashOf k))
  metadata : k ∈ e.data .kHash → (e.hincrby c k f d).2.metas.lookup k = e.metas.lookup k
  record : (e.hincrby c k f d).2.rocksGet k =
    if e.disk && c.putOk 0 then some (serializeHash (AList.insert f (ofInt (n + d)) (e.hashOf k)))
    else e.rocksGet k

/-- Counting one field on, where the sum fits. -/
theorem increment_eq {h : Dict Bytes Bytes} (hnumber : ((h.lookup f).map strtoll).getD 0 = n)
    (hsum : IsInt64 (n + d)) :
    increment f d h = (some (n + d), AList.insert f (ofInt (n + d)) h) := by
  obtain ⟨hmin, hmax⟩ := hsum
  have hadd : addInt64 n d = n + d := by
    rw [addInt64, Int.bmod_eq_of_le] <;> omega
  simp only [increment, hnumber, hadd]

/-- One call adds where the sum fits. -/
theorem hincrby_adds (c : Call) (hnumber : (((e.hashOf k).lookup f).map strtoll).getD 0 = n)
    (hsum : IsInt64 (n + d)) : e.Adds c k f d n := by
  have hleaves := (hincrby_leaves c e k f d).slot_self
  have hincrement := increment_eq hnumber hsum
  have hmem : k ∈ e.data .kHash ↔ (e.slot k).value .kHash ≠ none :=
    AList.lookup_eq_none.not_left.symm
  constructor
  · rw [hincrby_fst, ← hashOf_eq, hincrement]
  · have hvalue : (e.hincrby c k f d).2.find .kHash k =
        ((e.hincrby c k f d).2.slot k).value .kHash := rfl
    rw [hvalue, hleaves]
    refine value_edit.trans ?_
    rw [← hashOf_eq, persistIf, hincrement]
  · intro hk
    have hmeta : (e.hincrby c k f d).2.metas.lookup k =
        ((e.hincrby c k f d).2.slot k).metadata := rfl
    rw [hmeta, hleaves]
    refine metadata_edit.trans ?_
    rw [if_neg (hmem.mp hk)]
    rfl
  · have hrecord : (e.hincrby c k f d).2.rocksGet k =
        ((e.hincrby c k f d).2.slot k).record := rfl
    rw [hrecord, hleaves]
    refine record_edit.trans ?_
    rw [← hashOf_eq, persistIf, hincrement]
    rfl

/-- The hash after the call has the text of the sum in its field. -/
theorem Adds.hashOf (h : e.Adds c k f d n) :
    (e.hincrby c k f d).2.hashOf k = AList.insert f (ofInt (n + d)) (e.hashOf k) :=
  hashOf_of_find h.hash

/-- A call does not change whether a write would make the key valid. -/
theorem writable_hincrby (c : Call) (e : Engine E) (k f : Bytes) (d : Int) :
    (e.hincrby c k f d).2.Writable c' k .kHash ↔ e.Writable c' k .kHash := by
  have hleaves := (hincrby_leaves c e k f d).slot_self
  have hvalid : ((e.hincrby c k f d).2.slot k).valid c'.now = true ↔
      (e.slot k).value .kHash = none ∨ (e.slot k).valid c'.now = true := by
    rw [hleaves]
    exact valid_edit (t := .kHash) c'.now
  have hvalue : ((e.hincrby c k f d).2.slot k).value .kHash ≠ none := by
    rw [hleaves]
    simp [value_edit (t := .kHash), Op.shape]
  rw [writable_iff, writable_iff, hvalid]
  simp [hvalue]

/-! ## a run of calls -/

/-- The field is absent and `n` is zero, or it holds the decimal text of `n`. -/
def Tells (e : Engine E) (k f : Bytes) (n : Int) : Prop :=
  ((e.hashOf k).lookup f).elim (n = 0) fun text => int64? text = some n

/-- A text that tells a number is read as that number. -/
theorem Tells.number (h : e.Tells k f n) : (((e.hashOf k).lookup f).map strtoll).getD 0 = n := by
  unfold Tells at h
  cases htext : (e.hashOf k).lookup f with
  | none =>
      rw [htext] at h
      exact Eq.symm h
  | some text =>
      rw [htext] at h
      exact strtoll_of_int64? h

/-- The call of `hincrby` with the surroundings and the number it is given, as a step. -/
def countBy (k f : Bytes) (e : Engine E) (w : Call × Int) : Option Int × Engine E :=
  e.hincrby w.1 k f w.2

/-- `addUp` with the answers of `hincrby`. -/
def tally (n : Int) (w : Call × Int) : Option Int × Int := (some (n + w.2), n + w.2)

/-- A counter adds up what it is given. -/
theorem final_tally (n : Int) (ws : List (Call × Int)) :
    final tally n ws = n + (ws.map Prod.snd).sum := by
  have hnext : ∀ (n : Int) (w : Call × Int), (tally n w).2 = (addUp Prod.snd n w).2 :=
    fun _ _ => rfl
  rw [final_congr hnext, final_addUp]

/-- `e₁` is `e` with another number in the field. -/
structure CountsOn (e : Engine E) (k f : Bytes) (e₁ : Engine E) (n : Int) : Prop where
  tells : e₁.Tells k f n
  others : ∀ f', f' ≠ f → (e₁.hashOf k).lookup f' = (e.hashOf k).lookup f'
  writable : ∀ c' : Call, e₁.Writable c' k .kHash ↔ e.Writable c' k .kHash

/-- One more call counts on by its increment. -/
theorem CountsOn.step {e₁ : Engine E} {w : Call × Int} (h : e.CountsOn k f e₁ n)
    (hsum : IsInt64 (n + w.2)) :
    (e₁.countBy k f w).1 = (tally n w).1 ∧ e.CountsOn k f (e₁.countBy k f w).2 (tally n w).2 := by
  have hadds : e₁.Adds w.1 k f w.2 n := hincrby_adds w.1 h.tells.number hsum
  refine ⟨hadds.reply, ?_, fun f' hne => ?_, fun c' => ?_⟩
  · rw [Tells, countBy, hadds.hashOf, AList.lookup_insert]
    exact int64?_ofInt hsum
  · rw [countBy, hadds.hashOf, AList.lookup_insert_ne hne, h.others f' hne]
  · rw [countBy, writable_hincrby, h.writable]

/-- A run of calls counts on by their sum, if every sum on the way fits. -/
theorem countsOn_final {ws : List (Call × Int)} (htells : e.Tells k f v)
    (hfits : ∀ ws', ws' <+: ws → IsInt64 (v + (ws'.map Prod.snd).sum)) :
    e.CountsOn k f (final (countBy k f) e ws) (v + (ws.map Prod.snd).sum) := by
  have hsums : Along tally (fun n w => IsInt64 (n + w.2)) v ws := by
    rw [along_iff]
    rintro ws₁ w ws₂ rfl
    have hsum := hfits (ws₁ ++ [w]) ⟨ws₂, by simp⟩
    rw [final_tally]
    simpa [add_assoc] using hsum
  rw [← final_tally]
  exact (simulates_along (fun _ _ _ h hsum => h.step hsum)
    ⟨htells, fun _ _ => rfl, fun _ => .rfl⟩ hsums).2

/-- `hget` after a call, when the clock reads as at `c'`. -/
theorem Adds.hget (h : e.Adds c k f d n) (c' : Call) (f' : Bytes) :
    ((e.hincrby c k f d).2.hget c' k f').1 =
      if e.Writable c' k .kHash then
        (AList.insert f (ofInt (n + d)) (e.hashOf k)).lookup f'
      else none := by
  have hwritable : (e.hincrby c k f d).2.Writable c' k .kHash ↔ _ := writable_hincrby c e k f d
  have hfind := h.hash
  generalize (e.hincrby c k f d).2 = e₁ at *
  have hvalue : (e₁.slot k).value .kHash = some _ := hfind
  have hvalid : (e₁.slot k).valid c'.now = true ↔ e.Writable c' k .kHash := by
    rw [← hwritable, writable_iff, hvalue]
    simp
  rw [hget_fst]
  by_cases hlive : e.Writable c' k .kHash
  · rw [if_pos hlive, guarded_valid (hvalid.mpr hlive)]
    exact answer_found (found_of_value hfind)
  · rw [if_neg hlive]
    exact guarded_absent (Bool.eq_false_iff.mpr (mt hvalid.mp hlive))

/-- After the calls `ws` the call `w` returns the sum, and `hget` finds its text in the field and
what was there in the others. -/
structure CountsUp (e : Engine E) (k f : Bytes) (v : Int) (ws : List (Call × Int)) (w : Call × Int)
    (c' : Call) : Prop where
  reply : ((final (countBy k f) e ws).hincrby w.1 k f w.2).1 =
    some (v + ((ws ++ [w]).map Prod.snd).sum)
  field : ((final (countBy k f) e (ws ++ [w])).hget c' k f).1 =
    some (ofInt (v + ((ws ++ [w]).map Prod.snd).sum))
  others : ∀ f', f' ≠ f →
    ((final (countBy k f) e (ws ++ [w])).hget c' k f').1 = (e.hashOf k).lookup f'

/-- A field that holds a number counts up by any run of calls whose sums are `int64_t`, and `hget`
shows it if and only if there was no hash in the map, or the key is valid when it is called. -/
theorem countsUp_iff (e : Engine E) (k f : Bytes) (v : Int) (ws : List (Call × Int))
    (w : Call × Int) (c' : Call) (htells : e.Tells k f v)
    (hfits : ∀ ws', ws' <+: ws ++ [w] → IsInt64 (v + (ws'.map Prod.snd).sum)) :
    e.CountsUp k f v ws w c' ↔ e.Writable c' k .kHash := by
  have hbefore : e.CountsOn k f (final (countBy k f) e ws) (v + (ws.map Prod.snd).sum) :=
    countsOn_final htells fun ws' hws' => hfits ws' (hws'.trans (List.prefix_append ws [w]))
  have hsum : v + ((ws ++ [w]).map Prod.snd).sum = v + (ws.map Prod.snd).sum + w.2 := by
    simp [add_assoc]
  have hlast : IsInt64 (v + (ws.map Prod.snd).sum + w.2) := hsum ▸ hfits _ (List.prefix_refl _)
  have hadds : (final (countBy k f) e ws).Adds w.1 k f w.2 (v + (ws.map Prod.snd).sum) :=
    hincrby_adds w.1 hbefore.tells.number hlast
  have hget := hadds.hget c'
  have hfinal : final (countBy k f) e (ws ++ [w]) =
      ((final (countBy k f) e ws).hincrby w.1 k f w.2).2 := final_append _ _ _ _
  simp only [hbefore.writable c', ← hfinal, ← hsum] at hget
  constructor
  · intro h
    by_contra hlive
    have hfield := h.field
    rw [hget f, if_neg hlive] at hfield
    exact Option.some_ne_none _ hfield.symm
  · intro hlive
    constructor
    · rw [hsum]
      exact hadds.reply
    · rw [hget f, if_pos hlive, AList.lookup_insert]
    · intro f' hne
      rw [hget f', if_pos hlive, AList.lookup_insert_ne hne, hbefore.others f' hne]

/-- From 5 by -8 and 2 to -1. -/
theorem countsUp_iff_two :
    (final step (new Env.bare ⟨[], 0, .k2Q⟩ none) [(.ofNow 5, .hset [107] [102] [53])]).CountsUp
      [107] [102] 5 [(.ofNow 6, -8)] (.ofNow 7, 2) (.ofNow 8) := by
  have hfits : ∀ ws' ∈ [((.ofNow 6 : Call), (-8 : Int)), (.ofNow 7, 2)].inits,
      IsInt64 (5 + (ws'.map Prod.snd).sum) := by decide
  refine (countsUp_iff _ [107] [102] 5 [(.ofNow 6, -8)] (.ofNow 7, 2) (.ofNow 8) ?_ ?_).mpr
    (by decide +kernel)
  · exact (by decide +kernel : int64? [53] = some 5)
  · exact fun ws' hws' => hfits ws' ((List.mem_inits ws' _).mpr hws')

/-- The hash has expired: it counts on from 5, and `hget` finds nothing. -/
theorem hincrby_of_expired :
    (final step (new Env.bare ⟨[], 0, .k2Q⟩ none) [(.ofNow 5, .hset [107] [102] [53]),
        (.ofNow 5, .expire [107] 10)]).Tells [107] [102] 5 ∧
      ((final step (new Env.bare ⟨[], 0, .k2Q⟩ none) [(.ofNow 5, .hset [107] [102] [53]),
        (.ofNow 5, .expire [107] 10)]).hincrby (.ofNow 20) [107] [102] 1).1 = some 6 ∧
      ¬ (final step (new Env.bare ⟨[], 0, .k2Q⟩ none) [(.ofNow 5, .hset [107] [102] [53]),
        (.ofNow 5, .expire [107] 10)]).CountsUp [107] [102] 5 [] (.ofNow 20, 1) (.ofNow 20) := by
  refine ⟨(by decide +kernel : int64? [53] = some 5), by decide +kernel, fun h => ?_⟩
  exact absurd h.field (by decide +kernel)

/-! ## other texts -/

/-- What is no `int64_t`, or would not stay one, is refused, and the key stays as it was. -/
def Refuses (e : Engine E) (c : Call) (k f : Bytes) (d : Int) : Prop :=
  ∀ text, (e.hashOf k).lookup f = some text →
    (∀ i, int64? text = some i → ¬ IsInt64 (i + d)) →
      (e.hincrby c k f d).1 = none ∧ (e.hincrby c k f d).2.slot k = e.slot k

/-- Whatever the text of the field, it counts on from the number that the text begins with, if that
number and the sum are `int64_t`. -/
theorem hincrby_leading (e : Engine E) (c : Call) (k f : Bytes) (d : Int) (text : Bytes)
    (htext : (e.hashOf k).lookup f = some text) (hnumber : IsInt64 (leading text))
    (hsum : IsInt64 (leading text + d)) : e.Adds c k f d (leading text) := by
  refine hincrby_adds c ?_ hsum
  rw [htext]
  exact strtoll_of_isInt64 hnumber

/-- The text ` 12ab` counts as 12. -/
theorem hincrby_leading_blank :
    (final step (new Env.bare ⟨[], 0, .k2Q⟩ none)
      [(.ofNow 5, .hset [107] [102] [32, 49, 50, 97, 98])]).Adds (.ofNow 6) [107] [102] 3 12 :=
  hincrby_leading _ (.ofNow 6) [107] [102] 3 [32, 49, 50, 97, 98] rfl (by decide) (by decide)

/-- The text `abc` counts as zero. -/
theorem not_refuses_abc :
    ¬ (final step (new Env.bare ⟨[], 0, .k2Q⟩ none)
      [(.ofNow 5, .hset [107] [102] [97, 98, 99])]).Refuses (.ofNow 6) [107] [102] 1 := by
  intro h
  have hnone := (h [97, 98, 99] rfl (by decide +kernel)).1
  exact absurd hnone (by decide +kernel)

end Engine

end AstraKV
