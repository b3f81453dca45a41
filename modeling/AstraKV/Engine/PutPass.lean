import AstraKV.Engine.PutMoves
import AstraKV.Lib.Contest

/-!
# AstraKV.Engine.PutPass

A `put` beside one other client that drops the metadata of the key by one of
its moves.

The pass of the `put` lists the keys and then looks at each of them.  A key
whose metadata is dropped before the listing is not in the list; one whose
metadata is dropped after the look is left.  In between the pass finds a key
that it has listed without metadata, takes it for an expired one, and removes
what the `put` has written.  Whether it comes to that is a matter of the
schedule alone (`Schedule.Overtaken`), and so is the metadata; `Passing` says
how far the pass has come in either case.
-/

namespace AstraKV

open Slot Schedule

variable {E : Env} {k : KeySetting} {now : Int} {value : Bytes} {putOk : Bool} {js : List Bool}
  {s : KeyState E} {slot slot' : Slot E} {ph : PutPhase} {l n b : Nat}

/-- Metadata as `put` leaves it, with no expiry. -/
def Registered (m : Option KeyMetadata) : Prop :=
  ∃ m', m = some m' ∧ m'.expireTimeMs = none

/-- What the pass of the `put` has removed when it is here. -/
def PutPhase.Removed (slot : Slot E) : PutPhase → Prop
  | .cleanup (.remove t _) => t = .kBytes ∨ slot.value .kBytes = none
  | .cleanup .removeKey | .cleanup .rocksDelete => slot.value .kBytes = none
  | .returned => slot.value .kBytes = none ∧ slot.record = none
  | _ => False

/-- Others may remove the rest. -/
theorem PutPhase.Removed.mono (h : ph.Removed slot)
    (hvalue : slot.value .kBytes = none → slot'.value .kBytes = none)
    (hrecord : slot.record = none → slot'.record = none) : ph.Removed slot' := by
  cases ph with
  | cleanup ph =>
      cases ph with
      | remove t later => exact h.imp_right hvalue
      | removeKey | rocksDelete => exact hvalue h
      | _ => exact h
  | returned => exact ⟨hvalue h.1, hrecord h.2⟩
  | _ => exact h

/-- One removal after the other. -/
theorem PutPhase.Removed.next (h : ph.Removed s.slot) :
    (putAct k now value putOk s ph).2.Removed (putAct k now value putOk s ph).1.slot := by
  cases ph with
  | cleanup ph =>
      cases ph with
      | remove t later =>
          have hnone : (s.slot.drop t).value .kBytes = none := by
            by_cases ht : t = .kBytes
            · rw [ht]
              exact value_drop_self
            · rw [value_drop_of_ne (Ne.symm ht)]
              exact h.resolve_left ht
          cases later with
          | nil => exact hnone
          | cons t' later => exact .inr hnone
      | removeKey => exact h
      | rocksDelete => exact ⟨h, rfl⟩
      | _ => exact h.elim
  | returned => exact h
  | _ => exact h.elim

/-- The value in memory after a move of the `put`: its first move writes it. -/
theorem PutAt.value_cell {other : Option Bytes → Prop} (h : PutAt (js.count false) ph)
    (hkeeps : ¬ ph.Clears) (hlook : n < b)
    (hcell : Cell js false true l n 1 b (· = some value) other (s.slot.value .kBytes)) :
    Cell (js ++ [false]) false true l n 1 b (· = some value) other
      ((putAct k now value putOk s ph).1.slot.value .kBytes) := by
  obtain ⟨hheld, -, -⟩ := h.writes hkeeps k now value putOk s
  refine hcell.own_move (by simp) hlook rfl ?_
  rw [hheld]
  split <;> rfl

/-- The record after a move of the `put`: its fifth move writes it. -/
theorem PutAt.record_cell {other : Option Bytes → Prop} (h : PutAt (js.count false) ph)
    (hkeeps : ¬ ph.Clears) (hlook : n < b) (hok : (k.disk && putOk) = true)
    (hcell : Cell js false true l n 5 b (· = some value) other s.slot.record) :
    Cell (js ++ [false]) false true l n 5 b (· = some value) other
      (putAct k now value putOk s ph).1.slot.record := by
  obtain ⟨-, -, hrecord⟩ := h.writes hkeeps k now value putOk s
  refine hcell.own_move (by simp) hlook rfl ?_
  rw [hrecord]
  simp only [hok, and_true]
  split <;> rfl

/-- The `put` and what it finds of the metadata that the other client drops by its move number
`b`, if it has not found the key registered by its move number `n`. -/
structure Passing (l n b : Nat) (js : List Bool) (ph : PutPhase) (slot : Slot E) : Prop where
  place : PutAt (js.count false) ph
  metadata : Cell js false true l n 3 b Registered (· = none) slot.metadata
  /-- A key in the list without metadata has lost it since. -/
  listed : ph = .cleanup .isValid → Struck js false true l n 3 b → Before js false 6 true b
  /-- A key that was not in the list had lost it before. -/
  unlisted : ph = .returned → js.count false = 6 → Before js true b false 6
  clears : ph.Clears → Overtaken js false true l n 6 b
  removed : Overtaken js false true l n 6 b → ph.Removed slot

namespace Passing

/-- A `put` that has returned has made six moves at least. -/
theorem six_le (h : Passing l n b js ph slot) (hph : ph = .returned) : 6 ≤ js.count false := by
  have hplace := h.place
  rwa [hph] at hplace

/-- A `put` that was overtaken and has returned leaves nothing. -/
theorem gone (h : Passing l n b js ph slot) (hph : ph = .returned)
    (hover : Overtaken js false true l n 6 b) :
    slot.value .kBytes = none ∧ slot.record = none := by
  have hremoved := h.removed hover
  rwa [hph] at hremoved

/-- At the start the pass is still to come. -/
theorem start (l n b : Nat) (slot : Slot E) : Passing l n b [] .insertBytes slot where
  place := rfl
  metadata := cell_of_lt (by simp)
  listed h := PutPhase.noConfusion h
  unlisted h := PutPhase.noConfusion h
  clears := False.elim
  removed h := absurd h (not_overtaken_of_le (by simp))

/-- A move of the other client, which writes nothing once it has overtaken the pass.  It drops the
metadata after the `put` has listed the key, or it is not this move. -/
theorem other (h : Passing l n b js ph slot) (hlook : n < b)
    (hmetadata : Cell (js ++ [true]) false true l n 3 b Registered (· = none) slot'.metadata)
    (hvalue : Overtaken js false true l n 6 b → slot.value .kBytes = none →
      slot'.value .kBytes = none)
    (hrecord : Overtaken js false true l n 6 b → slot.record = none → slot'.record = none) :
    Passing l n b (js ++ [true]) ph slot' where
  place := by
    rw [count_append_of_ne (by simp)]
    exact h.place
  metadata := hmetadata
  listed hph hstruck := by
    by_cases hb : js.count true + 1 = b
    · have hsix : js.count false = 6 := by
        have hplace := h.place
        rwa [hph] at hplace
      exact (before_append_self hb).mpr hsix.ge
    · rw [struck_append_of_ne (.inl (by simp)) (.inr hb) hlook] at hstruck
      exact before_append_singleton.mpr (.inl (h.listed hph hstruck))
  unlisted hph hsix := by
    rw [count_append_of_ne (by simp)] at hsix
    exact before_append_singleton.mpr (.inl (h.unlisted hph hsix))
  clears hclears := (h.clears hclears).append hlook true
  removed hover := by
    rw [overtaken_append_of_ne (.inl (by simp)) hlook] at hover
    exact (h.removed hover).mono (hvalue hover) (hrecord hover)

/-- The metadata after a move of the `put`: its third move registers the key, and a pass that
removes the key has found no metadata. -/
theorem metadata_put (h : Passing l n b js ph s.slot) (hlook : n < b) :
    Cell (js ++ [false]) false true l n 3 b Registered (· = none)
      (putAct k now value putOk s ph).1.slot.metadata := by
  by_cases hclears : ph.Clears
  · have hseven : 7 ≤ js.count false := (h.clears hclears).2.2.le_count
    have hremoved := h.removed (h.clears hclears)
    have hsame : (putAct k now value putOk s ph).1.slot.metadata = s.slot.metadata := by
      cases ph with
      | cleanup ph =>
          cases ph with
          | forget | isValid | returned => exact hremoved.elim
          | _ => rfl
      | _ => exact hclears.elim
    rw [hsame]
    exact h.metadata.append (.inr (by omega)) (.inl (by simp)) hlook
  · obtain ⟨-, hmetadata, -⟩ := h.place.writes hclears k now value putOk s
    split at hmetadata
    · obtain ⟨m, hm, -, hexpiry⟩ := hmetadata
      exact .write (by simp) (by omega) ⟨m, hm, hexpiry⟩
    · rw [hmetadata]
      exact h.metadata.append (.inr (by omega)) (.inl (by simp)) hlook

/-- The listing: the key is in the list unless its metadata has been dropped since the
registration. -/
theorem getAllKeys (h : Passing l n b js .getAllKeys s.slot) (hlook : n < b) :
    Passing l n b (js ++ [false]) (putAct k now value putOk s .getAllKeys).2 s.slot := by
  have hfive : js.count false = 5 := h.place
  have hcount : (js ++ [false]).count false = 6 := by rw [count_append_self, hfive]
  have hstruck : Struck (js ++ [false]) false true l n 3 b ↔ Struck js false true l n 3 b :=
    struck_append_of_ne (.inr (by omega)) (.inl (by simp)) hlook
  have hover : ¬ Overtaken (js ++ [false]) false true l n 6 b := not_overtaken_of_le hcount.le
  have hcell : Cell (js ++ [false]) false true l n 3 b Registered (· = none) s.slot.metadata :=
    h.metadata.append (.inr (by omega)) (.inl (by simp)) hlook
  by_cases hs : Struck js false true l n 3 b
  · have hnone : s.slot.metadata = none := h.metadata.other (by omega) hs
    have hact : (putAct k now value putOk s .getAllKeys).2 = .returned := by simp [putAct, hnone]
    rw [hact]
    refine ⟨hcount.ge, hcell, fun h => PutPhase.noConfusion h, fun _ _ => ?_, False.elim,
      fun h => absurd h hover⟩
    exact (before_append_self (by rw [hfive])).mpr hs.2.1
  · obtain ⟨m, hm, -⟩ := h.metadata.own (by omega) hs
    have hact : (putAct k now value putOk s .getAllKeys).2 = .cleanup .isValid := by
      simp [putAct, hm]
    rw [hact]
    exact ⟨hcount, hcell, fun _ h => absurd (hstruck.mp h) hs,
      fun h => PutPhase.noConfusion h, False.elim, fun h => absurd h hover⟩

/-- The look: a key that is in the list has lost its metadata just when the other client has
overtaken the `put` since. -/
theorem isValid (h : Passing l n b js (.cleanup .isValid) s.slot) (hlook : n < b) :
    Passing l n b (js ++ [false]) (putAct k now value putOk s (.cleanup .isValid)).2 s.slot := by
  have hsix : js.count false = 6 := h.place
  have hcount : (js ++ [false]).count false = 7 := by rw [count_append_self, hsix]
  have hover : Overtaken (js ++ [false]) false true l n 6 b ↔
      ¬ Before js false l true n ∧ Before js false 6 true b ∧ b ≤ js.count true :=
    overtaken_append_self (by simp) hsix
  have hcell : Cell (js ++ [false]) false true l n 3 b Registered (· = none) s.slot.metadata :=
    h.metadata.append (.inr (by omega)) (.inl (by simp)) hlook
  by_cases hs : Struck js false true l n 3 b
  · have hnone : s.slot.metadata = none := h.metadata.other (by omega) hs
    have hact : (putAct k now value putOk s (.cleanup .isValid)).2 = .cleanup .maps := by
      simp [putAct, cleanupAct, hnone, CleanupPhase.maps, PutPhase.ofCleanup]
    rw [hact]
    refine ⟨hcount.ge, hcell, fun h => ?_, fun h => PutPhase.noConfusion h, fun _ => ?_,
      fun _ => .inl rfl⟩
    · cases h
    · exact hover.mpr ⟨hs.1, h.listed rfl hs, hs.2.1⟩
  · obtain ⟨m, hm, hexpiry⟩ := h.metadata.own (by omega) hs
    have hact : (putAct k now value putOk s (.cleanup .isValid)).2 = .returned := by
      simp [putAct, cleanupAct, hm, KeyMetadata.isExpired, hexpiry, PutPhase.ofCleanup]
    rw [hact]
    refine ⟨Nat.le_of_succ_le hcount.ge, hcell, fun h => PutPhase.noConfusion h,
      fun _ hcount' => ?_, False.elim, fun h => ?_⟩
    · omega
    · obtain ⟨hvain, hafter, hmade⟩ := hover.mp h
      exact absurd ⟨hvain, hmade, hafter.asymm (by omega) le_rfl⟩ hs

/-- A move of the pass once it removes the key. -/
theorem clear (h : Passing l n b js ph s.slot) (hlook : n < b) (hclears : ph.Clears) :
    Passing l n b (js ++ [false]) (putAct k now value putOk s ph).2
      (putAct k now value putOk s ph).1.slot := by
  have hover := h.clears hclears
  have hseven : 7 ≤ js.count false := hover.2.2.le_count
  have hcount : (js ++ [false]).count false = js.count false + 1 := count_append_self
  have hplace : PutAt (js.count false + 1) (putAct k now value putOk s ph).2 :=
    h.place.next k now value putOk s
  rw [← hcount] at hplace
  refine ⟨hplace, h.metadata_put hlook, fun hvalid => ?_, fun _ hsix => ?_,
    fun _ => hover.append hlook false, fun _ => (h.removed hover).next⟩
  · rw [hvalid] at hplace
    have hsix : (js ++ [false]).count false = 6 := hplace
    omega
  · omega

/-- A move of the `put`. -/
theorem put (h : Passing l n b js ph s.slot) (hlook : n < b) :
    Passing l n b (js ++ [false]) (putAct k now value putOk s ph).2
      (putAct k now value putOk s ph).1.slot := by
  have hcount : (js ++ [false]).count false = js.count false + 1 := count_append_self
  -- the moves before the listing leave the pass to come
  have hearly : js.count false ≤ 4 → Passing l n b (js ++ [false])
      (putAct k now value putOk s ph).2 (putAct k now value putOk s ph).1.slot := by
    intro hfour
    have hplace := h.place.next k now value putOk s
    obtain ⟨hreturned, hcleanup⟩ := hplace.early (by omega)
    refine ⟨by rwa [hcount], h.metadata_put hlook, fun h => absurd h (hcleanup _),
      fun h => absurd h hreturned, fun h => ?_, fun h => absurd h (not_overtaken_of_le (by omega))⟩
    generalize (putAct k now value putOk s ph).2 = ph' at h hcleanup
    cases ph' with
    | cleanup ph' => exact absurd rfl (hcleanup ph')
    | _ => exact h.elim
  cases ph with
  | getAllKeys => exact h.getAllKeys hlook
  | cleanup ph =>
      cases ph with
      | isValid =>
          have hslot : (putAct k now value putOk s (.cleanup .isValid)).1 = s := by
            unfold putAct cleanupAct
            dsimp only
            split <;> rfl
          rw [hslot]
          exact h.isValid hlook
      | _ => exact h.clear hlook trivial
  | returned =>
      have hsix : 6 ≤ js.count false := h.place
      refine ⟨?_, h.metadata_put hlook, fun h => PutPhase.noConfusion h, fun _ _ => by omega,
        False.elim, fun hover => ?_⟩
      · rw [hcount]
        exact Nat.le_succ_of_le hsix
      · by_cases hlast : js.count false = 6
        · rw [overtaken_append_self (by simp) hlast] at hover
          exact absurd hover.2.1 ((h.unlisted rfl hlast).asymm le_rfl le_rfl)
        · rw [overtaken_append_of_ne (.inr hlast) hlook] at hover
          exact h.removed hover
  | insertBytes | getVersion | recordAccess | rocksPut =>
      exact hearly (Nat.le_trans (Nat.le_of_eq h.place) (by decide))
  | register version => exact hearly (Nat.le_trans (Nat.le_of_eq h.place) (by decide))

end Passing

end AstraKV
