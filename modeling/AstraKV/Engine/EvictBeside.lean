import AstraKV.Engine.PutBeside

/-!
# AstraKV.Engine.EvictBeside

`put` beside an eviction of the same key, one locked call at a time.  The
value is copied out of the map, written to RocksDB and removed in three calls,
and between them the key may be put again.

The eviction forgets the key by its last call.  A `put` that has listed the key
for its own pass by then, and has not looked at it, takes it for an expired one
and removes it, the record with it (`Passing`).
-/

namespace AstraKV

open Slot Schedule Machine

variable {E : Env}

/-! ## the eviction of one key -/

/-- The call a round of `check_memory_and_evict` makes next for its victim. -/
inductive EvictPhase where
  /-- `Get` of `GetKeyType`. -/
  | getKeyType
  /-- `Remove` of `GetKeyType`. -/
  | forget
  /-- `Get` of the map of type `t`. -/
  | getValue (t : KeyType)
  /-- `Put` of RocksDB. -/
  | rocksPut (t : KeyType) (record : Option Bytes)
  /-- `Remove` from the map of type `t`. -/
  | removeValue (t : KeyType)
  /-- `RemoveKey` of the tracker. -/
  | removeKey
  /-- `UnregisterKey`. -/
  | unregister
  | returned (evicted : Bool)
deriving DecidableEq

/-- One call of the round.  `Get` copies a byte string; what the other types hold is taken to stay
as it is until it is written out. -/
def evictAct (key : Bytes) (now : Int) (disk ok : Bool) (s : KeyState E) :
    EvictPhase → KeyState E × EvictPhase
  | .getKeyType =>
      match s.slot.metadata with
      | none => (s, .returned false)
      | some metadata =>
          (s, if metadata.isExpired now then .forget
            else if metadata.type = .kNone then .returned false
            else .getValue metadata.type)
  | .forget => (s.setMetadata none, .returned false)
  | .getValue t => (s, .rocksPut t ((s.slot.value t).map (Engine.serialize t)))
  | .rocksPut t none => (s, .removeValue t)
  | .rocksPut t (some record) => ({ s with slot := s.slot.save disk ok record }, .removeValue t)
  | .removeValue t => ({ s with slot := s.slot.drop t }, .removeKey)
  | .removeKey => ({ s with tracker := s.tracker.removeKey key }, .unregister)
  | .unregister => (s.setMetadata none, .returned true)
  | .returned evicted => (s, .returned evicted)

/-- A round alone evicts a valid key, as `evict` does, and no other. -/
theorem evict_alone (key : Bytes) (now : Int) (disk ok : Bool) (s : KeyState E) :
    (∀ m, s.slot.metadata = some m → m.isExpired now = false → m.type ≠ .kNone →
      (solo (evictAct key now disk ok) 6 (s, .getKeyType)).2 = .returned true ∧
        (solo (evictAct key now disk ok) 6 (s, .getKeyType)).1.slot =
          s.slot.evict disk ok m.type) ∧
    (s.slot.valid now = false →
      (solo (evictAct key now disk ok) 6 (s, .getKeyType)).2 = .returned false ∧
        (solo (evictAct key now disk ok) 6 (s, .getKeyType)).1.slot = s.slot.check now) := by
  obtain ⟨⟨value, metadata, record⟩, tracker⟩ := s
  constructor
  · rintro m rfl hlive htype
    cases hvalue : value m.type with
    | none =>
        have hdrop : Function.update value m.type none = value := by
          rw [← hvalue, Function.update_eq_self]
        simp [solo, evictAct, hlive, htype, hvalue, KeyState.setMetadata, Slot.evict, Slot.drop,
          hdrop]
    | some v =>
        simp [solo, evictAct, hlive, htype, hvalue, KeyState.setMetadata, Slot.evict]
  · intro hvalid
    cases metadata with
    | none => simp [solo, evictAct, Slot.check, Slot.expired]
    | some m =>
        have hexpired : m.isExpired now = true := by simpa [Slot.valid] using hvalid
        simp [solo, evictAct, hexpired, KeyState.setMetadata, Slot.check, Slot.expired]

section EvictAndPut

variable {k : KeySetting} {now putNow : Int} {evictOk : Bool} {value v₀ : Bytes} {putOk : Bool}
  {js : List Bool} {s : Pair (KeyState E) EvictPhase PutPhase}

/-- What the eviction copies: the value if it was put by then, and else the old one. -/
def Copied (value v₀ : Bytes) (js : List Bool) (r : Bytes) : Prop :=
  (Before js false 1 true 2 → r = value) ∧ (¬ Before js false 1 true 2 → r = v₀)

/-- Where the eviction is after the moves it has made. -/
def EvictAt (value v₀ : Bytes) (js : List Bool) : EvictPhase → Prop
  | .getKeyType => js.count true = 0
  | .getValue t => t = .kBytes ∧ js.count true = 1
  | .rocksPut t record =>
      t = .kBytes ∧ js.count true = 2 ∧ ∃ r, record = some r ∧ Copied value v₀ js r
  | .removeValue t => t = .kBytes ∧ js.count true = 3
  | .removeKey => js.count true = 4
  | .unregister => js.count true = 5
  | .returned true => 6 ≤ js.count true
  | .forget | .returned false => False

/-- What is copied is decided by the second move of the eviction. -/
theorem copied_append {m : Bool} {r : Bytes} (h : m ≠ true ∨ js.count true + 1 ≠ 2) :
    Copied value v₀ (js ++ [m]) r ↔ Copied value v₀ js r := by
  unfold Copied
  rw [before_append_of_ne h]

/-- A move of the `put` leaves the eviction where it is. -/
theorem evictAt_append_false {ph : EvictPhase} (h : EvictAt value v₀ js ph) :
    EvictAt value v₀ (js ++ [false]) ph := by
  have hcount : (js ++ [false]).count true = js.count true := count_append_of_ne (by simp)
  cases ph with
  | rocksPut t record =>
      obtain ⟨rfl, htwo, r, rfl, hcopied⟩ := h
      exact ⟨rfl, hcount.trans htwo, r, rfl, (copied_append (.inl (by simp))).mpr hcopied⟩
  | returned evicted =>
      cases evicted with
      | true => exact Nat.le_trans h hcount.ge
      | false => exact h
  | getKeyType | removeKey | unregister => exact hcount.trans h
  | getValue t | removeValue t => exact ⟨h.1, hcount.trans h.2⟩
  | forget => exact h

/-- What the moves made so far leave of the key. The eviction drops the metadata by its sixth
move; if it overtakes the pass of the `put` with it, the pass removes the key. -/
structure EvictedBeside (now : Int) (evictOk : Bool) (value v₀ : Bytes) (js : List Bool)
    (s : Pair (KeyState E) EvictPhase PutPhase) : Prop where
  first : EvictAt value v₀ js s.first
  pass : Passing 0 0 6 js s.second s.shared.slot
  old : js.count false = 0 → js.count true < 4 → s.shared.slot.value .kBytes = some v₀
  known : js.count true < 6 →
    ∃ m, s.shared.slot.metadata = some m ∧ m.type = .kBytes ∧ m.isExpired now = false
  held : ¬ Overtaken js false true 0 0 6 6 →
    Cell js false true 0 0 1 4 (· = some value) (· = none) (s.shared.slot.value .kBytes)
  record : evictOk = true → ¬ Overtaken js false true 0 0 6 6 →
    Cell js false true 0 0 5 3 (· = some value)
      (fun x => ∃ r, x = some r ∧ Copied value v₀ js r) s.shared.slot.record
  spared : evictOk = false → ¬ Overtaken js false true 0 0 6 6 → 5 ≤ js.count false →
    s.shared.slot.record = some value

/-- Before its last move the eviction has overtaken nobody. -/
theorem not_overtaken_of_count (h : js.count true < 6) : ¬ Overtaken js false true 0 0 6 6 := by
  rintro ⟨-, hbefore, -⟩
  exact absurd hbefore.le_count (by omega)

/-- A move of the `put`: its first writes the value and its fifth the record. -/
theorem EvictedBeside.put (hok : (k.disk && putOk) = true)
    (h : EvictedBeside now evictOk value v₀ js s) :
    EvictedBeside now evictOk value v₀ (js ++ [false])
      (Pair.turn (evictAct k.key now k.disk evictOk) (putAct k putNow value putOk) s false).2 := by
  have hcount : (js ++ [false]).count false = js.count false + 1 := count_append_self
  have hother : (js ++ [false]).count true = js.count true := count_append_of_ne (by simp)
  have hspared :
      ¬ Overtaken (js ++ [false]) false true 0 0 6 6 → ¬ Overtaken js false true 0 0 6 6 :=
    fun hnot hover => hnot (hover.append (by decide) false)
  have hkeeps : ¬ Overtaken js false true 0 0 6 6 → ¬ s.second.Clears :=
    fun hnot hclears => hnot (h.pass.clears hclears)
  have hwrites : ¬ Overtaken js false true 0 0 6 6 → _ := fun hnot =>
    h.pass.place.writes (hkeeps hnot) k putNow value putOk s.shared
  dsimp only [Pair.turn]
  refine ⟨evictAt_append_false h.first, h.pass.put (by decide), fun hnone => ?_, fun hearly => ?_,
    fun hnot => ?_, fun hevict hnot => ?_, fun hevict hnot hmade => ?_⟩
  · omega
  · obtain ⟨-, hmetadata, -⟩ := hwrites (not_overtaken_of_count (by omega))
    split at hmetadata
    · obtain ⟨m, hm, htype, hexpiry⟩ := hmetadata
      exact ⟨m, hm, htype, by rw [KeyMetadata.isExpired, hexpiry]⟩
    · dsimp only
      rw [hmetadata]
      exact h.known (hother ▸ hearly)
  · exact h.pass.place.value_cell (hkeeps (hspared hnot)) (by decide) (h.held (hspared hnot))
  · refine (h.pass.place.record_cell (hkeeps (hspared hnot)) (by decide) hok
      (h.record hevict (hspared hnot))).imp ?_
    rintro - ⟨r, hr, hcopied⟩
    exact ⟨r, hr, (copied_append (.inl (by simp))).mpr hcopied⟩
  · obtain ⟨-, -, hrecord⟩ := hwrites (hspared hnot)
    dsimp only
    rw [hrecord]
    split
    · rfl
    · rename_i hnot'
      have hfour : js.count false ≠ 4 := fun hfour => hnot' ⟨hfour, hok⟩
      exact h.spared hevict (hspared hnot) (by omega)

/-- A move of the eviction: it writes the record third, and drops the value fourth and the metadata
sixth. -/
theorem EvictedBeside.evict_moved (h : EvictedBeside now evictOk value v₀ js s)
    {shared : KeyState E} {ph : EvictPhase} (hph : EvictAt value v₀ (js ++ [true]) ph)
    (hrecord : if js.count true = 2 ∧ evictOk = true then
        ∃ r, shared.slot.record = some r ∧ Copied value v₀ js r
      else shared.slot.record = s.shared.slot.record)
    (hheld : shared.slot.value .kBytes =
      if js.count true = 3 then none else s.shared.slot.value .kBytes)
    (hmetadata : shared.slot.metadata =
      if js.count true = 5 then none else s.shared.slot.metadata) :
    EvictedBeside now evictOk value v₀ (js ++ [true]) ⟨shared, ph, s.second⟩ where
  first := hph
  pass := by
    refine h.pass.other (by decide) ?_ (fun _ hnone => ?_) fun hover hnone => ?_
    · refine h.pass.metadata.other_move (by simp) (by decide) not_before_zero rfl ?_
      rw [hmetadata]
      split <;> rfl
    · rw [hheld]
      split
      · rfl
      · exact hnone
    · have hsix : 6 ≤ js.count true := hover.2.1.le_count
      rw [if_neg (by omega)] at hrecord
      exact hrecord.trans hnone
  old hnone hearly := by
    rw [count_append_of_ne (by simp)] at hnone
    rw [count_append_self] at hearly
    rw [if_neg (by omega)] at hheld
    exact hheld.trans (h.old hnone (by omega))
  known hearly := by
    rw [count_append_self] at hearly
    rw [if_neg (by omega)] at hmetadata
    rw [hmetadata]
    exact h.known (by omega)
  held hnot := by
    rw [overtaken_append_of_ne (.inl (by simp)) (by decide)] at hnot
    refine (h.held hnot).other_move (by simp) (by decide) not_before_zero rfl ?_
    dsimp only
    rw [hheld]
    split <;> rfl
  record hevict hnot := by
    rw [overtaken_append_of_ne (.inl (by simp)) (by decide)] at hnot
    split at hrecord
    · rename_i htwo
      obtain ⟨r, hr, hcopied⟩ := hrecord
      exact .strike (by simp) (by omega) (by omega) not_before_zero
        ⟨r, hr, (copied_append (.inr (by omega))).mpr hcopied⟩
    · rename_i hnot'
      have htwo : js.count true ≠ 2 := fun htwo => hnot' ⟨htwo, hevict⟩
      dsimp only
      rw [hrecord]
      refine ((h.record hevict hnot).append (.inl (by simp)) (.inr (by omega)) (by omega)).imp ?_
      rintro hstruck ⟨r, hr, hcopied⟩
      have hthree := hstruck.2.1
      rw [count_append_self] at hthree
      exact ⟨r, hr, (copied_append (.inr (by omega))).mpr hcopied⟩
  spared hevict hnot hmade := by
    rw [overtaken_append_of_ne (.inl (by simp)) (by decide)] at hnot
    rw [count_append_of_ne (by simp)] at hmade
    rw [if_neg (by simp [hevict])] at hrecord
    exact hrecord.trans (h.spared hevict hnot hmade)

/-- A move of the eviction. -/
theorem EvictedBeside.evict (hdisk : k.disk = true) (h : EvictedBeside now evictOk value v₀ js s) :
    EvictedBeside now evictOk value v₀ (js ++ [true])
      (Pair.turn (evictAct k.key now k.disk evictOk) (putAct k putNow value putOk) s true).2 := by
  have hat := h.first
  have hcount : (js ++ [true]).count true = js.count true + 1 := count_append_self
  obtain ⟨shared, first, second⟩ := s
  simp only [Pair.turn]
  cases first with
  | getKeyType =>
      have hzero : js.count true = 0 := hat
      obtain ⟨m, hm, htype, hlive⟩ := h.known (by omega)
      have hact : evictAct k.key now k.disk evictOk shared .getKeyType =
          (shared, .getValue .kBytes) := by
        dsimp only at hm
        simp [evictAct, hm, htype, hlive]
      rw [hact]
      exact h.evict_moved ⟨rfl, by omega⟩ (by rw [if_neg (by omega)]) (by rw [if_neg (by omega)])
        (by rw [if_neg (by omega)])
  | getValue t =>
      obtain ⟨rfl, hone⟩ := hat
      have hlook : Before (js ++ [true]) false 1 true 2 ↔ 1 ≤ js.count false :=
        before_append_self (by rw [hone])
      have hread : ∃ r, shared.slot.value .kBytes = some r ∧ Copied value v₀ (js ++ [true]) r := by
        unfold Copied
        rw [hlook]
        by_cases hput : 1 ≤ js.count false
        · have hheld := h.held (not_overtaken_of_count (by omega))
          exact ⟨value, hheld.own hput (not_struck_of_lt (by omega)), fun _ => rfl, absurd hput⟩
        · exact ⟨v₀, h.old (by omega) (by omega), fun hput' => absurd hput' hput, fun _ => rfl⟩
      obtain ⟨r, hr, hcopied⟩ := hread
      have hact : evictAct k.key now k.disk evictOk shared (.getValue .kBytes) =
          (shared, .rocksPut .kBytes (some r)) := by
        rw [evictAct, hr]
        rfl
      rw [hact]
      exact h.evict_moved ⟨rfl, by omega, r, rfl, hcopied⟩ (by rw [if_neg (by omega)])
        (by rw [if_neg (by omega)]) (by rw [if_neg (by omega)])
  | rocksPut t record =>
      obtain ⟨rfl, htwo, r, rfl, hcopied⟩ := hat
      refine h.evict_moved ⟨rfl, by omega⟩ ?_ ?_ ?_
      · rw [evictAct, record_save, hdisk, Bool.true_and]
        cases evictOk with
        | true =>
            rw [if_pos ⟨htwo, rfl⟩, if_pos rfl]
            exact ⟨r, rfl, hcopied⟩
        | false => simp
      · rw [if_neg (by omega)]
        exact congrFun value_save _
      · rw [if_neg (by omega)]
        exact metadata_save
  | removeValue t =>
      obtain ⟨rfl, hthree⟩ := hat
      refine h.evict_moved (show (js ++ [true]).count true = 4 by omega) ?_ ?_ ?_
      · rw [if_neg (by omega)]
        rfl
      · rw [if_pos hthree]
        exact value_drop_self
      · rw [if_neg (by omega)]
        rfl
  | removeKey =>
      have hfour : js.count true = 4 := hat
      refine h.evict_moved (show (js ++ [true]).count true = 5 by omega) ?_ ?_ ?_ <;>
        rw [if_neg (by omega)] <;> rfl
  | unregister =>
      have hfive : js.count true = 5 := hat
      refine h.evict_moved (show 6 ≤ (js ++ [true]).count true by omega) ?_ ?_ ?_
      · rw [if_neg (by omega)]
        rfl
      · rw [if_neg (by omega)]
        rfl
      · rw [if_pos hfive]
        rfl
  | returned evicted =>
      cases evicted with
      | true =>
          have hsix : 6 ≤ js.count true := hat
          refine h.evict_moved (show 6 ≤ (js ++ [true]).count true by omega) ?_ ?_ ?_ <;>
            rw [if_neg (by omega)] <;> rfl
      | false => exact hat.elim
  | forget => exact hat.elim

/-- The old value is in RocksDB if the eviction wrote it out last, and no record if the pass of the
`put` was overtaken. -/
theorem EvictedBeside.record_ne_iff (h : EvictedBeside now evictOk value v₀ js s)
    (hsecond : s.second = .returned) (hevict : 6 ≤ js.count true) :
    s.shared.slot.record ≠ some value ↔
      (v₀ ≠ value ∧ evictOk = true ∧ Before js false 5 true 3 ∧ ¬ Before js false 1 true 2) ∨
        Overtaken js false true 0 0 6 6 := by
  have hput : 6 ≤ js.count false := h.pass.six_le hsecond
  by_cases hover : Overtaken js false true 0 0 6 6
  · refine iff_of_true ?_ (.inr hover)
    rw [(h.pass.gone hsecond hover).2]
    simp
  rw [or_iff_left hover]
  cases evictOk with
  | false =>
      refine iff_of_false (not_not_intro (h.spared rfl hover (by omega))) ?_
      rintro ⟨-, hok, -⟩
      exact Bool.false_ne_true hok
  | true =>
      have hrecord := h.record rfl hover
      by_cases hearly : Before js true 3 false 5
      · have hown : s.shared.slot.record = some value :=
          hrecord.own (by omega) fun hstruck => hstruck.2.2 hearly
        refine iff_of_false (not_not_intro hown) ?_
        rintro ⟨-, -, hlate, -⟩
        exact hearly.asymm le_rfl le_rfl hlate
      · obtain ⟨r, hr, hnew, hold⟩ :=
          hrecord.other (by omega) ⟨not_before_zero, by omega, hearly⟩
        have hlate : Before js false 5 true 3 :=
          (before_or_before (by simp) (by omega) (by omega) (by omega)).resolve_left hearly
        rw [hr]
        by_cases hseen : Before js false 1 true 2
        · rw [hnew hseen]
          simp [hseen]
        · rw [hold hseen]
          simp [hseen, hlate]

/-- A later `get` finds the value if it finds the key. -/
theorem EvictedBeside.read_iff (h : EvictedBeside now evictOk value v₀ js s)
    (hsecond : s.second = .returned) (hevict : 6 ≤ js.count true) (c : Call) :
    (if s.shared.slot.valid c.now then s.shared.slot.found c .kBytes 0 else none) = some value ↔
      Before js true 6 false 3 := by
  have hput : 6 ≤ js.count false := h.pass.six_le hsecond
  constructor
  · intro hread
    by_contra hlate
    have hnone := h.pass.metadata.other (by omega) ⟨not_before_zero, by omega, hlate⟩
    simp [Slot.valid, hnone] at hread
  · intro hearly
    obtain ⟨m, hm, hexpiry⟩ := h.pass.metadata.own (by omega) fun hstruck => hstruck.2.2 hearly
    have hvalid : s.shared.slot.valid c.now = true := by
      simp [Slot.valid, hm, KeyMetadata.isExpired, hexpiry]
    -- registered behind the eviction, the key is valid when the pass looks at it
    have hover : ¬ Overtaken js false true 0 0 6 6 :=
      fun hover => hearly.asymm (by omega) (by omega) hover.2.1
    have hrecord : s.shared.slot.record = some value := by
      by_contra hne
      obtain ⟨-, -, hlate, -⟩ := ((h.record_ne_iff hsecond hevict).mp hne).resolve_right hover
      exact hearly.asymm (by omega) (by omega) hlate
    rw [if_pos hvalid, Slot.found, Slot.load, hrecord]
    obtain hown | hnone := (h.held hover).own_or_other (by omega)
    · rw [hown, Option.some_or]
    · rw [hnone, Option.none_or]
      rfl

end EvictAndPut

end AstraKV
