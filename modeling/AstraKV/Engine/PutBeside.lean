import AstraKV.Engine.PutPass
import AstraKV.Engine.PutsAndGets

/-!
# AstraKV.Engine.PutBeside

`put` beside `CleanupExpired` when the key is expired, and beside `get` when
the key is in RocksDB only, one locked call at a time.

Each of the two clients writes the value, the metadata and the record by moves
of its own, and what stays is decided by the order of these moves
(`Schedule.Cell`).  The pass that the `put` itself ends with comes in where the
other client has dropped the metadata of the key (`Passing`); beside a `get` it
does not, as long as the expiry that the `get` may write back is not reached.
-/

namespace AstraKV

open Slot Schedule Machine

variable {E : Env}

/-! ## `CleanupExpired` -/

section CleanupAndPut

variable {k : KeySetting} {now putNow : Int} {value : Bytes} {putOk : Bool} {js : List Bool}
  {s : Pair (KeyState E) CleanupPhase PutPhase}

/-- Where `CleanupExpired` is after the moves it has made: it has found the key registered, or goes
through all of its removals. -/
def CleanupAt (js : List Bool) : CleanupPhase → Prop
  | .isValid => js.count true = 0
  | .forget => ¬ Before js false 3 true 1 ∧ js.count true = 1
  | .remove t later =>
      ¬ Before js false 3 true 1 ∧ 2 ≤ js.count true ∧ js.count true + later.length = 9 ∧
        .kBytes ∉ later ∧ (t = .kBytes ↔ js.count true = 2)
  | .removeKey => ¬ Before js false 3 true 1 ∧ js.count true = 10
  | .rocksDelete => ¬ Before js false 3 true 1 ∧ js.count true = 11
  | .returned true => ¬ Before js false 3 true 1 ∧ 12 ≤ js.count true
  | .returned false => Before js false 3 true 1 ∧ 1 ≤ js.count true

/-- A move of the `put` leaves `CleanupExpired` where it is: it has looked already, or not yet. -/
theorem cleanupAt_append_false {ph : CleanupPhase} :
    CleanupAt (js ++ [false]) ph ↔ CleanupAt js ph := by
  have hcount : (js ++ [false]).count true = js.count true := count_append_of_ne (by simp)
  have hbefore : Before (js ++ [false]) false 3 true 1 ↔ Before js false 3 true 1 :=
    before_append_of_ne (.inl (by simp))
  cases ph with
  | returned cleaned => cases cleaned <;> simp only [CleanupAt, hcount, hbefore]
  | _ => simp only [CleanupAt, hcount, hbefore]

/-- What the moves made so far leave of the key.  `CleanupExpired` drops the metadata by its second
move; if it overtakes the pass of the `put` with it, both remove the key. -/
structure CleanedBeside (k : KeySetting) (now : Int) (value : Bytes) (putOk : Bool)
    (js : List Bool) (s : Pair (KeyState E) CleanupPhase PutPhase) : Prop where
  first : CleanupAt js s.first
  pass : Passing 3 1 2 js s.second s.shared.slot
  expired : js.count false < 3 → js.count true < 2 → s.shared.slot.expired now = true
  held : ¬ Overtaken js false true 3 1 6 2 →
    Cell js false true 3 1 1 3 (· = some value) (· = none) (s.shared.slot.value .kBytes)
  record : (k.disk && putOk) = true → ¬ Overtaken js false true 3 1 6 2 →
    Cell js false true 3 1 5 12 (· = some value) (· = none) s.shared.slot.record

/-- Being expired is a matter of the metadata alone. -/
theorem expired_congr {s s' : Slot E} (h : s'.metadata = s.metadata) :
    s'.expired now = s.expired now := by
  unfold Slot.expired
  rw [h]

/-- A move of the `put`: its first writes the value and its fifth the record. -/
theorem CleanedBeside.put (h : CleanedBeside k now value putOk js s) :
    CleanedBeside k now value putOk (js ++ [false])
      (Pair.turn (cleanupAct k.key now) (putAct k putNow value putOk) s false).2 := by
  have hspared :
      ¬ Overtaken (js ++ [false]) false true 3 1 6 2 → ¬ Overtaken js false true 3 1 6 2 :=
    fun hnot hover => hnot (hover.append (by decide) false)
  have hkeeps : ¬ Overtaken js false true 3 1 6 2 → ¬ s.second.Clears :=
    fun hnot hclears => hnot (h.pass.clears hclears)
  dsimp only [Pair.turn]
  refine ⟨cleanupAt_append_false.mpr h.first, h.pass.put (by decide), fun hput hcleanup => ?_,
    fun hnot => ?_, fun hok hnot => ?_⟩
  · rw [count_append_self] at hput
    rw [count_append_of_ne (by simp)] at hcleanup
    obtain ⟨-, hmetadata, -⟩ := h.pass.place.writes
      (hkeeps (not_overtaken_of_le (by omega))) k putNow value putOk s.shared
    rw [if_neg (by omega)] at hmetadata
    dsimp only
    rw [expired_congr hmetadata]
    exact h.expired (by omega) hcleanup
  · exact h.pass.place.value_cell (hkeeps (hspared hnot)) (by decide) (h.held (hspared hnot))
  · exact h.pass.place.record_cell (hkeeps (hspared hnot)) (by decide) hok
      (h.record hok (hspared hnot))

/-- A move of `CleanupExpired` that did not find the key registered: it drops the metadata second,
the value third and the record twelfth. -/
theorem CleanedBeside.cleanup_moved (h : CleanedBeside k now value putOk js s)
    (hvain : ¬ Before js false 3 true 1) {shared : KeyState E} {ph : CleanupPhase}
    (hph : CleanupAt (js ++ [true]) ph)
    (hmetadata : if js.count true = 1 then shared.slot.metadata = none
      else shared.slot.metadata = s.shared.slot.metadata)
    (hheld : if js.count true = 2 then shared.slot.value .kBytes = none
      else shared.slot.value .kBytes = s.shared.slot.value .kBytes)
    (hrecord : if js.count true = 11 then shared.slot.record = none
      else shared.slot.record = s.shared.slot.record) :
    CleanedBeside k now value putOk (js ++ [true]) ⟨shared, ph, s.second⟩ where
  first := hph
  pass := by
    refine h.pass.other (by decide) ?_ (fun _ hnone => ?_) fun _ hnone => ?_
    · exact h.pass.metadata.other_move (by simp) (by decide) hvain rfl hmetadata
    · split at hheld
      · exact hheld
      · exact hheld.trans hnone
    · split at hrecord
      · exact hrecord
      · exact hrecord.trans hnone
  expired hput hcleanup := by
    rw [count_append_self] at hcleanup
    rw [count_append_of_ne (by simp)] at hput
    rw [if_neg (by omega)] at hmetadata
    rw [expired_congr hmetadata]
    exact h.expired hput (by omega)
  held hnot := by
    rw [overtaken_append_of_ne (.inl (by simp)) (by decide)] at hnot
    exact (h.held hnot).other_move (by simp) (by decide) hvain rfl hheld
  record hok hnot := by
    rw [overtaken_append_of_ne (.inl (by simp)) (by decide)] at hnot
    exact (h.record hok hnot).other_move (by simp) (by decide) hvain rfl hrecord

/-- What `CleanupExpired` does once it has found the key registered: nothing. -/
theorem CleanedBeside.found (h : CleanedBeside k now value putOk js s)
    (hfound : Before js false 3 true 1) (hphase : s.first = .returned false)
    (hcount : 1 ≤ js.count true) :
    CleanedBeside k now value putOk (js ++ [true]) s where
  first := by
    rw [hphase]
    exact ⟨before_append_singleton.mpr (.inl hfound), by rw [count_append_self]; omega⟩
  pass := h.pass.other (by decide) (h.pass.metadata.found (.inl (by simp)) hfound) (fun _ => id)
    fun _ => id
  expired _ hcleanup := by
    rw [count_append_self] at hcleanup
    omega
  held hnot := (h.held fun hover => hnot (hover.append (by decide) true)).found (.inl (by simp))
    hfound
  record hok hnot := (h.record hok fun hover => hnot (hover.append (by decide) true)).found
    (.inl (by simp)) hfound

/-- Before its first move `CleanupExpired` has found nothing. -/
theorem not_before_of_count (h : js.count true = 0) : ¬ Before js false 3 true 1 :=
  fun hbefore => by
    have hle := hbefore.le_count
    omega

/-- The look of `CleanupExpired`: the key is registered anew, or still the expired one. -/
theorem CleanedBeside.isValid (h : CleanedBeside k now value putOk js s)
    (hphase : s.first = .isValid) :
    CleanedBeside k now value putOk (js ++ [true])
      (Pair.turn (cleanupAct k.key now) (putAct k putNow value putOk) s true).2 := by
  have hzero : js.count true = 0 := by
    have hat := h.first
    rwa [hphase] at hat
  have hlook : Before (js ++ [true]) false 3 true 1 ↔ 3 ≤ js.count false :=
    before_append_self (by rw [hzero])
  have hcount : (js ++ [true]).count true = 1 := by rw [count_append_self, hzero]
  by_cases hregistered : 3 ≤ js.count false
  · obtain ⟨m, hm, hexpiry⟩ := h.pass.metadata.own hregistered (not_struck_of_lt (by omega))
    have hlive : m.isExpired now = false := by rw [KeyMetadata.isExpired, hexpiry]
    have hact : cleanupAct k.key now s.shared .isValid = (s.shared, .returned false) := by
      simp only [cleanupAct, hm, hlive, Bool.false_eq_true, if_false]
    simp only [Pair.turn, hphase, hact]
    refine h.cleanup_moved (not_before_of_count hzero) ⟨hlook.mpr hregistered, hcount.ge⟩ ?_ ?_ ?_
      <;> rw [hzero] <;> rfl
  · have hexpired := h.expired (by omega) (by omega)
    unfold Slot.expired at hexpired
    cases hm : s.shared.slot.metadata with
    | none =>
        rw [hm] at hexpired
        exact absurd hexpired Bool.false_ne_true
    | some m =>
        rw [hm, Option.any_some] at hexpired
        have hact : cleanupAct k.key now s.shared .isValid = (s.shared, .forget) := by
          simp only [cleanupAct, hm, hexpired, if_true]
        simp only [Pair.turn, hphase, hact]
        refine h.cleanup_moved (not_before_of_count hzero)
          ⟨fun hbefore => hregistered (hlook.mp hbefore), hcount⟩ ?_ ?_ ?_ <;> rw [hzero] <;> rfl

/-- A move of `CleanupExpired`. -/
theorem CleanedBeside.cleanup (h : CleanedBeside k now value putOk js s) :
    CleanedBeside k now value putOk (js ++ [true])
      (Pair.turn (cleanupAct k.key now) (putAct k putNow value putOk) s true).2 := by
  have hat := h.first
  have hcount : (js ++ [true]).count true = js.count true + 1 := count_append_self
  -- the first move decides, and the moves after it decide nothing
  have hstays : 1 ≤ js.count true → ¬ Before js false 3 true 1 →
      ¬ Before (js ++ [true]) false 3 true 1 := by
    intro hlater hvain
    rwa [before_append_of_ne (.inr (by omega))]
  obtain ⟨shared, first, second⟩ := s
  cases first with
  | isValid => exact h.isValid rfl
  | forget =>
      obtain ⟨hvain, hone⟩ := hat
      have hat' : CleanupAt (js ++ [true]) .maps := by
        refine ⟨hstays (by omega) hvain, by omega, ?_, by decide, iff_of_true rfl (by omega)⟩
        rw [hcount, hone]
        rfl
      refine h.cleanup_moved hvain hat' ?_ ?_ ?_ <;> rw [hone] <;> rfl
  | remove t later =>
      obtain ⟨hvain, hpast, hlength, hbytes, htwo⟩ := hat
      have hheld : if js.count true = 2 then (shared.slot.drop t).value .kBytes = none
          else (shared.slot.drop t).value .kBytes = shared.slot.value .kBytes := by
        split
        · rw [htwo.mpr ‹_›]
          exact value_drop_self
        · exact value_drop_of_ne fun heq => ‹¬ _› (htwo.mp heq.symm)
      refine h.cleanup_moved hvain ?_ ?_ hheld ?_
      · cases later with
        | nil =>
            rw [List.length_nil] at hlength
            exact ⟨hstays (by omega) hvain, by omega⟩
        | cons t' later =>
            rw [List.length_cons] at hlength
            rw [List.mem_cons, not_or] at hbytes
            refine ⟨hstays (by omega) hvain, by omega, by omega, hbytes.2, ?_⟩
            exact iff_of_false (Ne.symm hbytes.1) (by omega)
      · rw [if_neg (by omega)]
        rfl
      · rw [if_neg (by omega)]
        rfl
  | removeKey =>
      obtain ⟨hvain, hten⟩ := hat
      refine h.cleanup_moved hvain ⟨hstays (by omega) hvain, by omega⟩ ?_ ?_ ?_
        <;> rw [hten] <;> rfl
  | rocksDelete =>
      obtain ⟨hvain, heleven⟩ := hat
      refine h.cleanup_moved hvain ⟨hstays (by omega) hvain, by omega⟩ ?_ ?_ ?_
        <;> rw [heleven] <;> rfl
  | returned cleaned =>
      cases cleaned with
      | true =>
          obtain ⟨hvain, htwelve⟩ := hat
          refine h.cleanup_moved hvain ⟨hstays (by omega) hvain, by omega⟩ ?_ ?_ ?_
            <;> rw [if_neg (by omega)] <;> rfl
      | false => exact h.found hat.1 rfl hat.2

end CleanupAndPut

/-- `get` and `put`, from their first calls on, with the clock of the pass of the `put`. -/
def getAndPut (a : Access) (k : KeySetting) (now : Int) (value : Bytes) (putOk : Bool)
    (s : KeyState E) (js : List Bool) : Pair (KeyState E) GetPhase PutPhase :=
  final (Pair.turn (getAct a) (putAct k now value putOk)) ⟨s, .isValid, .insertBytes⟩ js

section GetAndPut

variable {a : Access} {k : KeySetting} {now : Int} {value r : Bytes} {putOk : Bool}
  {m₀ : KeyMetadata}
  {js : List Bool} {s : Pair (KeyState E) GetPhase PutPhase}

/-- What `get` reads from RocksDB: the value if it was put by then, and else the record `r`. -/
def ReadBack (putOk : Bool) (value r : Bytes) (js : List Bool) (v : Bytes) : Prop :=
  (putOk = true ∧ Before js false 5 true 3 → v = value) ∧
    (¬ (putOk = true ∧ Before js false 5 true 3) → v = r)

/-- What `get` has come upon: the value in the map, or what it read from RocksDB. -/
def CameUpon (putOk : Bool) (value r : Bytes) (js : List Bool) (v : Bytes) : Prop :=
  (Before js false 1 true 2 ∧ v = value) ∨
    (¬ Before js false 1 true 2 ∧ 4 ≤ js.count true ∧ ReadBack putOk value r js v)

/-- Where `get` is after the moves it has made. -/
def GetAt (putOk : Bool) (value r : Bytes) (expiry : Option Int) (js : List Bool) :
    GetPhase → Prop
  | .isValid => js.count true = 0
  | .getBytes => js.count true = 1
  | .rocksGet => ¬ Before js false 1 true 2 ∧ js.count true = 2
  | .insertBytes v =>
      ¬ Before js false 1 true 2 ∧ js.count true = 3 ∧ ReadBack putOk value r js v
  | .insertAccess m v =>
      2 ≤ js.count true ∧ DeadlineKept expiry m ∧ CameUpon putOk value r js v
  | .getAccess v | .recordAccess v | .returned (some v) =>
      2 ≤ js.count true ∧ CameUpon putOk value r js v
  | .forget | .returned none => False

/-- What the moves made so far leave of the key, which neither of them finds expired. -/
structure ReadBeside (k : KeySetting) (value r : Bytes) (putOk : Bool) (m₀ : KeyMetadata)
    (js : List Bool) (s : Pair (KeyState E) GetPhase PutPhase) : Prop where
  first : GetAt putOk value r m₀.expireTimeMs js s.first
  second : PutAt (js.count false) s.second
  calm : CalmAt m₀.expireTimeMs (.inl s.second)
  metadata : ∃ m, s.shared.slot.metadata = some m ∧ DeadlineKept m₀.expireTimeMs m
  cold : js.count false = 0 → js.count true < 4 → s.shared.slot.value .kBytes = none
  held : Cell js false true 1 2 1 4 (· = some value)
    (fun x => ∃ v, x = some v ∧ ReadBack putOk value r js v) (s.shared.slot.value .kBytes)
  record : s.shared.slot.record =
    some (if putOk = true ∧ 5 ≤ js.count false then value else r)

/-- What RocksDB is read as is decided by the third move of `get`. -/
theorem readBack_append {m : Bool} {v : Bytes} (h : m ≠ true ∨ js.count true + 1 ≠ 3) :
    ReadBack putOk value r (js ++ [m]) v ↔ ReadBack putOk value r js v := by
  unfold ReadBack
  rw [before_append_of_ne h]

/-- What it has come upon stays. -/
theorem cameUpon_append {m : Bool} {v : Bytes} (h : m ≠ true ∨ 2 ≤ js.count true)
    (hupon : CameUpon putOk value r js v) : CameUpon putOk value r (js ++ [m]) v := by
  have hlook : Before (js ++ [m]) false 1 true 2 ↔ Before js false 1 true 2 :=
    before_append_of_ne (h.imp_right fun hcount => by omega)
  obtain ⟨hfound, rfl⟩ | ⟨hmissed, hfour, hread⟩ := hupon
  · exact .inl ⟨hlook.mpr hfound, rfl⟩
  · refine .inr ⟨fun hfound => hmissed (hlook.mp hfound), ?_, ?_⟩
    · rw [List.count_append]
      omega
    · exact (readBack_append (.inr (by omega))).mpr hread

/-- A move of the `put` leaves `get` where it is. -/
theorem getAt_append_false {expiry : Option Int} {ph : GetPhase}
    (h : GetAt putOk value r expiry js ph) : GetAt putOk value r expiry (js ++ [false]) ph := by
  have hcount : (js ++ [false]).count true = js.count true := count_append_of_ne (by simp)
  have hlook : Before (js ++ [false]) false 1 true 2 ↔ Before js false 1 true 2 :=
    before_append_of_ne (.inl (by simp))
  have hne : false ≠ true ∨ js.count true + 1 ≠ 3 := .inl (by simp)
  cases ph with
  | isValid | getBytes => exact hcount.trans h
  | rocksGet => exact ⟨fun hfound => h.1 (hlook.mp hfound), hcount.trans h.2⟩
  | insertBytes v =>
      exact ⟨fun hfound => h.1 (hlook.mp hfound), hcount.trans h.2.1,
        (readBack_append hne).mpr h.2.2⟩
  | insertAccess m v => exact ⟨hcount ▸ h.1, h.2.1, cameUpon_append (.inl (by simp)) h.2.2⟩
  | getAccess v | recordAccess v => exact ⟨hcount ▸ h.1, cameUpon_append (.inl (by simp)) h.2⟩
  | returned v =>
      cases v with
      | none => exact h
      | some v => exact ⟨hcount ▸ h.1, cameUpon_append (.inl (by simp)) h.2⟩
  | forget => exact h

/-- A move of the `put`: its pass leaves the key. -/
theorem ReadBeside.put (hdisk : k.disk = true) (hlive : m₀.isExpired now = false)
    (h : ReadBeside k value r putOk m₀ js s) :
    ReadBeside k value r putOk m₀ (js ++ [false])
      (Pair.turn (getAct a) (putAct k now value putOk) s false).2 := by
  have hkeeps : ¬ s.second.Clears := h.calm
  obtain ⟨-, -, hrecord⟩ := h.second.writes hkeeps k now value putOk s.shared
  have hnext := @CalmAt.put E k m₀ now value putOk _ _ h.calm hlive h.metadata
  obtain ⟨hmetadata, hcalm⟩ := hnext
  dsimp only [Pair.turn]
  refine ⟨getAt_append_false h.first, ?_, hcalm, hmetadata, fun hnone => ?_, ?_, ?_⟩
  · rw [count_append_self]
    exact h.second.next k now value putOk s.shared
  · rw [count_append_self] at hnone
    omega
  · refine (h.second.value_cell hkeeps (by decide) h.held).imp ?_
    rintro - ⟨v, hv, hread⟩
    exact ⟨v, hv, (readBack_append (.inl (by simp))).mpr hread⟩
  · dsimp only
    rw [hrecord, h.record, count_append_self, hdisk, Bool.true_and]
    by_cases hok : putOk = true
    · by_cases hfour : js.count false = 4
      · simp [hok, hfour]
      · have hfive : 5 ≤ js.count false + 1 ↔ 5 ≤ js.count false := by omega
        simp only [hok, hfour, false_and, if_false, hfive]
    · simp [hok]

/-- A move of `get` that leaves the value and the record. -/
theorem ReadBeside.get_moved (h : ReadBeside k value r putOk m₀ js s) {shared : KeyState E}
    {ph : GetPhase} (hph : GetAt putOk value r m₀.expireTimeMs (js ++ [true]) ph)
    (hvalue : shared.slot.value .kBytes = s.shared.slot.value .kBytes)
    (hmetadata : ∃ m, shared.slot.metadata = some m ∧ DeadlineKept m₀.expireTimeMs m)
    (hrecord : shared.slot.record = s.shared.slot.record)
    (hheld : Cell (js ++ [true]) false true 1 2 1 4 (· = some value)
      (fun x => ∃ v, x = some v ∧ ReadBack putOk value r (js ++ [true]) v)
      (s.shared.slot.value .kBytes)) :
    ReadBeside k value r putOk m₀ (js ++ [true]) ⟨shared, ph, s.second⟩ where
  first := hph
  second := by
    rw [count_append_of_ne (by simp)]
    exact h.second
  calm := h.calm
  metadata := hmetadata
  cold hnone hfew := by
    rw [count_append_of_ne (by simp)] at hnone
    rw [count_append_self] at hfew
    exact hvalue.trans (h.cold hnone (by omega))
  held := by
    dsimp only
    rwa [hvalue]
  record := by
    rw [count_append_of_ne (by simp)]
    exact hrecord.trans h.record

/-- The first moves of `get` leave the value. -/
theorem ReadBeside.held_early (h : ReadBeside k value r putOk m₀ js s)
    (hearly : js.count true < 3) :
    Cell (js ++ [true]) false true 1 2 1 4 (· = some value)
      (fun x => ∃ v, x = some v ∧ ReadBack putOk value r (js ++ [true]) v)
      (s.shared.slot.value .kBytes) := by
  refine (h.held.append (.inl (by simp)) (.inr (by omega)) (by omega)).imp fun hstruck => ?_
  exact absurd hstruck (not_struck_of_lt (by rw [count_append_self]; omega))

/-- So do its last ones. -/
theorem ReadBeside.held_late (h : ReadBeside k value r putOk m₀ js s) {v : Bytes}
    (hupon : CameUpon putOk value r js v) :
    Cell (js ++ [true]) false true 1 2 1 4 (· = some value)
      (fun x => ∃ v, x = some v ∧ ReadBack putOk value r (js ++ [true]) v)
      (s.shared.slot.value .kBytes) := by
  obtain ⟨hfound, -⟩ | ⟨-, hfour, -⟩ := hupon
  · refine (h.held.found (.inl (by simp)) hfound).imp fun hstruck => ?_
    exact absurd (before_append_singleton.mpr (.inl hfound)) hstruck.1
  · refine (h.held.append (.inl (by simp)) (.inr (by omega)) (by omega)).imp ?_
    rintro - ⟨v, hv, hread⟩
    exact ⟨v, hv, (readBack_append (.inr (by omega))).mpr hread⟩

/-- A move of `get`. -/
theorem ReadBeside.get (hvalid : m₀.isExpired a.validNow = false)
    (h : ReadBeside k value r putOk m₀ js s) :
    ReadBeside k value r putOk m₀ (js ++ [true])
      (Pair.turn (getAct a) (putAct k now value putOk) s true).2 := by
  have hat := h.first
  have hcount : (js ++ [true]).count true = js.count true + 1 := count_append_self
  obtain ⟨m, hm, hkept⟩ := h.metadata
  obtain ⟨shared, first, second⟩ := s
  dsimp only at hm
  simp only [Pair.turn]
  cases first with
  | isValid =>
      have hzero : js.count true = 0 := hat
      have hact : getAct a shared .isValid = (shared, .getBytes) := by
        simp only [getAct, hm, isExpired_of_kept hkept hvalid, Bool.false_eq_true, if_false]
      rw [hact]
      refine h.get_moved ?_ rfl ⟨m, hm, hkept⟩ rfl (h.held_early (by omega))
      exact hcount.trans (by rw [hzero])
  | getBytes =>
      have hone : js.count true = 1 := hat
      have hlook : Before (js ++ [true]) false 1 true 2 ↔ 1 ≤ js.count false :=
        before_append_self (by rw [hone])
      by_cases hput : 1 ≤ js.count false
      · have hvalue : shared.slot.value .kBytes = some value :=
          h.held.own hput (not_struck_of_lt (by omega))
        have hact : getAct a shared .getBytes = (shared, .getAccess value) := by
          simp only [getAct, hvalue]
        rw [hact]
        exact h.get_moved ⟨by omega, .inl ⟨hlook.mpr hput, rfl⟩⟩ rfl ⟨m, hm, hkept⟩ rfl
          (h.held_early (by omega))
      · have hvalue : shared.slot.value .kBytes = none := h.cold (by omega) (by omega)
        have hact : getAct a shared .getBytes = (shared, .rocksGet) := by
          simp only [getAct, hvalue]
        rw [hact]
        exact h.get_moved ⟨fun hfound => hput (hlook.mp hfound), by omega⟩ rfl ⟨m, hm, hkept⟩ rfl
          (h.held_early (by omega))
  | rocksGet =>
      obtain ⟨hmissed, htwo⟩ := hat
      have hact : getAct a shared .rocksGet =
          (shared, .insertBytes (if putOk = true ∧ 5 ≤ js.count false then value else r)) := by
        have hrecord := h.record
        dsimp only at hrecord
        simp only [getAct, hrecord]
      have hread : ReadBack putOk value r (js ++ [true])
          (if putOk = true ∧ 5 ≤ js.count false then value else r) := by
        unfold ReadBack
        rw [before_append_self (by rw [htwo])]
        exact ⟨fun hput => if_pos hput, fun hput => if_neg hput⟩
      rw [hact]
      refine h.get_moved ⟨?_, by omega, hread⟩ rfl ⟨m, hm, hkept⟩ rfl (h.held_early (by omega))
      rwa [before_append_of_ne (.inr (by omega))]
  | insertBytes v =>
      obtain ⟨hmissed, hthree, hread⟩ := hat
      have hread' : ReadBack putOk value r (js ++ [true]) v :=
        (readBack_append (.inr (by omega))).mpr hread
      have hmissed' : ¬ Before (js ++ [true]) false 1 true 2 := by
        rwa [before_append_of_ne (.inr (by omega))]
      refine ⟨⟨by omega, .inr ⟨hmissed', by omega, hread'⟩⟩, ?_, h.calm, ⟨m, hm, hkept⟩, ?_, ?_,
        ?_⟩
      · rw [count_append_of_ne (by simp)]
        exact h.second
      · intro _ hfew
        omega
      · exact .strike (by simp) (by omega) (by omega) hmissed ⟨v, value_set_self, hread'⟩
      · rw [count_append_of_ne (by simp)]
        exact h.record
  | getAccess v =>
      obtain ⟨htwo, hupon⟩ := hat
      have hact : getAct a shared (.getAccess v) =
          (shared, .insertAccess (m.updateAccess a.accessNow) v) := by
        simp only [getAct, hm]
      rw [hact]
      exact h.get_moved ⟨by omega, hkept, cameUpon_append (.inr htwo) hupon⟩ rfl ⟨m, hm, hkept⟩ rfl
        (h.held_late hupon)
  | insertAccess m' v =>
      obtain ⟨htwo, hkept', hupon⟩ := hat
      exact h.get_moved ⟨by omega, cameUpon_append (.inr htwo) hupon⟩ rfl ⟨m', rfl, hkept'⟩ rfl
        (h.held_late hupon)
  | recordAccess v =>
      obtain ⟨htwo, hupon⟩ := hat
      unfold getAct
      dsimp only
      split <;> exact h.get_moved ⟨by omega, cameUpon_append (.inr htwo) hupon⟩ rfl
        ⟨m, hm, hkept⟩ rfl (h.held_late hupon)
  | returned v =>
      cases v with
      | none => exact hat.elim
      | some v =>
          obtain ⟨htwo, hupon⟩ := hat
          exact h.get_moved ⟨by omega, cameUpon_append (.inr htwo) hupon⟩ rfl ⟨m, hm, hkept⟩ rfl
            (h.held_late hupon)
  | forget => exact hat.elim

variable (value putOk) in
/-- The moves made so far, by induction on them. -/
theorem readBeside_getAndPut (hdisk : k.disk = true) {s : KeyState E}
    (hmetadata : s.slot.metadata = some m₀) (hvalid : m₀.isExpired a.validNow = false)
    (hlive : m₀.isExpired now = false) (hcold : s.slot.value .kBytes = none)
    (hrecord : s.slot.record = some r) (js : List Bool) :
    ReadBeside k value r putOk m₀ js (getAndPut a k now value putOk s js) := by
  induction js using List.reverseRecOn with
  | nil => exact ⟨rfl, rfl, id, ⟨m₀, hmetadata, .inr rfl⟩, fun _ _ => hcold,
      cell_of_lt (by simp), by simpa [getAndPut] using hrecord⟩
  | append_singleton js i ih =>
      rw [getAndPut, final_append, final_cons, final_nil]
      cases i with
      | true => exact ih.get hvalid
      | false => exact ih.put hdisk hlive

/-- What `get` comes upon is the value that is put, unless it is the record that was there. -/
theorem cameUpon_eq_iff {v : Bytes} (h : CameUpon putOk value r js v) :
    v = value ↔
      r = value ∨ Before js false 1 true 2 ∨ (putOk = true ∧ Before js false 5 true 3) := by
  obtain ⟨hfound, rfl⟩ | ⟨hmissed, -, hread⟩ := h
  · exact iff_of_true rfl (.inr (.inl hfound))
  · by_cases hput : putOk = true ∧ Before js false 5 true 3
    · exact iff_of_true (hread.1 hput) (.inr (.inr hput))
    · rw [hread.2 hput]
      exact ⟨.inl, fun hor => hor.elim id fun hor => hor.elim (absurd · hmissed) (absurd · hput)⟩

/-- **A `get` of a key that is in RocksDB only may undo a `put` in memory**: once both have
returned, the value is in memory if and only if the record was the same, `get` found the value in
the map, `get` had filled the map before the `put` began, or it read the record that the `put` had
written. RocksDB has the value whenever its write succeeds. The key is not expired for either
call: `get` may write an old expiry back behind the `put`, whose pass would then remove the key.
-/
theorem put_beside_get_iff (a : Access) (k : KeySetting) (now : Int) (hdisk : k.disk = true)
    (value : Bytes) (putOk : Bool) {s : KeyState E} (hmetadata : s.slot.metadata = some m₀)
    (hvalid : m₀.isExpired a.validNow = false) (hlive : m₀.isExpired now = false)
    (hcold : s.slot.value .kBytes = none)
    (hrecord : s.slot.record = some r) (js : List Bool) {v : Option Bytes}
    (hfirst : (getAndPut a k now value putOk s js).first = .returned v)
    (hsecond : (getAndPut a k now value putOk s js).second = .returned) :
    ((getAndPut a k now value putOk s js).shared.slot.value .kBytes = some value ↔
        r = value ∨ Before js false 1 true 2 ∨ Before js true 4 false 1 ∨
          (putOk = true ∧ Before js false 5 true 3)) ∧
      (v = some value ↔
        r = value ∨ Before js false 1 true 2 ∨ (putOk = true ∧ Before js false 5 true 3)) ∧
      (getAndPut a k now value putOk s js).shared.slot.record =
        some (if putOk then value else r) := by
  have h := readBeside_getAndPut value putOk hdisk hmetadata hvalid hlive hcold hrecord js
  have hat := h.first
  have hput := h.second
  rw [hfirst] at hat
  rw [hsecond] at hput
  have hsix : 6 ≤ js.count false := hput
  cases v with
  | none => exact hat.elim
  | some v =>
      obtain ⟨-, hupon⟩ := hat
      refine ⟨⟨fun hvalue => ?_, fun hor => ?_⟩, ?_, ?_⟩
      · by_contra hnot
        push Not at hnot
        obtain ⟨hne, hmissed, hlate, hstale⟩ := hnot
        have hfour : 4 ≤ js.count true := by
          obtain ⟨hfound, -⟩ | ⟨-, hfour, -⟩ := hupon
          · exact absurd hfound hmissed
          · exact hfour
        obtain ⟨v', hv', hread⟩ := h.held.other (by omega) ⟨hmissed, hfour, hlate⟩
        rw [hread.2 fun hput => hstale hput.1 hput.2, hvalue] at hv'
        exact hne (Option.some.inj hv').symm
      · have hheld : (∀ v', ReadBack putOk value r js v' → v' = value) →
            (getAndPut a k now value putOk s js).shared.slot.value .kBytes = some value := by
          intro hback
          obtain hown | ⟨v', hv', hread⟩ := h.held.own_or_other (by omega)
          · exact hown
          · rw [hv', hback v' hread]
        obtain hsame | hfound | hearly | hstored := hor
        · refine hheld fun v' hread => ?_
          by_cases hput : putOk = true ∧ Before js false 5 true 3
          · exact hread.1 hput
          · exact (hread.2 hput).trans hsame
        · exact h.held.own (by omega) fun hstruck => hstruck.1 hfound
        · exact h.held.own (by omega) fun hstruck => hstruck.2.2 hearly
        · exact hheld fun v' hread => hread.1 hstored
      · rw [Option.some.injEq]
        exact cameUpon_eq_iff hupon
      · rw [h.record]
        have hfive : 5 ≤ js.count false := by omega
        simp [hfive]

end GetAndPut

/-- A key that is in RocksDB only. -/
def KeyState.cold : KeyState Env.bare :=
  ⟨{ Slot.empty.register .kBytes with record := some [1] }, .empty⟩

/-- `get` reads the old record, the `put` runs, and `get` fills the map with what it read. -/
theorem put_beside_get_iff_stale :
    let a : Access := ⟨[107], .k2Q, 5, 5⟩
    let k : KeySetting := ⟨[107], .k2Q, true⟩
    let js := true :: true :: true :: List.replicate 7 false ++ List.replicate 4 true
    (getAndPut a k 5 [2] true .cold js).second = .returned ∧
      (getAndPut a k 5 [2] true .cold js).shared.slot.value .kBytes = some [1] ∧
      (getAndPut a k 5 [2] true .cold js).shared.slot.record = some [2] := by
  intro a k js
  have hsecond : (getAndPut a k 5 [2] true .cold js).second = .returned := by decide +kernel
  have hfirst : (getAndPut a k 5 [2] true .cold js).first = .returned (some [1]) := by
    decide +kernel
  exact ⟨hsecond, by decide +kernel,
    (put_beside_get_iff a k 5 rfl [2] true rfl rfl rfl rfl rfl js hfirst hsecond).2.2⟩

end AstraKV
