import AstraKV.Engine.PutMoves
import AstraKV.Lib.Points

/-!
# AstraKV.Engine.PutsAndGets

Any number of clients that `put` and `get` one key, one locked call at a
time.

The key is in memory and does not expire: an old expiry that a `get` has read
may be written back over the metadata of a `put`, but it is not reached at the
clock of any of the calls, and so neither a look of a `get` nor the pass of a
`put` removes the key (`Calm`).  Then every call takes effect at one move, that
at the map of byte strings.  RocksDB is written to by another move, and the
order of these moves is another order.
-/

namespace AstraKV

open Slot Schedule Machine

variable {E : Env} {ι : Type}

/-! ## the clients -/

/-- What a client asks for. -/
inductive Request where
  /-- `put`, whether its RocksDB write succeeds, and the clock of its pass. -/
  | put (value : Bytes) (putOk : Bool) (now : Int)
  /-- `get`, and its two readings of the clock. -/
  | get (validNow accessNow : Int)

namespace Request

def start : Request → PutPhase ⊕ GetPhase
  | .put _ _ _ => .inl .insertBytes
  | .get _ _ => .inr .isValid

def act (k : KeySetting) (r : Request) (s : KeyState E) (ph : PutPhase ⊕ GetPhase) :
    KeyState E × (PutPhase ⊕ GetPhase) :=
  match r, ph with
  | .put value putOk now, .inl ph =>
      let res := putAct k now value putOk s ph
      (res.1, .inl res.2)
  | .get validNow accessNow, .inr ph =>
      let res := getAct ⟨k.key, k.eviction, validNow, accessNow⟩ s ph
      (res.1, .inr res.2)
  | _, ph => (s, ph)

/-- The key with this metadata has not expired for the call. -/
def Live (m : KeyMetadata) : Request → Prop
  | .put _ _ now => m.isExpired now = false
  | .get validNow _ => m.isExpired validNow = false

end Request

/-- The clients after the moves of a schedule. -/
def traffic [DecidableEq ι] (k : KeySetting) (reqs : ι → Request) (s : KeyState E) (js : List ι) :
    Crowd (KeyState E) (PutPhase ⊕ GetPhase) ι :=
  final (Crowd.turn fun i => (reqs i).act k) ⟨s, fun i => (reqs i).start⟩ js

/-! ## two orders -/

/-- The client that is about to write to the map, or to read it. -/
def atMap (s : Crowd (KeyState E) (PutPhase ⊕ GetPhase) ι) (i : ι) : Option ι :=
  match s.phase i with
  | .inl .insertBytes | .inr .getBytes => some i
  | _ => none

/-- The client that is about to write to RocksDB. -/
def atRocks (k : KeySetting) (reqs : ι → Request)
    (s : Crowd (KeyState E) (PutPhase ⊕ GetPhase) ι) (i : ι) : Option ι :=
  match reqs i, s.phase i with
  | .put _ putOk _, .inl .rocksPut => if k.disk && putOk then some i else none
  | _, _ => none

/-- The clients that have been at the map, in the order in which they were. -/
def mapOrder [DecidableEq ι] (k : KeySetting) (reqs : ι → Request) (s : KeyState E)
    (js : List ι) : List ι :=
  points (Crowd.turn fun i => (reqs i).act k) atMap ⟨s, fun i => (reqs i).start⟩ js

/-- The clients that have written to RocksDB, in the order in which they did. -/
def rocksOrder [DecidableEq ι] (k : KeySetting) (reqs : ι → Request) (s : KeyState E)
    (js : List ι) : List ι :=
  points (Crowd.turn fun i => (reqs i).act k) (atRocks k reqs) ⟨s, fun i => (reqs i).start⟩ js

/-- One client after the other: a `put` writes, a `get` does not. -/
def putValue (reqs : ι → Request) (v : Option Bytes) (i : ι) : Unit × Option Bytes :=
  match reqs i with
  | .put value _ _ => ((), some value)
  | .get _ _ => ((), v)

/-- In this order, client `i` comes upon `v`. -/
def ComesUpon (reqs : ι → Request) (v₀ : Bytes) (order : List ι) (i : ι) (v : Bytes) : Prop :=
  ∃ earlier later, order = earlier ++ i :: later ∧
    some v = final (putValue reqs) (some v₀) earlier

/-- Where client `i` is, with the clients of `order` past the map. -/
def Stands (reqs : ι → Request) (v₀ : Bytes) (order : List ι) (i : ι) :
    Request → PutPhase ⊕ GetPhase → Prop
  | .put _ _ _, .inl .insertBytes | .get _ _, .inr .isValid | .get _ _, .inr .getBytes => i ∉ order
  | .put _ _ _, .inl _ => i ∈ order
  | .get _ _, .inr (.insertAccess _ v) | .get _ _, .inr (.getAccess v)
  | .get _ _, .inr (.recordAccess v) | .get _ _, .inr (.returned (some v)) =>
      ComesUpon reqs v₀ order i v
  | _, _ => False

section Order

variable {reqs : ι → Request} {v v₀ : Bytes} {order : List ι} {i j : ι} {ph : PutPhase ⊕ GetPhase}

/-- A `put` puts its value. -/
theorem putValue_put {value : Bytes} {putOk : Bool} {now : Int} (h : reqs i = .put value putOk now)
    (v : Option Bytes) : (putValue reqs v i).2 = some value := by
  rw [putValue, h]

/-- A `get` leaves the value. -/
theorem putValue_get {validNow accessNow : Int} (h : reqs i = .get validNow accessNow)
    (v : Option Bytes) : (putValue reqs v i).2 = v := by
  rw [putValue, h]

/-- Who comes to the map later is not come upon. -/
theorem ComesUpon.append (h : ComesUpon reqs v₀ order i v) (order' : List ι) :
    ComesUpon reqs v₀ (order ++ order') i v := by
  obtain ⟨earlier, later, rfl, hv⟩ := h
  exact ⟨earlier, later ++ order', by rw [List.append_assoc, List.cons_append], hv⟩

/-- Another client at the map leaves client `i` where it is. -/
theorem Stands.of_ne (h : Stands reqs v₀ order i (reqs i) ph) (hne : i ≠ j) :
    Stands reqs v₀ (order ++ [j]) i (reqs i) ph := by
  have hmem : i ∈ order ++ [j] ↔ i ∈ order := by simp [hne]
  generalize reqs i = r at h
  cases r with
  | put value putOk now =>
      cases ph with
      | inl ph =>
          cases ph with
          | insertBytes => exact fun hi => h (hmem.mp hi)
          | _ => exact hmem.mpr h
      | inr ph => exact h
  | get validNow accessNow =>
      cases ph with
      | inl ph => exact h
      | inr ph =>
          cases ph with
          | isValid | getBytes => exact fun hi => h (hmem.mp hi)
          | getAccess v | recordAccess v | insertAccess m v => exact h.append [j]
          | returned v =>
              cases v with
              | none => exact h
              | some v => exact h.append [j]
          | _ => exact h

/-- At the start a call has nothing done. -/
theorem stands_start (r : Request) : Stands reqs v₀ [] i r r.start := by
  cases r <;> exact List.not_mem_nil

end Order

/-! ## nothing expires -/

/-- The expiry that was there first, or none. -/
def DeadlineKept (expiry : Option Int) (m : KeyMetadata) : Prop :=
  m.expireTimeMs = none ∨ m.expireTimeMs = expiry

/-- Neither the pass of a `put` nor a `get` is removing the key, and what a `get` writes back
keeps the expiry. -/
def CalmAt (expiry : Option Int) : PutPhase ⊕ GetPhase → Prop
  | .inl ph => ¬ ph.Clears
  | .inr (.insertAccess m _) => DeadlineKept expiry m
  | .inr .forget => False
  | .inr _ => True

/-- The key is registered, with the expiry of `m₀` or with none. -/
structure Calm (m₀ : KeyMetadata) (s : Crowd (KeyState E) (PutPhase ⊕ GetPhase) ι) : Prop where
  metadata : ∃ m, s.shared.slot.metadata = some m ∧ DeadlineKept m₀.expireTimeMs m
  phase : ∀ i, CalmAt m₀.expireTimeMs (s.phase i)

/-- Metadata with the old deadline or none expire no earlier. -/
theorem isExpired_of_kept {m m₀ : KeyMetadata} {now : Int} (h : DeadlineKept m₀.expireTimeMs m)
    (hvalid : m₀.isExpired now = false) : m.isExpired now = false := by
  unfold KeyMetadata.isExpired at *
  obtain hnone | hsame := h
  · rw [hnone]
  · rwa [hsame]

/-- A move of `put`: it registers the key without an expiry, and its pass leaves the key. -/
theorem CalmAt.put {k : KeySetting} {m₀ : KeyMetadata} {now : Int} {value : Bytes} {putOk : Bool}
    {s : KeyState E} {ph : PutPhase} (h : CalmAt m₀.expireTimeMs (.inl ph))
    (hlive : m₀.isExpired now = false)
    (hmetadata : ∃ m, s.slot.metadata = some m ∧ DeadlineKept m₀.expireTimeMs m) :
    (∃ m, (putAct k now value putOk s ph).1.slot.metadata = some m ∧
        DeadlineKept m₀.expireTimeMs m) ∧
      CalmAt m₀.expireTimeMs (.inl (putAct k now value putOk s ph).2) := by
  obtain ⟨m, hm, hkept⟩ := hmetadata
  cases ph with
  | getVersion =>
      simp only [putAct, hm]
      exact ⟨⟨m, rfl, hkept⟩, id⟩
  | register version => exact ⟨⟨_, rfl, .inl rfl⟩, id⟩
  | rocksPut =>
      rw [putAct, metadata_save]
      exact ⟨⟨m, hm, hkept⟩, id⟩
  | getAllKeys =>
      rw [putAct_getAllKeys hm]
      exact ⟨⟨m, hm, hkept⟩, id⟩
  | cleanup ph =>
      cases ph with
      | isValid =>
          rw [putAct_isValid hm (isExpired_of_kept hkept hlive)]
          exact ⟨⟨m, hm, hkept⟩, id⟩
      | _ => exact absurd trivial h
  | insertBytes | recordAccess | returned => exact ⟨⟨m, hm, hkept⟩, id⟩

/-- A move of `get`: it finds the key valid, and writes back what it has read. -/
theorem CalmAt.get {a : Access} {m₀ : KeyMetadata} {s : KeyState E} {ph : GetPhase}
    (h : CalmAt m₀.expireTimeMs (.inr ph)) (hlive : m₀.isExpired a.validNow = false)
    (hmetadata : ∃ m, s.slot.metadata = some m ∧ DeadlineKept m₀.expireTimeMs m) :
    (∃ m, (getAct a s ph).1.slot.metadata = some m ∧ DeadlineKept m₀.expireTimeMs m) ∧
      CalmAt m₀.expireTimeMs (.inr (getAct a s ph).2) := by
  obtain ⟨m, hm, hkept⟩ := hmetadata
  cases ph with
  | isValid =>
      simp only [getAct, hm, isExpired_of_kept hkept hlive]
      exact ⟨⟨m, rfl, hkept⟩, trivial⟩
  | getAccess v =>
      simp only [getAct, hm]
      exact ⟨⟨m, rfl, hkept⟩, hkept⟩
  | insertAccess m' v => exact ⟨⟨m', rfl, h⟩, trivial⟩
  | getBytes | rocksGet | recordAccess v =>
      unfold getAct
      dsimp only
      split <;> exact ⟨⟨m, hm, hkept⟩, trivial⟩
  | insertBytes record | returned v => exact ⟨⟨m, hm, hkept⟩, trivial⟩
  | forget => exact h.elim

/-- No move makes the key expire. -/
theorem Calm.step [DecidableEq ι] {k : KeySetting} {reqs : ι → Request} {m₀ : KeyMetadata}
    {s : Crowd (KeyState E) (PutPhase ⊕ GetPhase) ι} (hlive : ∀ i, (reqs i).Live m₀)
    (h : Calm m₀ s) (i : ι) : Calm m₀ (Crowd.turn (fun i => (reqs i).act k) s i).2 := by
  have hphase := h.phase i
  have hi := hlive i
  have hnext : (∃ m, ((reqs i).act k s.shared (s.phase i)).1.slot.metadata = some m ∧
      DeadlineKept m₀.expireTimeMs m) ∧
        CalmAt m₀.expireTimeMs ((reqs i).act k s.shared (s.phase i)).2 := by
    generalize s.phase i = ph at hphase
    generalize reqs i = r at hi
    cases r with
    | put value putOk now =>
        cases ph with
        | inl ph => exact hphase.put hi h.metadata
        | inr ph => exact ⟨h.metadata, hphase⟩
    | get validNow accessNow =>
        cases ph with
        | inl ph => exact ⟨h.metadata, hphase⟩
        | inr ph => exact hphase.get hi h.metadata
  exact ⟨hnext.1, Crowd.forall_update (P := fun _ ph => CalmAt m₀.expireTimeMs ph) h.phase hnext.2⟩

/-! ## every call takes effect at the map -/

/-- The clients of `order` have been at the map: `v₀` is what the first of them found. -/
structure Answering (reqs : ι → Request) (v₀ : Bytes) (order : List ι)
    (s : Crowd (KeyState E) (PutPhase ⊕ GetPhase) ι) : Prop where
  value : s.shared.slot.value .kBytes = final (putValue reqs) (some v₀) order
  some_value : ∃ v, final (putValue reqs) (some v₀) order = some v
  nodup : order.Nodup
  stands : ∀ i, Stands reqs v₀ order i (reqs i) (s.phase i)

section Steps

variable [DecidableEq ι] {k : KeySetting} {reqs : ι → Request} {m₀ : KeyMetadata} {v₀ : Bytes}
  {order : List ι} {s : Crowd (KeyState E) (PutPhase ⊕ GetPhase) ι} {i : ι}

/-- A move that leaves the map of byte strings. -/
theorem Answering.moved (h : Answering reqs v₀ order s) {shared : KeyState E}
    {ph : PutPhase ⊕ GetPhase}
    (hvalue : shared.slot.value .kBytes = s.shared.slot.value .kBytes)
    (hph : Stands reqs v₀ order i (reqs i) ph) :
    Answering reqs v₀ order ⟨shared, Function.update s.phase i ph⟩ where
  value := hvalue.trans h.value
  some_value := h.some_value
  nodup := h.nodup
  stands := Crowd.forall_update (P := fun i ph => Stands reqs v₀ order i (reqs i) ph) h.stands hph

/-- A move at the map. -/
theorem Answering.reached (h : Answering reqs v₀ order s) (hi : i ∉ order) {shared : KeyState E}
    {ph : PutPhase ⊕ GetPhase}
    (hvalue : shared.slot.value .kBytes =
      (putValue reqs (s.shared.slot.value .kBytes) i).2)
    (hph : Stands reqs v₀ (order ++ [i]) i (reqs i) ph) :
    Answering reqs v₀ (order ++ [i]) ⟨shared, Function.update s.phase i ph⟩ where
  value := by
    rw [final_append, final_cons, final_nil, ← h.value]
    exact hvalue
  some_value := by
    obtain ⟨v, hv⟩ := h.some_value
    rw [final_append, final_cons, final_nil, hv]
    cases hreq : reqs i with
    | put value putOk now => exact ⟨value, putValue_put hreq _⟩
    | get validNow accessNow => exact ⟨v, putValue_get hreq _⟩
  nodup := List.nodup_append.mpr ⟨h.nodup, List.nodup_singleton i, by
    rintro j hj j' hj' rfl
    exact hi (List.mem_singleton.mp hj' ▸ hj)⟩
  stands j := by
    by_cases hj : j = i
    · subst hj
      dsimp only
      rwa [Function.update_self]
    · dsimp only
      rw [Function.update_of_ne hj]
      exact (h.stands j).of_ne hj

omit [DecidableEq ι] in
/-- No other move takes effect at the map. -/
theorem atMap_eq_none {ph : PutPhase ⊕ GetPhase} (hphase : s.phase i = ph)
    (hinsert : ph ≠ .inl .insertBytes) (hget : ph ≠ .inr .getBytes) :
    (atMap s i).toList = [] := by
  unfold atMap
  rw [hphase]
  split
  · contradiction
  · contradiction
  · rfl

/-- A move of `put`: the first is at the map. -/
theorem Answering.put (hcalm : Calm m₀ s) (h : Answering reqs v₀ order s) {value : Bytes}
    {putOk : Bool} {now : Int} (hreq : reqs i = .put value putOk now)
    (hlive : m₀.isExpired now = false) {ph : PutPhase} (hphase : s.phase i = .inl ph) :
    Answering reqs v₀ (order ++ (atMap s i).toList)
      ⟨(putAct k now value putOk s.shared ph).1,
        Function.update s.phase i (.inl (putAct k now value putOk s.shared ph).2)⟩ := by
  have hstands := h.stands i
  have hat := hcalm.phase i
  obtain ⟨m, hm, hkept⟩ := hcalm.metadata
  rw [hreq, hphase] at hstands
  rw [hphase] at hat
  cases ph with
  | insertBytes =>
      rw [atMap, hphase]
      refine h.reached hstands ?_ ?_
      · rw [putValue_put hreq]
        exact value_set_self
      · rw [hreq]
        exact List.mem_append_right _ List.mem_cons_self
  | getVersion =>
      rw [atMap_eq_none hphase (by simp) (by simp), List.append_nil]
      simp only [putAct, hm]
      exact h.moved rfl (by rw [hreq]; exact hstands)
  | rocksPut =>
      rw [atMap_eq_none hphase (by simp) (by simp), List.append_nil]
      exact h.moved (congrFun value_save _) (by rw [hreq]; exact hstands)
  | getAllKeys =>
      rw [atMap_eq_none hphase (by simp) (by simp), List.append_nil, putAct_getAllKeys hm]
      exact h.moved rfl (by rw [hreq]; exact hstands)
  | cleanup ph =>
      cases ph with
      | isValid =>
          rw [atMap_eq_none hphase (by simp) (by simp), List.append_nil,
            putAct_isValid hm (isExpired_of_kept hkept hlive)]
          exact h.moved rfl (by rw [hreq]; exact hstands)
      | _ => exact absurd trivial hat
  | register version =>
      rw [atMap_eq_none hphase (by simp) (by simp), List.append_nil]
      exact h.moved rfl (by rw [hreq]; exact hstands)
  | recordAccess | returned =>
      rw [atMap_eq_none hphase (by simp) (by simp), List.append_nil]
      exact h.moved rfl (by rw [hreq]; exact hstands)

/-- A move of `get`: the second is at the map, and the value is there. -/
theorem Answering.get (hcalm : Calm m₀ s) (h : Answering reqs v₀ order s)
    {validNow accessNow : Int} (hreq : reqs i = .get validNow accessNow)
    (hlive : m₀.isExpired validNow = false) {ph : GetPhase} (hphase : s.phase i = .inr ph) :
    Answering reqs v₀ (order ++ (atMap s i).toList)
      ⟨(getAct ⟨k.key, k.eviction, validNow, accessNow⟩ s.shared ph).1, Function.update s.phase i
        (.inr (getAct ⟨k.key, k.eviction, validNow, accessNow⟩ s.shared ph).2)⟩ := by
  have hstands := h.stands i
  rw [hreq, hphase] at hstands
  obtain ⟨m, hm, hkept⟩ := hcalm.metadata
  cases ph with
  | isValid =>
      rw [atMap_eq_none hphase (by simp) (by simp), List.append_nil]
      simp only [getAct, hm, isExpired_of_kept hkept hlive]
      exact h.moved rfl (by rw [hreq]; exact hstands)
  | getBytes =>
      rw [atMap, hphase]
      obtain ⟨v, hv⟩ := h.some_value
      have hvalue := h.value.trans hv
      simp only [getAct, hvalue]
      refine h.reached hstands ?_ (by rw [hreq]; exact ⟨order, [], rfl, hv.symm⟩)
      rw [putValue_get hreq]
  | getAccess v =>
      rw [atMap_eq_none hphase (by simp) (by simp), List.append_nil]
      simp only [getAct, hm]
      exact h.moved rfl (by rw [hreq]; exact hstands)
  | insertAccess m v =>
      rw [atMap_eq_none hphase (by simp) (by simp), List.append_nil]
      exact h.moved rfl (by rw [hreq]; exact hstands)
  | recordAccess v =>
      rw [atMap_eq_none hphase (by simp) (by simp), List.append_nil]
      unfold getAct
      dsimp only
      split <;> exact h.moved rfl (by rw [hreq]; exact hstands)
  | returned v =>
      rw [atMap_eq_none hphase (by simp) (by simp), List.append_nil]
      exact h.moved rfl (by rw [hreq]; exact hstands)
  | forget | rocksGet | insertBytes record => exact hstands.elim

/-- One move of one client. -/
theorem Answering.step (hlive : ∀ i, (reqs i).Live m₀) (hcalm : Calm m₀ s)
    (h : Answering reqs v₀ order s) (i : ι) :
    Answering reqs v₀ (order ++ (atMap s i).toList)
      (Crowd.turn (fun i => (reqs i).act k) s i).2 := by
  have hstands := h.stands i
  have hi := hlive i
  cases hreq : reqs i with
  | put value putOk now =>
      rw [hreq] at hi
      cases hphase : s.phase i with
      | inl ph =>
          simp only [Crowd.turn, hreq, hphase, Request.act]
          exact h.put hcalm hreq hi hphase
      | inr ph =>
          rw [hreq, hphase] at hstands
          exact hstands.elim
  | get validNow accessNow =>
      rw [hreq] at hi
      cases hphase : s.phase i with
      | inl ph =>
          rw [hreq, hphase] at hstands
          exact hstands.elim
      | inr ph =>
          simp only [Crowd.turn, hreq, hphase, Request.act]
          exact h.get hcalm hreq hi hphase

end Steps

/-! ## RocksDB has an order of its own -/

/-- Whether client `i` is in `order`, the order of the writes to RocksDB. -/
def Stored (k : KeySetting) (order : List ι) (i : ι) : Request → PutPhase ⊕ GetPhase → Prop
  | .put _ putOk _, .inl .getAllKeys | .put _ putOk _, .inl (.cleanup _)
  | .put _ putOk _, .inl .returned => i ∈ order ↔ (k.disk && putOk) = true
  | _, _ => i ∉ order

/-- The clients of `order` have written to RocksDB, where there was `r₀`. -/
structure Storing (k : KeySetting) (reqs : ι → Request) (r₀ : Option Bytes) (order : List ι)
    (s : Crowd (KeyState E) (PutPhase ⊕ GetPhase) ι) : Prop where
  record : s.shared.slot.record = final (putValue reqs) r₀ order
  nodup : order.Nodup
  stored : ∀ i, Stored k order i (reqs i) (s.phase i)

/-- `get` does not write to RocksDB. -/
theorem record_getAct {a : Access} {s : KeyState E} {ph : GetPhase} :
    (getAct a s ph).1.slot.record = s.slot.record := by
  cases ph <;> unfold getAct <;> dsimp only <;> try split
  all_goals rfl

section Storing

variable {k : KeySetting} {reqs : ι → Request} {r₀ : Option Bytes} {order : List ι}
  {s : Crowd (KeyState E) (PutPhase ⊕ GetPhase) ι} {i j : ι} {ph : PutPhase ⊕ GetPhase}
  {m₀ : KeyMetadata}

/-- A write of another client leaves client `i` where it is. -/
theorem Stored.of_ne (h : Stored k order i (reqs i) ph) (hne : i ≠ j) :
    Stored k (order ++ [j]) i (reqs i) ph := by
  have hmem : i ∈ order ++ [j] ↔ i ∈ order := by simp [hne]
  unfold Stored at *
  split at h <;> rwa [hmem]

/-- At the start nothing is written. -/
theorem stored_start (r : Request) : Stored k [] i r r.start := by
  cases r <;> exact List.not_mem_nil

variable [DecidableEq ι]

/-- A move that leaves RocksDB. -/
theorem Storing.moved (h : Storing k reqs r₀ order s) {shared : KeyState E}
    (hrecord : shared.slot.record = s.shared.slot.record) (hph : Stored k order i (reqs i) ph) :
    Storing k reqs r₀ order ⟨shared, Function.update s.phase i ph⟩ where
  record := hrecord.trans h.record
  nodup := h.nodup
  stored := Crowd.forall_update (P := fun i ph => Stored k order i (reqs i) ph) h.stored hph

/-- A write that succeeds. -/
theorem Storing.wrote (h : Storing k reqs r₀ order s) {shared : KeyState E} {value : Bytes}
    {putOk : Bool} {now : Int} (hreq : reqs i = .put value putOk now)
    (hok : (k.disk && putOk) = true) (hi : i ∉ order) (hrecord : shared.slot.record = some value) :
    Storing k reqs r₀ (order ++ [i])
      ⟨shared, Function.update s.phase i (.inl .getAllKeys)⟩ where
  record := by
    rw [final_append, final_cons, final_nil, putValue_put hreq]
    exact hrecord
  nodup := List.nodup_append.mpr ⟨h.nodup, List.nodup_singleton i, by
    rintro j hj j' hj' rfl
    exact hi (List.mem_singleton.mp hj' ▸ hj)⟩
  stored j := by
    by_cases hj : j = i
    · subst hj
      dsimp only
      rw [Function.update_self, hreq]
      exact iff_of_true (List.mem_append_right _ List.mem_cons_self) hok
    · dsimp only
      rw [Function.update_of_ne hj]
      exact (h.stored j).of_ne hj

/-- A move of `put`: the fifth is at RocksDB. -/
theorem Storing.put (hcalm : Calm m₀ s) (h : Storing k reqs r₀ order s) {value : Bytes}
    {putOk : Bool} {now : Int} (hreq : reqs i = .put value putOk now)
    (hlive : m₀.isExpired now = false) {ph : PutPhase} (hphase : s.phase i = .inl ph) :
    Storing k reqs r₀ (order ++ (atRocks k reqs s i).toList)
      ⟨(putAct k now value putOk s.shared ph).1,
        Function.update s.phase i (.inl (putAct k now value putOk s.shared ph).2)⟩ := by
  have hstored := h.stored i
  have hat := hcalm.phase i
  obtain ⟨m, hm, hkept⟩ := hcalm.metadata
  rw [hreq, hphase] at hstored
  rw [hphase] at hat
  simp only [atRocks, hreq, hphase]
  cases ph with
  | rocksPut =>
      dsimp only
      by_cases hok : (k.disk && putOk) = true
      · rw [if_pos hok]
        exact h.wrote hreq hok hstored (by rw [putAct, record_save, if_pos hok])
      · rw [if_neg hok, Option.toList_none, List.append_nil]
        refine h.moved ?_ (by rw [hreq]; exact iff_of_false hstored hok)
        rw [putAct, record_save, if_neg hok]
  | getVersion =>
      rw [Option.toList_none, List.append_nil]
      unfold putAct
      dsimp only
      split <;> exact h.moved rfl (by rw [hreq]; exact hstored)
  | getAllKeys =>
      rw [Option.toList_none, List.append_nil, putAct_getAllKeys hm]
      exact h.moved rfl (by rw [hreq]; exact hstored)
  | cleanup ph =>
      cases ph with
      | isValid =>
          rw [Option.toList_none, List.append_nil,
            putAct_isValid hm (isExpired_of_kept hkept hlive)]
          exact h.moved rfl (by rw [hreq]; exact hstored)
      | _ => exact absurd trivial hat
  | _ =>
      rw [Option.toList_none, List.append_nil]
      exact h.moved rfl (by rw [hreq]; exact hstored)

/-- One move of one client. -/
theorem Storing.step (hlive : ∀ i, (reqs i).Live m₀) (hcalm : Calm m₀ s)
    (h : Storing k reqs r₀ order s) (i : ι) :
    Storing k reqs r₀ (order ++ (atRocks k reqs s i).toList)
      (Crowd.turn (fun i => (reqs i).act k) s i).2 := by
  have hstored := h.stored i
  have hi := hlive i
  cases hreq : reqs i with
  | put value putOk now =>
      rw [hreq] at hi
      cases hphase : s.phase i with
      | inl ph =>
          simp only [Crowd.turn, hreq, hphase, Request.act]
          exact h.put hcalm hreq hi hphase
      | inr ph =>
          rw [hreq, hphase] at hstored
          simp only [Crowd.turn, hreq, hphase, Request.act, atRocks, Option.toList_none,
            List.append_nil]
          exact h.moved rfl (by rw [hreq]; exact hstored)
  | get validNow accessNow =>
      rw [hreq] at hstored
      have hkeep : ∀ ph, Stored k order i (reqs i) ph := by
        rw [hreq]
        exact fun ph => hstored
      cases hphase : s.phase i with
      | inl ph =>
          simp only [Crowd.turn, hreq, hphase, Request.act, atRocks, Option.toList_none,
            List.append_nil]
          exact h.moved rfl (hkeep _)
      | inr ph =>
          simp only [Crowd.turn, hreq, hphase, Request.act, atRocks, Option.toList_none,
            List.append_nil]
          exact h.moved record_getAct (hkeep _)

end Storing

/-! ## together -/

/-- The calls take effect in this order, each between its start and its return. -/
structure Linearized (reqs : ι → Request) (v : Bytes) (order : List ι)
    (s : Crowd (KeyState E) (PutPhase ⊕ GetPhase) ι) : Prop where
  nodup : order.Nodup
  started : ∀ i ∈ order, s.phase i ≠ (reqs i).start
  put : ∀ i, s.phase i = .inl .returned → i ∈ order
  get : ∀ i v', s.phase i = .inr (.returned v') → ∃ earlier later,
    order = earlier ++ i :: later ∧ v' = final (putValue reqs) (some v) earlier

/-- What answers in an order of the map is linearized. -/
theorem Answering.linearized {reqs : ι → Request} {v₀ : Bytes} {order : List ι}
    {s : Crowd (KeyState E) (PutPhase ⊕ GetPhase) ι} (h : Answering reqs v₀ order s) :
    Linearized reqs v₀ order s where
  nodup := h.nodup
  started i hi hstart := by
    have hstands := h.stands i
    rw [hstart] at hstands
    cases hreq : reqs i <;> rw [hreq] at hstands <;> exact hstands hi
  put i hreturned := by
    have hstands := h.stands i
    rw [hreturned] at hstands
    cases hreq : reqs i <;> rw [hreq] at hstands
    · exact hstands
    · exact hstands.elim
  get i v' hreturned := by
    have hstands := h.stands i
    rw [hreturned] at hstands
    cases hreq : reqs i <;> rw [hreq] at hstands
    · exact hstands.elim
    · cases v' with
      | none => exact hstands.elim
      | some v' => exact hstands

variable [DecidableEq ι]

/-- **`put` and `get` of a key in memory are linearizable** for any number of clients and any order
of their moves, as long as none of them finds the key expired: they take effect one after the other
at the map.  RocksDB receives the values of the `put` calls in an order of its own, each after it is
in the map and before the call returns. -/
theorem puts_and_gets (k : KeySetting) {reqs : ι → Request} {s : KeyState E} {v : Bytes}
    {m : KeyMetadata} (hvalue : s.slot.value .kBytes = some v)
    (hmetadata : s.slot.metadata = some m) (hlive : ∀ i, (reqs i).Live m) (js : List ι) :
    Linearized reqs v (mapOrder k reqs s js) (traffic k reqs s js) ∧
      (∀ js', mapOrder k reqs s js <+: mapOrder k reqs s (js ++ js')) ∧
      (traffic k reqs s js).shared.slot.value .kBytes =
        final (putValue reqs) (some v) (mapOrder k reqs s js) ∧
      (traffic k reqs s js).shared.slot.record =
        final (putValue reqs) s.slot.record (rocksOrder k reqs s js) ∧
      (rocksOrder k reqs s js).Nodup ∧
      (∀ i ∈ rocksOrder k reqs s js, i ∈ mapOrder k reqs s js) ∧
      ∀ i value putOk now, reqs i = .put value putOk now →
        (traffic k reqs s js).phase i = .inl .returned →
          (i ∈ rocksOrder k reqs s js ↔ (k.disk && putOk) = true) := by
  have hcalm : Calm m (⟨s, fun i => (reqs i).start⟩ : Crowd _ _ ι) := by
    refine ⟨⟨m, hmetadata, .inr rfl⟩, fun i => ?_⟩
    dsimp only
    cases reqs i with
    | put value putOk now => exact id
    | get validNow accessNow => trivial
  have hstart : Answering reqs v [] (⟨s, fun i => (reqs i).start⟩ : Crowd _ _ ι) :=
    ⟨hvalue, ⟨v, rfl⟩, List.nodup_nil, fun i => stands_start (reqs i)⟩
  have hstoring : Storing k reqs s.slot.record [] (⟨s, fun i => (reqs i).start⟩ : Crowd _ _ ι) :=
    ⟨rfl, List.nodup_nil, fun i => stored_start (reqs i)⟩
  have hmap : Calm m (traffic k reqs s js) ∧
      Answering reqs v (mapOrder k reqs s js) (traffic k reqs s js) :=
    invariant_points (I := fun order t => Calm m t ∧ Answering reqs v order t)
      (fun _ _ i h => ⟨h.1.step hlive i, h.2.step hlive h.1 i⟩) ⟨hcalm, hstart⟩ js
  have hrocks : Calm m (traffic k reqs s js) ∧
      Storing k reqs s.slot.record (rocksOrder k reqs s js) (traffic k reqs s js) :=
    invariant_points (I := fun order t => Calm m t ∧ Storing k reqs s.slot.record order t)
      (fun _ _ i h => ⟨h.1.step hlive i, h.2.step hlive h.1 i⟩) ⟨hcalm, hstoring⟩ js
  refine ⟨hmap.2.linearized, points_prefix js, hmap.2.value, hrocks.2.record, hrocks.2.nodup,
    fun i hi => ?_, fun i value putOk now hreq hreturned => ?_⟩
  · have hstored := hrocks.2.stored i
    have hstands := hmap.2.stands i
    generalize reqs i = r at hstored hstands
    generalize (traffic k reqs s js).phase i = ph at hstored hstands
    unfold Stored at hstored
    split at hstored
    · exact hstands
    · exact hstands
    · exact hstands
    · exact absurd hi hstored
  · have hstored := hrocks.2.stored i
    rwa [hreq, hreturned] at hstored

/-- Clients 0 and 1 put their number, client 2 gets. -/
def twoPuts : Nat → Request
  | 2 => .get 5 5
  | i => .put [UInt8.ofNat i] true 5

/-- The puts are at the map and at RocksDB in opposite orders, and the `get` is between them. -/
def crossing : List Nat := [0, 2, 2, 1, 1, 1, 1, 1, 1, 1, 0, 0, 0, 0, 0, 0, 2, 2, 2]

/-- The value that stays in memory is not the one that stays in RocksDB. -/
theorem puts_and_gets_crossing :
    let k : KeySetting := ⟨[107], .k2Q, true⟩
    mapOrder k twoPuts .resident crossing = [0, 2, 1] ∧
      (traffic k twoPuts .resident crossing).phase 2 = .inr (.returned (some [0])) ∧
      (traffic k twoPuts .resident crossing).shared.slot.value .kBytes = some [1] ∧
      (traffic k twoPuts .resident crossing).shared.slot.record = some [0] := by
  intro k
  have horder : mapOrder k twoPuts .resident crossing = [0, 2, 1] := by decide +kernel
  have hrocks : rocksOrder k twoPuts .resident crossing = [1, 0] := by decide +kernel
  have hlive : ∀ i, (twoPuts i).Live { KeyMetadata.ofType .kBytes with version := 1 } := by
    intro i
    unfold twoPuts
    split <;> rfl
  obtain ⟨-, -, hvalue, hrecord, -⟩ := puts_and_gets k (s := .resident) rfl rfl hlive crossing
  refine ⟨horder, by decide +kernel, ?_, ?_⟩
  · rw [hvalue, horder]
    rfl
  · rw [hrecord, hrocks]
    rfl

end AstraKV
