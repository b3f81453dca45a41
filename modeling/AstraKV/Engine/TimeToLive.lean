import AstraKV.Engine.Lapse

/-!
# AstraKV.Engine.TimeToLive

How long a key lives after `expire`, and what is said of it on the way.

The duration that `expire` is given is kept as the expiry time itself, so a
key lives that long only if the clock reads zero when it is called.  The
reports of the time that is left use -1 for none set, which the Rust binding
takes for a duration, and also say -1 at the very time of the expiry.

`Until` is what a run keeps of a key after `expire`: the metadata have the
deadline, or the deadline has passed. A `Quiet` step is one that neither
writes the key nor loads a record of it, both of which would register it anew,
and the step must not evict it either. Between the deadline and what `exists`
and `ttl` say of it there is then no room for anything else.
-/

namespace AstraKV

open Slot Machine

/-- The operation is no write and loads no record. -/
def Shape.Quiet {E : Env} (c : Call) (s : Slot E) : Shape E → Prop
  | .idle | .check | .get => True
  | .read guarded t dim =>
      guarded = false ∨ s.valid c.now = true → s.value t = none → s.load c t dim = none
  | _ => False

namespace Slot

variable {E : Env} {s s' : Slot E} {c : Call} {d now : Int}

/-- At time `now` the slot has the expiry time `d`, or that time has passed. -/
def Until (d now : Int) (s : Slot E) : Prop :=
  s.Doomed d ∧ (s.metadata = none → d < now)

/-- The deadline of a slot is a matter of the metadata alone. -/
theorem Until.of_metadata (h : s.Until d now) (hm : s'.metadata = s.metadata) : s'.Until d now :=
  ⟨h.1.of_metadata hm, fun hnone => h.2 (hm ▸ hnone)⟩

/-- Without metadata the deadline must have passed. -/
theorem until_none (hm : s.metadata = none) (hnow : d < now) : s.Until d now :=
  ⟨doomed_none hm, fun _ => hnow⟩

/-- What is expired at an earlier time expires at `d`. -/
theorem Until.lt_of_expired (h : s.Until d now) {earlier : Int} (hle : earlier ≤ now)
    (hexpired : s.expired earlier = true) : d < now := by
  cases hm : s.metadata with
  | none => exact h.2 hm
  | some m =>
      simp [Slot.expired, hm, KeyMetadata.isExpired, h.1 m hm] at hexpired
      omega

/-- A check does not take a deadline away before its time. -/
theorem Until.check (h : s.Until d now) {earlier : Int} (hle : earlier ≤ now) :
    (s.check earlier).Until d now := by
  unfold Slot.check
  by_cases hexpired : s.expired earlier = true
  · rw [if_pos hexpired]
    exact until_none rfl (h.lt_of_expired hle hexpired)
  · rw [if_neg hexpired]
    exact h

theorem Until.touch (h : s.Until d now) (earlier : Int) : (s.touch earlier).Until d now :=
  ⟨h.1.touch earlier, fun hnone => h.2 (Option.map_eq_none_iff.mp hnone)⟩

theorem Until.act {disk : Bool} {shape : Shape E} (h : s.Until d now) (hle : c.now ≤ now)
    (hquiet : shape.Quiet c s) : (s.act c disk shape).Until d now := by
  cases shape with
  | idle => exact h
  | check => exact h.check hle
  | get =>
      unfold Slot.act
      dsimp only
      split
      · split
        · exact h.touch c.now
        · exact (h.of_metadata metadata_set).touch c.now
        · exact h
      · exact h.check hle
  | read guarded t dim =>
      unfold Slot.act
      dsimp only
      split
      · exact h.check hle
      · rename_i hvalid
        rw [fetch_eq_self]
        · exact h
        · refine hquiet ?_
          cases guarded with
          | false => exact .inl rfl
          | true => simpa using hvalid
  | _ => exact hquiet.elim

end Slot

namespace Engine

variable {E : Env} {e : Engine E} {c c' : Call} {k : Bytes} {ms d : Int}

/-- The step neither writes `k` nor loads a record of it, and does not evict it. -/
def Quiet (k : Bytes) (e : Engine E) (i : Call × Op) : Prop :=
  (i.2.key = some k → (i.2.shape E i.1).Quiet i.1 (e.slot k)) ∧ Unevicted k e i

/-- `exists` and `ttl` say that `k` lives until `d`. -/
def LivesUntil (e : Engine E) (c : Call) (k : Bytes) (d : Int) : Prop :=
  (c.now < d → (e.existsKey c k).1 = true ∧ (e.ttl c k).1 = some (d - c.now)) ∧
    (d < c.now → (e.existsKey c k).1 = false)

/-- A key with such a deadline is said to live until then. -/
theorem livesUntil_of_until (hd : 0 < d) (h : (e.slot k).Until d c.now) : e.LivesUntil c k d := by
  constructor
  · intro hlt
    cases hm : (e.slot k).metadata with
    | none =>
        have := h.2 hm
        omega
    | some m =>
        have hexpire := h.1 m hm
        have hvalid : (e.slot k).valid c.now = true := by
          simp [Slot.valid, hm, KeyMetadata.isExpired, hexpire, hlt.le]
        rw [existsKey_fst, ttl_fst, if_pos hvalid]
        simp [hm, hexpire, KeyMetadata.getTtlMs, hvalid, not_le.mpr hd, not_le.mpr hlt]
  · intro hlt
    rw [existsKey_fst]
    exact h.1.not_valid hd hlt

/-- The slot of a valid key after `expire`. -/
theorem expire_until (hvalid : (e.slot k).valid c.now = true) (hms : 0 < ms) (now : Int) :
    ((e.expire c k ms).2.slot k).Until ms now := by
  rw [(expire_leaves e c k ms).slot_self]
  unfold Slot.act
  dsimp only
  rw [if_pos hvalid]
  cases hm : (e.slot k).metadata with
  | none => simp [Slot.valid, hm] at hvalid
  | some m =>
      simp [Slot.Until, Slot.Doomed, KeyMetadata.setExpireMs, not_le.mpr hms]

/-- A quiet step keeps the expiry time, or forgets the key when that time has passed. -/
theorem until_step {now : Int} {i : Call × Op} (h : (e.slot k).Until d now)
    (hle : i.1.now ≤ now) (hquiet : Quiet k e i) : ((e.step i).2.slot k).Until d now := by
  obtain ⟨c, op⟩ := i
  obtain ⟨hact, hspared⟩ := hquiet
  have hacted : (e.acted c op k).Until d now := by
    by_cases hkey : op.key = some k
    · rw [acted_self hkey]
      exact h.act hle (hact hkey)
    · rw [acted_of_ne hkey]
      exact h
  obtain hsame | ⟨hexpired, hempty⟩ := slot_step_of_unevicted hspared
  · rw [hsame]
    exact hacted
  · rw [hempty]
    exact until_none rfl (hacted.lt_of_expired hle hexpired)

/-- Quiet steps keep the expiry time until it has passed. -/
theorem until_run {now : Int} {ops : List (Call × Op)} (h : (e.slot k).Until d now)
    (htime : ∀ i ∈ ops, i.1.now ≤ now) (hquiet : Along step (Quiet k) e ops) :
    ((final step e ops).slot k).Until d now := by
  induction ops generalizing e with
  | nil => exact h
  | cons i ops ih =>
      have hle := htime i List.mem_cons_self
      exact ih (until_step h hle hquiet.1) (fun j hj => htime j (List.mem_cons_of_mem i hj))
        hquiet.2

/-- A key given `ms` to live lives that long in every run that neither writes it, loads a record
of it nor evicts it, whatever is done to others and read of it, if and only if the clock reads
zero when it is given them. -/
theorem expire_lives_iff (hvalid : (e.existsKey c k).1 = true) (hms : 0 < ms) :
    (∀ ops c', (∀ i ∈ ops, i.1.now ≤ c'.now) → c.now ≤ c'.now →
        Along step (Quiet k) (e.expire c k ms).2 ops →
        (final step (e.expire c k ms).2 ops).LivesUntil c' k (c.now + ms)) ↔
      c.now = 0 := by
  rw [existsKey_fst] at hvalid
  constructor
  · intro h
    obtain ⟨-, httl⟩ := (h [] c (by simp) le_rfl trivial).1 (by omega)
    have huntil := expire_until hvalid hms c.now
    cases hm : ((e.expire c k ms).2.slot k).metadata with
    | none => simp [final_nil, ttl_fst, Slot.valid, hm] at httl
    | some m =>
        simp only [final_nil, ttl_fst, hm, Option.map_some, huntil.1 m hm, KeyMetadata.getTtlMs,
          not_le.mpr hms, false_or, reduceCtorEq, if_false] at httl
        split at httl
        · split at httl <;> simp at httl <;> omega
        · contradiction
  · intro hzero ops c' htime _ hquiet
    rw [hzero, zero_add]
    exact livesUntil_of_until hms (until_run (expire_until hvalid hms c'.now) htime hquiet)

theorem expire_lives_iff_zero :
    (final step ((final step (new Env.bare ⟨[], 0, .k2Q⟩ none)
        [(.ofNow 0, .put [107] [118])]).expire (.ofNow 0) [107] 1000).2
      [(.ofNow 500, .get [107])]).LivesUntil (.ofNow 600) [107] (0 + 1000) :=
  (expire_lives_iff (c := .ofNow 0) (by decide +kernel) (by decide)).mpr rfl
    [(.ofNow 500, .get [107])] (.ofNow 600) (by decide) (by decide)
    ⟨⟨fun _ => trivial, unevicted_of_opts (.inl (by decide +kernel))⟩, trivial⟩

/-- A second to live, given at a clock reading of five seconds. -/
theorem expired_at_once :
    ¬ ((final step (new Env.bare ⟨[], 0, .k2Q⟩ none)
        [(.ofNow 5000, .put [107] [118]), (.ofNow 5000, .expire [107] 1000)]).LivesUntil
      (.ofNow 5001) [107] (5000 + 1000)) := by
  intro h
  have hexists := (h.1 (by decide)).1
  exact absurd hexists (by decide +kernel)

/-! ## the time that is left -/

/-- `astrakv_ttl`: what it puts into `*ms`, if it returns 0. -/
def astrakvTtl (c : Call) (e : Engine E) (key : Bytes) : Option Int × Engine E := e.ttl c key

/-- `Kv::ttl` of the Rust binding, in milliseconds; `ms as u64` takes a negative number modulo
`2 ^ 64`. -/
def kvTtl (c : Call) (e : Engine E) (key : Bytes) : Option Nat × Engine E :=
  let res := e.astrakvTtl c key
  (res.1.map fun ms => (ms % 2 ^ 64).toNat, res.2)

def expiry (e : Engine E) (key : Bytes) : Option Int :=
  (e.metas.lookup key).bind KeyMetadata.expireTimeMs

/-- `GetTtlMs` and `Kv::ttl` say what there is to say of `k`. -/
structure ReportsTtl (e : Engine E) (c : Call) (k : Bytes) : Prop where
  absent : e.metas.getTtlMs c.now k = -2 ↔ (e.metas.isValid c.now k).1 = false
  lasting : e.metas.getTtlMs c.now k = -1 ↔
    (e.metas.isValid c.now k).1 = true ∧ e.expiry k = none
  remaining : ∀ t, (e.metas.isValid c.now k).1 = true → e.expiry k = some t →
    0 < t - c.now ∧ e.metas.getTtlMs c.now k = t - c.now
  duration : ∀ n : Nat, (e.kvTtl c k).1 = some n ↔
    (e.metas.isValid c.now k).1 = true ∧ ∃ t, e.expiry k = some t ∧ (n : Int) = t - c.now

/-- The metadata say whether the key is valid. -/
theorem isValid_metas_fst (e : Engine E) (now : Int) (k : Bytes) :
    (e.metas.isValid now k).1 = (e.slot k).valid now := isValid_fst now

/-- What the binding's `ttl` answers. -/
theorem kvTtl_fst (e : Engine E) (c : Call) (k : Bytes) :
    (e.kvTtl c k).1 =
      if (e.slot k).valid c.now then some (e.metas.getTtlMs c.now k % 2 ^ 64).toNat else none := by
  unfold kvTtl astrakvTtl ttl
  cases hvalid : (e.slot k).valid c.now with
  | true => rw [guarded_of_valid hvalid]; rfl
  | false => rw [guarded_of_not_valid hvalid]; rfl

/-- Of a key that is not valid -2 is reported. -/
theorem getTtlMs_of_not_valid (h : (e.slot k).valid c.now = false) :
    e.metas.getTtlMs c.now k = -2 := by
  unfold Slot.valid slot at h
  unfold KeyMetadataManager.getTtlMs
  cases hm : e.metas.lookup k with
  | none => rfl
  | some m =>
      have hexpired : m.isExpired c.now = true := by simpa [hm] using h
      simp [hexpired]

/-- What `GetTtlMs` computes for a valid key with an expiry time. -/
theorem getTtlMs_of_expiry {t : Int} (h : (e.slot k).valid c.now = true)
    (ht : e.expiry k = some t) :
    e.metas.getTtlMs c.now k = if t ≤ 0 ∨ t ≤ c.now then -1 else t - c.now := by
  unfold Slot.valid slot at h
  unfold expiry at ht
  unfold KeyMetadataManager.getTtlMs
  cases hm : e.metas.lookup k with
  | none => simp [hm] at h
  | some m =>
      have hexpired : m.isExpired c.now = false := by simpa [hm] using h
      have hexpire : m.expireTimeMs = some t := by simpa [hm] using ht
      by_cases hle : t ≤ 0 ∨ t ≤ c.now <;> simp [hexpired, hexpire, KeyMetadata.getTtlMs, hle]

/-- Of one without an expiry -1. -/
theorem getTtlMs_of_no_expiry (h : (e.slot k).valid c.now = true) (ht : e.expiry k = none) :
    e.metas.getTtlMs c.now k = -1 := by
  unfold Slot.valid slot at h
  unfold expiry at ht
  unfold KeyMetadataManager.getTtlMs
  cases hm : e.metas.lookup k with
  | none => simp [hm] at h
  | some m =>
      have hexpired : m.isExpired c.now = false := by simpa [hm] using h
      have hexpire : m.expireTimeMs = none := by simpa [hm] using ht
      simp [hexpired, hexpire]

/-- A key that is not valid is reported rightly. -/
theorem reportsTtl_of_not_valid (hvalid : (e.slot k).valid c.now = false) :
    e.ReportsTtl c k := by
  have hms := getTtlMs_of_not_valid hvalid
  constructor
  · simp [hms, isValid_metas_fst, hvalid]
  · simp [hms, isValid_metas_fst, hvalid]
  · simp [isValid_metas_fst, hvalid]
  · simp [kvTtl_fst, isValid_metas_fst, hvalid]

/-- The binding reports a duration where there is no expiry time. -/
theorem not_reportsTtl_of_no_expiry (hvalid : (e.slot k).valid c.now = true)
    (ht : e.expiry k = none) : ¬ e.ReportsTtl c k := by
  have hms := getTtlMs_of_no_expiry hvalid ht
  intro h
  have hduration := (h.duration (2 ^ 64 - 1)).mp (by simp [kvTtl_fst, hvalid, hms])
  simp [ht] at hduration

/-- An expiry time that is not still to come is reported as none. -/
theorem reportsTtl_iff_of_expiry {t : Int} (hvalid : (e.slot k).valid c.now = true)
    (ht : e.expiry k = some t) (hnow : -2 ^ 63 ≤ c.now) (hbound : t < 2 ^ 63) :
    e.ReportsTtl c k ↔ 0 < t ∧ c.now < t := by
  have hms := getTtlMs_of_expiry hvalid ht
  constructor
  · intro h
    obtain ⟨hpos, hremaining⟩ := h.remaining t ((isValid_metas_fst e c.now k).trans hvalid) ht
    rw [hms] at hremaining
    split at hremaining <;> omega
  · rintro ⟨hpos, hlt⟩
    rw [if_neg (by omega)] at hms
    constructor
    · simp [hms, isValid_metas_fst, hvalid]
      omega
    · simp [hms, ht]
      omega
    · rintro t' - ht'
      obtain rfl : t = t' := Option.some.inj (ht.symm.trans ht')
      exact ⟨by omega, hms⟩
    · intro n
      simp [kvTtl_fst, isValid_metas_fst, hvalid, hms, ht]
      omega

/-- The reports are right if and only if the key is absent or has an expiry time that is still to
come. -/
theorem reportsTtl_iff (hnow : -2 ^ 63 ≤ c.now ∧ c.now < 2 ^ 63)
    (hexpiry : ∀ t, e.expiry k = some t → -2 ^ 63 ≤ t ∧ t < 2 ^ 63) :
    e.ReportsTtl c k ↔
      (e.metas.isValid c.now k).1 = false ∨ ∃ t, e.expiry k = some t ∧ 0 < t ∧ c.now < t := by
  rw [isValid_metas_fst]
  cases hvalid : (e.slot k).valid c.now with
  | false => simp [reportsTtl_of_not_valid hvalid]
  | true =>
      cases ht : e.expiry k with
      | none => simp [not_reportsTtl_of_no_expiry hvalid ht]
      | some t => simp [reportsTtl_iff_of_expiry hvalid ht hnow.1 (hexpiry t ht).2]

theorem reportsTtl_iff_future :
    (final step (new Env.bare ⟨[], 0, .k2Q⟩ none)
      [(.ofNow 5, .put [107] [118]), (.ofNow 5, .expire [107] 20)]).ReportsTtl (.ofNow 8)
        [107] := by
  refine (reportsTtl_iff (by decide) fun t ht => ?_).mpr (.inr ⟨20, by decide +kernel⟩)
  obtain rfl : 20 = t := Option.some.inj ht
  decide

/-- A key put without an expiry time has one of 584 million years in the Rust binding, and
`GetTtlMs` says at the time of an expiry that there is none. -/
theorem ttl_of_no_expiry :
    ((final step (new Env.bare ⟨[], 0, .k2Q⟩ none) [(.ofNow 5, .put [107] [118])]).kvTtl
        (.ofNow 8) [107]).1 = some (2 ^ 64 - 1) ∧
      ¬ (final step (new Env.bare ⟨[], 0, .k2Q⟩ none) [(.ofNow 5, .put [107] [118])]).ReportsTtl
        (.ofNow 8) [107] ∧
      ¬ (final step (new Env.bare ⟨[], 0, .k2Q⟩ none)
        [(.ofNow 5, .put [107] [118]), (.ofNow 5, .expire [107] 20)]).ReportsTtl (.ofNow 20)
          [107] := by
  refine ⟨by decide +kernel, fun h => ?_, fun h => ?_⟩
  · have hduration := (h.duration (2 ^ 64 - 1)).mp (by decide +kernel)
    obtain ⟨-, t, ht, -⟩ := hduration
    have hnone : (final step (new Env.bare ⟨[], 0, .k2Q⟩ none)
        [(.ofNow 5, .put [107] [118])]).expiry [107] = none := by decide +kernel
    exact absurd (hnone.symm.trans ht) (by simp)
  · have hremaining := h.remaining 20 (by decide +kernel) (by decide +kernel)
    exact absurd hremaining.1 (by decide)

end Engine

end AstraKV
