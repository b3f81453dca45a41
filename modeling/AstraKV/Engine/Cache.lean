import AstraKV.Data.MetadataRun
import AstraKV.Engine.Isolation

/-!
# AstraKV.Engine.Cache

Byte strings with deadlines.  Without a memory limit the engine is, at a key
used for byte strings only, a cache that keeps one value and the moment up to
which it is shown; that the metadata goes when somebody looks too late, and
everything when a cleanup comes by, cannot be told.

The specification is a single variable with a deadline and a clock (`Cached`),
with one operation for each that the engine offers on byte strings. `Caches`
relates it to the slot of the key and leaves one freedom: where the deadline
is past, the metadata may be there or gone. That is enough to follow any run
in which the clock does not go back, whatever the other operations do to other
keys.
-/

namespace AstraKV

open Slot Machine

/-- The value of a key, and the last moment at which it is there. -/
structure Cached where
  value : Bytes
  deadline : Option Int
  positive : ∀ t, deadline = some t → 0 < t

namespace Cached

def live (x : Cached) (now : Int) : Bool := x.deadline.all (now ≤ ·)

/-- No deadline is no constraint on one. -/
theorem positive_none (t : Int) (h : none = some t) : 0 < t := nomatch h

/-- A deadline from one on is positive. -/
theorem positive_some {ms : Int} (h : 0 < ms) (t : Int) (ht : some ms = some t) : 0 < t :=
  Option.some.inj ht ▸ h

def withDeadline (x : Cached) (ms : Int) : Cached :=
  if h : 0 < ms then ⟨x.value, some ms, positive_some h⟩ else ⟨x.value, none, positive_none⟩

/-- The time that is left; -1 without a deadline, and at it. -/
def remaining (x : Cached) (now : Int) : Int := (x.deadline.filter (now < ·)).elim (-1) (· - now)

/-- One operation on the key. -/
def step (x : Option Cached) (i : Call × Op) : Reply × Option Cached :=
  let seen := x.filter (·.live i.1.now)
  match i.2 with
  | .put _ value => (.bool true, some ⟨value, none, positive_none⟩)
  | .get _ => (.bytesOption (seen.map value), x)
  | .del _ => (.bool seen.isSome, none)
  | .existsKey _ => (.bool seen.isSome, x)
  | .type _ => (.type (if seen.isSome then .kBytes else .kNone), x)
  | .expire _ ms => (.bool seen.isSome, if seen.isSome then x.map (·.withDeadline ms) else x)
  | .ttl _ => (.intOption (seen.map (·.remaining i.1.now)), x)
  | _ => (.unit, x)

end Cached

/-- The operation is one of a cache. -/
def Op.ofCache : Op → Bool
  | .put _ _ | .get _ | .del _ | .existsKey _ | .type _ | .expire _ _ | .ttl _ => true
  | _ => false

namespace Slot

variable {E : Env} {s s' : Slot E} {x : Option Cached} {y : Cached} {t now : Int} {c : Call}
  {disk : Bool}

/-- The slot holds the value with its deadline. -/
structure HoldsCached (s : Slot E) (y : Cached) (m : KeyMetadata) : Prop where
  metadata : s.metadata = some m
  type : m.type = .kBytes
  expireTimeMs : m.expireTimeMs = y.deadline
  value : s.value .kBytes = some y.value

/-- What the slot holds of a cached value, if the clock has read `t`: the value with its deadline,
or no metadata where the deadline is past. -/
def Caches (t : Int) (s : Slot E) : Option Cached → Prop
  | none => s.metadata = none
  | some y => (∃ m, s.HoldsCached y m) ∨ (s.metadata = none ∧ ∃ d, y.deadline = some d ∧ d < t)

/-- What is cached at one time is cached later on. -/
theorem Caches.mono (h : s.Caches t x) (hle : t ≤ now) : s.Caches now x := by
  cases x with
  | none => exact h
  | some y =>
      obtain hholds | ⟨hnone, d, hd, hlt⟩ := h
      · exact .inl hholds
      · exact .inr ⟨hnone, d, hd, hlt.trans_le hle⟩

/-- The metadata expires when the cached value does. -/
theorem HoldsCached.isExpired {m : KeyMetadata} (h : s.HoldsCached y m) (now : Int) :
    m.isExpired now = !y.live now := by
  have hexpire := h.expireTimeMs
  rw [isExpired_of_positive (fun d hd => y.positive d (hexpire ▸ hd)), hexpire]
  rfl

/-- Without metadata the slot caches what is past. -/
theorem caches_of_past (hnone : s.metadata = none) (hpast : y.live now = false) :
    s.Caches now (some y) := by
  unfold Cached.live at hpast
  cases hd : y.deadline with
  | none =>
      rw [hd] at hpast
      contradiction
  | some d =>
      rw [hd] at hpast
      exact .inr ⟨hnone, d, hd, by simpa using hpast⟩

/-- Somebody looks: nothing is seen, or the value that is kept. -/
theorem Caches.look (h : s.Caches t x) (hle : t ≤ now) :
    (x.filter (·.live now) = none ∧ s.valid now = false) ∨
      ∃ y m, x = some y ∧ y.live now = true ∧ s.valid now = true ∧ s.HoldsCached y m := by
  cases x with
  | none =>
      have hnone : s.metadata = none := h
      exact .inl ⟨rfl, by simp [Slot.valid, hnone]⟩
  | some y =>
      obtain ⟨m, hholds⟩ | ⟨hnone, d, hd, hlt⟩ := h
      · have hvalid : s.valid now = y.live now := by
          simp [Slot.valid, hholds.metadata, hholds.isExpired]
        cases hlive : y.live now with
        | true => exact .inr ⟨y, m, rfl, hlive, hvalid.trans hlive, hholds⟩
        | false => exact .inl ⟨by simp [Option.filter_some, hlive], hvalid.trans hlive⟩
      · have hlive : y.live now = false := by
          simp [Cached.live, hd, hlt.trans_le hle]
        exact .inl ⟨by simp [Option.filter_some, hlive], by simp [Slot.valid, hnone]⟩

/-- What a look that comes too late does cannot be told. -/
theorem Caches.check (h : s.Caches t x) (hle : t ≤ now) : (s.check now).Caches now x := by
  unfold Slot.check
  split
  · rename_i hexpired
    cases x with
    | none => rfl
    | some y =>
        obtain ⟨m, hholds⟩ | ⟨hnone, -⟩ := h
        · have hpast : y.live now = false := by
            simpa [Slot.expired, hholds.metadata, hholds.isExpired] using hexpired
          exact caches_of_past rfl hpast
        · simp [Slot.expired, hnone] at hexpired
  · exact h.mono hle

/-- Nor can a cleanup. -/
theorem Swept.caches {o : Options} (h : Swept c o disk s s') (hmax : o.maxMb = 0)
    (hs : s.Caches c.now x) : s'.Caches c.now x := by
  cases h with
  | kept => exact hs
  | expired hexpired =>
      cases x with
      | none => rfl
      | some y =>
          obtain ⟨m, hholds⟩ | ⟨hnone, -⟩ := hs
          · have hpast : y.live c.now = false := by
              simpa [Slot.expired, hholds.metadata, hholds.isExpired] using hexpired
            exact caches_of_past rfl hpast
          · simp [Slot.expired, hnone] at hexpired
  | evicted i m hlimit => exact absurd hmax hlimit

/-- What is answered about the key, but by `del`, is what the cache shows. -/
theorem Caches.reply (h : s.Caches t x) (hle : t ≤ c.now) {op : Op} (hop : op.ofCache = true)
    (hdel : ∀ k, op ≠ .del k) : s.reply c op = (Cached.step x (c, op)).1 := by
  obtain ⟨hseen, hvalid⟩ | ⟨y, m, rfl, hlive, hvalid, hholds⟩ := h.look hle
  · cases op with
    | put k value => rfl
    | del k => exact absurd rfl (hdel k)
    | get k | existsKey k | type k | expire k ms | ttl k =>
        simp [Slot.reply, Cached.step, hseen, hvalid]
    | _ => contradiction
  · have hseen : (some y).filter (·.live c.now) = some y := Option.filter_some_pos hlive
    cases op with
    | put k value => rfl
    | del k => exact absurd rfl (hdel k)
    | get k => simp [Slot.reply, Cached.step, hseen, hvalid, hholds.value]
    | existsKey k | expire k ms => simp [Slot.reply, Cached.step, hseen, hvalid]
    | type k => simp [Slot.reply, Cached.step, hseen, hvalid, hholds.metadata, hholds.type]
    | ttl k =>
        simp only [Slot.reply, Cached.step, hseen, hvalid, hholds.metadata, if_true,
          Option.map_some, Cached.remaining, KeyMetadata.getTtlMs, hholds.expireTimeMs]
        cases hd : y.deadline with
        | none => rfl
        | some d =>
            have hpos := y.positive d hd
            by_cases hlt : c.now < d
            · simp [hlt, hlt.not_ge, hpos.not_ge, Option.filter_some]
            · simp [hlt, not_lt.mp hlt, Option.filter_some]
    | _ => contradiction

/-- What an operation on the key leaves of it is what it leaves of the cached value. -/
theorem Caches.act (h : s.Caches t x) (hle : t ≤ c.now) {op : Op} (hop : op.ofCache = true) :
    (s.act c disk (op.shape E c)).Caches c.now (Cached.step x (c, op)).2 := by
  cases op with
  | put k value =>
      refine .inl ⟨_, (metadata_save.trans rfl : _ = some _), rfl, rfl, ?_⟩
      have hset : (s.set .kBytes value).value .kBytes = some value := value_set_self
      exact (congrFun value_save _).trans hset
  | del k => rfl
  | existsKey k | type k | ttl k => exact h.check hle
  | get k =>
      obtain ⟨-, hvalid⟩ | ⟨y, m, rfl, -, hvalid, hholds⟩ := h.look hle
      · simpa [Op.shape, Slot.act, Cached.step, hvalid] using h.check hle
      · refine .inl ⟨m.updateAccess c.now, ?_⟩
        simp only [Op.shape, Slot.act, hvalid, if_true, hholds.value]
        exact ⟨by simp [Slot.touch, hholds.metadata], hholds.type, hholds.expireTimeMs,
          hholds.value⟩
  | expire k ms =>
      obtain ⟨hseen, hvalid⟩ | ⟨y, m, rfl, hlive, hvalid, hholds⟩ := h.look hle
      · simpa [Op.shape, Slot.act, Cached.step, hseen, hvalid] using h.check hle
      · have hseen : (some y).filter (·.live c.now) = some y := Option.filter_some_pos hlive
        simp only [Op.shape, Slot.act, Cached.step, hseen, hvalid, if_true, Option.isSome_some,
          Option.map_some]
        refine .inl ⟨m.setExpireMs ms, by simp [hholds.metadata], ?_, ?_, ?_⟩
        · unfold KeyMetadata.setExpireMs
          split <;> exact hholds.type
        · unfold KeyMetadata.setExpireMs Cached.withDeadline
          by_cases hms : 0 < ms
          · rw [if_neg hms.not_ge, dif_pos hms]
          · rw [if_pos (not_lt.mp hms), dif_neg hms]
        · unfold Cached.withDeadline
          split <;> exact hholds.value
  | _ => contradiction

end Slot

namespace Engine

variable {E : Env} {e : Engine E} {k : Bytes} {ops : List (Call × Op)}

/-- The operation is about the key, and it is no `del`. -/
def asks (k : Bytes) (i : Call × Op) : Bool :=
  about k i && i.2 ≠ .del k

/-- The clock goes on, and operations on the key are those of a cache. -/
structure Caching (k : Bytes) (t : Int) (ops : List (Call × Op)) : Prop where
  later : ∀ i ∈ ops, t ≤ i.1.now
  ordered : ops.Pairwise fun i j => i.1.now ≤ j.1.now
  ofCache : ∀ i ∈ ops, i.2.key = some k → i.2.ofCache = true

/-- The rest of such a run is one, from the time reached on. -/
theorem Caching.tail {t : Int} {i : Call × Op} (h : Caching k t (i :: ops)) :
    Caching k i.1.now ops where
  later := (List.pairwise_cons.mp h.ordered).1
  ordered := (List.pairwise_cons.mp h.ordered).2
  ofCache j hj := h.ofCache j (List.mem_cons_of_mem i hj)

/-- The engine at the key, a step about it or about another. -/
theorem caches_step (hmax : e.opts.maxMb = 0) {t : Int} {x : Option Cached}
    (h : (e.slot k).Caches t x) {i : Call × Op} (hle : t ≤ i.1.now)
    (hop : i.2.key = some k → i.2.ofCache = true) :
    ((e.step i).2.slot k).Caches i.1.now
      (if i.2.key = some k then (Cached.step x i).2 else x) := by
  obtain ⟨c, op⟩ := i
  refine ((step_steps e c op).slot k).caches hmax ?_
  split
  · rename_i hkey
    rw [acted_self hkey]
    exact h.act hle (hop hkey)
  · rename_i hkey
    rw [acted_of_ne hkey]
    exact h.mono hle

/-- **The engine is a cache with deadlines.**  Without a memory limit, and with a clock that does
not go back, what is answered about a key used for byte strings only is what a cache shows that
keeps the last value put until it is deleted, and shows it up to the deadline set last; whatever is
done to other keys, and whenever expired keys are cleaned up.  (A `del` also says whether anything
had been left of a value past its deadline.) -/
theorem cache_refines (opts : Options) (hmax : opts.maxMb = 0) (stored : Option (Dict Bytes Bytes))
    (k : Bytes) (ops : List (Call × Op)) (hclock : ops.Pairwise fun i j => i.1.now ≤ j.1.now)
    (hops : ∀ i ∈ ops, i.2.key = some k → i.2.ofCache = true) :
    outputsAt (asks k) ops (run step (new E opts stored) ops).1 =
      outputsAt (asks k) (ops.filter (about k))
        (run Cached.step none (ops.filter (about k))).1 := by
  have hstart : ∃ t, Caching k t ops := by
    cases ops with
    | nil => exact ⟨0, by simp, hclock, hops⟩
    | cons i ops =>
        refine ⟨i.1.now, fun j hj => ?_, hclock, hops⟩
        obtain rfl | hj := List.mem_cons.mp hj
        · exact le_rfl
        · exact (List.pairwise_cons.mp hclock).1 j hj
  obtain ⟨t, ht⟩ := hstart
  have hall : ∀ i, asks k i = true → about k i = true := fun i hi => (Bool.and_eq_true_iff.mp hi).1
  have hempty : ((new E opts stored).slot k).Caches t none := rfl
  refine (run_of_share (R := fun is (e : Engine E) x =>
    e.opts.maxMb = 0 ∧ ∃ t, Caching k t is ∧ (e.slot k).Caches t x) ops hall ?_ ?_
    ⟨hmax, t, ht, hempty⟩).1
  · rintro i is e x ⟨hmax, t, ht, hx⟩ hi
    have hkey : i.2.key = some k := of_decide_eq_true hi
    have hle := ht.later i List.mem_cons_self
    have hop := ht.ofCache i List.mem_cons_self
    have hnext := caches_step hmax hx hle hop
    rw [if_pos hkey] at hnext
    refine ⟨fun hasked => ?_, (step_steps e i.1 i.2).maxMb.trans hmax, i.1.now, ht.tail, hnext⟩
    have hdel : ∀ k', i.2 ≠ .del k' := by
      rintro k' hdel
      rw [hdel] at hkey
      obtain rfl := Option.some.inj hkey
      simp [asks, hdel] at hasked
    exact (step_reply hkey).trans (hx.reply hle (hop hkey) hdel)
  · rintro i is e x ⟨hmax, t, ht, hx⟩ hi
    have hkey : i.2.key ≠ some k := of_decide_eq_false hi
    have hnext := caches_step hmax hx (ht.later i List.mem_cons_self)
      (ht.ofCache i List.mem_cons_self)
    rw [if_neg hkey] at hnext
    exact ⟨(step_steps e i.1 i.2).maxMb.trans hmax, i.1.now, ht.tail, hnext⟩

/-- A deadline passes, and the key is put again. -/
theorem cache_refines_again :
    let c := Call.ofNow
    let ops := [(c 5, Op.put [1] [7]), (c 6, .expire [1] 20), (c 9, .ttl [1]), (c 15, .put [2] [8]),
      (c 30, .get [1]), (c 31, .put [1] [9]), (c 40, .get [1])]
    outputsAt (asks [1]) ops (run step (new Env.bare ⟨[47], 0, .k2Q⟩ (some ∅)) ops).1 =
      [.bool true, .bool true, .intOption (some 11), .bytesOption none, .bool true,
        .bytesOption (some [9])] := by
  intro c ops
  refine (cache_refines (E := Env.bare) ⟨[47], 0, .k2Q⟩ rfl (some ∅) [1] ops (by decide)
    (by decide)).trans ?_
  decide +kernel

end Engine

end AstraKV
