import AstraKV.Engine.Reply

/-!
# AstraKV.Engine.Lapse

Reads of a key whose expiry time has passed.

The operations that ask the metadata first report such a key absent.  Those
that go straight to the value do so only where there is no value, in the map
or in the record; and a load before that time replaces the metadata and with
it the expiry.

`Doomed` is the invariant up to the deadline: whatever metadata the key has
carry it. A run keeps it unless a step stores the key anew, gives it another
expiry (`Rewrites`), or loads a record, which registers the key afresh without
any expiry (excluded by `Lapses`). After the deadline every guarded read then
reports the key absent, and an unguarded one does if there is nothing left to
find.
-/

namespace AstraKV

open Slot Machine

namespace Slot

variable {E : Env} {s : Slot E} {c : Call} {t : KeyType} {d : Int}

/-- Whatever metadata there is expires at time `d`. -/
def Doomed (d : Int) (s : Slot E) : Prop := ∀ m, s.metadata = some m → m.expireTimeMs = some d

/-- Without metadata there is nothing to expire at another time. -/
theorem doomed_none (h : s.metadata = none) : s.Doomed d := by
  intro m hm
  rw [h] at hm
  contradiction

/-- Being doomed is a matter of the metadata alone. -/
theorem Doomed.of_metadata {s' : Slot E} (h : s.Doomed d) (hm : s'.metadata = s.metadata) :
    s'.Doomed d := fun m hm' => h m (hm ▸ hm')

/-- Past the deadline a doomed slot is not valid. -/
theorem Doomed.not_valid (h : s.Doomed d) (hd : 0 < d) {now : Int} (hnow : d < now) :
    s.valid now = false := by
  cases hm : s.metadata with
  | none => simp [valid, hm]
  | some m => simp [valid, hm, KeyMetadata.isExpired, h m hm, hd, hnow]

/-- A check leaves a slot doomed. -/
theorem Doomed.check (h : s.Doomed d) (now : Int) : (s.check now).Doomed d := by
  unfold Slot.check
  split
  · exact doomed_none rfl
  · exact h

theorem Doomed.touch (h : s.Doomed d) (now : Int) : (s.touch now).Doomed d := by
  intro m hm
  obtain ⟨m', hm', rfl⟩ := Option.map_eq_some_iff.mp hm
  exact h m' hm'

theorem Swept.doomed {o : Options} {disk : Bool} {s' : Slot E} (h : Swept c o disk s s')
    (hs : s.Doomed d) : s'.Doomed d := by
  cases h with
  | kept => exact hs
  | expired h => exact doomed_none rfl
  | evicted i m hlimit hm hvalid => exact doomed_none rfl

/-- Nothing is loaded. -/
theorem fetch_eq_self {dim : Nat} (h : s.value t = none → s.load c t dim = none) :
    s.fetch c t dim = s := by
  unfold fetch
  split
  · rename_i v hvalue hload
    rw [h hvalue] at hload
    contradiction
  · rfl

/-- No value is found if there is none in the map and none in the record. -/
theorem found_eq_none {dim : Nat} :
    s.found c t dim = none ↔ s.value t = none ∧ s.load c t dim = none := by
  rw [found, Option.or_eq_none_iff]

end Slot

/-! ## the condition -/

/-- The operation stores the key anew, or gives it another expiry time.  A rejected write, which
leaves a value as it was, does not. -/
def Shape.Rewrites {E : Env} (c : Call) (s : Slot E) : Shape E → Prop
  | .put _ => True
  | .edit t _ f => ∀ v, s.value t = some v → f v ≠ (false, v)
  | .expire _ => s.valid c.now = true
  | _ => False

/-- Up to time `d` a look at the value loads no record; after it, a look that does not ask the
metadata finds nothing. -/
def Shape.Lapses {E : Env} (d : Int) (c : Call) (s : Slot E) : Shape E → Prop
  | .read guarded t dim =>
      if c.now ≤ d then
        guarded = false ∨ s.valid c.now = true → s.value t = none → s.load c t dim = none
      else guarded = false → s.found c t dim = none
  | .update t dim _ =>
      if c.now ≤ d then s.value t = none → s.load c t dim = none else s.found c t dim = none
  | _ => True

/-- A look for a value changes nothing where nothing is loaded. -/
theorem Shape.Lapses.fetch_eq {E : Env} {d : Int} {c : Call} {s : Slot E} {t : KeyType} {dim : Nat}
    {f : Value E t → Bool × Value E t} (h : (Shape.update t dim f).Lapses d c s) :
    s.fetch c t dim = s := by
  unfold Shape.Lapses at h
  dsimp only at h
  split at h
  · exact fetch_eq_self h
  · exact fetch_eq_self fun _ => (found_eq_none.mp h).2

/-- An operation that neither rewrites nor loads leaves a slot doomed. -/
theorem Slot.Doomed.act {E : Env} {s : Slot E} {c : Call} {disk : Bool} {shape : Shape E} {d : Int}
    (h : s.Doomed d) (hd : 0 < d) (hkept : ¬ shape.Rewrites c s) (hlapses : shape.Lapses d c s) :
    (s.act c disk shape).Doomed d := by
  cases shape with
  | idle => exact h
  | check => exact h.check c.now
  | expire ms =>
      unfold Slot.act
      dsimp only
      rw [if_neg (show ¬ s.valid c.now = true from hkept)]
      exact h.check c.now
  | get =>
      unfold Slot.act
      dsimp only
      split
      · split
        · exact h.touch c.now
        · exact (h.of_metadata metadata_set).touch c.now
        · exact h
      · exact h.check c.now
  | put value => exact absurd trivial hkept
  | del => exact doomed_none rfl
  | jsondel => exact doomed_none rfl
  | read guarded t dim =>
      unfold Shape.Lapses at hlapses
      dsimp only at hlapses
      unfold Slot.act
      dsimp only
      split
      · exact h.check c.now
      · rename_i hvalid
        rw [Bool.and_eq_true, not_and, Bool.not_eq_true', Bool.not_eq_false] at hvalid
        have hfetch : s.fetch c t dim = s := by
          refine fetch_eq_self ?_
          split at hlapses
          · refine hlapses ?_
            cases guarded with
            | false => exact .inl rfl
            | true => exact .inr (hvalid rfl)
          · rename_i hnow
            cases guarded with
            | false => exact fun _ => (found_eq_none.mp (hlapses rfl)).2
            | true =>
                rw [h.not_valid hd (not_le.mp hnow)] at hvalid
                exact absurd (hvalid rfl) Bool.false_ne_true
        rw [hfetch]
        exact h
  | update t dim f =>
      refine h.of_metadata ?_
      unfold Slot.act
      rw [metadata_change, hlapses.fetch_eq]
  | change t f => exact h.of_metadata metadata_change
  | edit t fresh f =>
      obtain ⟨v, hv⟩ := not_forall.mp hkept
      obtain ⟨hvalue, hf⟩ := Classical.not_imp.mp hv
      refine h.of_metadata ?_
      unfold Slot.act
      dsimp only
      rw [hvalue]
      exact metadata_store

/-! ## the reads -/

/-- The reads of a key, and the listing of all byte strings. -/
def Op.Reads (k : Bytes) : Op → Prop
  | .get key | .existsKey key | .zscore key _ | .zcard key | .zrange key _ _ _ => key = k
  | .zrangebyscore key _ _ | .lpop key | .rpop key | .llen key | .hget key _ => key = k
  | .hgetall key | .hlen key | .sismember key _ | .smembers key | .scard key => key = k
  | .xread key _ _ | .xrange key _ _ _ | .xlen key | .jsonget key _ | .vecget key _ => key = k
  | .vecsearch key _ _ | .vecsize key | .astrakvHgetall key | .astrakvSmembers key => key = k
  | .astrakvHscan key | .astrakvSscan key => key = k
  | .allEntries => True
  | _ => False

/-- No value, no element, no member. -/
def Reply.Nothing : Reply → Prop
  | .bool b => b = false
  | .int n => n = 0
  | .bytes bs => bs = []
  | .bytesOption bs => bs = none
  | .score s => s = none
  | .scored range => range = some []
  | .members ms => ms = []
  | .fields fs => fs = []
  | .entries es => es = []
  | .vector vec => vec = []
  | .nearest res => res = []
  | _ => False

/-- The answer of a read says that there is no such key. -/
def ReportsAbsent (k : Bytes) : Op → Reply → Prop
  | .allEntries, .fields fs => ∀ p ∈ fs, p.1 ≠ k
  | .allEntries, _ => False
  | _, reply => reply.Nothing

namespace Engine

variable {E : Env} {e : Engine E} {c : Call} {t : KeyType} {k : Bytes} {d : Int}

/-- The step stores `k` anew, or gives it another expiry time. -/
def Rewritten (k : Bytes) (e : Engine E) (i : Call × Op) : Prop :=
  i.2.key = some k ∧ (i.2.shape E i.1).Rewrites i.1 (e.slot k)

/-- The step finds no value of `k` behind the back of the metadata. -/
def Lapses (d : Int) (k : Bytes) (e : Engine E) (i : Call × Op) : Prop :=
  (i.2.key = some k → (i.2.shape E i.1).Lapses d i.1 (e.slot k)) ∧
    (i.2 = .allEntries → d < i.1.now → e.find .kBytes k = none)

/-- After its time a look at the value finds nothing. -/
theorem Lapses.found_read {op : Op} {dim : Nat} (h : e.Lapses d k (c, op)) (hnow : d < c.now)
    (hkey : op.key = some k) (hshape : op.shape E c = .read false t dim) :
    (e.slot k).found c t dim = none := by
  have hlapses := h.1 hkey
  dsimp only at hlapses
  rw [hshape] at hlapses
  unfold Shape.Lapses at hlapses
  dsimp only at hlapses
  rw [if_neg (not_le.mpr hnow)] at hlapses
  exact hlapses rfl

/-- After the deadline a change finds no value. -/
theorem Lapses.found_update {op : Op} {dim : Nat} {f : Value E t → Bool × Value E t}
    (h : e.Lapses d k (c, op)) (hnow : d < c.now) (hkey : op.key = some k)
    (hshape : op.shape E c = .update t dim f) : (e.slot k).found c t dim = none := by
  have hlapses := h.1 hkey
  dsimp only at hlapses
  rw [hshape] at hlapses
  unfold Shape.Lapses at hlapses
  dsimp only at hlapses
  rwa [if_neg (not_le.mpr hnow)] at hlapses

/-- A read of a key past its time. -/
theorem reportsAbsent_of_doomed {op : Op} (h : (e.slot k).Doomed d) (hd : 0 < d)
    (hlapses : e.Lapses d k (c, op)) (hnow : d < c.now) (hreads : op.Reads k) :
    ReportsAbsent k op (e.step (c, op)).1 := by
  have hvalid := h.not_valid hd hnow
  cases op with
  | get key =>
      obtain rfl := hreads
      rw [step_reply rfl]
      exact if_neg (by rw [hvalid]; exact Bool.false_ne_true)
  | existsKey key =>
      obtain rfl := hreads
      rw [step_reply rfl]
      exact hvalid
  | zscore key _ | hget key _ | hgetall key | sismember key _ | smembers key | xread key _ _
  | xrange key _ _ _ | jsonget key _ | vecget key _ | vecsearch key _ _ =>
      obtain rfl := hreads
      rw [step_reply rfl]
      exact guarded_absent hvalid
  | zcard key | zrange key _ _ _ | zrangebyscore key _ _ | llen key | hlen key | scard key
  | xlen key | vecsize key | astrakvHgetall key | astrakvSmembers key | astrakvHscan key
  | astrakvSscan key =>
      obtain rfl := hreads
      rw [step_reply rfl]
      exact answer_absent (hlapses.found_read hnow rfl rfl)
  | lpop key | rpop key =>
      obtain rfl := hreads
      rw [step_reply rfl]
      exact answer_absent (hlapses.found_update hnow rfl rfl)
  | allEntries =>
      intro p hp hkey
      obtain ⟨entry, hentry, rfl⟩ := List.mem_map.mp hp
      obtain rfl : entry.1 = k := hkey
      have hfind : e.find .kBytes entry.1 = some entry.2 := Dict.mem_entries.mp hentry
      rw [hlapses.2 rfl hnow] at hfind
      contradiction
  | _ => exact hreads.elim

/-! ## runs -/

/-- The metadata of a key are those of its slot. -/
theorem lookup_metas (e : Engine E) (k : Bytes) : e.metas.lookup k = (e.slot k).metadata := rfl

/-- A key with an expiry time that is not rewritten is reported absent after it, by every read
of a run in which no look at the value goes behind the back of the metadata. -/
theorem expired_reads_absent {m : KeyMetadata} (hm : e.metas.lookup k = some m)
    (hd : m.expireTimeMs = some d) (hpos : 0 < d) {ops : List (Call × Op)}
    (hkept : Along step (fun e i => ¬ Rewritten k e i) e ops)
    (hlapses : Along step (Lapses d k) e ops) :
    Along step (fun e i => d < i.1.now → i.2.Reads k → ReportsAbsent k i.2 (e.step i).1) e ops := by
  have hdoomed : (e.slot k).Doomed d := by
    intro m' hm'
    rw [← lookup_metas, hm] at hm'
    rw [← Option.some.inj hm', hd]
  refine along_invariant (I := fun e => (e.slot k).Doomed d) ?_ ?_ hdoomed
    (along_and.mpr ⟨hkept, hlapses⟩)
  · intro e i h hQ
    refine (step_steps e i.1 i.2).keeps h (fun hkey => ?_) fun _ _ hswept => hswept.doomed
    exact h.act hpos (fun hrewrites => hQ.1 ⟨hkey, hrewrites⟩) (hQ.2.1 hkey)
  · intro e i h hQ hnow hreads
    exact reportsAbsent_of_doomed h hpos hQ.2 hnow hreads

theorem expired_reads_absent_get :
    Along step
      (fun e i => 1000 < i.1.now → i.2.Reads [107] → ReportsAbsent [107] i.2 (e.step i).1)
      (final step (new Env.bare ⟨[], 0, .k2Q⟩ none)
        [(.ofNow 5, .put [107] [118]), (.ofNow 5, .expire [107] 1000)])
      [(.ofNow 2000, .get [107])] :=
  expired_reads_absent (m := ⟨.kBytes, some 1000, 1, 0, 0⟩) (by decide +kernel) rfl (by decide)
    ⟨fun h => h.2, trivial⟩ ⟨⟨fun _ => trivial, fun h => nomatch h⟩, trivial⟩

/-- `zcard` finds the member of a set that expired a second ago. -/
theorem zcard_after_expiry :
    ((final step (new Env.bare ⟨[], 0, .k2Q⟩ none)
      [(.ofNow 5, .zadd [107] [109] ⟨0⟩), (.ofNow 5, .expire [107] 1000)]).metas.lookup
        [107]).bind KeyMetadata.expireTimeMs = some 1000 ∧
    ¬ Along step
      (fun e i => 1000 < i.1.now → i.2.Reads [107] → ReportsAbsent [107] i.2 (e.step i).1)
      (final step (new Env.bare ⟨[], 0, .k2Q⟩ none)
        [(.ofNow 5, .zadd [107] [109] ⟨0⟩), (.ofNow 5, .expire [107] 1000)])
      [(.ofNow 2000, .zcard [107])] := by
  refine ⟨by decide +kernel, fun h => ?_⟩
  have hreply : (step (final step (new Env.bare ⟨[], 0, .k2Q⟩ none)
      [(.ofNow 5, .zadd [107] [109] ⟨0⟩), (.ofNow 5, .expire [107] 1000)])
      (.ofNow 2000, .zcard [107])).1 = .int 1 := by decide +kernel
  have habsent := h.1 (by decide) rfl
  rw [hreply] at habsent
  exact absurd habsent one_ne_zero

end Engine

end AstraKV
