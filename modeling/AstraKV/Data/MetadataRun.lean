import AstraKV.Data.Metadata
import AstraKV.Lib.Projection

/-!
# AstraKV.Data.MetadataRun

All calls of the metadata manager in any order, against one life of a key
after the other: what a life is, and that the manager keeps one for each key
apart from all others.

A life begins with the registration that brings the key and ends with its
removal, be it by `UnregisterKey`, by `Clear`, or by somebody who looks at the
key when its deadline is past.  Until then a life that is over can still be
given another deadline.  Of the accesses a life knows the last moment, and their
number as far as the counter of one byte goes.
-/

namespace AstraKV

open Machine

/-! ## the other calls -/

namespace KeyMetadata

def resetLFUCounter (m : KeyMetadata) : KeyMetadata := { m with lfuCounter := m.lfuCounter >>> 1 }

end KeyMetadata

namespace KeyMetadataManager

variable (metas : KeyMetadataManager) (now : Int) (key : Bytes)

def setExpireSeconds (seconds : Int) : Bool × KeyMetadataManager :=
  metas.setExpireMs key (now + seconds * 1000)

def getTtlSeconds : Int :=
  let ttlMs := metas.getTtlMs now key
  if ttlMs < 0 then ttlMs else ttlMs / 1000

def getExpireTimeMs : Option Int :=
  match metas.lookup key with
  | none => none
  | some metadata => if metadata.isExpired now then none else metadata.expireTimeMs

def persist : Bool × KeyMetadataManager :=
  match metas.lookup key with
  | none => (false, metas)
  | some metadata => (true, metas.insert key { metadata with expireTimeMs := none })

def getAllKeys : List Bytes := metas.keys

def getKeyVersion : UInt64 :=
  match metas.lookup key with
  | none => 0
  | some metadata => metadata.version

def incrementKeyVersion : KeyMetadataManager :=
  match metas.lookup key with
  | none => metas
  | some metadata => metas.insert key { metadata with version := metadata.version + 1 }

def clear (_ : KeyMetadataManager) : KeyMetadataManager := ∅

/-- Every entry of a copy is written back. -/
def decayLFUCounters : KeyMetadataManager :=
  metas.entries.foldl (fun metas entry => metas.insert entry.1 entry.2.resetLFUCounter) metas

def hasTTL : Bool :=
  match metas.lookup key with
  | none => false
  | some metadata => metadata.expireTimeMs.isSome

end KeyMetadataManager

/-! ## the manager as a machine -/

/-- A call about one key. -/
inductive KeyCall where
  | registerKey (type : KeyType)
  | unregisterKey
  | isValid (now : Int)
  | getKeyType (now : Int)
  | setExpireMs (expireTimeMs : Int)
  | setExpireSeconds (now seconds : Int)
  | getTtlMs (now : Int)
  | getTtlSeconds (now : Int)
  | getExpireTimeMs (now : Int)
  | persist
  | getKeyVersion
  | incrementKeyVersion
  | updateAccessInfo (now : Int)
  | getAccessTime
  | getLFUCounter
  | hasTTL

inductive MetaCall where
  | on (key : Bytes) (call : KeyCall)
  | clear
  | decayLFUCounters

inductive MetaReply where
  | unit
  | bool (b : Bool)
  | type (type : Option KeyType)
  | int (n : Int)
  | time (t : Option Int)
  | version (v : UInt64)
  | accessTime (t : UInt32)
  | counter (n : UInt8)
deriving DecidableEq

namespace KeyMetadataManager

def on (metas : KeyMetadataManager) (key : Bytes) : KeyCall → MetaReply × KeyMetadataManager
  | .registerKey type => (.unit, metas.registerKey key type)
  | .unregisterKey => (.unit, metas.unregisterKey key)
  | .isValid now => ((metas.isValid now key).map .bool id)
  | .getKeyType now => ((metas.getKeyType now key).map .type id)
  | .setExpireMs expireTimeMs => ((metas.setExpireMs key expireTimeMs).map .bool id)
  | .setExpireSeconds now seconds => ((metas.setExpireSeconds now key seconds).map .bool id)
  | .getTtlMs now => (.int (metas.getTtlMs now key), metas)
  | .getTtlSeconds now => (.int (metas.getTtlSeconds now key), metas)
  | .getExpireTimeMs now => (.time (metas.getExpireTimeMs now key), metas)
  | .persist => ((metas.persist key).map .bool id)
  | .getKeyVersion => (.version (metas.getKeyVersion key), metas)
  | .incrementKeyVersion => (.unit, metas.incrementKeyVersion key)
  | .updateAccessInfo now => ((metas.updateAccessInfo now key).map .bool id)
  | .getAccessTime => (.accessTime (metas.getAccessTime key), metas)
  | .getLFUCounter => (.counter (metas.getLFUCounter key), metas)
  | .hasTTL => (.bool (metas.hasTTL key), metas)

def call (metas : KeyMetadataManager) : MetaCall → MetaReply × KeyMetadataManager
  | .on key call => metas.on key call
  | .clear => (.unit, metas.clear)
  | .decayLFUCounters => (.unit, metas.decayLFUCounters)

end KeyMetadataManager

/-! ## lives -/

/-- What a key is known for from the registration that brings it to its removal. -/
structure Life where
  type : KeyType
  /-- The last moment it lives. -/
  deadline : Option Int
  positive : ∀ t, deadline = some t → 0 < t
  /-- The registrations and the increments of this life. -/
  writes : Nat
  /-- The moment of the last access. -/
  accessed : Option Int
  /-- The accesses, halved at each decay, and from 256 on counted from 0 again. -/
  counter : Nat

namespace Life

def live (l : Life) (now : Int) : Bool := l.deadline.all (now ≤ ·)

def register (l : Option Life) (type : KeyType) : Life :=
  ⟨type, none, by simp, (l.map writes).getD 0 + 1, none, 0⟩

def withDeadline (l : Life) (t : Int) : Life :=
  if h : 0 < t then { l with deadline := some t, positive := by simpa using h }
  else { l with deadline := none, positive := by simp }

def write (l : Life) : Life := { l with writes := l.writes + 1 }

def access (l : Life) (now : Int) : Life :=
  { l with accessed := some now, counter := (l.counter + 1) % 256 }

def decay (l : Life) : Life := { l with counter := l.counter / 2 }

/-- The low 24 bits of the last access, 0 for none. -/
def accessTime (l : Life) : UInt32 := UInt32.ofNat (l.accessed.elim 0 (· % 2 ^ 24)).toNat

/-- -2 for a life that is over, -1 for one without a deadline or at its deadline. -/
def timeToLive (l : Option Life) (now : Int) : Int :=
  match l.filter (·.live now) with
  | none => -2
  | some l => (l.deadline.filter (now < ·)).elim (-1) (· - now)

/-- What a call about a key answers and makes of its life. -/
def on (l : Option Life) : KeyCall → MetaReply × Option Life
  | .registerKey type => (.unit, some (register l type))
  | .unregisterKey => (.unit, none)
  -- a life that is over ends when somebody looks
  | .isValid now =>
      let l := l.filter (·.live now)
      (.bool l.isSome, l)
  | .getKeyType now =>
      let l := l.filter (·.live now)
      (.type (l.map type), l)
  -- a life that is over and at which nobody has looked may go on
  | .setExpireMs t => (.bool l.isSome, l.map (·.withDeadline t))
  | .setExpireSeconds now seconds =>
      (.bool l.isSome, l.map (·.withDeadline (now + seconds * 1000)))
  | .getTtlMs now => (.int (timeToLive l now), l)
  | .getTtlSeconds now =>
      let ttlMs := timeToLive l now
      (.int (if ttlMs < 0 then ttlMs else ttlMs / 1000), l)
  | .getExpireTimeMs now => (.time ((l.filter (·.live now)).bind deadline), l)
  | .persist => (.bool l.isSome, l.map (·.withDeadline 0))
  | .getKeyVersion => (.version (UInt64.ofNat ((l.map writes).getD 0)), l)
  | .incrementKeyVersion => (.unit, l.map write)
  | .updateAccessInfo now => (.bool l.isSome, l.map (·.access now))
  | .getAccessTime => (.accessTime ((l.map accessTime).getD 0), l)
  | .getLFUCounter => (.counter (UInt8.ofNat ((l.map counter).getD 0)), l)
  | .hasTTL => (.bool (l.any (·.deadline.isSome)), l)

def call (l : Option Life) : MetaCall → MetaReply × Option Life
  | .on _ call => on l call
  | .clear => (.unit, none)
  | .decayLFUCounters => (.unit, l.map decay)

end Life

/-! ## one key -/

/-- What metadata says of a life. -/
structure Tells (m : KeyMetadata) (l : Life) : Prop where
  type : m.type = l.type
  deadline : m.expireTimeMs = l.deadline
  version : m.version = UInt64.ofNat l.writes
  accessTime : m.accessTimeMs = l.accessTime
  counter : m.lfuCounter.toNat = l.counter

/-- The metadata of a key is that of this life. -/
def Records : Option KeyMetadata → Option Life → Prop
  | none, none => True
  | some m, some l => Tells m l
  | _, _ => False

section Records

variable {metas : KeyMetadataManager} {k key : Bytes} {m : KeyMetadata} {l : Life}
  {lm : Option Life} {now t : Int}

/-- Metadata is expired when its deadline is past. -/
theorem isExpired_of_positive (hpos : ∀ t, m.expireTimeMs = some t → 0 < t) (now : Int) :
    m.isExpired now = !m.expireTimeMs.all (now ≤ ·) := by
  unfold KeyMetadata.isExpired
  cases hdeadline : m.expireTimeMs with
  | none => rfl
  | some t =>
      have hpast : decide (t < now) = !decide (now ≤ t) := by
        rw [← decide_not, decide_eq_decide, not_le]
      simp [hpos t hdeadline, hpast]

/-- A key has expired when its life is over. -/
theorem isExpired_eq (h : m.expireTimeMs = l.deadline) (now : Int) :
    m.isExpired now = !l.live now := by
  rw [isExpired_of_positive (fun t ht => l.positive t (h ▸ ht)), h]
  rfl

/-- Metadata there are tell of a life. -/
theorem records_some (h : Records (some m) lm) : ∃ l, lm = some l ∧ Tells m l := by
  cases lm with
  | none => exact h.elim
  | some l => exact ⟨l, rfl, h⟩

/-- Where there are none there is no life. -/
theorem records_none (h : Records none lm) : lm = none := by
  cases lm with
  | none => rfl
  | some l => exact h.elim

/-- To look whether the key lives is to look whether the life is over. -/
theorem records_look (h : Records (metas.lookup k) lm) (now : Int) :
    (metas.isValid now k).1 = (lm.filter (·.live now)).isSome ∧
      (metas.getKeyType now k).1 = (lm.filter (·.live now)).map Life.type ∧
      (metas.getExpireTimeMs now k) = (lm.filter (·.live now)).bind Life.deadline ∧
      Records ((metas.isValid now k).2.lookup k) (lm.filter (·.live now)) := by
  unfold KeyMetadataManager.isValid KeyMetadataManager.getKeyType
    KeyMetadataManager.getExpireTimeMs
  cases hlookup : metas.lookup k with
  | none =>
      rw [hlookup] at h
      obtain rfl := records_none h
      simp [hlookup, Records]
  | some m =>
      rw [hlookup] at h
      obtain ⟨l, rfl, htells⟩ := records_some h
      have hexpired := isExpired_eq htells.deadline now
      cases hlive : l.live now with
      | true =>
          simp [hexpired, hlive, hlookup, htells.type, htells.deadline, Option.filter_some, h]
      | false => simp [hexpired, hlive, Option.filter_some, Records]

/-- The time that is left is that of the life. -/
theorem getTtlMs_of_records (h : Records (metas.lookup k) lm) (now : Int) :
    metas.getTtlMs now k = Life.timeToLive lm now := by
  unfold KeyMetadataManager.getTtlMs Life.timeToLive
  cases hlookup : metas.lookup k with
  | none =>
      rw [hlookup] at h
      obtain rfl := records_none h
      rfl
  | some m =>
      rw [hlookup] at h
      obtain ⟨l, rfl, htells⟩ := records_some h
      have hexpired := isExpired_eq htells.deadline now
      cases hlive : l.live now with
      | false => simp [hexpired, hlive, Option.filter_some]
      | true =>
          have hfilter : (some l).filter (·.live now) = some l := Option.filter_some_pos hlive
          simp only [hexpired, hlive, hfilter, KeyMetadata.getTtlMs, htells.deadline]
          cases ht : l.deadline with
          | none => rfl
          | some t =>
              have hpos := l.positive t ht
              by_cases hlt : now < t
              · simp [hlt, hpos.not_ge, hlt.not_ge, Option.filter_some]
              · simp [hlt, not_lt.mp hlt, Option.filter_some]

/-- Metadata changed with the life, if there is any. -/
theorem records_change {f : KeyMetadata → KeyMetadata} {g : Life → Life}
    (h : Records (metas.lookup k) lm)
    (hchange : ∀ m l, Records (some m) (some l) → Records (some (f m)) (some (g l))) :
    (metas.lookup k).isSome = lm.isSome ∧ Records ((metas.lookup k).map f) (lm.map g) := by
  cases hlookup : metas.lookup k with
  | none =>
      rw [hlookup] at h
      obtain rfl := records_none h
      exact ⟨rfl, trivial⟩
  | some m =>
      rw [hlookup] at h
      obtain ⟨l, rfl, -⟩ := records_some h
      exact ⟨rfl, hchange m l h⟩

/-- A deadline that is not positive is none. -/
theorem records_withDeadline (t : Int) (m : KeyMetadata) (l : Life)
    (h : Records (some m) (some l)) :
    Records (some (m.setExpireMs t)) (some (l.withDeadline t)) := by
  unfold KeyMetadata.setExpireMs Life.withDeadline
  by_cases ht : 0 < t
  · rw [if_neg ht.not_ge, dif_pos ht]
    exact ⟨h.type, rfl, h.version, h.accessTime, h.counter⟩
  · rw [if_pos (not_lt.mp ht), dif_neg ht]
    exact ⟨h.type, rfl, h.version, h.accessTime, h.counter⟩

/-- The counter goes round before it is capped. -/
theorem records_access (now : Int) (m : KeyMetadata) (l : Life) (h : Records (some m) (some l)) :
    Records (some (m.updateAccess now)) (some (l.access now)) := by
  refine ⟨h.type, h.deadline, h.version, rfl, ?_⟩
  have hcapped : min (m.lfuCounter + 1) 255 = m.lfuCounter + 1 := by
    refine if_pos ?_
    rw [UInt8.le_iff_toNat_le]
    exact Nat.le_of_lt_succ (m.lfuCounter + 1).toNat_lt
  show (min (m.lfuCounter + 1) 255).toNat = (l.counter + 1) % 256
  rw [hcapped, UInt8.toNat_add, h.counter]
  rfl

/-- A decay halves the counter. -/
theorem records_decay (m : KeyMetadata) (l : Life) (h : Records (some m) (some l)) :
    Records (some m.resetLFUCounter) (some l.decay) := by
  refine ⟨h.type, h.deadline, h.version, h.accessTime, ?_⟩
  show (m.lfuCounter >>> 1).toNat = l.counter / 2
  rw [UInt8.toNat_shiftRight, h.counter]
  exact Nat.shiftRight_succ l.counter 0

/-! ### what the calls do to the entry -/

variable (metas k) in
/-- Setting a deadline says whether the key is there, and sets it then. -/
theorem setExpireMs_eq (t : Int) : (metas.setExpireMs k t).1 = (metas.lookup k).isSome ∧
    (metas.setExpireMs k t).2.lookup k = (metas.lookup k).map (·.setExpireMs t) := by
  unfold KeyMetadataManager.setExpireMs
  split <;> simp [*]

variable (metas k) in
/-- `Persist` says whether the key is there, and takes its deadline away then. -/
theorem persist_eq : (metas.persist k).1 = (metas.lookup k).isSome ∧
    (metas.persist k).2.lookup k = (metas.lookup k).map ({ · with expireTimeMs := none }) := by
  unfold KeyMetadataManager.persist
  split <;> simp [*]

variable (metas k) in
/-- An access says whether the key is there, and notes it then. -/
theorem updateAccessInfo_eq (now : Int) :
    (metas.updateAccessInfo now k).1 = (metas.lookup k).isSome ∧
    (metas.updateAccessInfo now k).2.lookup k = (metas.lookup k).map (·.updateAccess now) := by
  unfold KeyMetadataManager.updateAccessInfo
  split <;> simp [*]

/-- Counting a version up changes nothing else. -/
theorem lookup_incrementKeyVersion : (metas.incrementKeyVersion k).lookup k =
    (metas.lookup k).map fun m => { m with version := m.version + 1 } := by
  unfold KeyMetadataManager.incrementKeyVersion
  split <;> simp [*]

/-- Entries written back one by one. -/
theorem lookup_writeBack {f : KeyMetadata → KeyMetadata}
    {entries : List (Sigma fun _ : Bytes => KeyMetadata)} (hnodup : entries.NodupKeys) :
    AList.lookup k (entries.foldl (fun metas entry => metas.insert entry.1 (f entry.2)) metas) =
      ((entries.dlookup k).map f).or (metas.lookup k) := by
  induction entries generalizing metas with
  | nil => simp
  | cons entry entries ih =>
      obtain ⟨key, m⟩ := entry
      obtain ⟨hfresh, hrest⟩ := List.nodupKeys_cons.mp hnodup
      rw [List.foldl_cons, ih hrest, Dict.lookup_insert_ite]
      by_cases hk : k = key
      · subst hk
        rw [List.dlookup_eq_none.mpr hfresh, List.dlookup_cons_eq, if_pos rfl]
        rfl
      · rw [List.dlookup_cons_ne entries ⟨key, m⟩ hk, if_neg hk]

/-- Every counter decays. -/
theorem lookup_decayLFUCounters :
    metas.decayLFUCounters.lookup k = (metas.lookup k).map KeyMetadata.resetLFUCounter := by
  refine (lookup_writeBack metas.nodupKeys).trans ?_
  show ((metas.lookup k).map _).or (metas.lookup k) = _
  cases metas.lookup k <;> rfl

/-- A call about another key. -/
theorem lookup_on_of_ne (hk : k ≠ key) (call : KeyCall) :
    (metas.on key call).2.lookup k = metas.lookup k := by
  have hinsert : ∀ m, (metas.insert key m).lookup k = metas.lookup k :=
    fun m => AList.lookup_insert_ne hk
  have herase : (metas.erase key).lookup k = metas.lookup k := AList.lookup_erase_ne hk
  cases call with
  | registerKey type => exact hinsert _
  | unregisterKey => exact herase
  | isValid now =>
      show (metas.isValid now key).2.lookup k = _
      unfold KeyMetadataManager.isValid
      split
      · rfl
      · split
        · exact herase
        · rfl
  | getKeyType now =>
      show (metas.getKeyType now key).2.lookup k = _
      unfold KeyMetadataManager.getKeyType
      split
      · rfl
      · split
        · exact herase
        · rfl
  | setExpireMs t =>
      show (metas.setExpireMs key t).2.lookup k = _
      unfold KeyMetadataManager.setExpireMs
      split
      · rfl
      · exact hinsert _
  | setExpireSeconds now seconds =>
      show (metas.setExpireMs key (now + seconds * 1000)).2.lookup k = _
      unfold KeyMetadataManager.setExpireMs
      split
      · rfl
      · exact hinsert _
  | persist =>
      show (metas.persist key).2.lookup k = _
      unfold KeyMetadataManager.persist
      split
      · rfl
      · exact hinsert _
  | incrementKeyVersion =>
      show (metas.incrementKeyVersion key).lookup k = _
      unfold KeyMetadataManager.incrementKeyVersion
      split
      · rfl
      · exact hinsert _
  | updateAccessInfo now =>
      show (metas.updateAccessInfo now key).2.lookup k = _
      unfold KeyMetadataManager.updateAccessInfo
      split
      · rfl
      · exact hinsert _
  | _ => rfl

/-- A call about the key. -/
theorem records_on (h : Records (metas.lookup k) lm) (call : KeyCall) :
    (metas.on k call).1 = (Life.on lm call).1 ∧
      Records ((metas.on k call).2.lookup k) (Life.on lm call).2 := by
  have hsome : (metas.lookup k).isSome = lm.isSome :=
    (records_change (f := id) (g := id) h fun _ _ h => h).1
  cases call with
  | registerKey type =>
      refine ⟨rfl, ?_⟩
      show Records ((metas.registerKey k type).lookup k) (some (Life.register lm type))
      unfold KeyMetadataManager.registerKey
      rw [AList.lookup_insert]
      refine ⟨rfl, rfl, ?_, rfl, rfl⟩
      cases hlookup : metas.lookup k with
      | none =>
          rw [hlookup] at h
          obtain rfl := records_none h
          rfl
      | some m =>
          rw [hlookup] at h
          obtain ⟨l, rfl, htells⟩ := records_some h
          show m.version + 1 = UInt64.ofNat (l.writes + 1)
          rw [htells.version, UInt64.ofNat_add]
          rfl
  | unregisterKey =>
      refine ⟨rfl, ?_⟩
      show Records ((metas.erase k).lookup k) none
      rw [AList.lookup_erase]
      trivial
  | isValid now =>
      obtain ⟨hvalid, -, -, hrest⟩ := records_look h now
      exact ⟨congrArg MetaReply.bool hvalid, hrest⟩
  | getKeyType now =>
      obtain ⟨-, htype, -, hrest⟩ := records_look h now
      rw [← KeyMetadataManager.getKeyType_snd] at hrest
      exact ⟨congrArg MetaReply.type htype, hrest⟩
  | setExpireMs t =>
      obtain ⟨hfound, hlookup⟩ := setExpireMs_eq metas k t
      refine ⟨congrArg MetaReply.bool (hfound.trans hsome), ?_⟩
      show Records ((metas.setExpireMs k t).2.lookup k) _
      rw [hlookup]
      exact (records_change h fun m l => records_withDeadline t m l).2
  | setExpireSeconds now seconds =>
      obtain ⟨hfound, hlookup⟩ := setExpireMs_eq metas k (now + seconds * 1000)
      refine ⟨congrArg MetaReply.bool (hfound.trans hsome), ?_⟩
      show Records ((metas.setExpireMs k (now + seconds * 1000)).2.lookup k) _
      rw [hlookup]
      exact (records_change h fun m l => records_withDeadline (now + seconds * 1000) m l).2
  | getTtlMs now => exact ⟨congrArg MetaReply.int (getTtlMs_of_records h now), h⟩
  | getTtlSeconds now =>
      refine ⟨congrArg MetaReply.int ?_, h⟩
      unfold KeyMetadataManager.getTtlSeconds
      rw [getTtlMs_of_records h now]
  | getExpireTimeMs now =>
      obtain ⟨-, -, htime, -⟩ := records_look h now
      exact ⟨congrArg MetaReply.time htime, h⟩
  | persist =>
      obtain ⟨hfound, hlookup⟩ := persist_eq metas k
      refine ⟨congrArg MetaReply.bool (hfound.trans hsome), ?_⟩
      show Records ((metas.persist k).2.lookup k) _
      rw [hlookup]
      exact (records_change h fun m l => records_withDeadline 0 m l).2
  | getKeyVersion =>
      refine ⟨congrArg MetaReply.version ?_, h⟩
      unfold KeyMetadataManager.getKeyVersion
      cases hlookup : metas.lookup k with
      | none =>
          rw [hlookup] at h
          obtain rfl := records_none h
          rfl
      | some m =>
          rw [hlookup] at h
          obtain ⟨l, rfl, htells⟩ := records_some h
          exact htells.version
  | incrementKeyVersion =>
      refine ⟨rfl, ?_⟩
      show Records ((metas.incrementKeyVersion k).lookup k) _
      rw [lookup_incrementKeyVersion]
      refine (records_change (f := fun m => { m with version := m.version + 1 }) (g := Life.write) h
        fun m l hml => ⟨hml.type, hml.deadline, ?_, hml.accessTime, hml.counter⟩).2
      show m.version + 1 = UInt64.ofNat (l.writes + 1)
      rw [hml.version, UInt64.ofNat_add]
      rfl
  | updateAccessInfo now =>
      obtain ⟨hfound, hlookup⟩ := updateAccessInfo_eq metas k now
      refine ⟨congrArg MetaReply.bool (hfound.trans hsome), ?_⟩
      show Records ((metas.updateAccessInfo now k).2.lookup k) _
      rw [hlookup]
      exact (records_change h fun m l => records_access now m l).2
  | getAccessTime =>
      refine ⟨congrArg MetaReply.accessTime ?_, h⟩
      unfold KeyMetadataManager.getAccessTime
      cases hlookup : metas.lookup k with
      | none =>
          rw [hlookup] at h
          obtain rfl := records_none h
          rfl
      | some m =>
          rw [hlookup] at h
          obtain ⟨l, rfl, htells⟩ := records_some h
          exact htells.accessTime
  | getLFUCounter =>
      refine ⟨congrArg MetaReply.counter ?_, h⟩
      unfold KeyMetadataManager.getLFUCounter
      cases hlookup : metas.lookup k with
      | none =>
          rw [hlookup] at h
          obtain rfl := records_none h
          rfl
      | some m =>
          rw [hlookup] at h
          obtain ⟨l, rfl, htells⟩ := records_some h
          show m.lfuCounter = UInt8.ofNat l.counter
          rw [← htells.counter, UInt8.ofNat_toNat]
  | hasTTL =>
      refine ⟨congrArg MetaReply.bool ?_, h⟩
      unfold KeyMetadataManager.hasTTL
      cases hlookup : metas.lookup k with
      | none =>
          rw [hlookup] at h
          obtain rfl := records_none h
          rfl
      | some m =>
          rw [hlookup] at h
          obtain ⟨l, rfl, htells⟩ := records_some h
          exact congrArg Option.isSome htells.deadline

end Records

/-! ## the manager -/

/-- The calls that may concern a key. -/
def concerns (k : Bytes) : MetaCall → Bool
  | .on key _ => k = key
  | .clear | .decayLFUCounters => true

/-- A call about the key, or about all keys. -/
theorem records_call {metas : KeyMetadataManager} {k : Bytes} {lm : Option Life}
    (h : Records (metas.lookup k) lm) {call : MetaCall} (hcall : concerns k call = true) :
    (metas.call call).1 = (Life.call lm call).1 ∧
      Records ((metas.call call).2.lookup k) (Life.call lm call).2 := by
  cases call with
  | on key call =>
      obtain rfl : k = key := of_decide_eq_true hcall
      exact records_on h call
  | clear => exact ⟨rfl, trivial⟩
  | decayLFUCounters =>
      refine ⟨rfl, ?_⟩
      show Records (metas.decayLFUCounters.lookup k) (lm.map Life.decay)
      rw [lookup_decayLFUCounters]
      exact (records_change h fun m l => records_decay m l).2

/-- **The manager keeps one life of each key after the other.**  Whatever calls are made about
whatever keys, those that concern a key are answered as its lives tell, as if there were no other
key; and the keys there are, with their versions, are those with a life, and its registrations and
increments. -/
theorem manager_keeps_lives (k : Bytes) (calls : List MetaCall) :
    outputsAt (concerns k) calls
        (run KeyMetadataManager.call (∅ : KeyMetadataManager) calls).1 =
      (run Life.call none (calls.filter (concerns k))).1 ∧
    (k ∈ (final KeyMetadataManager.call (∅ : KeyMetadataManager) calls).getAllKeys ↔
      final Life.call none (calls.filter (concerns k)) ≠ none) ∧
    ∀ l, final Life.call none (calls.filter (concerns k)) = some l →
      (final KeyMetadataManager.call (∅ : KeyMetadataManager) calls).getKeyVersion k =
        UInt64.ofNat l.writes := by
  have hown : ∀ (metas : KeyMetadataManager) (lm : Option Life) (call : MetaCall),
      Records (metas.lookup k) lm → concerns k call = true →
      (metas.call call).1 = (Life.call lm call).1 ∧
        Records ((metas.call call).2.lookup k) (Life.call lm call).2 :=
    fun _ _ _ h hcall => records_call h hcall
  have hrest : ∀ (metas : KeyMetadataManager) (lm : Option Life) (call : MetaCall),
      Records (metas.lookup k) lm → concerns k call = false →
      Records ((metas.call call).2.lookup k) lm := by
    intro metas lm call h hcall
    cases call with
    | on key call =>
        show Records ((metas.on key call).2.lookup k) lm
        rwa [lookup_on_of_ne (of_decide_eq_false hcall)]
    | clear | decayLFUCounters => exact absurd hcall Bool.noConfusion
  have hstart : Records ((∅ : KeyMetadataManager).lookup k) none := trivial
  obtain ⟨hout, hfinal⟩ := run_of_part hown hrest hstart calls
  generalize final KeyMetadataManager.call (∅ : KeyMetadataManager) calls = metas at hfinal
  generalize final Life.call none (calls.filter (concerns k)) = lm at hfinal
  refine ⟨hout, ?_, fun l hl => ?_⟩
  · show k ∈ AList.keys metas ↔ _
    rw [← AList.mem_keys, ← AList.lookup_isSome]
    cases hlookup : metas.lookup k with
    | none =>
        rw [hlookup] at hfinal
        simp [records_none hfinal]
    | some m =>
        rw [hlookup] at hfinal
        obtain ⟨l, rfl, -⟩ := records_some hfinal
        simp
  · subst hl
    have hreply := (records_on hfinal .getKeyVersion).1
    exact MetaReply.version.inj hreply

/-- A life that is over goes on if its deadline is moved before anybody looks. -/
example : (run KeyMetadataManager.call (∅ : KeyMetadataManager) [.on [1] (.registerKey .kBytes),
    .on [1] (.setExpireMs 5), .on [1] (.getTtlMs 9), .on [1] (.setExpireMs 50),
    .on [1] (.isValid 9)]).1 = [.unit, .bool true, .int (-2), .bool true, .bool true] := by
  decide

end AstraKV
