import AstraKV.Lib.Decimal

/-!
# AstraKV.Data.StreamData

The stream type (`StreamData` of `stream_data.cpp`): entries with IDs of the
form `ms-seq`, and the last such pair issued or accepted.

IDs are texts, compared by the pairs of numbers they parse to. An ID of `*`
asks for one made from the clock, any other is taken if it compares above the
last entry present. `Lists` is what an ID needs so that the entry just added
under it is found by the range of this one ID: no entry lies past it, or an
entry of the same ID stands before the first that does.
-/

namespace AstraKV

structure StreamEntry where
  id : Bytes
  fields : List (Bytes × Bytes)
deriving DecidableEq

structure StreamData where
  entries : List StreamEntry
  lastMs : UInt64
  lastSeq : UInt64
deriving DecidableEq

namespace StreamData

def empty : StreamData := ⟨[], 0, 0⟩

instance : Inhabited StreamData := ⟨empty⟩

/-- The text before the first `-` is not cut off: `strtoull` stops there by itself. -/
def parseId (s : Bytes) : UInt64 × UInt64 :=
  match s.idxOf? 45 with
  | none => (0, 0)
  | some dash => (Decimal.strtoull s, Decimal.strtoull (s.drop (dash + 1)))

def compareIds (a b : Bytes) : Int :=
  let p := parseId a
  let q := parseId b
  if p.1 ≠ q.1 then (if p.1 < q.1 then -1 else 1)
  else if p.2 ≠ q.2 then (if p.2 < q.2 then -1 else 1)
  else 0

/-- The pair that `auto_generate_id` moves on to at time `now`. -/
def nextPair (s : StreamData) (now : Int) : UInt64 × UInt64 :=
  let nowMs := UInt64.ofInt now
  let nowMs := if nowMs < s.lastMs then s.lastMs else nowMs
  if nowMs = s.lastMs then (s.lastMs, s.lastSeq + 1) else (nowMs, 0)

/-- `ms-seq`. -/
def formatId (p : UInt64 × UInt64) : Bytes :=
  Decimal.ofNat p.1.toNat ++ 45 :: Decimal.ofNat p.2.toNat

/-- `*`. -/
def autoId : Bytes := [42]

/-- Take an explicit ID in; one without a dash leaves the last pair as it is. -/
def accept (s : StreamData) (id : Bytes) (fields : List (Bytes × Bytes)) : StreamData :=
  match id.idxOf? 45 with
  | none => { s with entries := s.entries ++ [⟨id, fields⟩] }
  | some dash =>
      ⟨s.entries ++ [⟨id, fields⟩], Decimal.strtoull id, Decimal.strtoull (id.drop (dash + 1))⟩

/-- `XAdd`: the ID of the entry appended, or the empty string. -/
def xAdd (s : StreamData) (now : Int) (id : Bytes) (fields : List (Bytes × Bytes)) :
    Bytes × StreamData :=
  if id = autoId then
    let p := s.nextPair now
    let newId := formatId p
    (newId, ⟨s.entries ++ [⟨newId, fields⟩], p.1, p.2⟩)
  else
    match s.entries.getLast? with
    | some back =>
        if compareIds id back.id ≤ 0 then ([], s)
        else (id, s.accept id fields)
    | none => (id, s.accept id fields)

/-- Cut a result to `count` entries when `count` is positive. -/
def cut (count : Int) (entries : List StreamEntry) : List StreamEntry :=
  if 0 < count then entries.take count.toNat else entries

def xRead (s : StreamData) (startId : Bytes) (count : Int) : List StreamEntry :=
  cut count (s.entries.filter fun e => compareIds e.id startId > 0)

/-- `XRange`: stops at the first entry past `endId`. -/
def xRange (s : StreamData) (startId endId : Bytes) (count : Int) : List StreamEntry :=
  cut count ((s.entries.takeWhile fun e =>
    compareIds e.id startId < 0 ∨ compareIds e.id endId ≤ 0).filter fun e =>
      compareIds e.id startId ≥ 0)

def xLen (s : StreamData) : Nat := s.entries.length

def xDel (s : StreamData) (id : Bytes) : Bool × StreamData :=
  if s.entries.any fun e => e.id == id then
    (true, { s with entries := s.entries.eraseP fun e => e.id == id })
  else (false, s)

/-- `XTrim`: drop entries from the front until at most `maxlen` are left. -/
def xTrim (s : StreamData) (maxlen : Int) : Nat × StreamData :=
  let removed := s.entries.length - maxlen.toNat
  (removed, { s with entries := s.entries.drop removed })

def memoryUsage (s : StreamData) : Nat :=
  (s.entries.map fun e =>
    e.id.length + 16 + (e.fields.map fun f => f.1.length + f.2.length + 32).sum).sum

/-! ## the entry added -/

/-- The ID that `XAdd` gives an entry it takes in. -/
def newId (s : StreamData) (now : Int) (id : Bytes) : Bytes :=
  if id = autoId then formatId (s.nextPair now) else id

/-- A generated ID is short. -/
theorem length_formatId_lt (p : UInt64 × UInt64) : (formatId p).length < 2 ^ 32 := by
  have hbound : ∀ n : UInt64, (Decimal.ofNat n.toNat).length ≤ 19 + 1 := fun n =>
    Decimal.length_ofNat_le (lt_trans n.toNat_lt (by decide))
  have hms := hbound p.1
  have hseq := hbound p.2
  rw [formatId, List.length_append, List.length_cons]
  omega

/-- A generated ID is not the one that asks for it. -/
theorem formatId_ne_autoId (p : UInt64 × UInt64) : formatId p ≠ autoId := by
  intro h
  have hdash : (45 : UInt8) ∈ formatId p := by simp [formatId]
  rw [h] at hdash
  exact absurd hdash (by decide)

theorem newId_ne_autoId (s : StreamData) (now : Int) (id : Bytes) : s.newId now id ≠ autoId := by
  unfold newId
  split
  · exact formatId_ne_autoId _
  · assumption

/-- An ID as long as a record can hold stays so when it is issued. -/
theorem length_newId_lt_iff (s : StreamData) (now : Int) (id : Bytes) :
    (s.newId now id).length < 2 ^ 32 ↔ id.length < 2 ^ 32 := by
  unfold newId
  split
  · rename_i hauto
    exact iff_of_true (length_formatId_lt _) (by simp [hauto, autoId])
  · rfl

/-- An entry is added at the end. -/
theorem entries_accept (s : StreamData) (id : Bytes) (fields : List (Bytes × Bytes)) :
    (s.accept id fields).entries = s.entries ++ [⟨id, fields⟩] := by
  unfold accept
  cases id.idxOf? 45 <;> rfl

/-- An explicit ID is taken as it is. -/
theorem newId_of_ne {s : StreamData} {now : Int} {id : Bytes} (h : id ≠ autoId) :
    s.newId now id = id := if_neg h

/-- The ID of an entry is not empty. -/
theorem newId_ne_nil {s : StreamData} {now : Int} {id : Bytes} (h : id ≠ []) :
    s.newId now id ≠ [] := by
  unfold newId
  split
  · simp [formatId]
  · exact h

/-- An ID compares equal to itself. -/
theorem compareIds_self (a : Bytes) : compareIds a a = 0 := by simp [compareIds]

/-- No entry is past `id`, or `id` is listed all the same. -/
def Lists (s : StreamData) (id : Bytes) : Prop :=
  (∀ entry ∈ s.entries, compareIds entry.id id ≤ 0) ∨ ∃ entry ∈ s.xRange id id 0, entry.id = id

/-- An empty stream lists as any other. -/
theorem lists_empty (id : Bytes) : empty.Lists id := .inl fun _ h => nomatch h

/-- The range of one ID is searched up to the first entry past it. -/
theorem mem_xRange_self {s : StreamData} {id : Bytes} {entry : StreamEntry} :
    entry ∈ s.xRange id id 0 ↔
      entry ∈ s.entries.takeWhile (fun e => compareIds e.id id ≤ 0) ∧
        compareIds entry.id id ≥ 0 := by
  have hpred : (fun e : StreamEntry => decide (compareIds e.id id < 0 ∨ compareIds e.id id ≤ 0)) =
      fun e => decide (compareIds e.id id ≤ 0) := by
    funext e
    exact decide_eq_decide.mpr ⟨fun h => h.elim le_of_lt fun hle => hle, .inr⟩
  unfold xRange cut
  rw [if_neg (lt_irrefl 0), hpred, List.mem_filter, decide_eq_true_iff]

/-- A new last entry is found under its ID unless an entry past it stands before it. -/
theorem xRange_append {s s' : StreamData} {id : Bytes} {fields : List (Bytes × Bytes)}
    (h : s'.entries = s.entries ++ [⟨id, fields⟩]) :
    (∃ entry ∈ s'.xRange id id 0, entry.id = id) ↔ s.Lists id := by
  unfold Lists
  by_cases hall : ∀ entry ∈ s.entries, compareIds entry.id id ≤ 0
  · refine iff_of_true ⟨⟨id, fields⟩, mem_xRange_self.mpr ⟨?_, ?_⟩, rfl⟩ (.inl hall)
    · rw [h, List.takeWhile_append_of_pos (by simpa using hall)]
      simp [compareIds_self]
    · rw [compareIds_self]
  · have hsame : s'.entries.takeWhile (fun e => compareIds e.id id ≤ 0) =
        s.entries.takeWhile fun e => compareIds e.id id ≤ 0 := by
      rw [h, List.takeWhile_append, if_neg]
      intro hlength
      have heq := (List.takeWhile_sublist _).eq_of_length hlength
      exact hall fun entry hentry => by simpa using List.takeWhile_eq_self_iff.mp heq entry hentry
    simp only [mem_xRange_self, hsame, hall, false_or]

end StreamData

end AstraKV
