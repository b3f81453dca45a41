import AstraKV.Data.StreamHistory
import AstraKV.Engine.Reply

/-!
# AstraKV.Engine.StreamAdd

The answer of `xadd` against what it does.  An ID is the sign of an entry
appended and saved, the empty string the sign that there is none; but the
empty string is itself taken in as the ID of a first entry.

What `xadd` returns is all the caller learns, so the question is whether the
empty string can be trusted. Apart from the ID that is itself empty it can:
the ID of an entry is never empty, and an entry that was refused changes
neither the stream nor its record. Whether the write to RocksDB succeeds is
not reported at all.
-/

namespace AstraKV

namespace StreamData

variable {s : StreamData} {now : Int} {id : Bytes}

/-- The ID of an entry is empty only if it was given so. -/
theorem newId_eq_nil_iff : s.newId now id = [] ↔ id = [] := by
  constructor
  · intro h
    by_contra hid
    exact newId_ne_nil hid h
  · rintro rfl
    exact newId_of_ne (by decide)

/-- No ID is past another by being empty. -/
theorem accepts_nil_iff : s.Accepts [] ↔ s.entries = [] := by
  have hnil : ∀ id : Bytes, compareIds [] id ≤ 0 := by
    intro id
    rw [compareIds_nonpos_iff]
    exact bot_le
  constructor
  · intro h
    have hback := h.resolve_left (by decide)
    by_contra hne
    obtain ⟨back, hlast⟩ := Option.ne_none_iff_exists'.mp (mt List.getLast?_eq_none_iff.mp hne)
    exact absurd (hback back hlast) (not_lt.mpr (hnil back.id))
  · intro h
    refine .inr fun back hback => ?_
    simp [h] at hback

end StreamData

open Slot

/-- The stream that `xadd` adds to. -/
def Slot.stream {E : Env} (s : Slot E) : StreamData := s.edited .kStream .empty

namespace Engine

variable {E : Env} {e : Engine E} {c : Call} {k id : Bytes} {fields : List (Bytes × Bytes)}

/-- `xadd` answers the empty string if and only if it leaves the entries and the record as they are;
and what it appends has the ID that it answers, and is saved.  The pass comes after that. -/
structure ReportsAdd (e : Engine E) (c : Call) (k id : Bytes) (fields : List (Bytes × Bytes)) :
    Prop where
  refused : (e.xadd c k id fields).1 = [] ↔
    (e.acted c (.xadd k id fields) k).stream.entries = (e.slot k).stream.entries ∧
      (e.acted c (.xadd k id fields) k).record = (e.slot k).record
  appended :
    (e.acted c (.xadd k id fields) k).stream.entries ≠ (e.slot k).stream.entries →
      (e.xadd c k id fields).1 ≠ [] ∧
        (e.acted c (.xadd k id fields) k).stream.entries =
          (e.slot k).stream.entries ++ [⟨(e.xadd c k id fields).1, fields⟩] ∧
        (e.acted c (.xadd k id fields) k).record =
          if e.disk && c.putOk 0 then
            some (serializeStream (e.acted c (.xadd k id fields) k).stream)
          else (e.slot k).record
  pass : Swept c e.opts e.disk (e.acted c (.xadd k id fields) k)
    ((e.xadd c k id fields).2.slot k)

theorem xadd_fst (e : Engine E) (c : Call) (k id : Bytes) (fields : List (Bytes × Bytes)) :
    (e.xadd c k id fields).1 = ((e.slot k).stream.xAdd c.now id fields).1 := edit_fst _ _ _ _

/-- The stream after `xadd`. -/
theorem stream_acted_xadd (e : Engine E) (c : Call) (k id : Bytes)
    (fields : List (Bytes × Bytes)) :
    (e.acted c (.xadd k id fields) k).stream =
      ((e.slot k).stream.xAdd c.now id fields).2 := by
  rw [acted_self rfl, Slot.stream, edited]
  refine (congrArg (Option.getD · _) (value_edit (t := .kStream))).trans ?_
  rfl

/-- The record after `xadd`. -/
theorem record_acted_xadd (e : Engine E) (c : Call) (k id : Bytes)
    (fields : List (Bytes × Bytes)) :
    (e.acted c (.xadd k id fields) k).record =
      if decide ((e.xadd c k id fields).1 ≠ []) && e.disk && c.putOk 0 then
        some (serializeStream (e.acted c (.xadd k id fields) k).stream)
      else (e.slot k).record := by
  rw [stream_acted_xadd, xadd_fst, acted_self rfl]
  exact record_edit (t := .kStream)

/-- An entry that is taken in is reported if its ID is. -/
theorem reportsAdd_of_accepts (haccepts : (e.slot k).stream.Accepts id) :
    e.ReportsAdd c k id fields ↔ id ≠ [] := by
  obtain ⟨hissued, hentries⟩ : ((e.slot k).stream.xAdd c.now id fields).1 = _ ∧
      ((e.slot k).stream.xAdd c.now id fields).2.entries = _ :=
    StreamData.xAdd_of_accepts haccepts
  rw [← xadd_fst] at hissued
  rw [← stream_acted_xadd, ← hissued] at hentries
  have hrecord := record_acted_xadd e c k id fields
  have hempty : (e.xadd c k id fields).1 = [] ↔ id = [] := by
    rw [hissued, StreamData.newId_eq_nil_iff]
  have hchanged : (e.acted c (.xadd k id fields) k).stream.entries ≠
      (e.slot k).stream.entries := by simp [hentries]
  constructor
  · intro h hid
    exact hchanged (h.refused.mp (hempty.mpr hid)).1
  · intro hid
    have hne : (e.xadd c k id fields).1 ≠ [] := mt hempty.mp hid
    refine ⟨iff_of_false hne fun h => hchanged h.1, fun _ => ⟨hne, hentries, ?_⟩, ?_⟩
    · simpa [hne] using hrecord
    · exact (step_steps e c (.xadd k id fields)).slot k

/-- An entry that is refused leaves everything as it was. -/
theorem reportsAdd_of_not_accepts (hrefused : ¬ (e.slot k).stream.Accepts id) :
    e.ReportsAdd c k id fields := by
  have hxadd : (e.slot k).stream.xAdd c.now id fields = ([], (e.slot k).stream) :=
    StreamData.xAdd_refused hrefused
  have hfst : (e.xadd c k id fields).1 = [] := by rw [xadd_fst, hxadd]
  have hstream : (e.acted c (.xadd k id fields) k).stream = (e.slot k).stream := by
    rw [stream_acted_xadd, hxadd]
  have hrecord : (e.acted c (.xadd k id fields) k).record = (e.slot k).record := by
    rw [record_acted_xadd, hfst]
    rfl
  refine ⟨iff_of_true hfst ⟨by rw [hstream], hrecord⟩, fun hchanged => ?_, ?_⟩
  · exact absurd (by rw [hstream]) hchanged
  · exact (step_steps e c (.xadd k id fields)).slot k

/-- The answer is right if and only if it is not an empty ID for a first entry. -/
theorem reportsAdd_iff (e : Engine E) (c : Call) (k id : Bytes) (fields : List (Bytes × Bytes)) :
    e.ReportsAdd c k id fields ↔ id ≠ [] ∨ (e.slot k).stream.entries ≠ [] := by
  by_cases haccepts : (e.slot k).stream.Accepts id
  · have hempty : id = [] → (e.slot k).stream.entries = [] := by
      rintro rfl
      exact StreamData.accepts_nil_iff.mp haccepts
    rw [reportsAdd_of_accepts haccepts]
    exact ⟨.inl, fun h hid => h.elim (absurd hid) (absurd (hempty hid))⟩
  · refine iff_of_true (reportsAdd_of_not_accepts haccepts) ?_
    by_contra hnot
    obtain ⟨hid, hentries⟩ := not_or.mp hnot
    obtain rfl := not_not.mp hid
    exact haccepts (StreamData.accepts_nil_iff.mpr (not_not.mp hentries))

/-- The first entry of a stream is appended under the empty ID, and the answer is that it is not. -/
theorem xadd_nil_unreported :
    ((new Env.bare ⟨[], 0, .k2Q⟩ none).xadd (.ofNow 5) [107] [] [([102], [118])]).1 = [] ∧
      ((new Env.bare ⟨[], 0, .k2Q⟩ none).xadd (.ofNow 5) [107] [] [([102], [118])]).2.find
        .kStream [107] = some ⟨[⟨[], [([102], [118])]⟩], 0, 0⟩ ∧
      ¬ (new Env.bare ⟨[], 0, .k2Q⟩ none).ReportsAdd (.ofNow 5) [107] [] [([102], [118])] := by
  refine ⟨by decide +kernel, by decide +kernel, fun h => ?_⟩
  exact absurd (h.refused.mp (by decide +kernel)).1 (by decide +kernel)

end Engine

end AstraKV
