import AstraKV.Data.StreamHistory
import AstraKV.Engine.Decode

/-!
# AstraKV.Engine.StreamRecord

What a stream is read as from its record.  The entries go in through `XAdd`
again, which takes an entry only if its ID is past the one before.

So the way through a record is a run of `XAdd` on an empty stream, and an
entry whose ID does not compare above the one before it is lost without a
word, the record still counting as read. A stream comes back as it was exactly
if its entries increase; streams reached by ordinary use do, up to the slips
of `AstraKV.Data.StreamHistory`.
-/

namespace AstraKV

open Framed LittleEndian Machine

namespace StreamData

variable {s t : StreamData} {now : Int}

def FitsRecord (s : StreamData) : Prop :=
  s.entries.length < 2 ^ 32 ∧ ∀ entry ∈ s.entries, FitsEntry entry

/-- The record of the stream is read, and as the entries it was made from. -/
def RoundTrips (now : Int) (s : StreamData) : Prop :=
  ∃ s', deserializeStream now (serializeStream s) .empty = (true, s') ∧ s'.entries = s.entries

/-- One turn of the decoder. -/
def readd (now : Int) (s : StreamData) (entry : StreamEntry) : StreamData :=
  (s.xAdd now entry.id entry.fields).2

/-- A stream is read back by adding its entries again. -/
theorem deserializeStream_serialize (now : Int) (h : s.FitsRecord) :
    deserializeStream now (serializeStream s) .empty =
      (true, s.entries.foldl (readd now) .empty) :=
  lawful_streamItem.readRecord_append ⟨h.1, h.2, rfl⟩ _ _

/-- Entries that increase from what is there are all taken in. -/
theorem entries_foldl_readd {es : List StreamEntry} (hauto : ∀ e ∈ es, e.id ≠ autoId)
    (h : (t.entries ++ es).Pairwise fun e e' => compareIds e.id e'.id < 0) :
    (es.foldl (readd now) t).entries = t.entries ++ es := by
  induction es generalizing t with
  | nil => simp
  | cons e es ih =>
      obtain ⟨he, hauto⟩ := List.forall_mem_cons.mp hauto
      have haccepts : t.Accepts e.id := by
        refine .inr fun back hback => ?_
        have hlt := (List.pairwise_append.mp h).2.2 back (List.mem_of_getLast? hback) e (by simp)
        exact compareIds_pos_iff.mpr (compareIds_neg_iff.mp hlt)
      have hentries : (readd now t e).entries = t.entries ++ [e] := by
        rw [readd, xAdd_explicit he haccepts, entries_accept]
      rw [List.foldl_cons, ih hauto (by rwa [hentries, List.append_assoc]), hentries,
        List.append_assoc]
      rfl

/-- The entries that the decoder takes in increase. -/
theorem increasing_foldl_readd {es : List StreamEntry} (hauto : ∀ e ∈ es, e.id ≠ autoId)
    (ht : t.Increasing) : (es.foldl (readd now) t).Increasing := by
  induction es generalizing t with
  | nil => exact ht
  | cons e es ih =>
      obtain ⟨he, hauto⟩ := List.forall_mem_cons.mp hauto
      refine ih hauto ?_
      unfold readd
      by_cases haccepts : t.Accepts e.id
      · rw [xAdd_explicit he haccepts]
        exact (increasing_append_iff (entries_accept t e.id e.fields)).mpr
          ⟨ht, ht.lt_of_accepts he haccepts⟩
      · rwa [xAdd_refused haccepts]

/-- A stream comes back as it was exactly if its entries increase. -/
theorem roundTrips_iff (hauto : ∀ e ∈ s.entries, e.id ≠ autoId) (hfits : s.FitsRecord) :
    s.RoundTrips now ↔ s.Increasing := by
  unfold RoundTrips
  simp only [deserializeStream_serialize now hfits, Prod.mk.injEq, true_and, exists_eq_left']
  constructor
  · intro hentries
    have hincreasing : (s.entries.foldl (readd now) .empty).Increasing :=
      increasing_foldl_readd hauto .nil
    rwa [Increasing, hentries] at hincreasing
  · intro hincreasing
    exact entries_foldl_readd (t := empty) hauto hincreasing

/-- A stream made by a run in which the sequence number does not run over is read back from its
record, and so is the one after another step, exactly if it does not run over there. -/
theorem reach_round_trips {ops : List (Int × StreamOp)}
    (hops : Along step (fun s i => ¬ s.Overruns i) empty ops)
    (hfits : (final step empty ops).FitsRecord) (now : Int) :
    (final step empty ops).RoundTrips now ∧
      ∀ i, ((final step empty ops).step i).2.FitsRecord →
        (((final step empty ops).step i).2.RoundTrips now ↔
          ¬ (final step empty ops).Overruns i) := by
  have hordered : (final step empty ops).Ordered :=
    invariant_along (fun s i h hi => h.step hi) ordered_empty hops
  have hauto : ∀ e ∈ (final step empty ops).entries, e.id ≠ autoId :=
    invariant_run (I := fun s : StreamData => ∀ e ∈ s.entries, e.id ≠ autoId)
      (fun s i h => ne_autoId_step h) (by simp [empty]) ops
  refine ⟨(roundTrips_iff hauto hfits).mpr hordered.increasing, fun i hfits' => ?_⟩
  rw [roundTrips_iff (ne_autoId_step hauto) hfits', hordered.increasing_step_iff]

theorem reach_round_trips_two :
    (final step empty [(3, .xAdd [49, 45, 48] [([102], [118])]), (5, .xAdd autoId [])]).RoundTrips
      9 := by
  have hops : Along step (fun s i => ¬ s.Overruns i) empty
      [(3, .xAdd [49, 45, 48] [([102], [118])]), (5, .xAdd autoId [])] := by
    refine ⟨fun hover => ?_, fun hover => ?_, trivial⟩
    all_goals
      have hwraps := hover.2.1.1
      revert hwraps
      decide +kernel
  have hfits : (final step empty
      [(3, .xAdd [49, 45, 48] [([102], [118])]), (5, .xAdd autoId [])]).FitsRecord := by
    unfold FitsRecord FitsEntry FitsPair
    decide +kernel
  exact (reach_round_trips hops hfits 9).1

/-- The entry added last is not taken in again. -/
theorem entry_lost_in_record :
    ¬ (final step empty [(3, .xAdd [53, 45, 49, 56, 52, 52, 54, 55, 52, 52, 48, 55, 51, 55, 48, 57,
      53, 53, 49, 54, 49, 53] []), (3, .xAdd autoId [])]).RoundTrips 3 := by
  rintro ⟨s', hdecode, hentries⟩
  have hlength := congrArg (fun res => res.2.entries.length) hdecode
  rw [hentries] at hlength
  revert hlength
  decide +kernel

end StreamData

end AstraKV
