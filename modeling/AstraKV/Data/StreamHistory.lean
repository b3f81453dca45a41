import AstraKV.Data.StreamOrder
import AstraKV.Lib.ListEdit
import AstraKV.Lib.Machine

/-!
# AstraKV.Data.StreamHistory

The IDs that a stream issues over a run of `XAdd`, `XDel` and `XTrim`.

`last_ms_` and `last_seq_` hold the pair issued last, whatever has been
deleted since.  The IDs made from the clock go by them, but an explicit ID is
compared with the last entry present, and the sequence number is counted in
64 bits.

There are two ways for an ID not to be above all issued before. The sequence
number wraps to zero when the clock has not moved past the last millisecond
(`Wraps`), and an explicit ID is let in below one that has been deleted, or
below one issued when nothing is left to compare with. `Slips` is a step of
either kind relative to the log of IDs; a run without one issues increasing
IDs, and a step that is one breaks the order at once.
-/

namespace AstraKV

open Machine

inductive StreamOp where
  | xAdd (id : Bytes) (fields : List (Bytes × Bytes))
  | xDel (id : Bytes)
  | xTrim (maxlen : Int)

namespace StreamData

variable {s s' : StreamData} {now : Int} {id : Bytes} {fields : List (Bytes × Bytes)}

/-- `XAdd` takes the ID in. -/
def Accepts (s : StreamData) (id : Bytes) : Prop :=
  id = autoId ∨ ∀ back ∈ s.entries.getLast?, 0 < compareIds id back.id

instance (s : StreamData) (id : Bytes) : Decidable (s.Accepts id) :=
  inferInstanceAs (Decidable (_ ∨ _))

/-- An operation at a time, and the ID of the entry that it appends, if it appends one. -/
def step (s : StreamData) (i : Int × StreamOp) : Option Bytes × StreamData :=
  match i.2 with
  | .xAdd id fields =>
      (if s.Accepts id then some (s.newId i.1 id) else none, (s.xAdd i.1 id fields).2)
  | .xDel id => (none, (s.xDel id).2)
  | .xTrim maxlen => (none, (s.xTrim maxlen).2)

/-! ## the pair issued last -/

def lastKey (s : StreamData) : ℕ ×ₗ ℕ := pairKey (s.lastMs, s.lastSeq)

/-- The hyphen of a generated ID. -/
theorem idxOf?_formatId (p : UInt64 × UInt64) :
    (formatId p).idxOf? 45 = some (Decimal.ofNat p.1.toNat).length := by
  refine ListEdit.idxOf?_append_cons fun hdash => ?_
  exact absurd (Decimal.isDigit_of_mem_ofNat hdash) (by decide)

/-- An ID made from a pair is read as that pair. -/
theorem parseId_formatId (p : UInt64 × UInt64) : parseId (formatId p) = p := by
  have hms : Decimal.strtoull (formatId p) = p.1 := by
    rw [formatId, Decimal.strtoull_ofNat p.1.toNat_lt rfl, UInt64.ofNat_toNat]
  have hseq : Decimal.strtoull ((formatId p).drop ((Decimal.ofNat p.1.toNat).length + 1)) =
      p.2 := by
    have hdrop : (formatId p).drop ((Decimal.ofNat p.1.toNat).length + 1) =
        Decimal.ofNat p.2.toNat ++ [] := by simp [formatId]
    rw [hdrop, Decimal.strtoull_ofNat p.2.toNat_lt rfl, UInt64.ofNat_toNat]
  rw [parseId, idxOf?_formatId]
  exact Prod.ext hms hseq

/-- A generated ID parses to the pair it was made from. -/
theorem idKey_formatId (p : UInt64 × UInt64) : idKey (formatId p) = pairKey p := by
  rw [idKey, parseId_formatId]

/-- Parsing an ID with a hyphen. -/
theorem parseId_of_dash {dash : Nat} (h : id.idxOf? 45 = some dash) :
    parseId id = (Decimal.strtoull id, Decimal.strtoull (id.drop (dash + 1))) := by
  rw [parseId, h]

/-- An ID taken in becomes the last pair; one without a dash counts for the least pair. -/
theorem lastKey_accept :
    (s.accept id fields).lastKey = idKey id ∨
      idKey id = ⊥ ∧ (s.accept id fields).lastKey = s.lastKey := by
  unfold accept
  cases hdash : id.idxOf? 45 with
  | none => exact .inr ⟨by simp [idKey, parseId, hdash, pairKey]; rfl, rfl⟩
  | some dash => exact .inl (by rw [idKey, parseId_of_dash hdash]; rfl)

/-- What an operation does: an entry goes to the end and its ID is the last pair, or entries go. -/
inductive Moves (s s' : StreamData) : Option Bytes → Prop where
  | issue (id : Bytes) (fields : List (Bytes × Bytes)) (hauto : id ≠ autoId)
      (hentries : s'.entries = s.entries ++ [⟨id, fields⟩])
      (hlast : s'.lastKey = idKey id ∨ idKey id = ⊥ ∧ s'.lastKey = s.lastKey) : Moves s s' (some id)
  | drop (hentries : s'.entries.Sublist s.entries) (hlast : s'.lastKey = s.lastKey) :
      Moves s s' none

/-- What `XAdd` does with an ID made from the clock. -/
theorem xAdd_auto : s.xAdd now autoId fields = (formatId (s.nextPair now),
    ⟨s.entries ++ [⟨formatId (s.nextPair now), fields⟩], (s.nextPair now).1,
      (s.nextPair now).2⟩) := by
  simp [xAdd]

/-- What it does with an explicit ID that is accepted. -/
theorem xAdd_explicit (hauto : id ≠ autoId) (h : s.Accepts id) :
    s.xAdd now id fields = (id, s.accept id fields) := by
  have hback := h.resolve_left hauto
  unfold xAdd
  rw [if_neg hauto]
  cases hlast : s.entries.getLast? with
  | none => rfl
  | some back => simp [not_le.mpr (hback back hlast)]

/-- What it does with one that is not: nothing. -/
theorem xAdd_refused (h : ¬ s.Accepts id) : s.xAdd now id fields = ([], s) := by
  obtain ⟨hauto, hback⟩ := not_or.mp h
  obtain ⟨back, hlast, hle⟩ : ∃ back, s.entries.getLast? = some back ∧
      compareIds id back.id ≤ 0 := by
    simpa using hback
  simp [xAdd, hauto, hlast, hle]

/-- What is taken in goes to the end. -/
theorem xAdd_of_accepts (h : s.Accepts id) :
    (s.xAdd now id fields).1 = s.newId now id ∧
      (s.xAdd now id fields).2.entries = s.entries ++ [⟨s.newId now id, fields⟩] := by
  by_cases hauto : id = autoId
  · subst hauto
    simp [xAdd_auto, newId]
  · rw [xAdd_explicit hauto h, newId_of_ne hauto]
    exact ⟨rfl, entries_accept s id fields⟩

/-- An answer says that the entry was taken in. -/
theorem xAdd_accepted (h : (s.xAdd now id fields).1 ≠ []) :
    (s.xAdd now id fields).1 = s.newId now id ∧
      (s.xAdd now id fields).2.entries = s.entries ++ [⟨s.newId now id, fields⟩] := by
  refine xAdd_of_accepts ?_
  by_contra hrefused
  simp [xAdd_refused hrefused] at h

/-- The first entry of a stream. -/
theorem xAdd_empty (now : Int) (id : Bytes) (fields : List (Bytes × Bytes)) :
    (empty.xAdd now id fields).1 = empty.newId now id ∧
      (empty.xAdd now id fields).2.entries = [⟨empty.newId now id, fields⟩] :=
  xAdd_of_accepts (.inr (by simp [empty]))

/-- Every step issues an ID at the end, or only takes entries away. -/
theorem step_moves (s : StreamData) (i : Int × StreamOp) : Moves s (s.step i).2 (s.step i).1 := by
  obtain ⟨now, op⟩ := i
  cases op with
  | xAdd id fields =>
      unfold step
      dsimp only
      by_cases h : s.Accepts id
      · rw [if_pos h]
        by_cases hauto : id = autoId
        · subst hauto
          rw [xAdd_auto]
          have hkey : idKey (s.newId now autoId) = pairKey (s.nextPair now) := by
            simp [newId, idKey_formatId]
          exact .issue _ fields (newId_ne_autoId s now autoId) (by simp [newId])
            (.inl hkey.symm)
        · rw [xAdd_explicit hauto h, newId_of_ne hauto]
          exact .issue id fields hauto (entries_accept s id fields) lastKey_accept
      · rw [if_neg h, xAdd_refused h]
        exact .drop (.refl _) rfl
  | xDel id =>
      unfold step xDel
      dsimp only
      split
      · exact .drop List.eraseP_sublist rfl
      · exact .drop (.refl _) rfl
  | xTrim maxlen => exact .drop (List.drop_sublist _ _) rfl

/-! ## IDs made from the clock -/

/-- The clock is not past the last pair, and its sequence number is the largest there is. -/
def Wraps (s : StreamData) (now : Int) : Prop :=
  s.lastSeq = UInt64.ofNat (2 ^ 64 - 1) ∧ UInt64.ofInt now ≤ s.lastMs

/-- When the sequence number wraps, the next pair is the lowest of its millisecond. -/
theorem nextPair_of_wraps (h : s.Wraps now) : s.nextPair now = (s.lastMs, 0) := by
  obtain ⟨hseq, hnow⟩ := h
  unfold nextPair
  rw [hseq]
  by_cases hlt : UInt64.ofInt now < s.lastMs
  · simp [hlt]
  · have heq : UInt64.ofInt now = s.lastMs := UInt64.le_antisymm hnow (UInt64.not_lt.mp hlt)
    simp [heq]

/-- Where the number does not wrap the next pair is above the last. -/
theorem lastKey_lt_nextPair (h : ¬ s.Wraps now) : s.lastKey < pairKey (s.nextPair now) := by
  rw [lastKey, pairKey, pairKey, Prod.Lex.toLex_lt_toLex]
  unfold Wraps at h
  unfold nextPair
  simp only [UInt64.lt_iff_toNat_lt, UInt64.le_iff_toNat_le, ← UInt64.toNat_inj] at *
  have hmax := s.lastSeq.toNat_lt
  have hadd := UInt64.toNat_add s.lastSeq 1
  grind

/-- The entries increase, up to the last pair at most. -/
structure Ordered (s : StreamData) : Prop where
  increasing : s.Increasing
  le_last : ∀ e ∈ s.entries, idKey e.id ≤ s.lastKey

/-- An empty stream is ordered. -/
theorem ordered_empty : empty.Ordered := ⟨.nil, fun _ h => nomatch h⟩

/-- In an increasing stream the last entry is the greatest. -/
theorem Increasing.le_back (h : s.Increasing) {back : StreamEntry}
    (hback : s.entries.getLast? = some back) : ∀ e ∈ s.entries, idKey e.id ≤ idKey back.id := by
  obtain ⟨front, hfront⟩ := List.getLast?_eq_some_iff.mp hback
  rw [Increasing, hfront, List.pairwise_append] at h
  intro e he
  rw [hfront] at he
  obtain he | he := List.mem_append.mp he
  · exact (compareIds_neg_iff.mp (h.2.2 e he back (by simp))).le
  · rw [List.mem_singleton.mp he]

/-- A stream with an entry has a last one. -/
theorem exists_back {e : StreamEntry} (he : e ∈ s.entries) :
    ∃ back, s.entries.getLast? = some back := by
  cases hback : s.entries.getLast? with
  | none => simp [List.getLast?_eq_none_iff.mp hback] at he
  | some back => exact ⟨back, rfl⟩

/-- The last entry speaks for all. -/
theorem Increasing.lt_of_accepts (h : s.Increasing) (hauto : id ≠ autoId)
    (haccepts : s.Accepts id) :
    ∀ e ∈ s.entries, idKey e.id < idKey id := by
  intro e he
  obtain ⟨back, hback⟩ := exists_back he
  have hlt := haccepts.resolve_left hauto back hback
  exact lt_of_le_of_lt (h.le_back hback e he) (compareIds_pos_iff.mp hlt)

/-- Another entry keeps it increasing if it is above all. -/
theorem increasing_append_iff (hentries : s'.entries = s.entries ++ [⟨id, fields⟩]) :
    s'.Increasing ↔ s.Increasing ∧ ∀ e ∈ s.entries, idKey e.id < idKey id := by
  simp [increasing_iff, hentries, List.pairwise_append]

/-- A move that issues above all entries keeps the order. -/
theorem Ordered.moves {issued : Option Bytes} (h : s.Ordered) (hmoves : Moves s s' issued)
    (hnew : ∀ id ∈ issued, ∀ e ∈ s.entries, idKey e.id < idKey id) : s'.Ordered := by
  cases hmoves with
  | drop hentries hlast =>
      constructor
      · exact h.increasing.sublist hentries
      · rw [hlast]
        exact fun e he => h.le_last e (hentries.subset he)
  | issue id fields hauto hentries hlast =>
      have hlt := hnew id rfl
      constructor
      · exact (increasing_append_iff hentries).mpr ⟨h.increasing, hlt⟩
      · rw [hentries]
        intro e he
        obtain ⟨hbot, hsame⟩ | hlast := hlast.symm
        · -- nothing is below an ID without a dash, so there was no entry
          obtain he | he := List.mem_append.mp he
          · exact absurd (hlt e he) (by simp [hbot])
          · rw [List.mem_singleton.mp he, hbot]
            exact bot_le
        · rw [hlast]
          obtain he | he := List.mem_append.mp he
          · exact (hlt e he).le
          · rw [List.mem_singleton.mp he]

/-- The sequence number runs over while there is an entry of the same millisecond. -/
def Overruns (s : StreamData) (i : Int × StreamOp) : Prop :=
  (∃ fields, i.2 = .xAdd autoId fields) ∧ s.Wraps i.1 ∧
    ∃ back ∈ s.entries.getLast?, (parseId back.id).1 = s.lastMs

/-- A pair is below the first of a millisecond if its own is earlier. -/
theorem pairKey_lt_zero_iff {p : UInt64 × UInt64} {ms : UInt64} :
    pairKey p < pairKey (ms, 0) ↔ p.1 < ms := by
  simp [pairKey, Prod.Lex.toLex_lt_toLex, UInt64.lt_iff_toNat_lt]

/-- Pairs in order have their milliseconds in order. -/
theorem fst_le_of_pairKey_le {p q : UInt64 × UInt64} (h : pairKey p ≤ pairKey q) : p.1 ≤ q.1 := by
  rw [pairKey, pairKey, Prod.Lex.toLex_le_toLex] at h
  rw [UInt64.le_iff_toNat_le]
  omega

/-- The next pair is above all entries unless it wraps onto one. -/
theorem Ordered.lt_nextPair_iff (h : s.Ordered) (now : Int) :
    (∀ e ∈ s.entries, idKey e.id < pairKey (s.nextPair now)) ↔
      ¬ (s.Wraps now ∧ ∃ back ∈ s.entries.getLast?, (parseId back.id).1 = s.lastMs) := by
  by_cases hwraps : s.Wraps now
  · rw [nextPair_of_wraps hwraps]
    constructor
    · rintro hlt ⟨-, back, hback, heq⟩
      have hms := pairKey_lt_zero_iff.mp (hlt back (List.mem_of_getLast? hback))
      rw [heq] at hms
      exact UInt64.lt_irrefl _ hms
    · intro hne e he
      obtain ⟨back, hback⟩ := exists_back he
      have hle := fst_le_of_pairKey_le (h.le_last back (List.mem_of_getLast? hback))
      have hms : (parseId back.id).1 < s.lastMs :=
        UInt64.lt_of_le_of_ne hle fun heq => hne ⟨hwraps, back, hback, heq⟩
      exact lt_of_le_of_lt (h.increasing.le_back hback e he) (pairKey_lt_zero_iff.mpr hms)
  · refine iff_of_true (fun e he => ?_) fun hover => hwraps hover.1
    exact lt_of_le_of_lt (h.le_last e he) (lastKey_lt_nextPair hwraps)

/-- An ID made from the clock is past the entries unless the sequence number runs over. -/
theorem Ordered.auto_iff (h : s.Ordered) (now : Int) (fields : List (Bytes × Bytes)) :
    (∀ e ∈ s.entries, 0 < compareIds (s.xAdd now autoId fields).1 e.id) ↔
      ¬ s.Overruns (now, .xAdd autoId fields) := by
  rw [xAdd_auto]
  simp only [compareIds_pos_iff, idKey_formatId, h.lt_nextPair_iff now, Overruns]
  simp

/-- A step that does not overrun keeps the order. -/
theorem Ordered.step {i : Int × StreamOp} (h : s.Ordered) (hi : ¬ s.Overruns i) :
    (s.step i).2.Ordered := by
  refine h.moves (step_moves s i) fun id hid => ?_
  obtain ⟨now, op⟩ := i
  cases op with
  | xAdd id' fields =>
      simp only [StreamData.step] at hid
      split at hid
      · rename_i haccepts
        obtain rfl := Option.some.inj hid
        by_cases hauto : id' = autoId
        · subst hauto
          have hlt := (h.auto_iff now fields).mpr hi
          simpa only [xAdd_auto, compareIds_pos_iff, newId, if_true] using hlt
        · rw [newId_of_ne hauto]
          exact h.increasing.lt_of_accepts hauto haccepts
      · contradiction
  | xDel id => contradiction
  | xTrim maxlen => contradiction

/-- The entries go on increasing exactly as long as the sequence number does not run over. -/
theorem Ordered.increasing_step_iff {i : Int × StreamOp} (h : s.Ordered) :
    (s.step i).2.Increasing ↔ ¬ s.Overruns i := by
  refine ⟨fun hincreasing hover => ?_, fun hi => (h.step hi).increasing⟩
  obtain ⟨now, op⟩ := i
  obtain ⟨fields, hop⟩ := hover.1
  dsimp only at hop
  subst hop
  have hentries : (s.step (now, .xAdd autoId fields)).2.entries =
      s.entries ++ [⟨formatId (s.nextPair now), fields⟩] := by
    show (s.xAdd now autoId fields).2.entries = _
    rw [xAdd_auto]
  refine (h.auto_iff now fields).mp ?_ hover
  rw [xAdd_auto]
  simpa only [compareIds_pos_iff] using ((increasing_append_iff hentries).mp hincreasing).2

/-- No entry's ID is the one that asks for one. -/
theorem ne_autoId_step {i : Int × StreamOp} (h : ∀ e ∈ s.entries, e.id ≠ autoId) :
    ∀ e ∈ (s.step i).2.entries, e.id ≠ autoId := by
  have hmoves := step_moves s i
  generalize (s.step i).1 = out at *
  generalize (s.step i).2 = s' at *
  cases hmoves with
  | drop hentries hlast => exact fun e he => h e (hentries.subset he)
  | issue id fields hauto hentries hlast =>
      rw [hentries]
      intro e he
      obtain he | he := List.mem_append.mp he
      · exact h e he
      · rwa [List.mem_singleton.mp he]

/-- Along a run each ID made from the clock is past the entries present, so that they increase,
exactly as long as the sequence number does not run over while there is an entry of its
millisecond. -/
theorem auto_ids_greater_iff (ops : List (Int × StreamOp)) :
    Along step (fun s i => (∀ fields, i.2 = .xAdd autoId fields →
        ∀ e ∈ s.entries, 0 < compareIds (s.xAdd i.1 autoId fields).1 e.id) ∧
      (s.step i).2.Increasing) empty ops ↔
    Along step (fun s i => ¬ s.Overruns i) empty ops := by
  refine along_congr (I := Ordered) (fun s i h hi => h.step hi) (fun s i h => ?_) ordered_empty
  obtain ⟨now, op⟩ := i
  constructor
  · rintro ⟨hgreater, -⟩ hover
    obtain ⟨fields, hop⟩ := hover.1
    dsimp only at hop
    subst hop
    exact (h.auto_iff now fields).mp (hgreater fields rfl) hover
  · intro hi
    refine ⟨fun fields hop => ?_, (h.step hi).increasing⟩
    dsimp only at hop
    subst hop
    exact (h.auto_iff now fields).mpr hi

/-- The largest sequence number, and a clock that is not past its millisecond. -/
theorem auto_id_below :
    ¬ Along step (fun s i => (∀ fields, i.2 = .xAdd autoId fields →
        ∀ e ∈ s.entries, 0 < compareIds (s.xAdd i.1 autoId fields).1 e.id) ∧
      (s.step i).2.Increasing) empty
      [(3, .xAdd [53, 45, 49, 56, 52, 52, 54, 55, 52, 52, 48, 55, 51, 55, 48, 57, 53, 53, 49, 54,
        49, 53] []), (3, .xAdd autoId [])] := by
  rintro ⟨-, ⟨hgreater, -⟩, -⟩
  have hlt := hgreater [] rfl
  revert hlt
  decide +kernel

/-! ## all IDs issued -/

/-- A stream beside the IDs it has issued so far. -/
def stepLogged (st : StreamData × List Bytes) (i : Int × StreamOp) :
    Option Bytes × StreamData × List Bytes :=
  let res := st.1.step i
  (res.1, res.2, st.2 ++ res.1.toList)

/-- An ID is about to be issued that is not past the last pair: the counter runs over, or the check
against the last entry present lets an explicit one through. -/
def Slips (s : StreamData) (issued : List Bytes) (i : Int × StreamOp) : Prop :=
  match i.2 with
  | .xAdd id _ =>
      if id = autoId then s.Wraps i.1 else issued ≠ [] ∧ s.Accepts id ∧ idKey id ≤ s.lastKey
  | _ => False

/-- The last pair is the greatest that was issued. -/
structure Logged (st : StreamData × List Bytes) : Prop where
  increasing : st.2.Pairwise fun a b => idKey a < idKey b
  le_last : ∀ old ∈ st.2, idKey old ≤ st.1.lastKey
  last_mem : st.2 ≠ [] → ∃ old ∈ st.2, idKey old = st.1.lastKey
  fresh : st.2 = [] → st.1.lastKey = ⊥
  recorded : ∀ e ∈ st.1.entries, e.id ∈ st.2

variable {st : StreamData × List Bytes}

/-- At the start nothing has been issued. -/
theorem logged_empty : Logged (empty, []) :=
  ⟨.nil, by simp, by simp, fun _ => rfl, fun _ h => nomatch h⟩

/-- Above all IDs issued means above the pair issued last. -/
theorem Logged.past_iff (h : Logged st) (key : ℕ ×ₗ ℕ) :
    (∀ old ∈ st.2, idKey old < key) ↔ st.2 = [] ∨ st.1.lastKey < key := by
  constructor
  · intro hpast
    by_cases hnil : st.2 = []
    · exact .inl hnil
    · obtain ⟨old, hold, hlast⟩ := h.last_mem hnil
      exact .inr (hlast ▸ hpast old hold)
  · rintro (hnil | hlt) old hold
    · simp [hnil] at hold
    · exact lt_of_le_of_lt (h.le_last old hold) hlt

/-- Where the number wraps something has been issued. -/
theorem Logged.wraps_ne_nil (h : Logged st) (hwraps : st.1.Wraps now) : st.2 ≠ [] := by
  intro hnil
  have hseq : st.1.lastSeq.toNat = 0 := congrArg (fun key => (ofLex key).2) (h.fresh hnil)
  rw [hwraps.1] at hseq
  exact absurd hseq (by decide)

/-- What a step issues is past all that was issued unless it slips. -/
theorem Logged.issues_iff (h : Logged st) (i : Int × StreamOp) :
    (∀ id ∈ (st.1.step i).1, ∀ old ∈ st.2, 0 < compareIds id old) ↔ ¬ st.1.Slips st.2 i := by
  simp only [compareIds_pos_iff, h.past_iff]
  obtain ⟨now, op⟩ := i
  cases op with
  | xAdd id fields =>
      unfold step Slips
      dsimp only
      by_cases hauto : id = autoId
      · have haccepts : st.1.Accepts id := .inl hauto
        have hnew : st.1.newId now id = formatId (st.1.nextPair now) := if_pos hauto
        simp only [if_pos haccepts, if_pos hauto, hnew, Option.mem_some, forall_eq', idKey_formatId]
        by_cases hwraps : st.1.Wraps now
        · have hnlt : ¬ st.1.lastKey < pairKey (st.1.nextPair now) := by
            rw [nextPair_of_wraps hwraps, lastKey, pairKey_lt_zero_iff]
            exact UInt64.lt_irrefl _
          simp [hwraps, hnlt, h.wraps_ne_nil hwraps]
        · simp [hwraps, lastKey_lt_nextPair hwraps]
      · rw [if_neg hauto, newId_of_ne hauto]
        by_cases haccepts : st.1.Accepts id
        · simp [haccepts, or_iff_not_imp_left]
        · simp [haccepts]
  | xDel id => simp [step, Slips]
  | xTrim maxlen => simp [step, Slips]

/-- A move that issues above all before keeps the log. -/
theorem Logged.moves {out : Option Bytes} (h : Logged st) (hmoves : Moves st.1 s' out)
    (hpast : ∀ id ∈ out, ∀ old ∈ st.2, idKey old < idKey id) :
    Logged (s', st.2 ++ out.toList) := by
  cases hmoves with
  | drop hentries hlast =>
      simp only [Option.toList_none, List.append_nil]
      exact ⟨h.increasing, hlast ▸ h.le_last, hlast ▸ h.last_mem, hlast ▸ h.fresh,
        fun e he => h.recorded e (hentries.subset he)⟩
  | issue id fields hauto hentries hlast =>
      have hlt := hpast id rfl
      -- an ID without a dash is past nothing, so it is the first
      have hkey : s'.lastKey = idKey id := by
        obtain hlast | ⟨hbot, hsame⟩ := hlast
        · exact hlast
        · have hnil : st.2 = [] := ((h.past_iff _).mp hlt).resolve_right (by simp [hbot])
          rw [hsame, h.fresh hnil, hbot]
      constructor
      · simpa [List.pairwise_append, h.increasing] using hlt
      · dsimp only
        rw [hkey]
        intro old hold
        obtain hold | hold := List.mem_append.mp hold
        · exact (hlt old hold).le
        · rw [show old = id by simpa using hold]
      · exact fun _ => ⟨id, by simp, hkey.symm⟩
      · simp
      · dsimp only
        rw [hentries]
        intro e he
        obtain he | he := List.mem_append.mp he
        · exact List.mem_append_left _ (h.recorded e he)
        · simp [List.mem_singleton.mp he]

/-- A step that does not slip keeps the log. -/
theorem Logged.step {i : Int × StreamOp} (h : Logged st) (hi : ¬ st.1.Slips st.2 i) :
    Logged (stepLogged st i).2 := by
  have hpast := (h.issues_iff i).mpr hi
  simp only [compareIds_pos_iff] at hpast
  exact h.moves (step_moves st.1 i) hpast

/-- IDs are only ever appended to the log. -/
theorem issued_prefix (st : StreamData × List Bytes) (ops : List (Int × StreamOp)) :
    st.2 <+: (final stepLogged st ops).2 := by
  induction ops generalizing st with
  | nil => exact List.prefix_refl _
  | cons i ops ih => exact (List.prefix_append _ _).trans (ih (stepLogged st i).2)

/-- Along a run each ID issued is past all that were issued before, deleted or not, exactly as long
as no step slips.  Then no ID is issued twice, and a reader that asks for the entries past an ID
issued in the first part of the run is given every entry added in the second. -/
theorem issued_past_iff (ops : List (Int × StreamOp)) :
    (Along stepLogged (fun st i => ∀ id ∈ (st.1.step i).1, ∀ old ∈ st.2, 0 < compareIds id old)
        (empty, []) ops ↔
      Along stepLogged (fun st i => ¬ st.1.Slips st.2 i) (empty, []) ops) ∧
    (Along stepLogged (fun st i => ¬ st.1.Slips st.2 i) (empty, []) ops →
      (final stepLogged (empty, []) ops).2.Nodup ∧
      ∀ ops₁ ops₂, ops = ops₁ ++ ops₂ → ∀ seen ∈ (final stepLogged (empty, []) ops₁).2,
        ∀ e ∈ (final stepLogged (empty, []) ops).1.entries,
          e.id ∉ (final stepLogged (empty, []) ops₁).2 →
            e ∈ (final stepLogged (empty, []) ops).1.xRead seen 0) := by
  refine ⟨along_congr (I := Logged) (fun st i h hi => h.step hi) (fun st i h => h.issues_iff i)
    logged_empty, fun hops => ?_⟩
  have hlogged : Logged (final stepLogged (empty, []) ops) :=
    invariant_along (fun st i h hi => h.step hi) logged_empty hops
  refine ⟨hlogged.increasing.imp fun hlt heq => ?_, ?_⟩
  · exact (heq ▸ hlt).false
  · rintro ops₁ ops₂ rfl seen hseen e he hlater
    obtain ⟨later, hlog⟩ := issued_prefix (final stepLogged (empty, []) ops₁) ops₂
    rw [final_append] at *
    have hincreasing := hlogged.increasing
    have hrecorded := hlogged.recorded e he
    rw [← hlog, List.pairwise_append] at hincreasing
    rw [← hlog, List.mem_append] at hrecorded
    have hlt := hincreasing.2.2 seen hseen e.id (hrecorded.resolve_left hlater)
    simpa [xRead, cut, compareIds_pos_iff, he] using hlt

/-- An ID that was deleted is issued again. -/
theorem issued_twice :
    ¬ Along stepLogged (fun st i => ∀ id ∈ (st.1.step i).1, ∀ old ∈ st.2, 0 < compareIds id old)
      (empty, [])
      [(1, .xAdd [53, 45, 48] []), (2, .xDel [53, 45, 48]), (3, .xAdd [53, 45, 48] [])] := by
  rintro ⟨-, -, hpast, -⟩
  have hlt := hpast [53, 45, 48] (by decide +kernel) [53, 45, 48] (by decide +kernel)
  revert hlt
  decide +kernel

/-! ## IDs made from pairs -/

/-- The dash ends the first number, so the texts are ordered as the numbers are. -/
theorem compareIds_formatId (p q : UInt64 × UInt64) : compareIds (formatId p) (formatId q) =
    if pairKey p < pairKey q then -1 else if pairKey q < pairKey p then 1 else 0 := by
  rw [compareIds_eq, idKey_formatId, idKey_formatId]

/-- Accepting a generated ID notes its pair. -/
theorem accept_formatId (s : StreamData) (p : UInt64 × UInt64) (fields : List (Bytes × Bytes)) :
    s.accept (formatId p) fields = ⟨s.entries ++ [⟨formatId p, fields⟩], p.1, p.2⟩ := by
  have hpair := parseId_formatId p
  rw [parseId_of_dash (idxOf?_formatId p)] at hpair
  obtain ⟨hms, hseq⟩ := Prod.ext_iff.mp hpair
  unfold accept
  rw [idxOf?_formatId]
  exact congrArg₂ (StreamData.mk _) hms hseq

/-- An ID made from a pair is taken in if it is past the last entry, and is the last pair then. -/
theorem explicit_pairs (p q : UInt64 × UInt64) (s : StreamData) (now : Int)
    (fields : List (Bytes × Bytes)) :
    (compareIds (formatId p) (formatId q) =
        if pairKey p < pairKey q then -1 else if pairKey q < pairKey p then 1 else 0) ∧
      s.xAdd now (formatId p) fields =
        if ∀ back ∈ s.entries.getLast?, idKey back.id < pairKey p then
          (formatId p, ⟨s.entries ++ [⟨formatId p, fields⟩], p.1, p.2⟩)
        else ([], s) := by
  have haccepts : s.Accepts (formatId p) ↔
      ∀ back ∈ s.entries.getLast?, idKey back.id < pairKey p := by
    rw [Accepts, or_iff_right (formatId_ne_autoId p)]
    simp only [compareIds_pos_iff, idKey_formatId]
  refine ⟨compareIds_formatId p q, ?_⟩
  split
  · rw [xAdd_explicit (formatId_ne_autoId p) (haccepts.mpr ‹_›), accept_formatId]
  · rw [xAdd_refused (mt haccepts.mp ‹_›)]

/-- `1-1` behind the entry `5-0` leaves the last pair as it is. -/
theorem explicit_pair_refused :
    let s := (empty.xAdd 0 (formatId (5, 0)) []).2
    let s' := (s.xAdd 0 (formatId (1, 1)) []).2
    ¬ (s'.lastMs, s'.lastSeq) = (1, 1) := by
  decide +kernel

end StreamData

end AstraKV
