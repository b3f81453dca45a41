import AstraKV.Engine.FirstWrite

/-!
# AstraKV.Engine.Together

Two first writes that share one collection: the second client looks when the
first one's collection is already in the map.  Then both elements get into
it, and what the record holds is decided by who saved last, and what that
client had seen.

Moves are numbered per client, and the schedule is read through these numbers:
`Changed` and `Snapshot` say what has been added when a client serializes,
`Recorded` whose bytes are in RocksDB. Then the record has both elements
exactly if the client who saved last, or the only one whose write succeeded,
had seen the other's change. A client's own change always comes before its own
save.
-/

namespace AstraKV

open Slot Schedule Machine

variable {E : Env} {t : KeyType} {K : Collection E t} {disk : Bool} {w : Bool → Write K}
  {maker i j m : Bool} {js : List Bool} {s : Clients (Shared E t) Phase}

/-! ## what there is to see -/

/-- The number of the move by which a client changes the collection that `maker` made. -/
def changeAt (maker i : Bool) : Nat := if i = maker then 5 else 2

/-- The collection holds the elements of these clients and no others. -/
def Exactly (w : Bool → Write K) (has : Bool → Prop) (v : Value E t) : Prop :=
  ∀ name x, K.get v name = some x ↔ ∃ i, has i ∧ (w i).name = name ∧ (w i).element = x

/-- What is in a collection, for the same clients. -/
theorem Exactly.congr {has has' : Bool → Prop} {v : Value E t} (h : Exactly w has v)
    (hhas : ∀ i, has' i ↔ has i) : Exactly w has' v := by
  intro name x
  rw [h name x]
  exact exists_congr fun i => and_congr_left' (hhas i).symm

/-- A new collection has nothing of either. -/
theorem exactly_fresh : Exactly w (fun _ => False) K.fresh := by
  intro name x
  simp [K.get_fresh]

/-- The clients write under different names. -/
theorem name_inj (hne : (w false).name ≠ (w true).name) (h : (w i).name = (w j).name) : i = j := by
  cases i <;> cases j <;> first | rfl | exact absurd h hne | exact absurd h.symm hne

/-- An element can be read if its client has changed the collection. -/
theorem Exactly.get_eq (hne : (w false).name ≠ (w true).name) {has : Bool → Prop} {v : Value E t}
    (h : Exactly w has v) : K.get v (w i).name = some (w i).element ↔ has i := by
  rw [h]
  constructor
  · rintro ⟨j, hj, hname, -⟩
    exact name_inj hne hname ▸ hj
  · exact fun hi => ⟨i, hi, rfl, rfl⟩

/-- Nothing is read under the name of a client that has not changed the collection. -/
theorem Exactly.get_eq_none (hne : (w false).name ≠ (w true).name) {has : Bool → Prop}
    {v : Value E t} (h : Exactly w has v) (hi : ¬ has i) : K.get v (w i).name = none := by
  rw [Option.eq_none_iff_forall_ne_some]
  intro x hx
  obtain ⟨j, hj, hname, -⟩ := (h _ _).mp hx
  exact hi (name_inj hne hname ▸ hj)

/-- A client adds its element. -/
theorem Exactly.add (hne : (w false).name ≠ (w true).name) {has has' : Bool → Prop} {v : Value E t}
    (h : Exactly w has v) (hi : ¬ has i) (hself : has' i) (hother : ∀ j, j ≠ i → (has' j ↔ has j)) :
    Exactly w has' (K.add v (w i).name (w i).element) := by
  intro name x
  by_cases hname : name = (w i).name
  · subst hname
    rw [K.get_add_self _ _ _ (h.get_eq_none hne hi), Option.some.injEq]
    constructor
    · rintro rfl
      exact ⟨i, hself, rfl, rfl⟩
    · rintro ⟨j, -, hname, rfl⟩
      rw [name_inj hne hname]
  · rw [K.get_add_of_ne _ _ _ _ hname, h]
    constructor
    · rintro ⟨j, hj, rfl, rfl⟩
      exact ⟨j, (hother j fun hji => hname (by rw [hji])).mpr hj, rfl, rfl⟩
    · rintro ⟨j, hj, rfl, rfl⟩
      exact ⟨j, (hother j fun hji => hname (by rw [hji])).mp hj, rfl, rfl⟩

/-- Client `j` has changed the collection. -/
def Changed (maker : Bool) (js : List Bool) (j : Bool) : Prop := changeAt maker j ≤ js.count j

/-- When client `i` saves, the collection has the change of client `j`. -/
def Sees (maker : Bool) (js : List Bool) (i j : Bool) : Prop :=
  j = i ∨ Before js j (changeAt maker j) i (changeAt maker i + 1)

/-- The last client to put a record, of those whose writes succeed. -/
def Last (disk : Bool) (w : Bool → Write K) (maker : Bool) (js : List Bool) (i : Bool) : Prop :=
  disk = true ∧ (w i).putOk = true ∧ changeAt maker i + 2 ≤ js.count i ∧
    ((w (!i)).putOk = true → changeAt maker (!i) + 2 ≤ js.count (!i) →
      Before js (!i) (changeAt maker (!i) + 2) i (changeAt maker i + 2))

/-- The record of the collection as client `i` sees it. -/
def Snapshot (w : Bool → Write K) (maker : Bool) (js : List Bool) (i : Bool) (record : Bytes) :
    Prop :=
  ∃ v, record = Engine.serialize (E := E) t v ∧ Exactly w (Sees maker js i) v

section Frame

/-- Another move does not add this change. -/
theorem changed_append_of_ne (h : m ≠ j ∨ js.count j + 1 ≠ changeAt maker j) :
    Changed maker (js ++ [m]) j ↔ Changed maker js j :=
  le_count_append_of_ne h

theorem sees_append_of_ne (h : m ≠ i ∨ js.count i + 1 ≠ changeAt maker i + 1) :
    Sees maker (js ++ [m]) i j ↔ Sees maker js i j := by
  unfold Sees
  rw [before_append_of_ne h]

/-- What a client that saves sees is what there is. -/
theorem sees_append_self (h : js.count i = changeAt maker i) :
    Sees maker (js ++ [i]) i j ↔ Changed maker js j := by
  unfold Sees Changed
  rw [before_append_self (by rw [h])]
  constructor
  · rintro (rfl | hj)
    · exact h.ge
    · exact hj
  · exact .inr

theorem snapshot_append_of_ne {record : Bytes}
    (h : m ≠ i ∨ js.count i + 1 ≠ changeAt maker i + 1) :
    Snapshot w maker (js ++ [m]) i record ↔ Snapshot w maker js i record := by
  have hsees : Sees maker (js ++ [m]) i = Sees maker js i :=
    funext fun j => propext (sees_append_of_ne h)
  unfold Snapshot
  rw [hsees]

/-- Only a `Put` that succeeds changes who put last. -/
theorem last_append_of_ne
    (h : disk = true → (w m).putOk = true → js.count m + 1 ≠ changeAt maker m + 2) :
    Last disk w maker (js ++ [m]) i ↔ Last disk w maker js i := by
  refine and_congr_right fun hdisk => and_congr_right fun hok => ?_
  have hstays : ∀ j, (w j).putOk = true → m ≠ j ∨ js.count j + 1 ≠ changeAt maker j + 2 := by
    intro j hj
    by_cases hm : m = j
    · subst hm
      exact .inr (h hdisk hj)
    · exact .inl hm
  rw [le_count_append_of_ne (hstays i hok)]
  refine and_congr_right fun _ => imp_congr_right fun hok' => ?_
  rw [le_count_append_of_ne (hstays _ hok'), before_append_of_ne (hstays i hok)]

/-- The client that has just put its record is the last one. -/
theorem last_append_self (hdisk : disk = true) (hok : (w i).putOk = true)
    (h : js.count i = changeAt maker i + 1) :
    Last disk w maker (js ++ [i]) j ↔ j = i := by
  constructor
  · rintro ⟨-, -, hmade, hafter⟩
    by_contra hne
    have hi : (!j) = i := by
      cases i <;> cases j <;> simp_all
    rw [hi] at hafter
    have hbefore := hafter hok (by rw [count_append_self, h])
    rw [before_append_of_ne (.inl (Ne.symm hne))] at hbefore
    obtain ⟨js₁, js₂, rfl, -, hk⟩ := hbefore
    rw [List.count_append] at h
    omega
  · rintro rfl
    refine ⟨hdisk, hok, by rw [count_append_self, h], fun _ hmade => ?_⟩
    rw [before_append_self (by rw [h])]
    rwa [count_append_of_ne (by cases j <;> simp)] at hmade

end Frame

/-! ## one collection -/

/-- Where client `i` is, after the moves it has made. -/
def At (disk : Bool) (w : Bool → Write K) (maker : Bool) (js : List Bool) (i : Bool) :
    Phase → Prop
  | .get => i ≠ maker ∧ js.count i = 0
  | .insert => False
  | .getVersion p => i = maker ∧ p = 0 ∧ js.count i = 2
  | .register p version => i = maker ∧ p = 0 ∧ version = 1 ∧ js.count i = 3
  | .add p => p = 0 ∧ js.count i + 1 = changeAt maker i
  | .serialize p => p = 0 ∧ js.count i = changeAt maker i
  | .put record =>
      disk = true ∧ js.count i = changeAt maker i + 1 ∧ Snapshot w maker js i record
  | .checkMemory => changeAt maker i + 1 + disk.toNat ≤ js.count i
  | .returned => changeAt maker i + 2 + disk.toNat ≤ js.count i

/-- The other client's moves do not move this one. -/
theorem at_append_of_ne {ph : Phase} (h : m ≠ i) :
    At disk w maker (js ++ [m]) i ph ↔ At disk w maker js i ph := by
  cases ph <;> simp only [At, count_append_of_ne h, snapshot_append_of_ne (.inl h)]

/-- The record is that of the client that put last. -/
structure Recorded (disk : Bool) (w : Bool → Write K) (maker : Bool) (js : List Bool)
    (record : Option Bytes) : Prop where
  last : ∀ i, Last disk w maker js i → ∃ r, record = some r ∧ Snapshot w maker js i r
  none : (∀ i, ¬ Last disk w maker js i) → record = none

/-- Both clients work on the collection that `maker` has made. -/
structure Together (disk : Bool) (w : Bool → Write K) (maker : Bool) (js : List Bool)
    (s : Clients (Shared E t) Phase) : Prop where
  entry : s.shared.entry = some 0
  heap : ∃ v, s.shared.heap = [v] ∧ Exactly w (Changed maker js) v
  metadata : s.shared.metadata =
    if 4 ≤ js.count maker then some { KeyMetadata.ofType t with version := 1 } else none
  at_phase : ∀ i, At disk w maker js i (s.phase i)
  record : Recorded disk w maker js s.shared.record

/-- Who has put last has seen what it saw. -/
theorem Last.snapshot_append (h : Last disk w maker js i) {record : Bytes} :
    Snapshot w maker (js ++ [m]) i record ↔ Snapshot w maker js i record :=
  snapshot_append_of_ne (.inr (by have hmade := h.2.2.1; omega))

/-- A move that puts nothing keeps the record. -/
theorem Recorded.append {record : Option Bytes} (h : Recorded disk w maker js record)
    (hm : disk = true → (w m).putOk = true → js.count m + 1 ≠ changeAt maker m + 2) :
    Recorded disk w maker (js ++ [m]) record where
  last i hi := by
    rw [last_append_of_ne hm] at hi
    obtain ⟨r, hr, hsnapshot⟩ := h.last i hi
    exact ⟨r, hr, hi.snapshot_append.mpr hsnapshot⟩
  none hnone := h.none fun i hi => hnone i ((last_append_of_ne hm).mpr hi)

/-- A move that puts makes the record its own. -/
theorem Recorded.put (hdisk : disk = true) (hok : (w i).putOk = true)
    (hcount : js.count i = changeAt maker i + 1) {r : Bytes} (h : Snapshot w maker js i r) :
    Recorded disk w maker (js ++ [i]) (some r) where
  last j hj := by
    obtain rfl := (last_append_self hdisk hok hcount).mp hj
    exact ⟨r, rfl, (snapshot_append_of_ne (.inr (by omega))).mpr h⟩
  none hnone := absurd ((last_append_self hdisk hok hcount).mpr rfl) (hnone i)

/-- A move, from what it does to each part of the state. -/
theorem Together.moved (h : Together disk w maker js s) {s' : Shared E t} {ph : Phase}
    (hat : At disk w maker (js ++ [i]) i ph) (hentry : s'.entry = s.shared.entry)
    (hheap : ∃ v, s'.heap = [v] ∧ Exactly w (Changed maker (js ++ [i])) v)
    (hmetadata : s'.metadata = if 4 ≤ (js ++ [i]).count maker then
      some { KeyMetadata.ofType t with version := 1 } else none)
    (hrecord : Recorded disk w maker (js ++ [i]) s'.record) :
    Together disk w maker (js ++ [i]) ⟨s', Function.update s.phase i ph⟩ where
  entry := hentry.trans h.entry
  heap := hheap
  metadata := hmetadata
  at_phase j := by
    dsimp only
    rw [Function.update_apply]
    split
    · rename_i hj
      exact hj ▸ hat
    · rename_i hj
      exact (at_append_of_ne (Ne.symm hj)).mpr (h.at_phase j)
  record := hrecord

/-- Only the change of a client changes the collection. -/
theorem Together.heap_append (h : Together disk w maker js s)
    (hchange : js.count i + 1 ≠ changeAt maker i) :
    ∃ v, s.shared.heap = [v] ∧ Exactly w (Changed maker (js ++ [i])) v := by
  obtain ⟨v, hv, hexactly⟩ := h.heap
  refine ⟨v, hv, hexactly.congr fun j => changed_append_of_ne ?_⟩
  by_cases hij : i = j
  · exact .inr (hij ▸ hchange)
  · exact .inl hij

/-- Only the maker's fourth move registers the key. -/
theorem Together.metadata_append (h : Together disk w maker js s)
    (hregister : i = maker → js.count i ≠ 3) :
    s.shared.metadata = if 4 ≤ (js ++ [i]).count maker then
      some { KeyMetadata.ofType t with version := 1 } else none := by
  rw [h.metadata]
  by_cases hmaker : i = maker
  · subst hmaker
    have hcount := hregister rfl
    rw [count_append_self]
    refine if_congr ?_ rfl rfl
    omega
  · rw [count_append_of_ne hmaker]

/-- A move that changes nothing but the phase. -/
theorem Together.passed (h : Together disk w maker js s) {ph : Phase}
    (hat : At disk w maker (js ++ [i]) i ph) (hchange : js.count i + 1 ≠ changeAt maker i)
    (hregister : i = maker → js.count i ≠ 3)
    (hput : disk = true → (w i).putOk = true → js.count i + 1 ≠ changeAt maker i + 2) :
    Together disk w maker (js ++ [i]) ⟨s.shared, Function.update s.phase i ph⟩ :=
  h.moved hat rfl (h.heap_append hchange) (h.metadata_append hregister) (h.record.append hput)

/-- The client that found the collection changes it by its second move. -/
theorem changeAt_of_ne (h : i ≠ maker) : changeAt maker i = 2 := if_neg h

/-- The one that made it by its fifth. -/
@[simp] theorem changeAt_self : changeAt maker maker = 5 := if_pos rfl

/-- A client that is past its first moves has looked, and the maker has registered. -/
theorem five_le_of_maker {n : Nat} (h : changeAt maker i ≤ n) : i = maker → n ≠ 3 := by
  rintro rfl
  rw [changeAt_self] at h
  omega

/-- Every move keeps the two together. -/
theorem Together.step (hne : (w false).name ≠ (w true).name) (h : Together disk w maker js s)
    (i : Bool) :
    Together disk w maker (js ++ [i]) (turn (fun i => Shared.act disk (w i)) s i).2 := by
  have hat := h.at_phase i
  have hcount : (js ++ [i]).count i = js.count i + 1 := count_append_self
  unfold turn
  dsimp only
  cases hphase : s.phase i with
  | get =>
      rw [hphase] at hat
      obtain ⟨hi, hzero⟩ := hat
      have hchange := changeAt_of_ne hi
      simp only [Shared.act, h.entry]
      refine h.passed ⟨rfl, ?_⟩ ?_ (absurd · hi) ?_
      all_goals omega
  | insert =>
      rw [hphase] at hat
      exact hat.elim
  | getVersion p =>
      rw [hphase] at hat
      obtain ⟨rfl, rfl, htwo⟩ := hat
      have hnone : s.shared.metadata = none := by
        rw [h.metadata, htwo]
        rfl
      simp only [Shared.act, hnone]
      have hchange : changeAt i i = 5 := changeAt_self
      refine h.passed ⟨rfl, rfl, rfl, ?_⟩ ?_ (fun _ => ?_) ?_
      all_goals omega
  | register p version =>
      rw [hphase] at hat
      obtain ⟨rfl, rfl, rfl, hthree⟩ := hat
      have hchange : changeAt i i = 5 := changeAt_self
      refine h.moved ⟨rfl, ?_⟩ rfl (h.heap_append ?_) ?_ (h.record.append ?_)
      · omega
      · omega
      · rw [hcount, hthree]
        rfl
      · omega
  | add p =>
      rw [hphase] at hat
      obtain ⟨rfl, hadd⟩ := hat
      obtain ⟨v, hv, hexactly⟩ := h.heap
      refine h.moved ⟨rfl, ?_⟩ rfl ⟨K.add v (w i).name (w i).element, ?_, ?_⟩
        (h.metadata_append ?_) (h.record.append ?_)
      · omega
      · rw [Shared.act, hv, List.modify_zero_cons]
      · refine hexactly.add hne ?_ ?_ fun j hj => changed_append_of_ne (.inl (Ne.symm hj))
        · unfold Changed
          omega
        · unfold Changed
          omega
      · rintro rfl
        rw [changeAt_self] at hadd
        omega
      · omega
  | serialize p =>
      rw [hphase] at hat
      obtain ⟨rfl, hsave⟩ := hat
      obtain ⟨v, hv, hexactly⟩ := h.heap
      cases disk with
      | false =>
          refine h.passed ?_ ?_ (five_le_of_maker hsave.ge) ?_
          · simp only [Shared.act, Bool.false_eq_true, if_false, At, Bool.toNat_false]
            omega
          · omega
          · simp
      | true =>
          refine h.passed ⟨rfl, ?_, v, by simp [hv], ?_⟩ ?_ (five_le_of_maker hsave.ge) ?_
          · omega
          · exact hexactly.congr fun j => sees_append_self hsave
          · omega
          · omega
  | put record =>
      rw [hphase] at hat
      obtain ⟨rfl, hput, hsnapshot⟩ := hat
      cases hok : (w i).putOk with
      | false =>
          simp only [Shared.act, hok, Bool.false_eq_true, if_false]
          refine h.passed ?_ ?_ (five_le_of_maker (by omega)) ?_
          · simp only [At, Bool.toNat_true]
            omega
          · omega
          · simp [hok]
      | true =>
          simp only [Shared.act, hok, if_true]
          refine h.moved ?_ rfl (h.heap_append ?_) (h.metadata_append ?_)
            (.put rfl hok hput hsnapshot)
          · simp only [At, Bool.toNat_true]
            omega
          · omega
          · exact five_le_of_maker (by omega)
  | checkMemory =>
      rw [hphase] at hat
      have hpast : changeAt maker i + 1 + disk.toNat ≤ js.count i := hat
      refine h.passed ?_ (by omega) (five_le_of_maker (by omega)) ?_
      · simp only [Shared.act, At]
        omega
      · rintro rfl -
        simp only [Bool.toNat_true] at hpast
        omega
  | returned =>
      rw [hphase] at hat
      have hpast : changeAt maker i + 2 + disk.toNat ≤ js.count i := hat
      refine h.passed ?_ (by omega) (five_le_of_maker (by omega)) ?_
      · simp only [Shared.act, At]
        omega
      · omega

/-- The maker moves twice before the other client looks. -/
theorem together_afterMoves (hne : (w false).name ≠ (w true).name) (maker : Bool)
    (js : List Bool) :
    Together disk w maker (maker :: maker :: js) (afterMoves disk w (maker :: maker :: js)) := by
  induction js using List.reverseRecOn with
  | nil =>
      have hother : ∀ i, i ≠ maker → [maker, maker].count i = 0 := fun i hi => by simp [Ne.symm hi]
      have hfew : ∀ i, [maker, maker].count i < changeAt maker i := by
        intro i
        by_cases hi : i = maker
        · subst hi
          simp
        · rw [hother i hi, changeAt_of_ne hi]
          decide
      have hafter : afterMoves disk w [maker, maker] =
          ⟨⟨[K.fresh], some 0, none, none⟩,
            Function.update (Function.update (fun _ => .get) maker .insert) maker
              (.getVersion 0)⟩ := by
        simp [afterMoves, turn, Shared.act, Shared.absent]
      rw [hafter]
      constructor
      · rfl
      · exact ⟨K.fresh, rfl, exactly_fresh.congr fun i => iff_of_false (hfew i).not_ge id⟩
      · simp
      · intro i
        by_cases hi : i = maker
        · subst hi
          simp [At]
        · simp [At, hi, Ne.symm hi]
      · constructor
        · rintro i ⟨-, -, hmade, -⟩
          have hcount := hfew i
          omega
        · exact fun _ => rfl
  | append_singleton js m ih =>
      rw [← List.cons_append, ← List.cons_append, afterMoves_append_singleton]
      exact ih.step hne m

/-! ## what both clients wrote -/

/-- Both elements can be read, and with RocksDB the record decodes to a collection of both. -/
structure Kept (disk : Bool) (w : Bool → Write K) (c : Call) (s : Slot E) : Prop where
  read : ∀ i, s.guarded c t 0 none (fun v => K.get v (w i).name) = some (w i).element
  saved : disk = true →
    ∃ v, s.load c t 0 = some v ∧ ∀ i, K.get v (w i).name = some (w i).element

/-- The second client looks after the first one has put its collection into the map.  With RocksDB,
the last record put is that of a client that saved after the change of the other, and what is
written fits into a record. -/
def Ordered (disk : Bool) (w : Bool → Write K) (js : List Bool) : Prop :=
  ∃ maker, Before js maker 2 (!maker) 1 ∧
    (disk = true → (∀ i, K.Fits (w i).name (w i).element) ∧
      ∃ i, (w i).putOk = true ∧
        Before js (!i) (changeAt maker (!i)) i (changeAt maker i + 1) ∧
        ((w (!i)).putOk = true →
          Before js (!i) (changeAt maker (!i) + 2) i (changeAt maker i + 2)))

section Final

variable {c : Call}

/-- A client that has returned has made all its moves. -/
theorem Together.count_of_returned (h : Together disk w maker js s) (hreturned : Returned s)
    (i : Bool) : changeAt maker i + 2 + disk.toNat ≤ js.count i := by
  have hat := h.at_phase i
  rw [hreturned i] at hat
  exact hat

/-- What both wrote is in the collection. -/
theorem Together.read (hne : (w false).name ≠ (w true).name) (h : Together disk w maker js s)
    (hreturned : Returned s) (i : Bool) :
    s.shared.slot.guarded c t 0 none (fun v => K.get v (w i).name) = some (w i).element := by
  have hcount := h.count_of_returned hreturned
  obtain ⟨v, hv, hexactly⟩ := h.heap
  have hvalue : s.shared.slot.value t = some v := by
    rw [value_slot, h.entry, hv]
    rfl
  have hmetadata : s.shared.slot.metadata = some { KeyMetadata.ofType t with version := 1 } := by
    have hmaker := hcount maker
    rw [changeAt_self] at hmaker
    rw [Shared.slot, h.metadata, if_pos (by omega)]
  have hvalid : s.shared.slot.valid c.now = true := by
    rw [Slot.valid, hmetadata]
    rfl
  rw [Slot.guarded, if_pos hvalid, Slot.answer, Slot.found, hvalue]
  refine (hexactly.get_eq hne).mpr ?_
  have hi := hcount i
  unfold Changed
  omega

/-- A collection of what the clients wrote is read from its record as it is. -/
theorem Exactly.decode {has : Bool → Prop} {v : Value E t} (h : Exactly w has v)
    (hfits : ∀ i, K.Fits (w i).name (w i).element) (c : Call) :
    ∃ v', decode E c 0 t (Engine.serialize (E := E) t v) = some v' ∧
      ∀ name, K.get v' name = K.get v name := by
  refine K.decode_of_fits c v [(w false).name, (w true).name] (by simp) fun name x hx => ?_
  obtain ⟨i, -, rfl, rfl⟩ := (h name x).mp hx
  refine ⟨?_, hfits i⟩
  cases i <;> simp

/-- When the record has both elements. -/
theorem Together.saved_iff (hne : (w false).name ≠ (w true).name)
    (h : Together true w maker js s) (hreturned : Returned s) :
    (∃ v, s.shared.slot.load c t 0 = some v ∧
        ∀ i, K.get v (w i).name = some (w i).element) ↔
      (∀ i, K.Fits (w i).name (w i).element) ∧ ∃ i, (w i).putOk = true ∧
        Before js (!i) (changeAt maker (!i)) i (changeAt maker i + 1) ∧
        ((w (!i)).putOk = true →
          Before js (!i) (changeAt maker (!i) + 2) i (changeAt maker i + 2)) := by
  have hcount := h.count_of_returned hreturned
  have hload : s.shared.slot.load c t 0 = s.shared.record.bind (decode E c 0 t) := rfl
  rw [hload]
  constructor
  · rintro ⟨v, hv, hboth⟩
    obtain ⟨record, hrecord, hdecode⟩ := Option.bind_eq_some_iff.mp hv
    have hlast : ∃ i, Last true w maker js i := by
      by_contra hnone
      rw [h.record.none (not_exists.mp hnone)] at hrecord
      cases hrecord
    obtain ⟨i, hi⟩ := hlast
    obtain ⟨r, hr, seen, rfl, hexactly⟩ := h.record.last i hi
    obtain rfl := Option.some.inj (hr.symm.trans hrecord)
    have hfits : ∀ j, K.Fits (w j).name (w j).element :=
      fun j => K.fits_of_decode c seen v hdecode _ _ (hboth j)
    obtain ⟨v', hv', hget⟩ := hexactly.decode hfits c
    obtain rfl := Option.some.inj (hv'.symm.trans hdecode)
    obtain ⟨-, hok, -, hafter⟩ := hi
    refine ⟨hfits, i, hok, ?_, fun hok' => hafter hok' (by have := hcount (!i); omega)⟩
    obtain hsame | hbefore := (hexactly.get_eq hne).mp ((hget _).symm.trans (hboth (!i)))
    · exact absurd hsame (Bool.not_ne_self i)
    · exact hbefore
  · rintro ⟨hfits, i, hok, hseen, hafter⟩
    have hlast : Last true w maker js i :=
      ⟨rfl, hok, by have := hcount i; omega, fun hok' _ => hafter hok'⟩
    obtain ⟨record, hrecord, seen, rfl, hexactly⟩ := h.record.last i hlast
    obtain ⟨v, hv, hget⟩ := hexactly.decode hfits c
    refine ⟨v, by rw [hrecord, Option.bind_some, hv], fun j => ?_⟩
    rw [hget, hexactly.get_eq hne]
    by_cases hj : j = i
    · exact .inl hj
    · rw [← Bool.eq_not_of_ne hj] at hseen
      exact .inr hseen

/-- A run in which both return begins with two moves. -/
theorem Returned.two_moves (h : Returned (afterMoves disk w js)) :
    ∃ i j js', js = i :: j :: js' := by
  cases js with
  | nil => exact absurd (h true) (by simp [afterMoves])
  | cons i js =>
      cases js with
      | nil =>
          have hother := h (!i)
          have hget : (afterMoves disk w [i]).phase (!i) = .get := by
            simp [afterMoves, phase_turn_of_ne]
          rw [hget] at hother
          cases hother
      | cons j js => exact ⟨i, j, js, rfl⟩

/-- When two first writes of different names are both kept. -/
theorem kept_iff (hne : (w false).name ≠ (w true).name)
    (hreturned : Returned (afterMoves disk w js)) :
    Kept disk w c (afterMoves disk w js).shared.slot ↔ Ordered disk w js := by
  obtain ⟨i, j, js, rfl⟩ := hreturned.two_moves
  by_cases hj : j = i
  · subst hj
    have htogether : Together disk w j (j :: j :: js) (afterMoves disk w (j :: j :: js)) :=
      together_afterMoves hne j js
    have hcount := htogether.count_of_returned hreturned (!j)
    have hnone : [j, j].count (!j) = 0 := by simp
    have hmaker : Before (j :: j :: js) j 2 (!j) 1 := by
      have hsome : 1 ≤ js.count (!j) := by
        rw [List.count_cons_of_ne (Bool.not_ne_self j).symm,
          List.count_cons_of_ne (Bool.not_ne_self j).symm] at hcount
        omega
      have hbefore := before_first (i := j) hnone hsome
      simpa using hbefore
    constructor
    · intro hkept
      refine ⟨j, hmaker, fun hdisk => ?_⟩
      subst hdisk
      exact (htogether.saved_iff hne hreturned).mp (hkept.saved rfl)
    · rintro ⟨maker, hbefore, hsaved⟩
      have hmaker' : maker = j := by
        by_contra hne'
        rw [← Bool.eq_not_of_ne (Ne.symm hne')] at hbefore
        exact not_before_head hbefore
      subst hmaker'
      refine ⟨htogether.read hne hreturned, fun hdisk => ?_⟩
      subst hdisk
      exact (htogether.saved_iff hne hreturned).mpr (hsaved rfl)
  · obtain rfl := Bool.eq_not_of_ne hj
    obtain ⟨owner, hdivided⟩ : ∃ owner, Divided w owner (afterMoves disk w (i :: (!i) :: js)) :=
      divided_afterMoves hne i js
    refine iff_of_false (fun hkept => ?_) ?_
    · obtain ⟨m, v, hv, hlacks⟩ := hdivided.lost hreturned
      have hread := hkept.read m
      unfold Slot.guarded Slot.answer Slot.found at hread
      rw [hv, Option.some_or, Option.elim_some, hlacks] at hread
      simp at hread
    · rintro ⟨maker, hbefore, -⟩
      by_cases hmaker : maker = i
      · subst hmaker
        exact not_before_second hbefore
      · rw [Bool.eq_not_of_ne hmaker, Bool.not_not] at hbefore
        exact not_before_head hbefore

end Final

/-! ## the three commands -/

section Commands

variable {c : Call} {st : Slot E}

/-- A record that decodes completely, in one equation. -/
theorem bind_complete_eq_some {β : Type} {record : Option Bytes} {deserialize : Bytes → Bool × β}
    {v : β} :
    record.bind (fun data => complete (deserialize data)) = some v ↔
      record.map deserialize = some (true, v) := by
  cases record with
  | none => simp
  | some data =>
      rw [Option.bind_some, Option.map_some, complete, Option.some.injEq]
      obtain ⟨ok, v'⟩ := deserialize data
      cases ok <;> simp

/-- What it is to be kept, in terms of the replies and of the record as it is read. -/
theorem kept_iff_reads {read : Bool → Prop} {deserialize : Bytes → Bool × Value E t}
    {holds : Value E t → Bool → Prop}
    (hread : ∀ i, st.guarded c t 0 none (fun v => K.get v (w i).name) = some (w i).element ↔
      read i)
    (hload : ∀ data, decode E c 0 t data = complete (deserialize data))
    (hholds : ∀ v i, K.get v (w i).name = some (w i).element ↔ holds v i) :
    Kept disk w c st ↔ (∀ i, read i) ∧
      (disk = true → ∃ v, st.record.map deserialize = some (true, v) ∧ ∀ i, holds v i) := by
  have hsaved : ∀ v, st.load c t 0 = some v ↔ st.record.map deserialize = some (true, v) := by
    intro v
    rw [← bind_complete_eq_some, ← funext hload]
    rfl
  constructor
  · rintro ⟨hall, hrecord⟩
    refine ⟨fun i => (hread i).mp (hall i), fun hdisk => ?_⟩
    obtain ⟨v, hv, hboth⟩ := hrecord hdisk
    exact ⟨v, (hsaved v).mp hv, fun i => (hholds v i).mp (hboth i)⟩
  · rintro ⟨hall, hrecord⟩
    refine ⟨fun i => (hread i).mpr (hall i), fun hdisk => ?_⟩
    obtain ⟨v, hv, hboth⟩ := hrecord hdisk
    exact ⟨v, (hsaved v).mpr hv, fun i => (hholds v i).mpr (hboth i)⟩

/-- What is kept of two `zadd`s. -/
theorem kept_zadd {w : Bool → Write (Collection.zset E)} (key : Bytes) :
    Kept disk w c st ↔
      (∀ i, st.reply c (.zscore key (w i).name) = .score (some (w i).element)) ∧
        (disk = true → ∃ zs, st.record.map (fun data => deserializeZset E.memberHash data .empty) =
            some (true, zs) ∧ ∀ i, zs.getScore (w i).name = some (w i).element) :=
  kept_iff_reads (fun _ => (Reply.score.injEq _ _).to_iff.symm) (fun _ => rfl)
    (fun _ _ => Iff.rfl)

/-- What is kept of two `hset`s. -/
theorem kept_hset {w : Bool → Write (Collection.hash E)} (key : Bytes) :
    Kept disk w c st ↔
      (∀ i, st.reply c (.hget key (w i).name) = .bytesOption (some (w i).element)) ∧
        (disk = true → ∃ h, st.record.map (fun data => deserializeHash data ∅) = some (true, h) ∧
          ∀ i, h.lookup (w i).name = some (w i).element) :=
  kept_iff_reads (fun _ => (Reply.bytesOption.injEq _ _).to_iff.symm) (fun _ => rfl)
    (fun _ _ => Iff.rfl)

/-- What is kept of two `sadd`s. -/
theorem kept_sadd {w : Bool → Write (Collection.set E)} (key : Bytes) :
    Kept disk w c st ↔
      (∀ i, st.reply c (.sismember key (w i).name) = .bool true) ∧
        (disk = true → ∃ s, st.record.map (fun data => deserializeSet data ∅) = some (true, s) ∧
          ∀ i, (w i).name ∈ s) := by
  have hmember : ∀ (s : Value E .kSet) (i : Bool),
      (Collection.set E).get s (w i).name = some (w i).element ↔
        (AList.lookup (w i).name s).isSome = true := by
    intro s i
    rw [Option.isSome_iff_exists]
    exact Option.map_eq_some_iff.trans (exists_congr fun x => and_iff_left rfl)
  refine kept_iff_reads (fun i => ?_) (fun _ => rfl)
    fun s i => (hmember s i).trans AList.lookup_isSome
  rw [Slot.reply, Reply.bool.injEq]
  unfold Slot.guarded Slot.answer
  split
  · cases st.found c .kSet 0 with
    | none => simp
    | some s => exact hmember s i
  · simp

/-- Two first writes to a key, by `zadd`, `hset` or `sadd`, are both kept if and only if the second
client looks after the first one's `Insert` and the last record is put with both changes seen. -/
theorem first_writes_kept_iff (E : Env) (disk : Bool) (js : List Bool) (c : Call) (key : Bytes) :
    (∀ (w : Bool → Write (Collection.zset E)) (st : Slot E), (w false).name ≠ (w true).name →
        Returned (afterMoves disk w js) → st = (afterMoves disk w js).shared.slot →
      (((∀ i, st.reply c (.zscore key (w i).name) = .score (some (w i).element)) ∧
        (disk = true → ∃ zs, st.record.map (fun data => deserializeZset E.memberHash data .empty) =
            some (true, zs) ∧ ∀ i, zs.getScore (w i).name = some (w i).element)) ↔
        Ordered disk w js)) ∧
    (∀ (w : Bool → Write (Collection.hash E)) (st : Slot E), (w false).name ≠ (w true).name →
        Returned (afterMoves disk w js) → st = (afterMoves disk w js).shared.slot →
      (((∀ i, st.reply c (.hget key (w i).name) = .bytesOption (some (w i).element)) ∧
        (disk = true → ∃ h, st.record.map (fun data => deserializeHash data ∅) = some (true, h) ∧
          ∀ i, h.lookup (w i).name = some (w i).element)) ↔ Ordered disk w js)) ∧
    (∀ (w : Bool → Write (Collection.set E)) (st : Slot E), (w false).name ≠ (w true).name →
        Returned (afterMoves disk w js) → st = (afterMoves disk w js).shared.slot →
      (((∀ i, st.reply c (.sismember key (w i).name) = .bool true) ∧
        (disk = true → ∃ s, st.record.map (fun data => deserializeSet data ∅) = some (true, s) ∧
          ∀ i, (w i).name ∈ s)) ↔ Ordered disk w js)) := by
  refine ⟨?_, ?_, ?_⟩
  · rintro w st hne hreturned rfl
    rw [← kept_zadd key, kept_iff hne hreturned]
  · rintro w st hne hreturned rfl
    rw [← kept_hset key, kept_iff hne hreturned]
  · rintro w st hne hreturned rfl
    rw [← kept_sadd key, kept_iff hne hreturned]

/-- One client after the other: both members are in the set, and in the record. -/
theorem first_writes_kept_iff_turns :
    let w : Bool → Write (Collection.set Env.bare) := fun i => ⟨[if i then 98 else 97], (), true⟩
    let st := (afterMoves true w (.replicate 8 false ++ .replicate 8 true)).shared.slot
    (∀ i, st.reply (.ofNow 6) (.sismember [107] (w i).name) = .bool true) ∧
      ∃ s, st.record.map (fun data => deserializeSet data ∅) = some (true, s) ∧
        ∀ i, (w i).name ∈ s := by
  intro w st
  have hreturned : Returned (afterMoves true w (.replicate 8 false ++ .replicate 8 true)) := by
    unfold Returned
    decide
  have hordered : Ordered true w (.replicate 8 false ++ .replicate 8 true) :=
    ⟨false, ⟨.replicate 8 false, .replicate 7 true, rfl, rfl, by decide⟩, fun _ =>
      ⟨fun _ => Nat.one_lt_two_pow (by decide), true, rfl,
        ⟨.replicate 8 false ++ .replicate 2 true, .replicate 5 true, rfl, rfl, by decide⟩, fun _ =>
        ⟨.replicate 8 false ++ .replicate 3 true, .replicate 4 true, rfl, rfl, by decide⟩⟩⟩
  have hkept := ((first_writes_kept_iff Env.bare true _ (.ofNow 6) [107]).2.2 w st (by decide)
    hreturned rfl).mpr hordered
  exact ⟨hkept.1, hkept.2 rfl⟩

/-- Both clients look before either has put a collection into the map: the one that the map is left
with has the second client's member only, in memory and in the record. -/
theorem first_write_lost :
    ∃ (w : Bool → Write (Collection.set Env.bare)) (js : List Bool),
      (w false).name ≠ (w true).name ∧ (∀ i, (w i).putOk = true) ∧
        Returned (afterMoves true w js) ∧
        (afterMoves true w js).shared.slot.reply (.ofNow 6)
          (.sismember [107] (w false).name) = .bool false ∧
        ∃ s, (afterMoves true w js).shared.record.map (fun data => deserializeSet data ∅) =
          some (true, s) ∧ (w false).name ∉ s := by
  refine ⟨fun i => ⟨[if i then 98 else 97], (), true⟩,
    [false, true] ++ List.replicate 7 false ++ List.replicate 7 true,
    by decide, by decide, ?_, by decide, ⟨_, rfl, by decide⟩⟩
  unfold Returned
  decide

end Commands

end AstraKV
