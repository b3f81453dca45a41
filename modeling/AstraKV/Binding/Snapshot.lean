import AstraKV.Binding.Served
import AstraKV.Lib.Projection

/-!
# AstraKV.Binding.Snapshot

An iterator shows the byte strings that there were when it was made, whatever
else is done between two calls of `next`.

`astrakv_iter` copies all byte strings into the iterator, so nothing that
happens to the engine afterwards can reach them. The proof is a projection:
seen from one iterator, a run is the run of its own `next` calls, and all
other calls leave its entries alone. The entries themselves are the byte
strings of the engine at the time, each key once.
-/

namespace AstraKV

open CApi Machine

variable {E : Env} {A : Allocator} {t : Bound E} {it : Nat}

/-- A call of `next` on the iterator. -/
def isNext (it : Nat) (i : Call × KvCall) : Bool :=
  match i.2 with
  | .next it' => it' = it
  | _ => false

/-- `next` on what an iterator has before it. -/
def nextOf (rest : Option (List (Bytes × Bytes))) (_ : Call × KvCall) :
    Option KvReply × Option (List (Bytes × Bytes)) :=
  match rest with
  | some (entry :: rest) => (some (.item (some entry)), some rest)
  | some [] => (some (.item none), some [])
  | none => (some (.item none), none)

/-- One entry after the other, and then none. -/
theorem run_nextOf (entries : List (Bytes × Bytes)) (calls : List (Call × KvCall)) :
    (run nextOf (some entries) calls).1 =
      (List.range calls.length).map fun k => some (.item entries[k]?) := by
  induction calls generalizing entries with
  | nil => rfl
  | cons i calls ih =>
      rw [List.length_cons, List.range_succ_eq_map, List.map_cons, List.map_map]
      cases entries with
      | nil => exact congrArg (List.cons (some (KvReply.item none))) (ih [])
      | cons entry entries =>
          exact congrArg (List.cons (some (KvReply.item (some entry)))) (ih entries)

/-! ## other calls -/

/-- The iterator has been made, and is not dropped. -/
def Keeps (it : Nat) (t : Bound E) (i : Call × KvCall) : Prop :=
  it < t.made ∧ i.2 ≠ .dropIter it

/-- Asking for a buffer leaves the iterators. -/
theorem iters_askBuffer {α : Type} {f : Engine E → α × Engine E} {size : α → Option Nat}
    {wrap : α → KvReply} {refused : KvReply} :
    (t.askBuffer A f size wrap refused).2.iters = t.iters ∧
      (t.askBuffer A f size wrap refused).2.made = t.made := by
  unfold Bound.askBuffer
  dsimp only
  cases size (f t.engine).1 <;> exact ⟨rfl, rfl⟩

/-- `next` makes no iterator. -/
theorem made_next (it : Nat) : (t.next it).2.made = t.made := by
  unfold Bound.next
  split <;> rfl

/-- `next` of another iterator leaves this one. -/
theorem lookup_next_of_ne {it' : Nat} (hne : it' ≠ it) :
    (t.next it').2.iters.lookup it = t.iters.lookup it := by
  unfold Bound.next
  split
  · exact (Dict.lookup_insert_ite ..).trans (if_neg hne.symm)
  · rfl
  · rfl

/-- Iterators are made one after the other. -/
theorem made_le (i : Call × KvCall) : t.made ≤ (t.step A i).2.made := by
  obtain ⟨c, call⟩ := i
  cases call with
  | next it => exact (made_next it).ge
  | iter => exact Nat.le_succ t.made
  | get | getStr | zrange | zrangebyscore | lpop | rpop | hget | hgetall | smembers | xadd | xread
  | jsonget | vecsearch => exact iters_askBuffer.2.ge
  | _ => exact le_rfl

/-- What an iterator has before it changes with its own calls. -/
theorem lookup_step {i : Call × KvCall} (hkeeps : Keeps it t i) (hother : isNext it i = false) :
    (t.step A i).2.iters.lookup it = t.iters.lookup it := by
  obtain ⟨c, call⟩ := i
  cases call with
  | next it' => exact lookup_next_of_ne (of_decide_eq_false hother)
  | iter => exact (Dict.lookup_insert_ite ..).trans (if_neg hkeeps.1.ne)
  | dropIter it' =>
      have hne : it ≠ it' := fun heq => hkeeps.2 (heq ▸ rfl)
      exact (Dict.lookup_erase_ite ..).trans (if_neg hne)
  | get | getStr | zrange | zrangebyscore | lpop | rpop | hget | hgetall | smembers | xadd | xread
  | jsonget | vecsearch => exact congrArg (AList.lookup it) iters_askBuffer.1
  | _ => rfl

/-- Seen from one iterator, a run is that of its own `next` calls. -/
theorem projects_next (A : Allocator) (it : Nat) :
    Projects (Keeps it) (isNext it) (fun t : Bound E => t.iters.lookup it) (Bound.step A)
      nextOf := by
  have hown : ∀ (t : Bound E) (i : Call × KvCall), isNext it i = true →
      t.step A i = (some (t.next it).1, (t.next it).2) := by
    rintro t ⟨c, call⟩ hi
    cases call with
    | next it' =>
        obtain rfl : it' = it := of_decide_eq_true hi
        rfl
    | _ => exact absurd hi Bool.false_ne_true
  refine ⟨fun t i _ hi => ?_, fun t i _ hi => ?_, fun t i hkeeps hi => lookup_step hkeeps hi⟩
  · rw [hown t i hi]
    unfold nextOf Bound.next
    cases t.iters.lookup it with
    | none => rfl
    | some rest => cases rest <;> rfl
  · rw [hown t i hi]
    unfold nextOf Bound.next
    cases hrest : t.iters.lookup it with
    | none => exact hrest
    | some rest =>
        cases rest with
        | nil => exact hrest
        | cons entry rest => exact (Dict.lookup_insert_ite ..).trans (if_pos rfl)

/-! ## a whole run -/

/-- The entries are the byte strings there are. -/
theorem mem_allEntries {e : Engine E} {k v : Bytes} :
    (k, v) ∈ e.allEntries ↔ e.find .kBytes k = some v := by
  unfold Engine.allEntries Engine.find
  rw [← Dict.mem_entries, List.mem_map]
  constructor
  · rintro ⟨entry, hentry, heq⟩
    obtain ⟨rfl, rfl⟩ := Prod.mk.inj heq
    exact hentry
  · exact fun hmem => ⟨⟨k, v⟩, hmem, rfl⟩

/-- No key is listed twice. -/
theorem nodup_allEntries (e : Engine E) : (e.allEntries.map Prod.fst).Nodup := by
  unfold Engine.allEntries
  rw [List.map_map]
  exact (e.data .kBytes).keys_nodup

/-- **An iterator is a snapshot**: its calls of `next` give the byte strings that were there when it
was made, each key once with its value, one after the other, and then nothing more, whatever calls
are made between them. -/
theorem iter_snapshot {h : CHeap} (hfresh : h.Fresh) (e : Engine E)
    {earlier later : List (Call × KvCall)} {c : Call}
    (hfits : Along (Bound.step A) (Bound.Fits A) ⟨e, h.requests, ∅, 0⟩
      (earlier ++ (c, .iter) :: later)) :
    ∃ s s', final (Kv.step A) (some ⟨e, h, ∅, 0⟩) earlier = some s ∧
      Kv.step A (some s) (c, .iter) = (some (.handle s.made), some s') ∧
      (s.engine.allEntries.map Prod.fst).Nodup ∧
      (∀ k v, (k, v) ∈ s.engine.allEntries ↔ s.engine.find .kBytes k = some v) ∧
      ((∀ i ∈ later, i.2 ≠ .dropIter s.made) →
        outputsAt (isNext s.made) later (run (Kv.step A) (some s') later).1 =
          (List.range (later.countP (isNext s.made))).map fun k =>
            some (.item s.engine.allEntries[k]?)) := by
  have hstart : Behind h.block ⟨e, h, ∅, 0⟩ ⟨e, h.requests, ∅, 0⟩ :=
    ⟨rfl, rfl, rfl, hfresh, fun it => rfl, rfl⟩
  obtain ⟨hearlier, hiter, hlater⟩ := along_append.mp hfits
  obtain ⟨-, s, hs, hbehind⟩ := run_served hstart hearlier
  obtain ⟨hout, s', hs', hbehind'⟩ := step_served hbehind hiter
  generalize final (Bound.step A) ⟨e, h.requests, ∅, 0⟩ earlier = t at *
  have hreply : (t.step A (c, .iter)).1 = some (.handle s.made) := by
    rw [hbehind.made]
    rfl
  refine ⟨s, s', hs, Prod.ext (hout.trans hreply) hs', nodup_allEntries _,
    fun k v => mem_allEntries, fun hkeep => ?_⟩
  have hmade : s.made < (t.step A (c, .iter)).2.made := by
    rw [hbehind.made]
    exact Nat.lt_succ_self _
  have hkeeps : Along (Bound.step A) (Keeps s.made) (t.step A (c, .iter)).2 later :=
    along_invariant (I := fun t : Bound E => s.made < t.made)
      (fun t i ht _ => ht.trans_le (made_le i)) (fun t i ht hi => ⟨ht, hi⟩) hmade
      (along_of_forall hkeep _)
  have hrest : (t.step A (c, .iter)).2.iters.lookup s.made = some s.engine.allEntries := by
    rw [hbehind.made, hbehind.engine]
    exact (Dict.lookup_insert_ite ..).trans (if_pos rfl)
  rw [(run_served hbehind' hlater).1, ((projects_next A s.made).run hkeeps).1]
  rw [hrest, run_nextOf, List.countP_eq_length_filter]

/-- A `malloc` that has something for every request. -/
def mallocAlways : Allocator := ⟨fun _ _ => true, fun _ => 0⟩

/-- An engine with one byte string. -/
def oneString : Engine Env.bare :=
  ((Engine.new Env.bare ⟨[], 0, .k2Q⟩ none).put (.ofNow 0) [1] [7]).2

/-- The value is put again and then deleted. -/
def putAndDelete : List (Call × KvCall) :=
  [(.ofNow 0, .put [1] [8]), (.ofNow 0, .next 0), (.ofNow 0, .delete [1]), (.ofNow 0, .next 0)]

theorem iter_snapshot_deleted :
    outputsAt (isNext 0) putAndDelete (run (Kv.step mallocAlways)
      (Kv.step mallocAlways (some ⟨oneString, ⟨fun _ => none, 0⟩, ∅, 0⟩) (.ofNow 0, .iter)).2
      putAndDelete).1 = [some (.item (some ([1], [7]))), some (.item none)] := by
  have hfits : Along (Bound.step mallocAlways) (Bound.Fits mallocAlways) ⟨oneString, 0, ∅, 0⟩
      ([] ++ (.ofNow 0, .iter) :: putAndDelete) :=
    ⟨trivial, trivial, ⟨[([1], [7])], by decide +kernel, fun _ _ => ⟨rfl, rfl⟩⟩, trivial,
      ⟨[], by decide +kernel, fun _ _ => ⟨rfl, rfl⟩⟩, trivial⟩
  obtain ⟨s, s', hs, hiter, -, -, hnext⟩ :=
    iter_snapshot (h := ⟨fun _ => none, 0⟩) (fun _ _ => rfl) oneString hfits
  obtain rfl := Option.some.inj hs
  rw [hiter]
  refine (hnext (by simp [putAndDelete])).trans ?_
  decide +kernel

end AstraKV
