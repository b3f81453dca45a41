import AstraKV.Binding.Calls

/-!
# AstraKV.Binding.Served

The Rust binding hands each answer of the engine on, and of the buffers on
their way none is lost, used after it is freed, or freed twice
(`kv_calls_served`).

Two runs are compared. In one, every method of the binding goes through the C
interface: memory is asked for, filled, copied and freed again, and each
access names its block. In the other the engine answers directly, and all that
is left of the heap is the count of requests made so far, because a request
may be refused. `Behind` relates the two: same engine, same iterators, the
same number of requests, and a heap with exactly the blocks it had at the
start. `Serves` says that a call preserves this and gives the same reply, and
there is one lemma for each way the binding handles a result.

Since reading a block that is not there has no result in the first run, a call
that is served never used one.
-/

namespace AstraKV

open CApi Kv Filling Machine Framed LittleEndian

variable {E : Env} {α β : Type} {A : Allocator} {c : Call} {s s' s'' : CState E} {t : Bound E}

/-! ## running code -/

/-- Running one step and then the rest. -/
theorem CM.bind_eq {m : CM E α} {f : α → CM E β} {a : α} (h : m s = some (a, s')) :
    (m >>= f) s = f a s' := by
  simp only [Bind.bind, StateT.bind, h, Option.bind_some]

/-- Running a step and changing its result. -/
theorem CM.map_eq {m : CM E α} (f : α → β) {a : α} (h : m s = some (a, s')) :
    (f <$> m) s = some (f a, s') := by
  simp only [Functor.map, StateT.map, h, Option.bind_eq_bind, Option.bind_some]
  rfl

/-- A result that is only wrapped. -/
theorem CM.map_return {γ : Type} (m : CM E α) (g : α → β) (f : β → γ) :
    (f <$> (do let a ← m; return g a) : CM E γ) s = ((fun a => f (g a)) <$> m) s := by
  simp only [Functor.map, StateT.map, Bind.bind, StateT.bind]
  cases m s <;> rfl

/-- The state with another engine. -/
def CState.withEngine (s : CState E) (e : Engine E) : CState E := { s with engine := e }

def CState.withHeap (s : CState E) (h : CHeap) : CState E := { s with heap := h }

/-- Another engine leaves the heap. -/
@[simp] theorem CState.heap_withEngine (s : CState E) (e : Engine E) :
    (s.withEngine e).heap = s.heap := rfl

/-- Another heap leaves the engine. -/
@[simp] theorem CState.engine_withHeap (s : CState E) (h : CHeap) :
    (s.withHeap h).engine = s.engine := rfl

/-- Asking the engine changes the engine alone. -/
theorem onEngine_apply (f : Engine E → α × Engine E) :
    onEngine f s = some ((f s.engine).1, s.withEngine (f s.engine).2) := rfl

/-- An operation that may have no result, when it has one, asks the engine alike. -/
theorem onEngineUnsafe_apply {f : Engine E → Option α × Engine E} {a : α}
    (h : (f s.engine).1 = some a) :
    onEngineUnsafe f s = some (a, s.withEngine (f s.engine).2) := by
  unfold onEngineUnsafe
  dsimp only
  rw [h]
  rfl

/-! ## buffers -/

section Buffers

variable {size len : Nat} {write : Filling → Option Filling} {bs : Bytes}

/-- When memory is given, the buffer handed out has the bytes written to it. -/
theorem handOut_given (hwrite : Writes write bs) (hsize : size = bs.length)
    (hgives : A.gives s.heap.requests size = true) :
    handOut A size len write s =
      some ((0, some s.heap.requests, len), s.withHeap (s.heap.gave bs)) := by
  have hmalloc : CApi.malloc A size s = some (some s.heap.requests,
      s.withHeap (s.heap.gave ((List.range size).map A.junk))) := by
    unfold CApi.malloc
    rw [CHeap.malloc_given hgives]
    rfl
  have hfill : CApi.fill (some s.heap.requests) write
      (s.withHeap (s.heap.gave ((List.range size).map A.junk))) =
        some ((), s.withHeap (s.heap.gave bs)) := by
    unfold CApi.fill CState.withHeap
    dsimp only
    rw [CHeap.fill_gave hwrite (by simp [hsize])]
    rfl
  unfold handOut
  rw [CM.bind_eq hmalloc]
  dsimp only [Option.isNone_some]
  exact CM.bind_eq hfill

/-- When it is refused, the function fails and no block is left behind. -/
theorem handOut_refused (hgives : A.gives s.heap.requests size = false) :
    handOut A size len write s = some ((-1, none, len), s.withHeap (s.heap.asked 1)) := by
  have hmalloc : CApi.malloc A size s = some (none, s.withHeap (s.heap.asked 1)) := by
    unfold CApi.malloc
    rw [CHeap.malloc_refused hgives]
    rfl
  unfold handOut
  rw [CM.bind_eq hmalloc]
  rfl

/-- What was handed out is copied and freed. -/
theorem takeOver_gave (hfresh : s.heap.Fresh) (hlen : len ≤ bs.length) :
    takeOver (some s.heap.requests) len (s.withHeap (s.heap.gave bs)) =
      some (bs.take len, s.withHeap (s.heap.asked 1)) := by
  have hread : fromRawParts (some s.heap.requests) len (s.withHeap (s.heap.gave bs)) =
      some (bs.take len, s.withHeap (s.heap.gave bs)) := by
    unfold fromRawParts CState.withHeap
    dsimp only
    rw [CHeap.read_gave hlen]
    rfl
  have hfree : Kv.free (some s.heap.requests) (s.withHeap (s.heap.gave bs)) =
      some ((), s.withHeap (s.heap.asked 1)) := by
    unfold Kv.free CState.withHeap
    dsimp only
    rw [CHeap.free_gave hfresh]
    rfl
  unfold takeOver
  rw [CM.bind_eq hread, CM.bind_eq hfree]
  rfl

end Buffers

/-! ## calls that are served -/

/-- What is behind the interface, with the blocks `block` of others. -/
structure Behind (block : Nat → Option Bytes) (s : CState E) (t : Bound E) : Prop where
  engine : s.engine = t.engine
  block : s.heap.block = block
  requests : s.heap.requests = t.requests
  fresh : s.heap.Fresh
  iters : ∀ it, t.iters.lookup it = (s.iters.lookup it).map fun iter => iter.entries.drop iter.pos
  made : s.made = t.made

/-- The code gives the answer and leads to the state. -/
def Serves (block : Nat → Option Bytes) (m : CM E KvReply) (s : CState E)
    (res : KvReply × Bound E) : Prop :=
  ∃ s', m s = some (res.1, s') ∧ Behind block s' res.2

variable {block : Nat → Option Bytes}

/-- Changing both engines alike keeps the relation. -/
theorem Behind.withEngine (h : Behind block s t) (e : Engine E) :
    Behind block (s.withEngine e) { t with engine := e } :=
  ⟨rfl, h.block, h.requests, h.fresh, h.iters, h.made⟩

/-- Requests that gave nothing keep it. -/
theorem Behind.asked (h : Behind block s t) (n : Nat) :
    Behind block (s.withHeap (s.heap.asked n)) { t with requests := t.requests + n } :=
  ⟨h.engine, h.block, by rw [← h.requests]; rfl, h.fresh.asked n, h.iters, h.made⟩

section Families

variable {f : Engine E → α × Engine E}

/-- Code that only asks the engine. -/
theorem Behind.ask (h : Behind block s t) {wrap : α → KvReply} {m : CM E KvReply}
    (hm : m s = some (wrap (f s.engine).1, s.withEngine (f s.engine).2)) :
    Serves block m s (t.ask f wrap) := by
  rw [h.engine] at hm
  exact ⟨_, hm, h.withEngine _⟩

/-- Code that asks the engine, and then for a buffer. -/
theorem Behind.askBuffer (h : Behind block s t) {size : α → Option Nat} {wrap : α → KvReply}
    {refused : KvReply} {m : CM E KvReply}
    (hnone : size (f s.engine).1 = none →
      m s = some (wrap (f s.engine).1, s.withEngine (f s.engine).2))
    (hsome : ∀ n, size (f s.engine).1 = some n →
      m s = some (if A.gives s.heap.requests n then wrap (f s.engine).1 else refused,
        (s.withEngine (f s.engine).2).withHeap (s.heap.asked 1))) :
    Serves block m s (t.askBuffer A f size wrap refused) := by
  unfold Bound.askBuffer
  rw [h.engine] at hnone hsome
  dsimp only
  cases hsize : size (f t.engine).1 with
  | none => exact ⟨_, hnone hsize, h.withEngine _⟩
  | some n =>
      have hcall := hsome n hsize
      rw [h.requests] at hcall
      exact ⟨_, hcall, (h.withEngine _).asked 1⟩

end Families

/-- A function that returns a status asks the engine once. -/
theorem status_apply (f : Engine E → Bool × Engine E) :
    status f s = some (if (f s.engine).1 then 0 else -1, s.withEngine (f s.engine).2) := rfl

/-- A function with a number to give asks the engine once. -/
theorem scalar_apply (f : Engine E → Option α × Engine E) :
    scalar f s = some ((if (f s.engine).1.isSome then 0 else -1, (f s.engine).1),
      s.withEngine (f s.engine).2) := rfl

/-- A status read by the binding as done or failed. -/
theorem orError_status (error : KvError) (f : Engine E → Bool × Engine E) :
    (KvReply.done <$> orError error (status f)) s =
      some (Bound.done error (f s.engine).1, s.withEngine (f s.engine).2) := by
  refine CM.map_eq _ ((CM.bind_eq (status_apply f)).trans ?_)
  cases (f s.engine).1 <;> rfl

/-- A status read by the binding as a truth value. -/
theorem isZero_status (f : Engine E → Bool × Engine E) :
    (KvReply.bool <$> isZero (status f)) s =
      some (.bool (f s.engine).1, s.withEngine (f s.engine).2) := by
  refine CM.map_eq _ ((CM.bind_eq (status_apply f)).trans ?_)
  cases (f s.engine).1 <;> rfl

/-- A number that is always there, read by the binding. -/
theorem outOf_total (f : Engine E → Int × Engine E) :
    (KvReply.int <$> outOf (total f)) s =
      some (.int (f s.engine).1, s.withEngine (f s.engine).2) := rfl

/-! ## calls that hand out a buffer -/

/-- Writing two parts one after the other writes them both. -/
theorem writes_memcpy_append (as bs : Bytes) :
    Writes (fun w => memcpy as w >>= memcpy bs) (as ++ bs) :=
  (writes_memcpy as).bind (writes_memcpy bs)

/-- `get`, `lpop`, `rpop`, `hget` and `jsonget`. -/
theorem bytesOrNone_copyOut (hfresh : s.heap.Fresh) (nullCheck : Bool) (tail : Bytes)
    (f : Engine E → Option Bytes × Engine E) :
    ((f s.engine).1 = none → bytesOrNone nullCheck (copyOut A tail f) s =
      some (.ok (f s.engine).1, s.withEngine (f s.engine).2)) ∧
    ∀ v, (f s.engine).1 = some v → bytesOrNone nullCheck (copyOut A tail f) s =
      some (if A.gives s.heap.requests (v.length + tail.length) then .ok (f s.engine).1
        else .ok none, (s.withEngine (f s.engine).2).withHeap (s.heap.asked 1)) := by
  have hop := onEngine_apply f (s := s)
  constructor
  · intro hnone
    rw [hnone] at hop ⊢
    have hcopy : copyOut A tail f s = some ((-1, none, 0), s.withEngine (f s.engine).2) :=
      CM.bind_eq hop
    exact CM.bind_eq hcopy
  · intro v hv
    rw [hv] at hop ⊢
    cases hgives : A.gives s.heap.requests (v.length + tail.length) with
    | false =>
        have hcopy : copyOut A tail f s = some ((-1, none, v.length),
            (s.withEngine (f s.engine).2).withHeap (s.heap.asked 1)) := by
          refine (CM.bind_eq hop).trans ?_
          exact handOut_refused (s := s.withEngine (f s.engine).2) hgives
        exact CM.bind_eq hcopy
    | true =>
        have hcopy : copyOut A tail f s = some ((0, some s.heap.requests, v.length),
            (s.withEngine (f s.engine).2).withHeap (s.heap.gave (v ++ tail))) := by
          refine (CM.bind_eq hop).trans ?_
          exact handOut_given (s := s.withEngine (f s.engine).2) (writes_memcpy_append v tail)
            (by simp) hgives
        have hlen : v.length ≤ (v ++ tail).length := by simp
        have htake := takeOver_gave (s := s.withEngine (f s.engine).2) hfresh hlen
        rw [List.take_left] at htake
        unfold bytesOrNone
        rw [CM.bind_eq hcopy]
        simp only [Option.isNone_some, Bool.and_false]
        exact CM.bind_eq htake

section Packed

variable {msg : String} {op : CM E (List α)} {size : List α → Nat}
  {write : List α → Filling → Option Filling} {entries : List α} {bs : Bytes}

/-- With nothing to hand out there is no buffer, and the binding gives no bytes. -/
theorem bytesOrError_packOut_nil (hop : op s = some ([], s')) :
    bytesOrError msg (op >>= packOut A size write) s = some (.ok [], s') := by
  have hpack : (op >>= packOut A size write) s = some ((0, none, 0), s') := CM.bind_eq hop
  exact CM.bind_eq hpack

/-- `hgetall`, `smembers`, `zrange`, `zrangebyscore`, `xread` and `vecsearch`. -/
theorem bytesOrError_packOut (hop : op s = some (entries, s')) (hne : entries ≠ [])
    (hfresh : s'.heap.Fresh) (hwrite : Writes (write entries) bs)
    (hsize : size entries = bs.length) :
    bytesOrError msg (op >>= packOut A size write) s =
      some (if A.gives s'.heap.requests (size entries) then .ok bs else .error (.ioError msg),
        s'.withHeap (s'.heap.asked 1)) := by
  have hpack : (op >>= packOut A size write) s =
      handOut A (size entries) (size entries) (write entries) s' := by
    refine (CM.bind_eq hop).trans ?_
    unfold packOut
    rw [if_neg (by simpa using hne)]
  cases hgives : A.gives s'.heap.requests (size entries) with
  | false =>
      rw [handOut_refused hgives] at hpack
      exact CM.bind_eq hpack
  | true =>
      rw [handOut_given hwrite hsize hgives] at hpack
      have htake := takeOver_gave hfresh hsize.le
      rw [hsize, List.take_length, ← hsize] at htake
      unfold bytesOrError
      rw [CM.bind_eq hpack]
      exact CM.bind_eq htake

/-- The entries are parsed once the buffer is there. -/
theorem scoredOrError_eq {call : CM E (Int × Option Nat × Nat)} {res : Except KvError Bytes}
    (h : bytesOrError msg call s = some (res, s')) :
    scoredOrError msg call s = some (res.map parseZsetEntries, s') := by
  cases hcall : call s with
  | none =>
      unfold bytesOrError at h
      simp [Bind.bind, StateT.bind, hcall] at h
  | some r =>
      obtain ⟨⟨ret, out, outLen⟩, s₁⟩ := r
      unfold bytesOrError at h
      unfold scoredOrError
      rw [CM.bind_eq hcall] at h ⊢
      dsimp only at h ⊢
      by_cases hret : ret ≠ 0
      · rw [if_pos hret] at h ⊢
        obtain ⟨rfl, rfl⟩ := Prod.mk.inj (Option.some.inj h)
        rfl
      · rw [if_neg hret] at h ⊢
        cases out with
        | none =>
            obtain ⟨rfl, rfl⟩ := Prod.mk.inj (Option.some.inj h)
            rfl
        | some p =>
            cases htake : takeOver (some p) outLen s₁ with
            | none => simp [Bind.bind, StateT.bind, htake] at h
            | some r' =>
                have hrest : (takeOver (some p) outLen >>= fun data =>
                    (pure (.ok data) : CM E (Except KvError Bytes))) s₁ =
                      some (.ok r'.1, r'.2) := CM.bind_eq htake
                obtain ⟨rfl, rfl⟩ := Prod.mk.inj (Option.some.inj (hrest.symm.trans h))
                exact CM.bind_eq htake

end Packed

/-- A scored entry is written in its packed form. -/
theorem writes_writeScored (entry : Bytes × Binary64) :
    Writes (writeScored entry) (packEntry entry) :=
  (writes_copyBytes entry.1).bind (writes_memcpy (put 8 entry.2.bits.toNat))

theorem writes_writeNearest (result : Bytes × Binary32) :
    Writes (writeNearest result) (Bound.putNearest result) :=
  (writes_copyBytes result.1).bind (writes_memcpy (put 4 result.2.bits.toNat))

theorem writes_writeResults (results : List (Bytes × Binary32)) :
    Writes (writeResults results) (put 4 results.length ++ results.flatMap Bound.putNearest) :=
  (writes_memcpy (put 4 results.length)).bind (writes_copyEach writes_writeNearest results)

/-- The size computed for a scored buffer is that of its bytes. -/
theorem packedSize_eq {entries : List (Bytes × Binary64)}
    (hlt : ∀ entry ∈ entries, entry.1.length < 2 ^ 32) :
    packedSize entries = (entries.flatMap packEntry).length := by
  rw [List.length_flatMap, packedSize]
  exact congrArg List.sum
    (List.map_congr_left fun entry h => (length_packEntry entry (hlt entry h)).symm)

/-- The size computed for a result buffer is that of its bytes. -/
theorem nearestSize_eq {results : List (Bytes × Binary32)}
    (hlt : ∀ result ∈ results, result.1.length < 2 ^ 32) :
    nearestSize results = (put 4 results.length ++ results.flatMap Bound.putNearest).length := by
  rw [List.length_append, length_put, List.length_flatMap, nearestSize]
  refine congrArg (4 + ·) (congrArg List.sum (List.map_congr_left fun result h => ?_))
  rw [Bound.putNearest, List.length_append, length_putBytes_of_lt (hlt result h), length_put]

/-- Only an empty answer asks for no buffer. -/
theorem sizeOf_eq_none {size : List α → Nat} {as : List α} :
    Bound.sizeOf size as = none ↔ as = [] := by
  unfold Bound.sizeOf
  cases as <;> simp

/-- Any other asks for one of its size. -/
theorem sizeOf_eq_some {size : List α → Nat} {as : List α} {n : Nat} :
    Bound.sizeOf size as = some n ↔ as ≠ [] ∧ size as = n := by
  unfold Bound.sizeOf
  cases as <;> simp

/-! ## each call -/

/-- Calls that report done or failed are served. -/
theorem Behind.orError (h : Behind block s t) (error : KvError) (f : Engine E → Bool × Engine E) :
    Serves block (KvReply.done <$> Kv.orError error (status f)) s (t.ask f (Bound.done error)) :=
  h.ask (orError_status error f)

/-- Calls that report a truth value are served. -/
theorem Behind.isZero (h : Behind block s t) (f : Engine E → Bool × Engine E) :
    Serves block (KvReply.bool <$> Kv.isZero (status f)) s (t.ask f .bool) :=
  h.ask (isZero_status f)

/-- Calls that report a number are served. -/
theorem Behind.outOf (h : Behind block s t) (f : Engine E → Int × Engine E) :
    Serves block (KvReply.int <$> Kv.outOf (total f)) s (t.ask f .int) :=
  h.ask (outOf_total f)

/-- Calls that hand out one byte string, or none, are served. -/
theorem Behind.bytesOrNone (h : Behind block s t) (nullCheck : Bool) (tail : Bytes)
    (f : Engine E → Option Bytes × Engine E) (wrap : Except KvError (Option Bytes) → KvReply) :
    Serves block (wrap <$> Kv.bytesOrNone nullCheck (copyOut A tail f)) s
      (t.askBuffer A f (Option.map fun v => v.length + tail.length) (fun v => wrap (.ok v))
        (wrap (.ok none))) := by
  obtain ⟨hnone, hsome⟩ := bytesOrNone_copyOut (A := A) h.fresh nullCheck tail f
  refine h.askBuffer (fun hsize => ?_) fun n hsize => ?_
  · exact CM.map_eq _ (hnone (Option.map_eq_none_iff.mp hsize))
  · obtain ⟨v, hv, rfl⟩ := Option.map_eq_some_iff.mp hsize
    refine (CM.map_eq _ (hsome v hv)).trans ?_
    cases A.gives s.heap.requests (v.length + tail.length) <;> rfl

/-- Calls whose buffer has the elements packed. -/
theorem Behind.packed (h : Behind block s t) {f : Engine E → List α × Engine E}
    {size : List α → Nat} {write : List α → Filling → Option Filling} (pack : List α → Bytes)
    (hpack : pack [] = [])
    (hwrite : (f t.engine).1 ≠ [] → Writes (write (f t.engine).1) (pack (f t.engine).1))
    (hsize : (f t.engine).1 ≠ [] → size (f t.engine).1 = (pack (f t.engine).1).length)
    (msg : String) (wrap : Except KvError Bytes → KvReply) :
    Serves block (wrap <$> bytesOrError msg (onEngine f >>= packOut A size write)) s
      (t.askBuffer A f (Bound.sizeOf size) (fun as => wrap (.ok (pack as)))
        (wrap (.error (.ioError msg)))) := by
  rw [← h.engine] at hwrite hsize
  have hop := onEngine_apply f (s := s)
  refine h.askBuffer (fun hnone => ?_) fun n hsome => ?_
  · have hnil := sizeOf_eq_none.mp hnone
    rw [hnil] at hop ⊢
    rw [hpack]
    exact CM.map_eq _ (bytesOrError_packOut_nil hop)
  · obtain ⟨hne, rfl⟩ := sizeOf_eq_some.mp hsome
    refine (CM.map_eq _ (bytesOrError_packOut hop hne h.fresh (hwrite hne) (hsize hne))).trans ?_
    rw [CState.heap_withEngine, apply_ite wrap]

/-- `zrange` and `zrangebyscore`. -/
theorem Behind.scored (h : Behind block s t)
    {f : Engine E → Option (List (Bytes × Binary64)) × Engine E}
    (hfits : ∃ entries, (f t.engine).1 = some entries ∧
      ∀ entry ∈ entries, entry.1.length < 2 ^ 32) (msg : String) :
    Serves block
      (KvReply.scored <$> scoredOrError msg
        (onEngineUnsafe f >>= packOut A packedSize (copyEach writeScored))) s
      (t.askBuffer A f (fun r => Bound.sizeOf packedSize (r.getD [])) Bound.scored
        (.scored (.error (.ioError msg)))) := by
  rw [← h.engine] at hfits
  obtain ⟨entries, hentries, hlt⟩ := hfits
  have hop := onEngineUnsafe_apply hentries
  refine h.askBuffer (fun hnone => ?_) fun n hsome => ?_
  · rw [hentries] at hnone ⊢
    obtain rfl := sizeOf_eq_none.mp hnone
    exact CM.map_eq _ (scoredOrError_eq (bytesOrError_packOut_nil hop))
  · rw [hentries] at hsome ⊢
    obtain ⟨hne, rfl⟩ := sizeOf_eq_some.mp hsome
    have hwrite := writes_copyEach writes_writeScored entries
    refine (CM.map_eq _ (scoredOrError_eq
      (bytesOrError_packOut hop hne h.fresh hwrite (packedSize_eq hlt)))).trans ?_
    rw [CState.heap_withEngine, apply_ite (Except.map parseZsetEntries), apply_ite KvReply.scored]
    have hparse := entriesOf_packEntries A.junk hlt
    rw [packEntries_of_lt A.junk hlt hne] at hparse
    have hscored : KvReply.scored (Except.map parseZsetEntries (.ok (entries.flatMap packEntry))) =
        Bound.scored (some entries) := congrArg (fun entries => KvReply.scored (.ok entries)) hparse
    rw [hscored]
    rfl

/-- Any buffer of fields decodes to something. -/
theorem exists_decodeFields (fields : Bytes) : ∃ fvec, decodeFields fields = some fvec := by
  obtain ⟨fvec, hfvec⟩ := Slice.exists_reads lawful_pairItem putPair_ne_nil fields
  exact ⟨fvec, decodeFields_of_reads hfvec⟩

/-- What `astrakv_xadd` hands out. -/
theorem astrakvXadd_apply (c : Call) (key id : Bytes) {fields : Bytes} {fvec : List (Bytes × Bytes)}
    (hfvec : decodeFields fields = some fvec) :
    ((s.engine.xadd c key id fvec).1 = [] → astrakvXadd A c key id fields s =
      some ((-1, none), s.withEngine (s.engine.xadd c key id fvec).2)) ∧
    ∀ result, (s.engine.xadd c key id fvec).1 = result → result ≠ [] →
      astrakvXadd A c key id fields s =
        if A.gives s.heap.requests (result.length + 1) then
          some ((0, some s.heap.requests), (s.withEngine (s.engine.xadd c key id fvec).2).withHeap
            (s.heap.gave (result ++ [0])))
        else some ((-1, none), (s.withEngine (s.engine.xadd c key id fvec).2).withHeap
          (s.heap.asked 1)) := by
  have hop := onEngine_apply (fun e => e.xadd c key id fvec) (s := s)
  have hdecode : (liftM (decodeFields fields) : CM E _) s = some (fvec, s) := by
    rw [hfvec]
    rfl
  unfold astrakvXadd
  rw [CM.bind_eq hdecode, CM.bind_eq hop]
  constructor
  · intro hnil
    rw [hnil]
    rfl
  · rintro result rfl hne
    rw [if_neg (by simpa using hne)]
    cases hgives : A.gives s.heap.requests ((s.engine.xadd c key id fvec).1.length + 1) with
    | false =>
        exact CM.bind_eq
          (handOut_refused (s := s.withEngine (s.engine.xadd c key id fvec).2) hgives)
    | true =>
        exact CM.bind_eq (handOut_given (s := s.withEngine (s.engine.xadd c key id fvec).2)
          (writes_memcpy_append _ [0]) (by simp) hgives)

/-- Reading a given block as a C string stops at its first zero byte. -/
theorem fromPtr_gave {bs : Bytes} (hmem : 0 ∈ bs) :
    fromPtr (some s.heap.requests) (s.withHeap (s.heap.gave bs)) =
      some (bs.takeWhile (· ≠ 0), s.withHeap (s.heap.gave bs)) := by
  unfold fromPtr CState.withHeap
  dsimp only
  rw [CHeap.readCStr_gave hmem]
  rfl

/-- Freeing the block just given leaves the heap as it was, one request later. -/
theorem free_gave (hfresh : s.heap.Fresh) (bs : Bytes) :
    Kv.free (some s.heap.requests) (s.withHeap (s.heap.gave bs)) =
      some ((), s.withHeap (s.heap.asked 1)) := by
  unfold Kv.free CState.withHeap
  dsimp only
  rw [CHeap.free_gave hfresh]
  rfl

/-- A terminating zero adds nothing to a C string. -/
theorem takeWhile_append_zero (bs : Bytes) :
    (bs ++ [0]).takeWhile (· ≠ 0) = bs.takeWhile (· ≠ 0) := by
  induction bs with
  | nil => rfl
  | cons b bs ih =>
      rw [List.cons_append, List.takeWhile_cons, List.takeWhile_cons, ih]

/-- The string is as long as the ID before its first zero byte. -/
theorem xadd_apply (hfresh : s.heap.Fresh) (c : Call) (key id : Bytes) {fields : Bytes}
    {fvec : List (Bytes × Bytes)} (hfvec : decodeFields fields = some fvec) :
    ((s.engine.xadd c key id fvec).1 = [] → Kv.xadd A c key id fields s =
      some (.error (.ioError "xadd failed"), s.withEngine (s.engine.xadd c key id fvec).2)) ∧
    ∀ result, (s.engine.xadd c key id fvec).1 = result → result ≠ [] →
      Kv.xadd A c key id fields s =
        some (if A.gives s.heap.requests (result.length + 1) then
            .ok (Utf8.fromUtf8Lossy (result.takeWhile (· ≠ 0)))
          else .error (.ioError "xadd failed"),
          (s.withEngine (s.engine.xadd c key id fvec).2).withHeap (s.heap.asked 1)) := by
  obtain ⟨hnil, hcons⟩ := astrakvXadd_apply (A := A) (s := s) c key id hfvec
  refine ⟨fun hres => CM.bind_eq (hnil hres), fun result hres hne => ?_⟩
  have hcall := hcons result hres hne
  cases hgives : A.gives s.heap.requests (result.length + 1) with
  | false =>
      rw [hgives, if_neg Bool.false_ne_true] at hcall
      exact CM.bind_eq hcall
  | true =>
      rw [hgives, if_pos rfl] at hcall
      have hmem : 0 ∈ result ++ [0] := by simp
      have hread := fromPtr_gave (s := s.withEngine (s.engine.xadd c key id fvec).2) hmem
      have hfree := free_gave (s := s.withEngine (s.engine.xadd c key id fvec).2) hfresh
        (result ++ [0])
      rw [takeWhile_append_zero] at hread
      unfold Kv.xadd
      rw [CM.bind_eq hcall]
      exact (CM.bind_eq hread).trans (CM.bind_eq hfree)

/-- `xadd` is served: its ID is handed out as a C string. -/
theorem Behind.xadd (h : Behind block s t) (c : Call) (key id fields : Bytes) :
    Serves block (KvReply.buffer <$> Kv.xadd A c key id fields) s
      (t.askBuffer A (fun e => e.xadd c key id ((decodeFields fields).getD []))
        (Bound.sizeOf fun id => id.length + 1) Bound.text (Bound.text [])) := by
  obtain ⟨fvec, hfvec⟩ := exists_decodeFields fields
  obtain ⟨hnil, hcons⟩ := xadd_apply (A := A) h.fresh c key id hfvec
  rw [hfvec, Option.getD_some]
  refine h.askBuffer (fun hnone => ?_) fun n hsome => ?_
  · have hres := sizeOf_eq_none.mp hnone
    rw [hres]
    exact CM.map_eq _ (hnil hres)
  · obtain ⟨hne, rfl⟩ := sizeOf_eq_some.mp hsome
    refine (CM.map_eq _ (hcons _ rfl hne)).trans ?_
    have htext : Bound.text (s.engine.xadd c key id fvec).1 = .buffer (.ok
        (Utf8.fromUtf8Lossy ((s.engine.xadd c key id fvec).1.takeWhile (· ≠ 0)))) := by
      rw [Bound.text, if_neg (by simpa using hne)]
    rw [apply_ite KvReply.buffer, htext]
    rfl

/-! ## iterators -/

/-- A copy that is not checked gives the block when memory is given. -/
theorem copyUnchecked_apply {bs : Bytes} (hgives : A.gives s.heap.requests bs.length = true) :
    copyUnchecked A bs s = some (some s.heap.requests, s.withHeap (s.heap.gave bs)) := by
  have hmalloc : CApi.malloc A bs.length s = some (some s.heap.requests,
      s.withHeap (s.heap.gave ((List.range bs.length).map A.junk))) := by
    unfold CApi.malloc
    rw [CHeap.malloc_given hgives]
    rfl
  have hfill : CApi.fill (some s.heap.requests) (memcpy bs)
      (s.withHeap (s.heap.gave ((List.range bs.length).map A.junk))) =
        some ((), s.withHeap (s.heap.gave bs)) := by
    unfold CApi.fill CState.withHeap
    dsimp only
    rw [CHeap.fill_gave (writes_memcpy bs) (by simp)]
    rfl
  exact (CM.bind_eq hmalloc).trans (CM.bind_eq hfill)

/-- The two buffers of `Iter::next`. -/
theorem takeTwo_apply (hfresh : s.heap.Fresh) (k v : Bytes) :
    (do
      let k ← fromRawParts (some s.heap.requests) k.length
      let v ← fromRawParts (some (s.heap.requests + 1)) v.length
      Kv.free (some s.heap.requests)
      Kv.free (some (s.heap.requests + 1))
      return some (k, v) : CM E (Option (Bytes × Bytes)))
        (s.withHeap ((s.heap.gave k).gave v)) =
      some (some (k, v), s.withHeap (s.heap.asked 2)) := by
  have hk : fromRawParts (some s.heap.requests) k.length (s.withHeap ((s.heap.gave k).gave v)) =
      some (k, s.withHeap ((s.heap.gave k).gave v)) := by
    unfold fromRawParts CState.withHeap
    dsimp only
    rw [CHeap.read_gave_gave le_rfl, List.take_length]
    rfl
  have hv : fromRawParts (some (s.heap.requests + 1)) v.length
      (s.withHeap ((s.heap.gave k).gave v)) = some (v, s.withHeap ((s.heap.gave k).gave v)) := by
    have hread := CHeap.read_gave (h := s.heap.gave k) (le_refl v.length)
    rw [CHeap.requests_gave, List.take_length] at hread
    unfold fromRawParts CState.withHeap
    dsimp only
    rw [hread]
    rfl
  have hfree : Kv.free (some s.heap.requests) (s.withHeap ((s.heap.gave k).gave v)) =
      some ((), s.withHeap ((s.heap.asked 1).gave v)) := by
    unfold Kv.free CState.withHeap
    dsimp only
    rw [CHeap.free_gave_gave hfresh]
    rfl
  have hfree' : Kv.free (some (s.heap.requests + 1)) (s.withHeap ((s.heap.asked 1).gave v)) =
      some ((), s.withHeap (s.heap.asked 2)) :=
    free_gave (s := s.withHeap (s.heap.asked 1)) (hfresh.asked 1) v
  rw [CM.bind_eq hk, CM.bind_eq hv, CM.bind_eq hfree, CM.bind_eq hfree']
  rfl

/-- `next` hands out key and value of the entry the iterator points at. -/
theorem next_apply {it : Nat} {iter : AstrakvIter} (hiter : s.iters.lookup it = some iter)
    (hfresh : s.heap.Fresh) {entry : Bytes × Bytes} (hentry : iter.entries[iter.pos]? = some entry)
    (hkey : A.gives s.heap.requests entry.1.length = true)
    (hval : A.gives (s.heap.requests + 1) entry.2.length = true) :
    Kv.next A it s = some (some entry,
      { s with
        heap := s.heap.asked 2
        iters := s.iters.insert it ⟨iter.entries, iter.pos + 1⟩ }) := by
  obtain ⟨k, v⟩ := entry
  let s₁ : CState E := { s with iters := s.iters.insert it ⟨iter.entries, iter.pos + 1⟩ }
  have hadvance : advance it s = some (some (k, v), s₁) := by
    unfold advance
    rw [hiter]
    dsimp only [Option.bind_eq_bind, Option.bind_some]
    rw [hentry]
  have hk : copyUnchecked A k s₁ = some (some s.heap.requests, s₁.withHeap (s.heap.gave k)) :=
    copyUnchecked_apply (s := s₁) hkey
  have hv : copyUnchecked A v (s₁.withHeap (s.heap.gave k)) =
      some (some (s.heap.requests + 1), s₁.withHeap ((s.heap.gave k).gave v)) :=
    copyUnchecked_apply (s := s₁.withHeap (s.heap.gave k)) hval
  have hnext : astrakvIterNext A it s =
      some ((0, (some s.heap.requests, k.length), some (s.heap.requests + 1), v.length),
        s₁.withHeap ((s.heap.gave k).gave v)) := by
    unfold astrakvIterNext
    rw [CM.bind_eq hadvance]
    dsimp only
    rw [CM.bind_eq hk, CM.bind_eq hv]
    rfl
  exact (CM.bind_eq hnext).trans (takeTwo_apply (s := s₁) hfresh k v)

/-- At the end of its entries an iterator gives none. -/
theorem next_ended {it : Nat} {iter : AstrakvIter} (hiter : s.iters.lookup it = some iter)
    (hentry : iter.entries[iter.pos]? = none) : Kv.next A it s = some (none, s) := by
  have hadvance : advance it s = some (none, s) := by
    unfold advance
    rw [hiter]
    dsimp only [Option.bind_eq_bind, Option.bind_some]
    rw [hentry]
  have hnext : astrakvIterNext A it s = some ((-1, (none, 0), none, 0), s) := by
    unfold astrakvIterNext
    exact CM.bind_eq hadvance
  exact CM.bind_eq hnext

/-- What is left of the entries of an iterator. -/
theorem Behind.lookup (h : Behind block s t) {it : Nat} {rest : List (Bytes × Bytes)}
    (hrest : t.iters.lookup it = some rest) :
    ∃ iter, s.iters.lookup it = some iter ∧ iter.entries.drop iter.pos = rest := by
  rw [h.iters it] at hrest
  exact Option.map_eq_some_iff.mp hrest

/-- What an iterator still has to give is the same on both sides. -/
theorem Behind.insert (h : Behind block s t) (it : Nat) (iter : AstrakvIter) (it' : Nat) :
    (t.iters.insert it (iter.entries.drop iter.pos)).lookup it' =
      ((s.iters.insert it iter).lookup it').map fun iter => iter.entries.drop iter.pos := by
  rw [Dict.lookup_insert_ite, Dict.lookup_insert_ite]
  split
  · rfl
  · exact h.iters it'

/-- Making an iterator is served. -/
theorem Behind.iter (h : Behind block s t) :
    Serves block (KvReply.handle <$> Kv.iter) s t.iter := by
  refine ⟨{ s with iters := s.iters.insert s.made ⟨s.engine.allEntries, 0⟩, made := s.made + 1 },
    ?_, h.engine, h.block, h.requests, h.fresh, fun it => ?_, ?_⟩
  · rw [Bound.iter, ← h.made]
    rfl
  · rw [Bound.iter, ← h.made, ← h.engine]
    exact h.insert s.made ⟨s.engine.allEntries, 0⟩ it
  · rw [Bound.iter, ← h.made]

/-- `next` is served, if memory is given for the entry at hand. -/
theorem Behind.next (h : Behind block s t) {it : Nat}
    (hfits : ∃ entries, t.iters.lookup it = some entries ∧
      ∀ entry ∈ entries.head?, A.gives t.requests entry.1.length = true ∧
        A.gives (t.requests + 1) entry.2.length = true) :
    Serves block (KvReply.item <$> Kv.next A it) s (t.next it) := by
  obtain ⟨entries, hentries, hgives⟩ := hfits
  obtain ⟨iter, hiter, hrest⟩ := h.lookup hentries
  have hhead : iter.entries[iter.pos]? = entries.head? := by
    rw [← hrest, List.head?_drop]
  unfold Bound.next
  rw [hentries]
  cases entries with
  | nil => exact ⟨s, CM.map_eq _ (next_ended hiter hhead), h⟩
  | cons entry rest =>
      obtain ⟨hkey, hval⟩ := hgives entry rfl
      rw [← h.requests] at hkey hval
      refine ⟨_, CM.map_eq _ (next_apply hiter h.fresh hhead hkey hval), h.engine, h.block, ?_,
        h.fresh.asked 2, fun it' => ?_, h.made⟩
      · rw [← h.requests]
        rfl
      · have htail : iter.entries.drop (iter.pos + 1) = rest := by
          rw [← List.tail_drop, hrest]
          rfl
        have hinsert := h.insert it ⟨iter.entries, iter.pos + 1⟩ it'
        dsimp only at hinsert ⊢
        rwa [htail] at hinsert

/-- Dropping an iterator that there is is served. -/
theorem Behind.dropIter (h : Behind block s t) {it : Nat} (hmem : it ∈ t.iters) :
    Serves block ((fun _ => KvReply.unit) <$> Kv.dropIter it) s (t.dropIter it) := by
  obtain ⟨rest, hrest⟩ := Dict.exists_lookup hmem
  obtain ⟨iter, hiter, -⟩ := h.lookup hrest
  have hdestroy : Kv.dropIter it s = some ((), { s with iters := s.iters.erase it }) := by
    unfold Kv.dropIter astrakvIterDestroy
    rw [hiter]
    rfl
  refine ⟨_, CM.map_eq _ hdestroy, h.engine, h.block, h.requests, h.fresh, fun it' => ?_, h.made⟩
  rw [Bound.dropIter, Dict.lookup_erase_ite, Dict.lookup_erase_ite]
  split
  · rfl
  · exact h.iters it'

/-! ## all calls -/

/-- Each method is served; the cases are the methods of the binding. -/
theorem call_served (h : Behind block s t) (c : Call) (call : KvCall)
    (hfits : t.Fits A (c, call)) : Serves block (Kv.call A c call) s (t.answer A c call) := by
  cases call with
  | put key value => exact h.orError _ fun e => e.put c key value
  | putStr key value => exact h.orError _ fun e => e.put c key value
  | get key => exact h.bytesOrNone true [] (fun e => e.get c key) .bytes
  | delete key => exact h.isZero fun e => e.del key
  | existsKey key => exact h.isZero fun e => e.existsKey c key
  | getStr key =>
      have hget := h.bytesOrNone (A := A) true [] (fun e => e.get c key)
        fun v => .bytes (v.map (Option.map Utf8.fromUtf8Lossy))
      unfold Serves at hget ⊢
      rwa [← CM.map_return] at hget
  | expire key ms => exact h.orError _ fun e => e.expire c key ms
  | ttl key =>
      refine h.ask (CM.map_eq _ ((CM.bind_eq (scalar_apply _)).trans ?_))
      cases (s.engine.ttl c key).1 <;> rfl
  | zadd key member score => exact h.orError _ fun e => e.zadd c key member score
  | zscore key member =>
      refine h.ask (CM.map_eq _ ((CM.bind_eq (scalar_apply _)).trans ?_))
      cases (s.engine.zscore c key member).1 <;> rfl
  | zrem key member => exact h.isZero fun e => e.zrem c key member
  | zcard key => exact h.outOf fun e => e.zcard key
  | zrange key start stop reverse =>
      cases reverse
      · exact h.scored (f := fun e => e.zrange key start stop false) hfits "zrange failed"
      · exact h.scored (f := fun e => e.zrange key start stop true) hfits "zrange failed"
  | zrangebyscore key min max =>
      exact h.scored (f := fun e => e.zrangebyscore key min max) hfits "zrangebyscore failed"
  | lpush key value => exact h.orError _ fun e => e.lpush c key value
  | rpush key value => exact h.orError _ fun e => e.rpush c key value
  | lpop key => exact h.bytesOrNone false [] (fun e => e.lpop c key) .bytes
  | rpop key => exact h.bytesOrNone false [] (fun e => e.rpop c key) .bytes
  | llen key => exact h.outOf fun e => e.llen key
  | hset key field value => exact h.orError _ fun e => e.hset c key field value
  | hget key field => exact h.bytesOrNone true [] (fun e => e.hget c key field) .bytes
  | hdel key field => exact h.isZero fun e => e.hdel c key field
  | hexists key field => exact h.isZero fun e => e.hexists c key field
  | hgetall key =>
      have hgetall := h.packed (A := A) (f := fun e => e.astrakvHgetall key) id rfl
        (fun _ => writes_memcpy _) (fun _ => rfl) "hgetall failed" fun r => .hash (r.map .mk)
      unfold Serves at hgetall ⊢
      rwa [← CM.map_return] at hgetall
  | hlen key => exact h.outOf fun e => e.hlen key
  | hincrby key field delta =>
      refine h.ask (CM.map_eq _ ((CM.bind_eq (scalar_apply _)).trans ?_))
      cases (s.engine.hincrby c key field delta).1 <;> rfl
  | sadd key member => exact h.orError _ fun e => e.sadd c key member
  | srem key member => exact h.isZero fun e => e.srem c key member
  | sismember key member => exact h.isZero fun e => e.sismember c key member
  | smembers key =>
      have hmembers := h.packed (A := A) (f := fun e => e.astrakvSmembers key) id rfl
        (fun _ => writes_memcpy _) (fun _ => rfl) "smembers failed" fun r => .set (r.map .mk)
      unfold Serves at hmembers ⊢
      rwa [← CM.map_return] at hmembers
  | scard key => exact h.outOf fun e => e.scard key
  | xadd key id fields => exact h.xadd c key id fields
  | xread key startId count =>
      refine h.packed (f := fun e => e.xread c key startId count) Bound.streamBytes rfl
        (fun hne => ?_) (fun hne => ?_) "xread failed" .buffer
      · rw [Bound.streamBytes, if_neg (by simpa using hne)]
        exact writes_writeEntries _
      · rw [Bound.streamBytes, if_neg (by simpa using hne)]
        exact streamBufferSize_of_fits hfits
  | xlen key => exact h.outOf fun e => e.xlen c key
  | jsonset key path jsonVal => exact h.orError _ fun e => e.jsonset c key path jsonVal
  | jsonget key path => exact h.bytesOrNone true [0] (fun e => e.jsonget c key path) .bytes
  | vecadd key id vec => exact h.orError _ fun e => e.vecadd c key id vec
  | vecsearch key query k =>
      refine h.packed (f := fun e => e.vecsearch c key query k) Bound.nearestBytes rfl
        (fun hne => ?_) (fun hne => ?_) "vecsearch failed" .buffer
      · rw [Bound.nearestBytes, if_neg (by simpa using hne)]
        exact writes_writeResults _
      · rw [Bound.nearestBytes, if_neg (by simpa using hne)]
        exact nearestSize_eq hfits
  | count => exact h.ask (f := fun e => ((e.count : Int), e)) rfl
  | memoryUsage => exact h.ask (f := fun e => (e.memoryUsage c, e)) rfl
  | iter => exact h.iter
  | next it => exact h.next hfits
  | dropIter it => exact h.dropIter hfits

/-- A step gives the same reply on both sides and keeps the relation. -/
theorem step_served (h : Behind block s t) {i : Call × KvCall} (hfits : t.Fits A i) :
    (Kv.step A (some s) i).1 = (t.step A i).1 ∧
      ∃ s', (Kv.step A (some s) i).2 = some s' ∧ Behind block s' (t.step A i).2 := by
  obtain ⟨s', hcall, hs'⟩ := call_served h i.1 i.2 hfits
  have hstep : Kv.step A (some s) i = (some (t.answer A i.1 i.2).1, some s') := by
    unfold Kv.step
    rw [Option.bind_some, hcall]
  rw [hstep]
  exact ⟨rfl, s', rfl, hs'⟩

theorem run_served (h : Behind block s t) {calls : List (Call × KvCall)}
    (hfits : Along (Bound.step A) (Bound.Fits A) t calls) :
    (run (Kv.step A) (some s) calls).1 = (run (Bound.step A) t calls).1 ∧
      ∃ s', final (Kv.step A) (some s) calls = some s' ∧
        Behind block s' (final (Bound.step A) t calls) := by
  refine simulates_along (R := fun s t => ∃ s', s = some s' ∧ Behind block s' t) ?_
    ⟨s, rfl, h⟩ hfits
  rintro _ t i ⟨s, rfl, hs⟩ hi
  exact step_served hs hi

/-! ## the operations of the engine -/

/-- The operation of the engine that a call is for. -/
def KvCall.op : KvCall → Option Op
  | .put key value | .putStr key value => some (.put key value)
  | .get key | .getStr key => some (.get key)
  | .delete key => some (.del key)
  | .existsKey key => some (.existsKey key)
  | .expire key ms => some (.expire key ms)
  | .ttl key => some (.ttl key)
  | .zadd key member score => some (.zadd key member score)
  | .zscore key member => some (.zscore key member)
  | .zrem key member => some (.zrem key member)
  | .zcard key => some (.zcard key)
  | .zrange key start stop reverse => some (.zrange key start stop reverse)
  | .zrangebyscore key min max => some (.zrangebyscore key min max)
  | .lpush key value => some (.lpush key value)
  | .rpush key value => some (.rpush key value)
  | .lpop key => some (.lpop key)
  | .rpop key => some (.rpop key)
  | .llen key => some (.llen key)
  | .hset key field value => some (.hset key field value)
  | .hget key field => some (.hget key field)
  | .hdel key field => some (.hdel key field)
  | .hexists key field => some (.hexists key field)
  | .hgetall key => some (.astrakvHgetall key)
  | .hlen key => some (.hlen key)
  | .hincrby key field delta => some (.hincrby key field delta)
  | .sadd key member => some (.sadd key member)
  | .srem key member => some (.srem key member)
  | .sismember key member => some (.sismember key member)
  | .smembers key => some (.astrakvSmembers key)
  | .scard key => some (.scard key)
  | .xadd key id fields => some (.xadd key id ((decodeFields fields).getD []))
  | .xread key startId n => some (.xread key startId n)
  | .xlen key => some (.xlen key)
  | .jsonset key path jsonVal => some (.jsonset key path jsonVal)
  | .jsonget key path => some (.jsonget key path)
  | .vecadd key id vec => some (.vecadd key id vec)
  | .vecsearch key query k => some (.vecsearch key query k)
  | .count => some .count
  | .memoryUsage => some .memoryUsage
  | .iter | .next _ | .dropIter _ => none

/-- The operations of a run. -/
def opsOf (calls : List (Call × KvCall)) : List (Call × Op) :=
  calls.filterMap fun i => i.2.op.map fun op => (i.1, op)

/-- Asking for a buffer changes the engine as the operation does. -/
theorem engine_askBuffer {f : Engine E → α × Engine E} {size : α → Option Nat}
    {wrap : α → KvReply} {refused : KvReply} :
    (t.askBuffer A f size wrap refused).2.engine = (f t.engine).2 := by
  unfold Bound.askBuffer
  dsimp only
  cases size (f t.engine).1 <;> rfl

/-- `next` leaves the engine. -/
theorem engine_next (it : Nat) : (t.next it).2.engine = t.engine := by
  unfold Bound.next
  split <;> rfl

/-- A call changes the engine as its operation does, if it has one. -/
theorem engine_answer (c : Call) (call : KvCall) :
    (t.answer A c call).2.engine =
      (call.op.map fun op => (t.engine.step (c, op)).2).getD t.engine := by
  cases call with
  | next it => exact engine_next it
  | get | getStr | zrange | zrangebyscore | lpop | rpop | hget | hgetall | smembers | xadd | xread
  | jsonget | vecsearch =>
      dsimp only [Bound.answer, KvCall.op]
      rw [engine_askBuffer]
      rfl
  | _ => rfl

/-- A run changes the engine as the run of its operations does. -/
theorem engine_final (calls : List (Call × KvCall)) :
    (final (Bound.step A) t calls).engine = final Engine.step t.engine (opsOf calls) := by
  induction calls generalizing t with
  | nil => rfl
  | cons i calls ih =>
      have hengine : (t.step A i).2.engine = _ := engine_answer (t := t) i.1 i.2
      rw [final_cons, ih, hengine, opsOf, opsOf, List.filterMap_cons]
      cases i.2.op <;> rfl

/-- **Every call is answered as the engine answers its operation**, or with a failure where
`malloc` refuses the buffer (no value, for the calls that return an optional byte string), and after
every run the heap has the blocks that it had before: on the way no buffer is read beyond its end or
after it is freed, freed twice, or lost. -/
theorem kv_calls_served {h : CHeap} (hfresh : h.Fresh) (e : Engine E)
    {calls : List (Call × KvCall)}
    (hfits : Along (Bound.step A) (Bound.Fits A) ⟨e, h.requests, ∅, 0⟩ calls) :
    (run (Kv.step A) (some ⟨e, h, ∅, 0⟩) calls).1 =
        (run (Bound.step A) ⟨e, h.requests, ∅, 0⟩ calls).1 ∧
      ∃ s, final (Kv.step A) (some ⟨e, h, ∅, 0⟩) calls = some s ∧ s.heap.block = h.block ∧
        s.engine = final Engine.step e (opsOf calls) := by
  have hstart : Behind h.block ⟨e, h, ∅, 0⟩ ⟨e, h.requests, ∅, 0⟩ :=
    ⟨rfl, rfl, rfl, hfresh, fun it => rfl, rfl⟩
  obtain ⟨hout, s, hs, hbehind⟩ := run_served hstart hfits
  exact ⟨hout, s, hs, hbehind.block, hbehind.engine.trans (engine_final calls)⟩

/-- A `malloc` that has nothing for a request of no bytes. -/
def mallocNonempty : Allocator := ⟨fun _ size => size ≠ 0, fun _ => 0⟩

/-- A list of an empty element and another, a sorted set, and an iterator over a byte string. -/
def pushedAndWalked : List (Call × KvCall) :=
  [(.ofNow 0, .rpush [1] []), (.ofNow 0, .rpush [1] [7]), (.ofNow 0, .lpop [1]),
    (.ofNow 0, .lpop [1]), (.ofNow 0, .put [2] [5]), (.ofNow 0, .zadd [3] [6] ⟨0⟩),
    (.ofNow 0, .zrange [3] 0 (-1) false), (.ofNow 0, .iter), (.ofNow 0, .next 0),
    (.ofNow 0, .dropIter 0)]

/-- Without a block for it an empty element is popped and not returned; the range is packed and the
entry of the iterator copied. -/
theorem kv_calls_served_lost :
    (run (Kv.step mallocNonempty)
        (some ⟨.new Env.bare ⟨[], 0, .k2Q⟩ none, ⟨fun _ => none, 0⟩, ∅, 0⟩) pushedAndWalked).1 =
      [some (.done (.ok ())), some (.done (.ok ())), some (.bytes (.ok none)),
        some (.bytes (.ok (some [7]))), some (.done (.ok ())), some (.done (.ok ())),
        some (.scored (.ok [([6], ⟨0⟩)])), some (.handle 0), some (.item (some ([2], [5]))),
        some .unit] := by
  have hfits : Along (Bound.step mallocNonempty) (Bound.Fits mallocNonempty)
      ⟨.new Env.bare ⟨[], 0, .k2Q⟩ none, 0, ∅, 0⟩ pushedAndWalked := by
    have halive : (0 : Nat) ∈ (final (Bound.step mallocNonempty)
        (⟨.new Env.bare ⟨[], 0, .k2Q⟩ none, 0, ∅, 0⟩ : Bound Env.bare)
        (pushedAndWalked.take 9)).iters := by
      decide +kernel
    exact ⟨trivial, trivial, trivial, trivial, trivial, trivial, ⟨_, rfl, by decide +kernel⟩,
      trivial, ⟨_, rfl, by decide +kernel⟩, halive, trivial⟩
  refine (kv_calls_served (h := ⟨fun _ => none, 0⟩) (fun _ _ => rfl) _ hfits).1.trans ?_
  decide +kernel

end AstraKV
