import AstraKV.Engine.Kind

/-!
# AstraKV.Engine.LastPut

What `get` returns is what was put last, as long as the map of byte strings
is all that it looks at.

The records of all types share one name space, and `get` takes a record for
a byte string without a look at its type; and a write of another type leaves
a byte string in its map.

Two conditions on the steps keep both away. A `Careful` step writes a value of
another type only where there is no byte string in the map, and it is no `get`
that comes to look at the record. An `Untouched` one does not write under the
key at all, be it by `put` or by an operation of another type. Either is a
condition on the operation and the state before it.
-/

namespace AstraKV

open Slot Machine

namespace Shape

variable {E : Env}

/-- The operation changes, makes or drops a value of another type than a byte string. -/
def Overwrites (c : Call) (s : Slot E) : Shape E → Prop
  | .edit _ _ _ | .jsondel => True
  | .update t dim _ => s.found c t dim ≠ none
  | .change t _ => s.value t ≠ none
  | _ => False

/-- Values of other types are written only where there is no byte string in the map, and `get` never
comes to look at the record. -/
def Careful (c : Call) (s : Slot E) (shape : Shape E) : Prop :=
  (shape.Overwrites c s → s.value .kBytes = none) ∧
    (shape = .get → s.valid c.now = true → s.value .kBytes = none → s.record = none)

end Shape

namespace Engine

variable {E : Env} {e e₀ : Engine E} {c : Call} {op : Op} {k v : Bytes} {ops : List (Call × Op)}

def Careful (k : Bytes) (e : Engine E) (i : Call × Op) : Prop :=
  i.2.key = some k → (i.2.shape E i.1).Careful i.1 (e.slot k)

/-- The step neither puts `k` nor writes a value of another type under it. -/
def Untouched (k : Bytes) (e : Engine E) (i : Call × Op) : Prop :=
  i.2.key = some k → (∀ w, i.2 ≠ .put k w) ∧ ¬ (i.2.shape E i.1).Overwrites i.1 (e.slot k)

/-- `v` is the argument of the last `put` of `k` in the run, and no value of another type was
written under `k` since. -/
def LastPut (e₀ : Engine E) (k v : Bytes) (ops : List (Call × Op)) : Prop :=
  ∃ ops₁ c ops₂, ops = ops₁ ++ (c, .put k v) :: ops₂ ∧
    Along step (Untouched k) (final step e₀ (ops₁ ++ [(c, .put k v)])) ops₂

/-- A step that leaves the key alone leaves the value put last. -/
theorem LastPut.append (h : LastPut e₀ k v ops) {i : Call × Op}
    (hi : (final step e₀ ops).Untouched k i) : LastPut e₀ k v (ops ++ [i]) := by
  obtain ⟨ops₁, c, ops₂, rfl, halong⟩ := h
  exact ⟨ops₁, c, ops₂ ++ [i], by simp, along_append_singleton halong hi⟩

/-- A careful `get` adds nothing to the map. -/
theorem value_bytes_get {s : Slot E} {disk : Bool} (hcareful : (Shape.get : Shape E).Careful c s)
    (hv : (s.act c disk .get).value .kBytes = some v) : s.value .kBytes = some v := by
  unfold act at hv
  dsimp only at hv
  split at hv
  · rename_i hvalid
    split at hv
    · exact hv
    · rename_i record hvalue hrecord
      rw [hcareful.2 rfl hvalid hvalue] at hrecord
      contradiction
    · exact hv
  · rwa [value_check] at hv

/-- A byte string in the map is the one just put, or it was there and nothing was put or written
over it. -/
theorem value_bytes_step {i : Call × Op} (hcareful : e.Careful k i)
    (hv : ((e.step i).2.slot k).value .kBytes = some v) :
    i.2 = .put k v ∨ (e.slot k).value .kBytes = some v ∧ e.Untouched k i := by
  obtain ⟨c, op⟩ := i
  have hacted : (e.acted c op k).value .kBytes = some v := by
    cases ((step_steps e c op).slot k).value .kBytes with
    | inl hkept => rw [← hkept, hv]
    | inr hdropped => simp [hdropped] at hv
  by_cases hkey : op.key = some k
  · rw [acted_self hkey] at hacted
    have hcareful := hcareful hkey
    by_cases hkind : (op.shape E c).kind? = some .kBytes
    · have hop := kind_shape hkind
      cases op with
      | put key w =>
          obtain rfl := Option.some.inj hkey
          refine .inl ?_
          simpa [Op.shape, act] using hacted
      | get key =>
          exact .inr ⟨value_bytes_get hcareful hacted, fun _ => ⟨by simp, id⟩⟩
      | _ => simp [Op.kind?] at hop
    · have hvalue : (e.slot k).value .kBytes = some v := by
        have hsame : ((e.slot k).act c e.disk (op.shape E c)).value .kBytes = _ ∨ _ :=
          value_act_of_ne hkind
        cases hsame with
        | inl hkept => rw [← hkept, hacted]
        | inr hdropped => simp [hdropped] at hacted
      refine .inr ⟨hvalue, fun _ => ⟨?_, fun hover => ?_⟩⟩
      · rintro w rfl
        exact hkind rfl
      · simp [hcareful.1 hover] at hvalue
  · rw [acted_of_ne hkey] at hacted
    exact .inr ⟨hacted, fun h => absurd h hkey⟩

/-- The byte string in the map is what was put last. -/
theorem lastPut_of_value (hnone : (e₀.slot k).value .kBytes = none)
    (hcareful : Along step (Careful k) e₀ ops)
    (hv : ((final step e₀ ops).slot k).value .kBytes = some v) : LastPut e₀ k v ops := by
  induction ops using List.reverseRecOn generalizing v with
  | nil =>
      rw [final_nil, hnone] at hv
      contradiction
  | append_singleton ops i ih =>
      rw [along_append] at hcareful
      rw [final_append] at hv
      cases value_bytes_step hcareful.2.1 hv with
      | inl hput => exact ⟨ops, i.1, [], by rw [← hput], trivial⟩
      | inr hkept => exact (ih hcareful.1 hkept.1).append hkept.2

/-- In a careful run a byte string that `get` returns is the argument of the last `put`, and no
value of another type was written since. -/
theorem get_returns_last_put (opts : Options) (stored : Option (Dict Bytes Bytes))
    (hcareful : Along step (Careful k) (new E opts stored) (ops ++ [(c, .get k)]))
    (hget : ((final step (new E opts stored) ops).step (c, .get k)).1 = .bytesOption (some v)) :
    LastPut (new E opts stored) k v ops := by
  rw [along_append] at hcareful
  refine lastPut_of_value rfl hcareful.1 ?_
  rw [step_reply rfl] at hget
  have hlast := (hcareful.2.1 rfl).2 rfl
  generalize (final step (new E opts stored) ops).slot k = s at hget hlast
  simp only [Slot.reply, Reply.bytesOption.injEq] at hget
  split at hget
  · rename_i hvalid
    cases hvalue : s.value .kBytes with
    | some w => simpa [hvalue] using hget
    | none => simp [hvalue, hlast hvalid hvalue] at hget
  · contradiction

/-- The key is put, deleted, put with another value and given an expiry, between operations on
another key. -/
theorem get_returns_last_put_again :
    LastPut (new Env.bare ⟨[47], 0, .k2Q⟩ (some ∅)) [107] [119]
      [(.ofNow 1, .put [107] [118]), (.ofNow 2, .sadd [108] [1]), (.ofNow 3, .del [107]),
        (.ofNow 4, .put [107] [119]), (.ofNow 5, .expire [107] 100),
        (.ofNow 6, .put [108] [7])] := by
  refine get_returns_last_put (c := .ofNow 9) _ _ ?_ (by decide +kernel)
  have hother : ∀ {e : Engine Env.bare} {c : Call} {op : Op}, op.key = some [108] →
      e.Careful [107] (c, op) := fun hkey hkey' => absurd (hkey.symm.trans hkey') (by decide)
  refine ⟨fun _ => ⟨False.elim, nofun⟩, hother rfl, fun _ => ⟨False.elim, nofun⟩,
    fun _ => ⟨False.elim, nofun⟩, fun _ => ⟨False.elim, nofun⟩, hother rfl, fun _ => ?_, trivial⟩
  exact ⟨False.elim, fun _ _ hnone => absurd hnone (by decide +kernel)⟩

/-- The record of a sorted set, returned as a byte string. -/
theorem get_returns_record :
    ((final step (new Env.bare ⟨[47], 0, .k2Q⟩ (some ∅))
      [(.ofNow 5, .zadd [107] [109] ⟨0⟩)]).step (.ofNow 6, .get [107])).1 =
        .bytesOption (some [1, 0, 0, 0, 1, 0, 0, 0, 109, 0, 0, 0, 0, 0, 0, 0, 0]) ∧
      ¬ LastPut (new Env.bare ⟨[47], 0, .k2Q⟩ (some ∅)) [107]
        [1, 0, 0, 0, 1, 0, 0, 0, 109, 0, 0, 0, 0, 0, 0, 0, 0]
        [(.ofNow 5, .zadd [107] [109] ⟨0⟩)] := by
  refine ⟨by decide +kernel, ?_⟩
  rintro ⟨ops₁, c, ops₂, hops, -⟩
  have hmem : (c, Op.put [107] [1, 0, 0, 0, 1, 0, 0, 0, 109, 0, 0, 0, 0, 0, 0, 0, 0]) ∈
      [(Call.ofNow 5, Op.zadd [107] [109] ⟨0⟩)] := by
    rw [hops]
    simp
  simp at hmem

end Engine

end AstraKV
