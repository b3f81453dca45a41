import AstraKV.Engine.Cleanup
import AstraKV.Engine.Consistent
import AstraKV.Engine.Memory

/-!
# AstraKV.Engine.Removal

`del` against `exists`.

Nothing of the key is left after `del`, and no other key is touched.  Its
answer comes from the eight maps and not from the metadata, and a map may
still hold the value of a key that has expired.

A key in the metadata always has a value in some map (`Founded`), in every
reachable state; the other way round it need not be. So whenever `exists` says
yes, `del` does, but `del` also says yes of a key that has expired or lost its
metadata, and that is exactly where the two part. Bare means bare: after `del`
not even the tracker knows of the key.
-/

namespace AstraKV

open Machine

namespace Slot

variable {E : Env} {s s' : Slot E} {c : Call} {t : KeyType} {disk ok : Bool}

/-- A key with metadata has a value in some map. -/
def Founded (s : Slot E) : Prop := s.metadata ≠ none → s.Stored

/-- A slot stays founded if it keeps its values and gets no metadata. -/
theorem Founded.of_value (h : s.Founded) (hvalue : s'.value = s.value)
    (hmeta : s'.metadata ≠ none → s.metadata ≠ none) : s'.Founded := by
  intro hm
  obtain ⟨t, ht⟩ := h (hmeta hm)
  exact ⟨t, by rwa [hvalue]⟩

/-- Without metadata there is nothing to found. -/
theorem founded_none (hm : s.metadata = none) : s.Founded := fun h => absurd hm h

/-- A value set is stored. -/
theorem stored_set (v : Value E t) : (s.set t v).Stored := ⟨t, by simp⟩

/-- Being stored is a matter of the values alone. -/
theorem Stored.of_value (h : s.Stored) (hvalue : s'.value = s.value) : s'.Stored := by
  obtain ⟨t, ht⟩ := h
  exact ⟨t, by rwa [hvalue]⟩

/-- A value stored is stored. -/
theorem stored_store (res : Bool × Value E t) : (store disk ok s t res).Stored := by
  unfold store
  dsimp only
  split
  · exact (stored_set res.2).of_value value_save
  · exact stored_set res.2

/-- A check keeps a slot founded. -/
theorem Founded.check (h : s.Founded) (now : Int) : (s.check now).Founded := by
  refine h.of_value value_check fun hm hnone => hm ?_
  rw [metadata_check, hnone, ite_self]

theorem Founded.fetch (h : s.Founded) (dim : Nat) : (s.fetch c t dim).Founded := by
  unfold Slot.fetch
  split
  · exact fun _ => (stored_set _).of_value value_register
  · exact h

theorem Founded.change (h : s.Founded) (f : Value E t → Bool × Value E t) :
    (change disk ok s t f).Founded := by
  unfold Slot.change
  cases s.value t with
  | none => exact h
  | some v => exact fun _ => stored_store (f v)

theorem Founded.touch (h : s.Founded) (now : Int) : (s.touch now).Founded :=
  h.of_value value_touch fun hm hnone => hm (by simp [Slot.touch, hnone])

/-- Values are dropped with the metadata only, and metadata comes with a value. -/
theorem Founded.act {shape : Shape E} (h : s.Founded) : (s.act c disk shape).Founded := by
  cases shape with
  | idle => exact h
  | check => exact h.check c.now
  | expire ms =>
      unfold Slot.act
      dsimp only
      split
      · exact h.of_value rfl fun hm hnone => hm (by simp [hnone])
      · exact h.check c.now
  | get =>
      unfold Slot.act
      dsimp only
      split
      · split
        · exact h.touch c.now
        · exact fun _ => (stored_set _).of_value value_touch
        · exact h
      · exact h.check c.now
  | put value =>
      intro _
      exact ⟨.kBytes, by simp [Slot.act]⟩
  | del => exact founded_none rfl
  | jsondel => exact founded_none rfl
  | read guarded t dim =>
      unfold Slot.act
      dsimp only
      split
      · exact h.check c.now
      · exact h.fetch dim
  | update t dim f => exact (h.fetch dim).change f
  | change t f => exact h.change f
  | edit t fresh f =>
      unfold Slot.act
      dsimp only
      split
      · exact fun _ => stored_store _
      · exact fun _ => stored_store _

theorem Swept.founded {o : Options} (h : Swept c o disk s s') (hs : s.Founded) : s'.Founded := by
  cases h with
  | kept => exact hs
  | expired hexpired => exact founded_none rfl
  | evicted i m hlimit hm hvalid => exact founded_none rfl

end Slot

namespace Engine

variable {E : Env} {e : Engine E} {c : Call} {k : Bytes}

/-- A step keeps every slot founded. -/
theorem founded_step (e : Engine E) (i : Call × Op) (h : ∀ k, (e.slot k).Founded) (k : Bytes) :
    ((e.step i).2.slot k).Founded :=
  (step_steps e i.1 i.2).keeps (h k) (fun _ => (h k).act) fun _ _ hswept hs => hswept.founded hs

/-- After any run every slot is founded. -/
theorem founded_run (opts : Options) (stored : Option (Dict Bytes Bytes))
    (ops : List (Call × Op)) (k : Bytes) :
    ((final step (new E opts stored) ops).slot k).Founded :=
  invariant_run (I := fun e : Engine E => ∀ k, (e.slot k).Founded) founded_step
    (fun _ => Slot.founded_none rfl) ops k

/-! ## del -/

/-- `del` says whether there was a value in some map. -/
theorem del_fst (e : Engine E) (k : Bytes) : (e.del k).1 = true ↔ (e.slot k).Stored := by
  have hany : (e.del k).1 = mapTypes.any fun t => (e.find t k).isSome := rfl
  rw [hany, List.any_eq_true]
  constructor
  · rintro ⟨t, -, ht⟩
    exact ⟨t, Option.isSome_iff_ne_none.mp ht⟩
  · rintro ⟨t, ht⟩
    refine ⟨t, mem_mapTypes ?_, Option.isSome_iff_ne_none.mpr ht⟩
    rintro rfl
    obtain ⟨v, -⟩ := Option.ne_none_iff_exists'.mp ht
    exact v.elim

/-- After `del` nothing is left of the key. -/
theorem del_bare (hformed : e.eviction2q.WellFormed) : Bare (e.del k).2 k := by
  refine ⟨(del_leaves e (.ofNow 0) k).slot_self, fun hmem => ?_⟩
  obtain ⟨hformed', hkeys⟩ := hformed.removeKey k
  have htracker : (e.del k).2.eviction2q = e.eviction2q.removeKey k := rfl
  rw [htracker, hformed'.mem_iff, hkeys] at hmem
  exact hmem.1 rfl

/-- `del` says whether there was such a key, and leaves nothing of it and all of the others. -/
structure Deletes (e : Engine E) (c : Call) (k : Bytes) : Prop where
  reply : (e.del k).1 = true ↔ (e.existsKey c k).1 = true
  bare : Bare (e.del k).2 k
  others : ∀ k', k' ≠ k → (e.del k).2.slot k' = e.slot k'

/-- In every state that is reached, `del` does as it should if and only if the key is valid or no
map holds a value of it. -/
theorem deletes_iff (opts : Options) (stored : Option (Dict Bytes Bytes))
    (ops : List (Call × Op)) (c : Call) (k : Bytes) :
    (final step (new E opts stored) ops).Deletes c k ↔
      ((final step (new E opts stored) ops).metas.isValid c.now k).1 = true ∨
        ∀ t, (final step (new E opts stored) ops).find t k = none := by
  have hformed : (final step (new E opts stored) ops).eviction2q.WellFormed :=
    formed_run Eviction2Q.wellFormed_empty ops
  have hfounded := founded_run (E := E) opts stored ops k
  generalize final step (new E opts stored) ops = e at *
  have hexists : (e.existsKey c k).1 = (e.slot k).valid c.now := existsKey_fst e c k
  have hvalid : (e.metas.isValid c.now k).1 = (e.slot k).valid c.now := isValid_fst c.now
  have hothers : ∀ k', k' ≠ k → (e.del k).2.slot k' = e.slot k' := by
    intro k' hk'
    rw [(del_leaves e c k).slot, Function.update_of_ne hk']
  have hstored : (∀ t, e.find t k = none) ↔ ¬ (e.slot k).Stored := by
    simp [Slot.Stored, slot]
  rw [hvalid, hstored]
  constructor
  · intro h
    by_cases hmem : (e.slot k).Stored
    · exact .inl (hexists ▸ h.reply.mp ((del_fst e k).mpr hmem))
    · exact .inr hmem
  · intro h
    refine ⟨?_, del_bare hformed, hothers⟩
    rw [del_fst, hexists]
    constructor
    · intro hmem
      exact h.resolve_right fun hnot => hnot hmem
    · intro hval
      refine hfounded fun hnone => ?_
      simp [Slot.valid, hnone] at hval

/-- An expired key is deleted with success, though there was none. -/
theorem del_of_expired :
    ((final step (new Env.bare ⟨[], 0, .k2Q⟩ none) [(.ofNow 5, .put [107] [118]),
        (.ofNow 5, .expire [107] 10)]).existsKey (.ofNow 20) [107]).1 = false ∧
      ((final step (new Env.bare ⟨[], 0, .k2Q⟩ none) [(.ofNow 5, .put [107] [118]),
        (.ofNow 5, .expire [107] 10)]).del [107]).1 = true ∧
      ¬ (final step (new Env.bare ⟨[], 0, .k2Q⟩ none) [(.ofNow 5, .put [107] [118]),
        (.ofNow 5, .expire [107] 10)]).Deletes (.ofNow 20) [107] := by
  refine ⟨by decide +kernel, by decide +kernel, fun h => ?_⟩
  exact absurd (h.reply.mp (by decide +kernel)) (by decide +kernel)

end Engine

end AstraKV
