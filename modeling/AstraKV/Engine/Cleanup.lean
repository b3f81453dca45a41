import AstraKV.Engine.Lapse
import AstraKV.Engine.Reopen

/-!
# AstraKV.Engine.Cleanup

What `CleanupExpired` leaves of the keys whose time has passed.

It goes through the metadata.  A key that is still registered with its
expiry time is removed from everywhere; a key whose metadata was forgotten
before, by a read, a load, an eviction or `jsondel`, is not found, and what
there was of it stays.

Besides the slot there is the 2Q tracker, which may go on naming a key that is
gone and would hand it out as a victim later; so a key is only done with when
its slot is empty and it is not tracked (`Bare`). `Drops` follows the tracker
through a pass and `Trails` through a step: a key that comes out of a step
tracked was tracked before or was just accessed, and none stays whose metadata
the step forgot in a pass.

The condition of the main result is `Heeds`, step by step along a run: as long
as anything of the key is stored or tracked, nobody forgets its expiry time.
Then the metadata is still there when the cleanup comes, and the cleanup takes
everything.
-/

namespace AstraKV

open Slot Machine

variable {E : Env}

namespace Engine

variable {e e' e'' : Engine E} {c : Call} {op : Op} {t : KeyType} {key k : Bytes}

/-! ## the tracker in a pass -/

/-- `e'` comes from `e` by a part of a pass: no key is tracked that was not, and none whose metadata
was forgotten on the way. -/
structure Drops (k : Bytes) (e e' : Engine E) : Prop where
  formed : e'.eviction2q.WellFormed
  shrinks : k ∈ e'.eviction2q → k ∈ e.eviction2q
  forgets : (e.slot k).metadata ≠ none → (e'.slot k).metadata = none → k ∉ e'.eviction2q

/-- Doing nothing drops nothing. -/
theorem Drops.refl (h : e.eviction2q.WellFormed) : Drops k e e :=
  ⟨h, id, fun hne hnone => absurd hnone hne⟩

/-- Two parts of a pass are one. -/
theorem Drops.trans (h : Drops k e e') (h' : Drops k e' e'') : Drops k e e'' := by
  refine ⟨h'.formed, fun hk => h.shrinks (h'.shrinks hk), fun hne hnone hk => ?_⟩
  by_cases hmiddle : (e'.slot k).metadata = none
  · exact h.forgets hne hmiddle (h'.shrinks hk)
  · exact h'.forgets hmiddle hnone hk

/-- The slots and the tracker are all there is to agree on. -/
theorem Drops.same (h : Drops k e e') (hslot : e''.slot k = e'.slot k)
    (hqueue : e''.eviction2q = e'.eviction2q) : Drops k e e'' := by
  refine ⟨hqueue ▸ h.formed, fun hk => h.shrinks (hqueue ▸ hk), fun hne hnone => ?_⟩
  rw [hqueue]
  exact h.forgets hne (hslot ▸ hnone)

/-- A key is removed from the tracker and forgotten, or another is. -/
theorem drops_removeKey (hformed : e.eviction2q.WellFormed)
    (hqueue : e'.eviction2q = e.eviction2q.removeKey key)
    (hslot : k ≠ key → e'.slot k = e.slot k) : Drops k e e' := by
  obtain ⟨hformed', hkeys⟩ := hformed.removeKey key
  have hmem : ∀ k, k ∈ e.eviction2q.removeKey key ↔ k ≠ key ∧ k ∈ e.eviction2q := fun k => by
    rw [hformed'.mem_iff, hkeys, hformed.mem_iff]
  refine ⟨hqueue ▸ hformed', fun hk => ((hmem k).mp (hqueue ▸ hk)).2, fun hne hnone hk => ?_⟩
  have hother := ((hmem k).mp (hqueue ▸ hk)).1
  exact hne (hslot hother ▸ hnone)

/-- Looking at one key is a part of a pass. -/
theorem cleanupKey_drops (now : Int) {acc : Int × Engine E} (h : acc.2.eviction2q.WellFormed)
    (key : Bytes) : Drops k acc.2 (cleanupKey now acc key).2 := by
  have hleaves := cleanupKey_leaves now acc key
  have hother : k ≠ key → (cleanupKey now acc key).2.slot k = acc.2.slot k := fun hk => by
    rw [hleaves.slot, Function.update_of_ne hk]
  cases hvalid : (acc.2.slot key).valid now with
  | true =>
      have hsame : (cleanupKey now acc key).2 = acc.2 := by
        rw [cleanupKey, isValid_of_valid hvalid]
      rw [hsame]
      exact .refl h
  | false =>
      have hcheck : acc.2.isValid now key = (false, (acc.2.isValid now key).2) :=
        Prod.ext ((isValid_fst now).trans hvalid) rfl
      refine drops_removeKey h ?_ hother
      rw [cleanupKey, hcheck]
      rfl

theorem cleanup_drops (now : Int) (keys : List Bytes) (acc : Int × Engine E)
    (h : acc.2.eviction2q.WellFormed) : Drops k acc.2 (keys.foldl (cleanupKey now) acc).2 := by
  induction keys generalizing acc with
  | nil => exact .refl h
  | cons key keys ih =>
      have hstep := cleanupKey_drops (k := k) now h key
      exact hstep.trans (ih (cleanupKey now acc key) hstep.formed)

/-- `CleanupExpired` is such a part. -/
theorem cleanupExpired_drops (c : Call) (h : e.eviction2q.WellFormed) :
    Drops k e (e.cleanupExpired c).2 :=
  (cleanup_drops c.now e.metas.keys (0, e) h).same rfl rfl

/-- The choice of a victim takes it out of the tracker at most. -/
theorem victim_drops (c : Call) (i : Nat) (candidates : List Bytes) (h : e.eviction2q.WellFormed) :
    Drops k e (e.victim c i candidates).2 := by
  unfold victim
  split
  · obtain hnone | ⟨key, hsome⟩ := h.getVictim_eq
    · rw [hnone]
      exact .refl h
    · rw [hsome]
      exact drops_removeKey h rfl fun _ => rfl
  all_goals exact .refl h

theorem evictKey_drops (h : e.eviction2q.WellFormed) (ok : Bool) (t : KeyType) (key : Bytes) :
    Drops k e (e.evictKey ok t key) := by
  have hleaves := evictKey_leaves e ok t key
  refine drops_removeKey h ?_ fun hk => by rw [hleaves.slot, Function.update_of_ne hk]
  unfold evictKey
  cases e.find t key with
  | none => rfl
  | some v => exact congrArg (fun q : Eviction2Q => q.removeKey key) (eviction2q_rocksPut ok _)

theorem evictLoop_drops (limit : Int) (candidates : List Bytes) (n i : Nat) (evicted : Int)
    (hformed : e.eviction2q.WellFormed) (hfresh : ∀ k, (e.slot k).expired c.now = false) :
    Drops k e (evictLoop c limit candidates n i evicted e).2 := by
  induction n generalizing i evicted e with
  | zero => exact .refl hformed
  | succ n ih =>
      have hvictim := victim_drops (k := k) c i candidates hformed
      obtain ⟨q, hq⟩ := victim_same c e i candidates
      unfold evictLoop
      split
      · split
        · rename_i e₁ hres
          rwa [hres] at hvictim
        · rename_i key e₁ hres
          rw [hres] at hvictim hq
          have hfresh₁ : ∀ k, (e₁.slot k).expired c.now = false := by
            rw [show e₁ = { e with eviction2q := q } from hq]
            exact hfresh
          have htype := getKeyType_of_not_expired (hfresh₁ key)
          split
          · rename_i metas hmetas
            obtain rfl : metas = e₁.metas := (congrArg Prod.snd (hmetas.symm.trans htype))
            exact hvictim.trans (ih (i + 1) evicted hvictim.formed hfresh₁)
          · rename_i metas hmetas
            obtain rfl : metas = e₁.metas := (congrArg Prod.snd (hmetas.symm.trans htype))
            exact hvictim.trans (ih (i + 1) evicted hvictim.formed hfresh₁)
          · rename_i t metas hne hmetas
            obtain rfl : metas = e₁.metas := (congrArg Prod.snd (hmetas.symm.trans htype))
            have hevict := evictKey_drops (k := k) hvictim.formed (c.putOk (i + 1)) t key
            have hleaves := evictKey_leaves e₁ (c.putOk (i + 1)) t key
            exact (hvictim.trans hevict).trans
              (ih (i + 1) (evicted + 1) hevict.formed (fresh_evict hfresh₁ hleaves))
      · exact .refl hformed

theorem checkMemoryAndEvict_drops (c : Call) (h : e.eviction2q.WellFormed) :
    Drops k e (e.checkMemoryAndEvict c) := by
  have hclean := cleanupExpired_drops (k := k) c h
  unfold checkMemoryAndEvict
  dsimp only
  split
  · exact hclean
  · split
    · exact hclean
    · split
      · exact hclean
      · have hloop := evictLoop_drops (k := k) (e.cleanupExpired c).2.limit
          ((e.cleanupExpired c).2.candidates c)
          (max 1 (((e.cleanupExpired c).2.candidates c).length / 10)) 0 0 hclean.formed
          (fresh_cleanupExpired e c)
        exact hclean.trans (hloop.same rfl rfl)

/-! ## the tracker in a step -/

/-- What the operation does to the tracker. -/
theorem track_formed (e : Engine E) (c : Call) (op : Op) (h : e.eviction2q.WellFormed) :
    (e.track c op).WellFormed := by
  unfold track
  split
  · exact (h.recordAccess _ _).1
  · split
    · exact (h.recordAccess _ _).1
    · exact h
  · exact (h.removeKey _).1
  · exact h

/-- `e'` is `e` after the step: the keys tracked are those the operation leaves in the tracker, less
those whose metadata is forgotten in a pass. -/
structure Trails (c : Call) (op : Op) (k : Bytes) (e e' : Engine E) : Prop where
  formed : e'.eviction2q.WellFormed
  shrinks : k ∈ e'.eviction2q → k ∈ e.track c op
  forgets : (e.acted c op k).metadata ≠ none → (e'.slot k).metadata = none → k ∉ e'.eviction2q

/-- Every step trails: operation first, then pass. -/
theorem Course.trails (h : Course c op e e') (hformed : e.eviction2q.WellFormed) (k : Bytes) :
    Trails c op k e e' := by
  have hacts : ∀ {e₁}, Acts c op e e₁ → e₁.eviction2q.WellFormed := fun h => by
    rw [h.eviction2q]
    exact track_formed e c op hformed
  cases h with
  | quiet h =>
      refine ⟨hacts h, fun hk => h.eviction2q ▸ hk, fun hne hnone => ?_⟩
      rw [h.slot] at hnone
      exact absurd hnone hne
  | sweep h =>
      have hdrops := checkMemoryAndEvict_drops (k := k) c (hacts h)
      refine ⟨hdrops.formed, fun hk => h.eviction2q ▸ hdrops.shrinks hk, fun hne hnone => ?_⟩
      rw [← h.slot] at hne
      exact hdrops.forgets hne hnone
  | cleanup hop =>
      subst hop
      have hdrops := cleanupExpired_drops (k := k) c hformed
      exact ⟨hdrops.formed, hdrops.shrinks, hdrops.forgets⟩
  | policy policy hop =>
      subst hop
      exact ⟨hformed, id, fun hne hnone => absurd hnone hne⟩

end Engine

/-! ## the condition -/

/-- The operation gives the slot an expiry time, or makes a value anew and registers it. -/
def Shape.Renews (c : Call) (s : Slot E) : Shape E → Prop
  | .put _ => True
  | .edit t _ _ => s.value t = none
  | .expire _ => s.valid c.now = true
  | _ => False

/-- Nothing is stored or tracked but the metadata. -/
def Slot.Clear (s : Slot E) (tracked : Prop) : Prop :=
  (∀ t, s.value t = none) ∧ s.record = none ∧ ¬ tracked

/-- An expiry time of the slot is not forgotten while anything is stored or tracked: no check finds
it expired, no load replaces it, and `jsondel` finds nothing but the JSON text. -/
def Shape.Heeds (c : Call) (s : Slot E) (tracked : Prop) : Shape E → Prop
  | .check | .expire _ | .get => s.expired c.now = true → s.Clear tracked
  | .read guarded t dim =>
      (guarded = true → s.expired c.now = true → s.Clear tracked) ∧
        (guarded = false ∨ s.valid c.now = true → s.value t = none → s.load c t dim = none)
  | .update t dim _ => s.value t = none → s.load c t dim = none
  | .jsondel => (∀ t, t ≠ .kJson → s.value t = none) ∧ ¬ tracked
  | _ => True

namespace Slot

variable {s s' : Slot E} {c : Call} {disk : Bool} {shape : Shape E} {d : Int} {tracked : Prop}

/-- The metadata has the expiry time `d`. -/
def Pending (d : Int) (s : Slot E) : Prop := ∃ m, s.metadata = some m ∧ m.expireTimeMs = some d

/-- A pending expiry is one of the metadata alone. -/
theorem Pending.of_metadata (h : s.Pending d) (hm : s'.metadata = s.metadata) : s'.Pending d := by
  obtain ⟨m, hmeta, hexpire⟩ := h
  exact ⟨m, hm.trans hmeta, hexpire⟩

/-- Where an expiry is pending there are metadata. -/
theorem Pending.ne_none (h : s.Pending d) : s.metadata ≠ none := by
  obtain ⟨m, hm, -⟩ := h
  simp [hm]

/-- Being accessed does not change the expiry. -/
theorem pending_touch {now : Int} : (s.touch now).Pending d ↔ s.Pending d := by
  constructor
  · rintro ⟨m, hm, hexpire⟩
    obtain ⟨m', hm', rfl⟩ := Option.map_eq_some_iff.mp hm
    exact ⟨m', hm', hexpire⟩
  · rintro ⟨m, hm, hexpire⟩
    exact ⟨m.updateAccess now, by simp [touch, hm], hexpire⟩

/-- A clear slot found expired is empty. -/
theorem Clear.check_eq (h : s.Clear tracked) {now : Int} (hexpired : s.expired now = true) :
    s.check now = empty := by
  unfold check
  rw [if_pos hexpired]
  exact Slot.ext (funext h.1) rfl h.2.1

/-- A valid slot stays as it is at a check, and a clear one becomes empty. -/
theorem Pending.check (h : s.Pending d) (hclear : s.expired c.now = true → s.Clear tracked) :
    (s.check c.now).Pending d ∨ s.check c.now = empty ∧ ¬ tracked := by
  cases hexpired : s.expired c.now with
  | true => exact .inr ⟨(hclear hexpired).check_eq hexpired, (hclear hexpired).2.2⟩
  | false =>
      refine .inl (h.of_metadata ?_)
      rw [metadata_check, hexpired]
      rfl

/-- The operation keeps the expiry time, or nothing is left. -/
theorem Pending.act (h : s.Pending d) (hkept : ¬ shape.Renews c s)
    (hheeds : shape.Heeds c s tracked) :
    (s.act c disk shape).Pending d ∨
      s.act c disk shape = empty ∧ (¬ tracked ∨ shape = .del) := by
  have hcheck : (s.expired c.now = true → s.Clear tracked) → (s.check c.now).Pending d ∨
      s.check c.now = empty ∧ (¬ tracked ∨ shape = .del) := fun hclear =>
    (h.check hclear).imp id fun hempty => ⟨hempty.1, .inl hempty.2⟩
  cases shape with
  | idle => exact .inl h
  | check => exact hcheck hheeds
  | expire ms =>
      have hvalid : ¬ s.valid c.now = true := hkept
      simpa [Slot.act, hvalid] using hcheck hheeds
  | get =>
      unfold Slot.act
      dsimp only
      split
      · split
        · exact .inl (pending_touch.mpr h)
        · exact .inl (pending_touch.mpr (h.of_metadata metadata_set))
        · exact .inl h
      · exact hcheck hheeds
  | put value => exact absurd trivial hkept
  | del => exact .inr ⟨rfl, .inr rfl⟩
  | jsondel =>
      refine .inr ⟨Slot.ext (funext fun t => ?_) rfl rfl, .inl hheeds.2⟩
      by_cases ht : t = .kJson
      · subst ht
        simp [Slot.act, Slot.empty]
      · simp [Slot.act, Slot.empty, ht, hheeds.1 t ht]
  | read guarded t dim =>
      unfold Slot.act
      dsimp only
      split
      · rename_i hguarded
        exact hcheck (hheeds.1 (by simp_all))
      · rename_i hguarded
        rw [fetch_eq_self (hheeds.2 (by cases guarded <;> simp_all))]
        exact .inl h
  | update t dim f =>
      refine .inl (h.of_metadata ?_)
      unfold Slot.act
      rw [metadata_change, fetch_eq_self hheeds]
  | change t f => exact .inl (h.of_metadata metadata_change)
  | edit t fresh f =>
      refine .inl (h.of_metadata (metadata_edit.trans (if_neg hkept)))

/-- A valid slot is not empty after `get`. -/
theorem Pending.not_valid (h : s.Pending d) (hempty : s.act c disk .get = empty) :
    s.valid c.now = false := by
  cases hvalid : s.valid c.now with
  | false => rfl
  | true =>
      have hnone : (s.act c disk .get).metadata = none := by rw [hempty]; rfl
      refine absurd hnone (Pending.ne_none (d := d) ?_)
      unfold Slot.act
      dsimp only
      rw [hvalid, if_pos rfl]
      split
      · exact pending_touch.mpr h
      · exact pending_touch.mpr (h.of_metadata metadata_set)
      · exact h

end Slot

namespace Engine

variable {e : Engine E} {i : Call × Op} {c : Call} {op : Op} {k : Bytes} {d : Int}

/-- The step gives `k` no expiry time and does not make it anew. -/
def Kept (k : Bytes) (e : Engine E) (i : Call × Op) : Prop :=
  i.2.key = some k → ¬ (i.2.shape E i.1).Renews i.1 (e.slot k)

/-- The engine has nothing of the key. -/
def Bare (e : Engine E) (k : Bytes) : Prop := e.slot k = .empty ∧ k ∉ e.eviction2q

/-- No expiry time is forgotten while anything of its key is stored or tracked, by the operation or
by an eviction at its end. -/
structure Heeds (e : Engine E) (i : Call × Op) : Prop where
  acts : ∀ k d, (e.slot k).Pending d → i.2.key = some k →
    (i.2.shape E i.1).Heeds i.1 (e.slot k) (k ∈ e.eviction2q)
  evicts : ∀ e₁, Acts i.1 i.2 e e₁ → (e.step i).2 = e₁.checkMemoryAndEvict i.1 →
    ∀ j k d m, (j, k) ∈ e₁.evictedBy i.1 → (e₁.slot k).Pending d →
      (e₁.slot k).metadata = some m →
        Slot.evict e₁.disk (i.1.putOk (j + 1)) (e₁.slot k) m.type = .empty

variable {e₀ : Engine E} {ops : List (Call × Op)}

/-- `d` is the expiry time given to `k` last, and `k` was not made anew since. -/
def LastSet (e₀ : Engine E) (k : Bytes) (d : Int) (ops : List (Call × Op)) : Prop :=
  ∃ ops₁ c ops₂, ops = ops₁ ++ (c, .expire k d) :: ops₂ ∧
    ((final step e₀ ops₁).slot k).valid c.now = true ∧
    Along step (Kept k) (final step e₀ (ops₁ ++ [(c, .expire k d)])) ops₂

/-- A step that keeps the expiry time keeps it the last set. -/
theorem LastSet.append (h : LastSet e₀ k d ops) (hi : Kept k (final step e₀ ops) i) :
    LastSet e₀ k d (ops ++ [i]) := by
  obtain ⟨ops₁, c, ops₂, rfl, hvalid, halong⟩ := h
  exact ⟨ops₁, c, ops₂ ++ [i], by simp, hvalid, along_append_singleton halong hi⟩

/-- After any run the tracker is well formed. -/
theorem formed_run (hformed : e₀.eviction2q.WellFormed) (ops : List (Call × Op)) :
    (final step e₀ ops).eviction2q.WellFormed :=
  invariant_run (I := fun e : Engine E => e.eviction2q.WellFormed)
    (fun e i h => ((step_course e i.1 i.2).trails h []).formed) hformed ops

end Engine

end AstraKV
