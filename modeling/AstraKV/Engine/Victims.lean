import AstraKV.Engine.Pass

/-!
# AstraKV.Engine.Victims

The keys that a policy chooses, round by round, whatever the memory in use.
The loop never brings its candidates up to date, so LRU and LFU choose the
key they evicted again, and a random choice may hit it.

The candidates are filtered once, before the loop, and the metadata of an
evicted key read as zeros afterwards, which is less than anything; so LRU and
LFU, asked again, name the same key, and only the first round evicts. The TTL
policy and the queues do move on. `Draws` describes the choices of the rounds
as a list of keys, one form for each policy, and says that this list depends
only on the state the loop began with.
-/

namespace AstraKV

open Slot

namespace Engine

variable {E : Env} {e e' : Engine E} {c : Call} {limit : Int} {candidates : List Bytes}
  {n i j : Nat} {evicted : Int} {k key : Bytes}

/-! ## one choice -/

section Select

variable {β : Type} [LinearOrder β] {value value' : Bytes → β} {counts : β → Bool}
  {keys : List Bytes} {best : Option Bytes} {bound : β}

/-- `k` is the first of the keys with the least value, and that is below `bound`. -/
def FirstLeast (value : Bytes → β) (keys : List Bytes) (bound : β) (k : Bytes) : Prop :=
  value k < bound ∧ ∃ before after, keys = before ++ k :: after ∧
    (∀ k' ∈ before, value k < value k') ∧ ∀ k' ∈ after, value k ≤ value k'

/-- The first least of a longer list. -/
theorem firstLeast_cons {k' : Bytes} :
    FirstLeast value (k' :: keys) bound k ↔
      (k' = k ∧ value k < bound ∧ ∀ k'' ∈ keys, value k ≤ value k'') ∨
        (value k < value k' ∧ FirstLeast value keys bound k) := by
  constructor
  · rintro ⟨hbound, before, after, heq, hbefore, hafter⟩
    cases before with
    | nil =>
        obtain ⟨rfl, rfl⟩ := List.cons.inj heq
        exact .inl ⟨rfl, hbound, hafter⟩
    | cons k'' before =>
        obtain ⟨rfl, rfl⟩ := List.cons.inj heq
        obtain ⟨hlt, hbefore⟩ := List.forall_mem_cons.mp hbefore
        exact .inr ⟨hlt, hbound, before, after, rfl, hbefore, hafter⟩
  · rintro (⟨rfl, hbound, hafter⟩ | ⟨hlt, hbound, before, after, rfl, hbefore, hafter⟩)
    · exact ⟨hbound, [], keys, rfl, by simp, hafter⟩
    · exact ⟨hbound, k' :: before, after, rfl, List.forall_mem_cons.mpr ⟨hlt, hbefore⟩, hafter⟩

/-- The loop ends with the first least key, or keeps what it had. -/
theorem selectVictim_eq_some_iff :
    selectVictim value (fun _ => true) keys best bound = some k ↔
      (best = some k ∧ ∀ k' ∈ keys, bound ≤ value k') ∨ FirstLeast value keys bound k := by
  induction keys generalizing best bound with
  | nil => simp [selectVictim, FirstLeast]
  | cons k' keys ih =>
      rw [firstLeast_cons, List.forall_mem_cons]
      unfold selectVictim
      by_cases hlt : value k' < bound
      · rw [if_pos ⟨rfl, hlt⟩, ih]
        have hnot := not_le.mpr hlt
        constructor
        · rintro (⟨hk, hrest⟩ | hfirst)
          · obtain rfl := Option.some.inj hk
            exact .inr (.inl ⟨rfl, hlt, hrest⟩)
          · exact .inr (.inr ⟨hfirst.1, hfirst.1.trans hlt, hfirst.2⟩)
        · rintro (⟨-, hle, -⟩ | ⟨rfl, -, hrest⟩ | ⟨hk, -, hfirst⟩)
          · exact absurd hle hnot
          · exact .inl ⟨rfl, hrest⟩
          · exact .inr ⟨hk, hfirst⟩
      · rw [if_neg fun h => hlt h.2, ih]
        have hle := not_lt.mp hlt
        constructor
        · rintro (⟨hk, hrest⟩ | hfirst)
          · exact .inl ⟨hk, hle, hrest⟩
          · exact .inr (.inr ⟨hfirst.1.trans_le hle, hfirst⟩)
        · rintro (⟨hk, -, hrest⟩ | ⟨rfl, hk, -⟩ | ⟨-, hfirst⟩)
          · exact .inl ⟨hk, hrest⟩
          · exact absurd hk hlt
          · exact .inr hfirst

/-- A key that is chosen is chosen again when its value becomes the least there is. -/
theorem selectVictim_again (h : selectVictim value (fun _ => true) keys none bound = some k)
    (hleast : ∀ b, value' k ≤ b) (hsame : ∀ k', k' ≠ k → value' k' = value k') :
    selectVictim value' (fun _ => true) keys none bound = some k := by
  rw [selectVictim_eq_some_iff] at h ⊢
  obtain ⟨hbound, before, after, rfl, hbefore, -⟩ := h.resolve_left (by simp)
  refine .inr ⟨(hleast _).trans_lt hbound, before, after, rfl, fun k' hk' => ?_,
    fun k' _ => hleast _⟩
  have hlt := hbefore k' hk'
  rw [hsame k' fun heq => absurd hlt (heq ▸ lt_irrefl _)]
  exact (hleast _).trans_lt hlt

/-- Only the order of the values matters. -/
theorem selectVictim_rank {γ : Type} [LT γ] [DecidableLT γ] {value : Bytes → γ} {bound : γ}
    (rank : γ → β) (hrank : ∀ x y, x < y ↔ rank x < rank y) :
    selectVictim value (fun _ => true) keys best bound =
      selectVictim (fun k => rank (value k)) (fun _ => true) keys best (rank bound) := by
  induction keys generalizing best bound with
  | nil => rfl
  | cons k keys ih => simp only [selectVictim, true_and, hrank, ih]

/-- The keys that do not count may be left out. -/
theorem selectVictim_filter {p : Bytes → Bool} (hout : ∀ k ∈ keys, p k = false →
    counts (value' k) = false) (hsame : ∀ k ∈ keys, p k = true → value' k = value k) :
    selectVictim value' counts keys best bound =
      selectVictim value counts (keys.filter p) best bound := by
  induction keys generalizing best bound with
  | nil => rfl
  | cons k keys ih =>
      obtain ⟨hk, hout⟩ := List.forall_mem_cons.mp hout
      obtain ⟨hk', hsame⟩ := List.forall_mem_cons.mp hsame
      cases hp : p k with
      | false => simp [selectVictim, hp, hk hp, ih hout hsame]
      | true => simp [selectVictim, hp, hk' hp, ih hout hsame]

end Select

/-! ## the choices of the rounds -/

/-- The candidates by time to live, the first of those with the least first.  A key without a type
of value is never dropped. -/
def byTtl (c : Call) (e : Engine E) : Nat → List Bytes → List Bytes
  | 0, _ => []
  | n + 1, keys =>
      match selectVictimTtl keys e.metas c.now with
      | none => []
      | some k => k :: byTtl c e n (if e.typed k then keys.filter (· ≠ k) else keys)

/-- The keys that the policy chooses in `n` rounds, from round `i` on. -/
def victims (c : Call) (e : Engine E) (candidates : List Bytes) (n i : Nat) : List Bytes :=
  match e.opts.eviction with
  | .k2Q => (e.eviction2q.probationaryQueue ++ e.eviction2q.protectedQueue).take n
  | .kAllKeysLRU | .kVolatileLRU =>
      (selectVictimLru candidates e.metas).elim [] (List.replicate n)
  | .kAllKeysLFU | .kVolatileLFU =>
      (selectVictimLfu candidates e.metas).elim [] (List.replicate n)
  | .kAllKeysRandom | .kVolatileRandom =>
      (List.range' i n).filterMap fun i => selectVictimRandom candidates (c.rand i)
  | .kVolatileTTL => byTtl c e n candidates
  | .kNoEviction => []

/-- `n` rounds from round `i` on choose `keys`, if the memory in use does not end them. -/
inductive Draws (c : Call) (candidates : List Bytes) :
    Nat → Nat → Engine E → List Bytes → Prop where
  | done (i : Nat) (e : Engine E) : Draws c candidates 0 i e []
  | stop (n i : Nat) (e : Engine E) (h : (e.victim c i candidates).1 = none) :
      Draws c candidates (n + 1) i e []
  | next {n i : Nat} {e e₁ : Engine E} {key : Bytes} {keys : List Bytes} {evicts : Option Bytes}
      (h : (e.victim c i candidates).1 = some key)
      (hround : e.round c candidates i = (some evicts, e₁))
      (hnext : Draws c candidates n (i + 1) e₁ keys) :
      Draws c candidates (n + 1) i e (key :: keys)

/-- Where no victim is found no round follows. -/
theorem draws_none (h : (e.victim c i candidates).1 = none) : Draws c candidates n i e [] := by
  cases n with
  | zero => exact .done i e
  | succ n => exact .stop n i e h

/-- What an eviction does to metadata and tracker. -/
theorem evictKey_fields (ok : Bool) (t : KeyType) :
    (e.evictKey ok t key).metas = e.metas.erase key ∧
      (e.evictKey ok t key).eviction2q = e.eviction2q.removeKey key := by
  unfold evictKey
  cases e.find t key with
  | none => exact ⟨rfl, rfl⟩
  | some v =>
      unfold persist rocksPut
      cases ok <;> exact ⟨rfl, rfl⟩

/-- What a round leaves of the policy, the metadata and the tracker. -/
structure Rounds (c : Call) (candidates : List Bytes) (i : Nat) (key : Bytes) (e e₁ : Engine E) :
    Prop where
  opts : e₁.opts = e.opts
  fresh : ∀ k, (e₁.slot k).expired c.now = false
  metas : e₁.metas = if e.typed key then e.metas.erase key else e.metas
  eviction2q : e₁.eviction2q =
    if e.typed key then (e.victim c i candidates).2.eviction2q.removeKey key
    else (e.victim c i candidates).2.eviction2q

/-- A round that finds a victim, and what it leaves. -/
theorem rounds_of_some (hfresh : ∀ k, (e.slot k).expired c.now = false)
    (h : (e.victim c i candidates).1 = some key) :
    ∃ evicts e₁, e.round c candidates i = (some evicts, e₁) ∧ Rounds c candidates i key e e₁ := by
  have hround := round_is c candidates i hfresh
  have hmetas : (e.victim c i candidates).2.metas = e.metas := by rw [victim_snd]
  have hopts : (e.victim c i candidates).2.opts = e.opts := by rw [victim_snd]
  generalize e.round c candidates i = r at hround
  cases hround with
  | stop hvictim =>
      rw [h] at hvictim
      contradiction
  | skip key' hvictim hkey =>
      obtain rfl : key = key' := Option.some.inj (h.symm.trans hvictim)
      refine ⟨none, _, rfl, hopts, fresh_victim hfresh, ?_, ?_⟩ <;> simp [hkey, hmetas]
  | evict key' m hvictim hm htype =>
      obtain rfl : key = key' := Option.some.inj (h.symm.trans hvictim)
      have hleaves := evictKey_victim_leaves c e i candidates (c.putOk (i + 1)) m.type key
      have hkey : e.typed key = true := by simp [typed, hm, htype]
      refine ⟨some key, _, rfl, hleaves.opts, fresh_evict hfresh hleaves, ?_, ?_⟩
      · rw [(evictKey_fields _ _).1, hmetas, hkey, if_pos rfl]
      · rw [(evictKey_fields _ _).2, hkey, if_pos rfl]

/-! ### LRU and LFU -/

/-- Once evicted a key is chosen again by LRU. -/
theorem selectVictimLru_erase {metas : KeyMetadataManager}
    (h : selectVictimLru candidates metas = some key) :
    selectVictimLru candidates (metas.erase key) = some key := by
  have hrank := fun x y => UInt32.lt_iff_toNat_lt (a := x) (b := y)
  unfold selectVictimLru at h ⊢
  rw [selectVictim_rank UInt32.toNat hrank] at h ⊢
  refine selectVictim_again h (fun b => ?_) fun k hk => ?_
  · simp [KeyMetadataManager.getAccessTime]
  · simp [KeyMetadataManager.getAccessTime, AList.lookup_erase_ne hk]

/-- So it is by LFU. -/
theorem selectVictimLfu_erase {metas : KeyMetadataManager}
    (h : selectVictimLfu candidates metas = some key) :
    selectVictimLfu candidates (metas.erase key) = some key := by
  have hrank := fun x y => UInt8.lt_iff_toNat_lt (a := x) (b := y)
  unfold selectVictimLfu at h ⊢
  rw [selectVictim_rank UInt8.toNat hrank] at h ⊢
  refine selectVictim_again h (fun b => ?_) fun k hk => ?_
  · simp [KeyMetadataManager.getLFUCounter]
  · simp [KeyMetadataManager.getLFUCounter, AList.lookup_erase_ne hk]

/-- A choice from the metadata alone that dropping the key does not change is made in every
round. -/
theorem draws_replicate {select : KeyMetadataManager → Option Bytes}
    (herase : ∀ metas key, select metas = some key → select (metas.erase key) = some key)
    (hchoice : ∀ (e₁ : Engine E) i, e₁.opts = e.opts →
      (e₁.victim c i candidates).1 = select e₁.metas)
    (hfresh : ∀ k, (e.slot k).expired c.now = false) :
    Draws c candidates n i e ((select e.metas).elim [] (List.replicate n)) := by
  cases hselect : select e.metas with
  | none => exact draws_none ((hchoice e i rfl).trans hselect)
  | some key =>
      have hrest : ∀ n i (e₁ : Engine E), e₁.opts = e.opts → select e₁.metas = some key →
          (∀ k, (e₁.slot k).expired c.now = false) →
            Draws c candidates n i e₁ (List.replicate n key) := by
        intro n
        induction n with
        | zero => exact fun i e₁ _ _ _ => .done i e₁
        | succ n ih =>
            intro i e₁ hopts hkey hfresh₁
            have hvictim := (hchoice e₁ i hopts).trans hkey
            obtain ⟨evicts, e₂, hround, h₂⟩ := rounds_of_some hfresh₁ hvictim
            refine .next hvictim hround (ih _ _ (h₂.opts.trans hopts) ?_ h₂.fresh)
            rw [h₂.metas]
            split
            · exact herase _ _ hkey
            · exact hkey
      exact hrest n i e rfl hselect hfresh

/-! ### random -/

/-- A random policy draws by its numbers alone. -/
theorem draws_random
    (hchoice : ∀ (e₁ : Engine E) i, e₁.opts = e.opts →
      (e₁.victim c i candidates).1 = selectVictimRandom candidates (c.rand i))
    (hfresh : ∀ k, (e.slot k).expired c.now = false) :
    Draws c candidates n i e
      ((List.range' i n).filterMap fun i => selectVictimRandom candidates (c.rand i)) := by
  induction n generalizing i e with
  | zero => exact .done i e
  | succ n ih =>
      rw [List.range'_succ, List.filterMap_cons]
      cases hselect : selectVictimRandom candidates (c.rand i) with
      | none =>
          have hempty : candidates = [] := by
            by_contra hne
            rw [selectVictimRandom, if_neg hne, List.getElem?_eq_none_iff] at hselect
            have hlt := Nat.mod_lt (c.rand i) (List.length_pos_iff.mpr hne)
            omega
          have hnone : (List.range' (i + 1) n).filterMap
              (fun i => selectVictimRandom candidates (c.rand i)) = [] := by
            simp [selectVictimRandom, hempty]
          rw [hnone]
          exact draws_none ((hchoice e i rfl).trans hselect)
      | some key =>
          have hvictim := (hchoice e i rfl).trans hselect
          obtain ⟨evicts, e₁, hround, h₁⟩ := rounds_of_some hfresh hvictim
          exact .next hvictim hround
            (ih (fun e₂ i hopts => hchoice e₂ i (hopts.trans h₁.opts)) h₁.fresh)

/-! ### TTL -/

/-- The keys `dropped` have no metadata in `e₁`, and the others have that of `e`. -/
def Dropped (e e₁ : Engine E) (dropped : Bytes → Bool) : Prop :=
  ∀ k, e₁.metas.lookup k = if dropped k then none else e.metas.lookup k

/-- Without the keys dropped the TTL policy chooses as among the others. -/
theorem Dropped.select {e₁ : Engine E} {dropped : Bytes → Bool} (h : Dropped e e₁ dropped) :
    selectVictimTtl candidates e₁.metas c.now =
      selectVictimTtl (candidates.filter fun k => !dropped k) e.metas c.now := by
  refine selectVictim_filter (fun k _ hk => ?_) fun k _ hk => ?_
  · simp [KeyMetadataManager.getTtlMs, h k, show dropped k = true by simpa using hk]
  · simp [KeyMetadataManager.getTtlMs, h k, show dropped k = false by simpa using hk]

/-- The TTL policy goes through the candidates in the order of their time to live. -/
theorem draws_byTtl {e₁ : Engine E} {dropped : Bytes → Bool} (hdropped : Dropped e e₁ dropped)
    (hchoice : ∀ (e₂ : Engine E) i, e₂.opts = e₁.opts →
      (e₂.victim c i candidates).1 = selectVictimTtl candidates e₂.metas c.now)
    (hfresh : ∀ k, (e₁.slot k).expired c.now = false) :
    Draws c candidates n i e₁ (byTtl c e n (candidates.filter fun k => !dropped k)) := by
  induction n generalizing i e₁ dropped with
  | zero => exact .done i e₁
  | succ n ih =>
      have hselect : selectVictimTtl candidates e₁.metas c.now =
          selectVictimTtl (candidates.filter fun k => !dropped k) e.metas c.now := hdropped.select
      unfold byTtl
      cases hkey : selectVictimTtl (candidates.filter fun k => !dropped k) e.metas c.now with
      | none => exact draws_none ((hchoice e₁ i rfl).trans (hselect.trans hkey))
      | some key =>
          have hvictim := (hchoice e₁ i rfl).trans (hselect.trans hkey)
          obtain ⟨evicts, e₂, hround, h₂⟩ := rounds_of_some hfresh hvictim
          have hlive : dropped key = false := by
            have hmem := mem_of_selected hkey
            simpa using (List.mem_filter.mp hmem).2
          have htyped : e₁.typed key = e.typed key := by
            unfold typed
            rw [hdropped key, hlive, if_neg Bool.false_ne_true]
          have hmetas := h₂.metas
          rw [htyped] at hmetas
          have hchoice₂ := fun (e₃ : Engine E) i (hopts : e₃.opts = e₂.opts) =>
            hchoice e₃ i (hopts.trans h₂.opts)
          refine .next hvictim hround ?_
          cases htype : e.typed key with
          | false =>
              rw [htype, if_neg Bool.false_ne_true] at hmetas
              exact ih (fun k => hmetas ▸ hdropped k) hchoice₂ h₂.fresh
          | true =>
              rw [htype, if_pos rfl] at hmetas
              have hdropped₂ : Dropped e e₂ fun k => dropped k || decide (k = key) := fun k => by
                rw [hmetas, Dict.lookup_erase_ite, hdropped k]
                by_cases hk : k = key <;> simp [hk]
              have hrest := ih (i := i + 1) hdropped₂ hchoice₂ h₂.fresh
              simpa [List.filter_filter, Bool.and_comm] using hrest

/-! ### 2Q -/

/-- The 2Q policy goes through its queues in their order. -/
theorem draws_queue
    (hchoice : ∀ (e₁ : Engine E) i, e₁.opts = e.opts →
      e₁.victim c i candidates = (e₁.eviction2q.getVictim.1,
        { e₁ with eviction2q := e₁.eviction2q.getVictim.2 }))
    (hfresh : ∀ k, (e.slot k).expired c.now = false) :
    Draws c candidates n i e
      ((e.eviction2q.probationaryQueue ++ e.eviction2q.protectedQueue).take n) := by
  induction n generalizing i e with
  | zero => exact .done i e
  | succ n ih =>
      cases hqueue : e.eviction2q.probationaryQueue ++ e.eviction2q.protectedQueue with
      | nil =>
          refine draws_none ?_
          rw [hchoice e i rfl, Eviction2Q.getVictim_nil hqueue]
      | cons key rest =>
          obtain ⟨q, hq, hrest, hgone⟩ := Eviction2Q.getVictim_cons hqueue
          have hvictim : e.victim c i candidates = (some key, { e with eviction2q := q }) := by
            rw [hchoice e i rfl, hq]
          obtain ⟨evicts, e₁, hround, h₁⟩ := rounds_of_some hfresh (congrArg Prod.fst hvictim)
          have hqueue₁ : e₁.eviction2q = q := by
            have htracker := h₁.eviction2q
            rw [hvictim] at htracker
            rw [htracker]
            split
            · exact hgone
            · rfl
          refine .next (congrArg Prod.fst hvictim) hround ?_
          rw [← hrest, ← hqueue₁]
          exact ih (fun e₂ i hopts => hchoice e₂ i (hopts.trans h₁.opts)) h₁.fresh

/-- The policy chooses the keys of `victims`. -/
theorem draws_victims (hfresh : ∀ k, (e.slot k).expired c.now = false) :
    Draws c candidates n i e (e.victims c candidates n i) := by
  unfold victims
  cases hpolicy : e.opts.eviction with
  | k2Q =>
      refine draws_queue (fun e₁ i hopts => ?_) hfresh
      unfold victim
      rw [hopts, hpolicy]
  | kNoEviction =>
      refine draws_none ?_
      unfold victim
      rw [hpolicy]
  | kAllKeysLRU | kVolatileLRU =>
      refine draws_replicate (fun _ _ => selectVictimLru_erase) (fun e₁ i hopts => ?_) hfresh
      unfold victim
      rw [hopts, hpolicy]
  | kAllKeysLFU | kVolatileLFU =>
      refine draws_replicate (fun _ _ => selectVictimLfu_erase) (fun e₁ i hopts => ?_) hfresh
      unfold victim
      rw [hopts, hpolicy]
  | kAllKeysRandom | kVolatileRandom =>
      refine draws_random (fun e₁ i hopts => ?_) hfresh
      unfold victim
      rw [hopts, hpolicy]
  | kVolatileTTL =>
      have hnone : Dropped e e fun _ => false := fun _ => rfl
      have hchoice : ∀ (e₁ : Engine E) i, e₁.opts = e.opts →
          (e₁.victim c i candidates).1 = selectVictimTtl candidates e₁.metas c.now := by
        intro e₁ i hopts
        unfold victim
        rw [hopts, hpolicy]
      simpa using draws_byTtl (n := n) (i := i) hnone hchoice hfresh

end Engine

end AstraKV
