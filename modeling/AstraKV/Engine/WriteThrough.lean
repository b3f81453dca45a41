import AstraKV.Engine.Kind
import AstraKV.Engine.RoundTrip

/-!
# AstraKV.Engine.WriteThrough

Every value in the maps is in its record, as long as the keys keep to one
type each and the members of a sorted set can be told from each other.

Only `xadd`, `vecadd` and the like may change a value and not persist it;
the other operations write through, and what a read loads is in its record
already.  So a value that is in a map was either written to its record or
read from it, and this is all that a run has to keep.

A record of a sorted set lists the members and the scores, which tell the
ordered index as long as the three structures are in step.  The ones that a
collision of two hashes or a NaN has put out of step are written like any
other: the index that is read back is a new one, and a member that the tree in
memory has lost is in it again.
-/

namespace AstraKV

open Slot Machine

variable {E : Env}

/-! ## contents -/

/-- The lengths and counts in a record of the value are not cut. -/
def Fits : (t : KeyType) → Value E t → Prop
  | .kZSet, zs => zs.getAll.length < 2 ^ 32 ∧ ∀ entry ∈ zs.getAll, entry.1.length < 2 ^ 32
  | .kList, lst => lst.items.length < 2 ^ 32 ∧ ∀ item ∈ lst.items, item.length < 2 ^ 32
  | .kHash, h => h.entries.length < 2 ^ 32 ∧
      ∀ entry ∈ h.entries, entry.1.length < 2 ^ 32 ∧ entry.2.length < 2 ^ 32
  | .kSet, s => s.keys.length < 2 ^ 32 ∧ ∀ m ∈ s.keys, m.length < 2 ^ 32
  | _, _ => True

/-- The same value: the contents, and the ordered index of a sorted set. -/
def Alike : (t : KeyType) → Value E t → Value E t → Prop
  | .kZSet, zs, zs' => ZSetBPlus.Same zs zs'
  | t, v, v' => Engine.SameContents t v v'

/-- A value is like itself. -/
theorem Alike.refl (t : KeyType) (v : Value E t) : Alike t v v := by
  cases t with
  | kZSet => exact ⟨fun _ => rfl, rfl⟩
  | _ => exact Engine.SameContents.refl _ v

/-- What the record lists tells the value: of a sorted set, that its structures are in step. -/
def Told : (t : KeyType) → Value E t → Prop
  | .kZSet, zs => ZSetBPlus.InStep E.memberHash zs
  | _, _ => True

/-- A value of another type has nothing to tell apart. -/
theorem told_of_ne {t : KeyType} (ht : t ≠ .kZSet) (v : Value E t) : Told t v := by
  cases t with
  | kZSet => exact absurd rfl ht
  | _ => trivial

/-- A type whose records are read back alike. -/
def KeyType.Plain (t : KeyType) : Prop := t ≠ .kStream ∧ t ≠ .kVector

/-- A value that fits and is told by its record is read back from it. -/
theorem decode_serialize {t : KeyType} (ht : t.Plain) (c : Call) {v : Value E t}
    (hfits : Fits t v) (htold : Told t v) :
    ∃ v', decode E c 0 t (Engine.serialize t v) = some v' ∧ Alike t v' v := by
  cases t with
  | kNone => exact v.elim
  | kBytes => exact ⟨v, rfl, rfl⟩
  | kZSet =>
      obtain ⟨zs, hread, -, hsame⟩ := deserializeZset_of_fits E.memberHash hfits.1 hfits.2
      exact ⟨zs, by simp [decode, Engine.serialize, complete, hread], hsame htold⟩
  | kList =>
      obtain ⟨lst, hread, halike⟩ := deserializeList_of_fits hfits.1 hfits.2
      exact ⟨lst, by simp [decode, Engine.serialize, complete, hread], halike⟩
  | kHash =>
      obtain ⟨h, hread, halike⟩ := deserializeHash_of_fits hfits.1 hfits.2
      exact ⟨h, by simp [decode, Engine.serialize, complete, hread], halike⟩
  | kSet =>
      obtain ⟨s, hread, halike⟩ := deserializeSet_of_fits hfits.1 hfits.2
      exact ⟨s, by simp [decode, Engine.serialize, complete, hread], halike⟩
  | kStream => exact absurd rfl ht.1
  | kJson => exact ⟨v, rfl, rfl⟩
  | kVector => exact absurd rfl ht.2

/-- What a record of these types is read as does not depend on the call. -/
theorem decode_eq {t : KeyType} (ht : t.Plain) (c c' : Call) (dim dim' : Nat) :
    decode E c dim t = decode E c' dim' t := by
  cases t with
  | kStream => exact absurd rfl ht.1
  | kVector => exact absurd rfl ht.2
  | _ => rfl

/-! ## the slot -/

namespace Shape

/-- A value that is changed is persisted. -/
def Persists : Shape E → Prop
  | .update _ _ f | .change _ f => ∀ v, (f v).1 = false → (f v).2 = v
  | .edit _ _ f => ∀ v, (f v).1 = true
  | _ => True

/-- What a value in the slot is changed to is told by its record. -/
def Tells (s : Slot E) : Shape E → Prop
  | .update t _ f => ∀ v, Told t (f v).2
  | .change t f => ∀ v, s.value t = some v → Told t (f v).2
  | .edit t fresh f => (∀ v, s.value t = some v → Told t (f v).2) ∧ Told t (f (fresh s.record)).2
  | _ => True

end Shape

/-- An operation on a plain type persists what it changes. -/
theorem Op.persists {c : Call} {op : Op} (hop : ∀ t, op.kind? = some t → t.Plain) :
    (op.shape E c).Persists := by
  cases op with
  | lpop key =>
      intro lst
      unfold persistIf LinkedList.popLeft
      cases lst.items <;> simp
  | rpop key =>
      intro lst
      unfold persistIf LinkedList.popRight
      cases lst.items.getLast? <;> simp
  | jsonset key path json =>
      unfold Op.shape
      dsimp only
      split
      · exact fun _ => rfl
      · trivial
  | jsondel key path =>
      unfold Op.shape
      dsimp only
      split <;> trivial
  | xadd | xdel | xtrim => exact absurd rfl (hop _ rfl).1
  | vecadd | vecdel => exact absurd rfl (hop _ rfl).2
  | _ => simp [Op.shape, Shape.Persists, persistIf]

/-- Only sorted sets need to be looked at. -/
theorem Shape.tells_of_kind {shape : Shape E} (s : Slot E) (h : shape.kind? ≠ some .kZSet) :
    shape.Tells s := by
  cases shape with
  | update t dim f => exact fun v => told_of_ne (fun ht => h (congrArg some ht)) _
  | change t f => exact fun v _ => told_of_ne (fun ht => h (congrArg some ht)) _
  | edit t fresh f =>
      have ht : t ≠ .kZSet := fun ht => h (congrArg some ht)
      exact ⟨fun _ _ => told_of_ne ht _, told_of_ne ht _⟩
  | _ => trivial

namespace Slot

variable {s s' : Slot E} {c : Call} {t : KeyType} {v : Value E t}

/-- How a record comes to hold a value: it was written from it, or read as it. -/
inductive Records (t : KeyType) (v : Value E t) : Option Bytes → Prop
  | written (h : Told t v) : Records t v (some (Engine.serialize t v))
  | loaded (c : Call) (dim : Nat) (data : Bytes) (h : decode E c dim t data = some v) :
      Records t v (some data)

/-- No value of another type than `t` is there, and one of type `t` is in the record. -/
structure Backed (t : KeyType) (s : Slot E) : Prop where
  only : ∀ t', t' ≠ t → s.value t' = none
  record : ∀ v, s.value t = some v → Records t v s.record

/-- Without a value there is nothing to back. -/
theorem backed_of_none (h : ∀ t, s.value t = none) : s.Backed t :=
  ⟨fun t' _ => h t', fun v hv => by simp [h] at hv⟩

/-- Being backed is a matter of values and record. -/
theorem Backed.of_eq (h : s.Backed t) (hvalue : s'.value = s.value)
    (hrecord : s'.record = s.record) :
    s'.Backed t :=
  ⟨fun t' ht' => by rw [hvalue, h.only t' ht'],
    fun v hv => by rw [hrecord]; exact h.record v (by rw [← hvalue, hv])⟩

/-- A value is set, and a record that holds it. -/
theorem backed_set (honly : ∀ t', t' ≠ t → s.value t' = none) {record : Option Bytes}
    (hrecord : Records t v record) : ({ s.set t v with record := record } : Slot E).Backed t := by
  refine ⟨fun t' ht' => by simp [ht', honly], fun v' hv' => ?_⟩
  rw [value_set_self] at hv'
  rwa [← Option.some.inj hv']

/-- What a change leaves is written, or is in the record already. -/
theorem backed_store (honly : ∀ t', t' ≠ t → s.value t' = none) {res : Bool × Value E t}
    (htold : Told t res.2) (hres : res.1 = false → Records t res.2 s.record) :
    (store true true s t res).Backed t := by
  rw [store_eq]
  refine backed_set honly ?_
  cases hkeep : res.1 with
  | true => exact .written htold
  | false => exact hres hkeep

/-- What is loaded was read from the record. -/
theorem Backed.fetch (h : s.Backed t) (dim : Nat) : (s.fetch c t dim).Backed t := by
  unfold Slot.fetch
  split
  · rename_i v hvalue hload
    obtain ⟨data, hdata, hdecode⟩ := Option.bind_eq_some_iff.mp hload
    refine (backed_set (v := v) h.only (.loaded c dim data hdecode)).of_eq rfl ?_
    exact hdata
  · exact h

/-- What is changed is written to it. -/
theorem Backed.change (h : s.Backed t) {f : Value E t → Bool × Value E t}
    (hf : ∀ v, (f v).1 = false → (f v).2 = v) (htold : ∀ v, s.value t = some v → Told t (f v).2) :
    (Slot.change true true s t f).Backed t := by
  unfold Slot.change
  cases hvalue : s.value t with
  | none => exact h
  | some v =>
      refine backed_store h.only (htold v hvalue) fun hkeep => ?_
      rw [hf v hkeep]
      exact h.record v hvalue

/-- The operation on the slot: what it changes it writes, and what it loads is there. -/
theorem Backed.act (h : s.Backed t) (hok : c.putOk 0 = true) {shape : Shape E}
    (hkind : ∀ t', shape.kind? = some t' → t' = t) (hpersists : shape.Persists)
    (htells : shape.Tells s) :
    (s.act c true shape).Backed t := by
  have hcheck : (s.check c.now).Backed t := h.of_eq value_check record_check
  cases shape with
  | idle => exact h
  | check => exact hcheck
  | expire ms =>
      unfold Slot.act
      dsimp only
      split
      · exact h.of_eq rfl rfl
      · exact hcheck
  | get =>
      obtain rfl := hkind _ rfl
      unfold Slot.act
      dsimp only
      split
      · split
        · exact h.of_eq rfl rfl
        · rename_i record hvalue hrecord
          exact (backed_set h.only (.loaded c 0 record rfl)).of_eq rfl hrecord
        · exact h
      · exact hcheck
  | put value =>
      obtain rfl := hkind _ rfl
      refine (backed_set (v := value) h.only (.written trivial)).of_eq ?_ ?_
      · exact value_save
      · simp [Slot.act, record_save, hok, Engine.serialize]
  | del => exact backed_of_none fun _ => rfl
  | jsondel =>
      obtain rfl := hkind _ rfl
      refine backed_of_none fun t => ?_
      by_cases ht : t = .kJson
      · subst ht
        simp [Slot.act]
      · simp [Slot.act, ht, h.only]
  | read guarded t' dim =>
      obtain rfl := hkind _ rfl
      unfold Slot.act
      dsimp only
      split
      · exact hcheck
      · exact h.fetch dim
  | update t' dim f =>
      obtain rfl := hkind _ rfl
      simpa [Slot.act, hok] using (h.fetch dim).change hpersists fun v _ => htells v
  | change t' f =>
      obtain rfl := hkind _ rfl
      simpa [Slot.act, hok] using h.change hpersists htells
  | edit t' fresh f =>
      obtain rfl := hkind _ rfl
      have hkept : ∀ v record, (f v).1 = false → Records t' (f v).2 record := by
        simp [hpersists _]
      unfold Slot.act
      rw [hok]
      dsimp only
      split
      · rename_i v hvalue
        exact backed_store h.only (htells.1 v hvalue) (hkept _ _)
      · exact backed_store (fun t ht => by simp [ht, h.only]) htells.2 (hkept _ _)

/-- A pass drops values and forgets metadata. -/
theorem Backed.swept (h : s.Backed t) {o : Options} {disk : Bool} (hswept : Swept c o disk s s') :
    s'.Backed t := by
  cases hswept with
  | kept => exact h
  | expired hexpired => exact backed_of_none fun _ => rfl
  | evicted i m hlimit hm hvalid =>
      by_cases ht : t = m.type
      · refine backed_of_none fun t' => ?_
        by_cases ht' : t' = m.type
        · subst ht'
          exact value_evict_self
        · exact (value_evict_of_ne ht').trans (h.only t' (ht ▸ ht'))
      · refine h.of_eq ?_ ?_ <;> simp [evict, h.only m.type fun heq => ht heq.symm]

end Slot

/-! ## the run -/

namespace Engine

variable {opts : Options} {db : Dict Bytes Bytes} {kind : Bytes → KeyType} {ops : List (Call × Op)}
  {k : Bytes} {t : KeyType} {v : Value E t}

/-- An operation on neither streams nor vectors, with the one type of its key, whose RocksDB writes
all succeed. -/
structure Orderly (kind : Bytes → KeyType) (i : Call × Op) : Prop where
  plain : ∀ t, i.2.kind? = some t → t.Plain
  ofKind : i.2.OfKind kind
  ok : ∀ j, i.1.putOk j = true

/-- A run with keys of one type only. -/
theorem orderly_ofNow {op : Op} (hkind : op.kind? = some t) (hplain : t.Plain) (now : Int) :
    Orderly (fun _ => t) (.ofNow now, op) where
  plain t' ht' := by
    obtain rfl := Option.some.inj (hkind.symm.trans ht')
    exact hplain
  ofKind _ t' _ ht' := Option.some.inj (ht'.symm.trans hkind)
  ok _ := rfl

/-- The members of the sorted set that `zadd` or `zrem` finds in the map can be told from each
other: the structures are in step, and the member that comes shares neither its hash with another
one nor its place with a NaN. -/
def TellsApart (e : Engine E) : Op → Prop
  | .zadd key member score => ∀ zs, e.find .kZSet key = some zs →
      ZSetBPlus.InStep E.memberHash zs ∧ ZSetBPlus.Admits E.memberHash zs member score
  | .zrem key _ => ∀ zs, e.find .kZSet key = some zs → ZSetBPlus.InStep E.memberHash zs
  | _ => True

/-- Only `zadd` and `zrem` change a sorted set. -/
theorem TellsApart.tells {e : Engine E} {c : Call} {op : Op} (h : e.TellsApart op)
    (hkey : op.key = some k) : (op.shape E c).Tells (e.slot k) := by
  cases op with
  | zadd key member score =>
      obtain rfl := Option.some.inj hkey
      refine ⟨fun zs hzs => ?_, ?_⟩
      · exact ZSetBPlus.inStep_add (h zs hzs).1 (h zs hzs).2
      · exact ZSetBPlus.inStep_add ZSetBPlus.inStep_empty fun e he => absurd he List.not_mem_nil
  | zrem key member =>
      obtain rfl := Option.some.inj hkey
      exact fun zs hzs => ZSetBPlus.inStep_remove (h zs hzs) member
  | zscore | zcard | zrange | zrangebyscore => trivial
  | _ => exact Shape.tells_of_kind _ fun hkind => by simpa [Op.kind?] using kind_shape hkind

/-- One step: the key of the operation is written through, and the passes of cleanup and eviction
only drop values. -/
theorem backed_step {e : Engine E} {i : Call × Op} (hdisk : e.disk = true)
    (h : ∀ k, (e.slot k).Backed (kind k)) (hi : Orderly kind i) (htells : e.TellsApart i.2)
    (k : Bytes) : ((e.step i).2.slot k).Backed (kind k) := by
  obtain ⟨c, op⟩ := i
  refine (step_steps e c op).keeps (h k) (fun hkey => ?_) fun s s' hswept hs => hs.swept hswept
  rw [hdisk]
  exact (h k).act (hi.ok 0) (fun t' ht' => hi.ofKind k t' hkey (kind_shape ht'))
    (Op.persists hi.plain) (htells.tells hkey)

/-- **Write-through.**  The record of a value in a map decodes to the value, in every state of a run
that uses each key with one type and tells the members of its sorted sets apart. -/
theorem resident_is_recorded (hpath : opts.path ≠ [])
    (hops : Along step (fun e i => Orderly kind i ∧ e.TellsApart i.2) (new E opts (some db)) ops)
    (hplain : t.Plain) (hv : (final step (new E opts (some db)) ops).find t k = some v)
    (hfits : Fits t v) (c : Call) :
    ∃ data v', (final step (new E opts (some db)) ops).rocksGet k = some data ∧
      decode E c 0 t data = some v' ∧ Alike t v' v := by
  have hstep : ∀ (e : Engine E) i, (e.disk = true ∧ ∀ k, (e.slot k).Backed (kind k)) →
      (Orderly kind i ∧ e.TellsApart i.2) →
        (e.step i).2.disk = true ∧ ∀ k, ((e.step i).2.slot k).Backed (kind k) :=
    fun e i he hi =>
      ⟨(step_steps e i.1 i.2).disk.trans he.1, backed_step he.1 he.2 hi.1 hi.2⟩
  have hinit : (new E opts (some db)).disk = true := by simp [disk, new, hpath]
  have hbacked := (invariant_along hstep ⟨hinit, fun k => backed_of_none fun _ => rfl⟩ hops).2 k
  generalize final step (new E opts (some db)) ops = e at *
  obtain rfl : t = kind k := by
    by_contra ht
    have hnone : e.find t k = none := hbacked.only t ht
    simp [hnone] at hv
  have hrecord := hbacked.record v hv
  generalize hr : (e.slot k).record = record at hrecord
  cases hrecord with
  | written htold =>
      obtain ⟨v', hdecode, halike⟩ := decode_serialize hplain c hfits htold
      exact ⟨_, v', hr, hdecode, halike⟩
  | loaded c' dim data hdecode =>
      rw [decode_eq hplain c' c dim 0] at hdecode
      exact ⟨data, v, hr, hdecode, .refl _ v⟩

/-- Two members with hashes and scores of their own, and what is in RocksDB of them. -/
theorem resident_is_recorded_two :
    ∃ data zs zs', (final step (new Env.bare ⟨[47], 0, .k2Q⟩ (some ∅))
        [(.ofNow 5, .zadd [107] [97] ⟨0x3FF0000000000000⟩),
          (.ofNow 6, .zadd [107] [98] ⟨0x4000000000000000⟩)]).rocksGet [107] = some data ∧
      decode Env.bare (.ofNow 7) 0 .kZSet data = some zs' ∧ zs.index.length = 2 ∧
      ZSetBPlus.Same zs' zs := by
  let zs := (ZSetBPlus.empty.add Env.bare.memberHash [97] ⟨0x3FF0000000000000⟩).2
  have hops : Along step (fun e i => Orderly (fun _ => .kZSet) i ∧ e.TellsApart i.2)
      (new Env.bare ⟨[47], 0, .k2Q⟩ (some ∅))
      [(.ofNow 5, .zadd [107] [97] ⟨0x3FF0000000000000⟩),
        (.ofNow 6, .zadd [107] [98] ⟨0x4000000000000000⟩)] := by
    refine ⟨⟨orderly_ofNow rfl ⟨by decide, by decide⟩ 5, ?_⟩,
      ⟨orderly_ofNow rfl ⟨by decide, by decide⟩ 6, ?_⟩, trivial⟩
    · rintro zs ⟨⟩
    · intro zs' hzs'
      obtain rfl : zs = zs' := Option.some.inj hzs'
      refine ⟨ZSetBPlus.inStep_add ZSetBPlus.inStep_empty fun _ he => absurd he List.not_mem_nil,
        fun e he _ => ?_⟩
      obtain rfl : e = ⟨[97], ⟨0x3FF0000000000000⟩⟩ := List.mem_singleton.mp he
      exact ⟨by decide, by decide, by decide⟩
  have hv : (final step (new Env.bare ⟨[47], 0, .k2Q⟩ (some ∅))
      [(.ofNow 5, .zadd [107] [97] ⟨0x3FF0000000000000⟩),
        (.ofNow 6, .zadd [107] [98] ⟨0x4000000000000000⟩)]).find .kZSet [107] =
        some (zs.add Env.bare.memberHash [98] ⟨0x4000000000000000⟩).2 := rfl
  obtain ⟨data, zs', hdata, hdecode, halike⟩ := resident_is_recorded (by decide) hops
    ⟨by decide, by decide⟩ hv (by unfold Fits; decide) (.ofNow 7)
  exact ⟨data, _, zs', hdata, hdecode, by decide, halike⟩

/-- A NaN beside another score: once the other member is gone the tree in memory is empty, and the
one that the record is read as is not. -/
theorem nan_recorded_otherwise :
    ∃ ops zs data zs',
      (∀ i ∈ ops, Orderly (fun _ => .kZSet) i) ∧
      (final step (new Env.bare ⟨[47], 0, .k2Q⟩ (some ∅)) ops).find .kZSet [122] = some zs ∧
      Fits (E := Env.bare) .kZSet zs ∧
      (final step (new Env.bare ⟨[47], 0, .k2Q⟩ (some ∅)) ops).rocksGet [122] = some data ∧
      decode Env.bare (.ofNow 8) 0 .kZSet data = some zs' ∧
      zs.index = [] ∧ zs'.index.length = 1 ∧ ¬ Alike (E := Env.bare) .kZSet zs' zs := by
  refine ⟨[(.ofNow 5, .zadd [122] [97] ⟨0x3FF0000000000000⟩),
    (.ofNow 6, .zadd [122] [98] ⟨0x7FF8000000000000⟩), (.ofNow 7, .zrem [122] [97])],
    _, _, _, ?_, rfl, by unfold Fits; decide +kernel, rfl, rfl, by decide +kernel,
    by decide +kernel, fun h => ?_⟩
  · intro i hi
    obtain rfl | rfl | rfl : i = _ ∨ i = _ ∨ i = _ := by simpa using hi
    all_goals exact orderly_ofNow rfl ⟨by decide, by decide⟩ _
  · have hindex := congrArg List.length h.index
    revert hindex
    decide +kernel

end Engine

end AstraKV
