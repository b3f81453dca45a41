import AstraKV.Engine.Reply

/-!
# AstraKV.Engine.Kind

The type of value an operation is for.  An operation on the values of one
type leaves those of the others, unless it drops them all.

Six maps share their keys, and a key may stand in more than one of them; the
metadata name one type. Operations are sorted here by the map that they look
into, so that for a run in which a key is used as one type only, the slots of
the other types can be left out of consideration.
-/

namespace AstraKV

open Slot

/-- The type of value the operation looks at, changes or makes. -/
def Op.kind? : Op → Option KeyType
  | .put _ _ | .get _ => some .kBytes
  | .zadd _ _ _ | .zscore _ _ | .zrem _ _ | .zcard _ | .zrange _ _ _ _ => some .kZSet
  | .zrangebyscore _ _ _ => some .kZSet
  | .lpush _ _ | .rpush _ _ | .lpop _ | .rpop _ | .llen _ => some .kList
  | .hset _ _ _ | .hget _ _ | .hdel _ _ | .hexists _ _ | .hgetall _ | .hlen _ => some .kHash
  | .hincrby _ _ _ | .astrakvHgetall _ | .astrakvHscan _ => some .kHash
  | .sadd _ _ | .srem _ _ | .sismember _ _ | .smembers _ | .scard _ => some .kSet
  | .astrakvSmembers _ | .astrakvSscan _ => some .kSet
  | .xadd _ _ _ | .xread _ _ _ | .xrange _ _ _ _ | .xlen _ | .xdel _ _ | .xtrim _ _ => some .kStream
  | .jsonset _ _ _ | .jsonget _ _ | .jsondel _ _ => some .kJson
  | .vecadd _ _ _ | .vecget _ _ | .vecdel _ _ | .vecsearch _ _ _ | .vecsize _ => some .kVector
  | .del _ | .existsKey _ | .type _ | .expire _ _ | .ttl _ => none
  | .allEntries | .allKeys | .count | .memoryUsage | .cleanupExpired | .setEviction _ => none

/-- An operation on a key uses it with its type. -/
def Op.OfKind (kind : Bytes → KeyType) (op : Op) : Prop :=
  ∀ k t, op.key = some k → op.kind? = some t → t = kind k

namespace Shape

variable {E : Env}

def kind? : Shape E → Option KeyType
  | .idle | .check | .expire _ | .del => none
  | .get | .put _ => some .kBytes
  | .jsondel => some .kJson
  | .read _ t _ | .update t _ _ | .change t _ | .edit t _ _ => some t

end Shape

variable {E : Env}

/-- The kind of an operation is that of its shape. -/
theorem kind_shape {c : Call} {op : Op} {t : KeyType} (h : (op.shape E c).kind? = some t) :
    op.kind? = some t := by
  cases op with
  | jsonset key path json =>
      simp only [Op.shape] at h
      split at h
      · exact h
      · contradiction
  | jsondel key path =>
      simp only [Op.shape] at h
      split at h
      · exact h
      · contradiction
  | _ => exact h

namespace Slot

variable {s : Slot E} {c : Call} {t t' : KeyType} {disk ok : Bool}

/-- Looking for a value of one type leaves the others. -/
theorem value_fetch_of_ne {dim : Nat} (h : t ≠ t') : (s.fetch c t' dim).value t = s.value t := by
  unfold fetch
  split <;> simp [h]

theorem value_store_of_ne {res : Bool × Value E t'} (h : t ≠ t') :
    (store disk ok s t' res).value t = s.value t := by
  rw [store_eq]
  exact value_set_of_ne h

theorem value_change_of_ne {f : Value E t' → Bool × Value E t'} (h : t ≠ t') :
    (change disk ok s t' f).value t = s.value t := by
  unfold change
  split
  · rfl
  · exact value_store_of_ne h

theorem value_edit_of_ne {fresh : Option Bytes → Value E t'} {f : Value E t' → Bool × Value E t'}
    (h : t ≠ t') : (s.act c disk (.edit t' fresh f)).value t = s.value t := by
  unfold act
  dsimp only
  split
  · exact value_store_of_ne h
  · exact (value_store_of_ne h).trans (value_set_of_ne h)

/-- An operation for another type leaves the value or drops it. -/
theorem value_act_of_ne {shape : Shape E} (h : shape.kind? ≠ some t) :
    (s.act c disk shape).value t = s.value t ∨ (s.act c disk shape).value t = none := by
  cases shape with
  | idle => exact .inl rfl
  | check => exact .inl (congrFun value_check t)
  | expire ms =>
      unfold act
      dsimp only
      split
      · exact .inl rfl
      · exact .inl (congrFun value_check t)
  | get =>
      have hne : t ≠ .kBytes := fun heq => h (congrArg some heq.symm)
      unfold act
      dsimp only
      split
      · split <;> simp [hne]
      · exact .inl (congrFun value_check t)
  | put value =>
      have hne : t ≠ .kBytes := fun heq => h (congrArg some heq.symm)
      simp [act, hne]
  | del => exact .inr rfl
  | jsondel =>
      have hne : t ≠ .kJson := fun heq => h (congrArg some heq.symm)
      exact .inl (value_drop_of_ne hne)
  | read guarded t' dim =>
      have hne : t ≠ t' := fun heq => h (congrArg some heq.symm)
      unfold act
      dsimp only
      split
      · exact .inl (congrFun value_check t)
      · exact .inl (value_fetch_of_ne hne)
  | update t' dim f =>
      have hne : t ≠ t' := fun heq => h (congrArg some heq.symm)
      exact .inl ((value_change_of_ne hne).trans (value_fetch_of_ne hne))
  | change t' f =>
      have hne : t ≠ t' := fun heq => h (congrArg some heq.symm)
      exact .inl (value_change_of_ne hne)
  | edit t' fresh f =>
      exact .inl (value_edit_of_ne fun heq => h (congrArg some heq.symm))

/-- Without a limit and with nothing expired a pass does nothing. -/
theorem Swept.eq {o : Options} {s' : Slot E} (h : Swept c o disk s s') (hmax : o.maxMb = 0)
    (hexpired : s.expired c.now = false) : s' = s := by
  cases h with
  | kept => rfl
  | expired h => simp [hexpired] at h
  | evicted i m hlimit => exact absurd hmax hlimit

/-- A pass leaves a value or drops it. -/
theorem Swept.value {o : Options} {s' : Slot E} (h : Swept c o disk s s') (t : KeyType) :
    s'.value t = s.value t ∨ s'.value t = none := by
  cases h with
  | kept => exact .inl rfl
  | expired h => exact .inr rfl
  | evicted i m hlimit hm hvalid =>
      by_cases ht : t = m.type
      · subst ht
        exact .inr value_evict_self
      · exact .inl (value_evict_of_ne ht)

end Slot

end AstraKV
