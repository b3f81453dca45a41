import AstraKV.Engine.Kind

/-!
# AstraKV.Engine.Reference

What the engine is for: a store from keys to typed values, each a byte
string, a sequence, a field map or a member set.

No memory limit, no record, no expiry: an operation looks at the value of its
key and answers, and leaves another value or none.

A store is a finite map from keys to contents, and an operation has a meaning
on the content of its key alone: an answer and a new content, or none
(`Op.meaning`). The contents are finite sets and maps without an order, so an
answer that lists them is compared as such. `Op.Basic` are the operations that
have such a meaning, and `OneKind` the runs in which no key is used as two
types.
-/

namespace AstraKV

inductive Content where
  | bytes (value : Bytes)
  | list (items : List Bytes)
  | hash (fields : Finmap fun _ : Bytes => Bytes)
  | set (members : Finset Bytes)

namespace Content

def type : Content → KeyType
  | .bytes _ => .kBytes
  | .list _ => .kList
  | .hash _ => .kHash
  | .set _ => .kSet

/-- A content of type `kBytes` is a byte string. -/
theorem eq_bytes {y : Content} (h : y.type = .kBytes) : ∃ value, y = .bytes value := by
  cases y with
  | bytes value => exact ⟨value, rfl⟩
  | list | hash | set => cases h

/-- A content of type `kList` is a sequence. -/
theorem eq_list {y : Content} (h : y.type = .kList) : ∃ items, y = .list items := by
  cases y with
  | list items => exact ⟨items, rfl⟩
  | bytes | hash | set => cases h

/-- A content of type `kHash` is a field map. -/
theorem eq_hash {y : Content} (h : y.type = .kHash) : ∃ fields, y = .hash fields := by
  cases y with
  | hash fields => exact ⟨fields, rfl⟩
  | bytes | list | set => cases h

/-- A content of type `kSet` is a member set. -/
theorem eq_set {y : Content} (h : y.type = .kSet) : ∃ members, y = .set members := by
  cases y with
  | set members => exact ⟨members, rfl⟩
  | bytes | list | hash => cases h

/-- The byte string of a key. -/
def value? : Option Content → Option Bytes
  | some (.bytes value) => some value
  | _ => none

/-- The sequence of a key, empty if it has none. -/
def items : Option Content → List Bytes
  | some (.list items) => items
  | _ => []

/-- The field map of a key, empty if it has none. -/
def fields : Option Content → Finmap fun _ : Bytes => Bytes
  | some (.hash fields) => fields
  | _ => ∅

/-- The member set of a key, empty if it has none. -/
def members : Option Content → Finset Bytes
  | some (.set members) => members
  | _ => ∅

def mapItems (f : List Bytes → List Bytes) : Content → Content
  | .list items => .list (f items)
  | x => x

def mapFields (f : (Finmap fun _ : Bytes => Bytes) → Finmap fun _ : Bytes => Bytes) :
    Content → Content
  | .hash fields => .hash (f fields)
  | x => x

def mapMembers (f : Finset Bytes → Finset Bytes) : Content → Content
  | .set members => .set (f members)
  | x => x

/-- Changing the items keeps the type. -/
@[simp] theorem type_mapItems (f : List Bytes → List Bytes) (x : Content) :
    (x.mapItems f).type = x.type := by
  cases x <;> rfl

@[simp] theorem type_mapFields
    (f : (Finmap fun _ : Bytes => Bytes) → Finmap fun _ : Bytes => Bytes) (x : Content) :
    (x.mapFields f).type = x.type := by
  cases x <;> rfl

@[simp] theorem type_mapMembers (f : Finset Bytes → Finset Bytes) (x : Content) :
    (x.mapMembers f).type = x.type := by
  cases x <;> rfl

end Content

open Content Machine

/-- The operations of the reference store. -/
def Op.Basic : Op → Prop
  | .put _ _ | .get _ | .del _ | .existsKey _ | .type _ | .count => True
  | .lpush _ _ | .rpush _ _ | .lpop _ | .rpop _ | .llen _ => True
  | .hset _ _ _ | .hget _ _ | .hdel _ _ | .hexists _ _ | .hlen _ => True
  | .sadd _ _ | .srem _ _ | .sismember _ _ | .scard _ => True
  | _ => False

/-- The answer of an operation on a key that has the value `x`, and the value it leaves. -/
def Op.meaning (x : Option Content) : Op → Reply × Option Content
  | .put _ value => (.bool true, some (.bytes value))
  | .get _ => (.bytesOption (value? x), x)
  | .del _ => (.bool x.isSome, none)
  | .existsKey _ => (.bool x.isSome, x)
  | .type _ => (.type (x.elim .kNone Content.type), x)
  | .lpush _ value => (.bool true, some (.list (value :: items x)))
  | .rpush _ value => (.bool true, some (.list (items x ++ [value])))
  | .lpop _ => (.bytesOption (items x).head?, x.map (mapItems List.tail))
  | .rpop _ => (.bytesOption (items x).getLast?, x.map (mapItems List.dropLast))
  | .llen _ => (.int (items x).length, x)
  | .hset _ field value => (.bool true, some (.hash ((fields x).insert field value)))
  | .hget _ field => (.bytesOption ((fields x).lookup field), x)
  | .hdel _ field => (.bool (field ∈ fields x), x.map (mapFields (Finmap.erase field)))
  | .hexists _ field => (.bool (field ∈ fields x), x)
  | .hlen _ => (.int (fields x).keys.card, x)
  | .sadd _ member => (.bool true, some (.set (insert member (members x))))
  | .srem _ member => (.bool (member ∈ members x), x.map (mapMembers fun ms => ms.erase member))
  | .sismember _ member => (.bool (member ∈ members x), x)
  | .scard _ => (.int (members x).card, x)
  | _ => (.unit, x)

/-- The operation makes a value under `k`. -/
def Op.Makes (k : Bytes) : Op → Prop
  | .put key _ | .lpush key _ | .rpush key _ | .hset key _ _ | .sadd key _ => key = k
  | _ => False

/-- A value that is left has the type of the operation, or it was there with its type. -/
theorem Op.meaning_type {op : Op} {x : Option Content} {y : Content}
    (h : (op.meaning x).2 = some y) :
    op.kind? = some y.type ∨ x.map Content.type = some y.type ∧ ∀ k, op ≠ .del k := by
  cases op with
  | del k => simp [meaning] at h
  | put | lpush | rpush | hset | sadd =>
      simp only [meaning, Option.some.injEq] at h
      rw [← h]
      exact .inl rfl
  | lpop | rpop | hdel | srem =>
      obtain ⟨y', rfl, rfl⟩ := Option.map_eq_some_iff.mp h
      exact .inr ⟨by simp, by simp⟩
  | _ =>
      simp only [meaning] at h
      rw [h]
      exact .inr ⟨rfl, by simp⟩

/-- A value is left where one is made, and where there was one that is not deleted. -/
theorem Op.isSome_meaning {op : Op} {x : Option Content} {k : Bytes} (hkey : op.key = some k) :
    (op.meaning x).2.isSome = true ↔ op.Makes k ∨ x.isSome = true ∧ op ≠ .del k := by
  cases op with
  | del | put | lpush | rpush | hset | sadd =>
      obtain rfl := Option.some.inj hkey
      simp [meaning, Makes]
  | _ => simp [meaning, Makes]

/-- What makes a key is about it. -/
theorem Op.Makes.key {op : Op} {k : Bytes} (h : op.Makes k) : op.key = some k := by
  cases op with
  | put | lpush | rpush | hset | sadd => exact congrArg some h
  | _ => exact h.elim

abbrev Reference := Finmap fun _ : Bytes => Content

namespace Reference

def set (r : Reference) (key : Bytes) : Option Content → Reference
  | none => r.erase key
  | some x => r.insert key x

def step (r : Reference) (i : Call × Op) : Reply × Reference :=
  match i.2.key with
  | some key =>
      let res := i.2.meaning (r.lookup key)
      (res.1, r.set key res.2)
  | none => (.int r.keys.card, r)

variable {r : Reference} {i : Call × Op} {k : Bytes} {ops : List (Call × Op)} {x : Content}

/-- Setting a key sets it and no other. -/
theorem lookup_set (x : Option Content) (k' : Bytes) :
    (r.set k x).lookup k' = if k' = k then x else r.lookup k' := by
  by_cases hk : k' = k
  · subst hk
    cases x <;> simp [set]
  · cases x <;> simp [set, hk, Finmap.lookup_erase_ne, Finmap.lookup_insert_of_ne]

/-- A step answers what the operation means. -/
theorem step_fst (hkey : i.2.key = some k) : (r.step i).1 = (i.2.meaning (r.lookup k)).1 := by
  rw [step, hkey]

/-- A step leaves of its key what the operation means. -/
theorem lookup_step_self (hkey : i.2.key = some k) :
    (r.step i).2.lookup k = (i.2.meaning (r.lookup k)).2 := by
  rw [step, hkey]
  simp [lookup_set]

theorem lookup_step_of_ne (hkey : i.2.key ≠ some k) : (r.step i).2.lookup k = r.lookup k := by
  unfold step
  cases h : i.2.key with
  | none => rfl
  | some key =>
      refine (lookup_set _ _).trans (if_neg fun hk => hkey ?_)
      rw [h, hk]

/-! ## runs -/

/-- The key was written, and not deleted since. -/
def Present (k : Bytes) : List (Call × Op) → Prop :=
  Since (fun i => i.2.Makes k) fun i => i.2 ≠ .del k

/-- The key was used with operations on values of type `t`, and not deleted since. -/
def UsedAs (k : Bytes) (t : KeyType) : List (Call × Op) → Prop :=
  Since (fun i => i.2.key = some k ∧ i.2.kind? = some t) fun i => i.2 ≠ .del k

/-- After a step a key is there if it was made, or was there and not deleted. -/
theorem isSome_step :
    ((r.step i).2.lookup k).isSome = true ↔
      i.2.Makes k ∨ (r.lookup k).isSome = true ∧ i.2 ≠ .del k := by
  by_cases hkey : i.2.key = some k
  · rw [lookup_step_self hkey, Op.isSome_meaning hkey]
  · have hmakes : ¬ i.2.Makes k := fun h => hkey h.key
    have hdel : i.2 ≠ .del k := by
      intro h
      exact hkey (by rw [h]; rfl)
    simp [lookup_step_of_ne hkey, hmakes, hdel]

/-- The keys of the store are those written and not deleted since. -/
theorem mem_final (ops : List (Call × Op)) : k ∈ final step ∅ ops ↔ Present k ops := by
  rw [← Finmap.lookup_isSome]
  induction ops using List.reverseRecOn with
  | nil => simp [Present, since_nil]
  | append_singleton ops i ih =>
      rw [final_append, final_cons, final_nil, isSome_step, ih]
      simp [Present, since_append_singleton]

/-- A value is there since an operation for its type. -/
theorem usedAs_of_lookup (h : (final step ∅ ops).lookup k = some x) : UsedAs k x.type ops := by
  induction ops using List.reverseRecOn generalizing x with
  | nil => simp at h
  | append_singleton ops i ih =>
      rw [final_append, final_cons, final_nil] at h
      refine since_append_singleton.mpr ?_
      by_cases hkey : i.2.key = some k
      · rw [lookup_step_self hkey] at h
        obtain hkind | ⟨htype, hdel⟩ := Op.meaning_type h
        · exact .inl ⟨hkey, hkind⟩
        · obtain ⟨x', hx', htype⟩ := Option.map_eq_some_iff.mp htype
          exact .inr ⟨htype ▸ ih hx', hdel k⟩
      · rw [lookup_step_of_ne hkey] at h
        refine .inr ⟨ih h, ?_⟩
        intro hdel
        exact hkey (by rw [hdel]; rfl)

end Reference

/-- Until it is deleted a key is only used with operations on values of one type. -/
def OneKind (ops : List (Call × Op)) : Prop :=
  ∀ ops₁ i ops₂, ops = ops₁ ++ i :: ops₂ → ∀ k t, i.2.key = some k → i.2.kind? = some t →
    ∀ t', Reference.UsedAs k t' ops₁ → t' = t

/-- Where keys have kinds, no key is used as two. -/
theorem oneKind_of_ofKind {kind : Bytes → KeyType} {ops : List (Call × Op)}
    (h : ∀ i ∈ ops, i.2.OfKind kind) : OneKind ops := by
  rintro ops₁ i ops₂ rfl k t hkey hkind t' ⟨ops₃, j, ops₄, rfl, ⟨hkey', hkind'⟩, -⟩
  rw [h i (by simp) k t hkey hkind, h j (by simp) k t' hkey' hkind']

/-- Such a run comes upon values of the right types. -/
theorem OneKind.along {ops : List (Call × Op)} (h : OneKind ops) :
    Along Reference.step (fun r i => ∀ k t, i.2.key = some k → i.2.kind? = some t →
      ∀ x, r.lookup k = some x → x.type = t) ∅ ops := by
  refine along_iff.mpr fun ops₁ i ops₂ hsplit k t hkey hkind x hx => ?_
  exact h ops₁ i ops₂ hsplit k t hkey hkind x.type (Reference.usedAs_of_lookup hx)

end AstraKV
