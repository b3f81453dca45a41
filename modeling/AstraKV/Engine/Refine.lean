import AstraKV.Engine.Reference

/-!
# AstraKV.Engine.Refine

Without a path and without a memory limit the engine is the reference store.

The value of a key is in one of the maps, its type in the metadata; a pass
at the end of a write finds nothing expired and has no limit to keep.

`Holds` relates a slot to a content or to nothing: the value of the content's
type shows it, no other map has one, the metadata name that type and have no
deadline, and there is no record in the way. Then no check finds anything
expired and no look loads anything, so each operation reduces to a computation
on the value it finds, which is its meaning on contents. `Refines` asks this
of every slot, and whole runs follow by simulation.
-/

namespace AstraKV

open Slot Machine Content

variable {E : Env}

/-- The value of the slot has these contents. -/
def Content.Shows (s : Slot E) : Content → Prop
  | .bytes value => s.value .kBytes = some value
  | .list items => ∃ lst, s.value .kList = some lst ∧ lst.WellFormed ∧ lst.items = items
  | .hash fields => ∃ h, s.value .kHash = some h ∧ h.toFinmap = fields
  | .set members => ∃ ms, s.value .kSet = some ms ∧ ms.keys.toFinset = members

namespace Slot

variable {s s' : Slot E} {c : Call} {t : KeyType} {dim : Nat} {x : Option Content} {y : Content}

/-- The slot holds the value `x` and nothing else. -/
structure Holds (s : Slot E) (x : Option Content) : Prop where
  only : ∀ t, (∀ y, x = some y → y.type ≠ t) → s.value t = none
  shows : ∀ y, x = some y → y.Shows s
  type : s.metadata.map KeyMetadata.type = x.map Content.type
  lasting : ∀ m, s.metadata = some m → m.expireTimeMs = none
  record : s.record = none

/-- An empty slot holds nothing. -/
theorem holds_empty : (empty : Slot E).Holds none :=
  ⟨fun _ _ => rfl, nofun, rfl, nofun, rfl⟩

/-- What is held has no deadline. -/
theorem Holds.not_expired (h : s.Holds x) (now : Int) : s.expired now = false := by
  cases hm : s.metadata with
  | none => simp [expired, hm]
  | some m => simp [expired, hm, KeyMetadata.isExpired, h.lasting m hm]

/-- A slot has metadata if it holds something. -/
theorem Holds.isSome_metadata (h : s.Holds x) : s.metadata.isSome = x.isSome := by
  rw [← Option.isSome_map (f := KeyMetadata.type), h.type, Option.isSome_map]

/-- So it is valid then. -/
theorem Holds.valid_eq (h : s.Holds x) (now : Int) : s.valid now = x.isSome := by
  rw [← h.isSome_metadata]
  cases hm : s.metadata with
  | none => simp [valid, hm]
  | some m => simp [valid, hm, KeyMetadata.isExpired, h.lasting m hm]

/-- A check changes nothing. -/
theorem Holds.check_eq (h : s.Holds x) (now : Int) : s.check now = s :=
  if_neg (by simp [h.not_expired])

/-- A look loads nothing. -/
theorem Holds.fetch_eq (h : s.Holds x) : s.fetch c t dim = s := by
  unfold fetch load
  rw [h.record]
  split <;> simp_all

/-- A look finds what the map has. -/
theorem Holds.found_eq (h : s.Holds x) : s.found c t dim = s.value t := by
  simp [found, load, h.record]

/-! ## the value of a key used with one type -/

/-- What the map of byte strings has. -/
theorem Holds.bytes (h : s.Holds x) (hx : ∀ y, x = some y → y.type = .kBytes) :
    s.value .kBytes = value? x := by
  cases x with
  | none => exact h.only .kBytes nofun
  | some y =>
      obtain ⟨v, rfl⟩ := Content.eq_bytes (hx y rfl)
      exact h.shows _ rfl

/-- What the map of lists has. -/
theorem Holds.list (h : s.Holds x) (hx : ∀ y, x = some y → y.type = .kList) :
    s.value .kList = none ∧ x = none ∨
      ∃ lst, s.value .kList = some lst ∧ lst.WellFormed ∧ x = some (.list lst.items) := by
  cases x with
  | none => exact .inl ⟨h.only .kList nofun, rfl⟩
  | some y =>
      obtain ⟨items, rfl⟩ := Content.eq_list (hx y rfl)
      obtain ⟨lst, hvalue, hformed, rfl⟩ := h.shows _ rfl
      exact .inr ⟨lst, hvalue, hformed, rfl⟩

/-- What the map of hashes has. -/
theorem Holds.hash (h : s.Holds x) (hx : ∀ y, x = some y → y.type = .kHash) :
    s.value .kHash = none ∧ x = none ∨
      ∃ d, s.value .kHash = some d ∧ x = some (.hash d.toFinmap) := by
  cases x with
  | none => exact .inl ⟨h.only .kHash nofun, rfl⟩
  | some y =>
      obtain ⟨fields, rfl⟩ := Content.eq_hash (hx y rfl)
      obtain ⟨d, hvalue, rfl⟩ := h.shows _ rfl
      exact .inr ⟨d, hvalue, rfl⟩

/-- What the map of sets has. -/
theorem Holds.set (h : s.Holds x) (hx : ∀ y, x = some y → y.type = .kSet) :
    s.value .kSet = none ∧ x = none ∨
      ∃ d, s.value .kSet = some d ∧ x = some (.set d.keys.toFinset) := by
  cases x with
  | none => exact .inl ⟨h.only .kSet nofun, rfl⟩
  | some y =>
      obtain ⟨members, rfl⟩ := Content.eq_set (hx y rfl)
      obtain ⟨d, hvalue, rfl⟩ := h.shows _ rfl
      exact .inr ⟨d, hvalue, rfl⟩

/-! ## writes -/

/-- A value of the same type in the place of the old one. -/
theorem Holds.replace (h : s.Holds x) {z : Content} (hx : x = some z) (htype : y.type = z.type)
    (hvalue : ∀ t, t ≠ y.type → s'.value t = s.value t) (hshows : y.Shows s')
    (hmeta : s'.metadata = s.metadata) (hrecord : s'.record = s.record) : s'.Holds (some y) := by
  subst hx
  constructor
  · intro t ht
    have hne := ht y rfl
    rw [hvalue t hne.symm]
    refine h.only t ?_
    rintro _ ⟨⟩
    rwa [← htype]
  · rintro _ ⟨⟩
    exact hshows
  · rw [hmeta, h.type]
    simp [htype]
  · rw [hmeta]
    exact h.lasting
  · rw [hrecord, h.record]

/-- A new value, registered. -/
theorem Holds.create (h : s.Holds x) (hx : ∀ z, x = some z → z.type = y.type)
    (hvalue : ∀ t, t ≠ y.type → s'.value t = s.value t) (hshows : y.Shows s')
    (hmeta : s'.metadata = (s.register y.type).metadata) (hrecord : s'.record = s.record) :
    s'.Holds (some y) := by
  constructor
  · intro t ht
    rw [hvalue t (ht y rfl).symm]
    refine h.only t fun z hz => ?_
    rw [hx z hz]
    exact ht y rfl
  · rintro _ ⟨⟩
    exact hshows
  · rw [hmeta]
    rfl
  · rw [hmeta]
    rintro m ⟨⟩
    rfl
  · rw [hrecord, h.record]

/-- A content that shows has a value in its map. -/
theorem value_ne_none (h : y.Shows s) : s.value y.type ≠ none := by
  cases y with
  | bytes value => exact fun hnone => nomatch h.symm.trans hnone
  | list items =>
      obtain ⟨lst, hvalue, -⟩ := h
      exact fun hnone => nomatch hvalue.symm.trans hnone
  | hash fields =>
      obtain ⟨d, hvalue, -⟩ := h
      exact fun hnone => nomatch hvalue.symm.trans hnone
  | set members =>
      obtain ⟨d, hvalue, -⟩ := h
      exact fun hnone => nomatch hvalue.symm.trans hnone

/-- A write that shows a content of the same type makes the slot hold it. -/
theorem Holds.edit (h : s.Holds x) (hx : ∀ z, x = some z → z.type = y.type)
    {fresh : Option Bytes → Value E y.type} {f : Value E y.type → Bool × Value E y.type}
    (hshows : y.Shows (s.act c false (.edit y.type fresh f))) :
    (s.act c false (.edit y.type fresh f)).Holds (some y) := by
  have hvalue : ∀ t, t ≠ y.type → (s.act c false (.edit y.type fresh f)).value t = s.value t :=
    fun t ht => value_edit_of_ne ht
  have hrecord : (s.act c false (.edit y.type fresh f)).record = s.record := by simp [record_edit]
  cases x with
  | none =>
      have hnone : s.value y.type = none := h.only _ nofun
      exact h.create hx hvalue hshows (metadata_edit.trans (if_pos hnone)) hrecord
  | some z =>
      have htype := hx z rfl
      have hsome : s.value y.type ≠ none := htype ▸ value_ne_none (h.shows z rfl)
      exact h.replace rfl htype.symm hvalue hshows (metadata_edit.trans (if_neg hsome)) hrecord

/-- A change to the value that is there. -/
theorem Holds.change {z : Content} (h : s.Holds (some z)) (htype : y.type = z.type) {ok : Bool}
    {f : Value E y.type → Bool × Value E y.type}
    (hshows : y.Shows (Slot.change false ok s y.type f)) :
    (Slot.change false ok s y.type f).Holds (some y) := by
  refine h.replace rfl htype (fun t ht => value_change_of_ne ht) hshows metadata_change ?_
  unfold Slot.change
  split
  · rfl
  · simp [store_eq]

/-! ## one operation -/

/-- What an operation answers and leaves is what it means. -/
structure Means (c : Call) (s : Slot E) (x : Option Content) (op : Op) : Prop where
  reply : s.reply c op = (op.meaning x).1
  holds : (s.act c false (op.shape E c)).Holds (op.meaning x).2

/-- What shows depends on the values alone. -/
theorem shows_congr (h : y.Shows s) (hvalue : s'.value = s.value) : y.Shows s' := by
  cases y <;> simpa [Shows, hvalue] using h

/-- An access leaves what is held. -/
theorem Holds.touch (h : s.Holds x) (now : Int) : (s.touch now).Holds x := by
  constructor
  · exact h.only
  · exact fun y hy => shows_congr (h.shows y hy) rfl
  · rw [← h.type]
    exact Option.map_map ..
  · intro m hm
    obtain ⟨m', hm', rfl⟩ := Option.map_eq_some_iff.mp hm
    exact h.lasting m' hm'
  · exact h.record

theorem Holds.means_put (h : s.Holds x) (k v : Bytes)
    (hx : ∀ y, x = some y → y.type = .kBytes) : Means c s x (.put k v) := by
  refine ⟨rfl, h.create hx (fun t ht => ?_) ?_ (metadata_save.trans rfl) ?_⟩
  · have hne : t ≠ .kBytes := ht
    simp [Op.shape, act, hne]
  · simp [Op.shape, act, Shows]
  · simp [Op.shape, act, record_save]

theorem Holds.means_get (h : s.Holds x) (k : Bytes)
    (hx : ∀ y, x = some y → y.type = .kBytes) : Means c s x (.get k) := by
  have hvalue := h.bytes hx
  have hvalid := h.valid_eq c.now
  cases x with
  | none =>
      refine ⟨by simp [reply, hvalid, Op.meaning, value?], ?_⟩
      simpa [Op.shape, act, hvalid, h.check_eq, Op.meaning] using h
  | some y =>
      obtain ⟨v, rfl⟩ := Content.eq_bytes (hx y rfl)
      refine ⟨by simp [reply, hvalid, hvalue, h.record, Op.meaning, value?], ?_⟩
      simpa [Op.shape, act, hvalid, hvalue, value?, Op.meaning] using h.touch c.now

theorem Holds.means_del (h : s.Holds x) (k : Bytes) : Means c s x (.del k) := by
  refine ⟨?_, holds_empty⟩
  have hany : (Engine.mapTypes.any fun t => (s.value t).isSome) = x.isSome := by
    cases x with
    | none => simp [Engine.mapTypes, h.only]
    | some y =>
        refine List.any_eq_true.mpr ⟨y.type, ?_, Option.isSome_iff_ne_none.mpr ?_⟩
        · cases y <;> simp [Engine.mapTypes, Content.type]
        · exact value_ne_none (h.shows y rfl)
  simp [reply, hany, Op.meaning]

theorem Holds.means_existsKey (h : s.Holds x) (k : Bytes) : Means c s x (.existsKey k) :=
  ⟨by simp [reply, h.valid_eq, Op.meaning],
    by simpa [Op.shape, act, h.check_eq, Op.meaning] using h⟩

theorem Holds.means_type (h : s.Holds x) (k : Bytes) : Means c s x (.type k) := by
  refine ⟨?_, by simpa [Op.shape, act, h.check_eq, Op.meaning] using h⟩
  cases x <;> simp [reply, h.valid_eq, h.type, Op.meaning]

/-- A read leaves the slot as it is. -/
theorem Holds.act_read (h : s.Holds x) (guarded : Bool) :
    (s.act c false (.read guarded t dim)).Holds x := by
  unfold act
  dsimp only
  rw [h.check_eq, h.fetch_eq, ite_self]
  exact h

/-- There is nothing to read in a slot that is not valid. -/
theorem Holds.guarded_eq {α : Type} {absent : α} {read : Value E t → α} (h : s.Holds x) :
    s.guarded c t dim absent read = s.answer c t dim absent read := by
  cases x with
  | none =>
      rw [guarded_absent (h.valid_eq c.now), answer_absent]
      rw [h.found_eq, h.only t nofun]
  | some y => exact guarded_valid (h.valid_eq c.now)

/-! ### lists -/

/-- A read of a list answers from its items. -/
theorem Holds.answer_list {α : Type} {absent : α} {read : LinkedList Bytes → α} (h : s.Holds x)
    (hx : ∀ y, x = some y → y.type = .kList) {r : List Bytes → α} (habsent : r [] = absent)
    (hread : ∀ lst, read lst = r lst.items) : s.answer c .kList dim absent read = r (items x) := by
  obtain ⟨hnone, rfl⟩ | ⟨lst, hvalue, hformed, rfl⟩ := h.list hx
  · simp [answer, h.found_eq, hnone, habsent, items]
  · simp [answer, h.found_eq, hvalue, hread, items]

/-- A push. -/
theorem Holds.edit_list (h : s.Holds x) (hx : ∀ y, x = some y → y.type = .kList)
    {f : LinkedList Bytes → Bool × LinkedList Bytes} {g : List Bytes → List Bytes}
    (hf : ∀ lst, lst.WellFormed → (f lst).2.WellFormed ∧ (f lst).2.items = g lst.items) :
    (s.act c false (.edit .kList (fun _ => .empty) f)).Holds (some (.list (g (items x)))) := by
  have hedited : (s.edited .kList .empty).WellFormed ∧
      (s.edited .kList .empty).items = items x := by
    obtain ⟨hnone, rfl⟩ | ⟨lst, hvalue, hformed, rfl⟩ := h.list hx
    · simp [edited, hnone, items, LinkedList.wellFormed_empty]
      rfl
    · simp [edited, hvalue, items, hformed]
  obtain ⟨hformed, hitems⟩ := hf _ hedited.1
  rw [hedited.2] at hitems
  exact h.edit (y := .list (g (items x))) hx ⟨_, value_edit, hformed, hitems⟩

/-- A pop. -/
theorem Holds.update_list (h : s.Holds x) (hx : ∀ y, x = some y → y.type = .kList)
    {f : LinkedList Bytes → Bool × LinkedList Bytes} {g : List Bytes → List Bytes}
    (hf : ∀ lst, lst.WellFormed → (f lst).2.WellFormed ∧ (f lst).2.items = g lst.items) :
    (s.act c false (.update .kList dim f)).Holds (x.map (mapItems g)) := by
  unfold act
  dsimp only
  rw [h.fetch_eq]
  obtain ⟨hnone, rfl⟩ | ⟨lst, hvalue, hformed, rfl⟩ := h.list hx
  · simpa [Slot.change, hnone] using h
  · obtain ⟨hformed, hitems⟩ := hf lst hformed
    exact h.change (y := .list (g lst.items)) rfl ⟨_, value_change hvalue, hformed, hitems⟩

/-! ### hashes -/

/-- A read of a hash answers from its fields. -/
theorem Holds.answer_hash {α : Type} {absent : α} {read : Dict Bytes Bytes → α} (h : s.Holds x)
    (hx : ∀ y, x = some y → y.type = .kHash) {r : (Finmap fun _ : Bytes => Bytes) → α}
    (habsent : r ∅ = absent) (hread : ∀ d, read d = r d.toFinmap) :
    s.answer c .kHash dim absent read = r (fields x) := by
  obtain ⟨hnone, rfl⟩ | ⟨d, hvalue, rfl⟩ := h.hash hx
  · simp [answer, h.found_eq, hnone, habsent, fields]
  · simp [answer, h.found_eq, hvalue, hread, fields]

/-- A write to a hash changes its fields. -/
theorem Holds.edit_hash (h : s.Holds x) (hx : ∀ y, x = some y → y.type = .kHash)
    {f : Dict Bytes Bytes → Bool × Dict Bytes Bytes}
    {g : (Finmap fun _ : Bytes => Bytes) → Finmap fun _ : Bytes => Bytes}
    (hf : ∀ d, (f d).2.toFinmap = g d.toFinmap) :
    (s.act c false (.edit .kHash (fun _ => ∅) f)).Holds (some (.hash (g (fields x)))) := by
  have hedited : AList.toFinmap (s.edited .kHash ∅) = fields x := by
    obtain ⟨hnone, rfl⟩ | ⟨d, hvalue, rfl⟩ := h.hash hx
    · simp [edited, hnone, fields]
    · simp [edited, hvalue, fields]
  exact h.edit (y := .hash (g (fields x))) hx ⟨_, value_edit, (hf _).trans (congrArg g hedited)⟩

theorem Holds.update_hash (h : s.Holds x) (hx : ∀ y, x = some y → y.type = .kHash)
    {f : Dict Bytes Bytes → Bool × Dict Bytes Bytes}
    {g : (Finmap fun _ : Bytes => Bytes) → Finmap fun _ : Bytes => Bytes}
    (hf : ∀ d, (f d).2.toFinmap = g d.toFinmap) :
    (s.act c false (.update .kHash dim f)).Holds (x.map (mapFields g)) := by
  unfold act
  dsimp only
  rw [h.fetch_eq]
  obtain ⟨hnone, rfl⟩ | ⟨d, hvalue, rfl⟩ := h.hash hx
  · simpa [Slot.change, hnone] using h
  · exact h.change (y := .hash (g d.toFinmap)) rfl ⟨_, value_change hvalue, hf d⟩

/-- Setting a field, as fields without an order. -/
theorem toFinmap_insert (d : Dict Bytes Bytes) (f v : Bytes) :
    (AList.insert f v d).toFinmap = Finmap.insert f v d.toFinmap :=
  (Finmap.insert_toFinmap f v d).symm

/-- A field is there, as fields without an order. -/
theorem isSome_lookup (d : Dict Bytes Bytes) (f : Bytes) :
    (d.lookup f).isSome = decide (f ∈ d.toFinmap) := by
  rw [Bool.eq_iff_iff, decide_eq_true_iff, AList.lookup_isSome]
  rfl

/-! ### sets -/

/-- A read of a set answers from its members. -/
theorem Holds.answer_set {α : Type} {absent : α} {read : Dict Bytes UInt8 → α} (h : s.Holds x)
    (hx : ∀ y, x = some y → y.type = .kSet) {r : Finset Bytes → α} (habsent : r ∅ = absent)
    (hread : ∀ d, read d = r d.keys.toFinset) :
    s.answer c .kSet dim absent read = r (members x) := by
  obtain ⟨hnone, rfl⟩ | ⟨d, hvalue, rfl⟩ := h.set hx
  · simp [answer, h.found_eq, hnone, habsent, members]
  · simp [answer, h.found_eq, hvalue, hread, members]

/-- A write to a set changes its members. -/
theorem Holds.edit_set (h : s.Holds x) (hx : ∀ y, x = some y → y.type = .kSet)
    {f : Dict Bytes UInt8 → Bool × Dict Bytes UInt8} {g : Finset Bytes → Finset Bytes}
    (hf : ∀ d, (f d).2.keys.toFinset = g d.keys.toFinset) :
    (s.act c false (.edit .kSet (fun _ => ∅) f)).Holds (some (.set (g (members x)))) := by
  have hedited : (AList.keys (s.edited .kSet ∅)).toFinset = members x := by
    obtain ⟨hnone, rfl⟩ | ⟨d, hvalue, rfl⟩ := h.set hx
    · simp [edited, hnone, members]
    · simp [edited, hvalue, members]
  exact h.edit (y := .set (g (members x))) hx ⟨_, value_edit, (hf _).trans (congrArg g hedited)⟩

theorem Holds.update_set (h : s.Holds x) (hx : ∀ y, x = some y → y.type = .kSet)
    {f : Dict Bytes UInt8 → Bool × Dict Bytes UInt8} {g : Finset Bytes → Finset Bytes}
    (hf : ∀ d, (f d).2.keys.toFinset = g d.keys.toFinset) :
    (s.act c false (.update .kSet dim f)).Holds (x.map (mapMembers g)) := by
  unfold act
  dsimp only
  rw [h.fetch_eq]
  obtain ⟨hnone, rfl⟩ | ⟨d, hvalue, rfl⟩ := h.set hx
  · simpa [Slot.change, hnone] using h
  · exact h.change (y := .set (g d.keys.toFinset)) rfl ⟨_, value_change hvalue, hf d⟩

/-- A member is there, as members without an order. -/
theorem isSome_lookup_keys (d : Dict Bytes UInt8) (m : Bytes) :
    (d.lookup m).isSome = decide (m ∈ d.keys.toFinset) := by
  rw [Bool.eq_iff_iff, decide_eq_true_iff, AList.lookup_isSome, List.mem_toFinset, ← AList.mem_keys]

/-- Adding a member. -/
theorem toFinset_keys_insert (d : Dict Bytes UInt8) (m : Bytes) (b : UInt8) :
    (AList.insert m b d).keys.toFinset = insert m d.keys.toFinset := by
  ext m'
  rw [List.mem_toFinset, ← AList.mem_keys, AList.mem_insert, Finset.mem_insert, List.mem_toFinset,
    ← AList.mem_keys]

/-- Removing a member. -/
theorem toFinset_keys_erase (d : Dict Bytes UInt8) (m : Bytes) :
    (AList.erase m d).keys.toFinset = d.keys.toFinset.erase m := by
  ext m'
  rw [List.mem_toFinset, ← AList.mem_keys, AList.mem_erase, Finset.mem_erase, List.mem_toFinset,
    ← AList.mem_keys]

/-! ### all of them -/

/-- Every basic operation does what it means. -/
theorem Holds.means {op : Op} {k : Bytes} (h : s.Holds x) (hbasic : op.Basic)
    (hkey : op.key = some k) (hx : ∀ t, op.kind? = some t → ∀ y, x = some y → y.type = t) :
    Means c s x op := by
  cases op with
  | put k v => exact h.means_put k v (hx _ rfl)
  | get k => exact h.means_get k (hx _ rfl)
  | del k => exact h.means_del k
  | existsKey k => exact h.means_existsKey k
  | type k => exact h.means_type k
  | lpush k v =>
      exact ⟨rfl, h.edit_list (g := fun items => v :: items) (hx _ rfl) fun lst hformed =>
        ⟨hformed.pushLeft v, LinkedList.items_pushLeft hformed v⟩⟩
  | rpush k v =>
      exact ⟨rfl, h.edit_list (g := fun items => items ++ [v]) (hx _ rfl) fun lst hformed =>
        ⟨hformed.pushRight v, LinkedList.items_pushRight hformed v⟩⟩
  | lpop k =>
      refine ⟨congrArg Reply.bytesOption ?_, h.update_list (g := List.tail) (hx _ rfl)
        fun lst hformed => ⟨hformed.popLeft, LinkedList.items_popLeft⟩⟩
      exact h.answer_list (r := List.head?) (hx _ rfl) rfl fun lst => LinkedList.popLeft_fst
  | rpop k =>
      refine ⟨congrArg Reply.bytesOption ?_, h.update_list (g := List.dropLast) (hx _ rfl)
        fun lst hformed => ⟨hformed.popRight, LinkedList.items_popRight⟩⟩
      exact h.answer_list (r := List.getLast?) (hx _ rfl) rfl fun lst => LinkedList.popRight_fst
  | llen k =>
      refine ⟨congrArg Reply.int ?_, h.act_read false⟩
      exact h.answer_list (r := fun items => (items.length : Int)) (hx _ rfl) rfl fun lst => rfl
  | hset k f v =>
      exact ⟨rfl, h.edit_hash (g := fun m => m.insert f v) (hx _ rfl) fun d =>
        toFinmap_insert d f v⟩
  | hget k f =>
      refine ⟨congrArg Reply.bytesOption (h.guarded_eq.trans ?_), h.act_read true⟩
      exact h.answer_hash (r := Finmap.lookup f) (hx _ rfl) rfl fun d => rfl
  | hdel k f =>
      refine ⟨congrArg Reply.bool ?_, h.update_hash (g := Finmap.erase f) (hx _ rfl) fun d =>
        Finmap.erase_toFinmap f d⟩
      exact h.answer_hash (r := fun m => decide (f ∈ m)) (hx _ rfl) rfl fun d => isSome_lookup d f
  | hexists k f =>
      refine ⟨congrArg Reply.bool (h.guarded_eq.trans ?_), h.act_read true⟩
      exact h.answer_hash (r := fun m => decide (f ∈ m)) (hx _ rfl) rfl fun d => isSome_lookup d f
  | hlen k =>
      refine ⟨congrArg Reply.int ?_, h.act_read false⟩
      exact h.answer_hash (r := fun m => (m.keys.card : Int)) (hx _ rfl) rfl fun d => rfl
  | sadd k m =>
      exact ⟨rfl, h.edit_set (g := insert m) (hx _ rfl) fun d => toFinset_keys_insert d m 0⟩
  | srem k m =>
      refine ⟨congrArg Reply.bool ?_, h.update_set (g := fun ms => ms.erase m) (hx _ rfl) fun d =>
        toFinset_keys_erase d m⟩
      exact h.answer_set (r := fun ms => decide (m ∈ ms)) (hx _ rfl) rfl
        fun d => isSome_lookup_keys d m
  | sismember k m =>
      refine ⟨congrArg Reply.bool (h.guarded_eq.trans ?_), h.act_read true⟩
      exact h.answer_set (r := fun ms => decide (m ∈ ms)) (hx _ rfl) rfl
        fun d => isSome_lookup_keys d m
  | scard k =>
      refine ⟨congrArg Reply.int ?_, h.act_read false⟩
      refine h.answer_set (r := fun ms => (ms.card : Int)) (hx _ rfl) rfl fun d => ?_
      rw [List.toFinset_card_of_nodup d.keys_nodup]
  | count => contradiction
  | _ => exact hbasic.elim

end Slot

/-! ## the engine -/

namespace Engine

/-- Every slot holds what the reference store has under its key. -/
structure Refines (e : Engine E) (r : Reference) : Prop where
  slot : ∀ k, (e.slot k).Holds (r.lookup k)
  maxMb : e.opts.maxMb = 0
  disk : e.disk = false

variable {e : Engine E} {r : Reference} {i : Call × Op} {ops : List (Call × Op)} {opts : Options}

/-- A new engine refines the empty store. -/
theorem refines_new {stored : Option (Dict Bytes Bytes)} (hpath : opts.path = [])
    (hmax : opts.maxMb = 0) : Refines (new E opts stored) ∅ := by
  refine ⟨fun k => ?_, hmax, by simp [disk, new, hpath]⟩
  have hempty : (new E opts stored).slot k = .empty := by
    ext <;> simp [slot, new, find, rocksGet, hpath, Slot.empty]
  rw [hempty]
  exact holds_empty

/-- Both have as many keys. -/
theorem Refines.count (h : Refines e r) : e.count = r.keys.card := by
  have hkeys : e.metas.keys.toFinset = r.keys := by
    ext k
    rw [List.mem_toFinset, mem_keys_iff, Finmap.mem_keys, ← Finmap.lookup_isSome,
      ← (h.slot k).isSome_metadata, Option.isSome_iff_ne_none]
  rw [← hkeys, List.toFinset_card_of_nodup e.metas.keys_nodup]
  rfl

/-- **Refinement.**  On a key that has a value of its type, or none, an operation answers what the
reference store answers. -/
theorem Refines.step (h : Refines e r) (hbasic : i.2.Basic)
    (htyped : ∀ k t, i.2.key = some k → i.2.kind? = some t →
      ∀ x, r.lookup k = some x → x.type = t) :
    (e.step i).1 = (r.step i).1 ∧ Refines (e.step i).2 (r.step i).2 := by
  obtain ⟨c, op⟩ := i
  have hsteps := step_steps e c op
  have hmeans : ∀ k, op.key = some k → Means c (e.slot k) (r.lookup k) op := fun k hkey =>
    (h.slot k).means hbasic hkey fun t => htyped k t hkey
  have hacted : ∀ k, (e.acted c op k).Holds ((r.step (c, op)).2.lookup k) := by
    intro k
    by_cases hkey : op.key = some k
    · rw [acted_self hkey, h.disk, Reference.lookup_step_self hkey]
      exact (hmeans k hkey).holds
    · rw [acted_of_ne hkey, Reference.lookup_step_of_ne hkey]
      exact h.slot k
  constructor
  · cases hkey : op.key with
    | some k =>
        rw [step_reply hkey, Reference.step_fst hkey]
        exact (hmeans k hkey).reply
    | none =>
        cases op with
        | count => exact congrArg (fun n : Nat => Reply.int n) h.count
        | _ => first | exact hbasic.elim | contradiction
  · refine ⟨fun k => ?_, hsteps.maxMb.trans h.maxMb, hsteps.disk.trans h.disk⟩
    rw [(hsteps.slot k).eq h.maxMb ((hacted k).not_expired c.now)]
    exact hacted k

/-- An engine without a path and a memory limit answers as the reference store does, and the keys of
that are the ones written and not deleted since. -/
theorem run_refines (stored : Option (Dict Bytes Bytes)) (hpath : opts.path = [])
    (hmax : opts.maxMb = 0) (hbasic : ∀ i ∈ ops, i.2.Basic) (hkind : OneKind ops) :
    (run step (new E opts stored) ops).1 = (run Reference.step ∅ ops).1 ∧
      ∀ k, k ∈ final Reference.step ∅ ops ↔ Reference.Present k ops := by
  have halong := along_and.mpr ⟨along_of_forall hbasic ∅, hkind.along⟩
  have hinit : Refines (new E opts stored) ∅ := refines_new hpath hmax
  obtain ⟨houtputs, -⟩ := simulates_along (fun e r i h hi => h.step hi.1 hi.2) hinit halong
  exact ⟨houtputs, fun k => Reference.mem_final ops⟩

theorem run_refines_four :
    (run step (new Env.bare ⟨[], 0, .k2Q⟩ none) [(.ofNow 5, .put [97] [118]),
        (.ofNow 6, .rpush [98] [119]), (.ofNow 7, .del [97]), (.ofNow 8, .count)]).1 =
      [.bool true, .bool true, .bool true, .int 1] := by
  have hbasic : ∀ i ∈ [(Call.ofNow 5, Op.put [97] [118]), (.ofNow 6, .rpush [98] [119]),
      (.ofNow 7, .del [97]), (.ofNow 8, .count)], i.2.Basic := by
    simp [Op.Basic]
  have hkind : ∀ i ∈ [(Call.ofNow 5, Op.put [97] [118]), (.ofNow 6, .rpush [98] [119]),
      (.ofNow 7, .del [97]), (.ofNow 8, .count)],
      i.2.OfKind fun k => if k = [97] then .kBytes else .kList := by
    simp [Op.OfKind, Op.key, Op.kind?]
  have h : (run step (new Env.bare ⟨[], 0, .k2Q⟩ none) _).1 = _ ∧ _ :=
    run_refines none rfl rfl hbasic (oneKind_of_ofKind hkind)
  exact h.1.trans rfl

end Engine

end AstraKV
