import AstraKV.Lib.LittleEndian

/-!
# AstraKV.Lib.Framed

Byte strings behind a 32-bit length, and records of counted items read one
after another into an accumulator.

A length is written modulo 2^32, so a string comes back clipped in general and
as it was below that bound. `Lawful` describes an item by what it writes and
what it reads: an item that fits is read back, and nothing else is read at
all. From that follow the laws of whole records, whatever the accumulator.
-/

universe u v w

namespace Framed

open LittleEndian

/-- The length as 32 bits, then as many bytes as that says. -/
def putBytes (bs : Bytes) : Bytes := put 4 bs.length ++ bs.take (bs.length % 2 ^ 32)

def getBytes? (data : Bytes) : Option (Bytes × Bytes) := do
  let (len, rest) ← get? 4 data
  take? len rest

/-- `out` with zeros behind it, up to `total` bytes. -/
def resize (total : Nat) (out : Bytes) : Bytes := out ++ List.replicate (total - out.length) 0

variable {α : Type u} {σ : Type v} {τ : Type w}

/-- Read `n` items and take them in one by one.  What is left of the data, if all of them were
there; an item that is not all there ends the loop. -/
def readItems (item : Bytes → Option (α × Bytes)) (insert : σ → α → σ) :
    Nat → Bytes → σ → Option Bytes × σ
  | 0, data, s => (some data, s)
  | n + 1, data, s =>
      match item data with
      | none => (none, s)
      | some (a, rest) => readItems item insert n rest (insert s a)

/-- A 32-bit count, then the items. -/
def readRecord (item : Bytes → Option (α × Bytes)) (insert : σ → α → σ) (data : Bytes) (s : σ) :
    Bool × σ :=
  match get? 4 data with
  | none => (false, s)
  | some (count, rest) =>
      let res := readItems item insert count rest s
      (res.1.isSome, res.2)

/-- Read items until nothing is left, `n` at most. -/
def readAll (item : Bytes → Option (α × Bytes)) : Nat → Bytes → Option (List α)
  | _, [] => some []
  | 0, _ :: _ => none
  | n + 1, b :: data => do
      let (a, rest) ← item (b :: data)
      let as ← readAll item n rest
      some (a :: as)

/-! ## round trips -/

/-- What a 32-bit length leaves of a byte string. -/
def clip (bs : Bytes) : Bytes := bs.take (bs.length % 2 ^ 32)

/-- A clipped string has its length modulo 2^32. -/
theorem length_clip (bs : Bytes) : (clip bs).length = bs.length % 2 ^ 32 := by
  rw [clip, List.length_take, Nat.min_eq_left (Nat.mod_le _ _)]

/-- A string that fits is not clipped. -/
theorem clip_of_lt {bs : Bytes} (h : bs.length < 2 ^ 32) : clip bs = bs := by
  rw [clip, Nat.mod_eq_of_lt h, List.take_length]

theorem clip_eq_self {bs : Bytes} : clip bs = bs ↔ bs.length < 2 ^ 32 := by
  refine ⟨fun h => ?_, clip_of_lt⟩
  rw [← h, length_clip]
  exact Nat.mod_lt _ (by decide)

/-- A string that fits stands behind its own length. -/
theorem putBytes_of_lt {bs : Bytes} (h : bs.length < 2 ^ 32) :
    putBytes bs = put 4 bs.length ++ bs := by
  rw [putBytes, Nat.mod_eq_of_lt h, List.take_length]

/-- A string is read back clipped. -/
theorem getBytes?_putBytes (bs rest : Bytes) :
    getBytes? (putBytes bs ++ rest) = some (clip bs, rest) := by
  rw [getBytes?, putBytes, List.append_assoc, get?_put]
  exact take?_append (length_clip bs)

variable {β : Type*} {item : Bytes → Option (β × Bytes)} {write : α → Bytes} {g : α → β}

/-- Items written one after another are read back one after another, as many as are asked for. -/
theorem readItems_flatMap (insert : σ → β → σ)
    (h : ∀ a rest, item (write a ++ rest) = some (g a, rest)) {as : List α} {n : Nat}
    (hn : n ≤ as.length) (rest : Bytes) (s : σ) :
    readItems item insert n (as.flatMap write ++ rest) s =
      (some ((as.drop n).flatMap write ++ rest), ((as.take n).map g).foldl insert s) := by
  induction n generalizing as s with
  | zero => rfl
  | succ n ih =>
      cases as with
      | nil => simp at hn
      | cons a as =>
          rw [readItems, List.flatMap_cons, List.append_assoc, h]
          exact ih (Nat.le_of_succ_le_succ hn) (insert s (g a))

/-- The count is cut to 32 bits. -/
theorem readRecord_flatMap {insert : σ → β → σ}
    (h : ∀ a rest, item (write a ++ rest) = some (g a, rest)) (as : List α) (rest : Bytes) (s : σ) :
    readRecord item insert (put 4 as.length ++ as.flatMap write ++ rest) s =
      (true, ((as.take (as.length % 2 ^ 32)).map g).foldl insert s) := by
  rw [readRecord, List.append_assoc, get?_put]
  dsimp only
  rw [readItems_flatMap insert h (Nat.mod_le _ _)]
  rfl

/-- Items that are all read back as they are. -/
theorem readAll_flatMap {item : Bytes → Option (α × Bytes)} {as : List α} {n : Nat}
    (hn : as.length ≤ n) (hwrite : ∀ a, write a ≠ [])
    (h : ∀ a ∈ as, ∀ rest, item (write a ++ rest) = some (a, rest)) :
    readAll item n (as.flatMap write) = some as := by
  induction as generalizing n with
  | nil => cases n <;> rfl
  | cons a as ih =>
      cases n with
      | zero => simp at hn
      | succ n =>
          obtain ⟨b, bs, hbs⟩ := List.exists_cons_of_ne_nil (hwrite a)
          have hitem := h a List.mem_cons_self (as.flatMap write)
          have hrest := ih (Nat.le_of_succ_le_succ hn)
            fun a' ha' => h a' (List.mem_cons_of_mem a ha')
          rw [List.flatMap_cons, hbs, List.cons_append]
          rw [hbs, List.cons_append] at hitem
          simp [readAll, hitem, hrest]

/-! ## records and nothing else -/

/-- `item` reads what `write` makes of the values that fit, and nothing else. -/
structure Lawful (item : Bytes → Option (α × Bytes)) (write : α → Bytes) (Fits : α → Prop) :
    Prop where
  complete : ∀ a rest, Fits a → item (write a ++ rest) = some (a, rest)
  sound : ∀ data a rest, item data = some (a, rest) → Fits a ∧ data = write a ++ rest

/-- A 32-bit count and as many items. -/
def IsRecord (write : α → Bytes) (Fits : α → Prop) (as : List α) (record : Bytes) : Prop :=
  as.length < 2 ^ 32 ∧ (∀ a ∈ as, Fits a) ∧ record = put 4 as.length ++ as.flatMap write

section Records

variable {item : Bytes → Option (α × Bytes)} {write : α → Bytes} {Fits : α → Prop}
  {insert : σ → α → σ}

/-- Strings that fit are lawful items. -/
theorem lawful_getBytes? : Lawful getBytes? putBytes fun bs => bs.length < 2 ^ 32 where
  complete bs rest h := by rw [getBytes?_putBytes, clip_of_lt h]
  sound data bs rest h := by
    obtain ⟨⟨len, data⟩, hlen, htake⟩ := Option.bind_eq_some_iff.mp h
    obtain ⟨hlt, rfl⟩ := get?_eq_some.mp hlen
    obtain ⟨rfl, rfl⟩ := take?_eq_some.mp htake
    exact ⟨hlt, by rw [putBytes_of_lt hlt, List.append_assoc]⟩

/-- Items that are all read back as they are, one after another. -/
theorem readItems_of_complete {as : List α}
    (h : ∀ a ∈ as, ∀ rest, item (write a ++ rest) = some (a, rest)) (rest : Bytes) (s : σ) :
    readItems item insert as.length (as.flatMap write ++ rest) s =
      (some rest, as.foldl insert s) := by
  induction as generalizing s with
  | nil => rfl
  | cons a as ih =>
      obtain ⟨ha, has⟩ := List.forall_mem_cons.mp h
      rw [List.length_cons, readItems, List.flatMap_cons, List.append_assoc, ha]
      exact ih has (insert s a)

/-- A record of items that are read back is read back. -/
theorem readRecord_of_complete {as : List α} (hlen : as.length < 2 ^ 32)
    (h : ∀ a ∈ as, ∀ rest, item (write a ++ rest) = some (a, rest)) (rest : Bytes) (s : σ) :
    readRecord item insert (put 4 as.length ++ as.flatMap write ++ rest) s =
      (true, as.foldl insert s) := by
  rw [readRecord, List.append_assoc, get?_put]
  dsimp only
  rw [Nat.mod_eq_of_lt (by exact hlen), readItems_of_complete h]
  rfl

/-- What is read as items are items written. -/
theorem Lawful.of_readItems (h : Lawful item write Fits) {n : Nat} {data rest : Bytes} {s : σ}
    (hread : (readItems item insert n data s).1 = some rest) :
    ∃ as : List α, as.length = n ∧ (∀ a ∈ as, Fits a) ∧ data = as.flatMap write ++ rest := by
  induction n generalizing data s with
  | zero => exact ⟨[], rfl, by simp, by simpa [readItems] using hread⟩
  | succ n ih =>
      unfold readItems at hread
      cases hitem : item data with
      | none => simp [hitem] at hread
      | some res =>
          rw [hitem] at hread
          obtain ⟨ha, hdata⟩ := h.sound data res.1 res.2 hitem
          obtain ⟨as, rfl, hfits, hrest⟩ := ih hread
          refine ⟨res.1 :: as, rfl, List.forall_mem_cons.mpr ⟨ha, hfits⟩, ?_⟩
          rw [hdata, hrest, List.flatMap_cons, List.append_assoc]

/-- A record at the front of the data is read, and its items go into the container in order. -/
theorem Lawful.readRecord_append (h : Lawful item write Fits) {as : List α} {record : Bytes}
    (hrecord : IsRecord write Fits as record) (rest : Bytes) (s : σ) :
    readRecord item insert (record ++ rest) s = (true, as.foldl insert s) := by
  obtain ⟨hlen, hfits, rfl⟩ := hrecord
  exact readRecord_of_complete hlen (fun a ha rest => h.complete a rest (hfits a ha)) rest s

/-- Data is accepted if and only if there is a record at its front. -/
theorem Lawful.readRecord_iff (h : Lawful item write Fits) {data : Bytes} {s : σ} :
    (readRecord item insert data s).1 = true ↔
      ∃ as record, record <+: data ∧ IsRecord write Fits as record := by
  constructor
  · intro hread
    unfold readRecord at hread
    cases hcount : get? 4 data with
    | none => simp [hcount] at hread
    | some res =>
        simp only [hcount] at hread
        obtain ⟨hlt, hdata⟩ := get?_eq_some.mp hcount
        obtain ⟨rest, hrest⟩ := Option.isSome_iff_exists.mp hread
        obtain ⟨as, hlen, hfits, hitems⟩ := h.of_readItems hrest
        refine ⟨as, put 4 as.length ++ as.flatMap write, ⟨rest, ?_⟩, ?_, hfits, rfl⟩
        · rw [hdata, hitems, hlen, List.append_assoc]
        · rwa [hlen]
  · rintro ⟨as, record, ⟨rest, rfl⟩, hrecord⟩
    rw [h.readRecord_append hrecord]

end Records

end Framed
