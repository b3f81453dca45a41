import AstraKV.Lib.Framed

/-!
# AstraKV.Lib.Cursor

Decoding by a pointer into memory.

A `Reader` is a piece of code that moves a pointer over a string.  It reads
wherever the pointer stands, inside the string or not, and keeps the
addresses it has read; only `check` looks at the end of the string.  `Agrees`
compares it with a decoder of byte lists and says that it read inside.

Readers compose like the code they stand for (`bind`), loops included, and
`Agrees` composes with them; so a decoder is shown to stay inside by going
through its text once, check by check. Where a check is wrong a reader does
not agree with anything, and then the addresses it has kept say where it went.
-/

universe u v

open LittleEndian Framed

structure Cursor where
  ptr : Nat
  touched : List Nat

def Reader (α : Type u) : Type u := Cursor → Option α × Cursor

namespace Reader

variable {α : Type u} {β : Type u} {σ : Type v}

instance : Monad Reader where
  pure a := fun c => (some a, c)
  bind r f := fun c =>
    match r c with
    | (none, c) => (none, c)
    | (some a, c) => f a c

section Memory

variable (data : Bytes) (beyond : Nat → UInt8)

/-- The memory from the start of the string on; `beyond` is what lies behind it. -/
def byteAt (i : Nat) : UInt8 := data[i]?.getD (beyond (i - data.length))

/-- `if (ptr + n > end) return false`. -/
def check (n : Nat) : Reader PUnit := fun c =>
  if c.ptr + n > data.length then (none, c) else (some ⟨⟩, c)

/-- Copy `n` bytes and move on behind them. -/
def fetch (n : Nat) : Reader Bytes := fun c =>
  (some ((List.range' c.ptr n).map (byteAt data beyond)),
    ⟨c.ptr + n, c.touched ++ List.range' c.ptr n⟩)

def fetchNat (n : Nat) : Reader Nat := do
  let bs ← fetch data beyond n
  pure (value bs)

end Memory

/-- `count` turns of a loop that reads an item and takes it in, until one gives up. -/
def loop (item : Reader α) (insert : σ → α → σ) : Nat → σ → Cursor → (Bool × σ) × Cursor
  | 0, s, c => ((true, s), c)
  | count + 1, s, c =>
      match item c with
      | (none, c) => ((false, s), c)
      | (some a, c) => loop item insert count (insert s a) c

/-- Items read into a list. -/
def many (item : Reader α) (count : Nat) : Reader (List α) := fun c =>
  match loop item (fun as a => as ++ [a]) count [] c with
  | ((true, as), c) => (some as, c)
  | ((false, _), c) => (none, c)

/-- A count, then the items. -/
def record (data : Bytes) (beyond : Nat → UInt8) (item : Reader α) (insert : σ → α → σ) (s : σ) :
    (Bool × σ) × Cursor :=
  if data.length < 4 then ((false, s), ⟨0, []⟩)
  else
    match fetchNat data beyond 4 ⟨0, []⟩ with
    | (none, c) => ((false, s), c)
    | (some count, c) => loop item insert count s c

/-! ## agreement with a decoder of lists -/

/-- The pointer is in the string or at its end, and all that was read is in it. -/
structure Inside (data : Bytes) (c : Cursor) : Prop where
  ptr : c.ptr ≤ data.length
  touched : ∀ i ∈ c.touched, i < data.length

/-- The reader has failed where the decoder of lists fails, or has its value, with the pointer where
the rest begins. -/
inductive Outcome (data : Bytes) : Option (α × Bytes) → Option α × Cursor → Prop where
  | fail (c : Cursor) (hc : Inside data c) : Outcome data none (none, c)
  | value (a : α) (c : Cursor) (hc : Inside data c) :
      Outcome data (some (a, data.drop c.ptr)) (some a, c)

/-- Wherever it starts in the string, the reader stays inside and does to the rest of the string
what `item` does. -/
def Agrees (data : Bytes) (r : Reader α) (item : Bytes → Option (α × Bytes)) : Prop :=
  ∀ c, Inside data c → Outcome data (item (data.drop c.ptr)) (r c)

variable {data : Bytes} {beyond : Nat → UInt8} {r : Reader α} {f : α → Reader β}
  {item : Bytes → Option (α × Bytes)} {g : α → Bytes → Option (β × Bytes)} {c : Cursor}

/-- A reader goes on with what it has read, or stops. -/
theorem bind_apply : (r >>= f) c =
    match r c with
    | (none, c) => (none, c)
    | (some a, c) => f a c := rfl

/-- Agreement is with a decoder as a function. -/
theorem Agrees.congr {item' : Bytes → Option (α × Bytes)} (h : Agrees data r item)
    (heq : ∀ rest, item' rest = item rest) : Agrees data r item' := by
  obtain rfl : item' = item := funext heq
  exact h

/-- Reading nothing agrees with reading nothing. -/
theorem agrees_pure (a : α) : Agrees data (pure a) fun rest => some (a, rest) :=
  fun c hc => .value a c hc

/-- Readers that agree agree one after the other. -/
theorem Agrees.bind (h : Agrees data r item) (hf : ∀ a, Agrees data (f a) (g a)) :
    Agrees data (r >>= f) fun rest => item rest >>= fun res => g res.1 res.2 := by
  intro c hc
  have hr := h c hc
  show Outcome data (item (data.drop c.ptr) >>= fun res => g res.1 res.2) _
  rw [bind_apply]
  generalize r c = res at *
  generalize item (data.drop c.ptr) = decoded at *
  cases hr with
  | fail c' hc' => exact .fail c' hc'
  | value a c' hc' => exact hf a c' hc'

/-- A checked advance stays inside. -/
theorem Inside.advance {n : Nat} (hc : Inside data c) (hn : c.ptr + n ≤ data.length) :
    Inside data ⟨c.ptr + n, c.touched ++ List.range' c.ptr n⟩ := by
  refine ⟨hn, fun i hi => ?_⟩
  obtain hi | hi := List.mem_append.mp hi
  · exact hc.touched i hi
  · rw [List.mem_range'_1] at hi
    omega

/-- What is fetched in the string is the front of what is left of it. -/
theorem fetch_apply {n : Nat} (hn : c.ptr + n ≤ data.length) :
    fetch data beyond n c =
      (some ((data.drop c.ptr).take n), ⟨c.ptr + n, c.touched ++ List.range' c.ptr n⟩) := by
  have hbytes : (List.range' c.ptr n).map (byteAt data beyond) = (data.drop c.ptr).take n := by
    refine List.ext_getElem ?_ fun i h₁ h₂ => ?_
    · simp
      omega
    · have hi : c.ptr + i < data.length := by
        simp at h₁
        omega
      simp [byteAt, hi]
  rw [fetch, hbytes]

theorem take?_drop {n : Nat} (hn : c.ptr + n ≤ data.length) :
    take? n (data.drop c.ptr) = some ((data.drop c.ptr).take n, data.drop (c.ptr + n)) := by
  rw [take?, if_pos (by rw [List.length_drop]; omega), List.drop_drop]

theorem take?_drop_eq_none {n : Nat} (hc : Inside data c) (hn : ¬ c.ptr + n ≤ data.length) :
    take? n (data.drop c.ptr) = none := by
  have hptr := hc.ptr
  rw [take?, if_neg (by rw [List.length_drop]; omega)]

/-- A check and a read of as many bytes agree with `take?`. -/
theorem agrees_fetch (n : Nat) :
    Agrees data (check data n >>= fun _ => fetch data beyond n) (take? n) := by
  intro c hc
  by_cases hn : c.ptr + n ≤ data.length
  · rw [take?_drop hn, bind_apply, check, if_neg (by omega)]
    dsimp only
    rw [fetch_apply hn]
    exact .value _ _ (hc.advance hn)
  · rw [take?_drop_eq_none hc hn, bind_apply, check, if_pos (by omega)]
    exact .fail c hc

/-- It does not matter how readers are grouped. -/
theorem bind_assoc {γ : Type u} (r : Reader α) (f : α → Reader β) (g : β → Reader γ) :
    (r >>= f) >>= g = r >>= fun a => f a >>= g := by
  funext c
  simp only [bind_apply]
  rcases r c with ⟨_ | a, c⟩ <;> rfl

/-- A check and a read of a number agree with `get?`. -/
theorem agrees_fetchNat (n : Nat) :
    Agrees data (check data n >>= fun _ => fetchNat data beyond n) (get? n) := by
  have h : Agrees data ((check data n >>= fun _ => fetch data beyond n) >>= fun bs =>
      pure (value bs)) _ := (agrees_fetch n).bind fun bs => agrees_pure (value bs)
  rw [bind_assoc] at h
  have hget : get? n = fun rest => take? n rest >>= fun res => some (value res.1, res.2) :=
    funext fun rest => Option.map_eq_bind
  rw [hget]
  exact h

/-- One check for a string of `n` bytes and the number of `k` bytes behind it. -/
theorem agrees_fetch_fetchNat (n k : Nat) :
    Agrees data (do
        check data (n + k)
        let bs ← fetch data beyond n
        let m ← fetchNat data beyond k
        pure (bs, m))
      fun rest => take? n rest >>= fun res => get? k res.2 >>= fun res' =>
        some ((res.1, res'.1), res'.2) := by
  intro c hc
  dsimp only
  rw [bind_apply, check]
  by_cases hn : c.ptr + (n + k) ≤ data.length
  · have hc' := hc.advance (n := n) (by omega)
    have hk : c.ptr + n + k ≤ data.length := by omega
    have hfetch : fetch data beyond k ⟨c.ptr + n, c.touched ++ List.range' c.ptr n⟩ = _ :=
      fetch_apply hk
    rw [if_neg (by omega), take?_drop (by omega)]
    simp only [bind_apply, fetch_apply (show c.ptr + n ≤ data.length by omega), fetchNat, hfetch,
      get?, Option.bind_eq_bind, Option.bind_some]
    rw [take?_drop (c := ⟨c.ptr + n, c.touched ++ List.range' c.ptr n⟩) hk]
    exact .value _ _ (hc'.advance hk)
  · rw [if_pos (by omega)]
    have hptr := hc.ptr
    have hnone : (take? n (data.drop c.ptr) >>= fun res => get? k res.2 >>= fun res' =>
        some ((res.1, res'.1), res'.2)) = none := by
      by_cases hn' : c.ptr + n ≤ data.length
      · rw [take?_drop hn']
        simp [get?, take?]
        omega
      · rw [take?_drop_eq_none hc hn']
        rfl
    rw [hnone]
    exact .fail c hc

/-! ## reading outside -/

/-- An address that has been read and is not in the string. -/
def Outside (data : Bytes) (c : Cursor) (i : Nat) : Prop := i ∈ c.touched ∧ data.length ≤ i

/-- Reading nothing outside is reading all inside. -/
theorem not_outside_iff : (¬ ∃ i, Outside data c i) ↔ ∀ i ∈ c.touched, i < data.length := by
  simp [Outside]

/-- A checked advance reads nothing outside. -/
theorem outside_advance {n i : Nat} (hn : c.ptr + n ≤ data.length) :
    Outside data ⟨c.ptr + n, c.touched ++ List.range' c.ptr n⟩ i ↔ Outside data c i := by
  unfold Outside
  rw [List.mem_append, List.mem_range'_1]
  constructor
  · rintro ⟨hold | ⟨-, hlt⟩, hout⟩
    · exact ⟨hold, hout⟩
    · omega
  · rintro ⟨hold, hout⟩
    exact ⟨.inl hold, hout⟩

theorem get?_drop {n : Nat} (hn : c.ptr + n ≤ data.length) :
    get? n (data.drop c.ptr) =
      some (value ((data.drop c.ptr).take n), data.drop (c.ptr + n)) := by
  rw [get?, take?_drop hn]
  rfl

/-- Reading a number keeps its addresses. -/
theorem fetchNat_apply {n : Nat} (hn : c.ptr + n ≤ data.length) :
    fetchNat data beyond n c =
      (some (value ((data.drop c.ptr).take n)),
        ⟨c.ptr + n, c.touched ++ List.range' c.ptr n⟩) := by
  rw [fetchNat, bind_apply, fetch_apply hn]
  rfl

/-! ## loops -/

/-- A loop of a reader that agrees agrees. -/
theorem Agrees.loop (h : Agrees data r item) (insert : σ → α → σ) (count : Nat) (s : σ)
    (hc : Inside data c) :
    Inside data (loop r insert count s c).2 ∧
      (loop r insert count s c).1 =
        ((readItems item insert count (data.drop c.ptr) s).1.isSome,
          (readItems item insert count (data.drop c.ptr) s).2) ∧
      ∀ rest ∈ (readItems item insert count (data.drop c.ptr) s).1,
        data.drop (loop r insert count s c).2.ptr = rest := by
  induction count generalizing s c with
  | zero => exact ⟨hc, rfl, fun rest hrest => Option.some.inj hrest⟩
  | succ count ih =>
      have hr := h c hc
      unfold Reader.loop readItems
      generalize r c = res at *
      generalize item (data.drop c.ptr) = decoded at *
      cases hr with
      | fail c' hc' => exact ⟨hc', rfl, by simp⟩
      | value a c' hc' => exact ih (insert s a) hc'

/-- So many items read in a row agree, too. -/
theorem Agrees.many (h : Agrees data r item) (count : Nat) :
    Agrees data (many r count) fun rest =>
      match readItems item (fun as a => as ++ [a]) count rest [] with
      | (none, _) => none
      | (some rest, as) => some (as, rest) := by
  intro c hc
  obtain ⟨hinside, hvalue, hrest⟩ := h.loop (fun as a => as ++ [a]) count [] hc
  unfold Reader.many
  dsimp only
  generalize Reader.loop r (fun as a => as ++ [a]) count [] c = res at *
  generalize readItems item (fun as a => as ++ [a]) count (data.drop c.ptr) [] = read at *
  obtain ⟨res, c'⟩ := res
  obtain ⟨rest, as⟩ := read
  cases rest with
  | none =>
      obtain rfl : res = (false, as) := hvalue
      exact .fail c' hinside
  | some rest =>
      obtain rfl : res = (true, as) := hvalue
      obtain rfl := hrest rest rfl
      exact .value as c' hinside

/-- Decoding a record reads the string only, and comes to what the decoder of lists does. -/
theorem Agrees.record (h : Agrees data r item) (beyond : Nat → UInt8) (insert : σ → α → σ)
    (s : σ) :
    (record data beyond r insert s).1 = readRecord item insert data s ∧
      ∀ i ∈ (record data beyond r insert s).2.touched, i < data.length := by
  have hstart : Inside data ⟨0, []⟩ := ⟨Nat.zero_le _, by simp⟩
  unfold Reader.record readRecord
  by_cases hlen : data.length < 4
  · have hnone : get? 4 data = none := by simp [get?, take?, hlen]
    simp [hlen, hnone]
  · have hcount : Outcome data (get? 4 data)
        ((check data 4 >>= fun _ => fetchNat data beyond 4) ⟨0, []⟩) :=
      agrees_fetchNat 4 ⟨0, []⟩ hstart
    rw [bind_apply, check, if_neg (by simpa using hlen)] at hcount
    rw [if_neg hlen]
    dsimp only at hcount ⊢
    generalize fetchNat data beyond 4 ⟨0, []⟩ = res at *
    generalize get? 4 data = decoded at *
    cases hcount with
    | fail c hc => exact ⟨rfl, hc.touched⟩
    | value count c hc =>
        obtain ⟨hinside, hvalue, -⟩ := h.loop insert count s hc
        exact ⟨hvalue, hinside.touched⟩

end Reader
