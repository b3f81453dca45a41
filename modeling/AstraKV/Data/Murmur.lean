import AstraKV.Data.Simd
import AstraKV.Lib.LittleEndian
import AstraKV.Lib.Mixing

/-!
# AstraKV.Data.Murmur

`MurmurHash64` of `hll.hpp` on a little-endian machine, and keys that neither
it nor `HashString` ever confuses.

Every step on the hash is a bijection: multiplying by an odd number, xoring
with a shift of itself, xoring with a word. So two runs that start apart stay
apart, and two that are given different words at one place part there; keys
that differ inside one eight-byte window, or in the tail alone, cannot
collide. `HashString` is a chain of such steps a byte long each. Beyond that
nothing is claimed: keys that differ in several windows may collide.
-/

namespace AstraKV

open LittleEndian Mixing Simd

/-- `m`. -/
def murmurM : UInt64 := 0xc6a4a7935bd1e995

/-- `k *= m; k ^= k >> r; k *= m`. -/
def murmurMix (k : UInt64) : UInt64 :=
  let k := k * murmurM
  let k := k ^^^ (k >>> 47)
  k * murmurM

/-- One turn of the loop over the blocks. -/
def murmurBlock (h k : UInt64) : UInt64 := (h ^^^ murmurMix k) * murmurM

/-- The first `blocks` blocks of eight bytes. -/
def blocksOf : Nat → Bytes → List UInt64
  | 0, _ => []
  | blocks + 1, data => UInt64.ofNat (value (data.take 8)) :: blocksOf blocks (data.drop 8)

/-- The cases of the switch, each falling through to the next, from the last byte to the first. -/
def tailWord (i : Nat) (tail : Bytes) : UInt64 :=
  (tail.zipIdx i).foldr (fun b k => k ^^^ (b.1.toUInt64 <<< UInt64.ofNat (8 * b.2))) 0

def murmurTail (h : UInt64) (tail : Bytes) : UInt64 :=
  if tail = [] then h else h ^^^ murmurMix (tailWord 0 tail)

/-- The last three lines. -/
def murmurFinish (h : UInt64) : UInt64 :=
  let h := h ^^^ (h >>> 47)
  let h := h * murmurM
  h ^^^ (h >>> 47)

def murmurHash64 (key : Bytes) (seed : UInt64) : UInt64 :=
  let h := seed ^^^ (UInt64.ofNat key.length * murmurM)
  let blocks := key.length / 8
  let h := (blocksOf blocks key).foldl murmurBlock h
  murmurFinish (murmurTail h (key.drop (blocks * 8)))

/-! ## nothing is lost -/

/-- Multiplying by the odd constant loses nothing. -/
theorem mul_murmurM_injective : Function.Injective fun h : UInt64 => h * murmurM :=
  mul_injective (n := 6879827495036328381) (by decide)

theorem shift_47_injective : Function.Injective fun h : UInt64 => h ^^^ (h >>> 47) :=
  xorShift_injective (by decide) (by decide)

theorem murmurMix_injective : Function.Injective murmurMix :=
  mul_murmurM_injective.comp (shift_47_injective.comp mul_murmurM_injective)

theorem murmurFinish_injective : Function.Injective murmurFinish :=
  shift_47_injective.comp (mul_murmurM_injective.comp shift_47_injective)

/-- A block mixes: it loses neither the hash nor the word. -/
theorem mixes_murmurBlock : Mixes murmurBlock where
  state k := mul_murmurM_injective.comp (xor_injective (murmurMix k))
  piece h := mul_murmurM_injective.comp ((xor_injective' h).comp murmurMix_injective)

/-! ## the tail -/

/-- The word of a tail, byte by byte. -/
theorem tailWord_cons (i : Nat) (b : UInt8) (tail : Bytes) :
    tailWord i (b :: tail) =
      tailWord (i + 1) tail ^^^ (b.toUInt64 <<< UInt64.ofNat (8 * i)) := rfl

/-- A byte shifted to its place in the word. -/
theorem toNat_shiftLeft_byte {i : Nat} (hi : i < 8) (b : UInt8) :
    (b.toUInt64 <<< UInt64.ofNat (8 * i)).toNat = b.toNat * 2 ^ (8 * i) := by
  have hb := b.toNat_lt
  have hshift : 8 * i % 2 ^ 64 % 64 = 8 * i := by omega
  have hlt : b.toNat * 2 ^ (8 * i) < 2 ^ 64 :=
    calc b.toNat * 2 ^ (8 * i) < 2 ^ 8 * 2 ^ (8 * i) := by gcongr
      _ = 2 ^ (8 + 8 * i) := (Nat.pow_add 2 8 (8 * i)).symm
      _ ≤ 2 ^ 64 := Nat.pow_le_pow_right (by decide) (by omega)
  rw [UInt64.toNat_shiftLeft, UInt64.toNat_ofNat', hshift, Nat.shiftLeft_eq, UInt8.toNat_toUInt64,
    Nat.mod_eq_of_lt hlt]

/-- The bytes stand above the first `8 * i` bits. -/
theorem tailWord_mod {i : Nat} {tail : Bytes} (hlen : i + tail.length ≤ 8) :
    (tailWord i tail).toNat % 2 ^ (8 * i) = 0 := by
  induction tail generalizing i with
  | nil => rfl
  | cons b tail ih =>
      rw [List.length_cons] at hlen
      have hrest := Nat.mod_mod_of_dvd (tailWord (i + 1) tail).toNat
        (Nat.pow_dvd_pow 2 (show 8 * i ≤ 8 * (i + 1) by omega))
      rw [ih (by omega), Nat.zero_mod] at hrest
      rw [tailWord_cons, UInt64.toNat_xor, Nat.xor_mod_two_pow, ← hrest,
        toNat_shiftLeft_byte (by omega), Nat.mul_mod_left, Nat.xor_self]

/-- Tails of one length have different words. -/
theorem tailWord_inj {i : Nat} {tail tail' : Bytes} (hlen : i + tail.length ≤ 8)
    (hsame : tail'.length = tail.length) (h : tailWord i tail = tailWord i tail') :
    tail = tail' := by
  induction tail generalizing i tail' with
  | nil => exact (List.length_eq_zero_iff.mp hsame).symm
  | cons b tail ih =>
      obtain ⟨b', tail', rfl⟩ := List.exists_cons_of_length_eq_add_one hsame
      rw [List.length_cons] at hlen
      rw [List.length_cons, List.length_cons, Nat.succ_inj] at hsame
      rw [tailWord_cons, tailWord_cons] at h
      have hlow := congrArg (fun w : UInt64 => w.toNat % 2 ^ (8 * (i + 1))) h
      have hrest := tailWord_mod (show i + 1 + tail.length ≤ 8 by omega)
      have hrest' := tailWord_mod (show i + 1 + tail'.length ≤ 8 by omega)
      simp only [UInt64.toNat_xor, Nat.xor_mod_two_pow, hrest, hrest', Nat.zero_xor,
        toNat_shiftLeft_byte (show i < 8 by omega)] at hlow
      have hbyte : ∀ c : UInt8, c.toNat * 2 ^ (8 * i) < 2 ^ (8 * (i + 1)) := fun c => by
        rw [Nat.mul_succ, Nat.pow_add, Nat.mul_comm]
        exact Nat.mul_lt_mul_of_pos_left c.toNat_lt (Nat.two_pow_pos _)
      rw [Nat.mod_eq_of_lt (hbyte b), Nat.mod_eq_of_lt (hbyte b')] at hlow
      have hmul := Nat.eq_of_mul_eq_mul_right (Nat.two_pow_pos _) hlow
      obtain rfl : b = b' := UInt8.toNat_inj.mp hmul
      rw [ih (by omega) hsame ((UInt64.xor_left_inj _).mp h)]

/-- The tail loses nothing of the hash. -/
theorem murmurTail_injective (tail : Bytes) : Function.Injective fun h => murmurTail h tail := by
  unfold murmurTail
  split
  · exact Function.injective_id
  · exact xor_injective _

/-- Different tails of one length part the hashes. -/
theorem murmurTail_ne {h : UInt64} {tail tail' : Bytes} (hlen : tail.length ≤ 8)
    (hsame : tail'.length = tail.length) (hne : tail ≠ tail') :
    murmurTail h tail ≠ murmurTail h tail' := by
  have hnil : tail ≠ [] ∧ tail' ≠ [] := by
    constructor
    · rintro rfl
      exact hne (List.length_eq_zero_iff.mp hsame).symm
    · rintro rfl
      exact hne (List.length_eq_zero_iff.mp hsame.symm)
  unfold murmurTail
  rw [if_neg hnil.1, if_neg hnil.2]
  intro heq
  exact hne (tailWord_inj (by omega) hsame (murmurMix_injective (xor_injective' h heq)))

/-! ## blocks -/

/-- Different windows are different words. -/
theorem word_inj {w w' : Bytes} (hlen : w.length = 8) (hlen' : w'.length = 8)
    (h : UInt64.ofNat (value w) = UInt64.ofNat (value w')) : w = w' := by
  have hlt : ∀ w : Bytes, w.length = 8 → value w < 2 ^ 64 := fun w hw => by
    have hw' := value_lt w
    rw [hw] at hw'
    exact hw'.trans_eq (by decide)
  have hvalue : value w = value w' := by
    have heq := congrArg UInt64.toNat h
    rwa [UInt64.toNat_ofNat', UInt64.toNat_ofNat', Nat.mod_eq_of_lt (hlt w hlen),
      Nat.mod_eq_of_lt (hlt w' hlen')] at heq
  rw [← put_value w, ← put_value w', hlen, hlen', hvalue]

/-- The blocks of two parts are those of the first and those of the second. -/
theorem blocksOf_append {n m : Nat} {xs : Bytes} (hlen : xs.length = 8 * n) (ys : Bytes) :
    blocksOf (n + m) (xs ++ ys) = blocksOf n xs ++ blocksOf m ys := by
  induction n generalizing xs with
  | zero =>
      obtain rfl := List.length_eq_zero_iff.mp hlen
      rw [Nat.zero_add]
      rfl
  | succ n ih =>
      have hroom : 8 ≤ xs.length := by omega
      rw [Nat.succ_add, blocksOf, blocksOf, List.take_append_of_le_length hroom,
        List.drop_append_of_le_length hroom, ih (by rw [List.length_drop]; omega)]
      rfl

/-- A window in front is the first block. -/
theorem blocksOf_succ {m : Nat} {w : Bytes} (hlen : w.length = 8) (ys : Bytes) :
    blocksOf (m + 1) (w ++ ys) = UInt64.ofNat (value w) :: blocksOf m ys := by
  rw [blocksOf, List.take_left' hlen, List.drop_left' hlen]

/-- A key taken apart at one of its blocks. -/
theorem murmurHash64_block {n : Nat} {xs w : Bytes} (hxs : xs.length = 8 * n)
    (hw : w.length = 8) (ys : Bytes) (seed : UInt64) :
    murmurHash64 (xs ++ (w ++ ys)) seed =
      murmurFinish (murmurTail
        ((blocksOf n xs ++ UInt64.ofNat (value w) :: blocksOf (ys.length / 8) ys).foldl murmurBlock
          (seed ^^^ (UInt64.ofNat (8 * n + (8 + ys.length)) * murmurM)))
        (ys.drop (ys.length / 8 * 8))) := by
  have hlen : (xs ++ (w ++ ys)).length = 8 * n + (8 + ys.length) := by
    rw [List.length_append, List.length_append, hxs, hw]
  have hblocks : (8 * n + (8 + ys.length)) / 8 = n + (ys.length / 8 + 1) := by omega
  have hdrop : (xs ++ (w ++ ys)).drop ((n + (ys.length / 8 + 1)) * 8) =
      ys.drop (ys.length / 8 * 8) := by
    have hfront : (xs ++ w).length = 8 * n + 8 := by rw [List.length_append, hxs, hw]
    have hoff : (n + (ys.length / 8 + 1)) * 8 = (xs ++ w).length + ys.length / 8 * 8 := by omega
    rw [hoff, ← List.append_assoc, List.drop_length_add_append]
  unfold murmurHash64
  dsimp only
  rw [hlen, hblocks, blocksOf_append hxs, blocksOf_succ hw, hdrop]

/-- A key taken apart before its tail. -/
theorem murmurHash64_tail {n : Nat} {xs tail : Bytes} (hxs : xs.length = 8 * n)
    (htail : tail.length < 8) (seed : UInt64) :
    murmurHash64 (xs ++ tail) seed =
      murmurFinish (murmurTail ((blocksOf n xs).foldl murmurBlock
        (seed ^^^ (UInt64.ofNat (8 * n + tail.length) * murmurM))) tail) := by
  have hlen : (xs ++ tail).length = 8 * n + tail.length := by
    rw [List.length_append, hxs]
  have hblocks : (8 * n + tail.length) / 8 = n := by omega
  have happend := blocksOf_append (m := 0) hxs tail
  rw [Nat.add_zero, blocksOf, List.append_nil] at happend
  unfold murmurHash64
  dsimp only
  rw [hlen, hblocks, happend, List.drop_left' (by omega)]

/-! ## keys and seeds are told apart -/

/-- Keys that differ in one window have different hashes. -/
theorem murmurHash64_block_ne {n : Nat} {xs w w' : Bytes} (hxs : xs.length = 8 * n)
    (hw : w.length = 8) (hw' : w'.length = 8) (hne : w ≠ w') (ys : Bytes) (seed : UInt64) :
    murmurHash64 (xs ++ (w ++ ys)) seed ≠ murmurHash64 (xs ++ (w' ++ ys)) seed := by
  rw [murmurHash64_block hxs hw, murmurHash64_block hxs hw']
  intro heq
  exact mixes_murmurBlock.foldl_ne (fun hword => hne (word_inj hw hw' hword))
    (murmurTail_injective _ (murmurFinish_injective heq))

/-- So have keys that differ in the tail. -/
theorem murmurHash64_tail_ne {n : Nat} {xs tail tail' : Bytes} (hxs : xs.length = 8 * n)
    (hlen : tail.length < 8) (hsame : tail'.length = tail.length) (hne : tail ≠ tail')
    (seed : UInt64) : murmurHash64 (xs ++ tail) seed ≠ murmurHash64 (xs ++ tail') seed := by
  rw [murmurHash64_tail hxs hlen, murmurHash64_tail hxs (hsame ▸ hlen), hsame]
  intro heq
  exact murmurTail_ne hlen.le hsame hne (murmurFinish_injective heq)

/-- So has one key with different seeds. -/
theorem murmurHash64_seed_injective (key : Bytes) : Function.Injective (murmurHash64 key) :=
  murmurFinish_injective.comp ((murmurTail_injective _).comp
    ((mixes_murmurBlock.foldl_injective _).comp (xor_injective _)))

/-- Widening a `char` loses nothing, signed or not. -/
theorem widen_injective (signed : Bool) : Function.Injective (widen signed) := by
  have hback : ∀ c : UInt8, (widen signed c).toUInt8 = c := by
    cases signed <;> decide +kernel
  exact Function.LeftInverse.injective hback

/-- Keys that differ in one byte have different hashes. -/
theorem hashString_ne {c d : UInt8} (hne : c ≠ d) (signed : Bool) (xs ys : Bytes) :
    hashString signed (xs ++ c :: ys) ≠ hashString signed (xs ++ d :: ys) := by
  have hmixes : Mixes fun (hash : UInt64) c => (hash ^^^ widen signed c) * 1099511628211 := by
    have hmul := mul_injective (m := 1099511628211) (n := 14886173955864302971) (by decide)
    exact ⟨fun c => hmul.comp (xor_injective _),
      fun hash => hmul.comp ((xor_injective' hash).comp (widen_injective signed))⟩
  exact hmixes.foldl_ne hne

section Window

variable {key key' : Bytes} {lo n i : Nat}

/-- Keys that agree before an index have the same front. -/
theorem take_eq_of_agree (h : ∀ j < lo, key[j]? = key'[j]?) : key.take lo = key'.take lo := by
  refine List.ext_getElem? fun j => ?_
  rw [List.getElem?_take, List.getElem?_take]
  split
  · exact h j ‹_›
  · rfl

/-- Keys that agree from an index on have the same end. -/
theorem drop_eq_of_agree (h : ∀ j, lo ≤ j → key[j]? = key'[j]?) : key.drop lo = key'.drop lo := by
  refine List.ext_getElem? fun j => ?_
  rw [List.getElem?_drop, List.getElem?_drop]
  exact h (lo + j) (Nat.le_add_right lo j)

/-- Before a window, the window, and what stands after it. -/
theorem eq_window (key : Bytes) (lo n : Nat) :
    key = key.take lo ++ ((key.drop lo).take n ++ key.drop (lo + n)) := by
  rw [← List.drop_drop, List.take_append_drop, List.take_append_drop]

/-- Keys of one length that differ within one window are told apart. -/
theorem murmurHash64_window (hsame : key.length = key'.length)
    (hagree : ∀ j, j / 8 ≠ i → key[j]? = key'[j]?) (hne : key ≠ key') (seed : UInt64) :
    murmurHash64 key seed ≠ murmurHash64 key' seed := by
  have htake : key.take (8 * i) = key'.take (8 * i) :=
    take_eq_of_agree fun j hj => hagree j (by omega)
  have hdrop : key.drop (8 * i + 8) = key'.drop (8 * i + 8) :=
    drop_eq_of_agree fun j hj => hagree j (by omega)
  have hkey := eq_window key (8 * i) 8
  have hkey' := eq_window key' (8 * i) 8
  rw [← htake, ← hdrop] at hkey'
  have hw : (key.drop (8 * i)).take 8 ≠ (key'.drop (8 * i)).take 8 := by
    intro hw
    rw [hw, ← hkey'] at hkey
    exact hne hkey
  have hlo : 8 * i < key.length := by
    by_contra hlo
    rw [List.drop_eq_nil_of_le (by omega), List.drop_eq_nil_of_le (by omega)] at hw
    exact hw rfl
  have hxs : (key.take (8 * i)).length = 8 * i := by
    rw [List.length_take]
    omega
  have hlen : ((key.drop (8 * i)).take 8).length = min 8 (key.length - 8 * i) := by
    rw [List.length_take, List.length_drop]
  have hlen' : ((key'.drop (8 * i)).take 8).length = min 8 (key.length - 8 * i) := by
    rw [List.length_take, List.length_drop, hsame]
  rw [hkey, hkey']
  by_cases hblock : 8 * i + 8 ≤ key.length
  -- the window is a block
  · exact murmurHash64_block_ne hxs (by omega) (by omega) hw _ seed
  -- the window is the tail
  · rw [List.drop_eq_nil_of_le (show key.length ≤ 8 * i + 8 by omega), List.append_nil,
      List.append_nil]
    exact murmurHash64_tail_ne hxs (by omega) (by omega) hw seed

/-- Keys of one length that differ in one byte are told apart. -/
theorem hashString_window (hsame : key.length = key'.length)
    (hagree : ∀ j, j ≠ i → key[j]? = key'[j]?) (hne : key ≠ key') (signed : Bool) :
    hashString signed key ≠ hashString signed key' := by
  have htake : key.take i = key'.take i := take_eq_of_agree fun j hj => hagree j (by omega)
  have hdrop : key.drop (i + 1) = key'.drop (i + 1) :=
    drop_eq_of_agree fun j hj => hagree j (by omega)
  have hlo : i < key.length := by
    by_contra hlo
    rw [List.take_of_length_le (by omega), List.take_of_length_le (by omega)] at htake
    exact hne htake
  have hlo' : i < key'.length := hsame ▸ hlo
  have hkey : key = key.take i ++ key[i] :: key.drop (i + 1) := by
    rw [List.getElem_cons_drop, List.take_append_drop]
  have hkey' : key' = key.take i ++ key'[i] :: key.drop (i + 1) := by
    rw [htake, hdrop, List.getElem_cons_drop, List.take_append_drop]
  have hbyte : key[i] ≠ key'[i] := by
    intro hbyte
    rw [← hbyte, ← hkey] at hkey'
    exact hne hkey'.symm
  rw [hkey, hkey']
  exact hashString_ne hbyte signed _ _

end Window

/-- Keys of one length that differ within one block of eight bytes, or within the tail, never
share a `MurmurHash64`; nor do two seeds of one key.  Strings of one length that differ in one
character never share a `HashString`, whatever `char` is. -/
theorem hashes_tell_apart :
    (∀ (key key' : Bytes) (i : Nat) (seed : UInt64), key.length = key'.length →
      (∀ j, j / 8 ≠ i → key[j]? = key'[j]?) →
        (murmurHash64 key seed = murmurHash64 key' seed ↔ key = key')) ∧
    (∀ (key : Bytes) (seed seed' : UInt64),
      murmurHash64 key seed = murmurHash64 key seed' ↔ seed = seed') ∧
    ∀ (signed : Bool) (data data' : Bytes) (i : Nat), data.length = data'.length →
      (∀ j, j ≠ i → data[j]? = data'[j]?) →
        (hashString signed data = hashString signed data' ↔ data = data') := by
  refine ⟨fun key key' i seed hsame hagree => ⟨fun heq => ?_, fun heq => by rw [heq]⟩,
    fun key seed seed' => (murmurHash64_seed_injective key).eq_iff,
    fun signed data data' i hsame hagree => ⟨fun heq => ?_, fun heq => by rw [heq]⟩⟩
  · by_contra hne
    exact murmurHash64_window hsame hagree hne seed heq
  · by_contra hne
    exact hashString_window hsame hagree hne signed heq

theorem hashes_tell_apart_last :
    murmurHash64 [1, 2, 3, 4, 5, 6, 7, 8, 9, 10] 7 ≠
      murmurHash64 [1, 2, 3, 4, 5, 6, 7, 8, 9, 11] 7 ∧
    hashString true [0x41, 0x80] ≠ hashString true [0x41, 0x81] := by
  have hkey := hashes_tell_apart.1 [1, 2, 3, 4, 5, 6, 7, 8, 9, 10]
    [1, 2, 3, 4, 5, 6, 7, 8, 9, 11] 1 7 rfl fun j hj => by
      obtain hlt | rfl | hge : j < 9 ∨ j = 9 ∨ 10 ≤ j := by omega
      · interval_cases j <;> rfl
      · exact absurd rfl hj
      · rw [List.getElem?_eq_none hge, List.getElem?_eq_none hge]
  have hdata := hashes_tell_apart.2.2 true [0x41, 0x80] [0x41, 0x81] 1 rfl fun j hj => by
    obtain rfl | rfl | hge : j = 0 ∨ j = 1 ∨ 2 ≤ j := by omega
    · rfl
    · exact absurd rfl hj
    · rw [List.getElem?_eq_none hge, List.getElem?_eq_none hge]
  exact ⟨fun heq => absurd (hkey.mp heq) (by decide), fun heq => absurd (hdata.mp heq) (by decide)⟩

end AstraKV
