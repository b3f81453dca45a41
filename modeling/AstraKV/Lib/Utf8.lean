import AstraKV.Lib.LittleEndian

/-!
# AstraKV.Lib.Utf8

UTF-8, and the lossy conversion of Rust's `String::from_utf8_lossy`: what is
no character becomes U+FFFD, one for each longest start of a character.

The two bytes at the start of a character decide how many follow and within
what bounds, which excludes overlong forms, surrogates and what is past the
last code point; `continued` counts how far the bytes at hand keep to that. A
conversion that changes nothing is then the same as validity.
-/

namespace Utf8

/-- The bytes are the characters of some string. -/
def Valid (bs : Bytes) : Prop := ∃ cs : List Char, bs = cs.flatMap String.utf8EncodeChar

/-- How many bytes follow the first one of a character, if it can be the first. -/
def trailing (lead : UInt8) : Option Nat :=
  if lead.toNat < 0x80 then some 0
  else if lead.toNat < 0xC2 then none
  else if lead.toNat < 0xE0 then some 1
  else if lead.toNat < 0xF0 then some 2
  else if lead.toNat < 0xF5 then some 3
  else none

/-- The least second byte: neither an overlong form nor more than 21 bits. -/
def secondLow (lead : UInt8) : Nat :=
  if lead.toNat = 0xE0 then 0xA0 else if lead.toNat = 0xF0 then 0x90 else 0x80

/-- The greatest second byte: no surrogate, and nothing past U+10FFFF. -/
def secondHigh (lead : UInt8) : Nat :=
  if lead.toNat = 0xED then 0x9F else if lead.toNat = 0xF4 then 0x8F else 0xBF

/-- How many of the next `n` bytes go on with the character, the first of them in a range of its
own. -/
def continued : Nat → Nat → Nat → Bytes → Nat
  | 0, _, _, _ => 0
  | _ + 1, _, _, [] => 0
  | n + 1, low, high, b :: bs =>
      if low ≤ b.toNat ∧ b.toNat ≤ high then continued n 0x80 0xBF bs + 1 else 0

/-- U+FFFD. -/
def replacement : Bytes := [0xEF, 0xBF, 0xBD]

def lossyLoop : Nat → Bytes → Bytes
  | 0, _ => []
  | _ + 1, [] => []
  | fuel + 1, lead :: rest =>
      match trailing lead with
      | none => replacement ++ lossyLoop fuel rest
      | some n =>
          let k := continued n (secondLow lead) (secondHigh lead) rest
          (if k = n then lead :: rest.take n else replacement) ++ lossyLoop fuel (rest.drop k)

def fromUtf8Lossy (bs : Bytes) : Bytes := lossyLoop bs.length bs

example : fromUtf8Lossy [0x48, 0xF0, 0x90, 0x80, 0x57, 0xFF] =
    [0x48, 0xEF, 0xBF, 0xBD, 0x57, 0xEF, 0xBF, 0xBD] := by decide

/-! ## one character -/

/-- What the second byte must be at least. -/
theorem secondLow_le {lead : UInt8} {n : Nat} :
    secondLow lead ≤ n ↔
      0x80 ≤ n ∧ (lead.toNat = 0xE0 → 0xA0 ≤ n) ∧ (lead.toNat = 0xF0 → 0x90 ≤ n) := by
  unfold secondLow
  split
  · omega
  · split <;> omega

/-- What it may be at most. -/
theorem le_secondHigh {lead : UInt8} {n : Nat} :
    n ≤ secondHigh lead ↔
      n ≤ 0xBF ∧ (lead.toNat = 0xED → n ≤ 0x9F) ∧ (lead.toNat = 0xF4 → n ≤ 0x8F) := by
  unfold secondHigh
  split
  · omega
  · split <;> omega

/-- One more byte that keeps to its bounds. -/
theorem continued_cons {n low high : Nat} {b : UInt8} (bs : Bytes) (hlow : low ≤ b.toNat)
    (hhigh : b.toNat ≤ high) :
    continued (n + 1) low high (b :: bs) = continued n 0x80 0xBF bs + 1 :=
  if_pos ⟨hlow, hhigh⟩

theorem toNat_ofNat_of_lt {n : Nat} (h : n < 256) : (UInt8.ofNat n).toNat = n :=
  UInt8.toNat_ofNat_of_lt h

/-- The first byte of a character tells its length, and the others go on with it. -/
theorem trailing_char (c : Char) (rest : Bytes) :
    ∃ lead tail, String.utf8EncodeChar c = lead :: tail ∧ trailing lead = some tail.length ∧
      continued tail.length (secondLow lead) (secondHigh lead) (tail ++ rest) = tail.length := by
  have hvalid : c.val.toNat < 0xD800 ∨ 0xDFFF < c.val.toNat ∧ c.val.toNat < 0x110000 := c.valid
  unfold String.utf8EncodeChar
  dsimp only
  generalize c.val.toNat = v at *
  have htail : ∀ n, (UInt8.ofNat (n % 64 + 128)).toNat = n % 64 + 128 := fun n =>
    toNat_ofNat_of_lt (by omega)
  -- a later byte is in the range of all later bytes
  have hlater : ∀ n m bs, continued (n + 1) 0x80 0xBF (UInt8.ofNat (m % 64 + 128) :: bs) =
      continued n 0x80 0xBF bs + 1 := fun n m bs =>
    continued_cons bs (by rw [htail]; omega) (by rw [htail]; omega)
  split
  · have hlead : (UInt8.ofNat v).toNat = v := toNat_ofNat_of_lt (by omega)
    refine ⟨_, _, rfl, ?_, rfl⟩
    rw [trailing, hlead, if_pos (by omega)]
    rfl
  split
  · have hlead : (UInt8.ofNat (v / 64 % 32 + 192)).toNat = v / 64 % 32 + 192 :=
      toNat_ofNat_of_lt (by omega)
    refine ⟨_, _, rfl, ?_, ?_⟩
    · rw [trailing, hlead, if_neg (by omega), if_neg (by omega), if_pos (by omega)]
      rfl
    · refine continued_cons _ (secondLow_le.mpr ?_) (le_secondHigh.mpr ?_)
      · rw [hlead, htail]
        omega
      · rw [hlead, htail]
        omega
  split
  · have hlead : (UInt8.ofNat (v / 4096 % 16 + 224)).toNat = v / 4096 % 16 + 224 :=
      toNat_ofNat_of_lt (by omega)
    refine ⟨_, _, rfl, ?_, ?_⟩
    · rw [trailing, hlead, if_neg (by omega), if_neg (by omega), if_neg (by omega),
        if_pos (by omega)]
      rfl
    · refine (continued_cons _ (secondLow_le.mpr ?_) (le_secondHigh.mpr ?_)).trans ?_
      · rw [hlead, htail]
        omega
      · rw [hlead, htail]
        omega
      exact congrArg (· + 1) (hlater _ _ _)
  · have hlead : (UInt8.ofNat (v / 262144 % 8 + 240)).toNat = v / 262144 % 8 + 240 :=
      toNat_ofNat_of_lt (by omega)
    refine ⟨_, _, rfl, ?_, ?_⟩
    · rw [trailing, hlead, if_neg (by omega), if_neg (by omega), if_neg (by omega),
        if_neg (by omega), if_pos (by omega)]
      rfl
    · refine (continued_cons _ (secondLow_le.mpr ?_) (le_secondHigh.mpr ?_)).trans ?_
      · rw [hlead, htail]
        omega
      · rw [hlead, htail]
        omega
      exact congrArg (· + 1) ((hlater _ _ _).trans (congrArg (· + 1) (hlater _ _ _)))

/-- Every number that is no surrogate and in range is a character. -/
theorem exists_char {v : Nat} (h : v < 0xD800 ∨ 0xDFFF < v ∧ v < 0x110000) :
    ∃ c : Char, c.val.toNat = v :=
  ⟨Char.ofNatAux v h, rfl⟩

/-- All bytes asked for are there and keep to their bounds. -/
theorem of_continued_succ {n low high : Nat} {bs : Bytes}
    (h : continued (n + 1) low high bs = n + 1) :
    ∃ b rest, bs = b :: rest ∧ low ≤ b.toNat ∧ b.toNat ≤ high ∧
      continued n 0x80 0xBF rest = n := by
  cases bs with
  | nil => cases h
  | cons b rest =>
      rw [continued] at h
      split at h
      · rename_i hb
        exact ⟨b, rest, rfl, hb.1, hb.2, Nat.succ.inj h⟩
      · cases h

theorem ofNat_eq {n : Nat} {b : UInt8} (h : n = b.toNat) : UInt8.ofNat n = b := by
  rw [h, UInt8.ofNat_toNat]

/-- A first byte and as many others as it tells of are a character. -/
theorem char_of_trailing {lead : UInt8} {rest : Bytes} {n : Nat} (hn : trailing lead = some n)
    (hrest : continued n (secondLow lead) (secondHigh lead) rest = n) :
    ∃ c, String.utf8EncodeChar c = lead :: rest.take n := by
  suffices ∃ v, (v < 0xD800 ∨ 0xDFFF < v ∧ v < 0x110000) ∧
      ∀ c : Char, c.val.toNat = v → String.utf8EncodeChar c = lead :: rest.take n by
    obtain ⟨v, hv, hencode⟩ := this
    obtain ⟨c, hc⟩ := exists_char hv
    exact ⟨c, hencode c hc⟩
  unfold trailing at hn
  unfold String.utf8EncodeChar
  dsimp only
  split at hn
  · obtain rfl := Option.some.inj hn
    refine ⟨lead.toNat, .inl (by omega), fun c hc => ?_⟩
    rw [hc, if_pos (by omega), ofNat_eq rfl]
    rfl
  split at hn
  · cases hn
  split at hn
  · obtain rfl := Option.some.inj hn
    obtain ⟨b₁, rest, rfl, hlow, hhigh, -⟩ := of_continued_succ hrest
    rw [secondLow_le] at hlow
    rw [le_secondHigh] at hhigh
    obtain ⟨v, hv⟩ : ∃ v, v = (lead.toNat - 0xC0) * 64 + (b₁.toNat - 0x80) := ⟨_, rfl⟩
    refine ⟨v, .inl (by omega), fun c hc => ?_⟩
    have hlead : UInt8.ofNat (v / 64 % 32 + 192) = lead := ofNat_eq (by omega)
    have h₁ : UInt8.ofNat (v % 64 + 128) = b₁ := ofNat_eq (by omega)
    rw [hc, if_neg (by omega), if_pos (by omega), hlead, h₁]
    rfl
  split at hn
  · obtain rfl := Option.some.inj hn
    obtain ⟨b₁, rest, rfl, hlow, hhigh, hrest⟩ := of_continued_succ hrest
    obtain ⟨b₂, rest, rfl, hlow₂, hhigh₂, -⟩ := of_continued_succ hrest
    rw [secondLow_le] at hlow
    rw [le_secondHigh] at hhigh
    obtain ⟨v, hv⟩ : ∃ v, v =
        (lead.toNat - 0xE0) * 4096 + (b₁.toNat - 0x80) * 64 + (b₂.toNat - 0x80) := ⟨_, rfl⟩
    refine ⟨v, by omega, fun c hc => ?_⟩
    have hlead : UInt8.ofNat (v / 4096 % 16 + 224) = lead := ofNat_eq (by omega)
    have h₁ : UInt8.ofNat (v / 64 % 64 + 128) = b₁ := ofNat_eq (by omega)
    have h₂ : UInt8.ofNat (v % 64 + 128) = b₂ := ofNat_eq (by omega)
    rw [hc, if_neg (by omega), if_neg (by omega), if_pos (by omega), hlead, h₁, h₂]
    rfl
  split at hn
  · obtain rfl := Option.some.inj hn
    obtain ⟨b₁, rest, rfl, hlow, hhigh, hrest⟩ := of_continued_succ hrest
    obtain ⟨b₂, rest, rfl, hlow₂, hhigh₂, hrest⟩ := of_continued_succ hrest
    obtain ⟨b₃, rest, rfl, hlow₃, hhigh₃, -⟩ := of_continued_succ hrest
    rw [secondLow_le] at hlow
    rw [le_secondHigh] at hhigh
    obtain ⟨v, hv⟩ : ∃ v, v = (lead.toNat - 0xF0) * 262144 + (b₁.toNat - 0x80) * 4096 +
        (b₂.toNat - 0x80) * 64 + (b₃.toNat - 0x80) := ⟨_, rfl⟩
    refine ⟨v, by omega, fun c hc => ?_⟩
    have hlead : UInt8.ofNat (v / 262144 % 8 + 240) = lead := ofNat_eq (by omega)
    have h₁ : UInt8.ofNat (v / 4096 % 64 + 128) = b₁ := ofNat_eq (by omega)
    have h₂ : UInt8.ofNat (v / 64 % 64 + 128) = b₂ := ofNat_eq (by omega)
    have h₃ : UInt8.ofNat (v % 64 + 128) = b₃ := ofNat_eq (by omega)
    rw [hc, if_neg (by omega), if_neg (by omega), if_neg (by omega), hlead, h₁, h₂, h₃]
    rfl
  · cases hn

/-! ## byte strings -/

theorem valid_nil : Valid [] := ⟨[], rfl⟩

theorem Valid.append {bs bs' : Bytes} (h : Valid bs) (h' : Valid bs') : Valid (bs ++ bs') := by
  obtain ⟨cs, rfl⟩ := h
  obtain ⟨cs', rfl⟩ := h'
  exact ⟨cs ++ cs', by rw [List.flatMap_append]⟩

/-- A character encodes to valid bytes. -/
theorem valid_char (c : Char) : Valid (String.utf8EncodeChar c) := ⟨[c], by simp⟩

/-- The replacement character is valid. -/
theorem valid_replacement : Valid replacement := valid_char (Char.ofNat 0xFFFD)

/-- Whatever is converted, the outcome is valid. -/
theorem valid_lossyLoop (fuel : Nat) (bs : Bytes) : Valid (lossyLoop fuel bs) := by
  induction fuel generalizing bs with
  | zero => exact valid_nil
  | succ fuel ih =>
      cases bs with
      | nil => exact valid_nil
      | cons lead rest =>
          unfold lossyLoop
          split
          · exact valid_replacement.append (ih rest)
          · rename_i n hn
            dsimp only
            refine Valid.append ?_ (ih _)
            split
            · rename_i hk
              obtain ⟨c, hc⟩ := char_of_trailing hn hk
              rw [← hc]
              exact valid_char c
            · exact valid_replacement

/-- Characters are kept. -/
theorem lossyLoop_chars (cs : List Char) {fuel : Nat}
    (hfuel : (cs.flatMap String.utf8EncodeChar).length ≤ fuel) :
    lossyLoop fuel (cs.flatMap String.utf8EncodeChar) = cs.flatMap String.utf8EncodeChar := by
  induction cs generalizing fuel with
  | nil => cases fuel <;> rfl
  | cons c cs ih =>
      rw [List.flatMap_cons] at hfuel ⊢
      obtain ⟨lead, tail, hchar, htrailing, hcontinued⟩ :=
        trailing_char c (cs.flatMap String.utf8EncodeChar)
      rw [hchar, List.length_append, List.length_cons] at hfuel
      obtain ⟨fuel, rfl⟩ : ∃ m, fuel = m + 1 := ⟨fuel - 1, by omega⟩
      rw [hchar, List.cons_append, lossyLoop, htrailing]
      dsimp only
      rw [hcontinued, if_pos rfl, List.take_left, List.drop_left, ih (by omega)]
      rfl

/-- The conversion changes nothing if and only if there is nothing to lose. -/
theorem fromUtf8Lossy_eq_self {bs : Bytes} : fromUtf8Lossy bs = bs ↔ Valid bs := by
  constructor
  · intro h
    rw [← h]
    exact valid_lossyLoop _ _
  · rintro ⟨cs, rfl⟩
    exact lossyLoop_chars cs le_rfl

end Utf8
