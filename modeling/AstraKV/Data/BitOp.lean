import AstraKV.Data.Bitmap

/-!
# AstraKV.Data.BitOp

`BitOp` of `bitmap.hpp`: strings combined bit by bit, the shorter ones filled
up with zeros.

The source works byte by byte and pads a short operand with zero bytes as it
goes; read as sequences of bits, where everything past the end of a string is
zero, the operations are pointwise and the padding disappears. `Bitwise` is
the step from bytes to bits, shared by the three operations with several
operands; `NOT` has one operand and no padding, so bits past its end do not
become ones.
-/

namespace AstraKV

namespace Bitmap

/-- `AND`, `OR`, `XOR` and `NOT`. -/
def opAnd : Bytes := [65, 78, 68]

def opOr : Bytes := [79, 82]

def opXor : Bytes := [88, 79, 82]

def opNot : Bytes := [78, 79, 84]

/-- `max_len`. -/
def maxLen (values : List Bytes) : Nat :=
  values.foldl (fun len v => if v.length > len then v.length else len) 0

/-- Byte `i` of each operand in turn; a string that ends before byte `i` has none. -/
def foldByte (step : UInt8 → Option UInt8 → UInt8) (init : UInt8) (values : List Bytes) (i : Nat) :
    UInt8 :=
  values.foldl (fun byte v => step byte v[i]?) init

def andStep (byte : UInt8) : Option UInt8 → UInt8
  | some b => byte &&& b
  | none => 0

def orStep (byte : UInt8) : Option UInt8 → UInt8
  | some b => byte ||| b
  | none => byte

def xorStep (byte : UInt8) : Option UInt8 → UInt8
  | some b => byte ^^^ b
  | none => byte

def bitOp (op : Bytes) (values : List Bytes) : Bytes :=
  if values = [] then []
  else if op = opNot ∧ values.length ≠ 1 then []
  else
    let len := maxLen values
    if op = opAnd then (List.range len).map (foldByte andStep 255 values)
    else if op = opOr then (List.range len).map (foldByte orStep 0 values)
    else if op = opXor then (List.range len).map (foldByte xorStep 0 values)
    else if op = opNot then (List.range len).map fun i => ~~~((values.headD []).getD i 0)
    else List.replicate len 0

variable {s t v : Bytes} {values : List Bytes} {i k n p : Nat}

/-! ## strings as sequences of bits -/

/-- Past the end of a string all bits are zero. -/
theorem bits_of_le (h : 8 * s.length ≤ p) : bits s p = false := by
  rw [bits, List.getD_eq_default _ _ (by omega)]
  simp

/-- Strings of one length are told apart by their bits. -/
theorem eq_of_bits (hlength : s.length = t.length) (hbits : bits s = bits t) : s = t := by
  refine List.ext_getElem hlength fun i hs ht => ?_
  rw [← UInt8.toBitVec_inj]
  refine BitVec.eq_of_getMsbD_eq fun k hk => ?_
  have hbit := congrFun hbits (8 * i + k)
  rw [bits, bits, show (8 * i + k) / 8 = i by omega, show (8 * i + k) % 8 = k by omega,
    List.getD_eq_getElem _ _ hs, List.getD_eq_getElem _ _ ht] at hbit
  exact hbit

/-- The bits of a string given byte by byte. -/
theorem bits_map_range {g : Nat → UInt8} :
    bits ((List.range n).map g) p =
      if p < 8 * n then (g (p / 8)).toBitVec.getMsbD (p % 8) else false := by
  split
  · rename_i hp
    have hbyte : p / 8 < n := by omega
    simp [bits, List.getD_eq_getElem?_getD, hbyte]
  · exact bits_of_le (by simpa using by omega)

/-! ## one byte of the operands -/

/-- A step that works on each bit alone. -/
def Bitwise (step : UInt8 → Option UInt8 → UInt8) (f : Bool → Bool → Bool) : Prop :=
  ∀ byte (b : Option UInt8), ∀ k < 8,
    (step byte b).toBitVec.getMsbD k =
      f (byte.toBitVec.getMsbD k) ((b.getD 0).toBitVec.getMsbD k)

/-- The byte step of `AND` is bitwise. -/
theorem bitwise_and : Bitwise andStep (· && ·) := by
  intro byte b k hk
  cases b <;> simp [andStep]

/-- The byte step of `OR` is bitwise. -/
theorem bitwise_or : Bitwise orStep (· || ·) := by
  intro byte b k hk
  cases b <;> simp [orStep]

/-- The byte step of `XOR` is bitwise. -/
theorem bitwise_xor : Bitwise xorStep (· ^^ ·) := by
  intro byte b k hk
  cases b <;> simp [xorStep]

/-- Folding the bytes at one index folds the bits at each place of it. -/
theorem foldByte_bit {step : UInt8 → Option UInt8 → UInt8} {f : Bool → Bool → Bool}
    (hstep : Bitwise step f) (init : UInt8) (values : List Bytes) (p : Nat) :
    (foldByte step init values (p / 8)).toBitVec.getMsbD (p % 8) =
      values.foldl (fun bit v => f bit (bits v p)) (init.toBitVec.getMsbD (p % 8)) := by
  unfold foldByte
  induction values generalizing init with
  | nil => rfl
  | cons v values ih =>
      rw [List.foldl_cons, List.foldl_cons, ih, hstep _ _ _ (Nat.mod_lt p (by decide)), bits,
        List.getD_eq_getElem?_getD]

/-! ## the longest operand -/

/-- The loop for the longest operand keeps the greatest length so far. -/
theorem foldl_length (values : List Bytes) (n : Nat) :
    let len := values.foldl (fun len v => if v.length > len then v.length else len) n
    n ≤ len ∧ (∀ v ∈ values, v.length ≤ len) ∧ (len = n ∨ ∃ v ∈ values, v.length = len) := by
  induction values generalizing n with
  | nil => simp
  | cons v values ih =>
      dsimp only
      rw [List.foldl_cons]
      by_cases hlonger : v.length > n
      · rw [if_pos hlonger]
        obtain ⟨hle, hall, hsome⟩ := ih v.length
        refine ⟨hlonger.le.trans hle, List.forall_mem_cons.mpr ⟨hle, hall⟩, .inr ?_⟩
        obtain heq | ⟨w, hw, heq⟩ := hsome
        · exact ⟨v, List.mem_cons_self, heq.symm⟩
        · exact ⟨w, List.mem_cons_of_mem v hw, heq⟩
      · rw [if_neg hlonger]
        obtain ⟨hle, hall, hsome⟩ := ih n
        refine ⟨hle, List.forall_mem_cons.mpr ⟨(not_lt.mp hlonger).trans hle, hall⟩, ?_⟩
        exact hsome.imp_right fun ⟨w, hw, heq⟩ => ⟨w, List.mem_cons_of_mem v hw, heq⟩

/-- No operand is longer than the longest. -/
theorem length_le_maxLen (hv : v ∈ values) : v.length ≤ maxLen values :=
  (foldl_length values 0).2.1 v hv

/-- The longest length is that of an operand. -/
theorem maxLen_isGreatest (v : Bytes) (values : List Bytes) :
    IsGreatest {n | n ∈ (v :: values).map List.length} (maxLen (v :: values)) := by
  refine ⟨?_, fun n hn => ?_⟩
  · obtain hzero | ⟨w, hw, heq⟩ := (foldl_length (v :: values) 0).2.2
    · have hle := length_le_maxLen (List.mem_cons_self (a := v) (l := values))
      exact List.mem_map.mpr ⟨v, List.mem_cons_self, by unfold maxLen at *; omega⟩
    · exact List.mem_map.mpr ⟨w, hw, heq⟩
  · obtain ⟨w, hw, rfl⟩ := List.mem_map.mp hn
    exact length_le_maxLen hw

/-- More operands are not shorter. -/
theorem maxLen_le {values' : List Bytes} (h : values ⊆ values') :
    maxLen values ≤ maxLen values' := by
  obtain hzero | ⟨v, hv, heq⟩ := (foldl_length values 0).2.2
  · unfold maxLen at *
    omega
  · exact heq.symm.trans_le (length_le_maxLen (h hv))

/-- Past the longest operand there are zeros only. -/
theorem bits_past (hp : 8 * maxLen values ≤ p) (hv : v ∈ values) : bits v p = false :=
  bits_of_le (by have hle := length_le_maxLen hv; omega)

/-! ## the operations -/

/-- Folding `AND` asks all operands for the bit. -/
theorem foldl_and (values : List Bytes) (bit : Bool) :
    values.foldl (fun bit v => bit && bits v p) bit = (bit && values.all fun v => bits v p) := by
  induction values generalizing bit with
  | nil => simp
  | cons v values ih => rw [List.foldl_cons, ih, List.all_cons, Bool.and_assoc]

/-- Folding `OR` asks for one of them. -/
theorem foldl_or (values : List Bytes) (bit : Bool) :
    values.foldl (fun bit v => bit || bits v p) bit = (bit || values.any fun v => bits v p) := by
  induction values generalizing bit with
  | nil => simp
  | cons v values ih => rw [List.foldl_cons, ih, List.any_cons, Bool.or_assoc]

/-- An odd number of operands has the bit. -/
def parity (values : List Bytes) (p : Nat) : Bool :=
  values.countP (fun v => bits v p) % 2 = 1

/-- Folding `XOR` gives the parity of the ones. -/
theorem foldl_xor (values : List Bytes) (bit : Bool) :
    values.foldl (fun bit v => bit ^^ bits v p) bit = (bit ^^ parity values p) := by
  induction values generalizing bit with
  | nil => simp [parity]
  | cons v values ih =>
      have hparity : parity (v :: values) p = (bits v p ^^ parity values p) := by
        unfold parity
        rw [List.countP_cons]
        cases bits v p with
        | false => simp
        | true => grind
      rw [List.foldl_cons, ih, hparity, Bool.xor_assoc]

/-- Past the end of all operands `AND` has no bit. -/
theorem all_past (hvalues : values ≠ []) (h : ∀ v ∈ values, bits v p = false) :
    (values.all fun v => bits v p) = false := by
  obtain ⟨v, hv⟩ := List.exists_mem_of_ne_nil values hvalues
  exact List.all_eq_false.mpr ⟨v, hv, by simp [h v hv]⟩

/-- Past the end of all operands `OR` has no bit. -/
theorem any_past (h : ∀ v ∈ values, bits v p = false) : (values.any fun v => bits v p) = false :=
  List.any_eq_false.mpr fun v hv => by simp [h v hv]

theorem parity_past (h : ∀ v ∈ values, bits v p = false) : parity values p = false := by
  have hnone : values.countP (fun v => bits v p) = 0 :=
    List.countP_eq_zero.mpr fun v hv => by simp [h v hv]
  simp [parity, hnone]

/-- What an operation folds from byte to byte it folds from bit to bit, if zeros give a zero. -/
theorem bits_foldByte {step : UInt8 → Option UInt8 → UInt8} {f : Bool → Bool → Bool} {init : UInt8}
    {bit : Bool} (hstep : Bitwise step f)
    (hfold : values.foldl (fun b v => f b (bits v p)) (init.toBitVec.getMsbD (p % 8)) = bit)
    (hpast : (∀ v ∈ values, bits v p = false) → bit = false) :
    bits ((List.range (maxLen values)).map (foldByte step init values)) p = bit := by
  rw [bits_map_range]
  split
  · rw [foldByte_bit hstep, hfold]
  · exact (hpast fun v hv => bits_past (by omega) hv).symm

/-- What `AND` computes, byte by byte. -/
theorem bitOp_and (hvalues : values ≠ []) :
    bitOp opAnd values = (List.range (maxLen values)).map (foldByte andStep 255 values) := by
  unfold bitOp
  rw [if_neg hvalues, if_neg (fun h => absurd h.1 (by decide)), if_pos rfl]

/-- What `OR` computes, byte by byte. -/
theorem bitOp_or (hvalues : values ≠ []) :
    bitOp opOr values = (List.range (maxLen values)).map (foldByte orStep 0 values) := by
  unfold bitOp
  rw [if_neg hvalues, if_neg (fun h => absurd h.1 (by decide))]
  dsimp only
  rw [if_neg (by decide), if_pos rfl]

/-- What `XOR` computes, byte by byte. -/
theorem bitOp_xor (hvalues : values ≠ []) :
    bitOp opXor values = (List.range (maxLen values)).map (foldByte xorStep 0 values) := by
  unfold bitOp
  rw [if_neg hvalues, if_neg (fun h => absurd h.1 (by decide))]
  dsimp only
  rw [if_neg (by decide), if_neg (by decide), if_pos rfl]

/-- What `NOT` computes, byte by byte. -/
theorem bitOp_not (v : Bytes) :
    bitOp opNot [v] = (List.range v.length).map fun i => ~~~(v.getD i 0) := by
  have hlen : maxLen [v] = v.length := by
    simp only [maxLen, List.foldl_cons, List.foldl_nil]
    split <;> omega
  unfold bitOp
  rw [if_neg (List.cons_ne_nil v []), if_neg (fun h => h.2 rfl)]
  dsimp only
  rw [if_neg (by decide), if_neg (by decide), if_neg (by decide), if_pos rfl, hlen]
  rfl

/-- A bit of `AND` is set if all operands have it. -/
theorem bits_and (hvalues : values ≠ []) :
    bits (bitOp opAnd values) p = values.all fun v => bits v p := by
  rw [bitOp_and hvalues]
  refine bits_foldByte bitwise_and ?_ (all_past hvalues)
  have hones : (255 : UInt8).toBitVec.getMsbD (p % 8) = true := by
    have hk : p % 8 < 8 := Nat.mod_lt p (by decide)
    generalize p % 8 = k at hk
    decide +revert
  rw [foldl_and, hones, Bool.true_and]

theorem getMsbD_zero : (0 : UInt8).toBitVec.getMsbD k = false := BitVec.getMsbD_zero

/-- A bit of `OR` is set if one operand has it. -/
theorem bits_or (hvalues : values ≠ []) :
    bits (bitOp opOr values) p = values.any fun v => bits v p := by
  rw [bitOp_or hvalues]
  refine bits_foldByte bitwise_or ?_ any_past
  rw [foldl_or, getMsbD_zero, Bool.false_or]

/-- A bit of `XOR` is set if an odd number of operands have it. -/
theorem bits_xor (hvalues : values ≠ []) : bits (bitOp opXor values) p = parity values p := by
  rw [bitOp_xor hvalues]
  refine bits_foldByte bitwise_xor ?_ parity_past
  rw [foldl_xor, getMsbD_zero, Bool.false_xor]

/-- A bit of `NOT` within the string is the other one. -/
theorem bits_not (v : Bytes) (hp : p < 8 * v.length) : bits (bitOp opNot [v]) p = !bits v p := by
  rw [bitOp_not, bits_map_range, if_pos hp, bits, UInt8.toBitVec_not, BitVec.getMsbD_not]
  simp [Nat.mod_lt p (by decide : 0 < 8)]

def Combines (op : Bytes) : Prop := op = opAnd ∨ op = opOr ∨ op = opXor

/-- The result is as long as the longest operand. -/
theorem length_bitOp {op : Bytes} (hop : Combines op) (hvalues : values ≠ []) :
    (bitOp op values).length = maxLen values := by
  obtain rfl | rfl | rfl := hop
  · rw [bitOp_and hvalues, List.length_map, List.length_range]
  · rw [bitOp_or hvalues, List.length_map, List.length_range]
  · rw [bitOp_xor hvalues, List.length_map, List.length_range]

/-- `NOT` keeps the length. -/
theorem length_not (v : Bytes) : (bitOp opNot [v]).length = v.length := by
  rw [bitOp_not, List.length_map, List.length_range]

/-- `NOT` twice is the string itself. -/
theorem bitOp_not_not (v : Bytes) : bitOp opNot [bitOp opNot [v]] = v := by
  have hlength : (bitOp opNot [bitOp opNot [v]]).length = v.length := by
    rw [length_not, length_not]
  refine eq_of_bits hlength (funext fun p => ?_)
  by_cases hp : p < 8 * v.length
  · rw [bits_not _ (by rwa [length_not]), bits_not v hp, Bool.not_not]
  · rw [bits_of_le (by omega), bits_of_le (by omega)]

/-- The order of the operands is of no account. -/
theorem bitOp_perm {op : Bytes} {values' : List Bytes} (hop : Combines op)
    (hperm : values.Perm values') : bitOp op values = bitOp op values' := by
  by_cases hvalues : values = []
  · subst hvalues
    rw [List.nil_perm.mp hperm]
  have hvalues' : values' ≠ [] := fun h => hvalues (List.perm_nil.mp (h ▸ hperm))
  refine eq_of_bits ?_ (funext fun p => ?_)
  · rw [length_bitOp hop hvalues, length_bitOp hop hvalues']
    exact le_antisymm (maxLen_le hperm.subset) (maxLen_le hperm.symm.subset)
  · obtain rfl | rfl | rfl := hop
    · rw [bits_and hvalues, bits_and hvalues', Bool.eq_iff_iff]
      simp [hperm.mem_iff]
    · rw [bits_or hvalues, bits_or hvalues', Bool.eq_iff_iff]
      simp [hperm.mem_iff]
    · rw [bits_xor hvalues, bits_xor hvalues', parity, parity, hperm.countP_eq]

/-- `GetBit` reads the sequence of bits, and nothing at a negative place. -/
theorem getBit_eq_bits (s : Bytes) (p : Int) :
    getBit s p = if p < 0 then false else bits s p.toNat := by
  split
  · rename_i hp
    exact getBit_of_neg hp
  · rename_i hp
    lift p to Nat using not_lt.mp hp
    exact getBit_natCast

/-- **`BitOp` works bit by bit**, and on as many bits as the longest operand has. -/
theorem bitOp_pointwise (v : Bytes) (rest : List Bytes) :
    (∀ op, Combines op →
      IsGreatest {n | n ∈ (v :: rest).map List.length} (bitOp op (v :: rest)).length) ∧
    (∀ p, getBit (bitOp opAnd (v :: rest)) p = (v :: rest).all fun w => getBit w p) ∧
    (∀ p, getBit (bitOp opOr (v :: rest)) p = (v :: rest).any fun w => getBit w p) ∧
    (∀ p, getBit (bitOp opXor (v :: rest)) p = true ↔
      (v :: rest).countP (fun w => getBit w p) % 2 = 1) ∧
    (∀ op, Combines op → ∀ values, (v :: rest).Perm values →
      bitOp op (v :: rest) = bitOp op values) ∧
    (bitOp opNot [v]).length = v.length ∧
    (∀ p, 0 ≤ p → p < 8 * v.length → getBit (bitOp opNot [v]) p = !getBit v p) ∧
    bitOp opNot [bitOp opNot [v]] = v := by
  have hvalues : v :: rest ≠ [] := List.cons_ne_nil v rest
  simp only [getBit_eq_bits]
  refine ⟨fun op hop => ?_, fun p => ?_, fun p => ?_, fun p => ?_,
    fun op hop values => bitOp_perm hop, length_not v, fun p hp hlt => ?_, bitOp_not_not v⟩
  · rw [length_bitOp hop hvalues]
    exact maxLen_isGreatest v rest
  · by_cases hp : p < 0
    · simp [hp]
    · simp only [if_neg hp]
      exact bits_and hvalues
  · by_cases hp : p < 0
    · simp [hp]
    · simp only [if_neg hp]
      exact bits_or hvalues
  · by_cases hp : p < 0
    · simp [hp]
    · simp only [if_neg hp]
      rw [bits_xor hvalues, parity, decide_eq_true_iff]
  · rw [if_neg (by omega), if_neg (by omega)]
    exact bits_not v (by omega)

end Bitmap

end AstraKV
