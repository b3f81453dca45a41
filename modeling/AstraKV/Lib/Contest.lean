import AstraKV.Lib.Schedule

/-!
# AstraKV.Lib.Contest

A cell that two clients write to, each by one of its moves.  The second client
writes only if it has looked for a move of the first and not found it made;
the schedule tells whose content stays (`Cell`): the second client's, unless
its write came before that of the first.

A client that looks at the cell twice, at two moves in a row, sees the other
one's write between them if the schedule has it there (`Overtaken`).
-/

universe u

namespace Schedule

variable {β : Type u} {js : List Bool} {i j m : Bool} {l n a b : Nat} {own other : β → Prop}
  {x : β}

/-- Client `j` has looked, at its move number `n`, for move number `l` of client `i` in vain, and
has made its move number `b`, and `i` has not made its move number `a` since. -/
def Struck (js : List Bool) (i j : Bool) (l n a b : Nat) : Prop :=
  ¬ Before js i l j n ∧ b ≤ js.count j ∧ ¬ Before js j b i a

/-- What is in a cell that `i` writes by its move number `a`, and `j` by its move number `b`, from
the first of these writes on. -/
structure Cell (js : List Bool) (i j : Bool) (l n a b : Nat) (own other : β → Prop) (x : β) :
    Prop where
  own : a ≤ js.count i → ¬ Struck js i j l n a b → own x
  other : a ≤ js.count i → Struck js i j l n a b → other x

/-- The other's content may be described more weakly. -/
theorem Cell.imp {other' : β → Prop} (h : Cell js i j l n a b own other x)
    (himp : Struck js i j l n a b → other x → other' x) : Cell js i j l n a b own other' x where
  own := h.own
  other hmade hstruck := himp hstruck (h.other hmade hstruck)

/-- Before its own move a client has nothing in the cell. -/
theorem cell_of_lt (h : js.count i < a) : Cell js i j l n a b own other x :=
  ⟨fun hmade => absurd hmade h.not_ge, fun hmade => absurd hmade h.not_ge⟩

/-- A move not yet made comes before none. -/
theorem not_before_of_lt (h : js.count j < b) : ¬ Before js j b i a := by
  rintro ⟨js₁, js₂, rfl, -, hb⟩
  rw [List.count_append] at h
  omega

/-- There is no move number zero. -/
theorem not_before_zero : ¬ Before js i l j 0 := by
  rintro ⟨js₁, js₂, -, hl, -⟩
  omega

/-- What is late for one client is early for the other. -/
theorem Before.asymm {k k' l' : Nat} (h : Before js i k j l) (hk : k' ≤ k) (hl : l ≤ l') :
    ¬ Before js j l' i k' := by
  rintro ⟨js₁', js₂', heq', hk', hl'⟩
  obtain ⟨js₁, js₂, heq, hl, hk⟩ := h
  rw [heq] at heq'
  obtain ⟨js₃, rfl, -⟩ | ⟨js₃, rfl, -⟩ := List.append_eq_append_iff.mp heq'
  · rw [List.count_append] at hk'
    omega
  · rw [List.count_append] at hl
    omega

/-- Of two moves that are made, one comes first. -/
theorem before_or_before (hne : i ≠ j) (ha : a ≤ js.count i) (hb : b ≤ js.count j) (hpos : 0 < b) :
    Before js j b i a ∨ Before js i a j b := by
  induction js using List.reverseRecOn with
  | nil =>
      rw [List.count_nil] at hb
      omega
  | append_singleton js m ih =>
      by_cases hmade : a ≤ js.count i ∧ b ≤ js.count j
      · exact (ih hmade.1 hmade.2).imp (fun h => before_append_singleton.mpr (.inl h))
          fun h => before_append_singleton.mpr (.inl h)
      · by_cases hm : m = j
        · subst hm
          rw [count_append_of_ne hne.symm] at ha
          rw [count_append_self] at hb
          refine .inr ((before_append_self ?_).mpr ha)
          omega
        · rw [count_append_of_ne hm] at hb
          have hi : m = i := by
            by_contra hi
            rw [count_append_of_ne hi] at ha
            exact hmade ⟨ha, hb⟩
          subst hi
          rw [count_append_self] at ha
          refine .inl ((before_append_self ?_).mpr hb)
          omega

/-- A move that is neither write decides nothing. -/
theorem struck_append_of_ne (hi : m ≠ i ∨ js.count i + 1 ≠ a) (hj : m ≠ j ∨ js.count j + 1 ≠ b)
    (hlook : n < b) : Struck (js ++ [m]) i j l n a b ↔ Struck js i j l n a b := by
  unfold Struck
  rw [le_count_append_of_ne hj, before_append_of_ne hi]
  refine and_congr_left fun hmade => not_congr (before_append_of_ne (.inr ?_))
  have hb := hmade.1
  omega

/-- A move that is neither write leaves the cell. -/
theorem Cell.append (h : Cell js i j l n a b own other x) (hi : m ≠ i ∨ js.count i + 1 ≠ a)
    (hj : m ≠ j ∨ js.count j + 1 ≠ b) (hlook : n < b) :
    Cell (js ++ [m]) i j l n a b own other x where
  own hmade hstruck := h.own ((le_count_append_of_ne hi).mp hmade) fun hs =>
    hstruck ((struck_append_of_ne hi hj hlook).mpr hs)
  other hmade hstruck := h.other ((le_count_append_of_ne hi).mp hmade)
    ((struck_append_of_ne hi hj hlook).mp hstruck)

/-- What the second client looked for was there, and so it writes nothing. -/
theorem Cell.found (h : Cell js i j l n a b own other x) (hi : m ≠ i ∨ js.count i + 1 ≠ a)
    (hfound : Before js i l j n) : Cell (js ++ [m]) i j l n a b own other x where
  own hmade _ := h.own ((le_count_append_of_ne hi).mp hmade) fun hstruck => hstruck.1 hfound
  other _ hstruck := absurd (before_append_singleton.mpr (.inl hfound)) hstruck.1

/-- The first client writes. -/
theorem Cell.write (hne : i ≠ j) (ha : js.count i + 1 = a) (hx : own x) :
    Cell (js ++ [i]) i j l n a b own other x where
  own _ _ := hx
  other _ hstruck := by
    obtain ⟨-, hb, hbefore⟩ := hstruck
    rw [before_append_self ha] at hbefore
    rw [count_append_of_ne hne] at hb
    exact absurd hb hbefore

/-- The second client writes, having looked in vain. -/
theorem Cell.strike (hne : i ≠ j) (hb : js.count j + 1 = b) (hlook : n < b)
    (hvain : ¬ Before js i l j n) (hx : other x) :
    Cell (js ++ [j]) i j l n a b own other x where
  own hmade hstruck := by
    refine absurd ⟨?_, ?_, ?_⟩ hstruck
    · rwa [before_append_of_ne (.inr (by omega))]
    · rw [count_append_self, hb]
    · rw [before_append_of_ne (.inl hne.symm)]
      exact not_before_of_lt (by omega)
  other _ _ := hx

/-- A move of the first client: it is the one that writes, or it leaves the cell. -/
theorem Cell.own_move {c : Nat} {x' : β} (h : Cell js i j l n a b own other x) (hne : i ≠ j)
    (hlook : n < b) (hc : c + 1 = a) (hx : if js.count i = c then own x' else x' = x) :
    Cell (js ++ [i]) i j l n a b own other x' := by
  split at hx
  · exact .write hne (by omega) hx
  · rw [hx]
    exact h.append (.inr (by omega)) (.inl hne) hlook

/-- A move of the second client, which has looked in vain: it is the one that writes, or it leaves
the cell. -/
theorem Cell.other_move {c : Nat} {x' : β} (h : Cell js i j l n a b own other x) (hne : i ≠ j)
    (hlook : n < b) (hvain : ¬ Before js i l j n) (hc : c + 1 = b)
    (hx : if js.count j = c then other x' else x' = x) :
    Cell (js ++ [j]) i j l n a b own other x' := by
  split at hx
  · exact .strike hne (by omega) hlook hvain hx
  · rw [hx]
    exact h.append (.inl hne.symm) (.inr (by omega)) hlook

/-- After its own move a client finds its content or the other's. -/
theorem Cell.own_or_other (h : Cell js i j l n a b own other x) (hmade : a ≤ js.count i) :
    own x ∨ other x := by
  by_cases hstruck : Struck js i j l n a b
  · exact .inr (h.other hmade hstruck)
  · exact .inl (h.own hmade hstruck)

/-- A client that has not written has not struck. -/
theorem not_struck_of_lt (hb : js.count j < b) : ¬ Struck js i j l n a b :=
  fun hstruck => absurd hstruck.2.1 hb.not_ge

/-- Client `j` has looked in vain, and makes its move number `b` between the moves number `a` and
`a + 1` of client `i`. -/
def Overtaken (js : List Bool) (i j : Bool) (l n a b : Nat) : Prop :=
  ¬ Before js i l j n ∧ Before js i a j b ∧ Before js j b i (a + 1)

/-- A move that came before another has been made. -/
theorem Before.le_count_left {k : Nat} (h : Before js i k j l) : k ≤ js.count i := by
  obtain ⟨js₁, js₂, rfl, -, hk⟩ := h
  rw [List.count_append]
  omega

/-- Before the move number `a + 1` nothing is decided. -/
theorem not_overtaken_of_le (h : js.count i ≤ a) : ¬ Overtaken js i j l n a b := by
  rintro ⟨-, -, hbefore⟩
  have hle := hbefore.le_count
  omega

/-- Once it is decided it stays so. -/
theorem Overtaken.append (h : Overtaken js i j l n a b) (hlook : n < b) (m : Bool) :
    Overtaken (js ++ [m]) i j l n a b := by
  obtain ⟨hvain, hfirst, hsecond⟩ := h
  have hb := hfirst.le_count
  refine ⟨?_, before_append_singleton.mpr (.inl hfirst), before_append_singleton.mpr (.inl hsecond)⟩
  rwa [before_append_of_ne (.inr (by omega))]

/-- A move of the other client, or another move, decides nothing. -/
theorem overtaken_append_of_ne (h : m ≠ i ∨ js.count i ≠ a) (hlook : n < b) :
    Overtaken (js ++ [m]) i j l n a b ↔ Overtaken js i j l n a b := by
  refine ⟨fun hover => ?_, fun hover => hover.append hlook m⟩
  obtain ⟨hvain, hfirst, hsecond⟩ := hover
  rw [before_append_of_ne (h.imp_right fun hne => by omega)] at hsecond
  have hb := hsecond.le_count_left
  refine ⟨fun hbefore => hvain (before_append_singleton.mpr (.inl hbefore)), ?_, hsecond⟩
  rwa [before_append_of_ne (.inr (by omega))] at hfirst

/-- The move number `a + 1` decides. -/
theorem overtaken_append_self (hne : i ≠ j) (ha : js.count i = a) :
    Overtaken (js ++ [i]) i j l n a b ↔
      ¬ Before js i l j n ∧ Before js i a j b ∧ b ≤ js.count j := by
  unfold Overtaken
  rw [before_append_of_ne (.inl hne), before_append_of_ne (.inl hne),
    before_append_self (by rw [ha])]

end Schedule
