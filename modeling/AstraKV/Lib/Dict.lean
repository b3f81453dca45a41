import Mathlib

/-!
# AstraKV.Lib.Dict

Hash maps as association lists with distinct keys.

The order of the entries stands for an iteration order the source does not
promise; nothing below depends on it.

Lookups, insertions and removals are those of Mathlib's `AList`; what is added
here are the equations in which they are used, with the key tested by an `if`,
and one rule for maps that are rebuilt entry by entry from their own listing.
-/

universe u v

/-- A map from keys to values, every key at most once. -/
abbrev Dict (α : Type u) (β : Type v) := AList fun _ : α => β

namespace Dict

variable {α : Type u} {β : Type v} [DecidableEq α] {d : Dict α β} {a a' : α} {b b' : β}

/-- The entries are the keys with what is looked up. -/
theorem mem_entries : ⟨a, b⟩ ∈ d.entries ↔ d.lookup a = some b :=
  AList.mem_lookup_iff.symm

theorem mem_of_lookup (h : d.lookup a = some b) : a ∈ d :=
  AList.lookup_isSome.mp (by rw [h]; rfl)

theorem exists_lookup (h : a ∈ d) : ∃ b, d.lookup a = some b :=
  Option.isSome_iff_exists.mp (AList.lookup_isSome.mpr h)

/-- An entry taken out leaves the others. -/
theorem perm_cons_erase (h : d.lookup a = some b) :
    d.entries.Perm (⟨a, b⟩ :: (d.erase a).entries) := by
  obtain ⟨b', l₁, l₂, -, hentries, herase⟩ :=
    List.exists_of_kerase (AList.mem_keys.mp (mem_of_lookup h))
  have hmem : (⟨a, b'⟩ : Sigma fun _ : α => β) ∈ d.entries := by
    rw [hentries]
    simp
  obtain rfl : b' = b := by
    have hlookup := mem_entries.mp hmem
    rw [h] at hlookup
    exact (Option.some.inj hlookup).symm
  show d.entries.Perm (⟨a, b'⟩ :: List.kerase a d.entries)
  rw [herase, hentries]
  exact List.perm_middle

theorem entries_insert : (d.insert a b).entries = ⟨a, b⟩ :: (d.erase a).entries := by
  rw [AList.entries_insert]
  rfl

/-- What is looked up after an insertion. -/
theorem lookup_insert_ite : (d.insert a b).lookup a' = if a' = a then some b else d.lookup a' := by
  by_cases h : a' = a
  · rw [if_pos h, h, AList.lookup_insert]
  · rw [if_neg h, AList.lookup_insert_ne h]

/-- What is looked up after a removal. -/
theorem lookup_erase_ite : (d.erase a).lookup a' = if a' = a then none else d.lookup a' := by
  by_cases h : a' = a
  · rw [if_pos h, h, AList.lookup_erase]
  · rw [if_neg h, AList.lookup_erase_ne h]

/-! ## rebuilding a map -/

section Rebuild

universe w

variable {σ : Type w} (get : σ → α → Option β) (put : σ → α → β → σ)

/-- Putting entries with distinct keys one by one puts them all. -/
theorem foldl_nodupKeys
    (hput : ∀ s a b, get s a = none →
      ∀ a', get (put s a b) a' = if a' = a then some b else get s a')
    {l : List (Sigma fun _ : α => β)} (hnodup : l.NodupKeys) {s : σ}
    (hs : ∀ a ∈ l.keys, get s a = none) (a : α) :
    get (l.foldl (fun s entry => put s entry.1 entry.2) s) a = (l.dlookup a).or (get s a) := by
  induction l generalizing s with
  | nil => simp
  | cons entry l ih =>
      obtain ⟨a₀, b₀⟩ := entry
      obtain ⟨hfresh, hrest⟩ := List.nodupKeys_cons.mp hnodup
      have hget := hput s a₀ b₀ (hs a₀ (by simp))
      have hkeys : ∀ a ∈ l.keys, get (put s a₀ b₀) a = none := by
        intro a' ha'
        rw [hget, if_neg (ne_of_mem_of_not_mem ha' hfresh)]
        exact hs a' (by simp [ha'])
      rw [List.foldl_cons, ih hrest hkeys, hget]
      by_cases ha : a = a₀
      · subst ha
        rw [if_pos rfl, List.dlookup_cons_eq, List.dlookup_eq_none.mpr hfresh]
        rfl
      · rw [if_neg ha, List.dlookup_cons_ne l ⟨a₀, b₀⟩ ha]

/-- A container into which the entries of a map go one by one holds what the map holds. -/
theorem foldl_entries
    (hput : ∀ s a b, get s a = none →
      ∀ a', get (put s a b) a' = if a' = a then some b else get s a')
    (d : Dict α β) {s : σ} (hs : ∀ a, get s a = none) (a : α) :
    get (d.entries.foldl (fun s entry => put s entry.1 entry.2) s) a = d.lookup a := by
  rw [foldl_nodupKeys get put hput d.nodupKeys fun a _ => hs a, hs a, Option.or_none]
  rfl

end Rebuild

end Dict
