import Mathlib

/-!
# AstraKV.Lib.WriteLog

Logs of writes to keys, and the latest write to each key.

A log is what was written in the order in which it was written, repetitions
included; the latest write to a key is found from the end. Lists of entries
that only ever grow are such logs, and what a lookup from the front finds in
them is another matter.
-/

universe u v

namespace WriteLog

variable {α : Type u} {β : Type v} [DecidableEq α] {log earlier later : List (α × β)} {a : α}
  {b : β}

/-- What was written to a key last. -/
def latest? : List (α × β) → α → Option β
  | [], _ => none
  | entry :: later, a => (latest? later a).or (if entry.1 = a then some entry.2 else none)

/-- The latest write in two parts is in the later one if there is one. -/
theorem latest?_append :
    latest? (earlier ++ later) a = (latest? later a).or (latest? earlier a) := by
  induction earlier with
  | nil => simp [latest?]
  | cons entry earlier ih => rw [List.cons_append, latest?, latest?, ih, Option.or_assoc]

theorem mem_of_latest? (h : latest? log a = some b) : (a, b) ∈ log := by
  induction log with
  | nil => cases h
  | cons entry log ih =>
      rw [latest?, Option.or_eq_some_iff] at h
      obtain h | ⟨-, h⟩ := h
      · exact List.mem_cons_of_mem entry (ih h)
      · split at h
        · rename_i ha
          rw [← ha, ← Option.some.inj h]
          exact List.mem_cons_self
        · cases h

theorem exists_latest? (h : a ∈ log.map Prod.fst) : ∃ b, latest? log a = some b := by
  induction log with
  | nil => cases h
  | cons entry log ih =>
      cases hlater : latest? log a with
      | some b => exact ⟨b, by simp [latest?, hlater]⟩
      | none =>
          rw [List.map_cons, List.mem_cons] at h
          obtain rfl | h := h
          · exact ⟨entry.2, by simp [latest?, hlater]⟩
          · obtain ⟨b, hb⟩ := ih h
            rw [hlater] at hb
            cases hb

/-- A key written to once has what was written to it. -/
theorem mem_iff_latest? (hnodup : (log.map Prod.fst).Nodup) :
    (a, b) ∈ log ↔ latest? log a = some b := by
  refine ⟨fun hmem => ?_, mem_of_latest?⟩
  obtain ⟨b', hb'⟩ := exists_latest? (List.mem_map_of_mem hmem)
  obtain ⟨-, rfl⟩ := Prod.mk.inj
    (List.inj_on_of_nodup_map hnodup hmem (mem_of_latest? hb') rfl)
  exact hb'

/-- The last part of a log has every key once, with what was written to it last, if and only if it
has no key twice and every key of the log. -/
theorem lists_each_once_iff :
    ((later.map Prod.fst).Nodup ∧
        ∀ a b, (a, b) ∈ later ↔ latest? (earlier ++ later) a = some b) ↔
      (later.map Prod.fst).Nodup ∧
        ∀ a ∈ (earlier ++ later).map Prod.fst, a ∈ later.map Prod.fst := by
  refine and_congr_right fun hnodup => ⟨fun h a ha => ?_, fun h a b => ?_⟩
  · obtain ⟨b, hb⟩ := exists_latest? ha
    exact List.mem_map_of_mem ((h a b).mpr hb)
  · rw [mem_iff_latest? hnodup, latest?_append]
    cases hlater : latest? later a with
    | some b' => rw [Option.some_or]
    | none =>
        have hnone : latest? earlier a = none := by
          by_contra hsome
          obtain ⟨b', hb'⟩ := Option.ne_none_iff_exists'.mp hsome
          have ha : a ∈ (earlier ++ later).map Prod.fst := by
            rw [List.map_append]
            exact List.mem_append_left _ (List.mem_map_of_mem (mem_of_latest? hb'))
          obtain ⟨b'', hb''⟩ := exists_latest? (h a ha)
          rw [hlater] at hb''
          cases hb''
        rw [Option.none_or, hnone]

/-- A part with all the keys, each once, has as many entries as there are keys. -/
theorem length_dedup_keys (hnodup : (later.map Prod.fst).Nodup)
    (hall : ∀ a ∈ (earlier ++ later).map Prod.fst, a ∈ later.map Prod.fst) :
    ((earlier ++ later).map Prod.fst).dedup.length = later.length := by
  have hperm : ((earlier ++ later).map Prod.fst).dedup.Perm (later.map Prod.fst) := by
    refine (List.perm_ext_iff_of_nodup (List.nodup_dedup _) hnodup).mpr fun a => ?_
    rw [List.mem_dedup]
    refine ⟨hall a, fun ha => ?_⟩
    rw [List.map_append]
    exact List.mem_append_right _ ha
  rw [hperm.length_eq, List.length_map]

end WriteLog
