import AstraKV.Engine.ReadBack

/-!
# AstraKV.Engine.JsonPath

`jsonset` and the path it is given.

`jsonget` follows the path and `jsondel` refuses all but the root; `jsonset`
takes any path and puts its value in the place of the whole document.

The parser is a parameter, a library that returns a document or none, gives
the text of a document, and follows a pointer in it. The hypothesis on it is
that a document has other text than its proper parts (`Pointers`), without
which nobody could tell that the wrong thing was stored. What `jsonset` stores
is the value it was given; where the path is the root this is what was asked
for.
-/

namespace AstraKV

open Slot Machine

/-- What is relied on in RFC 6901 pointers: one that is not empty leads into the document, to a part
with a shorter text. -/
structure SimdJson.Pointers (S : SimdJson) : Prop where
  shorter : ∀ {doc part : S.Doc} {path : Bytes}, path ≠ [] → S.atPointer doc path = some part →
    (S.toString part).length < (S.toString doc).length

namespace Engine

variable {E : Env} {e : Engine E} {c c' : Call} {key path json : Bytes} {doc : E.simdjson.Doc}

/-! ## parts of documents -/

/-- The text at a path of the document under a key, in its map or in its record. -/
def partAt (e : Engine E) (key path : Bytes) : Option Bytes :=
  (e.getOrCreateJson key).1.bind (jsonText E path)

/-- Neither of two pointers leads to the other one's part. -/
def Outside (path q : Bytes) : Prop :=
  isRoot path = false ∧ isRoot q = false ∧ q ≠ path ∧ ¬ path ++ [47] <+: q ∧ ¬ q ++ [47] <+: path

/-- A call of `jsonset` does what it says: its answer is true once the value is at the path and the
other parts are where they were, and false if the document is as it was. -/
structure SetsPath (e : Engine E) (c : Call) (key path json : Bytes) (doc : E.simdjson.Doc) :
    Prop where
  reads : (e.jsonset c key path json).1 = true → ∀ c' : Call, c'.now = c.now →
    ((e.jsonset c key path json).2.jsonget c' key path).1 = some (E.simdjson.toString doc)
  keeps : (e.jsonset c key path json).1 = true → ∀ q part, Outside path q →
    e.partAt key q = some part → (e.jsonset c key path json).2.partAt key q = some part
  refuses : (e.jsonset c key path json).1 = false →
    (e.jsonset c key path json).2.find .kJson key = e.find .kJson key ∧
      (e.jsonset c key path json).2.rocksGet key = e.rocksGet key

/-! ## what is read -/

/-- `jsonget` reads the path in the text stored. -/
theorem jsonget_fst (e : Engine E) (c : Call) (key path : Bytes) :
    (e.jsonget c key path).1 = (e.slot key).guarded c .kJson 0 none (jsonText E path) :=
  (getOrCreateJson_fetches e c key).guarded_fst _ rfl

/-- The document is the one set last, whatever path it was set at. -/
theorem jsonget_jsonset (hdoc : E.simdjson.parse json = some doc) (hnow : c'.now = c.now)
    (place : Bytes) :
    ((e.jsonset c key place json).2.jsonget c' key path).1 =
      if e.Writable c key .kJson then jsonText E path json else none := by
  have hslot := (jsonset_leaves e c key place json).slot_self
  simp only [Op.shape, hdoc, Option.isSome_some, if_true] at hslot
  rw [jsonget_fst, hslot, guarded_edit hnow]
  simp only [writable_iff]
  rfl

/-- The root gives the whole document. -/
theorem jsonText_root (hdoc : E.simdjson.parse json = some doc) (hroot : isRoot path = true) :
    jsonText E path json = some (E.simdjson.toString doc) := by
  simp [jsonText, hdoc, hroot]

/-- Any other path gives something else. -/
theorem jsonText_ne (hpointers : E.simdjson.Pointers) (hdoc : E.simdjson.parse json = some doc)
    (hroot : isRoot path = false) : jsonText E path json ≠ some (E.simdjson.toString doc) := by
  have hne : path ≠ [] := by
    rintro rfl
    simp [isRoot] at hroot
  intro htext
  simp only [jsonText, hdoc, hroot, Bool.false_eq_true, if_false, Option.bind_eq_bind,
    Option.bind_some] at htext
  obtain ⟨part, hpart, htext⟩ := Option.map_eq_some_iff.mp htext
  have hlt := hpointers.shorter hne hpart
  rw [htext] at hlt
  exact lt_irrefl _ hlt

/-! ## what jsonset does -/

/-- It does what it says at the root of a key that it registers or finds valid, and nowhere else. -/
theorem jsonset_sets_iff (hpointers : E.simdjson.Pointers)
    (hdoc : E.simdjson.parse json = some doc) (e : Engine E) (c : Call) (key path : Bytes) :
    e.SetsPath c key path json doc ↔ isRoot path = true ∧ e.Writable c key .kJson := by
  have htrue : (e.jsonset c key path json).1 = true := by
    rw [jsonset_fst, hdoc]
    rfl
  constructor
  · intro h
    have hread := h.reads htrue c rfl
    rw [jsonget_jsonset hdoc rfl] at hread
    split at hread
    · refine ⟨?_, ‹_›⟩
      cases hroot : isRoot path with
      | true => rfl
      | false => exact absurd hread (jsonText_ne hpointers hdoc hroot)
    · contradiction
  · rintro ⟨hroot, hwritable⟩
    refine ⟨fun _ c' hnow => ?_, fun _ q part hout => ?_, fun hfalse => ?_⟩
    · rw [jsonget_jsonset hdoc hnow, if_pos hwritable, jsonText_root hdoc hroot]
    · -- nothing is outside the root
      have hpath := hout.1
      rw [hroot] at hpath
      contradiction
    · rw [htrue] at hfalse
      contradiction

end Engine

/-! ## a document with two members -/

/-- The text of an object whose members `a` and `b` are 1 and 2. -/
def twoMembers : Bytes := [123, 34, 97, 34, 58, 49, 44, 34, 98, 34, 58, 50, 125]

/-- `simdjson` on that text and on the digits. -/
def SimdJson.sample : SimdJson where
  Doc := Bytes
  parse := fun text =>
    if text = twoMembers ∨ text = [49] ∨ text = [50] ∨ text = [51] then some text else none
  atPointer := fun doc path =>
    if doc = twoMembers then
      if path = [47, 97] then some [49] else if path = [47, 98] then some [50] else none
    else none
  toString := id

def Env.sample : Env := { Env.bare with simdjson := .sample }

theorem SimdJson.sample_pointers : SimdJson.sample.Pointers := by
  refine ⟨fun {doc part path} hne hpart => ?_⟩
  have hparts : doc = twoMembers ∧ (part = ([49] : Bytes) ∨ part = ([50] : Bytes)) := by
    simp only [SimdJson.sample] at hpart
    grind
  obtain ⟨rfl, rfl | rfl⟩ := hparts <;> decide

namespace Engine

theorem jsonset_sets_root :
    (new Env.sample ⟨[], 0, .k2Q⟩ none).SetsPath (.ofNow 5) [107] [] [51]
      ([51] : SimdJson.sample.Doc) :=
  (jsonset_sets_iff (E := Env.sample) SimdJson.sample_pointers rfl _ _ _ _).mpr
    ⟨by decide, .inl (by decide)⟩

/-- Setting one member of two drops both. -/
theorem jsonset_drops_members :
    ¬ (final step (new Env.sample ⟨[], 0, .k2Q⟩ none)
      [(.ofNow 5, .jsonset [107] [] twoMembers)]).SetsPath (.ofNow 5) [107] [47, 97] [51]
        ([51] : SimdJson.sample.Doc) := by
  intro h
  have hread := h.reads (by decide +kernel) (.ofNow 5) rfl
  revert hread
  decide +kernel

end Engine

end AstraKV
