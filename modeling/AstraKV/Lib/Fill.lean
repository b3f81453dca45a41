import AstraKV.Lib.Framed

/-!
# AstraKV.Lib.Fill

A buffer that is allocated once and filled from the front.

A copy that leaves the allocation gives `none`.  `Writes f bs` says of a piece
of code that it copies `bs` to where the pointer stands, whatever is in the
memory, when there is room for it; pieces compose as their bytes do.
-/

universe u

open LittleEndian Framed

structure Filling where
  buf : Bytes
  wptr : Nat

namespace Filling

variable {α : Type u} {f g : Filling → Option Filling} {as bs : Bytes}

/-- `memcpy(wptr, bs.data(), bs.size()); wptr += bs.size()`. -/
def memcpy (bs : Bytes) (w : Filling) : Option Filling :=
  if w.wptr + bs.length ≤ w.buf.length then
    some ⟨w.buf.take w.wptr ++ bs ++ w.buf.drop (w.wptr + bs.length), w.wptr + bs.length⟩
  else none

/-- The length in 32 bits, and as many bytes as that says. -/
def copyBytes (bs : Bytes) (w : Filling) : Option Filling := do
  let w ← memcpy (put 4 bs.length) w
  memcpy (bs.take (bs.length % 2 ^ 32)) w

/-- A loop over a container. -/
def copyEach (copy : α → Filling → Option Filling) : List α → Filling → Option Filling
  | [], w => some w
  | a :: as, w => copy a w >>= copyEach copy as

/-- What the code leaves where the pointer stood, before the rest of the memory. -/
def Writes (f : Filling → Option Filling) (bs : Bytes) : Prop :=
  ∀ done junk : Bytes, bs.length ≤ junk.length →
    f ⟨done ++ junk, done.length⟩ =
      some ⟨done ++ bs ++ junk.drop bs.length, (done ++ bs).length⟩

/-- A copy writes its bytes. -/
theorem writes_memcpy (bs : Bytes) : Writes (memcpy bs) bs := by
  intro done junk hroom
  have hdrop : (done ++ junk).drop (done.length + bs.length) = junk.drop bs.length := by
    rw [List.drop_append]
    simp
  have hroom' : done.length + bs.length ≤ (done ++ junk).length := by simpa using hroom
  rw [memcpy, if_pos hroom', List.take_left, hdrop, List.length_append]

/-- Two pieces of code write their bytes one after the other. -/
theorem Writes.bind (hf : Writes f as) (hg : Writes g bs) :
    Writes (fun w => f w >>= g) (as ++ bs) := by
  intro done junk hroom
  rw [List.length_append] at hroom
  have hrest : bs.length ≤ (junk.drop as.length).length := by
    rw [List.length_drop]
    omega
  have hfirst := hf done junk (by omega)
  have hsecond := hg (done ++ as) (junk.drop as.length) hrest
  simp only [hfirst, hsecond, Option.bind_eq_bind, Option.bind_some]
  simp

/-- A string is written behind its length. -/
theorem writes_copyBytes (bs : Bytes) : Writes (copyBytes bs) (putBytes bs) :=
  (writes_memcpy _).bind (writes_memcpy _)

/-- A loop writes the bytes of its items in their order. -/
theorem writes_copyEach {copy : α → Filling → Option Filling} {write : α → Bytes}
    (h : ∀ a, Writes (copy a) (write a)) (as : List α) :
    Writes (copyEach copy as) (as.flatMap write) := by
  induction as with
  | nil => intro done junk hroom; simp [copyEach]
  | cons a as ih => exact (h a).bind ih

/-- An allocation of just the right size has the bytes and nothing else. -/
theorem Writes.fill {junk : Bytes} (h : Writes f bs) (hsize : junk.length = bs.length) :
    f ⟨junk, 0⟩ = some ⟨bs, bs.length⟩ := by
  have hfill := h [] junk hsize.ge
  have hrest : junk.drop bs.length = [] := List.drop_eq_nil_of_le hsize.le
  simpa [hrest] using hfill

end Filling
