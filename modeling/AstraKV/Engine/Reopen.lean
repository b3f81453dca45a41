import AstraKV.Engine.Reply

/-!
# AstraKV.Engine.Reopen

Closing an engine and opening another on the same path.

The records are all there, but the new engine starts without metadata, and
the reads that ask it find nothing.

The metadata are only ever in memory. Operations that look for the value first
still find it in the record and register the key again, so what there is after
reopening depends on who asks first. To the reads that ask the metadata
(`Recalls`) nothing is there, and so a key reads the same before and after
exactly if it did not exist before.
-/

namespace AstraKV

open Slot Machine

/-- The reads of a key that ask the metadata first. -/
def Op.Recalls (k : Bytes) : Op → Prop
  | .get key | .existsKey key | .zscore key _ | .hget key _ | .hgetall key => key = k
  | .sismember key _ | .smembers key | .xrange key _ _ _ | .jsonget key _ => key = k
  | _ => False

/-- What recalls a key is about it. -/
theorem Op.Recalls.key {op : Op} {k : Bytes} (h : op.Recalls k) : op.key = some k := by
  cases op <;> first | exact congrArg some h | exact h.elim

/-- To all of them a key that is not valid is absent. -/
theorem Op.Recalls.reply_eq {E : Env} {op : Op} {k : Bytes} (h : op.Recalls k) {c : Call}
    {s s' : Slot E} (hs : s.valid c.now = false) (hs' : s'.valid c.now = false) :
    s.reply c op = s'.reply c op := by
  cases op with
  | get => simp [Slot.reply, hs, hs']
  | existsKey => simp [Slot.reply, hs, hs']
  | zscore => simp [Slot.reply, guarded_absent hs, guarded_absent hs']
  | hget => simp [Slot.reply, guarded_absent hs, guarded_absent hs']
  | hgetall => simp [Slot.reply, guarded_absent hs, guarded_absent hs']
  | sismember => simp [Slot.reply, guarded_absent hs, guarded_absent hs']
  | smembers => simp [Slot.reply, guarded_absent hs, guarded_absent hs']
  | xrange => simp [Slot.reply, guarded_absent hs, guarded_absent hs']
  | jsonget => simp [Slot.reply, guarded_absent hs, guarded_absent hs']
  | _ => exact h.elim

namespace Engine

variable {E : Env}

/-- The engine closed, and one opened on its path. -/
def reopen (e : Engine E) : Engine E := new E e.opts e.rocksdb

/-- After reopening no key is valid. -/
theorem valid_reopen (e : Engine E) (now : Int) (k : Bytes) :
    (e.reopen.slot k).valid now = false := rfl

/-- A key reads the same before and after if and only if it did not exist. -/
theorem reopen_reads_iff (e : Engine E) (c : Call) (k : Bytes) :
    (∀ op, op.Recalls k → (e.reopen.step (c, op)).1 = (e.step (c, op)).1) ↔
      (e.existsKey c k).1 = false := by
  have hexists : (e.existsKey c k).1 = (e.slot k).valid c.now := isValid_fst c.now
  rw [hexists]
  constructor
  · intro h
    have hreply := h (.existsKey k) rfl
    rw [step_reply rfl, step_reply rfl] at hreply
    simpa [Slot.reply, valid_reopen] using hreply.symm
  · intro hvalid op hop
    rw [step_reply hop.key, step_reply hop.key]
    exact hop.reply_eq (valid_reopen e c.now k) hvalid

/-- A byte string written and then sought in a new engine. -/
theorem get_after_reopen :
    ((final step (new Env.bare ⟨[47], 0, .k2Q⟩ (some ∅)) [(.ofNow 5, .put [107] [118])]).step
        (.ofNow 6, .get [107])).1 = .bytesOption (some [118]) ∧
      ((final step (new Env.bare ⟨[47], 0, .k2Q⟩ (some ∅))
        [(.ofNow 5, .put [107] [118])]).reopen.step (.ofNow 6, .get [107])).1 =
          .bytesOption none := by
  decide +kernel

end Engine

end AstraKV
