import AstraKV.Engine.Tracked
import AstraKV.Lib.Projection

/-!
# AstraKV.Engine.Isolation

The keys of an engine do not see each other.  As long as a key is neither
expired nor in danger of eviction, what is answered about it and what becomes
of it are those of a machine that has this key alone.

The machine with one key is its slot, acted on by the operations about that
key and by no others. Keys can meet only in the pass at the end of a write,
which looks at all of them, and in the listing of the byte strings; the first
is what the condition excludes, the second is not about a key. So a run seen
from one key is a projection in the sense of `AstraKV.Lib.Projection`.
-/

namespace AstraKV

open Slot Machine

/-- One key as a machine of its own. -/
def Slot.step {E : Env} (disk : Bool) (s : Slot E) (i : Call × Op) : Reply × Slot E :=
  (s.reply i.1 i.2, s.act i.1 disk (i.2.shape E i.1))

namespace Engine

variable {E : Env} {e e' : Engine E} {c : Call} {op : Op} {k : Bytes}

/-- The operation is about the key. -/
def about (k : Bytes) (i : Call × Op) : Bool := i.2.key = some k

/-- The operation leaves the key with no deadline before the clock reading. -/
def Unexpired (k : Bytes) (e : Engine E) (i : Call × Op) : Prop :=
  (e.acted i.1 i.2 k).expired i.1.now = false

instance (k : Bytes) (e : Engine E) (i : Call × Op) : Decidable (Unexpired k e i) :=
  inferInstanceAs (Decidable (_ = _))

/-- The step neither finds the key expired nor evicts it. -/
def Spared (k : Bytes) (e : Engine E) (i : Call × Op) : Prop := Unexpired k e i ∧ Unevicted k e i

/-- The pass leaves the key alone. -/
theorem slot_step_of_spared (h : Spared k e (c, op)) :
    (e.step (c, op)).2.slot k = e.acted c op k := by
  refine (slot_step_of_unevicted h.2).resolve_right fun hexpired => ?_
  exact Bool.false_ne_true (h.1.symm.trans hexpired.1)

/-- The engine at one key is the machine that has this key alone, as long as the key is spared: the
operations about it answer and act alike, and the others leave it. -/
theorem slot_projects (disk : Bool) (k : Bytes) :
    Projects (fun (e : Engine E) i => e.disk = disk ∧ Spared k e i)
      (about k) (fun e => e.slot k) step (Slot.step disk) where
  output := by
    rintro e ⟨c, op⟩ - hkey
    exact step_reply (of_decide_eq_true hkey)
  next := by
    rintro e ⟨c, op⟩ ⟨rfl, hspared⟩ hkey
    rw [slot_step_of_spared hspared, acted_self (of_decide_eq_true hkey)]
    rfl
  rest := by
    rintro e ⟨c, op⟩ ⟨-, hspared⟩ hkey
    rw [slot_step_of_spared hspared, acted_of_ne (of_decide_eq_false hkey)]

/-- RocksDB stays there, or stays away, for the whole run. -/
theorem along_disk {ops : List (Call × Op)} (h : Along step (Spared k) e ops) :
    Along step (fun e' i => e'.disk = e.disk ∧ Spared k e' i) e ops :=
  along_invariant (I := fun e' : Engine E => e'.disk = e.disk)
    (fun e₁ i h₁ _ => (step_steps e₁ i.1 i.2).disk.trans h₁) (fun _ _ h₁ hspared => ⟨h₁, hspared⟩)
    rfl h

/-- Without a limit only expiry counts. -/
theorem along_spared (hmax : e.opts.maxMb = 0) {ops : List (Call × Op)}
    (h : Along step (Unexpired k) e ops) : Along step (Spared k) e ops :=
  along_invariant (I := fun e' : Engine E => e'.opts.maxMb = 0)
    (fun e₁ i h₁ _ => (step_steps e₁ i.1 i.2).maxMb.trans h₁)
    (fun _ _ h₁ hlive => ⟨hlive, unevicted_of_opts (.inl h₁)⟩) hmax h

/-- **Keys are isolated.**  Two runs that do the same to a key, with the same of it to begin with,
give the same answers about it and leave the same of it, whatever else they do to other keys and in
whatever order, if no step finds the key expired or evicts it. -/
theorem keys_isolated {ops ops' : List (Call × Op)} (hdisk : e'.disk = e.disk)
    (hslot : e.slot k = e'.slot k) (hsame : ops.filter (about k) = ops'.filter (about k))
    (hspared : Along step (Spared k) e ops) (hspared' : Along step (Spared k) e' ops') :
    outputsAt (about k) ops (run step e ops).1 = outputsAt (about k) ops' (run step e' ops').1 ∧
      (final step e ops).slot k = (final step e' ops').slot k := by
  have halong := along_disk hspared'
  rw [hdisk] at halong
  exact (slot_projects e.disk k).run_congr hslot hsame (along_disk hspared) halong

/-- Another key is written and removed in between. -/
theorem keys_isolated_put :
    let e : Engine Env.bare := new .bare ⟨[], 0, .k2Q⟩ none
    let c := Call.ofNow 7
    let ops := [(c, Op.put [1] [5]), (c, .put [2] [6]), (c, .del [2]), (c, .get [1])]
    outputsAt (about [1]) ops (run step e ops).1 = [.bool true, .bytesOption (some [5])] := by
  intro e c ops
  have hops : Along step (Spared [1]) e ops := along_spared rfl (by decide +kernel)
  have hops' : Along step (Spared [1]) e [(c, .put [1] [5]), (c, .get [1])] :=
    along_spared rfl (by decide +kernel)
  have hsame : ops.filter (about [1]) =
      List.filter (about [1]) [(c, Op.put [1] [5]), (c, .get [1])] := rfl
  exact (keys_isolated rfl rfl hsame hops hops').1.trans (by decide +kernel)

end Engine

end AstraKV
