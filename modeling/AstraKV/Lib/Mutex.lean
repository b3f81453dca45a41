import Mathlib

/-!
# AstraKV.Lib.Mutex

Methods of an object behind a lock that cannot be taken twice.

A method knows whether its caller holds the lock already.  One that takes the
lock while it is held never returns, which is `none`.

So a method that calls another one of the same object under its lock has no
result, however short the inner one is; a method is called from outside with
the lock free. Waiting for another thread is not part of it.
-/

universe u v

/-- A method on a state, with its answer. -/
abbrev Method (σ : Type u) (α : Type v) : Type (max u v) := Bool → σ → Option (α × σ)

namespace Method

variable {σ : Type u} {α : Type v}

/-- A scoped lock around the body, which runs with the lock held. -/
def locked (body : Method σ α) : Method σ α := fun held s => if held then none else body true s

/-- Call a method for one item after another, and fold the answers. -/
def forEach {ι : Type*} {β : Type*} (call : ι → Method σ β) (take : α → β → α) :
    List ι → α → Method σ α
  | [], a => fun _ s => some (a, s)
  | i :: is, a => fun held s =>
      match call i held s with
      | none => none
      | some (b, s) => forEach call take is (take a b) held s

variable {body : Method σ α} {s : σ}

/-- Under its own lock a method does not get in. -/
@[simp] theorem locked_held : locked body true s = none := rfl

/-- With the lock free it runs its body and holds it meanwhile. -/
@[simp] theorem locked_free : locked body false s = body true s := rfl

/-- A loop that holds the lock comes to its end only if it calls no method that takes it. -/
theorem forEach_locked_held {ι : Type*} {β : Type*} {call : ι → Method σ β} {take : α → β → α}
    {is : List ι} {a : α} (hcall : ∀ i s, call i true s = none) :
    (forEach call take is a true s).isSome ↔ is = [] := by
  cases is with
  | nil => simp [forEach]
  | cons i is => simp [forEach, hcall]

end Method
