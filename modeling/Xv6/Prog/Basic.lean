import Mathlib.Tactic.SplitIfs
import Xv6.Prog.Update
import Xv6.Prog.Wp

/-!
# Programs with sleep locks

A process that shares a state `σ` and a family of locks `ι` with other processes executes a
program: a tree of atomic actions on the state and of operations on the locks.  What happens
between two lock operations is one action; a schedule interleaves processes at these points.

The same program is given two meanings.  `Prog.seq` runs it alone: acquiring a lock that is taken
blocks for ever, since nobody else will release it.  The interleaving semantics is defined on top
of this file where it is needed.
-/

namespace Xv6

/-- Programs that return an `α`; actions fail with an error `ε`. -/
inductive Prog (ι σ ε : Type) (α : Type) : Type 1
  /-- The program has ended. -/
  | ret (a : α) : Prog ι σ ε α
  /-- An atomic action on the state. -/
  | act {β : Type} (f : EStateM ε σ β) (k : β → Prog ι σ ε α) : Prog ι σ ε α
  /-- Wait until `f` is defined, then change the state by it. -/
  | wait (f : σ → Option σ) (k : Prog ι σ ε α) : Prog ι σ ε α
  /-- Acquire a lock, waiting until it is free. -/
  | acquire (i : ι) (k : Prog ι σ ε α) : Prog ι σ ε α
  /-- Release a lock. -/
  | release (i : ι) (k : Prog ι σ ε α) : Prog ι σ ε α
  /-- Test whether this process holds a lock. -/
  | holding (i : ι) (k : Bool → Prog ι σ ε α) : Prog ι σ ε α

/-- Why a program that runs alone does not return. -/
inductive Halt (ι ε : Type)
  /-- An action failed. -/
  | error (e : ε)
  /-- The program waits for a lock that is taken. -/
  | blocked (i : ι)
  /-- The program waits for the state to change. -/
  | asleep
  deriving DecidableEq

namespace Prog

variable {ι σ ε π α β γ : Type}

/-- Sequential composition. -/
protected def bind : Prog ι σ ε α → (α → Prog ι σ ε β) → Prog ι σ ε β
  | ret a, f => f a
  | act g k, f => act g fun b => (k b).bind f
  | wait g k, f => wait g (k.bind f)
  | acquire i k, f => acquire i (k.bind f)
  | release i k, f => release i (k.bind f)
  | holding i k, f => holding i fun b => (k b).bind f

instance : Monad (Prog ι σ ε) where
  pure := ret
  bind := Prog.bind

/-- An action as a program. -/
instance : MonadLift (EStateM ε σ) (Prog ι σ ε) where
  monadLift f := act f ret

/-- Wait for the state to change and go on. -/
def await (f : σ → Option σ) : Prog ι σ ε Unit := wait f (ret ())

/-- Acquire a lock and go on. -/
def lock (i : ι) : Prog ι σ ε Unit := acquire i (ret ())

/-- Release a lock and go on. -/
def unlock (i : ι) : Prog ι σ ε Unit := release i (ret ())

/-- Does this process hold the lock? -/
def holds (i : ι) : Prog ι σ ε Bool := holding i ret

/-- The holders of the locks. -/
abbrev Locks (ι π : Type) := ι → Option π

variable [DecidableEq ι] [DecidableEq π]

/-- Run a program alone, as process `p`. -/
def seq (p : π) : Prog ι σ ε α → EStateM (Halt ι ε) (σ × Locks ι π) α
  | ret a => pure a
  | act f k => fun s =>
    match f s.1 with
    | .ok b s' => seq p (k b) (s', s.2)
    | .error e s' => .error (.error e) (s', s.2)
  | wait f k => fun s =>
    match f s.1 with
    | some s' => seq p k (s', s.2)
    | none => .error .asleep s
  | acquire i k => fun s =>
    if s.2 i = none then seq p k (s.1, upd s.2 i (some p)) else .error (.blocked i) s
  | release i k => fun s => seq p k (s.1, upd s.2 i none)
  | holding i k => fun s => seq p (k (decide (s.2 i = some p))) s

variable {p : π} {x : Prog ι σ ε α} {f : α → Prog ι σ ε β} {s : σ × Locks ι π}

@[simp] theorem seq_pure (a : α) : seq p (pure a : Prog ι σ ε α) = pure a := rfl

@[simp] theorem seq_bind : seq p (x >>= f) = seq p x >>= fun a => seq p (f a) := by
  have aux : ∀ (x : Prog ι σ ε α) (s : σ × Locks ι π),
      seq p (x.bind f) s = (seq p x >>= fun a => seq p (f a)) s := by
    intro x
    induction x with
    | ret a => intro s; rfl
    | act g k ih =>
      intro s
      simp only [Prog.bind, seq, bind, EStateM.bind]
      cases g s.1 with
      | ok b s' => exact ih b (s', s.2)
      | error e s' => rfl
    | wait g k ih =>
      intro s
      simp only [Prog.bind, seq, bind, EStateM.bind]
      cases g s.1 with
      | some s' => exact ih (s', s.2)
      | none => rfl
    | acquire i k ih =>
      intro s
      simp only [Prog.bind, seq, bind, EStateM.bind]
      split_ifs
      · exact ih _
      · rfl
    | release i k ih => intro s; exact ih _
    | holding i k ih => intro s; exact ih _ s
  exact funext fun s => aux x s

section Wp

variable {Q : α → σ × Locks ι π → Prop} {E : Halt ι ε → σ × Locks ι π → Prop}

/-- An action runs on the state and leaves the locks alone. -/
theorem wp_lift {g : EStateM ε σ α} :
    wp (seq p (monadLift g : Prog ι σ ε α)) Q E s ↔
      wp g (fun a s' => Q a (s', s.2)) (fun e s' => E (.error e) (s', s.2)) s.1 := by
  simp only [monadLift, MonadLift.monadLift, wp, seq]
  cases g s.1 <;> rfl

theorem wp_await {g : σ → Option σ} {Q : Unit → σ × Locks ι π → Prop} :
    wp (seq p (await g : Prog ι σ ε Unit)) Q E s ↔
      match g s.1 with
      | some s' => Q () (s', s.2)
      | none => E .asleep s := by
  simp only [await, wp, seq]
  cases g s.1 <;> rfl

theorem wp_lock {i : ι} {Q : Unit → σ × Locks ι π → Prop} :
    wp (seq p (lock i : Prog ι σ ε Unit)) Q E s ↔
      if s.2 i = none then Q () (s.1, upd s.2 i (some p)) else E (.blocked i) s := by
  simp only [lock, wp, seq]
  split_ifs <;> rfl

theorem wp_unlock {i : ι} {Q : Unit → σ × Locks ι π → Prop} :
    wp (seq p (unlock i : Prog ι σ ε Unit)) Q E s ↔ Q () (s.1, upd s.2 i none) :=
  Iff.rfl

theorem wp_holds {i : ι} {Q : Bool → σ × Locks ι π → Prop} :
    wp (seq p (holds i : Prog ι σ ε Bool)) Q E s ↔ Q (decide (s.2 i = some p)) s := Iff.rfl

end Wp

end Prog

end Xv6
