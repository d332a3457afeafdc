import Xv6.Prog.Basic

/-!
# The states that a program goes through

`Prog.visits` lists the states in which a program that runs alone performs its operations, with a
flag for the operations that wait.  `Prog.along p V x Q E s` says that `V` holds in all of them, and
that the program ends as `Q` and `E` say, whatever locks are taken; the rules below compose it.
-/

namespace Xv6

namespace Prog

variable {ι σ ε π α β : Type} [DecidableEq ι] [DecidableEq π]

/-- The states of a run alone, each before an operation; the flag is set for a wait. -/
def visits (p : π) : Prog ι σ ε α → σ × Locks ι π → List (Bool × σ × Locks ι π)
  | ret _, _ => []
  | act f k, s => (false, s) ::
    match f s.1 with
    | .ok b s' => visits p (k b) (s', s.2)
    | .error _ _ => []
  | wait f k, s => (true, s) ::
    match f s.1 with
    | some s' => visits p k (s', s.2)
    | none => []
  | acquire i k, s =>
    (false, s) :: if s.2 i = none then visits p k (s.1, upd s.2 i (some p)) else []
  | release i k, s => (false, s) :: visits p k (s.1, upd s.2 i none)
  | holding i k, s => (false, s) :: visits p (k (decide (s.2 i = some p))) s

variable {p : π} {x : Prog ι σ ε α} {f : α → Prog ι σ ε β}

theorem visits_bind (s : σ × Locks ι π) : visits p (x >>= f) s = visits p x s ++
    match seq p x s with
    | .ok a s' => visits p (f a) s'
    | .error _ _ => [] := by
  show visits p (x.bind f) s = _
  induction x generalizing s with
  | ret a => rfl
  | act g k ih =>
    simp only [Prog.bind, visits, seq]
    cases g s.1 with
    | ok b s' => exact congrArg (List.cons _) (ih b _)
    | error e s' => rfl
  | wait g k ih =>
    simp only [Prog.bind, visits, seq]
    cases g s.1 with
    | some s' => exact congrArg (List.cons _) (ih _)
    | none => rfl
  | acquire i k ih =>
    simp only [Prog.bind, visits, seq]
    split_ifs
    · exact congrArg (List.cons _) (ih _)
    · rfl
  | release i k ih => exact congrArg (List.cons _) (ih _)
  | holding i k ih => exact congrArg (List.cons _) (ih _ s)

/-- Along a run alone `V` holds, and the run ends as `Q` and `E` say. -/
def along (p : π) (V : Bool → σ → Prop) (x : Prog ι σ ε α) (Q : α → σ → Prop) (E : Halt ι ε → Prop)
    (s : σ) : Prop :=
  ∀ L : Locks ι π, (∀ v ∈ x.visits p (s, L), V v.1 v.2.1) ∧
    wp (x.seq p) (fun a r => Q a r.1) (fun h _ => E h) (s, L)

variable {V : Bool → σ → Prop} {Q Q' : α → σ → Prop} {E : Halt ι ε → Prop} {s : σ}

theorem along.mono (h : along p V x Q E s) (hQ : ∀ a s', Q a s' → Q' a s') : along p V x Q' E s :=
  fun L => ⟨(h L).1, wp_post (h L).2 fun a r => hQ a r.1⟩

theorem along_pure {a : α} (h : Q a s) : along p V (pure a : Prog ι σ ε α) Q E s :=
  fun _ => ⟨nofun, h⟩

theorem along_bind {Q : β → σ → Prop} (h : along p V x (fun a s' => along p V (f a) Q E s') E s) :
    along p V (x >>= f) Q E s := by
  intro L
  obtain ⟨hV, hw⟩ := h L
  rw [visits_bind, seq_bind, wp_bind]
  cases hx : seq p x (s, L) with
  | error e r =>
    refine ⟨fun v hv => hV v (by simpa using hv), wp_of_error hx ?_⟩
    exact hw.error hx
  | ok a r =>
    obtain ⟨s', L'⟩ := r
    have ha : along p V (f a) Q E s' := hw.ok hx
    refine ⟨fun v hv => ?_, wp_of_ok hx (ha L').2⟩
    rcases List.mem_append.1 hv with hv | hv
    · exact hV v hv
    · exact (ha L').1 v hv

theorem along_lift {g : EStateM ε σ α} (hV : V false s) (h : wp g Q (fun e _ => E (.error e)) s) :
    along p V (liftM g : Prog ι σ ε α) Q E s := by
  intro L
  refine ⟨fun v hv => ?_, wp_lift.2 h⟩
  have hvis : visits p (liftM g : Prog ι σ ε α) (s, L) = [(false, (s, L))] := by
    simp only [liftM, monadLift, MonadLift.monadLift, visits]
    cases g s <;> rfl
  rw [hvis, List.mem_singleton] at hv
  rw [hv]
  exact hV

theorem along_lock {i : ι} {Q : Unit → σ → Prop} (hV : V false s) (hE : E (.blocked i))
    (h : Q () s) :
    along p V (lock i : Prog ι σ ε Unit) Q E s := by
  intro L
  refine ⟨fun v hv => ?_, wp_lock.2 ?_⟩
  · have hvis : visits p (lock i : Prog ι σ ε Unit) (s, L) = [(false, (s, L))] := by
      simp only [lock, visits]
      split_ifs <;> rfl
    rw [hvis, List.mem_singleton] at hv
    rw [hv]
    exact hV
  · split_ifs
    · exact h
    · exact hE

theorem along_unlock {i : ι} {Q : Unit → σ → Prop} (hV : V false s) (h : Q () s) :
    along p V (unlock i : Prog ι σ ε Unit) Q E s := by
  intro L
  refine ⟨fun v hv => ?_, h⟩
  rw [List.mem_singleton.1 hv]
  exact hV

theorem along_holds {i : ι} {Q : Bool → σ → Prop} (hV : V false s) (h : ∀ b, Q b s) :
    along p V (holds i : Prog ι σ ε Bool) Q E s := by
  intro L
  refine ⟨fun v hv => ?_, h _⟩
  rw [List.mem_singleton.1 hv]
  exact hV

theorem along_await {g : σ → Option σ} {Q : Unit → σ → Prop} (hV : V true s) (hE : E .asleep)
    (h : ∀ s', g s = some s' → Q () s') : along p V (await g : Prog ι σ ε Unit) Q E s := by
  intro L
  refine ⟨fun v hv => ?_, wp_await.2 ?_⟩
  · have hvis : visits p (await g : Prog ι σ ε Unit) (s, L) = [(true, (s, L))] := by
      simp only [await, visits]
      cases g s <;> rfl
    rw [hvis, List.mem_singleton] at hv
    rw [hv]
    exact hV
  · dsimp only
    split
    · exact h _ ‹_›
    · exact hE

end Prog

end Xv6
