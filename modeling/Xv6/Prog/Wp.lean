import Mathlib.Logic.Basic

/-!
# Weakest preconditions of actions that can fail

An action of type `EStateM ε σ α` reads and changes a state `σ` and ends with a result or with an
error; the state is kept in both cases.  `wp x Q E s` says that `x`, started in `s`, ends with a
result that satisfies `Q` or with an error that satisfies `E`.  The lemmas below evaluate `wp`
along the structure of an action.
-/

namespace Xv6

variable {ε σ α β : Type}

/-- Started in `s`, the action `x` ends as described by `Q` (results) and `E` (errors). -/
def wp (x : EStateM ε σ α) (Q : α → σ → Prop) (E : ε → σ → Prop) (s : σ) : Prop :=
  match x s with
  | .ok a s' => Q a s'
  | .error e s' => E e s'

/-- The error that an action ended with. -/
def errorOf : EStateM.Result ε σ α → Option ε
  | .ok _ _ => none
  | .error e _ => some e

variable {x : EStateM ε σ α} {Q Q' : α → σ → Prop} {E E' : ε → σ → Prop} {s s' : σ}

theorem wp_of_ok {a : α} (h : x s = .ok a s') (hQ : Q a s') : wp x Q E s := by
  simpa only [wp, h] using hQ

theorem wp_of_error {e : ε} (h : x s = .error e s') (hE : E e s') : wp x Q E s := by
  simpa only [wp, h] using hE

theorem wp_mono (h : wp x Q E s) (hQ : ∀ a s', Q a s' → Q' a s') (hE : ∀ e s', E e s' → E' e s') :
    wp x Q' E' s := by
  unfold wp at h ⊢
  split at h
  · exact hQ _ _ h
  · exact hE _ _ h

/-- The rule of consequence for the results. -/
theorem wp_post (h : wp x Q E s) (hQ : ∀ a s', Q a s' → Q' a s') : wp x Q' E s :=
  wp_mono h hQ fun _ _ => id

/-- The same for an action that does not fail. -/
theorem wp_total (h : wp x Q (fun _ _ => False) s) (hQ : ∀ a s', Q a s' → Q' a s') : wp x Q' E s :=
  wp_mono h hQ fun _ _ => False.elim

theorem wp_congr (h : ∀ a s', Q a s' ↔ Q' a s') : wp x Q E s ↔ wp x Q' E s :=
  ⟨fun hx => wp_post hx fun a s' => (h a s').1,
    fun hx => wp_post hx fun a s' => (h a s').2⟩

theorem wp_and (h : wp x Q E s) (h' : wp x Q' E' s) :
    wp x (fun a s' => Q a s' ∧ Q' a s') (fun e s' => E e s' ∧ E' e s') s := by
  unfold wp at h h' ⊢
  split at h
  · rename_i hx
    rw [hx] at h'
    exact ⟨h, h'⟩
  · rename_i hx
    rw [hx] at h'
    exact ⟨h, h'⟩

theorem wp_true : wp x (fun _ _ => True) (fun _ _ => True) s := by
  unfold wp
  split <;> trivial

/-- An action ends as it ends; with `wp_and` this names the states in the middle of a run. -/
theorem wp_eq : wp x (fun a s' => x s = .ok a s') (fun e s' => x s = .error e s') s := by
  unfold wp
  split <;> assumption

theorem wp.ok {a : α} (h : wp x Q E s) (hx : x s = .ok a s') : Q a s' := by
  simpa only [wp, hx] using h

theorem wp.error {e : ε} (h : wp x Q E s) (hx : x s = .error e s') : E e s' := by
  simpa only [wp, hx] using h

theorem wp.exists_ok (h : wp x Q (fun _ _ => False) s) : ∃ a s', x s = .ok a s' ∧ Q a s' := by
  unfold wp at h
  split at h
  · exact ⟨_, _, ‹_›, h⟩
  · exact h.elim

@[simp] theorem wp_pure {a : α} : wp (pure a) Q E s ↔ Q a s := Iff.rfl

@[simp] theorem wp_bind {f : β → EStateM ε σ α} {y : EStateM ε σ β} :
    wp (y >>= f) Q E s ↔ wp y (fun b s' => wp (f b) Q E s') E s := by
  simp only [wp, bind, EStateM.bind]
  cases y s <;> rfl

/-- The rule for sequences. -/
theorem wp_seq {f : β → EStateM ε σ α} {y : EStateM ε σ β} {R : β → σ → Prop} (h : wp y R E s)
    (hf : ∀ b s', R b s' → wp (f b) Q E s') : wp (y >>= f) Q E s :=
  wp_bind.2 (wp_post h hf)

@[simp] theorem wp_throw {e : ε} : wp (throw e) Q E s ↔ E e s := Iff.rfl

@[simp] theorem wp_get {Q : σ → σ → Prop} : wp (get : EStateM ε σ σ) Q E s ↔ Q s s := Iff.rfl

@[simp] theorem wp_modify {f : σ → σ} {Q : PUnit → σ → Prop} :
    wp (modify f : EStateM ε σ PUnit) Q E s ↔ Q ⟨⟩ (f s) := Iff.rfl

theorem get_bind_apply {f : σ → EStateM ε σ α} : (get >>= f) s = f s s := rfl

theorem modify_bind_apply {g : σ → σ} {f : PUnit → EStateM ε σ α} :
    (modify g >>= f) s = f ⟨⟩ (g s) := rfl

theorem bind_ok {y : EStateM ε σ β} {f : β → EStateM ε σ α} {b : β} (h : y s = .ok b s') :
    (y >>= f) s = f b s' := by
  simp only [bind, EStateM.bind, h]

theorem wp_ite {c : Prop} [Decidable c] {y : EStateM ε σ α} :
    wp (if c then x else y) Q E s ↔ (c → wp x Q E s) ∧ (¬ c → wp y Q E s) := by
  by_cases h : c <;> simp [h]

/-- The invariant rule for a loop over a list: `I l` holds after the rounds for the elements of
`l`. -/
theorem wp_forM {l : List β} {f : β → EStateM ε σ PUnit} (I : List β → σ → Prop) (h0 : I [] s)
    (hstep : ∀ l₁ b l₂ s, l = l₁ ++ b :: l₂ → I l₁ s →
      wp (f b) (fun _ s' => I (l₁ ++ [b]) s') E s) :
    wp (l.forM f) (fun _ s' => I l s') E s := by
  have aux : ∀ l₂ l₁ s, l = l₁ ++ l₂ → I l₁ s → wp (l₂.forM f) (fun _ s' => I l s') E s := by
    intro l₂
    induction l₂ with
    | nil =>
      intro l₁ s hl hI
      rw [List.append_nil] at hl
      exact hl ▸ hI
    | cons b l₂ ih =>
      intro l₁ s hl hI
      rw [List.forM]
      exact wp_seq (hstep l₁ b l₂ s hl hI) fun _ s' h => ih (l₁ ++ [b]) s' (by simp [hl]) h
  exact aux l [] s rfl h0

end Xv6
