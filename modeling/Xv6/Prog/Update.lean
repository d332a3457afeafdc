import Mathlib.Logic.Function.Basic

/-!
# Updating a table

`upd f i v` is `Function.update f i v` for tables whose entries all have one type.  It is defined
without the cast of the dependent version, which keeps the kernel from evaluating a lookup at an
index that is itself computed; proofs rewrite it to `Function.update`.
-/

namespace Xv6

variable {ι β : Type*} [DecidableEq ι]

/-- The table `f` with entry `i` set to `v`. -/
def upd (f : ι → β) (i : ι) (v : β) : ι → β := fun j => if j = i then v else f j

@[simp] theorem upd_eq_update (f : ι → β) (i : ι) (v : β) : upd f i v = Function.update f i v :=
  funext fun j => (Function.update_apply f i v j).symm

theorem upd_self (f : ι → β) (i : ι) : upd f i (f i) = f := by simp

theorem upd_same (f : ι → β) (i : ι) (v : β) : upd f i v i = v := if_pos rfl

theorem upd_of_ne (f : ι → β) {i j : ι} (v : β) (h : j ≠ i) : upd f i v j = f j := if_neg h

theorem upd_forall {F : ι → β → Prop} {f : ι → β} {i : ι} {v : β} (hi : F i v)
    (hj : ∀ j, j ≠ i → F j (f j)) (j : ι) : F j (upd f i v j) := by
  unfold upd
  by_cases h : j = i
  · subst h; simpa using hi
  · simpa [h] using hj j h

theorem upd_idem (f : ι → β) (i : ι) (v w : β) : upd (upd f i v) i w = upd f i w := by
  simp

theorem upd_upd_apply {κ : Type*} [DecidableEq κ] (f : ι → κ → β) (i i' : ι) (k k' : κ) (v : β) :
    upd f i (upd (f i) k v) i' k' = if i' = i ∧ k' = k then v else f i' k' := by
  unfold upd
  by_cases hi : i' = i
  · subst hi; by_cases hk : k' = k <;> simp [hk]
  · simp [hi]

end Xv6
