import Xv6.Prog.Update

/-!
# A table that names what is in use

`Names f U` : the entries of the table `f` name exactly the elements of `U`, each of them in one
place.  An unused element can be named in an empty place (`Names.insert`), and one is no longer in
use when its place is cleared (`Names.remove`).
-/

namespace Xv6

variable {ι β : Type*} {f f' : ι → Option β} {U U' : β → Prop} {i : ι} {b : β}

/-- The entries of `f` name the elements of `U`, each in one place. -/
structure Names (f : ι → Option β) (U : β → Prop) : Prop where
  inj : ∀ i j b, f i = some b → f j = some b → i = j
  used : ∀ b, U b ↔ ∃ i, f i = some b

namespace Names

theorem congr (h : Names f U) (hf : ∀ i, f' i = f i) (hU : ∀ b, U' b ↔ U b) : Names f' U' := by
  obtain rfl : f' = f := funext hf
  exact ⟨h.inj, fun b => (hU b).trans (h.used b)⟩

variable [DecidableEq ι]

theorem insert (h : Names f U) (hi : f i = none) (hb : ¬ U b) (hU : ∀ c, U' c ↔ c = b ∨ U c) :
    Names (upd f i (some b)) U' := by
  have hfresh : ∀ j, f j ≠ some b := fun j hj => hb ((h.used b).2 ⟨j, hj⟩)
  refine ⟨fun j k c hj hk => ?_, fun c => ?_⟩
  · by_cases hji : j = i <;> by_cases hki : k = i
    · rw [hji, hki]
    · rw [hji, upd_same] at hj
      rw [upd_of_ne _ _ hki, ← hj] at hk
      exact absurd hk (hfresh k)
    · rw [hki, upd_same] at hk
      rw [upd_of_ne _ _ hji, ← hk] at hj
      exact absurd hj (hfresh j)
    · rw [upd_of_ne _ _ hji] at hj
      rw [upd_of_ne _ _ hki] at hk
      exact h.inj j k c hj hk
  · rw [hU, h.used]
    constructor
    · rintro (rfl | ⟨j, hj⟩)
      · exact ⟨i, upd_same ..⟩
      · exact ⟨j, (upd_of_ne _ _ (by rintro rfl; rw [hi] at hj; cases hj)).trans hj⟩
    rintro ⟨j, hj⟩
    by_cases hji : j = i
    · rw [hji, upd_same] at hj
      exact .inl (Option.some.inj hj).symm
    · exact .inr ⟨j, (upd_of_ne _ _ hji).symm.trans hj⟩

theorem remove (h : Names f U) (hi : f i = some b) (hU : ∀ c, U' c ↔ c ≠ b ∧ U c) :
    Names (upd f i none) U' := by
  have hold : ∀ j c, upd f i none j = some c → j ≠ i ∧ f j = some c := fun j c hj => by
    by_cases hji : j = i
    · rw [hji, upd_same] at hj
      cases hj
    · exact ⟨hji, (upd_of_ne _ _ hji).symm.trans hj⟩
  refine ⟨fun j k c hj hk => h.inj j k c (hold j c hj).2 (hold k c hk).2, fun c => ?_⟩
  rw [hU, h.used]
  constructor
  · rintro ⟨hc, j, hj⟩
    have hji : j ≠ i := by rintro rfl; exact hc (Option.some.inj (hj.symm.trans hi))
    exact ⟨j, (upd_of_ne _ _ hji).trans hj⟩
  · rintro ⟨j, hj⟩
    obtain ⟨hji, hj⟩ := hold j c hj
    exact ⟨by rintro rfl; exact hji (h.inj j i c hj hi), j, hj⟩

end Names

end Xv6
