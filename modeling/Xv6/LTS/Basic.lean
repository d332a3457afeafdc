import Mathlib.Data.List.Basic

/-!
# Transition systems and their runs

A transition system has a labelled step relation; a run is a list of labels together with the
states it leads from and to.  Runs grow at the end, so that an invariant may speak about the
history of the run (`LTS.Run.invariant_history`).

Systems given by an executable step function (`LTS.ofFun`) can be run on concrete labels with
`LTS.exec`; `LTS.run_of_exec` turns such an evaluation into a run.  `LTS.outputs` collects what the
steps of a run show to the outside.

A condition on steps cuts a system down to the steps that meet it (`LTS.restrict`): the runs of
the restricted system are the runs whose steps all meet the condition.
-/

namespace Xv6

open List Option

/-- A labelled transition system. -/
structure LTS (S L : Type*) where
  /-- `step s l s'` : performing `l` in `s` may lead to `s'`. -/
  step : S → L → S → Prop

/-- A step function that is guarded by `p`. -/
theorem guard_eq_some {S : Type*} {p : Prop} [Decidable p] {s s' : S} :
    (if p then some s else none) = some s' ↔ p ∧ s = s' := by
  simp

namespace LTS

variable {S L : Type*}

/-- `A.Run s ls s'` : performing the labels `ls` one after the other leads from `s` to `s'`. -/
inductive Run (A : LTS S L) (s : S) : List L → S → Prop
  | nil : Run A s [] s
  | snoc {ls : List L} {l : L} {s₁ s₂ : S} : Run A s ls s₁ → A.step s₁ l s₂ → Run A s (ls ++ [l]) s₂

/-- The steps of `A` that meet the condition `C`. -/
def restrict (A : LTS S L) (C : S → L → Prop) : LTS S L where
  step s l s' := A.step s l s' ∧ C s l

/-- The system of an executable step function. -/
def ofFun (f : S → L → Option S) : LTS S L where
  step s l s' := f s l = some s'

/-- Run an executable step function. -/
def exec (f : S → L → Option S) : S → List L → Option S
  | s, [] => some s
  | s, l :: ls => (f s l).bind fun s' => exec f s' ls

/-- What the steps of a run put out, one after the other. -/
def outputs {O : Type*} (f : S → L → Option S) (out : S → L → List O) : S → List L → List O
  | _, [] => []
  | s, l :: ls => out s l ++ (f s l).elim [] fun s' => outputs f out s' ls

variable {A : LTS S L} {s s' s'' : S} {ls ls' : List L} {l : L}

namespace Run

theorem single (h : A.step s l s') : A.Run s [l] s' := snoc nil h

theorem append (h : A.Run s ls s') (h' : A.Run s' ls' s'') : A.Run s (ls ++ ls') s'' := by
  induction h' with
  | nil => simpa using h
  | snoc _ hst ih => rw [← append_assoc]; exact ih.snoc hst

theorem cons (h : A.step s l s') (h' : A.Run s' ls s'') : A.Run s (l :: ls) s'' :=
  (single h).append h'

/-- A predicate on the history and the state that holds initially and is preserved by every step
holds after every run. -/
theorem invariant_history {I : List L → S → Prop} (h : A.Run s ls s') (h0 : I [] s)
    (hstep : ∀ ls s₁ l s₂, A.Run s ls s₁ → I ls s₁ → A.step s₁ l s₂ → I (ls ++ [l]) s₂) :
    I ls s' := by
  induction h with
  | nil => exact h0
  | snoc hr hst ih => exact hstep _ _ _ _ hr ih hst

theorem invariant {I : S → Prop} (h : A.Run s ls s') (h0 : I s)
    (hstep : ∀ s₁ l s₂, I s₁ → A.step s₁ l s₂ → I s₂) : I s' :=
  h.invariant_history (I := fun _ => I) h0 fun _ _ _ _ _ => hstep _ _ _

theorem of_restrict {C : S → L → Prop} (h : (A.restrict C).Run s ls s') : A.Run s ls s' := by
  induction h with
  | nil => exact nil
  | snoc _ hst ih => exact ih.snoc hst.1

theorem split {xs ys : List L} (h : A.Run s (xs ++ ys) s') :
    ∃ s₁, A.Run s xs s₁ ∧ A.Run s₁ ys s' := by
  generalize hz : xs ++ ys = zs at h
  induction h generalizing ys with
  | nil =>
    obtain ⟨rfl, rfl⟩ := append_eq_nil_iff.1 hz
    exact ⟨s, nil, nil⟩
  | @snoc ls l s₁ s₂ hr hst ih =>
    rcases eq_nil_or_concat ys with rfl | ⟨ys', y, rfl⟩
    · rw [append_nil] at hz
      exact ⟨s₂, hz ▸ hr.snoc hst, nil⟩
    rw [concat_eq_append, ← append_assoc] at hz
    obtain ⟨h1, h2⟩ := append_inj' hz rfl
    obtain rfl : y = l := by simpa using h2
    obtain ⟨s₀, hx, hy⟩ := ih h1
    exact ⟨s₀, hx, by simpa using hy.snoc hst⟩

theorem eq_of_nil (h : A.Run s [] s') : s' = s := by
  generalize hx : ([] : List L) = xs at h
  cases h with
  | nil => rfl
  | snoc => simp at hx

theorem uncons (h : A.Run s (l :: ls) s') : ∃ s₁, A.step s l s₁ ∧ A.Run s₁ ls s' := by
  rw [← singleton_append] at h
  obtain ⟨s₁, h1, h2⟩ := h.split
  refine ⟨s₁, ?_, h2⟩
  generalize hx : [l] = xs at h1
  cases h1 with
  | nil => cases hx
  | snoc hr hst =>
    rw [← nil_append [l]] at hx
    obtain ⟨rfl, hl⟩ := append_inj' hx rfl
    obtain rfl : l = _ := singleton_inj.1 hl
    rwa [hr.eq_of_nil] at hst

end Run

variable {f : S → L → Option S}

theorem run_of_exec (h : exec f s ls = some s') :
    (ofFun f).Run s ls s' := by
  induction ls generalizing s with
  | nil =>
    obtain rfl : s = s' := by simpa [exec] using h
    exact .nil
  | cons l ls ih =>
    obtain ⟨s₁, h1, h2⟩ := bind_eq_some_iff.1 h
    exact .cons h1 (ih h2)

theorem exec_append :
    exec f s (ls ++ ls') = (exec f s ls).bind fun s' => exec f s' ls' := by
  induction ls generalizing s with
  | nil => rfl
  | cons l ls ih => simp only [cons_append, exec, ih, bind_assoc]

theorem exec_of_run (h : (ofFun f).Run s ls s') : exec f s ls = some s' := by
  induction h with
  | nil => rfl
  | snoc _ hst ih =>
    rw [exec_append, ih, bind_some, exec, show f _ _ = some _ from hst]
    rfl

theorem outputs_snoc {O : Type*} (out : S → L → List O)
    (h : (ofFun f).Run s ls s') (l : L) :
    outputs f out s (ls ++ [l]) = outputs f out s ls ++ out s' l := by
  replace h := exec_of_run h
  induction ls generalizing s with
  | nil =>
    obtain rfl : s = s' := by simpa [exec] using h
    cases hl : f s l <;> simp [outputs, hl]
  | cons x ls ih =>
    obtain ⟨s₁, h1, h2⟩ := bind_eq_some_iff.1 h
    simp only [cons_append, outputs, h1, elim_some, ih h2, append_assoc]

/-- If a step keeps `I` just in case it meets the condition `C`, then the runs of the restricted
system are those along which `I` holds. -/
theorem run_restrict_iff {I : S → Prop} {C : S → L → Prop}
    (h : (ofFun f).Run s ls s') (h0 : I s) (hstep : ∀ ls s₁ l s₂, (ofFun f).Run s ls s₁ → I s₁ →
      f s₁ l = some s₂ → (I s₂ ↔ C s₁ l)) :
    ((ofFun f).restrict C).Run s ls s' ↔ ∀ pre t, pre <+: ls → (ofFun f).Run s pre t → I t := by
  constructor
  · rintro hr pre t ⟨suf, rfl⟩ ht
    obtain ⟨t', hpre, -⟩ := hr.split
    have heq : t' = t :=
      Option.some.inj ((exec_of_run hpre.of_restrict).symm.trans (exec_of_run ht))
    subst heq
    exact hpre.invariant_history (I := fun _ => I) h0 fun ls s₁ l s₂ hr1 hI hst =>
      (hstep ls s₁ l s₂ hr1.of_restrict hI hst.1).2 hst.2
  intro hall
  induction h with
  | nil => exact .nil
  | snoc hr hst ih =>
    have hI := hall _ _ (prefix_append _ _) hr
    have hI' := hall _ _ (prefix_refl _) (hr.snoc hst)
    exact .snoc (ih fun pre t hp => hall pre t (hp.trans (prefix_append _ _)))
      ⟨hst, (hstep _ _ _ _ hr hI hst).1 hI'⟩

theorem run_restrict_of_exec {C : S → L → Prop} [∀ s l, Decidable (C s l)]
    (h : exec (fun s l => if C s l then f s l else none) s ls = some s') :
    ((ofFun f).restrict C).Run s ls s' := by
  induction ls generalizing s with
  | nil =>
    obtain rfl : s = s' := by simpa [exec] using h
    exact .nil
  | cons l ls ih =>
    obtain ⟨s₁, h1, h2⟩ := bind_eq_some_iff.1 h
    by_cases hC : C s l
    · simp only [hC, ↓reduceIte] at h1; exact .cons ⟨h1, hC⟩ (ih h2)
    · simp [hC] at h1

end LTS

end Xv6
