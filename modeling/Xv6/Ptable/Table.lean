import Mathlib.Data.List.Basic
import Mathlib.Tactic.SplitIfs
import Xv6.Ptable.Protocol

/-!
# The functions of `proc.c` on the process table

One specification for each function that changes entries of other processes:

* `wakeup1_spec` : the sleepers on a channel become `RUNNABLE`, and nobody sleeps on it any more.
* `exitTable_spec` : what `exit` does under `ptable.lock`: its parent is awake, its children belong
  to init, and init is awake if it has been passed a zombie.
* `kill_spec` : `kill` touches one slot, and only if it carries the pid.
-/

namespace Xv6

namespace Ptable

/-- The first slot that satisfies a test satisfies it. -/
theorem first_some {f : ℕ → Bool} {i : ℕ} (h : first f = some i) : i < nproc ∧ f i = true :=
  ⟨List.mem_range.1 (List.mem_of_find?_eq_some h), List.find?_some h⟩

theorem first_none {f : ℕ → Bool} (h : first f = none) {i : ℕ} (hi : i < nproc) : f i = false := by
  simpa using List.find?_eq_none.1 h i (List.mem_range.2 hi)

/-- The process may have been woken, and may have been given another parent. -/
structure Wakes (p p' : Proc) : Prop where
  rest : p' = { p with parent := p'.parent, state := p'.state }
  state : p'.state = p.state ∨ p.state = .sleeping ∧ p'.state = .runnable

namespace Wakes

variable {p q r : Proc}

theorem refl (p : Proc) : Wakes p p := ⟨rfl, .inl rfl⟩

theorem trans (h : Wakes p q) (h' : Wakes q r) : Wakes p r := by
  refine ⟨?_, ?_⟩
  · have h1 := h.rest
    have h2 := h'.rest
    rw [h1] at h2
    simpa using h2
  rcases h'.state with h2 | ⟨h2, h3⟩ <;> rcases h.state with h1 | ⟨h1, h4⟩
  · exact .inl (h2.trans h1)
  · exact .inr ⟨h1, h2.trans h4⟩
  · exact .inr ⟨h1 ▸ h2, h3⟩
  · exact .inr ⟨h1, h3⟩

theorem pid (h : Wakes p q) : q.pid = p.pid := by rw [h.rest]

theorem chan (h : Wakes p q) : q.chan = p.chan := by rw [h.rest]

theorem killed (h : Wakes p q) : q.killed = p.killed := by rw [h.rest]

theorem pc (h : Wakes p q) : q.pc = p.pc := by rw [h.rest]

theorem task (h : Wakes p q) : q.task = p.task := by rw [h.rest]

theorem born (h : Wakes p q) : q.born = p.born := by rw [h.rest]

theorem sleeping (h : Wakes p q) (hq : q.state = .sleeping) : p.state = .sleeping := by
  rcases h.state with hs | ⟨hs, -⟩
  · exact hs ▸ hq
  · exact hs

/-- States other than `SLEEPING` and `RUNNABLE` stay as they are. -/
theorem state_iff (h : Wakes p q) {x : ProcState} (h1 : x ≠ .sleeping) (h2 : x ≠ .runnable) :
    q.state = x ↔ p.state = x := by
  rcases h.state with hs | ⟨hs, hs'⟩
  · rw [hs]
  · simp [hs, hs', h1.symm, h2.symm]

end Wakes

theorem wakeup1_spec (t : ℕ → Proc) (ch : Option Chan) (i : ℕ) :
    Wakes (t i) (wakeup1 t ch i) ∧ (wakeup1 t ch i).parent = (t i).parent ∧
      ((wakeup1 t ch i).state = .sleeping → (wakeup1 t ch i).chan ≠ ch) := by
  unfold wakeup1
  split_ifs with h
  · exact ⟨⟨rfl, .inr ⟨h.1, rfl⟩⟩, rfl, by simp⟩
  · exact ⟨.refl _, rfl, fun hs hc => h ⟨hs, hc⟩⟩

/-- The children of `cur` in the slots `l` have been passed to init. -/
structure Adopts (cur init : ℕ) (l : List ℕ) (t t' : ℕ → Proc) : Prop where
  wakes : ∀ j, Wakes (t j) (t' j)
  parent : ∀ j, (t' j).parent = if j ∈ l ∧ (t j).parent = some cur then some init else (t j).parent
  awake : ∀ i ∈ l, (t i).parent = some cur → (t i).state = .zombie →
    ∀ j, (t' j).state = .sleeping → (t' j).chan ≠ some (.proc init)

theorem adopt_spec {cur init : ℕ} (t : ℕ → Proc) (i : ℕ) :
    Adopts cur init [i] t (adopt cur init t i) := by
  unfold adopt
  by_cases hp : (t i).parent = some cur
  · have hup : ∀ j, Wakes (t j) (upd t i { t i with parent := some init } j) ∧
        (upd t i { t i with parent := some init } j).parent =
          if j = i then some init else (t j).parent := by
      refine upd_forall (F := fun j p => Wakes (t j) p ∧
        p.parent = if j = i then some init else (t j).parent) ⟨⟨rfl, .inl rfl⟩, by simp⟩
        fun j hj => ?_
      exact ⟨.refl _, by simp [hj]⟩
    have hpar : ∀ j, (if j ∈ [i] ∧ (t j).parent = some cur then some init else (t j).parent) =
        if j = i then some init else (t j).parent := fun j => by
      by_cases hj : j = i
      · subst hj; simp [hp]
      · simp [hj]
    simp only [hp, if_true]
    split_ifs with hz
    · refine ⟨fun j => (hup j).1.trans (wakeup1_spec _ _ j).1, fun j => ?_, ?_⟩
      · rw [hpar, (wakeup1_spec _ _ j).2.1, (hup j).2]
      · exact fun _ _ _ _ j => (wakeup1_spec _ _ j).2.2
    · refine ⟨fun j => (hup j).1, fun j => by rw [hpar, (hup j).2], fun k hk _ hz' => ?_⟩
      exact absurd (List.mem_singleton.1 hk ▸ hz') hz
  · rw [if_neg hp]
    refine ⟨fun j => .refl _, fun j => ?_, fun k hk hp' => ?_⟩
    · by_cases hj : j = i
      · subst hj; simp [hp]
      · simp [hj]
    · exact absurd (List.mem_singleton.1 hk ▸ hp') hp

/-- The loop of `exit` that passes the children to init. -/
theorem adopts_spec {cur init : ℕ} (hi : init ≠ cur) (l : List ℕ) (t : ℕ → Proc) :
    Adopts cur init l t (l.foldl (adopt cur init) t) := by
  induction l generalizing t with
  | nil => exact ⟨fun j => .refl _, fun j => by simp, by simp⟩
  | cons i l ih =>
    have h1 : Adopts cur init [i] t (adopt cur init t i) := adopt_spec t i
    have h2 := ih (adopt cur init t i)
    refine ⟨fun j => (h1.wakes j).trans (h2.wakes j), fun j => ?_, fun k hk hp hz j hj => ?_⟩
    · rw [List.foldl_cons, h2.parent, h1.parent]
      by_cases hji : j = i
      · subst hji
        by_cases hp : (t j).parent = some cur <;> simp [hp, hi]
      · simp [hji]
    by_cases hki : k = i
    · -- nobody falls asleep again in the rest of the loop
      rw [List.foldl_cons, (h2.wakes j).chan]
      exact h1.awake k (by simp [hki]) hp hz j ((h2.wakes j).sleeping hj)
    · refine h2.awake k ((List.mem_cons.1 hk).resolve_left hki) ?_ ?_ j hj
      · rw [h1.parent]; simp [hki, hp]
      · exact ((h1.wakes k).state_iff (by simp) (by simp)).2 hz

/-- What `exit` in process `cur` does to the table. -/
structure Exits (cur init : ℕ) (t t' : ℕ → Proc) : Prop where
  wakes : ∀ j, j ≠ cur → Wakes (t j) (t' j)
  parent : ∀ j, (t' j).parent = if j < nproc ∧ (t j).parent = some cur then some init
    else (t j).parent
  self : t' cur = { t cur with parent := (t' cur).parent, state := .zombie, pc := .leaving .exit }
  parent_awake : ∀ p, (t cur).parent = some p → ∀ j, (t' j).state = .sleeping →
    (t' j).chan ≠ some (.proc p)
  init_awake : ∀ i < nproc, (t i).parent = some cur → (t i).state = .zombie →
    ∀ j, (t' j).state = .sleeping → (t' j).chan ≠ some (.proc init)

/-- The table after the loop, with `cur` marked `ZOMBIE`. -/
theorem exits_of_adopts {cur init : ℕ} {t t₂ : ℕ → Proc}
    (h2 : Adopts cur init (List.range nproc) (wakeup1 t ((t cur).parent.map .proc)) t₂) :
    Exits cur init t (upd t₂ cur { t₂ cur with state := .zombie, pc := .leaving .exit }) := by
  have h1 := wakeup1_spec t ((t cur).parent.map .proc)
  have hw : ∀ j, Wakes (t j) (t₂ j) := fun j => (h1 j).1.trans (h2.wakes j)
  have hcur : ∀ j, (upd t₂ cur { t₂ cur with state := .zombie, pc := .leaving .exit } j).state =
      .sleeping → j ≠ cur ∧ (t₂ j).state = .sleeping := fun j hj => by
    by_cases hjc : j = cur
    · simp [hjc] at hj
    · exact ⟨hjc, by simpa [hjc] using hj⟩
  refine ⟨fun j hj => ?_, fun j => ?_, ?_, fun p hp j hj => ?_, fun i hlt hp hz j hj => ?_⟩
  · simpa [hj] using hw j
  · have hpar := h2.parent j
    rw [(h1 j).2.1] at hpar
    simp only [List.mem_range] at hpar
    rw [← hpar]
    by_cases hj : j = cur <;> simp [hj]
  · have := (hw cur).rest
    generalize t₂ cur = p at this ⊢
    simp only [upd_eq_update, Function.update_self]
    rw [this]
  · obtain ⟨hne, hs⟩ := hcur j hj
    simp only [upd_eq_update, Function.update_of_ne hne]
    rw [(h2.wakes j).chan]
    simpa [hp] using (h1 j).2.2 ((h2.wakes j).sleeping hs)
  · obtain ⟨hne, hs⟩ := hcur j hj
    simp only [upd_eq_update, Function.update_of_ne hne]
    exact h2.awake i (List.mem_range.2 hlt) ((h1 i).2.1.trans hp)
      (((h1 i).1.state_iff (by simp) (by simp)).2 hz) j hs

theorem exitTable_spec {cur init : ℕ} (hi : init ≠ cur) (t : ℕ → Proc) :
    Exits cur init t (exitTable t cur init) :=
  exits_of_adopts (adopts_spec hi (List.range nproc) _)

/-- `kill` changes at most one slot, which carries the pid. -/
theorem kill_spec (t : ℕ → Proc) (pid : ℤ) :
    ((kill t pid).1 = -1 ∧ (kill t pid).2 = t ∧ ∀ i < nproc, (t i).pid ≠ pid) ∨
    ∃ i, first (fun i => (t i).pid = pid) = some i ∧ (t i).pid = pid ∧ (kill t pid).1 = 0 ∧
      (kill t pid).2 = upd t i { t i with
        killed := true, state := if (t i).state = .sleeping then .runnable else (t i).state } := by
  unfold kill
  split
  next i hi => exact .inr ⟨i, hi, of_decide_eq_true (first_some hi).2, rfl, rfl⟩
  next hi => exact .inl ⟨rfl, rfl, fun i hlt => of_decide_eq_false (first_none hi hlt)⟩

end Ptable

end Xv6
