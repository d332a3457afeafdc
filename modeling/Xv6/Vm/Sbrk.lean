import Xv6.LTS.Basic
import Xv6.Vm.Fork
import Xv6.Vm.Pages

/-!
# `growproc` and `sbrk`

* `growproc_atomic` : **a `growproc` that fails changes nothing, unless it was asked to give up all
  pages**: `deallocuvm` then returns the new size, which is 0, after it has unmapped them.  As long
  as no `sbrk` asks for that, every page below the size is present, and `fork` does not panic.
* `sbrk_size_iff` : **a `sbrk` that succeeds changes the size by `n`, unless the sum is negative**:
  it wraps around, and `deallocuvm` takes it for a size that is not smaller.
-/

namespace Xv6

namespace Vm

variable {ι κ : Type} {k : Symbols} {g g' : Ghost ι κ} {m m' : Mem} {o : ι}
  {d p v va sz oldsz newsz : ℕ} [DecidableEq ι] [DecidableEq κ]

/-! ## `growproc` -/

theorem Space.shrink (hs : Space k g o d oldsz m) :
    wp (deallocuvm k d oldsz newsz)
    (fun r m' => r = min oldsz newsz ∧ ∃ g' : Ghost ι κ, Space k g' o d r m' ∧
      ∀ va < pgRoundUp r, m'.look d va = m.look d va) (fun _ _ => False) m := by
  by_cases hle : oldsz ≤ newsz
  · refine wp_post (hs.toDir.deallocuvm hs.size) fun r m' hx => ?_
    obtain ⟨hr, g', -, -, hsame⟩ := hx
    obtain ⟨rfl, rfl⟩ := hsame hle
    rw [min_eq_left hle] at hr
    subst hr
    exact ⟨(min_eq_left hle).symm, g', hs, fun _ _ => rfl⟩
  have hlt : newsz < oldsz := Nat.lt_of_not_le hle
  have hnew : newsz ≤ kernBase := hlt.le.trans hs.size
  refine wp_post (hs.toDir.shrink hs.size hnew) fun r m' hx => ?_
  obtain ⟨hr, g', hd', hlook, -⟩ := hx
  rw [min_eq_right hlt.le] at hr
  subst hr
  have hmono := pgRoundUp_mono hlt.le hs.size
  refine ⟨(min_eq_right hlt.le).symm, g', ⟨hd', hnew, fun va hva => ?_⟩, fun va hva => ?_⟩
  · rw [hlook va hva]
    have hx := hs.exact va hva
    split_ifs with hin
    · simp only [Option.isSome_none, Bool.false_eq_true, false_iff]
      omega
    · rw [hx]
      omega
  · rw [hlook va (hva.trans_le (pgRoundUp_le hnew)), if_neg (by omega)]

/-- The process as it was: its size, and what is mapped with which contents. -/
structure Kept (cur : ℕ) (s s' : Machine) : Prop where
  size : (s'.proc cur).sz = (s.proc cur).sz
  look : ∀ va < (s.proc cur).sz, s'.mem.look (s.proc cur).pgdir va =
    s.mem.look (s.proc cur).pgdir va
  above : ∀ va, pgRoundUp (s.proc cur).sz ≤ va → va < kernBase →
    s'.mem.look (s.proc cur).pgdir va = none

/-- The pages of process `cur` are those below its size. -/
def Fits (k : Symbols) (o : ι) (cur : ℕ) (g : Ghost ι κ) (s : Machine) : Prop :=
  Space k g o (s.proc cur).pgdir (s.proc cur).sz s.mem

variable {s s' : Machine} {cur : ℕ} {n : ℤ}

omit [DecidableEq ι] [DecidableEq κ] in
theorem Fits.kept (hs : Fits k o cur g s)
    (hlook : ∀ va < kernBase, m'.look (s.proc cur).pgdir va = s.mem.look (s.proc cur).pgdir va) :
    Kept cur s { s with mem := m' } := by
  refine ⟨rfl, fun va hva => hlook va (hva.trans_le hs.size), fun va hle hva =>
    (hlook va hva).trans ?_⟩
  have hx := (hs.exact va hva).not.2 (by omega)
  rwa [Bool.not_eq_true, Option.isSome_eq_false_iff, Option.isNone_iff_eq_none] at hx

/-- How `growproc` ends: with the new size, or as if nothing had happened; if it was asked for the
size 0 all pages are gone. -/
structure Grew (k : Symbols) (o : ι) (cur : ℕ) (s : Machine) (n r : ℤ) (s' : Machine) : Prop where
  result : r = 0 ∨ r = -1
  fits : (s.proc cur).sz + n ≠ 0 ∨ n = 0 → ∃ g' : Ghost ι κ, Fits k o cur g' s'
  kept : r = -1 → (Kept cur s s' ↔ (s.proc cur).sz + n ≠ 0)

omit [DecidableEq ι] [DecidableEq κ] in
theorem Grew.resize {r : ℕ} (hx : ∃ g' : Ghost ι κ, Space k g' o (s.proc cur).pgdir r m') :
    Grew (κ := κ) k o cur s n 0
    { s with mem := m', proc := upd s.proc cur { s.proc cur with sz := r } } := by
  obtain ⟨g', hs'⟩ := hx
  refine ⟨.inl rfl, fun _ => ⟨g', ?_⟩, fun h => absurd h (by decide)⟩
  unfold Fits
  simpa using hs'

theorem growproc_exact (hs : Fits k o cur g s) (hlo : -2 ^ 31 ≤ n) (hhi : n < 2 ^ 31) :
    wp (growproc k cur n) (Grew (κ := κ) k o cur s n) (fun _ _ => False) s := by
  have hsize := hs.size
  unfold growproc
  simp only [wp_bind, wp_get]
  generalize hnew : (((s.proc cur).sz + n) % (uintSize : ℤ)).toNat = newsz
  refine wp_ite.2 ⟨fun hpos => ?_, fun hpos => wp_ite.2 ⟨fun hneg => ?_, fun hneg => ?_⟩⟩
  · -- the sum does not wrap
    have hsum : (newsz : ℤ) = (s.proc cur).sz + n := by simp only [uintSize, kernBase] at *; omega
    have hne : ((s.proc cur).sz : ℤ) + n ≠ 0 := by omega
    rw [wp_bind, wp_onMem]
    by_cases hk : kernBase ≤ newsz
    · unfold allocuvm
      rw [if_pos hk]
      exact ⟨.inr rfl, fun _ => ⟨g, hs⟩, fun _ => iff_of_true (hs.kept fun _ _ => rfl) hne⟩
    refine wp_post (Space.allocuvm hs (by omega) (by omega)) fun r m' hx => ?_
    rcases hx with ⟨hr, g', hs', -⟩ | ⟨rfl, g', hs', hg⟩
    · have hr0 : r ≠ 0 := by omega
      rw [if_neg hr0]
      exact Grew.resize ⟨g', hr ▸ hs'⟩
    rw [if_pos rfl]
    refine ⟨.inr rfl, fun _ => ⟨g', hs'⟩, fun _ => iff_of_true (hs.kept fun va hva => ?_) hne⟩
    have hd0 := hs.ne
    rw [← hs.dir] at hd0 ⊢
    exact hg.look hs.holds hs'.holds hd0 hva (hg.same _ (by omega))
  · rw [wp_bind, wp_onMem]
    refine wp_post (Space.shrink hs) fun r m' hx => ?_
    obtain ⟨hr, g', hs', hlook⟩ := hx
    by_cases hr0 : r = 0
    · rw [if_pos hr0]
      subst hr0
      by_cases hz : (s.proc cur).sz = 0
      · -- nothing was mapped
        have hsame : Kept cur s { s with mem := m' } := by
          refine ⟨rfl, fun va hva => absurd hva (by omega), fun va _ hva => ?_⟩
          have hx := (hs'.exact va hva).not.2
            (by rw [show pgRoundUp 0 = 0 by decide]; exact Nat.not_lt_zero _)
          rwa [Bool.not_eq_true, Option.isSome_eq_false_iff, Option.isNone_iff_eq_none] at hx
        refine ⟨.inr rfl, fun _ => ⟨g', ?_⟩, fun _ => iff_of_true hsame (by omega)⟩
        unfold Fits
        rw [hz]
        exact hs'
      -- `deallocuvm` has unmapped everything and returned the new size
      have hzero : ((s.proc cur).sz : ℤ) + n = 0 := by simp only [uintSize, kernBase] at *; omega
      refine ⟨.inr rfl, fun hx => absurd hx (by omega), fun _ => iff_of_false (fun hk => ?_)
        (by omega)⟩
      have h1 := hk.look 0 (by omega)
      have h2 := (hs.exact 0 (by decide)).2
        (lt_of_lt_of_le (Nat.pos_of_ne_zero hz) (le_pgRoundUp hsize))
      have h3 := (hs'.exact 0 (by decide)).not.2 (by decide)
      rw [← h1] at h2
      exact h3 h2
    · rw [if_neg hr0]
      exact Grew.resize ⟨g', hs'⟩
  · exact ⟨.inl rfl, fun _ => ⟨g, hs⟩, fun h => absurd h (by decide)⟩


/-! ## The size after `growproc` -/

/-- What `allocuvm` returns, whatever the memory is like. -/
theorem allocuvmLoop_result {fuel a : ℕ} :
    wp (allocuvmLoop k d oldsz newsz fuel a) (fun r _ => r = 0 ∨ r = newsz)
    (fun _ _ => True) m := by
  induction fuel generalizing a m with
  | zero => trivial
  | succ fuel ih =>
    simp only [allocuvmLoop]
    rw [wp_ite]
    refine ⟨fun _ => ?_, fun _ => .inr rfl⟩
    refine wp_seq wp_true fun r m₁ _ => ?_
    cases r with
    | none => exact wp_bind.2 (wp_post wp_true fun _ _ _ => .inl rfl)
    | some mem =>
      simp only [wp_bind]
      refine wp_post wp_true fun _ m₂ _ => ?_
      refine wp_post wp_true fun r m₃ _ => ?_
      refine wp_ite.2 ⟨fun _ => ?_, fun _ => ih⟩
      simp only [wp_bind]
      refine wp_post wp_true fun _ m₄ _ => ?_
      exact wp_post wp_true fun _ _ _ => .inl rfl

theorem allocuvm_result (hle : oldsz ≤ newsz) :
    wp (allocuvm k d oldsz newsz) (fun r _ => r = 0 ∨ r = newsz ∧ newsz < kernBase)
    (fun _ _ => True) m := by
  unfold allocuvm
  refine wp_ite.2
    ⟨fun _ => .inl rfl, fun hk => wp_ite.2 ⟨fun hlt => absurd hle (by omega), fun _ => ?_⟩⟩
  exact wp_post allocuvmLoop_result fun r _ hr => hr.imp_right fun hr => ⟨hr, by omega⟩

theorem deallocuvm_result :
    wp (deallocuvm k d oldsz newsz) (fun r _ => r = min oldsz newsz) (fun _ _ => True) m := by
  unfold deallocuvm
  refine wp_ite.2 ⟨fun hle => (min_eq_left hle).symm, fun hle => ?_⟩
  exact wp_seq wp_true fun _ _ _ => (min_eq_right (by omega)).symm

theorem growproc_size (hsz : (s.proc cur).sz < kernBase) (hlo : -2 ^ 31 ≤ n) (hhi : n < 2 ^ 31) :
    wp (growproc k cur n) (fun r s' => r = -1 ∨ r = 0 ∧
      ((s.proc cur).sz + n < 0 ∨ 0 ≤ (s.proc cur).sz + n ∧ (s.proc cur).sz + n < kernBase ∧
        (s'.proc cur).sz = (s.proc cur).sz + n)) (fun _ _ => True) s := by
  unfold growproc
  simp only [wp_bind, wp_get]
  generalize hnew : (((s.proc cur).sz + n) % (uintSize : ℤ)).toNat = newsz
  refine wp_ite.2 ⟨fun hpos => ?_, fun hpos => wp_ite.2 ⟨fun hneg => ?_, fun hneg => ?_⟩⟩
  · have hsum : (newsz : ℤ) = (s.proc cur).sz + n := by simp only [uintSize, kernBase] at *; omega
    rw [wp_bind, wp_onMem]
    refine wp_post (allocuvm_result (by omega)) fun r m' hr => ?_
    rcases hr with rfl | ⟨rfl, hk⟩
    · exact .inl rfl
    · refine wp_ite.2 ⟨fun _ => .inl rfl, fun _ => ?_⟩
      refine .inr ⟨rfl, .inr ⟨by omega, by omega, ?_⟩⟩
      simp [hsum]
  · rw [wp_bind, wp_onMem]
    refine wp_post deallocuvm_result fun r m' hr => ?_
    refine wp_ite.2 ⟨fun _ => .inl rfl, fun _ => .inr ⟨rfl, ?_⟩⟩
    by_cases hlt : ((s.proc cur).sz : ℤ) + n < 0
    · exact .inl hlt
    have hsum : (newsz : ℤ) = (s.proc cur).sz + n := by simp only [uintSize, kernBase] at *; omega
    refine .inr ⟨by omega, by omega, ?_⟩
    simp only [upd_eq_update, Function.update_self]
    omega
  · exact .inr ⟨rfl, .inr ⟨by omega, by omega, by omega⟩⟩

/-! ## Runs of `sbrk` -/

/-- One call of `sbrk`; a panic is the end. -/
def sbrkStep (k : Symbols) (cur : ℕ) (s : Machine) (n : ℤ) : Option Machine :=
  match sysSbrk k cur n s with
  | .ok _ s' => some s'
  | .error _ _ => none

/-- The argument is an `int`, and the call does not ask for the size 0. -/
def KeepsSome (cur : ℕ) (s : Machine) (n : ℤ) : Prop :=
  (-2 ^ 31 ≤ n ∧ n < 2 ^ 31) ∧ ((s.proc cur).sz + n ≠ 0 ∨ n = 0)

theorem sysSbrk_fits (hs : Fits k o cur g s) (hn : KeepsSome cur s n) :
    wp (sysSbrk k cur n) (fun _ s' => ∃ g' : Ghost ι κ, Fits k o cur g' s')
    (fun _ _ => False) s := by
  unfold sysSbrk
  simp only [wp_bind, wp_get]
  refine wp_post (growproc_exact hs hn.1.1 hn.1.2) fun r s' hr => ?_
  rw [wp_ite]
  exact ⟨fun _ => hr.fits hn.2, fun _ => hr.fits hn.2⟩

theorem sbrk_run {ls : List ℤ} (hs : Fits k o cur g s)
    (hrun : ((LTS.ofFun (sbrkStep k cur)).restrict (KeepsSome cur)).Run s ls s') :
    ∃ g' : Ghost ι κ, Fits k o cur g' s' := by
  refine hrun.invariant (I := fun s => ∃ g : Ghost ι κ, Fits k o cur g s) ⟨g, hs⟩ ?_
  rintro s₁ n s₂ ⟨g₁, h1⟩ ⟨hstep, hn⟩
  have hspec := sysSbrk_fits h1 hn
  simp only [LTS.ofFun, sbrkStep] at hstep
  cases hr : sysSbrk k cur n s₁ with
  | ok r s₃ =>
    rw [hr] at hstep
    cases hstep
    exact hspec.ok hr
  | error e s₃ => exact (hspec.error hr).elim

/-- **`growproc` and sequences of `sbrk`.** -/
theorem growproc_atomic (hs : Fits k o cur g s) :
    (∀ n : ℤ, -2 ^ 31 ≤ n → n < 2 ^ 31 → wp (growproc k cur n) (fun r s' => (r = 0 ∨ r = -1) ∧
      (r = -1 → (Kept cur s s' ↔ (s.proc cur).sz + n ≠ 0))) (fun _ _ => False) s) ∧
    ∀ ls s', ((LTS.ofFun (sbrkStep k cur)).restrict (KeepsSome cur)).Run s ls s' →
      (∀ va < (s'.proc cur).sz, (s'.mem.look (s'.proc cur).pgdir va).isSome) ∧
      wp (copyuvm k (s'.proc cur).pgdir (s'.proc cur).sz) (fun _ _ => True)
      (fun _ _ => False) s'.mem := by
  refine ⟨fun n hlo hhi => ?_, fun ls s' hrun => ?_⟩
  · exact wp_post (growproc_exact hs hlo hhi) fun r s' hr => ⟨hr.result, hr.kept⟩
  obtain ⟨g', hs'⟩ := sbrk_run hs hrun
  have hpres : ∀ va < (s'.proc cur).sz, (s'.mem.look (s'.proc cur).pgdir va).isSome := fun va hva =>
    (hs'.exact va (hva.trans_le hs'.size)).2 (hva.trans_le (le_pgRoundUp hs'.size))
  exact ⟨hpres, wp_post (hs'.toDir.copyuvm hs'.size hpres) fun _ _ _ => trivial⟩

/-- A process with one page. -/
def loneMachine : Machine where
  proc _ := ⟨pgSize, 400, 0, .runnable, 1, none, fun _ => none⟩
  nextpid := 2
  initproc := 0
  file _ := ⟨.none, 0, false, 0⟩
  pipe _ := ⟨false, false⟩
  kpgdir := 0
  stack _ := 0
  mem := lone

theorem loneMachine_fits : Fits someSymbols () 0 loneGhost loneMachine := lone_space

theorem growproc_atomic_lone :
    (∃ s', growproc someSymbols 0 2147483647 loneMachine = .ok (-1) s' ∧ Kept 0 loneMachine s') ∧
    ∃ s', ((LTS.ofFun (sbrkStep someSymbols 0)).restrict (KeepsSome 0)).Run loneMachine [-1] s' ∧
      (s'.mem.look (s'.proc 0).pgdir 0).isSome := by
  have hspec := growproc_atomic loneMachine_fits
  constructor
  · obtain ⟨r, s', hrun, -, hkept⟩ := (hspec.1 2147483647 (by decide) (by decide)).exists_ok
    have hsize := (growproc_size (by decide) (by decide) (by decide)).ok hrun
    have hsz : (loneMachine.proc 0).sz = 4096 := rfl
    rw [hsz] at hsize
    obtain rfl : r = -1 := by simp only [kernBase] at hsize; omega
    exact ⟨s', hrun, (hkept rfl).2 (by decide)⟩
  obtain ⟨s', hstep, hsz⟩ : ∃ s', sbrkStep someSymbols 0 loneMachine (-1) = some s' ∧
    (s'.proc 0).sz = 4095 :=
    ⟨_, rfl, rfl⟩
  have hrun : ((LTS.ofFun (sbrkStep someSymbols 0)).restrict (KeepsSome 0)).Run
      loneMachine [-1] s' :=
    .single ⟨hstep, by decide, .inl (by decide)⟩
  exact ⟨s', hrun, (hspec.2 _ _ hrun).1 0 (by rw [hsz]; decide)⟩

/-- Asked to give up its only page, `growproc` fails, but the page is gone. -/
theorem growproc_gives_up : Fits someSymbols () 0 loneGhost loneMachine ∧
    (loneMachine.mem.look 400 0).isSome ∧
    ∃ s', growproc someSymbols 0 (-4096) loneMachine = .ok (-1) s' ∧ (s'.proc 0).sz = 4096 ∧
    s'.mem.look 400 0 = none :=
  ⟨loneMachine_fits, by decide +kernel, _, rfl, rfl, by decide +kernel⟩

/-! ## The size after `sbrk` -/

/-- **A `sbrk` that succeeds has changed the size by `n`, unless the sum is negative.** -/
theorem sbrk_size_iff {r : ℤ} (hsz : (s.proc cur).sz < kernBase) (hlo : -2 ^ 31 ≤ n)
    (hhi : n < 2 ^ 31) (hrun : sysSbrk k cur n s = .ok r s') (hr : r ≠ -1) :
    r = (s.proc cur).sz ∧ (((0 ≤ (s.proc cur).sz + n ∧ (s.proc cur).sz + n < kernBase) ∧
      (s'.proc cur).sz = (s.proc cur).sz + n) ↔ 0 ≤ (s.proc cur).sz + n) := by
  have hspec : wp (sysSbrk k cur n) (fun r s' => r = -1 ∨ r = (s.proc cur).sz ∧
      ((s.proc cur).sz + n < 0 ∨ 0 ≤ (s.proc cur).sz + n ∧ (s.proc cur).sz + n < kernBase ∧
        (s'.proc cur).sz = (s.proc cur).sz + n)) (fun _ _ => True) s := by
    unfold sysSbrk
    simp only [wp_bind, wp_get]
    refine wp_post (growproc_size hsz hlo hhi) fun r s₁ hx => ?_
    rcases hx with rfl | ⟨rfl, hx⟩
    · exact .inl rfl
    · exact .inr ⟨rfl, hx⟩
  obtain ⟨rfl, hx⟩ := (hspec.ok hrun).resolve_left hr
  refine ⟨rfl, ?_⟩
  rcases hx with hneg | ⟨h₁, h₂, h₃⟩
  · exact iff_of_false (fun h => absurd h.1.1 (by omega)) (by omega)
  · exact iff_of_true ⟨⟨h₁, h₂⟩, h₃⟩ h₁

theorem sbrk_size_iff_lone : ∃ s', sysSbrk someSymbols 0 (-1) loneMachine = .ok 4096 s' ∧
    (s'.proc 0).sz = 4095 := by
  obtain ⟨s', hrun⟩ : ∃ s', sysSbrk someSymbols 0 (-1) loneMachine = .ok 4096 s' := ⟨_, rfl⟩
  obtain ⟨-, hiff⟩ := sbrk_size_iff (by decide) (by decide) (by decide) hrun (by decide)
  have hsize : ((s'.proc 0).sz : ℤ) = 4096 + -1 := (hiff.2 (by decide)).2
  exact ⟨s', hrun, by omega⟩

/-- A sum below 0 is taken for a large one: the call succeeds, and the size is as before. -/
theorem sbrk_wraps : ∃ s', sysSbrk someSymbols 0 (-4097) loneMachine = .ok 4096 s' ∧
    (s'.proc 0).sz = 4096 ∧ ((loneMachine.proc 0).sz : ℤ) + (-4097) = -1 :=
  ⟨_, rfl, rfl, rfl⟩

end Vm

end Xv6
