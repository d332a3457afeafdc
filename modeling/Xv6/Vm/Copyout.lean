import Mathlib.Tactic.Common
import Xv6.Vm.Paging

/-!
# Where `copyout` writes

`copyout` looks up one page at a time and copies into it through the kernel's map.  `uva2ka` reads
the entry that `walkpgdir` returns without testing that there is one, so `copyout` is safe exactly
if it does not come to an address without a page table: the addresses before it being user pages, it
would get there.

* `Mem.phys` : where the hardware finds a byte of a user page.
* `copyout_spec` : the three ways in which `copyout` ends.
* `copyout_safe_iff` : **it ends as it should iff no such address is met**.
* `copyout_null` : a page directory for which it does not.
-/

namespace Xv6

open Option Function

namespace Vm

/-! ## Translation -/

/-- The page table that is responsible for `va`. -/
def Mem.table (m : Mem) (d va : ℕ) : Option ℕ :=
  if present (m.word d (pdx va)) then some (m.word d (pdx va) / pgSize) else none

/-- The entry for `va`. -/
def Mem.pte (m : Mem) (d va : ℕ) : Option ℕ := (m.table d va).map fun t => m.word t (ptx va)

/-- The page that `va` is mapped to, if it is present with `PTE_U` and the kernel can name it. -/
def Mem.userPage (m : Mem) (d va : ℕ) : Option ℕ :=
  ((m.pte d va).filter fun w =>
    present w && userBit w && !wrapsToNull w).map (· / pgSize)

/-- Where the byte at `va` is. -/
def Mem.phys (m : Mem) (d va : ℕ) : Option (ℕ × ℕ) := (m.userPage d va).map (·, va % pgSize)

/-- A page directory: its own pages are not mapped as user pages. -/
structure PageDir (m : Mem) (d : ℕ) : Prop where
  ne_dir : ∀ va p, m.userPage d va = some p → p ≠ d
  ne_table : ∀ va p va', m.userPage d va = some p → m.table d va' ≠ some p

/-- The first `n` of the bytes `src` have been written to the addresses from `va` on, which wrap;
where two of them are in the same place the later one has won.  Nothing else has changed. -/
structure Wrote (m : Mem) (d va : ℕ) (src : Bytes) (n : ℕ) (m' : Mem) : Prop where
  hit : ∀ i < n, ∀ x, m.phys d ((va + i) % uintSize) = some x →
    (∀ j < n, i < j → m.phys d ((va + j) % uintSize) ≠ some x) → m'.page x.1 x.2 = src i
  miss : ∀ x : ℕ × ℕ, (∀ i < n, m.phys d ((va + i) % uintSize) ≠ some x) →
    m'.page x.1 x.2 = m.page x.1 x.2
  rest : m'.freelist = m.freelist ∧ m'.deny = m.deny

variable {m m' : Mem} {d va va' p : ℕ} {src : Bytes} {n : ℕ} {E : Panic → Mem → Prop}

theorem wp_load {p i : ℕ} {Q : ℕ → Mem → Prop} :
    wp (load p i) Q E m ↔ Q (m.word p i) m := Iff.rfl

theorem wp_walkpgdir_false {Q : Option (ℕ × ℕ) → Mem → Prop} :
    wp (walkpgdir d va false) Q E m ↔ Q ((m.table d va).map (·, ptx va)) m := by
  unfold walkpgdir Mem.table
  rw [wp_bind, wp_load]
  cases present (m.word d (pdx va)) <;> exact Iff.rfl

theorem uva2ka_spec {Q : Option ℕ → Mem → Prop}
    (hn : m.table d va = none → E .nullDeref m) (hs : m.table d va ≠ none → Q (m.userPage d va) m) :
    wp (uva2ka d va) Q E m := by
  unfold uva2ka
  rw [wp_bind, wp_walkpgdir_false]
  cases ht : m.table d va with
  | none => exact hn ht
  | some t =>
  have hs := hs (by simp [ht])
  simp only [Mem.userPage, Mem.pte, ht, map_some, filter_some] at hs
  simp only [map_some, wp_bind, wp_load]
  cases hp : present (m.word t (ptx va)) <;> cases hu : userBit (m.word t (ptx va)) <;>
    cases hz : wrapsToNull (m.word t (ptx va)) <;> simpa [hp, hu, hz] using hs

/-! ## One page at a time -/

theorem table_congr (h : va / pgSize = va' / pgSize) : m.table d va = m.table d va' := by
  have hp : pdx va = pdx va' := by simp only [pgSize] at h; unfold pdx; omega
  simp only [Mem.table, hp]

theorem userPage_congr (h : va / pgSize = va' / pgSize) : m.userPage d va = m.userPage d va' := by
  have ht : ptx va = ptx va' := by simp only [pgSize] at h; unfold ptx; omega
  simp only [Mem.userPage, Mem.pte, table_congr h, ht]

theorem phys_of_table (h : m.table d va = none) : m.phys d va = none := by
  simp [Mem.phys, Mem.userPage, Mem.pte, h]

theorem phys_eq_some {x : ℕ × ℕ} :
    m.phys d va = some x ↔ m.userPage d va = some x.1 ∧ va % pgSize = x.2 := by
  simp only [Mem.phys, map_eq_some_iff]
  constructor
  · rintro ⟨p, hp, rfl⟩; exact ⟨hp, rfl⟩
  · rintro ⟨hp, ho⟩; exact ⟨x.1, hp, Prod.ext rfl ho⟩

theorem phys_chunk {k i : ℕ} (hk : (va + n) % uintSize % pgSize + k ≤ pgSize)
    (hp : m.userPage d ((va + n) % uintSize) = some p) (hi : i < k) :
    m.phys d ((va + (n + i)) % uintSize) = some (p, (va + n) % uintSize % pgSize + i) := by
  have haddr : (va + (n + i)) % uintSize = (va + n) % uintSize + i := by
    simp only [uintSize, pgSize] at *
    omega
  rw [haddr, phys_eq_some]
  refine ⟨?_, ?_⟩
  · rw [← hp]
    exact userPage_congr (by simp only [pgSize] at *; omega)
  · simp only [pgSize] at *
    omega

namespace Wrote

theorem zero : Wrote m d va src 0 m := ⟨nofun, fun _ _ => rfl, rfl, rfl⟩

theorem page_eq (h : Wrote m d va src n m') (hp : ∀ va, m.userPage d va ≠ some p) :
    m'.page p = m.page p :=
  funext fun o => h.miss (p, o) fun _ _ hx => hp _ (phys_eq_some.1 hx).1

theorem table_eq (h : Wrote m d va src n m') (hd : PageDir m d) :
    m'.table d va' = m.table d va' := by
  have hpage : m'.page d = m.page d := h.page_eq fun _ hx => hd.ne_dir _ d hx rfl
  unfold Mem.table Mem.word
  rw [hpage]

theorem userPage_eq (h : Wrote m d va src n m') (hd : PageDir m d) :
    m'.userPage d va' = m.userPage d va' := by
  have hpte : m'.pte d va' = m.pte d va' := by
    simp only [Mem.pte, h.table_eq hd]
    cases ht : m.table d va' with
    | none => rfl
    | some t =>
      have hpage : m'.page t = m.page t := h.page_eq fun va hx => hd.ne_table va t va' hx ht
      simp only [map_some, Mem.word, hpage]
  simp only [Mem.userPage, hpte]

/-- Copying `k` more bytes, which are in one page `p`. -/
theorem chunk (h : Wrote m d va src n m') {k : ℕ} (hk : (va + n) % uintSize % pgSize + k ≤ pgSize)
    (hp : m.userPage d ((va + n) % uintSize) = some p) :
    Wrote m d va src (n + k)
      (m'.setPage p ((m'.page p).copy ((va + n) % uintSize % pgSize) k (src.drop n))) := by
  have hphys := fun i (hi : i < k) => phys_chunk hk hp hi
  generalize hoff : (va + n) % uintSize % pgSize = off at hk hphys ⊢
  refine ⟨fun i hi x hx hlast => ?_, fun x hx => ?_, h.rest⟩
  · by_cases hin : i < n
    · -- an earlier byte is not in the chunk's place
      have hnot : ∀ l < k, (p, off + l) ≠ x := fun l hl he =>
        hlast (n + l) (by omega) (by omega) (by rw [hphys l hl, he])
      rw [← h.hit i hin x hx fun j hj => hlast j (by omega)]
      by_cases hxp : x.1 = p
      · simp only [Mem.setPage, hxp, upd_eq_update, update_self]
        refine Bytes.copy_of_not_mem ?_
        by_contra hc
        exact hnot (x.2 - off) (by omega) (Prod.ext hxp.symm (by simp only; omega))
      · simp only [Mem.setPage, upd_eq_update, update_of_ne hxp]
    · obtain ⟨l, rfl⟩ : ∃ l, i = n + l := ⟨i - n, by omega⟩
      rw [hphys l (by omega)] at hx
      cases hx
      simp only [Mem.setPage, upd_eq_update, update_self]
      rw [Bytes.copy_of_mem (by omega) (by omega), Bytes.drop_apply]
      congr 1
      omega
  · have hnot : ∀ l < k, (p, off + l) ≠ x := fun l hl he =>
      hx (n + l) (by omega) (by rw [hphys l hl, he])
    rw [← h.miss x fun i hi => hx i (by omega)]
    by_cases hxp : x.1 = p
    · simp only [Mem.setPage, hxp, upd_eq_update, update_self]
      refine Bytes.copy_of_not_mem ?_
      by_contra hc
      exact hnot (x.2 - off) (by omega) (Prod.ext hxp.symm (by simp only; omega))
    · simp only [Mem.setPage, upd_eq_update, update_of_ne hxp]

end Wrote

theorem copyoutLoop_zero {fuel : ℕ} {buf : Bytes} {Q : ℤ → Mem → Prop} :
    wp (copyoutLoop d fuel va buf 0) Q E m ↔ Q 0 m := by
  cases fuel <;> exact Iff.rfl

/-- How `copyout` of `len` bytes ends: it has written them all; or it has written those before an
address that is not in a user page. -/
def Copied (m : Mem) (d va : ℕ) (src : Bytes) (len : ℕ) (r : ℤ) (m' : Mem) : Prop :=
  (r = 0 ∧ (∀ i < len, m.phys d ((va + i) % uintSize) ≠ none) ∧ Wrote m d va src len m') ∨
  (r = -1 ∧ ∃ n < len, (∀ i < n, m.phys d ((va + i) % uintSize) ≠ none) ∧
    m.phys d ((va + n) % uintSize) = none ∧ m.table d ((va + n) % uintSize) ≠ none ∧
    Wrote m d va src n m')

/-- `copyout` has come to an address without a page table. -/
def MeetsHole (m : Mem) (d va len : ℕ) : Prop :=
  ∃ n < len, (∀ i < n, m.phys d ((va + i) % uintSize) ≠ none) ∧
    m.table d ((va + n) % uintSize) = none

theorem Copied.not_meetsHole {len : ℕ} {r : ℤ} (h : Copied m d va src len r m') :
    ¬ MeetsHole m d va len := by
  rintro ⟨n, hn, hu, ht⟩
  have hno := phys_of_table ht
  rcases h with ⟨-, hall, -⟩ | ⟨-, n', hn', hu', hnone, ht', -⟩
  · exact hall n hn hno
  rcases lt_trichotomy n n' with hlt | rfl | hlt
  · exact hu' n hlt hno
  · exact ht' ht
  · exact hu n' hlt hnone

theorem copyoutLoop_spec {m₁ : Mem} {len fuel : ℕ} (hd : PageDir m d) (hw : Wrote m d va src n m₁)
    (hn : n ≤ len) (hu : ∀ i < n, m.phys d ((va + i) % uintSize) ≠ none) (hf : len - n ≤ fuel) :
    wp (copyoutLoop d fuel ((va + n) % uintSize) (src.drop n) (len - n)) (Copied m d va src len)
      (fun e _ => e = .nullDeref ∧ MeetsHole m d va len) m₁ := by
  induction fuel generalizing n m₁ with
  | zero =>
    obtain rfl : n = len := by omega
    exact .inl ⟨rfl, hu, hw⟩
  | succ fuel ih =>
    by_cases hlen : n = len
    · subst hlen
      rw [Nat.sub_self, copyoutLoop_zero]
      exact .inl ⟨rfl, hu, hw⟩
    have hpos : 0 < len - n := by omega
    generalize hva : (va + n) % uintSize = a
    -- the page is looked up by its first address
    have hround : pgRoundDown a / pgSize = a / pgSize := by
      unfold pgRoundDown
      exact Nat.mul_div_cancel _ (by decide)
    have hoff : a - pgRoundDown a = a % pgSize := by
      unfold pgRoundDown
      simp only [pgSize]
      omega
    simp only [copyoutLoop, hpos, if_true, wp_bind, hoff]
    refine uva2ka_spec (fun ht => ?_) fun ht => ?_
    · rw [hw.table_eq hd, table_congr hround, ← hva] at ht
      exact ⟨rfl, n, by omega, hu, ht⟩
    rw [hw.table_eq hd, table_congr hround] at ht
    rw [hw.userPage_eq hd, userPage_congr hround]
    cases hp : m.userPage d a with
    | none =>
      refine .inr ⟨rfl, n, by omega, hu, ?_, hva ▸ ht, hw⟩
      rw [hva, Mem.phys, hp, map_none]
    | some p =>
    generalize hk : min (pgSize - a % pgSize) (len - n) = k
    have hkpos : 0 < k := by
      have : a % pgSize < pgSize := Nat.mod_lt _ (by decide)
      omega
    have hle : a % pgSize + k ≤ pgSize := by
      have : a % pgSize < pgSize := Nat.mod_lt _ (by decide)
      omega
    simp only [memmove, wp_bind, wp_modify]
    have hw' := hw.chunk (k := k) (by rwa [hva]) (by rwa [hva])
    have hu' : ∀ i < n + k, m.phys d ((va + i) % uintSize) ≠ none := fun i hi => by
      by_cases hin : i < n
      · exact hu i hin
      · obtain ⟨l, rfl⟩ : ∃ l, i = n + l := ⟨i - n, by omega⟩
        rw [phys_chunk (k := k) (by rwa [hva]) (by rwa [hva]) (by omega)]
        simp
    rw [hva] at hw'
    have hdrop : (src.drop n).drop k = src.drop (n + k) :=
      funext fun i => congrArg src (by omega)
    rw [hdrop, Nat.sub_sub]
    by_cases hend : n + k = len
    · rw [hend, Nat.sub_self, copyoutLoop_zero]
      exact .inl ⟨rfl, hend ▸ hu', hend ▸ hw'⟩
    -- the chunk ends with its page
    have hnext : (pgRoundDown a + pgSize) % uintSize = (va + (n + k)) % uintSize := by
      have : k = pgSize - a % pgSize := by omega
      rw [← hva] at this ⊢
      unfold pgRoundDown
      simp only [pgSize, uintSize] at *
      omega
    rw [hnext]
    exact ih hw' (by omega) hu' (by omega)

theorem copyout_spec {len : ℕ} (hd : PageDir m d) (hva : va < uintSize) :
    wp (copyout d va src len) (Copied m d va src len)
      (fun e _ => e = .nullDeref ∧ MeetsHole m d va len) m := by
  have h : wp (copyoutLoop d len ((va + 0) % uintSize) (src.drop 0) (len - 0))
      (Copied m d va src len) _ m :=
    copyoutLoop_spec hd .zero zero_le nofun (Nat.le_refl _)
  have hdrop : src.drop 0 = src := funext fun i => congrArg src (Nat.zero_add i)
  rwa [Nat.add_zero, Nat.mod_eq_of_lt hva, hdrop] at h

theorem copyout_ok {len : ℕ} (hd : PageDir m d) (hva : va < uintSize)
    (hu : ∀ i < len, m.phys d ((va + i) % uintSize) ≠ none) :
    wp (copyout d va src len) (fun r _ => r = 0) (fun _ _ => False) m := by
  refine wp_mono (copyout_spec hd hva) (fun r m' hc => ?_) ?_
  · rcases hc with ⟨hr, -⟩ | ⟨-, n, hn, -, hno, -⟩
    · exact hr
    · exact absurd hno (hu n hn)
  · rintro e m' ⟨-, n, hn, -, ht⟩
    exact hu n hn (by rw [Mem.phys, Mem.userPage, Mem.pte, ht]; rfl)

/-- **`copyout` stays inside user pages** iff it does not come to an address without a page table:
it returns 0 having written the bytes to pages that are present with `PTE_U` and nothing else, or it
returns -1.  Otherwise it dereferences the missing entry. -/
theorem copyout_safe_iff {len : ℕ} (hd : PageDir m d) (hva : va < uintSize) :
    (∃ m', (copyout d va src len m = .ok 0 m' ∧
        (∀ i < len, m.phys d ((va + i) % uintSize) ≠ none) ∧ Wrote m d va src len m') ∨
      copyout d va src len m = .ok (-1) m') ↔
    ∀ n < len, (∀ i < n, m.phys d ((va + i) % uintSize) ≠ none) →
      m.table d ((va + n) % uintSize) ≠ none := by
  have h : wp (copyout d va src len) _ _ m := copyout_spec hd hva
  constructor
  · rintro ⟨m', hok⟩ n hn hu ht
    obtain ⟨r, hr⟩ : ∃ r, copyout d va src len m = .ok r m' := by
      rcases hok with ⟨hr, -⟩ | hr <;> exact ⟨_, hr⟩
    exact (h.ok hr).not_meetsHole ⟨n, hn, hu, ht⟩
  intro hno
  unfold wp at h
  split at h
  · rename_i r m' hr
    rcases h with ⟨rfl, hu, hw⟩ | ⟨rfl, -⟩
    · exact ⟨m', .inl ⟨hr, hu, hw⟩⟩
    · exact ⟨m', .inr hr⟩
  · obtain ⟨-, n, hn, hu, ht⟩ := h
    exact absurd ht (hno n hn hu)

/-- A small address space: the page directory is page 1, its only table page 2, and that maps the
addresses below `PGSIZE` to page 3. -/
def onePage : Mem where
  page p := if p = 1 then Bytes.zero.putLE 4 0 (2 * pgSize + 7)
    else if p = 2 then Bytes.zero.putLE 4 0 (3 * pgSize + 7) else Bytes.zero
  freelist := 0
  deny _ := false

theorem onePage_word {p i : ℕ} (h : p ≠ 1 ∧ p ≠ 2 ∨ i ≠ 0) : onePage.word p i = 0 := by
  have hd : ∀ v, (Bytes.zero.putLE 4 0 v).getLE 4 (4 * i) = 0 ∨ i = 0 := fun v => by
    by_cases hi : i = 0
    · exact .inr hi
    · left
      rw [Bytes.getLE_putLE_of_disjoint (by omega), Bytes.getLE_zero]
  unfold Mem.word onePage
  by_cases h1 : p = 1
  · simp only [h1, if_true]
    exact (hd _).resolve_right (by omega)
  by_cases h2 : p = 2
  · simp only [h2]
    exact (hd _).resolve_right (by omega)
  · simp [h1, h2]

theorem onePage_table {t : ℕ} (h : onePage.table 1 va = some t) : t = 2 := by
  unfold Mem.table at h
  by_cases hi : pdx va = 0
  · rw [hi] at h
    exact Option.some.inj (h.symm.trans (by decide +kernel))
  · rw [onePage_word (.inr hi)] at h
    cases h

theorem onePage_userPage (h : onePage.userPage 1 va = some p) : p = 3 := by
  unfold Mem.userPage Mem.pte at h
  cases ht : onePage.table 1 va with
  | none => rw [ht] at h; cases h
  | some t =>
  obtain rfl := onePage_table ht
  rw [ht, map_some] at h
  by_cases hi : ptx va = 0
  · rw [hi] at h
    exact Option.some.inj (h.symm.trans (by decide +kernel))
  · rw [onePage_word (.inr hi)] at h
    cases h

theorem pageDir_onePage : PageDir onePage 1 where
  ne_dir va p h := by rw [onePage_userPage h]; decide
  ne_table va p va' h ht := by
    have := onePage_userPage h
    have := onePage_table ht
    omega

theorem copyout_safe_iff_onePage : ∃ m',
    (copyout 1 0 Bytes.zero 1 onePage = .ok 0 m' ∧
      (∀ i < 1, onePage.phys 1 ((0 + i) % uintSize) ≠ none) ∧ Wrote onePage 1 0 Bytes.zero 1 m') ∨
    copyout 1 0 Bytes.zero 1 onePage = .ok (-1) m' :=
  (copyout_safe_iff pageDir_onePage (by decide)).2 fun n hn _ => by
    obtain rfl : n = 0 := by omega
    decide +kernel

/-- **A null dereference**: copying one byte to the first address above the only page table. -/
theorem copyout_null : PageDir onePage 1 ∧
    errorOf (copyout 1 (2 ^ 22) Bytes.zero 1 onePage) = some .nullDeref :=
  ⟨pageDir_onePage, by decide +kernel⟩

end Vm

end Xv6
