import Xv6.Vm.Copyout
import Xv6.Vm.Ownership

/-!
# The functions on page tables keep the ownership

One specification for each function of `vm.c`, in terms of `Holds`: what it does to the ghost state,
and which pages it gives back when it fails.  A function on the directory of `o` changes only the
tables and entries of `o` and the free list (`Frame`), and if it is called for user addresses it
leaves the entries of the kernel part alone (`UserFrame`).
-/

namespace Xv6

namespace Vm

variable {ι κ : Type} {k : Symbols} {g g' g'' : Ghost ι κ} {m m' : Mem} {o : ι}
variable {d p i j v va n : ℕ} {E : Panic → Mem → Prop}

/-! ## What may change -/

/-- Only the tables and entries of `o` and the free list have changed. -/
structure Frame (o : ι) (g g' : Ghost ι κ) : Prop where
  dir : g'.dir = g.dir
  tab : ∀ o', o' ≠ o → g'.tab o' = g.tab o'
  ent : ∀ o', o' ≠ o → g'.ent o' = g.ent o'
  hand : g'.hand = g.hand
  other : g'.other = g.other
  sure : g'.sure = g.sure

/-- The same, and the kernel part has not changed. -/
structure UserFrame (o : ι) (g g' : Ghost ι κ) : Prop extends Frame o g g' where
  kernel : ∀ v, userPages ≤ v → g'.ent o v = g.ent o v

theorem Frame.refl (o : ι) (g : Ghost ι κ) : Frame o g g :=
  ⟨rfl, fun _ _ => rfl, fun _ _ => rfl, rfl, rfl, rfl⟩

theorem Frame.trans (h : Frame o g g') (h' : Frame o g' g'') : Frame o g g'' :=
  ⟨h'.dir.trans h.dir, fun o' ho => (h'.tab o' ho).trans (h.tab o' ho),
    fun o' ho => (h'.ent o' ho).trans (h.ent o' ho), h'.hand.trans h.hand, h'.other.trans h.other,
    h'.sure.trans h.sure⟩

theorem UserFrame.refl (o : ι) (g : Ghost ι κ) : UserFrame o g g := ⟨.refl o g, fun _ _ => rfl⟩

theorem UserFrame.trans (h : UserFrame o g g') (h' : UserFrame o g' g'') : UserFrame o g g'' :=
  ⟨h.toFrame.trans h'.toFrame, fun v hv => (h'.kernel v hv).trans (h.kernel v hv)⟩

theorem UserFrame.setFree (l : List ℕ) : UserFrame o g (g.setFree l) :=
  ⟨⟨rfl, fun _ _ => rfl, fun _ _ => rfl, rfl, rfl, rfl⟩, fun _ _ => rfl⟩

theorem UserFrame.setHand (h : UserFrame o g g') (n p : ℕ) :
    UserFrame o (g.setHand n p) (g'.setHand n p) :=
  ⟨⟨h.dir, h.tab, h.ent, by simp only [Ghost.setHand, h.hand], h.other, h.sure⟩, h.kernel⟩

theorem Frame.setEnt [DecidableEq ι] (v w : ℕ) : Frame o g (g.setEnt o v w) :=
  ⟨rfl, fun _ _ => rfl, fun o' ho => by simp [Ghost.setEnt, ho], rfl, rfl, rfl⟩

theorem UserFrame.setEnt [DecidableEq ι] (hv : v < userPages) (w : ℕ) :
    UserFrame o g (g.setEnt o v w) := by
  refine ⟨.setEnt v w, fun v' hv' => ?_⟩
  simp only [Ghost.setEnt, upd_upd_apply]
  rw [if_neg (by omega)]

/-! ## Bits of an entry -/

theorem page_lt (h : p < physPages) : p * pgSize < uintSize := by
  have : physPages = 57344 := by decide
  simp only [pgSize, uintSize]
  omega

theorem present_iff {w : ℕ} : present w = true ↔ w % 2 = 1 := by
  simp [present, Nat.and_one_is_mod]

theorem entry_div {perm : ℕ} (hperm : perm < pgSize) :
    (p * pgSize ||| perm ||| pteP) / pgSize = p := by
  have hor : ∀ a b : ℕ, (a ||| b) / pgSize = a / pgSize ||| b / pgSize := fun a b =>
    Nat.or_div_two_pow (n := 12)
  rw [hor, hor, Nat.mul_div_cancel _ (by decide), Nat.div_eq_of_lt hperm,
    show pteP / pgSize = 0 by decide, Nat.or_zero, Nat.or_zero]

theorem present_entry {w : ℕ} : present (w ||| pteP) = true := by
  rw [present_iff, show w ||| pteP = w ||| 1 from rfl]
  have := Nat.or_mod_two_pow (a := w) (b := 1) (n := 1)
  have h := Nat.mod_two_eq_zero_or_one w
  simp only [pow_one] at this
  rcases h with h | h <;> rw [this, h] <;> decide

theorem entry_lt {pa perm : ℕ} (hpa : pa < uintSize) (hperm : perm < pgSize) :
    pa ||| perm ||| pteP < uintSize :=
  Nat.or_lt_two_pow (Nat.or_lt_two_pow hpa (lt_trans hperm (by decide))) (by decide)

theorem pde_eq (p : ℕ) : p * pgSize ||| pteP ||| pteW ||| pteU = p * pgSize + 7 := by
  rw [Nat.or_assoc, Nat.or_assoc, mul_comm]
  exact (Nat.two_pow_add_eq_or_of_lt (i := 12) (b := 7) (by decide) p).symm

theorem present_pde : present (p * pgSize + 7) = true := by
  rw [present_iff]
  simp only [pgSize]
  omega

theorem pde_div : (p * pgSize + 7) / pgSize = p := by
  simp only [pgSize]
  omega

/-! ## The allocator -/

theorem kfree_eq (h1 : k.first ≤ p) (h2 : p < physPages) : kfree k p m = .ok () (m.freed p) := by
  have hc : ¬ (p < k.first ∨ physTop / pgSize ≤ p) := by simp only [physPages] at h2; omega
  simp only [kfree, hc, if_false]
  rfl

theorem kfree_role (h : Holds k g m) {r : Role ι κ} (hr : g.page r ≠ 0) :
    kfree k (g.page r) m = .ok () (m.freed (g.page r)) :=
  kfree_eq (h.pool.owns.le_ptr r hr) (h.lt_of_role hr)

theorem Ghost.setHand_hand : (g.setHand n p).hand n = p := by simp [setHand]

theorem Ghost.setHand_setHand (hn : g.hand n = 0) : (g.setHand n p).setHand n 0 = g := by
  have : upd (upd g.hand n p) n 0 = g.hand := by
    funext x
    by_cases hx : x = n
    · subst hx; simp [hn]
    · simp [hx]
  simp only [setHand, this]

theorem kalloc_page : wp kalloc (fun _ m' => m'.page = m.page) (fun _ _ => False) m := by
  unfold kalloc
  simp only [wp_bind, wp_get]
  exact wp_ite.2 ⟨fun _ => rfl, fun _ => rfl⟩

/-! ## Reading the tables -/

theorem pdx_lt (va : ℕ) : pdx va < nEntries := Nat.mod_lt _ (by decide)

theorem ptx_lt (va : ℕ) : ptx va < nEntries := Nat.mod_lt _ (by decide)

theorem pdx_ptx (h : va < uintSize) : pdx va * nEntries + ptx va = va / pgSize := by
  unfold pdx ptx
  simp only [nEntries, pgSize, uintSize] at *
  omega

theorem Holds.table_eq (h : Holds k g m) (ho : g.dir o ≠ 0) :
    m.table (g.dir o) va = if g.tab o (pdx va) = 0 then none else some (g.tab o (pdx va)) := by
  unfold Mem.table
  rw [h.tables.pde o _ ho (pdx_lt va)]
  by_cases ht : g.tab o (pdx va) = 0
  · rw [if_pos ht, if_pos ht]
    rfl
  · rw [if_neg ht, if_neg ht, if_pos present_pde, pde_div]

theorem Holds.word_eq (h : Holds k g m) (ht : g.tab o (pdx va) ≠ 0) (hva : va < uintSize) :
    m.word (g.tab o (pdx va)) (ptx va) = g.ent o (va / pgSize) := by
  rw [h.tables.pte o _ _ ht (ptx_lt va), pdx_ptx hva]

theorem Holds.ent_of_tab (h : Holds k g m) (ht : g.tab o (pdx va) = 0) (hva : va < uintSize) :
    g.ent o (va / pgSize) = 0 := by
  have hv : va / pgSize / nEntries = pdx va := by
    unfold pdx
    simp only [nEntries, pgSize, uintSize] at *
    omega
  exact h.tables.ent_none o _ (hv ▸ ht)

/-! ## Allocating and walking -/

variable [DecidableEq ι] [DecidableEq κ]

theorem kalloc_spec (h : Holds k g m) (hn : g.hand n = 0) :
    wp kalloc (fun r m' => match r with
      | none => Holds k g m' ∧ (g.free = [] ∨ g.sure = false)
      | some p => p ≠ 0 ∧ ∃ l, g.free = p :: l ∧ Holds k ((g.setFree l).setHand n p) m') E m := by
  unfold kalloc
  simp only [wp_bind, wp_get]
  have hshift : m.Willing → ∀ n, m.deny (n + 1) = false := fun hw n => hw (n + 1)
  rw [wp_ite]
  refine ⟨fun hc => ⟨h.congr rfl rfl hshift, ?_⟩, fun hc => ?_⟩
  · rcases hc with hc | hc
    · right
      by_contra hs
      rw [h.pool.sure (by simpa using hs) 0] at hc
      cases hc
    left
    cases hf : g.free with
    | nil => rfl
    | cons p l =>
      have hch := h.pool.chain
      rw [hf] at hch
      have := hch.uncons.1
      rw [hc, p2v] at this
      simp only [kernBase] at this
      omega
  cases hf : g.free with
  | nil =>
    have hch := hf ▸ h.pool.chain
    generalize hv : m.freelist = v at hch hc
    cases hch
    exact absurd (.inr rfl) hc
  | cons p l =>
  have hch := h.pool.chain
  rw [hf] at hch
  have hp : v2p m.freelist = p := by
    rw [hch.uncons.1]
    unfold v2p p2v
    simp only [kernBase, pgSize]
    omega
  have hp0 : p ≠ 0 := fun hp0 => by
    have := h.pool.owns.reserved 0 k.first_pos
    simp [hf, hp0] at this
  rw [hp]
  exact ⟨hp0, l, rfl, h.alloc hf hn hshift⟩

/-- There is a table `t` for entry `i` of the directory, perhaps a new one. -/
def Opened (o : ι) (i t : ℕ) (g g' : Ghost ι κ) : Prop :=
  t ≠ 0 ∧ (g' = g ∧ g.tab o i = t ∨
    g.tab o i = 0 ∧ ∃ l, g.free = t :: l ∧ g' = (g.setFree l).setTab o i t)

namespace Opened

variable {t : ℕ}

omit [DecidableEq κ]

theorem tab (h : Opened o i t g g') : g'.tab o i = t := by
  obtain ⟨-, ⟨rfl, ht⟩ | ⟨-, l, -, rfl⟩⟩ := h
  · exact ht
  · simp [Ghost.setTab]

theorem ent (h : Opened o i t g g') : g'.ent = g.ent := by
  obtain ⟨-, ⟨rfl, -⟩ | ⟨-, l, -, rfl⟩⟩ := h <;> rfl

theorem frame (h : Opened o i t g g') : UserFrame o g g' := by
  obtain ⟨-, ⟨rfl, -⟩ | ⟨-, l, -, rfl⟩⟩ := h
  · exact .refl o g'
  · exact ⟨⟨rfl, fun o' ho => by simp [Ghost.setTab, Ghost.setFree, ho], fun _ _ => rfl, rfl, rfl,
      rfl⟩, fun _ _ => rfl⟩

theorem length_free (h : Opened o i t g g') : g.free.length ≤ g'.free.length + 1 := by
  rcases h.2 with ⟨rfl, -⟩ | ⟨-, l, hl, rfl⟩
  · exact Nat.le_succ _
  · rw [hl]
    exact le_rfl

end Opened

theorem walkpgdir_spec (h : Holds k g m) (ho : g.dir o ≠ 0)
    (hn : g.hand n = 0) :
    wp (walkpgdir (g.dir o) va true) (fun r m' => match r with
      | none => Holds k g m' ∧ g.tab o (pdx va) = 0 ∧ (g.free = [] ∨ g.sure = false)
      | some (t, j) => j = ptx va ∧ ∃ g', Opened o (pdx va) t g g' ∧ Holds k g' m') E m := by
  have htab : m.table (g.dir o) va = _ := h.table_eq ho
  unfold walkpgdir
  rw [wp_bind, wp_load]
  unfold Mem.table at htab
  by_cases ht : g.tab o (pdx va) = 0
  · rw [if_pos ht] at htab
    have hpr : present (m.word (g.dir o) (pdx va)) = false := by
      by_contra hc
      rw [if_pos (by simpa using hc)] at htab
      cases htab
    simp only [hpr, Bool.false_eq_true, if_false, Bool.not_true, wp_bind]
    refine wp_post (kalloc_spec h hn) fun r m₁ hr => ?_
    cases r with
    | none => exact ⟨hr.1, ht, hr.2⟩
    | some p =>
    obtain ⟨hp, l, hl, h1⟩ := hr
    have hr : ((g.setFree l).setHand n p).page (.hand n) = p := by simp
    -- memset(pgtab, 0, PGSIZE); *pde = V2P(pgtab) | PTE_P | PTE_W | PTE_U;
    have h2 := h1.touch (hr ▸ h1.plain (r := .hand n) (by rwa [hr]) (by simp) (by simp))
      fun _ => 0
    have h3 := h2.newTable (o := o) (i := pdx va) (n := n) (p := p)
      (by simp [Ghost.setHand]) hp ho (pdx_lt va) ht fun j => by
        simp only [Mem.word, Mem.setPage_page, if_true]
        exact Bytes.getLE_zero
    refine ⟨rfl, (g.setFree l).setTab o (pdx va) p, ⟨hp, .inr ⟨ht, l, hl, rfl⟩⟩, ?_⟩
    rw [Ghost.setHand_setHand (g := g.setFree l) hn] at h3
    rw [pde_eq]
    exact h3
  · rw [if_neg ht] at htab
    have hpr : present (m.word (g.dir o) (pdx va)) = true := by
      by_contra hc
      rw [if_neg hc] at htab
      cases htab
    rw [if_pos hpr] at htab
    simp only [hpr, if_true, Option.some.inj htab]
    exact ⟨rfl, g, ⟨ht, .inl ⟨rfl, rfl⟩⟩, h⟩

/-- `walkpgdir` writes to the directory and to a free page. -/
theorem walkpgdir_page (h : Holds k g m) (hn : g.hand n = 0) :
    wp (walkpgdir d va true) (fun _ m' => ∀ q, q ∉ g.free → q ≠ d → m'.page q = m.page q)
      (fun _ _ => False) m := by
  unfold walkpgdir
  rw [wp_bind, wp_load]
  cases present (m.word d (pdx va)) with
  | true => exact fun _ _ _ => rfl
  | false =>
  simp only [Bool.false_eq_true, if_false, Bool.not_true, wp_bind]
  refine wp_mono (wp_and (kalloc_spec h hn) kalloc_page) (fun r m₁ hr => ?_) fun _ _ he => he.1
  obtain ⟨hr, hpage⟩ := hr
  cases r with
  | none => exact fun q _ _ => congrFun hpage q
  | some p =>
    obtain ⟨-, l, hl, -⟩ := hr
    intro q hq hd
    have hqp : q ≠ p := fun he => hq (by rw [hl, he]; exact List.mem_cons_self)
    simp only [Mem.setWord, Mem.setPage_page, hd, hqp, if_false, hpage]

/-! ## Mapping -/

/-- Page `q` is not free, and no page of the directory of `o`. -/
structure Apart (o : ι) (g : Ghost ι κ) (q : ℕ) : Prop where
  free : q ∉ g.free
  dir : q ≠ g.dir o
  tab : ∀ i, q ≠ g.tab o i

section

omit [DecidableEq κ]

theorem Opened.tab_cases {t : ℕ} (h : Opened o i t g g') (j : ℕ) :
    g'.tab o j = g.tab o j ∨ g'.tab o j ∈ g.free ∧ g'.tab o j = t := by
  obtain ⟨-, ⟨rfl, -⟩ | ⟨-, l, hl, rfl⟩⟩ := h
  · exact .inl rfl
  by_cases hj : j = i
  · refine .inr ?_
    simp [Ghost.setTab, hj, hl]
  · simp [Ghost.setTab, Ghost.setFree, hj]

theorem Opened.tab_of_ne {t j : ℕ} (h : Opened o i t g g') (hj : g.tab o j ≠ 0) :
    g'.tab o j = g.tab o j := by
  obtain ⟨-, ⟨rfl, -⟩ | ⟨hz, l, -, rfl⟩⟩ := h
  · rfl
  have hji : j ≠ i := by
    rintro rfl
    exact hj hz
  simp [Ghost.setTab, Ghost.setFree, hji]

theorem Opened.free_subset {t q : ℕ} (h : Opened o i t g g') (hq : q ∈ g'.free) : q ∈ g.free := by
  obtain ⟨-, ⟨rfl, -⟩ | ⟨-, l, hl, rfl⟩⟩ := h
  · exact hq
  · rw [hl]
    exact List.mem_cons_of_mem _ hq

theorem Opened.free_cases {t q : ℕ} (h : Opened o i t g g') (hq : q ∈ g.free) :
    q ∈ g'.free ∨ ∃ j, g'.tab o j = q := by
  obtain ⟨-, ⟨rfl, -⟩ | ⟨-, l, hl, rfl⟩⟩ := h
  · exact .inl hq
  · rw [hl, List.mem_cons] at hq
    refine hq.symm.imp_right fun he => ⟨i, ?_⟩
    simp [Ghost.setTab, he]

theorem Opened.ne_tab {t q : ℕ} (h : Opened o i t g g') (hq : Apart o g q) : q ≠ g'.tab o j := by
  rcases h.tab_cases j with he | ⟨he, -⟩
  · rw [he]
    exact hq.tab j
  · exact fun hx => hq.free (hx ▸ he)

end

/-- Only free pages and those of the tree of `o` have been written. -/
structure Spares (o : ι) (g g' : Ghost ι κ) (m m' : Mem) : Prop where
  free : ∀ q ∈ g'.free, q ∈ g.free
  apart : ∀ q, Apart o g q → Apart o g' q
  page : ∀ q, Apart o g q → m'.page q = m.page q

omit [DecidableEq ι] [DecidableEq κ] in
theorem Spares.refl (o : ι) (g : Ghost ι κ) (hp : m'.page = m.page) : Spares o g g m m' :=
  ⟨fun _ => id, fun _ => id, fun q _ => congrFun hp q⟩

omit [DecidableEq ι] [DecidableEq κ] in
theorem Spares.trans {m'' : Mem} (h : Spares o g g' m m') (h' : Spares o g' g'' m' m'') :
    Spares o g g'' m m'' where
  free q hq := h.free q (h'.free q hq)
  apart q hq := h'.apart q (h.apart q hq)
  page q hq := (h'.page q (h.apart q hq)).trans (h.page q hq)

omit [DecidableEq κ] in
theorem Opened.spares {t j w : ℕ} (h : Opened o i t g g')
    (hp : ∀ q, q ∉ g.free → q ≠ g.dir o → m'.page q = m.page q) :
    Spares o g (g'.setEnt o v w) m (m'.setWord t j w) where
  free _ := h.free_subset
  apart q hq :=
    ⟨fun hx => hq.free (h.free_subset hx), fun hx => hq.dir (hx.trans (congrFun h.frame.dir o)),
      fun _ => h.ne_tab hq⟩
  page q hq := by
    have hne : q ≠ t := h.tab ▸ h.ne_tab hq
    simp only [Mem.setWord, Mem.setPage_page, hne, if_false, hp q hq.free hq.dir]

/-- One round of `mappages`: entering `pa` for the page of `a`, up to the store. -/
theorem mappages_step {Q : ℤ → Mem → Prop} {perm last fuel a pa : ℕ}
    (h : Holds k g m) (ho : g.dir o ≠ 0) (hn : g.hand n = 0) (ha : a < uintSize)
    (hfail : ∀ m', Holds k g m' → g.tab o (pdx a) = 0 → g.free = [] ∨ g.sure = false →
      (∀ q, q ∉ g.free → q ≠ g.dir o → m'.page q = m.page q) → Q (-1) m')
    (hremap : present (g.ent o (a / pgSize)) = true → ∀ m', E .remap m')
    (hok : ∀ g' m', Opened o (pdx a) (g'.tab o (pdx a)) g g' → Holds k g' m' →
      present (g.ent o (a / pgSize)) = false →
      (∀ q, q ∉ g.free → q ≠ g.dir o → m'.page q = m.page q) →
      wp (if a = last then pure 0 else mappagesLoop (g.dir o) perm last fuel
        ((a + pgSize) % uintSize) ((pa + pgSize) % uintSize)) Q E
        (m'.setWord (g'.tab o (pdx a)) (ptx a) (pa ||| perm ||| pteP))) :
    wp (mappagesLoop (g.dir o) perm last (fuel + 1) a pa) Q E m := by
  simp only [mappagesLoop, wp_bind]
  refine wp_mono (wp_and (walkpgdir_spec h ho hn) (walkpgdir_page h hn)) (fun r m₁ hr => ?_)
    fun _ _ he => he.1
  obtain ⟨hr, hpage⟩ := hr
  cases r with
  | none => exact hfail m₁ hr.1 hr.2.1 hr.2.2 hpage
  | some x =>
  obtain ⟨t, j⟩ := x
  obtain ⟨rfl, g', hop, h1⟩ := hr
  obtain rfl := hop.tab
  have ht : g'.tab o (pdx a) ≠ 0 := hop.1
  simp only [wp_bind, wp_load, h1.word_eq ht ha, hop.ent]
  cases hpr : present (g.ent o (a / pgSize)) with
  | true => exact hremap hpr m₁
  | false => exact hok g' m₁ hop h1 hpr hpage

theorem mappages_exact {perm : ℕ} {n' : ℕ} (h : Holds k g m) (ho : g.dir o ≠ 0) (hn : g.hand n = p)
    (hp : p ≠ 0) (hn' : g.hand n' = 0) (hv : v < userPages) (hperm : perm < pgSize) :
    wp (mappages (g.dir o) (v * pgSize) pgSize (p * pgSize) perm)
      (fun r m' => (∀ q, Apart o g q → m'.page q = m.page q) ∧
        (r = -1 ∧ Holds k g m' ∧ (g.free = [] ∨ g.sure = false) ∨
        r = 0 ∧ ∃ i g₁, Opened o i (g₁.tab o i) g g₁ ∧
          Holds k ((g₁.setHand n 0).setEnt o v (p * pgSize ||| perm ||| pteP)) m'))
      (fun e _ => e = .remap ∧ present (g.ent o v) = true) m := by
  have hlast : pgRoundDown ((v * pgSize + pgSize + uintSize - 1) % uintSize) = v * pgSize := by
    unfold pgRoundDown
    simp only [pgSize, uintSize, userPages, kernBase] at *
    omega
  have hdown : pgRoundDown (v * pgSize) = v * pgSize := by
    unfold pgRoundDown
    rw [Nat.mul_div_cancel _ (by decide)]
  have ha : v * pgSize < uintSize := by
    simp only [pgSize, uintSize, userPages, kernBase] at *; omega
  have hva : v * pgSize / pgSize = v := Nat.mul_div_cancel _ (by decide)
  unfold mappages
  rw [hlast, hdown]
  refine mappages_step h ho hn' ha
    (fun m' h' _ hf hpage => ⟨fun q hq => hpage q hq.free hq.dir, .inl ⟨rfl, h', hf⟩⟩)
    (fun hp _ => ⟨rfl, hva ▸ hp⟩) fun g' m' hop h' hpr hpage => ?_
  rw [if_pos rfl]
  have hidx := pdx_ptx ha
  rw [hva] at hidx hpr
  have hzero : g'.ent o v = 0 := by
    rw [hop.ent]
    rcases h.tables.ent_user o v hv with hz | ⟨hz, -⟩
    · exact hz
    · rw [hpr] at hz; cases hz
  have hplt : p < physPages := by
    have hr : g.page (.hand n) = p := hn
    exact hr ▸ h.lt_of_role (r := .hand n) (hr ▸ hp)
  have hmap := h'.map (w := p * pgSize ||| perm ||| pteP) (by rw [hop.frame.hand, hn]) hp hop.1
    (ptx_lt _) (by rwa [hidx]) (by rwa [hidx]) (entry_lt (page_lt hplt) hperm) present_entry
    (entry_div hperm)
  rw [hidx] at hmap
  refine ⟨fun q hq => ?_, .inr ⟨rfl, pdx (v * pgSize), g', hop, hmap⟩⟩
  have hqt : q ≠ g'.tab o (pdx (v * pgSize)) := hop.ne_tab hq
  simp only [Mem.setWord, Mem.setPage_page, hqt, if_false, hpage q hq.free hq.dir]

theorem mappages_user {perm : ℕ} {n' : ℕ} (h : Holds k g m) (ho : g.dir o ≠ 0) (hn : g.hand n = p)
    (hp : p ≠ 0) (hn' : g.hand n' = 0) (hv : v < userPages) (hperm : perm < pgSize) :
    wp (mappages (g.dir o) (v * pgSize) pgSize (p * pgSize) perm)
      (fun r m' => r = -1 ∧ Holds k g m' ∧ (g.free = [] ∨ g.sure = false) ∨
        r = 0 ∧ ∃ g', UserFrame o (g.setHand n 0) g' ∧ Holds k g' m' ∧ g'.ent o v / pgSize = p ∧
          g.free.length ≤ g'.free.length + 1)
      (fun e _ => e = .remap ∧ present (g.ent o v) = true) m := by
  refine wp_post (mappages_exact h ho hn hp hn' hv hperm) fun r m' hx => hx.2.imp_right ?_
  rintro ⟨hr, i, g₁, hop, h'⟩
  refine ⟨hr, _, (hop.frame.setHand n 0).trans (.setEnt hv _), h', ?_, hop.length_free⟩
  simp only [Ghost.setEnt, upd_upd_apply, and_self, if_true, entry_div hperm]

/-! ## Unmapping -/

theorem wp_store {i w : ℕ} {Q : Unit → Mem → Prop} :
    wp (store p i w) Q E m ↔ Q () (m.setWord p i w) := Iff.rfl

/-- The user pages of `o` from address `a` to `b` are not mapped any more. -/
structure Clears (o : ι) (a b : ℕ) (g g' : Ghost ι κ) : Prop extends UserFrame o g g' where
  clear : ∀ v, a ≤ v * pgSize → v * pgSize < b → g'.ent o v = 0
  keep : ∀ v, g.ent o v = 0 → g'.ent o v = 0

/-- The same, and nothing else: the pages are free again, and other pages keep their contents. -/
structure Unmaps (o : ι) (a b : ℕ) (g g' : Ghost ι κ) (m m' : Mem) :
    Prop extends Clears o a b g g' where
  same : ∀ v, ¬ (a ≤ v * pgSize ∧ v * pgSize < b) → g'.ent o v = g.ent o v
  tables : g'.tab = g.tab
  free : ∀ p, p ∈ g'.free ↔
    p ∈ g.free ∨ ∃ v, a ≤ v * pgSize ∧ v * pgSize < b ∧ g.ent o v ≠ 0 ∧ g.ent o v / pgSize = p
  page : ∀ q, q ∉ g'.free → q ≠ g.dir o → (∀ i, q ≠ g.tab o i) → m'.page q = m.page q

namespace Unmaps

omit [DecidableEq ι] [DecidableEq κ] in
theorem of_clear {a b : ℕ} (hc : ∀ v, a ≤ v * pgSize → v * pgSize < b → g.ent o v = 0) :
    Unmaps o a b g g m m where
  toUserFrame := .refl o g
  clear := hc
  keep _ := id
  same _ _ := rfl
  tables := rfl
  free p := by
    refine ⟨.inl, fun hp => hp.resolve_right ?_⟩
    rintro ⟨v, h1, h2, hne, -⟩
    exact hne (hc v h1 h2)
  page _ _ _ _ := rfl

omit [DecidableEq ι] [DecidableEq κ] in
/-- First the addresses up to `c`, then those from `a'` on. -/
theorem trans {a b c a' : ℕ} {m'' : Mem} (h : Unmaps o a c g g' m m')
    (h' : Unmaps o a' b g' g'' m' m'') (hr : ∀ x, a ≤ x ∧ x < b ↔ (a ≤ x ∧ x < c) ∨
      (a' ≤ x ∧ x < b)) : Unmaps o a b g g'' m m'' where
  toUserFrame := h.toUserFrame.trans h'.toUserFrame
  clear v h1 h2 := by
    rcases (hr _).1 ⟨h1, h2⟩ with hx | hx
    · exact h'.keep v (h.clear v hx.1 hx.2)
    · exact h'.clear v hx.1 hx.2
  keep v hv := h'.keep v (h.keep v hv)
  same v hv := by
    rw [hr] at hv
    rw [h'.same v fun hx => hv (.inr hx), h.same v fun hx => hv (.inl hx)]
  tables := h'.tables.trans h.tables
  free p := by
    rw [h'.free, h.free]
    constructor
    · rintro ((hp | ⟨v, h1, h2, hne, hv⟩) | ⟨v, h1, h2, hne, hv⟩)
      · exact .inl hp
      · have hx := (hr _).2 (.inl ⟨h1, h2⟩)
        exact .inr ⟨v, hx.1, hx.2, hne, hv⟩
      have hx := (hr _).2 (.inr ⟨h1, h2⟩)
      -- an entry that is still there was there before
      have he : g'.ent o v = g.ent o v := h.same v fun hc => hne (h.clear v hc.1 hc.2)
      rw [he] at hne hv
      exact .inr ⟨v, hx.1, hx.2, hne, hv⟩
    · rintro (hp | ⟨v, h1, h2, hne, hv⟩)
      · exact .inl (.inl hp)
      by_cases hc : a ≤ v * pgSize ∧ v * pgSize < c
      · exact .inl (.inr ⟨v, hc.1, hc.2, hne, hv⟩)
      · have hx := ((hr _).1 ⟨h1, h2⟩).resolve_left hc
        rw [← h.same v hc] at hne hv
        exact .inr ⟨v, hx.1, hx.2, hne, hv⟩
  page q hq hd ht := by
    have hq' : q ∉ g'.free := fun hx => hq ((h'.free q).2 (.inl hx))
    rw [h'.page q hq (by rwa [h.dir]) (by rwa [h.tables]), h.page q hq' hd ht]

omit [DecidableEq κ] in
theorem one {a : ℕ} (ha : a % pgSize = 0) (hv : a / pgSize < userPages)
    (hne : g.ent o (a / pgSize) ≠ 0) {i : ℕ} :
    Unmaps o a (a + pgSize) g
      ((g.setFree (g.ent o (a / pgSize) / pgSize :: g.free)).setEnt o (a / pgSize) 0) m
      ((m.freed (g.ent o (a / pgSize) / pgSize)).setWord (g.tab o i) j 0) := by
  have honly : ∀ v, a ≤ v * pgSize ∧ v * pgSize < a + pgSize ↔ v = a / pgSize := fun v => by
    simp only [pgSize] at *; omega
  refine ⟨⟨(UserFrame.setFree _).trans (.setEnt hv 0), fun v h1 h2 => ?_, fun v hz => ?_⟩,
    fun v hx => ?_,
    rfl, fun p => ?_, fun q hq _ ht => ?_⟩
  · rw [(honly v).1 ⟨h1, h2⟩]
    simp [Ghost.setEnt]
  · simp only [Ghost.setEnt, Ghost.setFree, upd_upd_apply, hz, ite_self]
  · rw [honly] at hx
    simp [Ghost.setEnt, Ghost.setFree, hx]
  · show p ∈ g.ent o (a / pgSize) / pgSize :: g.free ↔ _
    rw [List.mem_cons]
    constructor
    · rintro (rfl | hp)
      · have hx := (honly (a / pgSize)).2 rfl
        exact .inr ⟨_, hx.1, hx.2, hne, rfl⟩
      · exact .inl hp
    · rintro (hp | ⟨v, h1, h2, -, rfl⟩)
      · exact .inr hp
      · exact .inl (by rw [(honly v).1 ⟨h1, h2⟩])
  · have hqp : q ≠ g.ent o (a / pgSize) / pgSize :=
      fun he => hq (by rw [he]; exact List.mem_cons_self)
    rw [Mem.setWord, Mem.setPage_page, if_neg (ht i), m.freed_page hqp]

omit [DecidableEq ι] [DecidableEq κ] in
/-- A page starts at `a` and no other one before `a + PGSIZE`. -/
theorem cut {a b : ℕ} (h : Unmaps o a (a + pgSize) g g' m m') (ha : a % pgSize = 0) (hb : a < b) :
    Unmaps o a (min (a + pgSize) b) g g' m m' := by
  have hr : ∀ v, a ≤ v * pgSize ∧ v * pgSize < min (a + pgSize) b ↔ a ≤ v * pgSize ∧
      v * pgSize < a + pgSize :=
    fun v => by simp only [pgSize] at *; omega
  refine ⟨⟨h.toUserFrame, fun v h1 h2 => ?_, h.keep⟩, fun v hv => h.same v fun hx =>
    hv ((hr v).2 hx), h.tables, fun p => ?_, h.page⟩
  · have hx := (hr v).1 ⟨h1, h2⟩
    exact h.clear v hx.1 hx.2
  rw [h.free]
  refine or_congr_right (exists_congr fun v => ?_)
  have hv := hr v
  tauto

end Unmaps

theorem deallocuvmLoop_spec {oldsz fuel a : ℕ} (h : Holds k g m) (ho : g.dir o ≠ 0)
    (hold : oldsz ≤ kernBase) (ha : a % pgSize = 0) (hpos : 0 < fuel)
    (hf : oldsz + pgSize ≤ a + fuel * pgSize) :
    wp (deallocuvmLoop k (g.dir o) oldsz fuel a)
      (fun _ m' => ∃ g', Unmaps o a oldsz g g' m m' ∧ Holds k g' m') (fun _ _ => False) m := by
  induction fuel generalizing a g m with
  | zero => exact absurd hpos (lt_irrefl 0)
  | succ fuel ih =>
    simp only [deallocuvmLoop]
    rw [wp_ite]
    refine ⟨fun hlt => ?_, fun hge => ⟨g, .of_clear fun v h1 h2 => absurd h1 (by omega), h⟩⟩
    have hau : a < uintSize := lt_uintSize (by omega)
    have hpos' : 0 < fuel := by simp only [pgSize] at *; omega
    have hnext := @next_page a (by omega)
    have hva : a / pgSize < userPages := div_lt_userPages (by omega)
    rw [wp_bind, wp_walkpgdir_false, h.table_eq ho]
    by_cases ht : g.tab o (pdx a) = 0
    · simp only [ht, if_true, Option.map_none]
      have hskip : ((pgAddr (pdx a + 1) + uintSize - pgSize) % uintSize + pgSize) % uintSize =
          (pdx a + 1) * 2 ^ 22 := by
        unfold pgAddr pdx
        simp only [kernBase, uintSize, pgSize] at *
        omega
      have hle : a < (pdx a + 1) * 2 ^ 22 := by
        unfold pdx
        simp only [kernBase, uintSize, pgSize] at *
        omega
      have hal : (pdx a + 1) * 2 ^ 22 % pgSize = 0 := by simp only [pgSize]; omega
      rw [hskip]
      refine wp_post (ih h ho hal hpos' (by simp only [pgSize] at *; omega)) fun _ m' hx => ?_
      obtain ⟨g', hc, h'⟩ := hx
      -- no page of the missing table is mapped
      have hnone : ∀ v, a ≤ v * pgSize → v * pgSize < (pdx a + 1) * 2 ^ 22 → g.ent o v = 0 := by
        intro v h1 h2
        have hv : v / nEntries = pdx a := by
          unfold pdx at h2 ⊢
          simp only [kernBase, uintSize, pgSize, nEntries] at *
          omega
        exact h.tables.ent_none o v (hv ▸ ht)
      generalize (pdx a + 1) * 2 ^ 22 = a' at hle hnone hc
      have hcut : Unmaps o a (min a' oldsz) g g m m :=
        .of_clear fun v h1 h2 => hnone v h1 (lt_of_lt_of_le h2 (Nat.min_le_left _ _))
      exact ⟨g', hcut.trans hc fun x => by omega, h'⟩
    simp only [ht, if_false, Option.map_some, wp_bind, wp_load, h.word_eq ht hau]
    rw [hnext]
    have hgo : ∀ g₁ m₁, Holds k g₁ m₁ → Unmaps o a (a + pgSize) g g₁ m m₁ →
        wp (deallocuvmLoop k (g.dir o) oldsz fuel (a + pgSize))
          (fun _ m' => ∃ g', Unmaps o a oldsz g g' m m' ∧ Holds k g' m')
          (fun _ _ => False) m₁ := by
      intro g₁ m₁ h1 hun
      rw [← hun.dir]
      refine wp_post (ih h1 (by rwa [hun.dir]) (by simp only [pgSize] at *; omega) hpos'
        (by simp only [pgSize] at *; omega)) fun _ m' hx => ?_
      obtain ⟨g', hc, h'⟩ := hx
      have hcut : Unmaps o a (min (a + pgSize) oldsz) g g₁ m m₁ := hun.cut ha hlt
      exact ⟨g', hcut.trans hc fun x => by omega, h'⟩
    rcases h.tables.ent_user o _ hva with hz | ⟨hpr, hp⟩
    · simp only [hz, show present 0 = false from rfl, Bool.false_eq_true, if_false]
      refine hgo g m h (.of_clear fun v h1 h2 => ?_)
      rwa [show v = a / pgSize by simp only [pgSize] at *; omega]
    have hidx := pdx_ptx hau
    have haddr : pteAddr (g.ent o (a / pgSize)) ≠ 0 := by
      unfold pteAddr
      simp only [pgSize] at hp ⊢
      omega
    have hr : g.page (.user o (a / pgSize)) = g.ent o (a / pgSize) / pgSize := by
      simp only [Ghost.page, hva, if_true]
    have hkf := kfree_role h (r := .user o (a / pgSize)) (hr ▸ hp)
    rw [hr] at hkf
    have hun := h.unmap (j := ptx a) ht (ptx_lt a) (by rwa [hidx]) rfl (by rwa [hidx])
    rw [hidx] at hun
    simp only [hpr, haddr, if_true, if_false, wp_bind]
    refine wp_of_ok hkf (hgo _ _ hun (.one ha hva fun hz => ?_))
    rw [hz] at hpr
    cases hpr

theorem pgRoundUp_mod (a : ℕ) : pgRoundUp a % pgSize = 0 := Nat.mul_mod_left _ _

theorem pgRoundUp_eq {a : ℕ} (h : a ≤ kernBase) :
    pgRoundUp a = (a + pgSize - 1) / pgSize * pgSize := by
  unfold pgRoundUp
  rw [Nat.mod_eq_of_lt (by simp only [kernBase, pgSize, uintSize] at *; omega)]

theorem le_pgRoundUp {a : ℕ} (h : a ≤ kernBase) : a ≤ pgRoundUp a := by
  rw [pgRoundUp_eq h]
  simp only [pgSize]
  omega

/-- **`deallocuvm` unmaps exactly the pages it is asked to.** -/
theorem deallocuvm_exact {oldsz newsz : ℕ} (h : Holds k g m) (ho : g.dir o ≠ 0)
    (hold : oldsz ≤ kernBase) (hlt : newsz < oldsz) :
    wp (deallocuvm k (g.dir o) oldsz newsz)
      (fun r m' => r = newsz ∧ ∃ g', Unmaps o (pgRoundUp newsz) oldsz g g' m m' ∧ Holds k g' m')
      (fun _ _ => False) m := by
  unfold deallocuvm
  rw [if_neg (by omega)]
  show wp (deallocuvmLoop k (g.dir o) oldsz (2 ^ 20) (pgRoundUp newsz) >>= _) _ _ _
  refine wp_seq (deallocuvmLoop_spec h ho hold (pgRoundUp_mod newsz) (by decide) ?_)
    fun _ m' hx => ⟨rfl, hx⟩
  simp only [kernBase, pgSize] at *
  omega

theorem deallocuvm_spec {oldsz newsz : ℕ} (h : Holds k g m) (ho : g.dir o ≠ 0)
    (hold : oldsz ≤ kernBase) :
    wp (deallocuvm k (g.dir o) oldsz newsz)
    (fun r m' => r ≤ oldsz ∧ ∃ g', UserFrame o g g' ∧ Holds k g' m' ∧
      (newsz = 0 → 0 < oldsz → ∀ v, v * pgSize < oldsz → g'.ent o v = 0)) (fun _ _ => False) m := by
  by_cases hle : oldsz ≤ newsz
  · unfold deallocuvm
    rw [if_pos hle]
    exact ⟨le_rfl, g, .refl o g, h, fun _ _ => by omega⟩
  refine wp_post (deallocuvm_exact h ho hold (by omega)) fun r m' hx => ?_
  obtain ⟨hr, g', hc, h'⟩ := hx
  refine ⟨by omega, g', hc.toUserFrame, h', fun hz _ v hv => hc.clear v ?_ hv⟩
  rw [hz, show pgRoundUp 0 = 0 by decide]
  exact zero_le

/-- The ghost state without the directory of `o`. -/
def Ghost.erase (g : Ghost ι κ) (o : ι) : Ghost ι κ :=
  { g with dir := upd g.dir o 0, tab := upd g.tab o fun _ => 0, ent := upd g.ent o fun _ => 0 }

omit [DecidableEq κ] in
theorem Frame.erase {l : List ℕ} (h : Frame o g g') :
    (g'.erase o).setFree l = (g.erase o).setFree l := by
  have hupd : ∀ {f f' : ι → ℕ → ℕ}, (∀ o', o' ≠ o → f' o' = f o') →
      upd f' o (fun _ => 0) = upd f o fun _ => 0 := fun {f f'} hff => by
    funext o'
    by_cases hoo : o' = o
    · simp [hoo]
    · simp [hoo, hff o' hoo]
  refine Ghost.ext ?_ (hupd h.tab) (hupd h.ent) h.hand h.other rfl h.sure
  show upd g'.dir o 0 = upd g.dir o 0
  rw [h.dir]

/-- The ghost state with the places `a` to `b` of the hand empty and the free list `l`. -/
def Ghost.handFree (g : Ghost ι κ) (a b : ℕ) (l : List ℕ) : Ghost ι κ :=
  { g with hand := fun j => if a ≤ j ∧ j < b then 0 else g.hand j, free := l }

/-- The loop of `freevm`, with the tables and the directory in hand; only the tables are written
to. -/
theorem freevmLoop_spec {t : ℕ → ℕ} (h : Holds k g m) (hin : i + n = nEntries)
    (hw : ∀ j, i ≤ j → j < nEntries → m.word d j = if t j = 0 then 0 else t j * pgSize + 7)
    (htab : ∀ j, i ≤ j → j < nEntries → g.hand j = t j) (hd : g.hand nEntries = d) :
    wp (freevmLoop k d i n) (fun _ m' => (∃ l, Holds k (g.handFree i nEntries l) m') ∧
      ∀ q, (∀ j, i ≤ j → j < nEntries → q ≠ t j) → m'.page q = m.page q) (fun _ _ => False) m := by
  induction n generalizing g m i with
  | zero =>
    refine ⟨⟨g.free, ?_⟩, fun _ _ => rfl⟩
    have : g.handFree i nEntries g.free = g := by
      unfold Ghost.handFree
      congr
      funext j
      rw [if_neg (by omega)]
    rw [this]
    exact h
  | succ n ih =>
    simp only [freevmLoop, wp_bind, wp_load]
    rw [hw i (le_refl i) (by omega)]
    have hi := htab i (le_refl i) (by omega)
    by_cases ht : t i = 0
    · simp only [ht, if_true, show present 0 = false from rfl, Bool.false_eq_true, if_false]
      refine wp_post
        (ih h (by omega) (fun j hj => hw j (by omega)) (fun j hj => htab j (by omega)) hd)
        fun _ m' hx => ?_
      obtain ⟨⟨l, hl⟩, hpage⟩ := hx
      refine ⟨⟨l, ?_⟩, fun q hq => hpage q fun j hj => hq j (by omega)⟩
      have : g.handFree (i + 1) nEntries l = g.handFree i nEntries l := by
        unfold Ghost.handFree
        congr
        funext j
        by_cases hj : j = i
        · rw [if_neg (by omega), if_pos (by omega), hj, hi, ht]
        · by_cases hc : i + 1 ≤ j ∧ j < nEntries
          · rw [if_pos hc, if_pos (by omega)]
          · rw [if_neg hc, if_neg (by omega)]
      exact this ▸ hl
    simp only [ht, if_false, present_pde, if_true, pde_div, wp_bind]
    have hr : g.page (.hand i) = t i := hi
    have hkf := kfree_role h (r := .hand i) (hr ▸ ht)
    rw [hr] at hkf
    have hne : d ≠ t i := fun he => by
      have : (.hand i : Role ι κ) = .hand nEntries :=
        h.role_inj (hr ▸ ht) (hr.trans (he.symm.trans hd.symm))
      simp only [Role.hand.injEq] at this
      omega
    refine wp_of_ok hkf ?_
    refine wp_post (ih (h.free_hand hi ht) (by omega) (fun j hj hlt => ?_)
      (fun j hj hlt => ?_) ?_) fun _ m' hx => ?_
    · rw [Mem.word_congr (m.freed_page hne), hw j (by omega) hlt]
    · simp only [Ghost.setHand, upd_eq_update, Function.update_of_ne (show j ≠ i by omega)]
      exact htab j (by omega) hlt
    · simp only [Ghost.setHand, upd_eq_update, Function.update_of_ne (show nEntries ≠ i by omega)]
      exact hd
    obtain ⟨⟨l, hl⟩, hpage⟩ := hx
    refine ⟨⟨l, ?_⟩, fun q hq => ?_⟩
    rotate_left
    · rw [hpage q fun j hj => hq j (by omega), m.freed_page (hq i (le_refl i) (by omega))]
    have : ((g.setFree (t i :: g.free)).setHand i 0).handFree (i + 1) nEntries l =
        g.handFree i nEntries l := by
      unfold Ghost.handFree
      simp only [Ghost.setHand, Ghost.setFree]
      congr
      funext j
      by_cases hj : j = i
      · rw [if_neg (by omega), if_pos (by omega), hj]; simp
      · by_cases hc : i + 1 ≤ j ∧ j < nEntries
        · rw [if_pos hc, if_pos (by omega)]
        · rw [if_neg hc, if_neg (by omega)]; simp [hj]
    exact this ▸ hl

/-- `freevm` writes only to what belongs to the directory. -/
theorem freevm_exact (h : Holds k g m) (hd : g.dir o = d) (ho : d ≠ 0) (hh : ∀ n, g.hand n = 0) :
    wp (freevm k d) (fun _ m' => (∃ l, Holds k ((g.erase o).setFree l) m') ∧
      ∀ r : Role ι κ, ¬ r.of o → g.page r ≠ 0 → m'.page (g.page r) = m.page (g.page r))
      (fun _ _ => False) m := by
  subst hd
  unfold freevm
  refine wp_seq (deallocuvm_exact h ho (Nat.le_refl _) (by decide)) fun _ m₁ hx => ?_
  obtain ⟨-, g₁, hf, h1⟩ := hx
  have hz : ∀ v < userPages, g₁.ent o v = 0 := fun v hv =>
    hf.clear v (by rw [show pgRoundUp 0 = 0 by decide]; exact zero_le)
      (by simp only [userPages, kernBase, pgSize] at *; omega)
  have h2 := h1.dropDir (o := o) (fun n _ => by rw [hf.hand, hh]) hz
  have hdir := hf.dir
  rw [wp_bind, ← hdir]
  rw [← hdir] at ho
  refine wp_post (freevmLoop_spec (t := g₁.tab o) (d := g₁.dir o) h2 (Nat.zero_add _)
    (fun j _ hj => h1.tables.pde o j ho hj) (fun j _ hj => ?_) ?_) fun _ m₃ hx => ?_
  · simp only [Ghost.drop, hj, if_true]
  · simp [Ghost.drop]
  obtain ⟨⟨l, h3⟩, hpage⟩ := hx
  have hd : ((g₁.drop o).handFree 0 nEntries l).hand nEntries = g₁.dir o := by
    simp [Ghost.drop, Ghost.handFree]
  have hkf := kfree_role h3 (r := .hand nEntries) (by rwa [Ghost.page, hd])
  rw [Ghost.page, hd] at hkf
  refine wp_of_ok hkf ⟨⟨g₁.dir o :: l, ?_⟩, fun r hr hr0 => ?_⟩
  · have h4 := h3.free_hand hd ho
    -- the hand is empty again
    rw [← hf.toFrame.erase]
    convert h4 using 1
    refine Ghost.ext rfl rfl rfl ?_ rfl rfl rfl
    funext j
    show g₁.hand j = upd (fun j => if 0 ≤ j ∧ j < nEntries then 0 else (g₁.drop o).hand j)
      nEntries 0 j
    rw [hf.hand, hh]
    simp only [Ghost.drop, hf.hand, hh, upd]
    split_ifs <;> first | rfl | omega
  -- the page has no role for `o`
  have hne : ∀ r' : Role ι κ, r'.of o → g.page r ≠ g.page r' := fun r' hr' he =>
    hr (h.role_inj hr0 he ▸ hr')
  have hnd : g.page r ≠ g.dir o := hne (.dir o) rfl
  have hnt : ∀ j, g.page r ≠ g.tab o j := fun j => hne (.table o j) rfl
  have hfree : g.page r ∉ g₁.free := fun hx => by
    rcases (hf.free _).1 hx with hx | ⟨v, -, hv, -, hp⟩
    · exact h.not_free hr0 hx
    · have hv : v < userPages := lt_userPages_iff.2 (by omega)
      exact hne (.user o v) rfl (by simp only [Ghost.page, hv, if_true]; exact hp.symm)
  rw [m₃.freed_page (hdir ▸ hnd), hpage _ fun j _ _ => by rw [hf.tables]; exact hnt j,
    hf.page _ hfree hnd hnt]

/-- **`freevm` gives back everything** that belongs to a directory. -/
theorem freevm_spec (h : Holds k g m) (hd : g.dir o = d) (ho : d ≠ 0) (hh : ∀ n, g.hand n = 0) :
    wp (freevm k d) (fun _ m' => ∃ l, Holds k ((g.erase o).setFree l) m') (fun _ _ => False) m :=
  wp_post (freevm_exact h hd ho hh) fun _ _ => And.left

end Vm

end Xv6
