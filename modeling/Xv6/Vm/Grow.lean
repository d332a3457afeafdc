import Xv6.Vm.Kernel

/-!
# Growing and shrinking an address space

`allocuvm` and `deallocuvm` as the process sees them: `Mem.look` is what the hardware makes of a
virtual address, and `Space` is a directory whose mapped user pages are those below a size.  The
ghost states only say which pages are free.

* `allocuvm_deallocuvm` : **what `allocuvm` adds, and that `deallocuvm` takes it away again**.
-/

namespace Xv6

open Option

namespace Vm

/-! ## What the hardware sees -/

/-- The physical address, the flags and the byte at `va`. -/
def Mem.look (m : Mem) (d va : ℕ) : Option (ℕ × ℕ × UInt8) :=
  (m.translate d va).map fun x => (x.1, x.2, m.page (x.1 / pgSize) (x.1 % pgSize))

variable {ι κ : Type} {k : Symbols} {g g' : Ghost ι κ} {m m' : Mem} {o : ι}
  {d p v va sz oldsz newsz : ℕ}

theorem pteAddr_div (w : ℕ) : (pteAddr w + va % pgSize) / pgSize = w / pgSize := by
  simp only [pteAddr, pgSize]
  omega

theorem Holds.translate_eq (h : Holds k g m) (ho : g.dir o ≠ 0) (hva : va < uintSize) :
    m.translate (g.dir o) va = if present (g.ent o (va / pgSize)) = true then
      some (pteAddr (g.ent o (va / pgSize)) + va % pgSize, pteFlags (g.ent o (va / pgSize)))
        else none := by
  unfold Mem.translate Mem.pte
  rw [h.table_eq ho]
  by_cases ht : g.tab o (pdx va) = 0
  · rw [if_pos ht, h.ent_of_tab ht hva]
    rfl
  rw [if_neg ht, map_some, h.word_eq ht hva, filter_some]
  by_cases hp : present (g.ent o (va / pgSize)) = true
  · rw [if_pos hp, if_pos hp, map_some]
  · rw [if_neg hp, if_neg hp, map_none]

theorem Holds.look_eq (h : Holds k g m) (ho : g.dir o ≠ 0) (hva : va < kernBase) :
    m.look (g.dir o) va = if g.ent o (va / pgSize) = 0 then none else
      some (g.ent o (va / pgSize) / pgSize * pgSize + va % pgSize, g.ent o (va / pgSize) % pgSize,
        m.page (g.ent o (va / pgSize) / pgSize) (va % pgSize)) := by
  have hv : va / pgSize < userPages := div_lt_userPages (by omega)
  rw [Mem.look, h.translate_eq ho (lt_uintSize (by omega))]
  rcases h.tables.ent_user o _ hv with hz | ⟨hpr, hne⟩
  · rw [if_pos hz, hz]
    rfl
  have hne' : g.ent o (va / pgSize) ≠ 0 := fun hz => hne (by rw [hz]; rfl)
  have hoff : (pteAddr (g.ent o (va / pgSize)) + va % pgSize) % pgSize = va % pgSize := by
    simp only [pteAddr, pgSize]
    omega
  rw [if_neg hne', if_pos hpr, map_some, pteAddr_div, hoff]
  rfl

theorem Holds.look_isSome (h : Holds k g m) (ho : g.dir o ≠ 0) (hva : va < kernBase) :
    (m.look (g.dir o) va).isSome ↔ g.ent o (va / pgSize) ≠ 0 := by
  rw [h.look_eq ho hva]
  by_cases hz : g.ent o (va / pgSize) = 0 <;> simp [hz]

theorem Holds.look_congr (h : Holds k g m) (h' : Holds k g' m') (ho : g.dir o ≠ 0)
    (hd : g'.dir o = g.dir o) (hva : va < kernBase)
    (he : g'.ent o (va / pgSize) = g.ent o (va / pgSize)) (hp : g.ent o (va / pgSize) ≠ 0 →
      m'.page (g.ent o (va / pgSize) / pgSize) = m.page (g.ent o (va / pgSize) / pgSize)) :
    m'.look (g.dir o) va = m.look (g.dir o) va := by
  rw [h.look_eq ho hva, ← hd, h'.look_eq (by rwa [hd]) hva, he]
  by_cases hz : g.ent o (va / pgSize) = 0
  · rw [if_pos hz, if_pos hz]
  · rw [if_neg hz, if_neg hz, hp hz]

/-- Page `d` is the page directory of `o`, and no function is running. -/
structure Dir (k : Symbols) (g : Ghost ι κ) (o : ι) (d : ℕ) (m : Mem) : Prop where
  holds : Holds k g m
  dir : g.dir o = d
  ne : d ≠ 0
  hand : ∀ n, g.hand n = 0

/-- A page directory whose mapped user pages are exactly those below `PGROUNDUP(sz)`. -/
structure Space (k : Symbols) (g : Ghost ι κ) (o : ι) (d sz : ℕ) (m : Mem) :
    Prop extends Dir k g o d m where
  size : sz ≤ kernBase
  exact : ∀ va < kernBase, (m.look d va).isSome ↔ va < pgRoundUp sz

theorem lt_pgRoundUp_iff (hsz : sz ≤ kernBase) : va < pgRoundUp sz ↔ va / pgSize * pgSize < sz := by
  rw [pgRoundUp_eq hsz]
  simp only [pgSize]
  omega

theorem pgRoundUp_le (hsz : sz ≤ kernBase) : pgRoundUp sz ≤ kernBase := by
  rw [pgRoundUp_eq hsz]
  simp only [pgSize, kernBase] at *
  omega

theorem pgRoundUp_mono (hle : oldsz ≤ newsz) (hsz : newsz ≤ kernBase) :
    pgRoundUp oldsz ≤ pgRoundUp newsz := by
  rw [pgRoundUp_eq hsz, pgRoundUp_eq (hle.trans hsz)]
  simp only [pgSize]
  omega

theorem le_page_iff : pgRoundUp sz ≤ va / pgSize * pgSize ↔ pgRoundUp sz ≤ va := by
  have := pgRoundUp_mod sz
  simp only [pgSize] at *
  omega

namespace Space

theorem ent_iff (h : Space k g o d sz m) (hv : v < userPages) :
    g.ent o v ≠ 0 ↔ v * pgSize < sz := by
  have hva : v * pgSize < kernBase := by simp only [kernBase, userPages, pgSize] at *; omega
  have hx := h.exact _ hva
  rw [← h.dir, h.holds.look_isSome (by rw [h.dir]; exact h.ne) hva, lt_pgRoundUp_iff h.size,
    Nat.mul_div_cancel _ (by decide)] at hx
  exact hx

theorem of_ent (h : Dir k g o d m) (hsz : sz ≤ kernBase)
    (he : ∀ v < userPages, g.ent o v ≠ 0 ↔ v * pgSize < sz) : Space k g o d sz m := by
  refine ⟨h, hsz, fun va hva => ?_⟩
  have hv : va / pgSize < userPages := div_lt_userPages (by omega)
  rw [← h.dir, h.holds.look_isSome (by rw [h.dir]; exact h.ne) hva, lt_pgRoundUp_iff hsz, he _ hv]

end Space

/-! ## `allocuvm` and `deallocuvm` -/

/-- What a successful `allocuvm` has done: the new pages were free, are full of zeros and have no
other use, and no other translation has changed. -/
structure Grown (g g' : Ghost ι κ) (o : ι) (d oldsz newsz : ℕ) (m m' : Mem) : Prop where
  fresh : ∀ va, pgRoundUp oldsz ≤ va → va < pgRoundUp newsz → ∃ p ∈ g.free,
    m'.look d va = some (p * pgSize + va % pgSize, pteP ||| pteW ||| pteU, 0) ∧
    ∀ r, g'.page r = p → r = .user o (va / pgSize)
  same : ∀ va < kernBase, ¬ (pgRoundUp oldsz ≤ va ∧ va < pgRoundUp newsz) →
    m'.look d va = m.look d va
  kernel : ∀ va, kernBase ≤ va → va < uintSize → m'.translate d va = m.translate d va
  others : ∀ o', o' ≠ o → g.dir o' ≠ 0 →
    (∀ va < kernBase, m'.look (g.dir o') va = m.look (g.dir o') va) ∧
    ∀ va < uintSize, m'.translate (g.dir o') va = m.translate (g.dir o') va

theorem userPerm_entry (p v : ℕ) : p * pgSize ||| userPerm v ||| pteP = p * pgSize + 7 :=
  @entry_eq p (pteW ||| pteU) (by decide)

theorem Grows.look {a b : ℕ} {perm : ℕ → ℕ} {c : ℕ → Bytes} {o' : ι}
    (hg : Grows o a b perm c g g' m m') (h : Holds k g m) (h' : Holds k g' m') (ho : g.dir o' ≠ 0)
    (hva : va < kernBase) (he : g'.ent o' (va / pgSize) = g.ent o' (va / pgSize)) :
    m'.look (g.dir o') va = m.look (g.dir o') va := by
  have hv : va / pgSize < userPages := div_lt_userPages (by omega)
  exact h.look_congr h' ho (congrFun hg.dir o') hva he fun hne => hg.page _ (h.apart_ent hv hne)

theorem Unmaps.look {a b : ℕ} (hun : Unmaps o a b g g' m m') (h : Holds k g m) (h' : Holds k g' m')
    (ho : g.dir o ≠ 0) (hva : va < kernBase) :
    m'.look (g.dir o) va =
      if a ≤ va / pgSize * pgSize ∧
        va / pgSize * pgSize < b then none else m.look (g.dir o) va := by
  have hv : va / pgSize < userPages := div_lt_userPages (by omega)
  split_ifs with hr
  · rw [← hun.dir, h'.look_eq (by rwa [hun.dir]) hva, if_pos (hun.clear _ hr.1 hr.2)]
  have he := hun.same _ hr
  refine h.look_congr h' ho (congrFun hun.dir o) hva he fun hne => ?_
  have hap : Apart o g' (g'.ent o (va / pgSize) / pgSize) := h'.apart_ent hv (by rwa [he])
  rw [he] at hap
  exact hun.page _ hap.free (by rw [← hun.dir]; exact hap.dir)
    (by rw [← hun.tables]; exact hap.tab)

/-- The pages at the addresses from `a` to `b` have gone to the free list. -/
def Released (g g' : Ghost ι κ) (d a b : ℕ) (m : Mem) : Prop :=
  ∀ p, p ∈ g'.free ↔ p ∈ g.free ∨ ∃ va x, a ≤ va ∧ va < b ∧ m.look d va = some x ∧ x.1 / pgSize = p

theorem Unmaps.released (hun : Unmaps o (pgRoundUp newsz) oldsz g g' m m') (h : Holds k g m)
    (ho : g.dir o ≠ 0) (hold : oldsz ≤ kernBase) : Released g g' (g.dir o) (pgRoundUp newsz)
    (pgRoundUp oldsz) m := by
  intro p
  rw [hun.free]
  refine or_congr_right ⟨?_, ?_⟩
  · rintro ⟨v, h1, h2, hne, rfl⟩
    have hva : v * pgSize < kernBase := h2.trans_le hold
    have hv : v * pgSize / pgSize = v := Nat.mul_div_cancel _ (by decide)
    have hlook := h.look_eq (o := o) ho hva
    rw [hv, if_neg hne] at hlook
    refine ⟨v * pgSize, _, h1, (lt_pgRoundUp_iff hold).2 (by rwa [hv]), hlook, ?_⟩
    rw [Nat.mul_mod_left, add_zero, Nat.mul_div_cancel _ (by decide)]
  rintro ⟨va, x, h1, h2, hx, rfl⟩
  have hva : va < kernBase := h2.trans_le (pgRoundUp_le hold)
  rw [h.look_eq ho hva] at hx
  split_ifs at hx with hz
  cases hx
  refine ⟨va / pgSize, le_page_iff.2 h1, (lt_pgRoundUp_iff hold).1 h2, hz, ?_⟩
  simp only [pgSize]
  omega

variable [DecidableEq ι] [DecidableEq κ]

theorem Dir.deallocuvm (hd : Dir k g o d m) (hold : oldsz ≤ kernBase) :
    wp (deallocuvm k d oldsz newsz) (fun r m' => r = min oldsz newsz ∧ ∃ g', Dir k g' o d m' ∧
      (newsz < oldsz → Unmaps o (pgRoundUp newsz) oldsz g g' m m') ∧
      (oldsz ≤ newsz → g' = g ∧ m' = m))
      (fun _ _ => False) m := by
  obtain ⟨h, rfl, hne, hh⟩ := hd
  by_cases hle : oldsz ≤ newsz
  · unfold Vm.deallocuvm
    rw [if_pos hle]
    exact ⟨(min_eq_left hle).symm, g, ⟨h, rfl, hne, hh⟩, fun hlt => absurd hle (by omega),
      fun _ => ⟨rfl, rfl⟩⟩
  refine wp_post (deallocuvm_exact h hne hold (by omega)) fun r m' hx => ?_
  obtain ⟨hr, g', hun, h'⟩ := hx
  exact ⟨by omega, g', ⟨h', by rw [hun.dir], hne, fun n => by rw [hun.hand]; exact hh n⟩,
    fun _ => hun, fun hx => absurd hx hle⟩

/-- `allocuvm`, where the pages from `PGROUNDUP(oldsz)` on are not mapped. -/
theorem Space.allocuvm (hs : Space k g o d oldsz m) (hle : oldsz ≤ newsz) (hlt : newsz < kernBase) :
    wp (allocuvm k d oldsz newsz) (fun r m' =>
      r = newsz ∧ (∃ g', Space k g' o d newsz m' ∧ Adds o (pgRoundUp oldsz) newsz g g' m m') ∨
      r = 0 ∧ ∃ g', Space k g' o d oldsz m' ∧ Adds o 0 0 g g' m m') (fun _ _ => False) m := by
  have hent : ∀ v, pgRoundUp oldsz ≤ v * pgSize → v * pgSize < newsz → g.ent o v = 0 :=
      fun v h1 h2 => by
    have hv : v < userPages := lt_userPages_iff.2 (by omega)
    have hx := (hs.ent_iff hv).not.2 (by have := le_pgRoundUp hs.size; omega)
    exact not_not.1 hx
  have hspace : ∀ {g' : Ghost ι κ} {m' : Mem} {sz : ℕ}, Holds k g' m' → UserFrame o g g' →
    sz ≤ kernBase → (∀ v < userPages, g'.ent o v ≠ 0 ↔ v * pgSize < sz) → Space k g' o d sz m' :=
      fun {g' m' sz} h' hf hsz he =>
    .of_ent ⟨h', by rw [hf.dir, hs.dir], hs.ne, fun n => by rw [hf.hand]; exact hs.hand n⟩ hsz he
  have hne := hs.ne
  rw [← hs.dir] at hne ⊢
  refine wp_mono (allocuvm_exact hs.holds hne (hs.hand 0) (hs.hand 1) hle hlt) (fun r m' hx => ?_)
    fun e _ he => ?_
  · rcases hx with ⟨hr, g', hg, h'⟩ | ⟨hr, -, b, g₁, m₁, g', hb, hbn, hg, hun, h'⟩
    · refine .inl ⟨hr, g', hs.dir ▸ hspace h' hg.toUserFrame hlt.le fun v hv => ?_, hg⟩
      by_cases hr : pgRoundUp oldsz ≤ v * pgSize ∧ v * pgSize < newsz
      · simp only [(hg.ent_div userPerm_lt hr.1 hr.2).1, hr.2, ne_eq, not_false_eq_true]
      rw [hg.same v hr, hs.ent_iff hv]
      have hup : v * pgSize < pgRoundUp oldsz ↔ v * pgSize / pgSize * pgSize < oldsz :=
        lt_pgRoundUp_iff hs.size
      rw [Nat.mul_div_cancel _ (by decide)] at hup
      omega
    · have hback := hg.undo hun userPerm_lt (le_refl _) hbn.le hent
      refine .inr ⟨hr, g', hs.dir ▸ hspace h' hback.toUserFrame hs.size fun v hv => ?_, hback⟩
      rw [hback.same v (by omega), hs.ent_iff hv]
  · obtain ⟨-, v, h1, h2, hne⟩ := he
    exact hne (hent v h1 h2)

/-- **`deallocuvm` is exact**, also where page tables are missing. -/
theorem Dir.shrink (hd : Dir k g o d m) (hold : oldsz ≤ kernBase) (hnew : newsz ≤ kernBase) :
    wp (Vm.deallocuvm k d oldsz newsz)
    (fun r m' => r = min oldsz newsz ∧ ∃ g' : Ghost ι κ, Dir k g' o d m' ∧
      (∀ va < kernBase, m'.look d va =
        if pgRoundUp newsz ≤ va ∧ va < pgRoundUp oldsz then none else m.look d va) ∧
      Released g g' d (pgRoundUp newsz) (pgRoundUp oldsz) m) (fun _ _ => False) m := by
  refine wp_post (hd.deallocuvm hold) fun r m' hx => ?_
  obtain ⟨hr, g', hd', hun, hsame⟩ := hx
  refine ⟨hr, g', hd', ?_⟩
  have hne := hd.ne
  by_cases hle : oldsz ≤ newsz
  · obtain ⟨rfl, rfl⟩ := hsame hle
    have hmono := pgRoundUp_mono hle hnew
    refine ⟨fun va hva => by rw [if_neg (by omega)], fun p => ⟨.inl, fun hp => hp.resolve_right ?_⟩⟩
    rintro ⟨va, x, h1, h2, -⟩
    omega
  · have hun := hun (by omega)
    rw [← hd.dir] at hne ⊢
    refine ⟨fun va hva => ?_, hun.released hd.holds hne hold⟩
    simp only [hun.look hd.holds hd'.holds hne hva, le_page_iff, ← lt_pgRoundUp_iff hold]

/-- A directory with one user page; a hundred pages are free. -/
def lone : Mem :=
  ((hundred.setPage 400 (Bytes.zero.putLE 4 0 (401 * pgSize + 7))).setPage 401
    (Bytes.zero.putLE 4 0 (402 * pgSize + 7))).setPage 402 Bytes.zero

/-- What the pages of `lone` are used for. -/
def loneGhost : Ghost Unit ℕ where
  dir _ := 400
  tab _ i := if i = 0 then 401 else 0
  ent _ v := if v = 0 then 402 * pgSize + 7 else 0
  hand _ := 0
  other p := if (300 ≤ p ∧ p < physPages ∧ p ∉ List.range' 300 100) ∧ p ≠ 400 ∧ p ≠ 401 ∧
    p ≠ 402 then p else 0
  free := List.range' 300 100
  sure := true

theorem loneGhost_page {r : Role Unit ℕ} (hr : loneGhost.page r ≠ 0) :
    (300 ≤ loneGhost.page r ∧ loneGhost.page r < physPages ∧
      loneGhost.page r ∉ List.range' 300 100) ∧
    (loneGhost.page r = 400 ∧ r = .dir () ∨ loneGhost.page r = 401 ∧ r = .table () 0 ∨
      loneGhost.page r = 402 ∧ r = .user () 0 ∨
      (loneGhost.page r ≠ 400 ∧ loneGhost.page r ≠ 401 ∧ loneGhost.page r ≠ 402) ∧
      r = .other (loneGhost.page r)) := by
  have hbound : ∀ p, p = 400 ∨ p = 401 ∨ p = 402 → 300 ≤ p ∧ p < physPages ∧
      p ∉ List.range' 300 100 := by
    rintro p (rfl | rfl | rfl) <;> decide
  cases r with
  | dir o => exact ⟨hbound _ (.inl rfl), .inl ⟨rfl, rfl⟩⟩
  | table o i =>
    by_cases hi : i = 0
    · subst hi
      exact ⟨hbound _ (.inr (.inl rfl)), .inr (.inl ⟨rfl, rfl⟩)⟩
    · exact absurd (if_neg hi) hr
  | user o v =>
    by_cases hv : v = 0
    · subst hv
      have he : loneGhost.page (.user o 0) = 402 := by cases o; decide
      exact ⟨hbound _ (.inr (.inr he)), .inr (.inr (.inl ⟨he, rfl⟩))⟩
    · exact absurd (by simp [Ghost.page, loneGhost, hv]) hr
  | hand n => exact absurd rfl hr
  | other p =>
    by_cases hp : (300 ≤ p ∧ p < physPages ∧ p ∉ List.range' 300 100) ∧ p ≠ 400 ∧ p ≠ 401 ∧ p ≠ 402
    · have he : loneGhost.page (.other p) = p := if_pos hp
      rw [he]
      exact ⟨hp.1, .inr (.inr (.inr ⟨hp.2, rfl⟩))⟩
    · exact absurd (if_neg hp) hr

theorem lone_word {p x i : ℕ} (hx : x < 2 ^ 32) (hp : lone.page p = Bytes.zero.putLE 4 0 x) :
    lone.word p i = if i = 0 then x else 0 := by
  rw [Mem.word, hp]
  split_ifs with hi
  · subst hi
    exact Bytes.getLE_putLE.trans (Nat.mod_eq_of_lt hx)
  · rw [Bytes.putLE, Bytes.getLE_copy_of_disjoint (by omega), Bytes.getLE_zero]

theorem lone_holds : Holds someSymbols loneGhost lone where
  tables := by
    refine ⟨fun o i _ _ => ?_, fun o i j hi _ => ?_, fun o i hi => ?_, fun o v hv => ?_,
      fun o v _ => ?_⟩
    · rw [lone_word (p := loneGhost.dir o) (x := 401 * pgSize + 7) (by decide) rfl]
      by_cases hi : i = 0 <;> simp [loneGhost, hi]
    · have hi : i = 0 := by
        by_contra hne
        exact hi (if_neg hne)
      subst hi
      rw [lone_word (p := loneGhost.tab o 0) (x := 402 * pgSize + 7) (by decide) rfl]
      simp [loneGhost]
    · rcases hi with hi | hi
      · cases hi
      · exact if_neg (by simp only [nEntries] at hi; omega)
    · have hne : v / nEntries ≠ 0 := fun h0 => by
        simp [loneGhost, h0] at hv
      exact if_neg fun h0 => hne (by rw [h0]; rfl)
    · by_cases hv : v = 0
      · subst hv
        cases o
        exact .inr (by decide)
      · exact .inl (if_neg hv)
  pool := by
    have hplain : ∀ p, p = 400 ∨ p = 401 ∨ p = 402 →
        Plain (idle someSymbols (List.range' 300 100) true) p := by
      rintro p (rfl | rfl | rfl) <;> exact ⟨by decide, fun _ h => h.symm, fun _ _ h => h.symm⟩
    have hidle := (((hundred_freeList.holds true fun _ _ => rfl).touch (hplain 400 (.inl rfl))
      (Bytes.zero.putLE 4 0 (401 * pgSize + 7))).touch (hplain 401 (.inr (.inl rfl)))
      (Bytes.zero.putLE 4 0 (402 * pgSize + 7))).touch (hplain 402 (.inr (.inr rfl))) Bytes.zero
    refine ⟨hidle.pool.sure, hidle.pool.chain, hidle.pool.nodup, hidle.pool.free_lt,
      hidle.pool.owns.reindex (fun r => .other (loneGhost.page r)) (fun r hr => ?_)
      (fun r r' hr hr' he => ?_) (fun r hr => ?_) (by decide)⟩
    · exact if_pos (loneGhost_page hr).1
    · have he : loneGhost.page r = loneGhost.page r' := by simpa using he
      obtain ⟨-, h⟩ := loneGhost_page hr
      obtain ⟨-, h'⟩ := loneGhost_page hr'
      rw [← he] at h'
      generalize loneGhost.page r = p at h h'
      rcases h with ⟨hp, h⟩ | ⟨hp, h⟩ | ⟨hp, h⟩ | ⟨hp, h⟩ <;>
        rcases h' with ⟨hp', h'⟩ | ⟨hp', h'⟩ | ⟨hp', h'⟩ | ⟨hp', h'⟩ <;>
        first | exact h.trans h'.symm | omega
    obtain ⟨p, hp⟩ : ∃ p, r = .other p := by
      cases r with
      | other p => exact ⟨p, rfl⟩
      | user o v => exact absurd (by simp [Ghost.page, idle]) hr
      | _ => exact absurd rfl hr
    subst hp
    have hc : 300 ≤ p ∧ p < physPages ∧ p ∉ List.range' 300 100 := by
      by_contra hc
      exact hr (if_neg hc)
    have he : (idle someSymbols (List.range' 300 100) true).page (.other p) = p := if_pos hc
    rw [he]
    by_cases hmem : p ≠ 400 ∧ p ≠ 401 ∧ p ≠ 402
    · exact ⟨.other p, if_pos ⟨hc, hmem⟩⟩
    obtain rfl | rfl | rfl : p = 400 ∨ p = 401 ∨ p = 402 := by omega
    · exact ⟨.dir (), rfl⟩
    · exact ⟨.table () 0, rfl⟩
    · exact ⟨.user () 0, by decide⟩

theorem lone_dir : Dir someSymbols loneGhost () 400 lone :=
  ⟨lone_holds, rfl, by decide, fun _ => rfl⟩

theorem lone_space : Space someSymbols loneGhost () 400 pgSize lone :=
  .of_ent lone_dir (by decide) fun v _ => by
    by_cases hv : v = 0 <;> simp [loneGhost, hv, pgSize]

end Vm

end Xv6
