import Xv6.Vm.Kernel

/-!
# What `mappages` maps

`mappages` for any range, physical address and permissions, in a directory of which only the shape
is known: each present entry has a page table of its own, which is not free (`WellFormed`).

* `walkpgdir_law` : `walkpgdir` adds a table that is full of zeros, or none; no address is
  translated differently.
* `setWord_pte` : an entry is that of one page, since the tables do not alias.
* `mappagesLoop_law` : after each round one more page is mapped.
* `mappages_law` : **`mappages` maps the pages of the range in order, up to the first one without a
  page table**.
-/

namespace Xv6

open Option

namespace Vm

variable {m m' m₁ : Mem} {d va va' p q t : ℕ} {F F' F₁ : List ℕ}

/-- A page directory whose page tables are not shared, and a free list `F` of other pages. -/
structure WellFormed (m : Mem) (d : ℕ) (F : List ℕ) : Prop where
  chain : Chain m m.freelist F
  nodup : F.Nodup
  free_lt : ∀ p ∈ F, p < physPages
  dir_free : d ∉ F
  table_ne : ∀ va t, m.table d va = some t → t ≠ d ∧ t ∉ F
  table_inj : ∀ va va' t, m.table d va = some t → m.table d va' = some t → pdx va = pdx va'

/-- Page `q` is neither free nor a page of the directory. -/
structure Foreign (m : Mem) (d : ℕ) (F : List ℕ) (q : ℕ) : Prop where
  free : q ∉ F
  dir : q ≠ d
  table : ∀ va, m.table d va ≠ some q

/-- The pages that may have changed: those of the directory and free ones, which may have become
tables. -/
structure KeptPages (m : Mem) (d : ℕ) (F : List ℕ) (m' : Mem) (F' : List ℕ) : Prop where
  free : ∀ q ∈ F', q ∈ F
  table : ∀ va t, m'.table d va = some t → m.table d va = some t ∨ t ∈ F
  page : ∀ q, Foreign m d F q → m'.page q = m.page q
  willing : m.Willing → m'.Willing

theorem KeptPages.refl (hd : m'.page = m.page) (hw : m.Willing → m'.Willing) :
    KeptPages m d F m' F :=
  ⟨fun _ => id, fun va t h => .inl (by rwa [Mem.table, Mem.word, hd] at h), fun q _ =>
      congrFun hd q, hw⟩

theorem Foreign.kept (h : Foreign m d F q) (hk : KeptPages m d F m₁ F₁) : Foreign m₁ d F₁ q := by
  refine ⟨fun hq => h.free (hk.free q hq), h.dir, fun va ht => ?_⟩
  rcases hk.table va q ht with ht | hq
  · exact h.table va ht
  · exact h.free hq

theorem KeptPages.trans (h : KeptPages m d F m₁ F₁) (h' : KeptPages m₁ d F₁ m' F') :
    KeptPages m d F m' F' := by
  refine ⟨fun q hq => h.free q (h'.free q hq), fun va t ht => ?_, fun q hq => ?_, fun hw =>
    h'.willing (h.willing hw)⟩
  · rcases h'.table va t ht with ht | hq
    · exact h.table va t ht
    · exact .inr (h.free t hq)
  · rw [h'.page q (hq.kept h), h.page q hq]

/-! ### The allocator -/

theorem table_of_page (h : m'.page d = m.page d) : m'.table d va = m.table d va := by
  simp only [Mem.table, Mem.word_congr h]

theorem kalloc_law (h : WellFormed m d F) :
    wp kalloc (fun r m' => m'.page = m.page ∧ (m.Willing → m'.Willing) ∧
      (r = none ∧ WellFormed m' d F ∧ (m.Willing → F = []) ∨
      ∃ p l, r = some p ∧ F = p :: l ∧ WellFormed m' d l)) (fun _ _ => False) m := by
  have hsame : ∀ {f : ℕ} {deny : ℕ → Bool} {l : List ℕ}, Chain m f l → l <:+ F →
      WellFormed ⟨m.page, f, deny⟩ d l := fun {f deny l} hc hl =>
    ⟨hc.congr fun _ _ => rfl, h.nodup.sublist hl.sublist, fun p hp => h.free_lt p (hl.subset hp),
      fun hd => h.dir_free (hl.subset hd),
      fun va t ht => ⟨(h.table_ne va t ht).1, fun htl => (h.table_ne va t ht).2 (hl.subset htl)⟩,
      h.table_inj⟩
  unfold kalloc
  simp only [wp_bind, wp_get]
  refine wp_ite.2
    ⟨fun hno =>
    ⟨rfl, fun hw n => hw (n + 1), .inl ⟨rfl, hsame h.chain (List.suffix_refl F), fun hw => ?_⟩⟩,
    fun hyes => ⟨rfl, fun hw n => hw (n + 1), .inr ?_⟩⟩
  · rcases hno with hdeny | hzero
    · rw [hw 0] at hdeny
      cases hdeny
    have hc := h.chain
    rw [hzero] at hc
    cases F with
    | nil => rfl
    | cons p l =>
      have := hc.uncons.1
      simp only [p2v, kernBase] at this
      omega
  cases F with
  | nil =>
    have hz : m.freelist = 0 := by
      have hc := h.chain
      generalize m.freelist = f at hc
      cases hc
      rfl
    exact absurd (.inr hz) hyes
  | cons p l =>
  obtain ⟨hf, hc⟩ := h.chain.uncons
  have hp : v2p m.freelist = p := by
    rw [hf]
    simp only [v2p, p2v, Nat.add_sub_cancel]
    exact Nat.mul_div_cancel _ (by decide)
  refine ⟨p, l, by rw [hp], rfl, ?_⟩
  rw [hp]
  exact hsame hc (List.suffix_cons p l)

/-! ### A new page table -/

theorem translate_congr (ht : m'.table d va = m.table d va)
    (hp : ∀ t, m.table d va = some t → m'.page t = m.page t) :
    m'.translate d va = m.translate d va := by
  unfold Mem.translate Mem.pte
  rw [ht]
  cases h : m.table d va with
  | none => rfl
  | some t => rw [map_some, map_some, Mem.word_congr (hp t h)]

theorem table_of_pdx (h : pdx va' = pdx va) : m.table d va' = m.table d va := by
  simp only [Mem.table, h]

/-- A page full of zeros becomes the table of `va`. -/
def Mem.addTable (m : Mem) (d va p : ℕ) : Mem :=
  (m.setPage p fun _ => 0).setWord d (pdx va) (p * pgSize + 7)

theorem addTable_table (hp : p < physPages) (hpd : p ≠ d) :
    (m.addTable d va p).table d va' = if pdx va' = pdx va then some p else m.table d va' := by
  have hw : p * pgSize + 7 < uintSize := by
    have hphys : physPages = 57344 := by decide
    simp only [pgSize, uintSize]
    omega
  unfold Mem.table Mem.addTable
  rw [Mem.word_setWord _ _ _ _ hw, Mem.word_setPage_of_ne _ hpd.symm]
  by_cases h : pdx va' = pdx va
  · rw [if_pos h, if_pos h, if_pos present_pde, pde_div]
  · rw [if_neg h, if_neg h]

theorem addTable_page (hqp : q ≠ p) (hqd : q ≠ d) : (m.addTable d va p).page q = m.page q := by
  simp only [Mem.addTable, Mem.setWord, Mem.setPage_page, if_neg hqp, if_neg hqd]

theorem addTable_word (hpd : p ≠ d) (i : ℕ) : (m.addTable d va p).word p i = 0 := by
  rw [Mem.addTable, Mem.word_setWord_of_ne _ hpd]
  simp only [Mem.word, Mem.setPage_page, if_true]
  exact Bytes.getLE_zero

theorem WellFormed.addTable {l : List ℕ} (h : WellFormed m d l) (hp : p < physPages) (hpl : p ∉ l)
    (hpd : p ≠ d) (hpt : ∀ va t, m.table d va = some t → t ≠ p) (hno : m.table d va = none) :
    WellFormed (m.addTable d va p) d l ∧ KeptPages m d (p :: l) (m.addTable d va p) l ∧
      (∀ va', (m.addTable d va p).translate d va' = m.translate d va') ∧
      (m.addTable d va p).table d va = some p := by
  have htab : ∀ va', (m.addTable d va p).table d va' = if pdx va' = pdx va then some p
      else m.table d va' :=
    fun va' => addTable_table hp hpd
  refine ⟨⟨?_, h.nodup, h.free_lt, h.dir_free, fun va' t ht => ?_, fun va₁ va₂ t h1 h2 => ?_⟩,
    ⟨fun q hq => List.mem_cons_of_mem p hq, fun va' t ht => ?_, fun q hq => ?_, id⟩,
    fun va' => ?_, ?_⟩
  · refine h.chain.congr fun q hq => addTable_page (fun he => hpl (he ▸ hq)) fun he =>
      h.dir_free (he ▸ hq)
  · rw [htab] at ht
    split_ifs at ht with hpdx
    · cases ht
      exact ⟨hpd, hpl⟩
    · exact h.table_ne va' t ht
  · rw [htab] at h1 h2
    split_ifs at h1 h2 with hp1 hp2 hp2
    · rw [hp1, hp2]
    · exact absurd (Option.some.inj h1).symm (hpt va₂ t h2)
    · exact absurd (Option.some.inj h2).symm (hpt va₁ t h1)
    · exact h.table_inj va₁ va₂ t h1 h2
  · rw [htab] at ht
    split_ifs at ht with hpdx
    · exact .inr (by simp [Option.some.inj ht])
    · exact .inl ht
  · exact addTable_page (fun he => hq.free (by simp [he])) hq.dir
  · by_cases hpdx : pdx va' = pdx va
    · -- the new table translates no address
      have hold : m.translate d va' = none := by
        rw [Mem.translate, Mem.pte, table_of_pdx hpdx, hno]
        rfl
      rw [hold, Mem.translate, Mem.pte, htab, if_pos hpdx, map_some, addTable_word hpd]
      rfl
    · have ht : (m.addTable d va p).table d va' = m.table d va' := by rw [htab, if_neg hpdx]
      exact translate_congr ht fun t h' => addTable_page (hpt va' t h') (h.table_ne va' t h').1
  · rw [htab, if_pos rfl]

theorem walkpgdir_law (h : WellFormed m d F) : wp (walkpgdir d va true)
    (fun r m' => ∃ F', WellFormed m' d F' ∧ KeptPages m d F m' F' ∧
      (∀ va', m'.translate d va' = m.translate d va') ∧
      (r = none ∧ (m.Willing → F' = []) ∨ ∃ t, r = some (t, ptx va) ∧ m'.table d va = some t))
      (fun _ _ => False) m := by
  unfold walkpgdir
  rw [wp_bind, wp_load]
  by_cases hpr : present (m.word d (pdx va)) = true
  · rw [if_pos hpr]
    exact ⟨F, h, .refl rfl id, fun _ => rfl, .inr ⟨_, rfl, if_pos hpr⟩⟩
  have hno : m.table d va = none := if_neg hpr
  rw [if_neg hpr, if_neg (by decide)]
  refine wp_seq (kalloc_law h) fun r m₁ hr => ?_
  obtain ⟨hpage, hwill, ⟨rfl, h1, hw⟩ | ⟨p, l, rfl, rfl, h1⟩⟩ := hr
  · exact ⟨F, h1, .refl hpage hwill, fun va' => translate_congr (table_of_page (congrFun hpage d))
      fun t _ => congrFun hpage t, .inl ⟨rfl, hw⟩⟩
  have htab : ∀ va', m₁.table d va' = m.table d va' :=
    fun va' => table_of_page (congrFun hpage d)
  have hpl : p ∉ l := (List.nodup_cons.1 h.nodup).1
  have hpd : p ≠ d := fun he => h.dir_free (by simp [he])
  obtain ⟨hwf, hkept, htrans, hnew⟩ := h1.addTable (h.free_lt p (by simp)) hpl hpd
    (fun va' t ht he => (h.table_ne va' t (by rwa [← htab])).2 (by simp [he]))
    (by rwa [htab])
  simp only [memset, store, wp_bind, wp_modify, wp_pure, pde_eq]
  refine ⟨l, hwf, (KeptPages.refl hpage hwill).trans hkept, fun va' => ?_, .inr ⟨p, rfl, hnew⟩⟩
  rw [← translate_congr (htab va') fun t _ => congrFun hpage t]
  exact htrans va'

/-! ### One entry -/

/-- An entry belongs to one page: tables are not shared. -/
theorem setWord_pte {a w : ℕ} (h : WellFormed m d F) (ht : m.table d a = some t) (ha : a < uintSize)
    (hw : w < uintSize) (hva : va < uintSize) :
    (m.setWord t (ptx a) w).pte d va = if va / pgSize = a / pgSize then some w else m.pte d va := by
  have hpage : (m.setWord t (ptx a) w).page d = m.page d := by
    simp only [Mem.setWord, Mem.setPage_page, if_neg (h.table_ne a t ht).1.symm]
  have hidx : va / pgSize = a / pgSize ↔ pdx va = pdx a ∧ ptx va = ptx a := by
    rw [← pdx_ptx hva, ← pdx_ptx ha]
    have h1 := ptx_lt va
    have h2 := ptx_lt a
    simp only [nEntries] at *
    omega
  unfold Mem.pte
  rw [table_of_page hpage]
  by_cases hpdx : pdx va = pdx a
  · rw [table_of_pdx hpdx, ht, map_some, map_some, Mem.word_setWord _ _ _ _ hw]
    by_cases hptx : ptx va = ptx a
    · rw [if_pos hptx, if_pos (hidx.2 ⟨hpdx, hptx⟩)]
    · rw [if_neg hptx, if_neg fun he => hptx (hidx.1 he).2]
  rw [if_neg fun he => hpdx (hidx.1 he).1]
  cases hva' : m.table d va with
  | none => rfl
  | some t' =>
    have hne : t' ≠ t := fun he => hpdx (h.table_inj va a t (by rw [hva', he]) ht)
    rw [map_some, map_some, Mem.word_setWord_of_ne _ hne]

theorem WellFormed.setWord {a w : ℕ} (h : WellFormed m d F) (ht : m.table d a = some t) :
    WellFormed (m.setWord t (ptx a) w) d F ∧ KeptPages m d F (m.setWord t (ptx a) w) F := by
  have hne := h.table_ne a t ht
  have hpage : ∀ q, q ≠ t → (m.setWord t (ptx a) w).page q = m.page q := fun q hq => by
    simp only [Mem.setWord, Mem.setPage_page, if_neg hq]
  have htab : ∀ va, (m.setWord t (ptx a) w).table d va = m.table d va :=
    fun va => table_of_page (hpage d hne.1.symm)
  refine ⟨⟨h.chain.congr fun q hq => hpage q fun he => hne.2 (he ▸ hq), h.nodup, h.free_lt,
    h.dir_free, ?_, ?_⟩, fun _ => id, fun va t' h' => .inl (by rwa [← htab]), fun q hq =>
    hpage q fun he => hq.table a (he ▸ ht), id⟩
  · simp only [htab]
    exact h.table_ne
  · simp only [htab]
    exact h.table_inj

theorem translate_of_pte {w : ℕ} (h : m.pte d va = some w) (hw : present w = true) :
    m.translate d va = some (pteAddr w + va % pgSize, pteFlags w) := by
  rw [Mem.translate, h, filter_some, if_pos hw, map_some]

/-! ### The loop -/

/-- The entry for page `k` of a range. -/
def pageEntry (pa perm k : ℕ) : ℕ := (pa + k * pgSize) % uintSize ||| perm ||| pteP

/-- The first `K` pages from `a` on have been mapped to those from `pa` on. -/
structure MapsPages (m : Mem) (d : ℕ) (F : List ℕ) (a pa perm K : ℕ) (m' : Mem) (F' : List ℕ) :
    Prop where
  wf : WellFormed m' d F'
  kept : KeptPages m d F m' F'
  hit : ∀ va, a ≤ va → va < a + K * pgSize → m'.translate d va =
    some (pteAddr (pageEntry pa perm ((va - a) / pgSize)) + va % pgSize,
      pteFlags (pageEntry pa perm ((va - a) / pgSize)))
  miss : ∀ va < uintSize, va < a ∨ a + K * pgSize ≤ va → m'.translate d va = m.translate d va

variable {a pa perm n fuel K : ℕ}

theorem MapsPages.cons (h : MapsPages m d F a pa perm 1 m₁ F₁) (hlt : a + pgSize < uintSize)
    (h' : MapsPages m₁ d F₁ (a + pgSize) ((pa + pgSize) % uintSize) perm K m' F') :
    MapsPages m d F a pa perm (K + 1) m' F' := by
  refine ⟨h'.wf, h.kept.trans h'.kept, fun va hle hva => ?_, fun va hva hout => ?_⟩
  · by_cases hfirst : va < a + pgSize
    · rw [h'.miss va (by omega) (.inl hfirst), h.hit va hle (by omega)]
    have hk : (va - a) / pgSize = (va - (a + pgSize)) / pgSize + 1 := by
      rw [show va - a = va - (a + pgSize) + pgSize by omega, Nat.add_div_right _ (by decide)]
    have hentry : pageEntry pa perm ((va - a) / pgSize) =
        pageEntry ((pa + pgSize) % uintSize) perm ((va - (a + pgSize)) / pgSize) := by
      rw [hk, pageEntry, pageEntry, Nat.mod_add_mod, add_mul, one_mul, add_assoc,
        add_comm pgSize]
    rw [hentry]
    exact h'.hit va (by omega) (by rw [add_mul, one_mul] at hva; omega)
  · rw [add_mul, one_mul] at hout
    have hone : a + 1 * pgSize ≤ a + (K * pgSize + pgSize) := by
      rw [one_mul]
      exact Nat.add_le_add_left (Nat.le_add_left _ _) _
    rw [h'.miss va hva (by omega), h.miss va hva (hout.imp_right hone.trans)]

theorem add_pgSize_le (ha : a < uintSize) (hal : a % pgSize = 0) : a + pgSize ≤ uintSize := by
  simp only [pgSize, uintSize] at *
  omega

theorem div_eq_iff_page (hal : a % pgSize = 0) : va / pgSize = a / pgSize ↔ a ≤ va ∧
    va < a + pgSize := by
  simp only [pgSize] at *
  omega

theorem MapsPages.single (hk : KeptPages m d F m₁ F₁) (h : WellFormed m₁ d F₁)
    (htr : ∀ va, m₁.translate d va = m.translate d va) (ht : m₁.table d a = some t)
    (ha : a < uintSize) (hal : a % pgSize = 0) (hpa : pa < uintSize) (hperm : perm < uintSize) :
    MapsPages m d F a pa perm 1 (m₁.setWord t (ptx a) (pa ||| perm ||| pteP)) F₁ := by
  have hw : pa ||| perm ||| pteP < uintSize :=
    Nat.or_lt_two_pow (Nat.or_lt_two_pow hpa hperm) (by decide)
  obtain ⟨hwf, hk'⟩ := @WellFormed.setWord m₁ d t F₁ a (pa ||| perm ||| pteP) h ht
  refine ⟨hwf, hk.trans hk', fun va hle hva => ?_, fun va hva hout => ?_⟩
  · rw [one_mul] at hva
    have hdiv : va / pgSize = a / pgSize := (div_eq_iff_page hal).2 ⟨hle, hva⟩
    have hzero : (va - a) / pgSize = 0 := Nat.div_eq_of_lt (by omega)
    have hlt : va < uintSize := by
      have := add_pgSize_le ha hal
      omega
    have hpte := setWord_pte h ht ha hw hlt
    rw [if_pos hdiv] at hpte
    rw [translate_of_pte hpte present_entry, hzero, pageEntry, zero_mul, add_zero,
      Nat.mod_eq_of_lt hpa]
  · rw [one_mul] at hout
    have hdiv : va / pgSize ≠ a / pgSize := fun he => by
      have := (div_eq_iff_page hal).1 he
      omega
    have hpte := setWord_pte h ht ha hw hva
    rw [if_neg hdiv] at hpte
    rw [Mem.translate, hpte, ← Mem.translate, htr]

theorem mappagesLoop_step {last : ℕ} {Q : ℤ → Mem → Prop} (h : WellFormed m d F)
    (hal : a % pgSize = 0) (ha : a < uintSize) (hpa : pa < uintSize) (hperm : perm < uintSize)
    (hno : m.translate d a = none) (hfail : ∀ m' F', MapsPages m d F a pa perm 0 m' F' →
      (m.Willing → F' = []) → Q (-1) m') (hok : ∀ m' F', MapsPages m d F a pa perm 1 m' F' →
    wp (if a = last then pure 0
      else mappagesLoop d perm last fuel ((a + pgSize) % uintSize) ((pa + pgSize) % uintSize)) Q
        (fun _ _ => False) m') :
    wp (mappagesLoop d perm last (fuel + 1) a pa) Q (fun _ _ => False) m := by
  simp only [mappagesLoop, wp_bind]
  refine wp_post (walkpgdir_law h) fun r m₁ hr => ?_
  obtain ⟨F₁, h1, hk, htr, ⟨rfl, hw⟩ | ⟨t, rfl, ht⟩⟩ := hr
  · refine hfail m₁ F₁ ⟨h1, hk, fun va hle hva => ?_, fun va _ _ => htr va⟩ hw
    omega
  -- the entry is not present
  have hpr : present (m₁.word t (ptx a)) = false := by
    rw [← htr, Mem.translate, Mem.pte, ht, map_some, filter_some] at hno
    by_contra hp
    rw [Bool.not_eq_false] at hp
    rw [if_pos hp] at hno
    cases hno
  simp only [wp_bind, wp_load, hpr]
  exact hok _ F₁ (.single hk h1 htr ht ha hal hpa hperm)

theorem mappagesLoop_law (h : WellFormed m d F) (hal : a % pgSize = 0)
    (hlast : a + n * pgSize < uintSize) (hpa : pa < uintSize) (hperm : perm < uintSize)
    (hno : ∀ k ≤ n, m.translate d (a + k * pgSize) = none) (hfuel : n < fuel) :
    wp (mappagesLoop d perm (a + n * pgSize) fuel a pa)
      (fun r m' => ∃ K F', MapsPages m d F a pa perm K m' F' ∧
        (r = 0 ∧ K = n + 1 ∨ r = -1 ∧ K ≤ n ∧ (m.Willing → F' = [])))
      (fun _ _ => False) m := by
  induction n generalizing m F a pa fuel with
  | zero =>
    obtain ⟨fuel, rfl⟩ := Nat.exists_eq_succ_of_ne_zero (by omega : fuel ≠ 0)
    rw [zero_mul, add_zero] at hlast ⊢
    have hno0 := hno 0 le_rfl
    rw [zero_mul, add_zero] at hno0
    refine mappagesLoop_step h hal hlast hpa hperm hno0
      (fun m' F' hm hw => ⟨0, F', hm, .inr ⟨rfl, le_rfl, hw⟩⟩) fun m' F' hm => ?_
    rw [if_pos rfl]
    exact ⟨1, F', hm, .inl ⟨rfl, rfl⟩⟩
  | succ n ih =>
    obtain ⟨fuel, rfl⟩ := Nat.exists_eq_succ_of_ne_zero (by omega : fuel ≠ 0)
    have hmul : (n + 1) * pgSize = pgSize + n * pgSize := by
      rw [Nat.add_mul, Nat.one_mul, Nat.add_comm]
    rw [hmul, ← Nat.add_assoc] at hlast ⊢
    have hno0 := hno 0 zero_le
    rw [Nat.zero_mul, Nat.add_zero] at hno0
    refine mappagesLoop_step h hal (by omega) hpa hperm hno0
      (fun m' F' hm hw => ⟨0, F', hm, .inr ⟨rfl, zero_le, hw⟩⟩) fun m₁ F₁ hm => ?_
    have hlt : a + pgSize < uintSize := by omega
    have hne : a < a + pgSize + n * pgSize :=
      Nat.lt_of_lt_of_le (Nat.lt_add_of_pos_right (by decide)) (Nat.le_add_right _ _)
    rw [if_neg hne.ne, Nat.mod_eq_of_lt hlt]
    refine wp_post (ih hm.wf (by rwa [Nat.add_mod_right]) hlast (Nat.mod_lt _ (by decide))
      (fun k hk => ?_) (by omega)) fun r m' hr => ?_
    · -- the pages ahead are still not mapped
      have hle : k * pgSize ≤ n * pgSize := Nat.mul_le_mul_right _ hk
      rw [hm.miss _ (lt_of_le_of_lt (Nat.add_le_add_left hle _) hlast) (.inr (by omega))]
      have := hno (k + 1) (by omega)
      rwa [add_mul, one_mul, add_comm (k * pgSize), ← add_assoc] at this
    obtain ⟨K, F', hrest, hr⟩ := hr
    refine ⟨K + 1, F', hm.cons hlt hrest, ?_⟩
    rcases hr with ⟨rfl, rfl⟩ | ⟨rfl, hK, hw⟩
    · exact .inl ⟨rfl, rfl⟩
    · exact .inr ⟨rfl, by omega, fun hwill => hw (hm.kept.willing hwill)⟩

/-! ### The whole range -/

theorem pageEntry_split {k : ℕ} (hpa : pa % pgSize = 0) (hperm : perm < pgSize) :
    pteAddr (pageEntry pa perm k) = (pa + k * pgSize) % uintSize ∧ pteFlags (pageEntry pa perm k) =
    perm ||| pteP := by
  have hmod : (pa + k * pgSize) % uintSize % pgSize = 0 := by
    simp only [pgSize, uintSize] at *
    omega
  obtain ⟨p, hp⟩ := Nat.dvd_of_mod_eq_zero hmod
  rw [mul_comm pgSize p] at hp
  rw [pageEntry, hp]
  constructor
  · rw [pteAddr, entry_div hperm]
  have hor : ∀ x y : ℕ, (x ||| y) % pgSize = x % pgSize ||| y % pgSize :=
    fun x y => Nat.or_mod_two_pow (n := 12)
  rw [pteFlags, hor, hor, Nat.mul_mod_left, Nat.zero_or, Nat.mod_eq_of_lt hperm,
    show pteP % pgSize = pteP by decide]

/-- **What `mappages` does.**  In a well-formed directory and for a range that does not wrap and has
no mapped page, it ends without a panic.  If it returns 0, page `k` of the range is translated to
`pa + k*PGSIZE` with the flags `perm|PTE_P`; if it returns -1 this holds for the first `K` pages,
and `kalloc` has failed.  All other addresses are translated as before, the directory is well
formed, and no page but those of the directory and free ones has changed. -/
theorem mappages_law {size : ℕ} (h : WellFormed m d F) (hsize : 0 < size)
    (hend : va + size ≤ uintSize) (hal : pa % pgSize = 0) (hpa : pa < uintSize)
    (hperm : perm < pgSize) (hno : ∀ va', pgRoundDown va ≤ va' →
      va' < pgRoundDown (va + size - 1) + pgSize → m.translate d va' = none) :
    ∃ r m' F' K, mappages d va size pa perm m = .ok r m' ∧ WellFormed m' d F' ∧
    KeptPages m d F m' F' ∧
      (∀ va', pgRoundDown va ≤ va' → va' < pgRoundDown va + K * pgSize → m'.translate d va' =
        some ((pa + (va' - pgRoundDown va) / pgSize * pgSize) % uintSize + va' % pgSize,
          perm ||| pteP)) ∧
      (∀ va' < uintSize, va' < pgRoundDown va ∨ pgRoundDown va + K * pgSize ≤ va' →
        m'.translate d va' = m.translate d va') ∧
      (r = 0 ∧ pgRoundDown va + K * pgSize = pgRoundDown (va + size - 1) + pgSize ∨
        r = -1 ∧ pgRoundDown va + K * pgSize ≤ pgRoundDown (va + size - 1) ∧
        (m.Willing → F' = [])) := by
  obtain ⟨n, hn, hlt, hfuel⟩ : ∃ n, pgRoundDown (va + size - 1) = pgRoundDown va + n * pgSize ∧
      pgRoundDown va + n * pgSize < uintSize ∧ n < 2 ^ 20 := by
    refine ⟨(va + size - 1) / pgSize - va / pgSize, ?_, ?_, ?_⟩ <;>
      simp only [pgRoundDown, pgSize, uintSize] at * <;> omega
  have hal' : pgRoundDown va % pgSize = 0 := Nat.mul_mod_left _ _
  have hlast : (va + size + uintSize - 1) % uintSize = va + size - 1 := by
    simp only [uintSize] at *
    omega
  have hloop := mappagesLoop_law h hal' hlt hpa (lt_trans hperm (by decide))
    (fun k hk => hno _ (Nat.le_add_right _ _) (by
    have hle : k * pgSize ≤ n * pgSize := Nat.mul_le_mul_right _ hk
    rw [hn]
    exact lt_of_le_of_lt (Nat.add_le_add_left hle _) (Nat.lt_add_of_pos_right (by decide))))
      hfuel
  obtain ⟨r, m', hrun, K, F', hm, hr⟩ := hloop.exists_ok
  refine ⟨r, m', F', K, by rwa [mappages, hlast, hn], hm.wf, hm.kept, fun va' hle hva' =>
    ?_, hm.miss, ?_⟩
  · obtain ⟨haddr, hflags⟩ := @pageEntry_split pa perm ((va' - pgRoundDown va) / pgSize) hal hperm
    rw [hm.hit va' hle hva', haddr, hflags]
  rw [hn]
  rcases hr with ⟨rfl, rfl⟩ | ⟨rfl, hK, hw⟩
  · exact .inl ⟨rfl, by rw [add_mul, one_mul, add_assoc]⟩
  · exact .inr ⟨rfl, Nat.add_le_add_left (Nat.mul_le_mul_right _ hK) _, hw⟩

theorem onePage_wellFormed {f : ℕ} (hc : Chain onePage f F) (hn : F.Nodup)
    (hF : ∀ p ∈ F, 2 < p ∧ p < physPages) : WellFormed { onePage with freelist := f } 1 F where
  chain := hc.congr fun _ _ => rfl
  nodup := hn
  free_lt p hp := (hF p hp).2
  dir_free h := absurd (hF 1 h).1 (by decide)
  table_ne va t ht := by
    rw [onePage_table ht]
    exact ⟨by decide, fun h => absurd (hF 2 h).1 (by decide)⟩
  table_inj va va' t h h' := by
    have hzero : ∀ va t, onePage.table 1 va = some t → pdx va = 0 := by
      intro va t ht
      by_contra hne
      unfold Mem.table at ht
      rw [onePage_word (.inr hne)] at ht
      cases ht
    rw [hzero va t h, hzero va' t h']

/-- Only the addresses of the first page are translated there. -/
theorem onePage_translate (hva : va < uintSize) (h : pgSize ≤ va) :
    onePage.translate 1 va = none := by
  rw [Mem.translate, Mem.pte]
  cases ht : onePage.table 1 va with
  | none => rfl
  | some t =>
  have hidx : ptx va ≠ 0 ∨ pdx va ≠ 0 := by
    simp only [ptx, pdx, pgSize, uintSize] at *
    omega
  rcases hidx with hptx | hpdx
  · rw [map_some, onePage_word (.inr hptx)]
    rfl
  · unfold Mem.table at ht
    rw [onePage_word (.inr hpdx)] at ht
    cases ht

/-- Two pages, the second of which needs a page table; page 4 becomes that. -/
theorem mappages_law_second : WellFormed { onePage with freelist := p2v 4 } 1 [4] ∧
    ∃ m' F', mappages 1 0x3FF000 8192 0 pteW { onePage with freelist := p2v 4 } = .ok 0 m' ∧
      WellFormed m' 1 F' ∧ m'.translate 1 0x3FF000 = some (0, pteW ||| pteP) ∧
      m'.translate 1 0x400000 = some (4096, pteW ||| pteP) ∧
      ∀ va < uintSize, va < 0x3FF000 ∨ 0x401000 ≤ va → m'.translate 1 va =
        onePage.translate 1 va := by
  have hwf : WellFormed { onePage with freelist := p2v 4 } 1 [4] :=
    onePage_wellFormed (.cons (by rw [onePage_word (by decide)]; exact .nil)) (by simp) (by decide)
  obtain ⟨r, m', F', K, hrun, hwf', -, hhit, hmiss, hr⟩ :=
    @mappages_law { onePage with freelist := p2v 4 } 1 0x3FF000 [4] 0 pteW 8192 hwf (by decide)
      (by decide) (by decide) (by decide) (by decide) fun va hle hlt =>
        onePage_translate (lt_trans hlt (by decide)) (le_trans (by decide) hle)
  have hzero : (mappages 1 0x3FF000 8192 0 pteW).run' { onePage with freelist := p2v 4 } =
      some 0 := by
    decide +kernel
  obtain rfl : r = 0 := Option.some.inj
    ((congrArg (fun y => EStateM.run' (fun _ => y) m') hrun).symm.trans hzero)
  have hK := (hr.resolve_right fun h => absurd h.1 (by decide)).2
  rw [show pgRoundDown 0x3FF000 = 0x3FF000 by decide,
    show pgRoundDown (0x3FF000 + 8192 - 1) = 0x400000 by decide] at hK
  obtain rfl : K = 2 := by
    simp only [pgSize] at hK
    omega
  exact ⟨hwf, m', F', hrun, hwf', (hhit 0x3FF000 (by decide) (by decide)).trans (by decide),
    (hhit 0x400000 (by decide) (by decide)).trans (by decide), hmiss⟩

/-- **Flags that are no flags**: with a bit of an address among them the page is mapped
elsewhere. -/
theorem mappages_addressBit :
    WellFormed onePage 1 [] ∧ (∀ va < uintSize, 4096 ≤ va → onePage.translate 1 va = none) ∧
    (do let r ← mappages 1 4096 1 0 4096
        return (r, (← get).translate 1 4096) : Act _).run' onePage = some (0, some (4096, pteP)) :=
  ⟨onePage_wellFormed .nil List.nodup_nil (by simp), fun _ hva h => onePage_translate hva h,
    by decide +kernel⟩

end Vm

end Xv6
