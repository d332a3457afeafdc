import Xv6.Vm.Map

/-!
# Setting up the kernel part

`setupkvm` maps the ranges of `kmap`.  If it gets the pages it asks for, the kernel part of the new
directory is what the table says and its user part is empty; if it runs out of pages it gives back
what it has taken.  It succeeds if there is a free page for the directory and for each of its tables
(`Budget`).
-/

namespace Xv6

namespace Vm

variable {ι κ : Type} [DecidableEq ι] [DecidableEq κ]
variable {k : Symbols} {g g' : Ghost ι κ} {m m' : Mem} {o : ι} {i v n : ℕ}

/-- There are enough free pages for the missing tables among `I` and `c` more. -/
def Budget (o : ι) (I : Finset ℕ) (c : ℕ) (g : Ghost ι κ) : Prop :=
  I.card + c ≤ g.free.length + (I.filter fun i => g.tab o i ≠ 0).card

omit [DecidableEq κ] in
theorem Opened.budget {I : Finset ℕ} {c : ℕ} {t : ℕ} (h : Opened o i t g g') (hi : i ∈ I)
    (hb : Budget o I c g) : Budget o I c g' := by
  obtain ⟨ht, ⟨rfl, -⟩ | ⟨hz, l, hl, rfl⟩⟩ := h
  · exact hb
  have hins : (I.filter fun j => ((g.setFree l).setTab o i t).tab o j ≠ 0) =
      insert i (I.filter fun j => g.tab o j ≠ 0) := by
    ext j
    simp only [Ghost.setTab, Ghost.setFree, upd_upd_apply, true_and, Finset.mem_filter,
      Finset.mem_insert]
    by_cases hj : j = i
    · simp [hj, hi, ht]
    · simp [hj]
  unfold Budget at hb ⊢
  rw [hins, Finset.card_insert_of_notMem (by simp [hz])]
  rw [hl, List.length_cons] at hb
  simp only [Ghost.setTab, Ghost.setFree]
  omega

omit [DecidableEq ι] [DecidableEq κ] in
theorem Budget.not_missing {I : Finset ℕ} {c : ℕ} (hb : Budget o I c g) (hf : g.free = [])
    (hi : i ∈ I) :
    g.tab o i ≠ 0 := fun hz => by
  unfold Budget at hb
  rw [hf, List.length_nil, zero_add] at hb
  have hlt : (I.filter fun i => g.tab o i ≠ 0).card < I.card :=
    Finset.card_lt_card (Finset.filter_ssubset.2 ⟨i, hi, by simp [hz]⟩)
  omega

/-- The entry for page `v + j` of a range that starts at page `v` and address `pa`. -/
def rangeEntry (v pa perm u : ℕ) : ℕ := (pa + (u - v) * pgSize) % uintSize ||| perm ||| pteP

/-- `mappages` of a range of the kernel part, from page `v` to page `v + n`. -/
theorem mappagesLoop_kernel {I : Finset ℕ} {c : ℕ} {fuel pa perm : ℕ} (h : Holds k g m)
    (ho : g.dir o ≠ 0) (hh : g.hand 0 = 0) (hv : userPages ≤ v) (hvn : v + n < 2 ^ 20)
    (hfuel : n < fuel) (hperm : perm < pgSize) (hpa : pa < uintSize) (hclear : ∀ u, v ≤ u →
      u ≤ v + n → g.ent o u = 0) (hI : ∀ u, v ≤ u → u ≤ v + n → u / nEntries ∈ I) :
    wp (mappagesLoop (g.dir o) perm ((v + n) * pgSize) fuel (v * pgSize) pa)
      (fun r m' => ∃ g', Frame o g g' ∧ Spares o g g' m m' ∧ Holds k g' m' ∧
        (Budget o I c g → Budget o I c g') ∧ (r = -1 ∧ ¬ (g.sure = true ∧ Budget o I c g) ∨
          r = 0 ∧ ∀ u, g'.ent o u = if v ≤ u ∧ u ≤ v + n then rangeEntry v pa perm u
          else g.ent o u))
      (fun _ _ => False) m := by
  induction fuel generalizing g m v n pa with
  | zero => omega
  | succ fuel ih =>
    have ha : v * pgSize < uintSize := by simp only [pgSize, uintSize]; omega
    have hva : v * pgSize / pgSize = v := Nat.mul_div_cancel _ (by decide)
    have hidx := pdx_ptx ha
    have hpdx : pdx (v * pgSize) = v / nEntries := by
      unfold pdx
      simp only [pgSize, nEntries, uintSize] at *
      omega
    rw [hva] at hidx
    have hmem : pdx (v * pgSize) ∈ I := hpdx ▸ hI v (le_refl v) (by omega)
    have hz := hclear v (le_refl v) (by omega)
    refine mappages_step h ho hh ha (fun m' h' ht hfr hpage => ?_) (fun hpr => ?_)
      fun g' m' hop h' _ hpage => ?_
    · refine ⟨g, .refl o g, ⟨fun _ => id, fun _ => id, fun q hq => hpage q hq.free hq.dir⟩, h', id,
        .inl ⟨rfl, fun ⟨hs, hb⟩ => ?_⟩⟩
      rcases hfr with hf | hf
      · exact hb.not_missing hf hmem ht
      · rw [hf] at hs; cases hs
    · rw [hva, hz] at hpr; cases hpr
    have hset := h'.setEnt (o := o) (i := pdx (v * pgSize)) (j := ptx (v * pgSize))
      (w := pa ||| perm ||| pteP) hop.1 (ptx_lt _) (entry_lt hpa hperm) fun hc => by
        rw [hidx] at hc; omega
    rw [hidx] at hset
    have hfr : Frame o g (g'.setEnt o v (pa ||| perm ||| pteP)) :=
      hop.frame.toFrame.trans (.setEnt v _)
    have hsp := hop.spares (v := v) (j := ptx (v * pgSize)) (w := pa ||| perm ||| pteP) hpage
    have hbud : Budget o I c g → Budget o I c (g'.setEnt o v (pa ||| perm ||| pteP)) :=
      hop.budget hmem
    have hent : ∀ u, (g'.setEnt o v (pa ||| perm ||| pteP)).ent o u =
        if u = v then rangeEntry v pa perm u else g.ent o u := fun u => by
      simp only [Ghost.setEnt, upd_upd_apply, hop.ent, true_and]
      by_cases hu : u = v
      · simp [hu, rangeEntry, Nat.mod_eq_of_lt hpa]
      · simp [hu]
    by_cases hn : n = 0
    · subst hn
      rw [add_zero, if_pos rfl]
      refine ⟨_, hfr, hsp, hset, hbud, .inr ⟨rfl, fun u => ?_⟩⟩
      rw [hent]
      by_cases hu : u = v
      · simp [hu]
      · rw [if_neg hu, if_neg (by omega)]
    rw [if_neg (by simp only [pgSize]; omega)]
    have hnext : (v * pgSize + pgSize) % uintSize = (v + 1) * pgSize := by
      simp only [pgSize, uintSize]; omega
    have hend : v + n = (v + 1) + (n - 1) := by omega
    rw [hnext, hend, ← hfr.dir]
    refine wp_post (ih hset (by rwa [hfr.dir]) (by rw [hfr.hand]; exact hh) (by omega)
      (by omega) (by omega) (Nat.mod_lt _ (by decide)) (fun u h1 h2 => ?_)
      fun u h1 h2 => hI u (by omega) (by omega)) fun r m₂ hx => ?_
    · rw [hent, if_neg (by omega)]
      exact hclear u (by omega) (by omega)
    obtain ⟨g₂, hf2, hs2, h2, hb2, hr⟩ := hx
    refine ⟨g₂, hfr.trans hf2, hsp.trans hs2, h2, fun hb => hb2 (hbud hb), hr.imp ?_ ?_⟩
    · rintro ⟨rfl, hno⟩
      exact ⟨rfl, fun ⟨hs, hb⟩ => hno ⟨by rwa [hfr.sure], hbud hb⟩⟩
    rintro ⟨rfl, hu⟩
    refine ⟨rfl, fun u => ?_⟩
    rw [hu, hent]
    by_cases h1 : u = v
    · rw [if_neg (by omega), if_pos h1, if_pos (by omega)]
    by_cases h2 : v + 1 ≤ u ∧ u ≤ v + 1 + (n - 1)
    · rw [if_pos h2, if_pos (by omega)]
      unfold rangeEntry
      have hsub : u - v = u - (v + 1) + 1 := by omega
      rw [Nat.mod_add_mod, hsub, add_mul, one_mul, add_assoc,
        add_comm pgSize]
    · rw [if_neg h2, if_neg h1, if_neg (by omega)]

/-! ## The ranges of `kmap` -/

/-- The range contains virtual page `v`. -/
def Kmap.covers (e : Kmap) (v : ℕ) : Bool :=
  e.virt / pgSize ≤ v && v < e.virt / pgSize + e.size / pgSize

/-- The entry that the range prescribes for virtual page `v`. -/
def Kmap.entry (e : Kmap) (v : ℕ) : ℕ := rangeEntry (e.virt / pgSize) e.physStart e.perm v

/-- The tables of the kernel part. -/
def kernelTables : Finset ℕ := (Finset.range nEntries).filter fun i => 512 ≤ i ∧ i < 568 ∨ 1016 ≤ i

theorem mem_kernelTables : i ∈ kernelTables ↔ i < nEntries ∧ (512 ≤ i ∧ i < 568 ∨ 1016 ≤ i) := by
  simp [kernelTables]

theorem card_kernelTables : kernelTables.card = 64 := by decide +kernel

theorem Kmap.covers_iff {e : Kmap} :
    e.covers v = true ↔ e.virt / pgSize ≤ v ∧ v < e.virt / pgSize + e.size / pgSize := by
  simp [covers]

/-- A range of whole pages in the kernel part. -/
structure Kmap.Ok (e : Kmap) : Prop where
  virt_mod : e.virt % pgSize = 0
  size_mod : e.size % pgSize = 0
  size_pos : 0 < e.size
  le_virt : kernBase ≤ e.virt
  end_le : e.virt + e.size ≤ uintSize
  phys_lt : e.physStart < uintSize
  perm_lt : e.perm < pgSize
  tables : ∀ v, e.covers v = true → v / nEntries ∈ kernelTables

theorem kmap_ok (k : Symbols) : ∀ e ∈ kmap k, e.Ok := by
  have h1 := k.data_aligned
  have h2 := k.lt_data
  have h3 := k.data_lt
  simp only [kernLink, kernBase, extMem, physTop, pgSize] at h1 h2 h3
  simp only [kmap, List.mem_cons, List.not_mem_nil, or_false, forall_eq_or_imp, forall_eq]
  refine ⟨⟨?_, ?_, ?_, ?_, ?_, ?_, ?_, fun v => ?_⟩, ⟨?_, ?_, ?_, ?_, ?_, ?_, ?_, fun v => ?_⟩,
    ⟨?_, ?_, ?_, ?_, ?_, ?_, ?_, fun v => ?_⟩, ⟨?_, ?_, ?_, ?_, ?_, ?_, ?_, fun v => ?_⟩⟩
  all_goals
    simp only [Kmap.size, Kmap.covers_iff, kernLink, kernBase, extMem, physTop, devSpace, pgSize,
      uintSize, pteW, nEntries, mem_kernelTables] <;> omega

theorem kmap_pairwise (k : Symbols) : (kmap k).Pairwise fun e e' => e.virt + e.size ≤ e'.virt := by
  have h2 := k.lt_data
  have h3 := k.data_lt
  simp only [kernLink, kernBase, extMem, physTop] at h2 h3
  simp only [kmap, List.pairwise_cons, List.mem_cons, List.not_mem_nil, or_false, forall_eq_or_imp,
    forall_eq, Kmap.size, kernLink, kernBase, extMem, physTop, devSpace, uintSize]
  refine ⟨⟨?_, ?_, ?_⟩, ⟨?_, ?_⟩, ?_, nofun, .nil⟩ <;> omega

/-- Later ranges do not contain pages of earlier ones. -/
theorem Kmap.not_covers {e e' : Kmap} (hok : e.Ok) (h : e.virt + e.size ≤ e'.virt)
    (hv : e.covers v = true) :
    e'.covers v = false := by
  rw [covers_iff] at hv
  by_contra hc
  have hc := covers_iff.1 (by simpa using hc)
  have h1 := hok.virt_mod
  have h2 := hok.size_mod
  simp only [pgSize] at *
  omega

theorem mappages_kmap {e : Kmap} {c : ℕ} (h : Holds k g m) (ho : g.dir o ≠ 0) (hh : g.hand 0 = 0)
    (hok : e.Ok) (hclear : ∀ u, e.covers u = true → g.ent o u = 0) :
    wp (mappages (g.dir o) e.virt e.size e.physStart e.perm)
      (fun r m' => ∃ g', Frame o g g' ∧ Spares o g g' m m' ∧ Holds k g' m' ∧
        (Budget o kernelTables c g → Budget o kernelTables c g') ∧
        (r = -1 ∧ ¬ (g.sure = true ∧ Budget o kernelTables c g) ∨
          r = 0 ∧ ∀ u, g'.ent o u = if e.covers u then e.entry u else g.ent o u))
      (fun _ _ => False) m := by
  have h1 := hok.virt_mod
  have h2 := hok.size_mod
  have h3 := hok.size_pos
  have h4 := hok.end_le
  have h5 := hok.le_virt
  have hn : e.size / pgSize - 1 + 1 = e.size / pgSize := by
    simp only [pgSize] at *
    omega
  have hdown : pgRoundDown e.virt = e.virt / pgSize * pgSize := rfl
  have hlast : pgRoundDown ((e.virt + e.size + uintSize - 1) % uintSize) =
      (e.virt / pgSize + (e.size / pgSize - 1)) * pgSize := by
    unfold pgRoundDown
    simp only [pgSize, uintSize, kernBase] at *
    omega
  have hcov : ∀ u, e.covers u = true ↔
      e.virt / pgSize ≤ u ∧ u ≤ e.virt / pgSize + (e.size / pgSize - 1) := fun u => by
    rw [Kmap.covers_iff]
    omega
  unfold mappages
  rw [hdown, hlast]
  refine wp_post (mappagesLoop_kernel (I := kernelTables) (c := c) h ho hh ?_ ?_ ?_ hok.perm_lt
    hok.phys_lt (fun u h1 h2 => hclear u ((hcov u).2 ⟨h1, h2⟩))
    fun u h1 h2 => hok.tables u ((hcov u).2 ⟨h1, h2⟩)) fun r m' hx => ?_
  · simp only [pgSize, kernBase, userPages] at *
    omega
  · simp only [pgSize, uintSize, kernBase] at *
    omega
  · simp only [pgSize, uintSize, kernBase] at *
    omega
  obtain ⟨g', hf, hs, h', hb, hr⟩ := hx
  refine ⟨g', hf, hs, h', hb, hr.imp_right ?_⟩
  rintro ⟨rfl, hu⟩
  refine ⟨rfl, fun u => ?_⟩
  rw [hu]
  simp only [hcov, Kmap.entry]

/-! ## `setupkvm` -/

/-- What the ranges `es` prescribe for page `v`, or the entry `w` that it has. -/
def overlay (es : List Kmap) (v w : ℕ) : ℕ :=
  match es.find? (·.covers v) with
  | some e => e.entry v
  | none => w

/-- The entry that the table prescribes for virtual page `v`, 0 if it is not mapped. -/
def kernelEntry (k : Symbols) (v : ℕ) : ℕ := overlay (kmap k) v 0

theorem overlay_cons_of_covers {e : Kmap} {es : List Kmap} {w : ℕ} (h : e.covers v = true) :
    overlay (e :: es) v w = e.entry v := by
  simp [overlay, h]

theorem overlay_cons_of_not {e : Kmap} {es : List Kmap} {w : ℕ} (h : e.covers v = false) :
    overlay (e :: es) v w = overlay es v w := by
  simp [overlay, h]

theorem overlay_of_not {es : List Kmap} {w : ℕ} (h : ∀ e ∈ es, e.covers v = false) :
    overlay es v w = w := by
  have : es.find? (·.covers v) = none := List.find?_eq_none.2 fun e he => by simp [h e he]
  simp [overlay, this]

/-- The loop of `setupkvm`: the ranges are mapped, or everything is given back. -/
theorem setupkvmLoop_spec {c : ℕ} {es : List Kmap} (h : Holds k g m) (ho : g.dir o ≠ 0)
    (hh : ∀ n, g.hand n = 0) (hok : ∀ e ∈ es, e.Ok)
    (hpw : es.Pairwise fun e e' => e.virt + e.size ≤ e'.virt)
    (hclear : ∀ e ∈ es, ∀ u, e.covers u = true → g.ent o u = 0) :
    wp (setupkvmLoop k (g.dir o) es)
      (fun r m' => (r = none ∧ (∃ l, Holds k ((g.erase o).setFree l) m') ∧
          ¬ (g.sure = true ∧ Budget o kernelTables c g)) ∨
        r = some (g.dir o) ∧ ∃ g', Frame o g g' ∧ Spares o g g' m m' ∧ Holds k g' m' ∧
          (Budget o kernelTables c g → Budget o kernelTables c g') ∧
          ∀ u, g'.ent o u = overlay es u (g.ent o u))
      (fun _ _ => False) m := by
  induction es generalizing g m with
  | nil => exact .inr ⟨rfl, g, .refl o g, .refl o g rfl, h, id, fun u => rfl⟩
  | cons e es ih =>
    obtain ⟨hpe, hpes⟩ := List.pairwise_cons.1 hpw
    have hoke := hok e (by simp)
    simp only [setupkvmLoop, wp_bind]
    refine wp_post (mappages_kmap (c := c) h ho (hh 0) hoke (hclear e (by simp))) fun r m₁ hx => ?_
    obtain ⟨g₁, hf, hs, h1, hb, ⟨rfl, hno⟩ | ⟨rfl, hu⟩⟩ := hx
    · simp only [show (-1 : ℤ) < 0 by decide, if_true, wp_bind]
      rw [← hf.dir]
      refine wp_post (freevm_spec h1 rfl (by rwa [hf.dir]) fun n => by rw [hf.hand, hh])
        fun _ m₂ hx => ?_
      obtain ⟨l, h2⟩ := hx
      refine .inl ⟨rfl, ⟨l, ?_⟩, hno⟩
      rwa [← hf.erase]
    simp only [show ¬ (0 : ℤ) < 0 by decide, if_false]
    rw [← hf.dir]
    have hent : ∀ e' ∈ es, ∀ u, e'.covers u = true → g₁.ent o u = 0 := fun e' he' u hc => by
      have : e.covers u = false := by
        by_contra hx
        rw [Kmap.not_covers hoke (hpe e' he') (by simpa using hx)] at hc
        cases hc
      rw [hu, this]
      exact hclear e' (by simp [he']) u hc
    refine wp_post (ih h1 (by rwa [hf.dir]) (fun n => by rw [hf.hand, hh])
      (fun e' he' => hok e' (by simp [he'])) hpes hent) fun r m₂ hx => ?_
    rcases hx with ⟨rfl, ⟨l, h2⟩, hno⟩ | ⟨rfl, g₂, hf2, hs2, h2, hb2, hu2⟩
    · refine .inl ⟨rfl, ⟨l, by rwa [← hf.erase]⟩, fun hx => hno ⟨by rw [hf.sure, hx.1], hb hx.2⟩⟩
    refine .inr ⟨by rw [hf.dir], g₂, hf.trans hf2, hs.trans hs2, h2, fun hbg => hb2 (hb hbg),
      fun u => ?_⟩
    rw [hu2, hu]
    by_cases hc : e.covers u = true
    · rw [overlay_cons_of_covers hc, if_pos hc]
      exact overlay_of_not fun e' he' => Kmap.not_covers hoke (hpe e' he') hc
    · rw [if_neg hc, overlay_cons_of_not (by simpa using hc)]

theorem kernelEntry_user (hv : v < userPages) : kernelEntry k v = 0 := by
  refine overlay_of_not fun e he => ?_
  have hle := (kmap_ok k e he).le_virt
  by_contra hc
  have := (Kmap.covers_iff.1 (by simpa using hc)).1
  simp only [kernBase, userPages, pgSize] at *
  omega

omit [DecidableEq ι] [DecidableEq κ] in
theorem Holds.ent_of_dir (h : Holds k g m) (ho : g.dir o = 0) (u : ℕ) : g.ent o u = 0 :=
  h.tables.ent_none o u (h.tables.tab_none o _ (.inl ho))

omit [DecidableEq κ] in
theorem Holds.erase_setDir (h : Holds k g m) (ho : g.dir o = 0) (p : ℕ) :
    (g.setDir o p).erase o = g := by
  refine Ghost.ext ?_ ?_ ?_ rfl rfl rfl rfl <;> funext o' <;> by_cases hoo : o' = o
  · simp [Ghost.erase, Ghost.setDir, hoo, ho]
  · simp [Ghost.erase, Ghost.setDir, hoo]
  · subst hoo
    funext i
    simp [Ghost.erase, Ghost.setDir, h.tables.tab_none o' i (.inl ho)]
  · simp [Ghost.erase, Ghost.setDir, hoo]
  · subst hoo
    funext u
    simp [Ghost.erase, Ghost.setDir, h.ent_of_dir ho]
  · simp [Ghost.erase, Ghost.setDir, hoo]

/-- `setupkvm` and the pages of others: it has written free pages only. -/
theorem setupkvm_exact (c : ℕ) (h : Holds k g m) (ho : g.dir o = 0) (hh : ∀ n, g.hand n = 0) :
    wp (setupkvm k) (fun r m' => match r with
      | none => (∃ l, Holds k (g.setFree l) m') ∧ ¬ (g.sure = true ∧ 65 + c ≤ g.free.length)
      | some d => d ≠ 0 ∧ ∃ g', Frame o (g.setDir o d) g' ∧ Holds k g' m' ∧
          (∀ q ∈ g'.free, q ∈ g.free) ∧
          (∀ q, q ≠ 0 → q ∉ g.free → Apart o g' q ∧ m'.page q = m.page q) ∧
          (65 + c ≤ g.free.length → c ≤ g'.free.length) ∧ ∀ u, g'.ent o u = kernelEntry k u)
      (fun _ _ => False) m := by
  unfold setupkvm
  rw [wp_bind]
  refine wp_mono (wp_and (kalloc_spec h (hh 0)) kalloc_page) (fun r m₁ hr => ?_) fun _ _ he => he.1
  obtain ⟨hr, hpage⟩ := hr
  cases r with
  | none =>
    refine ⟨⟨g.free, hr.1⟩, fun ⟨hs, hl⟩ => ?_⟩
    rcases hr.2 with hf | hf
    · rw [hf] at hl; simp at hl
    · rw [hf] at hs; cases hs
  | some p =>
  obtain ⟨hp, l, hl, h1⟩ := hr
  have hrole : ((g.setFree l).setHand 0 p).page (.hand 0) = p := by simp
  -- memset(pgdir, 0, PGSIZE);
  have h2 := h1.touch (hrole ▸ h1.plain (r := .hand 0) (by rwa [hrole]) nofun nofun)
    fun _ => 0
  have h3 := h2.newDir (o := o) (n := 0) (p := p) (by simp [Ghost.setHand]) ho fun j => by
    simp only [Mem.word, Mem.setPage_page, if_true]
    exact Bytes.getLE_zero
  rw [Ghost.setHand_setHand (g := g.setFree l) (hh 0)] at h3
  have hd : ((g.setFree l).setDir o p).dir o = p := by simp [Ghost.setDir]
  have hzero : ∀ u, ((g.setFree l).setDir o p).ent o u = 0 := h.ent_of_dir ho
  have hbud : 65 + c ≤ g.free.length → Budget o kernelTables c ((g.setFree l).setDir o p) :=
    fun hlen => by
      unfold Budget
      rw [card_kernelTables]
      rw [hl, List.length_cons] at hlen
      simp only [Ghost.setDir, Ghost.setFree]
      omega
  rw [wp_bind, memset, wp_modify]
  have hloop := setupkvmLoop_spec (c := c) h3 (by rwa [hd]) hh (kmap_ok k)
    (kmap_pairwise k) fun _ _ u _ => hzero u
  rw [hd] at hloop
  refine wp_post hloop fun r m₂ hx => ?_
  rcases hx with ⟨rfl, ⟨l', h4⟩, hno⟩ | ⟨rfl, g', hf, hs, h4, hb, hu⟩
  · refine ⟨⟨l', ?_⟩, fun ⟨hs, hlen⟩ => hno ⟨hs, hbud hlen⟩⟩
    rw [show (g.setFree l).setDir o p = (g.setDir o p).setFree l from rfl] at h4
    have : ((g.setDir o p).setFree l).erase o = ((g.setDir o p).erase o).setFree l := rfl
    rwa [this, h.erase_setDir ho] at h4
  have hsub : ∀ q ∈ l, q ∈ g.free := fun q hq => hl ▸ List.mem_cons_of_mem p hq
  have hpf : p ∈ g.free := hl ▸ List.mem_cons_self
  refine ⟨hp, g', ⟨hf.dir, hf.tab, hf.ent, hf.hand, hf.other, hf.sure⟩, h4, fun q hq =>
    hsub q (hs.free q hq), fun q hq0 hq => ?_, fun hlen => ?_, fun u => by rw [hu, hzero]; rfl⟩
  · have hqp : q ≠ p := fun he => hq (he ▸ hpf)
    have hap : Apart o ((g.setFree l).setDir o p) q := by
      exact ⟨fun hx => hq (hsub q hx), by rwa [hd], fun i hx =>
        hq0 (hx.trans (h.tables.tab_none o i (.inl ho)))⟩
    refine ⟨hs.apart q hap, ?_⟩
    rw [hs.page q hap, Mem.setPage_page, if_neg hqp, hpage]
  have := hb (hbud hlen)
  unfold Budget at this
  have := Finset.card_filter_le kernelTables fun i => g'.tab o i ≠ 0
  omega

/-- **`setupkvm`** makes a directory whose entries are those of the table, or gives back the pages
it has taken.  It succeeds if `kalloc` is willing and 65 pages are free. -/
theorem setupkvm_spec (c : ℕ) (h : Holds k g m) (ho : g.dir o = 0) (hh : ∀ n, g.hand n = 0) :
    wp (setupkvm k) (fun r m' => match r with
      | none => (∃ l, Holds k (g.setFree l) m') ∧ ¬ (g.sure = true ∧ 65 + c ≤ g.free.length)
      | some d => d ≠ 0 ∧ ∃ g', Frame o (g.setDir o d) g' ∧ Holds k g' m' ∧
          (65 + c ≤ g.free.length → c ≤ g'.free.length) ∧ ∀ u, g'.ent o u = kernelEntry k u)
      (fun _ _ => False) m := by
  refine wp_post (setupkvm_exact c h ho hh) fun r m' hr => ?_
  cases r with
  | none => exact hr
  | some d =>
    obtain ⟨hd, g', hf, h', -, -, hr⟩ := hr
    exact ⟨hd, g', hf, h', hr⟩

end Vm

end Xv6
