import Mathlib.Data.List.Pairwise
import Xv6.Vm.User

/-!
# The kernel half of an address space

Whatever is done to the user part of a directory made by `setupkvm`, the addresses from `KERNBASE`
on are translated as `kmap` says, and not for user code.

* `kernelMap` : what `kmap` says, address by address.
* `UserOp` : the functions on the user part.
* `kernel_half` : **no sequence of them changes the kernel half**.
-/

namespace Xv6

namespace Vm

/-- The physical address and the flags that the hardware finds for `va`. -/
def Mem.translate (m : Mem) (d va : ℕ) : Option (ℕ × ℕ) :=
  ((m.pte d va).filter present).map fun w => (pteAddr w + va % pgSize, pteFlags w)

/-- The kernel half of every address space. -/
def kernelMap (k : Symbols) (va : ℕ) : Option (ℕ × ℕ) :=
  if va < kernLink then some (va - kernBase, pteW ||| pteP) -- I/O space
  else if va < k.data then some (va - kernBase, pteP) -- text, read-only
  else if va < kernBase + physTop then some (va - kernBase, pteW ||| pteP) -- data and free memory
  else if devSpace ≤ va then some (va, pteW ||| pteP) -- devices
  else none

variable {k : Symbols} {m m' : Mem} {v va : ℕ}

/-! ## Reading the table -/

theorem entry_eq {p perm : ℕ} (hperm : perm ||| pteP < pgSize) :
    p * pgSize ||| perm ||| pteP = p * pgSize + (perm ||| pteP) := by
  rw [Nat.or_assoc, mul_comm]
  exact (Nat.two_pow_add_eq_or_of_lt (i := 12) hperm p).symm

theorem Kmap.entry_eq {e : Kmap} {pa : ℕ} (hp : e.physStart % pgSize = 0) (hv : e.virt % pgSize = 0)
    (hle : e.virt ≤ va) (hpa : pa = e.physStart + (va - e.virt)) (hlt : pa < uintSize)
    (hperm : e.perm ||| pteP < pgSize) :
    e.entry (va / pgSize) = pa / pgSize * pgSize + (e.perm ||| pteP) := by
  have hx : (e.physStart + (va / pgSize - e.virt / pgSize) * pgSize) % uintSize =
      pa / pgSize * pgSize := by
    simp only [pgSize, uintSize] at *
    omega
  rw [Kmap.entry, rangeEntry, hx, Vm.entry_eq hperm]

theorem Kmap.covers_div {e : Kmap} (hok : e.Ok) :
    e.covers (va / pgSize) = true ↔ e.virt ≤ va ∧ va < e.virt + e.size := by
  have h1 := hok.virt_mod
  have h2 := hok.size_mod
  rw [Kmap.covers_iff]
  simp only [pgSize] at *
  omega

theorem kernelEntry_of_mem {e : Kmap} (he : e ∈ kmap k) (hle : e.virt ≤ va)
    (hlt : va < e.virt + e.size) :
    kernelEntry k (va / pgSize) = e.entry (va / pgSize) := by
  have hc := (Kmap.covers_div (kmap_ok k e he)).2 ⟨hle, hlt⟩
  obtain ⟨e', hfind⟩ : ∃ e', (kmap k).find? (·.covers (va / pgSize)) = some e' :=
    Option.isSome_iff_exists.1 (List.find?_isSome.2 ⟨e, he, hc⟩)
  have hc' : e'.covers (va / pgSize) = true := by simpa using List.find?_some hfind
  have hmem := List.mem_of_find?_eq_some hfind
  -- the ranges are disjoint
  have heq : e' = e := by
    by_contra hne
    let R (a b : Kmap) : Prop := a.virt + a.size ≤ b.virt ∨ b.virt + b.size ≤ a.virt
    have : Std.Symm R := ⟨fun _ _ => Or.symm⟩
    have hor : R e' e := ((kmap_pairwise k).imp (S := R) Or.inl).forall hmem he hne
    simp only [R] at hor
    have := (Kmap.covers_div (kmap_ok k e' hmem)).1 hc'
    omega
  rw [kernelEntry, overlay, hfind, heq]

/-- An address is in one of the ranges of the table, which do not have `PTE_U`, or in none. -/
theorem kernelMap_cases (k : Symbols) (hva : kernBase ≤ va) (hlt : va < uintSize) :
    (∃ e ∈ kmap k, (e.perm = 0 ∨ e.perm = pteW) ∧ e.virt ≤ va ∧ va < e.virt + e.size ∧
      e.physStart % pgSize = 0 ∧ e.physStart + (va - e.virt) < uintSize ∧
      kernelMap k va = some (e.physStart + (va - e.virt), e.perm ||| pteP)) ∨
    kernelMap k va = none ∧ ∀ e ∈ kmap k, ¬ (e.virt ≤ va ∧ va < e.virt + e.size) := by
  have h1 := k.data_aligned
  have h2 := k.lt_data
  have h3 := k.data_lt
  simp only [kernLink, kernBase, extMem, physTop, pgSize, uintSize] at h1 h2 h3 hva hlt
  unfold kernelMap
  split_ifs with hio htext hdata hdev
  · refine .inl ⟨⟨kernBase, 0, extMem, pteW⟩, by simp [kmap], .inr rfl, hva, ?_, by decide, ?_, ?_⟩
    · simp only [Kmap.size, kernLink, kernBase, extMem, uintSize] at *
      omega
    · simp only [kernBase, uintSize] at *
      omega
    · exact congrArg some (Prod.ext (zero_add _).symm rfl)
  · refine .inl ⟨⟨kernLink, extMem, k.data - kernBase, 0⟩, by simp [kmap], .inl rfl, ?_, ?_,
      (by decide : extMem % pgSize = 0), ?_, ?_⟩
    · exact Nat.le_of_not_lt hio
    · simp only [Kmap.size, kernLink, kernBase, extMem, uintSize] at *
      omega
    · simp only [kernLink, kernBase, extMem, uintSize] at *
      omega
    · refine congrArg some (Prod.ext ?_ (Nat.zero_or _).symm)
      simp only [kernLink, kernBase, extMem] at *
      omega
  · refine .inl ⟨⟨k.data, k.data - kernBase, physTop, pteW⟩, by simp [kmap], .inr rfl, ?_, ?_,
      ?_, ?_, ?_⟩
    · exact Nat.le_of_not_lt htext
    · simp only [Kmap.size, kernBase, physTop, uintSize] at *
      omega
    · simp only [kernBase, pgSize] at *
      omega
    · simp only [kernBase, uintSize] at *
      omega
    · refine congrArg some (Prod.ext ?_ rfl)
      simp only [kernBase] at *
      omega
  · refine .inl ⟨⟨devSpace, devSpace, 0, pteW⟩, by simp [kmap], .inr rfl, hdev,
      ?_, by decide, ?_, ?_⟩
    · simp only [Kmap.size, devSpace, uintSize] at *
      omega
    · simp only [devSpace, uintSize] at *
      omega
    · refine congrArg some (Prod.ext ?_ rfl)
      simp only [devSpace] at *
      omega
  · refine .inr ⟨rfl, ?_⟩
    simp only [kmap, List.mem_cons, List.not_mem_nil, or_false, forall_eq_or_imp,
      forall_eq, Kmap.size]
    simp only [kernLink, kernBase, extMem, physTop, devSpace, uintSize] at *
    omega

/-- An entry made of a page and the flags of a kernel range. -/
theorem flags_of_entry {q perm : ℕ} (h : perm = 0 ∨ perm = pteW) :
    present (q * pgSize + (perm ||| pteP)) = true ∧ userBit (q * pgSize + (perm ||| pteP)) = false ∧
      pteAddr (q * pgSize + (perm ||| pteP)) = q * pgSize ∧
      pteFlags (q * pgSize + (perm ||| pteP)) = perm ||| pteP := by
  have hf : perm ||| pteP = 1 ∨ perm ||| pteP = 3 := by rcases h with h | h <;> rw [h] <;> decide
  generalize perm ||| pteP = f at hf
  have hbit : (q * pgSize + f) / 4 % 2 = 0 := by
    simp only [pgSize]
    omega
  rw [present_iff, userBit, and_pteU, hbit]
  unfold pteAddr pteFlags
  simp only [pgSize]
  refine ⟨by omega, rfl, by omega, by omega⟩

/-- The entries of the table are those of `kernelMap`. -/
theorem kernelEntry_translate (k : Symbols) (hva : kernBase ≤ va) (hlt : va < uintSize) :
    ((some (kernelEntry k (va / pgSize))).filter present).map
        (fun w => (pteAddr w + va % pgSize, pteFlags w)) = kernelMap k va ∧
      userBit (kernelEntry k (va / pgSize)) = false := by
  rcases kernelMap_cases k hva hlt with ⟨e, he, hperm, hle, hend, hp, hpa, hmap⟩ | ⟨hmap, hno⟩
  · have hv := (kmap_ok k e he).virt_mod
    rw [kernelEntry_of_mem he hle hend, hmap]
    have hent := e.entry_eq hp hv hle rfl hpa (by rcases hperm with h | h <;> rw [h] <;> decide)
    generalize hx : e.physStart + (va - e.virt) = pa at hent
    have hoff : pa % pgSize = va % pgSize := by
      simp only [pgSize] at *
      omega
    obtain ⟨hP, hU, hA, hF⟩ := flags_of_entry (q := pa / pgSize) hperm
    rw [hent, Option.filter_some, if_pos hP, Option.map_some, hA, hF, ← hoff, Nat.div_add_mod']
    exact ⟨rfl, hU⟩
  · have hz : kernelEntry k (va / pgSize) = 0 := overlay_of_not fun e he => by
      by_contra hc
      exact hno e he ((Kmap.covers_div (kmap_ok k e he)).1 (by simpa using hc))
    rw [hz, hmap]
    exact ⟨rfl, rfl⟩

theorem kernelEntry_userBit (k : Symbols) (v : ℕ) : userBit (kernelEntry k v) = false := by
  by_cases hv : v < userPages
  · rw [kernelEntry_user hv]
    rfl
  by_cases hlt : v < 2 ^ 20
  · have hdiv : v * pgSize / pgSize = v := Nat.mul_div_cancel _ (by decide)
    rw [← hdiv]
    refine (kernelEntry_translate k ?_ ?_).2 <;>
      simp only [kernBase, pgSize, userPages, uintSize] at * <;> omega
  have hz : kernelEntry k v = 0 := overlay_of_not fun e he => by
    by_contra hc
    have h1 := (Kmap.covers_iff.1 (by simpa using hc)).2
    have h2 := (kmap_ok k e he).end_le
    simp only [pgSize, uintSize] at *
    omega
  rw [hz]
  rfl

/-! ## The functions on the user part -/

/-- What may be done to a directory. -/
inductive UserOp
  | inituvm (init : Bytes) (sz : ℕ)
  | allocuvm (oldsz newsz : ℕ)
  | deallocuvm (oldsz newsz : ℕ)
  | loaduvm (addr : ℕ) (ip : File) (offset sz : ℕ)
  | copyout (va : ℕ) (p : Bytes) (len : ℕ)
  | clearpteu (uva : ℕ)

/-- The addresses are below `KERNBASE`, except that `copyout` may be called for any address. -/
def UserOp.User : UserOp → Prop
  | .deallocuvm oldsz _ => oldsz ≤ kernBase
  | .loaduvm addr _ _ sz => addr + sz ≤ kernBase
  | .copyout va _ _ => va < uintSize
  | .clearpteu uva => uva < kernBase
  | .inituvm _ _ | .allocuvm _ _ => True

/-- Call the function and ignore what it returns. -/
def UserOp.perform (k : Symbols) (pgdir : ℕ) : UserOp → Act Unit
  | .inituvm init sz => Vm.inituvm pgdir init sz
  | .allocuvm oldsz newsz => do let _ ← Vm.allocuvm k pgdir oldsz newsz
  | .deallocuvm oldsz newsz => do let _ ← Vm.deallocuvm k pgdir oldsz newsz
  | .loaduvm addr ip offset sz => do let _ ← Vm.loaduvm pgdir addr ip offset sz
  | .copyout va p len => do let _ ← Vm.copyout pgdir va p len
  | .clearpteu uva => Vm.clearpteu pgdir uva

/-- One function after the other. -/
def performAll (k : Symbols) (pgdir : ℕ) : List UserOp → Act Unit
  | [] => pure ()
  | op :: ops => do
    op.perform k pgdir
    performAll k pgdir ops

/-- `d` is a page directory with the kernel half of the table.  `inituvm` may lose pages: they stay
in hand. -/
def Half (k : Symbols) (d : ℕ) (m : Mem) : Prop :=
  ∃ g : Ghost Unit ℕ, Holds k g m ∧ g.dir () = d ∧ d ≠ 0 ∧
    (∀ u, userPages ≤ u → g.ent () u = kernelEntry k u) ∧
    ∃ N, ∀ n, n < 2 ∨ N ≤ n → g.hand n = 0

section Half

variable {g g' : Ghost Unit ℕ} {d : ℕ} {op : UserOp} {ops : List UserOp}

theorem guarded_of_kernel (hk : ∀ u, userPages ≤ u → g.ent () u = kernelEntry k u) : Guarded () g :=
  fun v hv => by
  rw [hk v hv]
  exact kernelEntry_userBit k v

theorem Half.of_frame {N : ℕ} (h : Holds k g' m') (hf : UserFrame () g g') (hd : g.dir () = d)
    (hd0 : d ≠ 0) (hk : ∀ u, userPages ≤ u → g.ent () u = kernelEntry k u) (hN : ∀ n, n < 2 ∨
      N ≤ n → g.hand n = 0) :
    Half k d m' := by
  refine ⟨g', h, by rw [hf.dir, hd], hd0, fun u hu => ?_, N, fun n hn => by rw [hf.hand, hN n hn]⟩
  rw [hf.kernel u hu, hk u hu]

theorem UserOp.perform_spec (h : Half k d m) (hop : op.User) :
    wp (op.perform k d) (fun _ => Half k d) (fun e _ => e ≠ .fuel) m := by
  obtain ⟨g, h, rfl, hd0, hk, N, hN⟩ := h
  have keep : ∀ {m' g'}, Holds k g' m' → UserFrame () g g' → Half k (g.dir ()) m' := fun h' hf =>
    .of_frame h' hf rfl hd0 hk hN
  have h0 := hN 0 (.inl (by decide))
  have h1 := hN 1 (.inl (by decide))
  cases op with
  | inituvm init sz =>
    -- the page may stay in hand, at a place that is not used again
    refine wp_mono (inituvm_spec (n := N + 2) h hd0 (hN _ (.inr (by omega))) h0 (by omega))
      (fun _ m' hx => ?_) fun e _ he => ?_
    · obtain ⟨g', h', ⟨hf, -⟩ | ⟨-, p, hf⟩⟩ := hx
      · exact keep h' hf
      · refine .of_frame (N := N + 3) h' hf rfl hd0 hk fun n hn => ?_
        have : n ≠ N + 2 := by omega
        simp [Ghost.setHand, this, hN n (by omega)]
    · rcases he with ⟨rfl, -⟩ | ⟨rfl, -⟩ | ⟨rfl, -⟩ <;> decide
  | allocuvm oldsz newsz =>
    simp only [UserOp.perform, wp_bind]
    refine wp_mono (allocuvm_spec h hd0 h0 h1) (fun _ m' hx => ?_) fun e _ he => by rw [he]; decide
    obtain ⟨⟨g', hf, h'⟩, -⟩ := hx
    exact keep h' hf
  | deallocuvm oldsz newsz =>
    simp only [UserOp.perform, wp_bind]
    refine wp_mono (deallocuvm_spec h hd0 hop) (fun _ m' hx => ?_) fun e _ => False.elim
    obtain ⟨-, g', hf, h', -⟩ := hx
    exact keep h' hf
  | loaduvm addr ip offset sz =>
    simp only [UserOp.perform, wp_bind]
    refine wp_mono (loaduvm_spec h hd0 hop) (fun _ m' hx => keep hx (.refl () g)) fun e _ he => ?_
    rcases he with rfl | rfl <;> decide
  | copyout va p len =>
    simp only [UserOp.perform, wp_bind]
    refine wp_mono (copyout_holds h hd0 (guarded_of_kernel hk) hop)
      (fun _ m' hx => keep hx (.refl () g)) fun e _ he => by rw [he]; decide
  | clearpteu uva =>
    refine wp_mono (clearpteu_spec h hd0 hop) (fun _ m' hx => ?_) fun e _ he => by
      rw [he.1]; decide
    obtain ⟨g', hf, h', -⟩ := hx
    exact keep h' hf

theorem performAll_spec (h : Half k d m) (hops : ∀ op ∈ ops, op.User) :
    wp (performAll k d ops) (fun _ => Half k d) (fun e _ => e ≠ .fuel) m := by
  induction ops generalizing m with
  | nil => exact h
  | cons op ops ih =>
    rw [performAll]
    exact wp_seq (UserOp.perform_spec h (hops op (by simp)))
      fun _ m' h' => ih h' fun op hop => hops op (by simp [hop])

theorem Half.translate (h : Half k d m) (hva : kernBase ≤ va) (hlt : va < uintSize) :
    m.translate d va = kernelMap k va ∧ ∀ w, m.pte d va = some w → userBit w = false := by
  obtain ⟨g, h, rfl, hd0, hk, -⟩ := h
  have hu : userPages ≤ va / pgSize := by simp only [kernBase, pgSize, userPages] at *; omega
  obtain ⟨htr, hbit⟩ := kernelEntry_translate k hva hlt
  by_cases ht : g.tab () (pdx va) = 0
  · have hpte : m.pte (g.dir ()) va = none := by rw [Mem.pte, h.table_eq hd0, if_pos ht]; rfl
    have hz := h.ent_of_tab ht hlt
    rw [← hk _ hu, hz] at htr
    refine ⟨?_, fun w hw => ?_⟩
    · rw [Mem.translate, hpte, ← htr]
      rfl
    · rw [hpte] at hw
      cases hw
  · have hpte : m.pte (g.dir ()) va = some (kernelEntry k (va / pgSize)) := by
      rw [Mem.pte, h.table_eq hd0, if_neg ht, Option.map_some, h.word_eq ht hlt, hk _ hu]
    refine ⟨?_, fun w hw => ?_⟩
    · rw [Mem.translate, hpte, htr]
    · rw [hpte] at hw
      exact Option.some.inj hw ▸ hbit

end Half

/-! ## From the free list on -/

/-- The free list consists of the pages `l`, which are after the kernel. -/
structure FreeList (k : Symbols) (m : Mem) (l : List ℕ) : Prop where
  chain : Chain m m.freelist l
  nodup : l.Nodup
  mem : ∀ p ∈ l, k.first ≤ p ∧ p < physPages

/-- No page table yet: what is not free is in use for something else. -/
def idle (k : Symbols) (l : List ℕ) (sure : Bool) : Ghost Unit ℕ where
  dir _ := 0
  tab _ _ := 0
  ent _ _ := 0
  hand _ := 0
  other p := if k.first ≤ p ∧ p < physPages ∧ p ∉ l then p else 0
  free := l
  sure := sure

theorem FreeList.holds {l : List ℕ} (h : FreeList k m l) (sure : Bool)
    (hs : sure = true → m.Willing) :
    Holds k (idle k l sure) m where
  tables := ⟨nofun, nofun, fun _ _ _ => rfl, fun _ _ _ => rfl, fun _ _ _ => .inl rfl⟩
  pool := by
    have hpage : ∀ r, (idle k l sure).page r ≠ 0 → ∃ p, r = .other p ∧ (idle k l sure).page r = p ∧
        k.first ≤ p ∧ p < physPages ∧ p ∉ l := fun r hr => by
      cases r with
      | other p =>
        by_cases hp : k.first ≤ p ∧ p < physPages ∧ p ∉ l
        · exact ⟨p, rfl, if_pos hp, hp⟩
        · exact absurd (if_neg hp) hr
      | user o v => exact absurd (by simp [Ghost.page, idle]) hr
      | _ => exact absurd rfl hr
    refine ⟨hs, h.chain, h.nodup, fun p hp => (h.mem p hp).2, ⟨?_, ?_, ?_, ?_, ?_, ?_⟩⟩
    · intro r hr
      obtain ⟨p, -, hp, hx⟩ := hpage r hr
      exact hp ▸ hx.1
    · intro r hr
      obtain ⟨p, -, hp, hx⟩ := hpage r hr
      exact hp ▸ hx.2.1
    · intro r hr
      obtain ⟨p, -, hp, hx⟩ := hpage r hr
      rw [hp]
      exact decide_eq_true hx.2.2
    · intro r r' hr he
      obtain ⟨p, rfl, hp, -⟩ := hpage r hr
      obtain ⟨p', rfl, hp', -⟩ := hpage r' (he ▸ hr)
      rw [← hp, ← hp', he]
    · intro p hp
      have : p ∉ l := fun hl => by have := (h.mem p hl).1; omega
      exact decide_eq_true this
    · intro p hp hl
      by_cases hf : k.first ≤ p
      · exact .inr ⟨.other p, if_pos ⟨hf, hp, of_decide_eq_true hl⟩⟩
      · exact .inl (by omega)

theorem FreeList.half {l : List ℕ} {m₁ : Mem} {d : ℕ} (h : FreeList k m l)
    (hset : setupkvm k m = .ok (some d) m₁) : Half k d m₁ := by
  have hsetup := (setupkvm_spec (o := ()) 0 (h.holds false nofun) rfl fun _ => rfl).ok hset
  obtain ⟨hd, g, hf, h, -, hk⟩ := hsetup
  exact ⟨g, h, by rw [hf.dir]; simp [Ghost.setDir], hd, fun u _ => hk u, 0,
    fun n _ => by rw [hf.hand]; rfl⟩

/-- **The kernel half of every address space**: after any calls for the user part of a directory
that `setupkvm` has returned, whether they succeed or fail, the addresses from `KERNBASE` on are
translated as the table says, and no entry there has `PTE_U`.  (No call goes on for ever; one that
panics is the last.) -/
theorem kernel_half {l : List ℕ} {m₁ : Mem} {d : ℕ} {ops : List UserOp} (hfree : FreeList k m l)
    (hset : setupkvm k m = .ok (some d) m₁) (hops : ∀ op ∈ ops, op.User) :
    (∀ m₂, performAll k d ops m₁ = .ok () m₂ → ∀ va, kernBase ≤ va → va < uintSize →
      m₂.translate d va = kernelMap k va ∧ ∀ w, m₂.pte d va = some w → userBit w = false) ∧
    ∀ m₂, performAll k d ops m₁ ≠ .error .fuel m₂ := by
  have hall := performAll_spec (hfree.half hset) hops
  exact ⟨fun m₂ hrun va hva hlt => (hall.ok hrun).translate hva hlt,
    fun m₂ hrun => hall.error hrun rfl⟩

/-- A small kernel. -/
def someSymbols : Symbols where
  first := 300
  data := kernBase + 272 * pgSize
  data_aligned := by decide
  lt_data := by decide
  data_lt := by decide
  data_le_first := by decide
  first_le := by decide

/-- A hundred free pages, in the order of their addresses. -/
def hundred : Mem where
  page p := Bytes.zero.putLE 4 0 (if p = 399 then 0 else p2v (p + 1))
  freelist := p2v 300
  deny _ := false

theorem hundred_word {p : ℕ} (hp : p < physPages) :
    hundred.word p 0 = if p = 399 then 0 else p2v (p + 1) := by
  have hlt : (if p = 399 then 0 else p2v (p + 1)) < 256 ^ 4 := by
    split
    · decide
    · have : physPages = 57344 := by decide
      simp only [p2v, pgSize, kernBase]
      omega
  exact Bytes.getLE_putLE.trans (Nat.mod_eq_of_lt hlt)

theorem hundred_chain {n : ℕ} (hn : n < 100) :
    Chain hundred (p2v (399 - n)) (List.range' (399 - n) (n + 1)) := by
  induction n with
  | zero =>
    refine .cons ?_
    rw [hundred_word (by decide), if_pos rfl]
    exact .nil
  | succ n ih =>
    have hp : 399 - (n + 1) < physPages := lt_of_le_of_lt (Nat.sub_le _ _) (by decide)
    rw [List.range'_succ]
    refine .cons ?_
    rw [hundred_word hp, if_neg (by omega), show 399 - (n + 1) + 1 = 399 - n by omega]
    exact ih (by omega)

theorem hundred_freeList : FreeList someSymbols hundred (List.range' 300 100) where
  chain := hundred_chain (n := 99) (by decide)
  nodup := List.nodup_range'
  mem p hp := by
    have : physPages = 57344 := by decide
    rw [List.mem_range'_1] at hp
    exact ⟨hp.1, by omega⟩

theorem FreeList.allocuvm_ok {l : List ℕ} (h : FreeList k m l) (hw : m.Willing)
    (hl : 69 ≤ l.length) : ∃ d m₁ m₂, setupkvm k m = .ok (some d) m₁ ∧
    allocuvm k d 0 8192 m₁ = .ok 8192 m₂ := by
  have hsetup := setupkvm_spec (o := ()) 4 (h.holds true fun _ => hw) rfl fun _ => rfl
  obtain ⟨r, m₁, hset, hr⟩ := hsetup.exists_ok
  cases r with
  | none => exact absurd ⟨rfl, hl⟩ hr.2
  | some d =>
  obtain ⟨hd, g, hf, h', hfree, hk⟩ := hr
  have hdir : g.dir () = d := by rw [hf.dir]; simp [Ghost.setDir]
  have hhand : ∀ n, g.hand n = 0 := fun n => by rw [hf.hand]; rfl
  have hrun : wp (allocuvm k (g.dir ()) 0 8192) _ _ m₁ := Vm.allocuvm_ok (n := 2) h' (hdir ▸ hd)
    (hhand 0) (hhand 1) (by decide) (by decide) (fun v hv => .inl (by
      rw [hk, kernelEntry_user (lt_userPages_iff.2 (hv.trans (by decide)))]))
    hf.sure (by decide) (hfree hl)
  rw [hdir] at hrun
  obtain ⟨r, m₂, hrun, rfl, -⟩ := hrun.exists_ok
  exact ⟨d, m₁, m₂, hset, hrun⟩

theorem kernel_half_hundred : ∃ d m₁ m₂, setupkvm someSymbols hundred = .ok (some d) m₁ ∧
    allocuvm someSymbols d 0 8192 m₁ = .ok 8192 m₂ ∧
    performAll someSymbols d [.allocuvm 0 8192] m₁ = .ok () m₂ ∧
    m₂.translate d kernLink = kernelMap someSymbols kernLink := by
  obtain ⟨d, m₁, m₂, hset, halloc⟩ := hundred_freeList.allocuvm_ok (fun _ => rfl) (by decide)
  have hrun : performAll someSymbols d [.allocuvm 0 8192] m₁ = .ok () m₂ := by
    simp only [performAll, UserOp.perform, bind, EStateM.bind, halloc]
    rfl
  have hops : ∀ op ∈ [UserOp.allocuvm 0 8192], op.User := by
    simp [UserOp.User]
  exact ⟨d, m₁, m₂, hset, halloc, hrun,
    ((kernel_half hundred_freeList hset hops).1 m₂ hrun kernLink (by decide) (by decide)).1⟩

end Vm

end Xv6
