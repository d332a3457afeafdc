import Xv6.Vm.Grow

/-!
# Copying an address space

What `copyuvm` gives to a child.  The directory that it makes has no owner yet in the ghost state of
the caller, so that state is first given room for one more (`Ghost.lift`).

* `copyuvm_deep` : **the child sees the bytes and the flags of its parent, on pages of its own**:
  whatever one of them writes later, the other does not see it.
* `copyuvm_rounds_up` : a size that is not a multiple of the page size is rounded up, and the child
  also has the addresses up to the end of the last page.
-/

namespace Xv6

namespace Vm

variable {ι κ : Type} {k : Symbols} {g g' : Ghost ι κ} {m m' : Mem} {o o' : ι} {d d' p v va sz : ℕ}

/-! ## Room for one more directory -/

/-- The same pages, with a name for one more directory. -/
def Ghost.lift (g : Ghost ι κ) : Ghost (Option ι) κ where
  dir o := o.elim 0 g.dir
  tab o i := o.elim 0 fun o => g.tab o i
  ent o v := o.elim 0 fun o => g.ent o v
  hand := g.hand
  other := g.other
  free := g.free
  sure := g.sure

/-- The name of a role after `Ghost.lift`. -/
def Role.up : Role ι κ → Role (Option ι) κ
  | .dir o => .dir (some o)
  | .table o i => .table (some o) i
  | .user o v => .user (some o) v
  | .hand n => .hand n
  | .other x => .other x

/-- The role with this name; the new directory has none. -/
def Role.down : Role (Option ι) κ → Role ι κ
  | .dir (some o) => .dir o
  | .table (some o) i => .table o i
  | .user (some o) v => .user o v
  | .other x => .other x
  | .hand n => .hand n
  | _ => .hand 0

theorem Ghost.lift_up (g : Ghost ι κ) (r : Role ι κ) : g.lift.page r.up = g.page r := by
  cases r <;> rfl

theorem Ghost.lift_down {r : Role (Option ι) κ} (hr : g.lift.page r ≠ 0) : r.down.up = r := by
  cases r with
  | dir o | table o i => cases o with
    | none => exact absurd rfl hr
    | some o => rfl
  | user o v => cases o with
    | none => exact absurd (by simp [Ghost.page, Ghost.lift]) hr
    | some o => rfl
  | hand n | other x => rfl

theorem Role.up_injective : Function.Injective (Role.up : Role ι κ → Role (Option ι) κ) := by
  intro r r' h
  cases r <;> cases r' <;> simp_all [Role.up]

theorem holds_lift : Holds k g.lift m ↔ Holds k g m := by
  constructor
  · intro h
    have ht := h.tables
    refine ⟨⟨fun o => ht.pde (some o), fun o => ht.pte (some o), fun o => ht.tab_none (some o),
      fun o => ht.ent_none (some o), fun o => ht.ent_user (some o)⟩, h.pool.sure, h.pool.chain,
      h.pool.nodup, h.pool.free_lt, h.pool.owns.reindex Role.up (fun r _ => g.lift_up r)
        (fun r r' _ _ he => Role.up_injective he) (fun r hr => ⟨r.down, ?_⟩) k.first_pos⟩
    rw [← g.lift_up, Ghost.lift_down hr]
  intro h
  have ht := h.tables
  refine ⟨⟨fun o => ?_, fun o => ?_, fun o => ?_, fun o => ?_, fun o => ?_⟩, h.pool.sure,
    h.pool.chain, h.pool.nodup, h.pool.free_lt, h.pool.owns.reindex Role.down (fun r hr => ?_)
    (fun r r' hr hr' he => ?_)
      (fun r _ => ⟨r.up, g.lift_up r⟩) k.first_pos⟩
  · cases o with
    | none => exact fun _ hn => absurd rfl hn
    | some o => exact ht.pde o
  · cases o with
    | none => exact fun _ _ hn => absurd rfl hn
    | some o => exact ht.pte o
  · cases o with
    | none => exact fun _ _ => rfl
    | some o => exact ht.tab_none o
  · cases o with
    | none => exact fun _ _ => rfl
    | some o => exact ht.ent_none o
  · cases o with
    | none => exact fun _ _ => .inl rfl
    | some o => exact ht.ent_user o
  · rw [← g.lift_up, Ghost.lift_down hr]
  · rw [← Ghost.lift_down hr, he, Ghost.lift_down hr']

theorem Holds.mem_free_iff (h : Holds k g m) :
    p ∈ g.free ↔ k.first ≤ p ∧ p < physPages ∧ ∀ r, g.page r ≠ p := by
  have how := h.pool.owns
  constructor
  · intro hp
    have hf : decide (p ∉ g.free) = false := by simp [hp]
    exact ⟨how.le_of_not_used hf, h.pool.free_lt p hp, how.ptr_ne_of_not_used k.first_pos hf⟩
  rintro ⟨h1, h2, h3⟩
  by_contra hp
  rcases how.cover p h2 (by simpa using hp) with hlt | ⟨r, hr⟩
  · omega
  · exact h3 r hr

theorem Holds.free_congr {l : List ℕ} (h : Holds k g m) (h' : Holds k (g.setFree l) m') :
    p ∈ l ↔ p ∈ g.free := by
  rw [h.mem_free_iff, show p ∈ l ↔ _ from h'.mem_free_iff]
  simp only [Ghost.setFree_page]

/-! ## Writes of user programs -/

/-- A user program writes `b` at `va`; nothing happens where nothing is mapped. -/
def Mem.poke (m : Mem) (d va : ℕ) (b : UInt8) : Mem :=
  match m.translate d va with
  | none => m
  | some (pa, _) => m.setPage (pa / pgSize) (upd (m.page (pa / pgSize)) (pa % pgSize) b)

/-- A write through a directory. -/
structure Write where
  dir : ℕ
  va : ℕ
  byte : UInt8

/-- Writes one after the other. -/
def Mem.pokes (m : Mem) (ws : List Write) : Mem := ws.foldl (fun m w => m.poke w.dir w.va w.byte) m

theorem Holds.poke (h : Holds k g m) (ho : g.dir o ≠ 0) (hva : va < kernBase) (b : UInt8) :
    Holds k g (m.poke (g.dir o) va b) ∧
      ∀ q, q ≠ g.ent o (va / pgSize) / pgSize → (m.poke (g.dir o) va b).page q = m.page q := by
  have hv : va / pgSize < userPages := div_lt_userPages (by omega)
  have htr := h.translate_eq ho (lt_uintSize hva)
  unfold Mem.poke
  by_cases hp : present (g.ent o (va / pgSize)) = true
  · rw [if_pos hp] at htr
    rw [htr]
    simp only [pteAddr_div]
    exact ⟨h.touch (h.plain_ent hv) _, fun q hq => by rw [Mem.setPage_page, if_neg hq]⟩
  · rw [if_neg hp] at htr
    rw [htr]
    exact ⟨h, fun _ _ => rfl⟩

/-- No directory sees what is written through another one. -/
theorem Holds.poke_look (h : Holds k g m) (ho : g.dir o ≠ 0) (ho' : g.dir o' ≠ 0)
    (hne : o ≠ o') {va' : ℕ} (hva : va < kernBase) (hva' : va' < kernBase) (b : UInt8) :
    (m.poke (g.dir o) va b).look (g.dir o') va' = m.look (g.dir o') va' := by
  obtain ⟨h', hpage⟩ := h.poke ho hva b
  have hv : va / pgSize < userPages := div_lt_userPages (by omega)
  have hv' : va' / pgSize < userPages := div_lt_userPages (by omega)
  refine h.look_congr h' ho' rfl hva' rfl fun hent => hpage _ fun he => ?_
  have hr' : g.page (.user o' (va' / pgSize)) = g.ent o' (va' / pgSize) / pgSize := if_pos hv'
  have hr : g.page (.user o (va / pgSize)) = g.ent o (va / pgSize) / pgSize := if_pos hv
  have h0 := ((h.tables.ent_user o' _ hv').resolve_left hent).2
  have hrole : Role.user o' (va' / pgSize) = .user o (va / pgSize) :=
    h.role_inj (by rwa [hr']) (by rw [hr', hr, he])
  injection hrole with hx _
  exact hne hx.symm

theorem Holds.pokes {ws : List Write} (h : Holds k g m)
    (hws : ∀ w ∈ ws, (∃ o, g.dir o = w.dir ∧ w.dir ≠ 0) ∧ w.va < kernBase) :
    Holds k g (m.pokes ws) := by
  induction ws generalizing m with
  | nil => exact h
  | cons w ws ih =>
    obtain ⟨⟨o, hd, h0⟩, hva⟩ := hws w (by simp)
    refine ih ?_ fun w' hw' => hws w' (by simp [hw'])
    show Holds k g (m.poke w.dir w.va w.byte)
    rw [← hd] at h0 ⊢
    exact (h.poke h0 hva w.byte).1

/-! ## `copyuvm` -/

/-- What a successful `copyuvm` has done. -/
structure Forked (g : Ghost ι κ) (d d' sz : ℕ) (m m' : Mem) : Prop where
  /-- Pages that were in use, those of the parent among them, are as they were. -/
  kept : ∀ q, q ≠ 0 → q ∉ g.free → m'.page q = m.page q
  parent : (∀ va < uintSize, m'.translate d va = m.translate d va) ∧ ∀ va < kernBase, m'.look d va =
    m.look d va
  copy : ∀ va < pgRoundUp sz, ∃ pa pa' fl b,
    m.look d va = some (pa, fl, b) ∧ m'.look d' va = some (pa', fl, b) ∧ pa' / pgSize ∈ g.free
  above : ∀ va, pgRoundUp sz ≤ va → va < kernBase → m'.look d' va = none
  distinct : ∀ va < kernBase, ∀ va' < kernBase, ∀ x x', m'.look d' va = some x →
    m'.look d' va' = some x' → x.1 / pgSize = x'.1 / pgSize → va / pgSize = va' / pgSize
  parted : ∀ va < kernBase, ∀ va' < kernBase, ∀ x x', m'.look d' va = some x →
    m'.look d va' = some x' → x.1 / pgSize ≠ x'.1 / pgSize
  writes : ∀ ws : List Write, (∀ w ∈ ws, (w.dir = d ∨ w.dir = d') ∧ w.va < kernBase) →
    ∀ va < kernBase, ∀ va' < kernBase, ∀ b,
      ((m'.pokes ws).poke d' va b).look d va' = (m'.pokes ws).look d va' ∧
      ((m'.pokes ws).poke d va b).look d' va' = (m'.pokes ws).look d' va'

theorem Holds.look_page (h : Holds k g m) (ho : g.dir o ≠ 0) (hva : va < kernBase)
    {x : ℕ × ℕ × UInt8} (hx : m.look (g.dir o) va = some x) : x.1 / pgSize =
    g.page (.user o (va / pgSize)) ∧ x.1 / pgSize ≠ 0 := by
  have hv : va / pgSize < userPages := div_lt_userPages (by omega)
  rw [h.look_eq ho hva] at hx
  split_ifs at hx with hz
  have hr : g.page (.user o (va / pgSize)) = g.ent o (va / pgSize) / pgSize := if_pos hv
  cases hx
  have hpa : (g.ent o (va / pgSize) / pgSize * pgSize + va % pgSize) / pgSize =
      g.ent o (va / pgSize) / pgSize := by
    simp only [pgSize]
    omega
  rw [hpa, hr]
  exact ⟨rfl, ((h.tables.ent_user o _ hv).resolve_left hz).2⟩

theorem or_one_of_odd {x : ℕ} (hx : x % 2 = 1) : x ||| 1 = x := by
  refine Nat.eq_of_testBit_eq fun i => ?_
  cases i with
  | zero => simp [hx]
  | succ i => rw [Nat.testBit_succ, Nat.testBit_succ, Nat.or_div_two,
      Nat.div_eq_of_lt (by decide : 1 < 2), Nat.or_zero]

/-- The flags that `copyuvm` passes to `mappages` come back. -/
theorem flags_entry {w : ℕ} (hp : present w = true) :
    (p * pgSize ||| pteFlags w ||| pteP) % pgSize = pteFlags w := by
  have hodd : w % 2 = 1 := by simpa [present, pteP, Nat.and_one_is_mod] using hp
  have hor : pteFlags w ||| pteP = pteFlags w :=
    or_one_of_odd (by simp only [pteFlags, pgSize]; omega)
  have hlt : pteFlags w < pgSize := Nat.mod_lt _ (by decide)
  rw [entry_eq (by rwa [hor]), hor]
  simp only [pgSize] at *
  omega

/-- What the two directories see follows from their entries. -/
theorem Forked.of_holds {G : Ghost (Option ι) κ} (h : Holds k g m) (h' : Holds k G m')
    (ho : g.dir o ≠ 0) (hsz : sz ≤ kernBase) (hd : G.dir (some o) = g.dir o) (hd' : G.dir none = d')
    (h0 : d' ≠ 0) (hent : G.ent (some o) = g.ent o) (hkept : ∀ q, q ≠ 0 → q ∉ g.free →
      m'.page q = m.page q) (hpres : ∀ v, v * pgSize < sz → g.ent o v ≠ 0)
    (hin : ∀ v, v * pgSize < sz →
      ∃ p ∈ g.free, G.ent none v = p * pgSize ||| pteFlags (g.ent o v) ||| pteP ∧
      ∀ i < pgSize, m'.page p i = m.page (g.ent o v / pgSize) i)
    (hout : ∀ v < userPages, sz ≤ v * pgSize → G.ent none v = 0) :
    Forked g (g.dir o) d' sz m m' := by
  have ho2 : G.dir (some o) ≠ 0 := by rwa [hd]
  have hn2 : G.dir none ≠ 0 := by rwa [hd']
  subst hd'
  rw [← hd]
  refine ⟨hkept, ⟨fun va hva => ?_, fun va hva => ?_⟩, fun va hva => ?_, fun va hle hva => ?_,
    fun va hva va' hva' x x' hx hx' he => ?_, fun va hva va' hva' x x' hx hx' he => ?_,
    fun ws hws va hva va' hva' b => ?_⟩
  · rw [h'.translate_eq ho2 hva, hd, h.translate_eq ho hva, hent]
  · have hv : va / pgSize < userPages := div_lt_userPages (by omega)
    rw [h'.look_eq ho2 hva, hd, h.look_eq ho hva, hent]
    split_ifs with hz
    · rfl
    · have hap : Apart o g (g.ent o (va / pgSize) / pgSize) := h.apart_ent hv hz
      rw [hkept _ ((h.tables.ent_user o _ hv).resolve_left hz).2 hap.free]
  · have hvk : va < kernBase := hva.trans_le (pgRoundUp_le hsz)
    have hv : va / pgSize < userPages := div_lt_userPages (by omega)
    have hlt := (lt_pgRoundUp_iff hsz).1 hva
    have hne := hpres _ hlt
    obtain ⟨p, hp, he, hc⟩ := hin _ hlt
    have hflags : pteFlags (g.ent o (va / pgSize)) < pgSize := Nat.mod_lt _ (by decide)
    have hne' : G.ent none (va / pgSize) ≠ 0 := fun hz => by
      have := present_entry (w := p * pgSize ||| pteFlags (g.ent o (va / pgSize)))
      rw [← he, hz] at this
      cases this
    have hlook := h'.look_eq hn2 hvk
    rw [if_neg hne', he, entry_div hflags,
      flags_entry ((h.tables.ent_user o _ hv).resolve_left hne).1,
      hc _ (Nat.mod_lt _ (by decide))] at hlook
    refine ⟨g.ent o (va / pgSize) / pgSize * pgSize + va % pgSize, _, _, _, ?_, hlook, ?_⟩
    · rw [hd, h.look_eq ho hvk, if_neg hne]
      rfl
    · have hdiv : (p * pgSize + va % pgSize) / pgSize = p := by simp only [pgSize]; omega
      rwa [hdiv]
  · have hv : va / pgSize < userPages := div_lt_userPages (by omega)
    have hge := (lt_pgRoundUp_iff hsz).not.1 (show ¬va < pgRoundUp sz by omega)
    rw [h'.look_eq hn2 hva, if_pos (hout _ hv (by omega))]
  · obtain ⟨hr, hr0⟩ := h'.look_page hn2 hva hx
    obtain ⟨hr', -⟩ := h'.look_page hn2 hva' hx'
    have hrole := h'.role_inj (by rwa [← hr]) (hr.symm.trans (he.trans hr'))
    injection hrole
  · obtain ⟨hr, hr0⟩ := h'.look_page hn2 hva hx
    obtain ⟨hr', -⟩ := h'.look_page ho2 hva' hx'
    have hrole := h'.role_inj (by rwa [← hr]) (hr.symm.trans (he.trans hr'))
    injection hrole with hx _
    cases hx
  · have hws : Holds k G (m'.pokes ws) := h'.pokes fun w hw => by
      obtain ⟨hw | hw, hva⟩ := hws w hw
      · exact ⟨⟨some o, hw.symm, hw ▸ ho2⟩, hva⟩
      · exact ⟨⟨none, hw.symm, hw ▸ hn2⟩, hva⟩
    exact ⟨hws.poke_look hn2 ho2 (by simp) hva hva' b, hws.poke_look ho2 hn2 (by simp) hva hva' b⟩

theorem Dir.ent_ne (hd : Dir k g o d m) (hsz : sz ≤ kernBase)
    (hpres : ∀ va < sz, (m.look d va).isSome) (v : ℕ) (hv : v * pgSize < sz) : g.ent o v ≠ 0 := by
  have hs := hpres _ hv
  have hne := hd.ne
  rw [← hd.dir] at hne hs
  rwa [hd.holds.look_isSome hne (hv.trans_le hsz), Nat.mul_div_cancel _ (by decide)] at hs

variable [DecidableEq ι] [DecidableEq κ]

theorem Dir.copyuvm (hd : Dir k g o d m) (hsz : sz ≤ kernBase)
    (hpres : ∀ va < sz, (m.look d va).isSome) :
    wp (copyuvm k d sz) (fun r m' => match r with
      | none => ∃ l, Holds k (g.setFree l) m'
      | some d' =>
        d' ≠ 0 ∧ ∃ G : Ghost (Option ι) κ, Holds k G m' ∧ G.dir (some o) = d ∧ G.dir none = d' ∧
          (∀ n, G.hand n = 0) ∧ G.ent (some o) = g.ent o ∧
          (∀ q, q ≠ 0 → q ∉ g.free → m'.page q = m.page q) ∧
          (∀ v, v * pgSize < sz →
          ∃ p ∈ g.free, G.ent none v = p * pgSize ||| pteFlags (g.ent o v) ||| pteP ∧
            ∀ i < pgSize, m'.page p i = m.page (g.ent o v / pgSize) i) ∧
          ∀ v < userPages, sz ≤ v * pgSize → G.ent none v = 0)
      (fun _ _ => False) m := by
  have hent := hd.ent_ne hsz hpres
  obtain ⟨h, rfl, ho, hh⟩ := hd
  have hl : Holds k g.lift m := holds_lift.2 h
  have hspec := copyuvm_exact (o := some o) hl ho (show g.lift.dir none = 0 from rfl) hh hsz
  refine wp_mono hspec (fun r m' hr => ?_) fun e _ he => ?_
  · cases r with
    | none =>
      obtain ⟨l, h'⟩ := hr
      exact ⟨l, holds_lift.1 h'⟩
    | some d' =>
    obtain ⟨hd', g₁, g₂, m₁, hf, h1, hsub, hrest, hk, hg, h2⟩ := hr
    refine ⟨hd', g₂, h2, by rw [hg.dir, hf.dir]; rfl, by rw [hg.dir, hf.dir]; simp [Ghost.setDir],
      fun n => by rw [hg.hand,
        hf.hand]; exact hh n, ?_, fun q hq hfree => ?_, fun v hv => ?_, fun v hu hv => ?_⟩
    · rw [hg.ent _ (by simp), hf.ent _ (by simp)]
      rfl
    · obtain ⟨hap, hpage⟩ := hrest q hq hfree
      rw [hg.page q hap, hpage]
    · obtain ⟨p, hp, -, he, hc⟩ := hg.fresh v zero_le hv
      exact ⟨p, hsub p hp, he, hc⟩
    · rw [hg.same v (by omega), hk, kernelEntry_user hu]
  · obtain ⟨-, v, hv, hz⟩ := he
    exact hent v hv hz

/-- **`copyuvm` copies an address space deeply**: it gives up and gives back all pages, or the child
has the bytes and the flags of its parent below `PGROUNDUP(sz)`, on pages of its own, and nothing
above. -/
theorem copyuvm_deep (hd : Dir k g o d m) (hsz : sz ≤ kernBase)
    (hpres : ∀ va < sz, (m.look d va).isSome) :
    wp (copyuvm k d sz) (fun r m' => match r with
      | none => (∃ g' : Ghost ι κ, Dir k g' o d m' ∧ ∀ p, p ∈ g'.free ↔ p ∈ g.free) ∧
          ∀ va < uintSize, m'.translate d va = m.translate d va
      | some d' => Forked g d d' sz m m' ∧
          ∃ g' : Ghost (Option ι) κ, Dir k g' (some o) d m' ∧ Dir k g' none d' m')
      (fun _ _ => False) m := by
  refine wp_post (hd.copyuvm hsz hpres) fun r m' hr => ?_
  have hent := hd.ent_ne hsz hpres
  obtain ⟨h, rfl, ho, hh⟩ := hd
  cases r with
  | none =>
    obtain ⟨l, h'⟩ := hr
    refine ⟨⟨g.setFree l, ⟨h', rfl, ho, hh⟩, fun p => h.free_congr h'⟩, fun va hva => ?_⟩
    rw [h.translate_eq ho hva]
    exact h'.translate_eq ho hva
  | some d' =>
    obtain ⟨h0, G, h', hdir, hdir', hhand, hsame, hkept, hin, hout⟩ := hr
    exact ⟨.of_holds h h' ho hsz hdir hdir' h0 hsame hkept hent hin hout, G, ⟨h', hdir, ho, hhand⟩,
      ⟨h', hdir', h0, hhand⟩⟩

theorem lone_present {va : ℕ} (hva : va < pgSize) : (lone.look 400 va).isSome :=
  (lone_space.exact va (hva.trans (by decide))).2
    (by rwa [show pgRoundUp pgSize = pgSize by decide])

theorem copyuvm_deep_lone : ∃ r m', copyuvm someSymbols 400 pgSize lone = .ok r m' ∧
    ∀ d', r = some d' → (m'.look d' 0).isSome ∧ m'.look 400 0 = lone.look 400 0 := by
  have hd := lone_dir
  have hpres : ∀ va < pgSize, (lone.look 400 va).isSome := fun _ => lone_present
  -- the memory is not to be evaluated
  generalize lone = m at hd hpres ⊢
  obtain ⟨r, m', hrun, hx⟩ := (copyuvm_deep hd (by decide) hpres).exists_ok
  refine ⟨r, m', hrun, ?_⟩
  rintro d' rfl
  obtain ⟨pa, pa', fl, b, -, hc, -⟩ := hx.1.copy 0 (by decide)
  exact ⟨by rw [hc]; rfl, hx.1.parent.2 0 (by decide)⟩

/-- One page is copied if `kalloc` is willing and two pages are free. -/
theorem copyuvmLoop_one (h : Holds k g m) (ho : g.dir o ≠ 0) (ho' : g.dir o' ≠ 0)
    (h0 : g.hand 0 = 0) (h1 : g.hand 1 = 0) (hs : g.sure = true) (hlen : 2 ≤ g.free.length)
    (hent : g.ent o 0 ≠ 0) (hent' : g.ent o' 0 = 0) {fuel : ℕ} (hfuel : 2 ≤ fuel) :
    wp (copyuvmLoop k (g.dir o) (g.dir o') 1 fuel 0) (fun r _ => r = true)
    (fun _ _ => False) m := by
  have hpr : present (g.ent o 0) = true := ((h.tables.ent_user o 0 (by decide)).resolve_left hent).1
  obtain ⟨n, rfl⟩ := Nat.exists_eq_add_of_le' hfuel
  rw [copyuvmLoop, if_pos (by decide), wp_bind]
  refine h.walk_eq ho (fun ht => absurd (h.ent_of_tab ht (by decide : 0 < uintSize)) hent)
    fun ht => ?_
  simp only [wp_bind, wp_load]
  rw [h.word_eq ht (by decide), show (0 / pgSize) = 0 from rfl, hpr]
  show wp (kalloc >>= _) _ _ _
  refine wp_seq (kalloc_spec h h0) fun r m₁ hr => ?_
  cases r with
  | none =>
    rcases hr.2 with hf | hf
    · rw [hf] at hlen
      exact absurd hlen (by decide)
    · rw [hf] at hs
      cases hs
  | some p =>
  obtain ⟨hp, l, hl, h₁⟩ := hr
  have hn : ((g.setFree l).setHand 0 p).hand 0 = p := Ghost.setHand_hand
  have hn' : ((g.setFree l).setHand 0 p).hand 1 = 0 := by simp [Ghost.setHand, Ghost.setFree, h1]
  simp only [wp_bind, wp_get, memmove, wp_modify]
  have hmap := mappages_exact (o := o') (v := 0) (h₁.fill hn hp ((m₁.page p).copy 0 pgSize
    (m₁.page (g.ent o 0 / pgSize)))) ho' hn hp hn' (by decide)
    (Nat.mod_lt (g.ent o 0) (by decide))
  refine wp_mono hmap (fun r m₂ hx => ?_) fun e _ he => ?_
  · rcases hx.2 with ⟨-, -, hf | hf⟩ | ⟨rfl, -⟩
    · rw [hl, show l = [] from hf] at hlen
      exact absurd hlen (by simp)
    · rw [show g.sure = false from hf] at hs
      cases hs
    · rw [if_neg (by decide), copyuvmLoop, if_neg (by decide)]
      rfl
  · rw [show ((g.setFree l).setHand 0 p).ent o' 0 = 0 from hent'] at he
    cases he.2

theorem copyuvm_loneGhost {r : Option ℕ} (h : Holds someSymbols loneGhost m)
    (hrun : copyuvm someSymbols 400 1 m = .ok r m') : r ≠ none := by
  have hl : Holds someSymbols loneGhost.lift m := holds_lift.2 h
  suffices hok : wp (copyuvm someSymbols 400 1) (fun r _ => r ≠ none)
    (fun _ _ => False) m from hok.ok hrun
  unfold copyuvm
  refine wp_seq (setupkvm_spec (o := none) 2 hl rfl fun _ => rfl) fun r m₁ hr => ?_
  cases r with
  | none => exact absurd ⟨rfl, by decide⟩ hr.2
  | some d =>
  obtain ⟨hd, g₁, hf, h1, hlen, hk⟩ := hr
  have hdir : g₁.dir (some ()) = 400 := by rw [hf.dir]; rfl
  have hdir' : g₁.dir none = d := by rw [hf.dir]; simp [Ghost.setDir]
  have hloop := copyuvmLoop_one h1 (o := some ()) (by rw [hdir]; decide)
    (by rwa [hdir'] : g₁.dir none ≠ 0) (by rw [hf.hand]; rfl) (by rw [hf.hand]; rfl)
    (by rw [hf.sure]; rfl) (hlen (by decide))
    (by rw [hf.ent _ (by simp)]; exact (by decide : loneGhost.ent () 0 ≠ 0))
    (by rw [hk, kernelEntry_user (by decide)]) (by decide : 2 ≤ 2 ^ 20)
  rw [hdir, hdir'] at hloop
  refine wp_seq hloop fun r m₂ hx => ?_
  rw [hx]
  exact Option.some_ne_none d

/-- A child with the size 1 can also use address 1. -/
theorem copyuvm_rounds_up : (∀ va < 1, (lone.look 400 va).isSome) ∧
    ∃ d' m', copyuvm someSymbols 400 1 lone = .ok (some d') m' ∧ (m'.look d' 1).isSome := by
  have hd := lone_dir
  have hpres : ∀ va < 1, (lone.look 400 va).isSome :=
    fun _ hva => lone_present (hva.trans (by decide))
  generalize lone = m at hd hpres ⊢
  obtain ⟨r, m', hrun, hr⟩ := (hd.copyuvm (by decide) hpres).exists_ok
  refine ⟨hpres, ?_⟩
  cases r with
  | none => exact absurd rfl (copyuvm_loneGhost hd.holds hrun)
  | some d' =>
  obtain ⟨h0, G, h', -, hdir, -, -, -, hin, -⟩ := hr
  obtain ⟨p, -, he, -⟩ := hin 0 (by decide)
  refine ⟨d', m', hrun, ?_⟩
  rw [← hdir, h'.look_isSome (by rwa [hdir]) (by decide)]
  intro hz
  have hp := present_entry (w := p * pgSize ||| pteFlags (loneGhost.ent () 0))
  rw [← he, show G.ent none 0 = 0 from hz] at hp
  cases hp

end Vm

end Xv6
