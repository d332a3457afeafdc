import Xv6.Malloc.Heap

/-!
# `malloc`

The loop of `malloc` walks the circle from `freep` until it finds a block that is large enough; when
it is back at `freep`, it asks the kernel for more memory, and after that it finds a block without
coming back again.

* `malloc_spec` : **`malloc` keeps the invariant** and makes one live block from a free one.
-/

namespace Xv6

open List

namespace Malloc

variable {m : Bytes} {base nu n prevp p : ℕ} {x y F X Y Z : Block}
  {A E E₁ E₂ fs live l : List Block} {h h' : Heap}

/-! ### The walk -/

theorem mallocLoop_succ : mallocLoop nu (n + 1) prevp p h =
    if nu ≤ size h.mem p then
      .ok (((take h.mem nu prevp p).1 + headerSize) % uintSize)
        { h with mem := (take h.mem nu prevp p).2, freep := prevp }
    else if p = h.freep then
      (do
        match ← morecore nu with
        | none => return 0
        | some p => mallocLoop nu n p (ptr (← get).mem p) : MallocM ℕ) h
    else mallocLoop nu n p (ptr h.mem p) h := by
  rw [mallocLoop, get_bind_apply]
  split_ifs <;> rfl

theorem mallocLoop_walk (hl : Links h.mem base (X :: (E₁ ++ E₂)))
    (hsize : ∀ y ∈ E₁, size h.mem y.addr < nu) (hne : ∀ y ∈ E₁, y.addr ≠ h.freep) :
    mallocLoop nu (n + E₁.length) X.addr (first (E₁ ++ E₂) base) h =
      mallocLoop nu n (E₁.getLastD X).addr (first E₂ base) h := by
  induction E₁ generalizing X with
  | nil => rfl
  | cons y E₁ ih =>
    have hy := hsize y (by simp)
    have hptr : ptr h.mem y.addr = first (E₁ ++ E₂) base := hl.2.1
    rw [cons_append, first_cons, length_cons, ← add_assoc, mallocLoop_succ,
      if_neg (by omega), if_neg (hne y (by simp)), hptr, ih hl.2
      (fun z hz => hsize z (by simp [hz])) fun z hz => hne z (by simp [hz])]
    cases E₁ <;> rfl

theorem exists_first_fit (hl : ∃ y ∈ l, nu ≤ y.units) :
    ∃ E₁ Y E₂, l = E₁ ++ Y :: E₂ ∧ nu ≤ Y.units ∧ ∀ y ∈ E₁, y.units < nu := by
  induction l with
  | nil => simp at hl
  | cons x l ih =>
    by_cases hx : nu ≤ x.units
    · exact ⟨[], x, l, rfl, hx, by simp⟩
    obtain ⟨y, hy, hfit⟩ := hl
    have hy : y ∈ l := (mem_cons.1 hy).resolve_left fun he => hx (he ▸ hfit)
    obtain ⟨E₁, Y, E₂, rfl, hY, hE1⟩ := ih ⟨y, hy, hfit⟩
    refine ⟨x :: E₁, Y, E₂, rfl, hY, fun z hz => ?_⟩
    rcases mem_cons.1 hz with rfl | hz
    · omega
    · exact hE1 z hz

theorem exists_last (A : List Block) (F : Block) (E : List Block) :
    ∃ A', A ++ F :: E = A' ++ [E.getLastD F] := by
  induction E generalizing A F with
  | nil => exact ⟨A, rfl⟩
  | cons x E ih =>
    obtain ⟨A', hA'⟩ := ih (A ++ [F]) x
    refine ⟨A', ?_⟩
    rw [← append_cons] at hA'
    rw [hA']
    cases E <;> rfl

/-- What the walk finds. -/
structure Found (base : ℕ) (fs : List Block) (nu : ℕ) (Z Y : Block) : Prop where
  split : ∃ A E, baseBlock base :: fs = A ++ Z :: Y :: E
  fits : nu ≤ Y.units

/-- **The search of `malloc`**, with enough fuel: a block that is large enough, or back to
`freep`. -/
theorem Inv.search (hI : Inv base h fs live) (hnu : 0 < nu) (n : ℕ) :
    (∃ Z Y k, n ≤ k ∧ Found base fs nu Z Y ∧
      mallocLoop nu (n + (baseBlock base :: fs).length) h.freep (ptr h.mem h.freep) h =
        mallocLoop nu (k + 1) Z.addr Y.addr h) ∨
    (∀ x ∈ fs, x.units < nu) ∧ size h.mem h.freep < nu ∧ ∃ z k, n ≤ k ∧
      mallocLoop nu (n + (baseBlock base :: fs).length) h.freep (ptr h.mem h.freep) h =
        mallocLoop nu (k + 1) z h.freep h := by
  obtain ⟨F, hF, hfreep⟩ := hI.freep
  obtain ⟨A, E, he⟩ := append_of_mem hF
  have hs := hI.layout.sorted
  have hl := hI.links
  rw [he] at hs hl ⊢
  have hsize : ∀ x ∈ A ++ F :: E, size h.mem x.addr = x.units := fun x hx => by
    rw [← he] at hx
    refine hI.sizes x ?_
    rcases mem_cons.1 hx with rfl | hx
    · simp
    · simp [hx]
  obtain ⟨-, h2, h3⟩ := pairwise_append.1 hs
  -- The other blocks have other addresses than `freep`.
  have hneE : ∀ y ∈ E, y.addr ≠ h.freep := fun y hy hx => by
    have := (pairwise_cons.1 h2).1 y hy
    simp only [Block.stop, headerSize] at this
    omega
  have hneA : ∀ y ∈ A, y.addr ≠ h.freep := fun y hy hx => by
    have := h3 y hy F (by simp)
    simp only [Block.stop, headerSize] at this
    omega
  have hlF := (links_append.1 hl).2
  rw [← hfreep, show ptr h.mem F.addr = first E base from hlF.1]
  by_cases hE : ∃ y ∈ E, nu ≤ y.units
  · -- a block behind `freep`
    obtain ⟨E₁, Y, E₂, rfl, hY, hE1⟩ := exists_first_fit hE
    obtain ⟨A', hA'⟩ := exists_last A F E₁
    refine .inl ⟨E₁.getLastD F, Y, n + A.length + 1 + E₂.length, by omega, ⟨⟨A', E₂, ?_⟩, hY⟩, ?_⟩
    · rw [he, ← cons_append, ← append_assoc, hA', append_assoc]
      rfl
    rw [show n + (A ++ F :: (E₁ ++ Y :: E₂)).length = n + A.length + 1 + E₂.length + 1 +
      E₁.length by
      simp only [length_append, length_cons]; omega]
    refine mallocLoop_walk hlF (fun y hy => ?_) fun y hy => hneE y (by simp [hy])
    rw [hsize y (by simp [hy])]
    exact hE1 y hy
  push Not at hE
  have hwalk : mallocLoop nu (n + A.length + 1 + E.length) F.addr (first (E ++ []) base) h =
      mallocLoop nu (n + A.length + 1) (E.getLastD F).addr base h := by
    refine mallocLoop_walk (by rwa [append_nil]) (fun y hy => ?_) fun y hy => hneE y hy
    rw [hsize y (by simp [hy])]
    exact hE y hy
  rw [append_nil] at hwalk
  rw [show n + (A ++ F :: E).length = n + A.length + 1 + E.length by
    simp only [length_append, length_cons]; omega, hwalk]
  cases A with
  | nil =>
    -- `freep` is `base`
    cases he
    refine .inr ⟨hE, ?_, (fs.getLastD (baseBlock base)).addr, n, le_rfl, rfl⟩
    rw [hsize _ (by simp)]
    exact hnu
  | cons b A =>
  obtain rfl : baseBlock base = b := (List.cons.inj he).1
  obtain rfl : fs = A ++ F :: E := (List.cons.inj he).2
  have hbase : size h.mem base = 0 := hsize (baseBlock base) (by simp)
  have hstep : mallocLoop nu (n + (baseBlock base :: A).length + 1) (E.getLastD F).addr base h =
      mallocLoop nu (n + A.length + 1) base (first (A ++ F :: E) base) h := by
    have hb : base ≠ h.freep := hneA (baseBlock base) (by simp)
    rw [mallocLoop_succ, hbase, if_neg (by omega), if_neg hb,
      show ptr h.mem base = first (A ++ F :: E) base from hl.1]
    rfl
  rw [hstep]
  by_cases hA : ∃ y ∈ A ++ [F], nu ≤ y.units
  · -- a block before `freep`, or `freep` itself
    obtain ⟨G₁, Y, G₂, hG, hY, hG1⟩ := exists_first_fit hA
    have hAG : A ++ F :: E = G₁ ++ Y :: (G₂ ++ E) := by
      rw [append_cons, hG, append_assoc]
      rfl
    have hsub : ∀ y ∈ G₁, y ∈ A := fun y hy => by
      have hpre : G₁ <+: A := by
        have h1 : G₁ <+: A ++ [F] := ⟨Y :: G₂, hG.symm⟩
        refine prefix_of_prefix_length_le h1 (prefix_append _ _) ?_
        have := congrArg List.length hG
        simp only [length_append, length_cons, length_nil] at this
        omega
      exact hpre.subset hy
    obtain ⟨A', hA'⟩ := exists_last [] (baseBlock base) G₁
    have hlen : G₁.length ≤ A.length := by
      have := congrArg List.length hG
      simp only [length_append, length_cons, length_nil] at this
      omega
    refine .inl ⟨G₁.getLastD (baseBlock base), Y, n + (A.length - G₁.length), by omega,
      ⟨⟨A', G₂ ++ E, ?_⟩, hY⟩, ?_⟩
    · rw [hAG, ← cons_append]
      rw [nil_append] at hA'
      rw [hA', append_assoc]
      rfl
    rw [show n + A.length + 1 = n + (A.length - G₁.length) + 1 + G₁.length by omega, hAG]
    rw [cons_append, hAG] at hl
    refine mallocLoop_walk (X := baseBlock base) hl (fun y hy => ?_) fun y hy =>
      hneA y (by simp [hsub y hy])
    rw [hsize y (by simp [hsub y hy])]
    exact hG1 y hy
  · push Not at hA
    refine .inr ⟨fun x hx => ?_, ?_, (A.getLastD (baseBlock base)).addr, n, le_rfl, ?_⟩
    · simp only [mem_append, mem_cons] at hx
      rcases hx with hx | rfl | hx
      · exact hA x (by simp [hx])
      · exact hA x (by simp)
      · exact hE x hx
    · rw [hsize F (by simp)]
      exact hA F (by simp)
    · rw [show n + A.length + 1 = n + 1 + A.length by omega]
      refine mallocLoop_walk (X := baseBlock base) hl (fun y hy => ?_) fun y hy =>
        hneA y (by simp [hy])
      rw [hsize y (by simp [hy])]
      exact hA y (by simp [hy])

/-! ### More memory -/

theorem coreBytes_eq (hnu : nu * headerSize < uintSize / 2) :
    coreBytes nu = (headerSize * coreUnits nu : ℕ) := by
  have hlt : coreUnits nu * headerSize < uintSize / 2 := by
    unfold coreUnits
    simp only [headerSize, uintSize] at *
    split_ifs <;> omega
  unfold coreBytes
  rw [Nat.mod_eq_of_lt (by omega), toInt, if_pos hlt, mul_comm]

theorem le_coreUnits : nu ≤ coreUnits nu := by
  unfold coreUnits
  split_ifs <;> omega

/-- The region is a live block, which `morecore` frees at once. -/
theorem Inv.grant {a cu : ℕ} (hI : Inv base h fs live) (hpos : 0 < cu) (ha : h.brk ≤ a)
    (hlt : a + headerSize * cu < uintSize) (sbrk : ℕ → Option ℕ) :
    Inv base { h with
      mem := setSize h.mem a cu
      sbrk
      regions := (a, headerSize * cu) :: h.regions
      brk := a + headerSize * cu } fs (⟨a, cu⟩ :: live) := by
  have hL := hI.layout.extend hpos ha hlt
  have hsame : SameBut h.mem (setSize h.mem a cu) a := sameBut_setSize
  have haway : ∀ x ∈ baseBlock base :: fs, Away a x.addr :=
    fun x hx => (hL.away_live hx (y := ⟨a, cu⟩) (by simp)).symm
  refine ⟨hL, hI.links.congr fun y hy => hsame.ptr (haway y hy), fun x hx => ?_, hI.freep⟩
  have hcases : x ∈ baseBlock base :: fs ∨ x = ⟨a, cu⟩ ∨ x ∈ live := by
    rw [← cons_append] at hx
    exact (mem_append.1 hx).imp_right mem_cons.1
  rcases hcases with hx | rfl | hx
  · refine (hsame.size (haway x hx)).trans (hI.sizes x ?_)
    rw [← cons_append]
    exact mem_append_left _ hx
  · refine size_setSize ?_
    simp only [headerSize] at hlt
    omega
  · have hx' := hI.layout.header (x := x) (by simp [hx])
    have := hI.layout.high x (by simp [hx])
    exact (hsame.size (.inr (by omega))).trans (hI.sizes x (by simp [hx]))

theorem sbrk_spec {n : ℕ} :
    wp (sbrk n) (fun r h' => match r with
      | none => h' = { h with sbrk := fun i => h.sbrk (i + 1) }
      | some a => h.brk ≤ a ∧ a + n < uintSize ∧ h' =
        { h with sbrk := fun i => h.sbrk (i + 1), regions := (a, n) :: h.regions, brk := a + n })
      (fun e _ => e = .sbrk) h := by
  unfold sbrk
  rw [wp_bind, wp_get]
  cases h.sbrk 0 with
  | none => exact rfl
  | some a =>
    simp only [Int.toNat_natCast]
    rw [wp_ite]
    exact ⟨fun hc => ⟨hc.2.1, hc.2.2, rfl⟩, fun _ => rfl⟩

theorem core_spec {a cu : ℕ} (hI : Inv base h fs live) (hpos : 0 < cu) (ha : h.brk ≤ a)
    (hlt : a + headerSize * cu < uintSize) (sbrk : ℕ → Option ℕ) :
    wp (free ((a + headerSize) % uintSize))
    (fun _ h' => Kept h.mem h'.mem live ∧ ∃ fs', Inv base h' fs' live ∧
      ∃ x ∈ fs', cu ≤ x.units) (fun _ _ => False)
      { h with
        mem := setSize h.mem a cu
        sbrk
        regions := (a, headerSize * cu) :: h.regions
        brk := a + headerSize * cu } := by
  have hmod : (a + headerSize) % uintSize = a + headerSize := by
    refine Nat.mod_eq_of_lt (lt_of_le_of_lt ?_ hlt)
    exact Nat.add_le_add_left (Nat.le_mul_of_pos_right _ hpos) a
  rw [hmod]
  have hfree := free_spec (hI.grant hpos ha hlt sbrk)
  dsimp only at hfree
  refine wp_total hfree fun _ h' hx => ?_
  obtain ⟨⟨fs', hfs', x, hx, hxu⟩, hkept, -⟩ := hx
  refine ⟨fun y hy b h1 h2 => (hkept y hy b h1 h2).trans ?_, fs', hfs', x, hx, hxu⟩
  have := hI.layout.high y (by simp [hy])
  exact sameBut_setSize b (by omega)

theorem morecore_spec (hI : Inv base h fs live) (hnu : nu * headerSize < uintSize / 2) :
    wp (morecore nu) (fun r h' => Kept h.mem h'.mem live ∧ ∃ fs', Inv base h' fs' live ∧
      (r = none ∨ r = some h'.freep ∧ ∃ x ∈ fs', nu ≤ x.units)) (fun e _ => e = .sbrk) h := by
  have hpos : 0 < coreUnits nu := by
    unfold coreUnits
    split_ifs <;> omega
  have hle : nu ≤ coreUnits nu := le_coreUnits
  unfold morecore
  rw [wp_bind, coreBytes_eq hnu]
  generalize coreUnits nu = cu at hpos hle ⊢
  refine wp_post sbrk_spec fun r h' hr => ?_
  cases r with
  | none =>
    obtain rfl := hr
    exact ⟨fun _ _ _ _ _ => rfl, fs, ⟨hI.layout, hI.links, hI.sizes, hI.freep⟩, .inl rfl⟩
  | some a =>
    obtain ⟨ha, hlt, rfl⟩ := hr
    simp only
    rw [wp_bind, wp_modify, wp_bind]
    refine wp_total (core_spec hI hpos ha hlt _) fun _ h' hx => ?_
    obtain ⟨hkept, fs', hfs', x, hx, hxu⟩ := hx
    exact ⟨hkept, fs', hfs', .inr ⟨rfl, x, hx, hle.trans hxu⟩⟩

/-! ### The result -/

theorem mallocLoop_found (hI : Inv base h fs live) (hnu : 0 < nu) (hf : Found base fs nu Z Y) :
    wp (mallocLoop nu (n + 1) Z.addr Y.addr) (fun r h' => ∃ q fs', r = q + headerSize ∧
      Inv base h' fs' (⟨q, nu⟩ :: live) ∧ Kept h.mem h'.mem live) (fun _ _ => False) h := by
  obtain ⟨⟨A, E, he⟩, hY⟩ := hf
  have hYmem : Y ∈ fs := by
    obtain ⟨l₁, rfl, -⟩ := exists_free he
    simp
  have hsize : size h.mem Y.addr = Y.units := hI.sizes Y (by simp [hYmem])
  have hhigh := (hI.layout.high Y (by simp [hYmem])).trans_lt hI.layout.range.2
  have hpos := hI.layout.pos Y (by simp [hYmem])
  refine wp_of_ok (mallocLoop_succ.trans (if_pos (hsize ▸ hY))) ?_
  unfold take
  rw [hsize]
  split_ifs with heq
  · obtain ⟨fs', hI', hkept⟩ := take_all hI he
    refine ⟨Y.addr, fs', Nat.mod_eq_of_lt ?_, ?_, hkept⟩
    · simp only [Block.stop, headerSize] at hhigh ⊢
      omega
    · rw [← heq]
      exact hI'
  have hlt : nu < Y.units := by omega
  have hsub : size (setSize h.mem Y.addr (Y.units - nu)) Y.addr = Y.units - nu := by
    refine size_setSize ?_
    simp only [Block.stop, headerSize] at hhigh
    omega
  have hplus : plus Y.addr (Y.units - nu) = Y.addr + headerSize * (Y.units - nu) := by
    refine Nat.mod_eq_of_lt ?_
    simp only [Block.stop, headerSize] at hhigh ⊢
    omega
  obtain ⟨fs', hI', hkept⟩ := take_tail hI he hnu hlt
  dsimp only
  rw [hsub, hplus]
  refine ⟨_, fs', Nat.mod_eq_of_lt ?_, hI', hkept⟩
  simp only [Block.stop, headerSize] at hhigh ⊢
  omega

/-- `malloc` has returned 0, or a new live block of `nu` units. -/
def Allocated (base nu : ℕ) (h : Heap) (live : List Block) (r : ℕ) (h' : Heap) : Prop :=
  Kept h.mem h'.mem live ∧ ((r = 0 ∧ ∃ fs', Inv base h' fs' live) ∨
    ∃ q fs', r = q + headerSize ∧ Inv base h' fs' (⟨q, nu⟩ :: live))

theorem wp_congr {α : Type} {x y : MallocM α} {Q : α → Heap → Prop} {e : Stop → Heap → Prop}
    (hxy : x h = y h) (hy : wp y Q e h) : wp x Q e h := by
  unfold wp at *
  rwa [hxy]

theorem mallocLoop_spec (hI : Inv base h fs live) (hpos : 0 < nu)
    (hnu : nu * headerSize < uintSize / 2) :
    wp (mallocLoop nu fuel h.freep (ptr h.mem h.freep)) (Allocated base nu h live)
    (fun e _ => e = .sbrk) h := by
  have hle := hI.length_le
  obtain ⟨n, hn⟩ : ∃ n, fuel = n + uintSize + (baseBlock base :: fs).length :=
    ⟨fuel - uintSize - (baseBlock base :: fs).length, by rw [fuel]; omega⟩
  rw [hn]
  rcases hI.search hpos (n + uintSize) with ⟨Z, Y, k, -, hf, hloop⟩ | ⟨-, hsmall, z, k, hk, hloop⟩
  · refine wp_congr hloop (wp_mono (mallocLoop_found hI hpos hf) (fun r h' hx => ?_) fun _ _ =>
      False.elim)
    obtain ⟨q, fs', hr, hI', hkept⟩ := hx
    exact ⟨hkept, .inr ⟨q, fs', hr, hI'⟩⟩
  -- back at `freep`
  refine wp_congr (hloop.trans (mallocLoop_succ.trans ((if_neg (by omega)).trans (if_pos rfl))))
    ?_
  refine wp_seq (morecore_spec hI hnu) fun r h1 hx => ?_
  obtain ⟨hkept1, fs₁, hI1, rfl | ⟨rfl, hfit⟩⟩ := hx
  · exact ⟨hkept1, .inl ⟨rfl, fs₁, hI1⟩⟩
  have hle1 := hI1.length_le
  obtain ⟨j, rfl⟩ : ∃ j, k = j + (baseBlock base :: fs₁).length :=
    ⟨k - (baseBlock base :: fs₁).length, by omega⟩
  show wp (mallocLoop nu (j + (baseBlock base :: fs₁).length) h1.freep (ptr h1.mem h1.freep)) _
    _ h1
  rcases hI1.search hpos j with ⟨Z, Y, k', -, hf, hloop1⟩ | ⟨hno, -⟩
  · refine wp_congr hloop1
      (wp_total (mallocLoop_found hI1 hpos hf) fun r h' hx => ?_)
    obtain ⟨q, fs', hr, hI', hkept⟩ := hx
    exact ⟨fun y hy a h1 h2 => (hkept y hy a h1 h2).trans (hkept1 y hy a h1 h2),
      .inr ⟨q, fs', hr, hI'⟩⟩
  · obtain ⟨x, hx, hxu⟩ := hfit
    exact absurd (hno x hx) (by omega)

theorem Layout.start {brk : ℕ} {regions : List (ℕ × ℕ)} (hL : Layout base brk regions [] [])
    (sbrk : ℕ → Option ℕ) :
    Inv base ⟨setSize (setPtr m base base) base 0, base, sbrk, regions, brk⟩ [] [] := by
  have hlt : base < uintSize := hL.addr_lt (x := baseBlock base) (by simp)
  refine ⟨hL, ⟨?_, trivial⟩, ?_, baseBlock base, by simp, rfl⟩
  · exact ptr_setSize.trans (ptr_setPtr hlt)
  · intro x hx
    obtain rfl : x = baseBlock base := by simpa using hx
    exact size_setSize (by decide)

/-- The heap before or after the first call. -/
def Ready (base : ℕ) (h : Heap) (live : List Block) : Prop :=
  (h.freep = 0 ∧ live = [] ∧ Layout base h.brk h.regions [] []) ∨ ∃ fs, Inv base h fs live

/-- **`malloc`** keeps the invariant and the contents of the live blocks; its loop ends. -/
theorem malloc_spec {nbytes : ℕ} (hR : Ready base h live)
    (hnu : nunits nbytes * headerSize < uintSize / 2) :
    wp (malloc base nbytes) (Allocated base (nunits nbytes) h live) (fun e _ => e = .sbrk) h := by
  have hpos : 0 < nunits nbytes := Nat.succ_pos _
  unfold malloc
  rw [wp_bind, wp_get]
  rcases hR with ⟨h0, rfl, hL⟩ | ⟨fs, hI⟩
  · rw [if_pos h0, wp_bind, wp_modify, wp_bind, wp_get]
    exact wp_post (mallocLoop_spec (hL.start h.sbrk) hpos hnu) fun r h' hx => ⟨by simp [Kept], hx.2⟩
  have hne : h.freep ≠ 0 := by
    obtain ⟨x, hx, hxf⟩ := hI.freep
    have hb := hI.layout.base_pos
    rcases mem_cons.1 hx with rfl | hx
    · simp only [baseBlock] at hxf
      omega
    · have := hI.layout.low x (by simp [hx])
      omega
  rw [if_neg hne]
  exact mallocLoop_spec hI hpos hnu

end Malloc

end Xv6
