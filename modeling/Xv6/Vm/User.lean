import Mathlib.Data.Nat.Bitwise
import Xv6.Vm.Setup

/-!
# The functions on the user part

`allocuvm`, `loaduvm`, `clearpteu`, `copyout`, `inituvm` and `copyuvm` keep the ownership, whether
they succeed or fail, and leave the kernel part of every directory alone.
-/

namespace Xv6

namespace Vm

variable {ι κ : Type}
variable {k : Symbols} {g g' : Ghost ι κ} {m m' : Mem} {o : ι} {p v va n : ℕ}

/-- A page that a function has just got from `kalloc` and filled. -/
theorem Holds.fill (h : Holds k g m) (hn : g.hand n = p) (hp : p ≠ 0) (b : Bytes) :
    Holds k g (m.setPage p b) := by
  have hr : g.page (.hand n) = p := hn
  exact h.touch (hr ▸ h.plain (r := .hand n) (hr ▸ hp) nofun nofun) b

theorem kfree_hand [DecidableEq ι] [DecidableEq κ] {E : Panic → Mem → Prop} (h : Holds k g m)
    (hn : g.hand n = p) (hp : p ≠ 0) :
    wp (kfree k p) (fun _ m' => Holds k ((g.setFree (p :: g.free)).setHand n 0) m') E m := by
  have hr : g.page (.hand n) = p := hn
  have hk := kfree_role h (r := .hand n) (hr ▸ hp)
  rw [hr] at hk
  exact wp_of_ok hk (h.free_hand hn hp)

/-! ## New pages -/

/-- An entry of the user part names a page without tables, present or not. -/
theorem Holds.plain_ent (h : Holds k g m) (hv : v < userPages) : Plain g (g.ent o v / pgSize) := by
  rcases h.tables.ent_user o v hv with hz | ⟨-, hp⟩
  · rw [hz]
    exact h.plain_of_lt k.first_pos
  · have hr : g.page (.user o v) = g.ent o v / pgSize := by simp [Ghost.page, hv]
    exact hr ▸ h.plain (r := .user o v) (hr ▸ hp) (by simp) (by simp)

/-- The user pages of `o` at the addresses from `a` to `b` are new: the page at `v` has the flags
`perm v` and the contents `c v`.  Nothing else has changed but for new page tables. -/
structure Grows (o : ι) (a b : ℕ) (perm : ℕ → ℕ) (c : ℕ → Bytes) (g g' : Ghost ι κ) (m m' : Mem) :
    Prop extends UserFrame o g g' where
  fresh : ∀ v, a ≤ v * pgSize → v * pgSize < b → ∃ p ∈ g.free, p ∉ g'.free ∧
    g'.ent o v = p * pgSize ||| perm v ||| pteP ∧ ∀ i < pgSize, m'.page p i = c v i
  same : ∀ v, ¬ (a ≤ v * pgSize ∧ v * pgSize < b) → g'.ent o v = g.ent o v
  free : ∀ p ∈ g'.free, p ∈ g.free
  rest : ∀ p ∈ g.free, p ∈ g'.free ∨ (∃ i, g'.tab o i = p) ∨
    ∃ v, a ≤ v * pgSize ∧ v * pgSize < b ∧ g'.ent o v / pgSize = p
  table : ∀ i, g'.tab o i = g.tab o i ∨ g'.tab o i ∈ g.free ∧ g.tab o i = 0
  page : ∀ q, Apart o g q → m'.page q = m.page q

section Grows

variable {a b : ℕ} {perm : ℕ → ℕ} {c : ℕ → Bytes} {g₁ g₂ : Ghost ι κ} {m₁ m₂ : Mem}

theorem Grows.refl (hab : b ≤ a) (hp : m'.page = m.page) : Grows o a b perm c g g m m' where
  toUserFrame := .refl o g
  fresh v h1 h2 := by omega
  same _ _ := rfl
  free _ := id
  rest _ := .inl
  table _ := .inl rfl
  page q _ := congrFun hp q

theorem Grows.congr {a' b' : ℕ} (h : Grows o a b perm c g g' m m')
    (hr : ∀ v, a' ≤ v * pgSize ∧ v * pgSize < b' ↔ a ≤ v * pgSize ∧ v * pgSize < b) :
    Grows o a' b' perm c g g' m m' where
  toUserFrame := h.toUserFrame
  fresh v h1 h2 := by
    have hx := (hr v).1 ⟨h1, h2⟩
    exact h.fresh v hx.1 hx.2
  same v hv := h.same v fun hx => hv ((hr v).2 hx)
  free := h.free
  rest p hp := by
    refine (h.rest p hp).imp_right (Or.imp_right ?_)
    rintro ⟨v, h1, h2, he⟩
    have hx := (hr v).2 ⟨h1, h2⟩
    exact ⟨v, hx.1, hx.2, he⟩
  table := h.table
  page := h.page

theorem Grows.apart {q : ℕ} (h : Grows o a b perm c g g' m m') (hq : Apart o g q) :
    Apart o g' q where
  free hx := hq.free (h.free q hx)
  dir := by rw [h.dir]; exact hq.dir
  tab i := by
    rcases h.table i with he | ⟨he, -⟩
    · rw [he]; exact hq.tab i
    · exact fun hx => hq.free (hx ▸ he)

theorem Holds.zero_not_free (h : Holds k g m) : 0 ∉ g.free := fun hf => by
  have := h.pool.owns.reserved 0 k.first_pos
  simp [hf] at this

/-- The page at a user address is not used for the tables. -/
theorem Holds.apart_ent {o' : ι} (h : Holds k g m) (hv : v < userPages) (hne : g.ent o v ≠ 0) :
    Apart o' g (g.ent o v / pgSize) := by
  obtain ⟨-, hp⟩ := (h.tables.ent_user o v hv).resolve_left hne
  have hpl := h.plain_ent (o := o) hv
  exact ⟨hpl.free, fun he => hp (hpl.dir _ he.symm), fun i he => hp (hpl.tab _ i he.symm)⟩

theorem Grows.ent_div (h : Grows o a b perm c g g' m m') (hperm : ∀ v, perm v < pgSize)
    (h1 : a ≤ v * pgSize) (h2 : v * pgSize < b) :
    g'.ent o v ≠ 0 ∧ g'.ent o v / pgSize ∈ g.free := by
  obtain ⟨p, hp, -, he, -⟩ := h.fresh v h1 h2
  rw [he, entry_div (hperm v)]
  refine ⟨fun hz => ?_, hp⟩
  have := @present_entry (p * pgSize ||| perm v)
  rw [hz] at this
  cases this

theorem Grows.trans {a' : ℕ} (h : Grows o a a' perm c g g₁ m m₁)
    (h' : Grows o a' b perm c g₁ g₂ m₁ m₂) (hm : Holds k g m) (hm1 : Holds k g₁ m₁)
    (hperm : ∀ v, perm v < pgSize) (haa : a ≤ a') (hab : a' ≤ b) (hk : a' ≤ kernBase) :
    Grows o a b perm c g g₂ m m₂ where
  toUserFrame := h.toUserFrame.trans h'.toUserFrame
  fresh v h1 h2 := by
    by_cases hv : v * pgSize < a'
    · obtain ⟨p, hp, hnf, he, hc⟩ := h.fresh v h1 hv
      have hu : v < userPages := lt_userPages_iff.2 (by omega)
      have hap : Apart o g₁ (g₁.ent o v / pgSize) := hm1.apart_ent hu (h.ent_div hperm h1 hv).1
      rw [he, entry_div (hperm v)] at hap
      refine ⟨p, hp, fun hx => hnf (h'.free p hx), ?_, fun i hi => ?_⟩
      · rw [h'.same v (by omega), he]
      · rw [h'.page p hap, hc i hi]
    · obtain ⟨p, hp, hx⟩ := h'.fresh v (by omega) h2
      exact ⟨p, h.free p hp, hx⟩
  same v hv := by rw [h'.same v (by omega), h.same v (by omega)]
  free p hp := h.free p (h'.free p hp)
  rest p hp := by
    rcases h.rest p hp with hx | ⟨i, hi⟩ | ⟨v, h1, h2, hx⟩
    · rcases h'.rest p hx with hx | hx | ⟨v, h1, h2, hx⟩
      · exact .inl hx
      · exact .inr (.inl hx)
      · exact .inr (.inr ⟨v, by omega, h2, hx⟩)
    · refine .inr (.inl ⟨i, ?_⟩)
      rcases h'.table i with he | ⟨-, he⟩
      · rw [he, hi]
      · rw [he] at hi
        exact absurd (hi ▸ hp) hm.zero_not_free
    · refine .inr (.inr ⟨v, h1, by omega, ?_⟩)
      rw [h'.same v (by omega), hx]
  table i := by
    rcases h'.table i with he | ⟨hf, hz⟩
    · rw [he]
      exact h.table i
    rcases h.table i with he | ⟨hx, -⟩
    · exact .inr ⟨h.free _ hf, he ▸ hz⟩
    · rw [hz] at hx
      exact absurd hx hm.zero_not_free
  page q hq := by rw [h'.page q (h.apart hq), h.page q hq]

variable [DecidableEq ι] [DecidableEq κ]

/-- **A page from `kalloc` is filled and mapped.**  If that fails the page is still in hand, and
there is no other one. -/
theorem mappages_fresh {l : List ℕ} {cont : Bytes} (h : Holds k g m) (ho : g.dir o ≠ 0)
    (h0 : g.hand 0 = 0) (h1 : g.hand 1 = 0) (hl : g.free = p :: l) (hp : p ≠ 0)
    (h₁ : Holds k ((g.setFree l).setHand 0 p) m₁) (hpage : m₁.page = m.page) (hv : v < userPages)
    (hperm : perm v < pgSize) (hc : ∀ i < pgSize, cont i = c v i) :
    wp (mappages (g.dir o) (v * pgSize) pgSize (p * pgSize) (perm v))
      (fun r m' => r = -1 ∧ Holds k ((g.setFree l).setHand 0 p) m' ∧
        (∀ q, Apart o g q → m'.page q = m.page q) ∧ (l = [] ∨ g.sure = false) ∨ r = 0 ∧
        ∃ g', Grows o (v * pgSize) (v * pgSize + pgSize) perm c g g' m m' ∧ Holds k g' m' ∧
          g.free.length ≤ g'.free.length + 2)
      (fun e _ => e = .remap ∧ present (g.ent o v) = true) (m₁.setPage p cont) := by
  have hn : ((g.setFree l).setHand 0 p).hand 0 = p := Ghost.setHand_hand
  have hn' : ((g.setFree l).setHand 0 p).hand 1 = 0 := by simp [Ghost.setHand, Ghost.setFree, h1]
  have hback : ((g.setFree l).setHand 0 p).setHand 0 0 = g.setFree l :=
    Ghost.setHand_setHand (g := g.setFree l) h0
  have hpl : p ∉ l := (List.nodup_cons.1 (hl ▸ h.pool.nodup)).1
  -- the page in hand is not a page of the tables
  have hap : Apart o ((g.setFree l).setHand 0 p) p := by
    have hr : ((g.setFree l).setHand 0 p).page (.hand 0) = p := hn
    have hx := h₁.plain (r := .hand 0) (hr ▸ hp) (by simp) (by simp)
    rw [hr] at hx
    exact ⟨hpl, fun he => hp (hx.dir o he.symm), fun i he => hp (hx.tab o i he.symm)⟩
  have hapart : ∀ q, Apart o g q → Apart o ((g.setFree l).setHand 0 p) q ∧ q ≠ p := fun q hq => by
    have hf := hq.free
    rw [hl, List.mem_cons, not_or] at hf
    exact ⟨⟨hf.2, hq.dir, hq.tab⟩, hf.1⟩
  have hmap := mappages_exact (h₁.fill hn hp cont) (o := o) ho hn hp hn' hv hperm
  refine wp_post hmap fun r m' hx => ?_
  obtain ⟨hsame, hx⟩ := hx
  have hkeep : ∀ q, Apart o g q → m'.page q = m.page q := fun q hq => by
    obtain ⟨hq, hqp⟩ := hapart q hq
    rw [hsame q hq, Mem.setPage_page, if_neg hqp, hpage]
  rcases hx with ⟨hr, h', hf⟩ | ⟨hr, i, g₁, hop, h'⟩
  · exact .inl ⟨hr, h', hkeep, hf⟩
  refine .inr ⟨hr, _, ⟨?_, fun u hu1 hu2 => ?_, fun u hu => ?_, fun q hq => ?_, fun q hq => ?_,
    fun j => ?_, hkeep⟩, h', by rw [hl]; exact Nat.succ_le_succ hop.length_free⟩
  · have hfr := hop.frame.setHand 0 0
    rw [hback] at hfr
    exact (UserFrame.setFree l).trans (hfr.trans (.setEnt hv _))
  · obtain rfl : u = v := by simp only [pgSize] at *; omega
    refine ⟨p, by simp [hl], fun hx => hpl (hop.free_subset hx), by simp [Ghost.setEnt],
      fun i hi => ?_⟩
    rw [hsame p hap, Mem.setPage_page, if_pos rfl, hc i hi]
  · have hne : u ≠ v := by rintro rfl; simp only [pgSize] at *; omega
    show upd (g₁.setHand 0 0).ent o _ o u = _
    simp only [upd_upd_apply, hne, and_false, if_false]
    exact congrFun (congrFun hop.ent o) u
  · rw [hl]
    exact List.mem_cons_of_mem _ (hop.free_subset hq)
  · rw [hl, List.mem_cons] at hq
    rcases hq with rfl | hq
    · refine .inr (.inr ⟨v, le_refl _, by simp only [pgSize]; omega, ?_⟩)
      simp [Ghost.setEnt, entry_div hperm]
    · exact (hop.free_cases hq).imp_right .inl
  · rcases hop.tab_cases j with he | ⟨hf, -⟩
    · exact .inl he
    by_cases hz : g.tab o j = 0
    · refine .inr ⟨?_, hz⟩
      rw [hl]
      exact List.mem_cons_of_mem _ hf
    · exact .inl (hop.tab_of_ne hz)

end Grows

section Allocuvm

variable {a b oldsz newsz fuel : ℕ} {g₁ g₂ : Ghost ι κ} {m₁ m₂ : Mem}

/-- `PTE_W|PTE_U`, for every page -/
def userPerm (_ : ℕ) : ℕ := pteW ||| pteU

/-- What `allocuvm` maps: pages of zeros that the user may write. -/
abbrev Adds (o : ι) (a b : ℕ) (g g' : Ghost ι κ) (m m' : Mem) : Prop :=
  Grows o a b userPerm (fun _ _ => 0) g g' m m'

theorem userPerm_lt (v : ℕ) : userPerm v < pgSize := by
  unfold userPerm
  decide

/-- New pages are given back: what remains are page tables. -/
theorem Grows.undo {perm : ℕ → ℕ} {c : ℕ → Bytes} {b' : ℕ} (h : Grows o a b perm c g g₁ m m₁)
    (hun : Unmaps o oldsz b' g₁ g' m₁ m') (hperm : ∀ v, perm v < pgSize) (ha : oldsz ≤ a)
    (hb : b ≤ b') (hz : ∀ v, oldsz ≤ v * pgSize → v * pgSize < b' → g.ent o v = 0) :
    Grows o 0 0 perm c g g' m m' := by
  have hfree : ∀ p ∈ g'.free, p ∈ g.free := fun p hp => by
    rcases (hun.free p).1 hp with hx | ⟨v, h1, h2, hne, rfl⟩
    · exact h.free p hx
    by_cases hv : a ≤ v * pgSize ∧ v * pgSize < b
    · exact (h.ent_div hperm hv.1 hv.2).2
    · rw [h.same v hv, hz v h1 h2] at hne
      exact absurd rfl hne
  refine ⟨h.toUserFrame.trans hun.toUserFrame, fun v _ hv => absurd hv (Nat.not_lt_zero _),
    fun v _ => ?_, hfree, fun p hp => ?_, fun i => ?_, fun q hq => ?_⟩
  · by_cases hv : oldsz ≤ v * pgSize ∧ v * pgSize < b'
    · rw [hun.clear v hv.1 hv.2, hz v hv.1 hv.2]
    · rw [hun.same v hv, h.same v (by omega)]
  · rcases h.rest p hp with hx | hx | ⟨v, h1, h2, rfl⟩
    · exact .inl ((hun.free p).2 (.inl hx))
    · rw [← hun.tables] at hx
      exact .inr (.inl hx)
    · exact .inl ((hun.free _).2 (.inr ⟨v, by omega, by omega, (h.ent_div hperm h1 h2).1, rfl⟩))
  · rw [hun.tables]
    exact h.table i
  · have hq1 := h.apart hq
    rw [hun.page q (fun hx => hq.free (hfree q hx)) hq1.dir hq1.tab, h.page q hq]

/-- Unmapping with a page in hand, and giving it back. -/
theorem Unmaps.give_back {l : List ℕ} (hl : g.free = p :: l) (h0 : g.hand 0 = 0)
    (hkeep : ∀ q, Apart o g q → m₁.page q = m.page q)
    (h : Unmaps o a b ((g.setFree l).setHand 0 p) g₁ m₁ m₂) :
    Unmaps o a b g ((g₁.setFree (p :: g₁.free)).setHand 0 0) m (m₂.freed p) := by
  have hfr := h.toUserFrame.setHand 0 0
  rw [Ghost.setHand_setHand (g := g.setFree l) h0] at hfr
  have hfree : ∀ q, q ∈ p :: g₁.free ↔ q ∈ g.free ∨
      ∃ v, a ≤ v * pgSize ∧ v * pgSize < b ∧ g.ent o v ≠ 0 ∧ g.ent o v / pgSize = q := fun q => by
    rw [List.mem_cons, h.free, hl, List.mem_cons, or_assoc]
    rfl
  refine ⟨⟨(UserFrame.setFree l).trans (hfr.trans (.setFree _)), h.clear, h.keep⟩, h.same,
    h.tables, hfree, fun q hq hd ht => ?_⟩
  have hqf : q ∉ g.free := fun hx => hq ((hfree q).2 (.inl hx))
  have hqp : q ≠ p := fun he => hq (by rw [he]; exact List.mem_cons_self)
  rw [m₂.freed_page hqp, h.page q (fun hx => hq (List.mem_cons_of_mem _ hx)) hd ht,
    hkeep q ⟨hqf, hd, ht⟩]

/-- How `allocuvm` ends: it has added the pages from `a` on, or it has added some of them and then
unmapped all from `oldsz` on.  That does not happen if there are two free pages for each page. -/
def Allocated (k : Symbols) (o : ι) (oldsz newsz a : ℕ) (g : Ghost ι κ) (m : Mem) (r : ℕ)
    (m' : Mem) : Prop :=
  r = newsz ∧ (∃ g', Adds o a newsz g g' m m' ∧ Holds k g' m') ∨
    r = 0 ∧ (∀ n, newsz ≤ a + n * pgSize → g.sure = true → g.free.length < 2 * n) ∧
      ∃ b g₁ m₁ g', a ≤ b ∧ b < newsz ∧ Adds o a b g g₁ m m₁ ∧
      Unmaps o (pgRoundUp oldsz) newsz g₁ g' m₁ m' ∧ Holds k g' m'

theorem Allocated.frame {r : ℕ} (h : Allocated k o oldsz newsz a g m r m') :
    ∃ g', UserFrame o g g' ∧ Holds k g' m' := by
  rcases h with ⟨-, g', hg, h'⟩ | ⟨-, -, b, g₁, m₁, g', -, -, hg, hun, h'⟩
  · exact ⟨g', hg.toUserFrame, h'⟩
  · exact ⟨g', hg.toUserFrame.trans hun.toUserFrame, h'⟩

variable [DecidableEq ι] [DecidableEq κ]

theorem allocuvmLoop_spec (h : Holds k g m) (ho : g.dir o ≠ 0) (h0 : g.hand 0 = 0)
    (h1 : g.hand 1 = 0) (hnew : newsz < kernBase) (ha : a % pgSize = 0) (hle : oldsz ≤ a)
    (hpos : 0 < fuel) (hf : newsz + pgSize ≤ a + fuel * pgSize) :
    wp (allocuvmLoop k (g.dir o) oldsz newsz fuel a) (Allocated k o oldsz newsz a g m)
      (fun e _ => e = .remap ∧ ∃ v, a ≤ v * pgSize ∧ v * pgSize < newsz ∧ g.ent o v ≠ 0) m := by
  induction fuel generalizing a g m with
  | zero => exact absurd hpos (lt_irrefl 0)
  | succ fuel ih =>
    have hold : newsz ≤ kernBase := le_of_lt hnew
    simp only [allocuvmLoop]
    rw [wp_ite]
    refine ⟨fun hlt => ?_, fun hge => .inl ⟨rfl, g, .refl (by omega) rfl, h⟩⟩
    have hpos' : ∀ n, newsz ≤ a + n * pgSize → 0 < n := fun n hn =>
      Nat.pos_of_ne_zero fun hz => by rw [hz] at hn; omega
    rw [wp_bind]
    refine wp_mono (wp_and (kalloc_spec h h0) kalloc_page) (fun r m₁ hr => ?_) fun _ _ he => he.1
    obtain ⟨hr, hpage⟩ := hr
    cases r with
    | none =>
      simp only [wp_bind]
      refine wp_total (deallocuvm_exact hr.1 ho hold (by omega)) fun _ m₂ hx => ?_
      obtain ⟨-, g₂, hun, h2⟩ := hx
      refine .inr ⟨rfl, fun n hn hs => ?_, a, g, m₁, g₂, le_refl a, hlt, .refl (le_refl a) hpage,
        hun, h2⟩
      rw [hr.2.resolve_right (by simp [hs]), List.length_nil]
      exact Nat.mul_pos Nat.two_pos (hpos' n hn)
    | some p =>
    obtain ⟨hp, l, hl, h₁⟩ := hr
    have hv : a / pgSize < userPages := div_lt_userPages (by omega)
    have hva : a / pgSize * pgSize = a := by simp only [pgSize] at *; omega
    have hnext := @next_page a (by omega)
    rw [wp_bind, memset, wp_modify, wp_bind]
    have hmap := mappages_fresh h ho h0 h1 hl hp h₁ hpage hv (userPerm_lt (a / pgSize))
      (c := fun _ _ => 0) (fun _ _ => rfl)
    rw [hva] at hmap
    refine wp_mono hmap (fun r m₂ hx => ?_) fun e _ he => ?_
    rotate_left
    · refine ⟨he.1, a / pgSize, by omega, by omega, fun hz => ?_⟩
      rw [hz] at he
      cases he.2
    rcases hx with ⟨rfl, h2, hkeep, hnil⟩ | ⟨rfl, g₂, hg2, h2, hlen⟩
    · -- no page for a table: the page in hand goes back after the others
      simp only [show (-1 : ℤ) < 0 by decide, if_true, wp_bind]
      have hde := deallocuvm_exact h2 (o := o) ho hold (show oldsz < newsz by omega)
      refine wp_total hde fun _ m₃ hx => ?_
      obtain ⟨-, g₃, hun, h3⟩ := hx
      have hn : g₃.hand 0 = p := by rw [hun.hand]; exact Ghost.setHand_hand
      have hk := kfree_role h3 (r := .hand 0) (by rwa [Ghost.page, hn])
      rw [Ghost.page, hn] at hk
      refine wp_of_ok hk
        (.inr ⟨rfl, fun n hn hs => ?_, a, g, m, _, le_refl a, hlt, .refl (le_refl a) rfl,
          hun.give_back hl h0 hkeep, h3.free_hand hn hp⟩)
      rw [hl, hnil.resolve_right (by simp [hs]), List.length_singleton]
      exact lt_of_lt_of_le Nat.one_lt_two (Nat.le_mul_of_pos_right 2 (hpos' n hn))
    simp only [show ¬ (0 : ℤ) < 0 by decide, if_false]
    rw [hnext, ← hg2.dir]
    have hstep : ∀ {b : ℕ} {g' : Ghost ι κ} {m' : Mem}, Adds o (a + pgSize) b g₂ g' m₂ m' →
      a + pgSize ≤ b → Adds o a b g g' m m' := fun hg' hb =>
      hg2.trans hg' h h2 userPerm_lt (by omega) hb (by simp only [kernBase, pgSize] at *; omega)
    refine wp_mono
      (ih h2 (by rwa [hg2.dir]) (by rw [hg2.hand, h0]) (by rw [hg2.hand, h1])
        (by simp only [pgSize] at *; omega) (by omega) (by simp only [pgSize] at *; omega)
      (by simp only [pgSize] at *; omega)) (fun r m₃ hx => ?_) fun e _ he => ?_
    · rcases hx with ⟨hr, g₃, hg3, h3⟩ | ⟨hr, hfew, b, g₃, m₄, g₄, hb, hbn, hg3, hun, h4⟩
      · refine .inl ⟨hr, g₃, ?_, h3⟩
        by_cases hb : a + pgSize ≤ newsz
        · exact hstep hg3 hb
        -- the last page ends after `newsz`
        have hnone : Adds o (a + pgSize) (a + pgSize) g₂ g₃ m₂ m₃ := hg3.congr fun v => by omega
        exact (hstep hnone (le_refl _)).congr fun v => by simp only [pgSize] at *; omega
      · refine .inr ⟨hr, fun n hn hs => ?_, b, g₃, m₄, g₄, by omega, hbn, hstep hg3 hb, hun, h4⟩
        obtain ⟨n, rfl⟩ := Nat.exists_eq_succ_of_ne_zero (hpos' n hn).ne'
        have := hfew n (by rw [Nat.succ_mul] at hn; omega) (hg2.sure.trans hs)
        omega
    · obtain ⟨he, v, h₁, h2, hne⟩ := he
      refine ⟨he, v, by omega, h2, ?_⟩
      rwa [hg2.same v (by simp only [pgSize] at *; omega)] at hne

theorem allocuvm_exact (h : Holds k g m) (ho : g.dir o ≠ 0) (h0 : g.hand 0 = 0) (h1 : g.hand 1 = 0)
    (hle : oldsz ≤ newsz) (hnew : newsz < kernBase) :
    wp (allocuvm k (g.dir o) oldsz newsz) (Allocated k o oldsz newsz (pgRoundUp oldsz) g m)
      (fun e _ => e = .remap ∧ ∃ v, pgRoundUp oldsz ≤ v * pgSize ∧ v * pgSize < newsz ∧
        g.ent o v ≠ 0) m := by
  unfold allocuvm
  rw [if_neg (by omega)]
  show wp (if newsz < oldsz then pure oldsz else allocuvmLoop k (g.dir o) oldsz newsz (2 ^ 20)
    (pgRoundUp oldsz)) _ _ _
  rw [if_neg (by omega)]
  have hup : oldsz ≤ pgRoundUp oldsz := le_pgRoundUp (by simp only [kernBase] at *; omega)
  refine allocuvmLoop_spec h ho h0 h1 hnew (pgRoundUp_mod _) hup (by decide) ?_
  simp only [kernBase, pgSize] at *
  omega

/-- `allocuvm` succeeds if there are two free pages for each page, and `kalloc` gives them out. -/
theorem allocuvm_ok (h : Holds k g m) (ho : g.dir o ≠ 0) (h0 : g.hand 0 = 0) (h1 : g.hand 1 = 0)
    (hle : oldsz ≤ newsz) (hnew : newsz < kernBase)
    (hz : ∀ v, v * pgSize < newsz → g.ent o v = 0 ∨ v * pgSize < pgRoundUp oldsz)
    (hs : g.sure = true) (hn : newsz ≤ pgRoundUp oldsz + n * pgSize)
    (hl : 2 * n ≤ g.free.length) :
    wp (allocuvm k (g.dir o) oldsz newsz) (fun r m' => r = newsz ∧
      ∃ g', Adds o (pgRoundUp oldsz) newsz g g' m m' ∧ Holds k g' m') (fun _ _ => False) m := by
  refine wp_mono (allocuvm_exact h ho h0 h1 hle hnew) (fun r m' hx => hx.resolve_right ?_) ?_
  · rintro ⟨-, hfew, -⟩
    exact absurd (hfew n hn hs) (Nat.not_lt.2 hl)
  · rintro e m' ⟨-, v, hlo, hhi, hne⟩
    exact (hz v hhi).elim hne (Nat.not_lt.2 hlo)

theorem allocuvm_spec {oldsz newsz : ℕ} (h : Holds k g m) (ho : g.dir o ≠ 0) (h0 : g.hand 0 = 0)
    (h1 : g.hand 1 = 0) :
    wp (allocuvm k (g.dir o) oldsz newsz) (fun r m' => (∃ g', UserFrame o g g' ∧ Holds k g' m') ∧
      (r = 0 ∨ r = newsz ∧ newsz < kernBase ∧ oldsz ≤ newsz ∨ r = oldsz ∧ newsz < oldsz))
      (fun e _ => e = .remap) m := by
  by_cases hk : kernBase ≤ newsz
  · unfold allocuvm
    rw [if_pos hk]
    exact ⟨⟨g, .refl o g, h⟩, .inl rfl⟩
  by_cases hlt : newsz < oldsz
  · unfold allocuvm
    rw [if_neg hk]
    show wp (if newsz < oldsz then pure oldsz else _) _ _ _
    rw [if_pos hlt]
    exact ⟨⟨g, .refl o g, h⟩, .inr (.inr ⟨rfl, hlt⟩)⟩
  refine wp_mono (allocuvm_exact h ho h0 h1 (by omega) (by omega)) (fun r m' hx => ⟨hx.frame, ?_⟩)
    fun _ _ => And.left
  rcases hx with ⟨hr, -⟩ | ⟨hr, -⟩
  · exact .inr (.inl ⟨hr, by omega, by omega⟩)
  · exact .inl hr

end Allocuvm

/-! ## Writing to user pages -/

theorem Holds.walk_eq (h : Holds k g m) (ho : g.dir o ≠ 0) {Q : Option (ℕ × ℕ) → Mem → Prop}
    {E : Panic → Mem → Prop} (hn : g.tab o (pdx va) = 0 → Q none m)
    (hs : g.tab o (pdx va) ≠ 0 → Q (some (g.tab o (pdx va), ptx va)) m) :
    wp (walkpgdir (g.dir o) va false) Q E m := by
  rw [wp_walkpgdir_false, h.table_eq ho]
  by_cases ht : g.tab o (pdx va) = 0
  · rw [if_pos ht]
    exact hn ht
  · rw [if_neg ht]
    exact hs ht

theorem loaduvmLoop_spec {ip : File} {addr offset sz fuel i : ℕ} (h : Holds k g m)
    (ho : g.dir o ≠ 0) (hsz : addr + sz ≤ kernBase) (hpos : 0 < fuel)
    (hf : sz + pgSize ≤ i + fuel * pgSize) :
    wp (loaduvmLoop (g.dir o) addr ip offset sz fuel i) (fun _ m' => Holds k g m')
      (fun e _ => e = .loaduvmExist) m := by
  induction fuel generalizing i m with
  | zero => exact absurd hpos (lt_irrefl 0)
  | succ fuel ih =>
    simp only [loaduvmLoop]
    rw [wp_ite]
    refine ⟨fun hlt => ?_, fun _ => h⟩
    have hmod : (addr + i) % uintSize = addr + i :=
      Nat.mod_eq_of_lt (lt_uintSize (by omega))
    have hnext := @next_page i (by omega)
    have hv : (addr + i) / pgSize < userPages := div_lt_userPages (by omega)
    rw [hmod, wp_bind]
    refine h.walk_eq ho (fun _ => rfl) fun ht => ?_
    simp only [wp_bind, wp_load, memmove, wp_modify]
    rw [h.word_eq ht (lt_uintSize (by omega))]
    have h' := fun b => h.touch (h.plain_ent (o := o) hv) b
    rw [wp_ite, hnext]
    exact ⟨fun _ => h' _, fun _ => ih (h' _) (by simp only [pgSize] at *; omega)
      (by simp only [pgSize] at *; omega)⟩

theorem loaduvm_spec {ip : File} {addr offset sz : ℕ} (h : Holds k g m) (ho : g.dir o ≠ 0)
    (hsz : addr + sz ≤ kernBase) :
    wp (loaduvm (g.dir o) addr ip offset sz) (fun _ m' => Holds k g m')
      (fun e _ => e = .loaduvmAligned ∨ e = .loaduvmExist) m := by
  unfold loaduvm
  by_cases ha : addr % pgSize ≠ 0
  · rw [if_pos ha]
    exact .inl rfl
  rw [if_neg ha]
  refine wp_mono (loaduvmLoop_spec h ho hsz (by decide) ?_) (fun _ _ => id) fun _ _ => .inr
  simp only [kernBase, pgSize] at *
  omega

theorem and_pteU (w : ℕ) : w &&& pteU = w / 4 % 2 * 4 := by
  rw [show pteU = 2 ^ 2 from rfl, Nat.and_two_pow, Nat.testBit_eq_decide_div_mod_eq]
  rcases Nat.mod_two_eq_zero_or_one (w / 4) with h | h <;> simp [h]

theorem clear_user (w : ℕ) : (w - (w &&& pteU)) / pgSize = w / pgSize ∧
    (present w = true → present (w - (w &&& pteU)) = true) := by
  rw [and_pteU, present_iff, present_iff]
  simp only [pgSize]
  omega

theorem userBit_clear (w : ℕ) : userBit (w - (w &&& pteU)) = false := by
  have h : (w - (w &&& pteU)) &&& pteU = 0 := by
    rw [and_pteU, and_pteU]
    omega
  rw [userBit, h]
  rfl

variable [DecidableEq ι] [DecidableEq κ]

theorem clearpteu_spec (h : Holds k g m) (ho : g.dir o ≠ 0) (hva : va < kernBase) :
    wp (clearpteu (g.dir o) va)
      (fun _ m' => ∃ g', UserFrame o g g' ∧ Holds k g' m' ∧
        userBit (g'.ent o (va / pgSize)) = false ∧
        ∀ v, v ≠ va / pgSize → g'.ent o v = g.ent o v)
      (fun e _ => e = .clearpteu ∧ g.tab o (pdx va) = 0) m := by
  have hlt : va < uintSize := lt_uintSize (by omega)
  have hv : va / pgSize < userPages := div_lt_userPages (by omega)
  unfold clearpteu
  rw [wp_bind]
  refine h.walk_eq ho (fun ht => ⟨rfl, ht⟩) fun ht => ?_
  simp only [wp_bind, wp_load, wp_store]
  obtain ⟨hd, hp⟩ := clear_user (g.ent o (va / pgSize))
  have hw : g.ent o (va / pgSize) < uintSize := by
    rw [← h.word_eq ht hlt]
    exact Bytes.getLE_lt
  rw [h.word_eq ht hlt]
  have h' := h.setEnt (w := g.ent o (va / pgSize) - (g.ent o (va / pgSize) &&& pteU)) ht (ptx_lt va)
    (by omega) fun _ => by
      rw [pdx_ptx hlt]
      refine ⟨hd, (h.tables.ent_user o _ hv).imp (fun hz => by rw [hz, Nat.zero_sub]) fun hx => ?_⟩
      exact ⟨hp hx.1, hd ▸ hx.2⟩
  rw [pdx_ptx hlt] at h'
  refine ⟨_, .setEnt hv _, h', ?_, fun v hne => ?_⟩
  · simp only [Ghost.setEnt, upd_same]
    exact userBit_clear _
  · simp only [Ghost.setEnt, upd_same, upd_of_ne _ _ hne]

/-- No entry of the kernel part has `PTE_U`. -/
def Guarded (o : ι) (g : Ghost ι κ) : Prop := ∀ v, userPages ≤ v → userBit (g.ent o v) = false

section Copyout

omit [DecidableEq ι] [DecidableEq κ]

theorem Guarded.frame (hg : Guarded o g) (hf : UserFrame o g g') : Guarded o g' := fun v hv => by
  rw [hf.kernel v hv]
  exact hg v hv

theorem Holds.userPage (h : Holds k g m) (ho : g.dir o ≠ 0) (hg : Guarded o g)
    (hp : m.userPage (g.dir o) va = some p) : p ≠ 0 ∧ ∃ v, g.page (.user o v) = p := by
  rw [Mem.userPage, Mem.pte, h.table_eq ho] at hp
  by_cases ht : g.tab o (pdx va) = 0
  · simp [ht] at hp
  rw [if_neg ht, Option.map_some, h.tables.pte o _ _ ht (ptx_lt va)] at hp
  generalize pdx va * nEntries + ptx va = v at hp
  simp only [Option.map_eq_some_iff, Option.filter_eq_some_iff, Option.some.injEq,
    Bool.and_eq_true] at hp
  obtain ⟨w, ⟨rfl, ⟨hpr, hu⟩, -⟩, rfl⟩ := hp
  have hv : v < userPages := by
    by_contra hle
    rw [hg v (by omega)] at hu
    cases hu
  refine ⟨fun hz => ?_, v, by simp [Ghost.page, hv]⟩
  rcases h.tables.ent_user o v hv with hx | hx
  · rw [hx] at hpr
    cases hpr
  · exact hx.2 hz

theorem Holds.pageDir (h : Holds k g m) (ho : g.dir o ≠ 0) (hg : Guarded o g) :
    PageDir m (g.dir o) where
  ne_dir va p hp he := by
    obtain ⟨hp0, v, hv⟩ := h.userPage ho hg hp
    have : (.user o v : Role ι κ) = .dir o := h.role_inj (hv ▸ hp0) (hv.trans he)
    cases this
  ne_table va p va' hp ht := by
    obtain ⟨hp0, v, hv⟩ := h.userPage ho hg hp
    rw [h.table_eq ho] at ht
    split at ht
    · cases ht
    · have : (.user o v : Role ι κ) = .table o (pdx va') :=
        h.role_inj (hv ▸ hp0) (hv.trans (Option.some.inj ht).symm)
      cases this

theorem Holds.wrote {src : Bytes} (h : Holds k g m) (ho : g.dir o ≠ 0) (hg : Guarded o g)
    (hw : Wrote m (g.dir o) va src n m') : Holds k g m' := by
  have hpage : ∀ q, (q ∈ g.free ∨ ∃ r, g.page r = q ∧ ∀ v, r ≠ .user o v) →
      m'.page q = m.page q := by
    refine fun q hq => hw.page_eq fun va hp => ?_
    obtain ⟨hp0, v, hv⟩ := h.userPage ho hg hp
    rcases hq with hf | ⟨r, hr, hne⟩
    · exact h.not_free (r := .user o v) (hv ▸ hp0) (hv ▸ hf)
    · exact hne v (h.role_inj (hr ▸ hp0) (hr.trans hv.symm))
  refine ⟨h.tables.congr (fun o' _ => hpage _ (.inr ⟨.dir o', rfl, nofun⟩)) fun o' i _ =>
    hpage _ (.inr ⟨.table o' i, rfl, nofun⟩), h.pool.congr (fun q hq => hpage q (.inl hq))
      hw.rest.1 ?_⟩
  exact fun hwill n => hw.rest.2 ▸ hwill n

theorem copyout_holds {src : Bytes} {len : ℕ} (h : Holds k g m) (ho : g.dir o ≠ 0)
    (hg : Guarded o g) (hva : va < uintSize) :
    wp (copyout (g.dir o) va src len) (fun _ m' => Holds k g m') (fun e _ => e = .nullDeref) m := by
  refine wp_mono (copyout_spec (h.pageDir ho hg) hva) (fun r m' hc => ?_) fun _ _ => And.left
  rcases hc with ⟨-, -, hw⟩ | ⟨-, n, -, -, -, -, hw⟩ <;> exact h.wrote ho hg hw

end Copyout

/-! ## The first page and a copy of all pages -/

/-- `inituvm`: if there is no page for the table, the page in hand `n` is not used. -/
theorem inituvm_spec {init : Bytes} {sz n' : ℕ} (h : Holds k g m) (ho : g.dir o ≠ 0)
    (hn : g.hand n = 0) (hn' : g.hand n' = 0) (hne : n' ≠ n) :
    wp (inituvm (g.dir o) init sz)
      (fun _ m' => ∃ g', Holds k g' m' ∧
        (UserFrame o g g' ∧ g.free.length ≤ g'.free.length + 2 ∨
          (g.free.length ≤ 1 ∨ g.sure = false) ∧ ∃ p, UserFrame o (g.setHand n p) g'))
      (fun e _ => e = .inituvm ∧ pgSize ≤ sz ∨ e = .remap ∧ present (g.ent o 0) = true ∨
        e = .nullDeref ∧ (g.free = [] ∨ g.sure = false)) m := by
  unfold inituvm
  by_cases hsz : pgSize ≤ sz
  · rw [if_pos hsz]
    exact .inl ⟨rfl, hsz⟩
  rw [if_neg hsz]
  show wp (kalloc >>= _) _ _ _
  refine wp_seq (kalloc_spec h hn) fun r m₁ hr => ?_
  cases r with
  | none => exact .inr (.inr ⟨rfl, hr.2⟩)
  | some p =>
  obtain ⟨hp, l, hl, h1⟩ := hr
  have hh : ((g.setFree l).setHand n p).hand n = p := Ghost.setHand_hand
  have hh' : ((g.setFree l).setHand n p).hand n' = 0 := by
    simp [Ghost.setHand, Ghost.setFree, hne, hn']
  rw [wp_bind, memset, wp_modify, wp_bind]
  have hmap := mappages_user (v := 0) (h1.fill hh hp fun _ => 0) ho hh hp hh' (by decide)
    (by decide : pteW ||| pteU < pgSize)
  rw [zero_mul] at hmap
  refine wp_mono hmap (fun r m₂ hx => ?_) fun _ _ he => .inr (.inl he)
  rw [memmove, wp_modify]
  rcases hx with ⟨-, h2, hf⟩ | ⟨-, g₂, hf2, h2, he, hlen⟩
  · refine ⟨_, h2.fill hh hp _, .inr ⟨hf.imp_left fun hx => ?_, p, .setHand (.setFree l) n p⟩⟩
    rw [hl, show l = [] from hx]
    exact le_refl 1
  rw [Ghost.setHand_setHand (g := g.setFree l) hn] at hf2
  refine ⟨g₂, h2.touch ?_ _, .inl ⟨(UserFrame.setFree l).trans hf2, ?_⟩⟩
  · exact he ▸ h2.plain_ent (by decide)
  · rw [hl]
    exact Nat.succ_le_succ hlen

/-- The loop of `copyuvm`, from the directory of `o` to that of `o'`. -/
theorem copyuvmLoop_spec {o' : ι} {sz fuel i : ℕ} {perm : ℕ → ℕ} {c : ℕ → Bytes} (h : Holds k g m)
    (ho : g.dir o ≠ 0) (ho' : g.dir o' ≠ 0) (hne : o ≠ o') (h0 : g.hand 0 = 0) (h1 : g.hand 1 = 0)
    (hsz : sz ≤ kernBase) (hi : i % pgSize = 0) (hpos : 0 < fuel)
    (hf : sz + pgSize ≤ i + fuel * pgSize) (hperm : ∀ v, perm v < pgSize)
    (hc : ∀ v, i ≤ v * pgSize → v * pgSize < sz →
      perm v = pteFlags (g.ent o v) ∧
      (g.ent o v ≠ 0 → ∀ j < pgSize, c v j = m.page (g.ent o v / pgSize) j)) :
    wp (copyuvmLoop k (g.dir o) (g.dir o') sz fuel i)
      (fun r m' => ∃ g', UserFrame o' g g' ∧ Holds k g' m' ∧
        (r = true → Grows o' i sz perm c g g' m m'))
      (fun e _ => (e = .copyuvmExist ∨ e = .copyuvmPresent) ∧
        (∃ v, v * pgSize < sz ∧ g.ent o v = 0) ∨ e = .remap ∧ ∃ v, i ≤ v * pgSize ∧
        v * pgSize < sz ∧ g.ent o' v ≠ 0) m := by
  induction fuel generalizing i g m with
  | zero => exact absurd hpos (lt_irrefl 0)
  | succ fuel ih =>
    simp only [copyuvmLoop]
    rw [wp_ite]
    refine ⟨fun hlt => ?_, fun hge => ⟨g, .refl o' g, h, fun _ => .refl (by omega) rfl⟩⟩
    have hv : i / pgSize < userPages := div_lt_userPages (by omega)
    have hvi : i / pgSize * pgSize = i := by simp only [pgSize] at *; omega
    have hiu : i < uintSize := lt_uintSize (by omega)
    have hnext := @next_page i (by omega)
    rw [wp_bind]
    refine h.walk_eq ho (fun ht => .inl ⟨.inl rfl, i / pgSize, by omega, h.ent_of_tab ht hiu⟩)
      fun ht => ?_
    simp only [wp_bind, wp_load]
    rw [h.word_eq ht hiu]
    cases hpr : present (g.ent o (i / pgSize)) with
    | false =>
      refine .inl ⟨.inr rfl, i / pgSize, by omega, (h.tables.ent_user o _ hv).resolve_right
        fun hx => ?_⟩
      rw [hpr] at hx
      cases hx.1
    | true =>
    have hent : g.ent o (i / pgSize) ≠ 0 := fun hz => by
      rw [hz] at hpr
      cases hpr
    show wp (kalloc >>= _) _ _ _
    rw [wp_bind]
    refine wp_mono (wp_and (kalloc_spec h h0) kalloc_page) (fun r m₁ hr => ?_) fun _ _ he => he.1
    obtain ⟨hr, hpage⟩ := hr
    cases r with
    | none => exact ⟨g, .refl o' g, hr.1, fun hr => by cases hr⟩
    | some p =>
    obtain ⟨hp, l, hl, h₁⟩ := hr
    have hn : ((g.setFree l).setHand 0 p).hand 0 = p := Ghost.setHand_hand
    obtain ⟨hflags, hcopy⟩ := hc (i / pgSize) (by omega) (by omega)
    simp only [wp_bind, wp_get, memmove, wp_modify]
    have hcont : ∀ j < pgSize, (m₁.page p).copy 0 pgSize
      (m₁.page (g.ent o (i / pgSize) / pgSize)) j = c (i / pgSize) j := fun j hj => by
      rw [Bytes.copy_of_mem (Nat.zero_le j) (by omega), hcopy hent j hj, hpage, Nat.sub_zero]
    have hmap := mappages_fresh h ho' h0 h1 hl hp h₁ hpage hv (hperm _) hcont
    rw [hvi, hflags] at hmap
    refine wp_mono hmap (fun r m₂ hx => ?_) fun e _ he => ?_
    rotate_left
    · refine .inr ⟨he.1, i / pgSize, by omega, by omega, fun hz => ?_⟩
      rw [hz] at he
      cases he.2
    rcases hx with ⟨rfl, h2, -⟩ | ⟨rfl, g₂, hg2, h2, -⟩
    · simp only [show (-1 : ℤ) < 0 by decide, if_true, wp_bind]
      refine wp_post (kfree_hand h2 hn hp) fun _ m₄ h4 => ⟨_, ?_, h4, fun hr => by cases hr⟩
      show UserFrame o' g ((((g.setFree l).setHand 0 p).setHand 0 0).setFree _)
      rw [Ghost.setHand_setHand (g := g.setFree l) h0]
      exact (UserFrame.setFree l).trans (.setFree _)
    simp only [show ¬ (0 : ℤ) < 0 by decide, if_false]
    rw [hnext, ← hg2.dir]
    -- the pages that are still to be copied have not changed
    have hc2 : ∀ v, i + pgSize ≤ v * pgSize → v * pgSize < sz →
        perm v = pteFlags (g₂.ent o v) ∧
          (g₂.ent o v ≠ 0 → ∀ j < pgSize, c v j = m₂.page (g₂.ent o v / pgSize) j) := by
      intro v hv1 hv2
      obtain ⟨hx, hy⟩ := hc v (by omega) hv2
      rw [hg2.ent o hne]
      refine ⟨hx, fun hz j hj => ?_⟩
      have hu : v < userPages := lt_userPages_iff.2 (by omega)
      rw [hg2.page _ (h.apart_ent hu hz), hy hz j hj]
    refine wp_mono
      (ih h2 (by rwa [hg2.dir]) (by rwa [hg2.dir]) (by rw [hg2.hand, h0])
        (by rw [hg2.hand, h1]) (by simp only [pgSize] at *; omega)
        (by simp only [pgSize] at *; omega) (by simp only [pgSize] at *; omega) hc2)
      (fun r m₃ hx => ?_) fun e _ he => ?_
    · obtain ⟨g₃, hf3, h3, hg3⟩ := hx
      refine ⟨g₃, hg2.toUserFrame.trans hf3, h3, fun hr => ?_⟩
      have hg3 := hg3 hr
      by_cases hb : i + pgSize ≤ sz
      · exact hg2.trans hg3 h h2 hperm (by omega) hb (by omega)
      have hnone : Grows o' (i + pgSize) (i + pgSize) perm c g₂ g₃ m₂ m₃ :=
        hg3.congr fun v => by omega
      exact (hg2.trans hnone h h2 hperm (by omega) (le_refl _) (by
        simp only [kernBase, pgSize] at *
        omega)).congr fun v => by simp only [pgSize] at *; omega
    · rw [hg2.ent o hne] at he
      refine he.imp_right fun hx => ⟨hx.1, ?_⟩
      obtain ⟨v, hv0, hv1, hv2⟩ := hx.2
      rw [hg2.same v (by omega)] at hv2
      exact ⟨v, by omega, hv1, hv2⟩

/-- `copyuvm`: if it succeeds, the user pages of `o'` are copies of those of `o`. -/
theorem copyuvm_exact {o' : ι} {sz : ℕ} (h : Holds k g m) (ho : g.dir o ≠ 0) (ho' : g.dir o' = 0)
    (hh : ∀ n, g.hand n = 0) (hsz : sz ≤ kernBase) :
    wp (copyuvm k (g.dir o) sz) (fun r m' => match r with
      | none => ∃ l, Holds k (g.setFree l) m'
      | some d => d ≠ 0 ∧ ∃ g₁ g' m₁, Frame o' (g.setDir o' d) g₁ ∧ Holds k g₁ m₁ ∧
          (∀ q ∈ g₁.free, q ∈ g.free) ∧
          (∀ q, q ≠ 0 → q ∉ g.free → Apart o' g₁ q ∧ m₁.page q = m.page q) ∧
          (∀ u, g₁.ent o' u = kernelEntry k u) ∧ Grows o' 0 sz (fun v => pteFlags (g.ent o v))
          (fun v => m.page (g.ent o v / pgSize)) g₁ g' m₁ m' ∧ Holds k g' m')
      (fun e _ => (e = .copyuvmExist ∨ e = .copyuvmPresent) ∧ ∃ v, v * pgSize < sz ∧
        g.ent o v = 0) m := by
  have hne : o ≠ o' := fun he => ho (he ▸ ho')
  unfold copyuvm
  rw [wp_bind]
  refine wp_total (setupkvm_exact 0 h ho' hh) fun r m₁ hr => ?_
  cases r with
  | none => exact hr.1
  | some d =>
  obtain ⟨hd, g₁, hf1, h1, hsub, hrest, -, hk⟩ := hr
  have hdir : g₁.dir o = g.dir o := by rw [hf1.dir]; simp [Ghost.setDir, hne]
  have hdir' : g₁.dir o' = d := by rw [hf1.dir]; simp [Ghost.setDir]
  have hent : g₁.ent o = g.ent o := hf1.ent o hne
  have hh1 : ∀ n, g₁.hand n = 0 := fun n => by rw [hf1.hand]; exact hh n
  -- `setupkvm` has not touched the pages of the parent
  have hc : ∀ v, 0 ≤ v * pgSize → v * pgSize < sz → pteFlags (g.ent o v) = pteFlags (g₁.ent o v) ∧
      (g₁.ent o v ≠ 0 → ∀ j < pgSize, m.page (g.ent o v / pgSize) j = m₁.page
        (g₁.ent o v / pgSize) j) := by
    intro v _ hv
    rw [hent]
    refine ⟨rfl, fun hz j _ => ?_⟩
    have hu : v < userPages := lt_userPages_iff.2 (by omega)
    have hq : g.ent o v / pgSize ≠ 0 := ((h.tables.ent_user o v hu).resolve_left hz).2
    have hap : Apart o g (g.ent o v / pgSize) := h.apart_ent hu hz
    rw [(hrest _ hq hap.free).2]
  have hloop := copyuvmLoop_spec h1 (by rwa [hdir]) (by rwa [hdir']) hne
    (hh1 0) (hh1 1) hsz (by decide) (by decide : 0 < 2 ^ 20)
    (by simp only [kernBase, pgSize] at *; omega)
    (fun v => Nat.mod_lt _ (by decide)) hc
  rw [hdir, hdir', hent] at hloop
  simp only [wp_bind]
  refine wp_mono hloop (fun r m₂ hx => ?_) fun e _ he => ?_
  · obtain ⟨g₂, hf2, h2, hg2⟩ := hx
    cases r with
    | true => exact ⟨hd, g₁, g₂, m₁, hf1, h1, hsub, hrest, hk, hg2 rfl, h2⟩
    | false =>
      have hd2 : g₂.dir o' = d := by rw [hf2.dir, hdir']
      simp only [Bool.false_eq_true, if_false, wp_bind]
      refine wp_total (freevm_spec h2 hd2 hd fun n => by rw [hf2.hand]; exact hh1 n)
        fun _ m₃ hx => ?_
      obtain ⟨l, h3⟩ := hx
      rw [(hf1.trans hf2.toFrame).erase, h.erase_setDir ho'] at h3
      exact ⟨l, h3⟩
  · refine he.resolve_right ?_
    rintro ⟨-, v, -, hv, hz⟩
    have hu : v < userPages := lt_userPages_iff.2 (by omega)
    exact hz (by rw [hk, kernelEntry_user hu])

theorem copyuvm_spec {o' : ι} {sz : ℕ} (h : Holds k g m) (ho : g.dir o ≠ 0) (ho' : g.dir o' = 0)
    (hh : ∀ n, g.hand n = 0) (hsz : sz ≤ kernBase) :
    wp (copyuvm k (g.dir o) sz) (fun r m' => match r with
      | none => ∃ l, Holds k (g.setFree l) m'
      | some d => d ≠ 0 ∧ ∃ g', Frame o' (g.setDir o' d) g' ∧ Holds k g' m' ∧
          ∀ u, userPages ≤ u → g'.ent o' u = kernelEntry k u)
      (fun e _ => e = .copyuvmExist ∨ e = .copyuvmPresent ∨ e = .remap) m := by
  refine wp_mono (copyuvm_exact h ho ho' hh hsz) (fun r m' hr => ?_) fun e _ he => ?_
  · cases r with
    | none => exact hr
    | some d =>
      obtain ⟨hd, g₁, g', m₁, hf, -, -, -, hk, hg, h'⟩ := hr
      exact ⟨hd, g', hf.trans hg.toFrame, h', fun u hu => by rw [hg.kernel u hu, hk]⟩
  · rcases he.1 with rfl | rfl <;> simp

end Vm

end Xv6
