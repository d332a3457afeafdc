import Mathlib.Tactic.Common
import Xv6.Alloc.Ownership
import Xv6.Vm.Paging

/-!
# Who owns the pages

The pages after the kernel are on the free list or in use, and a page in use has one role: page
directory, page table, user page, a page that a running function has in hand, or something that does
not concern `vm.c`.  `Ghost` says which page has which role, for a family `ι` of page directories;
`Holds k g m` says that memory `m` agrees with it.  Its two halves are `Tables`, the contents of the
page tables, and `Pool`, the free list and the roles.

Every primitive action on memory has one lemma here that says how it changes the ghost state; the
proofs about `vm.c` do not look into `Holds`.
-/

namespace Xv6

open Function

namespace Vm

/-- The pages of physical memory. -/
abbrev physPages : ℕ := physTop / pgSize

/-- The pages of the user part of an address space. -/
abbrev userPages : ℕ := kernBase / pgSize

theorem lt_userPages_iff {v : ℕ} : v < userPages ↔ v * pgSize < kernBase := by
  simp only [userPages, kernBase, pgSize]
  omega

theorem div_lt_userPages {va : ℕ} (h : va < kernBase) : va / pgSize < userPages :=
  lt_userPages_iff.2 ((Nat.div_mul_le_self va pgSize).trans_lt h)

theorem next_page {va : ℕ} (h : va < kernBase) : (va + pgSize) % uintSize = va + pgSize :=
  Nat.mod_eq_of_lt (by simp only [kernBase, pgSize, uintSize] at *; omega)

theorem lt_uintSize {va : ℕ} (h : va < kernBase) : va < uintSize := h.trans (by decide)

theorem Symbols.first_pos (k : Symbols) : 0 < k.first := by
  have h1 := k.lt_data
  have h2 := k.data_le_first
  unfold p2v at h2
  simp only [kernLink, kernBase, extMem, pgSize] at *
  omega

/-- What the pages in use are used for. -/
inductive Role (ι κ : Type)
  | dir (o : ι)
  /-- The table for directory entry `i`. -/
  | table (o : ι) (i : ℕ)
  /-- The page at virtual page `v`. -/
  | user (o : ι) (v : ℕ)
  | hand (n : ℕ)
  | other (x : κ)
  deriving DecidableEq

/-- The pages and page tables, as they should be; 0 stands for no page. -/
@[ext] structure Ghost (ι κ : Type) where
  dir : ι → ℕ
  tab : ι → ℕ → ℕ
  /-- The entry for a virtual page, 0 if it has no table. -/
  ent : ι → ℕ → ℕ
  hand : ℕ → ℕ
  other : κ → ℕ
  free : List ℕ
  /-- `kalloc` fails only if no page is free. -/
  sure : Bool

variable {ι κ : Type}

/-- The page that has a role. -/
def Ghost.page (g : Ghost ι κ) : Role ι κ → ℕ
  | .dir o => g.dir o
  | .table o i => g.tab o i
  | .user o v => if v < userPages then g.ent o v / pgSize else 0
  | .hand n => g.hand n
  | .other x => g.other x

/-- The free list from the kernel address `v` on. -/
inductive Chain (m : Mem) : ℕ → List ℕ → Prop
  | nil : Chain m 0 []
  | cons {p : ℕ} {l : List ℕ} (h : Chain m (m.word p 0) l) : Chain m (p2v p) (p :: l)

/-- No call of `kalloc` fails in any case. -/
def Mem.Willing (m : Mem) : Prop := ∀ n, m.deny n = false

/-- The contents of the page tables. -/
structure Tables (g : Ghost ι κ) (m : Mem) : Prop where
  pde : ∀ o i, g.dir o ≠ 0 → i < nEntries →
    m.word (g.dir o) i = if g.tab o i = 0 then 0 else g.tab o i * pgSize + 7
  pte : ∀ o i j, g.tab o i ≠ 0 → j < nEntries → m.word (g.tab o i) j = g.ent o (i * nEntries + j)
  tab_none : ∀ o i, g.dir o = 0 ∨ nEntries ≤ i → g.tab o i = 0
  ent_none : ∀ o v, g.tab o (v / nEntries) = 0 → g.ent o v = 0
  ent_user : ∀ o v, v < userPages →
    g.ent o v = 0 ∨ present (g.ent o v) = true ∧ g.ent o v / pgSize ≠ 0

/-- The free list, and one role for every other page. -/
structure Pool (k : Symbols) (g : Ghost ι κ) (m : Mem) : Prop where
  sure : g.sure = true → m.Willing
  chain : Chain m m.freelist g.free
  nodup : g.free.Nodup
  free_lt : ∀ p ∈ g.free, p < physPages
  owns : Owns (fun p => decide (p ∉ g.free)) g.page k.first physPages

/-- Memory is as the ghost state says. -/
structure Holds (k : Symbols) (g : Ghost ι κ) (m : Mem) : Prop where
  tables : Tables g m
  pool : Pool k g m

variable {k : Symbols} {g g' : Ghost ι κ} {m m' : Mem} {o : ι} {p i j v : ℕ} {b : Bytes}
variable {r : Role ι κ}

@[simp] theorem Mem.setPage_page (m : Mem) (p : ℕ) (b : Bytes) (q : ℕ) :
    (m.setPage p b).page q = if q = p then b else m.page q := rfl

theorem Mem.word_congr (h : m'.page p = m.page p) (i : ℕ) : m'.word p i = m.word p i := by
  unfold Mem.word
  rw [h]

theorem Chain.uncons {v : ℕ} {l : List ℕ} (h : Chain m v (p :: l)) :
    v = p2v p ∧ Chain m (m.word p 0) l := by
  cases h with
  | cons h => exact ⟨rfl, h⟩

theorem Chain.congr {v : ℕ} {l : List ℕ} (h : Chain m v l) (hl : ∀ p ∈ l, m'.page p = m.page p) :
    Chain m' v l := by
  induction h with
  | nil => exact .nil
  | @cons p l _ ih =>
    refine .cons ?_
    rw [Mem.word_congr (hl p (by simp))]
    exact ih fun q hq => hl q (by simp [hq])

theorem Tables.congr (h : Tables g m) (hd : ∀ o, g.dir o ≠ 0 → m'.page (g.dir o) = m.page (g.dir o))
    (ht : ∀ o i, g.tab o i ≠ 0 → m'.page (g.tab o i) = m.page (g.tab o i)) : Tables g m' where
  pde o i ho hi := by rw [Mem.word_congr (hd o ho), h.pde o i ho hi]
  pte o i j hi hj := by rw [Mem.word_congr (ht o i hi), h.pte o i j hi hj]
  tab_none := h.tab_none
  ent_none := h.ent_none
  ent_user := h.ent_user

theorem Tables.of_eq (h : Tables g m) (hd : g'.dir = g.dir) (ht : g'.tab = g.tab)
    (he : g'.ent = g.ent) : Tables g' m := by
  obtain ⟨h1, h2, h3, h4, h5⟩ := h
  rw [← hd, ← ht] at h1
  rw [← ht, ← he] at h2
  rw [← hd, ← ht] at h3
  rw [← ht, ← he] at h4
  rw [← he] at h5
  exact ⟨h1, h2, h3, h4, h5⟩

theorem Pool.congr (h : Pool k g m) (hp : ∀ p ∈ g.free, m'.page p = m.page p)
    (hf : m'.freelist = m.freelist) (hd : m.Willing → m'.Willing) : Pool k g m' :=
  ⟨fun hs => hd (h.sure hs), hf ▸ h.chain.congr hp, h.nodup, h.free_lt, h.owns⟩

/-- Page `p` holds no part of the free list and of the page tables. -/
structure Plain (g : Ghost ι κ) (p : ℕ) : Prop where
  free : p ∉ g.free
  dir : ∀ o, g.dir o = p → p = 0
  tab : ∀ o i, g.tab o i = p → p = 0

namespace Holds

theorem congr (h : Holds k g m) (hp : m'.page = m.page) (hf : m'.freelist = m.freelist)
    (hd : m.Willing → m'.Willing) : Holds k g m' :=
  ⟨h.tables.congr (fun _ _ => by rw [hp]) fun _ _ _ => by rw [hp],
    h.pool.congr (fun _ _ => by rw [hp]) hf hd⟩

theorem touch (h : Holds k g m) (hp : Plain g p) (b : Bytes) : Holds k g (m.setPage p b) := by
  have hne : ∀ q, q ≠ p → (m.setPage p b).page q = m.page q := fun q hq => by simp [hq]
  refine ⟨h.tables.congr (fun o ho => hne _ fun he => ?_) fun o i hi => hne _ fun he => ?_,
    h.pool.congr (fun q hq => hne _ fun he => hp.free (he ▸ hq)) rfl id⟩
  · exact ho (he.trans (hp.dir o he))
  · exact hi (he.trans (hp.tab o i he))

theorem not_free (h : Holds k g m) (hr : g.page r ≠ 0) : g.page r ∉ g.free := by
  simpa using h.pool.owns.used_ptr r hr

theorem role_inj (h : Holds k g m) {r r' : Role ι κ} (hr : g.page r ≠ 0)
    (he : g.page r = g.page r') : r = r' :=
  h.pool.owns.inj r r' hr he

theorem plain (h : Holds k g m) (hr : g.page r ≠ 0) (hd : ∀ o, r ≠ .dir o)
    (ht : ∀ o i, r ≠ .table o i) : Plain g (g.page r) where
  free := h.not_free hr
  dir o he := absurd (h.role_inj hr (show g.page r = g.page (.dir o) from he.symm)) (hd o)
  tab o i he := absurd (h.role_inj hr (show g.page r = g.page (.table o i) from he.symm)) (ht o i)

theorem plain_of_lt (h : Holds k g m) (hp : p < k.first) : Plain g p := by
  have hle : ∀ r : Role ι κ, g.page r = p → p = 0 := fun r he => by
    by_contra hne
    have := h.pool.owns.le_ptr r (he ▸ hne)
    omega
  refine ⟨fun hf => ?_, fun o => hle (.dir o), fun o i => hle (.table o i)⟩
  have := h.pool.owns.reserved p hp
  simp [hf] at this

end Holds

/-! ## Changing the ghost state -/

section Set

variable [DecidableEq ι] [DecidableEq κ]

namespace Ghost

def setHand (g : Ghost ι κ) (n p : ℕ) : Ghost ι κ := { g with hand := upd g.hand n p }

def setTab (g : Ghost ι κ) (o : ι) (i p : ℕ) : Ghost ι κ :=
  { g with tab := upd g.tab o (upd (g.tab o) i p) }

def setEnt (g : Ghost ι κ) (o : ι) (v w : ℕ) : Ghost ι κ :=
  { g with ent := upd g.ent o (upd (g.ent o) v w) }

def setDir (g : Ghost ι κ) (o : ι) (p : ℕ) : Ghost ι κ := { g with dir := upd g.dir o p }

def setOther (g : Ghost ι κ) (x : κ) (p : ℕ) : Ghost ι κ := { g with other := upd g.other x p }

def setFree (g : Ghost ι κ) (l : List ℕ) : Ghost ι κ := { g with free := l }

variable (g : Ghost ι κ) (o : ι) (n i v w p : ℕ)

omit [DecidableEq ι] [DecidableEq κ] in
@[simp] theorem setFree_page (l : List ℕ) : (g.setFree l).page = g.page := by
  funext r
  cases r <;> rfl

@[simp] theorem setHand_page : (g.setHand n p).page = Function.update g.page (.hand n) p := by
  funext r
  cases r <;> simp [setHand, page, update_apply]

@[simp] theorem setOther_page (x : κ) :
    (g.setOther x p).page = Function.update g.page (.other x) p := by
  funext r
  cases r <;> simp [setOther, page, update_apply]

@[simp] theorem setDir_page : (g.setDir o p).page = Function.update g.page (.dir o) p := by
  funext r
  cases r <;> simp [setDir, page, update_apply]

@[simp] theorem setTab_page : (g.setTab o i p).page = Function.update g.page (.table o i) p := by
  funext r
  cases r with
  | table o' i' => simp only [setTab, page, upd_upd_apply, update_apply, Role.table.injEq]
  | _ => simp [setTab, page]

theorem setEnt_page (h : v < userPages) :
    (g.setEnt o v w).page = Function.update g.page (.user o v) (w / pgSize) := by
  funext r
  cases r with
  | user o' v' =>
    simp only [setEnt, page, upd_upd_apply, update_apply, Role.user.injEq]
    by_cases hx : o' = o ∧ v' = v
    · simp [hx, h]
    · simp [hx]
  | _ => simp [setEnt, page]

omit [DecidableEq κ] in
/-- Entries of the kernel part do not name pages in use. -/
theorem setEnt_page_of_le (h : userPages ≤ v) : (g.setEnt o v w).page = g.page := by
  funext r
  cases r with
  | user o' v' =>
    simp only [setEnt, page, upd_upd_apply]
    by_cases hx : v' < userPages
    · have : ¬ (o' = o ∧ v' = v) := fun hc => by omega
      simp [hx, this]
    · simp [hx]
  | _ => rfl

end Ghost

end Set

/-! ## Primitive actions -/

theorem Mem.word_setWord (m : Mem) (p i j : ℕ) {w : ℕ} (hw : w < uintSize) :
    (m.setWord p i w).word p j = if j = i then w else m.word p j := by
  simp only [Mem.word, Mem.setWord, Mem.setPage_page, if_true]
  by_cases h : j = i
  · rw [if_pos h, h, Bytes.getLE_putLE]
    exact Nat.mod_eq_of_lt hw
  · rw [if_neg h, Bytes.getLE_putLE_of_disjoint (by omega)]

theorem Mem.word_setPage_of_ne (m : Mem) {p q : ℕ} (h : q ≠ p) (b : Bytes) (j : ℕ) :
    (m.setPage p b).word q j = m.word q j :=
  Mem.word_congr (by simp [h]) j

theorem Mem.word_setWord_of_ne (m : Mem) {p q : ℕ} (h : q ≠ p) (i w j : ℕ) :
    (m.setWord p i w).word q j = m.word q j :=
  m.word_setPage_of_ne h _ j

theorem Pool.release [DecidableEq ι] [DecidableEq κ] (h : Pool k g m)
    (hr : g.page r ≠ 0) (hf : g'.free = g.page r :: g.free)
    (hp : g'.page = Function.update g.page r 0) (hl : m'.freelist = p2v (g.page r))
    (hw : m'.word (g.page r) 0 = m.freelist) (hm : ∀ q ∈ g.free, m'.page q = m.page q)
    (hs : g'.sure = g.sure) (hd : m'.deny = m.deny) : Pool k g' m' := by
  have hnot : g.page r ∉ g.free := by simpa using h.owns.used_ptr r hr
  refine ⟨fun hx n => hd ▸ h.sure (hs ▸ hx) n, ?_, ?_, ?_, ?_⟩
  · rw [hf, hl]
    refine .cons ?_
    rw [hw]
    exact h.chain.congr hm
  · rw [hf]
    exact List.nodup_cons.2 ⟨hnot, h.nodup⟩
  · rw [hf]
    simp only [List.mem_cons, forall_eq_or_imp]
    exact ⟨h.owns.ptr_lt r hr, h.free_lt⟩
  · refine h.owns.free k.first_le hr (fun c _ => ?_) fun y => by rw [hp]
    rw [hf]
    by_cases hc : c = g.page r <;> simp [hc]

theorem Pool.take [DecidableEq ι] [DecidableEq κ] (h : Pool k g m) {l : List ℕ}
    (hl : g.free = p :: l) (hr : g.page r = 0) (hf : g'.free = l)
    (hp : g'.page = Function.update g.page r p) (hm : m'.page = m.page)
    (hw : m'.freelist = m.word p 0) (hs : g'.sure = g.sure) (hd : m.Willing → m'.Willing) :
    Pool k g' m' := by
  have hnd := hl ▸ h.nodup
  have hlt : p < physPages := h.free_lt p (by simp [hl])
  refine ⟨fun hx => hd (h.sure (hs ▸ hx)), ?_, hf ▸ (List.nodup_cons.1 hnd).2, fun q hq =>
    h.free_lt q ?_, ?_⟩
  · rw [hf, hw]
    exact (hl ▸ h.chain).uncons.2.congr fun _ _ => by rw [hm]
  · rw [hl]; exact List.mem_cons_of_mem _ (hf ▸ hq)
  refine h.owns.alloc k.first_pos hlt (by simp [hl]) hr (fun c _ => ?_) fun y => by rw [hp]
  rw [hf, hl]
  have := (List.nodup_cons.1 hnd).1
  by_cases hc : c = p
  · subst hc; simp [this]
  · simp [hc]

theorem Pool.move [DecidableEq ι] [DecidableEq κ] (h : Pool k g m) {r t : Role ι κ}
    (ht : g.page t = 0) (hne : r ≠ t) (hf : g'.free = g.free)
    (hp : g'.page = Function.update (Function.update g.page r 0) t (g.page r))
    (hm : ∀ q ∈ g.free, m'.page q = m.page q) (hl : m'.freelist = m.freelist)
    (hs : g'.sure = g.sure) (hd : m'.deny = m.deny) : Pool k g' m' := by
  refine ⟨fun hx n => hd ▸ h.sure (hs ▸ hx) n, ?_, hf ▸ h.nodup, fun q hq =>
    h.free_lt q (hf ▸ hq), ?_⟩
  · rw [hf, hl]; exact h.chain.congr hm
  · rw [hf]
    exact h.owns.move k.first_pos ht hne fun z => by rw [hp]

theorem Pool.keep (h : Pool k g m) (hf : g'.free = g.free) (hp : g'.page = g.page)
    (hm : ∀ q ∈ g.free, m'.page q = m.page q) (hl : m'.freelist = m.freelist)
    (hs : g'.sure = g.sure) (hd : m'.deny = m.deny) : Pool k g' m' :=
  ⟨fun hx n => hd ▸ h.sure (hs ▸ hx) n, by rw [hf, hl]; exact h.chain.congr hm, hf ▸ h.nodup,
      fun q hq => h.free_lt q (hf ▸ hq),
    by rw [hf, hp]; exact h.owns⟩

namespace Holds

/-- A page table is not a directory, and no other table. -/
theorem tab_ne_dir (h : Holds k g m) {o' : ι} (ht : g.tab o i ≠ 0) : g.dir o' ≠ g.tab o i :=
  fun he => by
  have : (.table o i : Role ι κ) = .dir o' := h.role_inj ht he.symm
  cases this

theorem tab_inj (h : Holds k g m) {o' : ι} {i' : ℕ} (ht : g.tab o i ≠ 0)
    (he : g.tab o' i' = g.tab o i) : o' = o ∧ i' = i := by
  have : (.table o i : Role ι κ) = .table o' i' := h.role_inj ht he.symm
  cases this
  exact ⟨rfl, rfl⟩

theorem dir_inj (h : Holds k g m) {o' : ι} (ho : g.dir o ≠ 0) (he : g.dir o' = g.dir o) :
    o' = o := by
  have : (.dir o : Role ι κ) = .dir o' := h.role_inj ho he.symm
  cases this
  rfl

variable [DecidableEq ι]

/-- Writing an entry of a page table changes the entry for one virtual page. -/
theorem tables_setEnt (h : Holds k g m) {w : ℕ} (ht : g.tab o i ≠ 0) (hj : j < nEntries)
    (hw : w < uintSize)
    (hu : i * nEntries + j < userPages → w = 0 ∨ present w = true ∧ w / pgSize ≠ 0) :
    Tables (g.setEnt o (i * nEntries + j) w) (m.setWord (g.tab o i) j w) where
  pde o' i' ho hi := by
    show _ = if g.tab o' i' = 0 then 0 else g.tab o' i' * pgSize + 7
    rw [← h.tables.pde o' i' ho hi]
    exact Mem.word_setWord_of_ne _ (h.tab_ne_dir ht) _ _ _
  pte o' i' j' ht' hj' := by
    show Mem.word _ (g.tab o' i') j' = upd g.ent o (upd (g.ent o) (i * nEntries + j) w) o' _
    rw [upd_upd_apply]
    by_cases he : g.tab o' i' = g.tab o i
    · obtain ⟨rfl, rfl⟩ := h.tab_inj ht he
      rw [Mem.word_setWord _ _ _ _ hw, h.tables.pte _ _ _ ht hj']
      by_cases hjj : j' = j
      · simp [hjj]
      · simp [hjj]
    · rw [Mem.word_setWord_of_ne _ he, h.tables.pte o' i' j' ht' hj', if_neg]
      rintro ⟨rfl, hv⟩
      have : i' = i := by simp only [nEntries] at *; omega
      exact he (by rw [this])
  tab_none := h.tables.tab_none
  ent_none o' v hv := by
    show upd g.ent o (upd (g.ent o) (i * nEntries + j) w) o' v = 0
    rw [upd_upd_apply, if_neg]
    · exact h.tables.ent_none o' v hv
    · rintro ⟨rfl, rfl⟩
      have : (i * nEntries + j) / nEntries = i := by simp only [nEntries] at *; omega
      exact ht (this ▸ hv)
  ent_user o' v hv := by
    show upd g.ent o (upd (g.ent o) (i * nEntries + j) w) o' v = 0 ∨
      present (upd g.ent o _ o' v) = true ∧
      upd g.ent o (upd (g.ent o) (i * nEntries + j) w) o' v / pgSize ≠ 0
    rw [upd_upd_apply]
    split_ifs with hc
    · exact hu (hc.2 ▸ hv)
    · exact h.tables.ent_user o' v hv

theorem tables_setTab (h : Holds k g m) (ho : g.dir o ≠ 0) (hi : i < nEntries) (ht : g.tab o i = 0)
    (hp : p < physPages) (hp0 : p ≠ 0) (hz : ∀ j, m.word p j = 0) (hd : ∀ o, g.dir o ≠ p) :
    Tables (g.setTab o i p) (m.setWord (g.dir o) i (p * pgSize + 7)) where
  pde o' i' ho' hi' := by
    show Mem.word _ (g.dir o') i' = if upd g.tab o (upd (g.tab o) i p) o' i' = 0 then 0
      else upd g.tab o (upd (g.tab o) i p) o' i' * pgSize + 7
    rw [upd_upd_apply]
    by_cases he : g.dir o' = g.dir o
    · obtain rfl := h.dir_inj ho he
      rw [Mem.word_setWord _ _ _ _
        (by simp only [physPages, physTop, pgSize, uintSize] at *; omega), h.tables.pde _ _ ho hi']
      by_cases hii : i' = i
      · simp [hii, hp0]
      · simp [hii]
    · rw [Mem.word_setWord_of_ne _ he, h.tables.pde o' i' ho' hi']
      have : o' ≠ o := fun hoo => he (by rw [hoo])
      simp [this]
  pte o' i' j' ht' hj' := by
    show Mem.word _ (upd g.tab o (upd (g.tab o) i p) o' i') j' = g.ent o' _
    change upd g.tab o (upd (g.tab o) i p) o' i' ≠ 0 at ht'
    rw [upd_upd_apply] at ht' ⊢
    split_ifs at ht' ⊢ with hc
    · obtain ⟨rfl, rfl⟩ := hc
      rw [Mem.word_setWord_of_ne _ (hd o').symm, hz]
      refine (h.tables.ent_none o' _ ?_).symm
      rw [show (i' * nEntries + j') / nEntries = i' by simp only [nEntries] at *; omega, ht]
    · rw [Mem.word_setWord_of_ne _ (h.tab_ne_dir ht').symm, h.tables.pte o' i' j' ht' hj']
  tab_none o' i' hor := by
    show upd g.tab o (upd (g.tab o) i p) o' i' = 0
    rw [upd_upd_apply, if_neg]
    · exact h.tables.tab_none o' i' hor
    rintro ⟨rfl, rfl⟩
    rcases hor with hor | hor
    · exact ho hor
    · omega
  ent_none o' v hv := by
    change upd g.tab o (upd (g.tab o) i p) o' (v / nEntries) = 0 at hv
    rw [upd_upd_apply] at hv
    split_ifs at hv with hc
    · exact absurd hv hp0
    · exact h.tables.ent_none o' v hv
  ent_user := h.tables.ent_user

end Holds

/-- Memory after `kfree(p)`. -/
def Mem.freed (m : Mem) (p : ℕ) : Mem :=
  { (m.setPage p fun _ => 1).setWord p 0 m.freelist with freelist := p2v p }

theorem Mem.freed_page (m : Mem) {q : ℕ} (h : q ≠ p) : (m.freed p).page q = m.page q := by
  simp [Mem.freed, Mem.setWord, h]

namespace Holds

theorem freelist_lt (h : Holds k g m) : m.freelist < uintSize := by
  cases hf : g.free with
  | nil =>
    have := hf ▸ h.pool.chain
    generalize m.freelist = v at this ⊢
    cases this
    decide
  | cons p l =>
    have hc := h.pool.chain
    rw [hf] at hc
    rw [hc.uncons.1]
    have := h.pool.free_lt p (by simp [hf])
    unfold p2v
    simp only [physPages, physTop, pgSize, kernBase, uintSize] at *
    omega

theorem freed_word (h : Holds k g m) : (m.freed p).word p 0 = m.freelist := by
  have := (m.setPage p fun _ => 1).word_setWord p 0 0 h.freelist_lt
  rwa [if_pos rfl] at this

theorem lt_of_role (h : Holds k g m) (hr : g.page r ≠ 0) : g.page r < physPages :=
  h.pool.owns.ptr_lt r hr

theorem tab_not_free (h : Holds k g m) (ht : g.tab o i ≠ 0) : g.tab o i ∉ g.free :=
  h.not_free (r := .table o i) ht

theorem dir_not_free (h : Holds k g m) (ho : g.dir o ≠ 0) : g.dir o ∉ g.free :=
  h.not_free (r := .dir o) ho

variable [DecidableEq ι] [DecidableEq κ] {n w : ℕ} {l : List ℕ}

theorem alloc (h : Holds k g m) (hl : g.free = p :: l) (hn : g.hand n = 0) {deny : ℕ → Bool}
    (hd : m.Willing → ∀ n, deny n = false) :
    Holds k ((g.setFree l).setHand n p) { m with freelist := m.word p 0, deny := deny } := by
  have ht : Tables g { m with freelist := m.word p 0, deny := deny } :=
    h.tables.congr (fun _ _ => rfl) fun _ _ _ => rfl
  exact ⟨ht.of_eq rfl rfl rfl, h.pool.take (r := .hand n) hl hn rfl (by simp) rfl rfl rfl hd⟩

theorem release (h : Holds k g m) (hr : g.page r ≠ 0) (hd : ∀ o, r ≠ .dir o)
    (ht : ∀ o i, r ≠ .table o i) (hf : g'.free = g.page r :: g.free)
    (hp : g'.page = Function.update g.page r 0) (hdir : g'.dir = g.dir) (htab : g'.tab = g.tab)
    (hent : g'.ent = g.ent) (hs : g'.sure = g.sure) : Holds k g' (m.freed (g.page r)) := by
  have hpl := h.plain hr hd ht
  refine ⟨(h.tables.congr (fun o ho => ?_) fun o i hi => ?_).of_eq hdir htab hent,
    h.pool.release hr hf hp rfl h.freed_word (fun q hq => ?_) hs rfl⟩
  · exact m.freed_page fun he => ho (he.trans (hpl.dir o he))
  · exact m.freed_page fun he => hi (he.trans (hpl.tab o i he))
  · exact m.freed_page fun he => hpl.free (he ▸ hq)

theorem free_hand (h : Holds k g m) (hn : g.hand n = p) (hp : p ≠ 0) :
    Holds k ((g.setFree (p :: g.free)).setHand n 0) (m.freed p) := by
  subst hn
  exact h.release (r := .hand n) hp nofun nofun rfl (by simp) rfl rfl rfl rfl

theorem free_other (h : Holds k g m) {x : κ} (hx : g.other x = p) (hp : p ≠ 0) :
    Holds k ((g.setFree (p :: g.free)).setOther x 0) (m.freed p) := by
  subst hx
  exact h.release (r := .other x) hp nofun nofun rfl (by simp) rfl rfl rfl rfl

theorem unmap (h : Holds k g m) (ht : g.tab o i ≠ 0) (hj : j < nEntries)
    (hv : i * nEntries + j < userPages) (hp : g.ent o (i * nEntries + j) / pgSize = p)
    (hp0 : p ≠ 0) :
    Holds k ((g.setFree (p :: g.free)).setEnt o (i * nEntries + j) 0)
      ((m.freed p).setWord (g.tab o i) j 0) := by
  have hr : g.page (.user o (i * nEntries + j)) = p := by simp only [Ghost.page, hv, if_true, hp]
  have hpl : Plain g p := hr ▸ h.plain (hr ▸ hp0) nofun nofun
  have htp : g.tab o i ≠ p := fun he => ht (he.trans (hpl.tab o i he))
  -- the two writes are to different pages
  have hpage : ∀ q, q ≠ p → ((m.freed p).setWord (g.tab o i) j 0).page q =
      (m.setWord (g.tab o i) j 0).page q := fun q hq => by
    simp only [Mem.setWord, Mem.setPage_page, m.freed_page hq, m.freed_page htp]
  refine ⟨((h.tables_setEnt ht hj (w := 0) (by decide) fun _ => .inl rfl).congr (fun o' ho => ?_)
    fun o' i' hi => ?_).of_eq rfl rfl rfl, ?_⟩
  · exact hpage _ fun he => ho (he.trans (hpl.dir o' he))
  · exact hpage _ fun he => hi (he.trans (hpl.tab o' i' he))
  refine h.pool.release (r := .user o (i * nEntries + j)) (hr ▸ hp0) (by rw [hr]; rfl) ?_
    (by rw [hr]; rfl) ?_ (fun q hq => ?_) rfl rfl
  · rw [Ghost.setEnt_page _ _ _ _ hv, Ghost.setFree_page, Nat.zero_div]
  · rw [hr, Mem.word_setWord_of_ne _ htp.symm, h.freed_word]
  · have hqt : q ≠ g.tab o i := fun he => h.tab_not_free ht (he ▸ hq)
    rw [hpage q fun he => hpl.free (he ▸ hq)]
    simp [Mem.setWord, hqt]

theorem map (h : Holds k g m) (hn : g.hand n = p) (hp : p ≠ 0) (ht : g.tab o i ≠ 0)
    (hj : j < nEntries) (hv : i * nEntries + j < userPages) (he : g.ent o (i * nEntries + j) = 0)
    (hw : w < uintSize) (hpr : present w = true) (hwp : w / pgSize = p) :
    Holds k ((g.setHand n 0).setEnt o (i * nEntries + j) w) (m.setWord (g.tab o i) j w) := by
  refine ⟨(h.tables_setEnt ht hj hw fun _ => .inr ⟨hpr, hwp ▸ hp⟩).of_eq rfl rfl rfl,
    h.pool.move (r := .hand n) (t := .user o (i * nEntries + j)) ?_ nofun rfl ?_
    (fun q hq => ?_) rfl
      rfl rfl⟩
  · simp [Ghost.page, he]
  · rw [Ghost.setEnt_page _ _ _ _ hv, Ghost.setHand_page, hwp]
    exact congrArg _ hn.symm
  · have hqt : q ≠ g.tab o i := fun he => h.tab_not_free ht (he ▸ hq)
    simp [Mem.setWord, hqt]

/-- An entry of the kernel part, or a user entry that keeps its page. -/
theorem setEnt (h : Holds k g m) (ht : g.tab o i ≠ 0) (hj : j < nEntries) (hw : w < uintSize)
    (hu : i * nEntries + j < userPages → w / pgSize = g.ent o (i * nEntries + j) / pgSize ∧
      (w = 0 ∨ present w = true ∧ w / pgSize ≠ 0)) :
    Holds k (g.setEnt o (i * nEntries + j) w) (m.setWord (g.tab o i) j w) := by
  refine ⟨h.tables_setEnt ht hj hw fun hv => (hu hv).2, h.pool.keep rfl ?_ (fun q hq => ?_) rfl rfl
    rfl⟩
  · by_cases hv : i * nEntries + j < userPages
    · have hr : g.ent o (i * nEntries + j) / pgSize = g.page (.user o (i * nEntries + j)) := by
        simp only [Ghost.page, hv, if_true]
      rw [Ghost.setEnt_page _ _ _ _ hv, (hu hv).1, hr, update_eq_self]
    · exact Ghost.setEnt_page_of_le _ _ _ _ (Nat.not_lt.1 hv)
  · have hqt : q ≠ g.tab o i := fun he => h.tab_not_free ht (he ▸ hq)
    simp [Mem.setWord, hqt]

theorem newTable (h : Holds k g m) (hn : g.hand n = p) (hp : p ≠ 0) (ho : g.dir o ≠ 0)
    (hi : i < nEntries) (ht : g.tab o i = 0) (hz : ∀ j, m.word p j = 0) :
    Holds k ((g.setHand n 0).setTab o i p) (m.setWord (g.dir o) i (p * pgSize + 7)) := by
  have hr : g.page (.hand n) = p := hn
  have hpl : Plain g p := hr ▸ h.plain (hr ▸ hp) nofun nofun
  refine ⟨(h.tables_setTab ho hi ht (hr ▸ h.lt_of_role (hr ▸ hp)) hp hz
    fun o' he => hp (hpl.dir o' he)).of_eq rfl rfl rfl,
    h.pool.move (r := .hand n) (t := .table o i) ht nofun rfl ?_ (fun q hq => ?_) rfl rfl rfl⟩
  · rw [Ghost.setTab_page, Ghost.setHand_page, hr]
  · have hqd : q ≠ g.dir o := fun he => h.dir_not_free ho (he ▸ hq)
    simp [Mem.setWord, hqd]

theorem useOther (h : Holds k g m) (hn : g.hand n = p) {x : κ} (hx : g.other x = 0) :
    Holds k ((g.setHand n 0).setOther x p) m := by
  have hr : g.page (.hand n) = p := hn
  refine ⟨h.tables.of_eq rfl rfl rfl,
    h.pool.move (r := .hand n) (t := .other x) hx nofun rfl ?_ (fun _ _ => rfl) rfl rfl rfl⟩
  rw [Ghost.setOther_page, Ghost.setHand_page, hr]

theorem newDir (h : Holds k g m) (hn : g.hand n = p) (ho : g.dir o = 0)
    (hz : ∀ j, m.word p j = 0) : Holds k ((g.setHand n 0).setDir o p) m := by
  have hr : g.page (.hand n) = p := hn
  refine ⟨⟨fun o' i' ho' hi' => ?_, h.tables.pte, fun o' i' hor => ?_, h.tables.ent_none,
    h.tables.ent_user⟩,
    h.pool.move (r := .hand n) (t := .dir o) ho nofun rfl ?_ (fun _ _ => rfl) rfl rfl rfl⟩
  · show m.word (upd g.dir o p o') i' = _
    by_cases hoo : o' = o
    · subst hoo
      have : g.tab o' i' = 0 := h.tables.tab_none o' i' (.inl ho)
      simp [Ghost.setDir, Ghost.setHand, this, hz]
    · change upd g.dir o p o' ≠ 0 at ho'
      simp only [upd_eq_update, update_of_ne hoo] at ho' ⊢
      exact h.tables.pde o' i' ho' hi'
  · refine h.tables.tab_none o' i' (hor.imp_left fun hd => ?_)
    change upd g.dir o p o' = 0 at hd
    by_cases hoo : o' = o
    · rwa [hoo]
    · simpa [hoo] using hd
  · rw [Ghost.setDir_page, Ghost.setHand_page, hr]

end Holds

/-- Where a page was before its directory was taken apart. -/
def Role.undrop (o : ι) : Role ι κ → Role ι κ
  | .hand n => if n < nEntries then .table o n else if n = nEntries then .dir o else .hand n
  | r => r

/-- The role belongs to directory `o`. -/
def Role.of (o : ι) : Role ι κ → Prop
  | .dir o' | .table o' _ | .user o' _ => o' = o
  | _ => False

theorem Role.undrop_of_ne (hh : ∀ n, r ≠ .hand n) : r.undrop o = r := by
  cases r <;> simp_all [undrop]

theorem Role.undrop_hand (n : ℕ) : (Role.undrop o (.hand n) : Role ι κ).of o ∨
    nEntries < n ∧ Role.undrop o (.hand n) = (.hand n : Role ι κ) := by
  simp only [undrop]
  split_ifs with h1 h2
  · exact .inl rfl
  · exact .inl rfl
  · exact .inr ⟨by omega, rfl⟩

theorem Role.undrop_hand_inj {n n' : ℕ}
    (h : (Role.undrop o (.hand n) : Role ι κ) = Role.undrop o (.hand n')) : n = n' := by
  simp only [undrop] at h
  split_ifs at h <;> grind

variable [DecidableEq ι]

/-- Directory `o` is taken apart: its pages are in hand, the tables in the order of their entries
and the directory after them. -/
def Ghost.drop (g : Ghost ι κ) (o : ι) : Ghost ι κ :=
  { g with
    dir := upd g.dir o 0
    tab := upd g.tab o fun _ => 0
    ent := upd g.ent o fun _ => 0
    hand := fun n => if n < nEntries then g.tab o n else if n = nEntries then g.dir o
      else g.hand n }

theorem Ghost.drop_hand (g : Ghost ι κ) (n : ℕ) :
    (g.drop o).page (.hand n) = g.page (Role.undrop o (.hand n)) := by
  simp only [drop, page, Role.undrop]
  split_ifs <;> rfl

theorem Ghost.drop_of (g : Ghost ι κ) (hr : r.of o) : (g.drop o).page r = 0 := by
  cases r <;> simp_all [drop, page, Role.of]

theorem Ghost.drop_not_of (g : Ghost ι κ) (hr : ¬ r.of o) (hh : ∀ n, r ≠ .hand n) :
    (g.drop o).page r = g.page r := by
  cases r <;> simp_all [drop, page, Role.of]

theorem Holds.dropDir (h : Holds k g m) (hh : ∀ n ≤ nEntries, g.hand n = 0)
    (hv : ∀ v < userPages, g.ent o v = 0) : Holds k (g.drop o) m := by
  have hne : ∀ {β : Type} {f : ι → β} {b : β} {o' : ι}, o' ≠ o → upd f o b o' = f o' :=
    fun {β f b o'} ho => by simp [ho]
  have hself : ∀ {β : Type} {f : ι → β} {b : β}, upd f o b o = b := fun {β f b} => by simp
  refine ⟨⟨fun o' i ho hi => ?_, fun o' i j ht hj => ?_, fun o' i hor => ?_, fun o' v ht => ?_,
    fun o' v hlt => ?_⟩, h.pool.sure, h.pool.chain, h.pool.nodup, h.pool.free_lt,
    h.pool.owns.reindex (Role.undrop o) (fun r hr => ?_) (fun r r' hr hr' he => ?_)
      (fun r hr => ?_) k.first_pos⟩
  · change upd g.dir o 0 o' ≠ 0 at ho
    show m.word (upd g.dir o 0 o') i = if upd g.tab o (fun _ => 0) o' i = 0 then 0
      else upd g.tab o (fun _ => 0) o' i * pgSize + 7
    have hoo : o' ≠ o := fun hoo => ho (by rw [hoo, hself])
    rw [hne hoo] at ho ⊢
    rw [hne hoo]
    exact h.tables.pde o' i ho hi
  · change upd g.tab o (fun _ => 0) o' i ≠ 0 at ht
    show m.word (upd g.tab o (fun _ => 0) o' i) j = upd g.ent o (fun _ => 0) o' (i * nEntries + j)
    have hoo : o' ≠ o := fun hoo => ht (by rw [hoo, hself])
    rw [hne hoo] at ht ⊢
    rw [hne hoo]
    exact h.tables.pte o' i j ht hj
  · change upd g.dir o 0 o' = 0 ∨ _ at hor
    show upd g.tab o (fun _ => 0) o' i = 0
    by_cases hoo : o' = o
    · rw [hoo, hself]
    · rw [hne hoo] at hor ⊢
      exact h.tables.tab_none o' i hor
  · change upd g.tab o (fun _ => 0) o' (v / nEntries) = 0 at ht
    show upd g.ent o (fun _ => 0) o' v = 0
    by_cases hoo : o' = o
    · rw [hoo, hself]
    · rw [hne hoo] at ht ⊢
      exact h.tables.ent_none o' v ht
  · show upd g.ent o (fun _ => 0) o' v = 0 ∨ present (upd g.ent o (fun _ => 0) o' v) = true ∧
      upd g.ent o (fun _ => 0) o' v / pgSize ≠ 0
    by_cases hoo : o' = o
    · rw [hoo, hself]; exact .inl rfl
    · rw [hne hoo]
      exact h.tables.ent_user o' v hlt
  · by_cases hhand : ∃ n, r = .hand n
    · obtain ⟨n, rfl⟩ := hhand
      exact (g.drop_hand n).symm
    · have hhand : ∀ n, r ≠ .hand n := fun n he => hhand ⟨n, he⟩
      rw [Role.undrop_of_ne hhand, g.drop_not_of (fun ho => hr (g.drop_of ho)) hhand]
  · -- a page in hand now was a page of `o`, or is in another place of the hand
    have hnot : ∀ r : Role ι κ, (g.drop o).page r ≠ 0 → ¬ r.of o := fun r hr ho => hr (g.drop_of ho)
    have hcross : ∀ (n : ℕ) (r : Role ι κ), (∀ n, r ≠ .hand n) → (g.drop o).page r ≠ 0 →
        Role.undrop o (.hand n) ≠ r.undrop o := fun n r hn hr he => by
      rw [Role.undrop_of_ne hn] at he
      rcases Role.undrop_hand (κ := κ) (o := o) n with ho | ⟨-, hx⟩
      · exact hnot r hr (he ▸ ho)
      · exact hn n (he.symm.trans hx)
    by_cases hn : ∃ n, r = .hand n <;> by_cases hn' : ∃ n, r' = .hand n
    · obtain ⟨n, rfl⟩ := hn
      obtain ⟨n', rfl⟩ := hn'
      rw [Role.undrop_hand_inj he]
    · obtain ⟨n, rfl⟩ := hn
      exact absurd he (hcross n r' (fun n hx => hn' ⟨n, hx⟩) hr')
    · obtain ⟨n', rfl⟩ := hn'
      exact absurd he.symm (hcross n' r (fun n hx => hn ⟨n, hx⟩) hr)
    · rwa [Role.undrop_of_ne fun n hx => hn ⟨n, hx⟩,
        Role.undrop_of_ne fun n hx => hn' ⟨n, hx⟩] at he
  · have hhand : ∀ n, Role.undrop o (.hand n) = r → ∃ r', (g.drop o).page r' = g.page r :=
      fun n he => ⟨.hand n, by rw [g.drop_hand, he]⟩
    by_cases ho : r.of o
    · cases r with
      | dir o' => exact hhand nEntries (by rw [show o' = o from ho]; simp [Role.undrop])
      | table o' i =>
        have hi : i < nEntries := by
          by_contra hge
          exact hr (h.tables.tab_none o' i (.inr (Nat.not_lt.1 hge)))
        exact hhand i (by rw [show o' = o from ho]; simp [Role.undrop, hi])
      | user o' v =>
        refine absurd ?_ hr
        by_cases hlt : v < userPages
        · simp [Ghost.page, show o' = o from ho, hv v hlt]
        · simp [Ghost.page, hlt]
      | hand n => exact ho.elim
      | other x => exact ho.elim
    · by_cases hn : ∃ n, r = .hand n
      · obtain ⟨n, rfl⟩ := hn
        have hlt : nEntries < n := by
          by_contra hle
          exact hr (hh n (Nat.not_lt.1 hle))
        exact hhand n (by simp [Role.undrop, Nat.not_lt.2 (le_of_lt hlt), ne_of_gt hlt])
      · exact ⟨r, g.drop_not_of ho fun n hx => hn ⟨n, hx⟩⟩

end Vm

end Xv6
