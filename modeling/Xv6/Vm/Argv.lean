import Xv6.Vm.Boot
import Xv6.Vm.Grow

/-!
# The arguments of a new program

`exec` copies the argument strings into the stack page, from its end downwards and each to a
multiple of 4, and below them the words that `main` is called with.  It never compares `sp` with the
start of the page, and `sp` may wrap.  What stops a list that is too long is the page before, which
has lost `PTE_U`: the addresses of a push end near the last push, so a push that leaves the page
meets the guard page, and `copyout` fails there.

* `Mem.view` : the bytes that the program can read.
* `Holds.view_wrote` : in this view `copyout` is a copy.
* `usub_inside` : a push that does not meet the guard page stays in the stack page.
* `pushArgs_strings`, `pushStack_args` : what the two parts of the stack hold.
* `exec_passes_args` : **the new program finds its arguments**, and nothing below its stack has
  changed.
-/

namespace Xv6

open Option

namespace Vm

/-! ## What a program reads -/

/-- The bytes at the user addresses of directory `d`, 0 where there are none. -/
def Mem.view (m : Mem) (d : ℕ) : Bytes :=
  fun va => ((m.phys d va).map fun x => m.page x.1 x.2).getD 0

section View

variable {ι κ : Type} {k : Symbols} {g g' : Ghost ι κ} {m m' : Mem} {o : ι} {a b p n va : ℕ}
  {src : Bytes}

theorem Holds.userPage_eq (h : Holds k g m) (ho : g.dir o ≠ 0) (hva : va < uintSize) :
    m.userPage (g.dir o) va = ((some (g.ent o (va / pgSize))).filter fun w =>
      present w && userBit w && !wrapsToNull w).map (· / pgSize) := by
  rw [Mem.userPage, Mem.pte, h.table_eq ho]
  by_cases ht : g.tab o (pdx va) = 0
  · rw [if_pos ht, h.ent_of_tab ht hva]
    rfl
  · rw [if_neg ht, map_some, h.word_eq ht hva]

theorem Holds.page_of_userPage (h : Holds k g m) (ho : g.dir o ≠ 0) (hg : Guarded o g)
    (hva : va < uintSize) (hp : m.userPage (g.dir o) va = some p) :
    g.page (.user o (va / pgSize)) = p ∧ p ≠ 0 ∧ g.ent o (va / pgSize) / pgSize = p := by
  have hp0 := (h.userPage ho hg hp).1
  rw [h.userPage_eq ho hva] at hp
  simp only [map_eq_some_iff, filter_eq_some_iff, Option.some.injEq, Bool.and_eq_true] at hp
  obtain ⟨w, ⟨rfl, ⟨-, hu⟩, -⟩, rfl⟩ := hp
  have hv : va / pgSize < userPages := by
    by_contra hle
    rw [hg _ (by omega)] at hu
    cases hu
  exact ⟨by simp only [Ghost.page, hv, if_true], hp0, rfl⟩

theorem Holds.phys_inj {x : ℕ × ℕ} (h : Holds k g m) (ho : g.dir o ≠ 0) (hg : Guarded o g)
    (ha : a < uintSize) (hb : b < uintSize) (hxa : m.phys (g.dir o) a = some x)
    (hxb : m.phys (g.dir o) b = some x) : a = b := by
  rw [phys_eq_some] at hxa hxb
  obtain ⟨hpa, hp0, -⟩ := h.page_of_userPage ho hg ha hxa.1
  obtain ⟨hpb, -, -⟩ := h.page_of_userPage ho hg hb hxb.1
  have hrole : (.user o (a / pgSize) : Role ι κ) = .user o (b / pgSize) :=
    h.role_inj (hpa ▸ hp0) (hpa.trans hpb.symm)
  have hpage : a / pgSize = b / pgSize := by simpa using hrole
  have hoff := hxa.2.trans hxb.2.symm
  simp only [pgSize] at hpage hoff
  omega

theorem Holds.phys_congr (h : Holds k g m) (h' : Holds k g' m') (ho : g.dir o ≠ 0)
    (hd : g'.dir o = g.dir o) (he : g'.ent o = g.ent o) (hva : va < uintSize) :
    m'.phys (g.dir o) va = m.phys (g.dir o) va := by
  have hp : m'.userPage (g.dir o) va = m.userPage (g.dir o) va := by
    rw [h.userPage_eq ho hva, ← hd, h'.userPage_eq (by rwa [hd]) hva, he]
  rw [Mem.phys, Mem.phys, hp]

theorem Holds.view_congr (h : Holds k g m) (h' : Holds k g' m') (ho : g.dir o ≠ 0)
    (hg : Guarded o g) (hd : g'.dir o = g.dir o) (he : g'.ent o = g.ent o)
    (hp : ∀ v, g.page (.user o v) ≠ 0 → m'.page (g.page (.user o v)) = m.page (g.page (.user o v)))
    (hva : va < uintSize) : m'.view (g.dir o) va = m.view (g.dir o) va := by
  unfold Mem.view
  rw [h.phys_congr h' ho hd he hva]
  cases hx : m.phys (g.dir o) va with
  | none => rfl
  | some x =>
    obtain ⟨hpage, hp0, -⟩ := h.page_of_userPage ho hg hva (phys_eq_some.1 hx).1
    show m'.page x.1 x.2 = m.page x.1 x.2
    rw [← hpage, hp _ (hpage ▸ hp0)]

/-- **A copy to user pages is a copy of what the program reads.** -/
theorem Holds.view_wrote (h : Holds k g m) (ho : g.dir o ≠ 0) (hg : Guarded o g)
    (hw : Wrote m (g.dir o) va src n m') (hn : va + n ≤ uintSize)
    (hu : ∀ i < n, m.phys (g.dir o) ((va + i) % uintSize) ≠ none) (ha : a < uintSize) :
    m'.view (g.dir o) a = (m.view (g.dir o)).copy va n src a := by
  have hmod : ∀ i < n, (va + i) % uintSize = va + i := fun i hi => Nat.mod_eq_of_lt (by omega)
  have hphys := h.phys_congr (h.wrote ho hg hw) ho rfl rfl ha
  by_cases hin : va ≤ a ∧ a < va + n
  · rw [Bytes.copy_of_mem hin.1 hin.2]
    have hi : a - va < n := by omega
    have haddr : (va + (a - va)) % uintSize = a := by rw [hmod _ hi]; omega
    obtain ⟨x, hx⟩ := ne_none_iff_exists'.1 (hu _ hi)
    have hx' := haddr ▸ hx
    rw [Mem.view, hphys, hx']
    refine hw.hit _ hi x hx fun j hj hlt he => ?_
    rw [hmod j hj] at he
    have := h.phys_inj ho hg ha (by omega) hx' he
    omega
  · rw [Bytes.copy_of_not_mem (by omega), Mem.view, Mem.view, hphys]
    cases hx : m.phys (g.dir o) a with
    | none => rfl
    | some x =>
      refine hw.miss x fun i hi he => ?_
      rw [hmod i hi] at he
      have := h.phys_inj ho hg ha (by omega) hx he
      omega

end View

/-! ## Pushing -/

/-- **Unsigned pushes**: if the addresses of `len` bytes below `sp`, rounded down, do not include
the last word before `base`, then they are all between `base` and `sp`. -/
theorem usub_inside {sp len base : ℕ} (hbase : 4 ≤ base) (hal : base % 4 = 0) (hle : base ≤ sp)
    (hsp : sp < uintSize) (hno : ∀ i < len, (usub sp len / 4 * 4 + i) % uintSize ≠ base - 4)
    (hpos : 0 < len) :
    base ≤ usub sp len / 4 * 4 ∧ usub sp len / 4 * 4 + len ≤ sp := by
  have hlt := usub_lt sp len
  -- how far the guard is from the start
  have hi := hno ((base - 4 + uintSize - usub sp len / 4 * 4) % uintSize)
  by_cases hlen : len < uintSize
  · unfold usub at *
    rw [Nat.mod_eq_of_lt hlen] at *
    simp only [uintSize] at *
    by_contra hc
    refine hi ?_ ?_ <;> omega
  · simp only [uintSize] at *
    exact absurd (by omega) (hi (by omega))

theorem getLE_wordBytes (ws : List ℕ) (i : ℕ) :
    (wordBytes ws).getLE 4 (4 * i) = ws.getD i 0 % uintSize := by
  have h : (wordBytes ws).getLE 4 (4 * i) = (Bytes.le (ws.getD i 0)).getLE 4 0 := by
    rw [← add_zero (4 * i), ← Bytes.getLE_drop]
    refine Bytes.getLE_congr fun j _ hj => ?_
    rw [Bytes.drop_apply, wordBytes, show (4 * i + j) / 4 = i by omega,
      show (4 * i + j) % 4 = j by omega]
  rw [h, Bytes.getLE_le, pow_zero, Nat.div_one, show (256 ^ 4 : ℕ) = uintSize by decide]

/-- The strings are below `hi`, each below the one before it; the last of them starts at `lo`. -/
inductive Strings (v : Bytes) : ℕ → List (List UInt8) → List ℕ → ℕ → Prop
  | nil {hi : ℕ} : Strings v hi [] [] hi
  | cons {hi lo p : ℕ} {s : List UInt8} {argv : List (List UInt8)} {ptrs : List ℕ} (aligned : p %
      4 = 0) (le : p + s.length + 1 ≤ hi) (copy : ∀ j ≤ s.length, v (p + j) = cString s j)
      (rest : Strings v p argv ptrs lo) : Strings v hi (s :: argv) (p :: ptrs) lo

namespace Strings

variable {v v' : Bytes} {hi lo i j p q : ℕ} {s : List UInt8} {argv : List (List UInt8)}
  {ptrs : List ℕ}

theorem length (h : Strings v hi argv ptrs lo) : ptrs.length = argv.length := by
  induction h with
  | nil => rfl
  | cons _ _ _ _ ih => simp only [List.length_cons, ih]

theorem lo_le (h : Strings v hi argv ptrs lo) : lo ≤ hi := by
  induction h with
  | nil => exact le_rfl
  | cons _ _ _ _ ih => omega

theorem congr (h : Strings v hi argv ptrs lo) (hv : ∀ a, lo ≤ a → a < hi → v' a = v a) :
    Strings v' hi argv ptrs lo := by
  induction h with
  | nil => exact .nil
  | cons hal hle hcopy hrest ih =>
    have := hrest.lo_le
    refine .cons hal hle (fun j hj => ?_) (ih fun a h1 h2 => hv a h1 (by omega))
    rw [hv _ (by omega) (by omega), hcopy j hj]

theorem get (h : Strings v hi argv ptrs lo) (hs : argv[i]? = some s) (hp : ptrs[i]? = some p) :
    p % 4 = 0 ∧ lo ≤ p ∧ p + s.length + 1 ≤ hi ∧ ∀ j ≤ s.length, v (p + j) = cString s j := by
  induction h generalizing i with
  | nil => cases hs
  | cons hal hle hcopy hrest ih =>
    cases i with
    | zero =>
      cases hs
      cases hp
      exact ⟨hal, hrest.lo_le, hle, hcopy⟩
    | succ i =>
      rw [List.getElem?_cons_succ] at hs hp
      obtain ⟨h1, h2, h3, h4⟩ := ih hs hp
      exact ⟨h1, h2, by omega, h4⟩

theorem apart (h : Strings v hi argv ptrs lo) (hij : i < j) (hs : argv[j]? = some s)
    (hp : ptrs[i]? = some p) (hq : ptrs[j]? = some q) : q + s.length + 1 ≤ p := by
  induction h generalizing i j with
  | nil => cases hs
  | cons _ _ _ hrest ih =>
    cases j with
    | zero => omega
    | succ j =>
    rw [List.getElem?_cons_succ] at hs hq
    cases i with
    | zero =>
      cases hp
      exact (hrest.get hs hq).2.2.1
    | succ i =>
      rw [List.getElem?_cons_succ] at hp
      exact ih (by omega) hs hp hq

end Strings

/-- What `main(argc, argv)` finds from `esp` on, in a stack from `lo` to `hi`: a return address, the
number of arguments, the address of the array of their addresses, that array with a 0 after it, and
above it the strings. -/
structure ArgsAt (v : Bytes) (lo hi esp : ℕ) (argv : List (List UInt8)) (ptrs : List ℕ) : Prop where
  length : ptrs.length = argv.length
  ret : v.getLE 4 esp = 0xffffffff
  argc : v.getLE 4 (esp + 4) = argv.length
  array : v.getLE 4 (esp + 8) = esp + 12
  ptr : ∀ (i p : ℕ), ptrs[i]? = some p → v.getLE 4 (esp + 12 + 4 * i) = p ∧ p % 4 = 0
  null : v.getLE 4 (esp + 12 + 4 * argv.length) = 0
  string : ∀ (i p : ℕ) (s : List UInt8), argv[i]? = some s → ptrs[i]? = some p →
    ∀ j ≤ s.length, v (p + j) = cString s j
  low : lo ≤ esp
  high : esp + 12 + 4 * (argv.length + 1) ≤ hi
  inside : ∀ (i p : ℕ) (s : List UInt8), argv[i]? = some s → ptrs[i]? = some p →
    esp + 12 + 4 * (argv.length + 1) ≤ p ∧ p + s.length + 1 ≤ hi
  apart : ∀ (i j p q : ℕ) (s : List UInt8), i < j → argv[j]? = some s → ptrs[i]? = some p →
    ptrs[j]? = some q → q + s.length + 1 ≤ p

theorem ArgsAt.congr {v v' : Bytes} {lo hi esp : ℕ} {argv : List (List UInt8)} {ptrs : List ℕ}
    (h : ArgsAt v lo hi esp argv ptrs) (hv : ∀ a < hi, v' a = v a) :
    ArgsAt v' lo hi esp argv ptrs := by
  have hhigh := h.high
  have hword : ∀ b, b + 4 ≤ hi → v'.getLE 4 b = v.getLE 4 b := fun b hb =>
    Bytes.getLE_congr fun a _ ha => hv a (by omega)
  refine ⟨h.length, ?_, ?_, ?_, fun i p hi => ?_, ?_, fun i p s h1 h2 j hj => ?_, h.low, h.high,
    h.inside, h.apart⟩
  · rw [hword _ (by omega), h.ret]
  · rw [hword _ (by omega), h.argc]
  · rw [hword _ (by omega), h.array]
  · obtain ⟨hlt, -⟩ := List.getElem?_eq_some_iff.1 hi
    rw [h.length] at hlt
    rw [hword _ (by omega)]
    exact h.ptr i p hi
  · rw [hword _ (by omega), h.null]
  · have := (h.inside i p s h1 h2).2
    rw [hv _ (by omega), h.string i p s h1 h2 j hj]

theorem Strings.argsAt {v : Bytes} {hi lo base esp : ℕ} {argv : List (List UInt8)} {ptrs : List ℕ}
    (h : Strings v hi argv ptrs lo) (hhi : hi < uintSize) (hbase : base ≤ esp)
    (hlo : esp + (3 + ptrs.length + 1) * 4 = lo)
    (hcopy : ∀ i < (3 + ptrs.length + 1) * 4,
      v (esp + i) = wordBytes ([0xffffffff, ptrs.length, esp + 12] ++ ptrs ++ [0]) i) :
    ArgsAt v base hi esp argv ptrs := by
  have hle := h.lo_le
  have hlen := h.length
  have hword : ∀ i < 3 + ptrs.length + 1, v.getLE 4 (esp + 4 * i) =
      (0xffffffff :: ptrs.length :: (esp + 12) :: (ptrs ++ [0])).getD i 0 % uintSize := by
    intro i hi
    refine Eq.trans ?_ (getLE_wordBytes ([0xffffffff, ptrs.length, esp + 12] ++ ptrs ++ [0]) i)
    rw [← Bytes.getLE_drop]
    exact Bytes.getLE_congr fun j _ hj => by rw [Bytes.drop_apply, hcopy j (by omega)]
  have harray : ∀ i ≤ ptrs.length, v.getLE 4 (esp + 12 + 4 * i) =
      (ptrs ++ [0]).getD i 0 % uintSize := by
    intro i hi
    rw [show esp + 12 + 4 * i = esp + 4 * (i + 3) by omega, hword _ (by omega)]
    rfl
  refine ⟨hlen, ?_, ?_, ?_, fun i p hi => ?_, ?_, fun i p s h1 h2 => (h.get h1 h2).2.2.2, hbase,
    by omega, fun i p s h1 h2 => ?_, fun i j p q s hij h1 h2 h3 => h.apart hij h1 h2 h3⟩
  · exact hword 0 (by omega)
  · rw [show esp + 4 = esp + 4 * 1 by omega, hword 1 (by omega), ← hlen]
    exact Nat.mod_eq_of_lt (show ptrs.length < uintSize by omega)
  · rw [show esp + 8 = esp + 4 * 2 by omega, hword 2 (by omega)]
    exact Nat.mod_eq_of_lt (show esp + 12 < uintSize by omega)
  · obtain ⟨hlt, -⟩ := List.getElem?_eq_some_iff.1 hi
    obtain ⟨s, hs⟩ : ∃ s, argv[i]? = some s := ⟨_, List.getElem?_eq_getElem (by omega)⟩
    obtain ⟨hal, -, hp, -⟩ := h.get hs hi
    rw [harray i (by omega), List.getD_eq_getElem?_getD, List.getElem?_append_left hlt, hi,
      getD_some]
    exact ⟨Nat.mod_eq_of_lt (by omega), hal⟩
  · rw [← hlen, harray _ le_rfl, List.getD_eq_getElem?_getD, List.getElem?_append_right
      le_rfl, Nat.sub_self]
    rfl
  · obtain ⟨-, h3, h4, -⟩ := h.get h1 h2
    exact ⟨by omega, h4⟩

section Stack

variable {ι κ : Type} {k : Symbols} {g : Ghost ι κ} {m m' m₁ : Mem} {o : ι}
  {sz sp hi mid lo len room va : ℕ}
variable {argv : List (List UInt8)} {src : Bytes}

/-- A new image, ready for its arguments. -/
structure Ready (k : Symbols) (o : ι) (g : Ghost ι κ) (sz : ℕ) (m : Mem) : Prop where
  holds : Holds k g m
  dir : g.dir o ≠ 0
  guarded : Guarded o g
  stacked : Stacked o g sz

/-- The bytes from `lo` to `hi` of the stack may have been written, and nothing else. -/
structure Pushed (k : Symbols) (o : ι) (g : Ghost ι κ) (sz hi lo : ℕ) (m m' : Mem) : Prop where
  ready : Ready k o g sz m'
  low : sz - pgSize ≤ lo
  le : lo ≤ hi
  aligned : lo % 4 = 0
  view : ∀ a < uintSize, a < lo ∨ hi ≤ a → m'.view (g.dir o) a = m.view (g.dir o) a
  other : ∀ q, q ≠ g.ent o (sz / pgSize - 1) / pgSize → m'.page q = m.page q

theorem Pushed.trans (h : Pushed k o g sz hi mid m m₁) (h' : Pushed k o g sz mid lo m₁ m') :
    Pushed k o g sz hi lo m m' where
  ready := h'.ready
  low := h'.low
  le := le_trans h'.le h.le
  aligned := h'.aligned
  view a ha hout := by
    have := h.le
    have := h'.le
    rw [h'.view a ha (by omega), h.view a ha (by omega)]
  other q hq := (h'.other q hq).trans (h.other q hq)

namespace Ready

/-- The last word before the stack is not a user address. -/
theorem guard_none (h : Ready k o g sz m) : m.phys (g.dir o) (sz - pgSize - 4) = none := by
  obtain ⟨hal, hle, hlt, hguard⟩ := h.stacked
  have hv : (sz - pgSize - 4) / pgSize = sz / pgSize - 2 := by
    simp only [pgSize] at *
    omega
  rw [Mem.phys, h.holds.userPage_eq h.dir (by simp only [kernBase, pgSize, uintSize] at *; omega),
    hv, filter_some, hguard, Bool.and_false, Bool.false_and, if_neg Bool.false_ne_true]
  rfl

theorem copyout (h : Ready k o g sz m) (hle : sz - pgSize ≤ sp) (hsp : sp ≤ sz) (hpos : 0 < len) :
    wp (copyout (g.dir o) (usub sp len / 4 * 4) src len) (fun r m' => ¬ r < 0 →
      Pushed k o g sz sp (usub sp len / 4 * 4) m m' ∧ usub sp len / 4 * 4 + len ≤ sp ∧
      (∀ i < len, m'.view (g.dir o) (usub sp len / 4 * 4 + i) = src i) ∧
      ∀ a, sz - pgSize ≤ a → a < sz → m'.phys (g.dir o) a ≠ none) (fun _ _ => True) m := by
  obtain ⟨hal, hle', hlt, -⟩ := h.stacked
  have hva : usub sp len / 4 * 4 < uintSize :=
    lt_of_le_of_lt (Nat.div_mul_le_self _ _) (usub_lt _ _)
  refine wp_mono (copyout_spec (h.holds.pageDir h.dir h.guarded) hva) (fun r m' hc hr => ?_)
    fun _ _ _ => trivial
  rcases hc with ⟨-, hu, hw⟩ | ⟨rfl, -⟩
  swap
  · exact absurd (by decide) hr
  have hin : sz - pgSize ≤ usub sp len / 4 * 4 ∧ usub sp len / 4 * 4 + len ≤ sp :=
    usub_inside (by simp only [pgSize] at *; omega) (by simp only [pgSize] at *; omega) hle
      (lt_uintSize (by omega))
      (fun i hi he => hu i hi (he ▸ h.guard_none)) hpos
  have h4 : usub sp len / 4 * 4 % 4 = 0 := Nat.mul_mod_left _ _
  generalize usub sp len / 4 * 4 = va at *
  have hend : va + len ≤ uintSize := by simp only [kernBase, uintSize] at *; omega
  have hview := fun a (ha : a < uintSize) => h.holds.view_wrote h.dir h.guarded hw hend hu ha
  refine ⟨⟨⟨h.holds.wrote h.dir h.guarded hw, h.dir, h.guarded, h.stacked⟩, hin.1, by omega, h4,
    fun a ha hout => ?_, fun q hq => funext fun off => hw.miss (q, off) fun i hi he => hq ?_⟩,
    hin.2, fun i hi => ?_, fun a hlo hhi => ?_⟩
  · rw [hview a ha, Bytes.copy_of_not_mem (by omega)]
  · -- all addresses of the push are in the stack page
    have hlt' : (va + i) % uintSize < uintSize := Nat.mod_lt _ (by decide)
    have hpage : (va + i) % uintSize / pgSize = sz / pgSize - 1 := by
      rw [Nat.mod_eq_of_lt (by omega)]
      simp only [pgSize] at *
      omega
    rw [← hpage, (h.holds.page_of_userPage h.dir h.guarded hlt' (phys_eq_some.1 he).1).2.2]
  · rw [hview _ (by omega), Bytes.copy_of_mem (by omega) (by omega), Nat.add_sub_cancel_left]
  -- the first byte of the push is in the same page
  have hpage : a / pgSize = (va + 0) % uintSize / pgSize := by
    rw [add_zero, Nat.mod_eq_of_lt hva]
    simp only [pgSize] at *
    omega
  have hfirst := hu 0 hpos
  rw [Mem.phys, ← userPage_congr hpage] at hfirst
  rw [h.holds.phys_congr (h.holds.wrote h.dir h.guarded hw) h.dir rfl rfl
    (lt_uintSize (by omega)), Mem.phys]
  simpa using hfirst

end Ready

theorem usub_eq {a b : ℕ} (hle : b ≤ a) (ha : a < uintSize) : usub a b = a - b := by
  unfold usub
  simp only [uintSize] at *
  omega

/-- A multiple of 4 is not rounded. -/
theorem usub_round {n : ℕ} (h4 : sp % 4 = 0) : usub sp (n * 4) / 4 * 4 = usub sp (n * 4) := by
  unfold usub
  simp only [uintSize]
  omega

theorem Pushed.refl (h : Ready k o g sz m) (hle : sz - pgSize ≤ sp) (h4 : sp % 4 = 0) :
    Pushed k o g sz sp sp m m :=
  ⟨h, hle, le_rfl, h4, fun _ _ _ => rfl, fun _ _ => rfl⟩

theorem pushArgs_strings {us : List ℕ} (h : Ready k o g sz m) (hle : sz - pgSize ≤ sp)
    (hsp : sp ≤ sz) (h4 : sp % 4 = 0) :
    wp (pushArgs (g.dir o) argv sp us) (fun r m' => ∀ sp' us', r = some (sp', us') →
      ∃ ptrs, us' = us ++ ptrs ∧ Pushed k o g sz sp sp' m m' ∧
      Strings (m'.view (g.dir o)) sp argv ptrs sp')
      (fun _ _ => True) m := by
  induction argv generalizing m sp us with
  | nil =>
    intro sp' us' hr
    cases hr
    exact ⟨[], (List.append_nil _).symm, .refl h hle h4, .nil⟩
  | cons s argv ih =>
    rw [pushArgs]
    refine wp_ite.2 ⟨fun _ _ _ hr => (by cases hr), fun _ => ?_⟩
    refine wp_seq (h.copyout hle hsp (Nat.succ_pos _)) fun r m₁ hx => ?_
    refine wp_ite.2 ⟨fun _ _ _ hr => (by cases hr), fun hr => ?_⟩
    obtain ⟨hp, hend, hcopy, -⟩ := hx hr
    refine wp_post (ih hp.ready hp.low (le_trans hp.le hsp) hp.aligned)
      fun r' m₂ hx sp' us' he => ?_
    obtain ⟨ptrs, rfl, hp', hs⟩ := hx sp' us' he
    refine ⟨_ :: ptrs, by simp, hp.trans hp', .cons hp.aligned hend (fun j hj => ?_) hs⟩
    -- the later strings are below this one
    have hlt := h.stacked.lt
    rw [hp'.view _ (lt_uintSize (by omega)) (.inr (Nat.le_add_right _ _)),
      hcopy j (by omega)]

/-- One word for each argument, and not more than there is room for. -/
theorem pushArgs_length {d : ℕ} {us : List ℕ} :
    wp (pushArgs d argv sp us) (fun r _ => ∀ sp' us', r = some (sp', us') →
      us'.length = us.length + argv.length ∧ (us.length ≤ maxarg → us'.length ≤ maxarg))
      (fun _ _ => True) m := by
  induction argv generalizing m sp us with
  | nil =>
    intro sp' us' hr
    cases hr
    exact ⟨rfl, id⟩
  | cons s argv ih =>
    rw [pushArgs]
    refine wp_ite.2 ⟨fun _ _ _ hr => (by cases hr), fun hmax => ?_⟩
    refine wp_seq wp_true fun r m₁ _ => ?_
    refine wp_ite.2 ⟨fun _ _ _ hr => (by cases hr), fun _ => wp_post ih
      fun r' m₂ hx sp' us' he => ?_⟩
    obtain ⟨hlen, hle⟩ := hx sp' us' he
    rw [List.length_append, List.length_singleton] at hlen hle
    exact ⟨by rw [hlen, List.length_cons]; omega, fun _ => hle (by omega)⟩

theorem pushStack_args (h : Ready k o g sz m) :
    wp (pushStack (g.dir o) argv sz)
    (fun r m' => ∀ esp, r = some esp → Pushed k o g sz sz esp m m' ∧
      (∃ ptrs, ArgsAt (m'.view (g.dir o)) (sz - pgSize) sz esp argv ptrs) ∧
      ∀ a, sz - pgSize ≤ a → a < sz → m'.phys (g.dir o) a ≠ none) (fun _ _ => True) m := by
  have hsz := h.stacked.lt
  have hal := h.stacked.aligned
  unfold pushStack
  rw [wp_bind]
  refine wp_mono
    (wp_and (pushArgs_strings h (Nat.sub_le _ _) (le_refl sz)
    (by simp only [pgSize] at *; omega)) pushArgs_length) (fun r m₁ hx => ?_) fun _ _ => And.left
  cases r with
  | none => exact nofun
  | some x =>
  obtain ⟨ptrs, hargs, hp, hs⟩ := hx.1 x.1 x.2 rfl
  obtain ⟨hlen, hmax⟩ := hx.2 x.1 x.2 rfl
  obtain ⟨sp, args⟩ := x
  simp only [List.nil_append] at hargs hp hs hlen hmax
  subst hargs
  simp only [List.length_nil, Nat.zero_add] at hlen hmax
  have hmax := hmax zero_le
  generalize hus : [0xffffffff, args.length, usub sp ((args.length + 1) * 4)] ++ args ++
    [0] = ustack
  have hround := @usub_round sp (3 + args.length + 1) hp.aligned
  simp only [wp_bind]
  rw [hus, ← hround]
  refine wp_post (hp.ready.copyout hp.low hp.le (by omega))
    fun r m₂ hx => wp_ite.2 ⟨fun _ => nofun, fun hr => ?_⟩
  rw [hround] at hx ⊢
  intro esp he
  obtain ⟨hp', hend, hcopy, hmapped⟩ := hx hr
  obtain rfl : usub sp ((3 + args.length + 1) * 4) = esp := Option.some.inj he
  have hlt : sp < uintSize := by have := hp.le; simp only [kernBase, uintSize] at *; omega
  have hesp := usub_eq (b := (3 + args.length + 1) * 4) (by omega) hlt
  have harr := usub_eq (b := (args.length + 1) * 4) (a := sp) (by omega) hlt
  rw [harr] at hus
  refine ⟨hp.trans hp', ⟨args, ?_⟩, hmapped⟩
  generalize usub sp ((3 + args.length + 1) * 4) = esp at *
  -- the words are below the strings
  have hs' : Strings (m₂.view (g.dir o)) sz argv args sp := hs.congr fun a h1 h2 =>
    hp'.view a (lt_uintSize (by omega)) (.inr h1)
  refine hs'.argsAt (lt_uintSize (by omega)) hp'.low (by omega)
    fun i hi => ?_
  rw [hcopy i hi, ← hus, show sp - (args.length + 1) * 4 = esp + 12 by omega]

-- "sh" in the last 4 bytes of the page, and 5 words below it
example : (match pushStack 1 [[115, 104]] pgSize onePage with
    | .ok r _ => r
    | .error _ _ => none) = some 4072 := by
  decide +kernel

theorem Pushed.look (h : Pushed k o g sz hi lo m m') (hr : Ready k o g sz m)
    (hva : va < sz - pgSize) :
    m'.look (g.dir o) va = m.look (g.dir o) va := by
  obtain ⟨hal, hle, hlt, -⟩ := hr.stacked
  have hk : va < kernBase := by omega
  have hv : va / pgSize < userPages := div_lt_userPages (by omega)
  have hv' : sz / pgSize - 1 < userPages := by simp only [kernBase, userPages, pgSize] at *; omega
  refine hr.holds.look_congr h.ready.holds hr.dir rfl hk rfl fun hne => h.other _ fun he => ?_
  -- otherwise the two pages would be one
  have hp0 := ((hr.holds.tables.ent_user o _ hv).resolve_left hne).2
  have hrole : (.user o (va / pgSize) : Role ι κ) = .user o (sz / pgSize - 1) :=
    hr.holds.role_inj (by simp only [Ghost.page, hv, if_true]; exact hp0)
      (by simp only [Ghost.page, hv, hv', if_true]; exact he)
  have hpage : va / pgSize = sz / pgSize - 1 := by simpa using hrole
  simp only [pgSize] at *
  omega

/-! ### Enough room -/

/-- There are `room` bytes of the stack below `sp`, which can be written. -/
structure Room (k : Symbols) (o : ι) (g : Ghost ι κ) (sz sp room : ℕ) (m : Mem) : Prop
    extends Ready k o g sz m where
  mapped : ∀ a, sz - pgSize ≤ a → a < sz → m.phys (g.dir o) a ≠ none
  le : sp ≤ sz
  aligned : sp % 4 = 0
  room : sz - pgSize + room ≤ sp

theorem Room.copyout (h : Room k o g sz sp (len + 3 + room) m) (hpos : 0 < len) :
    wp (copyout (g.dir o) (usub sp len / 4 * 4) src len) (fun r m' => ¬ r < 0 ∧
      Room k o g sz (usub sp len / 4 * 4) room m') (fun _ _ => False) m := by
  obtain ⟨-, hle, hlt, -⟩ := h.stacked
  have hsp := h.le
  have hroom := h.room
  have hsub : usub sp len = sp - len := usub_eq (by omega) (lt_uintSize (by omega))
  have hu : ∀ i < len, m.phys (g.dir o) ((usub sp len / 4 * 4 + i) % uintSize) ≠ none :=
    fun i hi => by
      rw [hsub, Nat.mod_eq_of_lt (lt_uintSize (by omega))]
      exact h.mapped _ (by omega) (by omega)
  refine wp_mono (wp_and (copyout_ok (h.holds.pageDir h.dir h.guarded)
    (lt_uintSize (by rw [hsub]; omega)) hu) (h.toReady.copyout (by omega) hsp hpos))
    (fun r m' hx => ?_) fun _ _ => And.left
  obtain ⟨rfl, hx⟩ := hx
  obtain ⟨hp, -, -, hmapped⟩ := hx (by decide)
  exact ⟨by decide, hp.ready, hmapped, hp.le.trans hsp, hp.aligned, by rw [hsub]; omega⟩

theorem pushArgs_ok {us : List ℕ}
    (h : Room k o g sz sp ((argv.map (·.length + 4)).sum + room) m)
    (hus : us.length + argv.length ≤ maxarg) :
    wp (pushArgs (g.dir o) argv sp us) (fun r m' => ∃ sp' us', r = some (sp', us') ∧
      us'.length = us.length + argv.length ∧ Room k o g sz sp' room m') (fun _ _ => False) m := by
  induction argv generalizing m sp us with
  | nil => exact ⟨sp, us, rfl, rfl, by simpa using h⟩
  | cons s argv ih =>
    rw [List.length_cons] at hus
    rw [pushArgs]
    refine wp_ite.2 ⟨fun hmax => absurd hmax (by omega), fun _ => ?_⟩
    rw [wp_bind]
    have hroom : s.length + 1 + 3 + ((argv.map (·.length + 4)).sum + room) =
        ((s :: argv).map (·.length + 4)).sum + room := by
      rw [List.map_cons, List.sum_cons]
      omega
    rw [← hroom] at h
    refine wp_post (h.copyout (Nat.succ_pos _)) fun r m₁ hx => ?_
    refine wp_ite.2 ⟨fun hr => absurd hr hx.1, fun _ => ?_⟩
    refine wp_post (ih hx.2 (by simp; omega)) fun r m₂ hx => ?_
    obtain ⟨sp', us', hr, hlen, h'⟩ := hx
    exact ⟨sp', us', hr, by simp [hlen]; omega, h'⟩

theorem pushStack_ok
    (h : Room k o g sz sz ((argv.map (·.length + 4)).sum + ((argv.length + 4) * 4 + 3)) m)
    (hmax : argv.length ≤ maxarg) :
    wp (pushStack (g.dir o) argv sz) (fun r _ => r ≠ none) (fun _ _ => False) m := by
  unfold pushStack
  refine wp_seq (pushArgs_ok h (by simpa using hmax)) fun r m₁ hx => ?_
  obtain ⟨sp, us, rfl, hlen, h⟩ := hx
  rw [List.length_nil, zero_add] at hlen
  rw [← hlen, show (us.length + 4) * 4 + 3 = (3 + us.length + 1) * 4 + 3 + 0 by omega] at h
  simp only [wp_bind]
  rw [← usub_round h.aligned]
  exact wp_post (h.copyout (by omega))
    fun r m₂ hx => wp_ite.2 ⟨fun hr => absurd hr hx.1, fun _ => some_ne_none _⟩

end Stack

/-! ## The new program -/

section Image

variable {ι κ : Type} [DecidableEq ι] [DecidableEq κ] {k : Symbols} {g : Ghost ι κ} {m : Mem}
  {o o' : ι} {d : ℕ} {ip : File}

/-- `freevm` of one directory does not change what a process sees in another. -/
theorem Holds.freevm_keeps (h : Holds k g m) (ho : g.dir o ≠ 0) (hg : Guarded o g) (hne : o ≠ o')
    (hd : g.dir o' = d) (hd0 : d ≠ 0) (hh : ∀ n, g.hand n = 0) :
    wp (freevm k d) (fun _ m' =>
      (∀ va < uintSize, m'.view (g.dir o) va = m.view (g.dir o) va ∧
          m'.phys (g.dir o) va = m.phys (g.dir o) va) ∧
      ∀ va < kernBase, m'.look (g.dir o) va = m.look (g.dir o) va) (fun _ _ => False) m := by
  refine wp_post (freevm_exact h hd hd0 hh) fun _ m' hx => ?_
  obtain ⟨⟨l, h'⟩, hpage⟩ := hx
  have hdir : ((g.erase o').setFree l).dir o = g.dir o := upd_of_ne _ _ hne
  have hent : ((g.erase o').setFree l).ent o = g.ent o := upd_of_ne _ _ hne
  have huser : ∀ v, g.page (.user o v) ≠ 0 → m'.page (g.page (.user o v)) =
      m.page (g.page (.user o v)) :=
    fun v => hpage (.user o v) hne
  refine ⟨fun va hva =>
    ⟨h.view_congr h' ho hg hdir hent huser hva, h.phys_congr h' ho hdir hent hva⟩, fun va hva =>
    h.look_congr h' ho hdir hva (by rw [hent]) fun hz => ?_⟩
  have hv : va / pgSize < userPages := div_lt_userPages (by omega)
  have hrole : g.page (.user o (va / pgSize)) = g.ent o (va / pgSize) / pgSize := by
    simp only [Ghost.page, hv, if_true]
  rw [← hrole]
  exact huser _ (hrole ▸ ((h.tables.ent_user o _ hv).resolve_left hz).2)

/-- A file without program headers: two pages, the second of which is the stack. -/
theorem loadStack_ok {elf : Elfhdr} (h : Holds k g m) (ho : g.dir o ≠ 0) (hh : ∀ n, g.hand n = 0)
    (hg : Guarded o g) (hph : elf.phnum = 0) (hz : ∀ v < 2, g.ent o v = 0) (hs : g.sure = true)
    (hl : 4 ≤ g.free.length) :
    wp (loadStack k (g.dir o) ip elf) (fun r m' => r = some (2 * pgSize) ∧ ∃ g', UserFrame o g g' ∧
      Room k o g' (2 * pgSize) (2 * pgSize) pgSize m') (fun _ _ => False) m := by
  unfold loadStack
  rw [hph, loadProgram, wp_bind]
  show wp (allocuvm k (g.dir o) 0 (2 * pgSize) >>= _) _ _ m
  refine wp_seq (allocuvm_ok (n := 2) h ho (hh 0) (hh 1) (by decide) (by decide) (fun v hv =>
    .inl (hz v (by simp only [pgSize] at hv; omega))) hs (by decide) hl) fun r m₁ hx => ?_
  obtain ⟨rfl, g₁, hadd, h1⟩ := hx
  have hfresh : ∀ v < 2, ∃ p ∈ g.free, g₁.ent o v = p * pgSize + 7 := fun v hv => by
    obtain ⟨p, hp, -, he, -⟩ := hadd.fresh v (Nat.zero_le _) (by simp only [pgSize]; omega)
    exact ⟨p, hp, he.trans (userPerm_entry p v)⟩
  have ho1 : g₁.dir o ≠ 0 := by rwa [hadd.dir]
  rw [if_neg (by decide), wp_bind, ← hadd.dir]
  refine wp_mono (clearpteu_spec h1 ho1 (by decide)) (fun _ m₂ hx => ⟨rfl, ?_⟩) fun e _ he => ?_
  · obtain ⟨g₂, hf2, h2, hu, hsame⟩ := hx
    have hf := hadd.toUserFrame.trans hf2
    have ho2 : g₂.dir o ≠ 0 := by rwa [hf.dir]
    refine ⟨g₂, hf, ⟨h2, ho2, hg.frame hf, ⟨by decide, le_rfl, by decide, hu⟩⟩, fun a hlo hhi => ?_,
      le_rfl, by decide, by decide⟩
    obtain ⟨p, hp, he⟩ := hfresh 1 (by decide)
    have hlt := h.pool.free_lt p hp
    have ha : a / pgSize = 1 := by simp only [pgSize] at *; omega
    have hu : userBit (p * pgSize + 7) = true := by
      rw [userBit, and_pteU]
      simp [pgSize]
      omega
    have hw : wrapsToNull (p * pgSize + 7) = false := by
      have : physPages = 57344 := by decide
      rw [wrapsToNull, pteAddr, pde_div, beq_eq_false_iff_ne]
      simp only [pgSize, kernBase, uintSize]
      omega
    rw [Mem.phys, h2.userPage_eq ho2 (hhi.trans (by decide)), ha, hsame 1 (by decide), he]
    simp [present_pde, hu, hw]
  · obtain ⟨p, -, hp⟩ := hfresh 0 (by decide)
    exact absurd (hp.symm.trans (h1.ent_of_tab he.2 (by decide))) (Nat.succ_ne_zero _)

end Image

variable {k : Symbols} {x x' : Machine} {cur : ℕ} {ip : File} {argv : List (List UInt8)}

theorem exec_ok (hx : exec k cur (some ip) argv x = .ok 0 x') :
    ∃ (d sz esp : ℕ) (m₁ m₂ m₃ m₄ : Mem), setupkvm k x.mem = .ok (some d) m₁ ∧
      loadStack k d ip (Elfhdr.get ip.bytes) m₁ = .ok (some sz) m₂ ∧ pushStack d argv sz m₂ =
      .ok (some esp) m₃ ∧
      freevm k (x.proc cur).pgdir m₃ = .ok () m₄ ∧
      x' = { x with mem := m₄, proc := upd x.proc cur { x.proc cur with pgdir := d, sz } } := by
  have hwp : wp (exec k cur (some ip) argv)
    (fun r x' => r = 0 → ∃ (d sz esp : ℕ) (m₁ m₂ m₃ m₄ : Mem),
      setupkvm k x.mem = .ok (some d) m₁ ∧ loadStack k d ip (Elfhdr.get ip.bytes) m₁ =
      .ok (some sz) m₂ ∧ pushStack d argv sz m₂ = .ok (some esp) m₃ ∧
      freevm k (x.proc cur).pgdir m₃ = .ok () m₄ ∧
      x' = { x with mem := m₄, proc := upd x.proc cur { x.proc cur with pgdir := d, sz } })
      (fun _ _ => True) x := by
    have hbad : (-1 : ℤ) ≠ 0 := by decide
    unfold exec
    refine wp_ite.2
      ⟨fun _ hr => absurd hr hbad, fun _ => wp_ite.2 ⟨fun _ hr => absurd hr hbad, fun _ => ?_⟩⟩
    rw [wp_bind, wp_onMem]
    refine wp_mono wp_eq (fun r m₁ h1 => ?_) fun _ _ _ => trivial
    cases r with
    | none => exact fun hr => absurd hr hbad
    | some d =>
    simp only [wp_bind, wp_onMem]
    rw [wp_loadImage]
    refine wp_mono wp_eq (fun r m₂ h2 => ?_) fun _ _ _ => trivial
    cases r with
    | none =>
      simp only [wp_bind, wp_onMem]
      exact wp_post wp_true fun _ _ _ hr => absurd hr hbad
    | some sz =>
    refine wp_mono wp_eq (fun r m₃ h3 => ?_) fun _ _ _ => trivial
    cases r with
    | none =>
      simp only [map_none, wp_bind, wp_onMem]
      exact wp_post wp_true fun _ _ _ hr => absurd hr hbad
    | some esp =>
      simp only [map_some, wp_bind, wp_get, wp_setProc, wp_onMem]
      exact wp_mono wp_eq (fun _ m₄ h4 _ => ⟨d, sz, esp, m₁, m₂, m₃, m₄, h1, h2, h3, h4, rfl⟩)
        fun _ _ _ => trivial
  exact hwp.ok hx rfl

/-- **The arguments of `exec`**: if it returns 0, the process has the directory and the size of the
new image, and from `esp`, where the new program starts, its stack page holds the arguments.  Below
the stack nothing has changed since before the arguments were copied.  However the copy ends, each
index `3 + argc` of `ustack` that it uses is one of the array. -/
theorem exec_passes_args (h : Inv k x) (hr : (x.proc cur).state = .runnable) :
    (∀ x', exec k cur (some ip) argv x = .ok 0 x' →
      ∃ (d sz esp : ℕ) (ptrs : List ℕ) (m₁ m₂ m₃ : Mem), setupkvm k x.mem = .ok (some d) m₁ ∧
      loadStack k d ip (Elfhdr.get ip.bytes) m₁ = .ok (some sz) m₂ ∧ pushStack d argv sz m₂ =
      .ok (some esp) m₃ ∧ (x'.proc cur).pgdir = d ∧ (x'.proc cur).sz = sz ∧
      ArgsAt (x'.mem.view d) (sz - pgSize) sz esp argv ptrs ∧
      (∀ va, sz - pgSize ≤ va → va < sz → x'.mem.phys d va ≠ none) ∧
      ∀ va < sz - pgSize, x'.mem.look d va = m₂.look d va) ∧
    ∀ (d sp sp' : ℕ) (us : List ℕ) (m m' : Mem), pushArgs d argv sp [] m = .ok (some (sp', us)) m' →
      us.length = argv.length ∧ 3 + us.length < 3 + maxarg + 1 := by
  obtain ⟨g, hm, ha⟩ := h.pages
  refine ⟨fun x' hx => ?_, fun d sp sp' us m m' hx => ?_⟩
  · obtain ⟨d, sz, esp, m₁, m₂, m₃, m₄, h₁, h₂, h₃, h₄, rfl⟩ := exec_ok hx
    obtain ⟨hd, g₁, hf₁, hm₁, -, hk⟩ := (setupkvm_spec 0 hm ha.temp ha.hand).ok h₁
    have ha₁ := ha.newTemp hf₁ hk
    obtain rfl := ha₁.temp
    obtain ⟨g₂, hf₂, hm₂, hst⟩ := (loadStack_spec hm₁ hd (ha₁.hand 0) (ha₁.hand 1)).ok h₂
    have ha₂ := ha₁.frame hf₂
    have hdir : g₂.dir .temp = g₁.dir .temp := ha₂.temp
    have hready : Ready k .temp g₂ sz m₂ :=
      ⟨hm₂, by rwa [hdir], ha₂.guarded (by rwa [hdir]), hst sz rfl⟩
    have hsz := hready.stacked.lt
    obtain ⟨hp, ⟨ptrs, hargs⟩, hmapped⟩ := (pushStack_args hready).ok (hdir.symm ▸ h₃) esp rfl
    -- the image now belongs to the process
    have hcom := ha₂.commit (i := cur) hd (le_of_lt hsz) hr
    have hnew : (g₂.reindex (Equiv.swap .temp (.proc cur))).dir (.proc cur) = g₁.dir .temp := by
      show g₂.dir (Equiv.swap _ _ _) = _
      rw [Equiv.swap_apply_right, hdir]
    obtain ⟨hkeep, hlook⟩ := ((hp.ready.holds.reindex _).freevm_keeps (o := .proc cur) (hnew ▸ hd)
      (hcom.guarded (hnew ▸ hd)) (show Owner.proc cur ≠ .temp from nofun) hcom.temp
      (ha.dir_of_runnable hr).2.1 hcom.hand).ok h₄
    rw [hnew] at hkeep hlook
    rw [hdir] at hargs hmapped
    refine ⟨g₁.dir .temp, sz, esp, ptrs, m₁, m₂, m₃, h₁, h₂, h₃, ?_, ?_, ?_, fun va hlo hhi => ?_,
      fun va hva => ?_⟩
    · exact congrArg Proc.pgdir (upd_same _ _ _)
    · exact congrArg Proc.sz (upd_same _ _ _)
    · exact hargs.congr fun a ha => (hkeep a (lt_uintSize (by omega))).1
    · rw [(hkeep va (lt_uintSize (by omega))).2]
      exact hmapped va hlo hhi
    · rw [hlook va (by omega), ← hdir, hp.look hready hva]
  · obtain ⟨hlen, hmax⟩ := pushArgs_length.ok hx sp' us rfl
    have := hmax zero_le
    exact ⟨by simpa using hlen, by omega⟩

/-- `exec` of a file without program headers, with arguments for which the stack has room. -/
theorem exec_returns {n : ℕ} (h : Spare k n x) (hn : 69 ≤ n)
    (hr : (x.proc cur).state = .runnable)
    (hread : ip.readi 0 elfhdrSize = elfhdrSize) (hmagic : (Elfhdr.get ip.bytes).magic = elfMagic)
    (hph : (Elfhdr.get ip.bytes).phnum = 0) (hmax : argv.length ≤ maxarg)
    (hroom : (argv.map (·.length + 4)).sum + ((argv.length + 4) * 4 + 3) ≤ pgSize) :
    ∃ x', exec k cur (some ip) argv x = .ok 0 x' := by
  obtain ⟨g, hm, ha, hs, hl⟩ := h.pages
  have hwp : wp (exec k cur (some ip) argv) (fun r _ => r = 0) (fun _ _ => False) x := by
    unfold exec
    refine wp_ite.2 ⟨fun hn => absurd hread hn, fun _ => wp_ite.2 ⟨fun hn => absurd hmagic hn,
      fun _ => ?_⟩⟩
    rw [wp_bind, wp_onMem]
    refine wp_post (setupkvm_spec 4 hm ha.temp ha.hand) fun r m₁ hx => ?_
    cases r with
    | none => exact absurd ⟨hs, hn.trans hl⟩ hx.2
    | some d =>
    obtain ⟨hd, g₁, hf1, h1, hl1, hk⟩ := hx
    have ha1 := ha.newTemp hf1 hk
    obtain rfl := ha1.temp
    simp only [wp_bind, wp_onMem]
    rw [wp_loadImage]
    refine wp_post (loadStack_ok h1 hd ha1.hand (ha1.guarded hd) hph (fun v hv => ?_)
      (hf1.sure.trans hs) (hl1 (hn.trans hl))) fun r m₂ hx => ?_
    · rw [hk, kernelEntry_user (hv.trans (by decide))]
    obtain ⟨rfl, g₂, hf2, hready⟩ := hx
    have ha2 := ha1.frame hf2
    have hdir : g₂.dir .temp = g₁.dir .temp := ha2.temp
    rw [← hdir]
    refine wp_mono (wp_and
      (pushStack_ok { hready with room := (Nat.add_le_add_left hroom _).trans hready.room } hmax)
      (pushStack_holds hready.holds hready.dir hready.guarded)) (fun r m₃ hx => ?_)
      fun _ _ => And.left
    obtain ⟨esp, rfl⟩ := ne_none_iff_exists'.1 hx.1
    have hcom := ha2.commit (i := cur) hd (by decide : 2 * pgSize ≤ kernBase) hr
    simp only [map_some, wp_bind, wp_get, wp_setProc, wp_onMem]
    exact wp_post (freevm_spec (hx.2.reindex _) hcom.temp (ha.dir_of_runnable hr).2.1 hcom.hand)
      fun _ _ _ => rfl
  obtain ⟨_, x', hx, rfl⟩ := hwp.exists_ok
  exact ⟨x', hx⟩

theorem exec_passes_args_init : ∃ x i ip x', Inv someSymbols x ∧ (x.proc i).state = .runnable ∧
    exec someSymbols i (some ip) [[115, 104]] x = .ok 0 x' ∧ ∃ esp ptrs,
      ArgsAt (x'.mem.view (x'.proc i).pgdir) ((x'.proc i).sz - pgSize) (x'.proc i).sz esp
      [[115, 104]] ptrs := by
  obtain ⟨x, -, hs, i, hi⟩ := main_ok (k := someSymbols) 2 Bytes.zero (fun _ => Bytes.zero)
    (by decide) (by decide : 44 < pgSize)
  obtain ⟨x', hx⟩ := @exec_returns _ x i ⟨elfhdrSize, Bytes.zero.putLE 4 0 elfMagic⟩ [[115, 104]] _
    hs (by decide) hi (by decide) (by decide) (by decide) (by decide) (by decide)
  obtain ⟨d, sz, esp, ptrs, -, -, -, -, -, -, rfl, rfl, hargs, -⟩ :=
    (exec_passes_args hs.inv hi).1 x' hx
  exact ⟨x, i, _, x', hs.inv, hi, hx, esp, ptrs, hargs⟩

end Vm

end Xv6
