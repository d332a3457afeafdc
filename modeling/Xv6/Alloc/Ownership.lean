import Mathlib.Data.Finset.Card
import Mathlib.Data.Finset.Filter
import Mathlib.Logic.Function.Basic

/-!
# An allocation map and the pointers into it

A store of `hi` blocks, the first `lo` of which are reserved, keeps a map of the blocks in use; the
blocks are named by pointers at the positions `κ` of some data structure, 0 standing for no block.
`Owns used ptr lo hi` says that the map and the pointers agree:

* a block is marked as used iff it is reserved or some pointer names it;
* no two positions name the same block.

Allocating an unused block for an empty position and freeing the block of a position both keep this
(`Owns.alloc`, `Owns.free`); `freeBlocks` counts what is left.
-/

namespace Xv6

open Function

variable {κ : Type*} {used used' : ℕ → Bool} {ptr ptr' : κ → ℕ} {lo hi b : ℕ} {x y : κ}

/-- The map `used` and the pointers `ptr` agree on the blocks below `hi`. -/
structure Owns (used : ℕ → Bool) (ptr : κ → ℕ) (lo hi : ℕ) : Prop where
  le_ptr : ∀ x, ptr x ≠ 0 → lo ≤ ptr x
  ptr_lt : ∀ x, ptr x ≠ 0 → ptr x < hi
  used_ptr : ∀ x, ptr x ≠ 0 → used (ptr x) = true
  inj : ∀ x y, ptr x ≠ 0 → ptr x = ptr y → x = y
  reserved : ∀ b < lo, used b = true
  cover : ∀ b < hi, used b = true → b < lo ∨ ∃ x, ptr x = b

/-- The unused blocks below `hi`. -/
def freeBlocks (used : ℕ → Bool) (hi : ℕ) : Finset ℕ :=
  (Finset.range hi).filter fun b => used b = false

theorem mem_freeBlocks : b ∈ freeBlocks used hi ↔ b < hi ∧ used b = false := by
  simp [freeBlocks]

namespace Owns

theorem congr (h : Owns used ptr lo hi) (hu : ∀ b < hi, used' b = used b) (hp : ∀ x, ptr' x = ptr x)
    (hlo : lo ≤ hi) : Owns used' ptr' lo hi where
  le_ptr x hx := by rw [hp] at hx ⊢; exact h.le_ptr x hx
  ptr_lt x hx := by rw [hp] at hx ⊢; exact h.ptr_lt x hx
  used_ptr x hx := by
    rw [hp] at hx ⊢
    rw [hu _ (h.ptr_lt x hx)]
    exact h.used_ptr x hx
  inj x y hx hxy := by
    rw [hp] at hx
    rw [hp, hp] at hxy
    exact h.inj x y hx hxy
  reserved b hb := by rw [hu b (by omega)]; exact h.reserved b hb
  cover b hb hub := by
    rw [hu b hb] at hub
    simpa only [hp] using h.cover b hb hub

theorem ptr_ne_of_not_used (h : Owns used ptr lo hi) (hlo : 0 < lo) (hub : used b = false) (x : κ) :
    ptr x ≠ b := by
  rintro rfl
  by_cases hx : ptr x = 0
  · rw [hx, h.reserved 0 hlo] at hub; cases hub
  · rw [h.used_ptr x hx] at hub; cases hub

theorem le_of_not_used (h : Owns used ptr lo hi) (hub : used b = false) : lo ≤ b := by
  by_contra hb
  rw [h.reserved b (by omega)] at hub
  cases hub

theorem reindex {κ' : Type*} {ptr' : κ' → ℕ} (h : Owns used ptr lo hi) (f : κ' → κ)
    (hf : ∀ x, ptr' x ≠ 0 → ptr (f x) = ptr' x)
    (hinj : ∀ x y, ptr' x ≠ 0 → ptr' y ≠ 0 → f x = f y → x = y)
    (hsur : ∀ y, ptr y ≠ 0 → ∃ x, ptr' x = ptr y) (hlo : 0 < lo) : Owns used ptr' lo hi where
  le_ptr x hx := by
    rw [← hf x hx]
    exact h.le_ptr (f x) (by rwa [hf x hx])
  ptr_lt x hx := by
    rw [← hf x hx]
    exact h.ptr_lt (f x) (by rwa [hf x hx])
  used_ptr x hx := by
    rw [← hf x hx]
    exact h.used_ptr (f x) (by rwa [hf x hx])
  inj x y hx hxy := by
    have hy : ptr' y ≠ 0 := hxy ▸ hx
    refine hinj x y hx hy (h.inj (f x) (f y) (by rwa [hf x hx]) ?_)
    rw [hf x hx, hf y hy, hxy]
  reserved := h.reserved
  cover b hb hub := by
    rcases h.cover b hb hub with hlt | ⟨y, rfl⟩
    · exact .inl hlt
    · by_cases hy : ptr y = 0
      · exact .inl (by omega)
      · exact .inr (hsur y hy)

theorem move [DecidableEq κ] (h : Owns used ptr lo hi) (hlo : 0 < lo) (hy : ptr y = 0) (hxy : x ≠ y)
    (hp : ∀ z, ptr' z = Function.update (Function.update ptr x 0) y (ptr x) z) :
    Owns used ptr' lo hi := by
  have hpy : ptr' y = ptr x := by rw [hp, update_self]
  have hpx : ptr' x = 0 := by rw [hp, update_of_ne hxy, update_self]
  have hpz : ∀ z, z ≠ x → z ≠ y → ptr' z = ptr z := fun z hx hy => by
    rw [hp, update_of_ne hy, update_of_ne hx]
  refine h.reindex (fun z => if z = y then x else z) (fun z hz => ?_) (fun z w hz hw he => ?_)
    (fun z hz => ?_) hlo
  · by_cases hzy : z = y
    · simp [hzy, hpy]
    · have hzx : z ≠ x := fun he => hz (he ▸ hpx)
      simp [hzy, hpz z hzx hzy]
  · have hzx : z ≠ x := fun he => hz (he ▸ hpx)
    have hwx : w ≠ x := fun he => hw (he ▸ hpx)
    by_cases hzy : z = y <;> by_cases hwy : w = y <;> simp_all
  · by_cases hzx : z = x
    · exact ⟨y, by rw [hpy, hzx]⟩
    · have hzy : z ≠ y := fun he => hz (he ▸ hy)
      exact ⟨z, hpz z hzx hzy⟩

theorem alloc [DecidableEq κ] (h : Owns used ptr lo hi) (hlo : 0 < lo) (hb : b < hi)
    (hub : used b = false) (hx : ptr x = 0) (hu : ∀ c < hi, used' c = (decide (c = b) || used c))
    (hp : ∀ y, ptr' y = Function.update ptr x b y) : Owns used' ptr' lo hi := by
  have hfresh := h.ptr_ne_of_not_used hlo hub
  have hlob := h.le_of_not_used hub
  have hpx : ptr' x = b := by rw [hp, update_self]
  have hpy : ∀ y, y ≠ x → ptr' y = ptr y := fun y hy => by rw [hp, update_of_ne hy]
  refine ⟨fun y hy => ?_, fun y hy => ?_, fun y hy => ?_, fun y z hy hyz => ?_, fun c hc => ?_,
    fun c hc huc => ?_⟩
  · by_cases hyx : y = x
    · subst hyx; rwa [hpx]
    · rw [hpy y hyx] at hy ⊢; exact h.le_ptr y hy
  · by_cases hyx : y = x
    · subst hyx; rwa [hpx]
    · rw [hpy y hyx] at hy ⊢; exact h.ptr_lt y hy
  · by_cases hyx : y = x
    · subst hyx; rw [hpx, hu b hb]; simp
    · rw [hpy y hyx] at hy ⊢
      rw [hu _ (h.ptr_lt y hy), h.used_ptr y hy, Bool.or_true]
  · by_cases hyx : y = x <;> by_cases hzx : z = x
    · rw [hyx, hzx]
    · rw [hyx, hpx, hpy z hzx] at hyz
      exact absurd hyz.symm (hfresh z)
    · rw [hpy y hyx, hzx, hpx] at hyz
      exact absurd hyz (hfresh y)
    · rw [hpy y hyx] at hy hyz
      rw [hpy z hzx] at hyz
      exact h.inj y z hy hyz
  · have hch : c < hi := by omega
    rw [hu c hch, h.reserved c hc, Bool.or_true]
  · by_cases hcb : c = b
    · exact .inr ⟨x, hpx.trans hcb.symm⟩
    rw [hu c hc] at huc
    simp only [hcb, decide_false, Bool.false_or] at huc
    rcases h.cover c hc huc with hlt | ⟨y, hy⟩
    · exact .inl hlt
    · by_cases hyx : y = x
      · rw [hyx, hx] at hy; exact .inl (by omega)
      · exact .inr ⟨y, by rw [hpy y hyx, hy]⟩

theorem free [DecidableEq κ] (h : Owns used ptr lo hi) (hle : lo ≤ hi) (hx : ptr x ≠ 0)
    (hu : ∀ c < hi, used' c = (!decide (c = ptr x) && used c))
    (hp : ∀ y, ptr' y = Function.update ptr x 0 y) : Owns used' ptr' lo hi := by
  have hpx : ptr' x = 0 := by rw [hp, update_self]
  have hpy : ∀ y, y ≠ x → ptr' y = ptr y := fun y hy => by rw [hp, update_of_ne hy]
  have hne : ∀ y, ptr' y ≠ 0 → y ≠ x := fun y hy hyx => hy (hyx ▸ hpx)
  refine ⟨fun y hy => ?_, fun y hy => ?_, fun y hy => ?_, fun y z hy hyz => ?_, fun c hc => ?_,
    fun c hc huc => ?_⟩
  · have hyx := hne y hy
    rw [hpy y hyx] at hy ⊢; exact h.le_ptr y hy
  · have hyx := hne y hy
    rw [hpy y hyx] at hy ⊢; exact h.ptr_lt y hy
  · have hyx := hne y hy
    rw [hpy y hyx] at hy ⊢
    have hd : ptr y ≠ ptr x := fun he => hyx (h.inj y x hy he)
    rw [hu _ (h.ptr_lt y hy), h.used_ptr y hy]
    simp [hd]
  · have hyx := hne y hy
    have hzx := hne z (hyz ▸ hy)
    rw [hpy y hyx] at hy hyz
    rw [hpy z hzx] at hyz
    exact h.inj y z hy hyz
  · have hd : c ≠ ptr x := by have := h.le_ptr x hx; omega
    rw [hu c (by omega), h.reserved c hc]
    simp [hd]
  · rw [hu c hc] at huc
    simp only [Bool.and_eq_true, Bool.not_eq_true', decide_eq_false_iff_not] at huc
    rcases h.cover c hc huc.2 with hlt | ⟨y, hy⟩
    · exact .inl hlt
    · have hyx : y ≠ x := by rintro rfl; exact huc.1 hy.symm
      exact .inr ⟨y, by rw [hpy y hyx, hy]⟩

end Owns

theorem card_freeBlocks_alloc (hb : b < hi) (hub : used b = false)
    (hu : ∀ c < hi, used' c = (decide (c = b) || used c)) :
    (freeBlocks used' hi).card + 1 = (freeBlocks used hi).card := by
  have he : freeBlocks used' hi = (freeBlocks used hi).erase b := by
    ext c
    rw [Finset.mem_erase, mem_freeBlocks, mem_freeBlocks]
    constructor
    · rintro ⟨hc, huc⟩
      rw [hu c hc] at huc
      simp only [Bool.or_eq_false_iff, decide_eq_false_iff_not] at huc
      exact ⟨huc.1, hc, huc.2⟩
    rintro ⟨hcb, hc, huc⟩
    refine ⟨hc, ?_⟩
    rw [hu c hc, huc]
    simp [hcb]
  rw [he, Finset.card_erase_add_one (mem_freeBlocks.2 ⟨hb, hub⟩)]

end Xv6
