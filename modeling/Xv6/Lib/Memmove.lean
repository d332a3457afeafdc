import Mathlib.Tactic.Ring
import Xv6.Bytes.Basic
import Xv6.Prog.Update

/-!
# The two `memmove`s

`string.c` copies downwards where the destination overlaps the end of the source, `ulib.c` always
copies upwards.

* `Kernel.memmove_eq` : the kernel's `memmove` moves the bytes, however the ranges overlap.
* `copyUp_of_lt` : upwards into the source the first bytes are repeated.
* `memmove_agree_iff` : **the user library's `memmove` is right iff the bytes that it overwrites too
  early are repetitions anyway**.
-/

namespace Xv6

namespace Lib

/-- The number of addresses. -/
abbrev addrs : ℕ := 2 ^ 32

/-- `while(n-- > 0) *d++ = *s++;` -/
def copyUp : ℕ → ℕ → ℕ → Bytes → Bytes
  | 0, _, _, m => m
  | n + 1, d, s, m => copyUp n ((d + 1) % addrs) ((s + 1) % addrs) (upd m d (m s))

/-- `while(n-- > 0) *--d = *--s;` -/
def copyDown : ℕ → ℕ → ℕ → Bytes → Bytes
  | 0, _, _, m => m
  | n + 1, d, s, m =>
    let d := (d + addrs - 1) % addrs
    let s := (s + addrs - 1) % addrs
    copyDown n d s (upd m d (m s))

/-- `memmove` of `string.c` -/
def Kernel.memmove (dst src n : ℕ) (m : Bytes) : Bytes :=
  if src < dst ∧ dst < (src + n) % addrs then copyDown n ((dst + n) % addrs) ((src + n) % addrs) m
  else copyUp n dst src m

/-- `memmove` of `ulib.c`, whose `n` is an `int` -/
def Ulib.memmove (dst src : ℕ) (n : ℤ) (m : Bytes) : Bytes := copyUp n.toNat dst src m

/-- The bytes from `src` on are at `dst`, and nothing else has changed. -/
def moved (dst src n : ℕ) (m : Bytes) : Bytes := m.copy dst n (m.drop src)

variable {m : Bytes} {n d s i a : ℕ}

/-! ### Upwards -/

theorem copyUp_of_not_mem (hd : d + n ≤ addrs) (ha : a < d ∨ d + n ≤ a) :
    copyUp n d s m a = m a := by
  induction n generalizing d s m with
  | zero => rfl
  | succ n ih =>
    rw [copyUp]
    by_cases hn : n = 0
    · subst hn
      rw [copyUp, upd, if_neg (by omega)]
    · rw [Nat.mod_eq_of_lt (by omega : d + 1 < addrs), ih (by omega) (by omega), upd,
        if_neg (by omega)]

/-- Upwards and to a lower address: no byte is overwritten before it is read. -/
theorem copyUp_of_le (hd : d + n ≤ addrs) (hs : s + n ≤ addrs) (hle : d ≤ s) (hi : i < n) :
    copyUp n d s m (d + i) = m (s + i) := by
  induction n generalizing d s m i with
  | zero => exact absurd hi (Nat.not_lt_zero i)
  | succ n ih =>
    rw [copyUp]
    by_cases hn : n = 0
    · subst hn
      obtain rfl : i = 0 := by omega
      rw [copyUp, upd, if_pos (add_zero d), add_zero]
    rw [Nat.mod_eq_of_lt (by omega : d + 1 < addrs), Nat.mod_eq_of_lt (by omega : s + 1 < addrs)]
    cases i with
    | zero => rw [copyUp_of_not_mem (by omega) (by omega), upd, if_pos (add_zero d),
        add_zero]
    | succ i =>
      rw [show d + (i + 1) = d + 1 + i by omega, ih (by omega) (by omega) (by omega) (by omega),
        upd, if_neg (by omega)]
      congr 1
      omega

/-- Upwards and to a higher address: the bytes before the destination are repeated. -/
theorem copyUp_of_lt (hd : d + n ≤ addrs) (hlt : s < d) (hi : i < n) :
    copyUp n d s m (d + i) = m (s + i % (d - s)) := by
  induction n generalizing d s m i with
  | zero => exact absurd hi (Nat.not_lt_zero i)
  | succ n ih =>
    rw [copyUp]
    by_cases hn : n = 0
    · subst hn
      obtain rfl : i = 0 := by omega
      rw [copyUp, upd, if_pos (add_zero d), Nat.zero_mod, add_zero]
    rw [Nat.mod_eq_of_lt (by omega : d + 1 < addrs), Nat.mod_eq_of_lt (by omega : s + 1 < addrs)]
    cases i with
    | zero =>
      rw [copyUp_of_not_mem (by omega) (by omega), upd, if_pos (add_zero d), Nat.zero_mod,
        add_zero]
    | succ i =>
    have hlt' : i % (d - s) < d - s := Nat.mod_lt _ (by omega)
    rw [show d + (i + 1) = d + 1 + i by omega, ih (by omega) (by omega) (by omega),
      Nat.add_sub_add_right, ← Nat.mod_add_mod i (d - s) 1, upd]
    -- the byte just written is the first one again
    by_cases hlast : i % (d - s) + 1 = d - s
    · rw [if_pos (by omega), hlast, Nat.mod_self, add_zero]
    · rw [if_neg (by omega), Nat.mod_eq_of_lt (by omega : i % (d - s) + 1 < d - s)]
      congr 1
      omega

/-! ### Downwards -/

theorem copyDown_eq (hd : d + n ≤ addrs) (hlt : s < d) :
    copyDown n ((d + n) % addrs) ((s + n) % addrs) m = moved d s n m := by
  induction n generalizing m with
  | zero =>
    funext a
    rw [copyDown, moved, Bytes.copy_of_not_mem (by omega)]
  | succ n ih =>
    have hd' : ((d + (n + 1)) % addrs + addrs - 1) % addrs = (d + n) % addrs := by
      simp only [addrs] at hd ⊢
      omega
    have hs' : ((s + (n + 1)) % addrs + addrs - 1) % addrs = (s + n) % addrs := by
      simp only [addrs] at hd ⊢
      omega
    simp only [copyDown, hd', hs']
    rw [ih (by omega), Nat.mod_eq_of_lt (by omega : d + n < addrs),
      Nat.mod_eq_of_lt (by omega : s + n < addrs)]
    funext a
    simp only [moved, Bytes.copy, Bytes.drop_apply, upd]
    by_cases hlast : a = d + n
    · rw [if_neg (by omega), if_pos hlast, if_pos (by omega), hlast, Nat.add_sub_cancel_left]
    · by_cases ha : d ≤ a ∧ a < d + n
      · rw [if_pos ha, if_neg (by omega), if_pos (by omega)]
      · rw [if_neg ha, if_neg hlast, if_neg (by omega)]

/-! ### The two functions -/

theorem moved_of_mem (hi : i < n) : moved d s n m (d + i) = m (s + i) := by
  rw [moved, Bytes.copy_of_mem (by omega) (by omega), Bytes.drop_apply, Nat.add_sub_cancel_left]

theorem moved_of_not_mem (ha : a < d ∨ d + n ≤ a) : moved d s n m a = m a :=
  Bytes.copy_of_not_mem ha

/-- A loop upwards has moved the bytes iff the ones at the destination are right. -/
theorem copyUp_eq_moved_iff (hd : d + n ≤ addrs) :
    copyUp n d s m = moved d s n m ↔ ∀ i < n, copyUp n d s m (d + i) = m (s + i) := by
  constructor
  · intro h i hi
    rw [h, moved_of_mem hi]
  intro h
  funext a
  by_cases ha : d ≤ a ∧ a < d + n
  · obtain ⟨i, rfl⟩ := Nat.exists_eq_add_of_le ha.1
    rw [h i (by omega), moved_of_mem (by omega)]
  · rw [copyUp_of_not_mem hd (by omega), moved_of_not_mem (by omega)]

/-- The bytes from `s` on repeat after `k`. -/
def Repeats (m : Bytes) (s k n : ℕ) : Prop := ∀ i, k ≤ i → i < n → m (s + i) = m (s + (i - k))

instance (m : Bytes) (s k n : ℕ) : Decidable (Repeats m s k n) :=
  decidable_of_iff (∀ i < n, k ≤ i → m (s + i) = m (s + (i - k)))
    ⟨fun h i hk hi => h i hi hk, fun h i hi hk => h i hk hi⟩

theorem repeats_iff {k : ℕ} (hk : 0 < k) :
    Repeats m s k n ↔ ∀ i < n, m (s + i % k) = m (s + i) := by
  constructor
  · intro h i hi
    induction i using Nat.strongRecOn with
    | ind i ih =>
      by_cases hik : i < k
      · rw [Nat.mod_eq_of_lt hik]
      · rw [h i (by omega) hi, ← ih (i - k) (by omega) (by omega), ← Nat.mod_eq_sub_mod (by omega)]
  · intro h i hki hi
    rw [← h i hi, ← h (i - k) (by omega), ← Nat.mod_eq_sub_mod hki]

theorem Kernel.memmove_eq (hd : d + n ≤ addrs) (hs : s + n ≤ addrs) :
    Kernel.memmove d s n m = moved d s n m := by
  unfold Kernel.memmove
  by_cases hlt : s < d
  · rw [Nat.mod_eq_of_lt (by omega : s + n < addrs)]
    by_cases hover : d < s + n
    · rw [if_pos ⟨hlt, hover⟩, ← copyDown_eq hd hlt, Nat.mod_eq_of_lt (by omega : s + n < addrs)]
    · rw [if_neg (by omega), copyUp_eq_moved_iff hd]
      intro i hi
      rw [copyUp_of_lt hd hlt hi, Nat.mod_eq_of_lt (by omega)]
  · rw [if_neg (by omega), copyUp_eq_moved_iff hd]
    exact fun i hi => copyUp_of_le hd hs (by omega) hi

/-- **When the two `memmove`s agree.**  The kernel's moves the bytes.  The user library's does so
iff the destination is not inside the source above its start, or the source repeats itself at the
distance of the two. -/
theorem memmove_agree_iff (m : Bytes) {dst src n : ℕ} (hd : dst + n ≤ addrs)
    (hs : src + n ≤ addrs) :
    Kernel.memmove dst src n m = moved dst src n m ∧
    (Ulib.memmove dst src n m = Kernel.memmove dst src n m ↔
      dst ≤ src ∨ src + n ≤ dst ∨ Repeats m src (dst - src) n) := by
  refine ⟨Kernel.memmove_eq hd hs, ?_⟩
  rw [Kernel.memmove_eq hd hs, Ulib.memmove, Int.toNat_natCast, copyUp_eq_moved_iff hd]
  by_cases hlt : src < dst
  · constructor
    · intro h
      refine .inr (.inr ((repeats_iff (by omega)).2 fun i hi => ?_))
      exact (copyUp_of_lt hd hlt hi).symm.trans (h i hi)
    rintro (hle | hle | hrep) i hi
    · omega
    · rw [copyUp_of_lt hd hlt hi, Nat.mod_eq_of_lt (by omega)]
    · rw [copyUp_of_lt hd hlt hi, (repeats_iff (by omega)).1 hrep i hi]
  · exact iff_of_true (fun i hi => copyUp_of_le hd hs (by omega) hi) (.inl (by omega))

/-- Three bytes moved up by one. -/
theorem memmove_agree_iff_three : Kernel.memmove 1 0 3 (fun a => if a = 0 then 7 else 5) =
    moved 1 0 3 (fun a => if a = 0 then 7 else 5) ∧
    ¬ Repeats (fun a => if a = 0 then 7 else 5) 0 (1 - 0) 3 ∧
    Ulib.memmove 1 0 3 (fun a => if a = 0 then 7 else 5) ≠ Kernel.memmove 1 0 3
    (fun a => if a = 0 then 7 else 5) := by
  have h := @memmove_agree_iff (fun a => if a = 0 then 7 else 5) 1 0 3 (by decide) (by decide)
  have hno : ¬ Repeats (fun a => if a = 0 then 7 else 5) 0 (1 - 0) 3 := by decide
  refine ⟨h.1, hno, fun heq => ?_⟩
  rcases h.2.1 heq with h | h | h
  · omega
  · omega
  · exact hno h

/-- The user library's `memmove` overwrites the source: the second byte of the destination should be
the 5 of address 1. -/
theorem ulib_memmove_overlap : Ulib.memmove 1 0 2 (fun a => if a = 0 then 7 else 5) 2 = 7 ∧
    moved 1 0 2 (fun a => if a = 0 then 7 else 5) 2 = 5 := by decide

end Lib

end Xv6
