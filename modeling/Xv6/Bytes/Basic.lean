import Mathlib.Data.UInt
import Mathlib.Tactic.Ring
import Mathlib.Tactic.SplitIfs

/-!
# Byte buffers and little-endian numbers

A buffer is a function from offsets to bytes; code that owns a buffer of `n` bytes only reads
and writes offsets below `n`.  Two operations are enough for everything stored in one:

* `Bytes.copy d off m src` overwrites the `m` bytes at `off` with the first `m` bytes of `src`;
* `Bytes.getLE n d off` reads the `n`-byte little-endian number at `off`.

A number is stored by copying its digits `Bytes.le v` (`Bytes.putLE`).  Reading back what was
stored (`getLE_putLE`), and reading past what was stored (`getLE_copy_of_disjoint`), are the two
laws every record format laid out in a buffer is checked with.
-/

namespace Xv6

/-- A buffer of bytes, indexed by offset. -/
abbrev Bytes := ℕ → UInt8

namespace Bytes

/-- Overwrite the `m` bytes at `off` with the first `m` bytes of `src`. -/
def copy (d : Bytes) (off m : ℕ) (src : Bytes) : Bytes :=
  fun i => if off ≤ i ∧ i < off + m then src (i - off) else d i

/-- The bytes of `d` from `off` on. -/
def drop (d : Bytes) (off : ℕ) : Bytes := fun i => d (off + i)

/-- The buffer of zeros. -/
def zero : Bytes := fun _ => 0

/-- The little-endian digits of `v`. -/
def le (v : ℕ) : Bytes := fun i => UInt8.ofNat (v / 256 ^ i)

/-- The `n`-byte little-endian number at offset `off`. -/
def getLE : ℕ → Bytes → ℕ → ℕ
  | 0, _, _ => 0
  | n + 1, d, off => (d off).toNat + 256 * getLE n d (off + 1)

/-- Store `v` as an `n`-byte little-endian number at offset `off`. -/
def putLE (n : ℕ) (d : Bytes) (off v : ℕ) : Bytes := d.copy off n (le v)

variable {d d' src : Bytes} {off m n i v : ℕ}

theorem copy_of_mem (h : off ≤ i) (h' : i < off + m) : d.copy off m src i = src (i - off) := by
  simp only [copy, h, h', and_self, ↓reduceIte]

theorem copy_of_not_mem (h : i < off ∨ off + m ≤ i) : d.copy off m src i = d i := by
  have hn : ¬ (off ≤ i ∧ i < off + m) := by omega
  simp only [copy, hn, ↓reduceIte]

@[simp] theorem zero_apply : zero i = 0 := rfl

@[simp] theorem drop_apply : d.drop off i = d (off + i) := rfl

theorem getLE_congr (h : ∀ i, off ≤ i → i < off + n → d i = d' i) :
    getLE n d off = getLE n d' off := by
  induction n generalizing off with
  | zero => rfl
  | succ n ih =>
    rw [getLE, getLE, h off le_rfl (by omega), ih fun i h1 h2 => h i (by omega) (by omega)]

theorem getLE_lt : getLE n d off < 256 ^ n := by
  induction n generalizing off with
  | zero => simp [getLE]
  | succ n ih =>
    have h1 := (d off).toNat_lt
    have h2 : getLE n d (off + 1) < 256 ^ n := ih
    rw [getLE, pow_succ]
    omega

theorem getLE_drop : getLE n (d.drop off) i = getLE n d (off + i) := by
  induction n generalizing i with
  | zero => rfl
  | succ n ih => rw [getLE, getLE, ih, drop_apply, add_assoc]

@[simp] theorem getLE_zero : getLE n zero off = 0 := by
  induction n generalizing off with
  | zero => rfl
  | succ n ih => simp [getLE, ih]

theorem getLE_le (j : ℕ) : getLE n (le v) j = v / 256 ^ j % 256 ^ n := by
  induction n generalizing j with
  | zero => simp [getLE, Nat.mod_one]
  | succ n ih =>
    have hd : v / 256 ^ (j + 1) = v / 256 ^ j / 256 := by
      rw [pow_succ, Nat.div_div_eq_div_mul]
    rw [getLE, ih, hd, pow_succ, mul_comm (256 ^ n) 256, Nat.mod_mul]
    simp [le]

theorem getLE_copy_of_disjoint (h : i + n ≤ off ∨ off + m ≤ i) :
    getLE n (d.copy off m src) i = getLE n d i :=
  getLE_congr fun j h1 h2 => copy_of_not_mem (by omega)

/-- Bytes inside the copied range are those of the source. -/
theorem getLE_copy_of_mem (h : off ≤ i) (h' : i + n ≤ off + m) :
    getLE n (d.copy off m src) i = getLE n src (i - off) := by
  have hi : getLE n src (i - off) = getLE n (fun j => src (j - off)) i := by
    clear h'
    induction n generalizing i with
    | zero => rfl
    | succ n ih =>
      rw [getLE, getLE, ← ih (i := i + 1) (by omega), Nat.sub_add_comm h]
  rw [hi]
  exact getLE_congr fun j h1 h2 => copy_of_mem (by omega) (by omega)

theorem getLE_putLE : getLE n (putLE n d off v) off = v % 256 ^ n := by
  rw [putLE, getLE_copy_of_mem le_rfl le_rfl, Nat.sub_self, getLE_le, pow_zero, Nat.div_one]

theorem getLE_putLE_of_disjoint {k : ℕ} (h : i + k ≤ off ∨ off + n ≤ i) :
    getLE k (putLE n d off v) i = getLE k d i :=
  getLE_copy_of_disjoint h

end Bytes

end Xv6
