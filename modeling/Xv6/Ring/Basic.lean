import Mathlib.Data.List.Basic
import Mathlib.Data.Nat.ModEq
import Mathlib.Tactic.SplitIfs
import Xv6.Prog.Update

/-!
# Ring buffers with free-running counters

A ring buffer of `cap` cells keeps two counters that only ever grow, modulo the size `M` of the
machine word: `rd` elements have been taken out, `wr` have been put in.  Cell `i % cap` holds
element number `i`, which is meaningful across the wrap of the counters because `cap` divides `M`.

* `Ring.used` : the difference of the counters, as unsigned subtraction computes it.
* `Ring.contents` : the elements in the buffer, oldest first.
* `Ring.contents_push`, `Ring.contents_pop` : **the buffer is a queue.**
* `Ring.Ok.full_iff`, `Ring.Ok.empty_iff` : comparing the counters tests for a full or an empty
  buffer.
-/

namespace Xv6

/-- The cells and the two counters of a ring buffer. -/
structure Ring (α : Type*) where
  data : ℕ → α
  /-- The number of elements taken out, modulo the word size. -/
  rd : ℕ
  /-- The number of elements put in, modulo the word size. -/
  wr : ℕ

namespace Ring

variable {α : Type*} (M cap : ℕ)

/-- `wr - rd` in unsigned arithmetic. -/
def used (r : Ring α) : ℕ := (r.wr + (M - r.rd)) % M

/-- Put `x` in at the end. -/
def push (r : Ring α) (x : α) : Ring α :=
  ⟨upd r.data (r.wr % cap) x, r.rd, (r.wr + 1) % M⟩

/-- The oldest element. -/
def front (r : Ring α) : α := r.data (r.rd % cap)

/-- Drop the oldest element. -/
def pop (r : Ring α) : Ring α := { r with rd := (r.rd + 1) % M }

/-- Take the newest element out again. -/
def unpush (r : Ring α) : Ring α := { r with wr := (r.wr + M - 1) % M }

/-- The newest element. -/
def last (r : Ring α) : α := r.data ((r.wr + M - 1) % M % cap)

/-- The elements in the buffer, oldest first. -/
def contents (r : Ring α) : List α :=
  (List.range (r.used M)).map fun k => r.data ((r.rd + k) % cap)

/-- The counters are words that differ by at most the capacity. -/
structure Ok (r : Ring α) : Prop where
  rd_lt : r.rd < M
  wr_lt : r.wr < M
  used_le : r.used M ≤ cap

variable {M cap} {r : Ring α} {x : α}

@[simp] theorem length_contents : (r.contents M cap).length = r.used M := by simp [contents]

namespace Ok

theorem used_eq (h : r.Ok M cap) :
    r.used M = if r.rd ≤ r.wr then r.wr - r.rd else r.wr + M - r.rd := by
  obtain ⟨h1, h2, -⟩ := h
  unfold used
  split_ifs with hle
  · rw [show r.wr + (M - r.rd) = r.wr - r.rd + M by omega, Nat.add_mod_right]
    exact Nat.mod_eq_of_lt (by omega)
  · rw [Nat.mod_eq_of_lt (by omega)]
    omega

/-- The reader has caught up with the writer exactly if the buffer is empty. -/
theorem empty_iff (h : r.Ok M cap) : r.rd = r.wr ↔ r.used M = 0 := by
  have := h.rd_lt
  have := h.wr_lt
  rw [h.used_eq]
  split_ifs <;> omega

/-- The writer is a whole capacity ahead of the reader exactly if the buffer is full. -/
theorem full_iff (h : r.Ok M cap) (hM : cap < M) :
    r.wr = (r.rd + cap) % M ↔ r.used M = cap := by
  have h1 := h.rd_lt
  have h2 := h.wr_lt
  have hmod : (r.rd + cap) % M = if r.rd + cap < M then r.rd + cap else r.rd + cap - M := by
    split_ifs with hlt
    · exact Nat.mod_eq_of_lt hlt
    · rw [Nat.mod_eq_sub_mod (by omega), Nat.mod_eq_of_lt (by omega)]
  rw [h.used_eq, hmod]
  split_ifs <;> omega

end Ok

theorem succ_mod {i : ℕ} (h : i < M) : (i + 1) % M = if i + 1 = M then 0 else i + 1 := by
  split_ifs with he
  · rw [he, Nat.mod_self]
  · exact Nat.mod_eq_of_lt (by omega)

namespace Ok

theorem used_push (h : r.Ok M cap) (hM : cap < M) (hlt : r.used M < cap) :
    (r.push M cap x).used M = r.used M + 1 := by
  have h1 := h.rd_lt
  have h2 := h.wr_lt
  rw [h.used_eq] at hlt ⊢
  simp only [used, push, succ_mod h2]
  split_ifs at hlt ⊢
  all_goals first
    | rw [show r.wr + 1 + (M - r.rd) = r.wr - r.rd + 1 + M by omega, Nat.add_mod_right,
        Nat.mod_eq_of_lt (by omega)]
    | (rw [Nat.mod_eq_of_lt (by omega)]; omega)

theorem used_pop (h : r.Ok M cap) (hpos : 0 < r.used M) :
    (r.pop M).used M + 1 = r.used M := by
  have h1 := h.rd_lt
  have h2 := h.wr_lt
  rw [h.used_eq] at hpos ⊢
  simp only [used, pop, succ_mod h1]
  split_ifs at hpos ⊢
  all_goals first
    | (rw [show r.wr + (M - (r.rd + 1)) = r.wr - r.rd - 1 + M by omega, Nat.add_mod_right,
        Nat.mod_eq_of_lt (by omega)]; omega)
    | (rw [Nat.sub_zero, Nat.add_mod_right, Nat.mod_eq_of_lt (by omega)]; omega)
    | (rw [Nat.mod_eq_of_lt (by omega)]; omega)

theorem used_unpush (h : r.Ok M cap) (hpos : 0 < r.used M) :
    (r.unpush M).used M + 1 = r.used M := by
  have h1 := h.rd_lt
  have h2 := h.wr_lt
  have hpred : (r.wr + M - 1) % M = if r.wr = 0 then M - 1 else r.wr - 1 := by
    split_ifs with h0
    · rw [h0, zero_add, Nat.mod_eq_of_lt (by omega)]
    · rw [show r.wr + M - 1 = r.wr - 1 + M by omega, Nat.add_mod_right, Nat.mod_eq_of_lt (by omega)]
  rw [h.used_eq] at hpos ⊢
  simp only [used, unpush, hpred]
  split_ifs at hpos ⊢
  all_goals first
    | (rw [show M - 1 + (M - r.rd) = M - 1 - r.rd + M by omega, Nat.add_mod_right,
        Nat.mod_eq_of_lt (by omega)]; omega)
    | (rw [show r.wr - 1 + (M - r.rd) = r.wr - 1 - r.rd + M by omega, Nat.add_mod_right,
        Nat.mod_eq_of_lt (by omega)]; omega)
    | (rw [Nat.mod_eq_of_lt (by omega)]; omega)

theorem push (h : r.Ok M cap) (hM : cap < M) (hlt : r.used M < cap) : (r.push M cap x).Ok M cap :=
  ⟨h.rd_lt, Nat.mod_lt _ (by omega), by rw [h.used_push hM hlt]; omega⟩

theorem pop (h : r.Ok M cap) (hpos : 0 < r.used M) : (r.pop M).Ok M cap := by
  have := h.used_pop hpos
  have := h.used_le
  exact ⟨Nat.mod_lt _ (by have := h.rd_lt; omega), h.wr_lt, by omega⟩

theorem unpush (h : r.Ok M cap) (hpos : 0 < r.used M) : (r.unpush M).Ok M cap := by
  have := h.used_unpush hpos
  have := h.used_le
  exact ⟨h.rd_lt, Nat.mod_lt _ (by have := h.rd_lt; omega), by omega⟩

end Ok

theorem Ok.wr_mod (h : r.Ok M cap) (hd : cap ∣ M) : r.wr % cap = (r.rd + r.used M) % cap := by
  obtain ⟨k, rfl⟩ := hd
  have h1 := h.rd_lt
  rw [h.used_eq]
  split_ifs with hle
  · rw [Nat.add_sub_cancel' hle]
  · rw [show r.rd + (r.wr + cap * k - r.rd) = r.wr + cap * k by omega, Nat.add_mul_mod_self_left]

/-- **Putting an element in** appends it to the contents. -/
theorem contents_push (h : r.Ok M cap) (hM : cap < M) (hd : cap ∣ M) (hlt : r.used M < cap) :
    (r.push M cap x).contents M cap = r.contents M cap ++ [x] := by
  unfold contents
  rw [h.used_push hM hlt, List.range_succ, List.map_append]
  congr 1
  · -- the cells in use are not the one that is written
    refine List.map_congr_left fun k hk => ?_
    have hk := List.mem_range.1 hk
    simp only [push, upd, h.wr_mod hd]
    refine if_neg fun he => ?_
    have := Nat.ModEq.add_left_cancel' r.rd he
    rw [Nat.ModEq, Nat.mod_eq_of_lt (by omega), Nat.mod_eq_of_lt hlt] at this
    omega
  · simp [push, h.wr_mod hd]

/-- **Taking an element out** removes the head of the contents. -/
theorem contents_pop (h : r.Ok M cap) (hd : cap ∣ M) (hpos : 0 < r.used M) :
    r.contents M cap = r.front cap :: (r.pop M).contents M cap := by
  unfold contents
  rw [← h.used_pop hpos, List.range_succ_eq_map, List.map_cons, List.map_map]
  congr 1
  refine List.map_congr_left fun k _ => ?_
  simp only [Function.comp_apply, pop]
  congr 1
  rw [Nat.add_mod ((r.rd + 1) % M), Nat.mod_mod_of_dvd _ hd, ← Nat.add_mod]
  congr 1
  omega

/-- **Taking the newest element out** removes the last one of the contents. -/
theorem contents_unpush (h : r.Ok M cap) (hd : cap ∣ M) (hpos : 0 < r.used M) :
    r.contents M cap = (r.unpush M).contents M cap ++ [r.last M cap] := by
  have hwr := (h.unpush hpos).wr_mod hd
  unfold contents
  rw [← h.used_unpush hpos, List.range_succ, List.map_append, List.map_singleton]
  congr 2
  exact congrArg r.data hwr.symm

end Ring

end Xv6
