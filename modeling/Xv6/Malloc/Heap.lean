import Mathlib.Data.List.Nodup
import Xv6.Malloc.Model

/-!
# The invariant of the heap

The free blocks are a list, linked from `base` on in the order of their addresses and back to
`base`, with something between any two of them (`Inv.gap`).  Free and live blocks are apart from
each other, and together they are what `sbrk` has returned (`Inv.cover`).

* `free_spec` : **`free` keeps the invariant**: the block is put between the ones below and above it
  and joined to them.
* `take_all`, `take_tail` : a free block, or its upper part, becomes a live block.

All of them write to headers of free blocks only, so live blocks keep their contents.  The search of
`free` starts at `freep`, anywhere in the circle: it is cut there, and the two parts are walked one
after the other.
-/

namespace Xv6

open List

namespace Malloc

/-- A block: its address and its size in units. -/
structure Block where
  addr : ℕ
  units : ℕ
  deriving DecidableEq

/-- The first address after the block. -/
def Block.stop (x : Block) : ℕ := x.addr + headerSize * x.units

/-- The blocks do not overlap. -/
def Apart (x y : Block) : Prop := x.stop ≤ y.addr ∨ y.stop ≤ x.addr

/-- Address `a` is in one of the blocks. -/
def Covers (l : List Block) (a : ℕ) : Prop := ∃ x ∈ l, x.addr ≤ a ∧ a < x.stop

/-- The address of the first block of `l`, or `z`. -/
def first (l : List Block) (z : ℕ) : ℕ :=
  match l with
  | [] => z
  | x :: _ => x.addr

/-- The blocks of `l` are linked one to the next, and the last one to `z`. -/
def Links (m : Bytes) (z : ℕ) : List Block → Prop
  | [] => True
  | x :: l => ptr m x.addr = first l z ∧ Links m z l

/-- The static header. -/
def baseBlock (base : ℕ) : Block := ⟨base, 0⟩

/-- Where the free blocks `fs` and the live blocks `live` are, in memory that ends at `brk`. -/
structure Layout (base brk : ℕ) (regions : List (ℕ × ℕ)) (fs live : List Block) : Prop where
  base_pos : 0 < base
  range : base + headerSize ≤ brk ∧ brk < uintSize
  pos : ∀ x ∈ fs ++ live, 0 < x.units
  low : ∀ x ∈ fs ++ live, base + headerSize ≤ x.addr
  high : ∀ x ∈ fs ++ live, x.stop ≤ brk
  /-- The free blocks are sorted, and there is something between any two of them. -/
  gap : fs.Pairwise fun x y => x.stop < y.addr
  apart : live.Pairwise Apart
  apart_free : ∀ x ∈ fs, ∀ y ∈ live, Apart x y
  cover : ∀ a, Covers (fs ++ live) a ↔ ∃ r ∈ regions, r.1 ≤ a ∧ a < r.1 + r.2

/-- The invariant: the free blocks are linked from `base` on and back to it. -/
structure Inv (base : ℕ) (h : Heap) (fs live : List Block) : Prop where
  layout : Layout base h.brk h.regions fs live
  links : Links h.mem base (baseBlock base :: fs)
  sizes : ∀ x ∈ baseBlock base :: (fs ++ live), size h.mem x.addr = x.units
  freep : ∃ x ∈ baseBlock base :: fs, x.addr = h.freep

/-! ### Headers -/

variable {m m' m'' : Bytes} {p q v n base brk z : ℕ} {x y : Block}
  {A D fs live l l' l₁ l₂ : List Block} {regions : List (ℕ × ℕ)} {h : Heap}

/-- Only the header at `p` has changed. -/
def SameBut (m m' : Bytes) (p : ℕ) : Prop := ∀ a, ¬ (p ≤ a ∧ a < p + headerSize) → m' a = m a

theorem sameBut_setPtr : SameBut m (setPtr m p v) p := fun a ha => by
  simp only [headerSize] at ha
  exact Bytes.copy_of_not_mem (by omega)

theorem sameBut_setSize : SameBut m (setSize m p v) p := fun a ha => by
  simp only [headerSize] at ha
  exact Bytes.copy_of_not_mem (by omega)

theorem SameBut.trans (h : SameBut m m' p) (h' : SameBut m' m'' p) : SameBut m m'' p :=
  fun a ha => (h' a ha).trans (h a ha)

/-- The headers at `p` and `q` are apart. -/
def Away (p q : ℕ) : Prop := p + headerSize ≤ q ∨ q + headerSize ≤ p

theorem SameBut.ptr (h : SameBut m m' p) (hq : Away p q) : ptr m' q = ptr m q :=
  Bytes.getLE_congr fun a h1 h2 => h a (by simp only [Away, headerSize] at *; omega)

theorem SameBut.size (h : SameBut m m' p) (hq : Away p q) : size m' q = size m q :=
  Bytes.getLE_congr fun a h1 h2 => h a (by simp only [Away, headerSize] at *; omega)

@[simp] theorem ptr_setPtr (hv : v < uintSize) : ptr (setPtr m p v) p = v :=
  Bytes.getLE_putLE.trans (Nat.mod_eq_of_lt hv)

@[simp] theorem size_setSize (hv : v < uintSize) : size (setSize m p v) p = v :=
  Bytes.getLE_putLE.trans (Nat.mod_eq_of_lt hv)

@[simp] theorem size_setPtr : size (setPtr m p v) p = size m p :=
  Bytes.getLE_putLE_of_disjoint (by omega)

@[simp] theorem ptr_setSize : ptr (setSize m p v) p = ptr m p :=
  Bytes.getLE_putLE_of_disjoint (by omega)

theorem ptr_lt : ptr m p < uintSize := Bytes.getLE_lt

/-! ### Linked blocks -/

@[simp] theorem first_nil : first [] z = z := rfl

@[simp] theorem first_cons : first (x :: l) z = x.addr := rfl

theorem first_append : first (l ++ l') z = first l (first l' z) := by
  cases l <;> rfl

theorem links_append : Links m z (l ++ l') ↔ Links m (first l' z) l ∧ Links m z l' := by
  induction l with
  | nil => simp [Links]
  | cons x l ih => simp [Links, ih, first_append, and_assoc]

theorem Links.congr (hl : Links m z l) (hp : ∀ x ∈ l, ptr m' x.addr = ptr m x.addr) :
    Links m' z l := by
  induction l with
  | nil => trivial
  | cons x l ih => exact ⟨(hp x (by simp)).trans hl.1, ih hl.2 fun y hy => hp y (by simp [hy])⟩

theorem covers_cons {a : ℕ} : Covers (x :: l) a ↔ (x.addr ≤ a ∧ a < x.stop) ∨ Covers l a := by
  simp [Covers]

section Middle

variable {l₁ l₂ live : List Block} {c : Block} {a : ℕ}

theorem mem_middle : x ∈ l₁ ++ c :: l₂ ↔ x ∈ l₁ ++ l₂ ∨ x = c := by
  rw [perm_middle.mem_iff, mem_cons, or_comm]

theorem move_perm : (l₁ ++ c :: l₂ ++ live).Perm (l₁ ++ l₂ ++ c :: live) :=
  (perm_middle.append_right live).trans perm_middle.symm

theorem covers_perm (h : l.Perm l') : Covers l a ↔ Covers l' a := by
  simp only [Covers, h.mem_iff]

theorem covers_middle : Covers (l₁ ++ c :: l₂) a ↔ (c.addr ≤ a ∧ a < c.stop) ∨
    Covers (l₁ ++ l₂) a :=
  (covers_perm perm_middle).trans covers_cons

end Middle

theorem Apart.symm (h : Apart x y) : Apart y x := Or.symm h

/-! ### Where the blocks are -/

namespace Layout

section Basic

variable (hL : Layout base brk regions fs live)
include hL

theorem sorted : (baseBlock base :: fs).Pairwise fun x y => x.stop < y.addr := by
  refine pairwise_cons.2 ⟨fun y hy => ?_, hL.gap⟩
  have := hL.low y (by simp [hy])
  simp only [Block.stop, baseBlock, headerSize] at *
  omega

theorem header (hx : x ∈ fs ++ live) : x.addr + headerSize ≤ x.stop := by
  have := hL.pos x hx
  simp only [Block.stop, headerSize]
  omega

theorem addr_lt (hx : x ∈ baseBlock base :: (fs ++ live)) : x.addr < uintSize := by
  have := hL.range
  rcases mem_cons.1 hx with rfl | hx
  · simp only [baseBlock, headerSize] at *
    omega
  have := hL.high x hx
  have := hL.header hx
  simp only [headerSize] at *
  omega

/-- The headers of the circle are away from the live ones. -/
theorem away_live (hx : x ∈ baseBlock base :: fs) (hy : y ∈ live) : Away x.addr y.addr := by
  have hy' := hL.header (x := y) (by simp [hy])
  rcases mem_cons.1 hx with rfl | hx
  · exact .inl (hL.low y (by simp [hy]))
  · have := hL.header (x := x) (by simp [hx])
    exact (hL.apart_free x hx y hy).imp (by omega) (by omega)

/-- The headers of the circle are away from each other. -/
theorem away_sorted : (baseBlock base :: fs).Pairwise fun x y => Away x.addr y.addr := by
  refine pairwise_cons.2
    ⟨fun y hy => .inl (hL.low y (by simp [hy])), hL.gap.imp_of_mem fun {x y} hx hy hxy => ?_⟩
  have := hL.header (x := x) (by simp [hx])
  exact .inl (by omega)

end Basic

variable {B c : Block}

theorem covers_join {a : ℕ} (hc : B.stop = c.addr) :
    (⟨B.addr, B.units + c.units⟩ : Block).addr ≤ a ∧
    a < (⟨B.addr, B.units + c.units⟩ : Block).stop ↔
      B.addr ≤ a ∧ a < B.stop ∨ c.addr ≤ a ∧ a < c.stop := by
  simp only [Block.stop, headerSize] at *
  omega

theorem apart_join (hc : B.stop = c.addr) (hy : 0 < y.units) (hB : Apart B y) (hcy : Apart c y) :
    Apart ⟨B.addr, B.units + c.units⟩ y := by
  simp only [Apart, Block.stop, headerSize] at *
  omega

theorem gap_apart (hgap : (l₁ ++ c :: l₂).Pairwise fun x y => x.stop < y.addr) (hx : x ∈ l₁ ++ l₂) :
    Apart c x := by
  obtain ⟨-, h2, h3⟩ := pairwise_append.1 hgap
  rcases mem_append.1 hx with hx | hx
  · exact .inr (h3 x hx c (by simp)).le
  · exact .inl ((pairwise_cons.1 h2).1 x hx).le

theorem up (hL : Layout base brk regions (l₁ ++ c :: l₂) (B :: live)) (hc : B.stop = c.addr) :
    Layout base brk regions (l₁ ++ l₂) (⟨B.addr, B.units + c.units⟩ :: live) := by
  have hmem : ∀ x ∈ l₁ ++ l₂ ++ live, x ∈ l₁ ++ c :: l₂ ++ B :: live := fun x hx =>
    (((sublist_cons_self c l₂).append_left l₁).append (sublist_cons_self B live)).subset hx
  have hB : B ∈ l₁ ++ c :: l₂ ++ B :: live := by simp
  have hc' : c ∈ l₁ ++ c :: l₂ ++ B :: live := by simp
  have hsplit : ∀ x ∈ l₁ ++ l₂ ++ ⟨B.addr, B.units + c.units⟩ :: live,
      x ∈ l₁ ++ l₂ ++ live ∨ x = ⟨B.addr, B.units + c.units⟩ := fun x hx => mem_middle.1 hx
  obtain ⟨hBlive, hlive⟩ := pairwise_cons.1 hL.apart
  refine ⟨hL.base_pos, hL.range, fun x hx => ?_, fun x hx => ?_, fun x hx => ?_, ?_, ?_,
    fun x hx y hy => ?_, fun a => ?_⟩
  · rcases hsplit x hx with hx | rfl
    · exact hL.pos x (hmem x hx)
    · exact Nat.add_pos_left (hL.pos B hB) _
  · rcases hsplit x hx with hx | rfl
    · exact hL.low x (hmem x hx)
    · exact hL.low B hB
  · rcases hsplit x hx with hx | rfl
    · exact hL.high x (hmem x hx)
    · have := hL.high c hc'
      simp only [Block.stop, headerSize] at *
      omega
  · exact hL.gap.sublist ((sublist_cons_self c l₂).append_left l₁)
  · refine pairwise_cons.2 ⟨fun y hy => ?_, hlive⟩
    exact apart_join hc (hL.pos y (by simp [hy])) (hBlive y hy)
      (hL.apart_free c (by simp) y (by simp [hy]))
  · have hxf : x ∈ l₁ ++ c :: l₂ := mem_middle.2 (.inl hx)
    rcases mem_cons.1 hy with rfl | hy
    · exact (apart_join hc (hL.pos x (hmem x (mem_append_left _ hx)))
        (hL.apart_free x hxf B (by simp)).symm (gap_apart hL.gap hx)).symm
    · exact hL.apart_free x hxf y (by simp [hy])
  · rw [← hL.cover a, covers_middle, covers_join hc, covers_middle, covers_perm move_perm,
      covers_middle, or_assoc]

theorem perm {live' : List Block} (hL : Layout base brk regions fs live) (hp : live.Perm live') :
    Layout base brk regions fs live' := by
  have hmem : ∀ x, x ∈ fs ++ live' ↔ x ∈ fs ++ live := fun x => by simp [hp.mem_iff]
  refine ⟨hL.base_pos, hL.range, fun x hx => hL.pos x ((hmem x).1 hx), fun x hx =>
    hL.low x ((hmem x).1 hx), fun x hx => hL.high x ((hmem x).1 hx), hL.gap,
    hp.pairwise hL.apart Apart.symm, fun x hx y hy => hL.apart_free x hx y (hp.mem_iff.2 hy),
    fun a => ?_⟩
  rw [← hL.cover a]
  simp only [Covers, hmem]

theorem insert (hL : Layout base brk regions (l₁ ++ l₂) (B :: live))
    (hbelow : ∀ y ∈ l₁, y.stop < B.addr) (habove : ∀ y ∈ l₂, B.stop < y.addr) :
    Layout base brk regions (l₁ ++ B :: l₂) live := by
  have hmem : ∀ x ∈ l₁ ++ B :: l₂ ++ live, x ∈ l₁ ++ l₂ ++ B :: live :=
    fun x hx => move_perm.subset hx
  obtain ⟨hBlive, hlive⟩ := pairwise_cons.1 hL.apart
  refine ⟨hL.base_pos, hL.range, fun x hx => hL.pos x (hmem x hx), fun x hx => hL.low x (hmem x hx),
    fun x hx => hL.high x (hmem x hx), ?_, hlive, fun x hx y hy => ?_, fun a => ?_⟩
  · obtain ⟨h1, h2, h3⟩ := pairwise_append.1 hL.gap
    refine pairwise_append.2 ⟨h1, pairwise_cons.2 ⟨habove, h2⟩, fun x hx y hy => ?_⟩
    rcases mem_cons.1 hy with rfl | hy
    · exact hbelow x hx
    · exact h3 x hx y hy
  · rcases mem_middle.1 hx with hx | rfl
    · exact hL.apart_free x hx y (by simp [hy])
    · exact hBlive y hy
  · rw [← hL.cover a, covers_perm move_perm]

theorem remove (hL : Layout base brk regions (l₁ ++ B :: l₂) live) :
    Layout base brk regions (l₁ ++ l₂) (B :: live) := by
  have hmem : ∀ x ∈ l₁ ++ l₂ ++ B :: live, x ∈ l₁ ++ B :: l₂ ++ live :=
    fun x hx => move_perm.symm.subset hx
  refine ⟨hL.base_pos, hL.range, fun x hx => hL.pos x (hmem x hx), fun x hx => hL.low x (hmem x hx),
    fun x hx => hL.high x (hmem x hx),
    hL.gap.sublist ((sublist_cons_self B l₂).append_left l₁), pairwise_cons.2
    ⟨fun y hy => hL.apart_free B (by simp) y hy, hL.apart⟩, fun x hx y hy => ?_, fun a => ?_⟩
  · rcases mem_cons.1 hy with rfl | hy
    · exact (gap_apart hL.gap hx).symm
    · exact hL.apart_free x (mem_middle.2 (.inl hx)) y hy
  · rw [← hL.cover a, covers_perm move_perm]

theorem down (hL : Layout base brk regions (l₁ ++ c :: l₂) (B :: live)) (hc : c.stop = B.addr)
    (hgap : ∀ y ∈ l₂, B.stop < y.addr) :
    Layout base brk regions (l₁ ++ ⟨c.addr, c.units + B.units⟩ :: l₂) live := by
  -- The free block becomes live, takes in the other one, and becomes free again.
  have hpos := hL.pos B (by simp)
  obtain ⟨h1, h2, h3⟩ := pairwise_append.1 hL.gap
  have hins : Layout base brk regions (l₁ ++ B :: l₂) (c :: live) := by
    have hr := hL.remove.perm (List.Perm.swap B c live)
    refine hr.insert (fun y hy => ?_) hgap
    have := h3 y hy c (by simp)
    simp only [Block.stop, headerSize] at *
    omega
  refine Layout.insert (hins.up hc) (fun y hy => h3 y hy c (by simp)) fun y hy => ?_
  have := hgap y hy
  simp only [Block.stop, headerSize] at *
  omega

/-- The upper part of a free block becomes a live block. -/
theorem split {nu : ℕ} (hL : Layout base brk regions (l₁ ++ B :: l₂) live) (hpos : 0 < nu)
    (hlt : nu < B.units) :
    Layout base brk regions (l₁ ++ ⟨B.addr, B.units - nu⟩ :: l₂)
      (⟨B.addr + headerSize * (B.units - nu), nu⟩ :: live) := by
  have hB : B ∈ l₁ ++ B :: l₂ ++ live := by simp
  have hold : ∀ x ∈ l₁ ++ l₂ ++ live, x ∈ l₁ ++ B :: l₂ ++ live := fun x hx =>
    (((sublist_cons_self B l₂).append_left l₁).append_right live).subset hx
  have hsplit :
    ∀ x ∈ l₁ ++ ⟨B.addr, B.units - nu⟩ :: l₂ ++ ⟨B.addr + headerSize * (B.units - nu), nu⟩ :: live,
      x ∈ l₁ ++ l₂ ++ live ∨ x = ⟨B.addr, B.units - nu⟩ ∨
      x = ⟨B.addr + headerSize * (B.units - nu), nu⟩ :=
    fun x hx => by
      rcases mem_middle.1 hx with hx | rfl
      · exact (mem_middle.1 (move_perm.subset hx)).imp_right .inl
      · exact .inr (.inr rfl)
  obtain ⟨h1, h2, h3⟩ := pairwise_append.1 hL.gap
  have hBlow := hL.low B hB
  have hBhigh := hL.high B hB
  refine ⟨hL.base_pos, hL.range, fun x hx => ?_, fun x hx => ?_, fun x hx => ?_, ?_, ?_,
    fun x hx y hy => ?_, fun a => ?_⟩
  · rcases hsplit x hx with hx | rfl | rfl
    · exact hL.pos x (hold x hx)
    · exact Nat.sub_pos_of_lt hlt
    · exact hpos
  · rcases hsplit x hx with hx | rfl | rfl
    · exact hL.low x (hold x hx)
    · exact hBlow
    · exact hBlow.trans (Nat.le_add_right _ _)
  · rcases hsplit x hx with hx | rfl | rfl
    · exact hL.high x (hold x hx)
    · simp only [Block.stop, headerSize] at *
      omega
    · simp only [Block.stop, headerSize] at *
      omega
  · refine pairwise_append.2
      ⟨h1, pairwise_cons.2 ⟨fun y hy => ?_, (pairwise_cons.1 h2).2⟩, fun x hx y hy => ?_⟩
    · have := (pairwise_cons.1 h2).1 y hy
      simp only [Block.stop, headerSize] at *
      omega
    · rcases mem_cons.1 hy with rfl | hy
      · exact h3 x hx B (by simp)
      · exact h3 x hx y (by simp [hy])
  · refine pairwise_cons.2 ⟨fun y hy => ?_, hL.apart⟩
    have := hL.apart_free B (by simp) y hy
    simp only [Apart, Block.stop, headerSize] at *
    omega
  · have hxB : ∀ z ∈ l₁ ++ l₂, Apart B z := fun z hz => gap_apart hL.gap hz
    rcases mem_middle.1 hx with hx | rfl <;> rcases mem_cons.1 hy with rfl | hy
    · have := hxB x hx
      simp only [Apart, Block.stop, headerSize] at *
      omega
    · exact hL.apart_free x (mem_middle.2 (.inl hx)) y hy
    · exact .inl le_rfl
    · have := hL.apart_free B (by simp) y hy
      simp only [Apart, Block.stop, headerSize] at *
      omega
  · have hparts : B.addr ≤ a ∧ a < B.addr + 8 * B.units ↔
        B.addr + 8 * (B.units - nu) ≤ a ∧ a < B.addr + 8 * (B.units - nu) + 8 * nu ∨
          B.addr ≤ a ∧ a < B.addr + 8 * (B.units - nu) := by omega
    rw [← hL.cover a, covers_middle, covers_perm move_perm, covers_middle, covers_perm move_perm,
      covers_middle, ← or_assoc]
    exact or_congr_left hparts.symm

theorem extend {a nu : ℕ} (hL : Layout base brk regions fs live) (hpos : 0 < nu) (ha : brk ≤ a)
    (hlt : a + headerSize * nu < uintSize) :
    Layout base (a + headerSize * nu) ((a, headerSize * nu) :: regions) fs (⟨a, nu⟩ :: live) := by
  have hsplit : ∀ x ∈ fs ++ ⟨a, nu⟩ :: live, x ∈ fs ++ live ∨ x = ⟨a, nu⟩ :=
    fun x hx => mem_middle.1 hx
  have hr := hL.range
  have hhigh : ∀ x ∈ fs ++ live, Apart x ⟨a, nu⟩ := fun x hx => .inl ((hL.high x hx).trans ha)
  refine ⟨hL.base_pos, ⟨by omega, hlt⟩, fun x hx => ?_, fun x hx => ?_, fun x hx => ?_, hL.gap, ?_,
    fun x hx y hy => ?_, fun b => ?_⟩
  · rcases hsplit x hx with hx | rfl
    · exact hL.pos x hx
    · exact hpos
  · rcases hsplit x hx with hx | rfl
    · exact hL.low x hx
    · exact hr.1.trans ha
  · rcases hsplit x hx with hx | rfl
    · have := hL.high x hx
      omega
    · exact le_rfl
  · exact pairwise_cons.2 ⟨fun y hy => (hhigh y (by simp [hy])).symm, hL.apart⟩
  · rcases mem_cons.1 hy with rfl | hy
    · exact hhigh x (by simp [hx])
    · exact hL.apart_free x hx y hy
  · rw [covers_middle, hL.cover b]
    simp only [mem_cons, exists_eq_or_imp, Block.stop]

end Layout

/-! ### The search of `free` -/

theorem exists_cut {bp : ℕ} (hx : x.addr < bp) (hs : (x :: l).Pairwise fun x y => x.stop < y.addr) :
    ∃ A P D, x :: l = A ++ P :: D ∧ P.addr < bp ∧ (∀ y ∈ A, y.addr < bp) ∧
    ∀ y ∈ D, bp ≤ y.addr := by
  induction l generalizing x with
  | nil => exact ⟨[], x, [], rfl, hx, by simp, by simp⟩
  | cons y l ih =>
    by_cases hy : y.addr < bp
    · obtain ⟨A, P, D, he, hP, hA, hD⟩ := ih hy (pairwise_cons.1 hs).2
      exact ⟨x :: A, P, D, by rw [he]; rfl, hP, by simpa [hx] using hA, hD⟩
    refine ⟨[], x, y :: l, rfl, hx, by simp, fun w hw => ?_⟩
    rcases mem_cons.1 hw with rfl | hw
    · omega
    · have := (pairwise_cons.1 (pairwise_cons.1 hs).2).1 w hw
      simp only [Block.stop, headerSize] at this
      omega

theorem slot_below {bp : ℕ} {P : Block} (hl : Links m base (A ++ P :: D))
    (hA : ∀ y ∈ A, y.addr < bp) (hP : P.addr < bp) (hD : ∀ y ∈ D, bp < y.addr)
    (hbase : base ≤ P.addr) (hbp : base < bp)
    (hs : (A ++ P :: D).Pairwise fun x y => x.stop < y.addr) :
    slot m bp (n + A.length + 1) (first (A ++ [P]) 0) = some P.addr := by
  induction A with
  | nil =>
    have hp : ptr m P.addr = first D base := hl.1
    simp only [nil_append, first_cons, length_nil, slot, hp]
    cases D with
    | nil => rw [first_nil, if_neg (by omega), if_pos (by omega)]
    | cons d D =>
      have := hD d (by simp)
      rw [first_cons, if_pos (by omega)]
  | cons x A ih =>
    have ih := ih hl.2 (fun y hy => hA y (by simp [hy])) (pairwise_cons.1 hs).2
    have hp : ptr m x.addr = first (A ++ [P]) 0 := by
      rw [hl.1]
      cases A <;> rfl
    obtain ⟨y, hy, hf⟩ : ∃ y ∈ A ++ P :: D, y.addr < bp ∧ first (A ++ [P]) 0 = y.addr := by
      cases A with
      | nil => exact ⟨P, by simp, hP, rfl⟩
      | cons y A => exact ⟨y, by simp, hA y (by simp), rfl⟩
    have hxy := (pairwise_cons.1 hs).1 y hy
    have hx := hA x (by simp)
    simp only [Block.stop, headerSize] at hxy
    show slot m bp (n + (A.length + 1) + 1) x.addr = _
    rw [slot, hp, if_neg (by omega), if_neg (by omega), ← add_assoc]
    exact ih

/-- The search of `free` from a block above `bp` goes on to `base`. -/
theorem slot_above {bp : ℕ} (hl : Links m base (x :: l)) (hx : bp < x.addr) (hbase : base < bp)
    (hs : (x :: l).Pairwise fun x y => x.stop < y.addr) :
    slot m bp (n + l.length + 1) x.addr = slot m bp n base := by
  induction l generalizing x with
  | nil =>
    have hp : ptr m x.addr = base := hl.1
    rw [length_nil, slot, hp, if_neg (by omega), if_neg (by omega)]
  | cons y l ih =>
    have hp : ptr m x.addr = y.addr := hl.1
    have hxy := (pairwise_cons.1 hs).1 y (by simp)
    simp only [Block.stop, headerSize] at hxy
    show slot m bp (n + (l.length + 1) + 1) x.addr = _
    rw [slot, hp, if_neg (by omega), if_neg (by omega)]
    exact ih hl.2 (by omega) (pairwise_cons.1 hs).2

theorem length_le (hs : l.Pairwise fun x y => x.stop < y.addr) (hlt : ∀ x ∈ l, x.addr < uintSize) :
    l.length ≤ uintSize := by
  have hnodup : (l.map Block.addr).Nodup := by
    rw [List.Nodup, pairwise_map]
    refine hs.imp fun {x y} hxy he => ?_
    simp only [Block.stop, headerSize] at hxy
    omega
  have hsub : l.map Block.addr ⊆ List.range uintSize := fun a ha => by
    obtain ⟨x, hx, rfl⟩ := mem_map.1 ha
    exact mem_range.2 (hlt x hx)
  have := (hnodup.subperm hsub).length_le
  rwa [length_map, length_range] at this

theorem Inv.length_le (hI : Inv base h fs live) : (baseBlock base :: fs).length ≤ uintSize :=
  Malloc.length_le hI.layout.sorted fun x hx => hI.layout.addr_lt (by
    rcases mem_cons.1 hx with rfl | hx <;> simp [*])

/-- **The search of `free`** ends at the last block below `bp`, wherever it starts. -/
theorem Inv.slot {bp : ℕ} (hI : Inv base h fs live) (hbp : base < bp)
    (hne : ∀ x ∈ fs, x.addr ≠ bp) :
    ∃ A P D, baseBlock base :: fs = A ++ P :: D ∧ P.addr < bp ∧ (∀ y ∈ D, bp < y.addr) ∧
      slot h.mem bp fuel h.freep = some P.addr := by
  obtain ⟨A, P, D, he, hP, hA, hD⟩ :=
    exists_cut (l := fs) (x := baseBlock base) hbp hI.layout.sorted
  have hlen := hI.length_le
  have hs := hI.layout.sorted
  have hl := hI.links
  rw [he] at hlen hs hl
  simp only [length_append, length_cons] at hlen
  have hD' : ∀ y ∈ D, bp < y.addr := fun y hy => by
    have hmem : y ∈ baseBlock base :: fs := by simp [he, hy]
    rcases mem_cons.1 hmem with rfl | hfs
    · have := hD _ hy
      simp only [baseBlock] at this
      omega
    · have := hD y hy
      have := hne y hfs
      omega
  have hbase : ∀ y ∈ A ++ P :: D, base ≤ y.addr := fun y hy => by
    rw [← he] at hy
    rcases mem_cons.1 hy with rfl | hy
    · exact le_rfl
    · have := hI.layout.low y (by simp [hy])
      omega
  refine ⟨A, P, D, he, hP, hD', ?_⟩
  obtain ⟨F, hF, hfreep⟩ := hI.freep
  rw [he] at hF
  rw [← hfreep]
  -- From a block of the circle that is below `bp`.
  have hbelow : ∀ A₁ A₂, A = A₁ ++ A₂ → ∀ n, A.length + n + 1 ≤ fuel →
      Malloc.slot h.mem bp (fuel - n) (first (A₂ ++ [P]) 0) = some P.addr :=
      fun A₁ A₂ hA2 n hn => by
    subst hA2
    rw [append_assoc] at hl hs
    have hs2 := (pairwise_append.1 hs).2.1
    have := slot_below (n := fuel - n - A₂.length - 1) (links_append.1 hl).2
      (fun y hy => hA y (by simp [hy])) hP hD' (hbase P (by simp)) hbp hs2
    rw [length_append] at hn
    rwa [show fuel - n - A₂.length - 1 + A₂.length + 1 = fuel - n by omega] at this
  have hfuel : fuel = 4 * uintSize := by rw [fuel]
  rcases mem_append.1 hF with hF | hF
  · obtain ⟨A₁, A₂, hA2⟩ := append_of_mem hF
    exact hbelow A₁ (F :: A₂) hA2 0 (by omega)
  rcases mem_cons.1 hF with rfl | hF
  · exact hbelow A [] (by simp) 0 (by omega)
  obtain ⟨D₁, D₂, rfl⟩ := append_of_mem hF
  rw [← cons_append, ← append_assoc] at hl hs
  have habove := slot_above (n := fuel - D₂.length - 1) (links_append.1 hl).2
    (hD' F (by simp)) hbp (pairwise_append.1 hs).2.1
  simp only [length_append, length_cons] at hlen
  rw [show fuel - D₂.length - 1 + D₂.length + 1 = fuel by omega] at habove
  have hfirst : first (A ++ [P]) 0 = base := by
    cases A with
    | nil | cons x A =>
      obtain ⟨rfl, -⟩ := List.cons.inj he
      rfl
  rw [habove, Nat.sub_sub, ← hfirst]
  exact hbelow [] A rfl _ (by omega)

/-! ### Joining blocks -/

variable {B P : Block}

/-- The block has been joined to the one above it, or there is something between them. -/
inductive Joined (B : Block) (D : List Block) : Block → List Block → Prop
  | apart (h : ∀ y ∈ D, B.stop < y.addr) : Joined B D B D
  | up {c D'} (hD : D = c :: D') (hc : B.stop = c.addr) (h : ∀ y ∈ D', c.stop < y.addr) :
    Joined B D ⟨B.addr, B.units + c.units⟩ D'

theorem joinUp_spec (hp : ptr m p = first D base) (hpaway : Away B.addr p)
    (hsize : size m B.addr = B.units) (hlinks : Links m base D)
    (hsizes : ∀ y ∈ D, size m y.addr = y.units) (haway : ∀ y ∈ D, Away B.addr y.addr)
    (hstop : B.stop < uintSize) (hhigh : ∀ y ∈ D, y.stop < uintSize) (hbase : base < B.addr)
    (hle : ∀ y ∈ D, B.stop ≤ y.addr) (hgap : D.Pairwise fun x y => x.stop < y.addr) :
    ∃ B' D', Joined B D B' D' ∧ B'.addr = B.addr ∧ SameBut m (joinUp m B.addr p) B.addr ∧
      ptr (joinUp m B.addr p) B.addr =
      first D' base ∧ size (joinUp m B.addr p) B.addr = B'.units := by
  have hplus : plus B.addr B.units = B.stop := Nat.mod_eq_of_lt hstop
  unfold joinUp
  rw [hsize, hplus, hp]
  cases D with
  | nil =>
    have hne : B.stop ≠ base := by
      simp only [Block.stop, headerSize]
      omega
    rw [first_nil, if_neg hne]
    refine ⟨B, [], .apart (by simp), rfl, sameBut_setPtr, ?_, by rw [size_setPtr, hsize]⟩
    rw [first_nil, ptr_setPtr]
    simp only [Block.stop, headerSize] at hstop
    omega
  | cons c D =>
  obtain ⟨hc, hD⟩ := pairwise_cons.1 hgap
  have hch := hhigh c (by simp)
  have hcle := hle c (by simp)
  rw [first_cons]
  split_ifs with hjoin
  · have hac := haway c (by simp)
    have hsum : B.units + c.units < uintSize := by
      simp only [Block.stop, headerSize] at hch hjoin
      omega
    refine ⟨_, D, .up rfl hjoin hc, rfl, sameBut_setSize.trans sameBut_setPtr, ?_, ?_⟩
    · dsimp only
      rw [sameBut_setSize.ptr hpaway, hp, first_cons, sameBut_setSize.ptr hac, ptr_setPtr ptr_lt]
      exact hlinks.1
    · dsimp only
      rw [size_setPtr, hsizes c (by simp), Nat.mod_eq_of_lt hsum, size_setSize hsum]
  · refine ⟨B, c :: D, .apart fun y hy => ?_, rfl, sameBut_setPtr, ?_, by rw [size_setPtr, hsize]⟩
    · rcases mem_cons.1 hy with rfl | hy
      · omega
      · have := hc y hy
        simp only [Block.stop, headerSize] at *
        omega
    · refine ptr_setPtr ?_
      simp only [Block.stop, headerSize] at hch
      omega

theorem joinDown_spec (hsize : size m P.addr = P.units) (haway : Away P.addr B.addr)
    (hle : P.stop ≤ B.addr) (hB : size m B.addr = B.units) (hstop : B.stop < uintSize) :
    SameBut m (joinDown m B.addr P.addr) P.addr ∧
      (P.stop = B.addr ∧ ptr (joinDown m B.addr P.addr) P.addr = ptr m B.addr ∧
          size (joinDown m B.addr P.addr) P.addr = P.units + B.units ∨
        P.stop < B.addr ∧ ptr (joinDown m B.addr P.addr) P.addr = B.addr ∧
          size (joinDown m B.addr P.addr) P.addr = P.units) := by
  have hBlt : B.addr < uintSize := by
    simp only [Block.stop, headerSize] at hstop
    omega
  have hplus : plus P.addr P.units = P.stop := Nat.mod_eq_of_lt (hle.trans_lt hBlt)
  unfold joinDown
  rw [hsize, hplus, hB]
  split_ifs with hjoin
  · have hsum : P.units + B.units < uintSize := by
      simp only [Block.stop, headerSize] at *
      omega
    refine ⟨sameBut_setSize.trans sameBut_setPtr, .inl ⟨hjoin, ?_, ?_⟩⟩
    · dsimp only
      rw [sameBut_setSize.ptr haway, ptr_setPtr ptr_lt]
    · dsimp only
      rw [size_setPtr, Nat.mod_eq_of_lt hsum, size_setSize hsum]
  · exact ⟨sameBut_setPtr, .inr ⟨by omega, ptr_setPtr hBlt, by rw [size_setPtr, hsize]⟩⟩

/-- The contents of the blocks are kept. -/
def Kept (m m' : Bytes) (live : List Block) : Prop :=
  ∀ y ∈ live, ∀ a, y.addr ≤ a → a < y.stop → m' a = m a

theorem Away.symm (h : Away p q) : Away q p := Or.symm h

/-- The blocks of a circle and the one at which it is cut. -/
theorem Layout.away_cut (hL : Layout base brk regions fs live)
    (he : baseBlock base :: fs = A ++ P :: D) (hy : y ∈ A ++ D) :
    Away P.addr y.addr := by
  have hs := hL.away_sorted
  rw [he] at hs
  obtain ⟨-, h2, h3⟩ := pairwise_append.1 hs
  rcases mem_append.1 hy with hy | hy
  · exact (h3 y hy P (by simp)).symm
  · exact (pairwise_cons.1 h2).1 y hy

/-- What the circle is after block `B` has been joined to `P` or put behind it. -/
theorem Layout.joined {B' : Block} {D' : List Block} (hL : Layout base brk regions fs (B :: live))
    (he : baseBlock base :: fs = A ++ P :: D) (hj : Joined B D B' D') (hP : P.stop ≤ B.addr) :
    (P.stop < B'.addr → ∃ fs', baseBlock base :: fs' = A ++ P :: B' :: D' ∧
      Layout base brk regions fs' live) ∧
      (P.stop = B'.addr → ∃ fs', baseBlock base :: fs' = A ++ ⟨P.addr, P.units + B'.units⟩ :: D' ∧
        Layout base brk regions fs' live) := by
  -- The free blocks up to `P`.
  obtain ⟨l₁, hl1⟩ : ∃ l₁, baseBlock base :: l₁ = A ++ [P] := by
    cases A with
    | nil => exact ⟨[], by rw [(List.cons.inj he).1]; rfl⟩
    | cons x A => exact ⟨A ++ [P], by rw [(List.cons.inj he).1]; rfl⟩
  have hfs : ∀ E, baseBlock base :: (l₁ ++ E) = A ++ P :: E := fun E => by
    rw [← cons_append, hl1, append_assoc]
    rfl
  obtain rfl : fs = l₁ ++ D := (List.cons.inj (he.trans (hfs D).symm)).2
  have hB' : Layout base brk regions (l₁ ++ D') (B' :: live) ∧ B'.addr = B.addr ∧
      ∀ y ∈ D', B'.stop < y.addr := by
    cases hj with
    | apart h => exact ⟨hL, rfl, h⟩
    | up hD hc h =>
    subst hD
    refine ⟨hL.up hc, rfl, fun y hy => ?_⟩
    have := h y hy
    simp only [Block.stop, headerSize] at *
    omega
  obtain ⟨hL', haddr, habove⟩ := hB'
  have hs := hL'.sorted
  rw [hfs] at hs
  obtain ⟨-, -, h3⟩ := pairwise_append.1 hs
  refine ⟨fun hlt => ⟨l₁ ++ B' :: D', hfs _, hL'.insert (fun y hy => ?_) habove⟩, fun heq => ?_⟩
  · have hy : y ∈ A ++ [P] := hl1 ▸ mem_cons_of_mem _ hy
    rcases mem_append.1 hy with hy | hy
    · have := h3 y hy P (by simp)
      simp only [Block.stop, headerSize] at *
      omega
    · rw [mem_singleton.1 hy]
      exact hlt
  cases A with
  | nil =>
    -- `base` is too far away.
    have := hL'.low B' (by simp)
    obtain ⟨rfl, -⟩ := List.cons.inj he
    simp only [Block.stop, baseBlock, headerSize] at *
    omega
  | cons x A =>
    cases hl1
    have hL' : Layout base brk regions (A ++ P :: D') (B' :: live) := by
      simpa only [append_eq, append_assoc, singleton_append] using hL'
    exact ⟨A ++ ⟨P.addr, P.units + B'.units⟩ :: D', rfl, hL'.down heq habove⟩

/-- The circle is cut behind `P`, the last block below the live block `B`. -/
structure Cut (base : ℕ) (h : Heap) (fs live : List Block) (B P : Block) (A D : List Block) :
    Prop where
  circle : baseBlock base :: fs = A ++ P :: D
  below : P.stop ≤ B.addr
  above : ∀ y ∈ D, B.stop ≤ y.addr
  mem_free : ∀ y ∈ D, y ∈ fs
  slot : slot h.mem B.addr fuel h.freep = some P.addr

theorem Inv.exists_cut (hI : Inv base h fs (B :: live)) : ∃ A P D, Cut base h fs live B P A D := by
  have hL := hI.layout
  have hBlow := hL.low B (by simp)
  have hBhead := hL.header (x := B) (by simp)
  have hbase : base < B.addr := by
    simp only [headerSize] at hBlow
    omega
  have hBfs : ∀ x ∈ fs, x.addr ≠ B.addr := fun x hx heq => by
    have := hL.away_live (mem_cons_of_mem _ hx) (y := B) (by simp)
    simp only [Away, headerSize] at this
    omega
  obtain ⟨A, P, D, he, hP, hD, hslot⟩ := hI.slot hbase hBfs
  have hmem : ∀ x ∈ A ++ P :: D, x ∈ baseBlock base :: fs := fun x hx => he ▸ hx
  have hDfs : ∀ y ∈ D, y ∈ fs := fun y hy => by
    rcases mem_cons.1 (hmem y (by simp [hy])) with rfl | hfs
    · have := hD _ hy
      simp only [baseBlock] at this
      omega
    · exact hfs
  refine ⟨A, P, D, he, ?_, fun y hy => ?_, hDfs, hslot⟩
  · rcases mem_cons.1 (hmem P (by simp)) with rfl | hPfs
    · simp only [Block.stop, baseBlock, headerSize]
      omega
    · have := hL.apart_free P hPfs B (by simp)
      simp only [Apart, Block.stop, headerSize] at *
      omega
  · have := hL.apart_free y (hDfs y hy) B (by simp)
    have := hD y hy
    simp only [Apart, Block.stop, headerSize] at *
    omega

namespace Cut

variable (hC : Cut base h fs live B P A D) (hI : Inv base h fs (B :: live))
include hC

theorem mem_circle (hx : x ∈ A ++ P :: D) : x ∈ baseBlock base :: fs := hC.circle ▸ hx

include hI

theorem away (hx : x ∈ A ++ P :: D) : Away B.addr x.addr :=
  (hI.layout.away_live (hC.mem_circle hx) (by simp)).symm

theorem links : Links h.mem P.addr A ∧ ptr h.mem P.addr = first D base ∧ Links h.mem base D := by
  have hlinks := hI.links
  rw [hC.circle] at hlinks
  obtain ⟨h1, h2, h3⟩ := links_append.1 hlinks
  exact ⟨h1, h2, h3⟩

theorem size (hx : x ∈ A ++ P :: D) : Malloc.size h.mem x.addr = x.units := by
  refine hI.sizes x ?_
  rcases mem_cons.1 (hC.mem_circle hx) with rfl | hfs
  · simp
  · simp [hfs]

theorem joinUp : ∃ B' D', Joined B D B' D' ∧ B'.addr = B.addr ∧ B'.stop < uintSize ∧
    SameBut h.mem (Malloc.joinUp h.mem B.addr P.addr) B.addr ∧
    ptr (Malloc.joinUp h.mem B.addr P.addr) B.addr = first D' base ∧
    Malloc.size (Malloc.joinUp h.mem B.addr P.addr) B.addr = B'.units := by
  have hL := hI.layout
  have hhigh : ∀ y ∈ fs ++ B :: live, y.stop < uintSize :=
    fun y hy => (hL.high y hy).trans_lt hL.range.2
  have hbase : base < B.addr := by
    have := hL.low B (by simp)
    simp only [headerSize] at this
    omega
  obtain ⟨-, hptrP, hlinksD⟩ := hC.links hI
  have hsorted := hL.sorted
  rw [hC.circle] at hsorted
  obtain ⟨B', D', hj, haddr, hrest⟩ :=
    joinUp_spec hptrP (hC.away hI (by simp)) (hI.sizes B (by simp)) hlinksD
    (fun y hy => hC.size hI (by simp [hy])) (fun y hy => hC.away hI (by simp [hy]))
    (hhigh B (by simp)) (fun y hy => hhigh y (by simp [hC.mem_free y hy])) hbase hC.above
    (pairwise_cons.1 (pairwise_append.1 hsorted).2.1).2
  refine ⟨B', D', hj, haddr, ?_, hrest⟩
  cases hj with
  | apart => exact hhigh B (by simp)
  | @up c _ hDc hc =>
    have := hhigh c (mem_append_left _ (hC.mem_free c (by rw [hDc]; simp)))
    simp only [Block.stop, headerSize] at this hc ⊢
    omega

/-- **The memory after `free`**: the block is joined or put behind `P`, and the rest is as
before. -/
theorem memory (hm : m' = joinDown (Malloc.joinUp h.mem B.addr P.addr) B.addr P.addr) :
    ∃ B' D', Joined B D B' D' ∧ B'.addr = B.addr ∧
      (P.stop = B.addr ∧ ptr m' P.addr = first D' base ∧
          Malloc.size m' P.addr = P.units + B'.units ∨
        P.stop < B.addr ∧ ptr m' P.addr = B.addr ∧ Malloc.size m' P.addr = P.units ∧
          ptr m' B.addr = first D' base ∧ Malloc.size m' B.addr = B'.units) ∧
      ∀ a, ¬ (B.addr ≤ a ∧ a < B.addr + headerSize) → ¬ (P.addr ≤ a ∧ a < P.addr + headerSize) →
      m' a = h.mem a := by
  obtain ⟨B', D', hj, haddr, hstop, hsame1, hptrB, hsizeB⟩ := hC.joinUp hI
  have hPB := hC.away hI (x := P) (by simp)
  have hsizeP := (hsame1.size hPB).trans (hC.size hI (by simp))
  generalize Malloc.joinUp h.mem B.addr P.addr = m₁ at hm hsame1 hptrB hsizeB hsizeP
  rw [← haddr] at hsizeB hPB hm
  obtain ⟨hsame2, hcase⟩ := joinDown_spec hsizeP hPB.symm (haddr ▸ hC.below) hsizeB hstop
  rw [← hm, haddr] at hcase
  rw [← hm] at hsame2
  rw [haddr] at hsizeB hPB
  refine ⟨B', D', hj, haddr, ?_, fun a h1 h2 => (hsame2 a h2).trans (hsame1 a h1)⟩
  rcases hcase with ⟨hstop, h1, h2⟩ | ⟨hstop, h1, h2⟩
  · exact .inl ⟨hstop, h1.trans hptrB, h2⟩
  · exact .inr ⟨hstop, h1, h2, (hsame2.ptr hPB.symm).trans hptrB,
      (hsame2.size hPB.symm).trans hsizeB⟩

end Cut

theorem Cut.keeps (hC : Cut base h fs live B P A D) (hI : Inv base h fs (B :: live))
    (hsame : ∀ a, ¬ (B.addr ≤ a ∧ a < B.addr + headerSize) →
      ¬ (P.addr ≤ a ∧ a < P.addr + headerSize) → m' a = h.mem a) :
    (∀ y ∈ A ++ D, ptr m' y.addr = ptr h.mem y.addr ∧ Malloc.size m' y.addr = y.units) ∧
      (∀ y ∈ live, Malloc.size m' y.addr = y.units) ∧ Kept h.mem m' live := by
  have hL := hI.layout
  have hother : ∀ {q}, Away B.addr q → Away P.addr q → ptr m' q = ptr h.mem q ∧
      Malloc.size m' q = Malloc.size h.mem q := by
    intro q hq hq'
    simp only [Away, headerSize] at hq hq'
    refine ⟨Bytes.getLE_congr fun a h1 h2 => hsame a ?_ ?_, Bytes.getLE_congr fun a h1 h2 =>
      hsame a ?_ ?_⟩ <;>
      simp only [headerSize] <;> omega
  have hPlive : ∀ y ∈ live, P.addr + headerSize ≤ y.addr ∨ y.stop ≤ P.addr := fun y hy => by
    rcases mem_cons.1 (hC.mem_circle (x := P) (by simp)) with rfl | hPfs
    · exact .inl (hL.low y (by simp [hy]))
    · have := hL.header (x := P) (by simp [hPfs])
      exact (hL.apart_free P hPfs y (by simp [hy])).imp (by omega) id
  have hBlive : ∀ y ∈ live, B.addr + headerSize ≤ y.addr ∨ y.stop ≤ B.addr := fun y hy => by
    have := hL.header (x := B) (by simp)
    exact ((pairwise_cons.1 hL.apart).1 y hy).imp (by omega) id
  refine ⟨fun y hy => ?_, fun y hy => ?_, fun y hy a h1 h2 => hsame a ?_ ?_⟩
  · have hyC : y ∈ A ++ P :: D := by
      rcases mem_append.1 hy with hy | hy <;> simp [hy]
    obtain ⟨h1, h2⟩ := hother (hC.away hI hyC) (hL.away_cut hC.circle hy)
    exact ⟨h1, h2.trans (hC.size hI hyC)⟩
  · have hyh := hL.header (x := y) (by simp [hy])
    refine (hother ((hBlive y hy).imp id (by omega)) ((hPlive y hy).imp id (by omega))).2.trans ?_
    exact hI.sizes y (by simp [hy])
  · have := hBlive y hy
    omega
  · have := hPlive y hy
    omega

/-- **`free`** keeps the invariant and the contents of the other blocks. -/
theorem free_spec (hI : Inv base h fs (B :: live)) :
    wp (free (B.addr + headerSize))
    (fun _ h' => (∃ fs', Inv base h' fs' live ∧ ∃ x ∈ fs', B.units ≤ x.units) ∧
      Kept h.mem h'.mem live ∧ h'.regions = h.regions) (fun _ _ => False) h := by
  obtain ⟨A, P, D, hC⟩ := hI.exists_cut
  have hL := hI.layout
  obtain ⟨m', hm⟩ : ∃ m', m' = joinDown (joinUp h.mem B.addr P.addr) B.addr P.addr := ⟨_, rfl⟩
  obtain ⟨B', D', hj, haddr, hcase, hsame⟩ := hC.memory hI hm
  obtain ⟨hcut, hlive, hkept⟩ := hC.keeps hI hsame
  obtain ⟨hlinksA, -, hlinksD⟩ := hC.links hI
  have hD : (∀ y ∈ D', y ∈ D) ∧ Links h.mem base D' ∧ B.units ≤ B'.units := by
    cases hj with
    | apart => exact ⟨fun y => id, hlinksD, le_rfl⟩
    | up hDc =>
      subst hDc
      exact ⟨fun y hy => by simp [hy], hlinksD.2, Nat.le_add_right _ _⟩
  obtain ⟨hD'D, hlinksD', hunits⟩ := hD
  have hA' : Links m' P.addr A := hlinksA.congr fun y hy => (hcut y (by simp [hy])).1
  have hD' : Links m' base D' := hlinksD'.congr fun y hy => (hcut y (by simp [hD'D y hy])).1
  have hsizeAD : ∀ y ∈ A ++ D', size m' y.addr = y.units := fun y hy => by
    rcases mem_append.1 hy with hy | hy
    · exact (hcut y (by simp [hy])).2
    · exact (hcut y (by simp [hD'D y hy])).2
  obtain ⟨hinsert, hdown⟩ := hL.joined hC.circle hj hC.below
  rw [haddr] at hinsert hdown
  have hbp : (B.addr + headerSize + uintSize - headerSize) % uintSize = B.addr := by
    rw [show B.addr + headerSize + uintSize - headerSize = B.addr + uintSize by omega,
      Nat.add_mod_right]
    exact Nat.mod_eq_of_lt (hL.addr_lt (by simp))
  -- The circle without the live blocks.
  have hmain : ∀ {fs' M}, baseBlock base :: fs' = A ++ M ++ D' →
    Layout base h.brk h.regions fs' live →
      Links m' base (A ++ M ++ D') → (∀ y ∈ M, size m' y.addr = y.units) →
      (∃ y ∈ M, y.addr = P.addr) →
      Inv base { h with mem := m', freep := P.addr } fs' live := by
    intro fs' M he' hL' hlinks hM hP
    refine ⟨hL', he' ▸ hlinks, fun x hx => ?_, ?_⟩
    · rw [← cons_append, he'] at hx
      simp only [mem_append] at hx
      rcases hx with ((hx | hx) | hx) | hx
      · exact hsizeAD x (by simp [hx])
      · exact hM x hx
      · exact hsizeAD x (by simp [hx])
      · exact hlive x hx
    · obtain ⟨y, hy, hyP⟩ := hP
      exact ⟨y, by rw [he']; simp [hy], hyP⟩
  unfold free
  rw [hbp, wp_bind, wp_get, hC.slot]
  show (∃ fs', Inv base { h with mem := _, freep := P.addr } fs' live ∧ _) ∧ _
  rw [← hm]
  refine ⟨?_, hkept, rfl⟩
  rcases hcase with ⟨hstop, h1, h2⟩ | ⟨hstop, h1, h2, h3, h4⟩
  · obtain ⟨fs', he', hL'⟩ := hdown hstop
    have hin : (⟨P.addr, P.units + B'.units⟩ : Block) ∈ fs' := by
      have hmem : (⟨P.addr, P.units + B'.units⟩ : Block) ∈ baseBlock base :: fs' :=
        he' ▸ mem_append_right _ (by simp)
      refine (mem_cons.1 hmem).resolve_left fun hb => ?_
      have := hL.pos B (by simp)
      simp only [baseBlock, Block.mk.injEq] at hb
      omega
    refine ⟨fs', hmain (M := [⟨P.addr, P.units + B'.units⟩]) (by simpa using he') hL' ?_ ?_
      ⟨_, mem_singleton_self _, rfl⟩, _, hin,
      hunits.trans (Nat.le_add_left _ _)⟩
    · rw [append_assoc]
      exact links_append.2 ⟨hA', h1, hD'⟩
    · simpa using h2
  obtain ⟨fs', he', hL'⟩ := hinsert hstop
  have hin : B' ∈ fs' := by
    have hmem : B' ∈ baseBlock base :: fs' := he' ▸ mem_append_right _ (by simp)
    refine (mem_cons.1 hmem).resolve_left fun hb => ?_
    have := hL.pos B (by simp)
    rw [hb] at hunits
    simp only [baseBlock] at hunits
    omega
  refine ⟨fs', hmain (M := [P, B']) (by simpa using he') hL' ?_ ?_ ⟨P, by simp, rfl⟩, B',
    hin, hunits⟩
  · rw [append_assoc]
    refine links_append.2 ⟨hA', h1.trans haddr.symm, ?_, hD'⟩
    rw [haddr]
    exact h3
  · simp only [mem_cons, not_mem_nil, or_false, forall_eq_or_imp, forall_eq]
    exact ⟨h2, haddr ▸ h4⟩

/-! ### Taking a block -/

/-- Live blocks do not see a change of a header of the circle. -/
theorem Layout.kept (hL : Layout base brk regions fs live) (hx : x ∈ baseBlock base :: fs)
    (hsame : SameBut m m' x.addr) :
    Kept m m' live := by
  intro y hy a h1 h2
  refine hsame a ?_
  rcases mem_cons.1 hx with rfl | hx
  · have := hL.low y (by simp [hy])
    simp only [baseBlock, headerSize] at *
    omega
  have := hL.header (x := x) (by simp [hx])
  have := hL.apart_free x hx y hy
  simp only [Apart, headerSize] at *
  omega

/-- The block behind `Z` in the circle is a free block. -/
theorem exists_free {Y Z : Block} {E : List Block} (he : baseBlock base :: fs = A ++ Z :: Y :: E) :
    ∃ l₁, fs = l₁ ++ Y :: E ∧ ∀ E', baseBlock base :: (l₁ ++ E') = A ++ Z :: E' := by
  cases A with
  | nil =>
    cases he
    exact ⟨[], rfl, fun E' => rfl⟩
  | cons x A =>
    cases he
    exact ⟨A ++ [Z], by simp, fun E' => by simp⟩

theorem take_all {Y Z : Block} {E : List Block} (hI : Inv base h fs live)
    (he : baseBlock base :: fs = A ++ Z :: Y :: E) :
    ∃ fs', Inv base { h with mem := setPtr h.mem Z.addr (ptr h.mem Y.addr), freep := Z.addr } fs'
    (Y :: live) ∧
      Kept h.mem (setPtr h.mem Z.addr (ptr h.mem Y.addr)) live := by
  obtain ⟨l₁, rfl, hcirc⟩ := exists_free he
  have hL' := hI.layout.remove
  have hZ : Z ∈ baseBlock base :: (l₁ ++ E) := by rw [hcirc]; simp
  have hsame : SameBut h.mem (setPtr h.mem Z.addr (ptr h.mem Y.addr)) Z.addr := sameBut_setPtr
  have hlinks := hI.links
  rw [he] at hlinks
  obtain ⟨hA, -, hptrY, hE⟩ := links_append.1 hlinks
  have haway : ∀ y ∈ A ++ E, Away Z.addr y.addr := fun y hy => hL'.away_cut (hcirc E) hy
  refine ⟨l₁ ++ E, ⟨hL', ?_, fun x hx => ?_, Z, hZ, rfl⟩, fun y hy =>
    hL'.kept hZ hsame y (by simp [hy])⟩
  · rw [hcirc]
    refine links_append.2 ⟨hA.congr fun y hy => hsame.ptr (haway y (by simp [hy])), ?_,
      hE.congr fun y hy => hsame.ptr (haway y (by simp [hy]))⟩
    exact (ptr_setPtr ptr_lt).trans hptrY
  have hold : size h.mem x.addr = x.units := hI.sizes x ((move_perm.symm.cons _).subset hx)
  rw [← cons_append, hcirc] at hx
  rcases mem_append.1 hx with hx | hx
  · by_cases hxZ : x = Z
    · subst hxZ
      exact size_setPtr.trans hold
    · exact (hsame.size (haway x ((mem_middle.1 hx).resolve_right hxZ))).trans hold
  · exact (hsame.size (hL'.away_live hZ hx)).trans hold

theorem take_tail {Y Z : Block} {E : List Block} {nu : ℕ} (hI : Inv base h fs live)
    (he : baseBlock base :: fs = A ++ Z :: Y :: E) (hpos : 0 < nu) (hlt : nu < Y.units) :
    ∃ fs', Inv base { h with
        mem := setSize (setSize h.mem Y.addr (Y.units - nu))
          (Y.addr + headerSize * (Y.units - nu)) nu
        freep := Z.addr } fs' (⟨Y.addr + headerSize * (Y.units - nu), nu⟩ :: live) ∧
      Kept h.mem (setSize (setSize h.mem Y.addr (Y.units - nu))
        (Y.addr + headerSize * (Y.units - nu)) nu) live := by
  obtain ⟨l₁, rfl, hcirc⟩ := exists_free he
  have hL := hI.layout
  have hL' := hL.split hpos hlt
  generalize hq : Y.addr + headerSize * (Y.units - nu) = q at hL'
  have hYfs : Y ∈ baseBlock base :: (l₁ ++ Y :: E) := by simp
  have hYhigh := (hL.high Y (by simp)).trans_lt hL.range.2
  have hYlt : Y.units < uintSize := by
    simp only [Block.stop, headerSize] at hYhigh
    omega
  have hsame1 : SameBut h.mem (setSize h.mem Y.addr (Y.units - nu)) Y.addr := sameBut_setSize
  have hsame2 : SameBut (setSize h.mem Y.addr (Y.units - nu))
      (setSize (setSize h.mem Y.addr (Y.units - nu)) q nu) q := sameBut_setSize
  -- The new header is away from those of the circle and of the live blocks.
  have hqcirc : ∀ x ∈ baseBlock base :: (l₁ ++ ⟨Y.addr, Y.units - nu⟩ :: E), Away q x.addr :=
    fun x hx =>
    (hL'.away_live hx (y := ⟨q, nu⟩) (by simp)).symm
  have hqlive : ∀ y ∈ live, q + headerSize ≤ y.addr ∨ y.stop ≤ q := fun y hy => by
    have := (pairwise_cons.1 hL'.apart).1 y hy
    simp only [Apart, Block.stop, headerSize] at this ⊢
    omega
  have haway : ∀ y ∈ A ++ [Z] ++ E, Away Y.addr y.addr := fun y hy => by
    refine hL.away_cut (A := A ++ [Z]) (D := E) ?_ hy
    rw [he, append_assoc]
    rfl
  have hmem : ∀ x ∈ A ++ [Z] ++ E, x ∈ baseBlock base :: (l₁ ++ ⟨Y.addr, Y.units - nu⟩ :: E) :=
      fun x hx => by
    rw [hcirc, append_cons]
    exact mem_middle.2 (.inl hx)
  have hlinks := hI.links
  rw [he, append_cons] at hlinks
  obtain ⟨hA, hptrY, hE⟩ := links_append.1 hlinks
  have hptr : ∀ y ∈ A ++ [Z] ++ E, ptr (setSize (setSize h.mem Y.addr (Y.units - nu)) q nu) y.addr =
      ptr h.mem y.addr :=
    fun y hy => (hsame2.ptr (hqcirc y (hmem y hy))).trans (hsame1.ptr (haway y hy))
  have hqY : Away q Y.addr := hqcirc ⟨Y.addr, Y.units - nu⟩ (by simp)
  refine ⟨_, ⟨hL', ?_, fun x hx => ?_, Z, ?_, rfl⟩, fun y hy a h1 h2 => (hsame2 a ?_).trans
    (hL.kept hYfs hsame1 y hy a h1 h2)⟩
  · rw [hcirc, append_cons]
    refine links_append.2 ⟨hA.congr fun y hy => hptr y (mem_append_left _ hy), ?_,
      hE.congr fun y hy => hptr y (by simp [hy])⟩
    exact (hsame2.ptr hqY).trans (ptr_setSize.trans hptrY)
  · dsimp only
    have hcases : x ∈ A ++ [Z] ++ E ∨ x = ⟨Y.addr, Y.units - nu⟩ ∨ x = ⟨q, nu⟩ ∨ x ∈ live := by
      rw [← cons_append, hcirc] at hx
      rcases mem_middle.1 hx with hx | rfl
      · rcases mem_append.1 hx with hx | hx
        · rw [append_cons] at hx
          exact (mem_middle.1 hx).imp_right .inl
        · exact .inr (.inr (.inr hx))
      · exact .inr (.inr (.inl rfl))
    rcases hcases with hx | rfl | rfl | hx
    · rw [hsame2.size (hqcirc x (hmem x hx)), hsame1.size (haway x hx)]
      refine hI.sizes x ?_
      rw [← cons_append, he, append_cons]
      exact mem_append_left _ (mem_middle.2 (.inl hx))
    · rw [hsame2.size hqY]
      exact size_setSize (by omega)
    · exact size_setSize (by omega)
    · have hh := hL.header (x := x) (by simp [hx])
      rw [hsame2.size ((hqlive x hx).imp id (by omega)), hsame1.size (hL.away_live hYfs hx)]
      exact hI.sizes x (by simp [hx])
  · rw [hcirc]
    simp
  · have := hqlive y hy
    omega

end Malloc

end Xv6
