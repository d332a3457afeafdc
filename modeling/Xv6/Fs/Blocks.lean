import Xv6.Fs.View

/-!
# The block allocator

What `log_write`, `balloc` and `bfree` do to the store, and which blocks they log.

* `Keeps` : everything but the disk and the log is as before.
* `Logs st d a l st'` : the blocks logged on the way from `st` to `st'` are those of `l`, at most
  `d` others, and at most `a` blocks of the free map.
* `Fails st n e st'` : the causes of a panic: the log is full, no transaction is open, or there were
  less than `n` free blocks.
-/

namespace Xv6

open List Function

namespace Store

variable {st st₁ st₂ : Store} {b c i : ℕ} {e : Panic} {d : Block}

/-- Store a block and record it in the log: what `log_write` does when it does not panic. -/
def write (st : Store) (b : ℕ) (d : Block) : Store :=
  { st with disk := Function.update st.disk b d, lh := Log.Proto.absorb st.lh b }

/-- `log_write` panics with `too big a transaction`. -/
def Full (st : Store) : Prop := logSize ≤ st.lh.length ∨ st.logsize - 1 ≤ st.lh.length

theorem wp_logWrite {f : Block → Block} {Q : Unit → Store → Prop} {E : Panic → Store → Prop}
    (hfull : st.Full → E .tooBig st) (hout : st.outstanding < 1 → E .outside st)
    (hQ : 1 ≤ st.outstanding → ¬ st.Full → Q () (st.write b (f (st.disk b)))) :
    wp (logWrite b f) Q E st := by
  simp only [logWrite, wp_bind, wp_get, upd_eq_update]
  by_cases hf : st.Full
  · have hc : logSize ≤ st.lh.length ∨ st.logsize - 1 ≤ st.lh.length := hf
    rw [if_pos hc]
    exact hfull hf
  have hc : ¬ (logSize ≤ st.lh.length ∨ st.logsize - 1 ≤ st.lh.length) := hf
  rw [if_neg hc]
  by_cases ho : st.outstanding < 1
  · rw [if_pos ho]
    exact hout ho
  · rw [if_neg ho]
    exact hQ (by omega) hf

/-! ### Frames -/

/-- Everything but the disk and the log is as before. -/
structure Keeps (st st' : Store) : Prop where
  sb : st'.sb = st.sb
  logsize : st'.logsize = st.logsize
  outstanding : st'.outstanding = st.outstanding
  devread : st'.devread = st.devread
  devwrite : st'.devwrite = st.devwrite

theorem Keeps.refl : Keeps st st := ⟨rfl, rfl, rfl, rfl, rfl⟩

theorem Keeps.trans (h : Keeps st st₁) (h' : Keeps st₁ st₂) : Keeps st st₂ :=
  ⟨h'.sb.trans h.sb, h'.logsize.trans h.logsize, h'.outstanding.trans h.outstanding,
    h'.devread.trans h.devread, h'.devwrite.trans h.devwrite⟩

theorem keeps_write : Keeps st (st.write b d) := ⟨rfl, rfl, rfl, rfl, rfl⟩

/-- The log grew by blocks of `l`, at most `d` others and at most `a` blocks of the free map. -/
structure Logs (st : Store) (d a : ℕ) (l : List ℕ) (st' : Store) : Prop where
  nodup : st.lh.Nodup → st'.lh.Nodup
  sub : ∃ D B : List ℕ, D.length ≤ d ∧ B.length ≤ a ∧
    (∀ x ∈ B, ∃ b < st.sb.size, x = st.sb.bblock b) ∧ ∀ x ∈ st'.lh, x ∈ st.lh ∨ x ∈ D ∨
    x ∈ B ∨ x ∈ l

namespace Logs

variable {d d' a a' : ℕ} {l l' : List ℕ}

theorem refl : Logs st d a l st := ⟨id, [], [], by simp, by simp, by simp, fun _ h => .inl h⟩

theorem mono (h : Logs st d a l st₁) (hd : d ≤ d') (ha : a ≤ a') (hl : l ⊆ l') :
    Logs st d' a' l' st₁ := by
  obtain ⟨hn, D, B, hD, hB, hb, hx⟩ := h
  refine ⟨hn, D, B, hD.trans hd, hB.trans ha, hb, fun x h => ?_⟩
  rcases hx x h with h | h | h | h
  · exact .inl h
  · exact .inr (.inl h)
  · exact .inr (.inr (.inl h))
  · exact .inr (.inr (.inr (hl h)))

theorem trans (h : Logs st d a l st₁) (h' : Logs st₁ d' a' l st₂) (hsb : st₁.sb = st.sb) :
    Logs st (d + d') (a + a') l st₂ := by
  obtain ⟨hn, D, B, hD, hB, hb, hx⟩ := h
  obtain ⟨hn', D', B', hD', hB', hb', hx'⟩ := h'
  refine ⟨hn' ∘ hn, D ++ D', B ++ B', by simpa using Nat.add_le_add hD hD',
    by simpa using Nat.add_le_add hB hB', fun x h => ?_, fun x h => ?_⟩
  · rcases mem_append.1 h with h | h
    · exact hb x h
    · simpa only [hsb] using hb' x h
  rcases hx' x h with h | h | h | h
  · rcases hx x h with h | h | h | h
    · exact .inl h
    · exact .inr (.inl (mem_append_left _ h))
    · exact .inr (.inr (.inl (mem_append_left _ h)))
    · exact .inr (.inr (.inr h))
  · exact .inr (.inl (mem_append_right _ h))
  · exact .inr (.inr (.inl (mem_append_right _ h)))
  · exact .inr (.inr (.inr h))

theorem forget (h : Logs st d a (b :: l) st₁) : Logs st (d + 1) a l st₁ := by
  obtain ⟨hn, D, B, hD, hB, hb, hx⟩ := h
  refine ⟨hn, b :: D, B, by simpa using hD, hB, hb, fun x h => ?_⟩
  rcases hx x h with h | h | h | h
  · exact .inl h
  · exact .inr (.inl (mem_cons_of_mem _ h))
  · exact .inr (.inr (.inl h))
  · rcases mem_cons.1 h with rfl | h
    · exact .inr (.inl mem_cons_self)
    · exact .inr (.inr (.inr h))

theorem forget_tail (h : Logs st d a (b :: l) st₁) (hl : l.length ≤ 1) :
    Logs st (d + 1) a [b] st₁ := by
  match l, hl with
  | [], _ => exact h.mono (Nat.le_succ d) le_rfl (List.Subset.refl _)
  | [c], _ => exact (@mono st st₁ d d a a [b, c] [c, b] h le_rfl le_rfl (by simp)).forget

theorem length_le (h : Logs st d a l st₁) (hn : st.lh.Nodup) :
    st₁.lh.length ≤ st.lh.length + (d + a + l.length) := by
  obtain ⟨hn', D, B, hD, hB, -, hx⟩ := h
  have hsub : st₁.lh ⊆ st.lh ++ (D ++ (B ++ l)) := by
    intro x hmem
    simpa [or_assoc] using hx x hmem
  have hle := ((hn' hn).subperm hsub).length_le
  simp only [length_append] at hle
  omega

end Logs

theorem mem_absorb {lh : List ℕ} {x : ℕ} : x ∈ Log.Proto.absorb lh b ↔ x ∈ lh ∨ x = b := by
  unfold Log.Proto.absorb
  split_ifs with h
  · constructor
    · exact .inl
    · rintro (hx | rfl)
      · exact hx
      · exact h
  · simp

theorem nodup_absorb {lh : List ℕ} (h : lh.Nodup) : (Log.Proto.absorb lh b).Nodup := by
  unfold Log.Proto.absorb
  split_ifs with hb
  · exact h
  rw [nodup_append]
  refine ⟨h, by simp, ?_⟩
  intro x hx y hy
  obtain rfl := mem_singleton.1 hy
  rintro rfl
  exact hb hx

theorem logs_write {l : List ℕ} (hb : b ∈ l) : Logs st 0 0 l (st.write b d) := by
  refine ⟨nodup_absorb, [], [], le_rfl, le_rfl, by simp, fun x hx => ?_⟩
  rcases mem_absorb.1 hx with h | rfl
  · exact .inl h
  · exact .inr (.inr (.inr hb))

theorem logs_write_bitmap {l : List ℕ} (hb : b < st.sb.size) :
    Logs st 0 1 l (st.write (st.sb.bblock b) d) := by
  refine ⟨nodup_absorb, [], [st.sb.bblock b], le_rfl, le_rfl, ?_, fun x hx => ?_⟩
  · intro x hx
    exact ⟨b, hb, mem_singleton.1 hx⟩
  · rcases mem_absorb.1 hx with h | rfl
    · exact .inl h
    · exact .inr (.inr (.inl mem_cons_self))

/-- The causes of a panic in an action that allocates at most `n` blocks. -/
inductive Fails (st : Store) (n : ℕ) : Panic → Store → Prop
  | tooBig {st' : Store} (h : st'.Full) : Fails st n .tooBig st'
  | outside {st' : Store} (h : st'.outstanding < 1) : Fails st n .outside st'
  | outOfBlocks {st' : Store} (h : st.free < n) : Fails st n .outOfBlocks st'

theorem Fails.mono {n m : ℕ} (h : Fails st n e st₁) (hnm : n ≤ m) : Fails st m e st₁ := by
  cases h with
  | tooBig h => exact .tooBig h
  | outside h => exact .outside h
  | outOfBlocks h => exact .outOfBlocks (by omega)

/-- A failure that has nothing to do with the free blocks. -/
theorem Fails.of_zero {n : ℕ} (h : Fails st₁ 0 e st₂) : Fails st n e st₂ := by
  cases h with
  | tooBig h => exact .tooBig h
  | outside h => exact .outside h
  | outOfBlocks h => exact absurd h (Nat.not_lt_zero _)

theorem Fails.after {n a : ℕ} (h : Fails st₁ n e st₂) (ha : st₁.free + a = st.free) :
    Fails st (a + n) e st₂ := by
  cases h with
  | tooBig h => exact .tooBig h
  | outside h => exact .outside h
  | outOfBlocks h => exact .outOfBlocks (by omega)

/-- A panic after which the log has grown by blocks of `l`, at most `d` others and blocks of the
free map; it is neither about a free block nor about a free inode, nor about a missing transaction
if there is one. -/
structure Stops (st : Store) (d : ℕ) (l : List ℕ) (e : Panic) (st' : Store) : Prop where
  ne_freeingFree : e ≠ .freeingFree
  ne_noType : e ≠ .noType
  inside : 1 ≤ st.outstanding → e ≠ .outside
  logs : ∃ a, Logs st d a l st'

theorem Fails.stops {n d a : ℕ} {l : List ℕ} (h : Fails st₂ n e st₁) (hk : Keeps st st₁)
    (hl : Logs st d a l st₁) : Stops st d l e st₁ := by
  have hout := hk.outstanding
  cases h with
  | tooBig | outOfBlocks => exact ⟨by decide, by decide, fun _ => by decide, a, hl⟩
  | outside h => exact ⟨by decide, by decide, fun ho => absurd h (by omega), a, hl⟩

/-! ### The areas of the disk -/

section Areas

variable (hf : st.Formatted)

include hf

theorem Formatted.bblock_lt (hb : b < st.sb.size) : st.sb.bblock b < st.sb.nmeta := by
  have h := hf.sb_ok.data
  have hd : b / bpb ≤ (st.sb.size - 1) / bpb := Nat.div_le_div_right (by omega)
  rw [Superblock.bblock]
  omega

theorem Formatted.iblock_lt (hi : i < st.sb.ninodes) : st.sb.iblock i < st.sb.bmapstart := by
  have h := hf.sb_ok.bitmap
  have hd : i / ipb ≤ (st.sb.ninodes - 1) / ipb := Nat.div_le_div_right (by omega)
  rw [Superblock.iblock]
  omega

theorem Formatted.one_lt_inodestart : 1 < st.sb.inodestart := by
  have h := hf.sb_ok.log
  have h' := hf.sb_ok.inodes
  omega

theorem Formatted.one_lt_iblock : 1 < st.sb.iblock i :=
  hf.one_lt_inodestart.trans_le (Nat.le_add_left _ _)

theorem Formatted.one_lt_bmapstart : 1 < st.sb.bmapstart := by
  have h := hf.one_lt_inodestart
  have h' : st.sb.inodestart < st.sb.bmapstart := (Nat.le_add_left _ _).trans_lt hf.sb_ok.bitmap
  omega

theorem Formatted.one_lt_bblock : 1 < st.sb.bblock b :=
  hf.one_lt_bmapstart.trans_le (Nat.le_add_left _ _)

theorem Formatted.iblock_ne_bblock (hi : i < st.sb.ninodes) : st.sb.iblock i ≠ st.sb.bblock b :=
  ((hf.iblock_lt hi).trans_le (Nat.le_add_left _ _)).ne

theorem Formatted.bmapstart_lt : st.sb.bmapstart < st.sb.nmeta :=
  (Nat.le_add_left _ _).trans_lt hf.sb_ok.data

theorem Formatted.iblock_lt_nmeta (hi : i < st.sb.ninodes) : st.sb.iblock i < st.sb.nmeta :=
  (hf.iblock_lt hi).trans hf.bmapstart_lt

theorem Formatted.nmeta_pos : 0 < st.sb.nmeta := by
  have h := hf.bmapstart_lt
  omega

theorem Formatted.write (hb : b ≠ 1) : (st.write b d).Formatted :=
  ⟨hf.sb_ok, by simpa [Store.write, update_of_ne hb.symm] using hf.sb_eq⟩

omit hf

theorem dinode_write_of_ne (hb : b ≠ st.sb.iblock i) : (st.write b d).dinode i = st.dinode i := by
  simp only [dinode, Store.write, update_of_ne hb.symm]

theorem bit_write_of_ne (hb : b ≠ st.sb.bblock c) : (st.write b d).bit c = st.bit c := by
  simp only [bit, Store.write, update_of_ne hb.symm]

theorem disk_write_of_ne (hc : c ≠ b) : (st.write b d).disk c = st.disk c :=
  update_of_ne hc _ _

theorem disk_write_self : (st.write b d).disk b = d := update_self _ _ _

theorem bit_write_setBit :
    (st.write (st.sb.bblock b) ((st.disk (st.sb.bblock b)).setBit (b % bpb))).bit c =
      (decide (c = b) || st.bit c) := by
  by_cases hbc : st.sb.bblock c = st.sb.bblock b
  · have hd : c / bpb = b / bpb := by simpa [Superblock.bblock] using hbc
    have hm : c = b ↔ c % bpb = b % bpb := by simp only [bpb] at hd ⊢; omega
    simp only [bit, Store.write, hbc, update_self, Block.bit_setBit, hm]
  · have hne : c ≠ b := by rintro rfl; exact hbc rfl
    rw [bit_write_of_ne (fun h => hbc h.symm)]
    simp [hne]

theorem bit_write_clearBit :
    (st.write (st.sb.bblock b) ((st.disk (st.sb.bblock b)).clearBit (b % bpb))).bit c =
      (!decide (c = b) && st.bit c) := by
  by_cases hbc : st.sb.bblock c = st.sb.bblock b
  · have hd : c / bpb = b / bpb := by simpa [Superblock.bblock] using hbc
    have hm : c = b ↔ c % bpb = b % bpb := by simp only [bpb] at hd ⊢; omega
    simp only [bit, Store.write, hbc, update_self, Block.bit_clearBit, hm]
  · have hne : c ≠ b := by rintro rfl; exact hbc rfl
    rw [bit_write_of_ne (fun h => hbc h.symm)]
    simp [hne]

end Areas

/-! ### `balloc` and `bfree` -/

/-- What allocating block `b` does. -/
structure Allocates (st : Store) (b : ℕ) (st' : Store) : Prop extends Keeps st st' where
  lt : b < st.sb.size
  not_used : st.bit b = false
  formatted : st'.Formatted
  bit : ∀ c < st.sb.size, st'.bit c = (decide (c = b) || st.bit c)
  dinode : ∀ i < st.sb.ninodes, st'.dinode i = st.dinode i
  zero : st'.disk b = Bytes.zero
  disk : ∀ c, st.sb.nmeta ≤ c → c ≠ b → st'.disk c = st.disk c
  logs : Logs st 0 1 [b] st'

theorem Allocates.free_eq (h : Allocates st b st₁) : st₁.free + 1 = st.free := by
  simp only [free, h.sb]
  exact card_freeBlocks_alloc h.lt h.not_used h.bit

theorem balloc_spec (hf : st.Formatted) (hr : ∀ c < st.sb.nmeta, st.bit c = true) :
    wp balloc (fun b st' => Allocates st b st')
      (fun e st' => Fails st 1 e st' ∧ Logs st 1 1 [] st' ∧ Keeps st st') st := by
  simp only [balloc, wp_bind, wp_get]
  cases hb : (List.range st.sb.size).find? fun b => !st.bit b with
  | none =>
    refine ⟨.outOfBlocks ?_, .refl, .refl⟩
    -- Every bit is set, so no block is free.
    have hall : ∀ c < st.sb.size, st.bit c = true := by simpa using List.find?_eq_none.1 hb
    have hz : freeBlocks st.bit st.sb.size = ∅ := by
      refine Finset.eq_empty_of_forall_notMem fun c hc => ?_
      obtain ⟨hlt, hc⟩ := mem_freeBlocks.1 hc
      rw [hall c hlt] at hc
      cases hc
    simp [free, hz]
  | some b =>
  have hlt : b < st.sb.size := by simpa using mem_of_find?_eq_some hb
  have hnb : st.bit b = false := by simpa using List.find?_some hb
  have hmeta : st.sb.nmeta ≤ b := by
    by_contra hlo
    rw [hr b (by omega)] at hnb
    cases hnb
  have hbb := hf.bblock_lt hlt
  have hone := hf.one_lt_bblock (b := b)
  simp only [bzero, wp_bind]
  refine wp_logWrite (fun h => ⟨.tooBig h, .refl, .refl⟩) (fun h => ⟨.outside h, .refl, .refl⟩)
    fun _ _ => ?_
  have hlog1 : Logs st 0 1 [b] (st.write (st.sb.bblock b)
      ((st.disk (st.sb.bblock b)).setBit (b % bpb))) := logs_write_bitmap hlt
  have hlog2 : Logs st 1 1 [] (st.write (st.sb.bblock b)
      ((st.disk (st.sb.bblock b)).setBit (b % bpb))) := (logs_write_bitmap hlt).mono
      (by omega) le_rfl (List.Subset.refl _)
  refine wp_logWrite (fun h => ⟨.tooBig h, hlog2, keeps_write⟩)
    (fun h => ⟨.outside h, hlog2, keeps_write⟩) fun _ _ => ?_
  have hd : ∀ c < st.sb.size, b ≠ st.sb.bblock c := fun c hc => by
    have := hf.bblock_lt hc
    omega
  refine ⟨keeps_write.trans keeps_write, hlt, hnb, (hf.write hone.ne').write (by omega), ?_, ?_,
    disk_write_self, ?_, ?_⟩
  · intro c hc
    refine (bit_write_of_ne ?_).trans bit_write_setBit
    exact hd c hc
  · intro i hi
    have hi' := hf.iblock_lt_nmeta hi
    have hib : b ≠ st.sb.iblock i := by omega
    refine (dinode_write_of_ne ?_).trans (dinode_write_of_ne (hf.iblock_ne_bblock hi).symm)
    exact hib
  · intro c hc hne
    rw [disk_write_of_ne hne, disk_write_of_ne (show c ≠ st.sb.bblock b by omega)]
  · exact hlog1.trans (logs_write mem_cons_self) rfl

theorem wp_readsb {Q : Unit → Store → Prop} {E : Panic → Store → Prop} (hf : st.Formatted) :
    wp readsb Q E st ↔ Q () st := by
  have hsb : { st with sb := Superblock.get (st.disk 1) } = st := by rw [hf.sb_eq]
  rw [readsb, wp_modify, hsb]

/-- What freeing block `b` does. -/
structure Frees (st : Store) (b : ℕ) (st' : Store) : Prop extends Keeps st st' where
  formatted : st'.Formatted
  bit : ∀ c < st.sb.size, st'.bit c = (!decide (c = b) && st.bit c)
  dinode : ∀ i < st.sb.ninodes, st'.dinode i = st.dinode i
  disk : ∀ c, st.sb.nmeta ≤ c → st'.disk c = st.disk c
  logs : Logs st 0 1 [] st'

theorem bfree_spec (hf : st.Formatted) (hlt : b < st.sb.size) (hb : st.bit b = true) :
    wp (bfree b) (fun _ st' => Frees st b st')
      (fun e st' => Fails st 0 e st' ∧ Logs st 0 1 [] st' ∧ Keeps st st') st := by
  have hbb := hf.bblock_lt hlt
  have hone := hf.one_lt_bblock (b := b)
  simp only [bfree, wp_bind, wp_get, wp_readsb hf, hb, ↓reduceIte]
  refine wp_logWrite (fun h => ⟨.tooBig h, .refl, .refl⟩) (fun h => ⟨.outside h, .refl, .refl⟩)
    fun _ _ => ?_
  refine ⟨keeps_write, hf.write hone.ne', fun c _ => bit_write_clearBit, fun i hi => ?_,
    fun c hc => ?_, logs_write_bitmap hlt⟩
  · exact dinode_write_of_ne (hf.iblock_ne_bblock hi).symm
  · exact disk_write_of_ne (by omega)

end Store

end Xv6
