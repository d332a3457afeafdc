import Xv6.Fs.Blocks

/-!
# The blocks of an inode

`bmap` finds the block that holds a part of a file and allocates it if it is the next one.  Seen
from the outside nothing happens: `bmap_spec` says that all nodes are the same as before.

The argument is the same for a direct address, for the indirect block and for an entry of it: a
pointer of the inode that was 0 now names a fresh block of zeros (`Base.grow`).
-/

namespace Xv6

namespace Dinode

variable {disk disk' : Disk} {x x' : Dinode} {b c j k bn : ℕ}

theorem ptr_of_le (hk : k ≤ ndirect) : x.ptr disk k = x.addrs k := if_pos hk

theorem ptr_of_lt (hk : ndirect < k) (hk' : k ≤ ndirect + nindirect) (hx : x.addrs ndirect ≠ 0) :
    x.ptr disk k = (disk (x.addrs ndirect)).entry (k - (ndirect + 1)) := by
  rw [ptr, if_neg (by omega), if_neg (by rintro (h | h); exacts [hx h, by omega])]

theorem pos_ne_ndirect : pos bn ≠ ndirect := by
  unfold pos
  split_ifs <;> omega

theorem pos_inj {m : ℕ} (h : pos bn = pos m) : bn = m := by
  unfold pos at h
  split_ifs at h <;> omega

/-- The pointers of an inode are stored in the inode and in its indirect block. -/
theorem ptr_congr (h : x.addrs ndirect ≠ 0 → disk' (x.addrs ndirect) = disk (x.addrs ndirect)) :
    x.ptr disk' k = x.ptr disk k := by
  unfold ptr
  split_ifs with h1 h2
  · rfl
  · rfl
  · rw [h fun h0 => h2 (.inl h0)]

/-- The contents of an inode are stored in the blocks it names. -/
theorem block_congr (h : ∀ k, x.ptr disk k ≠ 0 → disk' (x.ptr disk k) = disk (x.ptr disk k)) :
    x.block disk' bn = x.block disk bn := by
  have hp : x.ptr disk' (pos bn) = x.ptr disk (pos bn) := by
    refine ptr_congr fun h0 => ?_
    have h1 := h ndirect
    rw [ptr_of_le le_rfl] at h1
    exact h1 h0
  unfold block
  rw [hp]
  split_ifs with h0
  · rfl
  · exact h _ h0

theorem data_eq_of_block (h : ∀ bn < maxfile, x'.block disk' bn = x.block disk bn) :
    x'.data disk' = x.data disk := by
  funext k
  unfold data
  split_ifs with hk
  · rw [h (k / bsize) (by simp only [maxfile, bsize] at hk ⊢; omega)]
  · rfl

theorem Shaped.congr (h : x.Shaped disk c) (hx : x'.addrs ndirect = x.addrs ndirect)
    (hp : ∀ k, x'.ptr disk' k = x.ptr disk k) : x'.Shaped disk' c :=
  ⟨h.le, by simpa only [hp] using h.block_iff, by rw [hx]; exact h.indirect_iff⟩

theorem ptr_of_addrs_zero (hx : ∀ j, x.addrs j = 0) : x.ptr disk k = 0 := by
  unfold ptr
  split_ifs with h1 h2
  · exact hx k
  · rfl
  · exact absurd (.inl (hx ndirect)) h2

theorem data_of_addrs_zero (hx : ∀ j, x.addrs j = 0) : x.data disk = Bytes.zero := by
  funext k
  simp only [data, block, ptr_of_addrs_zero hx, ↓reduceIte, Bytes.zero_apply, ite_self]

theorem shaped_of_addrs_zero (hx : ∀ j, x.addrs j = 0) : x.Shaped disk 0 :=
  ⟨zero_le, fun bn _ => by simp [ptr_of_addrs_zero hx], by simp [hx]⟩

/-- A pointer at position `j`, 0 before, names the fresh block `b`. -/
structure Grows (disk : Disk) (x : Dinode) (j b : ℕ) (disk' : Disk) (x' : Dinode) : Prop where
  ptr_eq : ∀ k, x'.ptr disk' k = if k = j then b else x.ptr disk k
  ptr_zero : x.ptr disk j = 0
  zero : disk' b = Bytes.zero

theorem Grows.block (h : Grows disk x j b disk' x')
    (hd : ∀ k, k ≠ ndirect → x.ptr disk k ≠ 0 → disk' (x.ptr disk k) = disk (x.ptr disk k)) :
    x'.block disk' bn = x.block disk bn := by
  unfold Dinode.block
  rw [h.ptr_eq]
  by_cases hj : pos bn = j
  · -- The new block holds zeros, and the block that did not exist read as zeros.
    rw [if_pos hj, hj, h.ptr_zero, if_pos rfl, h.zero]
    split_ifs <;> rfl
  rw [if_neg hj]
  split_ifs with h0
  · rfl
  · exact hd _ pos_ne_ndirect h0

theorem Shaped.succ (h : x.Shaped disk c) (hc : c < maxfile) (hb : b ≠ 0)
    (hp : ∀ m < maxfile, x'.ptr disk' (pos m) = if m = c then b else x.ptr disk (pos m))
    (hi : x'.addrs ndirect ≠ 0 ↔ ndirect < c + 1) : x'.Shaped disk' (c + 1) := by
  refine ⟨hc, fun m hm => ?_, hi⟩
  rw [hp m hm]
  split_ifs with hmc
  · exact ⟨fun _ => by omega, fun _ => hb⟩
  · rw [h.block_iff m hm]
    omega

theorem grows_setAddr {ip : Inode} (hj : j ≤ ndirect) (h0 : ip.addrs j = 0)
    (hp : ip.addrs ndirect ≠ 0 → disk' (ip.addrs ndirect) = disk (ip.addrs ndirect))
    (hz : disk' b = Bytes.zero) : Grows disk ip.toDinode j b disk' (ip.setAddr j b).toDinode := by
  refine ⟨fun k => ?_, by rw [ptr_of_le hj, h0], hz⟩
  by_cases hk : k ≤ ndirect
  · rw [ptr_of_le hk, ptr_of_le hk]
    simp only [Inode.setAddr, upd]
  have hkj : k ≠ j := by omega
  rw [if_neg hkj]
  by_cases hjn : j = ndirect
  · -- A new indirect block has no entries.
    have hx : ip.toDinode.ptr disk k = 0 := by
      rw [ptr, if_neg hk, if_pos (.inl (hjn ▸ h0))]
    rw [hx, ptr, if_neg hk]
    have ha : (ip.setAddr j b).addrs ndirect = b := by simp [Inode.setAddr, hjn]
    rw [ha, hz, Block.entry_zero, ite_self]
  · have ha : (ip.setAddr j b).addrs ndirect = ip.addrs ndirect := by
      simp [Inode.setAddr, Ne.symm hjn]
    have hc : (ip.setAddr j b).toDinode.ptr disk' k = ip.toDinode.ptr disk' k := by
      rw [ptr, ptr, if_neg hk, if_neg hk, ha]
    rw [hc, ptr_congr hp]

theorem grows_setEntry (hj : j < nindirect) (hi : x.addrs ndirect ≠ 0) (hb : b < 2 ^ 32)
    (h0 : (disk (x.addrs ndirect)).entry j = 0)
    (hp : disk' (x.addrs ndirect) = (disk (x.addrs ndirect)).setEntry j b)
    (hz : disk' b = Bytes.zero) : Grows disk x (ndirect + 1 + j) b disk' x := by
  simp only [nindirect] at hj
  refine ⟨fun k => ?_, ?_, hz⟩
  · by_cases hk : k ≤ ndirect
    · rw [ptr_of_le hk, ptr_of_le hk, if_neg (by omega)]
    by_cases hk' : ndirect + nindirect < k
    · rw [if_neg (by simp only [ndirect, nindirect] at hk' ⊢; omega)]
      rw [ptr, ptr, if_neg hk, if_neg hk, if_pos (.inr hk'), if_pos (.inr hk')]
    rw [ptr_of_lt (by omega) (by omega) hi, ptr_of_lt (by omega) (by omega) hi, hp,
      Block.entry_setEntry hb]
    have hiff : k - (ndirect + 1) = j ↔ k = ndirect + 1 + j := by omega
    simp only [hiff]
  · rw [ptr_of_lt (by omega) (by simp only [nindirect]; omega) hi]
    rw [show ndirect + 1 + j - (ndirect + 1) = j by omega, h0]

end Dinode

namespace Store

variable {st st₁ st₂ : Store} {ip ip' : Inode} {b c i j k bn : ℕ} {e : Panic}

theorem over_self : st.overlay ip ip.inum = ip.toDinode := if_pos rfl

theorem over_of_ne (h : i ≠ ip.inum) : st.overlay ip i = st.dinode i := if_neg h

theorem ptrs_of_live {din : ℕ → Dinode} (hi : i < st.sb.ninodes) (ht : (din i).type ≠ 0) :
    st.ptrs din (i, k) = (din i).ptr st.disk k := if_pos ⟨hi, ht⟩

theorem ptrs_over_self (hi : ip.inum < st.sb.ninodes) (ht : ip.type ≠ 0) :
    st.ptrs (st.overlay ip) (ip.inum, k) = ip.toDinode.ptr st.disk k := by
  rw [ptrs_of_live hi (by rwa [over_self]), over_self]

namespace Base

variable (h : st.Base ip)

include h

theorem ptrs_inum : st.ptrs (st.overlay ip) (ip.inum, k) = ip.toDinode.ptr st.disk k :=
  ptrs_over_self h.inum_lt h.type_ne

theorem ptr_ne_indirect {x : ℕ × ℕ} (hx : st.ptrs (st.overlay ip) x ≠ 0)
    (hne : x ≠ (ip.inum, ndirect)) :
    st.ptrs (st.overlay ip) x ≠ ip.addrs ndirect := by
  intro he
  have hi : st.ptrs (st.overlay ip) (ip.inum, ndirect) = ip.addrs ndirect := by
    rw [h.ptrs_inum, Dinode.ptr_of_le le_rfl]
  exact hne (h.owns.inj _ _ hx (he.trans hi.symm))

/-- **A fresh block for an inode.**  The disk stays consistent and no node changes. -/
theorem grow (hsb : st₁.sb = st.sb) (hf : st₁.Formatted) (hlt : b < st.sb.size)
    (hub : st.bit b = false) (hbit : ∀ c < st.sb.size, st₁.bit c = (decide (c = b) || st.bit c))
    (hdin : ∀ i < st.sb.ninodes, st₁.dinode i = st.dinode i)
    (hg : Dinode.Grows st.disk ip.toDinode j b st₁.disk ip'.toDinode)
    (hdisk : ∀ x, st.ptrs (st.overlay ip) x ≠ 0 → x ≠ (ip.inum, ndirect) →
      st₁.disk (st.ptrs (st.overlay ip) x) = st.disk (st.ptrs (st.overlay ip) x))
    (hip : ip' = { ip with addrs := ip'.addrs }) (hok : ip'.toDinode.Ok) :
    st₁.Base ip' ∧ st₁.nodesOf (st₁.overlay ip') = st.nodesOf (st.overlay ip) := by
  have hinum : ip'.inum = ip.inum := by rw [hip]
  have htype : ip'.type = ip.type := by rw [hip]
  -- The pointers of the other inodes, and what they name, have not changed.
  have hother : ∀ i < st.sb.ninodes, i ≠ ip.inum → (st.dinode i).type ≠ 0 →
      ∀ k, (st.dinode i).ptr st.disk k ≠ 0 →
        st₁.disk ((st.dinode i).ptr st.disk k) = st.disk ((st.dinode i).ptr st.disk k) := by
    intro i hi hne ht k hk
    have hp : st.ptrs (st.overlay ip) (i, k) = (st.dinode i).ptr st.disk k := by
      rw [ptrs_of_live hi (by rwa [over_of_ne hne]), over_of_ne hne]
    have := hdisk (i, k) (by rwa [hp]) fun he => hne (congrArg Prod.fst he)
    rwa [hp] at this
  have hptr : ∀ i < st.sb.ninodes, i ≠ ip.inum → (st.dinode i).type ≠ 0 → ∀ k,
      (st.dinode i).ptr st₁.disk k = (st.dinode i).ptr st.disk k := by
    intro i hi hne ht k
    refine Dinode.ptr_congr fun h0 => ?_
    have h1 := hother i hi hne ht ndirect
    rw [Dinode.ptr_of_le le_rfl] at h1
    exact h1 h0
  have hupd : ∀ y, st₁.ptrs (st₁.overlay ip') y =
      Function.update (st.ptrs (st.overlay ip)) (ip.inum, j) b y := by
    rintro ⟨i, k⟩
    by_cases hi : i = ip.inum
    · subst hi
      have h1 : st₁.ptrs (st₁.overlay ip') (ip.inum, k) = ip'.toDinode.ptr st₁.disk k := by
        rw [← hinum]
        exact ptrs_over_self (by rw [hsb, hinum]; exact h.inum_lt) (by rw [htype]; exact h.type_ne)
      rw [h1, hg.ptr_eq, Function.update_apply, h.ptrs_inum]
      simp only [Prod.mk.injEq, true_and]
    have hne : (i, k) ≠ (ip.inum, j) := fun he => hi (congrArg Prod.fst he)
    rw [Function.update_of_ne hne]
    simp only [ptrs, over_of_ne hi, over_of_ne (hinum ▸ hi), hsb]
    by_cases hl : i < st.sb.ninodes
    · rw [hdin i hl]
      by_cases ht : (st.dinode i).type = 0
      · simp [ht]
      · simp only [hl, ht, ne_eq, not_false_eq_true, and_self, ↓reduceIte]
        exact hptr i hl hi ht k
    · simp [hl]
  have hown : Owns st₁.bit (st₁.ptrs (st₁.overlay ip')) st.sb.nmeta st.sb.size :=
    h.owns.alloc h.nmeta_pos hlt hub (by rw [h.ptrs_inum, hg.ptr_zero]) hbit hupd
  refine ⟨⟨hf, by rw [hsb, hinum]; exact h.inum_lt, by rw [htype]; exact h.type_ne, hok,
    by rwa [hsb], ?_⟩, ?_⟩
  · intro i hi hne ht
    rw [hsb] at hi
    rw [hinum] at hne
    rw [hdin i hi] at ht ⊢
    exact (h.others i hi hne ht).congr rfl (hptr i hi hne ht)
  funext i
  simp only [nodesOf, hsb]
  split_ifs with hi
  · by_cases hne : i = ip.inum
    · rw [hne, over_self, ← hinum, over_self]
      have hblk : ip'.toDinode.data st₁.disk = ip.toDinode.data st.disk := by
        refine Dinode.data_eq_of_block fun bn _ => hg.block fun k hk hk0 => ?_
        have := hdisk (ip.inum, k) (by rwa [h.ptrs_inum]) fun he => hk (congrArg Prod.snd he)
        rwa [h.ptrs_inum] at this
      have hn : ∀ d, ip'.toDinode.data st₁.disk = d →
          ip'.toDinode.node st₁.disk = if ip.type = 0 then .free
            else ⟨ip.type, ip.major, ip.minor, ip.nlink, ip.size, d⟩ := by
        rintro d rfl
        unfold Dinode.node
        rw [hip]
      rw [hn _ hblk, Dinode.node]
    · rw [over_of_ne hne, over_of_ne (hinum ▸ hne), hdin i hi]
      unfold Dinode.node
      split_ifs with ht
      · rfl
      · rw [Dinode.data_eq_of_block fun bn _ => Dinode.block_congr (hother i hi hne ht)]
  · rfl

end Base

/-- An inode with one more pointer, to a fresh block. -/
structure Grows (st : Store) (ip : Inode) (j b : ℕ) (ip' : Inode) (st' : Store) : Prop
    extends Keeps st st' where
  base : st'.Base ip'
  nodes : st'.nodesOf (st'.overlay ip') = st.nodesOf (st.overlay ip)
  ip_eq : ip' = { ip with addrs := ip'.addrs }
  ptr_zero : ip.toDinode.ptr st.disk j = 0
  ptr_eq : ∀ k, ip'.toDinode.ptr st'.disk k = if k = j then b else ip.toDinode.ptr st.disk k
  ne_zero : b ≠ 0
  zero : st'.disk b = Bytes.zero
  dinode : ∀ i < st.sb.ninodes, st'.dinode i = st.dinode i
  free : st'.free + 1 = st.free

theorem Base.reserved (h : st.Base ip) : ∀ c < st.sb.nmeta, st.bit c = true := h.owns.reserved

theorem Base.not_owned (h : st.Base ip) (hb : st.bit b = false) {x : ℕ × ℕ}
    (hx : st.ptrs (st.overlay ip) x ≠ 0) :
    st.sb.nmeta ≤ st.ptrs (st.overlay ip) x ∧ st.ptrs (st.overlay ip) x ≠ b :=
  ⟨h.owns.le_ptr x hx, h.owns.ptr_ne_of_not_used h.nmeta_pos hb x⟩

theorem Base.setAddr (h : st.Base ip) (hj : j ≤ ndirect) (h0 : ip.addrs j = 0)
    (ha : Allocates st b st₁) : Grows st ip j b (ip.setAddr j b) st₁ := by
  have hd : ∀ x, st.ptrs (st.overlay ip) x ≠ 0 →
      st₁.disk (st.ptrs (st.overlay ip) x) = st.disk (st.ptrs (st.overlay ip) x) := by
    intro x hx
    obtain ⟨hle, hne⟩ := h.not_owned ha.not_used hx
    exact ha.disk _ hle hne
  have hp : ip.addrs ndirect ≠ 0 → st₁.disk (ip.addrs ndirect) = st.disk (ip.addrs ndirect) := by
    intro hi
    have := hd (ip.inum, ndirect)
    rw [h.ptrs_inum, Dinode.ptr_of_le le_rfl] at this
    exact this hi
  have hg := Dinode.grows_setAddr hj h0 hp ha.zero
  have hlt32 : b < 2 ^ 32 := ha.lt.trans h.sb_ok.size
  have hok : (ip.setAddr j b).toDinode.Ok := by
    refine ⟨h.ok.type_lt, h.ok.major_lt, h.ok.minor_lt, h.ok.nlink_lt, h.ok.size_lt, fun m => ?_,
      fun m hm => ?_⟩
    · simp only [Inode.setAddr, upd]
      split_ifs
      · exact hlt32
      · exact h.ok.addrs_lt m
    · have hne : m ≠ j := by omega
      simpa only [Inode.setAddr, upd, if_neg hne] using h.ok.addrs_out m hm
  obtain ⟨hb, hn⟩ := h.grow ha.sb ha.formatted ha.lt ha.not_used ha.bit ha.dinode hg
    (fun x hx _ => hd x hx) rfl hok
  have hne : b ≠ 0 := by
    have := h.owns.le_of_not_used ha.not_used
    have := h.nmeta_pos
    omega
  exact ⟨ha.toKeeps, hb, hn, rfl, hg.ptr_zero, hg.ptr_eq, hne, ha.zero, ha.dinode, ha.free_eq⟩

/-- Allocating a block for an entry of the indirect block. -/
theorem Base.setEntry (h : st.Base ip) (hj : j < nindirect) (hi : ip.addrs ndirect ≠ 0)
    (h0 : (st.disk (ip.addrs ndirect)).entry j = 0) (ha : Allocates st b st₁) :
    Grows st ip (ndirect + 1 + j) b ip
      (st₁.write (ip.addrs ndirect) ((st₁.disk (ip.addrs ndirect)).setEntry j b)) := by
  have hown := h.not_owned ha.not_used (x := (ip.inum, ndirect))
  rw [h.ptrs_inum, Dinode.ptr_of_le le_rfl] at hown
  obtain ⟨hmeta, hib⟩ := hown hi
  have hlt32 : b < 2 ^ 32 := ha.lt.trans h.sb_ok.size
  have hpos := h.nmeta_pos
  have hone := h.one_lt_bmapstart.trans h.bmapstart_lt
  have hfmt : (st₁.write (ip.addrs ndirect)
      ((st₁.disk (ip.addrs ndirect)).setEntry j b)).Formatted :=
    ha.formatted.write (by omega)
  have hbit : ∀ c < st.sb.size, (st₁.write (ip.addrs ndirect)
      ((st₁.disk (ip.addrs ndirect)).setEntry j b)).bit c = (decide (c = b) || st.bit c) := by
    intro c hc
    have hlt := h.bblock_lt hc
    rw [bit_write_of_ne (by rw [ha.sb]; omega), ha.bit c hc]
  have hdin : ∀ i < st.sb.ninodes, (st₁.write (ip.addrs ndirect)
      ((st₁.disk (ip.addrs ndirect)).setEntry j b)).dinode i = st.dinode i := by
    intro i hlt
    have hlt' := h.iblock_lt_nmeta hlt
    rw [dinode_write_of_ne (by rw [ha.sb]; omega), ha.dinode i hlt]
  have hz : (st₁.write (ip.addrs ndirect) ((st₁.disk (ip.addrs ndirect)).setEntry j b)).disk b =
      Bytes.zero := by rw [disk_write_of_ne (Ne.symm hib), ha.zero]
  have hsb : (st₁.write (ip.addrs ndirect) ((st₁.disk (ip.addrs ndirect)).setEntry j b)).sb =
      st.sb :=
    ha.sb
  have hg : Dinode.Grows st.disk ip.toDinode (ndirect + 1 + j) b (st₁.write (ip.addrs ndirect)
      ((st₁.disk (ip.addrs ndirect)).setEntry j b)).disk ip.toDinode :=
    Dinode.grows_setEntry hj hi hlt32 h0 (by rw [disk_write_self, ha.disk _ hmeta hib]) hz
  obtain ⟨hb, hn⟩ := h.grow hsb hfmt ha.lt ha.not_used hbit hdin hg
    (fun x hx hne => by
      obtain ⟨hle, hxb⟩ := h.not_owned ha.not_used hx
      rw [disk_write_of_ne (h.ptr_ne_indirect hx hne), ha.disk _ hle hxb]) rfl h.ok
  have hne : b ≠ 0 := by
    have := h.owns.le_of_not_used ha.not_used
    omega
  refine ⟨ha.toKeeps.trans keeps_write, hb, hn, rfl, hg.ptr_zero, hg.ptr_eq, hne, hz, hdin, ?_⟩
  rw [Store.free, hsb]
  exact card_freeBlocks_alloc ha.lt ha.not_used hbit

/-! ### `bmap` -/

/-- The number of blocks allocated for a file of `c` blocks. -/
def nblk (c : ℕ) : ℕ := if ndirect < c then c + 1 else c

/-- The indirect block of an inode, if it has one. -/
def ind (ip : Inode) : List ℕ := if ip.addrs ndirect = 0 then [] else [ip.addrs ndirect]

theorem length_ind_le : (ind ip).length ≤ 1 := by
  unfold ind
  split_ifs <;> simp

theorem addr_spec (h : st.Base ip) (hj : j ≤ ndirect) (h0 : ip.addrs j = 0) :
    wp (addr ip j)
      (fun r st' => Grows st ip j r.1 r.2 st' ∧ r.2 = ip.setAddr j r.1 ∧ Logs st 0 1 [r.1] st')
      (fun e st' => Fails st 1 e st' ∧ Logs st 1 1 [] st' ∧ Keeps st st') st := by
  simp only [addr, h0, ↓reduceIte, wp_bind, wp_pure]
  refine wp_post (balloc_spec h.toFormatted h.reserved) fun b st' ha => ?_
  exact ⟨h.setAddr hj h0 ha, trivial, ha.logs⟩

theorem entry_spec (h : st.Base ip) (hj : j < nindirect) (hi : ip.addrs ndirect ≠ 0)
    (h0 : (st.disk (ip.addrs ndirect)).entry j = 0) :
    wp (do
        let b ← balloc
        logWrite (ip.addrs ndirect) fun d => d.setEntry j b
        return (b, ip))
      (fun r st' => Grows st ip (ndirect + 1 + j) r.1 ip st' ∧ r.2 = ip ∧
        Logs st 0 1 [r.1, ip.addrs ndirect] st')
      (fun e st' => Fails st 1 e st' ∧ Logs st 1 1 [ip.addrs ndirect] st' ∧ Keeps st st') st := by
  simp only [wp_bind, wp_pure]
  refine wp_mono (balloc_spec h.toFormatted h.reserved) (fun b st₁ ha => ?_) fun e st₁ hE => ?_
  · have hlog0 : Logs st 0 1 [b, ip.addrs ndirect] st₁ := ha.logs.mono le_rfl le_rfl (by simp)
    have hlog : Logs st 1 1 [ip.addrs ndirect] st₁ := hlog0.forget
    refine wp_logWrite (fun hfull => ⟨.tooBig hfull, hlog, ha.toKeeps⟩)
      (fun ho => ⟨.outside ho, hlog, ha.toKeeps⟩) fun _ _ => ⟨h.setEntry hj hi h0 ha, trivial, ?_⟩
    exact hlog0.trans (logs_write (by simp)) ha.sb
  · exact ⟨hE.1, hE.2.1.mono le_rfl le_rfl (by simp), hE.2.2⟩

/-- `bmap` has found block `b` for block `bn` of an inode that had `c` blocks. -/
structure Maps (st : Store) (ip : Inode) (c bn b : ℕ) (ip' : Inode) (st' : Store) : Prop
    extends Keeps st st' where
  mid : st'.Mid ip' (max c (bn + 1))
  nodes : st'.nodesOf (st'.overlay ip') = st.nodesOf (st.overlay ip)
  ip_eq : ip' = { ip with addrs := ip'.addrs }
  ptr_eq : ip'.toDinode.ptr st'.disk (Dinode.pos bn) = b
  dinode : ∀ i < st.sb.ninodes, st'.dinode i = st.dinode i
  free : st'.free + (nblk (max c (bn + 1)) - nblk c) = st.free
  ind_sub : ind ip ⊆ ind ip'
  logs : Logs st 0 (nblk (max c (bn + 1)) - nblk c) (b :: ind ip') st'
  same : bn < c → st' = st ∧ ip' = ip

/-- `bmap` has panicked, allocating block `c`. -/
structure MapFails (st : Store) (ip : Inode) (c : ℕ) (e : Panic) (st' : Store) : Prop
    extends Keeps st st' where
  fails : Fails st (nblk (c + 1) - nblk c) e st'
  logs : ∃ I : List ℕ, I.length ≤ 1 ∧ ind ip ⊆ I ∧ Logs st 1 (nblk (c + 1) - nblk c) I st'

theorem Mid.maps (h : st.Mid ip c) (hbn : bn < c) :
    Maps st ip c bn (ip.toDinode.ptr st.disk (Dinode.pos bn)) ip st := by
  have hm : max c (bn + 1) = c := by omega
  refine ⟨.refl, by rwa [hm], rfl, rfl, rfl, fun _ _ => rfl, by rw [hm]; omega, List.Subset.refl _,
    .refl, fun _ => ⟨rfl, rfl⟩⟩

/-- A block is added, with its pointer at one of the positions. -/
theorem Mid.maps_succ (h : st.Mid ip c) (hc : c < maxfile) (hK : Keeps st st₁) (hB : st₁.Base ip')
    (hn : st₁.nodesOf (st₁.overlay ip') = st.nodesOf (st.overlay ip))
    (hip : ip' = { ip with addrs := ip'.addrs }) (hb : b ≠ 0)
    (hp : ∀ m < maxfile, ip'.toDinode.ptr st₁.disk (Dinode.pos m) =
      if m = c then b else ip.toDinode.ptr st.disk (Dinode.pos m))
    (hi : ip'.addrs ndirect ≠ 0 ↔ ndirect < c + 1)
    (hdin : ∀ i < st.sb.ninodes, st₁.dinode i = st.dinode i)
    (hfree : st₁.free + (nblk (c + 1) - nblk c) = st.free) (hind : ind ip ⊆ ind ip')
    (hlog : Logs st 0 (nblk (c + 1) - nblk c) (b :: ind ip') st₁) :
    Maps st ip c c b ip' st₁ := by
  have hm : max c (c + 1) = c + 1 := by omega
  refine ⟨hK, ⟨hB, ?_⟩, hn, hip, ?_, hdin, ?_, hind, ?_, fun hlt => absurd hlt (lt_irrefl _)⟩
  · rw [hm]
    exact h.shaped.succ hc hb hp hi
  · rw [hp c hc, if_pos rfl]
  · rwa [hm]
  · rwa [hm]

/-- **`bmap` finds the block, or adds it as the next one, and changes no node.** -/
theorem bmap_spec (h : st.Mid ip c) (hbn : bn ≤ c) (hlt : bn < maxfile) :
    wp (bmap ip bn) (fun r st' => Maps st ip c bn r.1 r.2 st')
      (fun e st' => bn = c ∧ MapFails st ip c e st') st := by
  have hsh := h.shaped.block_iff bn hlt
  unfold bmap
  by_cases hd : bn < ndirect
  · -- A direct address.
    have hpos : Dinode.pos bn = bn := if_pos hd
    have hptr : ip.toDinode.ptr st.disk (Dinode.pos bn) = ip.addrs bn := by
      rw [hpos, Dinode.ptr_of_le hd.le]
    rw [if_pos hd]
    by_cases h0 : ip.addrs bn = 0
    · obtain rfl : bn = c := by rw [hptr] at hsh; omega
      have hnb : nblk (bn + 1) - nblk bn = 1 := by
        unfold nblk
        rw [if_neg (by omega), if_neg (by omega)]
        omega
      refine wp_mono (addr_spec h.toBase hd.le h0) (fun r st₁ hres => ?_) fun e st₁ hE => ?_
      · obtain ⟨hg, hr, hl⟩ := hres
        have hind : r.2.addrs ndirect = ip.addrs ndirect := by
          have hne : ndirect ≠ bn := by omega
          rw [hr]
          simp only [Inode.setAddr, upd, if_neg hne]
        refine h.maps_succ hlt hg.toKeeps hg.base hg.nodes hg.ip_eq hg.ne_zero (fun m hm => ?_) ?_
          hg.dinode (by rw [hnb, hg.free]) (by simp [ind, hind]) ?_
        · rw [hg.ptr_eq]
          have hiff : Dinode.pos m = bn ↔ m = bn :=
            ⟨fun he => Dinode.pos_inj (he.trans hpos.symm), fun he => by rw [he, hpos]⟩
          simp only [hiff]
        · rw [hind, h.shaped.indirect_iff]
          omega
        · rw [hnb]
          exact hl.mono le_rfl le_rfl (by simp)
      · refine ⟨rfl,
          ⟨hE.2.2, by rw [hnb]; exact hE.1, ind ip, length_ind_le, List.Subset.refl _, ?_⟩⟩
        rw [hnb]
        exact hE.2.1.mono le_rfl le_rfl (by simp)
    · have hc : bn < c := hsh.1 (by rwa [hptr])
      simp only [addr, h0, ↓reduceIte, wp_pure]
      rw [← hptr]
      exact h.maps hc
  -- An entry of the indirect block.
  have hlt' : bn - ndirect < nindirect := by
    simp only [ndirect, nindirect, maxfile] at hlt ⊢; omega
  have hpos : Dinode.pos bn = ndirect + 1 + (bn - ndirect) := by
    unfold Dinode.pos
    rw [if_neg hd]
    omega
  rw [if_neg hd, if_pos hlt']
  simp only [wp_bind]
  by_cases hi : ip.addrs ndirect = 0
  · -- There is no indirect block yet: two blocks are allocated.
    have hcn : ¬ ndirect < c := fun hc => h.shaped.indirect_iff.2 hc hi
    obtain rfl : bn = c := by omega
    obtain rfl : bn = ndirect := by omega
    have hnb : nblk (ndirect + 1) - nblk ndirect = 2 := rfl
    have hind : ind ip = [] := if_pos hi
    refine wp_mono (addr_spec h.toBase le_rfl hi) (fun r st₁ hres => ?_) fun e st₁ hE => ?_
    · obtain ⟨hg, hr, hl⟩ := hres
      obtain ⟨a, ip₁⟩ := r
      have ha : ip₁.addrs ndirect = a := by
        rw [show ip₁ = ip.setAddr ndirect a from hr]
        simp [Inode.setAddr]
      have hne : ip₁.addrs ndirect ≠ 0 := by rw [ha]; exact hg.ne_zero
      have hz : (st₁.disk (ip₁.addrs ndirect)).entry (ndirect - ndirect) = 0 := by
        rw [ha, show st₁.disk a = Bytes.zero from hg.zero, Block.entry_zero]
      have hind1 : ind ip₁ = [a] := by rw [ind, if_neg hne, ha]
      simp only [bread, wp_bind, wp_get, wp_pure]
      rw [← ha] at hl ⊢
      rw [if_pos hz]
      refine wp_mono (entry_spec hg.base hlt' hne hz) (fun r st₂ hres => ?_)
        fun e st₂ hE => ?_
      · obtain ⟨hg2, hr2, hl2⟩ := hres
        rw [hr2]
        have hl1 : Logs st 0 1 [r.1, ip₁.addrs ndirect] st₁ := hl.mono le_rfl le_rfl (by simp)
        refine h.maps_succ hlt (hg.toKeeps.trans hg2.toKeeps) hg2.base (hg2.nodes.trans hg.nodes)
          hg.ip_eq hg2.ne_zero (fun m hm => ?_) ?_ (fun i hlt => ?_) ?_ (by simp [hind]) ?_
        · rw [hg2.ptr_eq, hg.ptr_eq, if_neg (Dinode.pos_ne_ndirect)]
          have hiff : Dinode.pos m = ndirect + 1 + (ndirect - ndirect) ↔ m = ndirect := by
            rw [← hpos]
            exact ⟨Dinode.pos_inj, fun he => by rw [he]⟩
          simp only [hiff]
        · exact ⟨fun _ => by omega, fun _ => hne⟩
        · rw [hg2.dinode i (by rwa [hg.sb]), hg.dinode i hlt]
        · have h1 := hg.free
          have h2 := hg2.free
          rw [hnb]
          omega
        · rw [hnb, hind1, ← ha]
          exact hl1.trans hl2 hg.sb
      · obtain ⟨hF, hL, hK⟩ := hE
        refine ⟨trivial, hg.toKeeps.trans hK, ?_, [ip₁.addrs ndirect], le_rfl, by simp [hind], ?_⟩
        · rw [hnb]
          exact hF.after hg.free
        · rw [hnb]
          exact (hl.mono le_rfl le_rfl (List.Subset.refl _)).trans hL hg.sb
    · obtain ⟨hF, hL, hK⟩ := hE
      refine ⟨rfl, hK, by rw [hnb]; exact hF.mono (by omega), [], by simp, by simp [hind], ?_⟩
      rw [hnb]
      exact hL.mono le_rfl (by omega) (List.Subset.refl _)
  · have haddr : ∀ {Q : ℕ × Inode → Store → Prop} {E : Panic → Store → Prop},
        wp (addr ip ndirect) Q E st ↔ Q (ip.addrs ndirect, ip) st := by
      intro Q E
      simp only [addr, hi, ↓reduceIte, wp_pure]
    have hind : ind ip = [ip.addrs ndirect] := if_neg hi
    have hptr : ip.toDinode.ptr st.disk (Dinode.pos bn) =
        (st.disk (ip.addrs ndirect)).entry (bn - ndirect) := by
      rw [hpos, Dinode.ptr_of_lt (by omega) (by omega) hi]
      congr 1
      omega
    rw [haddr]
    simp only [bread, wp_bind, wp_get, wp_pure]
    by_cases h0 : (st.disk (ip.addrs ndirect)).entry (bn - ndirect) = 0
    · obtain rfl : bn = c := by rw [hptr] at hsh; omega
      have hcn : ndirect < bn := h.shaped.indirect_iff.1 hi
      have hnb : nblk (bn + 1) - nblk bn = 1 := by
        unfold nblk
        rw [if_pos hcn, if_pos (by omega)]
        omega
      rw [if_pos h0]
      refine wp_mono (entry_spec h.toBase hlt' hi h0) (fun r st₁ hres => ?_)
        fun e st₁ hE => ?_
      · obtain ⟨hg, hr, hl⟩ := hres
        rw [hr]
        refine h.maps_succ hlt hg.toKeeps hg.base hg.nodes hg.ip_eq hg.ne_zero (fun m hm => ?_) ?_
          hg.dinode (by rw [hnb, hg.free]) (List.Subset.refl _) ?_
        · rw [hg.ptr_eq]
          have hiff : Dinode.pos m = ndirect + 1 + (bn - ndirect) ↔ m = bn := by
            rw [← hpos]
            exact ⟨Dinode.pos_inj, fun he => by rw [he]⟩
          simp only [hiff]
        · exact ⟨fun _ => by omega, fun _ => hi⟩
        · rw [hnb, hind]
          exact hl
      · obtain ⟨hF, hL, hK⟩ := hE
        refine ⟨rfl, hK, by rwa [hnb], ind ip, length_ind_le, List.Subset.refl _, ?_⟩
        rw [hnb, hind]
        exact hL
    · have hc : bn < c := hsh.1 (by rwa [hptr])
      rw [if_neg h0, wp_pure, ← hptr]
      exact h.maps hc

end Store

end Xv6
