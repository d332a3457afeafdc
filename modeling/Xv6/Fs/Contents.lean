import Xv6.Fs.Bmap

/-!
# Reading and writing the contents of an inode

The loops of `readi` and `writei` go block by block, with partial blocks at both ends.  On the view
they do what the calls are for: `readi` returns the bytes of the node and changes nothing,
`writei` overlays the bytes of the node with those of the source.
-/

namespace Xv6

open Function

namespace Bytes

variable {d src : Bytes} {off m m' : ℕ}

@[simp] theorem copy_zero : d.copy off 0 src = d := by
  funext i
  exact copy_of_not_mem (by omega)

theorem copy_copy_drop :
    (d.copy off m src).copy (off + m) m' (src.drop m) = d.copy off (m + m') src := by
  funext i
  by_cases h1 : off + m ≤ i ∧ i < off + m + m'
  · rw [copy_of_mem h1.1 h1.2, copy_of_mem (by omega) (by omega), drop_apply]
    congr 1
    omega
  rw [copy_of_not_mem (by omega)]
  by_cases h2 : off ≤ i ∧ i < off + m
  · rw [copy_of_mem h2.1 h2.2, copy_of_mem h2.1 (by omega)]
  · rw [copy_of_not_mem (by omega), copy_of_not_mem (by omega)]

theorem drop_drop : (d.drop m).drop m' = d.drop (m + m') := by
  funext i
  simp only [drop_apply, add_assoc]

@[simp] theorem drop_zero : d.drop 0 = d := by
  funext i
  simp

end Bytes

theorem blocksOf_le_iff {n c : ℕ} : blocksOf n ≤ c ↔ n ≤ c * bsize := by
  simp only [blocksOf, bsize]
  omega

namespace Store

variable {st st₁ st₂ : Store} {ip ip' ip₁ ip₂ : Inode} {b c i j k bn off m m' n tot fuel : ℕ}
  {e : Panic} {src dst d : Bytes}

/-! ### Writing one block -/

theorem node_over_self (h : st.Base ip) : st.nodesOf (st.overlay ip) ip.inum =
    ⟨ip.type, ip.major, ip.minor, ip.nlink, ip.size, ip.toDinode.data st.disk⟩ := by
  rw [nodesOf, if_pos h.inum_lt, over_self, Dinode.node, if_neg h.type_ne]

section WriteBlock

variable (h : st.Mid ip c) (hbn : bn < c) (hp : ip.toDinode.ptr st.disk (Dinode.pos bn) = b)

include h hbn hp

theorem Mid.block_ne_zero : b ≠ 0 := by
  rw [← hp]
  have hc := h.shaped.le
  exact (h.shaped.block_iff bn (by omega)).2 hbn

theorem Mid.nmeta_le_block : st.sb.nmeta ≤ b := by
  have hb := h.block_ne_zero hbn hp
  rw [← hp, ← h.ptrs_inum] at hb ⊢
  exact h.owns.le_ptr _ hb

theorem Mid.ptr_ne_block {x : ℕ × ℕ} (hx : x ≠ (ip.inum, Dinode.pos bn)) :
    st.ptrs (st.overlay ip) x ≠ b := by
  intro he
  have hb := h.block_ne_zero hbn hp
  rw [← hp, ← h.ptrs_inum] at he hb
  exact hx (h.owns.inj _ _ hb he.symm).symm

theorem Mid.dinode_write (hi : i < st.sb.ninodes) : (st.write b d).dinode i = st.dinode i := by
  have h1 := h.iblock_lt_nmeta hi
  have h2 := h.nmeta_le_block hbn hp
  exact dinode_write_of_ne (by omega)

theorem Mid.ptr_write : ip.toDinode.ptr (st.write b d).disk k = ip.toDinode.ptr st.disk k := by
  refine Dinode.ptr_congr fun h0 => disk_write_of_ne ?_
  have := h.ptr_ne_block hbn hp (x := (ip.inum, ndirect))
    fun he => Dinode.pos_ne_ndirect (congrArg Prod.snd he).symm
  rwa [h.ptrs_inum, Dinode.ptr_of_le le_rfl] at this

theorem Mid.disk_write_other (hi : i < st.sb.ninodes) (hne : i ≠ ip.inum)
    (ht : (st.dinode i).type ≠ 0) :
    (st.write b d).disk ((st.dinode i).ptr st.disk k) = st.disk ((st.dinode i).ptr st.disk k) := by
  refine disk_write_of_ne ?_
  have := h.ptr_ne_block hbn hp (x := (i, k)) fun he => hne (congrArg Prod.fst he)
  rwa [ptrs_of_live hi (by rwa [over_of_ne hne]), over_of_ne hne] at this

theorem Mid.ptr_write_other (hi : i < st.sb.ninodes) (hne : i ≠ ip.inum)
    (ht : (st.dinode i).type ≠ 0) :
    (st.dinode i).ptr (st.write b d).disk k = (st.dinode i).ptr st.disk k := by
  refine Dinode.ptr_congr fun _ => ?_
  have := h.disk_write_other hbn hp (d := d) (k := ndirect) hi hne ht
  rwa [Dinode.ptr_of_le le_rfl] at this

theorem Mid.write : (st.write b d).Mid ip c := by
  have hmeta := h.nmeta_le_block hbn hp
  have hone := h.one_lt_bmapstart.trans h.bmapstart_lt
  have hptr : ∀ x, (st.write b d).ptrs ((st.write b d).overlay ip) x =
      st.ptrs (st.overlay ip) x := by
    rintro ⟨i, k⟩
    by_cases hi : i < st.sb.ninodes
    · by_cases hne : i = ip.inum
      · subst hne
        rw [h.ptrs_inum, ← h.ptr_write hbn hp (d := d)]
        exact @ptrs_over_self (st.write b d) ip k hi h.type_ne
      simp only [ptrs, over_of_ne hne, h.dinode_write hbn hp hi]
      by_cases ht : (st.dinode i).type = 0
      · simp [ht]
      · simp only [keeps_write.sb, hi, ht, ne_eq, not_false_eq_true, and_self, ↓reduceIte]
        exact h.ptr_write_other hbn hp hi hne ht
    · have hsb : (st.write b d).sb = st.sb := rfl
      simp [ptrs, hi, hsb]
  refine ⟨⟨h.toFormatted.write (by omega), h.inum_lt, h.type_ne, h.ok, ?_, ?_⟩,
    h.shaped.congr rfl fun k => h.ptr_write hbn hp⟩
  · refine h.owns.congr (fun x hx => ?_) hptr (Nat.sub_le _ _)
    have := h.bblock_lt hx
    exact bit_write_of_ne (by omega)
  intro i hi hne ht
  have hi' : i < st.sb.ninodes := hi
  rw [h.dinode_write hbn hp hi'] at ht ⊢
  exact (h.others i hi' hne ht).congr rfl fun k => h.ptr_write_other hbn hp hi' hne ht

theorem Mid.free_write : (st.write b d).free = st.free := by
  have hmeta := h.nmeta_le_block hbn hp
  have hsb : (st.write b d).sb = st.sb := rfl
  rw [Store.free, Store.free, hsb]
  congr 1
  ext x
  rw [mem_freeBlocks, mem_freeBlocks]
  refine and_congr_right fun hx => ?_
  have := h.bblock_lt hx
  rw [bit_write_of_ne (by omega)]

theorem Mid.block_write : ip.toDinode.block (st.write b d).disk k =
    if k = bn then d else ip.toDinode.block st.disk k := by
  unfold Dinode.block
  rw [h.ptr_write hbn hp]
  by_cases hk : k = bn
  · subst hk
    rw [if_pos rfl, hp, if_neg (h.block_ne_zero hbn hp), disk_write_self]
  rw [if_neg hk]
  split_ifs with h0
  · rfl
  refine disk_write_of_ne ?_
  have := h.ptr_ne_block hbn hp (x := (ip.inum, Dinode.pos k))
    fun he => hk (Dinode.pos_inj (congrArg Prod.snd he))
  rwa [h.ptrs_inum] at this

theorem Mid.data_write (hoff : off / bsize = bn) (hm : off % bsize + m ≤ bsize) :
    ip.toDinode.data (st.write b ((st.disk b).copy (off % bsize) m src)).disk =
      (ip.toDinode.data st.disk).copy off m src := by
  have hold : ip.toDinode.block st.disk bn = st.disk b := by
    rw [Dinode.block, hp, if_neg (h.block_ne_zero hbn hp)]
  have hc := h.shaped.le
  simp only [bsize, maxfile] at hoff hm hc
  funext k
  unfold Dinode.data
  by_cases hk : k / bsize = bn
  · simp only [bsize] at hk
    have hkm : k < maxfile * bsize := by simp only [maxfile, bsize]; omega
    rw [if_pos hkm, h.block_write hbn hp, if_pos hk]
    by_cases hin : off ≤ k ∧ k < off + m
    · rw [Bytes.copy_of_mem (by simp only [bsize]; omega) (by simp only [bsize]; omega),
        Bytes.copy_of_mem hin.1 hin.2]
      congr 1
      simp only [bsize]
      omega
    · rw [Bytes.copy_of_not_mem (by simp only [bsize]; omega), Bytes.copy_of_not_mem (by omega),
        if_pos hkm, ← hold, ← hk]
  · rw [Bytes.copy_of_not_mem (by simp only [bsize] at hk; omega)]
    simp only [h.block_write hbn hp, if_neg hk]

theorem Mid.nodes_write (hoff : off / bsize = bn) (hm : off % bsize + m ≤ bsize) :
    (st.write b ((st.disk b).copy (off % bsize) m src)).nodesOf
        ((st.write b ((st.disk b).copy (off % bsize) m src)).overlay ip) =
      Function.update (st.nodesOf (st.overlay ip)) ip.inum
        { st.nodesOf (st.overlay ip) ip.inum with
          data := (st.nodesOf (st.overlay ip) ip.inum).data.copy off m src } := by
  have hM := h.write hbn hp (d := (st.disk b).copy (off % bsize) m src)
  funext i
  by_cases hne : i = ip.inum
  · subst hne
    rw [update_self, node_over_self hM.toBase, node_over_self h.toBase,
      h.data_write hbn hp hoff hm]
  rw [update_of_ne hne, nodesOf, nodesOf, over_of_ne hne, over_of_ne hne]
  have hsb : (st.write b ((st.disk b).copy (off % bsize) m src)).sb = st.sb := rfl
  rw [hsb]
  split_ifs with hi
  · rw [h.dinode_write hbn hp hi]
    unfold Dinode.node
    split_ifs with ht
    · rfl
    · rw [Dinode.data_eq_of_block fun bn' _ => Dinode.block_congr fun k _ =>
        h.disk_write_other hbn hp hi hne ht]
  · rfl

end WriteBlock

/-! ### The loop of `writei` -/

/-- The number of blocks touched by `m` bytes at `off`. -/
def touched (off m : ℕ) : ℕ := if m = 0 then 0 else blocksOf (off + m) - off / bsize

/-- `m` bytes have been written at `off` of an inode that had `c` blocks; its size is not yet
set. -/
structure Writes (st : Store) (ip : Inode) (c off m : ℕ) (src : Bytes) (ip' : Inode) (st' : Store) :
    Prop extends Keeps st st' where
  mid : st'.Mid ip' (max c (blocksOf (off + m)))
  nodes : st'.nodesOf (st'.overlay ip') = Function.update (st.nodesOf (st.overlay ip)) ip.inum
    { st.nodesOf (st.overlay ip) ip.inum with
      data := (st.nodesOf (st.overlay ip) ip.inum).data.copy off m src }
  ip_eq : ip' = { ip with addrs := ip'.addrs }
  dinode : ∀ i < st.sb.ninodes, st'.dinode i = st.dinode i
  free : st'.free + (nblk (max c (blocksOf (off + m))) - nblk c) = st.free
  ind_sub : ind ip ⊆ ind ip'
  logs : Logs st (touched off m) (nblk (max c (blocksOf (off + m))) - nblk c) (ind ip') st'
  same : blocksOf (off + m) ≤ c → ip' = ip

/-- The panics on the way. -/
structure WriteFails (st : Store) (ip : Inode) (d a : ℕ) (e : Panic) (st' : Store) : Prop
    extends Keeps st st' where
  fails : Fails st a e st'
  logs : ∃ I : List ℕ, I.length ≤ 1 ∧ ind ip ⊆ I ∧ Logs st d a I st'

theorem nblk_mono {c c' : ℕ} (h : c ≤ c') : nblk c ≤ nblk c' := by
  unfold nblk
  split_ifs <;> omega

theorem Writes.nil (h : st.Mid ip c) (hoff : off ≤ c * bsize) : Writes st ip c off 0 src ip st := by
  have hm : max c (blocksOf (off + 0)) = c := max_eq_left (blocksOf_le_iff.2 hoff)
  refine ⟨.refl, by rwa [hm], ?_, rfl, fun _ _ => rfl, by rw [hm]; omega, List.Subset.refl _, .refl,
    fun _ => rfl⟩
  rw [Bytes.copy_zero, update_eq_self]

theorem Writes.trans (h : Writes st ip c off m src ip₁ st₁)
    (h' : Writes st₁ ip₁ (max c (blocksOf (off + m))) (off + m) m' (src.drop m) ip₂ st₂)
    (hm : 0 < m) (hal : m' = 0 ∨ (off + m) % bsize = 0) :
    Writes st ip c off (m + m') src ip₂ st₂ := by
  have hinum : ip₁.inum = ip.inum := by rw [h.ip_eq]
  have hmono : blocksOf (off + m) ≤ blocksOf (off + (m + m')) := by
    simp only [blocksOf, bsize]
    omega
  have hmax : max (max c (blocksOf (off + m))) (blocksOf (off + m + m')) =
      max c (blocksOf (off + (m + m'))) := by
    rw [add_assoc]
    omega
  have hn1 : nblk c ≤ nblk (max c (blocksOf (off + m))) := nblk_mono (le_max_left _ _)
  have hn2 : nblk (max c (blocksOf (off + m))) ≤ nblk (max c (blocksOf (off + (m + m')))) :=
    nblk_mono (by omega)
  have hmid := h'.mid
  have hfree := h'.free
  have hlogs := h'.logs
  rw [hmax] at hmid hfree hlogs
  refine ⟨h.toKeeps.trans h'.toKeeps, hmid, ?_, ?_, fun i hi => ?_, ?_, ?_, ?_, fun hc => ?_⟩
  · rw [h'.nodes, h.nodes, hinum, update_idem, update_self]
    simp only [Bytes.copy_copy_drop]
  · rw [h'.ip_eq, h.ip_eq]
  · rw [h'.dinode i (by rwa [h.sb]), h.dinode i hi]
  · have hf := h.free
    omega
  · exact fun x hx => h'.ind_sub (h.ind_sub hx)
  · refine ((h.logs.mono le_rfl le_rfl h'.ind_sub).trans hlogs h.sb).mono ?_ (by omega)
      (List.Subset.refl _)
    unfold touched blocksOf
    rw [if_neg hm.ne', if_neg (show m + m' ≠ 0 by omega)]
    rcases hal with rfl | hal
    · rw [if_pos rfl, add_zero, add_zero]
    · simp only [bsize] at hal ⊢
      split_ifs <;> omega
  · rw [h'.same (by rw [add_assoc]; omega), h.same (by omega)]

theorem write_round (src : Bytes) (h : st.Mid ip c) (hoff : off ≤ c * bsize) (hm : 0 < m)
    (hmb : off % bsize + m ≤ bsize) (hmax : off + m ≤ maxfile * bsize) :
    wp (bmap ip (off / bsize))
      (fun r => wp (logWrite r.1 fun d => d.copy (off % bsize) m src)
        (fun _ st' => Writes st ip c off m src r.2 st')
        (WriteFails st ip 1 (nblk (max c (blocksOf (off + m))) - nblk c)))
      (WriteFails st ip 1 (nblk (max c (blocksOf (off + m))) - nblk c)) st := by
  have hblk : blocksOf (off + m) = off / bsize + 1 := by
    simp only [blocksOf, bsize] at hmb ⊢
    omega
  have htouch : touched off m = 1 := by
    rw [touched, if_neg hm.ne', hblk]
    omega
  have hbn : off / bsize ≤ c := by
    simp only [bsize] at hoff ⊢
    omega
  have hlt : off / bsize < maxfile := by
    simp only [bsize, maxfile] at hmax ⊢
    omega
  refine wp_mono (bmap_spec h hbn hlt) (fun r st₁ hr => ?_) fun e st₁ hf => ?_
  · obtain ⟨b, ip₁⟩ := r
    dsimp only at hr ⊢
    have hinum : ip₁.inum = ip.inum := by rw [hr.ip_eq]
    have hc1 : off / bsize < max c (blocksOf (off + m)) := by omega
    have hmid := hr.mid
    have hfree := hr.free
    have hlogs := hr.logs
    rw [← hblk] at hmid hfree hlogs
    have hlog : Logs st 1 (nblk (max c (blocksOf (off + m))) - nblk c) (ind ip₁) st₁ := hlogs.forget
    have hfail : ∀ e, Fails st (nblk (max c (blocksOf (off + m))) - nblk c) e st₁ →
        WriteFails st ip 1 (nblk (max c (blocksOf (off + m))) - nblk c) e st₁ := fun e hF =>
      ⟨hr.toKeeps, hF, ind ip₁, length_ind_le, hr.ind_sub, hlog⟩
    refine wp_logWrite (fun hfull => hfail _ (.tooBig hfull)) (fun ho => hfail _ (.outside ho))
      fun _ _ => ?_
    refine ⟨hr.toKeeps.trans keeps_write, hmid.write hc1 hr.ptr_eq, ?_, hr.ip_eq,
      fun i hi => ?_, ?_, hr.ind_sub, ?_, fun hc => ?_⟩
    · rw [hmid.nodes_write hc1 hr.ptr_eq rfl hmb, hr.nodes, hinum]
    · rw [hmid.dinode_write hc1 hr.ptr_eq (by rwa [hr.sb]), hr.dinode i hi]
    · rwa [hmid.free_write hc1 hr.ptr_eq]
    · rw [htouch]
      exact (hlogs.trans (logs_write List.mem_cons_self) hr.sb).forget
    · exact (hr.same (by omega)).2
  · obtain ⟨hbc, hf⟩ := hf
    have hmx : max c (blocksOf (off + m)) = c + 1 := by omega
    rw [hmx]
    exact ⟨hf.toKeeps, hf.fails, hf.logs⟩

/-- **The loop of `writei` writes the bytes.** -/
theorem writeLoop_spec (h : st.Mid ip c) (hoff : off ≤ c * bsize) (htot : tot ≤ n)
    (hmax : off + (n - tot) ≤ maxfile * bsize) (hfuel : n - tot ≤ fuel) :
    wp (writeLoop fuel ip src tot off n)
      (fun r st' => r.1 = off + (n - tot) ∧ Writes st ip c off (n - tot) (src.drop tot) r.2 st')
      (fun e st' => WriteFails st ip (touched off (n - tot))
        (nblk (max c (blocksOf (off + (n - tot)))) - nblk c) e st') st := by
  induction fuel generalizing st ip c tot off with
  | zero =>
    have hz : n - tot = 0 := by omega
    rw [hz]
    exact ⟨rfl, .nil h hoff⟩
  | succ fuel ih =>
    rw [writeLoop]
    by_cases hdone : n ≤ tot
    · have hz : n - tot = 0 := by omega
      rw [if_pos hdone, hz]
      exact ⟨rfl, .nil h hoff⟩
    rw [if_neg hdone]
    -- The bytes up to the end of the block, or to the end of the source.
    obtain ⟨m, hm⟩ : ∃ m, m = min (n - tot) (bsize - off % bsize) := ⟨_, rfl⟩
    have hmod : off % bsize < bsize := Nat.mod_lt _ (by decide)
    have hpos : 0 < m := by omega
    have hmb : off % bsize + m ≤ bsize := by omega
    have hle : m ≤ n - tot := by omega
    have hrest : n - tot = m + (n - (tot + m)) := by omega
    have hal : n - (tot + m) = 0 ∨ (off + m) % bsize = 0 := by
      simp only [bsize] at hm ⊢
      omega
    have hfit : off + m ≤ max c (blocksOf (off + m)) * bsize :=
      blocksOf_le_iff.1 (le_max_right _ _)
    have hmono : blocksOf (off + m) ≤ blocksOf (off + (n - tot)) := by
      simp only [blocksOf, bsize]
      omega
    have hfails : ∀ e st', WriteFails st ip 1 (nblk (max c (blocksOf (off + m))) - nblk c) e st' →
        WriteFails st ip (touched off (n - tot))
          (nblk (max c (blocksOf (off + (n - tot)))) - nblk c) e st' := by
      rintro e st' ⟨hK, hF, I, hI, hsub, hL⟩
      have hn : nblk (max c (blocksOf (off + m))) ≤ nblk (max c (blocksOf (off + (n - tot)))) :=
        nblk_mono (by omega)
      refine ⟨hK, hF.mono (by omega), I, hI, hsub, hL.mono ?_ (by omega) (List.Subset.refl _)⟩
      unfold touched blocksOf
      rw [if_neg (show n - tot ≠ 0 by omega)]
      simp only [bsize]
      omega
    rw [← hm, wp_bind]
    refine wp_mono (write_round (src.drop tot) h hoff hpos hmb (hmax.trans' (by omega)))
      (fun r st₁ hr => ?_) hfails
    obtain ⟨b, ip₀⟩ := r
    dsimp only at hr ⊢
    rw [wp_bind]
    refine wp_mono hr (fun _ st₁ hw => ?_) hfails
    · refine wp_mono (ih hw.mid hfit (by omega) (by omega) (by omega)) (fun r st₂ hr => ?_)
        fun e st₂ hf => ?_
      · rw [← Bytes.drop_drop] at hr
        refine ⟨by omega, ?_⟩
        rw [hrest]
        exact hw.trans hr.2 hpos hal
      have hmax' : max (max c (blocksOf (off + m))) (blocksOf (off + m + (n - (tot + m)))) =
          max c (blocksOf (off + (n - tot))) := by
        rw [add_assoc, ← hrest]
        omega
      obtain ⟨hK, hF, I, hI, hsub, hL⟩ := hf
      rw [hmax'] at hF hL
      have hn1 : nblk c ≤ nblk (max c (blocksOf (off + m))) := nblk_mono (le_max_left _ _)
      have hn2 : nblk (max c (blocksOf (off + m))) ≤
          nblk (max c (blocksOf (off + (n - tot)))) :=
        nblk_mono (by omega)
      refine ⟨hw.toKeeps.trans hK, (hF.after hw.free).mono (by omega), I, hI,
        fun x hx => hsub (hw.ind_sub hx), ?_⟩
      refine ((hw.logs.mono le_rfl le_rfl hsub).trans hL hw.sb).mono ?_ (by omega)
        (List.Subset.refl _)
      unfold touched blocksOf
      rw [if_neg hpos.ne', if_neg (show n - tot ≠ 0 by omega)]
      simp only [bsize] at hal ⊢
      split_ifs <;> omega

/-! ### The loop of `readi` -/

/-- A block of a file that exists holds its part of the contents. -/
theorem data_of_ptr (hk : k < maxfile * bsize)
    (hp : ip.toDinode.ptr st.disk (Dinode.pos (k / bsize)) ≠ 0) :
    ip.toDinode.data st.disk k = st.disk (ip.toDinode.ptr st.disk (Dinode.pos (k / bsize)))
    (k % bsize) := by
  rw [Dinode.data, if_pos hk, Dinode.block, if_neg hp]

theorem bmap_lookup (hlt : bn < maxfile) (hp : ip.toDinode.ptr st.disk (Dinode.pos bn) ≠ 0) :
    bmap ip bn st = .ok (ip.toDinode.ptr st.disk (Dinode.pos bn), ip) st := by
  unfold Dinode.pos at hp ⊢
  by_cases hd : bn < ndirect
  · rw [if_pos hd, Dinode.ptr_of_le hd.le] at hp ⊢
    rw [bmap, if_pos hd, addr, if_neg hp]
    rfl
  have hind : bn - ndirect < nindirect := by
    simp only [ndirect, nindirect, maxfile] at hlt ⊢; omega
  have hi : ip.addrs ndirect ≠ 0 := fun h0 => hp (by
    rw [if_neg hd, Dinode.ptr, if_neg (by omega), if_pos (.inl h0)])
  rw [if_neg hd, Dinode.ptr_of_lt (by omega) (by omega) hi,
    show bn + 1 - (ndirect + 1) = bn - ndirect by omega] at hp ⊢
  rw [bmap, if_neg hd, if_pos hind, addr, if_neg hi]
  rw [pure_bind]
  refine (bind_ok (rfl : bread (ip.addrs ndirect) st = .ok (st.disk (ip.addrs ndirect)) st)).trans
    ?_
  rw [if_neg hp]
  rfl

/-- **The loop of `readi` reads the bytes and changes nothing**, if the blocks exist. -/
theorem readLoop_lookup (hp : ∀ bn < c, ip.toDinode.ptr st.disk (Dinode.pos bn) ≠ 0)
    (hc : c ≤ maxfile) (htot : tot ≤ n) (hmax : off + (n - tot) ≤ c * bsize)
    (hfuel : n - tot ≤ fuel) :
    readLoop fuel ip dst tot off n st =
      .ok (dst.copy tot (n - tot) ((ip.toDinode.data st.disk).drop off), ip) st := by
  induction fuel generalizing dst tot off with
  | zero =>
    have hz : n - tot = 0 := by omega
    rw [hz, Bytes.copy_zero]
    rfl
  | succ fuel ih =>
    rw [readLoop]
    by_cases hdone : n ≤ tot
    · have hz : n - tot = 0 := by omega
      rw [if_pos hdone, hz, Bytes.copy_zero]
      rfl
    rw [if_neg hdone]
    obtain ⟨m, hm⟩ : ∃ m, m = min (n - tot) (bsize - off % bsize) := ⟨_, rfl⟩
    have hmod : off % bsize < bsize := Nat.mod_lt _ (by decide)
    have hmb : off % bsize + m ≤ bsize := by omega
    have hrest : n - tot = m + (n - (tot + m)) := by omega
    have hbn : off / bsize < c := by simp only [bsize] at hmax ⊢; omega
    -- The block exists, so `bmap` only looks it up.
    have hb := bmap_lookup (by omega) (hp _ hbn)
    have hcopy : dst.copy tot m
      ((st.disk (ip.toDinode.ptr st.disk (Dinode.pos (off / bsize)))).drop (off % bsize)) =
        dst.copy tot m ((ip.toDinode.data st.disk).drop off) := by
      funext i
      by_cases hi : tot ≤ i ∧ i < tot + m
      · have hd : (off + (i - tot)) / bsize = off / bsize := by simp only [bsize] at hmb ⊢; omega
        have hr : (off + (i - tot)) % bsize = off % bsize + (i - tot) := by
          simp only [bsize] at hmb ⊢
          omega
        have hkm : off + (i - tot) < maxfile * bsize := by
          have := Nat.mul_le_mul_right bsize hc
          omega
        rw [Bytes.copy_of_mem hi.1 hi.2, Bytes.copy_of_mem hi.1 hi.2, Bytes.drop_apply,
          Bytes.drop_apply, data_of_ptr hkm (hd ▸ hp _ hbn), hd, hr]
      · rw [Bytes.copy_of_not_mem (by omega), Bytes.copy_of_not_mem (by omega)]
    rw [← hm]
    have hrec : readLoop fuel ip (dst.copy tot m ((ip.toDinode.data st.disk).drop off)) (tot + m)
        (off + m) n st = _ :=
      ih (by omega) (by omega) (by omega)
    rw [bind_ok hb]
    simp only [bread, pure_bind, bind_assoc, get_bind_apply]
    rw [hcopy, hrec, ← Bytes.drop_drop, Bytes.copy_copy_drop, ← hrest]

/-! ### Writing an inode back -/

theorem over_eq (h : st.dinode ip.inum = ip.toDinode) : st.overlay ip = st.dinode := by
  funext i
  by_cases hi : i = ip.inum
  · rw [hi, over_self, h]
  · rw [over_of_ne hi]

/-- The in-memory copy `ip` is that of an allocated inode. -/
structure Copy (st : Store) (ip : Inode) : Prop where
  inum_lt : ip.inum < st.sb.ninodes
  dinode_eq : st.dinode ip.inum = ip.toDinode
  type_ne : ip.type ≠ 0

theorem Ok.mid (h : st.Ok) (hc : st.Copy ip) : st.Mid ip (blocksOf ip.size) := by
  have hov := over_eq hc.dinode_eq
  refine ⟨⟨h.toFormatted, hc.inum_lt, hc.type_ne, ?_, ?_, fun i hi _ ht => h.shaped i hi ht⟩, ?_⟩
  · rw [← hc.dinode_eq]
    exact Dinode.get_ok
  · rw [hov]
    exact h.owns
  · have := h.shaped ip.inum hc.inum_lt (by rw [hc.dinode_eq]; exact hc.type_ne)
    rwa [hc.dinode_eq] at this

theorem Copy.nodes_eq (hc : st.Copy ip) : st.nodesOf (st.overlay ip) = st.nodes := by
  rw [over_eq hc.dinode_eq, nodes]

theorem Copy.node_eq (hc : st.Copy ip) : st.nodes ip.inum =
    ⟨ip.type, ip.major, ip.minor, ip.nlink, ip.size, ip.toDinode.data st.disk⟩ := by
  rw [nodes, nodesOf, if_pos hc.inum_lt, hc.dinode_eq, Dinode.node, if_neg hc.type_ne]

/-- The node of `ip` has become `x`, and nothing else has changed; `ip'` is the new copy. -/
structure Edits (st : Store) (ip : Inode) (x : Node) (ip' : Inode) (st' : Store) : Prop
    extends Keeps st st' where
  ok : st'.Ok
  copy : st'.Copy ip'
  inum_eq : ip'.inum = ip.inum
  nodes : st'.nodes = Function.update st.nodes ip.inum x
  others : ∀ i < st.sb.ninodes, i ≠ ip.inum → st'.dinode i = st.dinode i

/-- The inode `ip` has been written to the disk. -/
structure Puts (st : Store) (ip : Inode) (st' : Store) : Prop extends Keeps st st' where
  formatted : st'.Formatted
  bit : ∀ c < st.sb.size, st'.bit c = st.bit c
  dinode : ∀ i < st.sb.ninodes, st'.dinode i = st.overlay ip i
  disk : ∀ c, st.sb.nmeta ≤ c → st'.disk c = st.disk c
  logs : Logs st 0 0 [st.sb.iblock ip.inum] st'

theorem puts_write (hf : st.Formatted) (hi : ip.inum < st.sb.ninodes) (hok : ip.toDinode.Ok) :
    Puts st ip (st.write (st.sb.iblock ip.inum)
      (ip.put (st.disk (st.sb.iblock ip.inum)) (dinodeSize * (ip.inum % ipb)))) := by
  have hlt := hf.iblock_lt_nmeta hi
  refine ⟨keeps_write, hf.write (hf.one_lt_iblock).ne', fun c _ => ?_, fun i hi' => ?_,
    fun c hc => ?_, logs_write List.mem_cons_self⟩
  · exact bit_write_of_ne (hf.iblock_ne_bblock hi)
  · by_cases hne : i = ip.inum
    · subst hne
      rw [over_self, Store.dinode]
      have hsb : (st.write (st.sb.iblock ip.inum) (ip.put (st.disk (st.sb.iblock ip.inum))
        (dinodeSize * (ip.inum % ipb)))).sb = st.sb := rfl
      rw [hsb, disk_write_self]
      exact Dinode.get_put hok
    rw [over_of_ne hne]
    by_cases hb : st.sb.iblock i = st.sb.iblock ip.inum
    · -- Another inode of the same block.
      have hd : i / ipb = ip.inum / ipb := by simpa [Superblock.iblock] using hb
      have hsb : (st.write (st.sb.iblock ip.inum) (ip.put (st.disk (st.sb.iblock ip.inum))
        (dinodeSize * (ip.inum % ipb)))).sb = st.sb := rfl
      rw [Store.dinode, Store.dinode, hsb, hb, disk_write_self]
      refine Dinode.get_put_of_disjoint ?_
      simp only [ipb, dinodeSize] at hd ⊢
      omega
    · exact dinode_write_of_ne (Ne.symm hb)
  · exact disk_write_of_ne (by omega)

theorem iupdate_spec (hf : st.Formatted) (hi : ip.inum < st.sb.ninodes) (hok : ip.toDinode.Ok) :
    wp (iupdate ip) (fun _ st' => Puts st ip st')
    (fun e st' => Fails st 0 e st' ∧ st' = st) st := by
  simp only [iupdate, wp_bind, wp_get]
  exact wp_logWrite (fun h => ⟨.tooBig h, rfl⟩) (fun h => ⟨.outside h, rfl⟩)
    fun _ _ => puts_write hf hi hok

/-- After the inode is written back the disk is consistent, and shows the node of the copy. -/
theorem Puts.ok (h : Puts st ip st₁)
    (ho : Owns st.bit (st.ptrs (st.overlay ip)) st.sb.nmeta st.sb.size)
    (hsh : ∀ i < st.sb.ninodes, (st.overlay ip i).type ≠ 0 →
      (st.overlay ip i).Shaped st.disk (blocksOf (st.overlay ip i).size)) :
    st₁.Ok ∧ st₁.nodes = st.nodesOf (st.overlay ip) := by
  have hdisk : ∀ i < st.sb.ninodes, (st.overlay ip i).type ≠ 0 → ∀ k,
      (st.overlay ip i).ptr st.disk k ≠ 0 →
      st₁.disk ((st.overlay ip i).ptr st.disk k) = st.disk ((st.overlay ip i).ptr st.disk k) := by
    intro i hi ht k hk
    rw [← ptrs_of_live hi ht] at hk ⊢
    exact h.disk _ (ho.le_ptr _ hk)
  have hptr : ∀ i < st.sb.ninodes, (st.overlay ip i).type ≠ 0 → ∀ k,
      (st.overlay ip i).ptr st₁.disk k = (st.overlay ip i).ptr st.disk k := by
    intro i hi ht k
    refine Dinode.ptr_congr fun h0 => ?_
    have := hdisk i hi ht ndirect
    rw [Dinode.ptr_of_le le_rfl] at this
    exact this h0
  refine ⟨⟨h.formatted, ?_, fun i hi ht => ?_⟩, ?_⟩
  · rw [h.sb]
    refine ho.congr h.bit ?_ (Nat.sub_le _ _)
    rintro ⟨i, k⟩
    simp only [ptrs, h.sb]
    by_cases hi : i < st.sb.ninodes
    · rw [h.dinode i hi]
      by_cases ht : (st.overlay ip i).type = 0
      · simp [ht]
      · simp only [hi, ht, ne_eq, not_false_eq_true, and_self, ↓reduceIte]
        exact hptr i hi ht k
    · simp [hi]
  · rw [h.sb] at hi
    rw [h.dinode i hi] at ht ⊢
    exact (hsh i hi ht).congr rfl (hptr i hi ht)
  · funext i
    simp only [nodes, nodesOf, h.sb]
    split_ifs with hi
    · rw [h.dinode i hi]
      unfold Dinode.node
      split_ifs with ht
      · rfl
      · rw [Dinode.data_eq_of_block fun bn _ => Dinode.block_congr (hdisk i hi ht)]
    · rfl

theorem Mid.shaped_over (h : st.Mid ip (blocksOf ip.size)) : ∀ i < st.sb.ninodes,
    (st.overlay ip i).type ≠ 0 →
    (st.overlay ip i).Shaped st.disk (blocksOf (st.overlay ip i).size) := by
  intro i hi ht
  by_cases hne : i = ip.inum
  · subst hne
    rw [over_self]
    exact h.shaped
  · rw [over_of_ne hne] at ht ⊢
    exact h.others i hi hne ht

theorem Puts.copy (h : Puts st ip st₁) (hi : ip.inum < st.sb.ninodes) (ht : ip.type ≠ 0) :
    st₁.Copy ip := ⟨by rwa [h.sb], by rw [h.dinode _ hi, over_self], ht⟩

theorem iupdate_edits (h : st.Ok) (hc : st.Copy ip) (hok : ip'.toDinode.Ok)
    (hip : ip' =
      { ip with type := ip'.type, major := ip'.major, minor := ip'.minor, nlink := ip'.nlink })
    (ht : ip'.type ≠ 0) :
    wp (iupdate ip')
      (fun _ st' => Edits st ip { st.nodes ip.inum with
        type := ip'.type, major := ip'.major, minor := ip'.minor, nlink := ip'.nlink } ip' st' ∧
        Logs st 0 0 [st.sb.iblock ip.inum] st')
      (fun e st' => Fails st 0 e st' ∧ st' = st) st := by
  have hmid := h.mid hc
  have hinum : ip'.inum = ip.inum := by rw [hip]
  have haddrs : ip'.addrs = ip.addrs := by rw [hip]
  have hsize : ip'.size = ip.size := by rw [hip]
  have hlt : ip'.inum < st.sb.ninodes := by rw [hinum]; exact hc.inum_lt
  have hptr : ∀ k, ip'.toDinode.ptr st.disk k = ip.toDinode.ptr st.disk k := by
    intro k
    simp only [Dinode.ptr, haddrs]
  have hm : st.Mid ip' (blocksOf ip'.size) := by
    refine ⟨⟨h.toFormatted, hlt, ht, hok, ?_, fun i hi _ => h.shaped i hi⟩, ?_⟩
    · refine hmid.owns.congr (fun _ _ => rfl) ?_ (Nat.sub_le _ _)
      rintro ⟨i, k⟩
      by_cases hi : i = ip.inum
      · subst hi
        rw [ptrs_over_self hc.inum_lt hc.type_ne, ← hinum, ptrs_over_self hlt ht, hptr]
      · unfold ptrs
        dsimp only
        rw [over_of_ne hi, over_of_ne (hinum ▸ hi)]
    · rw [hsize]
      exact hmid.shaped.congr (by rw [haddrs]) hptr
  refine wp_post (iupdate_spec h.toFormatted hlt hok) fun _ st₁ hp => ⟨?_, ?_⟩
  · obtain ⟨hok1, hn1⟩ := hp.ok hm.owns hm.shaped_over
    refine ⟨hp.toKeeps, hok1, hp.copy hlt ht, hinum, ?_, fun i hi hne => ?_⟩
    · rw [hn1]
      funext i
      by_cases hi : i = ip.inum
      · subst hi
        rw [update_self, ← hinum, node_over_self hm.toBase, hinum, hc.node_eq, hsize]
        simp only [Node.mk.injEq, true_and]
        exact Dinode.data_eq_of_block fun bn _ => by simp only [Dinode.block, hptr]
      · rw [update_of_ne hi, ← hc.nodes_eq, nodesOf, nodesOf, over_of_ne hi,
          over_of_ne (hinum ▸ hi)]
    · rw [hp.dinode i hi, over_of_ne (hinum ▸ hne)]
  · rw [← hinum]
    exact hp.logs

end Store

end Xv6
