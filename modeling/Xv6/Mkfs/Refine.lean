import Mathlib.Order.Interval.Finset.Nat
import Xv6.Fs.Trunc
import Xv6.Mkfs.Model

/-!
# `mkfs` appends as the kernel writes

`iappend` of `mkfs.c` and `writei` of `fs.c` implement the same thing twice.  `State.view` is the
image as the kernel would see it if `mkfs` wrote the free map now.  On it `writei` at the end of a
file does what `iappend` does (`iappend_sim`): the first free block of the map is `freeblock`, and
it holds zeros.

So what is known about `writei` is known about `iappend`: `iappend_spec`.
-/

namespace Xv6

namespace Mkfs

variable {s s' : State} {st st' : Store} {b n : ℕ}

/-! ## The image as the kernel sees it -/

theorem bitmap_succ : bitmap (n + 1) = (bitmap n).setBit n := by
  simp [bitmap, List.range_succ]

theorem bit_bitmap (j : ℕ) : (bitmap n).bit j = decide (j < n) := by
  induction n with
  | zero => simp [bitmap, Block.bit]
  | succ n ih =>
    rw [bitmap_succ, Block.bit_setBit, ih, ← Bool.decide_or]
    exact decide_eq_decide.2 (by omega)

/-- The image, with a free map. -/
def State.shown (s : State) : Disk :=
  fun b => if b = sb.bmapstart then bitmap s.freeblock else s.disk b

/-- The image as a store, in a transaction that has logged nothing. -/
def State.view (s : State) : Store := ⟨sb, s.shown, nlog, 1, [], fun _ => none, fun _ => none⟩

/-- The blocks from `freeblock` on hold zeros. -/
structure State.Fresh (s : State) : Prop where
  le : nmeta ≤ s.freeblock
  le_size : s.freeblock ≤ fssize
  zero : ∀ b, s.freeblock ≤ b → s.disk b = Bytes.zero

/-- The store `st` shows the image. -/
structure Shows (s : State) (st : Store) : Prop extends s.Fresh where
  sb : st.sb = Mkfs.sb
  disk : st.disk = s.shown

theorem State.Fresh.shows (h : s.Fresh) : Shows s s.view := ⟨h, rfl, rfl⟩

theorem Shows.disk_eq (h : Shows s st) (hb : b ≠ 58) : st.disk b = s.disk b := by
  rw [h.disk]
  exact if_neg hb

theorem Shows.bit (h : Shows s st) (hb : b < fssize) : st.bit b = decide (b < s.freeblock) := by
  have hbb : st.sb.bblock b = Mkfs.sb.bmapstart := by
    rw [h.sb, Superblock.bblock, Nat.div_eq_of_lt (by simp only [bpb, fssize] at hb ⊢; omega),
      zero_add]
  rw [Store.bit, hbb, h.disk, State.shown, if_pos rfl, bit_bitmap,
    Nat.mod_eq_of_lt (by simp only [bpb, fssize] at hb ⊢; omega)]

theorem Shows.free (h : Shows s st) : st.free = fssize - s.freeblock := by
  have hset : freeBlocks st.bit st.sb.size = Finset.Ico s.freeblock fssize := by
    ext b
    rw [mem_freeBlocks, Finset.mem_Ico, h.sb]
    constructor
    · rintro ⟨hb, hu⟩
      rw [h.bit hb, decide_eq_false_iff_not] at hu
      exact ⟨Nat.not_lt.1 hu, hb⟩
    rintro ⟨hle, hb⟩
    refine ⟨hb, ?_⟩
    rw [h.bit hb, decide_eq_false_iff_not]
    exact Nat.not_lt.2 hle
  rw [Store.free, hset, Nat.card_Ico]

theorem Shows.write (h : Shows s st) (hb : b ≠ 58) (hlt : b < s.freeblock) {d : Block} :
    Shows { s with disk := upd s.disk b d } (st.write b d) := by
  refine ⟨⟨h.le, h.le_size, fun c hc => ?_⟩, h.sb, ?_⟩
  · have hcb : c ≠ b := fun he => by simp only [he] at hc; omega
    exact (if_neg hcb).trans (h.zero c hc)
  funext c
  rw [Store.write, h.disk]
  show Function.update s.shown b d c = if c = 58 then bitmap s.freeblock else upd s.disk b d c
  rw [Function.update_apply]
  unfold upd
  by_cases hc : c = b
  · subst hc
    rw [if_pos rfl, if_pos rfl, if_neg hb]
  · rw [if_neg hc, if_neg hc]
    rfl

/-- **The first free block of the map is `freeblock`.** -/
theorem nextBlock_sim (h : Shows s st) :
    wp Store.balloc (fun b st' => ∃ s', nextBlock s = .ok b s' ∧ Shows s' st' ∧ nmeta ≤ b ∧
      s' = { s with freeblock := b + 1 } ∧ b < fssize ∧ s.freeblock = b) (fun _ _ => True) st := by
  simp only [Store.balloc, wp_bind, wp_get]
  cases hf : (List.range st.sb.size).find? fun b => !st.bit b with
  | none => trivial
  | some b =>
  obtain ⟨hbit, i, hi, hib, hmin⟩ := List.find?_eq_some_iff_getElem.1 hf
  rw [List.getElem_range] at hib
  subst hib
  rw [List.length_range, h.sb] at hi
  have hlt : i < fssize := hi
  rw [h.bit hlt] at hbit
  obtain rfl : i = s.freeblock := by
    by_contra hne
    have hge : s.freeblock < i := by
      simp only [Bool.not_eq_true', decide_eq_false_iff_not] at hbit
      omega
    have := hmin s.freeblock hge
    rw [List.getElem_range, h.bit (hge.trans hlt)] at this
    simp at this
  have hne : s.freeblock ≠ 58 := fun he => by
    have := h.le; rw [he] at this; exact absurd this (by decide)
  have hbb : st.sb.bblock s.freeblock = 58 := by
    rw [h.sb, Superblock.bblock, Nat.div_eq_of_lt (by simp only [bpb, fssize] at hlt ⊢; omega)]
    rfl
  dsimp only
  rw [wp_bind]
  refine Store.wp_logWrite (E := fun _ _ => True) (fun _ => trivial) (fun _ => trivial)
    fun _ _ => ?_
  rw [Store.bzero, wp_bind]
  refine Store.wp_logWrite (E := fun _ _ => True) (fun _ => trivial) (fun _ => trivial)
    fun _ _ => ?_
  refine ⟨{ s with freeblock := s.freeblock + 1 }, rfl,
    ⟨⟨h.le.trans (Nat.le_succ _), hlt, fun c hc => h.zero c ?_⟩, h.sb, ?_⟩, h.le, rfl, hlt, rfl⟩
  · exact (Nat.le_succ _).trans hc
  funext c
  show Function.update (Function.update st.disk _ _) s.freeblock Bytes.zero c =
    if c = 58 then bitmap (s.freeblock + 1) else s.disk c
  rw [hbb, Function.update_apply, Function.update_apply]
  by_cases hc : c = s.freeblock
  · rw [if_pos hc, if_neg (hc ▸ hne), hc, h.zero _ le_rfl]
  rw [if_neg hc]
  by_cases hc' : c = 58
  · rw [if_pos hc', if_pos hc', bitmap_succ,
      Nat.mod_eq_of_lt (by simp only [bpb, fssize] at hlt ⊢; omega), h.disk]
    rfl
  · rw [if_neg hc', if_neg hc', h.disk_eq hc']

/-! ## One block -/

/-- A block of data that is in use. -/
def State.Data (s : State) (b : ℕ) : Prop := nmeta ≤ b ∧ b < s.freeblock ∧ b < fssize

variable {ip : Inode} {j fbn : ℕ}

theorem rsect_ok (hb : b < fssize) : rsect b s = .ok (s.disk b) s := by
  simp only [rsect, if_neg (Nat.not_le.2 hb)]
  rfl

theorem addr_sim (h : Shows s st) (hd : ip.addrs j ≠ 0 → s.Data (ip.addrs j)) :
    wp (Store.addr ip j)
    (fun r st' => ∃ s', addr ip.toDinode j s = .ok (r.1, r.2.toDinode) s' ∧ Shows s' st' ∧
      s'.Data r.1 ∧ s'.freeinode = s.freeinode) (fun _ _ => True) st := by
  by_cases h0 : ip.addrs j = 0
  · simp only [Store.addr, h0, ↓reduceIte, wp_bind, wp_pure]
    refine wp_post (nextBlock_sim h) fun b st' hres => ?_
    obtain ⟨s', hs', hshow, hle, hfree, hlt, _⟩ := hres
    refine ⟨s', ?_, hshow, ⟨hle, by rw [hfree]; exact Nat.lt_succ_self b, hlt⟩, by rw [hfree]⟩
    simp only [addr, h0, ↓reduceIte, bind, EStateM.bind, hs']
    rfl
  · simp only [Store.addr, h0, ↓reduceIte, wp_pure]
    refine ⟨s, ?_, h, hd h0, rfl⟩
    simp only [addr, h0, ↓reduceIte]
    rfl

theorem State.Data.ne (h : s.Data b) : b ≠ 58 := fun he => by
  have := h.1
  rw [he] at this
  exact absurd this (by decide)

theorem bmap_sim (h : Shows s st) (hd : ∀ j ≤ ndirect, ip.addrs j ≠ 0 → s.Data (ip.addrs j))
    (hlt : fbn < maxfile) :
    wp (Store.bmap ip fbn)
    (fun r st' => ∃ s', bmap ip.toDinode fbn s = .ok (r.1, r.2.toDinode) s' ∧ Shows s' st' ∧
      s'.freeinode = s.freeinode) (fun _ _ => True) st := by
  unfold Store.bmap
  by_cases hdir : fbn < ndirect
  · have hb : bmap ip.toDinode fbn s = addr ip.toDinode fbn s := by rw [bmap, if_pos hdir]
    rw [if_pos hdir, hb]
    refine wp_post (addr_sim h (hd fbn hdir.le)) fun r st' hres => ?_
    obtain ⟨s', hs', hshow, -, hino⟩ := hres
    exact ⟨s', hs', hshow, hino⟩
  have hind : fbn - ndirect < nindirect := by
    simp only [ndirect, nindirect, maxfile] at hlt ⊢; omega
  rw [if_neg hdir, if_pos hind]
  refine wp_seq (addr_sim h (hd ndirect le_rfl)) fun r st₁ hres => ?_
  obtain ⟨s₁, hs1, hshow1, hdata, hino⟩ := hres
  obtain ⟨ind, ip₁⟩ := r
  dsimp only at hs1 hdata ⊢
  have hdisk : st₁.disk ind = s₁.disk ind := hshow1.disk_eq hdata.ne
  simp only [Store.bread, wp_bind, wp_get, wp_pure, hdisk]
  by_cases h0 : (s₁.disk ind).entry (fbn - ndirect) = 0
  · simp only [h0, if_true, wp_bind, wp_pure]
    refine wp_post (nextBlock_sim hshow1) fun b st₂ hres => ?_
    obtain ⟨s₂, hs2, hshow2, hle, hfree, hltb, hfb⟩ := hres
    refine Store.wp_logWrite (E := fun _ _ => True) (fun _ => trivial) (fun _ => trivial)
      fun _ _ => ?_
    have hind2 : ind < s₂.freeblock := by
      have := hdata.2.1
      rw [hfree]
      show ind < b + 1
      omega
    have hdisk2 : st₂.disk ind = s₁.disk ind := by rw [hshow2.disk_eq hdata.ne, hfree]
    refine ⟨{ s₂ with disk := upd s₂.disk ind ((s₁.disk ind).setEntry (fbn - ndirect) b) },
      ?_, ?_, ?_⟩
    · rw [bmap, if_neg hdir, bind_ok hs1]
      dsimp only
      rw [bind_ok (rsect_ok hdata.2.2), if_pos h0, bind_ok hs2]
      rfl
    · rw [hdisk2]
      exact hshow2.write hdata.ne hind2
    · rw [← hino, hfree]
  · simp only [h0, if_false, wp_pure]
    refine ⟨s₁, ?_, hshow1, hino⟩
    rw [bmap, if_neg hdir, bind_ok hs1]
    dsimp only
    rw [bind_ok (rsect_ok hdata.2.2), if_neg h0]
    rfl

/-! ## Appending -/

variable {c off tot fuel : ℕ} {src : Bytes}

theorem Shows.data_ptr (h : Shows s st) (hm : st.Base ip) {k : ℕ}
    (hk : ip.toDinode.ptr st.disk k ≠ 0) :
    s.Data (ip.toDinode.ptr st.disk k) := by
  rw [← hm.ptrs_inum] at hk ⊢
  have hle := hm.owns.le_ptr _ hk
  have hlt := hm.owns.ptr_lt _ hk
  have hu := hm.owns.used_ptr _ hk
  rw [h.sb] at hle hlt
  have hlt' : st.ptrs (st.overlay ip) (ip.inum, k) < fssize := hlt
  rw [h.bit hlt', decide_eq_true_eq] at hu
  exact ⟨hle, hu, hlt'⟩

/-- **The loop of `writei` does what that of `iappend` does.** -/
theorem iappendLoop_sim (h : Shows s st) (hm : st.Mid ip c) (hoff : off ≤ c * bsize)
    (htot : tot ≤ n) (hmax : off + (n - tot) ≤ maxfile * bsize) :
    wp (Store.writeLoop fuel ip src tot off n)
      (fun r st' => ∃ s', iappendLoop fuel ip.toDinode off (src.drop tot) (n - tot) s = .ok
        (r.1, r.2.toDinode) s' ∧ Shows s' st' ∧ s'.freeinode = s.freeinode)
        (fun _ _ => True) st := by
  induction fuel generalizing s st ip c tot off with
  | zero => exact ⟨s, rfl, h, rfl⟩
  | succ fuel ih =>
    rw [Store.writeLoop]
    by_cases hdone : n ≤ tot
    · rw [if_pos hdone]
      refine ⟨s, ?_, h, rfl⟩
      rw [iappendLoop, if_pos (by omega)]
      rfl
    rw [if_neg hdone]
    obtain ⟨m, hmin⟩ : ∃ m, m = min (n - tot) (bsize - off % bsize) := ⟨_, rfl⟩
    have hmod : off % bsize < bsize := Nat.mod_lt _ (by decide)
    have hpos : 0 < m := by omega
    have hmb : off % bsize + m ≤ bsize := by omega
    have hbn : off / bsize ≤ c := by simp only [bsize] at hoff ⊢; omega
    have hlt : off / bsize < maxfile := by simp only [bsize, maxfile] at hmax ⊢; omega
    have hn1 : min (n - tot) ((off / bsize + 1) * bsize - off) = m := by
      simp only [bsize] at hmin ⊢; omega
    have hrem : off - off / bsize * bsize = off % bsize := by simp only [bsize]; omega
    have hfit : off + m ≤ max c (off / bsize + 1) * bsize := by
      have := Nat.mul_le_mul_right bsize (Nat.le_max_right c (off / bsize + 1))
      simp only [bsize] at hmb this ⊢
      omega
    have hd : ∀ j ≤ ndirect, ip.addrs j ≠ 0 → s.Data (ip.addrs j) := fun j hj h0 => by
      have hp : ip.toDinode.ptr st.disk j = ip.addrs j := Dinode.ptr_of_le hj
      rw [← hp] at h0 ⊢
      exact h.data_ptr hm.toBase h0
    rw [← hmin, wp_bind]
    refine wp_mono (wp_and (Store.bmap_spec hm hbn hlt) (bmap_sim h hd hlt))
      (fun r st₁ hres => ?_) fun _ _ _ => trivial
    obtain ⟨hmaps, s₁, hs1, hshow1, hino⟩ := hres
    obtain ⟨b, ip₁⟩ := r
    dsimp only at hmaps hs1 ⊢
    have hc1 : off / bsize < max c (off / bsize + 1) := by omega
    have hb0 := hmaps.mid.block_ne_zero hc1 hmaps.ptr_eq
    have hdata : s₁.Data b := by
      have := hshow1.data_ptr hmaps.mid.toBase (k := Dinode.pos (off / bsize))
      rw [hmaps.ptr_eq] at this
      exact this hb0
    rw [wp_bind]
    refine Store.wp_logWrite (E := fun _ _ => True) (fun _ => trivial) (fun _ => trivial)
      fun _ _ => ?_
    have hshow2 :=
      hshow1.write hdata.ne hdata.2.1 (d := (st₁.disk b).copy (off % bsize) m (src.drop tot))
    have hmid2 :=
      hmaps.mid.write hc1 hmaps.ptr_eq (d := (st₁.disk b).copy (off % bsize) m (src.drop tot))
    refine wp_post (ih hshow2 hmid2 hfit (by omega) (by omega)) fun r st₃ hres => ?_
    obtain ⟨s₃, hs3, hshow3, hino3⟩ := hres
    refine ⟨s₃, ?_, hshow3, hino3.trans hino⟩
    rw [iappendLoop, if_neg (by omega), if_neg (by omega)]
    dsimp only
    rw [bind_ok hs1]
    dsimp only
    rw [bind_ok (rsect_ok hdata.2.2), hn1, hrem, ← hshow1.disk_eq hdata.ne, Bytes.drop_drop,
      Nat.sub_sub]
    exact (bind_ok rfl).trans hs3

theorem iblock_lt {i : ℕ} (hi : i < ninodes) : sb.iblock i < 58 := by
  simp only [Superblock.iblock, sb, ipb, ninodes, nlog, logSize, maxOpBlocks] at hi ⊢
  omega

theorem rinode_ok {i : ℕ} (h : Shows s st) (hi : i < ninodes) :
    rinode i s = .ok (st.dinode i) s := by
  have hlt := iblock_lt hi
  rw [rinode, bind_ok (rsect_ok (by simp only [fssize]; omega)), Store.dinode, h.sb,
    h.disk_eq (by omega)]
  rfl

theorem winode_sim (ip : Inode) (h : Shows s st) (hi : ip.inum < ninodes) :
    wp (Store.iupdate ip)
    (fun _ st' => ∃ s', winode ip.inum ip.toDinode s = .ok () s' ∧ Shows s' st' ∧
      s'.freeblock = s.freeblock ∧ s'.freeinode = s.freeinode) (fun _ _ => True) st := by
  have hlt := iblock_lt hi
  have hle : 59 ≤ s.freeblock := h.le
  simp only [Store.iupdate, wp_bind, wp_get]
  refine Store.wp_logWrite (fun _ => trivial) (fun _ => trivial) fun _ _ => ?_
  rw [h.sb, h.disk_eq (by omega)]
  refine ⟨_, ?_, h.write (by omega) (by omega), rfl, rfl⟩
  rw [winode, bind_ok (rsect_ok (by simp only [fssize]; omega))]
  rfl

/-- **`iappend` does what `writei` at the end of the file does.** -/
theorem iappend_sim (src : Bytes) (h : Shows s st) (hok : st.Ok) (hc : st.Copy ip)
    (hd : ip.type ≠ tDev) (hmax : ip.size + n ≤ maxfile * bsize) (hn : 0 < n) :
    wp (Store.writei ip src ip.size n)
    (fun _ st' => ∃ s', iappend ip.inum src n s = .ok () s' ∧ Shows s' st' ∧
      s'.freeinode = s.freeinode ∧
      s'.freeblock + Store.nblk (blocksOf ip.size) =
      s.freeblock + Store.nblk (blocksOf (ip.size + n)))
      (fun _ _ => True) st := by
  have hwrap : (ip.size + n) % 2 ^ 32 = ip.size + n := Nat.mod_eq_of_lt (hmax.trans_lt (by decide))
  have hi : ip.inum < ninodes := by
    have := hc.inum_lt
    rwa [h.sb] at this
  have hmid := hok.mid hc
  have hfit : ip.size ≤ blocksOf ip.size * bsize := blocksOf_le_iff.1 le_rfl
  have hsim :=
    wp_and (@Store.writeLoop_spec st ip (blocksOf ip.size) ip.size n 0 n src hmid hfit
    (Nat.zero_le n) (by simpa using hmax) (le_refl (n - 0)))
    (iappendLoop_sim h hmid hfit (Nat.zero_le n) (by simpa using hmax))
  simp only [Nat.sub_zero, Bytes.drop_zero] at hsim
  rw [Store.writei, if_neg hd, if_neg (by omega), if_neg (by omega), wp_bind]
  refine wp_mono hsim (fun r st₁ ⟨⟨hoff, hws⟩, s₁, hs1, hshow1, hino1⟩ => ?_) fun _ _ _ => trivial
  obtain ⟨off', ip₁⟩ := r
  dsimp only at hoff hws hs1 ⊢
  subst hoff
  have hinum : ip₁.inum = ip.inum := by rw [hws.ip_eq]
  have hsize : ip₁.size = ip.size := by rw [hws.ip_eq]
  rw [if_pos ⟨hn, by omega⟩]
  refine wp_seq (winode_sim { ip₁ with size := ip.size + n } hshow1 (hinum ▸ hi))
    fun _ st₂ ⟨s₂, hs2, hshow2, hfb, hino2⟩ => ?_
  refine ⟨s₂, ?_, hshow2, hino2.trans hino1, ?_⟩
  · rw [iappend, bind_ok (rinode_ok h hi), hc.dinode_eq, bind_ok hs1]
    dsimp only at hs2 ⊢
    rw [← hinum]
    exact hs2
  have hmono : blocksOf ip.size ≤ blocksOf (ip.size + n) := by simp only [blocksOf, bsize]; omega
  have hfree := hws.free
  have hnblk := Store.nblk_mono hmono
  have h1 := h.le_size
  have h2 := hshow1.le_size
  rw [max_eq_right hmono, h.free, hshow1.free] at hfree
  omega

/-- The image is consistent, and the blocks that are left hold zeros. -/
structure State.Ok (s : State) : Prop extends s.Fresh where
  ok : s.view.Ok

/-- Consistency is about the super block and the disk only. -/
theorem Shows.ok (h : Shows s st) (hok : st.Ok) : s.Ok ∧ s.view.nodes = st.nodes := by
  obtain ⟨hF, hsb, hdisk⟩ := h
  obtain ⟨sb', disk', _, _, _, _, _⟩ := st
  subst hsb hdisk
  exact ⟨⟨hF, ⟨hok.sb_ok, hok.sb_eq⟩, hok.owns, hok.shaped⟩, rfl⟩

/-- The node of inode `i`. -/
def State.node (s : State) (i : ℕ) : Node := s.view.nodes i

theorem node_type {i : ℕ} (hi : i < ninodes) : (s.node i).type = (s.view.dinode i).type := by
  rw [State.node, Store.nodes, Store.nodesOf, if_pos (show i < s.view.sb.ninodes from hi),
    Dinode.node]
  split_ifs with h
  · exact h.symm
  · rfl

theorem touched_append (hn : 0 < n) (hn' : n ≤ bsize) :
    Store.touched off n + (Store.nblk (blocksOf (off + n)) - Store.nblk (blocksOf off)) + 2 <
    29 := by
  have h1 : blocksOf (off + n) ≤ off / bsize + 2 := by simp only [blocksOf, bsize] at hn' ⊢; omega
  have h2 : blocksOf (off + n) ≤ blocksOf off + 1 := by simp only [blocksOf, bsize] at hn' ⊢; omega
  rw [Store.touched, if_neg hn.ne']
  unfold Store.nblk
  split_ifs <;> omega

theorem iappend_spec {i : ℕ} (src : Bytes) (h : s.Ok) (hi : i < ninodes) (ht : (s.node i).type ≠ 0)
    (hd : (s.node i).type ≠ tDev) (hn : 0 < n) (hn' : n ≤ bsize)
    (hmax : (s.node i).size + n ≤ maxfile * bsize)
    (hroom : s.freeblock + Store.nblk (blocksOf ((s.node i).size + n)) ≤
      fssize + Store.nblk (blocksOf (s.node i).size)) :
    wp (iappend i src n) (fun _ s' => s'.Ok ∧ s'.freeinode = s.freeinode ∧
      s'.freeblock + Store.nblk (blocksOf (s.node i).size) =
      s.freeblock + Store.nblk (blocksOf ((s.node i).size + n)) ∧ s'.node =
      Function.update s.node i ((s.node i).write src (s.node i).size n)) (fun _ _ => False) s := by
  rw [node_type hi] at ht hd
  have hc : s.view.Copy ⟨s.view.dinode i, i⟩ := ⟨hi, rfl, ht⟩
  have hsize : (s.node i).size = (s.view.dinode i).size := congrArg Node.size hc.node_eq
  rw [hsize] at hmax hroom ⊢
  have hsim := iappend_sim src h.shows h.ok hc hd hmax hn
  have hw : (s.view.nodes i).Writable (s.view.dinode i).size n :=
    ⟨by rw [show s.view.nodes i = _ from hc.node_eq], hmax⟩
  have hspec := wp_and (Store.writei_spec h.ok hc hd hw) hsim
  unfold wp at hspec
  split at hspec
  · obtain ⟨⟨-, hwr⟩, s', hs', hshow, hino, hfb⟩ := hspec
    obtain ⟨hok', hnodes⟩ := hshow.ok hwr.ok
    refine wp_of_ok hs' ⟨hok', hino, hfb, ?_⟩
    show s'.view.nodes = _
    rw [hnodes, hwr.nodes]
    rfl
  -- the blocks suffice, so the kernel does not panic
  have hmx : max (s.view.dinode i).size ((s.view.dinode i).size + n) =
    (s.view.dinode i).size + n := by omega
  refine absurd hspec.1 (Store.Room.not_fails ⟨Nat.one_pos, List.nodup_nil, ?_, ?_⟩)
  · show 0 + (Store.touched _
      n + (Store.nblk (blocksOf (max (s.view.dinode i).size ((s.view.dinode i).size + n))) -
        Store.nblk (blocksOf (s.view.dinode i).size)) + 2) < 29
    rw [hmx, zero_add]
    exact touched_append hn hn'
  · show Store.nblk (blocksOf (max (s.view.dinode i).size ((s.view.dinode i).size + n))) -
      Store.nblk (blocksOf (s.view.dinode i).size) ≤ _
    rw [hmx, h.shows.free]
    omega

/-- Writing an inode that has no blocks in the place of a free one. -/
theorem winode_free {x : Dinode} {i : ℕ} (h : s.Ok) (hi : i < ninodes) (h0 : (s.node i).type = 0)
    (hx : x.Ok) (hz : ∀ j, x.addrs j = 0) (hs : x.size = 0) (ht : x.type ≠ 0) :
    wp (winode i x) (fun _ s' => s'.Ok ∧ s'.freeinode = s.freeinode ∧ s'.freeblock = s.freeblock ∧
      s'.node = Function.update s.node i ⟨x.type, x.major, x.minor, x.nlink, 0, Bytes.zero⟩)
      (fun _ _ => False) s := by
  rw [node_type hi] at h0
  have hlt := iblock_lt hi
  have hle : 59 ≤ s.freeblock := h.le
  obtain ⟨d, hd⟩ : ∃ d, d = x.put (s.disk (sb.iblock i)) (dinodeSize * (i % ipb)) := ⟨_, rfl⟩
  have hshow : Shows { s with disk := upd s.disk (sb.iblock i) d } (s.view.write (sb.iblock i) d) :=
    h.shows.write (by omega) (by omega)
  have hp : Store.Puts s.view ⟨x, i⟩ (s.view.write (sb.iblock i) d) := by
    rw [hd, ← h.shows.disk_eq (show sb.iblock i ≠ 58 by omega)]
    exact @Store.puts_write s.view ⟨x, i⟩ h.ok.toFormatted hi hx
  have hinum : (⟨x, i⟩ : Inode).inum < s.view.sb.ninodes := hi
  obtain ⟨hok, hn⟩ := Store.Puts.ok_alloc h.ok hinum h0 hz hs ht hp
  obtain ⟨hok', hn'⟩ := hshow.ok hok
  have hok1 : winode i x s = .ok () { s with disk := upd s.disk (sb.iblock i) d } := by
    rw [winode, bind_ok (rsect_ok (by simp only [fssize]; omega)), ← hd]
    rfl
  exact wp_of_ok hok1 ⟨hok', rfl, rfl, hn'.trans hn⟩

theorem ialloc_spec {type : ℕ} (h : s.Ok) (hi : s.freeinode < ninodes)
    (h0 : (s.node s.freeinode).type = 0) (ht : type ≠ 0) (hlt : type < 2 ^ 16) :
    wp (ialloc type) (fun i s' => i = s.freeinode ∧ s'.Ok ∧ s'.freeinode = s.freeinode + 1 ∧
      s'.freeblock = s.freeblock ∧
      s'.node = Function.update s.node i ⟨type, 0, 0, 1, 0, Bytes.zero⟩)
      (fun _ _ => False) s := by
  let s₁ : State := { s with freeinode := s.freeinode + 1 }
  have h1 : s₁.Ok := ⟨⟨h.le, h.le_size, h.zero⟩, h.ok⟩
  have hx : ({ Dinode.zero with type := type, nlink := 1 } : Dinode).Ok :=
    ⟨hlt, Nat.two_pow_pos 16, Nat.two_pow_pos 16, (by decide : 1 < 2 ^ 16), Nat.two_pow_pos 32,
      fun _ => Nat.two_pow_pos 32, fun _ _ => rfl⟩
  have hw := winode_free h1 hi h0 hx (fun _ => rfl) rfl ht
  simp only [ialloc, wp_bind, wp_get, wp_modify, wp_pure]
  exact wp_post hw fun _ s' hres => ⟨trivial, hres⟩

end Mkfs

end Xv6
