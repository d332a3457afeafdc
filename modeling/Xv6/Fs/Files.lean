import Xv6.Fs.Contents
import Xv6.Fs.Image

/-!
# Files are byte arrays

`readi` and `writei` on the in-memory copy of an inode, in terms of its node: a read returns part of
the contents and changes nothing (`readi_eq`), a write overlays the contents with the source and
leaves every other node alone (`writei_spec`).  A write may fail in the middle, with a panic, when
the disk or the log is full; `Room` is enough for it to succeed (`readi_writei_content`).
-/

namespace Xv6

open List Function

namespace Node

variable {x : Node} {src : Bytes} {off n : ℕ}

/-- The contents of the file as a list of bytes. -/
def content (x : Node) : List UInt8 := (List.range x.size).map x.data

/-- What a read returns: the number of bytes and the bytes. -/
def read (x : Node) (off n : ℕ) : Option (ℕ × Bytes) :=
  if off ≤ x.size ∧ off + n < 2 ^ 32 then
    some (min n (x.size - off), Bytes.zero.copy 0 (min n (x.size - off)) (x.data.drop off))
  else none

/-- The write is within the file or extends it, up to the largest size. -/
def Writable (x : Node) (off n : ℕ) : Prop := off ≤ x.size ∧ off + n ≤ maxfile * bsize

/-- The node after a write. -/
def write (x : Node) (src : Bytes) (off n : ℕ) : Node :=
  { x with size := max x.size (off + n), data := x.data.copy off n src }

theorem content_read {m : ℕ} {buf : Bytes} (h : x.read off n = some (m, buf)) :
    (List.range m).map buf = (x.content.drop off).take n := by
  unfold read at h
  split_ifs at h with hr
  obtain ⟨rfl, rfl⟩ : min n (x.size - off) = m ∧
      Bytes.zero.copy 0 (min n (x.size - off)) (x.data.drop off) = buf := by simpa using h
  refine ext_getElem (by simp [content]) fun i h1 h2 => ?_
  have hi : i < min n (x.size - off) := by simpa using h1
  simp [content, Bytes.copy_of_mem (Nat.zero_le i) (by omega : i < 0 + min n (x.size - off))]

theorem content_write (h : off ≤ x.size) : (x.write src off n).content =
    x.content.take off ++ (List.range n).map src ++ x.content.drop (off + n) := by
  refine ext_getElem ?_ fun i h1 h2 => ?_
  · simp [content, write]
    omega
  simp only [content, write, getElem_map, getElem_range]
  by_cases hlo : i < off
  · rw [Bytes.copy_of_not_mem (by omega), getElem_append_left (by simp; omega),
      getElem_append_left (by simp; omega)]
    simp
  by_cases hhi : i < off + n
  · rw [Bytes.copy_of_mem (by omega) hhi, getElem_append_left (by simp; omega),
      getElem_append_right (by simp; omega)]
    simp [min_eq_left h]
  rw [Bytes.copy_of_not_mem (by omega), getElem_append_right (by simp; omega)]
  simp only [length_append, length_take, length_map, length_range,
    min_eq_left h, getElem_drop, getElem_map, getElem_range]
  congr 1
  omega

end Node

namespace Store

variable {st st₁ : Store} {ip ip' : Inode} {off n : ℕ} {src : Bytes} {e : Panic}

/-- **`readi` returns the bytes of a file whose blocks exist, and changes nothing.** -/
theorem readi_lookup (hd : ip.type ≠ tDev) (hin : ¬ (ip.size < off ∨ (off + n) % 2 ^ 32 < off))
    (hp : ∀ bn < blocksOf (off + min n (ip.size - off)), ip.toDinode.ptr st.disk
      (Dinode.pos bn) ≠ 0)
    (hmax : off + min n (ip.size - off) ≤ maxfile * bsize) :
    readi ip off n st = .ok (some (min n (ip.size - off),
      Bytes.zero.copy 0 (min n (ip.size - off)) ((ip.toDinode.data st.disk).drop off)), ip) st := by
  have hm : (if ip.size < off + n then ip.size - off else n) = min n (ip.size - off) := by
    split_ifs <;> omega
  have hle : off + (min n (ip.size - off) - 0) ≤ blocksOf (off + min n (ip.size - off)) * bsize :=
    (Nat.le_refl _).trans (blocksOf_le_iff.1 le_rfl)
  have hr : readLoop (min n (ip.size - off)) ip Bytes.zero 0 off (min n (ip.size - off)) st = _ :=
    readLoop_lookup hp (blocksOf_le_iff.2 hmax) zero_le hle (Nat.sub_le _ _)
  unfold readi
  rw [if_neg hd, if_neg hin]
  simp only [hm, bind, EStateM.bind, hr]
  rfl

/-- **`readi` returns the bytes of the file and changes nothing.** -/
theorem readi_eq (h : st.Ok) (hc : st.Copy ip) (hd : ip.type ≠ tDev) (hoff : off < 2 ^ 32)
    (hn : n < 2 ^ 32) : readi ip off n st = .ok ((st.nodes ip.inum).read off n, ip) st := by
  have hnode := hc.node_eq
  have hshape := (h.mid hc).shaped
  by_cases hin : off ≤ ip.size ∧ off + n < 2 ^ 32
  · have hle : blocksOf (off + min n (ip.size - off)) ≤ blocksOf ip.size := by
      simp only [blocksOf, bsize]
      omega
    rw [Node.read, hnode, if_pos hin, readi_lookup hd (by omega)
      (fun bn hbn => (hshape.block_iff bn (by have := hshape.le; omega)).2 (by omega))
      (blocksOf_le_iff.1 (hle.trans hshape.le))]
  · rw [Node.read, hnode, if_neg hin]
    unfold readi
    rw [if_neg hd, if_pos (by omega)]
    rfl

/-- **`readi` changes nothing**, whatever is read. -/
theorem readi_pure (h : st.Ok) (hc : st.Copy ip) : ∃ r, readi ip off n st = .ok (r, ip) st := by
  by_cases hd : ip.type = tDev
  · unfold readi
    rw [if_pos hd]
    by_cases hmaj : ndev ≤ ip.major
    · rw [if_pos hmaj]
      exact ⟨_, rfl⟩
    · rw [if_neg hmaj]
      simp only [get_bind_apply]
      cases st.devread ip.major <;> exact ⟨_, rfl⟩
  by_cases hin : ip.size < off ∨ (off + n) % 2 ^ 32 < off
  · unfold readi
    rw [if_neg hd, if_pos hin]
    exact ⟨_, rfl⟩
  have hshape := (h.mid hc).shaped
  have hle : blocksOf (off + min n (ip.size - off)) ≤ blocksOf ip.size := by
    simp only [blocksOf, bsize]
    omega
  exact ⟨_, readi_lookup hd hin
    (fun bn hbn => (hshape.block_iff bn (by have := hshape.le; omega)).2 (by omega))
    (blocksOf_le_iff.1 (hle.trans hshape.le))⟩

/-- `n` bytes have been written at `off`, and the inode has been written back. -/
structure Written (st : Store) (ip : Inode) (src : Bytes) (off n : ℕ) (ip' : Inode) (st' : Store) :
    Prop extends Edits st ip ((st.nodes ip.inum).write src off n) ip' st' where
  logs : ∃ I : List ℕ, I.length ≤ 1 ∧ Logs st (touched off n)
    (nblk (blocksOf (max ip.size (off + n))) - nblk (blocksOf ip.size))
    (st.sb.iblock ip.inum :: I) st'

/-- The panics of a write: the log is full, no transaction is open, or the blocks do not suffice. -/
structure WriteiFails (st : Store) (ip : Inode) (off n : ℕ) (e : Panic) (st' : Store) : Prop
    extends Keeps st st' where
  fails : Fails st (nblk (blocksOf (max ip.size (off + n))) - nblk (blocksOf ip.size)) e st'
  logs : ∃ I : List ℕ, I.length ≤ 1 ∧ Logs st (touched off n)
    (nblk (blocksOf (max ip.size (off + n))) - nblk (blocksOf ip.size))
    (st.sb.iblock ip.inum :: I) st'

theorem blocksOf_max {m : ℕ} : blocksOf (max n m) = max (blocksOf n) (blocksOf m) := by
  simp only [blocksOf, bsize]
  omega

/-- **`writei` overlays the bytes of the file and leaves every other file alone.** -/
theorem writei_spec (h : st.Ok) (hc : st.Copy ip) (hd : ip.type ≠ tDev)
    (hw : (st.nodes ip.inum).Writable off n) :
    wp (writei ip src off n) (fun r st' => r.1 = some n ∧ Written st ip src off n r.2 st')
      (WriteiFails st ip off n) st := by
  have hnode := hc.node_eq
  have hmid := h.mid hc
  obtain ⟨hoff, hmax⟩ : off ≤ ip.size ∧ off + n ≤ maxfile * bsize := by
    simpa [Node.Writable, hnode] using hw
  have hwrap : (off + n) % 2 ^ 32 = off + n := Nat.mod_eq_of_lt (hmax.trans_lt (by decide))
  have hfit : off ≤ blocksOf ip.size * bsize := hoff.trans (blocksOf_le_iff.1 le_rfl)
  unfold writei
  rw [if_neg hd, if_neg (by omega), if_neg (by omega)]
  simp only [wp_bind]
  have hloop := @writeLoop_spec st ip (blocksOf ip.size) off n 0 n src hmid hfit (Nat.zero_le n)
    (by simpa using hmax) (le_refl (n - 0))
  simp only [Nat.sub_zero, Bytes.drop_zero, ← blocksOf_max] at hloop
  refine wp_mono hloop (fun r st₁ hres => ?_) fun e st₁ hf => ?_
  · obtain ⟨hr, hws⟩ := hres
    obtain ⟨off', ip₁⟩ := r
    dsimp only at hr hws ⊢
    subst hr
    have hinum : ip₁.inum = ip.inum := by rw [hws.ip_eq]
    have hsize : ip₁.size = ip.size := by rw [hws.ip_eq]
    have hn1 := hws.nodes
    have hm1 := hws.mid
    have hl1 := hws.logs
    rw [hc.nodes_eq] at hn1
    rw [← blocksOf_max] at hm1 hl1
    by_cases hgrow : 0 < n ∧ ip₁.size < off + n
    · -- The file has grown: the new size is written back with the new addresses.
      rw [if_pos hgrow]
      have hmx : max ip.size (off + n) = off + n := by omega
      rw [hmx] at hm1
      have hm2 : st₁.Mid { ip₁ with size := off + n } (blocksOf (off + n)) := by
        refine ⟨⟨hm1.toFormatted, hm1.inum_lt, hm1.type_ne, ?_, ?_, hm1.others⟩,
          hm1.shaped.congr rfl ?_⟩
        · exact ⟨hm1.ok.type_lt, hm1.ok.major_lt, hm1.ok.minor_lt, hm1.ok.nlink_lt,
            hmax.trans_lt (by decide), hm1.ok.addrs_lt, hm1.ok.addrs_out⟩
        · refine hm1.owns.congr (fun _ _ => rfl) ?_ (Nat.sub_le _ _)
          rintro ⟨i, k⟩
          unfold ptrs overlay
          dsimp only
          split_ifs <;> rfl
        · intro k
          rfl
      simp only [wp_bind]
      refine wp_mono (iupdate_spec hm2.toFormatted hm2.inum_lt hm2.ok) (fun _ st₂ hp => ?_)
        fun e st₂ hf => ?_
      · have hsh := hm2.shaped_over
        obtain ⟨hok, hnodes⟩ := hp.ok hm2.owns hsh
        refine ⟨rfl, ⟨hws.toKeeps.trans hp.toKeeps, hok, hp.copy hm2.inum_lt hm2.type_ne, hinum, ?_,
          fun i hi hne => ?_⟩, ind ip₁, length_ind_le, ?_⟩
        · have hover : st₁.nodesOf (st₁.overlay { ip₁ with size := off + n }) =
              Function.update (st₁.nodesOf (st₁.overlay ip₁)) ip.inum
                { st₁.nodesOf (st₁.overlay ip₁) ip.inum with size := off + n } := by
            funext i
            by_cases hi : i = ip.inum
            · subst hi
              rw [update_self, ← hinum, node_over_self hm1.toBase]
              exact node_over_self hm2.toBase
            · rw [update_of_ne hi, nodesOf, nodesOf, over_of_ne (hinum ▸ hi),
                over_of_ne (hinum ▸ hi)]
          rw [hnodes, hover, hn1, update_idem, update_self]
          simp only [Node.write, hnode, hmx]
        · rw [hp.dinode i (by rwa [hws.sb]), over_of_ne (by rwa [← hinum] at hne), hws.dinode i hi]
        · have hib : st₁.sb.iblock ip₁.inum = st.sb.iblock ip.inum := by rw [hws.sb, hinum]
          have hl2 : Logs st₁ 0 0 (st.sb.iblock ip.inum :: ind ip₁) st₂ :=
            hp.logs.mono le_rfl le_rfl (by simp [hib])
          exact (hl1.mono le_rfl le_rfl (by simp)).trans hl2 hws.sb
      · obtain ⟨hF, rfl⟩ := hf
        exact ⟨hws.toKeeps, hF.of_zero, ind ip₁, length_ind_le, hl1.mono le_rfl le_rfl (by simp)⟩
    · -- The write is within the file: no block was added.
      rw [if_neg hgrow, wp_pure]
      have hle : off + n ≤ ip.size := by omega
      have hmx : max ip.size (off + n) = ip.size := by omega
      obtain rfl : ip₁ = ip := hws.same (by simp only [blocksOf, bsize]; omega)
      rw [hmx] at hm1
      have hcopy : st₁.Copy ip₁ :=
        ⟨hm1.inum_lt, by rw [hws.dinode _ hc.inum_lt, hc.dinode_eq], hc.type_ne⟩
      have hov := over_eq hcopy.dinode_eq
      have hsh := hm1.shaped_over
      rw [hov] at hsh
      refine ⟨rfl, ⟨hws.toKeeps, ⟨hm1.toFormatted, ?_, hsh⟩, hcopy, rfl, ?_,
        fun i hi _ => hws.dinode i hi⟩, ind ip₁, length_ind_le, hl1.mono le_rfl le_rfl (by simp)⟩
      · rw [← hov]
        exact hm1.owns
      · rw [← hcopy.nodes_eq, hn1]
        simp only [Node.write, hnode, hmx]
  · obtain ⟨I, hI, -, hL⟩ := hf.logs
    exact ⟨hf.toKeeps, hf.fails, I, hI, hL.mono le_rfl le_rfl (by simp)⟩

/-- A write that is out of range fails and changes nothing. -/
theorem writei_out (hc : st.Copy ip) (hd : ip.type ≠ tDev)
    (hw : ¬ (st.nodes ip.inum).Writable off n) : writei ip src off n st = .ok (none, ip) st := by
  have hout : ¬ (off ≤ ip.size ∧ off + n ≤ maxfile * bsize) := by
    simpa [Node.Writable, hc.node_eq] using hw
  unfold writei
  rw [if_neg hd]
  by_cases h1 : ip.size < off ∨ (off + n) % 2 ^ 32 < off
  · rw [if_pos h1]
    rfl
  · rw [if_neg h1, if_pos (by omega)]
    rfl

/-- What a write of `n` bytes at `off` needs: an open transaction, room in the log for every block
it may change, and free blocks. -/
structure Room (st : Store) (ip : Inode) (off n : ℕ) : Prop where
  trans : 0 < st.outstanding
  nodup : st.lh.Nodup
  log : st.lh.length +
    (touched off n + (nblk (blocksOf (max ip.size (off + n))) - nblk (blocksOf ip.size)) + 2) <
    min logSize (st.logsize - 1)
  blocks : nblk (blocksOf (max ip.size (off + n))) - nblk (blocksOf ip.size) ≤ st.free

theorem Room.not_fails (hroom : st.Room ip off n) : ¬ WriteiFails st ip off n e st₁ := by
  intro hf
  obtain ⟨I, hI, hL⟩ := hf.logs
  have hlen := hL.length_le hroom.nodup
  have hlog := hroom.log
  simp only [length_cons] at hlen
  cases hf.fails with
  | tooBig hfull =>
    rcases hfull with hfull | hfull
    · omega
    · rw [hf.logsize] at hfull
      omega
  | outside ho =>
    rw [hf.outstanding] at ho
    exact absurd hroom.trans (by omega)
  | outOfBlocks hb => exact absurd hroom.blocks (by omega)

/-- **Files are byte arrays.**  A read returns a part of the contents; a write in range overlays the
contents and changes no other file, unless it panics for lack of room; everything else is
refused. -/
theorem readi_writei_content (h : st.Ok) (hc : st.Copy ip) (hd : ip.type ≠ tDev)
    (hoff : off < 2 ^ 32) (hn : n < 2 ^ 32) (src : Bytes) :
    (if off ≤ (st.nodes ip.inum).size ∧ off + n < 2 ^ 32 then
      ∃ buf, readi ip off n st = .ok (some (min n ((st.nodes ip.inum).size - off), buf), ip) st ∧
        (List.range (min n ((st.nodes ip.inum).size - off))).map buf =
          ((st.nodes ip.inum).content.drop off).take n
    else readi ip off n st = .ok (none, ip) st) ∧
    (if off ≤ (st.nodes ip.inum).size ∧ off + n ≤ maxfile * bsize then
      (∃ ip' st', writei ip src off n st = .ok (some n, ip') st' ∧ st'.Ok ∧ st'.Copy ip' ∧
        ip'.inum = ip.inum ∧
        (st'.nodes ip.inum).content = (st.nodes ip.inum).content.take off ++
          (List.range n).map src ++ (st.nodes ip.inum).content.drop (off + n) ∧
        ∀ i ≠ ip.inum, st'.nodes i = st.nodes i) ∨
      ¬ st.Room ip off n ∧ ∃ e st', writei ip src off n st = .error e st' ∧
        (e = .tooBig ∨ e = .outside ∨ e = .outOfBlocks)
    else writei ip src off n st = .ok (none, ip) st) := by
  constructor
  · have hr := readi_eq h hc hd hoff hn
    split_ifs with hin
    · have hread : (st.nodes ip.inum).read off n =
        some (min n ((st.nodes ip.inum).size - off), _) :=
        if_pos hin
      exact ⟨_, hr.trans (by rw [hread]), Node.content_read hread⟩
    · rw [hr, Node.read, if_neg hin]
  split_ifs with hin
  · have hw := @writei_spec st ip off n src h hc hd hin
    unfold wp at hw
    split at hw
    · rename_i r st' heq
      obtain ⟨hr, hwr⟩ := hw
      refine .inl ⟨r.2, st', by rw [heq, ← hr], hwr.ok, hwr.copy, hwr.inum_eq, ?_, fun i hi => ?_⟩
      · rw [hwr.nodes, update_self, Node.content_write hin.1]
      · rw [hwr.nodes, update_of_ne hi]
    rename_i e st' heq
    refine .inr ⟨fun hroom => hroom.not_fails hw, e, st', heq, ?_⟩
    cases hw.fails with
    | tooBig => exact .inl rfl
    | outside => exact .inr (.inl rfl)
    | outOfBlocks => exact .inr (.inr rfl)
  · exact writei_out hc hd hin

/-- The file `f` of the small file system, in a transaction that has logged nothing yet. -/
def sample : Store := { Image.fs.store with outstanding := 1 }

theorem sample_ok : sample.Ok := ⟨⟨Image.ok.sb_ok, Image.ok.sb_eq⟩, Image.ok.owns, Image.ok.shaped⟩

theorem sample_copy : sample.Copy ⟨Image.file, 2⟩ :=
  ⟨by decide, Image.dinode_eq (i := 2) (by decide), by decide⟩

theorem readi_writei_content_sample :
    ∃ ip st', writei ⟨Image.file, 2⟩ (fun _ => 7) 0 3 sample = .ok (some 3, ip) st' ∧
      (st'.nodes 2).content = [7, 7, 7] := by
  have hn : sample.nodes 2 = ⟨tFile, 0, 0, 1, 0, Bytes.zero⟩ := by
    rw [sample_copy.node_eq, Dinode.data_of_addrs_zero fun _ => rfl]
    rfl
  have h := (readi_writei_content sample_ok sample_copy (by decide) (by decide : (0 : ℕ) < 2 ^ 32)
    (by decide : (3 : ℕ) < 2 ^ 32) fun _ => 7).2
  have hroom : sample.Room ⟨Image.file, 2⟩ 0 3 :=
    ⟨by decide, by decide, by decide +kernel, by decide +kernel⟩
  simp only [hn] at h
  rw [if_pos (by decide)] at h
  rcases h with ⟨ip, st', hw, -, -, -, hcon, -⟩ | ⟨hno, -⟩
  · exact ⟨ip, st', hw, by rw [hcon]; rfl⟩
  · exact absurd hroom hno

/-- A write of 30 blocks fits the file and the disk, but not the log. -/
theorem writei_panics_tooBig :
    sample.Ok ∧ sample.Copy ⟨Image.file, 2⟩ ∧ 900 ≤ sample.free ∧ 0 + 15360 ≤ maxfile * bsize ∧
      errorOf (writei ⟨Image.file, 2⟩ (fun _ => 7) 0 15360 sample) = some .tooBig :=
  ⟨sample_ok, sample_copy, by decide +kernel, by decide, by decide +kernel⟩

end Store

end Xv6
