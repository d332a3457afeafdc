import Xv6.Fs.Bmap
import Xv6.Fs.Syscall

/-!
# A small file system

A disk with the geometry of `mkfs` that has, besides the root directory, one empty file `f` (inode
2) in it.  It is the file system that the examples of this development start from; `Image.ok` says
that it is consistent.
-/

namespace Xv6

namespace Image

/-- The super block that `mkfs` writes. -/
def sb : Superblock := ⟨1000, 941, 200, 30, 2, 32, 58⟩

/-- The bytes of a super block. -/
def sbBytes (sb : Superblock) : Block :=
  let d := Bytes.zero.putLE 4 0 sb.size
  let d := d.putLE 4 4 sb.nblocks
  let d := d.putLE 4 8 sb.ninodes
  let d := d.putLE 4 12 sb.nlog
  let d := d.putLE 4 16 sb.logstart
  let d := d.putLE 4 20 sb.inodestart
  d.putLE 4 24 sb.bmapstart

/-- The inode of the root directory: three entries, in the first data block. -/
def root : Dinode := ⟨tDir, 0, 0, 1, 48, fun j => if j = 0 then 59 else 0⟩

/-- The inode of the file `f`. -/
def file : Dinode := ⟨tFile, 0, 0, 1, 0, fun _ => 0⟩

/-- The entries of the root directory. -/
def rootData : Block :=
  let d := Bytes.zero.copy 0 direntSize (Bytes.dirent rootino (Name.bytes dot))
  let d := d.copy 16 direntSize (Bytes.dirent rootino (Name.bytes dotdot))
  d.copy 32 direntSize (Bytes.dirent 2 (Name.bytes [102]))

/-- The free map: the 59 metadata blocks and the block of the root directory are in use. -/
def bitmap : Block := fun i => if i < 7 then 255 else if i = 7 then 15 else 0

/-- The disk. -/
def disk : Disk := fun b =>
  if b = 1 then sbBytes sb
  else if b = 32 then file.put (root.put Bytes.zero 64) 128
  else if b = 58 then bitmap
  else if b = 59 then rootData
  else Bytes.zero

/-- The file system after booting from the disk, with no devices. -/
def fs : Fs := Fs.boot disk (fun _ => none) fun _ => none

theorem sb_eq : Superblock.get (disk 1) = sb := by decide

theorem root_ok : root.Ok :=
  ⟨by decide, by decide, by decide, by decide, by decide,
    fun j => by simp only [root]; split_ifs <;> decide, fun j hj => by
    simp only [root]; split_ifs <;> omega⟩

theorem file_ok : file.Ok :=
  ⟨by decide, by decide, by decide, by decide, by decide, fun _ => by simp only [file]; decide,
    fun _ _ => rfl⟩

theorem get_zero (off : ℕ) : Dinode.get Bytes.zero off = .zero := by
  simp [Dinode.get, Dinode.zero]

theorem dinode_eq {i : ℕ} (hi : i < 200) :
    fs.store.dinode i = if i = 1 then root else if i = 2 then file else .zero := by
  have hib : fs.store.sb.iblock i = i / 8 + 32 := by
    have : fs.store.sb = sb := sb_eq
    rw [this]
    rfl
  have hd : fs.store.dinode i = .get (disk (i / 8 + 32)) (64 * (i % 8)) := by
    unfold Store.dinode
    rw [hib]
    rfl
  rw [hd]
  by_cases h8 : i < 8
  · rw [Nat.div_eq_of_lt h8, Nat.mod_eq_of_lt h8]
    show Dinode.get (file.put (root.put Bytes.zero 64) 128) (64 * i) = _
    by_cases h1 : i = 1
    · subst h1
      rw [Dinode.get_put_of_disjoint (by decide), Dinode.get_put root_ok, if_pos rfl]
    by_cases h2 : i = 2
    · subst h2
      rw [Dinode.get_put file_ok, if_neg (by decide), if_pos rfl]
    · rw [Dinode.get_put_of_disjoint (by simp only [dinodeSize]; omega),
        Dinode.get_put_of_disjoint (by simp only [dinodeSize]; omega), get_zero,
        if_neg h1, if_neg h2]
  · have hz : disk (i / 8 + 32) = Bytes.zero := by
      unfold disk
      rw [if_neg (by omega), if_neg (by omega), if_neg (by omega), if_neg (by omega)]
    rw [hz, get_zero, if_neg (by omega), if_neg (by omega)]

theorem bit_eq : ∀ b < 1000, fs.store.bit b = decide (b < 60) := by decide +kernel

theorem ptr_root {d : Disk} (k : ℕ) : root.ptr d k = if k = 0 then 59 else 0 := by
  simp only [Dinode.ptr, root]
  by_cases hk : k = 0
  · simp [hk]
  · by_cases hk' : k ≤ 12 <;> simp [hk, hk']

theorem ptr_empty {d : Disk} {x : Dinode} (h : x.addrs = fun _ => 0) (k : ℕ) : x.ptr d k = 0 := by
  simp [Dinode.ptr, h]

section

variable {st : Store} {N : ℕ}

/-- The only block pointer is that of the root directory. -/
theorem ptrs_of (hn : st.sb.ninodes = 200) (hroot : st.dinode 1 = root)
    (hrest : ∀ i < 200, i ≠ 1 → (st.dinode i).size = 0 ∧ (st.dinode i).addrs = fun _ => 0)
    (x : ℕ × ℕ) :
    st.ptrs st.dinode x = if x = (1, 0) then 59 else 0 := by
  obtain ⟨i, k⟩ := x
  unfold Store.ptrs
  by_cases hi : i < 200
  · simp only [hn, hi, true_and, Prod.mk.injEq]
    by_cases h1 : i = 1
    · simp [h1, hroot, ptr_root, show root.type ≠ 0 by decide]
    · simp [h1, ptr_empty (hrest i hi h1).2]
  · simp only [hn, hi, false_and, ↓reduceIte, Prod.mk.injEq]
    rw [if_neg (by omega)]

/-- A disk of `N` blocks with the root directory and empty files is consistent. -/
theorem ok_of (hN : 60 ≤ N) (hN' : N ≤ 1000) (hsb : st.sb = ⟨N, N - 59, 200, 30, 2, 32, 58⟩)
    (heq : Superblock.get (st.disk 1) = st.sb) (hroot : st.dinode 1 = root)
    (hrest : ∀ i < 200, i ≠ 1 → (st.dinode i).size = 0 ∧ (st.dinode i).addrs = fun _ => 0)
    (hbit : ∀ b < N, st.bit b = decide (b < 60)) : st.Ok where
  sb_ok := by
    rw [hsb]
    refine ⟨(by decide : 2 ≤ 2), (by decide : 2 + 30 ≤ 32), (by decide : (200 - 1) / ipb + 32 < 58),
      ?_, Nat.sub_le _ _, (by omega : N < 2 ^ 32), (by decide : rootino < 200),
      (by decide : 200 ≤ 2 ^ 16)⟩
    simp only [Superblock.nmeta, bpb]
    omega
  sb_eq := heq
  owns := by
    have hptrs := ptrs_of (by rw [hsb]) hroot hrest
    have hmeta : st.sb.nmeta = 59 := by
      rw [hsb]
      simp only [Superblock.nmeta]
      omega
    rw [hmeta, show st.sb.size = N by rw [hsb]]
    refine ⟨fun x hx => ?_, fun x hx => ?_, fun x hx => ?_, fun x y hx hxy => ?_, fun b hb => ?_,
      fun b hb hu => ?_⟩
    · rw [hptrs] at hx ⊢
      split_ifs at hx ⊢ <;> simp at hx ⊢
    · rw [hptrs] at hx ⊢
      split_ifs at hx ⊢
      · omega
      · exact absurd rfl hx
    · rw [hptrs] at hx ⊢
      split_ifs at hx ⊢
      · rw [hbit 59 (by omega)]; rfl
      · exact absurd rfl hx
    · rw [hptrs] at hx hxy
      rw [hptrs] at hxy
      split_ifs at hx hxy with h₁ h2
      · rw [h₁, h2]
      · exact absurd rfl hx
    · rw [hbit b (by omega)]
      simp only [decide_eq_true_eq]
      omega
    · rw [hbit b hb, decide_eq_true_eq] at hu
      by_cases h59 : b = 59
      · exact .inr ⟨(1, 0), by rw [hptrs, if_pos rfl, h59]⟩
      · exact .inl (by omega)
  shaped := by
    rw [show st.sb.ninodes = 200 by rw [hsb]]
    intro i hi ht
    by_cases h1 : i = 1
    · rw [h1, hroot]
      refine ⟨by decide, fun bn _ => ?_, by decide⟩
      rw [ptr_root]
      show _ ↔ bn < 1
      by_cases hb : bn < 12
      · rw [Dinode.pos, if_pos hb]
        simp
      · rw [Dinode.pos, if_neg hb, if_neg (by omega)]
        simp
        omega
    · obtain ⟨hsize, haddrs⟩ := hrest i hi h1
      rw [hsize]
      refine ⟨by decide, fun bn _ => ?_, by rw [haddrs]; decide⟩
      rw [ptr_empty haddrs]
      show _ ↔ bn < 0
      simp

/-- The inodes of the small file system, but for that of the root directory, are of empty files or
free. -/
theorem rest_of
    (hdin : ∀ i < 200, st.dinode i = if i = 1 then root else if i = 2 then file else .zero) :
    ∀ i < 200, i ≠ 1 → (st.dinode i).size = 0 ∧ (st.dinode i).addrs = fun _ => 0 := by
  intro i hi h1
  rw [hdin i hi, if_neg h1]
  split_ifs <;> exact ⟨rfl, rfl⟩

end

theorem ok : fs.store.Ok :=
  ok_of (by decide) le_rfl (show fs.store.sb = sb from sb_eq) rfl (dinode_eq (by decide))
    (rest_of fun _ => dinode_eq) bit_eq

/-! ### A full disk -/

/-- The super block of a disk with one data block, that of the root directory. -/
def fullSb : Superblock := ⟨60, 1, 200, 30, 2, 32, 58⟩

/-- The same directory and file on a disk with no free block. -/
def fullDisk : Disk := fun b => if b = 1 then sbBytes fullSb else disk b

/-- The file system after booting from the full disk. -/
def full : Fs := Fs.boot fullDisk (fun _ => none) fun _ => none

theorem fullSb_eq : full.store.sb = fullSb := by decide

theorem full_dinode_eq {i : ℕ} (hi : i < 200) :
    full.store.dinode i = if i = 1 then root else if i = 2 then file else .zero := by
  have hfull : full.store.dinode i = .get (fullDisk (i / 8 + 32)) (64 * (i % 8)) := by
    unfold Store.dinode
    rw [fullSb_eq]
    rfl
  have hfs : fs.store.dinode i = .get (disk (i / 8 + 32)) (64 * (i % 8)) := by
    unfold Store.dinode
    rw [show fs.store.sb = sb from sb_eq]
    rfl
  rw [← dinode_eq hi, hfull, hfs, fullDisk, if_neg (by omega)]

theorem full_ok : full.store.Ok :=
  ok_of le_rfl (by decide) fullSb_eq rfl (full_dinode_eq (by decide))
    (rest_of fun _ => full_dinode_eq) (by decide +kernel)

/-! ### A full inode cache -/

/-- The inode of an empty file that has been unlinked. -/
def orphan : Dinode := ⟨tFile, 0, 0, 0, 0, fun _ => 0⟩

/-- The disk with unlinked files, the inodes 3 to 51. -/
def orphanDisk : Disk := fun b o =>
  if 32 ≤ b ∧ o < bsize ∧ o % dinodeSize = 0 ∧ 3 ≤ 8 * (b - 32) + o / dinodeSize ∧
    8 * (b - 32) + o / dinodeSize < 52 then UInt8.ofNat tFile
  else disk b o

/-- A state in which four processes have the unlinked files open: every slot of the inode cache is
in use. -/
def crowded : Fs where
  store := (Fs.boot orphanDisk (fun _ => none) fun _ => none).store
  icache i :=
    if i = 0 then ⟨4, false, ⟨.zero, rootino⟩⟩ else if i < ninode then ⟨1, true, ⟨orphan, i + 2⟩⟩
      else ⟨0, false, ⟨.zero, 0⟩⟩
  ftable f := if f + 1 < ninode then ⟨.inode, 1, true, false, 0, f + 1, 0⟩
    else ⟨.none, 0, false, false, 0, 0, 0⟩
  pipe _ := none
  proc p := if p < 4 then some ⟨some 0, fun fd => if fd < nofile ∧
    16 * p + fd + 1 < ninode then some (16 * p + fd) else none⟩
    else none
  txns := []
  found := []

theorem crowded_sb : crowded.store.sb = sb := by decide

/-- Two inodes are equal if the fields that are on the disk are. -/
theorem dinode_ext {x y : Dinode}
    (h : x.type = y.type ∧ x.major = y.major ∧ x.minor = y.minor ∧ x.nlink = y.nlink ∧
      x.size = y.size ∧ ∀ j < ndirect + 1, x.addrs j = y.addrs j) (hx : ∀ j, ndirect < j →
      x.addrs j = 0) (hy : ∀ j, ndirect < j → y.addrs j = 0) : x = y := by
  obtain ⟨htype, hmajor, hminor, hnlink, hsize, haddrs⟩ := h
  have : x.addrs = y.addrs := by
    funext j
    by_cases hj : j < ndirect + 1
    · exact haddrs j hj
    · rw [hx j (by omega), hy j (by omega)]
  cases x
  cases y
  simp_all

theorem crowded_dinode {i : ℕ} (hi : i < 200) : crowded.store.dinode i =
    if i = 1 then root else if i = 2 then file else if 3 ≤ i ∧ i < 52 then orphan else .zero := by
  have h : ∀ i < 200, let x := crowded.store.dinode i
      let y := if i = 1 then root else if i = 2 then file else if 3 ≤ i ∧
        i < 52 then orphan else .zero
      x.type = y.type ∧ x.major = y.major ∧ x.minor = y.minor ∧ x.nlink = y.nlink ∧
        x.size = y.size ∧ ∀ j < ndirect + 1, x.addrs j = y.addrs j := by decide +kernel
  refine dinode_ext (h i hi) (fun j hj => if_neg (Nat.not_le.2 hj)) fun j hj => ?_
  split_ifs
  · exact if_neg (ne_of_gt (lt_trans (by decide) hj))
  all_goals rfl

theorem crowded_ok : crowded.store.Ok := by
  refine ok_of (by decide) le_rfl crowded_sb rfl (crowded_dinode (by decide)) (fun i hi h1 => ?_)
    (by decide +kernel)
  rw [crowded_dinode hi, if_neg h1]
  split_ifs <;> exact ⟨rfl, rfl⟩

end Image

end Xv6
