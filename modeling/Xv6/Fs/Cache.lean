import Mathlib.Data.Finset.Prod
import Mathlib.Data.Multiset.Count
import Xv6.Alloc.Names
import Xv6.Fs.Entries
import Xv6.Fs.Trunc

/-!
# The inode cache is a coherent copy

The invariant `Fs.Wf` of the state between any two actions of a system call:

* a slot of the cache in use has an inode of its own, and agrees with the disk once it is read;
* the reference count of a slot counts the open files, the current directories and the local
  variables of running calls that refer to it, and likewise for files;
* no file that is open for writing is a directory;
* an end of a pipe is open iff there is a file for it, and a pipe has an open end.

What running calls have in their local variables is not part of the state, so the invariant is
stated relative to it (`Held`).  The rest of the file says for each action how it changes the state,
and that it keeps the invariant.
-/

namespace Xv6

open Multiset Function

/-- The references outside the tables: what the running calls have in local variables. -/
structure Held where
  /-- Slots of the inode cache. -/
  hand : Multiset ℕ
  /-- Files. -/
  file : Multiset ℕ
  /-- The processes, without the references that a running call has taken from them. -/
  proc : ℕ → Option Proc

/-- The end of a pipe that the file is for. -/
def File.pipeEnd (y : File) : Option (ℕ × Bool) :=
  if y.type = .pipe then some (y.pipe, y.writable) else none

/-- `writeopen` or `readopen` -/
def Pipe.side (x : Pipe) (writable : Bool) : Bool := if writable then x.writeopen else x.readopen

namespace Fs

/-- The end `a.2` of the pipe at page `a.1` is open. -/
def EndOpen (P : ℕ → Option Pipe) (a : ℕ × Bool) : Prop := ∃ x, P a.1 = some x ∧ x.side a.2 = true

/-- Every open end of a pipe has one file, and every pipe an open end. -/
structure Pipes (F : ℕ → File) (P : ℕ → Option Pipe) : Prop where
  names : Names (fun f => (F f).pipeEnd) (EndOpen P)
  live : ∀ q x, P q = some x → ∃ w, x.side w = true

/-- The nodes of the disk. -/
def nodes (s : Fs) : ℕ → Node := s.store.nodes

/-- The number of open files on slot `i`. -/
def fileRefs (s : Fs) (i : ℕ) : ℕ :=
  ((Finset.range nfile).filter fun f => (s.ftable f).type = .inode ∧ (s.ftable f).ip = i).card

/-- The number of processes with current directory `i`. -/
def cwdRefs (proc : ℕ → Option Proc) (i : ℕ) : ℕ :=
  ((Finset.range nproc).filter fun p => (proc p).bind Proc.cwd = some i).card

/-- The number of descriptors for file `f`. -/
def fdRefs (proc : ℕ → Option Proc) (f : ℕ) : ℕ :=
  ((Finset.range nproc ×ˢ Finset.range nofile).filter fun x =>
    ((proc x.1).bind fun q => q.ofile x.2) = some f).card

/-- The invariant of the file system between two actions. -/
structure Wf (x : Held) (s : Fs) : Prop where
  ok : s.store.Ok
  dirs : ∀ i, (s.nodes i).type = tDir → (s.nodes i).Table s.store.sb.ninodes
  slot_lt : ∀ i, 0 < (s.icache i).ref → i < ninode
  inum_lt : ∀ i, 0 < (s.icache i).ref → (s.inode i).inum < s.store.sb.ninodes
  uniq : ∀ i j, 0 < (s.icache i).ref → 0 < (s.icache j).ref →
    (s.inode i).inum = (s.inode j).inum → i = j
  copy : ∀ i, 0 < (s.icache i).ref → (s.icache i).valid = true → s.store.Copy (s.inode i)
  refs : ∀ i, (s.icache i).ref = fileRefs s i + cwdRefs x.proc i + x.hand.count i
  cwd_type : ∀ i, 0 < cwdRefs x.proc i → (s.nodes (s.inode i).inum).type ≠ 0
  cwd_valid : ∀ i, 0 < cwdRefs x.proc i → (s.icache i).valid = true ∨ (s.inode i).inum = rootino
  file_lt : ∀ f, 0 < (s.ftable f).ref → f < nfile
  file_refs : ∀ f, (s.ftable f).ref = fdRefs x.proc f + x.file.count f
  file_pos : ∀ f, (s.ftable f).type ≠ .none → 0 < (s.ftable f).ref
  file_valid : ∀ f, (s.ftable f).type = .inode → (s.icache (s.ftable f).ip).valid = true
  file_dir : ∀ f, (s.ftable f).type = .inode → (s.ftable f).writable = true →
    (s.inode (s.ftable f).ip).type ≠ tDir
  proc_lt : ∀ p q, x.proc p = some q → p < nproc
  fd_lt : ∀ p q fd f, x.proc p = some q → q.ofile fd = some f → fd < nofile
  pipes : Pipes s.ftable s.pipe

variable {s s' : Fs} {x x' : Held} {i j inum : ℕ} {y : Slot}

/-- What is in the tables of inodes and files, and on the disk, decides. -/
theorem Wf.congr (h : Wf x s) (hs : s'.store = s.store) (hi : s'.icache = s.icache)
    (hf : s'.ftable = s.ftable) (hp : Pipes s.ftable s'.pipe) : Wf x s' := by
  obtain ⟨st, ic, ft, pi, pr, ts, fo⟩ := s'
  obtain rfl : st = s.store := hs
  obtain rfl : ic = s.icache := hi
  obtain rfl : ft = s.ftable := hf
  exact ⟨h.ok, h.dirs, h.slot_lt, h.inum_lt, h.uniq, h.copy, h.refs, h.cwd_type, h.cwd_valid,
    h.file_lt, h.file_refs, h.file_pos, h.file_valid, h.file_dir, h.proc_lt, h.fd_lt, hp⟩

/-! ### Changing one slot -/

@[simp] theorem setSlot_self : (s.setSlot i y).icache i = y := by simp [setSlot]

theorem setSlot_of_ne (h : j ≠ i) : (s.setSlot i y).icache j = s.icache j := by
  simp [setSlot, update_of_ne h]

theorem setSlot_eq_self (h : y = s.icache i) : s.setSlot i y = s := by
  simp [setSlot, h]

@[simp] theorem store_setSlot : (s.setSlot i y).store = s.store := rfl

@[simp] theorem ftable_setSlot : (s.setSlot i y).ftable = s.ftable := rfl

@[simp] theorem fileRefs_setSlot : fileRefs (s.setSlot i y) = fileRefs s := rfl

@[simp] theorem nodes_setSlot : (s.setSlot i y).nodes = s.nodes := rfl

theorem inode_setSlot_self : (s.setSlot i y).inode i = y.ip := by rw [inode, setSlot_self]

theorem inode_setSlot_of_ne (h : j ≠ i) : (s.setSlot i y).inode j = s.inode j := by
  rw [inode, inode, setSlot_of_ne h]

theorem Wf.fileRefs_pos (h : Wf x s) {f : ℕ} (hf : (s.ftable f).type = .inode) :
    0 < fileRefs s (s.ftable f).ip :=
  Finset.card_pos.2 ⟨f, Finset.mem_filter.2
    ⟨Finset.mem_range.2 (h.file_lt f (h.file_pos f (by simp [hf]))), hf, rfl⟩⟩

/-- The conditions on the new contents `y` of slot `i`. -/
structure SlotOk (x x' : Held) (s : Fs) (i : ℕ) (y : Slot) : Prop where
  slot_lt : 0 < y.ref → i < ninode
  inum_lt : 0 < y.ref → y.ip.inum < s.store.sb.ninodes
  uniq : 0 < y.ref → ∀ j ≠ i, 0 < (s.icache j).ref → (s.inode j).inum ≠ y.ip.inum
  copy : 0 < y.ref → y.valid = true → s.store.Copy y.ip
  refs : y.ref = fileRefs s i + cwdRefs x.proc i + x'.hand.count i
  cwd_type : 0 < cwdRefs x.proc i → (s.nodes y.ip.inum).type ≠ 0
  cwd_valid : 0 < cwdRefs x.proc i → y.valid = true ∨ y.ip.inum = rootino
  file_valid : 0 < fileRefs s i → y.valid = true
  file_dir : 0 < fileRefs s i → (s.inode i).type ≠ tDir → y.ip.type ≠ tDir
  count : ∀ j ≠ i, x'.hand.count j = x.hand.count j
  file : x'.file = x.file
  proc : x'.proc = x.proc

theorem Wf.setSlot (h : Wf x s) (hy : SlotOk x x' s i y) : Wf x' (s.setSlot i y) where
  ok := h.ok
  dirs := h.dirs
  slot_lt := upd_forall (F := fun j (z : Slot) => 0 < z.ref → j < ninode) hy.slot_lt
    fun j _ => h.slot_lt j
  inum_lt := upd_forall (F := fun _ (z : Slot) => 0 < z.ref → z.ip.inum < s.store.sb.ninodes)
    hy.inum_lt fun j _ => h.inum_lt j
  uniq j k hj hk hjk := by
    by_cases hji : j = i <;> by_cases hki : k = i
    · rw [hji, hki]
    · subst hji
      rw [setSlot_self] at hj
      rw [setSlot_of_ne hki] at hk
      rw [inode_setSlot_self, inode_setSlot_of_ne hki] at hjk
      exact absurd hjk.symm (hy.uniq hj k hki hk)
    · subst hki
      rw [setSlot_self] at hk
      rw [setSlot_of_ne hji] at hj
      rw [inode_setSlot_self, inode_setSlot_of_ne hji] at hjk
      exact absurd hjk (hy.uniq hk j hji hj)
    · rw [setSlot_of_ne hji] at hj
      rw [setSlot_of_ne hki] at hk
      rw [inode_setSlot_of_ne hji, inode_setSlot_of_ne hki] at hjk
      exact h.uniq j k hj hk hjk
  copy := upd_forall (F := fun _ (z : Slot) => 0 < z.ref → z.valid = true → s.store.Copy z.ip)
    hy.copy fun j _ => h.copy j
  refs := by
    rw [hy.proc]
    refine upd_forall (F := fun j (z : Slot) => z.ref = fileRefs s j + cwdRefs x.proc j +
      x'.hand.count j) hy.refs fun j hj => ?_
    rw [hy.count j hj]
    exact h.refs j
  cwd_type := by
    rw [hy.proc]
    exact upd_forall (F := fun j (z : Slot) => 0 < cwdRefs x.proc j →
      (s.nodes z.ip.inum).type ≠ 0) hy.cwd_type fun j _ => h.cwd_type j
  cwd_valid := by
    rw [hy.proc]
    exact upd_forall (F := fun j (z : Slot) => 0 < cwdRefs x.proc j →
      z.valid = true ∨ z.ip.inum = rootino) hy.cwd_valid fun j _ => h.cwd_valid j
  file_lt := h.file_lt
  file_refs f := by
    rw [hy.proc, hy.file]
    exact h.file_refs f
  file_pos := h.file_pos
  file_valid f hf := by
    rw [ftable_setSlot] at hf ⊢
    by_cases hji : (s.ftable f).ip = i
    · rw [hji, setSlot_self]
      exact hy.file_valid (hji ▸ h.fileRefs_pos hf)
    · rw [setSlot_of_ne hji]
      exact h.file_valid f hf
  file_dir f hf hw := by
    rw [ftable_setSlot] at hf hw ⊢
    by_cases hji : (s.ftable f).ip = i
    · rw [hji, inode_setSlot_self]
      exact hy.file_dir (hji ▸ h.fileRefs_pos hf) (hji ▸ h.file_dir f hf hw)
    · rw [inode_setSlot_of_ne hji]
      exact h.file_dir f hf hw
  proc_lt := by
    rw [hy.proc]
    exact h.proc_lt
  fd_lt := by
    rw [hy.proc]
    exact h.fd_lt
  pipes := h.pipes

/-! ### Running an action on the store -/

section Lift

variable {α : Type} {Q : α → Fs → Prop} {E : Panic → Fs → Prop}

theorem wp_onStore {f : StoreM α} : wp (onStore f) Q E s ↔
    wp f (fun a st => Q a { s with store := st }) (fun e st => E e { s with store := st })
    s.store := by
  unfold wp onStore
  cases f s.store <;> rfl

/-- The state after slot `i` has been given the copy `ip`, and the store has changed. -/
def put (s : Fs) (i : ℕ) (st : Store) (ip : Inode) : Fs :=
  { s with store := st }.setSlot i { s.icache i with ip := ip }

theorem wp_onInode {f : Inode → StoreM (α × Inode)} : wp (onInode i f) Q E s ↔
    wp (f (s.inode i)) (fun r st => Q r.1 (s.put i st r.2)) (fun e st => E e { s with store := st })
      s.store := by
  unfold onInode
  simp only [wp_bind, wp_get, wp_onStore, wp_modify, wp_pure]
  rfl

theorem wp_update {f : Inode → Inode} {Q : Unit → Fs → Prop} : wp (update i f) Q E s ↔
    wp (Store.iupdate (f (s.inode i))) (fun _ st => Q () (s.put i st (f (s.inode i))))
      (fun e st => E e { s with store := st }) s.store := by
  unfold update
  simp only [wp_onInode, wp_bind, wp_pure]

end Lift

theorem put_eq_self : s.put i s.store (s.inode i) = s := setSlot_eq_self rfl

variable {st : Store} {ip : Inode} {n : Node} {e : Panic}

/-- Changing the contents of an inode keeps the invariant. -/
theorem Wf.put (h : Wf x s) (hr : 0 < (s.icache i).ref) (he : s.store.Edits (s.inode i) n ip st)
    (ht : n.type = (s.inode i).type) (hd : n.type = tDir → n.Table s.store.sb.ninodes) :
    Wf x (s.put i st ip) := by
  have hnodes : (s.put i st ip).nodes = Function.update s.nodes (s.inode i).inum n := he.nodes
  have hicache : ∀ j, ((s.put i st ip).icache j).ref = (s.icache j).ref ∧
      ((s.put i st ip).icache j).valid = (s.icache j).valid := by
    intro j
    by_cases hji : j = i
    · subst hji
      simp [Fs.put]
    · rw [Fs.put, setSlot_of_ne hji]
      exact ⟨rfl, rfl⟩
  have hself : (s.put i st ip).inode i = ip := inode_setSlot_self
  have hother : ∀ j ≠ i, (s.put i st ip).inode j = s.inode j := fun j hji => inode_setSlot_of_ne hji
  have hinum : ∀ j, ((s.put i st ip).inode j).inum = (s.inode j).inum := by
    intro j
    by_cases hji : j = i
    · subst hji
      rw [hself, he.inum_eq]
    · rw [hother j hji]
  have hiptype : ip.type = (s.inode i).type := by
    have h1 := he.copy.node_eq
    rw [he.nodes, he.inum_eq, update_self] at h1
    rw [← ht, h1]
  have htype : ∀ k, (s.nodes k).type ≠ 0 → ((s.put i st ip).nodes k).type ≠ 0 := by
    intro k hk
    rw [hnodes]
    by_cases hki : k = (s.inode i).inum
    · rw [hki, update_self, ht, ← hiptype]
      exact he.copy.type_ne
    · rwa [update_of_ne hki]
  refine
    { ok := he.ok
      dirs := fun k hk => ?_
      slot_lt := fun j hj => h.slot_lt j ((hicache j).1 ▸ hj)
      inum_lt := fun j hj => ?_
      uniq := fun j k hj hk hjk => ?_
      copy := fun j hj hvj => ?_
      refs := fun j => (hicache j).1.trans (h.refs j)
      cwd_type := fun j hj => by rw [hinum]; exact htype _ (h.cwd_type j hj)
      cwd_valid := fun j hj => by rw [hinum, (hicache j).2]; exact h.cwd_valid j hj
      file_lt := h.file_lt, file_refs := h.file_refs, file_pos := h.file_pos
      file_valid := fun f hf => (hicache _).2.trans (h.file_valid f hf)
      file_dir := fun f hf hw => ?_
      proc_lt := h.proc_lt, fd_lt := h.fd_lt, pipes := h.pipes }
  · have hsb : (s.put i st ip).store.sb = s.store.sb := he.sb
    rw [hnodes] at hk ⊢
    rw [hsb]
    by_cases hki : k = (s.inode i).inum
    · rw [hki, update_self] at hk ⊢
      exact hd hk
    · rw [update_of_ne hki] at hk ⊢
      exact h.dirs k hk
  · rw [hinum]
    exact (h.inum_lt j ((hicache j).1 ▸ hj)).trans_eq (congrArg _ he.sb.symm)
  · rw [hinum, hinum] at hjk
    exact h.uniq j k ((hicache j).1 ▸ hj) ((hicache k).1 ▸ hk) hjk
  · by_cases hji : j = i
    · rw [hji, hself]
      exact he.copy
    rw [(hicache j).1] at hj
    rw [(hicache j).2] at hvj
    rw [hother j hji]
    have hc := h.copy j hj hvj
    have hne : (s.inode j).inum ≠ (s.inode i).inum := fun heq => hji (h.uniq j i hj hr heq)
    exact ⟨hc.inum_lt.trans_eq (congrArg _ he.sb.symm), (he.others _ hc.inum_lt hne).trans
      hc.dinode_eq, hc.type_ne⟩
  · by_cases hji : (s.ftable f).ip = i
    · have hgoal : ((s.put i st ip).inode (s.ftable f).ip).type ≠ tDir := by
        rw [hji, hself, hiptype, ← hji]
        exact h.file_dir f hf hw
      exact hgoal
    have hgoal : ((s.put i st ip).inode (s.ftable f).ip).type ≠ tDir := by
      rw [hother _ hji]
      exact h.file_dir f hf hw
    exact hgoal

/-! ### Taking and dropping references -/

/-- A reference to slot `i` has been taken; the slot is for inode `inum`. -/
structure Gets (s : Fs) (inum i : ℕ) (s' : Fs) : Prop where
  eq_setSlot : s' = s.setSlot i (s'.icache i)
  slot_lt : i < ninode
  inum_eq : (s'.inode i).inum = inum
  ref_eq : (s'.icache i).ref = (s.icache i).ref + 1
  old : 0 < (s.icache i).ref → s'.icache i = { s.icache i with ref := (s.icache i).ref + 1 }
  new : (s.icache i).ref = 0 → (s'.icache i).valid = false ∧
    ∀ j < ninode, 0 < (s.icache j).ref → (s.inode j).inum ≠ inum

theorem iget_spec : wp (iget inum) (fun i s' => Gets s inum i s')
    (fun e s' => e = .igetNoInodes ∧ s' = s) s := by
  unfold iget
  rw [wp_bind, wp_get]
  split
  · rename_i i hfind
    have hlt := List.mem_range.1 (List.mem_of_find?_eq_some hfind)
    obtain ⟨hr, hin⟩ : 0 < (s.icache i).ref ∧ (s.inode i).inum = inum := by
      simpa using List.find?_some hfind
    simp only [wp_bind, wp_modify, wp_pure]
    refine ⟨by rw [setSlot_self], hlt, ?_, by rw [setSlot_self], fun _ => by rw [setSlot_self],
      fun h0 => absurd hr (by omega)⟩
    rw [inode_setSlot_self]
    exact hin
  rename_i hnone
  split
  · exact ⟨rfl, rfl⟩
  rename_i i hfind
  have hlt := List.mem_range.1 (List.mem_of_find?_eq_some hfind)
  have h0 : (s.icache i).ref = 0 := by simpa using List.find?_some hfind
  simp only [wp_bind, wp_modify, wp_pure]
  refine ⟨by rw [setSlot_self], hlt, by rw [inode_setSlot_self], by rw [setSlot_self, h0],
    fun hr => absurd hr (by omega), fun _ => ⟨by rw [setSlot_self], fun j hj hr heq => ?_⟩⟩
  have := List.find?_eq_none.1 hnone j (List.mem_range.2 hj)
  simp [hr, heq] at this

theorem idup_spec (hr : 0 < (s.icache i).ref) (hlt : i < ninode) :
    wp (idup i) (fun j s' => j = i ∧ Gets s (s.inode i).inum i s') (fun _ _ => False) s := by
  unfold idup
  simp only [wp_bind, wp_modify, wp_pure]
  exact ⟨trivial, by rw [setSlot_self], hlt, by rw [inode_setSlot_self]; rfl, by rw [setSlot_self],
    fun _ => by rw [setSlot_self], fun h0 => absurd hr (by omega)⟩

/-- A slot that nobody refers to is on no file and no current directory. -/
theorem Wf.refs_zero (h : Wf x s) (h0 : (s.icache i).ref = 0) :
    fileRefs s i = 0 ∧ cwdRefs x.proc i = 0 ∧ x.hand.count i = 0 := by
  have := h.refs i
  omega

theorem Wf.valid_of_fileRefs (h : Wf x s) (hf : 0 < fileRefs s i) : (s.icache i).valid = true := by
  obtain ⟨f, hmem⟩ := Finset.card_pos.1 hf
  obtain ⟨-, hty, rfl⟩ := Finset.mem_filter.1 hmem
  exact h.file_valid f hty

/-- Changing only the reference count of a slot in use. -/
theorem Wf.setRef {r : ℕ} (h : Wf x s) (hpos : 0 < (s.icache i).ref)
    (hrefs : r = fileRefs s i + cwdRefs x.proc i + x'.hand.count i)
    (hcount : ∀ j ≠ i, x'.hand.count j = x.hand.count j) (hfile : x'.file = x.file)
    (hproc : x'.proc = x.proc) : Wf x' (s.setSlot i { s.icache i with ref := r }) :=
  h.setSlot
    { slot_lt := fun _ => h.slot_lt i hpos
      inum_lt := fun _ => h.inum_lt i hpos
      uniq := fun _ j hj hr heq => hj (h.uniq j i hr hpos heq)
      copy := fun _ hv => h.copy i hpos hv
      refs := hrefs
      cwd_type := h.cwd_type i
      cwd_valid := h.cwd_valid i
      file_valid := h.valid_of_fileRefs
      file_dir := fun _ => id
      count := hcount
      file := hfile
      proc := hproc }

theorem Gets.wf (hg : Gets s inum i s') (h : Wf x s) (hi : inum < s.store.sb.ninodes) :
    Wf { x with hand := i ::ₘ x.hand } s' := by
  have hrefs := h.refs i
  rw [hg.eq_setSlot]
  rcases Nat.eq_zero_or_pos (s.icache i).ref with h0 | hpos
  · -- The slot is recycled.
    obtain ⟨hfile, hcwd, -⟩ := h.refs_zero h0
    obtain ⟨hv, huniq⟩ := hg.new h0
    exact h.setSlot
      { slot_lt := fun _ => hg.slot_lt
        inum_lt := fun _ => hg.inum_eq.symm ▸ hi
        uniq := fun _ j _ hr heq => huniq j (h.slot_lt j hr) hr (heq.trans hg.inum_eq)
        copy := fun _ hv' => absurd (hv.symm.trans hv') (by decide)
        refs := by rw [hg.ref_eq, hrefs, count_cons_self, add_assoc]
        cwd_type := fun hc => absurd hc (by omega)
        cwd_valid := fun hc => absurd hc (by omega)
        file_valid := fun hf => absurd hf (by omega)
        file_dir := fun hf => absurd hf (by omega)
        count := fun j hj => count_cons_of_ne hj _
        file := rfl
        proc := rfl }
  · rw [hg.old hpos]
    exact h.setRef hpos (by rw [hrefs, count_cons_self, add_assoc])
      (fun j hj => count_cons_of_ne hj _) rfl rfl

/-- The slots in the hands of a running call are in use. -/
theorem Wf.ref_pos (h : Wf x s) (hi : i ∈ x.hand) : 0 < (s.icache i).ref := by
  have := h.refs i
  have := count_pos.2 hi
  omega

theorem Wf.unref {h : Multiset ℕ} (hw : Wf x s) (hx : x.hand = i ::ₘ h) :
    Wf { x with hand := h } (s.setSlot i { s.icache i with ref := (s.icache i).ref - 1 }) := by
  have hrefs := hw.refs i
  rw [hx, count_cons_self] at hrefs
  refine hw.setRef (by omega) ?_ (fun j hj => ?_) rfl rfl
  · dsimp only
    omega
  · rw [hx, count_cons_of_ne hj]

/-! ### Reading an inode into its slot -/

/-- Slot `i` has been read. -/
structure Loads (s : Fs) (i : ℕ) (s' : Fs) : Prop where
  eq_setSlot : s' = s.setSlot i (s'.icache i)
  valid : (s'.icache i).valid = true
  ref_eq : (s'.icache i).ref = (s.icache i).ref
  inum_eq : (s'.inode i).inum = (s.inode i).inum
  old : (s.icache i).valid = true → s' = s

theorem Wf.type_eq (h : Wf x s) (hr : 0 < (s.icache i).ref) :
    (s.dinode (s.inode i).inum).type = (s.nodes (s.inode i).inum).type := by
  rw [nodes, Store.nodes, Store.nodesOf, if_pos (h.inum_lt i hr), Dinode.node]
  split_ifs with h0
  · exact h0
  · rfl

theorem load_spec (h : Wf x s) (hr : 0 < (s.icache i).ref) :
    wp (load i) (fun _ s' => Loads s i s' ∧ Wf x s')
      (fun e s' => e = .noType ∧ (s.nodes (s.inode i).inum).type = 0 ∧
        s' = s.setSlot i (s'.icache i))
      s := by
  unfold load
  rw [wp_bind, wp_get]
  by_cases hv : (s.icache i).valid = true
  · rw [if_pos hv]
    exact ⟨⟨(setSlot_eq_self rfl).symm, hv, rfl, rfl, fun _ => rfl⟩, h⟩
  rw [if_neg hv, wp_bind, wp_modify]
  by_cases ht : (s.dinode (s.inode i).inum).type = 0
  · rw [if_pos ht]
    exact ⟨rfl, h.type_eq hr ▸ ht, by rw [setSlot_self]⟩
  rw [if_neg ht]
  refine ⟨⟨by rw [setSlot_self], by rw [setSlot_self], by rw [setSlot_self],
    by rw [inode_setSlot_self], fun hv' => absurd hv' hv⟩, h.setSlot ?_⟩
  exact
    { slot_lt := fun _ => h.slot_lt i hr
      inum_lt := fun _ => h.inum_lt i hr
      uniq := fun _ j hj hr' heq => hj (h.uniq j i hr' hr heq)
      copy := fun _ _ => ⟨h.inum_lt i hr, rfl, ht⟩
      refs := h.refs i
      cwd_type := h.cwd_type i
      cwd_valid := fun _ => .inl rfl
      file_valid := fun _ => rfl
      file_dir := fun hf => absurd (h.valid_of_fileRefs hf) hv
      count := fun _ _ => rfl
      file := rfl
      proc := rfl }

/-! ### Freeing and allocating inodes -/

/-- A panic of an action that changes the log and the disk, and nothing else that is recorded. -/
structure Stops (s : Fs) (d : ℕ) (l : List ℕ) (e : Panic) (s' : Fs) : Prop
    extends s.store.Stops d l e s'.store where
  txns : s'.txns = s.txns
  found : s'.found = s.found

/-- The inode in slot `i`, which nobody else refers to, has been freed. -/
structure Frees (s : Fs) (i : ℕ) (s' : Fs) : Prop extends s.store.Keeps s'.store where
  valid : (s.icache i).valid = true
  nlink : (s.inode i).nlink = 0
  ref : (s.icache i).ref = 1
  eq : s' = { s with store := s'.store, icache := s'.icache }
  slot : s'.icache i = { s.icache i with valid := false, ip := s'.inode i }
  slot_of_ne : ∀ j ≠ i, s'.icache j = s.icache j
  inum_eq : (s'.inode i).inum = (s.inode i).inum
  ok : s'.store.Ok
  nodes : s'.nodes = Function.update s.nodes (s.inode i).inum .free
  others : ∀ j < s.store.sb.ninodes, j ≠ (s.inode i).inum → s'.store.dinode j = s.store.dinode j
  logs : ∃ a, s.store.Logs 0 a [s.store.sb.iblock (s.inode i).inum] s'.store

theorem Frees.wf (hf : Frees s i s') (h : Wf x s) (hi : i ∈ x.hand) : Wf x s' := by
  have hcount := count_pos.2 hi
  have hrefs := h.refs i
  have hr := hf.ref
  have hpos : 0 < (s.icache i).ref := by omega
  have hftable : s'.ftable = s.ftable := by rw [hf.eq]
  have hfile : fileRefs s' = fileRefs s := by unfold fileRefs; rw [hftable]
  have hsb := hf.sb
  have href : ∀ j, (s'.icache j).ref = (s.icache j).ref := by
    intro j
    by_cases hj : j = i
    · rw [hj, hf.slot]
    · rw [hf.slot_of_ne j hj]
  have hinum : ∀ j, (s'.inode j).inum = (s.inode j).inum := by
    intro j
    by_cases hj : j = i
    · rw [hj, hf.inum_eq]
    · rw [inode, hf.slot_of_ne j hj, inode]
  refine
    { ok := hf.ok
      dirs := fun k hk => ?_
      slot_lt := fun j hj => h.slot_lt j (href j ▸ hj)
      inum_lt := fun j hj => by rw [hinum, hsb]; exact h.inum_lt j (href j ▸ hj)
      uniq := fun j k hj hk hjk => ?_
      copy := fun j hj hv => ?_
      refs := fun j => by rw [href, hfile]; exact h.refs j
      cwd_type := fun j hj => ?_
      cwd_valid := fun j hj => ?_
      file_lt := by rw [hftable]; exact h.file_lt
      file_refs := by rw [hftable]; exact h.file_refs
      file_pos := by rw [hftable]; exact h.file_pos
      file_valid := fun f hty => ?_
      file_dir := fun f hty hw => ?_
      proc_lt := h.proc_lt, fd_lt := h.fd_lt, pipes := by rw [hf.eq]; exact h.pipes }
  · rw [hf.nodes] at hk ⊢
    rw [hsb]
    by_cases hki : k = (s.inode i).inum
    · rw [hki, update_self] at hk
      exact absurd hk (by decide)
    · rw [update_of_ne hki] at hk ⊢
      exact h.dirs k hk
  · rw [hinum, hinum] at hjk
    exact h.uniq j k (href j ▸ hj) (href k ▸ hk) hjk
  · by_cases hji : j = i
    · rw [hji, hf.slot] at hv
      cases hv
    rw [href] at hj
    rw [inode, hf.slot_of_ne j hji]
    rw [hf.slot_of_ne j hji] at hv
    have hc := h.copy j hj hv
    have hne : (s.inode j).inum ≠ (s.inode i).inum := fun heq => hji (h.uniq j i hj hpos heq)
    exact ⟨hc.inum_lt.trans_eq (congrArg _ hsb.symm), (hf.others _ hc.inum_lt hne).trans
      hc.dinode_eq, hc.type_ne⟩
  · have hji : j ≠ i := by rintro rfl; omega
    have hj' : 0 < (s.icache j).ref := by have := h.refs j; omega
    have hne : (s.inode j).inum ≠ (s.inode i).inum := fun heq => hji (h.uniq j i hj' hpos heq)
    rw [hinum, hf.nodes, update_of_ne hne]
    exact h.cwd_type j hj
  · have hji : j ≠ i := by rintro rfl; omega
    rw [hinum, hf.slot_of_ne j hji]
    exact h.cwd_valid j hj
  · rw [hftable] at hty ⊢
    have hpos' := h.fileRefs_pos hty
    have hji : (s.ftable f).ip ≠ i := by rintro heq; rw [heq] at hpos'; omega
    rw [hf.slot_of_ne _ hji]
    exact h.file_valid f hty
  · rw [hftable] at hty hw ⊢
    have hpos' := h.fileRefs_pos hty
    have hji : (s.ftable f).ip ≠ i := by rintro heq; rw [heq] at hpos'; omega
    rw [inode, hf.slot_of_ne _ hji]
    exact h.file_dir f hty hw

/-- `iput` frees the inode exactly if it has no links and no other reference. -/
theorem ifree_spec (h : Wf x s) (hr : 0 < (s.icache i).ref) :
    wp (ifree i)
      (fun _ s' => s' = s ∧
        ¬ ((s.icache i).valid = true ∧ (s.inode i).nlink = 0 ∧ (s.icache i).ref = 1) ∨ Frees s i s')
      (fun e s' => Stops s 0 [s.store.sb.iblock (s.inode i).inum] e s' ∧
        (s.icache i).valid = true ∧ (s.inode i).nlink = 0 ∧ (s.icache i).ref = 1) s := by
  unfold ifree
  rw [wp_bind, wp_get]
  by_cases hcond : (s.icache i).valid = true ∧ (s.inode i).nlink = 0 ∧ (s.icache i).ref = 1
  · obtain ⟨hv, hl, h1⟩ := hcond
    have hc := h.copy i hr hv
    rw [if_pos ⟨hv, hl, h1⟩]
    simp only [wp_bind, wp_onInode, wp_update, wp_pure, wp_modify]
    refine wp_mono (Store.itrunc_spec h.ok hc) (fun ip₁ st₁ hres => ?_)
      fun e st₁ hf => ?_
    · obtain ⟨hip1, he, a, hlog⟩ := hres
      -- The empty inode is marked as free.
      have hself : (s.put i st₁ ip₁).inode i = ip₁ := inode_setSlot_self
      have hz : ∀ j, ip₁.addrs j = 0 := by rw [hip1]; exact fun _ => rfl
      have hs0 : ip₁.size = 0 := by rw [hip1]
      have hinum : ip₁.inum = (s.inode i).inum := he.inum_eq
      have hdok : ({ ip₁ with type := 0 } : Inode).toDinode.Ok := by
        have hok1 := (he.ok.mid he.copy).ok
        exact ⟨Nat.two_pow_pos 16, hok1.major_lt, hok1.minor_lt, hok1.nlink_lt, hok1.size_lt,
          hok1.addrs_lt, hok1.addrs_out⟩
      rw [hself]
      refine wp_mono (Store.iupdate_spec he.ok.toFormatted he.copy.inum_lt hdok)
        (fun _ st₂ hp => .inr ?_) fun e st₂ hres => ?_
      · replace hp : st₁.Puts { ip₁ with type := 0 } st₂ := hp
        obtain ⟨hok2, hn2⟩ := Store.Puts.ok_free he.ok he.copy hz hs0 rfl hp
        refine
          { toKeeps := he.toKeeps.trans hp.toKeeps, valid := hv, nlink := hl, ref := h1, eq := rfl
            slot := ?_, slot_of_ne := fun j hj => ?_, inum_eq := ?_, ok := hok2, nodes := ?_
            others := fun j hj hne => ?_, logs := ⟨a, ?_⟩ }
        · simp [Fs.put, inode_setSlot_self]
        · rw [setSlot_of_ne hj, Fs.put, setSlot_of_ne hj]
          show (s.put i st₁ ip₁).icache j = _
          rw [Fs.put, setSlot_of_ne hj]
        · simp [Fs.put, inode_setSlot_self, hinum]
        · show st₂.nodes = _
          rw [hn2, he.nodes, hinum, update_idem]
          rfl
        · show st₂.dinode j = _
          rw [hp.dinode j (by rwa [he.sb]), Store.over_of_ne (by rwa [hinum]), he.others j hj hne]
        · have hlog2 : st₁.Logs 0 0 [s.store.sb.iblock (s.inode i).inum] st₂ := by
            have := hp.logs
            rwa [he.sb, hinum] at this
          exact hlog.trans hlog2 he.sb
      · obtain ⟨hF, hst⟩ := hres
        subst hst
        exact ⟨⟨hF.stops (a := a) he.toKeeps hlog, rfl, rfl⟩, hv, hl, h1⟩
    · obtain ⟨a, hlog⟩ := hf.logs
      exact ⟨⟨hf.fails.stops hf.toKeeps hlog, rfl, rfl⟩, hv, hl, h1⟩
  · rw [if_neg hcond]
    exact .inl ⟨rfl, hcond⟩

/-- Inode `inum` has been allocated, and slot `i` is a reference to it. -/
structure Allocs (s : Fs) (type inum i : ℕ) (s' : Fs) : Prop extends s.store.Keeps s'.store where
  gets : Gets { s with store := s'.store } inum i s'
  inum_lt : inum < s.store.sb.ninodes
  inum_pos : 0 < inum
  was_free : (s.nodes inum).type = 0
  ok : s'.store.Ok
  nodes : s'.nodes = Function.update s.nodes inum ⟨type, 0, 0, 0, 0, Bytes.zero⟩
  others : ∀ j < s.store.sb.ninodes, j ≠ inum → s'.store.dinode j = s.store.dinode j
  logs : s.store.Logs 0 0 [s.store.sb.iblock inum] s'.store

theorem Wf.inum_ne_of_free (h : Wf x s) (h0 : (s.nodes inum).type = 0) (hr : 0 < (s.icache j).ref)
    (hv : (s.icache j).valid = true) : (s.inode j).inum ≠ inum := by
  rintro rfl
  have hc := h.copy j hr hv
  have := hc.node_eq
  exact hc.type_ne (by rw [← h0, nodes, this])

theorem Allocs.wf {type : ℕ} (ha : Allocs s type inum i s') (h : Wf x s) (ht : type ≠ 0) :
    Wf { x with hand := i ::ₘ x.hand } s' := by
  have hsb : s'.store.sb = s.store.sb := ha.sb
  have hnodes : ({ s with store := s'.store } : Fs).nodes = _ := ha.nodes
  have hother : ∀ k, k ≠ inum → ({ s with store := s'.store } : Fs).nodes k = s.nodes k := by
    intro k hk
    rw [hnodes, update_of_ne hk]
  refine ha.gets.wf (x := x) ?_ (ha.inum_lt.trans_eq (congrArg _ hsb.symm))
  refine
    { ok := ha.ok
      dirs := fun k hk => ?_
      slot_lt := h.slot_lt
      inum_lt := fun j hj => (h.inum_lt j hj).trans_eq (congrArg _ hsb.symm)
      uniq := h.uniq
      copy := fun j hj hv => ?_
      refs := h.refs
      cwd_type := fun j hj => ?_
      cwd_valid := h.cwd_valid
      file_lt := h.file_lt, file_refs := h.file_refs, file_pos := h.file_pos
      file_valid := h.file_valid, file_dir := h.file_dir
      proc_lt := h.proc_lt, fd_lt := h.fd_lt, pipes := h.pipes }
  · show (({ s with store := s'.store } : Fs).nodes k).Table s'.store.sb.ninodes
    rw [hsb]
    by_cases hk' : k = inum
    · rw [hnodes, hk', update_self]
      refine ⟨rfl, fun j hj => ?_⟩
      rw [Node.nent, Nat.zero_div] at hj
      exact absurd hj (Nat.not_lt_zero j)
    · rw [hother k hk'] at hk ⊢
      exact h.dirs k hk
  · have hc := h.copy j hj hv
    exact ⟨hc.inum_lt.trans_eq (congrArg _ hsb.symm),
      (ha.others _ hc.inum_lt (h.inum_ne_of_free ha.was_free hj hv)).trans hc.dinode_eq, hc.type_ne⟩
  · show (({ s with store := s'.store } : Fs).nodes (s.inode j).inum).type ≠ 0
    have hcw := h.cwd_type j hj
    by_cases hk' : (s.inode j).inum = inum
    · rw [hnodes, hk', update_self]
      exact ht
    · rw [hother _ hk']
      exact hcw

theorem ialloc_spec {type : ℕ} (h : Wf x s) (ht : type ≠ 0) (hlt : type < 2 ^ 16) :
    wp (ialloc type) (fun i s' => ∃ inum, Allocs s type inum i s')
      (fun e s' => ∃ inum, Stops s 0 [s.store.sb.iblock inum] e s') s := by
  unfold ialloc
  rw [wp_bind, wp_get]
  split
  · exact ⟨0, ⟨by decide, by decide, fun _ => by decide, 0, .refl⟩, rfl, rfl⟩
  rename_i inum hfind
  have hi := List.mem_range.1 (List.mem_of_find?_eq_some hfind)
  obtain ⟨hpos, h0⟩ : 1 ≤ inum ∧ (s.dinode inum).type = 0 := by simpa using List.find?_some hfind
  have hdok : ({ Dinode.zero with type := type } : Dinode).Ok :=
    ⟨hlt, Nat.two_pow_pos 16, Nat.two_pow_pos 16, Nat.two_pow_pos 16, Nat.two_pow_pos 32,
      fun _ => Nat.two_pow_pos 32, fun _ _ => rfl⟩
  replace h0 : (s.store.dinode inum).type = 0 := h0
  simp only [wp_bind, wp_onStore]
  refine Store.wp_logWrite
    (fun _ => ⟨inum, ⟨by decide, by decide, fun _ => by decide, 0, .refl⟩, rfl, rfl⟩)
    (fun hout =>
      ⟨inum, ⟨by decide, by decide, fun hin => absurd hout (Nat.not_lt.2 hin), 0, .refl⟩, rfl,
      rfl⟩)
    fun _ _ => ?_
  have hp := @Store.puts_write s.store ⟨{ Dinode.zero with type := type }, inum⟩
    h.ok.toFormatted hi hdok
  obtain ⟨hok1, hn1⟩ := Store.Puts.ok_alloc h.ok hi h0 (fun _ => rfl) rfl ht hp
  refine wp_mono iget_spec (fun i s' hg => ⟨inum, ?_⟩) fun e s' hres => ⟨inum, ?_⟩
  · have hst : s'.store = _ := congrArg store hg.eq_setSlot
    rw [store_setSlot] at hst
    refine ⟨hst ▸ hp.toKeeps, by rwa [hst], hi, hpos, ?_, hst ▸ hok1, ?_,
      fun j hj hne => ?_, hst ▸ hp.logs⟩
    · rw [nodes, Store.nodes, Store.nodesOf, if_pos hi, Dinode.node, if_pos h0]
      rfl
    · rw [nodes, hst]
      exact hn1
    · rw [hst, hp.dinode j hj]
      exact Store.over_of_ne hne
  · obtain ⟨he, hs'⟩ := hres
    subst he hs'
    exact ⟨⟨by decide, by decide, fun _ => by decide, 0, hp.logs⟩, rfl, rfl⟩

end Fs

end Xv6
