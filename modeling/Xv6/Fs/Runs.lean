import Xv6.Fs.Calls
import Xv6.Fs.Image

/-!
# Runs of the file system

Any sequence of calls from a well-formed image (`Bootable`).  The invariant `Idle` holds after every
call (`idle_of_run`), and `Seen` in every state that a call goes through (`seen_of_run`).  From
these follow

* the ownership of blocks;
* the inode cache is unique and write-through;
* reads change nothing, and writes are inside transactions;
* references are counted exactly, and nothing is freed while it is in use.
-/

namespace Xv6

open Option

namespace Fs

variable {disk : Disk} {dr : ℕ → Option (ℕ → Option (ℕ × Bytes))} {dw : ℕ → Option (ℕ → Option ℕ)}
  {ls : List (ℕ × Call)} {s : State} {p : ℕ} {c : Call}

/-- A well-formed image: the areas are in the order of `mkfs`, the blocks in use are the ones that
are pointed to, the inodes have the blocks below their size, directories have whole entries, and
there is a root directory. -/
structure Bootable (st : Store) : Prop where
  ok : st.Ok
  dirs : ∀ i, (st.nodes i).type = tDir → (st.nodes i).Table st.sb.ninodes
  root : (st.nodes rootino).type ≠ 0

theorem boot_idle (h : Bootable (boot disk dr dw).store) : Idle (boot disk dr dw) := by
  have hroot : rootino < (boot disk dr dw).store.sb.ninodes :=
    @lt_of_type_ne (boot disk dr dw) rootino h.root
  have hslot : ∀ i, i ≠ 0 → ((boot disk dr dw).icache i).ref = 0 :=
    fun i hi => congrArg Slot.ref (if_neg hi)
  have hpos : ∀ {i}, 0 < ((boot disk dr dw).icache i).ref → i = 0 := fun {i} hi => by
    by_contra hne
    rw [hslot i hne] at hi
    exact absurd hi (by decide)
  have hproc : ∀ p q, (boot disk dr dw).proc p = some q → p = 0 ∧ q = ⟨some 0, fun _ => none⟩ := by
    intro p q hq
    by_cases hp : p = 0
    · subst hp
      cases hq
      exact ⟨rfl, rfl⟩
    · rw [show (boot disk dr dw).proc p = none from if_neg hp] at hq
      cases hq
  have hcwd : ∀ i, cwdRefs (boot disk dr dw).proc i = if i = 0 then 1 else 0 := by
    intro i
    rw [cwdRefs_eq, Finset.sum_eq_single 0]
    · show (if some 0 = some i then 1 else 0) = _
      simp [eq_comm]
    · intro p _ hp
      rw [show (boot disk dr dw).proc p = none from if_neg hp]
      rfl
    · intro hn
      exact absurd (Finset.mem_range.2 (by decide)) hn
  have hfd : ∀ f, fdRefs (boot disk dr dw).proc f = 0 := by
    intro f
    rw [fdRefs_eq]
    refine Finset.sum_eq_zero fun p _ => ?_
    rw [fdsOf, Finset.card_eq_zero, Finset.filter_eq_empty_iff]
    intro fd _ hf
    obtain ⟨q, hq, hof⟩ := bind_eq_some_iff.1 hf
    rw [(hproc p q hq).2] at hof
    cases hof
  have hfile : ∀ i, fileRefs (boot disk dr dw) i = 0 := by
    intro i
    rw [fileRefs_eq]
    exact Finset.sum_eq_zero fun f _ => rfl
  refine ⟨⟨h.ok, h.dirs, fun i hi => ?_, fun i hi => ?_, fun i j hi hj _ => ?_, fun i hi hv => ?_,
    fun i => ?_, fun i hi => ?_, fun i hi => ?_, fun f hf => ?_, fun f => ?_, fun f hf => ?_,
    fun f hf => ?_, fun f hf => ?_, fun p q hq => ?_, fun p q fd f hq hf => ?_,
    pipes_none fun _ => (by decide : FdType.none ≠ .pipe)⟩, rfl, hroot, fun p q hq => ?_⟩
  · rw [hpos hi]
    decide
  · rw [hpos hi]
    exact hroot
  · rw [hpos hi, hpos hj]
  · rw [hpos hi] at hv
    cases hv
  · rw [hfile, hcwd]
    by_cases hi : i = 0
    · rw [hi]
      rfl
    · rw [hslot i hi, if_neg hi]
      rfl
  · rw [hcwd] at hi
    obtain rfl : i = 0 := by by_contra hne; rw [if_neg hne] at hi; exact absurd hi (by decide)
    exact h.root
  · rw [hcwd] at hi
    obtain rfl : i = 0 := by by_contra hne; rw [if_neg hne] at hi; exact absurd hi (by decide)
    exact .inr rfl
  · exact absurd hf (lt_irrefl 0)
  · rw [hfd]
    rfl
  · exact absurd rfl hf
  · cases hf
  · cases hf
  · rw [(hproc p q hq).1]
    decide
  · rw [(hproc p q hq).2] at hf
    cases hf
  · rw [(hproc p q hq).2]
    exact ⟨0, rfl⟩

/-- **The invariant holds after every call.** -/
theorem idle_of_run (h : Bootable (boot disk dr dw).store)
    (hrun : system.Run (boot disk dr dw, fun _ => none) ls s) :
    Idle s.1 := by
  refine hrun.invariant (I := fun s => Idle s.1) (boot_idle h) fun s₁ l s₂ hs1 hstep => ?_
  have hst : step s₁ l = some s₂ := hstep
  unfold step at hst
  split_ifs at hst with hp
  split at hst
  · rename_i r s' heq
    cases hst
    exact ((sys_does hs1 hp l.2) s₁.2).2.ok heq
  · cases hst

/-- **Every state that a call goes through has the invariant**, and the panics of `Halts` do not
happen. -/
theorem seen_of_run (h : Bootable (boot disk dr dw).store)
    (hrun : system.Run (boot disk dr dw, fun _ => none) ls s) (hp : (s.1.proc p).isSome)
    (c : Call) : (∀ v ∈ (sys p c).visits p s, Seen v.1 v.2.1) ∧
      ∀ e s', perform p c s = .error e s' → Halts e := by
  have hdoes := (sys_does (idle_of_run h hrun) hp c) s.2
  exact ⟨hdoes.1, fun e s' he => hdoes.2.error he⟩

end Fs

namespace Image

open Fs

theorem bootable_of {st : Store} (hok : st.Ok) (hn : st.sb.ninodes = 200)
    (hdin : ∀ i < 200, st.dinode i = if i = 1 then root else if i = 2 then file else .zero)
    (hroot : (st.nodes rootino).type ≠ 0)
    (htab : (st.nodes 1).size % direntSize = 0 ∧
      ∀ k < (st.nodes 1).nent, (st.nodes 1).target k < 200) :
    Bootable st := by
  have hnode : ∀ i, (st.nodes i).type = tDir → i = 1 := by
    intro i hi
    unfold Store.nodes Store.nodesOf at hi
    split_ifs at hi with hlt
    · rw [hn] at hlt
      rw [hdin i hlt] at hi
      by_contra hne
      rw [if_neg hne] at hi
      split_ifs at hi with h2
      · exact absurd hi (by decide : tFile ≠ tDir)
      · exact absurd hi (by decide : 0 ≠ tDir)
    · exact absurd hi (by decide)
  refine ⟨hok, fun i hi => ?_, hroot⟩
  rw [hnode i hi, hn]
  exact ⟨htab.1, htab.2⟩

theorem bootable : Bootable fs.store :=
  bootable_of ok (by rw [show fs.store.sb = sb from sb_eq]; rfl) (fun _ => dinode_eq)
    (by decide +kernel)
    (by decide +kernel)

theorem full_bootable : Bootable full.store :=
  bootable_of full_ok (by rw [fullSb_eq]; rfl) (fun _ => full_dinode_eq) (by decide +kernel)
    (by decide +kernel)

example : (fs.store.nodes rootino).type = tDir ∧ (fs.store.nodes rootino).nent = 3 := by
    decide +kernel

theorem exists_run (ls : List (ℕ × Call)) (C : Fs.State → Prop) [DecidablePred C]
    (h : (LTS.exec step (fs, fun _ => none) ls).map (fun s => decide (C s)) = some true) :
    ∃ s, system.Run (fs, fun _ => none) ls s ∧ C s := by
  obtain ⟨s, hs, hC⟩ := map_eq_some_iff.1 h
  exact ⟨s, LTS.run_of_exec hs, of_decide_eq_true hC⟩

end Image

namespace Fs

variable {disk : Disk} {dr : ℕ → Option (ℕ → Option (ℕ × Bytes))} {dw : ℕ → Option (ℕ → Option ℕ)}
  {ls : List (ℕ × Call)} {s : State}

/-! ### Blocks -/

/-- **Ownership of blocks.**  After every sequence of calls a block is in use iff it holds metadata
or exactly one pointer of an allocated inode points to it; no block is shared; a call never frees a
block that is free. -/
theorem block_ownership (h : Bootable (boot disk dr dw).store)
    (hrun : system.Run (boot disk dr dw, fun _ => none) ls s) :
    (∀ b < s.1.store.sb.size, s.1.store.bit b = true ↔
      b < s.1.store.sb.nmeta ∨ ∃! x : ℕ × ℕ, s.1.store.ptrs s.1.store.dinode x = b) ∧
    (∀ x y : ℕ × ℕ, s.1.store.ptrs s.1.store.dinode x ≠ 0 →
      s.1.store.ptrs s.1.store.dinode x = s.1.store.ptrs s.1.store.dinode y → x = y) ∧
    ∀ p c e s', (s.1.proc p).isSome → perform p c s = .error e s' → e ≠ .error .freeingFree := by
  have hok := (idle_of_run h hrun).wf.ok
  have hown := hok.owns
  have hmeta : 0 < s.1.store.sb.nmeta := zero_le.trans_lt hok.sb_ok.data
  refine ⟨fun b hb => ⟨fun hu => ?_, fun hx => ?_⟩, hown.inj,
    fun p c e s' hp he => ((seen_of_run h hrun hp c).2 e s' he).1⟩
  · by_cases hlt : b < s.1.store.sb.nmeta
    · exact .inl hlt
    · obtain ⟨x, hx⟩ := (hown.cover b hb hu).resolve_left hlt
      exact .inr ⟨x, hx, fun y hy => (hown.inj x y (by omega) (hx.trans hy.symm)).symm⟩
  rcases hx with hlt | ⟨x, hx, -⟩
  · exact hown.reserved b hlt
  by_cases hb₀ : b = 0
  · rw [hb₀]
    exact hown.reserved 0 hmeta
  · rw [← show s.1.store.ptrs s.1.store.dinode x = b from hx] at hb₀ ⊢
    exact hown.used_ptr x hb₀

/-- A file is created and written. -/
theorem block_ownership_write : ∃ s, system.Run (Image.fs, fun _ => none)
    [(0, .open [slash, 103] 0x201), (0, .write 0 (fun _ => 7) 600)] s ∧
    (∀ b < s.1.store.sb.size, s.1.store.bit b = true ↔
      b < s.1.store.sb.nmeta ∨ ∃! x : ℕ × ℕ, s.1.store.ptrs s.1.store.dinode x = b) ∧
    ∀ x y : ℕ × ℕ, s.1.store.ptrs s.1.store.dinode x ≠ 0 →
      s.1.store.ptrs s.1.store.dinode x = s.1.store.ptrs s.1.store.dinode y → x = y := by
  obtain ⟨s, hrun, -⟩ :=
    Image.exists_run [(0, .open [slash, 103] 0x201), (0, .write 0 (fun _ => 7) 600)]
    (fun s => (s.1.dinode 3).size = 600) (by decide +kernel)
  have howns := block_ownership Image.bootable hrun
  exact ⟨s, hrun, howns.1, howns.2.1⟩

/-! ### The inode cache -/

/-- No two slots are for the same inode, and a slot that was read is as the inode is on the disk. -/
def Coherent (s : Fs) : Prop :=
  (∀ i j, 0 < (s.icache i).ref → 0 < (s.icache j).ref →
      (s.inode i).inum = (s.inode j).inum → i = j) ∧
  ∀ i, 0 < (s.icache i).ref → (s.icache i).valid = true → s.dinode (s.inode i).inum =
  (s.inode i).toDinode

theorem Wf.coherent {x : Held} {s : Fs} (h : Wf x s) : Coherent s :=
  ⟨h.uniq, fun i hr hv => (h.copy i hr hv).dinode_eq⟩

/-- **The inode cache is unique and write-through**, after every call and in every state that a call
goes through. -/
theorem cache_write_through (h : Bootable (boot disk dr dw).store)
    (hrun : system.Run (boot disk dr dw, fun _ => none) ls s) :
    Coherent s.1 ∧ ∀ p c, (s.1.proc p).isSome → ∀ v ∈ (sys p c).visits p s, Coherent v.2.1 := by
  refine ⟨(idle_of_run h hrun).wf.coherent, fun p c hp v hv => ?_⟩
  obtain ⟨⟨x, hx⟩, -⟩ := (seen_of_run h hrun hp c).1 v hv
  exact hx.coherent

/-- A slot that nobody refers to keeps what was read into it: the file `/g` was in slot 2, and is in
slot 1 when it gets its second link. -/
theorem cache_stale : Bootable Image.fs.store ∧ ∃ s, system.Run (Image.fs, fun _ => none)
    [(0, .open [slash, 102] 0), (0, .mknod [slash, 103] 1 1), (0, .close 0),
      (0, .link [slash, 103] [slash, 104])] s ∧
    (s.1.icache 2).valid = true ∧ s.2 2 = none ∧ s.1.dinode (s.1.inode 2).inum ≠
    (s.1.inode 2).toDinode := by
  obtain ⟨s, hrun, hv, hl, hne⟩ := Image.exists_run
    [(0, .open [slash, 102] 0), (0, .mknod [slash, 103] 1 1), (0, .close 0),
      (0, .link [slash, 103] [slash, 104])]
    (fun s => (s.1.icache 2).valid = true ∧ s.2 2 = none ∧
      (s.1.dinode (s.1.inode 2).inum).nlink ≠ (s.1.inode 2).nlink)
    (by decide +kernel)
  exact ⟨Image.bootable, s, hrun, hv, hl, fun h => hne (by rw [h])⟩

theorem cache_write_through_link :
    ∃ s, system.Run (Image.fs, fun _ => none) [(0, .link [slash, 102] [slash, 104])] s ∧
    Coherent s.1 := by
  obtain ⟨s, hrun, -⟩ := Image.exists_run [(0, .link [slash, 102] [slash, 104])]
    (fun s => (s.1.dinode 2).nlink = 2) (by decide +kernel)
  exact ⟨s, hrun, (cache_write_through Image.bootable hrun).1⟩

example : (Image.fs.icache 0).ref = 1 ∧ (Image.fs.icache 0).valid = false := by decide +kernel

/-! ### Reads and transactions -/

/-- The inodes have the blocks below their size, and no others. -/
def NoHoles (st : Store) : Prop := ∀ i < st.sb.ninodes, (st.dinode i).type ≠ 0 → ∀ bn < maxfile,
  (st.dinode i).ptr st.disk (Dinode.pos bn) ≠ 0 ↔ bn < blocksOf (st.dinode i).size

theorem NoHoles.of_ok {st : Store} (h : st.Ok) : NoHoles st :=
  fun i hi ht => (h.shaped i hi ht).block_iff

/-- **Reads change nothing, and writes are inside transactions.**  After every call and in every
state that a call goes through: the inodes have exactly the blocks below their size, reading an
inode that is in the cache leaves it and the disk alone, and no transaction is started inside
another.  No call writes outside a transaction. -/
theorem reads_pure (h : Bootable (boot disk dr dw).store)
    (hrun : system.Run (boot disk dr dw, fun _ => none) ls s) :
    NoHoles s.1.store ∧ ∀ p c, (s.1.proc p).isSome →
      (∀ v ∈ (sys p c).visits p s, NoHoles v.2.1.store ∧
        (v.1 = true → v.2.1.store.outstanding = 0) ∧ ∀ i, 0 < (v.2.1.icache i).ref →
        (v.2.1.icache i).valid = true → ∀ off n, ∃ r,
          Store.readi (v.2.1.inode i) off n v.2.1.store = .ok (r, v.2.1.inode i) v.2.1.store) ∧
      ∀ e s', perform p c s = .error e s' → e ≠ .error .outside := by
  refine ⟨.of_ok (idle_of_run h hrun).wf.ok, fun p c hp => ⟨fun v hv => ?_, fun e s' he => ?_⟩⟩
  · obtain ⟨⟨x, hx⟩, hout⟩ := (seen_of_run h hrun hp c).1 v hv
    exact ⟨.of_ok hx.ok, hout, fun i hr hval off n => Store.readi_pure hx.ok (hx.copy i hr hval)⟩
  · exact ((seen_of_run h hrun hp c).2 e s' he).2

theorem reads_pure_write : ∃ s, system.Run (Image.fs, fun _ => none)
    [(0, .open [slash, 102] 2), (0, .write 0 (fun _ => 7) 600)] s ∧ NoHoles s.1.store := by
  obtain ⟨s, hrun, -⟩ :=
    Image.exists_run [(0, .open [slash, 102] 2), (0, .write 0 (fun _ => 7) 600)]
    (fun s => (s.1.dinode 2).size = 600) (by decide +kernel)
  exact ⟨s, hrun, (reads_pure Image.bootable hrun).1⟩

/-- The small file system with an empty free map. -/
def unmapped : Fs := boot (upd Image.disk 58 Bytes.zero) (fun _ => none) fun _ => none

theorem unmapped_noHoles : NoHoles unmapped.store := by
  have hsb : unmapped.store.sb = Image.fs.store.sb := rfl
  have hdin : ∀ i < 200, unmapped.store.dinode i = Image.fs.store.dinode i := by
    intro i hi
    have hib : Image.fs.store.sb.iblock i = i / 8 + 32 := by
      rw [show Image.fs.store.sb = Image.sb from Image.sb_eq]
      rfl
    have hd : unmapped.store.disk (i / 8 + 32) = Image.fs.store.disk (i / 8 + 32) :=
      if_neg (by omega)
    rw [Store.dinode, Store.dinode, hsb, hib, hd]
  intro i hi ht bn hbn
  have hn : Image.fs.store.sb.ninodes = 200 := by
    rw [show Image.fs.store.sb = Image.sb from Image.sb_eq]; rfl
  rw [hsb, hn] at hi
  rw [hdin i hi] at ht ⊢
  have hptr : (Image.fs.store.dinode i).ptr unmapped.store.disk (Dinode.pos bn) =
      (Image.fs.store.dinode i).ptr Image.fs.store.disk (Dinode.pos bn) := by
    refine Dinode.ptr_congr fun h0 => absurd ?_ h0
    rw [Image.dinode_eq hi]
    split_ifs <;> rfl
  rw [hptr]
  exact (Image.ok.shaped i (by rwa [hn]) ht).block_iff bn hbn

/-- Without the ownership of blocks the first block that is allocated is block 0, which is no
pointer. -/
theorem holes_of_unmapped : NoHoles unmapped.store ∧ ∃ s, system.Run (unmapped, fun _ => none)
    [(0, .open [slash, 102] 2), (0, .write 0 (fun _ => 7) 1)] s ∧ ¬ NoHoles s.1.store := by
  have hexec : (LTS.exec step (unmapped, fun _ => none)
    [(0, .open [slash, 102] 2), (0, .write 0 (fun _ => 7) 1)]).map
      (fun s => decide (2 < s.1.store.sb.ninodes ∧ (s.1.store.dinode 2).type ≠ 0 ∧
        (s.1.store.dinode 2).size = 1 ∧ (s.1.store.dinode 2).ptr s.1.store.disk 0 = 0)) = some
        true := by decide +kernel
  obtain ⟨s, hs, hC⟩ := map_eq_some_iff.1 hexec
  obtain ⟨hlt, ht, hsize, hptr⟩ := of_decide_eq_true hC
  refine ⟨unmapped_noHoles, s, LTS.run_of_exec hs, fun hno => ?_⟩
  have := (hno 2 hlt ht 0 (by decide)).2 (by rw [hsize]; decide)
  exact this hptr

/-! ### References -/

theorem Wf.file_type {x : Held} {s : Fs} {f : ℕ} (h : Wf x s) (hf : (s.ftable f).type = .inode) :
    (s.nodes (s.inode (s.ftable f).ip).inum).type ≠ 0 := by
  have hr : 0 < (s.icache (s.ftable f).ip).ref := by
    have hpos := h.fileRefs_pos hf
    rw [h.refs]
    omega
  have hc := h.copy _ hr (h.file_valid f hf)
  rw [nodes, hc.node_eq]
  exact hc.type_ne

theorem Wf.pipe_isSome {x : Held} {s : Fs} {f : ℕ} (h : Wf x s) (hf : (s.ftable f).type = .pipe) :
    (s.pipe (s.ftable f).pipe).isSome := by
  obtain ⟨z, hz, -⟩ := (h.pipes.names.used _).2 ⟨f, if_pos hf⟩
  exact isSome_iff_exists.2 ⟨z, hz⟩

/-- **References are counted exactly.**  After every call, a file counts the descriptors of all
processes for it, and a slot of the inode cache the open files on it and the processes that have it
as current directory.  An end of a pipe is open iff one file for it is, and the page of a pipe is in
use iff one of its ends is open.  So no inode is freed while it is open or a current directory. -/
theorem references_exact (h : Bootable (boot disk dr dw).store)
    (hrun : system.Run (boot disk dr dw, fun _ => none) ls s) :
    (∀ f, (s.1.ftable f).ref = fdRefs s.1.proc f) ∧
    (∀ i, (s.1.icache i).ref = fileRefs s.1 i + cwdRefs s.1.proc i) ∧
    (∀ q w, EndOpen s.1.pipe (q, w) ↔
      ∃! f, 0 < (s.1.ftable f).ref ∧ (s.1.ftable f).pipeEnd = some (q, w)) ∧
    (∀ q, (s.1.pipe q).isSome ↔ ∃ w, EndOpen s.1.pipe (q, w)) ∧
    (∀ f, (s.1.ftable f).type = .inode → (s.1.nodes (s.1.inode (s.1.ftable f).ip).inum).type ≠ 0) ∧
    ∀ p q i, s.1.proc p = some q → q.cwd = some i → (s.1.nodes (s.1.inode i).inum).type ≠ 0 := by
  have hwf := (idle_of_run h hrun).wf
  refine ⟨fun f => ?_, fun i => ?_, fun k w => ⟨fun hk => ?_, fun ⟨f, ⟨_, hf⟩, _⟩ => ?_⟩,
    fun k => ⟨fun hk => ?_, fun ⟨w, z, hz, _⟩ => ?_⟩, fun f => hwf.file_type,
    fun p q i hp hi => ?_⟩
  · rw [hwf.file_refs f, Multiset.count_zero, add_zero]
  · rw [hwf.refs i, Multiset.count_zero, add_zero]
  · obtain ⟨f, hf⟩ := (hwf.pipes.names.used _).1 hk
    have ht : (s.1.ftable f).type ≠ .none := fun ht => by
      rw [File.pipeEnd, ht] at hf
      cases hf
    exact ⟨f, ⟨hwf.file_pos f ht, hf⟩, fun g hg => hwf.pipes.names.inj g f _ hg.2 hf⟩
  · exact (hwf.pipes.names.used _).2 ⟨f, hf⟩
  · obtain ⟨z, hz⟩ := isSome_iff_exists.1 hk
    obtain ⟨w, hw⟩ := hwf.pipes.live k z hz
    exact ⟨w, z, hz, hw⟩
  · exact isSome_iff_exists.2 ⟨z, hz⟩
  · refine hwf.cwd_type i (cwdRefs_pos (hwf.proc_lt p q hp) ?_)
    show (s.1.proc p).bind Proc.cwd = some i
    rw [hp, bind_some, hi]

/-- A descriptor is duplicated and a pipe made; the process forks; the child closes its copy of the
first descriptor, and both close the end of the pipe for writing. -/
theorem references_exact_fork : ∃ s, system.Run (Image.fs, fun _ => none)
    [(0, .open [slash, 102] 0), (0, .dup 0), (0, .pipe (some 9)), (0, .fork 1), (1, .close 0),
      (1, .close 3), (0, .close 3)] s ∧
    (s.1.ftable 0).ref = 3 ∧ fdRefs s.1.proc 0 = 3 ∧
    (s.1.icache 0).ref = 2 ∧ fileRefs s.1 0 + cwdRefs s.1.proc 0 = 2 ∧
    (s.1.pipe 9).isSome ∧
    (∃! f, 0 < (s.1.ftable f).ref ∧ (s.1.ftable f).pipeEnd = some (9, false)) ∧
    ¬ ∃! f, 0 < (s.1.ftable f).ref ∧ (s.1.ftable f).pipeEnd = some (9, true) := by
  obtain ⟨s, hrun, hf, hi, hq⟩ := Image.exists_run
    [(0, .open [slash, 102] 0), (0, .dup 0), (0, .pipe (some 9)), (0, .fork 1), (1, .close 0),
      (1, .close 3), (0, .close 3)]
    (fun s => (s.1.ftable 0).ref = 3 ∧ (s.1.icache 0).ref = 2 ∧
      (s.1.pipe 9).map (fun x => (x.readopen, x.writeopen)) = some (true, false))
    (by decide +kernel)
  obtain ⟨hfile, hslot, hend, -⟩ := references_exact Image.bootable hrun
  obtain ⟨z, hz, hside⟩ := map_eq_some_iff.1 hq
  obtain ⟨hread, hwrite⟩ := Prod.mk.inj hside
  refine ⟨s, hrun, hf, (hfile 0).symm.trans hf, hi, (hslot 0).symm.trans hi,
    isSome_iff_exists.2 ⟨z, hz⟩, (hend 9 false).1 ⟨z, hz, hread⟩, fun hw => ?_⟩
  obtain ⟨z', hz', hw'⟩ := (hend 9 true).2 hw
  rw [hz] at hz'
  cases hz'
  exact absurd (hwrite.symm.trans hw') (by decide)

/-- The inode of every open file is allocated, and so is the page of every open pipe. -/
def OpenAllocated (s : Fs) : Prop := ∀ f,
  ((s.ftable f).type = .inode → (s.nodes (s.inode (s.ftable f).ip).inum).type ≠ 0) ∧
  ((s.ftable f).type = .pipe → (s.pipe (s.ftable f).pipe).isSome)

/-- **Nothing that is open is freed**, in any state that a call goes through. -/
theorem open_allocated {p : ℕ} (h : Bootable (boot disk dr dw).store)
    (hrun : system.Run (boot disk dr dw, fun _ => none) ls s) (hp : (s.1.proc p).isSome)
    (c : Call) :
    ∀ v ∈ (sys p c).visits p s, OpenAllocated v.2.1 := by
  intro v hv f
  obtain ⟨⟨x, hx⟩, -⟩ := (seen_of_run h hrun hp c).1 v hv
  exact ⟨hx.file_type, hx.pipe_isSome⟩

/-- A file is open, a pipe too, and the file is unlinked. -/
theorem open_allocated_unlink : ∃ s, system.Run (Image.fs, fun _ => none)
    [(0, .open [slash, 102] 0), (0, .pipe (some 9))] s ∧
    (s.1.ftable 0).type = .inode ∧ (s.1.ftable 1).type = .pipe ∧
    ∀ v ∈ (sys 0 (.unlink [slash, 102])).visits 0 s, OpenAllocated v.2.1 := by
  obtain ⟨s, hrun, hfile, hpipe, hp⟩ := Image.exists_run
    [(0, .open [slash, 102] 0), (0, .pipe (some 9))] (fun s => (s.1.ftable 0).type = .inode ∧
      (s.1.ftable 1).type = .pipe ∧ (s.1.proc 0).isSome) (by decide +kernel)
  exact ⟨s, hrun, hfile, hpipe, open_allocated Image.bootable hrun hp _⟩

end Fs

end Xv6
