import Mathlib.Data.List.TakeWhile
import Xv6.Fs.Entries
import Xv6.Fs.Syscall
import Xv6.Mkfs.Image

/-!
# The kernel reads what `mkfs` wrote

`mkfs` and the kernel have their own code for the format of the disk.  `Reads fs st` says that the
kernel finds the files `fs` on the store `st`: the root directory has their entries, and `readi`
returns their contents.  It holds for the image of `mkfs` (`rounded_reads`), even where the size of
the root directory covers a block that does not exist: the entries are found before that block is
read.

`namei_reads` follows `namei("/name")` from the first process on to the inode of the file.
-/

namespace Xv6

open List

namespace Mkfs

variable {s : State} {fs : List HostFile} {f : HostFile} {name : Name} {st : Store} {dp : Inode}
  {k e t inum n j : ℕ} {d : Bytes}

/-! ## Names -/

theorem cstr_bytes (h : (0 : UInt8) ∉ name) : cstr n name.bytes = name.take n := by
  induction n generalizing name with
  | zero => rfl
  | succ n ih =>
    cases name with
    | nil => rfl
    | cons c l =>
    obtain ⟨h0, hl⟩ := not_or.1 fun hm => h (mem_cons.2 hm)
    have hdrop : (Name.bytes (c :: l)).drop 1 = Name.bytes l := by
      funext i
      rw [Bytes.drop_apply, add_comm]
      rfl
    have hc : Name.bytes (c :: l) 0 ≠ 0 := Ne.symm h0
    rw [cstr, if_neg hc, hdrop, ih hl]
    rfl

theorem key_eq_take (h : (0 : UInt8) ∉ name) : name.key = name.take dirsiz := cstr_bytes h

theorem key_take (h : (0 : UInt8) ∉ name) : Name.key (name.take dirsiz) = name.take dirsiz := by
  rw [key_eq_take fun h0 => h (mem_of_mem_take h0), take_take, Nat.min_self]

theorem skipelem_slash (h0 : name ≠ []) (h : ∀ c ∈ name, c ≠ slash ∧ c ≠ 0) :
    skipelem (slash :: name) = some (name.take dirsiz, []) := by
  obtain ⟨c, l, rfl⟩ := exists_cons_of_ne_nil h0
  obtain ⟨hs, hz⟩ := h c mem_cons_self
  have hall : ∀ c' ∈ c :: l, decide (c' ≠ slash ∧ c' ≠ 0) = true :=
    fun c' hc' => decide_eq_true (h c' hc')
  have hdrop : (slash :: c :: l).dropWhile (· = slash) = c :: l := by simp [hs]
  rw [skipelem]
  simp only [hdrop]
  rw [if_neg (by simp [atEnd, hz]), takeWhile_eq_self_iff.2 hall, dropWhile_eq_nil_iff.2 hall]
  rfl

/-- The names of the files are names for the kernel, and no two are the same to it. -/
structure Named (fs : List HostFile) : Prop where
  ne_nil : ∀ f ∈ fs, f.target ≠ []
  nul : ∀ f ∈ fs, (0 : UInt8) ∉ f.target
  ne_dot : ∀ f ∈ fs, f.target ≠ dot
  ne_dotdot : ∀ f ∈ fs, f.target ≠ dotdot
  distinct : (fs.map fun f => f.target.take dirsiz).Nodup

theorem slash_target (h : f.Ok) : slash ∉ f.target := by
  unfold HostFile.target
  split_ifs
  · exact fun hm => h.slash (mem_of_mem_tail hm)
  · exact h.slash

/-! ## Entries -/

theorem take_ne {l : Name} (hl : l.length < dirsiz) (h : name ≠ l) : name.take dirsiz ≠ l := by
  rintro rfl
  rw [length_take] at hl
  exact h (take_of_length_le (by omega)).symm

/-- **The first entry with the name of a file is its own.** -/
theorem entries_name (hn : Named fs) (hf : fs[k]? = some f) (he : e ≤ k + 2) :
    ∃ d, (entries fs)[e]? = some d ∧
    (cstr dirsiz (d.direntName 0) = f.target.take dirsiz ↔ e = k + 2) ∧
      (e = k + 2 → k + 2 < 2 ^ 16 → d.direntInum 0 = k + 2) := by
  obtain ⟨hk, hfk⟩ := List.getElem?_eq_some_iff.1 hf
  have hmem : f ∈ fs := mem_of_getElem? hf
  match e, he with
  | 0, _ =>
    refine ⟨_, rfl, ?_, by omega⟩
    rw [cstr_dirent]
    exact iff_of_false (take_ne (by decide) (hn.ne_dot f hmem)).symm (by omega)
  | 1, _ =>
    refine ⟨_, rfl, ?_, by omega⟩
    rw [cstr_dirent]
    exact iff_of_false (take_ne (by decide) (hn.ne_dotdot f hmem)).symm (by omega)
  | e + 2, he =>
    have hlt : e < fs.length := by omega
    have hg : fs[e]? = some fs[e] := List.getElem?_eq_getElem hlt
    refine ⟨(fs[e]).entry (e + 2), ?_, ?_, fun heq hlt => ?_⟩
    · show (fs.mapIdx fun k f => f.entry (k + 2))[e]? = _
      rw [List.getElem?_mapIdx, hg]
      rfl
    · rw [HostFile.entry, cstr_dirent, cstr_strncpy, cstr_bytes (hn.nul _ (getElem_mem hlt)), ← hfk]
      have := @List.Nodup.getElem_inj_iff _ _ hn.distinct e (by simpa using hlt) k
        (by simpa using hk)
      simp only [getElem_map] at this
      rw [this]
      omega
    · rw [HostFile.entry, Bytes.direntInum_dirent (by omega)]
      exact heq

/-- **`dirlookup` finds the first entry with the name.** -/
theorem lookupLoop_first (hsize : direntSize * t < dp.size) (hi : inum ≠ 0)
    (hread : ∀ e ≤ t, ∃ de, Store.readi dp (direntSize * e) direntSize st = .ok
      (some (16, de), dp) st ∧ (cstr dirsiz (de.direntName 0) = name.key ↔ e = t) ∧
      (e = t → de.direntInum 0 = inum))
    (hj : j ≤ t) (hn : t < j + n) :
    Store.lookupLoop name n dp (direntSize * j) st = .ok (some (inum, direntSize * t), dp) st := by
  induction n generalizing j with
  | zero => omega
  | succ n ih =>
    obtain ⟨de, hr, hname, hinum⟩ := hread j hj
    have hle := Nat.mul_le_mul_left direntSize hj
    rw [Store.lookupLoop, if_neg (by omega)]
    simp only [bind, EStateM.bind, hr, namecmp_eq_zero_iff, hname]
    by_cases hjt : j = t
    · rw [hinum hjt, if_pos ⟨hi, hjt⟩, hjt]
      rfl
    · rw [if_neg fun h => hjt h.2]
      exact ih (j := j + 1) (by omega) (by omega)

/-! ## The image -/

/-- The kernel finds the files on the store. -/
structure Reads (fs : List HostFile) (st : Store) : Prop where
  root_type : (st.dinode rootino).type = tDir
  root_nlink : (st.dinode rootino).nlink = 1
  root_size : direntSize * (fs.length + 2) ≤ (st.dinode rootino).size
  entry : ∀ e d, (entries fs)[e]? = some d → ∃ de,
    Store.readi ⟨st.dinode rootino, rootino⟩ (direntSize * e) direntSize st =
      .ok (some (16, de), ⟨st.dinode rootino, rootino⟩) st ∧ ∀ i < direntSize, de i = d i
  file : ∀ k f, fs[k]? = some f → (st.dinode (k + 2)).type = tFile ∧ (st.dinode (k + 2)).size =
    f.bytes.length
  readi : ∀ k f, fs[k]? = some f → ∀ off n, off ≤ f.bytes.length → off + n < 2 ^ 32 → ∃ dst,
    Store.readi ⟨st.dinode (k + 2), k + 2⟩ off n st =
      .ok (some (min n (f.bytes.length - off), dst), ⟨st.dinode (k + 2), k + 2⟩) st ∧
    (List.range (min n (f.bytes.length - off))).map dst = (f.bytes.drop off).take n

/-- The contents of the files do not change when the root directory is written back. -/
theorem rounded_data (h : s.Ok)
    (hp : Store.Puts s.view ⟨Dinode.rounded (s.view.dinode rootino), rootino⟩ st) {i : ℕ}
    (hi : i < ninodes) (ht : (s.view.dinode i).type ≠ 0) :
    (st.dinode i).data st.disk = (s.node i).data := by
  have hc : s.view.Copy ⟨s.view.dinode i, i⟩ := ⟨hi, rfl, ht⟩
  rw [State.node, hc.node_eq]
  refine Dinode.data_eq_of_block fun bn _ => ?_
  unfold Dinode.block
  rw [(rounded_ptrs h hp).1 i hi ht]
  split_ifs with h0
  · rfl
  refine hp.disk _ ?_
  have hlive := @Store.ptrs_of_live s.view i (Dinode.pos bn) s.view.dinode hi ht
  rw [← hlive] at h0 ⊢
  exact h.ok.owns.le_ptr _ h0

/-- **The kernel finds the files on the image of `mkfs`.** -/
theorem rounded_reads (hb : Built fs s) (hn : fs.length ≤ 198)
    (hsb : st.sb = .get (s.rounded.shown 1)) (hd : st.disk = s.rounded.shown) : Reads fs st := by
  obtain ⟨hrt, hrs⟩ := RootHas.dinode hb.root
  rw [length_entries] at hrs
  obtain ⟨st₁, hshow, hp⟩ := rounded_puts hb.toOk (by rw [hrs]; simp only [direntSize]; omega)
  have hdin : st.dinode = st₁.dinode := by
    have hsb1 : st₁.sb = .get (s.rounded.shown 1) := by rw [← hp.formatted.sb_eq, hshow.disk]
    funext i
    rw [Store.dinode, Store.dinode, hsb, hsb1, hd, hshow.disk]
  have hdisk : st.disk = st₁.disk := by rw [hd, hshow.disk]
  obtain ⟨hptr, -⟩ := rounded_ptrs hb.toOk hp
  have hroot : st₁.dinode rootino = Dinode.rounded (s.view.dinode rootino) := by
    rw [hp.dinode rootino (by decide : rootino < ninodes)]
    exact if_pos rfl
  have hrt0 : (s.view.dinode rootino).type ≠ 0 := by rw [hrt]; decide
  have hsize : direntSize * (fs.length + 2) ≤ (st₁.dinode rootino).size := by
    rw [hroot, ← hrs]
    show _ ≤ (_ / bsize + 1) * bsize
    simp only [bsize]
    omega
  -- a file is as it was before the root directory was written back
  have hfile : ∀ k f, fs[k]? = some f → k + 2 < ninodes ∧
    st₁.dinode (k + 2) = s.view.dinode (k + 2) ∧
      (s.view.dinode (k + 2)).type = tFile ∧ s.view.Copy ⟨s.view.dinode (k + 2), k + 2⟩ ∧
      (s.view.dinode (k + 2)).size = f.bytes.length := by
    intro k f hf
    obtain ⟨htype, -, hcont⟩ := hb.file k f hf
    have hk : k < fs.length := (List.getElem?_eq_some_iff.1 hf).1
    have hlt : k + 2 < ninodes := by simp only [ninodes]; omega
    rw [node_type hlt] at htype
    have hc : s.view.Copy ⟨s.view.dinode (k + 2), k + 2⟩ := ⟨hlt, rfl, by rw [htype]; decide⟩
    refine ⟨hlt, (hp.dinode _ hlt).trans (if_neg (by simp [rootino])), htype, hc, ?_⟩
    rw [← hcont, length_content, State.node, hc.node_eq]
  refine ⟨by rwa [hdin, hroot], ?_, by rwa [hdin], fun e d he => ?_,
    fun k f hf => ?_, fun k f hf off n hoff hmax => ?_⟩
  · have hc : s.view.Copy ⟨s.view.dinode rootino, rootino⟩ :=
      ⟨(by decide : rootino < ninodes), rfl, hrt0⟩
    have hnl := hb.root.nlink
    rw [State.node, hc.node_eq] at hnl
    rw [hdin, hroot]
    exact hnl
  · have hlt : e < fs.length + 2 := by
      rw [← length_entries]
      exact (List.getElem?_eq_some_iff.1 he).1
    have hshape := hb.ok.shaped rootino (by decide : rootino < ninodes) hrt0
    rw [hrs] at hshape
    have hmin : min direntSize ((st₁.dinode rootino).size - direntSize * e) = 16 := by
      simp only [direntSize] at hsize ⊢
      omega
    have hle : blocksOf (direntSize * e + 16) ≤ blocksOf (direntSize * (fs.length + 2)) := by
      simp only [blocksOf, bsize, direntSize]
      omega
    have hr := @Store.readi_lookup st ⟨st₁.dinode rootino, rootino⟩ (direntSize * e) direntSize
      (by rw [hroot]; show (s.view.dinode rootino).type ≠ _; rw [hrt]; decide)
      (by show ¬ ((st₁.dinode rootino).size < _ ∨ _); simp only [direntSize] at hsize ⊢; omega)
      (fun bn hbn => by
        rw [hmin] at hbn
        rw [hdisk, hptr rootino (by decide) hrt0, hshape.block_iff bn (by have := hshape.le; omega)]
        omega)
      (by rw [hmin]; simp only [direntSize, maxfile, bsize]; omega)
    rw [hmin, hdisk, rounded_data hb.toOk hp (by decide) hrt0] at hr
    rw [hdin]
    refine ⟨_, hr, fun i hi => ?_⟩
    rw [Bytes.copy_of_mem (Nat.zero_le i) (by simpa [direntSize] using hi), Bytes.drop_apply,
      Nat.sub_zero, hb.root.data e d he i hi]
  · obtain ⟨-, hdi, htype, -, hlen⟩ := hfile k f hf
    rw [hdin, hdi]
    exact ⟨htype, hlen⟩
  · obtain ⟨hlt, hdi, htype, hc, hlen⟩ := hfile k f hf
    have ht0 : (s.view.dinode (k + 2)).type ≠ 0 := by rw [htype]; decide
    have hshape := hb.ok.shaped (k + 2) hlt ht0
    rw [hlen] at hshape
    have hle : blocksOf (off + min n (f.bytes.length - off)) ≤ blocksOf f.bytes.length := by
      simp only [blocksOf, bsize]
      omega
    have hr := @Store.readi_lookup st ⟨st₁.dinode (k + 2), k + 2⟩ off n
      (by rw [hdi, htype]; decide)
      (by show ¬ ((st₁.dinode (k + 2)).size < _ ∨ _); rw [hdi, hlen]; omega)
      (fun bn hbn => by
        rw [hdi, hlen] at hbn
        rw [hdisk, hptr _ hlt ht0, hshape.block_iff bn (by have := hshape.le; omega)]
        omega)
      (by rw [hdi, hlen]; exact blocksOf_le_iff.1 (hle.trans hshape.le))
    have hread : (s.node (k + 2)).read off n = some (min n (f.bytes.length - off),
        Bytes.zero.copy 0 (min n (f.bytes.length - off)) ((s.node (k + 2)).data.drop off)) := by
      have hsz : (s.node (k + 2)).size = f.bytes.length := by rw [State.node, hc.node_eq, hlen]
      rw [Node.read, hsz, if_pos ⟨hoff, hmax⟩]
    rw [show (st₁.dinode (k + 2)).size = f.bytes.length by rw [hdi, hlen], hdisk,
      rounded_data hb.toOk hp hlt ht0] at hr
    rw [hdin]
    refine ⟨_, hr, ?_⟩
    rw [Node.content_read hread, (hb.file k f hf).2.2]

/-! ## Looking a file up -/

variable {p i : ℕ} {s₁ s₂ : Fs} {L : Prog.Locks ℕ ℕ}

theorem seq_bind_ok {α β : Type} {c : FsP α} {g : α → FsP β} {a : α} {r r' : Fs × Prog.Locks ℕ ℕ}
    (h : c.seq p r = .ok a r') : (c >>= g).seq p r = (g a).seq p r' := by
  rw [Prog.seq_bind]
  simp only [bind, EStateM.bind, h]

theorem seq_lift_ok {α : Type} {g : FsM α} {a : α} (h : g s₁ = .ok a s₂) :
    Prog.seq p (liftM g : FsP α) (s₁, L) = .ok a (s₂, L) := by
  simp only [liftM, monadLift, MonadLift.monadLift, Prog.seq, h]
  rfl

theorem ilock_ok (hr : 0 < (s₁.icache i).ref) (hv : (s₁.icache i).valid = false) (hL : L i = none)
    (ht : (s₁.dinode (s₁.inode i).inum).type ≠ 0) :
    Prog.seq p (Fs.ilock i) (s₁, L) = .ok () (s₁.setSlot i
      ⟨(s₁.icache i).ref, true, ⟨s₁.dinode (s₁.inode i).inum, (s₁.inode i).inum⟩⟩,
      upd L i (some p)) := by
  have hcheck : Fs.checkRef i .ilock s₁ = .ok () s₁ := by
    show (if (s₁.icache i).ref < 1 then _ else _ : FsM Unit) s₁ = _
    rw [if_neg (by omega)]
    rfl
  have hlock : Prog.seq p (.lock i : FsP Unit) (s₁, L) = .ok () (s₁, upd L i (some p)) := if_pos hL
  have hload : Fs.load i s₁ = .ok () (s₁.setSlot i
      ⟨(s₁.icache i).ref, true, ⟨s₁.dinode (s₁.inode i).inum, (s₁.inode i).inum⟩⟩) := by
    show (if (s₁.icache i).valid = true then _ else _ : FsM Unit) s₁ = _
    rw [if_neg (by rw [hv]; decide), if_neg ht]
    rfl
  rw [Fs.ilock, seq_bind_ok (seq_lift_ok hcheck), seq_bind_ok hlock, seq_lift_ok hload]

theorem iunlockput_ok (hr : 0 < (s₁.icache i).ref) (hnl : (s₁.inode i).nlink ≠ 0)
    (hL : L i = some p) :
    Prog.seq p (Fs.iunlockput i) (s₁, L) =
      .ok () (s₁.setSlot i { s₁.icache i with ref := (s₁.icache i).ref - 1 }, upd L i none) := by
  have hcheck : Fs.checkRef i .iunlock s₁ = .ok () s₁ := by
    show (if (s₁.icache i).ref < 1 then _ else _ : FsM Unit) s₁ = _
    rw [if_neg (by omega)]
    rfl
  have hholds : Prog.seq p (.holds i : FsP Bool) (s₁, L) = .ok true (s₁, L) := by
    show EStateM.Result.ok (decide (L i = some p)) (s₁, L) = _
    rw [hL, decide_eq_true rfl]
  have hunlock : ∀ L : Prog.Locks ℕ ℕ, Prog.seq p (.unlock i : FsP Unit) (s₁, L) =
      .ok () (s₁, upd L i none) :=
    fun _ => rfl
  have hlock : Prog.seq p (.lock i : FsP Unit) (s₁, upd L i none) =
      .ok () (s₁, upd (upd L i none) i (some p)) := if_pos (if_pos rfl)
  have hfree : Fs.ifree i s₁ = .ok () s₁ := by
    show (if _ ∧ (s₁.inode i).nlink = 0 ∧ _ then _ else _ : FsM Unit) s₁ = _
    rw [if_neg fun h => hnl h.2.1]
    rfl
  have hiunlock : Prog.seq p (Fs.iunlock i) (s₁, L) = .ok () (s₁, upd L i none) := by
    rw [Fs.iunlock, seq_bind_ok hholds, if_pos rfl, seq_bind_ok (seq_lift_ok hcheck), hunlock]
  rw [Fs.iunlockput, seq_bind_ok hiunlock, Fs.iput, seq_bind_ok hlock,
    seq_bind_ok (seq_lift_ok hfree), seq_bind_ok (hunlock _), upd_idem, upd_idem]
  exact seq_lift_ok rfl

/-- `dirlookup` finds the entry of a file in the root directory. -/
theorem lookup_ok (hr : Reads fs s₁.store) (hn : Named fs) (hlen : fs.length ≤ 198)
    (hf : fs[k]? = some f) (hi : s₁.inode i = ⟨s₁.dinode rootino, rootino⟩) :
    Fs.onInode i (fun ip => Store.lookupLoop (f.target.take dirsiz) ip.size ip 0) s₁ =
      .ok (some (k + 2, direntSize * (k + 2))) s₁ := by
  have hk : k < fs.length := (List.getElem?_eq_some_iff.1 hf).1
  have hsize := hr.root_size
  have hnul := hn.nul f (mem_of_getElem? hf)
  have hread : ∀ e ≤ k + 2, ∃ de, Store.readi ⟨s₁.dinode rootino, rootino⟩ (direntSize * e)
    direntSize s₁.store = .ok (some (16, de), ⟨s₁.dinode rootino, rootino⟩) s₁.store ∧
      (cstr dirsiz (de.direntName 0) = Name.key (f.target.take dirsiz) ↔ e = k + 2) ∧
      (e = k + 2 → de.direntInum 0 = k + 2) := by
    intro e he
    obtain ⟨d, hd, hname, hinum⟩ := entries_name hn hf he
    obtain ⟨de, hde, hsame⟩ := hr.entry e d hd
    have hstr : cstr dirsiz (de.direntName 0) = cstr dirsiz (d.direntName 0) :=
        cstr_congr fun j hj => by
      rw [Bytes.direntName, Bytes.direntName, Bytes.drop_apply, Bytes.drop_apply]
      exact hsame _ (by simp only [dirsiz, direntSize] at hj ⊢; omega)
    have hnum : de.direntInum 0 = d.direntInum 0 := Bytes.getLE_congr fun j _ hj =>
      hsame j (by simp only [direntSize]; omega)
    refine ⟨de, hde, ?_, fun heq => hnum.trans (hinum heq (by omega))⟩
    rw [key_take hnul, hstr]
    exact hname
  have hlt : direntSize * (k + 2) < (s₁.dinode rootino).size := by
    show _ < (s₁.store.dinode rootino).size
    simp only [direntSize] at hsize ⊢
    omega
  have hloop := lookupLoop_first (n := (s₁.dinode rootino).size) (j := 0) hlt (by omega) hread
    zero_le (by simp only [direntSize] at hlt; omega)
  have hslot : s₁.setSlot i { s₁.icache i with ip := ⟨s₁.dinode rootino, rootino⟩ } = s₁ := by
    rw [← hi, Fs.setSlot]
    have hupd : upd s₁.icache i (s₁.icache i) = s₁.icache := by
      rw [upd_eq_update, Function.update_eq_self]
    exact congrArg (fun c => { s₁ with icache := c }) hupd
  have hon : Fs.onStore (Store.lookupLoop (f.target.take dirsiz) (s₁.dinode rootino).size
      ⟨s₁.dinode rootino, rootino⟩ 0) s₁ =
      .ok (some (k + 2, direntSize * (k + 2)), ⟨s₁.dinode rootino, rootino⟩) s₁ := by
    simp only [Fs.onStore]
    rw [show (0 : ℕ) = direntSize * 0 from rfl, hloop]
  simp only [Fs.onInode, get_bind_apply, hi]
  rw [bind_ok hon]
  exact congrArg (EStateM.Result.ok _) hslot

/-- `iget` of an inode that is not in the cache takes the first empty slot. -/
theorem iget_new (h0 : (s₁.inode 0).inum ≠ inum) (h1 : (s₁.icache 0).ref ≠ 0)
    (hfree : ∀ j, j ≠ 0 → (s₁.icache j).ref = 0) :
    Fs.iget inum s₁ = .ok 1 (s₁.setSlot 1 ⟨1, false, { s₁.inode 1 with inum := inum }⟩) := by
  have hnone : (List.range ninode).find?
      (fun i => decide (0 < (s₁.icache i).ref ∧ (s₁.inode i).inum = inum)) = none := by
    refine List.find?_eq_none.2 fun j _ hj => ?_
    obtain ⟨hpos, hinum⟩ := of_decide_eq_true hj
    by_cases hj0 : j = 0
    · subst hj0
      exact h0 hinum
    · rw [hfree j hj0] at hpos
      exact absurd hpos (by decide)
  have hsome : (List.range ninode).find? (fun i => decide ((s₁.icache i).ref = 0)) = some 1 := by
    rw [show List.range ninode = 0 :: 1 :: List.range' 2 48 from rfl, List.find?_cons_of_neg
      (by simpa using h1), List.find?_cons_of_pos (by simpa using hfree 1 (by decide))]
  simp only [Fs.iget, get_bind_apply, hnone, hsome]
  rfl

/-- `dirlookup` puts the inode of the file into slot 1. -/
theorem dirlookup_ok (hr : Reads fs s₁.store) (hn : Named fs) (hlen : fs.length ≤ 198)
    (hf : fs[k]? = some f) (hi : s₁.inode 0 = ⟨s₁.dinode rootino, rootino⟩)
    (href : (s₁.icache 0).ref ≠ 0) (hfree : ∀ j, j ≠ 0 → (s₁.icache j).ref = 0) :
    Fs.dirlookup 0 (f.target.take dirsiz) s₁ = .ok (some (1, direntSize * (k + 2)))
      ({ s₁ with found := s₁.found ++ [(k + 2, (s₁.dinode (k + 2)).type)] }.setSlot 1
        ⟨1, false, ⟨(s₁.inode 1).toDinode, k + 2⟩⟩) := by
  have hdir : (s₁.inode 0).type = tDir := by rw [hi]; exact hr.root_type
  have hget :=
    @iget_new (k + 2) { s₁ with found := s₁.found ++ [(k + 2, (s₁.dinode (k + 2)).type)] }
    (by show (s₁.inode 0).inum ≠ _; rw [hi]; simp [rootino]) href hfree
  simp only [Fs.dirlookup, get_bind_apply]
  rw [if_neg (by rw [hdir]; decide)]
  rw [bind_ok (lookup_ok hr hn hlen hf hi)]
  simp only [modify_bind_apply]
  rw [bind_ok hget]
  rfl

/-- **`namei` finds the file**, and `ilock` then reads its inode. -/
theorem namei_reads {disk : Disk} {dr : ℕ → Option (ℕ → Option (ℕ × Bytes))}
    {dw : ℕ → Option (ℕ → Option ℕ)} (hr : Reads fs (Fs.boot disk dr dw).store) (hn : Named fs)
    (hlen : fs.length ≤ 198) (hok : f.Ok) (hf : fs[k]? = some f) :
    ∃ i r₁ r₂, Prog.seq p (Fs.namei p (slash :: f.target)) (Fs.boot disk dr dw, fun _ => none) =
    .ok (some i) r₁ ∧
      Prog.seq p (Fs.ilock i) r₁ = .ok () r₂ ∧ r₂.1.store = (Fs.boot disk dr dw).store ∧
      r₂.1.inode i = ⟨(Fs.boot disk dr dw).store.dinode (k + 2), k + 2⟩ := by
  have hmem := mem_of_getElem? hf
  have hskip : skipelem (slash :: f.target) = some (f.target.take dirsiz, []) :=
    skipelem_slash (hn.ne_nil f hmem) fun c hc =>
      ⟨fun h => slash_target hok (h ▸ hc), fun h => hn.nul f hmem (h ▸ hc)⟩
  -- the root directory is in slot 0, the other slots are empty
  have hget : Fs.startInode p (slash :: f.target) (Fs.boot disk dr dw) =
      .ok 0 ((Fs.boot disk dr dw).setSlot 0 ⟨2, false, ⟨.zero, rootino⟩⟩) := rfl
  have hempty : ∀ j, j ≠ 0 → ((Fs.boot disk dr dw).icache j).ref = 0 :=
    fun j hj => congrArg Slot.ref (if_neg hj)
  generalize Fs.boot disk dr dw = s₀ at hr hget hempty ⊢
  have htype : (s₀.dinode rootino).type = tDir := hr.root_type
  -- `namex` locks it
  have hlock : Prog.seq p (Fs.ilock 0) (s₀.setSlot 0 ⟨2, false, ⟨.zero, rootino⟩⟩, fun _ => none) =
    .ok ()
      (s₀.setSlot 0 ⟨2, true, ⟨s₀.dinode rootino, rootino⟩⟩, upd (fun _ => none) 0 (some p)) := by
    rw [ilock_ok Nat.two_pos rfl rfl (show (s₀.dinode rootino).type ≠ 0 by rw [htype]; decide),
      Fs.setSlot, Fs.setSlot]
    simp only [upd_idem]
    rfl
  obtain ⟨s₂, hs2⟩ : ∃ s₂, s₂ = s₀.setSlot 0 ⟨2, true, ⟨s₀.dinode rootino, rootino⟩⟩ := ⟨_, rfl⟩
  rw [← hs2] at hlock
  have htypeOf : Fs.typeOf 0 s₂ = .ok tDir s₂ := by
    rw [hs2]
    exact congrArg (EStateM.Result.ok · _) htype
  -- finds the entry
  have hlook := @dirlookup_ok fs f k s₂ (by rwa [hs2]) hn hlen hf (by rw [hs2]; rfl)
    (by rw [hs2]; exact Nat.two_pos.ne') fun j hj => by
      rw [hs2]
      exact (congrArg Slot.ref (if_neg hj)).trans (hempty j hj)
  obtain ⟨s₃, hs3⟩ : ∃ s₃, s₃ =
    { s₂ with found := s₂.found ++ [(k + 2, (s₂.dinode (k + 2)).type)] }.setSlot 1
      ⟨1, false, ⟨(s₂.inode 1).toDinode, k + 2⟩⟩ := ⟨_, rfl⟩
  rw [← hs3] at hlook
  have hslot3 : s₃.icache 0 = ⟨2, true, ⟨s₀.dinode rootino, rootino⟩⟩ := by rw [hs3, hs2]; rfl
  -- and drops the root directory
  have hput := @iunlockput_ok p 0 s₃ (upd (fun _ => none) 0 (some p))
    (by rw [hslot3]; exact Nat.two_pos)
    (by rw [Fs.inode, hslot3]; show (s₀.store.dinode rootino).nlink ≠ 0; rw [hr.root_nlink]; decide)
    rfl
  obtain ⟨s₄, hs4⟩ : ∃ s₄, s₄ = s₃.setSlot 0 { s₃.icache 0 with ref := (s₃.icache 0).ref - 1 } :=
    ⟨_, rfl⟩
  rw [← hs4, upd_idem] at hput
  have hslot4 : s₄.icache 1 = ⟨1, false, ⟨(s₂.inode 1).toDinode, k + 2⟩⟩ := by rw [hs4, hs3]; rfl
  have hstore : s₄.store = s₀.store := by rw [hs4, hs3, hs2]; rfl
  have hnamex : Prog.seq p (Fs.namex p (slash :: f.target) false) (s₀, fun _ => none) =
      .ok (some (1, [])) (s₄, upd (fun _ => none) 0 none) := by
    rw [Fs.namex, seq_bind_ok (seq_lift_ok hget), Fs.namexLoop, hskip]
    dsimp only
    rw [seq_bind_ok hlock, seq_bind_ok (seq_lift_ok htypeOf), if_neg (by simp), if_neg (by simp),
      seq_bind_ok (seq_lift_ok hlook)]
    dsimp only
    rw [seq_bind_ok hput]
    rfl
  have htype4 : (s₄.dinode (s₄.inode 1).inum).type ≠ 0 := by
    rw [Fs.dinode, Fs.inode, hslot4, hstore, (hr.file k f hf).1]
    decide
  have hilock := @ilock_ok p 1 s₄ (upd (fun _ => none) 0 none) (by rw [hslot4]; exact Nat.one_pos)
    (by rw [hslot4]) rfl htype4
  refine ⟨1, _, _, ?_, hilock, hstore, ?_⟩
  · rw [Fs.namei, seq_bind_ok hnamex]
    rfl
  · show (⟨s₄.dinode (s₄.inode 1).inum, (s₄.inode 1).inum⟩ : Inode) = _
    rw [Fs.inode, hslot4, Fs.dinode, hstore]

/-- **The kernel reads what `mkfs` wrote.**  For every list of files that fits and whose names the
kernel can tell apart, `mkfs` ends with an image on which `namei("/name")` finds the inode of every
file, with its length, and `readi` returns its bytes and changes nothing. -/
theorem mkfs_reads (h : Fits fs) (hn : Named fs) : ∃ s, main fs init = .ok () s ∧
    ∀ dr dw p, ∀ f ∈ fs, ∃ i r₁ r₂,
      Prog.seq p (Fs.namei p (slash :: f.target)) (Fs.boot s.disk dr dw, fun _ => none) =
      .ok (some i) r₁ ∧
      Prog.seq p (Fs.ilock i) r₁ = .ok () r₂ ∧
      (r₂.1.inode i).type = tFile ∧ (r₂.1.inode i).size = f.bytes.length ∧
      ∀ off n, off ≤ f.bytes.length → off + n < 2 ^ 32 → ∃ dst,
        Store.readi (r₂.1.inode i) off n r₂.1.store =
          .ok (some (min n (f.bytes.length - off), dst), r₂.1.inode i) r₂.1.store ∧
        (List.range (min n (f.bytes.length - off))).map dst = (f.bytes.drop off).take n := by
  obtain ⟨s', hs', s, hb, hdisk, -⟩ := main_ok h
  refine ⟨s', hs', fun dr dw p f hmem => ?_⟩
  obtain ⟨k, hf⟩ := mem_iff_getElem?.1 hmem
  have hr : Reads fs (Fs.boot s'.disk dr dw).store :=
    rounded_reads hb h.count (by rw [← hdisk]; rfl) hdisk
  obtain ⟨i, r₁, r₂, hnamei, hilock, hstore, hinode⟩ :=
    namei_reads (p := p) hr hn h.count (h.file f hmem) hf
  refine ⟨i, r₁, r₂, hnamei, hilock, ?_⟩
  rw [hinode, hstore]
  exact ⟨(hr.file k f hf).1, (hr.file k f hf).2, hr.readi k f hf⟩

/-- The file `_a` with three bytes, read in two pieces, is `/a`. -/
theorem mkfs_reads_one : ∃ s, main [⟨[95, 97], [[1], [2, 3]]⟩] init = .ok () s ∧ ∃ i r₁ r₂ dst,
    Prog.seq 0 (Fs.namei 0 [slash, 97])
    (Fs.boot s.disk (fun _ => none) fun _ => none, fun _ => none) =
      .ok (some i) r₁ ∧
    Prog.seq 0 (Fs.ilock i) r₁ = .ok () r₂ ∧
    Store.readi (r₂.1.inode i) 0 512 r₂.1.store = .ok (some (3, dst), r₂.1.inode i) r₂.1.store ∧
    (List.range 3).map dst = [1, 2, 3] := by
  have hfits : Fits [⟨[95, 97], [[1], [2, 3]]⟩] := by
    refine ⟨by decide, fun f hf => ?_, by decide⟩
    obtain rfl := mem_singleton.1 hf
    exact ⟨by decide, by decide, by decide⟩
  have hnamed : Named [⟨[95, 97], [[1], [2, 3]]⟩] := by
    constructor <;> decide
  obtain ⟨s, hs, hreads⟩ := mkfs_reads hfits hnamed
  obtain ⟨i, r₁, r₂, hnamei, hilock, -, -, hread⟩ :=
    hreads (fun _ => none) (fun _ => none) 0 _ mem_cons_self
  obtain ⟨dst, hdst, hbytes⟩ := hread 0 512 (by decide) (by decide)
  exact ⟨s, hs, i, r₁, r₂, dst, hnamei, hilock, hdst, hbytes⟩

end Mkfs

end Xv6
