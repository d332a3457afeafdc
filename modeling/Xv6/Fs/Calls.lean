import Xv6.Fs.Syscall
import Xv6.Fs.Tables

/-!
# Every call keeps the invariant

`Idle s` is the invariant between two calls.  `sys_does` says that every call keeps it, whether it
succeeds or fails, and that all states it goes through satisfy `Seen`.
-/

namespace Xv6

open Option Multiset

namespace Fs

variable {p i f c dp n : ℕ} {x : Held} {s s' s₁ : Fs} {H m : Multiset ℕ} {path name : Name}

/-- What a call of process `p` knows while it runs: the invariant with the slots `H` in its hand, in
a transaction or not, and what is needed to walk along a path. -/
structure Run (o : ℕ) (H : Multiset ℕ) (s : Fs) : Prop where
  wf : Wf ⟨H, 0, s.proc⟩ s
  out : s.store.outstanding = o
  root : rootino < s.store.sb.ninodes
  cwd : ∀ p q, s.proc p = some q → ∃ i, q.cwd = some i

/-- The invariant between two calls. -/
abbrev Idle (s : Fs) : Prop := Run 0 0 s

theorem Run.of_keep {o : ℕ} {H H' R : Multiset ℕ} (h : Run o H s) (hk : Keep R s s')
    (hw : Wf ⟨H', 0, s.proc⟩ s') :
    Run o H' s' :=
  ⟨by rwa [hk.proc], by rw [hk.out, h.out], by rw [hk.sb]; exact h.root, by
      rw [hk.proc]; exact h.cwd⟩

/-! ### Steps of a call -/

theorem beginOp_run (h : Run 0 H s) :
    does p beginOp (fun _ s' => Run 1 H s' ∧ s'.proc = s.proc ∧ s'.ftable = s.ftable ∧
      s'.icache = s.icache) s :=
  (beginOp_does h.wf h.out).mono fun _ s' ⟨hw, hl⟩ =>
    ⟨⟨by rwa [hl.proc], hl.out, hl.sb ▸ h.root, by rw [hl.proc]; exact h.cwd⟩, hl.proc,
        hl.ftable, hl.icache⟩

theorem endOp_run (h : Run 1 H s) :
    does p (liftM endOp) (fun _ s' => Run 0 H s' ∧ s'.proc = s.proc ∧ s'.ftable = s.ftable ∧
      s'.icache = s.icache) s :=
  (endOp_does h.wf h.out).mono fun _ s' ⟨hw, hl⟩ =>
    ⟨⟨by rwa [hl.proc], hl.out, hl.sb ▸ h.root, by rw [hl.proc]; exact h.cwd⟩, hl.proc,
        hl.ftable, hl.icache⟩

theorem finish (h : Run 1 0 s) (r : ℤ) :
    does p (do endOp; return r : FsP ℤ) (fun _ s' => Idle s') s :=
  (endOp_run h).seq fun _ _ ⟨h1, _⟩ => does_pure h1

theorem ilock_run {o : ℕ} (h : Run o H s) (hi : i ∈ H) :
    does p (ilock i)
    (fun _ s' => Run o H s' ∧ Keep H s s' ∧ s'.nodes = s.nodes ∧ (s'.icache i).valid = true) s :=
  (ilock_does h.wf (h.wf.ref_pos hi)).mono fun _ _ ⟨hw, hl⟩ =>
    ⟨h.of_keep (R := H) hl.keep hw, hl.keep, hl.nodes, hl.valid⟩

theorem iput_run (h : Run 1 (i ::ₘ H) s) :
    does p (iput i) (fun _ s' => Run 1 H s' ∧ Keep H s s') s :=
  (iput_does h.wf rfl h.out.ge).mono fun _ _ ⟨hw, hk⟩ => ⟨h.of_keep hk hw, hk⟩

theorem iunlockput_run (h : Run 1 (i ::ₘ H) s) :
    does p (iunlockput i) (fun _ s' => Run 1 H s' ∧ Keep H s s') s :=
  (iunlockput_does h.wf rfl h.out.ge).mono fun _ _ ⟨hw, hk⟩ => ⟨h.of_keep hk hw, hk⟩

theorem drop_finish (h : Run 1 {i} s) (r : ℤ) :
    does p (do iunlockput i; endOp; return r : FsP ℤ) (fun _ s' => Idle s') s :=
  (iunlockput_run (H := 0) h).seq fun _ _ ⟨h1, _⟩ => finish h1 r

theorem typeOf_run {o : ℕ} {β : Type} {k : ℕ → FsP β} {Q : β → Fs → Prop} (h : Run o H s)
    (hk : does p (k (s.inode i).type) Q s) : does p (liftM (typeOf i) >>= k) Q s :=
  does_bind (does_lift h.wf
      (wp_mono (s := s) typeOf_wp (fun _ _ ⟨hs, ht⟩ => by subst hs ht; exact hk) fun _ _ => id))

theorem update_run {g : Inode → Inode} (hg : Attrs g) (h : Run 1 H s) (hi : i ∈ H)
    (hv : (s.icache i).valid = true) :
    does p (liftM (update i g)) (fun _ s' => Run 1 H s' ∧ Keep H s s') s :=
  does_lift h.wf (wp_post (update_wp hg h.wf hi hv h.out.ge)
      fun _ _ ⟨hw, hk⟩ => ⟨h.of_keep hk hw, hk⟩)

theorem dirlink_run {inum : ℕ} (h : Run 1 H s) (hi : dp ∈ H) (hv : (s.icache dp).valid = true)
    (hinum : inum < s.store.sb.ninodes) :
    does p (dirlink dp name inum) (fun _ s' => Run 1 H s' ∧ Keep H s s') s :=
  (dirlink_does h.wf hi hv hinum h.out.ge).mono fun _ _ ⟨hw, hk⟩ => ⟨h.of_keep hk hw, hk⟩

/-- The walk along a path takes one slot, if it finds something. -/
def Found (H : Multiset ℕ) (s : Fs) (r : Option ℕ) (s' : Fs) : Prop :=
  Keep H s s' ∧ match r with
    | none => Run 1 H s'
    | some i => Run 1 (i ::ₘ H) s'

theorem Walked.found {r : Option ℕ} (hw : Walked ⟨H, 0, s.proc⟩ H s r s') (h : Run 1 H s) :
    Found H s r s' := by
  obtain ⟨hk, hr⟩ := hw
  refine ⟨hk, ?_⟩
  cases r with
  | none | some i => exact h.of_keep hk hr

theorem namei_run (h : Run 1 H s) (hp : (s.proc p).isSome) :
    does p (namei p path) (fun r s' => Found H s r s') s := by
  obtain ⟨q, hq⟩ := isSome_iff_exists.1 hp
  obtain ⟨i, hi⟩ := h.cwd p q hq
  exact (namei_does h.wf rfl ⟨q, i, hq, hi⟩ h.root h.out.ge).mono fun r s' hw => Walked.found hw h

theorem nameiparent_run (h : Run 1 H s) (hp : (s.proc p).isSome) :
    does p (nameiparent p path) (fun r s' => Found H s (r.map Prod.fst) s') s := by
  obtain ⟨q, hq⟩ := isSome_iff_exists.1 hp
  obtain ⟨i, hi⟩ := h.cwd p q hq
  exact (namex_does h.wf rfl ⟨q, i, hq, hi⟩ h.root h.out.ge).mono fun r s' hw => Walked.found hw h

/-! ### Names -/

theorem linkBad_does (h : Run 1 {i} s) : does p (linkBad i) (fun _ s' => Idle s') s := by
  have hi : i ∈ ({i} : Multiset ℕ) := mem_singleton_self i
  unfold linkBad
  refine (ilock_run h hi).seq fun _ s₁ ⟨h1, _, _, hv1⟩ => ?_
  exact (update_run attrs_decLink h1 hi hv1).seq fun _ s₂ ⟨h2, _⟩ => drop_finish h2 _

theorem sysLink_does {old new : Name} (h : Idle s) (hp : (s.proc p).isSome) :
    does p (sysLink p old new) (fun _ s' => Idle s') s := by
  unfold sysLink
  refine (beginOp_run h).seq fun _ s₁ ⟨h1, hp1, _⟩ => ?_
  rw [← hp1] at hp
  refine (namei_run h1 hp).seq fun r s₂ ⟨hk2, h2⟩ => ?_
  rw [← hk2.proc] at hp
  cases r with
  | none => exact finish h2 _
  | some i =>
  have hi : i ∈ i ::ₘ (0 : Multiset ℕ) := mem_cons_self _ _
  refine (ilock_run h2 hi).seq fun _ s₃ hres => ?_
  obtain ⟨h3, hk3, _, hv3⟩ := hres
  refine typeOf_run h3 ?_
  rw [← hk3.proc] at hp
  split_ifs
  · exact drop_finish h3 _
  refine (update_run attrs_incLink h3 hi hv3).seq fun _ s₄ ⟨h4, hk4⟩ => ?_
  rw [← hk4.proc] at hp
  refine (iunlock_does h4.wf).seq fun _ s₅ hs5 => ?_
  subst hs5
  refine (nameiparent_run h4 hp).seq fun r s₆ ⟨_, h6⟩ => ?_
  cases r with
  | none => exact linkBad_does h6
  | some r =>
  obtain ⟨dp, name⟩ := r
  have hdp : dp ∈ dp ::ₘ i ::ₘ (0 : Multiset ℕ) := mem_cons_self _ _
  refine (ilock_run h6 hdp).seq fun _ s₇ ⟨h7, _, _, hv7⟩ => ?_
  refine does_bind (does_lift h7.wf (wp_get.2 ?_))
  have hlt := h7.wf.inum_lt i (h7.wf.ref_pos (mem_cons_of_mem hi))
  refine (dirlink_run h7 hdp hv7 hlt).seq fun b s₈ ⟨h8, _⟩ => ?_
  split_ifs
  · refine (iunlockput_run h8).seq fun _ s₉ ⟨h9, _⟩ => ?_
    exact (iput_run h9).seq fun _ _ ⟨h', _⟩ => finish h' _
  · exact (iunlockput_run h8).seq fun _ s₉ ⟨h9, _⟩ => linkBad_does h9

theorem unlinkable_wp {o : ℕ} (h : Run o H s) (hi : i ∈ H) (hv : (s.icache i).valid = true) :
    wp (unlinkable i) (fun _ s' => s' = s) (fun e _ => Halts (.error e)) s := by
  unfold unlinkable
  rw [wp_bind, wp_get]
  dsimp only
  split_ifs with h1 ht
  · show Halts _
    simp [Halts]
  · have hdir := h.wf.isDir (h.wf.ref_pos hi) hv ht
    obtain ⟨⟨r, ip⟩, st', hr, rfl, hip, -⟩ := (Store.isdirempty_spec h.wf.ok hdir).exists_ok
    dsimp only at hip
    subst hip
    exact wp_onInode_of_ok hr rfl
  · exact rfl

theorem removeEntry_run {off k : ℕ} (h : Run 1 H s) (hdp : dp ∈ H) (hv : (s.icache dp).valid = true)
    (ht : (s.inode dp).type = tDir) (hk : k < (s.nodes (s.inode dp).inum).nent)
    (hoff : off = direntSize * k) :
    does p (liftM (removeEntry dp i off)) (fun _ s' => Run 1 H s' ∧ Keep H s s') s := by
  have hpos := h.wf.inum_lt dp (h.wf.ref_pos hdp)
  subst hoff
  refine does_lift h.wf ?_
  unfold removeEntry
  rw [wp_bind, wp_onInode]
  refine wp_mono (Store.clearEntry_spec h.wf.ok (h.wf.isDir (h.wf.ref_pos hdp) hv ht))
    (fun r st hres => ?_) fun e st hs => halts_of_stops hs h.out.ge
  obtain ⟨he, _⟩ := hres
  obtain ⟨hw, hkeep⟩ := h.wf.setEnt hdp hv ht hk.le (by simp [Bytes.direntInum]; omega) he
  have h1 := h.of_keep hkeep hw
  rw [wp_bind, wp_get]
  split_ifs
  · refine wp_post (update_wp attrs_decLink h1.wf hdp (hkeep.valid dp hdp hv) h1.out.ge)
      fun _ s' hres => ?_
    obtain ⟨hw', hk'⟩ := hres
    exact ⟨h1.of_keep hk' hw', hkeep.trans hk'⟩
  · exact ⟨h1, hkeep⟩

theorem unlinkBad_does (h : Run 1 {i} s) : does p (unlinkBad i) (fun _ s' => Idle s') s :=
  drop_finish h _

theorem sysUnlink_does (h : Idle s) (hp : (s.proc p).isSome) :
    does p (sysUnlink p path) (fun _ s' => Idle s') s := by
  unfold sysUnlink
  refine (beginOp_run h).seq fun _ s₁ ⟨h1, hp1, _⟩ => ?_
  rw [← hp1] at hp
  refine (nameiparent_run h1 hp).seq fun r s₂ ⟨_, h2⟩ => ?_
  cases r with
  | none => exact finish h2 _
  | some r =>
  obtain ⟨dp, name⟩ := r
  have hdp : dp ∈ dp ::ₘ (0 : Multiset ℕ) := mem_cons_self _ _
  refine (ilock_run h2 hdp).seq fun _ s₃ ⟨h3, _, _, hv3⟩ => ?_
  split_ifs
  · exact unlinkBad_does h3
  refine does_act h3.wf (dirlookup_wp h3.wf hdp hv3) fun r s₄ hr => ?_
  cases r with
  | none =>
    obtain ⟨rfl, -⟩ := hr
    exact unlinkBad_does h3
  | some r =>
  obtain ⟨i, off⟩ := r
  replace hr : Looked _ _ _ _ _ _ := hr
  obtain ⟨k, hk, hoff⟩ := hr.entry
  have h4 : Run 1 (i ::ₘ dp ::ₘ 0) s₄ := h3.of_keep hr.toKeep hr.wf
  have hi : i ∈ i ::ₘ dp ::ₘ (0 : Multiset ℕ) := mem_cons_self _ _
  have hdp' : dp ∈ i ::ₘ dp ::ₘ (0 : Multiset ℕ) := mem_cons_of_mem hdp
  refine (ilock_run h4 hi).seq fun _ s₅ ⟨h5, hk5, hn5, hv5⟩ => ?_
  have hkeep : Keep (dp ::ₘ 0) s₃ s₅ := hr.toKeep.trans (hk5.mono (subset_cons _ _))
  refine does_act h5.wf (unlinkable_wp h5 hi hv5) fun b s₆ hs6 => ?_
  subst hs6
  split_ifs
  · -- the entry is where it was found
    have hnent : k < (s₆.nodes (s₆.inode dp).inum).nent := by
      rw [hn5, hr.nodes, hkeep.inum dp hdp]
      exact hk
    refine (removeEntry_run h5 hdp' (hkeep.valid dp hdp hv3)
      ((hkeep.type dp hdp hv3).trans hr.dir) hnent hoff).seq
      fun _ s₆ ⟨h6, hk6⟩ => ?_
    rw [cons_swap] at h6
    refine (iunlockput_run h6).seq fun _ s₇ ⟨h7, hk7⟩ => ?_
    have hi' : i ∈ i ::ₘ (0 : Multiset ℕ) := mem_cons_self _ _
    exact (update_run attrs_decLink h7 hi' (hk7.valid i hi' (hk6.valid i hi hv5))).seq
      fun _ s₈ ⟨h8, _⟩ => drop_finish h8 _
  · exact (iunlockput_run h5).seq fun _ s₆ ⟨h6, _⟩ => unlinkBad_does h6

/-! ### Creating -/

theorem attrs_create (major minor : ℕ) :
    Attrs fun x => { x with major := major % 2 ^ 16, minor := minor % 2 ^ 16, nlink := 1 } :=
  ⟨fun _ => rfl, fun _ h =>
      ⟨h.type_lt, Nat.mod_lt _ (Nat.two_pow_pos 16), Nat.mod_lt _ (Nat.two_pow_pos 16),
    Nat.one_lt_two_pow (by decide), h.size_lt, h.addrs_lt, h.addrs_out⟩⟩

theorem createDots_run {type : ℕ} (h : Run 1 H s) (hdp : dp ∈ H) (hi : i ∈ H)
    (hvd : (s.icache dp).valid = true) (hvi : (s.icache i).valid = true) :
    does p (createDots type dp i) (fun _ s' => Run 1 H s' ∧ Keep H s s') s := by
  have hthrow : ∀ {s₁ : Fs}, Run 1 H s₁ →
      does p (throw .createDots : FsM Unit) (fun _ s' => Run 1 H s' ∧ Keep H s s') s₁ := fun h1 =>
    does_lift h1.wf (by rw [wp_throw]; simp [Halts])
  unfold createDots
  split_ifs
  · refine (update_run attrs_incLink h hdp hvd).seq fun _ s₁ hres => ?_
    obtain ⟨h1, hk1⟩ := hres
    refine does_bind (does_lift h1.wf (wp_get.2 ?_))
    have hlt : ∀ j ∈ H, (s₁.inode j).inum < s₁.store.sb.ninodes :=
      fun j hj => h1.wf.inum_lt j (h1.wf.ref_pos hj)
    refine (dirlink_run h1 hi (hk1.valid i hi hvi) (hlt i hi)).seq fun b s₂ hres => ?_
    obtain ⟨h2, hk2⟩ := hres
    split_ifs
    · refine (dirlink_run h2 hi (hk2.valid i hi (hk1.valid i hi hvi)) (hk2.sb ▸ hlt dp hdp)).seq
        fun b s₃ hres => ?_
      obtain ⟨h3, hk3⟩ := hres
      split_ifs
      · exact does_pure ⟨h3, (hk1.trans hk2).trans hk3⟩
      · exact hthrow h3
    · exact hthrow h2
  · exact does_pure ⟨h, .refl⟩

theorem ialloc_run {type : ℕ} (h : Run 1 H s) (ht : type ≠ 0) (hlt : type < 2 ^ 16) :
    does p (liftM (ialloc type)) (fun i s' => Run 1 (i ::ₘ H) s' ∧ Keep H s s' ∧
      (s'.nodes (s'.inode i).inum).type = type) s := by
  refine does_lift h.wf
    (wp_mono (ialloc_spec h.wf ht hlt) (fun i s' ⟨inum, ha⟩ => ?_) fun e _ ⟨_, hs⟩ =>
    halts_of_stops hs.toStops h.out.ge)
  have hw := ha.wf h.wf ht
  have hg := ha.gets
  -- the slots of the hand are the same, up to the reference
  have hslot : ∀ j ∈ H, (s'.inode j).inum = (s.inode j).inum ∧
    (s'.inode j).type = (s.inode j).type ∧
      ((s.icache j).valid = true → (s'.icache j).valid = true) := by
    intro j hj
    by_cases hji : j = i
    · subst hji
      have hold := hg.old (h.wf.ref_pos hj)
      rw [inode, hold]
      exact ⟨rfl, rfl, id⟩
    have heq : s'.icache j = s.icache j := by
      rw [hg.eq_setSlot, setSlot_of_ne hji]
    rw [inode, heq]
    exact ⟨rfl, rfl, id⟩
  have hftable : s'.ftable = s.ftable := by rw [hg.eq_setSlot]; rfl
  have hproc : s'.proc = s.proc := by rw [hg.eq_setSlot]; rfl
  have hk : Keep H s s' :=
    ⟨⟨ha.sb, hftable, fun j hj => (hslot j hj).1, fun j hj => (hslot j hj).2.2⟩, hproc,
    ha.outstanding, fun j hj _ => (hslot j hj).2.1⟩
  refine ⟨h.of_keep hk hw, hk, ?_⟩
  rw [hg.inum_eq, ha.nodes, Function.update_self]

/-- What `create` returns: a slot that was read; if a file was asked for, one for a file. -/
def Created (type : ℕ) (s : Fs) (r : Option ℕ) (s' : Fs) : Prop :=
  s'.proc = s.proc ∧ match r with
    | none => Run 1 0 s'
    | some i => Run 1 {i} s' ∧ (s'.icache i).valid = true ∧ (type = tFile →
        (s'.inode i).type = tFile)

theorem create_does {type major minor : ℕ} (h : Run 1 0 s) (hp : (s.proc p).isSome) (ht : type ≠ 0)
    (hlt : type < 2 ^ 16) :
    does p (create p path type major minor) (Created type s) s := by
  unfold create
  refine (nameiparent_run h hp).seq fun r s₁ ⟨hk1, h1⟩ => ?_
  cases r with
  | none => exact does_pure ⟨hk1.proc, h1⟩
  | some r =>
  obtain ⟨dp, name⟩ := r
  have hdp : dp ∈ dp ::ₘ (0 : Multiset ℕ) := mem_cons_self _ _
  refine (ilock_run h1 hdp).seq fun _ s₂ ⟨h2, hk2, _, hv2⟩ => ?_
  refine does_act h2.wf (dirlookup_wp h2.wf hdp hv2) fun r s₃ hr => ?_
  have hp2 : s₂.proc = s.proc := hk2.proc.trans hk1.proc
  cases r with
  | some r =>
    obtain ⟨i, off⟩ := r
    replace hr : Looked _ _ _ _ _ _ := hr
    have h3 : Run 1 (dp ::ₘ i ::ₘ 0) s₃ := by
      rw [cons_swap]
      exact h2.of_keep hr.toKeep hr.wf
    have hi : i ∈ i ::ₘ (0 : Multiset ℕ) := mem_cons_self _ _
    refine (iunlockput_run h3).seq fun _ s₄ ⟨h4, hk4⟩ => ?_
    refine (ilock_run h4 hi).seq fun _ s₅ ⟨h5, hk5, _, hv5⟩ => ?_
    have hp5 : s₅.proc = s.proc := by rw [hk5.proc, hk4.proc, hr.proc, hp2]
    refine typeOf_run h5 ?_
    split_ifs with hfile
    · exact does_pure ⟨hp5, h5, hv5, fun _ => hfile.2⟩
    · exact (iunlockput_run h5).seq fun _ s₆ ⟨h6, hk6⟩ =>
        does_pure ⟨hk6.proc.trans hp5, h6⟩
  | none =>
  obtain ⟨rfl, -⟩ := hr
  refine (ialloc_run h2 ht hlt).seq fun i s₃ ⟨h3, hk3, ht3⟩ => ?_
  have hi : i ∈ i ::ₘ dp ::ₘ (0 : Multiset ℕ) := mem_cons_self _ _
  have hdp' : dp ∈ i ::ₘ dp ::ₘ (0 : Multiset ℕ) := mem_cons_of_mem hdp
  refine (ilock_run h3 hi).seq fun _ s₄ ⟨h4, hk4, hn4, hv4⟩ => ?_
  have ht4 : (s₄.inode i).type = type := by
    rw [(h4.wf.inode_eq (h4.wf.ref_pos hi) hv4).1, hn4, hk4.inum i hi, ht3]
  refine (update_run (attrs_create major minor) h4 hi hv4).seq fun _ s₅ ⟨h5, hk5⟩ => ?_
  have hvd : (s₅.icache dp).valid = true :=
    hk5.valid dp hdp' (hk4.valid dp hdp' (hk3.valid dp hdp hv2))
  refine (createDots_run h5 hdp' hi hvd (hk5.valid i hi hv4)).seq fun _ s₆ ⟨h6, hk6⟩ => ?_
  refine does_bind (does_lift h6.wf (wp_get.2 ?_))
  refine (dirlink_run h6 hdp' (hk6.valid dp hdp' hvd) (h6.wf.inum_lt i (h6.wf.ref_pos hi))).seq
    fun b s₇ ⟨h7, hk7⟩ => ?_
  have hk : Keep (i ::ₘ dp ::ₘ 0) s₄ s₇ := (hk5.trans hk6).trans hk7
  split_ifs
  · rw [cons_swap] at h7
    refine (iunlockput_run h7).seq fun _ s₈ ⟨h8, hk8⟩ =>
      does_pure ⟨?_, h8, ?_, fun hty => ?_⟩
    · rw [hk8.proc, hk.proc, hk4.proc, hk3.proc, hp2]
    · exact hk8.valid i (mem_cons_self _ _) (hk.valid i hi hv4)
    · rw [hk8.type i (mem_cons_self _ _) (hk.valid i hi hv4), hk.type i hi hv4, ht4, hty]
  · exact does_lift h7.wf (by rw [wp_throw]; simp [Halts])

theorem sysCreate_does {type major minor : ℕ} (h : Idle s) (hp : (s.proc p).isSome) (ht : type ≠ 0)
    (hlt : type < 2 ^ 16) :
    does p (sysCreate p path type major minor) (fun _ s' => Idle s') s := by
  unfold sysCreate
  refine (beginOp_run h).seq fun _ s₁ ⟨h1, hp1, _⟩ => ?_
  refine (create_does h1 (hp1 ▸ hp) ht hlt).seq fun r s₂ ⟨_, hr⟩ => ?_
  cases r with
  | none => exact finish hr _
  | some i => exact drop_finish hr.1 _

/-! ### Opening and closing -/

theorem isFile_none : isFile f none = 0 := if_neg nofun

theorem count_singleton {g : ℕ} : ({f} : Multiset ℕ).count g = isFile g (some f) := by
  rw [Multiset.count_singleton, isFile]
  simp [eq_comm]

/-- Changing the descriptors of a process keeps its current directory. -/
theorem cwd_setFd {q : Proc} {t : ℕ → Option ℕ} (h : ∀ p q, s.proc p = some q → ∃ i, q.cwd = some i)
    (hq : s.proc p = some q) :
    ∀ r q', upd s.proc p (some { q with ofile := t }) r = some q' → ∃ i, q'.cwd = some i := by
  intro r q' hr
  by_cases hrp : r = p
  · rw [upd, if_pos hrp] at hr
    cases hr
    exact h p q hq
  · rw [upd, if_neg hrp] at hr
    exact h r q' hr

/-- A descriptor is set to a file that the call has. -/
theorem Wf.giveFd {q : Proc} {fd : ℕ} (h : Wf ⟨H, f ::ₘ m, s.proc⟩ s) (hq : s.proc p = some q)
    (hfd : fd < nofile) (h0 : q.ofile fd = none)
    (hs : s' = { s with proc := upd s.proc p (some { q with ofile := upd q.ofile fd (some f) }) }) :
    Wf ⟨H, m, s'.proc⟩ s' := by
  subst hs
  refine (h.setFd (m := m) (o := some f) hq hfd fun g => ?_).setCur _
  rw [h0, isFile_none, count_cons]
  simp [isFile, eq_comm]

/-- A descriptor is cleared, and the call has the file. -/
theorem Wf.takeFd {q : Proc} {fd : ℕ} (h : Wf ⟨H, m, s.proc⟩ s) (hq : s.proc p = some q)
    (hfd : fd < nofile) (hf : q.ofile fd = some f)
    (hs : s' = { s with proc := upd s.proc p (some { q with ofile := upd q.ofile fd none }) }) :
    Wf ⟨H, f ::ₘ m, s'.proc⟩ s' := by
  subst hs
  refine (h.setFd (m := f ::ₘ m) (o := none) hq hfd fun g => ?_).setCur _
  rw [hf, isFile_none, count_cons]
  simp [isFile, eq_comm]

theorem openInode_does {omode : ℕ} (h : Run 1 {i} s) (hp : (s.proc p).isSome)
    (hv : (s.icache i).valid = true) (hdir : omode.testBit 0 = true ∨ omode.testBit 1 = true →
      (s.inode i).type ≠ tDir) :
    does p (openInode p i omode) (fun _ s' => Idle s') s := by
  obtain ⟨q, hq⟩ := isSome_iff_exists.1 hp
  unfold openInode
  refine does_bind (does_lift h.wf (filealloc_wp h.wf |> fun hw => wp_post hw fun r s₁ hr => ?_))
  cases r with
  | none =>
    obtain rfl : s₁ = s := hr
    exact drop_finish h _
  | some f =>
  obtain ⟨h1, hs1, ht1, hr1, -⟩ := hr
  have hproc1 : s₁.proc = s.proc := by rw [hs1]; rfl
  have hstore1 : s₁.store = s.store := by rw [hs1]; rfl
  have hcache1 : s₁.icache = s.icache := by rw [hs1]; rfl
  refine does_act h1 (fdalloc_wp (hproc1 ▸ hq)) fun r s₂ hr2 => ?_
  cases r with
  | none =>
    obtain rfl : s₂ = s₁ := hr2
    refine (fileclose_none (m := 0) h1 rfl ht1).seq fun _ s₃ ⟨h3, hs3⟩ =>
      drop_finish ⟨?_, ?_, ?_, ?_⟩ _
    · rw [hs3.proc, hproc1]
      exact h3
    · rw [hs3.store, hstore1, h.out]
    · rw [hs3.store, hstore1]
      exact h.root
    · rw [hs3.proc, hproc1]
      exact h.cwd
  | some fd =>
  obtain ⟨hfd, h0, hs2⟩ := hr2
  -- the descriptor has the reference to the file
  have h2 : Wf ⟨{i}, 0, s₂.proc⟩ s₂ := by
    rw [← hproc1] at h1 hq
    exact h1.giveFd hq hfd h0 hs2
  have hrun : Run 1 {i} s₂ := by
    refine ⟨h2, ?_, ?_, ?_⟩
    · rw [hs2, ← h.out, ← hstore1]
    · rw [hs2]
      show rootino < s₁.store.sb.ninodes
      rw [hstore1]
      exact h.root
    · rw [hs2, hproc1]
      exact cwd_setFd h.cwd hq
  refine (iunlock_does hrun.wf).seq fun _ s₃ hs3 => ?_
  subst hs3
  refine (endOp_run hrun).seq fun _ s₄ ⟨h4, _, hf4, hc4⟩ => ?_
  have hfile : s₄.ftable f = s₁.ftable f := by rw [hf4, hs2]
  have hslot : s₄.icache i = s.icache i := by rw [hc4, hs2]; exact congrFun hcache1 i
  refine does_act h4.wf (filesetup_wp (H := 0) (x := ⟨{i}, 0, s₄.proc⟩) h4.wf rfl
    (by rw [hfile, hr1]; decide) (by rw [hfile, ht1]) (by rwa [hslot]) (by rwa [inode, hslot]))
    fun _ s₅ ⟨h5, hs5⟩ => ?_
  refine does_pure ⟨?_, ?_, ?_, ?_⟩
  · rw [hs5, show (s₄.setFile f (s₅.ftable f)).proc = s₄.proc from rfl, ← hs5]
    exact h5
  · rw [hs5]
    exact h4.out
  · rw [hs5]
    exact h4.root
  · rw [hs5]
    exact h4.cwd

theorem sysOpen_does {omode : ℕ} (h : Idle s) (hp : (s.proc p).isSome) :
    does p (sysOpen p path omode) (fun _ s' => Idle s') s := by
  unfold sysOpen
  refine (beginOp_run h).seq fun _ s₁ ⟨h1, hp1, _⟩ => ?_
  rw [← hp1] at hp
  split_ifs
  · refine (create_does h1 hp (by decide) (by decide)).seq fun r s₂ ⟨hp2, hr⟩ => ?_
    cases r with
    | none => exact finish hr _
    | some i =>
      obtain ⟨h2, hv, ht⟩ := hr
      exact openInode_does h2 (hp2 ▸ hp) hv fun _ => by rw [ht rfl]; decide
  refine (namei_run h1 hp).seq fun r s₂ ⟨hk2, h2⟩ => ?_
  cases r with
  | none => exact finish h2 _
  | some i =>
  refine (ilock_run h2 (mem_cons_self _ _)).seq fun _ s₃ ⟨h3, hk3, _, hv3⟩ => typeOf_run h3 ?_
  split_ifs with hdir
  · exact drop_finish h3 _
  refine openInode_does h3 (by rwa [hk3.proc, hk2.proc]) hv3 fun hw ht =>
    hdir ⟨ht, ?_⟩
  rintro rfl
  simp at hw

/-- Between two calls, after the table of processes has changed. -/
theorem Idle.of_closed {t : ℕ → Option Proc} (h : Idle s) (hc : Closed s₁ s')
    (hs : s₁.store.sb = s.store.sb) (ht : s'.proc = t) (hw : Wf ⟨0, 0, t⟩ s')
    (hcwd : ∀ p q, t p = some q → ∃ i, q.cwd = some i) : Idle s' :=
  ⟨ht ▸ hw, hc.out, by rw [hc.sb, hs]; exact h.root, ht ▸ hcwd⟩

theorem sysClose_does {fd : ℕ} (h : Idle s) : does p (sysClose p fd) (fun _ s' => Idle s') s := by
  unfold sysClose
  refine does_act h.wf (argfd_wp (s := s)) fun r s₁ ⟨hs1, hr⟩ => ?_
  subst hs1
  cases r with
  | none => exact does_pure h
  | some f =>
    obtain ⟨hfd, q, hq, hf⟩ := hr f rfl
    refine does_act h.wf (setFd_eq hq) fun _ s₂ hs2 => ?_
    have h2 := h.wf.takeFd hq hfd hf hs2
    refine (fileclose_does h2 rfl (by rw [hs2]; exact h.out)).seq
      fun _ s₃ ⟨h3, hc3⟩ => does_pure (h.of_closed hc3 (by rw [hs2]) hc3.proc h3 ?_)
    rw [hs2]
    exact cwd_setFd h.cwd hq

theorem sysDup_does {fd : ℕ} (h : Idle s) (hp : (s.proc p).isSome) :
    does p (liftM (sysDup p fd)) (fun _ s' => Idle s') s := by
  obtain ⟨q, hq⟩ := isSome_iff_exists.1 hp
  refine does_lift h.wf ?_
  unfold sysDup
  refine wp_seq (argfd_wp (s := s)) fun r s₁ ⟨hs1, hr⟩ => ?_
  subst hs1
  cases r with
  | none => exact h
  | some f =>
  refine wp_seq (fdalloc_wp hq) fun r s₂ hr2 => ?_
  cases r with
  | none =>
    obtain rfl : s₂ = s₁ := hr2
    exact h
  | some fd' =>
  obtain ⟨hfd, h0, hs2⟩ := hr2
  subst hs2
  -- the reference is counted after the descriptor is set, in the same action
  have hdup := @filedup_wp f ⟨0, 0, s₁.proc⟩ s₁ h.wf
  unfold filedup at hdup ⊢
  rw [wp_bind, wp_get] at hdup
  rw [wp_bind, wp_bind, wp_get]
  dsimp only
  split_ifs with href
  · show Halts _
    simp [Halts]
  rw [if_neg href, wp_modify] at hdup
  rw [wp_modify, wp_pure]
  refine ⟨?_, h.out, h.root, cwd_setFd h.cwd hq⟩
  refine (hdup.1.setFd (m := 0) (o := some f) hq hfd fun g => ?_).setCur _
  rw [h0, isFile_none, count_zero, count_cons]
  simp [isFile, eq_comm]

/-! ### Pipes -/

variable {k : ℕ} {z z' : Pipe}

theorem fileclose_two {α : Type} {g : ℕ} {r : α} {Q : α → Fs → Prop} (h : Wf x s)
    (hx : x.file = f ::ₘ g ::ₘ m) (ho : s.store.outstanding = 0)
    (hQ : ∀ s', Wf { x with file := m } s' → Closed s s' → Q r s') :
    does p (do fileclose f; fileclose g; return r : FsP α) Q s := by
  refine (fileclose_does h hx ho).seq fun _ s₁ ⟨h1, hc1⟩ => ?_
  refine (fileclose_does h1 rfl hc1.out).seq fun _ s₂ ⟨h2, hc2⟩ => does_pure ?_
  exact hQ s₂ h2 (hc1.trans hc2)

/-- A file that was allocated becomes an end of the pipe at page `k`. -/
theorem Wf.openEnd {w : Bool} (h : Wf x s) (hf : 0 < (s.ftable f).ref)
    (ht : (s.ftable f).type = .none) (hw : ¬ EndOpen s.pipe (k, w)) (hz : z.side w = true)
    (hother : ∀ w' ≠ w, z.side w' = true ↔ EndOpen s.pipe (k, w')) :
    Wf x { s.setFile f ((s.ftable f).toEnd k w) with pipe := upd s.pipe k (some z) } := by
  refine h.setOther (h.file_lt f hf) (h.file_refs f) (fun _ => hf) (by rw [ht]; decide)
    (by simp [File.toEnd]) (fun _ _ => rfl) (h.pipes.open ?_ rfl hw hz hother)
  exact if_neg (by rw [ht]; decide)

theorem pipesetup_wp {g : ℕ} {E : Panic → Fs → Prop} (h : Wf x s) (hne : g ≠ f)
    (hf : 0 < (s.ftable f).ref) (hg : 0 < (s.ftable g).ref) (htf : (s.ftable f).type = .none)
    (htg : (s.ftable g).type = .none) (hk : s.pipe k = none) :
    wp (pipesetup f g k) (fun _ s' => Wf x s' ∧ FilesOnly s s') E s := by
  unfold pipesetup
  rw [wp_modify]
  refine ⟨?_, rfl, rfl, rfl⟩
  have hclosed : ∀ w, ¬ EndOpen s.pipe (k, w) := fun w ⟨z, hz, _⟩ => by
    rw [hk] at hz
    cases hz
  -- the ends are opened one after the other
  have h1 := h.openEnd (w := false) (z := ⟨fun _ => 1, 0, 0, true, false⟩) hf htf (hclosed _) rfl
    fun w hw => by simpa [Pipe.side, hw] using hclosed w
  have hgf : (s.setFile f ((s.ftable f).toEnd k false)).ftable g = s.ftable g := setFile_of_ne hne
  have h2 := h1.openEnd (f := g) (k := k) (w := true) (z := ⟨fun _ => 1, 0, 0, true, true⟩)
    (by rw [hgf]; exact hg) (by rw [hgf]; exact htg)
    (by rw [endOpen_upd_self]; simp [Pipe.side]) rfl
    fun w hw => by rw [endOpen_upd_self]; simp [Pipe.side, hw]
  dsimp only at h2
  rw [hgf, upd_idem] at h2
  exact h2

theorem kalloc_wp {page : Option ℕ} {E : Panic → Fs → Prop} :
    wp (kalloc page) (fun r s' => s' = s ∧ ∀ k, r = some k → s.pipe k = none) E s := by
  unfold kalloc
  rw [wp_bind, wp_get, wp_pure]
  refine ⟨rfl, fun k hk => ?_⟩
  simpa using (filter_eq_some_iff.1 hk).2

theorem pipealloc_does {page : Option ℕ} (h : Wf x s) (ho : s.store.outstanding = 0) :
    does p (pipealloc page) (fun r s' => Closed s s' ∧ match r with
      | none => Wf x s'
      | some (f, g) => Wf { x with file := f ::ₘ g ::ₘ x.file } s') s := by
  unfold pipealloc
  refine does_act h (filealloc_wp h) fun r s₁ hr => ?_
  cases r with
  | none =>
    obtain rfl : s₁ = s := hr
    exact does_pure ⟨⟨ho, rfl, rfl⟩, h⟩
  | some f =>
  obtain ⟨h1, hs1, ht1, hr1, -⟩ := hr
  have hc1 : Closed s s₁ := by
    rw [hs1]
    exact ⟨ho, rfl, rfl⟩
  refine does_act h1 (filealloc_wp h1) fun r s₂ hr => ?_
  cases r with
  | none =>
    obtain rfl : s₂ = s₁ := hr
    exact (fileclose_does h1 rfl hc1.out).seq fun _ s₃ ⟨h3, hc3⟩ =>
      does_pure ⟨hc1.trans hc3, h3⟩
  | some g =>
  obtain ⟨h2, hs2, ht2, hr2, hg0⟩ := hr
  have hne : g ≠ f := by
    rintro rfl
    omega
  have hfile : s₂.ftable f = s₁.ftable f := by
    rw [hs2]
    exact setFile_of_ne hne.symm
  have hc2 : Closed s s₂ := by
    rw [hs2]
    exact ⟨hc1.out, hc1.proc, hc1.sb⟩
  have hsw : g ::ₘ f ::ₘ x.file = f ::ₘ g ::ₘ x.file := cons_swap ..
  refine does_act h2 kalloc_wp fun r s₃ ⟨hs3, hr⟩ => ?_
  subst hs3
  cases r with
  | none => exact fileclose_two h2 hsw hc2.out fun s' h' hc' => ⟨hc2.trans hc', h'⟩
  | some k =>
  rw [hsw] at h2
  refine does_act h2 (pipesetup_wp h2 hne (by rw [hfile, hr1]; decide) (by rw [hr2]; decide)
    (by rw [hfile, ht1]) ht2 (hr k rfl))
    fun _ s₄ ⟨h4, hf4⟩ => ?_
  exact does_pure ⟨⟨by rw [hf4.store, hc2.out], hf4.proc.trans hc2.proc,
    by rw [hf4.store, hc2.sb]⟩, h4⟩

theorem sysPipe_does {page : Option ℕ} (h : Idle s) (hp : (s.proc p).isSome) :
    does p (sysPipe p page) (fun _ s' => Idle s') s := by
  obtain ⟨q, hq⟩ := isSome_iff_exists.1 hp
  unfold sysPipe
  refine (pipealloc_does h.wf h.out).seq fun r s₁ ⟨hc1, hr⟩ => ?_
  cases r with
  | none => exact does_pure (h.of_closed hc1 rfl hc1.proc hr h.cwd)
  | some r =>
  obtain ⟨f, g⟩ := r
  have h1 : Wf ⟨0, f ::ₘ g ::ₘ 0, s₁.proc⟩ s₁ := hc1.proc ▸ hr
  rw [← hc1.proc] at hq
  have hcwd := hc1.proc ▸ h.cwd
  refine does_act h1 (fdalloc_wp hq) fun r s₂ hr2 => ?_
  cases r with
  | none =>
    obtain rfl : s₂ = s₁ := hr2
    exact fileclose_two h1 rfl hc1.out fun s' h' hc' =>
      h.of_closed hc' hc1.sb hc'.proc h' hcwd
  | some fd =>
  obtain ⟨hfd, h0, hs2⟩ := hr2
  have h2 := h1.giveFd hq hfd h0 hs2
  have hq2 : s₂.proc p = some { q with ofile := upd q.ofile fd (some f) } := by
    rw [hs2]
    exact upd_same ..
  have hcwd2 : ∀ p q, s₂.proc p = some q → ∃ i, q.cwd = some i := by
    rw [hs2]
    exact cwd_setFd hcwd hq
  have hc2 : s₂.store = s₁.store := by rw [hs2]
  refine does_act h2 (fdalloc_wp hq2) fun r s₃ hr3 => ?_
  cases r with
  | none =>
    obtain rfl : s₃ = s₂ := hr3
    refine does_act h2 (setFd_eq hq2) fun _ s₄ hs4 => ?_
    have h4 := h2.takeFd hq2 hfd (upd_same ..) hs4
    refine fileclose_two h4 rfl (by rw [hs4]; exact hc2 ▸ hc1.out) fun s' h' hc' =>
      h.of_closed hc' (by rw [hs4, hc2, hc1.sb]) hc'.proc h' ?_
    rw [hs4]
    exact cwd_setFd hcwd2 hq2
  | some fd' =>
    obtain ⟨hfd', h0', hs3⟩ := hr3
    refine does_pure ⟨h2.giveFd hq2 hfd' h0' hs3, ?_, ?_, ?_⟩
    · rw [hs3, hc2, hc1.out]
    · rw [hs3, hc2, hc1.sb]
      exact h.root
    · rw [hs3]
      exact cwd_setFd hcwd2 hq2

theorem Idle.setPipe (h : Idle s) (hz : s.pipe k = some z) (hside : ∀ w, z'.side w = z.side w) :
    Idle (s.setPipe k (some z')) :=
  ⟨h.wf.congr rfl rfl rfl (h.wf.pipes.setPipe hz hside), h.out, h.root, h.cwd⟩

theorem pipewait_does {t : Pipe → Bool} (h : Idle s) :
    does p (pipewait k t) (fun _ s' => Idle s') s := by
  refine Prog.along_await ⟨⟨_, h.wf⟩, fun _ => h.out⟩ (by simp [Halts]) fun s' hs' => ?_
  split_ifs at hs'
  cases hs'
  exact h

theorem side_copyOut {w : Bool} (got : List UInt8) : (z.copyOut n got).1.side w = z.side w := by
  induction n generalizing z got with
  | zero => rfl
  | succ n ih =>
    rw [Pipe.copyOut]
    split_ifs
    · rfl
    · exact ih _

theorem piperead_does (h : Idle s) : does p (piperead k n) (fun _ s' => Idle s') s := by
  unfold piperead
  refine (pipewait_does h).seq fun _ s₁ h1 => does_lift h1.wf ?_
  unfold pipecopy
  rw [wp_bind, wp_get]
  cases hz : s₁.pipe k with
  | none => exact h1
  | some z => exact h1.setPipe hz fun w => side_copyOut []

theorem pipeput_does {b : UInt8} (h : Idle s) :
    does p (liftM (pipeput k b)) (fun _ s' => Idle s') s := by
  refine does_lift h.wf ?_
  unfold pipeput
  rw [wp_bind, wp_get]
  cases hz : s.pipe k with
  | none => exact h
  | some z =>
    dsimp only
    split_ifs
    · exact h
    · exact h.setPipe hz fun w => rfl

theorem pipewriteLoop_does {addr : Bytes} (h : Idle s) :
    does p (pipewriteLoop k addr n i) (fun _ s' => Idle s') s := by
  induction n generalizing i s with
  | zero => exact does_pure h
  | succ n ih =>
    unfold pipewriteLoop
    refine (pipewait_does h).seq fun _ s₁ h1 => ?_
    refine (pipeput_does h1).seq fun b s₂ h2 => ?_
    split_ifs
    · exact ih h2
    · exact does_pure h2

/-! ### Reading and writing -/

theorem Wf.ref_of_file (h : Wf x s) (ht : (s.ftable f).type = .inode) :
    0 < (s.icache (s.ftable f).ip).ref := by
  have := h.fileRefs_pos ht
  have := h.refs (s.ftable f).ip
  omega

theorem fileread_does (h : Idle s) (hr : 0 < (s.ftable f).ref) :
    does p (fileread f n) (fun _ s' => Idle s') s := by
  unfold fileread
  refine does_bind (does_lift h.wf (wp_get.2 ?_))
  dsimp only
  split_ifs
  · exact does_pure h
  cases ht : (s.ftable f).type with
  | none => exact does_lift h.wf (by rw [wp_throw]; simp [Halts])
  | pipe => exact piperead_does h
  | inode =>
  refine (ilock_does h.wf (h.wf.ref_of_file ht)).seq fun _ s₁ hres => ?_
  obtain ⟨h1, hl1⟩ := hres
  have hk : Keep 0 s s₁ := hl1.keep
  have hrun := h.of_keep hk h1
  have href : 0 < (s₁.icache (s.ftable f).ip).ref := by
    rw [hl1.ref_eq]; exact h.wf.ref_of_file ht
  have hfile : s₁.ftable = s.ftable := hk.ftable
  refine does_bind (does_lift h1 ?_)
  rw [wp_bind, wp_get, wp_bind]
  obtain ⟨r, hread⟩ : ∃ r, Store.readi (s₁.inode (s.ftable f).ip) (s₁.ftable f).off n s₁.store =
      .ok (r, _) _ :=
    Store.readi_pure h1.ok (h1.copy _ href hl1.valid)
  refine wp_onInode_of_ok hread ?_
  rw [wp_bind, advance, wp_modify, wp_pure]
  have h2 : Run 0 0
      (s₁.setFile f { s₁.ftable f with
      off := ((s₁.ftable f).off + r.elim 0 Prod.fst) % 2 ^ 32 }) :=
    ⟨hrun.wf.setOff (by rwa [hfile]) _, hrun.out, hrun.root, hrun.cwd⟩
  refine (iunlock_does h2.wf).seq fun _ s₂ hs2 => ?_
  subst hs2
  exact does_pure h2

theorem writei_wp {src : Bytes} {off : ℕ} (h : Run 1 H s) (hr : 0 < (s.icache i).ref)
    (hv : (s.icache i).valid = true) (hd : (s.inode i).type ≠ tDir) :
    wp (onInode i fun ip => Store.writei ip src off n) (fun _ s' => Run 1 H s' ∧ Keep 0 s s')
      (fun e _ => Halts (.error e)) s := by
  have hc := h.wf.copy i hr hv
  have htype := (h.wf.inode_eq hr hv).1
  by_cases hdev : (s.inode i).type = tDev
  · obtain ⟨r, hw⟩ : ∃ r, Store.writei (s.inode i) src off n s.store =
      .ok (r, s.inode i) s.store := by
      unfold Store.writei
      rw [if_pos hdev]
      by_cases hmaj : ndev ≤ (s.inode i).major
      · rw [if_pos hmaj]
        exact ⟨_, rfl⟩
      · rw [if_neg hmaj]
        simp only [get_bind_apply]
        cases s.store.devwrite (s.inode i).major <;> exact ⟨_, rfl⟩
    exact wp_onInode_of_ok hw ⟨h, .refl⟩
  · by_cases hw : (s.store.nodes (s.inode i).inum).Writable off n
    · rw [wp_onInode]
      refine wp_mono (Store.writei_spec h.wf.ok hc hdev hw) (fun r st hres => ?_) fun e st hf => ?_
      · obtain ⟨_, hwr⟩ := hres
        have hk : Keep 0 s (s.put i st r.2) := .put hwr.toEdits htype.symm
        refine ⟨h.of_keep hk (h.wf.put hr hwr.toEdits htype.symm fun ht => ?_), hk⟩
        exact absurd (htype.trans ht) hd
      · obtain ⟨I, _, hL⟩ := hf.logs
        exact halts_of_stops (hf.fails.stops hf.toKeeps hL) h.out.ge
    · exact wp_onInode_of_ok (Store.writei_out hc hdev hw) ⟨h, .refl⟩

/-- The file can be written to. -/
structure Writes (f i : ℕ) (s : Fs) : Prop where
  type : (s.ftable f).type = .inode
  ip : (s.ftable f).ip = i
  writable : (s.ftable f).writable = true

theorem writeChunk_does {addr : Bytes} (h : Idle s) (hf : Writes f i s) :
    does p (writeChunk f i addr n) (fun _ s' => Idle s' ∧ Writes f i s') s := by
  unfold writeChunk
  refine (beginOp_run h).seq fun _ s₁ ⟨h1, _, hft1, hic1⟩ => ?_
  have hf1 : Writes f i s₁ :=
    ⟨by rw [hft1]; exact hf.type, by rw [hft1]; exact hf.ip, by rw [hft1]; exact hf.writable⟩
  have hr1 : 0 < (s₁.icache i).ref := hf1.ip ▸ h1.wf.ref_of_file hf1.type
  refine (ilock_does h1.wf hr1).seq fun _ s₂ ⟨hw2, hl2⟩ => ?_
  have hk2 : Keep 0 s₁ s₂ := hl2.keep
  have h2 := h1.of_keep hk2 hw2
  have hf2 : Writes f i s₂ := by
    have := hk2.ftable
    exact ⟨by rw [this]; exact hf1.type, by rw [this]; exact hf1.ip, by
      rw [this]; exact hf1.writable⟩
  have hdir : (s₂.inode i).type ≠ tDir := hf2.ip ▸ h2.wf.file_dir f hf2.type hf2.writable
  refine does_bind (does_lift h2.wf ?_)
  rw [wp_bind, wp_get]
  refine wp_seq (writei_wp h2 (by rwa [hl2.ref_eq]) hl2.valid hdir) fun r s₃ ⟨h3, hk3⟩ => ?_
  have hft3 : s₃.ftable = s₂.ftable := hk3.ftable
  rw [wp_bind, advance, wp_modify, wp_pure]
  have hpos : 0 < (s₃.ftable f).ref := by
    rw [hft3]
    exact h2.wf.file_pos f (hf2.type.trans_ne (by decide))
  have h4 : Run 1 0
      (s₃.setFile f { s₃.ftable f with off := ((s₃.ftable f).off + r.getD 0) % 2 ^ 32 }) :=
    ⟨h3.wf.setOff hpos _, h3.out, h3.root, h3.cwd⟩
  refine (iunlock_does h4.wf).seq fun _ s₄ hs4 => ?_
  subst hs4
  refine (endOp_run h4).seq fun _ s₅ ⟨h5, _, hft5, _⟩ => does_pure ⟨h5, ?_⟩
  have hself : s₅.ftable f =
      { s₃.ftable f with off := ((s₃.ftable f).off + r.getD 0) % 2 ^ 32 } := by
    rw [hft5, setFile_self]
  exact ⟨by rw [hself]; exact hft3 ▸ hf2.type, by rw [hself]; exact hft3 ▸ hf2.ip, by
    rw [hself]; exact hft3 ▸ hf2.writable⟩

theorem filewriteLoop_does {addr : Bytes} {fuel k : ℕ} (h : Idle s) (hf : Writes f i s) :
    does p (filewriteLoop f i addr n fuel k) (fun _ s' => Idle s') s := by
  induction fuel generalizing k s with
  | zero => exact does_pure h
  | succ fuel ih =>
    rw [filewriteLoop]
    by_cases hle : n ≤ k
    · rw [if_pos hle]
      exact does_pure h
    rw [if_neg hle]
    refine (writeChunk_does h hf).seq fun r s₁ ⟨h1, hf1⟩ => ?_
    cases r with
    | none => exact does_pure h1
    | some r =>
      dsimp only
      split_ifs
      · exact does_lift h1.wf (by rw [wp_throw]; simp [Halts])
      · exact ih h1 hf1

theorem filewrite_does {addr : Bytes} (h : Idle s) :
    does p (filewrite f addr n) (fun _ s' => Idle s') s := by
  unfold filewrite
  refine does_bind (does_lift h.wf (wp_get.2 ?_))
  dsimp only
  split_ifs with hw
  · exact does_pure h
  cases ht : (s.ftable f).type with
  | none => exact does_lift h.wf (by rw [wp_throw]; simp [Halts])
  | pipe => exact (pipewriteLoop_does h).seq fun _ _ h1 => does_pure h1
  | inode => exact filewriteLoop_does h ⟨ht, rfl, by simpa using hw⟩

theorem sysRead_does {fd : ℕ} (h : Idle s) : does p (sysRead p fd n) (fun _ s' => Idle s') s := by
  unfold sysRead
  refine does_act h.wf (argfd_wp (s := s)) fun r s₁ ⟨hs1, hr⟩ => ?_
  subst hs1
  cases r with
  | none => exact does_pure h
  | some f =>
    obtain ⟨-, q, hq, hf⟩ := hr f rfl
    exact fileread_does h (h.wf.ref_of_fd hq hf)

theorem sysWrite_does {fd : ℕ} {addr : Bytes} (h : Idle s) :
    does p (sysWrite p fd addr n) (fun _ s' => Idle s') s := by
  unfold sysWrite
  refine does_act h.wf (argfd_wp (s := s)) fun r s₁ ⟨hs1, _⟩ => ?_
  subst hs1
  cases r with
  | none => exact does_pure h
  | some f => exact filewrite_does h

/-! ### Current directories and processes -/

theorem sysChdir_does (h : Idle s) (hp : (s.proc p).isSome) :
    does p (sysChdir p path) (fun _ s' => Idle s') s := by
  unfold sysChdir
  refine (beginOp_run h).seq fun _ s₁ hres => ?_
  obtain ⟨h1, hp1, _⟩ := hres
  rw [← hp1] at hp
  refine (namei_run h1 hp).seq fun r s₂ hres => ?_
  obtain ⟨hk2, h2⟩ := hres
  rw [← hk2.proc] at hp
  cases r with
  | none => exact finish h2 _
  | some i =>
  refine (ilock_run h2 (mem_cons_self _ _)).seq fun _ s₃ hres => ?_
  obtain ⟨h3, hk3, _, hv3⟩ := hres
  refine typeOf_run h3 ?_
  rw [← hk3.proc] at hp
  split_ifs
  · exact drop_finish h3 _
  refine (iunlock_does h3.wf).seq fun _ s₄ hs4 => ?_
  subst hs4
  refine does_bind (does_lift h3.wf (wp_get.2 ?_))
  obtain ⟨q, hq⟩ := isSome_iff_exists.1 hp
  obtain ⟨c, hc⟩ := h3.cwd p q hq
  have hcwd : s₄.cwd p = c := by rw [cwd, hq]; show q.cwd.getD 0 = c; rw [hc]; rfl
  rw [hcwd]
  -- the old directory is in the hand
  have h5 : Wf ⟨c ::ₘ i ::ₘ 0, 0, upd s₄.proc p (some { q with cwd := none })⟩ s₄ :=
    h3.wf.setCwd (H := c ::ₘ i ::ₘ 0) (o := none) hq (fun j => by
      rw [hc, isFile_none, count_cons]
      simp [isFile, eq_comm]) (by simp)
  refine (iput_does h5 (rfl : c ::ₘ i ::ₘ (0 : Multiset ℕ) = c ::ₘ i ::ₘ 0) h3.out.ge).seq
    fun _ s₅ hres => ?_
  obtain ⟨h6, hk6⟩ := hres
  have hi : i ∈ i ::ₘ (0 : Multiset ℕ) := mem_cons_self _ _
  have hv5 : (s₅.icache i).valid = true := hk6.valid i hi hv3
  refine (endOp_does h6 (hk6.out.trans h3.out)).seq fun _ s₆ hres => ?_
  obtain ⟨h7, hl7⟩ := hres
  have hproc : s₆.proc = s₄.proc := hl7.proc.trans hk6.proc
  have hv6 : (s₆.icache i).valid = true := by rwa [hl7.icache]
  refine does_bind (does_lift h7 ?_)
  unfold setCwd
  rw [wp_modify, setProc, hproc, hq]
  have hw : Wf ⟨0, 0, upd s₄.proc p (some { q with cwd := some i })⟩ s₆ := by
    have hself : upd s₄.proc p (some { q with cwd := none }) p = some { q with cwd := none } :=
      if_pos rfl
    have := h7.setCwd (H := 0) (o := some i) hself (fun j => by
        show _ = Multiset.count j (i ::ₘ 0) + isFile j none
        rw [isFile_none, count_cons]
        simp [isFile, eq_comm]) fun j hj => by
        cases hj
        exact ⟨h7.type_ne (h7.ref_pos hi) hv6, hv6⟩
    rwa [upd_idem] at this
  refine does_pure ⟨hw.setCur _, hl7.out, ?_, fun r q' hr => ?_⟩
  · show rootino < s₆.store.sb.ninodes
    rw [hl7.sb, hk6.sb]
    exact h3.root
  by_cases hrp : r = p
  · have heq : some { q with cwd := some i } = some q' := (if_pos hrp).symm.trans hr
    cases heq
    exact ⟨i, rfl⟩
  · exact h3.cwd r q' ((if_neg hrp).symm.trans hr)

variable {st : Store} {ip : Inode} {vm : ℕ → Bool} {k off : ℕ}

/-- The parts of `exec` that read the file change nothing. -/
def Pure {α : Type} (m : StoreM (α × Inode)) (ip : Inode) (st : Store) : Prop :=
  wp m (fun r st' => st' = st ∧ r.2 = ip) (fun _ _ => False) st

theorem pure_readi {α : Type} {g : Option (ℕ × Bytes) × Inode → StoreM (α × Inode)} (h : st.Ok)
    (hc : st.Copy ip) (hg : ∀ r, Pure (g (r, ip)) ip st) :
    Pure (Store.readi ip off n >>= g) ip st := by
  obtain ⟨r, hr⟩ : ∃ r, Store.readi ip off n st = .ok (r, ip) st := Store.readi_pure h hc
  unfold Pure
  rw [wp_bind]
  exact wp_of_ok hr (hg r)

theorem loaduvm_pure {sz fuel : ℕ} (h : st.Ok) (hc : st.Copy ip) :
    Pure (Store.loaduvm off sz fuel ip k) ip st := by
  induction fuel generalizing k with
  | zero => exact ⟨rfl, rfl⟩
  | succ fuel ih =>
    rw [Store.loaduvm]
    split_ifs
    · exact ⟨rfl, rfl⟩
    refine pure_readi h hc fun r => ?_
    cases r with
    | none => exact ⟨rfl, rfl⟩
    | some r =>
      dsimp only
      split_ifs
      · exact ih
      · exact ⟨rfl, rfl⟩

theorem loadSegments_pure (h : st.Ok) (hc : st.Copy ip) :
    Pure (Store.loadSegments vm n ip k off) ip st := by
  induction n generalizing k off with
  | zero => exact ⟨rfl, rfl⟩
  | succ n ih =>
    rw [Store.loadSegments]
    refine pure_readi h hc fun r => ?_
    split
    · rename_i heq
      obtain ⟨-, rfl⟩ := Prod.mk.inj heq
      dsimp only
      split_ifs
      · exact ih
      · exact ⟨rfl, rfl⟩
      unfold Pure
      refine wp_seq (loaduvm_pure h hc) fun r st' ⟨hst, hip⟩ => ?_
      obtain ⟨b, ip'⟩ := r
      subst hst hip
      cases b with
      | true => exact ih
      | false => exact ⟨rfl, rfl⟩
    · rename_i heq
      obtain ⟨-, rfl⟩ := Prod.mk.inj heq
      exact ⟨rfl, rfl⟩

theorem loadElf_pure (h : st.Ok) (hc : st.Copy ip) : Pure (Store.loadElf vm ip) ip st := by
  rw [Store.loadElf]
  refine pure_readi h hc fun r => ?_
  split
  · rename_i heq
    obtain ⟨-, rfl⟩ := Prod.mk.inj heq
    split_ifs
    · exact ⟨rfl, rfl⟩
    · exact loadSegments_pure h hc
  · rename_i heq
    obtain ⟨-, rfl⟩ := Prod.mk.inj heq
    exact ⟨rfl, rfl⟩

theorem exec_does (h : Idle s) (hp : (s.proc p).isSome) :
    does p (exec p path vm) (fun _ s' => Idle s') s := by
  unfold exec
  refine (beginOp_run h).seq fun _ s₁ ⟨h1, hp1, _⟩ => ?_
  refine (namei_run h1 (hp1 ▸ hp)).seq fun r s₂ ⟨_, h2⟩ => ?_
  cases r with
  | none => exact finish h2 _
  | some i =>
  have hi : i ∈ i ::ₘ (0 : Multiset ℕ) := mem_cons_self _ _
  refine (ilock_run h2 hi).seq fun _ s₃ ⟨h3, _, _, hv3⟩ => ?_
  have hpure : Pure (Store.loadElf vm (s₃.inode i)) (s₃.inode i) s₃.store :=
    loadElf_pure h3.wf.ok (h3.wf.copy i (h3.wf.ref_pos hi) hv3)
  obtain ⟨⟨b, ip⟩, st, hr, rfl, hip⟩ := wp.exists_ok hpure
  dsimp only at hip
  subst hip
  exact does_bind (does_lift h3.wf (wp_onInode_of_ok hr (drop_finish h3 _)))

/-- The files of the first `n` descriptors. -/
def fdFiles (q : Proc) : ℕ → Multiset ℕ
  | 0 => 0
  | n + 1 => (q.ofile n).elim (fdFiles q n) fun f => f ::ₘ fdFiles q n

theorem count_fdFiles {q : Proc} :
    (fdFiles q n).count f = ∑ fd ∈ Finset.range n, isFile f (q.ofile fd) := by
  induction n with
  | zero => rfl
  | succ n ih =>
    rw [Finset.sum_range_succ, ← ih, fdFiles]
    cases q.ofile n with
    | none => rw [isFile_none]; rfl
    | some g =>
      show Multiset.count f (g ::ₘ fdFiles q n) = _
      rw [count_cons, isFile]
      simp [eq_comm]

theorem forkFiles_wp {q : Proc} (h : Wf ⟨0, 0, s.proc⟩ s) :
    wp (forkFiles q n)
    (fun _ s' => Wf ⟨0, fdFiles q n, s.proc⟩ s' ∧ s' = { s with ftable := s'.ftable })
      (fun e _ => Halts (.error e)) s := by
  induction n with
  | zero => exact ⟨h, rfl⟩
  | succ n ih =>
    rw [forkFiles]
    refine wp_seq ih fun _ s₁ ⟨h1, hs1⟩ => ?_
    rw [fdFiles]
    cases q.ofile n with
    | none => exact ⟨h1, hs1⟩
    | some f =>
      refine wp_post (filedup_wp h1) fun _ s₂ ⟨h2, hs2⟩ => ⟨h2, ?_⟩
      rw [hs2, hs1]
      rfl

theorem fork_does (h : Idle s) : does p (liftM (fork p c)) (fun _ s' => Idle s') s := by
  refine does_lift h.wf ?_
  unfold fork
  rw [wp_bind, wp_get]
  split
  · rename_i q hq hc
    split_ifs with hlt
    · exact h
    obtain ⟨i, hi⟩ := h.cwd p q hq
    have hcwd : s.cwd p = i := by rw [cwd, hq]; show q.cwd.getD 0 = i; rw [hi]; rfl
    refine wp_seq (forkFiles_wp h.wf) fun _ s₁ hres => ?_
    obtain ⟨h1, hs1⟩ := hres
    have hcache : s₁.icache = s.icache := by rw [hs1]
    have hpos : 0 < cwdRefs s.proc i := cwdRefs_pos (h.wf.proc_lt p q hq) (by rwa [hq])
    have href : 0 < (s₁.icache i).ref := by
      have := h1.refs i
      dsimp only at this
      omega
    rw [hcwd, wp_bind]
    refine wp_total (idup_spec href (h1.slot_lt i href)) fun j s₂ hres => ?_
    obtain ⟨hj, hg⟩ := hres
    subst hj
    have h2 := hg.wf h1 (h1.inum_lt _ href)
    rw [wp_bind, wp_modify, wp_pure]
    have hproc : s₂.proc = s.proc := by rw [hg.eq_setSlot, hs1]; rfl
    have hstore : s₂.store = s.store := by rw [hg.eq_setSlot, hs1]; rfl
    have hq' : q = { q with cwd := some j } := by rw [← hi]
    have hw : Wf ⟨0, 0, upd s.proc c (some { q with cwd := some j })⟩ s₂ := by
      rw [← hq']
      refine h2.move ⟨by omega, rfl, fun k => ?_, fun f => ?_, fun k hk => ?_,
        fun q' hq' fd f hf => ?_⟩
      · show 0 + cwdOf k (some q) = Multiset.count k (j ::ₘ 0) + cwdOf k (s.proc c)
        rw [hc, count_cons, cwdOf, cwdOf, bind_some, hi]
        simp [eq_comm]
      · show 0 + fdsOf f (some q) = Multiset.count f (fdFiles q nofile) + fdsOf f (s.proc c)
        rw [hc, count_fdFiles, fdsOf_eq]
        simp [fdsOf]
      · obtain rfl : j = k := Option.some.inj (hi.symm.trans hk)
        exact ⟨h2.cwd_type j hpos, h2.cwd_valid j hpos⟩
      · cases hq'
        exact h.wf.fd_lt p q fd f hq hf
    refine ⟨?_, by rw [setProc]; show s₂.store.outstanding = 0; rw [hstore]; exact h.out,
      by rw [setProc]; show rootino < s₂.store.sb.ninodes; rw [hstore]; exact h.root,
      fun r q' hr => ?_⟩
    · rw [setProc, hproc]
      exact hw.setCur _
    rw [setProc, hproc] at hr
    by_cases hrc : r = c
    · have heq : some { q with cwd := some j } = some q' := (if_pos hrc).symm.trans hr
      cases heq
      exact ⟨j, rfl⟩
    · exact h.cwd r q' ((if_neg hrc).symm.trans hr)
  · exact h

/-- The descriptors below `n` are closed. -/
def Shut (p n : ℕ) (s : Fs) : Prop := ∃ q, s.proc p = some q ∧ ∀ fd < n, q.ofile fd = none

theorem exitFiles_does (h : Idle s) (hp : (s.proc p).isSome) :
    does p (exitFiles p n) (fun _ s' => Idle s' ∧ Shut p n s') s := by
  induction n with
  | zero =>
    obtain ⟨q, hq⟩ := isSome_iff_exists.1 hp
    exact does_pure ⟨h, q, hq, nofun⟩
  | succ n ih =>
    rw [exitFiles]
    refine does_bind (ih.mono fun _ s₁ ⟨h1, q, hq, hshut⟩ => ?_)
    refine does_bind (does_lift h1.wf ?_)
    have harg : argfd p n s₁ = .ok (if nofile ≤ n then none else q.ofile n) s₁ := by
      unfold argfd
      split_ifs
      · rfl
      · show EStateM.Result.ok ((s₁.proc p).bind fun x => x.ofile n) s₁ = _
        rw [hq]
        rfl
    refine wp_of_ok harg ?_
    have hshut' : q.ofile n = none → ∀ fd < n + 1, q.ofile fd = none := fun h0 fd hfd => by
      rcases Nat.lt_succ_iff_lt_or_eq.1 hfd with hlt | rfl
      · exact hshut fd hlt
      · exact h0
    cases hf : q.ofile n with
    | none =>
      rw [ite_self]
      exact does_pure ⟨h1, q, hq, hshut' hf⟩
    | some f =>
    have hlt := h1.wf.fd_lt p q n f hq hf
    rw [if_neg (by omega)]
    -- the file is closed before the descriptor is
    have hw : Wf ⟨0, {f}, upd s₁.proc p (some { q with ofile := upd q.ofile n none })⟩ s₁ :=
      h1.wf.setFd (m := {f}) (o := none) hq hlt fun g => by
        rw [hf, isFile_none, count_singleton, count_zero, zero_add, add_zero]
    refine (fileclose_does (m := 0) hw rfl h1.out).seq fun _ s₂ ⟨h2, hc2⟩ => ?_
    have hq2 : s₂.proc p = some q := by rwa [hc2.proc]
    refine does_lift h2 (wp_post (setFd_eq hq2) fun _ s₃ hs3 => ?_)
    rw [hs3, hc2.proc]
    refine ⟨⟨h2.setCur _, hc2.out, by
      rw [show s₂.store.sb = s₁.store.sb from hc2.sb]; exact h1.root, cwd_setFd h1.cwd hq⟩, _,
      if_pos rfl, fun fd hfd => ?_⟩
    show (if fd = n then none else q.ofile fd) = none
    split_ifs with he
    · rfl
    · exact hshut fd (by omega)

theorem exit_does (h : Idle s) (hp : (s.proc p).isSome) :
    does p (exit p) (fun _ s' => Idle s') s := by
  unfold exit
  split_ifs
  · exact does_lift h.wf (by rw [wp_throw]; simp [Halts])
  refine (exitFiles_does h hp).seq fun _ s₁ hres => ?_
  obtain ⟨h1, q, hq, hshut⟩ := hres
  obtain ⟨i, hi⟩ := h1.cwd p q hq
  refine (beginOp_run h1).seq fun _ s₂ hres => ?_
  obtain ⟨h2, hp2, _⟩ := hres
  rw [← hp2] at hq
  have hcwd : s₂.cwd p = i := by rw [cwd, hq]; show q.cwd.getD 0 = i; rw [hi]; rfl
  refine does_bind (does_lift h2.wf (wp_get.2 ?_))
  rw [hcwd]
  have hw : Wf ⟨i ::ₘ 0, 0, upd s₂.proc p (some { q with cwd := none })⟩ s₂ :=
    h2.wf.setCwd (H := i ::ₘ 0) (o := none) hq (fun j => by
      rw [hi, isFile_none, count_cons]
      simp [isFile, eq_comm]) (by simp)
  refine (iput_does hw (rfl : i ::ₘ (0 : Multiset ℕ) = i ::ₘ 0) h2.out.ge).seq fun _ s₃ hres => ?_
  obtain ⟨h3, hk3⟩ := hres
  refine (endOp_does h3 (hk3.out.trans h2.out)).seq fun _ s₄ hres => ?_
  obtain ⟨h4, hl4⟩ := hres
  have hproc : s₄.proc = s₂.proc := hl4.proc.trans hk3.proc
  refine does_bind (does_lift h4 ?_)
  rw [wp_modify, setProc, hproc]
  have hself : upd s₂.proc p (some { q with cwd := none }) p = some { q with cwd := none } :=
    if_pos rfl
  have hnone : Wf ⟨0, 0, upd s₂.proc p none⟩ s₄ := by
    have hm : Moves ⟨0, 0, upd s₂.proc p (some { q with cwd := none })⟩ ⟨0, 0, upd s₂.proc p none⟩
        s₄ p none :=
      ⟨h2.wf.proc_lt p q hq, by rw [upd_idem], fun j => by dsimp only; rw [hself]; rfl, fun f => by
        dsimp only
        rw [hself, fdsOf_eq, Finset.sum_eq_zero fun fd hfd => by
          rw [show ({ q with cwd := none } : Proc).ofile fd = none from hshut fd
            (Finset.mem_range.1 hfd), isFile_none]]
        rfl, by simp, by simp⟩
    exact h4.move hm
  refine does_pure ⟨hnone.setCur _, hl4.out, ?_, fun r q' hr => ?_⟩
  · show rootino < s₄.store.sb.ninodes
    rw [hl4.sb, hk3.sb]
    exact h2.root
  by_cases hrp : r = p
  · have heq : none = some q' := (if_pos hrp).symm.trans hr
    cases heq
  · exact h2.cwd r q' ((if_neg hrp).symm.trans hr)

/-- **Every call keeps the invariant**, and every state it goes through has it. -/
theorem sys_does (h : Idle s) (hp : (s.proc p).isSome) (l : Call) :
    does p (sys p l) (fun _ s' => Idle s') s := by
  cases l with
  | «open» path omode => exact sysOpen_does h hp
  | close fd => exact sysClose_does h
  | dup fd => exact sysDup_does h hp
  | pipe page => exact (sysPipe_does h hp).seq fun _ _ h' => does_pure h'
  | read fd n => exact (sysRead_does h).seq fun _ _ h' => does_pure h'
  | write fd addr n => exact sysWrite_does h
  | mkdir path | mknod path major minor => exact sysCreate_does h hp (by decide) (by decide)
  | link old new => exact sysLink_does h hp
  | unlink path => exact sysUnlink_does h hp
  | chdir path => exact sysChdir_does h hp
  | exec path vm => exact exec_does h hp
  | fork child => exact fork_does h
  | exit => exact exit_does h hp

end Fs

end Xv6
