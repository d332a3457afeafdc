import Mathlib.Data.List.TakeWhile
import Xv6.Fs.Invariant
import Xv6.Prog.Visits

/-!
# What every call keeps

`does p c Q s` : run alone by process `p`, the program `c` goes through states with `Seen` only (the
invariant `Wf`, and no transaction where the call waits), it stops with none of the panics that
`Halts` excludes, and it ends as `Q` says.

This file has the programs that all calls are made of: locking and dropping inodes, directories, and
the walk along a path.  `Keep R s s'` is what a call still knows about the slots `R` that it holds.
-/

namespace Xv6

namespace Fs

variable {α β : Type} {p i j dp inum : ℕ} {x x' : Held} {s s' s₁ : Fs} {R R' hd : Multiset ℕ}
  {y : Slot} {name : Name}

/-- What holds in the states of a call; the flag says that the call waits there, to start a
transaction or for a pipe. -/
def Seen (w : Bool) (s : Fs) : Prop := (∃ x, Wf x s) ∧ (w = true → s.store.outstanding = 0)

/-- The panics that do not happen. -/
def Halts (h : Halt ℕ Panic) : Prop := h ≠ .error .freeingFree ∧ h ≠ .error .outside

/-- Along a run of `c` alone, and at its end. -/
def does (p : ℕ) (c : FsP α) (Q : α → Fs → Prop) (s : Fs) : Prop := c.along p Seen Q Halts s

theorem Wf.seen (h : Wf x s) : Seen false s := ⟨⟨x, h⟩, nofun⟩

theorem halts_error {e : Panic} (h1 : e ≠ .freeingFree) (h2 : e ≠ .outside) : Halts (.error e) :=
  ⟨fun h => h1 (by simpa using h), fun h => h2 (by simpa using h)⟩

theorem halts_of_stops {d : ℕ} {l : List ℕ} {e : Panic} {st st' : Store} (h : st.Stops d l e st')
    (ho : 1 ≤ st.outstanding) : Halts (.error e) := halts_error h.ne_freeingFree (h.inside ho)

theorem does_bind {c : FsP α} {f : α → FsP β} {Q : β → Fs → Prop}
    (h : does p c (fun a s' => does p (f a) Q s') s) : does p (c >>= f) Q s := Prog.along_bind h

theorem does.seq {c : FsP α} {f : α → FsP β} {Q : α → Fs → Prop} {Q' : β → Fs → Prop}
    (h : does p c Q s) (hQ : ∀ a s', Q a s' → does p (f a) Q' s') : does p (c >>= f) Q' s :=
  does_bind (Prog.along.mono h hQ)

theorem does_lift {f : FsM α} {Q : α → Fs → Prop} (h : Wf x s)
    (hw : wp f Q (fun e _ => Halts (.error e)) s) :
    does p (liftM f) Q s := Prog.along_lift h.seen hw

/-- An action, and then the rest of the program. -/
theorem does_act {f : FsM α} {k : α → FsP β} {Q : α → Fs → Prop} {Q' : β → Fs → Prop} (h : Wf x s)
    (hw : wp f Q (fun e _ => Halts (.error e)) s) (hQ : ∀ a s', Q a s' → does p (k a) Q' s') :
    does p (liftM f >>= k) Q' s := (does_lift h hw).seq hQ

theorem does_pure {a : α} {Q : α → Fs → Prop} (h : Q a s) : does p (pure a) Q s := Prog.along_pure h

theorem does.mono {c : FsP α} {Q Q' : α → Fs → Prop} (h : does p c Q s)
    (hQ : ∀ a s', Q a s' → Q' a s') :
    does p c Q' s := Prog.along.mono h hQ

/-! ### What a call still knows -/

/-- The slots `R` are for the same inodes, those that were read are as they were, and the
descriptors and the transaction are the same. -/
structure Keep (R : Multiset ℕ) (s s' : Fs) : Prop extends Frame R s s' where
  proc : s'.proc = s.proc
  out : s'.store.outstanding = s.store.outstanding
  type : ∀ j ∈ R, (s.icache j).valid = true → (s'.inode j).type = (s.inode j).type

theorem Keep.refl : Keep R s s := ⟨.refl, rfl, rfl, fun _ _ _ => rfl⟩

theorem Keep.trans (h : Keep R s s₁) (h' : Keep R s₁ s') : Keep R s s' :=
  ⟨h.toFrame.trans h'.toFrame, h'.proc.trans h.proc, h'.out.trans h.out,
    fun j hj hv => (h'.type j hj (h.valid j hj hv)).trans (h.type j hj hv)⟩

theorem Keep.mono (h : Keep R s s') (hR : R' ⊆ R) : Keep R' s s' :=
  ⟨h.toFrame.mono hR, h.proc, h.out, fun j hj => h.type j (hR hj)⟩

theorem Keep.setSlot
    (h : i ∈ R → (s.icache i).valid = true → y.valid = true ∧ y.ip.type = (s.inode i).type)
    (hinum : i ∈ R → y.ip.inum = (s.inode i).inum) : Keep R s (s.setSlot i y) := by
  refine ⟨Frame.setSlot hinum fun hi hv => (h hi hv).1, rfl, rfl, fun j hj hv => ?_⟩
  by_cases hji : j = i
  · subst hji
    rw [inode_setSlot_self]
    exact (h hj hv).2
  · rw [inode_setSlot_of_ne hji]

theorem Gets.keep (hg : Gets s inum i s') (h : Wf x s) : Keep x.hand s s' := by
  rw [hg.eq_setSlot]
  refine Keep.setSlot (fun hi hv => ?_) fun hi => ?_
  · rw [hg.old (h.ref_pos hi)]
    exact ⟨hv, rfl⟩
  · rw [hg.old (h.ref_pos hi)]
    rfl

theorem Loads.keep (hl : Loads s i s') : Keep R s s' := by
  by_cases hv : (s.icache i).valid = true
  · rw [hl.old hv]
    exact .refl
  · rw [hl.eq_setSlot]
    exact Keep.setSlot (fun _ h => absurd h hv) fun _ => hl.inum_eq

theorem Frees.keep (hf : Frees s i s') (hR : i ∉ R) : Keep R s s' := by
  refine ⟨hf.frame hR, by rw [hf.eq], hf.outstanding, fun j hj _ => ?_⟩
  rw [inode, hf.slot_of_ne j (fun h => hR (h ▸ hj)), inode]

theorem Edits.type_eq {st st' : Store} {ip ip' : Inode} {n : Node} (he : st.Edits ip n ip' st') :
    ip'.type = n.type := by
  have h := he.copy.node_eq
  rw [he.nodes, he.inum_eq, Function.update_self] at h
  rw [h]

theorem Keep.put {st : Store} {ip : Inode} {n : Node} (he : s.store.Edits (s.inode i) n ip st)
    (ht : n.type = (s.inode i).type) : Keep R s (s.put i st ip) := by
  refine ⟨frame_put he.sb he.inum_eq, rfl, he.outstanding, fun j _ _ => ?_⟩
  by_cases hji : j = i
  · subst hji
    rw [Fs.put, inode_setSlot_self]
    exact (Edits.type_eq he).trans ht
  · rw [Fs.put, inode_setSlot_of_ne hji]
    rfl

theorem Wf.setFound (h : Wf x s) (l : List (ℕ × ℕ)) : Wf x { s with found := l } :=
  h.congr rfl rfl rfl h.pipes

theorem Wf.setLog (h : Wf x s) (o : ℕ) (l : List ℕ) (ts : List (List ℕ)) :
    Wf x { s with store := { s.store with outstanding := o, lh := l }, txns := ts } where
  ok := ⟨⟨h.ok.sb_ok, h.ok.sb_eq⟩, h.ok.owns, h.ok.shaped⟩
  dirs := h.dirs
  slot_lt := h.slot_lt
  inum_lt := h.inum_lt
  uniq := h.uniq
  copy i hr hv :=
    have hc := h.copy i hr hv
    ⟨hc.inum_lt, hc.dinode_eq, hc.type_ne⟩
  refs := h.refs
  cwd_type := h.cwd_type
  cwd_valid := h.cwd_valid
  file_lt := h.file_lt
  file_refs := h.file_refs
  file_pos := h.file_pos
  file_valid := h.file_valid
  file_dir := h.file_dir
  proc_lt := h.proc_lt
  fd_lt := h.fd_lt
  pipes := h.pipes

/-! ### Transactions -/

/-- A transaction has been started or ended, and nothing else. -/
structure Logged (o : ℕ) (s s' : Fs) : Prop where
  out : s'.store.outstanding = o
  sb : s'.store.sb = s.store.sb
  nodes : s'.nodes = s.nodes
  icache : s'.icache = s.icache
  ftable : s'.ftable = s.ftable
  proc : s'.proc = s.proc

theorem beginOp_does (h : Wf x s) (ho : s.store.outstanding = 0) :
    does p beginOp (fun _ s' => Wf x s' ∧ Logged 1 s s') s := by
  refine Prog.along_await ⟨⟨x, h⟩, fun _ => ho⟩ (by simp [Halts]) fun s' hs' => ?_
  split_ifs at hs'
  cases hs'
  exact ⟨h.setLog _ s.store.lh s.txns, by rw [ho], rfl, rfl, rfl, rfl, rfl⟩

theorem endOp_wp {E : Panic → Fs → Prop} (h : Wf x s) (ho : s.store.outstanding = 1) :
    wp endOp (fun _ s' => Wf x s' ∧ Logged 0 s s') E s := by
  unfold endOp
  rw [wp_modify, if_pos (by omega)]
  exact ⟨h.setLog 0 [] _, rfl, rfl, rfl, rfl, rfl, rfl⟩

theorem endOp_does (h : Wf x s) (ho : s.store.outstanding = 1) :
    does p (liftM endOp) (fun _ s' => Wf x s' ∧ Logged 0 s s') s := does_lift h (endOp_wp h ho)

/-! ### Locking and dropping inodes -/

theorem checkRef_wp {e : Panic} (he : Halts (.error e)) :
    wp (checkRef i e) (fun _ s' => s' = s) (fun e _ => Halts (.error e)) s := by
  unfold checkRef
  rw [wp_bind, wp_get]
  split_ifs
  · exact he
  · exact rfl

theorem Loads.nodes (hl : Loads s i s') : s'.nodes = s.nodes := by
  rw [hl.eq_setSlot]
  rfl

theorem ilock_does (h : Wf x s) (hr : 0 < (s.icache i).ref) :
    does p (ilock i) (fun _ s' => Wf x s' ∧ Loads s i s') s := by
  unfold ilock
  refine does_act h (checkRef_wp (by simp [Halts])) fun _ s' hs' => ?_
  subst hs'
  refine does_bind (Prog.along_lock h.seen (by simp [Halts]) ?_)
  refine does_lift h
    (wp_mono (load_spec h hr) (fun _ s₁ ⟨hl, hwf⟩ => ⟨hwf, hl⟩) fun e s₁ ⟨he, _⟩ => ?_)
  rw [he]
  simp [Halts]

theorem iunlock_does (h : Wf x s) : does p (iunlock i) (fun _ s' => s' = s) s := by
  unfold iunlock
  refine does_bind (Prog.along_holds h.seen fun b => ?_)
  cases b with
  | false => exact does_lift h (by rw [wp_throw]; simp [Halts])
  | true =>
    rw [if_pos rfl]
    refine does_act h (checkRef_wp (by simp [Halts])) fun _ s' hs' => ?_
    subst hs'
    exact Prog.along_unlock h.seen rfl

theorem iput_does (h : Wf x s) (hx : x.hand = i ::ₘ hd) (ho : 1 ≤ s.store.outstanding) :
    does p (iput i) (fun _ s' => Wf { x with hand := hd } s' ∧ Keep hd s s') s := by
  have hi : i ∈ x.hand := hx ▸ Multiset.mem_cons_self i hd
  unfold iput
  refine does_bind (Prog.along_lock h.seen (by simp [Halts]) ?_)
  have hspec : wp (ifree i) (fun _ s₁ => Wf x s₁ ∧ Keep hd s s₁)
      (fun e _ => Halts (.error e)) s := by
    refine wp_mono (ifree_spec h (h.ref_pos hi)) (fun _ s₁ hs1 => ?_) fun e s₁ ⟨hs1, _⟩ =>
      halts_of_stops hs1.toStops ho
    rcases hs1 with ⟨rfl, -⟩ | hf
    · exact ⟨h, .refl⟩
    · exact ⟨hf.wf h hi, hf.keep (h.not_busy hx hf.ref).2⟩
  refine does_act h hspec fun _ s₁ ⟨h1, hk1⟩ => ?_
  refine does_bind (Prog.along_unlock h1.seen ?_)
  refine does_lift h1 ?_
  rw [unref, wp_modify]
  exact ⟨h1.unref hx, hk1.trans (Keep.setSlot (fun _ hv => ⟨hv, rfl⟩) fun _ => rfl)⟩

theorem iunlockput_does (h : Wf x s) (hx : x.hand = i ::ₘ hd) (ho : 1 ≤ s.store.outstanding) :
    does p (iunlockput i) (fun _ s' => Wf { x with hand := hd } s' ∧ Keep hd s s') s := by
  unfold iunlockput
  refine (iunlock_does h).seq fun _ s' hs' => ?_
  subst hs'
  exact iput_does h hx ho

/-! ### Directories -/

theorem Wf.isDir (h : Wf x s) (hr : 0 < (s.icache i).ref) (hv : (s.icache i).valid = true)
    (ht : (s.inode i).type = tDir) : s.store.IsDir (s.inode i) := by
  obtain ⟨htype, -, hsize⟩ := h.inode_eq hr hv
  refine ⟨h.copy i hr hv, ht, ?_⟩
  rw [hsize]
  exact (h.dirs _ (htype ▸ ht)).size_mod

theorem wp_onInode_of_ok {f : Inode → StoreM (α × Inode)} {a : α} {Q : α → Fs → Prop}
    {E : Panic → Fs → Prop} (hf : f (s.inode i) s.store = .ok (a, s.inode i) s.store) (hQ : Q a s) :
    wp (onInode i f) Q E s := by
  rw [wp_onInode]
  refine wp_of_ok hf ?_
  dsimp only
  rw [put_eq_self]
  exact hQ

/-- The entry at `off` of the directory in slot `dp` was found, and slot `i` is for its inode. -/
structure Looked (x : Held) (s : Fs) (dp i off : ℕ) (s' : Fs) : Prop extends Keep x.hand s s' where
  wf : Wf { x with hand := i ::ₘ x.hand } s'
  nodes : s'.nodes = s.nodes
  entry : ∃ k < (s.nodes (s.inode dp).inum).nent, off = direntSize * k
  dir : (s.inode dp).type = tDir

theorem dirlookup_wp (h : Wf x s) (hi : dp ∈ x.hand) (hv : (s.icache dp).valid = true) :
    wp (dirlookup dp name) (fun r s' => match r with
      | none => s' = s ∧ (s.inode dp).type = tDir
      | some (i, off) => Looked x s dp i off s') (fun e _ => Halts (.error e)) s := by
  unfold dirlookup
  rw [wp_bind, wp_get]
  by_cases ht : (s.inode dp).type = tDir
  · rw [if_neg (not_not.2 ht), wp_bind]
    have hdir := h.isDir (h.ref_pos hi) hv ht
    have hn : (s.store.nodes (s.inode dp).inum).nent ≤ 0 + (s.inode dp).size := by
      rw [hdir.nent_eq, zero_add]
      exact Nat.div_le_self _ _
    obtain ⟨⟨r, ip⟩, st', hr, rfl, hip, hfinds⟩ :=
      (@Store.lookupLoop_spec s.store (s.inode dp) name 0 (s.inode dp).size h.ok hdir hn).exists_ok
    dsimp only at hip hfinds
    subst hip
    refine wp_onInode_of_ok hr ?_
    cases r with
    | none => exact ⟨rfl, ht⟩
    | some r =>
    obtain ⟨inum, off⟩ := r
    obtain ⟨k, hk, hoff, hinum, hne, -⟩ := hfinds
    have htab := h.dirs (s.inode dp).inum (by rwa [← (h.inode_eq (h.ref_pos hi) hv).1])
    dsimp only
    rw [wp_bind, wp_modify, wp_bind]
    refine wp_mono iget_spec (fun i s' hg => ?_) fun e _ ⟨he, _⟩ => by rw [he]; simp [Halts]
    have hwf := h.setFound (s.found ++ [(inum, (s.dinode inum).type)])
    have hk' := hg.keep hwf
    rw [wp_pure]
    refine ⟨⟨⟨hk'.sb, hk'.ftable, hk'.inum, hk'.valid⟩, hk'.proc, hk'.out, hk'.type⟩,
      hg.wf hwf (hinum ▸ htab.target_lt k hk), ?_, ⟨k, hk, hoff⟩, ht⟩
    rw [hg.eq_setSlot]
    rfl
  · rw [if_pos ht]
    show Halts _
    simp [Halts]

theorem Wf.setEnt {k : ℕ} {src : Bytes} {st : Store} {ip : Inode} (h : Wf x s) (hi : dp ∈ x.hand)
    (hv : (s.icache dp).valid = true) (ht : (s.inode dp).type = tDir)
    (hk : k ≤ (s.nodes (s.inode dp).inum).nent) (hs : src.direntInum 0 < s.store.sb.ninodes)
    (he : s.store.Edits (s.inode dp) ((s.nodes (s.inode dp).inum).setEnt k src) ip st) :
    Wf x (s.put dp st ip) ∧ Keep x.hand s (s.put dp st ip) := by
  have htype := (h.inode_eq (h.ref_pos hi) hv).1
  have htab := h.dirs (s.inode dp).inum (by rwa [← htype])
  exact ⟨h.put (h.ref_pos hi) he htype.symm fun _ => htab.setEnt hk hs, .put he htype.symm⟩

theorem dirent_lt {N : ℕ} {b : Bytes} (h : inum < N) : (Bytes.dirent inum b).direntInum 0 < N := by
  rw [Bytes.direntInum, Bytes.dirent, Bytes.getLE_putLE]
  exact (Nat.mod_le _ _).trans_lt h

theorem dirlink_does (h : Wf x s) (hi : dp ∈ x.hand) (hv : (s.icache dp).valid = true)
    (hinum : inum < s.store.sb.ninodes) (ho : 1 ≤ s.store.outstanding) :
    does p (dirlink dp name inum) (fun _ s' => Wf x s' ∧ Keep x.hand s s') s := by
  unfold dirlink
  refine does_act h (dirlookup_wp h hi hv) fun r s₁ hr => ?_
  cases r with
  | some r =>
    obtain ⟨i, off⟩ := r
    replace hr : Looked x s dp i off s₁ := hr
    refine (iput_does hr.wf rfl (hr.out ▸ ho)).seq fun _ s₂ ⟨h2, hk2⟩ => does_pure ?_
    exact ⟨h2, hr.toKeep.trans hk2⟩
  | none =>
    obtain ⟨rfl, ht⟩ := hr
    refine does_bind (does_lift h ?_)
    rw [wp_onInode]
    refine wp_mono (Store.addEntry_spec h.ok (h.isDir (h.ref_pos hi) hv ht))
      (fun r st ⟨k, hk, _, he, _⟩ => ?_) fun e st hs => halts_of_stops hs ho
    exact does_pure (h.setEnt hi hv ht hk (dirent_lt hinum) he)

theorem typeOf_wp {E : Panic → Fs → Prop} :
    wp (typeOf i) (fun t s' => s' = s ∧ t = (s.inode i).type) E s :=
  ⟨rfl, rfl⟩

/-! ### Attributes -/

/-- A change of the attributes of an inode that `iupdate` may write. -/
structure Attrs (f : Inode → Inode) : Prop where
  eq : ∀ ip, f ip = { ip with major := (f ip).major, minor := (f ip).minor, nlink := (f ip).nlink }
  ok : ∀ ip : Inode, ip.toDinode.Ok → (f ip).toDinode.Ok

theorem attrs_nlink (g : ℕ → ℕ) : Attrs fun ip => { ip with nlink := g ip.nlink % 2 ^ 16 } :=
  ⟨fun _ => rfl, fun _ h => ⟨h.type_lt, h.major_lt, h.minor_lt, Nat.mod_lt _ (Nat.two_pow_pos 16),
      h.size_lt, h.addrs_lt,
    h.addrs_out⟩⟩

theorem attrs_incLink : Attrs Inode.incLink := attrs_nlink (· + 1)

theorem attrs_decLink : Attrs Inode.decLink := attrs_nlink (· + (2 ^ 16 - 1))

theorem update_wp {f : Inode → Inode} (hf : Attrs f) (h : Wf x s) (hi : i ∈ x.hand)
    (hv : (s.icache i).valid = true) (ho : 1 ≤ s.store.outstanding) :
    wp (update i f) (fun _ s' => Wf x s' ∧ Keep x.hand s s') (fun e _ => Halts (.error e)) s := by
  have hc := h.copy i (h.ref_pos hi) hv
  have htype : (f (s.inode i)).type = (s.inode i).type := by rw [hf.eq]
  have hcopy : f (s.inode i) = { s.inode i with
      type := (f (s.inode i)).type, major := (f (s.inode i)).major, minor := (f (s.inode i)).minor
      nlink := (f (s.inode i)).nlink } := by
    conv_lhs => rw [hf.eq]
    rw [htype]
  rw [wp_update]
  refine wp_mono (Store.iupdate_edits h.ok hc (hf.ok _ (h.ok.mid hc).ok) hcopy (htype ▸ hc.type_ne))
    (fun _ st ⟨he, _⟩ => ⟨h.put (h.ref_pos hi) he htype fun ht => ?_, .put he htype⟩)
    fun e st ⟨hF, hst⟩ => ?_
  swap
  · subst hst
    exact halts_of_stops (hF.stops .refl (.refl : s.store.Logs 0 0 [] s.store)) ho
  have hnode := (h.inode_eq (h.ref_pos hi) hv).1
  have htab := h.dirs (s.inode i).inum (by rwa [← hnode, ← htype])
  exact ⟨htab.size_mod, htab.target_lt⟩

/-! ### Paths -/

theorem head_ne_slash {path l : Name} {c : UInt8} (h : path.dropWhile (· = slash) = c :: l) :
    c ≠ slash := by
  induction path with
  | nil => cases h
  | cons d path ih =>
    rw [List.dropWhile_cons] at h
    split_ifs at h with hd
    · exact ih h
    · cases h
      simpa using hd

theorem skipelem_lt {path rest : Name} (h : skipelem path = some (name, rest)) :
    rest.length < path.length := by
  unfold skipelem at h
  dsimp only at h
  split_ifs at h with hend
  obtain ⟨-, rfl⟩ := Prod.mk.inj (Option.some.inj h)
  have hle := List.length_dropWhile_le (· = slash) path
  cases hp : path.dropWhile (· = slash) with
  | nil =>
    rw [hp] at hend
    exact absurd rfl hend
  | cons c l =>
    have hc : c ≠ slash ∧ c ≠ 0 := ⟨head_ne_slash hp, fun h0 => hend (by rw [hp, h0]; rfl)⟩
    rw [hp, List.length_cons] at hle
    have h1 := List.length_dropWhile_le (· = slash) ((c :: l).dropWhile fun c => c ≠ slash ∧ c ≠ 0)
    have h2 := List.length_dropWhile_le (fun c : UInt8 => decide (c ≠ slash ∧ c ≠ 0)) l
    rw [List.dropWhile_cons, if_pos (decide_eq_true hc)] at h1 ⊢
    omega

/-- The walk keeps the slots `hd`, and ends with a slot in the hand or without one. -/
def Walked (x : Held) (hd : Multiset ℕ) (s : Fs) (r : Option ℕ) (s' : Fs) : Prop :=
  Keep hd s s' ∧ match r with
    | none => Wf { x with hand := hd } s'
    | some i => Wf { x with hand := i ::ₘ hd } s'

theorem namexLoop_does {b : Bool} {fuel : ℕ} {path : Name} (h : Wf { x with hand := i ::ₘ hd } s)
    (ho : 1 ≤ s.store.outstanding) (hfuel : path.length < fuel) :
    does p (namexLoop b fuel i path) (fun r s' => Walked x hd s (r.map Prod.fst) s') s := by
  induction fuel generalizing i path s with
  | zero => omega
  | succ fuel ih =>
    have hsub : hd ⊆ i ::ₘ hd := Multiset.subset_cons _ _
    have hi : i ∈ i ::ₘ hd := Multiset.mem_cons_self _ _
    rw [namexLoop]
    split
    · split_ifs
      · refine (iput_does h rfl ho).seq fun _ s₁ ⟨h1, hk1⟩ => does_pure ⟨hk1, h1⟩
      · exact does_pure ⟨.refl, h⟩
    rename_i name rest hskip
    have hlen := skipelem_lt hskip
    refine (ilock_does h (h.ref_pos hi)).seq fun _ s₁ ⟨h1, hl1⟩ => ?_
    have hk1 : Keep (i ::ₘ hd) s s₁ := hl1.keep
    have ho1 : 1 ≤ s₁.store.outstanding := hk1.out ▸ ho
    -- every way to end here drops the reference
    have hend : does p (do iunlockput i; return none : FsP (Option (ℕ × Name)))
        (fun r s' => Walked x hd s (r.map Prod.fst) s') s₁ :=
      (iunlockput_does h1 rfl ho1).seq fun _ s₂ ⟨h2, hk2⟩ =>
        does_pure ⟨(hk1.mono hsub).trans hk2, h2⟩
    refine does_act h1 typeOf_wp fun t s₂ ⟨hs2, ht⟩ => ?_
    subst hs2 ht
    split_ifs with ht hp
    · exact hend
    · refine (iunlock_does h1).seq fun _ s₂ hs2 => ?_
      subst hs2
      exact does_pure ⟨hk1.mono hsub, h1⟩
    refine does_act h1 (dirlookup_wp h1 hi hl1.valid) fun r s₂ hr => ?_
    cases r with
    | none =>
      obtain ⟨rfl, -⟩ := hr
      exact hend
    | some r =>
    obtain ⟨next, off⟩ := r
    replace hr : Looked _ _ _ _ _ _ := hr
    have hwf : Wf { x with hand := i ::ₘ next ::ₘ hd } s₂ := by
      rw [Multiset.cons_swap]
      exact hr.wf
    refine (iunlockput_does hwf rfl (hr.out ▸ ho1)).seq fun _ s₃ ⟨h3, hk3⟩ => ?_
    have hk : Keep hd s s₃ :=
      ((hk1.trans hr.toKeep).mono hsub).trans (hk3.mono (Multiset.subset_cons _ _))
    refine (ih h3 (hk.out ▸ ho) (by omega)).mono fun r s₄ ⟨hk4, hr4⟩ => ⟨hk.trans hk4, hr4⟩

theorem Wf.cwd_pos (h : Wf x s) (hp : s.proc = x.proc)
    (hcwd : ∃ q i, x.proc p = some q ∧ q.cwd = some i) :
    0 < cwdRefs x.proc (s.cwd p) := by
  obtain ⟨q, i, hq, hi⟩ := hcwd
  refine Finset.card_pos.2 ⟨p, Finset.mem_filter.2 ⟨Finset.mem_range.2 (h.proc_lt p q hq), ?_⟩⟩
  rw [cwd, hp, hq]
  show q.cwd = some (q.cwd.getD 0)
  rw [hi]
  rfl

theorem startInode_wp {path : Name} (h : Wf x s) (hp : s.proc = x.proc)
    (hcwd : ∃ q i, x.proc p = some q ∧ q.cwd = some i) (hroot : rootino < s.store.sb.ninodes) :
    wp (startInode p path) (fun i s' => Wf { x with hand := i ::ₘ x.hand } s' ∧ Keep x.hand s s')
      (fun e _ => Halts (.error e)) s := by
  unfold startInode
  split_ifs
  · exact wp_mono iget_spec (fun i s' hg => ⟨hg.wf h hroot, hg.keep h⟩) fun e _ ⟨he, _⟩ => by
      rw [he]; simp [Halts]
  rw [wp_bind, wp_get]
  have hpos := h.cwd_pos hp hcwd
  have hr : 0 < (s.icache (s.cwd p)).ref := by have := h.refs (s.cwd p); omega
  refine wp_total (idup_spec hr (h.slot_lt _ hr)) fun i s' ⟨hi, hg⟩ => ?_
  subst hi
  exact ⟨hg.wf h (h.inum_lt _ hr), hg.keep h⟩

theorem namex_does {b : Bool} {path : Name} (h : Wf x s) (hp : s.proc = x.proc)
    (hcwd : ∃ q i, x.proc p = some q ∧ q.cwd = some i) (hroot : rootino < s.store.sb.ninodes)
    (ho : 1 ≤ s.store.outstanding) :
    does p (namex p path b) (fun r s' => Walked x x.hand s (r.map Prod.fst) s') s := by
  unfold namex
  refine does_act h (startInode_wp h hp hcwd hroot) fun i s₁ ⟨h1, hk1⟩ => ?_
  exact (namexLoop_does h1 (hk1.out ▸ ho) (Nat.lt_succ_self _)).mono fun r s₂ ⟨hk2, hr⟩ =>
    ⟨hk1.trans hk2, hr⟩

theorem namei_does {path : Name} (h : Wf x s) (hp : s.proc = x.proc)
    (hcwd : ∃ q i, x.proc p = some q ∧ q.cwd = some i) (hroot : rootino < s.store.sb.ninodes)
    (ho : 1 ≤ s.store.outstanding) :
    does p (namei p path) (fun r s' => Walked x x.hand s r s') s := by
  unfold namei
  exact (namex_does h hp hcwd hroot ho).seq fun r s₁ hr => does_pure hr

end Fs

end Xv6
