import Xv6.Fs.DirMap
import Xv6.Fs.Runs

/-!
# Paths

A path as the list of its elements (`Path.elems`), and what it stands for: the inode that is reached
by looking one element after the other up (`Path.resolve`).

* `Path.elems_skipelem` : `skipelem` takes the elements off a path one by one.
* `Fs.namexLoop_walks` : the loop of `namex` takes the steps of `Path.walk`, with one reference in
  the hand.  It frees no inode on the way, since an inode without links is in use elsewhere.
* `Fs.namex_resolves` : **`namei` and `nameiparent` resolve paths**, if two slots of the inode cache
  are free; one reference is gained on success, none on failure, and no lock is held at the end.
* `Fs.namei_cacheFull` : without a free slot `namei` panics.
-/

namespace Xv6

open List

namespace Path

variable {path rest l : Name} {name c : Name} {cs : List Name} {nd : ℕ → Node} {d : ℕ}

/-- The words of `l` between slashes; `cur` is the part of the first one that has been read. -/
def words (cur : Name) : Name → List Name
  | [] => if cur = [] then [] else [cur]
  | b :: l =>
    if b = slash then if cur = [] then words [] l else cur :: words [] l
    else words (cur ++ [b]) l

/-- A path up to its zero byte. -/
def text (path : Name) : Name := path.takeWhile (· ≠ 0)

/-- The elements of a path, cut to `dirsiz` bytes. -/
def elems (path : Name) : List Name := (words [] (text path)).map (List.take dirsiz)

/-- The inode that `cs` leads to from `d`. -/
def resolve (nd : ℕ → Node) : ℕ → List Name → Option ℕ
  | d, [] => some d
  | d, c :: cs =>
    if (nd d).type = tDir then ((nd d).lookup c).bind fun e => resolve nd e.1 cs else none

/-- What `namex` is to return: the inode and the last element. -/
def walk (nd : ℕ → Node) (parent : Bool) : ℕ → List Name → Option (ℕ × Name)
  | d, [] => if parent then none else some (d, [])
  | d, c :: cs =>
    if (nd d).type ≠ tDir then none
    else if parent ∧ cs = [] then some (d, c)
    else ((nd d).lookup c).bind fun e => walk nd parent e.1 cs

/-- The inode that all elements but the last lead to, which must be a directory, and the last
element. -/
def parentOf (nd : ℕ → Node) (d : ℕ) (cs : List Name) : Option (ℕ × Name) :=
  cs.getLast?.bind fun c => (resolve nd d cs.dropLast).bind fun e => if (nd e).type =
    tDir then some (e, c) else none

/-! ### Elements -/

theorem words_dropWhile : words [] (l.dropWhile (· = slash)) = words [] l := by
  induction l with
  | nil => rfl
  | cons b l ih =>
    by_cases hb : b = slash
    · rw [dropWhile_cons, if_pos (by simpa using hb), ih, words, if_pos hb, if_pos rfl]
    · rw [dropWhile_cons, if_neg (by simpa using hb)]

theorem words_cur {cur : Name} (h : cur ≠ []) :
    words cur l = (cur ++ l.takeWhile (· ≠ slash)) :: words [] (l.dropWhile (· ≠ slash)) := by
  induction l generalizing cur with
  | nil => simp [words, h]
  | cons b l ih =>
    by_cases hb : b = slash
    · simp [words, hb, h]
    · rw [words, if_neg hb, ih (by simp)]
      simp [hb]

theorem words_cons {b : UInt8} (hb : b ≠ slash) :
    words [] (b :: l) = (b :: l).takeWhile (· ≠ slash) :: words []
    ((b :: l).dropWhile (· ≠ slash)) := by
  rw [words, if_neg hb, words_cur (by simp)]
  simp [hb]

theorem words_eq_nil_iff : words [] l = [] ↔ l.dropWhile (· = slash) = [] := by
  rw [← words_dropWhile]
  cases h : l.dropWhile (· = slash) with
  | nil => simp [words]
  | cons b l => simp [words_cons (Fs.head_ne_slash h)]

theorem text_cons {b : UInt8} (hb : b ≠ 0) : text (b :: l) = b :: text l := by
  simp [text, hb]

@[simp] theorem text_zero : text (0 :: l) = [] := rfl

@[simp] theorem text_slash : text (slash :: l) = slash :: text l := text_cons (by decide)

theorem text_append {a : Name} : text (a ++ l) = if 0 ∈ a then text a else a ++ text l := by
  induction a with
  | nil => simp
  | cons b a ih =>
    by_cases hb : b = 0
    · simp [hb]
    · rw [cons_append, text_cons hb, text_cons hb, ih]
      by_cases ha : 0 ∈ a <;> simp [ha, Ne.symm hb]

theorem text_dropWhile_slash :
    text (path.dropWhile (· = slash)) = (text path).dropWhile (· = slash) := by
  induction path with
  | nil => rfl
  | cons b l ih =>
    by_cases hb : b = slash
    · subst hb
      simpa using ih
    rw [dropWhile_cons, if_neg (by simpa using hb)]
    by_cases h0 : b = 0
    · rw [h0]
      rfl
    · rw [text_cons h0, dropWhile_cons, if_neg (by simpa using hb)]

theorem atEnd_iff : atEnd path = true ↔ text path = [] := by
  cases path with
  | nil => simp [atEnd, text]
  | cons b l => by_cases hb : b = 0 <;> simp [atEnd, text, hb]

theorem takeWhile_word :
    (path.takeWhile fun c => c ≠ slash ∧ c ≠ 0) = (text path).takeWhile (· ≠ slash) := by
  induction path with
  | nil => rfl
  | cons b l ih =>
    by_cases h0 : b = 0
    · simp [h0]
    rw [text_cons h0]
    by_cases hb : b = slash
    · simp [hb]
    · simpa [hb, h0] using ih

theorem text_dropWhile_word :
    text (path.dropWhile fun c => c ≠ slash ∧ c ≠ 0) = (text path).dropWhile (· ≠ slash) := by
  induction path with
  | nil => rfl
  | cons b l ih =>
    by_cases h0 : b = 0
    · simp [h0]
    by_cases hb : b = slash
    · simp [hb]
    · rw [text_cons h0]
      simpa [hb, h0] using ih

theorem skipelem_none (h : skipelem path = none) : elems path = [] := by
  unfold skipelem at h
  dsimp only at h
  split_ifs at h with hend
  rw [atEnd_iff, text_dropWhile_slash, ← words_eq_nil_iff] at hend
  rw [elems, hend]
  rfl

/-- **`skipelem` takes the first element off**, and leaves no slash in front of the rest. -/
theorem elems_skipelem (h : skipelem path = some (name, rest)) :
    elems path = name :: elems rest ∧ (atEnd rest = true ↔ elems rest = []) := by
  unfold skipelem at h
  dsimp only at h
  split_ifs at h with hend
  cases h
  rw [atEnd_iff, text_dropWhile_slash] at hend
  have hrest : text ((List.dropWhile (fun c => decide (c ≠ slash ∧ c ≠ 0))
    (path.dropWhile (· = slash))).dropWhile (· = slash)) =
      (((text path).dropWhile (· = slash)).dropWhile (· ≠ slash)).dropWhile (· = slash) := by
    rw [text_dropWhile_slash, text_dropWhile_word, text_dropWhile_slash]
  refine ⟨?_, ?_⟩
  · obtain ⟨b, t, ht⟩ := exists_cons_of_ne_nil hend
    rw [elems, elems, hrest, ← words_dropWhile, ht, words_cons (Fs.head_ne_slash ht), map_cons,
      words_dropWhile, takeWhile_word, text_dropWhile_slash, ht]
  · rw [atEnd_iff, elems, map_eq_nil_iff, hrest, words_dropWhile, words_eq_nil_iff]

theorem elems_slashes {a b : Name} :
    elems (a ++ slash :: slash :: b) = elems (a ++ slash :: b) := by
  have hwords : ∀ cur a l : Name, words cur (a ++ slash :: slash :: l) =
      words cur (a ++ slash :: l) := by
    intro cur a l
    induction a generalizing cur with
    | nil => by_cases hc : cur = [] <;> simp [words, hc]
    | cons c a ih =>
      simp only [cons_append, words]
      rw [ih, ih]
  rw [elems, elems, text_append, text_append, text_slash, text_slash]
  split_ifs
  · rfl
  · rw [hwords]

theorem elems_trailing {a : Name} : elems (a ++ [slash]) = elems a := by
  have hwords : ∀ cur a : Name, words cur (a ++ [slash]) = words cur a := by
    intro cur a
    induction a generalizing cur with
    | nil => by_cases hc : cur = [] <;> simp [words, hc]
    | cons c a ih =>
      simp only [cons_append, words]
      rw [ih, ih]
  have htext : text a = if 0 ∈ a then text a else a := by
    simpa [show text [] = [] from rfl] using text_append (a := a) (l := [])
  rw [elems, elems, text_append, text_slash]
  split_ifs at htext ⊢
  · rfl
  · rw [htext]
    exact congrArg _ (hwords [] a)

/-! ### Resolution -/

theorem walk_false : walk nd false d cs = (resolve nd d cs).map fun e => (e, []) := by
  induction cs generalizing d with
  | nil => rfl
  | cons c cs ih =>
    rw [walk, resolve]
    by_cases hd : (nd d).type = tDir
    · rw [if_neg (not_not.2 hd), if_pos hd, if_neg (by simp)]
      cases (nd d).lookup c with
      | none => rfl
      | some e => exact ih
    · rw [if_pos hd, if_neg hd]
      rfl

theorem walk_concat : walk nd true d (cs ++ [c]) =
    (resolve nd d cs).bind fun e => if (nd e).type = tDir then some (e, c) else none := by
  induction cs generalizing d with
  | nil =>
    by_cases hd : (nd d).type = tDir <;> simp [walk, resolve, hd]
  | cons b cs ih =>
    rw [cons_append, walk, resolve]
    by_cases hd : (nd d).type = tDir
    · rw [if_neg (not_not.2 hd), if_pos hd, if_neg (by simp)]
      cases (nd d).lookup b with
      | none => rfl
      | some e => exact ih
    · rw [if_pos hd, if_neg hd]
      rfl

theorem walk_true : walk nd true d cs = parentOf nd d cs := by
  rcases eq_nil_or_concat cs with rfl | ⟨cs, c, rfl⟩
  · rfl
  · rw [concat_eq_append, walk_concat]
    simp [parentOf]

theorem resolve_append : resolve nd d (cs ++ [c]) = (resolve nd d cs).bind fun e =>
    if (nd e).type = tDir then ((nd e).lookup c).map Prod.fst else none := by
  induction cs generalizing d with
  | nil =>
    by_cases hd : (nd d).type = tDir
    · cases h : (nd d).lookup c <;> simp [resolve, hd, h]
    · simp [resolve, hd]
  | cons b cs ih =>
    rw [cons_append, resolve, resolve]
    by_cases hd : (nd d).type = tDir
    · rw [if_pos hd, if_pos hd]
      cases (nd d).lookup b with
      | none => rfl
      | some e => exact ih
    · rw [if_neg hd, if_neg hd]
      rfl

/-- The two modes agree: the last element is looked up in the parent. -/
theorem resolve_parentOf {i : ℕ} (hcs : cs ≠ []) (h : resolve nd d cs = some i) :
    ∃ e c, parentOf nd d cs = some (e, c) ∧ ((nd e).lookup c).map Prod.fst = some i := by
  rcases eq_nil_or_concat cs with rfl | ⟨cs, c, rfl⟩
  · exact absurd rfl hcs
  rw [concat_eq_append, resolve_append, Option.bind_eq_some_iff] at h
  obtain ⟨e, he, hi⟩ := h
  split_ifs at hi with hd
  exact ⟨e, c, by simp [parentOf, he, hd], hi⟩

end Path

namespace Fs

variable {x : Held} {s s' s₁ : Fs} {hd : Multiset ℕ} {i j d p : ℕ} {name : Name}

/-- Every lock is free. -/
def noLocks : Prog.Locks ℕ ℕ := fun _ => none

/-- A well-formed file system in which every live entry names an allocated inode; an allocated inode
without links is in use as an open file or a current directory. -/
structure Calm (x : Held) (s : Fs) : Prop where
  wf : Wf x s
  kept : ∀ j, (s.nodes j).type ≠ 0 → (s.nodes j).nlink = 0 → ∃ i, (s.inode i).inum = j ∧
    0 < fileRefs s i + cwdRefs x.proc i
  live : ∀ d, (s.nodes d).type = tDir → ∀ k < (s.nodes d).nent, (s.nodes d).target k ≠ 0 →
    (s.nodes ((s.nodes d).target k)).type ≠ 0
  root : (s.nodes rootino).type ≠ 0

/-- Only the inode cache has changed. -/
structure Frozen (s s' : Fs) : Prop where
  store : s'.store = s.store
  ftable : s'.ftable = s.ftable
  proc : s'.proc = s.proc

/-- Only the inode cache has changed, and slots in use are for the same inodes. -/
structure Same (s s' : Fs) : Prop extends Frozen s s' where
  inum : ∀ i, 0 < (s.icache i).ref → (s'.inode i).inum = (s.inode i).inum

theorem Frozen.refl : Frozen s s := ⟨rfl, rfl, rfl⟩

theorem Frozen.trans (h : Frozen s s₁) (h' : Frozen s₁ s') : Frozen s s' :=
  ⟨h'.store.trans h.store, h'.ftable.trans h.ftable, h'.proc.trans h.proc⟩

theorem Frozen.fileRefs_eq (h : Frozen s s') : fileRefs s' = fileRefs s := by
  funext i
  simp only [fileRefs, h.ftable]

theorem Frozen.nodes_eq (h : Frozen s s') : s'.nodes = s.nodes := by
  simp only [nodes, h.store]

theorem Calm.same {x' : Held} (h : Calm x s) (hs : Same s s') (hwf : Wf x' s')
    (hp : x'.proc = x.proc) : Calm x' s' := by
  have hn := hs.nodes_eq
  refine ⟨hwf, fun j ht hl => ?_, by rw [hn]; exact h.live, by rw [hn]; exact h.root⟩
  rw [hn] at ht hl
  obtain ⟨i, hi, hpos⟩ := h.kept j ht hl
  refine ⟨i, ?_, by rwa [hs.fileRefs_eq, hp]⟩
  have hr := h.wf.refs i
  rw [hs.inum i (by omega), hi]

theorem Gets.same {inum : ℕ} (hg : Gets s inum i s') : Same s s' := by
  have heq := hg.eq_setSlot
  refine ⟨⟨by rw [heq]; rfl, by rw [heq]; rfl, by rw [heq]; rfl⟩, fun j hj => ?_⟩
  by_cases hji : j = i
  · subst hji
    rw [inode, hg.old hj]
    rfl
  · rw [inode, heq, setSlot_of_ne hji]
    rfl

theorem Loads.same (hl : Loads s i s') : Same s s' := by
  have heq := hl.eq_setSlot
  refine ⟨⟨by rw [heq]; rfl, by rw [heq]; rfl, by rw [heq]; rfl⟩, fun j hj => ?_⟩
  by_cases hji : j = i
  · subst hji
    exact hl.inum_eq
  · rw [inode, heq, setSlot_of_ne hji]
    rfl

/-- The state after `ip->ref--`. -/
def drop (s : Fs) (i : ℕ) : Fs := s.setSlot i { s.icache i with ref := (s.icache i).ref - 1 }

theorem same_drop : Same s (s.drop i) := by
  refine ⟨⟨rfl, rfl, rfl⟩, fun j hj => ?_⟩
  by_cases hji : j = i
  · subst hji
    rw [drop, inode_setSlot_self]
    rfl
  · rw [drop, inode, setSlot_of_ne hji]
    rfl

/-- The references in two states that differ by what is in the hands. -/
theorem Calm.ref_eq (hC : Calm x s) (hC' : Calm { x with hand := hd } s')
    (hs : Frozen s s') (j : ℕ) :
    (s'.icache j).ref + x.hand.count j = (s.icache j).ref + hd.count j := by
  have hr := hC.wf.refs j
  have hr' := hC'.wf.refs j
  rw [hs.fileRefs_eq] at hr'
  dsimp only at hr hr'
  omega

/-! ### The parts of `namex` -/

theorem seq_lift {α : Type} {f : FsM α} {a : α} {L : Prog.Locks ℕ ℕ} (h : f s = .ok a s') :
    (liftM f : FsP α).seq p (s, L) = .ok a (s', L) := by
  have hwp : wp ((liftM f : FsP α).seq p) (fun b r => b = a ∧ r = (s', L)) (fun _ _ => False)
      (s, L) := by
    rw [Prog.wp_lift]
    exact wp_of_ok h ⟨rfl, rfl⟩
  obtain ⟨b, r, hrun, rfl, rfl⟩ := hwp.exists_ok
  exact hrun

/-- A reference to an inode without links is not the last one. -/
theorem Calm.not_last (hC : Calm { x with hand := i ::ₘ hd } s) :
    ¬ ((s.icache i).valid = true ∧ (s.inode i).nlink = 0 ∧ (s.icache i).ref = 1) := by
  rintro ⟨hv, hl, hr⟩
  have hpos : 0 < (s.icache i).ref := by omega
  obtain ⟨-, hnl, -⟩ := hC.wf.inode_eq hpos hv
  obtain ⟨j, hj, hbusy⟩ := hC.kept _ (hC.wf.type_ne hpos hv) (hnl ▸ hl)
  have hrj := hC.wf.refs j
  obtain rfl := hC.wf.uniq j i (by omega) hpos hj
  rw [Multiset.count_cons_self] at hrj
  dsimp only at hbusy hrj
  omega

theorem iput_seq (hC : Calm { x with hand := i ::ₘ hd } s) :
    (iput i).seq p (s, noLocks) = .ok () (s.drop i, noLocks) ∧
    Calm { x with hand := hd } (s.drop i) := by
  refine ⟨?_, hC.same same_drop (hC.wf.unref rfl) rfl⟩
  have hfree : ifree i s = .ok () s := by
    unfold ifree
    rw [get_bind_apply, if_neg hC.not_last]
    rfl
  have hlocks : upd (upd noLocks i (some p)) i none = noLocks := by
    funext j
    by_cases hj : j = i <;> simp [noLocks, hj]
  have hwp : wp ((iput i).seq p) (fun _ r => r = (s.drop i, noLocks)) (fun _ _ => False)
      (s, noLocks) := by
    unfold iput
    simp only [Prog.seq_bind, wp_bind, Prog.wp_lock]
    rw [if_pos (show noLocks i = none from rfl), Prog.wp_lift]
    refine wp_of_ok hfree ?_
    rw [Prog.wp_unlock, Prog.wp_lift, unref, wp_modify, hlocks]
    rfl
  obtain ⟨_, r, hrun, rfl⟩ := hwp.exists_ok
  exact hrun

theorem ilock_seq (hC : Calm { x with hand := i ::ₘ hd } s)
    (ht : (s.nodes (s.inode i).inum).type ≠ 0) :
    ∃ s', (ilock i).seq p (s, noLocks) = .ok () (s', upd noLocks i (some p)) ∧ Loads s i s' ∧
      Calm { x with hand := i ::ₘ hd } s' := by
  have hr : 0 < (s.icache i).ref := hC.wf.ref_pos (Multiset.mem_cons_self i hd)
  have hload : wp (load i) (fun _ s' => Loads s i s' ∧ Wf { x with hand := i ::ₘ hd } s')
      (fun _ _ => False) s :=
    wp_mono (load_spec hC.wf hr) (fun _ _ => id) fun _ _ he => ht he.2.1
  have hwp : wp ((ilock i).seq p) (fun _ r => r.2 = upd noLocks i (some p) ∧ Loads s i r.1 ∧
      Wf { x with hand := i ::ₘ hd } r.1) (fun _ _ => False) (s, noLocks) := by
    unfold ilock
    simp only [Prog.seq_bind, wp_bind, Prog.wp_lift, Prog.wp_lock, checkRef, wp_get]
    rw [if_neg (by omega), wp_pure, if_pos (show noLocks i = none from rfl)]
    exact wp_post hload fun _ _ h => ⟨trivial, h⟩
  obtain ⟨_, ⟨s', L⟩, hrun, hL, hl, hwf⟩ := hwp.exists_ok
  obtain rfl : L = upd noLocks i (some p) := hL
  exact ⟨s', hrun, hl, hC.same hl.same hwf rfl⟩

theorem iunlock_seq (hr : 0 < (s.icache i).ref) :
    (iunlock i).seq p (s, upd noLocks i (some p)) = .ok () (s, noLocks) := by
  have hlocks : upd (upd noLocks i (some p)) i none = noLocks := by
    funext j
    by_cases hj : j = i <;> simp [noLocks, hj]
  have hwp : wp ((iunlock i).seq p) (fun _ r => r = (s, noLocks)) (fun _ _ => False)
      (s, upd noLocks i (some p)) := by
    unfold iunlock
    rw [Prog.seq_bind, wp_bind, Prog.wp_holds]
    simp only [upd_eq_update, Function.update_self, decide_true, ↓reduceIte]
    rw [Prog.seq_bind, wp_bind, Prog.wp_lift, checkRef, wp_bind, wp_get,
      if_neg (show ¬ (s.icache i).ref < 1 by omega), wp_pure, Prog.wp_unlock]
    simp only [upd_eq_update] at hlocks ⊢
    exact congrArg (Prod.mk s) hlocks
  obtain ⟨_, r, hrun, rfl⟩ := hwp.exists_ok
  exact hrun

theorem iunlockput_seq (hC : Calm { x with hand := i ::ₘ hd } s) :
    (iunlockput i).seq p (s, upd noLocks i (some p)) = .ok () (s.drop i, noLocks) ∧
      Calm { x with hand := hd } (s.drop i) := by
  obtain ⟨hput, hC'⟩ := iput_seq (p := p) hC
  refine ⟨?_, hC'⟩
  unfold iunlockput
  rw [Prog.seq_bind, bind_ok (iunlock_seq (hC.wf.ref_pos (Multiset.mem_cons_self i hd)))]
  exact hput

/-- Two slots are free, but for the hand `i`. -/
def Spare (x : Held) (hd : Multiset ℕ) (s : Fs) : Prop :=
  ∃ a b, a ≠ b ∧ a < ninode ∧ b < ninode ∧ fileRefs s a + cwdRefs x.proc a + hd.count a = 0 ∧
    fileRefs s b + cwdRefs x.proc b + hd.count b = 0

theorem Spare.frozen (h : Spare x hd s) (hs : Frozen s s') : Spare x hd s' := by
  unfold Spare
  rw [hs.fileRefs_eq]
  exact h

theorem Spare.cacheable {inum : ℕ} (h : Spare x hd s) (hC : Calm { x with hand := i ::ₘ hd } s) :
    s.Cacheable inum := by
  obtain ⟨a, b, hab, ha, hb, h1, h2⟩ := h
  have hfree : ∀ c, c ≠ i → fileRefs s c + cwdRefs x.proc c + hd.count c = 0 →
      (s.icache c).ref = 0 := fun c hc h0 => by
    have hr := hC.wf.refs c
    rw [Multiset.count_cons_of_ne hc] at hr
    dsimp only at hr
    omega
  by_cases hai : a = i
  · exact ⟨b, hb, .inl (hfree b (fun h => hab (hai.trans h.symm)) h2)⟩
  · exact ⟨a, ha, .inl (hfree a hai h1)⟩

theorem dirlookup_lookup (name : Name) (h : s.store.Ok) (hdir : s.store.IsDir (s.inode i)) :
    dirlookup i name s = (((s.nodes (s.inode i).inum).lookup name).elim (pure none) fun y => do
      modify fun s => { s with found := s.found ++ [(y.1, (s.dinode y.1).type)] }
      let i ← iget y.1
      return some (i, y.2) : FsM (Option (ℕ × ℕ))) s := by
  have hn : (s.store.nodes (s.inode i).inum).nent ≤ 0 + (s.inode i).size := by
    rw [hdir.nent_eq, zero_add]
    exact Nat.div_le_self _ _
  have hr := Store.lookupLoop_eq name h hdir hn
  rw [mul_zero, Nat.sub_zero, ← range_eq_range'] at hr
  have hon : onInode i (fun ip => Store.lookupLoop name ip.size ip 0) s =
      .ok ((s.nodes (s.inode i).inum).lookup name) (s.put i s.store (s.inode i)) := onInode_ok hr
  rw [put_eq_self] at hon
  unfold dirlookup
  rw [get_bind_apply, if_neg (not_not.2 hdir.type_eq)]
  refine (bind_ok hon).trans ?_
  cases (s.nodes (s.inode i).inum).lookup name <;> rfl

/-- An element is looked up, and a reference to its inode taken. -/
theorem dirlookup_step {e off : ℕ} (hC : Calm { x with hand := i ::ₘ hd } s) (hsp : Spare x hd s)
    (hdir : s.store.IsDir (s.inode i))
    (hlook : (s.nodes (s.inode i).inum).lookup name = some (e, off)) :
    ∃ j s', dirlookup i name s = .ok (some (j, off)) s' ∧ (s'.inode j).inum = e ∧ Same s s' ∧
      Calm { x with hand := j ::ₘ i ::ₘ hd } s' ∧ (s.nodes e).type ≠ 0 := by
  have heq := dirlookup_lookup name hC.wf.ok hdir
  rw [hlook] at heq
  obtain ⟨k, hk, hkt⟩ := Option.map_eq_some_iff.1 hlook
  have hlt := mem_range.1 (mem_of_find?_eq_some hk)
  obtain ⟨hne, -⟩ : (s.nodes (s.inode i).inum).target k ≠ 0 ∧ (s.nodes (s.inode i).inum).name k =
      name.key := by
    simpa using List.find?_some hk
  cases hkt
  have htype : (s.nodes (s.inode i).inum).type = tDir := by
    rw [nodes, hdir.node_eq]
    exact hdir.type_eq
  have hinum := (hC.wf.dirs _ htype).target_lt k hlt
  have hwf := hC.wf.setFound (s.found ++ [((s.nodes (s.inode i).inum).target k,
    (s.dinode ((s.nodes (s.inode i).inum).target k)).type)])
  have hcache : Cacheable { s with found := s.found ++ [((s.nodes (s.inode i).inum).target k,
      (s.dinode ((s.nodes (s.inode i).inum).target k)).type)] }
      ((s.nodes (s.inode i).inum).target k) := hsp.cacheable hC
  obtain ⟨j, s', hget⟩ := iget_ok_iff.2 hcache
  have hg := iget_spec.ok hget
  have hsame : Same s s' := ⟨⟨hg.same.store, hg.same.ftable, hg.same.proc⟩, hg.same.inum⟩
  refine ⟨j, s', ?_, hg.inum_eq, hsame, hC.same hsame (hg.wf hwf hinum) rfl,
    hC.live _ htype k hlt hne⟩
  rw [heq]
  show (do let i ← iget _; return some (i, _) : FsM (Option (ℕ × ℕ))) _ = _
  rw [bind_ok hget]
  rfl

/-- How `namex` ends: with one reference to the inode of the result in the hand, or with none. -/
def Ended (x : Held) (hd : Multiset ℕ) (s' : Fs) : Option (ℕ × Name) → Option (ℕ × Name) → Prop
  | some (e, c), some (j, c') =>
    c' = c ∧ (s'.inode j).inum = e ∧ Calm { x with hand := j ::ₘ hd } s'
  | none, none => Calm { x with hand := hd } s'
  | _, _ => False

/-- **The loop of `namex` walks along the elements.** -/
theorem namexLoop_walks {b : Bool} {fuel : ℕ} {path : Name}
    (hC : Calm { x with hand := i ::ₘ hd } s) (hsp : Spare x hd s)
    (ht : (s.nodes (s.inode i).inum).type ≠ 0) (hfuel : path.length < fuel) :
    ∃ r s', (namexLoop b fuel i path).seq p (s, noLocks) = .ok r (s', noLocks) ∧ Frozen s s' ∧
      Ended x hd s' (Path.walk s.nodes b (s.inode i).inum (Path.elems path)) r := by
  induction fuel generalizing i path s with
  | zero => omega
  | succ fuel ih =>
    rw [namexLoop]
    cases hskip : skipelem path with
    | none =>
      rw [Path.skipelem_none hskip]
      dsimp only
      cases b with
      | true =>
        obtain ⟨hput, hC'⟩ := iput_seq (p := p) hC
        refine ⟨none, s.drop i, ?_, same_drop.toFrozen, hC'⟩
        rw [if_pos rfl, Prog.seq_bind, bind_ok hput]
        rfl
      | false => exact ⟨some (i, []), s, rfl, .refl, rfl, rfl, hC⟩
    | some r =>
    obtain ⟨name, rest⟩ := r
    obtain ⟨helems, hend⟩ := Path.elems_skipelem hskip
    have hlen := skipelem_lt hskip
    dsimp only
    obtain ⟨s₁, hlock, hl, hC1⟩ := ilock_seq (p := p) hC ht
    have hin : (s₁.inode i).inum = (s.inode i).inum := hl.inum_eq
    have hpos1 : 0 < (s₁.icache i).ref := hC1.wf.ref_pos (Multiset.mem_cons_self i hd)
    have htype : (s₁.inode i).type = (s.nodes (s.inode i).inum).type := by
      rw [(hC1.wf.inode_eq hpos1 hl.valid).1, hl.same.nodes_eq, hin]
    have hty : (typeOf i : FsM ℕ) s₁ = .ok (s₁.inode i).type s₁ := rfl
    obtain ⟨hdrop, hCd⟩ := iunlockput_seq (p := p) hC1
    have hfail : ∀ s₂, s₂ = s₁ → (do iunlockput i; return none : FsP (Option (ℕ × Name))).seq p
        (s₂, upd noLocks i (some p)) = .ok none (s₁.drop i, noLocks) := by
      rintro _ rfl
      rw [Prog.seq_bind, bind_ok hdrop]
      rfl
    rw [Prog.seq_bind, bind_ok hlock, helems, Path.walk, Prog.seq_bind,
      bind_ok (seq_lift hty), htype]
    by_cases hdir : (s.nodes (s.inode i).inum).type = tDir
    · rw [if_neg (not_not.2 hdir), if_neg (not_not.2 hdir)]
      have hisdir : s₁.store.IsDir (s₁.inode i) := hC1.wf.isDir hpos1 hl.valid (htype.trans hdir)
      have hnodes : s₁.nodes (s₁.inode i).inum = s.nodes (s.inode i).inum := by
        rw [hl.same.nodes_eq, hin]
      by_cases hlast : b = true ∧ Path.elems rest = []
      · rw [if_pos ⟨hlast.1, hend.2 hlast.2⟩, if_pos hlast, Prog.seq_bind,
          bind_ok (iunlock_seq hpos1)]
        exact ⟨some (i, name), s₁, rfl, hl.same.toFrozen, rfl, hin, hC1⟩
      rw [if_neg fun h => hlast ⟨h.1, hend.1 h.2⟩, if_neg hlast, Prog.seq_bind]
      cases hlook : (s.nodes (s.inode i).inum).lookup name with
      | none =>
        have hnone : dirlookup i name s₁ = .ok none s₁ := by
          rw [dirlookup_lookup name hC1.wf.ok hisdir, hnodes, hlook]
          rfl
        rw [bind_ok (seq_lift hnone)]
        exact ⟨none, s₁.drop i, hfail s₁ rfl, hl.same.toFrozen.trans same_drop.toFrozen, hCd⟩
      | some y =>
      obtain ⟨e, off⟩ := y
      obtain ⟨j, s₂, hsome, hj, hsame, hC2, hte⟩ :=
        dirlookup_step hC1 (hsp.frozen hl.same.toFrozen) hisdir (hnodes ▸ hlook)
      rw [bind_ok (seq_lift hsome)]
      dsimp only
      rw [Multiset.cons_swap] at hC2
      obtain ⟨hput, hC3⟩ := iunlockput_seq (p := p) hC2
      rw [Prog.seq_bind, bind_ok hput]
      have hfz : Frozen s (s₂.drop i) :=
        (hl.same.toFrozen.trans hsame.toFrozen).trans same_drop.toFrozen
      have hj3 : ((s₂.drop i).inode j).inum = e := by
        rw [same_drop.inum j (hC2.wf.ref_pos (by simp)), hj]
      obtain ⟨r, s', hrun, hfz', hended⟩ := ih hC3 (hsp.frozen hfz)
        (by rw [hj3, hfz.nodes_eq]; rw [hl.same.nodes_eq] at hte; exact hte)
        (by omega : rest.length < fuel)
      rw [hj3, hfz.nodes_eq] at hended
      exact ⟨r, s', hrun, hfz.trans hfz', hended⟩
    · rw [if_pos hdir, if_pos hdir]
      exact ⟨none, s₁.drop i, hfail s₁ rfl, hl.same.toFrozen.trans same_drop.toFrozen, hCd⟩

/-! ### The results -/

/-- The result is a slot for the inode, to which one reference has been gained; or there is none. -/
def Returns (s s' : Fs) : Option ℕ → Option ℕ → Prop
  | some e, some j =>
    (s'.inode j).inum = e ∧ ∀ k, (s'.icache k).ref = (s.icache k).ref + if k = j then 1 else 0
  | none, none => ∀ k, (s'.icache k).ref = (s.icache k).ref
  | _, _ => False

theorem Ended.returns {w r : Option (ℕ × Name)} (hC : Calm x s) (hs : Frozen s s')
    (he : Ended x x.hand s' w r) :
    Returns s s' (w.map Prod.fst) (r.map Prod.fst) ∧ r.map Prod.snd = w.map Prod.snd := by
  cases w with
  | none =>
    cases r with
    | none =>
      have hC' : Calm { x with hand := x.hand } s' := he
      exact ⟨fun k => by have := hC.ref_eq hC' hs k; omega, rfl⟩
    | some r => exact he.elim
  | some w =>
  cases r with
  | none => exact he.elim
  | some r =>
    obtain ⟨hc, hj, hC'⟩ : r.2 = w.2 ∧ (s'.inode r.1).inum = w.1 ∧
      Calm { x with hand := r.1 ::ₘ x.hand } s' := he
    refine ⟨⟨hj, fun k => ?_⟩, by simp [hc]⟩
    have h := hC.ref_eq hC' hs k
    rw [Multiset.count_cons] at h
    omega

/-- The inode at which the walk starts. -/
def startInum (s : Fs) (p : ℕ) (path : Name) : ℕ :=
  if path.head? = some slash then rootino else (s.inode (s.cwd p)).inum

theorem startInode_starts (path : Name) (hC : Calm x s) (hp : s.proc = x.proc)
    (hcwd : ∃ q i, x.proc p = some q ∧ q.cwd = some i) (hroot : s.Cacheable rootino) :
    ∃ i s₁, startInode p path s = .ok i s₁ ∧ Same s s₁ ∧ Calm { x with hand := i ::ₘ x.hand } s₁ ∧
      (s₁.inode i).inum = s.startInum p path ∧ (s.nodes (s.startInum p path)).type ≠ 0 := by
  unfold startInode startInum
  by_cases hs : path.head? = some slash
  · rw [if_pos hs, if_pos hs]
    obtain ⟨i, s₁, hget⟩ := iget_ok_iff.2 hroot
    have hg := iget_spec.ok hget
    exact ⟨i, s₁, hget, hg.same, hC.same hg.same (hg.wf hC.wf hC.wf.ok.sb_ok.root) rfl,
      hg.inum_eq, hC.root⟩
  rw [if_neg hs, if_neg hs]
  have hpos := hC.wf.cwd_pos hp hcwd
  have hr : 0 < (s.icache (s.cwd p)).ref := by have := hC.wf.refs (s.cwd p); omega
  obtain ⟨i, s₁, hdup, rfl, hg⟩ := (idup_spec hr (hC.wf.slot_lt _ hr)).exists_ok
  exact ⟨_, s₁, hdup, hg.same, hC.same hg.same (hg.wf hC.wf (hC.wf.inum_lt _ hr)) rfl, hg.inum_eq,
    hC.wf.cwd_type _ hpos⟩

theorem namex_walks (b : Bool) (path : Name) (hC : Calm x s) (hp : s.proc = x.proc)
    (hcwd : ∃ q i, x.proc p = some q ∧ q.cwd = some i)
    (hfree : ∃ a b, a ≠ b ∧ a < ninode ∧ b < ninode ∧ (s.icache a).ref = 0 ∧ (s.icache b).ref = 0) :
    ∃ r s', (namex p path b).seq p (s, noLocks) = .ok r (s', noLocks) ∧ Frozen s s' ∧
      Ended x x.hand s' (Path.walk s.nodes b (s.startInum p path) (Path.elems path)) r := by
  obtain ⟨a, c, hac, ha, hc, ha0, hc0⟩ := hfree
  obtain ⟨i, s₁, hstart, hsame, hC1, hi, ht⟩ := startInode_starts path hC hp hcwd ⟨a, ha, .inl ha0⟩
  have hidle : ∀ k, (s.icache k).ref = 0 → fileRefs s₁ k + cwdRefs x.proc k + x.hand.count k = 0 :=
      fun k hk => by
    rw [hsame.fileRefs_eq]
    have := hC.wf.refs k
    omega
  obtain ⟨r, s', hrun, hfz, hended⟩ :=
    namexLoop_walks (p := p) (b := b) hC1 ⟨a, c, hac, ha, hc, hidle a ha0, hidle c hc0⟩
    (by rwa [hi, hsame.nodes_eq]) (Nat.lt_succ_self path.length)
  rw [hi, hsame.nodes_eq] at hended
  refine ⟨r, s', ?_, hsame.toFrozen.trans hfz, hended⟩
  unfold namex
  rw [Prog.seq_bind, bind_ok (seq_lift hstart)]
  exact hrun

/-- **Paths are resolved element by element**, if two slots of the inode cache are free: `namei`
returns the inode that the elements lead to, `nameiparent` the one of all but the last; one
reference is gained, or none if there is no such inode; no lock is held; the last element leads from
the parent to the inode; more slashes do not matter. -/
theorem namex_resolves (hC : Calm x s) (hp : s.proc = x.proc)
    (hcwd : ∃ q i, x.proc p = some q ∧ q.cwd = some i) (hfree : ∃ a b, a ≠ b ∧ a < ninode ∧
      b < ninode ∧ (s.icache a).ref = 0 ∧ (s.icache b).ref = 0) (path : Name) :
    (∃ r s', (namei p path).seq p (s, noLocks) = .ok r (s', noLocks) ∧ Frozen s s' ∧
      Returns s s' (Path.resolve s.nodes (s.startInum p path) (Path.elems path)) r) ∧
    (∃ r s', (nameiparent p path).seq p (s, noLocks) = .ok r (s', noLocks) ∧ Frozen s s' ∧
      Returns s s' ((Path.parentOf s.nodes (s.startInum p path) (Path.elems path)).map Prod.fst)
      (r.map Prod.fst) ∧ r.map Prod.snd =
      (Path.parentOf s.nodes (s.startInum p path) (Path.elems path)).map Prod.snd) ∧
    (∀ i, Path.elems path ≠ [] →
      Path.resolve s.nodes (s.startInum p path) (Path.elems path) = some i →
      ∃ e c, Path.parentOf s.nodes (s.startInum p path) (Path.elems path) = some (e, c) ∧
        ((s.nodes e).lookup c).map Prod.fst = some i) ∧
    (∀ a b, path = a ++ slash :: b → Path.elems (a ++ slash :: slash :: b) = Path.elems path ∧
      s.startInum p (a ++ slash :: slash :: b) = s.startInum p path) ∧
    (path ≠ [] → Path.elems (path ++ [slash]) = Path.elems path ∧
      s.startInum p (path ++ [slash]) = s.startInum p path) := by
  refine ⟨?_, ?_, fun i => Path.resolve_parentOf, ?_, fun hne => ⟨Path.elems_trailing, ?_⟩⟩
  · obtain ⟨r, s', hrun, hfz, hended⟩ := namex_walks false path hC hp hcwd hfree
    refine ⟨r.map Prod.fst, s', ?_, hfz, ?_⟩
    · unfold namei
      rw [Prog.seq_bind, bind_ok hrun]
      rfl
    · have h := (hended.returns hC hfz).1
      rw [Path.walk_false, Option.map_map] at h
      simpa [Function.comp_def] using h
  · obtain ⟨r, s', hrun, hfz, hended⟩ := namex_walks true path hC hp hcwd hfree
    rw [Path.walk_true] at hended
    exact ⟨r, s', hrun, hfz, hended.returns hC hfz⟩
  · rintro a b rfl
    refine ⟨Path.elems_slashes, ?_⟩
    cases a <;> rfl
  · obtain ⟨c, l, rfl⟩ := exists_cons_of_ne_nil hne
    rfl

end Fs

namespace Image

open Fs

theorem nodes_of {s : Fs} {i : ℕ} {x : Dinode} (hn : s.store.sb.ninodes = 200) (hi : i < 200)
    (hx : s.store.dinode i = x) :
    s.nodes i = x.node s.store.disk := by
  rw [← hx]
  exact if_pos (by rwa [hn])

theorem lt_of_nodes {s : Fs} {i : ℕ} (hn : s.store.sb.ninodes = 200) (h : (s.nodes i).type ≠ 0) :
    i < 200 := by
  rw [← hn]
  exact lt_of_type_ne h

theorem root_targets : ∀ d ∈ [disk, orphanDisk], ∀ k < 3,
    (root.node d).target k = 1 ∨ (root.node d).target k = 2 := by decide +kernel

theorem calm : Calm ⟨0, 0, Image.fs.proc⟩ Image.fs := by
  have hn : Image.fs.store.sb.ninodes = 200 := congrArg Superblock.ninodes sb_eq
  have hroot : Image.fs.nodes 1 = root.node disk := nodes_of hn (by decide) (dinode_eq (by decide))
  have hfile : Image.fs.nodes 2 = file.node disk := nodes_of hn (by decide) (dinode_eq (by decide))
  have hcases : ∀ i, (Image.fs.nodes i).type ≠ 0 → i = 1 ∨ i = 2 := by
    intro i h
    have hi := lt_of_nodes hn h
    by_contra hne
    refine h ?_
    rw [nodes_of hn hi (dinode_eq hi), if_neg (by omega), if_neg (by omega)]
    rfl
  refine ⟨(boot_idle Image.bootable).wf, fun j ht hl => ?_, fun d hd k hk _ => ?_, ?_⟩
  · rcases hcases j ht with rfl | rfl
    · rw [hroot] at hl
      cases hl
    · rw [hfile] at hl
      cases hl
  · rcases hcases d (by rw [hd]; decide) with rfl | rfl
    · rw [hroot] at hk ⊢
      rcases root_targets disk (by simp) k hk with h | h <;> rw [h]
      · rw [hroot]
        exact (by decide : tDir ≠ 0)
      · rw [hfile]
        exact (by decide : tFile ≠ 0)
    · rw [hfile] at hd
      cases hd
  · show (Image.fs.nodes 1).type ≠ 0
    rw [hroot]
    exact (by decide : tDir ≠ 0)

end Image

namespace Fs

/-- A file in the root directory. -/
theorem namex_resolves_file :
    Path.resolve Image.fs.nodes (Image.fs.startInum 0 [slash, 102]) (Path.elems [slash, 102]) =
    some 2 ∧ ∃ r s', (namei 0 [slash, 102]).seq 0 (Image.fs, noLocks) = .ok r (s', noLocks) ∧
    Frozen Image.fs s' ∧
      Returns Image.fs s' (Path.resolve Image.fs.nodes (Image.fs.startInum 0 [slash, 102])
        (Path.elems [slash, 102])) r :=
  ⟨by decide +kernel, (namex_resolves (p := 0) Image.calm rfl ⟨_, 0, rfl, rfl⟩
    ⟨1, 2, by decide, by decide, by decide, rfl, rfl⟩ [slash, 102]).1⟩

end Fs

/-! ### A full inode cache -/

namespace Image

open Fs

theorem crowded_fileRefs (i : ℕ) : fileRefs crowded i = if 0 < i ∧ i < ninode then 1 else 0 := by
  have hmem : ∀ f, (crowded.ftable f).type = .inode ∧ (crowded.ftable f).ip = i ↔ f + 1 = i ∧
      f + 1 < ninode := by
    intro f
    by_cases hf : f + 1 < ninode <;> simp [crowded, hf]
  simp only [fileRefs, hmem]
  by_cases hi : 0 < i ∧ i < ninode
  · rw [if_pos hi, Finset.card_eq_one]
    refine ⟨i - 1, Finset.ext fun f => ?_⟩
    simp only [Finset.mem_filter, Finset.mem_range, Finset.mem_singleton, nfile, ninode] at hi ⊢
    omega
  · rw [if_neg hi, Finset.card_eq_zero, Finset.filter_eq_empty_iff]
    rintro f - ⟨rfl, hf⟩
    exact hi ⟨Nat.succ_pos f, hf⟩

theorem crowded_cwdRefs (i : ℕ) : cwdRefs crowded.proc i = if i = 0 then 4 else 0 := by
  have hmem : ∀ p, (crowded.proc p).bind Proc.cwd = some i ↔ p < 4 ∧ i = 0 := by
    intro p
    by_cases hp : p < 4 <;> simp [crowded, hp, eq_comm]
  simp only [cwdRefs, hmem]
  by_cases hi : i = 0
  · have hfour : (Finset.range nproc).filter (fun p => p < 4 ∧ i = 0) = Finset.range 4 := by
      refine Finset.ext fun p => ?_
      simp only [Finset.mem_filter, Finset.mem_range, nproc]
      omega
    rw [if_pos hi, hfour, Finset.card_range]
  · simp [hi]

theorem crowded_fdRefs (f : ℕ) : fdRefs crowded.proc f = if f + 1 < ninode then 1 else 0 := by
  have hmem : ∀ x : ℕ × ℕ, ((crowded.proc x.1).bind fun q => q.ofile x.2) = some f ↔
      x.1 < 4 ∧ x.2 < nofile ∧ f + 1 < ninode ∧ 16 * x.1 + x.2 = f := by
    intro x
    by_cases hp : x.1 <
      4 <;> simp only [crowded, hp, if_true, if_false, Option.bind_some, Option.bind_none]
    · split_ifs with h <;> simp <;> omega
    · simp
  simp only [fdRefs, hmem]
  by_cases hf : f + 1 < ninode
  · rw [if_pos hf, Finset.card_eq_one]
    refine ⟨(f / 16, f % 16), Finset.ext fun x => ?_⟩
    simp only [Finset.mem_filter, Finset.mem_product, Finset.mem_range, Finset.mem_singleton,
      Prod.ext_iff, nproc, nofile, ninode] at hf ⊢
    omega
  · rw [if_neg hf, Finset.card_eq_zero, Finset.filter_eq_empty_iff]
    rintro x - ⟨-, -, h, -⟩
    exact hf h

theorem crowded_slot {i : ℕ} (h : 0 < (crowded.icache i).ref) :
    i = 0 ∨ 0 < i ∧ i < ninode ∧ crowded.icache i = ⟨1, true, ⟨orphan, i + 2⟩⟩ := by
  simp only [crowded] at h ⊢
  by_cases h0 : i = 0
  · exact .inl h0
  rw [if_neg h0] at h ⊢
  split_ifs at h ⊢ with hi
  · exact .inr ⟨Nat.pos_of_ne_zero h0, hi, rfl⟩
  · exact absurd h (by decide)

theorem crowded_file {f : ℕ} (h : (crowded.ftable f).type ≠ .none) :
    f + 1 < ninode ∧ crowded.ftable f = ⟨.inode, 1, true, false, 0, f + 1, 0⟩ := by
  simp only [crowded] at h ⊢
  split_ifs at h ⊢ with hf
  · exact ⟨hf, rfl⟩
  · exact absurd rfl h

theorem crowded_proc {p : ℕ} {q : Proc} (h : crowded.proc p = some q) : p < 4 ∧
    q = ⟨some 0, fun fd => if fd < nofile ∧ 16 * p + fd + 1 < ninode then some (16 * p + fd)
      else none⟩ := by
  simp only [crowded] at h
  split_ifs at h with hp
  cases h
  exact ⟨hp, rfl⟩

theorem crowded_ninodes : crowded.store.sb.ninodes = 200 := congrArg Superblock.ninodes crowded_sb

theorem crowded_root : crowded.nodes 1 = root.node orphanDisk :=
  nodes_of crowded_ninodes (by decide) (crowded_dinode (by decide))

theorem crowded_named : crowded.nodes 2 = file.node orphanDisk :=
  nodes_of crowded_ninodes (by decide) (crowded_dinode (by decide))

theorem crowded_nodes {i : ℕ} (h : (crowded.nodes i).type ≠ 0) :
    i = 1 ∨ i = 2 ∨ 3 ≤ i ∧ i < 52 ∧ crowded.nodes i = orphan.node orphanDisk := by
  have hi := lt_of_nodes crowded_ninodes h
  have heq := nodes_of crowded_ninodes hi (crowded_dinode hi)
  by_cases h3 : 3 ≤ i ∧ i < 52
  · rw [if_neg (by omega), if_neg (by omega), if_pos h3] at heq
    exact .inr (.inr ⟨h3.1, h3.2, heq⟩)
  by_contra hne
  refine h ?_
  rw [heq, if_neg (by omega), if_neg (by omega), if_neg h3]
  rfl

theorem crowded_dir {i : ℕ} (h : (crowded.nodes i).type = tDir) : i = 1 := by
  rcases crowded_nodes (i := i) (by rw [h]; decide) with rfl | rfl | ⟨-, -, heq⟩
  · rfl
  · rw [crowded_named] at h
    cases h
  · rw [heq] at h
    cases h

theorem crowded_wf : Wf ⟨0, 0, crowded.proc⟩ crowded := by
  have hn := crowded_ninodes
  have hinum : ∀ i, 0 < (crowded.icache i).ref → (crowded.inode i).inum = if i =
      0 then 1 else i + 2 := by
    intro i hi
    rcases crowded_slot hi with rfl | ⟨h0, -, heq⟩
    · rfl
    · rw [inode, heq, if_neg (by omega)]
  have hlt : ∀ i, 0 < (crowded.icache i).ref → i < ninode := by
    intro i hi
    rcases crowded_slot hi with rfl | ⟨-, hlt, -⟩
    · decide
    · exact hlt
  refine ⟨crowded_ok, fun i hi => ?_, hlt, fun i hi => ?_, fun i j hi hj hij => ?_, fun i hi hv =>
    ?_, fun i => ?_, fun i hi => ?_, fun i hi => ?_, fun f hf => ?_, fun f => ?_, fun f hf => ?_,
    fun f hf => ?_, fun f hf hw => ?_, fun p q hq => ?_, fun p q fd f hq hf => ?_,
    pipes_none fun f => ?_⟩
  · rw [crowded_dir hi, hn, crowded_root]
    refine ⟨rfl, fun k hk => ?_⟩
    rcases root_targets orphanDisk (by simp) k hk with h | h <;> rw [h] <;> decide
  · have := hlt i hi
    rw [hinum i hi, hn]
    simp only [ninode] at this
    split_ifs <;> omega
  · rw [hinum i hi, hinum j hj] at hij
    split_ifs at hij <;> omega
  · rcases crowded_slot hi with rfl | ⟨h0, hi', heq⟩
    · cases hv
    have hlt200 : i + 2 < 200 := by simp only [ninode] at hi'; omega
    rw [inode, heq]
    refine ⟨by rwa [hn], ?_, (by decide : tFile ≠ 0)⟩
    rw [crowded_dinode hlt200, if_neg (by omega), if_neg (by omega),
      if_pos (by simp only [ninode] at hi'; omega)]
  · rw [crowded_fileRefs, crowded_cwdRefs]
    simp only [crowded]
    split_ifs <;> first | rfl | omega
  · rw [crowded_cwdRefs] at hi
    split_ifs at hi with h0
    · rw [h0]
      show (crowded.nodes 1).type ≠ 0
      rw [crowded_root]
      exact (by decide : tDir ≠ 0)
    · exact absurd hi (by decide)
  · rw [crowded_cwdRefs] at hi
    split_ifs at hi with h0
    · rw [h0]
      exact .inr rfl
    · exact absurd hi (by decide)
  · simp only [crowded] at hf
    split_ifs at hf with h
    · exact lt_trans (Nat.lt_of_succ_lt h) (by decide)
    · exact absurd hf (by decide)
  · rw [crowded_fdRefs]
    simp only [crowded]
    split_ifs <;> rfl
  · rw [(crowded_file hf).2]
    exact Nat.one_pos
  · obtain ⟨hlt, heq⟩ := crowded_file (hf.trans_ne (by decide))
    rw [heq]
    simp only [crowded]
    rw [if_neg (by omega), if_pos hlt]
  · rw [(crowded_file (hf.trans_ne (by decide))).2] at hw
    cases hw
  · exact lt_trans (crowded_proc hq).1 (by decide)
  · rw [(crowded_proc hq).2] at hf
    dsimp only at hf
    split_ifs at hf with h
    exact h.1
  · simp only [crowded]
    split_ifs <;> simp

theorem crowded_calm : Calm ⟨0, 0, crowded.proc⟩ crowded := by
  refine ⟨crowded_wf, fun j ht hl => ?_, fun d hd k hk _ => ?_, ?_⟩
  · -- the unlinked files are open
    rcases crowded_nodes ht with rfl | rfl | ⟨h3, h52, -⟩
    · rw [crowded_root] at hl
      cases hl
    · rw [crowded_named] at hl
      cases hl
    refine ⟨j - 2, ?_, ?_⟩
    · simp only [inode, crowded]
      rw [if_neg (by omega), if_pos (by simp only [ninode]; omega)]
      dsimp only
      omega
    · rw [crowded_fileRefs, if_pos (by simp only [ninode]; omega)]
      omega
  · rw [crowded_dir hd, crowded_root] at hk ⊢
    rcases root_targets orphanDisk (by simp) k hk with h | h <;> rw [h]
    · rw [crowded_root]
      exact (by decide : tDir ≠ 0)
    · rw [crowded_named]
      exact (by decide : tFile ≠ 0)
  · show (crowded.nodes 1).type ≠ 0
    rw [crowded_root]
    exact (by decide : tDir ≠ 0)

end Image

namespace Fs

/-- Without a free slot in the inode cache, `iget` panics. -/
theorem namei_cacheFull : Calm ⟨0, 0, Image.crowded.proc⟩ Image.crowded ∧
    Path.resolve Image.crowded.nodes (Image.crowded.startInum 0 [slash, 102])
    (Path.elems [slash, 102]) = some 2 ∧
    errorOf ((namei 0 [slash, 102]).seq 0 (Image.crowded, noLocks)) = some (.error .igetNoInodes) :=
  ⟨Image.crowded_calm, by decide +kernel, by decide +kernel⟩

end Fs

end Xv6
