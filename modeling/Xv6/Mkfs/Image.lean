import Xv6.Mkfs.Refine

/-!
# The image that `mkfs` writes

`Built fs s` says what the image holds when the files `fs` have been added: the root directory with
an entry for each of them, and the files with their contents.  `addFile` adds a file
(`addFile_spec`), whatever the pieces are in which its contents come.

At the end `fixRoot` rounds the size of the root directory up, to a whole number of blocks and at
least one byte: where the entries fill their last block, the size then covers a block that does not
exist. `rounded_wf_iff` says for which lists of files the image is well formed.
-/

namespace Xv6

open List Function

namespace Mkfs

variable {s s' : State} {fs : List HostFile} {f : HostFile} {es : List Bytes} {de : Bytes}

/-! ## The root directory -/

/-- The root directory has the entries `es`. -/
structure State.RootHas (s : State) (es : List Bytes) : Prop where
  type : (s.node rootino).type = tDir
  nlink : (s.node rootino).nlink = 1
  size : (s.node rootino).size = direntSize * es.length
  data : ∀ e d, es[e]? = some d → ∀ i < direntSize, (s.node rootino).data (direntSize * e + i) = d i

/-- The blocks of a file with `n` bytes, with the indirect one. -/
def need (n : ℕ) : ℕ := Store.nblk (blocksOf n)

theorem iappend_entry (h : s.Ok) (hr : s.RootHas es) (hmax : es.length < 200)
    (hroom : s.freeblock + need (direntSize * (es.length + 1)) ≤ fssize + need
      (direntSize * es.length)) :
    wp (iappend rootino de direntSize) (fun _ s' => s'.Ok ∧ s'.freeinode = s.freeinode ∧
      s'.freeblock + need (direntSize * es.length) =
      s.freeblock + need (direntSize * (es.length + 1)) ∧ s'.RootHas (es ++ [de]) ∧
      ∀ i, i ≠ rootino → s'.node i = s.node i) (fun _ _ => False) s := by
  have hsize := hr.size
  have hmul : direntSize * (es.length + 1) = (s.node rootino).size + direntSize := by
    rw [hsize, mul_add, mul_one]
  rw [hmul, ← hsize] at hroom
  have hspec := iappend_spec de h (by decide : rootino < ninodes) (by rw [hr.type]; decide)
    (by rw [hr.type]; decide) (by decide : 0 < direntSize) (by decide)
    (by rw [hsize]; simp only [direntSize, maxfile, bsize]; omega) hroom
  refine wp_post hspec fun _ s' ⟨hok, hino, hfb, hn⟩ => ⟨hok, hino, ?_, ?_, fun i hi => ?_⟩
  · rw [hmul, ← hsize]
    exact hfb
  · have hroot : s'.node rootino = _ := (congrFun hn rootino).trans (update_self _ _ _)
    refine ⟨by rw [hroot]; exact hr.type, by rw [hroot]; exact hr.nlink, ?_, fun e d he i hi => ?_⟩
    · rw [hroot, length_append, length_singleton, hmul]
      exact max_eq_right (Nat.le_add_right _ _)
    rw [hroot]
    show Bytes.copy _ (s.node rootino).size direntSize de (direntSize * e + i) = _
    rcases lt_trichotomy e es.length with hlt | rfl | hgt
    · rw [List.getElem?_append_left hlt] at he
      have := Nat.mul_le_mul_left direntSize (Nat.succ_le_of_lt hlt)
      rw [Nat.mul_succ] at this
      rw [Bytes.copy_of_not_mem (by rw [hsize]; omega)]
      exact hr.data e d he i hi
    · rw [List.getElem?_append_right le_rfl, Nat.sub_self, List.getElem?_cons_zero] at he
      cases he
      rw [hsize, Bytes.copy_of_mem (by omega) (by omega), Nat.add_sub_cancel_left]
    · rw [List.getElem?_eq_none (by simp; omega)] at he
      cases he
  · rw [hn, update_of_ne hi]

/-! ## A file -/

theorem map_range_bytes (l : List UInt8) : (List.range l.length).map (Name.bytes l) = l := by
  refine ext_getElem (by simp) fun i h1 h2 => ?_
  rw [getElem_map, getElem_range, Name.bytes, getD_eq_getElem?_getD, List.getElem?_eq_getElem h2]
  rfl

theorem length_content (x : Node) : x.content.length = x.size := by simp [Node.content]

/-- **Adding the contents of a file, piece by piece.** -/
theorem pieces_spec {i : ℕ} (h : s.Ok) (hi : i < ninodes)
    (hx : s.node i = ⟨tFile, 0, 0, 1, 0, Bytes.zero⟩) (hp : ∀ b ∈ f.pieces, b ≠ [] ∧
      b.length ≤ bsize) (hmax : f.bytes.length ≤ maxfile * bsize)
    (hroom : s.freeblock + need f.bytes.length ≤ fssize) :
    wp (f.pieces.forM fun buf => iappend i (Name.bytes buf) buf.length) (fun _ s' => s'.Ok ∧
      s'.freeinode = s.freeinode ∧ s'.freeblock = s.freeblock + need f.bytes.length ∧
      (s'.node i).type = tFile ∧ (s'.node i).nlink = 1 ∧ (s'.node i).content = f.bytes ∧
      ∀ j, j ≠ i → s'.node j = s.node j) (fun _ _ => False) s := by
  refine wp_forM (fun l (s' : State) => s'.Ok ∧ s'.freeinode = s.freeinode ∧
    s'.freeblock = s.freeblock + need l.flatten.length ∧ (s'.node i).type = tFile ∧
    (s'.node i).nlink = 1 ∧ (s'.node i).content = l.flatten ∧ ∀ j, j ≠ i → s'.node j = s.node j) ?_
    fun l₁ b l₂ s₁ hl hI => ?_
  · refine ⟨h, rfl, rfl, by rw [hx], by rw [hx], ?_, fun _ _ => rfl⟩
    rw [hx]
    rfl
  obtain ⟨hok, hino, hfb, htype, hnlink, hcont, hother⟩ := hI
  obtain ⟨hb, hb'⟩ := hp b (by rw [hl]; simp)
  have hsize : (s₁.node i).size = l₁.flatten.length := by rw [← length_content, hcont]
  have hlen : f.bytes.length = l₁.flatten.length + b.length + l₂.flatten.length := by
    rw [HostFile.bytes, hl]
    simp
    omega
  have hmono : need (l₁.flatten.length + b.length) ≤ need f.bytes.length := by
    refine Store.nblk_mono ?_
    rw [hlen]
    simp only [blocksOf, bsize]
    omega
  have hspec := iappend_spec (Name.bytes b) hok hi (by rw [htype]; decide) (by rw [htype]; decide)
    (length_pos_iff.2 hb) hb' (by rw [hsize]; omega) (by
      rw [hsize]
      show _ + need _ ≤ _ + need _
      omega)
  refine wp_post hspec fun _ s' hres => ?_
  obtain ⟨hok', hino', hfb', hn⟩ := hres
  have hself : s'.node i = _ := (congrFun hn i).trans (update_self _ _ _)
  rw [hsize] at hfb'
  have hflat : (l₁ ++ [b]).flatten = l₁.flatten ++ b := by simp
  refine ⟨hok', hino'.trans hino, ?_, by rwa [hself], by rwa [hself], ?_, fun j hj => ?_⟩
  · rw [hflat, length_append]
    have : s'.freeblock + need l₁.flatten.length =
      s₁.freeblock + need (l₁.flatten.length + b.length) := hfb'
    omega
  · rw [hself, Node.content_write le_rfl, hcont, hsize, take_length, map_range_bytes, hflat,
      drop_eq_nil_of_le (by omega), append_nil]
  · rw [hn, update_of_ne hj, hother j hj]

/-! ## The main loop -/

/-- The entry for a file. -/
def HostFile.entry (inum : ℕ) (f : HostFile) : Bytes :=
  Bytes.dirent inum (strncpy dirsiz f.target.bytes)

/-- The entries of the root directory. -/
def entries (fs : List HostFile) : List Bytes :=
  [Bytes.dirent rootino (Name.bytes dot), Bytes.dirent rootino (Name.bytes dotdot)] ++
    fs.mapIdx fun k f => f.entry (k + 2)

theorem length_entries : (entries fs).length = fs.length + 2 := by
  simp [entries]

theorem entries_append : entries (fs ++ [f]) = entries fs ++ [f.entry (fs.length + 2)] := by
  simp [entries, mapIdx_append]

/-- The files `fs` have been added. -/
structure Built (fs : List HostFile) (s : State) : Prop extends s.Ok where
  freeinode : s.freeinode = fs.length + 2
  freeblock : s.freeblock =
    nmeta + need (direntSize * (fs.length + 2)) + (fs.map fun f => need f.bytes.length).sum
  root : s.RootHas (entries fs)
  file : ∀ k f, fs[k]? = some f →
    (s.node (k + 2)).type = tFile ∧ (s.node (k + 2)).nlink = 1 ∧ (s.node (k + 2)).content = f.bytes
  unused : ∀ i, i = 0 ∨ fs.length + 2 ≤ i → (s.node i).type = 0

/-- A file that `mkfs` can add. -/
structure HostFile.Ok (f : HostFile) : Prop where
  slash : slash ∉ f.name
  pieces : ∀ b ∈ f.pieces, b ≠ [] ∧ b.length ≤ bsize
  size : f.bytes.length ≤ maxfile * bsize

/-- The blocks used by the files. -/
def used (fs : List HostFile) : ℕ :=
  nmeta + need (direntSize * (fs.length + 2)) + (fs.map fun f => need f.bytes.length).sum

theorem need_mono {m n : ℕ} (h : m ≤ n) : need m ≤ need n :=
  Store.nblk_mono (by simp only [blocksOf, bsize]; omega)

theorem addFile_spec (h : Built fs s) (hf : f.Ok) (hn : fs.length + 2 < ninodes)
    (hu : used (fs ++ [f]) ≤ fssize) :
    wp (addFile rootino f) (fun _ s' => Built (fs ++ [f]) s') (fun _ _ => False) s := by
  have hused : used (fs ++ [f]) = nmeta + need (direntSize * (fs.length + 2 + 1)) +
      ((fs.map fun f => need f.bytes.length).sum + need f.bytes.length) := by
    simp [used, add_right_comm]
  have hlen : (entries fs).length = fs.length + 2 := length_entries
  have hmono : need (direntSize * (fs.length + 2)) ≤ need (direntSize * (fs.length + 2 + 1)) :=
    need_mono (Nat.mul_le_mul_left _ (Nat.le_succ _))
  have hroot : ∀ k, rootino ≠ k + 2 := fun k => by simp only [rootino]; omega
  have hfb := h.freeblock
  rw [addFile, if_neg hf.slash]
  simp only [wp_bind]
  -- the inode
  refine wp_post
    (ialloc_spec h.toOk (by rwa [h.freeinode]) (h.unused _ (.inr (by rw [h.freeinode])))
      (by decide) (by decide)) fun i s₁ hres => ?_
  obtain ⟨hi, hok1, hino1, hfb1, hn1⟩ := hres
  rw [h.freeinode] at hi hino1
  subst hi
  have hne : ∀ j, j ≠ fs.length + 2 → s₁.node j = s.node j := fun j hj => by
    rw [hn1, update_of_ne hj]
  have hroot1 : s₁.RootHas (entries fs) := by
    have := hne rootino (hroot _)
    exact ⟨by rw [this]; exact h.root.type, by rw [this]; exact h.root.nlink, by
      rw [this]; exact h.root.size, by rw [this]; exact h.root.data⟩
  -- the entry
  refine wp_post (iappend_entry hok1 hroot1 (by rwa [hlen]) (by rw [hlen]; omega))
    fun _ s₂ hres => ?_
  obtain ⟨hok2, hino2, hfb2, hroot2, hother2⟩ := hres
  rw [hlen] at hfb2
  have hx : s₂.node (fs.length + 2) = ⟨tFile, 0, 0, 1, 0, Bytes.zero⟩ := by
    rw [hother2 _ (hroot _).symm, hn1, update_self]
  -- the contents
  refine wp_post (pieces_spec hok2 hn hx hf.pieces hf.size (by omega)) fun _ s₃ hres => ?_
  obtain ⟨hok3, hino3, hfb3, htype, hnlink, hcont, hother3⟩ := hres
  have hroot3 := hother3 rootino (hroot _)
  refine ⟨hok3, ?_, ?_, ?_, fun k g hg => ?_, fun i hi => ?_⟩
  · rw [hino3, hino2, hino1, length_append, length_singleton]
  · rw [length_append, map_append, sum_append]
    simp only [length_singleton, map_cons, map_nil, sum_cons, sum_nil]
    rw [add_right_comm fs.length 1 2]
    omega
  · rw [entries_append]
    exact ⟨by rw [hroot3]; exact hroot2.type, by rw [hroot3]; exact hroot2.nlink, by
      rw [hroot3]; exact hroot2.size, by rw [hroot3]; exact hroot2.data⟩
  · rcases lt_trichotomy k fs.length with hlt | rfl | hgt
    · rw [List.getElem?_append_left hlt] at hg
      rw [hother3 _ (by omega), hother2 _ (hroot _).symm, hne _ (by omega)]
      exact h.file k g hg
    · rw [List.getElem?_append_right le_rfl, Nat.sub_self, List.getElem?_cons_zero] at hg
      cases hg
      exact ⟨htype, hnlink, hcont⟩
    · rw [List.getElem?_eq_none (by simp; omega)] at hg
      cases hg
  · rw [length_append, length_singleton] at hi
    rw [hother3 _ (by omega), hother2 _ (by simp only [rootino]; omega), hne _ (by omega)]
    exact h.unused i (by omega)

/-! ## The start -/

/-- The image with its super block only. -/
def blank : State := ⟨upd init.disk 1 (Image.sbBytes sb), 1, nmeta⟩

theorem blank_dinode {i : ℕ} (hi : i < ninodes) : blank.view.dinode i = .zero := by
  have hlt := iblock_lt hi
  have hle : 32 ≤ sb.iblock i := Nat.le_add_left _ _
  have hd : blank.view.disk (sb.iblock i) = Bytes.zero := by
    show (if sb.iblock i = 58 then bitmap blank.freeblock else upd init.disk 1 (Image.sbBytes sb)
      (sb.iblock i)) = _
    rw [if_neg (by omega), upd, if_neg (by omega)]
    rfl
  show Dinode.get (blank.view.disk (sb.iblock i)) _ = _
  rw [hd, Image.get_zero]

theorem blank_ok : blank.Ok := by
  have hfresh : blank.Fresh := by
    refine ⟨le_rfl, by decide, fun b hb => ?_⟩
    have hb' : 59 ≤ b := hb
    exact if_neg (by omega)
  have hptrs : ∀ x, blank.view.ptrs blank.view.dinode x = 0 := by
    rintro ⟨i, k⟩
    unfold Store.ptrs
    split_ifs with h
    · exact absurd (by rw [blank_dinode h.1]; rfl) h.2
    · rfl
  refine ⟨hfresh,
    ⟨⟨by decide, by decide, by decide, by decide, by decide, by decide, by decide, by decide⟩, by
    decide⟩, ⟨fun x hx => absurd (hptrs x) hx, fun x hx => absurd (hptrs x) hx, fun x hx =>
    absurd (hptrs x) hx,
      fun x _ hx => absurd (hptrs x) hx, fun b hb => ?_, fun b hb hub => .inl ?_⟩,
      fun i hi ht => ?_⟩
  · rw [hfresh.shows.bit (lt_trans hb (by decide))]
    exact decide_eq_true hb
  · rw [hfresh.shows.bit hb] at hub
    exact of_decide_eq_true hub
  · exact absurd (by rw [blank_dinode hi]; rfl) ht

theorem blank_node (i : ℕ) : (blank.node i).type = 0 := by
  by_cases hi : i < ninodes
  · rw [node_type hi, blank_dinode hi]
    rfl
  · rw [State.node, Store.nodes, Store.nodesOf, if_neg (show ¬ i < blank.view.sb.ninodes from hi)]
    rfl

theorem root_spec {k : ℕ → MkfsM Unit} {E : Halt → State → Prop} {Q : Unit → State → Prop}
    (hk : ∀ s, Built [] s → wp (k rootino) Q E s) :
    wp (do
      let root ← ialloc tDir
      if root ≠ rootino then throw .rootino
      iappend root (Bytes.dirent root (Name.bytes dot)) direntSize
      iappend root (Bytes.dirent root (Name.bytes dotdot)) direntSize
      k root) Q E blank := by
  simp only [wp_bind]
  refine wp_total (ialloc_spec blank_ok (by decide) (blank_node _) (by decide) (by decide))
    fun i s₁ hres => ?_
  obtain ⟨hi, hok1, hino1, hfb1, hn1⟩ := hres
  obtain rfl : i = rootino := hi
  have hroot1 : s₁.node rootino = _ := (congrFun hn1 rootino).trans (update_self _ _ _)
  have hhas1 : s₁.RootHas [] := ⟨by rw [hroot1], by rw [hroot1], by rw [hroot1]; rfl, by simp⟩
  have hfb1' : s₁.freeblock = 59 := hfb1
  rw [if_neg (by simp), wp_bind]
  refine wp_total (iappend_entry hok1 hhas1 (by decide) (by rw [hfb1']; decide)) fun _ s₂ hres => ?_
  obtain ⟨hok2, hino2, hfb2, hhas2, hother2⟩ := hres
  rw [wp_bind]
  have hfb2' : s₂.freeblock = 60 := by
    rw [hfb1'] at hfb2
    exact hfb2
  refine wp_total (iappend_entry hok2 hhas2 (by decide) (by rw [hfb2']; decide))
    fun _ s₃ hres => hk s₃ ?_
  obtain ⟨hok3, hino3, hfb3, hhas3, hother3⟩ := hres
  refine ⟨hok3, by rw [hino3, hino2, hino1]; rfl, ?_, hhas3, by simp, fun i hi => ?_⟩
  · rw [hfb2'] at hfb3
    exact Nat.add_right_cancel (show s₃.freeblock + 1 = 60 + 1 from hfb3)
  · have hne : i ≠ rootino := by simp only [rootino, length_nil] at hi ⊢; omega
    rw [hother3 i hne, hother2 i hne, hn1, update_of_ne hne]
    exact blank_node i

/-- The list of files fits the image. -/
structure Fits (fs : List HostFile) : Prop where
  count : fs.length ≤ ninodes - 2
  file : ∀ f ∈ fs, f.Ok
  blocks : used fs ≤ fssize

theorem used_mono {l : List HostFile} : used fs ≤ used (fs ++ l) := by
  have := need_mono
    (Nat.mul_le_mul_left direntSize (show fs.length + 2 ≤ fs.length + l.length + 2 by omega))
  simp only [used, length_append, map_append, sum_append]
  omega

/-- The root directory with its size rounded up. -/
def Dinode.rounded (x : Dinode) : Dinode := { x with size := (x.size / bsize + 1) * bsize }

/-- The image after `fixRoot`. -/
def State.rounded (s : State) : State :=
  { s with
    disk := upd s.disk (sb.iblock rootino)
      ((Dinode.rounded (s.view.dinode rootino)).put (s.disk (sb.iblock rootino))
        (dinodeSize * (rootino % ipb))) }

theorem zero_ok (n : ℕ) : (List.range n).forM (fun i => wsect i Bytes.zero) init = .ok () init := by
  have hw : wp ((List.range n).forM fun i => wsect i Bytes.zero) (fun _ s' => s' = init)
      (fun _ _ => False) init := by
    refine wp_forM (fun _ (s' : State) => s' = init) rfl fun _ i _ s _ hs => ?_
    subst hs
    show ({ init with disk := upd init.disk i Bytes.zero } : State) = init
    have : upd init.disk i Bytes.zero = init.disk := by
      funext b
      unfold upd
      split_ifs <;> rfl
    rw [this]
  obtain ⟨_, s', hs', rfl⟩ := hw.exists_ok
  exact hs'

theorem exists_ok_unit {x : MkfsM Unit} {Q : State → Prop}
    (h : wp x (fun _ s' => Q s') (fun _ _ => False) s) :
    ∃ s', x s = .ok () s' ∧ Q s' := by
  obtain ⟨_, s', hs', hQ⟩ := h.exists_ok
  exact ⟨s', hs', hQ⟩

theorem main_ok (h : Fits fs) : ∃ s', main fs init = .ok () s' ∧
    ∃ s, Built fs s ∧ s'.disk = s.rounded.shown ∧ s'.freeblock = s.freeblock := by
  have hloop : ∀ s, Built [] s → wp (fs.forM (addFile rootino)) (fun _ s' => Built fs s')
      (fun _ _ => False) s := by
    intro s hs
    refine wp_forM (fun l s' => Built l s') hs fun l₁ f l₂ s₁ hl hb => ?_
    have hl' : fs = l₁ ++ [f] ++ l₂ := by rw [hl, append_cons]
    have hle : used (l₁ ++ [f]) ≤ used fs := by
      rw [hl']
      exact used_mono
    refine addFile_spec hb (h.file f (by rw [hl]; simp)) ?_ (hle.trans h.blocks)
    have := h.count
    rw [hl, length_append, length_cons] at this
    simp only [ninodes] at this ⊢
    omega
  rw [main, bind_ok (zero_ok _), bind_ok (show wsect 1 _ init = .ok () blank from rfl)]
  refine exists_ok_unit (root_spec fun s hs => ?_)
  refine wp_seq (hloop s hs) fun _ s₁ hb => ?_
  have hlt : 58 < s₁.freeblock := hb.le
  have hle : s₁.freeblock ≤ 1000 := hb.le_size
  have hfix : fixRoot rootino s₁ = .ok () s₁.rounded := by
    rw [fixRoot, bind_ok (rinode_ok hb.shows (by decide)), winode, bind_ok (rsect_ok (by decide))]
    rfl
  have hend : (fixRoot rootino >>= fun _ => get >>= fun s => balloc s.freeblock) s₁ =
      .ok () { s₁.rounded with
        disk := upd s₁.rounded.disk sb.bmapstart (bitmap s₁.freeblock) } := by
    rw [bind_ok hfix]
    show balloc s₁.freeblock s₁.rounded = _
    rw [balloc, if_neg (show ¬ bsize * 8 ≤ s₁.freeblock by simp only [bsize]; omega)]
    rfl
  exact wp_of_ok hend ⟨s₁, hb, funext fun _ => rfl, rfl⟩

/-! ## The image -/

/-- The image as the kernel reads it. -/
def image (disk : Disk) : Store := (Fs.boot disk (fun _ => none) fun _ => none).store

/-- Every block of a file below its size exists; no two pointers are the same, and they lie between
the metadata and `freeblock`; the free map has the blocks below `freeblock`. -/
structure WellFormed (st : Store) (freeblock : ℕ) : Prop where
  blocks : ∀ i < st.sb.ninodes, (st.dinode i).type ≠ 0 → ∀ bn < blocksOf (st.dinode i).size,
    (st.dinode i).ptr st.disk (Dinode.pos bn) ≠ 0
  distinct : ∀ x y, st.ptrs st.dinode x ≠ 0 → st.ptrs st.dinode x = st.ptrs st.dinode y → x = y
  range : ∀ x, st.ptrs st.dinode x ≠ 0 → st.sb.nmeta ≤ st.ptrs st.dinode x ∧
    st.ptrs st.dinode x < freeblock
  bitmap : ∀ b < bpb, st.bit b = decide (b < freeblock)

/-- The root directory is written back with its new size. -/
theorem rounded_puts (h : s.Ok) (hsize : (s.view.dinode rootino).size < 2 ^ 16) :
    ∃ st, Shows s.rounded st ∧
    Store.Puts s.view ⟨Dinode.rounded (s.view.dinode rootino), rootino⟩ st := by
  have hlt : sb.iblock rootino < 58 := iblock_lt (by decide)
  have hle : 59 ≤ s.freeblock := h.le
  have hok : (s.view.dinode rootino).Ok := Dinode.get_ok
  have hx : (Dinode.rounded (s.view.dinode rootino)).Ok := by
    refine ⟨hok.type_lt, hok.major_lt, hok.minor_lt, hok.nlink_lt, ?_, hok.addrs_lt, hok.addrs_out⟩
    show ((s.view.dinode rootino).size / bsize + 1) * bsize < 2 ^ 32
    simp only [bsize]
    omega
  refine ⟨s.view.write (sb.iblock rootino) _, h.shows.write (by omega) (by omega), ?_⟩
  rw [← h.shows.disk_eq (show sb.iblock rootino ≠ 58 by omega)]
  exact @Store.puts_write s.view ⟨Dinode.rounded (s.view.dinode rootino), rootino⟩ h.ok.toFormatted
    (by decide : rootino < ninodes) hx

theorem rounded_ptrs {st : Store} (h : s.Ok)
    (hp : Store.Puts s.view ⟨Dinode.rounded (s.view.dinode rootino), rootino⟩ st) :
    (∀ i < ninodes, (s.view.dinode i).type ≠ 0 → ∀ k,
      (st.dinode i).ptr st.disk k = (s.view.dinode i).ptr s.view.disk k) ∧
    ∀ x, st.ptrs st.dinode x = s.view.ptrs s.view.dinode x := by
  have hdin : ∀ i < ninodes, (st.dinode i).addrs = (s.view.dinode i).addrs ∧
      (st.dinode i).type = (s.view.dinode i).type := by
    intro i hi
    rw [hp.dinode i hi, Store.overlay]
    split_ifs with he
    · rw [show i = rootino from he]
      exact ⟨rfl, rfl⟩
    · exact ⟨rfl, rfl⟩
  have hptr : ∀ i < ninodes, (s.view.dinode i).type ≠ 0 → ∀ k,
      (st.dinode i).ptr st.disk k = (s.view.dinode i).ptr s.view.disk k := by
    intro i hi ht k
    have hself : (st.dinode i).ptr st.disk k = (s.view.dinode i).ptr st.disk k := by
      simp only [Dinode.ptr, (hdin i hi).1]
    rw [hself]
    refine Dinode.ptr_congr fun h0 => hp.disk _ ?_
    have hlive := @Store.ptrs_of_live s.view i ndirect s.view.dinode hi ht
    rw [Dinode.ptr_of_le le_rfl] at hlive
    rw [← hlive] at h0 ⊢
    exact h.ok.owns.le_ptr _ h0
  refine ⟨hptr, fun hres => ?_⟩
  obtain ⟨i, k⟩ := hres
  unfold Store.ptrs
  rw [show st.sb = s.view.sb from hp.sb]
  by_cases hi : i < s.view.sb.ninodes
  · by_cases ht : (s.view.dinode i).type = 0
    · rw [if_neg (by simp [ht, (hdin i hi).2]), if_neg (by simp [ht])]
    · rw [if_pos ⟨hi, by rwa [(hdin i hi).2]⟩, if_pos ⟨hi, ht⟩]
      exact hptr i hi ht k
  · rw [if_neg fun h => hi h.1, if_neg fun h => hi h.1]

theorem RootHas.dinode (hr : s.RootHas es) : (s.view.dinode rootino).type = tDir ∧
    (s.view.dinode rootino).size = direntSize * es.length := by
  have ht : (s.view.dinode rootino).type = tDir := (node_type (by decide)).symm.trans hr.type
  have hc : s.view.Copy ⟨s.view.dinode rootino, rootino⟩ :=
    ⟨(by decide : rootino < ninodes), rfl, by rw [ht]; decide⟩
  refine ⟨ht, ?_⟩
  rw [← hr.size]
  exact (congrArg Node.size hc.node_eq).symm

theorem WellFormed.congr {st st' : Store} {n : ℕ} (hsb : st'.sb = st.sb) (hd : st'.disk = st.disk) :
    WellFormed st' n ↔ WellFormed st n := by
  obtain ⟨_, _, _, _, _, _, _⟩ := st
  obtain ⟨_, _, _, _, _, _, _⟩ := st'
  simp only at hsb hd
  subst hsb hd
  exact ⟨fun h => ⟨h.blocks, h.distinct, h.range, h.bitmap⟩, fun h =>
    ⟨h.blocks, h.distinct, h.range, h.bitmap⟩⟩

theorem rounded_wf_iff (hb : Built fs s) (hn : fs.length ≤ 198) :
    WellFormed (image s.rounded.shown) s.freeblock ↔ (fs.length + 2) % 32 ≠ 0 := by
  obtain ⟨hrt, hrs⟩ := RootHas.dinode hb.root
  rw [length_entries] at hrs
  obtain ⟨st, hshow, hp⟩ := rounded_puts hb.toOk (by rw [hrs]; simp only [direntSize]; omega)
  obtain ⟨hptr, hptrs⟩ := rounded_ptrs hb.toOk hp
  have hsb : (image s.rounded.shown).sb = st.sb := by
    rw [← hp.formatted.sb_eq, hshow.disk]
    rfl
  rw [WellFormed.congr hsb hshow.disk.symm]
  have hown := hb.ok.owns
  have hroot : (s.view.dinode rootino).type ≠ 0 := by rw [hrt]; decide
  have hshape := hb.ok.shaped rootino (by decide : rootino < ninodes) hroot
  have hdin : st.dinode rootino = Dinode.rounded (s.view.dinode rootino) := by
    rw [hp.dinode rootino (by decide : rootino < ninodes)]
    exact if_pos rfl
  have hblocks : blocksOf (st.dinode rootino).size = direntSize * (fs.length + 2) / bsize + 1 := by
    rw [hdin]
    show blocksOf (((s.view.dinode rootino).size / bsize + 1) * bsize) = _
    rw [hrs]
    simp only [blocksOf, bsize, direntSize]
    omega
  constructor
  · intro hw hmod
    -- the entries fill their blocks: the block after them does not exist
    have hne := hw.blocks rootino (by rw [hp.sb]; exact (by decide : rootino < ninodes))
      (by rwa [hdin]) (direntSize * (fs.length + 2) / bsize) (by rw [hblocks]; omega)
    rw [hptr rootino (by decide) hroot,
      hshape.block_iff _ (by simp only [direntSize, bsize, maxfile]; omega), hrs] at hne
    simp only [blocksOf, direntSize, bsize] at hne
    omega
  intro hmod
  refine ⟨fun i hi ht bn hbn => ?_, fun x y hx hxy => ?_, fun x hx => ?_, fun b hbb => ?_⟩
  · rw [hp.sb] at hi
    by_cases hir : i = rootino
    · subst hir
      rw [hblocks] at hbn
      rw [hptr rootino hi hroot,
        hshape.block_iff _ (by simp only [direntSize, bsize, maxfile] at hbn ⊢; omega), hrs]
      simp only [blocksOf, direntSize, bsize] at hbn ⊢
      omega
    have hdi : st.dinode i = s.view.dinode i := (hp.dinode i hi).trans (if_neg hir)
    rw [hdi] at ht hbn
    have hsh := hb.ok.shaped i hi ht
    have hle := hsh.le
    rw [hptr i hi ht, hsh.block_iff bn (by omega)]
    exact hbn
  · rw [hptrs] at hx hxy
    rw [hptrs] at hxy
    exact hown.inj x y hx hxy
  · rw [hptrs] at hx ⊢
    have hu := hown.used_ptr x hx
    rw [hb.shows.bit (hown.ptr_lt x hx)] at hu
    rw [hp.sb]
    exact ⟨hown.le_ptr x hx, of_decide_eq_true hu⟩
  · have hblk : st.sb.bblock b = sb.bmapstart := by
      rw [hp.sb, Superblock.bblock, Nat.div_eq_of_lt hbb, zero_add]
      rfl
    rw [Store.bit, hblk, hshow.disk, Nat.mod_eq_of_lt hbb]
    exact bit_bitmap b

/-- **The images of `mkfs`.**  For every list of files that fits, `mkfs` ends, and the image is well
formed iff the entries of the root directory do not fill their last block. -/
theorem mkfs_wf_iff (h : Fits fs) : ∃ s, main fs init = .ok () s ∧
    (WellFormed (image s.disk) s.freeblock ↔ (fs.length + 2) % 32 ≠ 0) := by
  obtain ⟨s', hs', s, hb, hdisk, hfree⟩ := main_ok h
  refine ⟨s', hs', ?_⟩
  rw [hdisk, hfree]
  exact rounded_wf_iff hb h.count

/-- A list of empty files. -/
def emptyFiles (n : ℕ) : List HostFile := (List.range n).map fun k => ⟨[97 + UInt8.ofNat k], []⟩

theorem emptyFile_ok {n : ℕ} (hn : n ≤ 30) : ∀ f ∈ emptyFiles n, f.Ok := by
  intro f hf
  obtain ⟨k, hk, rfl⟩ := mem_map.1 hf
  have hslash : ∀ k < 30, slash ∉ [97 + UInt8.ofNat k] := by decide
  exact ⟨hslash k (by have := mem_range.1 hk; omega), nofun, zero_le⟩

theorem mkfs_wf_one : ∃ s, main (emptyFiles 1) init = .ok () s ∧
    WellFormed (image s.disk) s.freeblock := by
  have hfits : Fits (emptyFiles 1) := ⟨by decide, emptyFile_ok (by decide), by decide⟩
  obtain ⟨s, hs, hw⟩ := mkfs_wf_iff hfits
  exact ⟨s, hs, hw.2 (by decide)⟩

/-- With thirty files the root directory has 32 entries in one block, and its size is that of
two. -/
theorem mkfs_thirty_not_wf : ∃ s, main (emptyFiles 30) init = .ok () s ∧
    ¬ WellFormed (image s.disk) s.freeblock := by
  have hfits : Fits (emptyFiles 30) := ⟨by decide, emptyFile_ok le_rfl, by decide⟩
  obtain ⟨s', hs', s, hb, hdisk, hfree⟩ := main_ok hfits
  refine ⟨s', hs', ?_⟩
  rw [hdisk, hfree, rounded_wf_iff hb (by decide)]
  decide

end Mkfs

end Xv6
