import Mathlib.Algebra.BigOperators.Group.Finset.Piecewise
import Mathlib.Algebra.BigOperators.Group.Finset.Sigma
import Xv6.Fs.Steps

/-!
# The tables of files and processes

A call moves references: from its hand to a file or a current directory, from the files it holds to
a descriptor, and back.  `Wf.setFile` is for the table of files, `Wf.move` for the descriptors and
current directories of a process; the rest of the file are the functions that do this.
-/

namespace Xv6

namespace Fs

variable {p i f c : ℕ} {x x' : Held} {s s' : Fs} {y : File} {q q' : Option Proc}
  {proc : ℕ → Option Proc}

/-! ### Counting -/

theorem sum_upd {γ : Type} {n k : ℕ} (hk : k < n) (g : γ → ℕ) (t : ℕ → γ) (v : γ) :
    ∑ j ∈ Finset.range n, g (upd t k v j) + g (t k) = ∑ j ∈ Finset.range n, g (t j) + g v := by
  have hmem : k ∈ Finset.range n := Finset.mem_range.2 hk
  have hne : ∑ j ∈ (Finset.range n).erase k, g (upd t k v j) =
      ∑ j ∈ (Finset.range n).erase k, g (t j) :=
    Finset.sum_congr rfl fun j hj => by rw [upd, if_neg (Finset.ne_of_mem_erase hj)]
  have hself : upd t k v k = v := if_pos rfl
  rw [← Finset.add_sum_erase _ _ hmem, ← Finset.add_sum_erase _ (fun j => g (t j)) hmem, hne, hself]
  omega

/-- Does the file count as a reference to slot `i`? -/
def File.refs (i : ℕ) (y : File) : ℕ := if y.type = .inode ∧ y.ip = i then 1 else 0

/-- Does the process count as a reference to slot `i`? -/
def cwdOf (i : ℕ) (q : Option Proc) : ℕ := if q.bind Proc.cwd = some i then 1 else 0

/-- The descriptors of the process for file `f`. -/
def fdsOf (f : ℕ) (q : Option Proc) : ℕ :=
  ((Finset.range nofile).filter fun fd => (q.bind fun q => q.ofile fd) = some f).card

theorem fileRefs_eq : fileRefs s i = ∑ f ∈ Finset.range nfile, File.refs i (s.ftable f) := by
  rw [fileRefs, Finset.card_filter]
  rfl

theorem cwdRefs_eq : cwdRefs proc i = ∑ p ∈ Finset.range nproc, cwdOf i (proc p) := by
  rw [cwdRefs, Finset.card_filter]
  rfl

theorem fdRefs_eq : fdRefs proc f = ∑ p ∈ Finset.range nproc, fdsOf f (proc p) := by
  rw [fdRefs, Finset.card_filter, Finset.sum_product]
  refine Finset.sum_congr rfl fun p _ => ?_
  rw [fdsOf, Finset.card_filter]

theorem fileRefs_setFile (hf : f < nfile) :
    fileRefs (s.setFile f y) i + File.refs i (s.ftable f) = fileRefs s i + File.refs i y := by
  rw [fileRefs_eq, fileRefs_eq]
  exact sum_upd hf _ _ _

theorem cwdRefs_upd (hp : p < nproc) :
    cwdRefs (upd proc p q) i + cwdOf i (proc p) = cwdRefs proc i + cwdOf i q := by
  rw [cwdRefs_eq, cwdRefs_eq]
  exact sum_upd hp _ _ _

theorem fdRefs_upd (hp : p < nproc) :
    fdRefs (upd proc p q) f + fdsOf f (proc p) = fdRefs proc f + fdsOf f q := by
  rw [fdRefs_eq, fdRefs_eq]
  exact sum_upd hp _ _ _

theorem cwdRefs_pos (hp : p < nproc) (h : (proc p).bind Proc.cwd = some i) : 0 < cwdRefs proc i :=
  Finset.card_pos.2 ⟨p, Finset.mem_filter.2 ⟨Finset.mem_range.2 hp, h⟩⟩

/-! ### Changing a file -/

/-- The conditions on the new contents `y` of file `f`. -/
structure FileOk (x x' : Held) (s : Fs) (f : ℕ) (y : File) : Prop where
  lt : f < nfile
  refs : y.ref = fdRefs x.proc f + x'.file.count f
  pos : y.type ≠ .none → 0 < y.ref
  valid : y.type = .inode → (s.icache y.ip).valid = true
  dir : y.type = .inode → y.writable = true → (s.inode y.ip).type ≠ tDir
  hand : ∀ i, x'.hand.count i + File.refs i y = x.hand.count i + File.refs i (s.ftable f)
  count : ∀ g ≠ f, x'.file.count g = x.file.count g
  proc : x'.proc = x.proc

theorem setFile_self : (s.setFile f y).ftable f = y := if_pos rfl

theorem setFile_of_ne {g : ℕ} (h : g ≠ f) : (s.setFile f y).ftable g = s.ftable g := if_neg h

theorem Wf.setFile {P : ℕ → Option Pipe} (h : Wf x s) (hy : FileOk x x' s f y)
    (hP : Pipes (upd s.ftable f y) P) : Wf x' { s.setFile f y with pipe := P } where
  ok := h.ok
  dirs := h.dirs
  slot_lt := h.slot_lt
  inum_lt := h.inum_lt
  uniq := h.uniq
  copy := h.copy
  refs i := by
    have h1 := h.refs i
    have h2 := hy.hand i
    have h3 := @fileRefs_setFile i f s y hy.lt
    show (s.icache i).ref = fileRefs (s.setFile f y) i + _ + _
    rw [hy.proc]
    omega
  cwd_type := by rw [hy.proc]; exact h.cwd_type
  cwd_valid := by rw [hy.proc]; exact h.cwd_valid
  file_lt := upd_forall (F := fun g (z : File) => 0 < z.ref → g < nfile) (fun _ => hy.lt)
    fun g _ => h.file_lt g
  file_refs := by
    rw [hy.proc]
    refine upd_forall (F := fun g (z : File) => z.ref = fdRefs x.proc g + x'.file.count g) hy.refs
      fun g hg => ?_
    rw [hy.count g hg]
    exact h.file_refs g
  file_pos := upd_forall (F := fun _ (z : File) => z.type ≠ .none → 0 < z.ref) hy.pos
    fun g _ => h.file_pos g
  file_valid := upd_forall (F := fun _ (z : File) => z.type = .inode → (s.icache z.ip).valid = true)
    hy.valid fun g _ => h.file_valid g
  file_dir := upd_forall (F := fun _ (z : File) => z.type = .inode → z.writable = true →
    (s.inode z.ip).type ≠ tDir) hy.dir fun g _ => h.file_dir g
  proc_lt := by rw [hy.proc]; exact h.proc_lt
  fd_lt := by rw [hy.proc]; exact h.fd_lt
  pipes := hP

/-! ### Pipes -/

section Pipes

variable {F : ℕ → File} {P : ℕ → Option Pipe} {z z' : Pipe} {k : ℕ} {w : Bool} {o : Option Pipe}

theorem endOpen_upd_of_ne {a : ℕ × Bool} (h : a.1 ≠ k) :
    EndOpen (upd P k o) a ↔ EndOpen P a := by
  rw [EndOpen, upd_of_ne _ _ h, EndOpen]

theorem endOpen_upd_self : EndOpen (upd P k o) (k, w) ↔ ∃ z, o = some z ∧ z.side w = true := by
  rw [EndOpen, upd_same]

theorem pipeEnd_upd (g : ℕ) :
    (upd F f y g).pipeEnd = upd (fun g => (F g).pipeEnd) f y.pipeEnd g :=
  apply_ite File.pipeEnd _ _ _

theorem pipes_none (hF : ∀ f, (F f).type ≠ .pipe) : Pipes F fun _ => none := by
  have hnone : ∀ f, (F f).pipeEnd = none := fun f => if_neg (hF f)
  refine ⟨⟨fun i j b hi => ?_, fun b => ?_⟩, fun k z hz => ?_⟩
  · rw [hnone] at hi
    cases hi
  · simp [EndOpen, hnone]
  · cases hz

theorem Pipes.live_upd (h : Pipes F P) (ho : ∀ z, o = some z → ∃ w, z.side w = true) :
    ∀ j z, upd P k o j = some z → ∃ w, z.side w = true :=
  upd_forall (F := fun _ (o : Option Pipe) => ∀ z, o = some z → ∃ w, z.side w = true) ho
    fun j _ => h.live j

/-- The file is for the same end as before, if for any. -/
theorem Pipes.setFile (h : Pipes F P) (hy : y.pipeEnd = (F f).pipeEnd) : Pipes (upd F f y) P :=
  ⟨h.names.congr (fun g => by rw [pipeEnd_upd, hy, upd_self]) fun _ => Iff.rfl, h.live⟩

/-- Bytes have been written or read. -/
theorem Pipes.setPipe (h : Pipes F P) (hz : P k = some z) (hside : ∀ w, z'.side w = z.side w) :
    Pipes F (upd P k (some z')) := by
  refine ⟨h.names.congr (fun _ => rfl) fun ⟨j, w⟩ => ?_, h.live_upd fun x hx => ?_⟩
  · by_cases hj : j = k
    · rw [hj, endOpen_upd_self, EndOpen, hz]
      simp [hside]
    · exact endOpen_upd_of_ne hj
  · cases hx
    obtain ⟨w, hw⟩ := h.live k z hz
    exact ⟨w, (hside w).trans hw⟩

/-- One end of the pipe gets a file. -/
theorem Pipes.open (h : Pipes F P) (hf : (F f).pipeEnd = none) (hy : y.pipeEnd = some (k, w))
    (hw : ¬ EndOpen P (k, w)) (hz : z.side w = true)
    (hother : ∀ w' ≠ w, z.side w' = true ↔ EndOpen P (k, w')) :
    Pipes (upd F f y) (upd P k (some z)) := by
  refine ⟨(h.names.insert hf hw fun ⟨j, w'⟩ => ?_).congr (fun g => ?_) fun _ => Iff.rfl,
    h.live_upd fun x hx => ⟨w, Option.some.inj hx ▸ hz⟩⟩
  · by_cases hj : j = k
    · subst hj
      rw [endOpen_upd_self]
      by_cases hww : w' = w
      · simp [hww, hz]
      · simp [hww, hother w' hww]
    · rw [endOpen_upd_of_ne hj]
      simp [hj]
  · rw [pipeEnd_upd, hy]

/-- The file of one end is closed, and the end with it. -/
theorem Pipes.close (h : Pipes F P) (hf : (F f).pipeEnd = some (k, w)) (hy : y.pipeEnd = none)
    (hz : P k = some z) :
    Pipes (upd F f y) (upd P k (if !(z.shut w).readopen && !(z.shut w).writeopen then none
      else some (z.shut w))) := by
  have hside : ∀ w', (z.shut w).side w' = true ↔ w' ≠ w ∧ z.side w' = true := fun w' => by
    cases w <;> cases w' <;> simp [Pipe.shut, Pipe.side]
  have hlive : ∀ x : Pipe, (!x.readopen && !x.writeopen) = false ↔ ∃ w, x.side w = true :=
    fun x => by simp [Pipe.side, imp_iff_not_or]
  refine ⟨(h.names.remove hf fun ⟨j, w'⟩ => ?_).congr (fun g => ?_) fun _ => Iff.rfl,
    h.live_upd fun x hx => ?_⟩
  · by_cases hj : j = k
    · subst hj
      rw [endOpen_upd_self, EndOpen, hz]
      split_ifs with hc
      · have hno : ¬ (w' ≠ w ∧ z.side w' = true) := fun h' => by
          have := (hlive (z.shut w)).2 ⟨w', (hside w').2 h'⟩
          rw [hc] at this
          cases this
        simpa using hno
      · simp [hside]
    · rw [endOpen_upd_of_ne hj]
      simp [hj]
  · rw [pipeEnd_upd, hy]
  · split_ifs at hx with hc
    exact Option.some.inj hx ▸ (hlive _).1 (by simpa using hc)

end Pipes

/-! ### Moving references to and from a process -/

/-- The references of process `p` are now `q`, and what it had more or less is with the call. -/
structure Moves (x x' : Held) (s : Fs) (p : ℕ) (q : Option Proc) : Prop where
  lt : p < nproc
  proc : x'.proc = upd x.proc p q
  hand : ∀ i, x'.hand.count i + cwdOf i q = x.hand.count i + cwdOf i (x.proc p)
  file : ∀ f, x'.file.count f + fdsOf f q = x.file.count f + fdsOf f (x.proc p)
  cwd : ∀ i, q.bind Proc.cwd = some i → (s.nodes (s.inode i).inum).type ≠ 0 ∧
    ((s.icache i).valid = true ∨ (s.inode i).inum = rootino)
  fd : ∀ q', q = some q' → ∀ fd f, q'.ofile fd = some f → fd < nofile

theorem Wf.move (h : Wf x s) (hm : Moves x x' s p q) : Wf x' s := by
  have hcwd : ∀ i, 0 < cwdRefs x'.proc i → (s.nodes (s.inode i).inum).type ≠ 0 ∧
      ((s.icache i).valid = true ∨ (s.inode i).inum = rootino) := by
    intro i hi
    obtain ⟨r, hr⟩ := Finset.card_pos.1 hi
    obtain ⟨hlt, hr⟩ := Finset.mem_filter.1 hr
    rw [hm.proc] at hr
    by_cases hrp : r = p
    · rw [hrp, upd, if_pos rfl] at hr
      exact hm.cwd i hr
    · rw [upd, if_neg hrp] at hr
      have hpos := cwdRefs_pos (Finset.mem_range.1 hlt) hr
      exact ⟨h.cwd_type i hpos, h.cwd_valid i hpos⟩
  refine
    { ok := h.ok, dirs := h.dirs, slot_lt := h.slot_lt, inum_lt := h.inum_lt, uniq := h.uniq
      copy := h.copy, refs := fun i => ?_, cwd_type := fun i hi => (hcwd i hi).1
      cwd_valid := fun i hi => (hcwd i hi).2, file_lt := h.file_lt, file_refs := fun f => ?_
      file_pos := h.file_pos, file_valid := h.file_valid, file_dir := h.file_dir
      proc_lt := fun r q' hr => ?_, fd_lt := fun r q' fd f hr hfd => ?_, pipes := h.pipes }
  · have h1 := h.refs i
    have h2 := hm.hand i
    have h3 := @cwdRefs_upd p i q x.proc hm.lt
    rw [hm.proc]
    omega
  · have h1 := h.file_refs f
    have h2 := hm.file f
    have h3 := @fdRefs_upd p f q x.proc hm.lt
    rw [hm.proc]
    omega
  · rw [hm.proc] at hr
    by_cases hrp : r = p
    · rw [hrp]
      exact hm.lt
    · rw [upd, if_neg hrp] at hr
      exact h.proc_lt r q' hr
  · rw [hm.proc] at hr
    by_cases hrp : r = p
    · rw [hrp, upd, if_pos rfl] at hr
      exact hm.fd q' hr fd f hfd
    · rw [upd, if_neg hrp] at hr
      exact h.fd_lt r q' fd f hr hfd

/-- The invariant does not read the table of processes, only what the call says about it. -/
theorem Wf.setCur (h : Wf x s) (t : ℕ → Option Proc) : Wf x { s with proc := t } :=
  h.congr rfl rfl rfl h.pipes

/-! ### Files -/

variable {m : Multiset ℕ} {E : Panic → Fs → Prop}

theorem type_none (h : Wf x s) (h0 : (s.ftable f).ref = 0) : (s.ftable f).type = .none := by
  by_contra ht
  exact absurd (h.file_pos f ht) (by omega)

theorem refs_of_ne (h : y.type ≠ .inode) : File.refs i y = 0 := if_neg fun hy => h hy.1

theorem Wf.setFileRef {r : ℕ} (h : Wf x s) (hlt : f < nfile) (hr : r = fdRefs x.proc f + m.count f)
    (hpos : (s.ftable f).type ≠ .none → 0 < r) (hcount : ∀ g ≠ f, m.count g = x.file.count g) :
    Wf { x with file := m } (s.setFile f { s.ftable f with ref := r }) :=
  h.setFile
    { lt := hlt, refs := hr, pos := hpos, valid := h.file_valid f, dir := h.file_dir f
      hand := fun _ => rfl, count := hcount, proc := rfl } (h.pipes.setFile rfl)

/-- A file that is for no inode, before or after. -/
theorem Wf.setOther {P : ℕ → Option Pipe} (h : Wf x s) (hlt : f < nfile)
    (hr : y.ref = fdRefs x.proc f + m.count f) (hpos : y.type ≠ .none → 0 < y.ref)
    (ht : (s.ftable f).type ≠ .inode) (hy : y.type ≠ .inode)
    (hcount : ∀ g ≠ f, m.count g = x.file.count g) (hP : Pipes (upd s.ftable f y) P) :
    Wf { x with file := m } { s.setFile f y with pipe := P } :=
  h.setFile
    { lt := hlt, refs := hr, pos := hpos, valid := fun h => absurd h hy, dir := fun h => absurd h hy
      hand := fun i => by rw [refs_of_ne ht, refs_of_ne hy], count := hcount, proc := rfl } hP

/-- Only the tables of files and pipes have changed. -/
structure FilesOnly (s s' : Fs) : Prop where
  store : s'.store = s.store
  icache : s'.icache = s.icache
  proc : s'.proc = s.proc

theorem filealloc_wp (h : Wf x s) : wp filealloc (fun r s' => match r with
    | none => s' = s
    | some f => Wf { x with
        file := f ::ₘ x.file } s' ∧ s' = s.setFile f (s'.ftable f) ∧ (s'.ftable f).type = .none ∧
        (s'.ftable f).ref = 1 ∧ (s.ftable f).ref = 0) E s := by
  unfold filealloc
  rw [wp_bind, wp_get]
  split
  · exact rfl
  rename_i f hfind
  have hlt := List.mem_range.1 (List.mem_of_find?_eq_some hfind)
  have h0 : (s.ftable f).ref = 0 := by simpa using List.find?_some hfind
  have hrefs := h.file_refs f
  rw [wp_bind, wp_modify, wp_pure]
  refine ⟨h.setFileRef hlt ?_ (fun _ => Nat.one_pos) fun g hg => Multiset.count_cons_of_ne hg _,
    ?_, ?_, ?_, h0⟩
  · rw [Multiset.count_cons_self]
    omega
  · rw [setFile_self]
  · rw [setFile_self]
    exact type_none h h0
  · rw [setFile_self]

theorem filedup_wp (h : Wf x s) :
    wp (filedup f) (fun _ s' => Wf { x with file := f ::ₘ x.file } s' ∧
      s' = s.setFile f { s.ftable f with ref := (s.ftable f).ref + 1 })
      (fun e _ => Halts (.error e)) s := by
  unfold filedup
  rw [wp_bind, wp_get]
  split_ifs with hr
  · show Halts _
    simp [Halts]
  rw [wp_modify]
  have hrefs := h.file_refs f
  refine ⟨h.setFileRef (h.file_lt f (by omega)) ?_ (fun _ => Nat.succ_pos _) fun g hg =>
    Multiset.count_cons_of_ne hg _, rfl⟩
  rw [Multiset.count_cons_self]
  omega

theorem filedrop_wp (h : Wf x s) (hx : x.file = f ::ₘ m) :
    wp (filedrop f) (fun r s' => FilesOnly s s' ∧
    match r with
    | none => Wf { x with file := m } s'
    | some ff => ff = s.ftable f ∧ match ff.type with
      | .none | .pipe => Wf { x with file := m } s'
      | .inode => Wf { x with file := m, hand := ff.ip ::ₘ x.hand } s')
          (fun e _ => Halts (.error e)) s := by
  have hrefs := h.file_refs f
  rw [hx, Multiset.count_cons_self] at hrefs
  have hlt := h.file_lt f (by omega)
  have hcount : ∀ g ≠ f, m.count g = x.file.count g := fun g hg => by
    rw [hx, Multiset.count_cons_of_ne hg]
  have hzero : ¬ 0 < (s.ftable f).ref - 1 → 0 = fdRefs x.proc f + m.count f := by omega
  unfold filedrop
  rw [wp_bind, wp_get]
  dsimp only
  split_ifs with h0 h1 hpipe
  · show Halts _
    simp [Halts]
  · rw [wp_bind, wp_modify, wp_pure]
    exact ⟨⟨rfl, rfl, rfl⟩, h.setFileRef hlt (by omega) (fun _ => h1) hcount⟩
  · have hend : (s.ftable f).pipeEnd = some ((s.ftable f).pipe, (s.ftable f).writable) :=
      if_pos hpipe
    obtain ⟨z, hz, -⟩ := (h.pipes.names.used _).2 ⟨f, hend⟩
    unfold pipeclose
    rw [wp_bind, wp_modify, wp_bind, wp_modify, wp_pure]
    change s.pipe _ = some z at hz
    simp only [setFile, hz, hpipe]
    exact ⟨⟨rfl, rfl, rfl⟩, trivial, h.setOther hlt (hzero h1) (by simp) (by simp [hpipe]) (by simp)
      hcount (h.pipes.close hend rfl hz)⟩
  rw [wp_bind, wp_modify, wp_pure]
  refine ⟨⟨rfl, rfl, rfl⟩, rfl, ?_⟩
  have hend : (s.ftable f).pipeEnd = none := if_neg hpipe
  have hpipes : Pipes (upd s.ftable f { s.ftable f with ref := 0, type := .none }) s.pipe :=
    h.pipes.setFile (hend.symm ▸ rfl)
  cases ht : (s.ftable f).type with
  | none =>
    exact h.setOther hlt (hzero h1) (by simp) (by simp [ht]) (by simp) hcount hpipes
  | pipe => exact absurd ht hpipe
  | inode =>
    refine h.setFile
      { lt := hlt, refs := hzero h1, pos := (by simp), valid := (by simp), dir := (by simp)
        hand := fun i => ?_, count := hcount, proc := rfl } hpipes
    rw [refs_of_ne (by simp), File.refs, ht, Multiset.count_cons]
    simp [eq_comm]

theorem Wf.setOff (h : Wf x s) (hr : 0 < (s.ftable f).ref) (o : ℕ) :
    Wf x (s.setFile f { s.ftable f with off := o }) :=
  h.setFile
    { lt := h.file_lt f hr, refs := h.file_refs f, pos := h.file_pos f, valid := h.file_valid f
      dir := h.file_dir f, hand := fun _ => rfl, count := fun _ _ => rfl, proc := rfl }
    (h.pipes.setFile rfl)

theorem filesetup_wp {omode : ℕ} {H : Multiset ℕ} (h : Wf x s) (hx : x.hand = i ::ₘ H)
    (hr : 0 < (s.ftable f).ref) (ht : (s.ftable f).type = .none) (hv : (s.icache i).valid = true)
    (hdir : omode.testBit 0 = true ∨ omode.testBit 1 = true → (s.inode i).type ≠ tDir) :
    wp (filesetup f i omode)
    (fun _ s' => Wf { x with hand := H } s' ∧ s' = s.setFile f (s'.ftable f)) E s := by
  unfold filesetup
  rw [wp_modify]
  refine ⟨h.setFile
    { lt := h.file_lt f hr, refs := h.file_refs f, pos := fun _ => hr, valid := fun _ => hv
      dir := fun _ hw => hdir (by simpa using hw), hand := fun j => ?_, count := fun _ _ => rfl
      proc := rfl } (h.pipes.setFile ?_), by rw [setFile_self]⟩
  · rw [@refs_of_ne j (s.ftable f) (by simp [ht]), hx, Multiset.count_cons]
    simp [File.refs, eq_comm]
  · simp [File.pipeEnd, ht]

/-! ### Descriptors -/

variable {q₀ : Proc} {fd : ℕ}

/-- Is the descriptor for file `f`? -/
def isFile (f : ℕ) (o : Option ℕ) : ℕ := if o = some f then 1 else 0

theorem fdsOf_eq : fdsOf f (some q₀) = ∑ fd ∈ Finset.range nofile, isFile f (q₀.ofile fd) := by
  rw [fdsOf, Finset.card_filter]
  rfl

theorem fdsOf_upd {o : Option ℕ} (hfd : fd < nofile) :
    fdsOf f (some { q₀ with ofile := upd q₀.ofile fd o }) + isFile f (q₀.ofile fd) =
    fdsOf f (some q₀) + isFile f o := by
  rw [fdsOf_eq, fdsOf_eq]
  exact sum_upd hfd _ _ _

theorem Wf.ref_of_fd (h : Wf x s) (hq : x.proc p = some q₀) (hf : q₀.ofile fd = some f) :
    0 < (s.ftable f).ref := by
  have hpos : 0 < fdRefs x.proc f := by
    rw [fdRefs, Finset.card_pos]
    refine ⟨(p, fd), ?_⟩
    rw [Finset.mem_filter, Finset.mem_product, Finset.mem_range, Finset.mem_range]
    refine ⟨⟨h.proc_lt p q₀ hq, h.fd_lt p q₀ fd f hq hf⟩, ?_⟩
    rw [hq]
    exact hf
  have := h.file_refs f
  omega

/-- A descriptor is set: the file it was for is with the call, and the new one is not. -/
theorem Wf.setFd {o : Option ℕ} (h : Wf x s) (hq : x.proc p = some q₀) (hfd : fd < nofile)
    (hfl : ∀ f, m.count f + isFile f o = x.file.count f + isFile f (q₀.ofile fd)) :
    Wf ⟨x.hand, m, upd x.proc p (some { q₀ with ofile := upd q₀.ofile fd o })⟩ s := by
  have hlt := h.proc_lt p q₀ hq
  refine h.move ⟨hlt, rfl, fun i => ?_, fun f => ?_, fun i hi => ?_, fun q' hq' fd' f hf => ?_⟩
  · rw [hq]
    rfl
  · have h1 := hfl f
    have h2 := @fdsOf_upd f q₀ fd o hfd
    rw [hq]
    dsimp only
    omega
  · have hpos : 0 < cwdRefs x.proc i := cwdRefs_pos hlt (by rwa [hq])
    exact ⟨h.cwd_type i hpos, h.cwd_valid i hpos⟩
  · cases hq'
    by_cases hne : fd' = fd
    · rw [hne]
      exact hfd
    · exact h.fd_lt p q₀ fd' f hq ((if_neg hne).symm.trans hf)

/-- The current directory is set: the one before is in the hand, and the new one is not. -/
theorem Wf.setCwd {o : Option ℕ} {H : Multiset ℕ} (h : Wf x s) (hq : x.proc p = some q₀)
    (hH : ∀ i, H.count i + isFile i o = x.hand.count i + isFile i q₀.cwd)
    (ho : ∀ i, o = some i → (s.nodes (s.inode i).inum).type ≠ 0 ∧ (s.icache i).valid = true) :
    Wf ⟨H, x.file, upd x.proc p (some { q₀ with cwd := o })⟩ s := by
  refine h.move ⟨h.proc_lt p q₀ hq, rfl, fun i => ?_, fun f => ?_, fun i hi => ?_,
    fun q' hq' fd f hf => ?_⟩
  · rw [hq]
    exact hH i
  · rw [hq]
    rfl
  · exact ⟨(ho i hi).1, .inl (ho i hi).2⟩
  · cases hq'
    exact h.fd_lt p q₀ fd f hq hf

theorem argfd_wp : wp (argfd p fd) (fun r s' => s' = s ∧ ∀ f, r = some f → fd < nofile ∧
    ∃ q, s.proc p = some q ∧ q.ofile fd = some f) E s := by
  unfold argfd
  split_ifs with h
  · exact ⟨rfl, nofun⟩
  · rw [wp_bind, wp_get, wp_pure]
    refine ⟨rfl, fun f hf => ⟨by omega, ?_⟩⟩
    exact Option.bind_eq_some_iff.1 hf

theorem setFd_eq {o : Option ℕ} (hq : s.proc p = some q₀) :
    wp (setFd p fd o)
    (fun _ s' => s' = { s with proc := upd s.proc p (some { q₀ with ofile := upd q₀.ofile fd o }) })
    E s := by
  unfold setFd
  rw [wp_modify, setProc, hq]
  rfl

theorem fdalloc_wp (hq : s.proc p = some q₀) : wp (fdalloc p f) (fun r s' => match r with
    | none => s' = s
    | some fd => fd < nofile ∧ q₀.ofile fd = none ∧
        s' = { s with proc := upd s.proc p (some { q₀ with ofile := upd q₀.ofile fd (some f) }) }) E
        s := by
  unfold fdalloc
  rw [wp_bind, wp_get, hq]
  dsimp only
  split
  · exact rfl
  rename_i fd hfind
  have hlt := List.mem_range.1 (List.mem_of_find?_eq_some hfind)
  have h0 : q₀.ofile fd = none := by simpa using List.find?_some hfind
  exact wp_seq (setFd_eq hq) fun _ s' hs' => ⟨hlt, h0, hs'⟩

/-! ### Closing a file -/

theorem fileclose_none (h : Wf x s) (hx : x.file = f ::ₘ m) (ht : (s.ftable f).type = .none) :
    does p (fileclose f) (fun _ s' => Wf { x with file := m } s' ∧ FilesOnly s s') s := by
  unfold fileclose
  refine does_act h (filedrop_wp h hx) fun r s₁ ⟨hs1, hr⟩ => ?_
  cases r with
  | none => exact does_pure ⟨hr, hs1⟩
  | some ff =>
    obtain ⟨rfl, hr⟩ := hr
    dsimp only at hr ⊢
    rw [ht] at hr ⊢
    exact does_pure ⟨hr, hs1⟩

/-- The call is outside a transaction, and the processes and the super block are the same. -/
structure Closed (s s' : Fs) : Prop where
  out : s'.store.outstanding = 0
  proc : s'.proc = s.proc
  sb : s'.store.sb = s.store.sb

theorem Closed.trans {s₁ : Fs} (h : Closed s s₁) (h' : Closed s₁ s') : Closed s s' :=
  ⟨h'.out, h'.proc.trans h.proc, h'.sb.trans h.sb⟩

theorem fileclose_does (h : Wf x s) (hx : x.file = f ::ₘ m) (ho : s.store.outstanding = 0) :
    does p (fileclose f) (fun _ s' => Wf { x with file := m } s' ∧ Closed s s') s := by
  unfold fileclose
  refine does_act h (filedrop_wp h hx) fun r s₁ ⟨hs1, hr⟩ => ?_
  have hc : Closed s s₁ := ⟨by rwa [hs1.store], hs1.proc, by rw [hs1.store]⟩
  cases r with
  | none => exact does_pure ⟨hr, hc⟩
  | some ff =>
  obtain ⟨rfl, hr⟩ := hr
  dsimp only at hr ⊢
  cases ht : (s.ftable f).type with
  | none | pipe =>
    rw [ht] at hr
    exact does_pure ⟨hr, hc⟩
  | inode =>
    rw [ht] at hr
    refine (beginOp_does hr hc.out).seq fun _ s₂ ⟨h2, hl2⟩ => ?_
    refine (iput_does h2 rfl hl2.out.ge).seq fun _ s₃ ⟨h3, hk3⟩ => ?_
    refine (endOp_does h3 (hk3.out.trans hl2.out)).mono fun _ s₄ ⟨h4, hl4⟩ =>
      ⟨h4, hl4.out, ?_, ?_⟩
    · rw [hl4.proc, hk3.proc, hl2.proc, hc.proc]
    · rw [hl4.sb, hk3.sb, hl2.sb, hc.sb]

end Fs

end Xv6
