import Xv6.Alloc.Names
import Xv6.Vm.Exec
import Xv6.Vm.Kernel

/-!
# The calls keep the ownership

The directories belong to the kernel, to the processes, or to a running `exec`; the other pages in
use are stacks and pipes.  `Agrees` says that the ghost state is what the data of the kernel say,
`Files` that the open pipes are known to one file for each end.  Together they are an invariant of
all calls (`Op.perform_spec`), at whichever call of `kalloc` they fail.
-/

namespace Xv6

namespace Vm

/-- Who owns a page directory. -/
inductive Owner
  | kernel
  /-- The new image of `exec`. -/
  | temp
  | proc (i : ℕ)
  deriving DecidableEq

/-- What other pages are used for. -/
inductive Thing
  /-- The kernel stack of a process. -/
  | stack (i : ℕ)
  /-- The stack of a CPU. -/
  | cpu (c : ℕ)
  /-- A pipe. -/
  | pipe (p : ℕ)
  /-- Pages that the allocator does not know yet. -/
  | boot (p : ℕ)
  deriving DecidableEq

/-- The page directory of a process, 0 if it has none. -/
def Proc.dirPage (p : Proc) : ℕ := if p.state = .unused ∨ p.state = .embryo then 0 else p.pgdir

/-- The kernel stack of a process, 0 if it has none. -/
def Proc.stackPage (p : Proc) : ℕ := if p.state = .unused then 0 else p.kstack

/-- A process that exists has what it needs. -/
structure Proc.Ok (p : Proc) : Prop where
  dir : p.state ≠ .unused → p.state ≠ .embryo → p.pgdir ≠ 0 ∧ p.sz ≤ kernBase
  stack : p.state ≠ .unused → p.kstack ≠ 0

theorem Proc.ok_of_unused {p : Proc} (h : p.state = .unused) : p.Ok :=
  ⟨fun h' => absurd h h', fun h' => absurd h h'⟩

theorem Proc.dirPage_of_unused {p : Proc} (h : p.state = .unused) : p.dirPage = 0 := if_pos (.inl h)

theorem Proc.stackPage_of_unused {p : Proc} (h : p.state = .unused) : p.stackPage = 0 := if_pos h

/-- Is an end of the pipe open? -/
def PipeEnds.isOpen (x : PipeEnds) : Bool := x.readopen || x.writeopen

/-- The end for writing or for reading. -/
def PipeEnds.side (x : PipeEnds) (writable : Bool) : Bool :=
  if writable then x.writeopen else x.readopen

/-- The ghost state is what the kernel's data say; `t` is the directory of a running `exec`. -/
structure Agrees (k : Symbols) (s : Kern) (t : ℕ) (g : Ghost Owner Thing) : Prop where
  hand : ∀ n, g.hand n = 0
  kpgdir : g.dir .kernel = s.kpgdir
  temp : g.dir .temp = t
  dir : ∀ i, g.dir (.proc i) = (s.proc i).dirPage
  stack : ∀ i, g.other (.stack i) = (s.proc i).stackPage
  cpu : ∀ c, g.other (.cpu c) = s.stack c
  pipe : ∀ p, g.other (.pipe p) = if (s.pipe p).isOpen then p else 0
  boot : ∀ p, g.other (.boot p) = 0
  kernel : ∀ o, g.dir o ≠ 0 → ∀ u, userPages ≤ u → g.ent o u = kernelEntry k u
  proc : ∀ i, (s.proc i).Ok

/-- The end of a pipe that the file is for. -/
def OpenFile.pipeEnd (y : OpenFile) : Option (ℕ × Bool) :=
  if y.type = .pipe then some (y.pipe, y.writable) else none

/-- Every open end of a pipe has one file. -/
structure Files (s : Kern) : Prop where
  none : ∀ f, (s.file f).ref = 0 → (s.file f).type = .none
  names : Names (fun f => (s.file f).pipeEnd) fun a => (s.pipe a.1).side a.2 = true
  page : ∀ p, (s.pipe p).isOpen = true → p ≠ 0

/-- The invariant. -/
structure Inv (k : Symbols) (s : Machine) : Prop where
  pages : ∃ g, Holds k g s.mem ∧ Agrees k s.toKern 0 g
  files : Files s.toKern

variable {k : Symbols} {s s' : Kern} {t t' i : ℕ} {g g' : Ghost Owner Thing} {m m' : Mem}
  {o : Owner}
variable {x x' : Machine} {p f : ℕ} {E : Panic → Machine → Prop}

/-! ## Actions -/

theorem wp_onMem {α : Type} {a : Act α} {Q : α → Machine → Prop} :
    wp (onMem a) Q E x ↔
      wp a (fun r m => Q r { x with mem := m }) (fun e m => E e { x with mem := m }) x.mem := by
  unfold wp onMem
  cases a x.mem <;> rfl

variable {Q : Unit → Machine → Prop}

theorem wp_setProc {F : Proc → Proc} :
    wp (setProc p F) Q E x ↔ Q () { x with proc := upd x.proc p (F (x.proc p)) } := Iff.rfl

theorem wp_setFd {cur fd : ℕ} {F : Option ℕ} :
    wp (setFd cur fd F) Q E x ↔
      Q () { x with
        proc := upd x.proc cur { x.proc cur with ofile := upd (x.proc cur).ofile fd F } } := Iff.rfl

theorem wp_setFile {y : OpenFile} :
    wp (setFile f y) Q E x ↔ Q () { x with file := upd x.file f y } := Iff.rfl

theorem wp_setPipe {y : PipeEnds} :
    wp (setPipe p y) Q E x ↔ Q () { x with pipe := upd x.pipe p y } := Iff.rfl

/-! ## Changes of the ghost state -/

/-- Only process `i` has changed, as far as pages are concerned. -/
structure Touches (i : ℕ) (s s' : Kern) : Prop where
  proc : ∀ j, j ≠ i → s'.proc j = s.proc j
  pipe : s'.pipe = s.pipe
  kpgdir : s'.kpgdir = s.kpgdir
  stack : s'.stack = s.stack

namespace Agrees

theorem frame (h : Agrees k s t g) (hf : UserFrame o g g') : Agrees k s t g' where
  hand n := by rw [hf.hand, h.hand]
  kpgdir := by rw [hf.dir, h.kpgdir]
  temp := by rw [hf.dir, h.temp]
  dir i := by rw [hf.dir, h.dir]
  stack i := by rw [hf.other, h.stack]
  cpu c := by rw [hf.other, h.cpu]
  pipe p := by rw [hf.other, h.pipe]
  boot p := by rw [hf.other, h.boot]
  kernel o' ho u hu := by
    rw [hf.dir] at ho
    by_cases hoo : o' = o
    · rw [hoo, hf.kernel u hu, ← hoo, h.kernel o' ho u hu]
    · rw [hf.ent o' hoo, h.kernel o' ho u hu]
  proc := h.proc

theorem congr (h : Agrees k s t g) (hp : s'.proc = s.proc) (hpipe : s'.pipe = s.pipe)
    (hk : s'.kpgdir = s.kpgdir) (hs : s'.stack = s.stack) : Agrees k s' t g where
  hand := h.hand
  kpgdir := by rw [hk, h.kpgdir]
  temp := h.temp
  dir i := by rw [hp, h.dir]
  stack i := by rw [hp, h.stack]
  cpu c := by rw [hs, h.cpu]
  pipe p := by rw [hpipe, h.pipe]
  boot := h.boot
  kernel := h.kernel
  proc i := by rw [hp]; exact h.proc i

theorem guarded (h : Agrees k s t g) (ho : g.dir o ≠ 0) : Guarded o g := fun u hu => by
  rw [h.kernel o ho u hu]
  exact kernelEntry_userBit k u

/-- Process `i` has changed, and with it its directory and its stack. -/
theorem touch {y : Proc} (h : Agrees k s t g) (ht : Touches i s s') (he : s'.proc i = y) (hy : y.Ok)
    (hhand : g'.hand = g.hand) (hd : g'.dir (.proc i) = y.dirPage) (htemp : g'.dir .temp = t')
    (hdir : ∀ o, o ≠ .proc i → o ≠ .temp → g'.dir o = g.dir o)
    (hs : g'.other (.stack i) = y.stackPage) (hother : ∀ z, z ≠ .stack i → g'.other z = g.other z)
    (hk : ∀ o, g'.dir o ≠ 0 → ∀ u, userPages ≤ u → g'.ent o u = kernelEntry k u) :
    Agrees k s' t' g' where
  hand n := by rw [hhand, h.hand]
  kpgdir := by rw [hdir .kernel nofun nofun, ht.kpgdir, h.kpgdir]
  temp := htemp
  dir j := by
    by_cases hj : j = i
    · rw [hj, hd, he]
    · rw [hdir (.proc j) (by simpa using hj) nofun, ht.proc j hj, h.dir]
  stack j := by
    by_cases hj : j = i
    · rw [hj, hs, he]
    · rw [hother (.stack j) (by simpa using hj), ht.proc j hj, h.stack]
  cpu c := by rw [hother (.cpu c) nofun, ht.stack, h.cpu]
  pipe p := by rw [hother (.pipe p) nofun, ht.pipe, h.pipe]
  boot p := by rw [hother (.boot p) nofun, h.boot]
  kernel := hk
  proc j := by
    by_cases hj : j = i
    · rwa [hj, he]
    · rw [ht.proc j hj]; exact h.proc j

/-- The pipe at page `p` has changed, and with it the use of the page. -/
theorem setPipe {y : PipeEnds} (h : Agrees k s t g) (hhand : g'.hand = g.hand)
    (hdir : g'.dir = g.dir) (hent : g'.ent = g.ent)
    (hother : ∀ z, g'.other z = if z = .pipe p then (if y.isOpen then p else 0) else g.other z) :
    Agrees k { s with pipe := upd s.pipe p y } t g' where
  hand n := by rw [hhand, h.hand]
  kpgdir := by rw [hdir]; exact h.kpgdir
  temp := by rw [hdir]; exact h.temp
  dir i := by rw [hdir]; exact h.dir i
  stack i := by rw [hother]; exact h.stack i
  cpu c := by rw [hother]; exact h.cpu c
  pipe q := by
    refine upd_forall (F := fun q (y : PipeEnds) => g'.other (.pipe q) = if y.isOpen then q else 0)
      ?_ (fun q hq => ?_) q
    · rw [hother, if_pos rfl]
    · rw [hother, if_neg (by simpa using hq), h.pipe]
  boot p := by rw [hother]; exact h.boot p
  kernel o ho u hu := by
    rw [hdir] at ho
    rw [hent]
    exact h.kernel o ho u hu
  proc := h.proc

end Agrees

/-! ## Files and pipes -/

/-- The file table has changed, and nothing that concerns pages. -/
theorem Inv.setFile {y : OpenFile} (h : Inv k x)
    (hf : Files { x.toKern with file := upd x.file f y }) :
    Inv k { x with file := upd x.file f y } := by
  obtain ⟨g, hm, ha⟩ := h.pages
  exact ⟨⟨g, hm, ha.congr rfl rfl rfl rfl⟩, hf⟩

theorem Files.congr (h : Files s) (hf : s'.file = s.file) (hp : s'.pipe = s.pipe) : Files s' := by
  obtain ⟨h1, h2, h3⟩ := h
  rw [← hf] at h1 h2
  rw [← hp] at h2 h3
  exact ⟨h1, h2, h3⟩

section

variable {y : OpenFile} {w : Bool} {z : PipeEnds}

theorem OpenFile.pipeEnd_upd (F : ℕ → OpenFile) (g : ℕ) :
    (upd F f y g).pipeEnd = upd (fun g => (F g).pipeEnd) f y.pipeEnd g := apply_ite pipeEnd ..

theorem Files.none_upd (h : Files s) (hr : y.ref = 0 → y.type = .none) :
    ∀ g, (upd s.file f y g).ref = 0 → (upd s.file f y g).type = .none :=
  upd_forall (F := fun _ (z : OpenFile) => z.ref = 0 → z.type = .none) hr fun j _ => h.none j

/-- The file is for the same end as before, if for any. -/
theorem Files.setFile (h : Files s) (hr : y.ref = 0 → y.type = .none)
    (hy : y.pipeEnd = (s.file f).pipeEnd) : Files { s with file := upd s.file f y } :=
  ⟨h.none_upd hr, h.names.congr (fun g => by rw [y.pipeEnd_upd, hy, upd_self]) fun _ => Iff.rfl,
    h.page⟩

/-- One end of the pipe gets a file. -/
theorem Files.open (h : Files s) (hr : y.ref ≠ 0) (hf : (s.file f).pipeEnd = .none)
    (hy : y.pipeEnd = some (p, w)) (hw : (s.pipe p).side w = false) (hz : z.side w = true)
    (hother : ∀ w' ≠ w, z.side w' = (s.pipe p).side w') (hp : p ≠ 0) :
    Files { s with file := upd s.file f y, pipe := upd s.pipe p z } := by
  refine ⟨h.none_upd fun h0 => absurd h0 hr, (h.names.insert hf (ne_true_of_eq_false hw)
    fun ⟨j, w'⟩ => ?_).congr (fun g => by rw [y.pipeEnd_upd, hy]) fun _ => Iff.rfl,
    upd_forall (F := fun q (y : PipeEnds) => y.isOpen = true → q ≠ 0) (fun _ => hp)
      fun q _ => h.page q⟩
  dsimp only
  by_cases hj : j = p
  · subst hj
    rw [upd_same]
    by_cases hww : w' = w
    · simp [hww, hz]
    · simp [hww, hother w' hww]
  · rw [upd_of_ne _ _ hj]
    simp [hj]

theorem filealloc_spec (h : Inv k x) :
    wp filealloc
    (fun r x' => Inv k x' ∧ ∀ f, r = some f → (x.file f).ref = 0 ∧ (x'.file f).ref ≠ 0 ∧
      (x'.file f).type = .none ∧ ∀ f', f' ≠ f → x'.file f' = x.file f') E x := by
  unfold filealloc
  rw [wp_bind, wp_get]
  cases hfind : (List.range nfile).find? fun f => (x.file f).ref = 0 with
  | none => exact ⟨h, nofun⟩
  | some f =>
    have hf : (x.file f).ref = 0 := by simpa using List.find?_some hfind
    have hinv := h.setFile (h.files.setFile (f := f) (y := { x.file f with ref := 1 }) nofun rfl)
    refine ⟨hinv, fun f' hf' => Option.some.inj hf' ▸ ⟨hf, ?_, ?_, fun f'' hne => if_neg hne⟩⟩
    · simp [upd]
    · simp [upd, h.files.none f hf]

theorem filedup_spec (hf : Files x.toKern) :
    wp (filedup f) (fun _ x' => Files x'.toKern ∧ ∃ F, x' = { x with file := F })
      (fun e _ => e ≠ .fuel) x := by
  unfold filedup
  rw [wp_bind, wp_get]
  refine wp_ite.2 ⟨fun _ => ?_, fun _ => ?_⟩
  · exact (by decide : Panic.filedup ≠ .fuel)
  · exact ⟨hf.setFile nofun rfl, _, rfl⟩

/-- The pipe with one end closed. -/
def PipeEnds.close (y : PipeEnds) (w : Bool) : PipeEnds :=
  if w then { y with writeopen := false } else { y with readopen := false }

theorem PipeEnds.isOpen_of_side {y : PipeEnds} {w : Bool} (h : y.side w = true) :
    y.isOpen = true := by
  cases w <;> simp_all [isOpen, side]

theorem PipeEnds.isOpen_of_close {y : PipeEnds} {w : Bool} (h : (y.close w).isOpen = true) :
    y.isOpen = true := by
  cases w <;> cases y with | mk r w' => cases r <;> cases w' <;> first | rfl | cases h

/-- The file of one end is closed, and the end with it. -/
theorem Files.close (h : Files s) (hr : y.ref = 0 → y.type = .none)
    (hf : (s.file f).pipeEnd = some (p, w)) (hy : y.pipeEnd = .none) :
    Files { s with file := upd s.file f y, pipe := upd s.pipe p ((s.pipe p).close w) } := by
  refine ⟨h.none_upd hr, (h.names.remove hf fun ⟨j, w'⟩ => ?_).congr
    (fun g => by rw [y.pipeEnd_upd, hy]) fun _ => Iff.rfl,
    upd_forall (F := fun q (y : PipeEnds) => y.isOpen = true → q ≠ 0)
      (fun hy => h.page p (PipeEnds.isOpen_of_close hy)) fun q _ => h.page q⟩
  dsimp only
  by_cases hj : j = p
  · subst hj
    rw [upd_same]
    cases w <;> cases w' <;> simp [PipeEnds.close, PipeEnds.side]
  · rw [upd_of_ne _ _ hj]
    simp [hj]

/-- Closing an end of a pipe that no file has any more. -/
theorem pipeclose_spec (hm : Holds k g x.mem) (ha : Agrees k x.toKern 0 g)
    (hopen : (x.pipe p).isOpen = true) (hp0 : p ≠ 0)
    (hfiles : Files { x.toKern with pipe := upd x.pipe p ((x.pipe p).close w) }) :
    wp (pipeclose k p w) (fun _ x' => Inv k x' ∧ x'.proc = x.proc ∧ x'.initproc = x.initproc)
      (fun _ _ => False) x := by
  have hp : g.other (.pipe p) = p := by rw [ha.pipe, if_pos hopen]
  unfold pipeclose
  simp only [wp_bind, wp_get, wp_setPipe]
  change wp (if (!((x.pipe p).close w).readopen && !((x.pipe p).close w).writeopen) = true then _
    else _) _ _ { x with pipe := upd x.pipe p ((x.pipe p).close w) }
  refine wp_ite.2 ⟨fun hc => ?_, fun hc => ?_⟩
  · -- the last end
    have hcl : ((x.pipe p).close w).isOpen = false := by
      simpa [PipeEnds.isOpen] using hc
    rw [wp_onMem]
    have hkf := kfree_role hm (r := .other (.pipe p)) (by rwa [Ghost.page, hp])
    rw [Ghost.page, hp] at hkf
    refine wp_of_ok hkf
      ⟨⟨⟨_, hm.free_other hp hp0, ha.setPipe rfl rfl rfl fun z => ?_⟩, hfiles⟩, rfl, rfl⟩
    rw [hcl]
    rfl
  · have hop : ((x.pipe p).close w).isOpen = true := by
      simpa [PipeEnds.isOpen, Decidable.or_iff_not_imp_left] using hc
    refine ⟨⟨⟨g, hm, ha.setPipe rfl rfl rfl fun z => ?_⟩, hfiles⟩, rfl, rfl⟩
    rw [hop, if_pos rfl]
    split
    · rename_i hz; rw [hz, hp]
    · rfl

theorem fileclose_spec (h : Inv k x) :
    wp (fileclose k f) (fun _ x' => Inv k x' ∧ x'.proc = x.proc ∧ x'.initproc = x.initproc)
      (fun e _ => e ≠ .fuel) x := by
  unfold fileclose
  rw [wp_bind, wp_get]
  refine wp_ite.2 ⟨fun _ => (by decide : Panic.fileclose ≠ .fuel), fun href => ?_⟩
  refine wp_ite.2 ⟨fun hpos => ?_, fun _ => ?_⟩
  · exact ⟨h.setFile (h.files.setFile (fun hz => absurd hz (ne_of_gt hpos)) rfl), rfl, rfl⟩
  rw [wp_bind, wp_setFile]
  refine wp_ite.2 ⟨fun ht => ?_, fun ht =>
    ⟨h.setFile (h.files.setFile (fun _ => rfl) ?_), rfl, rfl⟩⟩
  · obtain ⟨g, hm, ha⟩ := h.pages
    have hend : (x.file f).pipeEnd = some ((x.file f).pipe, (x.file f).writable) := if_pos ht
    have hopen := PipeEnds.isOpen_of_side ((h.files.names.used _).2 ⟨f, hend⟩)
    exact wp_total (pipeclose_spec hm (ha.congr rfl rfl rfl rfl) hopen (h.files.page _ hopen)
      (h.files.close (fun _ => rfl) hend rfl)) fun _ _ => id
  · exact (if_neg ht).symm

theorem Files.newPipe {a b : ℕ} {y' : OpenFile} (h : Files s) (hne : b ≠ a) (hp : p ≠ 0)
    (hcl : (s.pipe p).isOpen = false) (ha : (s.file a).type = .none) (hb : (s.file b).type = .none)
    (hy : y.ref ≠ 0 ∧ y.pipeEnd = some (p, false))
    (hy' : y'.ref ≠ 0 ∧ y'.pipeEnd = some (p, true)) :
    Files { s with pipe := upd s.pipe p ⟨true, true⟩, file := upd (upd s.file a y) b y' } := by
  have hside : ∀ w, (s.pipe p).side w = false := fun w =>
    Bool.eq_false_of_not_eq_true fun hw => by simp [PipeEnds.isOpen_of_side hw] at hcl
  -- the ends are opened one after the other
  have h1 := h.open (f := a) (z := ⟨true, false⟩) hy.1 (if_neg (by simp [ha])) hy.2 (hside _) rfl
    (fun w hw => by rw [hside, Bool.eq_true_of_not_eq_false hw]; rfl) hp
  have hfb : (upd s.file a y b).pipeEnd = .none := by
    rw [upd_of_ne _ _ hne]
    exact if_neg (by simp [hb])
  have h2 := h1.open (z := ⟨true, true⟩) hy'.1 hfb hy'.2 (by simp [PipeEnds.side]) rfl
    (fun w hw => by simp [PipeEnds.side, hw]) hp
  dsimp only at h2
  rwa [upd_idem] at h2

end

theorem Agrees.not_isOpen (h : Agrees k s t g) (hm : Holds k g m) (hp : p ≠ 0) (hf : p ∈ g.free) :
    (s.pipe p).isOpen = false := by
  by_contra hc
  have hr : g.page (.other (.pipe p)) = p := by
    rw [Ghost.page, h.pipe, if_pos (by simpa using hc)]
  exact hm.not_free (r := .other (.pipe p)) (by rwa [hr]) (by rwa [hr])

theorem pipealloc_spec (h : Inv k x) :
    wp (pipealloc k) (fun _ x' => Inv k x') (fun e _ => e ≠ .fuel) x := by
  unfold pipealloc
  refine wp_seq (filealloc_spec h) fun r x₁ hr => ?_
  obtain ⟨h1, hr⟩ := hr
  cases r with
  | none => exact h1
  | some a =>
  obtain ⟨-, ha, hta, -⟩ := hr a rfl
  refine wp_seq (filealloc_spec h1) fun r x₂ hr => ?_
  obtain ⟨h2, hr⟩ := hr
  cases r with
  | none =>
    exact wp_seq (fileclose_spec h2) fun _ _ hx => hx.1
  | some b =>
  obtain ⟨hb0, hb, htb, hkeep⟩ := hr b rfl
  have hne : b ≠ a := fun he => ha (he ▸ hb0)
  rw [← hkeep a hne.symm] at ha hta
  obtain ⟨g, hm, hag⟩ := h2.pages
  simp only [wp_bind, wp_onMem]
  refine wp_post (kalloc_spec hm (hag.hand 0)) fun r m₃ hr => ?_
  cases r with
  | none =>
    have h3 : Inv k { x₂ with mem := m₃ } := ⟨⟨g, hr.1, hag⟩, h2.files⟩
    simp only [wp_bind]
    refine wp_post (fileclose_spec h3) fun _ x₄ h4 => ?_
    exact wp_post (fileclose_spec h4.1) fun _ _ hx => hx.1
  | some p =>
  obtain ⟨hp, l, hl, h3⟩ := hr
  have hcl := hag.not_isOpen hm hp (by rw [hl]; simp)
  have h4 := h3.useOther (x := .pipe p) Ghost.setHand_hand
    (show g.other (.pipe p) = 0 by rw [hag.pipe, hcl]; rfl)
  rw [Ghost.setHand_setHand (g := g.setFree l) (hag.hand 0)] at h4
  have hag' : Agrees k { x₂.toKern with pipe := upd x₂.pipe p ⟨true, true⟩ } 0
      ((g.setFree l).setOther (.pipe p) p) := hag.setPipe rfl rfl rfl fun z => rfl
  exact ⟨⟨_, h4, hag'.congr rfl rfl rfl rfl⟩, h2.files.newPipe hne hp hcl hta htb ⟨ha, rfl⟩
    ⟨by simp [hne, hb], rfl⟩⟩

/-! ## Descriptors -/

/-- What concerns pages is as before. -/
structure Proc.Same (y y' : Proc) : Prop where
  state : y'.state = y.state
  pgdir : y'.pgdir = y.pgdir
  kstack : y'.kstack = y.kstack
  sz : y'.sz = y.sz

theorem Proc.Same.ok {y y' : Proc} (h : y.Same y') (hy : y.Ok) : y'.Ok := by
  refine ⟨fun h1 h2 => ?_, fun h1 => ?_⟩
  · rw [h.state] at h1 h2
    rw [h.pgdir, h.sz]
    exact hy.dir h1 h2
  · rw [h.state] at h1
    rw [h.kstack]
    exact hy.stack h1

theorem Agrees.same {P : ℕ → Proc} (h : Agrees k s t g) (hs : ∀ i, (s.proc i).Same (P i)) :
    Agrees k { s with proc := P } t g where
  hand := h.hand
  kpgdir := h.kpgdir
  temp := h.temp
  dir i := by
    rw [h.dir, Proc.dirPage, ← (hs i).state, ← (hs i).pgdir]
    rfl
  stack i := by
    rw [h.stack, Proc.stackPage, ← (hs i).state, ← (hs i).kstack]
    rfl
  cpu := h.cpu
  pipe := h.pipe
  boot := h.boot
  kernel := h.kernel
  proc i := (hs i).ok (h.proc i)

theorem Inv.same {P : ℕ → Proc} (h : Inv k x) (hs : ∀ i, (x.proc i).Same (P i)) :
    Inv k { x with proc := P } := by
  obtain ⟨g, hm, ha⟩ := h.pages
  exact ⟨⟨g, hm, ha.same hs⟩, h.files.congr rfl rfl⟩

theorem Proc.Same.refl (y : Proc) : y.Same y := ⟨rfl, rfl, rfl, rfl⟩

theorem Proc.Same.trans {y y' y'' : Proc} (h : y.Same y') (h' : y'.Same y'') : y.Same y'' :=
  ⟨h'.state.trans h.state, h'.pgdir.trans h.pgdir, h'.kstack.trans h.kstack, h'.sz.trans h.sz⟩

theorem Proc.Same.upd {P : ℕ → Proc} {y : Proc} (h : (P i).Same y) (j : ℕ) :
    (P j).Same (upd P i y j) :=
  upd_forall (F := fun j y => (P j).Same y) h (fun j _ => .refl (P j)) j

variable {cur fd np : ℕ} {F : Option ℕ}

theorem setFd_spec (h : Inv k x) :
    wp (setFd cur fd F) (fun _ x' => Inv k x' ∧ ∀ i, (x.proc i).Same (x'.proc i)) E x :=
  have hs := Proc.Same.upd (P := x.proc) (i := cur)
    (y := { x.proc cur with ofile := Xv6.upd (x.proc cur).ofile fd F }) ⟨rfl, rfl, rfl, rfl⟩
  ⟨h.same hs, hs⟩

theorem fdalloc_spec (h : Inv k x) :
    wp (fdalloc cur f) (fun _ x' => Inv k x') E x := by
  unfold fdalloc
  rw [wp_bind, wp_get]
  split
  · exact h
  · exact wp_seq (setFd_spec h) fun _ _ hx => hx.1

theorem sysPipe_spec (h : Inv k x) :
    wp (sysPipe k cur) (fun _ => Inv k) (fun e _ => e ≠ .fuel) x := by
  have close2 : ∀ {x a b}, Inv k x → wp (do fileclose k a; fileclose k b; return (-1 : ℤ))
    (fun _ => Inv k)
      (fun e _ => e ≠ .fuel) x := fun {x a b} h => by
    refine wp_seq (fileclose_spec h) fun _ x₁ h1 => ?_
    exact wp_seq (fileclose_spec h1.1) fun _ _ hx => hx.1
  unfold sysPipe
  refine wp_seq (pipealloc_spec h) fun r x₁ h1 => ?_
  cases r with
  | none => exact h1
  | some ab =>
  refine wp_seq (fdalloc_spec h1) fun r x₂ h2 => ?_
  cases r with
  | none => exact close2 h2
  | some fd0 =>
  refine wp_seq (fdalloc_spec h2) fun r x₃ h3 => ?_
  cases r with
  | none =>
    exact wp_seq (setFd_spec h3) fun _ x₄ h4 => by simpa only [wp_bind] using close2 h4.1
  | some fd1 => exact h3

theorem sysClose_spec (h : Inv k x) :
    wp (sysClose k cur fd) (fun _ => Inv k) (fun e _ => e ≠ .fuel) x := by
  unfold sysClose argfd
  simp only [wp_bind, wp_get, wp_pure]
  split
  · exact h
  · refine wp_seq (setFd_spec h) fun _ x₁ h1 => ?_
    exact wp_seq (fileclose_spec h1.1) fun _ _ hx => hx.1

theorem closeFiles_spec {fds : List ℕ} (h : Inv k x) :
    wp (closeFiles k cur fds) (fun _ x' => Inv k x' ∧ ∀ i, (x.proc i).Same (x'.proc i))
      (fun e _ => e ≠ .fuel) x := by
  induction fds generalizing x with
  | nil => exact ⟨h, fun _ => .refl _⟩
  | cons fd fds ih =>
    rw [closeFiles, wp_bind, wp_get]
    split
    · exact ih h
    refine wp_seq (fileclose_spec h) fun _ x₁ h1 => ?_
    refine wp_seq (setFd_spec h1.1) fun _ x₂ h2 => ?_
    refine wp_post (ih h2.1) fun _ x₃ h3 => ⟨h3.1, fun i => ?_⟩
    have hs := (h2.2 i).trans (h3.2 i)
    rwa [h1.2.1] at hs

/-- What `fork` does to the files: everything else stays, up to the descriptors. -/
structure Dups (x x' : Machine) : Prop where
  files : Files x'.toKern
  same : ∀ i, (x.proc i).Same (x'.proc i)
  rest : x'.mem = x.mem ∧ x'.pipe = x.pipe ∧ x'.kpgdir = x.kpgdir ∧ x'.stack = x.stack

theorem dupFiles_spec {fds : List ℕ} (hf : Files x.toKern) :
    wp (dupFiles cur np fds) (fun _ x' => Dups x x') (fun e _ => e ≠ .fuel) x := by
  induction fds generalizing x with
  | nil => exact ⟨hf, fun _ => .refl _, rfl, rfl, rfl, rfl⟩
  | cons fd fds ih =>
    rw [dupFiles, wp_bind, wp_get]
    split
    · exact ih hf
    refine wp_seq (filedup_spec hf) fun _ x₁ hx => ?_
    obtain ⟨hf1, T, rfl⟩ := hx
    rw [wp_bind, wp_setFd]
    refine wp_post (ih (hf1.congr rfl rfl))
      fun _ x₃ h3 => ⟨h3.files, fun i => .trans ?_ (h3.same i), h3.rest⟩
    refine Proc.Same.upd (P := x.proc) ?_ i
    exact ⟨rfl, rfl, rfl, rfl⟩

/-! ## Calls on processes -/

theorem allocproc_spec (hm : Holds k g x.mem)
    (ha : Agrees k x.toKern 0 g) (hf : Files x.toKern) :
    wp allocproc (fun r x' => match r with
      | none => Inv k x' ∧ ((∀ p < nproc, (x.proc p).state ≠ .unused) ∨ g.free = [] ∨
          g.sure = false)
      | some p => (x.proc p).state = .unused ∧ (x'.proc p).state = .embryo ∧
          (∀ i, i ≠ p → x'.proc i = x.proc i) ∧ Files x'.toKern ∧
          ∃ g', Holds k g' x'.mem ∧ Agrees k x'.toKern 0 g' ∧ (g'.sure = g.sure) ∧
            g.free.length = g'.free.length + 1) E x := by
  unfold allocproc
  rw [wp_bind, wp_get]
  cases hfind : (List.range nproc).find? fun p => (x.proc p).state = .unused with
  | none =>
    refine ⟨⟨⟨g, hm, ha⟩, hf⟩, .inl fun p hp => ?_⟩
    simpa using List.find?_eq_none.1 hfind p (List.mem_range.2 hp)
  | some p =>
  have hun : (x.proc p).state = .unused := by simpa using List.find?_some hfind
  have hdir : g.dir (.proc p) = 0 := by rw [ha.dir, Proc.dirPage_of_unused hun]
  have hst : g.other (.stack p) = 0 := by rw [ha.stack, Proc.stackPage_of_unused hun]
  simp only [wp_bind, wp_setProc, wp_modify, wp_onMem]
  refine wp_post (kalloc_spec hm (ha.hand 0)) fun r m₁ hr => ?_
  cases r with
  | none =>
    simp only [wp_bind, wp_setProc, upd_idem]
    refine ⟨⟨⟨g, hr.1, ha.touch (i := p) ⟨fun j hj => if_neg hj, rfl, rfl, rfl⟩ (if_pos rfl) ?_
      rfl ?_ ha.temp (fun _ _ _ => rfl) ?_ (fun _ _ => rfl) ha.kernel⟩, hf.congr rfl rfl⟩,
        .inr hr.2⟩
    · exact Proc.ok_of_unused rfl
    · rw [hdir, Proc.dirPage_of_unused rfl]
    · rw [hst, Proc.stackPage_of_unused rfl]
  | some q =>
  obtain ⟨hq, l, hl, h1⟩ := hr
  have h2 := h1.useOther (x := .stack p) Ghost.setHand_hand hst
  rw [Ghost.setHand_setHand (g := g.setFree l) (ha.hand 0)] at h2
  simp only [wp_bind, wp_setProc, upd_idem]
  refine ⟨hun, by simp, fun i hi => if_neg hi, hf.congr rfl rfl, _, h2, ha.touch (i := p)
    ⟨fun j hj => if_neg hj, rfl, rfl, rfl⟩ (if_pos rfl) ⟨fun _ he => ?_, fun _ => hq⟩
    rfl ?_ ha.temp (fun _ _ _ => rfl) ?_ (fun z hz => ?_) ha.kernel, rfl, by
    simp [hl, Ghost.setFree, Ghost.setOther]⟩
  · simp at he
  · rw [Proc.dirPage, if_pos (.inr (by simp))]
    exact hdir
  · rw [Proc.stackPage, if_neg (by simp)]
    simp [Ghost.setOther]
  · simp [Ghost.setOther, Ghost.setFree, hz]

theorem Agrees.dir_of_runnable (h : Agrees k s t g) (hr : (s.proc i).state = .runnable) :
    g.dir (.proc i) = (s.proc i).pgdir ∧ (s.proc i).pgdir ≠ 0 ∧ (s.proc i).sz ≤ kernBase := by
  have hst : ¬ ((s.proc i).state = .unused ∨ (s.proc i).state = .embryo) := by simp [hr]
  refine ⟨?_, (h.proc i).dir (by simp [hr]) (by simp [hr])⟩
  rw [h.dir, Proc.dirPage, if_neg hst]

theorem Agrees.setSz {sz : ℕ} (h : Agrees k s t g) (hsz : sz ≤ kernBase) :
    Agrees k { s with proc := upd s.proc i { s.proc i with sz } } t g := by
  refine h.touch (i := i) ⟨fun j hj => if_neg hj, rfl, rfl, rfl⟩ (if_pos rfl) ?_ rfl
    (h.dir i) h.temp (fun _ _ _ => rfl) (h.stack i) (fun _ _ => rfl) h.kernel
  exact ⟨fun h1 h2 => ⟨((h.proc i).dir h1 h2).1, hsz⟩, (h.proc i).stack⟩

theorem growproc_spec {n : ℤ} (h : Inv k x) (hr : (x.proc cur).state = .runnable) :
    wp (growproc k cur n) (fun _ => Inv k) (fun e _ => e ≠ .fuel) x := by
  obtain ⟨g, hm, ha⟩ := h.pages
  obtain ⟨hd, hd0, hsz⟩ := ha.dir_of_runnable hr
  rw [← hd] at hd0
  -- the process gets its new size, or fails
  have fin : ∀ {m' : Mem} {sz : ℕ}, (∃ g', UserFrame (.proc cur) g g' ∧ Holds k g' m') →
      (sz = 0 ∨ sz ≤ kernBase) → wp (if sz = 0 then return -1 else do
        setProc cur fun x => { x with sz }
        return 0 : Kernel ℤ) (fun _ => Inv k) (fun e _ => e ≠ .fuel) { x with mem := m' } := by
    rintro m' sz ⟨g', hf, h'⟩ hsz'
    refine wp_ite.2 ⟨fun _ => ⟨⟨g', h', ha.frame hf⟩, h.files⟩, fun hne => ?_⟩
    rw [wp_bind, wp_setProc]
    exact ⟨⟨g', h', (ha.frame hf).setSz (hsz'.resolve_left hne)⟩, h.files.congr rfl rfl⟩
  unfold growproc
  simp only [wp_bind, wp_get]
  generalize (((x.proc cur).sz + n) % (uintSize : ℤ)).toNat = newsz
  rw [← hd]
  refine wp_ite.2 ⟨fun _ => ?_, fun _ => wp_ite.2 ⟨fun _ => ?_, fun _ => h⟩⟩
  · rw [wp_bind, wp_onMem]
    refine wp_mono (allocuvm_spec hm hd0 (ha.hand 0) (ha.hand 1)) (fun r m' hx => ?_)
      fun e _ he => by rw [he]; decide
    exact fin hx.1 (by omega)
  rw [wp_bind, wp_onMem]
  refine wp_total (deallocuvm_spec hm hd0 hsz) fun r m' hx => ?_
  obtain ⟨hle, g', hf, h', -⟩ := hx
  exact fin ⟨g', hf, h'⟩ (.inr (by omega))

theorem sysSbrk_spec {n : ℤ} (h : Inv k x) (hr : (x.proc cur).state = .runnable) :
    wp (sysSbrk k cur n) (fun _ => Inv k) (fun e _ => e ≠ .fuel) x := by
  unfold sysSbrk
  simp only [wp_bind, wp_get]
  refine wp_post (growproc_spec h hr) fun r x' h' => ?_
  exact wp_ite.2 ⟨fun _ => h', fun _ => h'⟩

theorem Holds.kfree_stack {q : ℕ} {E : Panic → Mem → Prop} (h : Holds k g m)
    (hq : g.other (.stack i) = q) (h0 : q ≠ 0) :
    wp (kfree k q) (fun _ m' => Holds k ((g.setFree (q :: g.free)).setOther (.stack i) 0) m') E
    m := by
  have hkf := kfree_role h (r := .other (.stack i)) (by rwa [Ghost.page, hq])
  rw [Ghost.page, hq] at hkf
  exact wp_of_ok hkf (h.free_other hq h0)

/-- The end of `fork`: the new process has its directory. -/
theorem Agrees.born {d sz : ℕ} {y : Proc} (h : Agrees k s t g) (ht : Touches i s s')
    (hemb : (s.proc i).state = .embryo) (hf : Frame (.proc i) (g.setDir (.proc i) d) g')
    (hk : ∀ u, userPages ≤ u → g'.ent (.proc i) u = kernelEntry k u) (hd : d ≠ 0)
    (hsz : sz ≤ kernBase) (he : s'.proc i = y)
    (hy : y.state = .runnable ∧ y.pgdir = d ∧ y.kstack = (s.proc i).kstack ∧ y.sz = sz) :
    Agrees k s' t g' := by
  obtain ⟨hst, hpg, hks, hsz'⟩ := hy
  have hdir : ∀ o, o ≠ .proc i → g'.dir o = g.dir o := fun o ho => by
    rw [hf.dir]
    simp [Ghost.setDir, ho]
  refine h.touch ht he ⟨fun _ _ => ⟨hpg ▸ hd, hsz' ▸ hsz⟩, fun _ => ?_⟩ hf.hand ?_ ?_
    (fun o ho _ => hdir o ho) ?_ (fun z _ => by rw [hf.other]; rfl) fun o ho u hu => ?_
  · rw [hks]
    exact (h.proc i).stack (by simp [hemb])
  · rw [hf.dir, Proc.dirPage, if_neg (by simp [hst]), hpg]
    simp [Ghost.setDir]
  · rw [hdir .temp (by simp), h.temp]
  · rw [hf.other, Proc.stackPage, if_neg (by simp [hst]), hks]
    show g.other (.stack i) = _
    rw [h.stack, Proc.stackPage, if_neg (by simp [hemb])]
  · by_cases hoi : o = .proc i
    · rw [hoi]
      exact hk u hu
    · rw [hf.ent o hoi]
      rw [hdir o hoi] at ho
      exact h.kernel o ho u hu

theorem fork_spec (h : Inv k x) (hr : (x.proc cur).state = .runnable) :
    wp (fork k cur) (fun _ => Inv k) (fun e _ => e ≠ .fuel) x := by
  obtain ⟨g, hm, ha⟩ := h.pages
  unfold fork
  refine wp_seq (allocproc_spec hm ha h.files) fun r x₁ hx => ?_
  cases r with
  | none => exact hx.1
  | some np =>
  obtain ⟨hun, hemb, hkeep, hf1, g₁, hm1, ha1, -⟩ := hx
  have hne : cur ≠ np := fun he => by
    rw [he, hun] at hr
    cases hr
  have hr1 : (x₁.proc cur).state = .runnable := by rw [hkeep cur hne, hr]
  obtain ⟨hd, hd0, hsz⟩ := ha1.dir_of_runnable hr1
  have hst : g₁.other (.stack np) = (x₁.proc np).kstack := by
    rw [ha1.stack, Proc.stackPage, if_neg (by simp [hemb])]
  have hst0 : (x₁.proc np).kstack ≠ 0 := (ha1.proc np).stack (by simp [hemb])
  have hnp : g₁.dir (.proc np) = 0 := by rw [ha1.dir, Proc.dirPage, if_pos (.inr hemb)]
  simp only [wp_bind, wp_get, wp_onMem]
  rw [← hd] at hd0 ⊢
  refine wp_mono (copyuvm_spec hm1 hd0 hnp ha1.hand hsz) (fun r m₂ hx => ?_) fun e _ he => ?_
  · cases r with
    | none =>
      obtain ⟨l, h2⟩ := hx
      simp only [wp_bind, wp_get, wp_onMem]
      refine wp_post (h2.kfree_stack hst hst0) fun _ m₃ h3 => ?_
      rw [wp_setProc]
      refine ⟨⟨_, h3, ha1.touch (i := np) ⟨fun j hj => if_neg hj, rfl, rfl, rfl⟩ (if_pos rfl)
        (Proc.ok_of_unused rfl) rfl hnp ha1.temp (fun _ _ _ => rfl) ?_ (fun z hz => ?_) ha1.kernel⟩,
        hf1.congr rfl rfl⟩
      · simp [Ghost.setOther, Proc.stackPage]
      · simp [Ghost.setOther, Ghost.setFree, hz]
    | some d =>
    obtain ⟨hd', g₂, hf2, h2, hk⟩ := hx
    simp only [wp_bind, wp_setProc]
    refine wp_post (dupFiles_spec (hf1.congr rfl rfl)) fun _ x₃ h3 => ?_
    obtain ⟨hmem, hpipe, hkp, hstk⟩ := h3.rest
    -- the same without the files
    obtain ⟨y, hy⟩ : ∃ y : Proc, y = { x₁.proc np with
        pgdir := d, sz := (x₁.proc cur).sz, parent := some cur, state := .runnable } := ⟨_, rfl⟩
    have hborn : Agrees k { x₁.toKern with proc := upd x₁.proc np y } 0 g₂ :=
      ha1.born ⟨fun j hj => if_neg hj, rfl, rfl, rfl⟩ hemb hf2 hk hd' hsz (if_pos rfl)
        (by rw [hy]; exact ⟨rfl, rfl, rfl, rfl⟩)
    simp only [wp_get, wp_pure]
    refine ⟨⟨g₂, hmem ▸ h2, (hborn.same fun j => ?_).congr rfl hpipe hkp hstk⟩,
      h3.files.congr rfl rfl⟩
    have hs := h3.same j
    by_cases hj : j = np
    · subst hj
      simp only [upd, if_true] at hs ⊢
      rw [hy]
      exact ⟨rfl, hs.pgdir, hs.kstack, hs.sz⟩
    · simp only [upd, if_neg hj] at hs ⊢
      exact hs
  · rcases he with rfl | rfl | rfl <;> decide

theorem exit_spec (h : Inv k x) (hr : (x.proc cur).state = .runnable) :
    wp (exit k cur) (fun _ => Inv k) (fun e _ => e ≠ .fuel) x := by
  unfold exit
  rw [wp_bind, wp_get]
  refine wp_ite.2 ⟨fun _ => (by decide : Panic.initExiting ≠ .fuel), fun _ => ?_⟩
  refine wp_seq (closeFiles_spec h) fun _ x₁ h1 => ?_
  have hs : ∀ i, (x₁.proc i).Same ((reparent cur x₁).proc i) := fun i => by
    unfold reparent
    dsimp only
    split_ifs
    · exact ⟨rfl, rfl, rfl, rfl⟩
    · exact .refl _
  have h2 : Inv k (reparent cur x₁) := h1.1.same hs
  have hr2 : ((reparent cur x₁).proc cur).state = .runnable := by
    rw [(hs cur).state, (h1.2 cur).state, hr]
  rw [wp_bind, wp_modify, wp_setProc]
  generalize reparent cur x₁ = x₂ at h2 hr2
  obtain ⟨g, hm, ha⟩ := h2.pages
  obtain ⟨hd, hok⟩ := ha.dir_of_runnable hr2
  refine ⟨⟨g, hm, ha.touch (i := cur) ⟨fun j hj => if_neg hj, rfl, rfl, rfl⟩ (if_pos rfl)
    ⟨fun _ _ => hok, fun _ => (ha.proc cur).stack (by simp [hr2])⟩ rfl hd ha.temp
    (fun _ _ _ => rfl) ?_ (fun _ _ => rfl) ha.kernel⟩, h2.files.congr rfl rfl⟩
  rw [ha.stack, Proc.stackPage, if_neg (by simp [hr2])]
  rfl

theorem Agrees.kernel_erase {l : List ℕ} (h : Agrees k s t g) (o' : Owner)
    (ho' : ((g.erase o).setFree l).dir o' ≠ 0) (u : ℕ) (hu : userPages ≤ u) :
    ((g.erase o).setFree l).ent o' u = kernelEntry k u := by
  by_cases hoo : o' = o
  · simp [hoo, Ghost.erase, Ghost.setFree] at ho'
  · simp only [Ghost.erase, Ghost.setFree, upd, if_neg hoo] at ho' ⊢
    exact h.kernel o' ho' u hu

theorem wait_spec (h : Inv k x) : wp (wait k cur) (fun _ => Inv k) (fun e _ => e ≠ .fuel) x := by
  obtain ⟨g, hm, ha⟩ := h.pages
  unfold wait
  rw [wp_bind, wp_get]
  cases hfind : (List.range nproc).find? fun p =>
      decide ((x.proc p).parent = some cur ∧ (x.proc p).state = .zombie) with
  | none => exact h
  | some p =>
    have hz : (x.proc p).state = .zombie := by
      have := List.find?_some hfind
      simp only [decide_eq_true_eq] at this
      exact this.2
    have hst : g.other (.stack p) = (x.proc p).kstack := by
      rw [ha.stack, Proc.stackPage, if_neg (by simp [hz])]
    have hdir : g.dir (.proc p) = (x.proc p).pgdir := by
      rw [ha.dir, Proc.dirPage, if_neg (by simp [hz])]
    have hd0 := ((ha.proc p).dir (by simp [hz]) (by simp [hz])).1
    simp only [wp_bind, wp_onMem]
    refine wp_post (hm.kfree_stack hst ((ha.proc p).stack (by simp [hz]))) fun _ m₁ h1 => ?_
    rw [wp_setProc]
    refine wp_total (freevm_spec (o := Owner.proc p) h1 hdir hd0 ha.hand) fun _ m₂ hx => ?_
    obtain ⟨l, h2⟩ := hx
    simp only [wp_setProc, upd_idem, wp_pure]
    refine ⟨⟨_, h2, ha.touch (i := p) ⟨fun j hj => if_neg hj, rfl, rfl, rfl⟩ (if_pos rfl)
      (Proc.ok_of_unused rfl) rfl ?_ ha.temp (fun o ho _ => ?_) ?_ (fun z hz => ?_) ?_⟩,
      h.files.congr rfl rfl⟩
    · simp [Ghost.erase, Ghost.setFree, Proc.dirPage]
    · simp [Ghost.erase, Ghost.setFree, Ghost.setOther, ho]
    · simp [Ghost.erase, Ghost.setFree, Ghost.setOther, Proc.stackPage]
    · simp [Ghost.erase, Ghost.setFree, Ghost.setOther, hz]
    · intro o ho u hu
      exact ha.kernel_erase (o := .proc p) (l := l) o ho u hu

theorem Agrees.newTemp {d : ℕ} (h : Agrees k s t g) (hf : Frame .temp (g.setDir .temp d) g')
    (hk : ∀ u, g'.ent .temp u = kernelEntry k u) : Agrees k s d g' := by
  have hdir : ∀ o, o ≠ .temp → g'.dir o = g.dir o := fun o ho => by
    rw [hf.dir]
    simp [Ghost.setDir, ho]
  refine ⟨fun n => by rw [hf.hand]; exact h.hand n, by rw [hdir .kernel (by simp), h.kpgdir],
    by rw [hf.dir]; simp [Ghost.setDir], fun i => by rw [hdir (.proc i) (by simp), h.dir],
    fun i => by rw [hf.other]; exact h.stack i, fun c => by rw [hf.other]; exact h.cpu c,
    fun p => by rw [hf.other]; exact h.pipe p, fun p => by rw [hf.other]; exact h.boot p,
    fun o ho u hu => ?_, h.proc⟩
  by_cases hoo : o = .temp
  · rw [hoo, hk]
  · rw [hf.ent o hoo]
    rw [hdir o hoo] at ho
    exact h.kernel o ho u hu

theorem Agrees.dropTemp {l : List ℕ} (h : Agrees k s t g) :
    Agrees k s 0 ((g.erase .temp).setFree l) where
  hand := h.hand
  kpgdir := by simp [Ghost.erase, Ghost.setFree, h.kpgdir]
  temp := by simp [Ghost.erase, Ghost.setFree]
  dir i := by simp [Ghost.erase, Ghost.setFree, h.dir]
  stack := h.stack
  cpu := h.cpu
  pipe := h.pipe
  boot := h.boot
  kernel o ho u hu := h.kernel_erase o ho u hu
  proc := h.proc

theorem Agrees.commit {d sz : ℕ} (h : Agrees k s d g) (hd : d ≠ 0) (hsz : sz ≤ kernBase)
    (hr : (s.proc i).state = .runnable) :
    Agrees k { s with proc := upd s.proc i { s.proc i with pgdir := d, sz } } (s.proc i).pgdir
      (g.reindex (Equiv.swap .temp (.proc i))) := by
  refine h.touch (i := i) ⟨fun j hj => if_neg hj, rfl, rfl, rfl⟩ (if_pos rfl)
    ⟨fun _ _ => ⟨hd, hsz⟩, (h.proc i).stack⟩ rfl ?_ ?_ (fun o ho ho' => ?_) ?_ (fun _ _ => rfl)
    fun o ho u hu => ?_
  · rw [Proc.dirPage, if_neg (by simp [hr])]
    show g.dir (Equiv.swap _ _ _) = d
    rw [Equiv.swap_apply_right, h.temp]
  · show g.dir (Equiv.swap _ _ _) = _
    rw [Equiv.swap_apply_left, (h.dir_of_runnable hr).1]
  · show g.dir (Equiv.swap _ _ _) = _
    rw [Equiv.swap_apply_of_ne_of_ne ho' ho]
  · exact h.stack i
  · exact h.kernel _ ho u hu

theorem exec_spec {ip : Option File} {argv : List (List UInt8)} (h : Inv k x)
    (hr : (x.proc cur).state = .runnable) :
    wp (exec k cur ip argv) (fun _ => Inv k) (fun e _ => e ≠ .fuel) x := by
  obtain ⟨g, hm, ha⟩ := h.pages
  unfold exec
  cases ip with
  | none => exact h
  | some ip =>
  refine wp_ite.2 ⟨fun _ => h, fun _ => wp_ite.2 ⟨fun _ => h, fun _ => ?_⟩⟩
  rw [wp_bind, wp_onMem]
  refine wp_total (setupkvm_spec 0 hm ha.temp ha.hand) fun r m₁ hx => ?_
  cases r with
  | none =>
    obtain ⟨⟨l, h1⟩, -⟩ := hx
    exact ⟨⟨_, h1, ha.frame (o := .temp) (.setFree l)⟩, h.files⟩
  | some d =>
  obtain ⟨hd, g₁, hf1, h1, -, hk⟩ := hx
  have ha1 := ha.newTemp hf1 hk
  have hd1 : g₁.dir .temp ≠ 0 := by rwa [ha1.temp]
  simp only [wp_bind, wp_onMem]
  rw [← ha1.temp]
  refine wp_post (loadImage_spec h1 hd1 (ha1.hand 0) (ha1.hand 1) (ha1.guarded hd1))
    fun r m₂ hx => ?_
  obtain ⟨⟨g₂, hf2, h2⟩, hsz⟩ := hx
  have ha2 := ha1.frame hf2
  rw [ha1.temp]
  cases r with
  | none =>
    simp only [wp_bind, wp_onMem]
    refine wp_total (freevm_spec h2 ha2.temp hd ha2.hand) fun _ m₃ hx => ?_
    obtain ⟨l, h3⟩ := hx
    exact ⟨⟨_, h3, ha2.dropTemp⟩, h.files⟩
  | some sz =>
    have hcom := ha2.commit (i := cur) hd (le_of_lt (hsz sz rfl)) hr
    simp only [wp_bind, wp_get, wp_setProc, wp_onMem]
    have hold := (ha.dir_of_runnable hr).2.1
    refine wp_total (freevm_spec (h2.reindex _) hcom.temp hold hcom.hand) fun _ m₃ hx => ?_
    obtain ⟨l, h3⟩ := hx
    exact ⟨⟨_, h3, hcom.dropTemp⟩, h.files.congr rfl rfl⟩

/-- **Every call keeps the invariant**, and none goes on for ever. -/
theorem Op.perform_spec {op : Op} (h : Inv k x) (hr : (x.proc cur).state = .runnable) :
    wp (op.perform k cur) (fun _ => Inv k) (fun e _ => e ≠ .fuel) x := by
  cases op with
  | fork => exact fork_spec h hr
  | exec ip argv => exact exec_spec h hr
  | sbrk n => exact sysSbrk_spec h hr
  | exit =>
    simp only [Op.perform, wp_bind]
    exact exit_spec h hr
  | wait => exact wait_spec h
  | pipe => exact sysPipe_spec h
  | close fd => exact sysClose_spec h

end Vm

end Xv6
