import Mathlib.Data.List.Nodup
import Xv6.Vm.Pages
import Xv6.LTS.Basic

/-!
# Booting, and every page has one use

`main` gives the pages after the kernel to the allocator in two parts, and uses some between the
two. After it the invariant `Inv` holds, and the calls of the processes keep it.  `Machine.page`
reads the uses of the pages off the free list, the page tables and the kernel's data; under the
invariant every page after the kernel has exactly one.
-/

namespace Xv6

namespace Vm

variable {k : Symbols} {g g' : Ghost Owner Thing} {m m' : Mem} {x x' : Machine} {lo p n c : ℕ}

/-! ## Before the first process -/

/-- The kernel before `userinit`; the allocator does not know the pages from `lo` on. -/
structure Boot (k : Symbols) (lo : ℕ) (x : Machine) (g : Ghost Owner Thing) : Prop where
  sure : g.sure = true
  hand : ∀ n, g.hand n = 0
  kpgdir : g.dir .kernel = x.kpgdir
  dir : ∀ o, o ≠ .kernel → g.dir o = 0
  kernel : g.dir .kernel ≠ 0 → ∀ u, g.ent .kernel u = kernelEntry k u
  stack : ∀ i, g.other (.stack i) = 0
  cpu : ∀ c, g.other (.cpu c) = x.stack c
  pipe : ∀ p, g.other (.pipe p) = 0
  boot : ∀ p, g.other (.boot p) = if lo ≤ p ∧ p < physPages then p else 0
  proc : ∀ i, (x.proc i).state = .unused
  noFile : ∀ f, (x.file f).ref = 0 ∧ (x.file f).type = .none
  noPipe : ∀ p, (x.pipe p).isOpen = false

/-- Nothing is in use. -/
def blank (k : Symbols) : Ghost Owner Thing where
  dir _ := 0
  tab _ _ := 0
  ent _ _ := 0
  hand _ := 0
  other z := match z with
    | .boot p => if k.first ≤ p ∧ p < physPages then p else 0
    | _ => 0
  free := []
  sure := true

theorem blank_page {r : Role Owner Thing} (h : (blank k).page r ≠ 0) :
    ∃ p, r = .other (.boot p) ∧ (blank k).page r = p ∧ k.first ≤ p ∧ p < physPages := by
  cases r with
  | user o v => exact absurd (by simp [Ghost.page, blank]) h
  | other z =>
    cases z with
    | boot p =>
      by_cases hp : k.first ≤ p ∧ p < physPages
      · exact ⟨p, rfl, if_pos hp, hp⟩
      · exact absurd (if_neg hp) h
    | _ => exact absurd rfl h
  | _ => exact absurd rfl h

theorem blank_holds (page : ℕ → Bytes) : Holds k (blank k) (Machine.start page).mem where
  tables := ⟨nofun, nofun, fun _ _ _ => rfl, fun _ _ _ => rfl, fun _ _ _ => .inl rfl⟩
  pool := by
    refine ⟨fun _ _ => rfl, .nil, List.nodup_nil, nofun,
      ⟨fun r hr => ?_, fun r hr => ?_, fun _ _ => rfl, fun r r' hr he => ?_, fun _ _ => rfl,
        fun p hp _ => ?_⟩⟩
    · obtain ⟨p, -, hp, hx⟩ := blank_page hr
      exact hp ▸ hx.1
    · obtain ⟨p, -, hp, hx⟩ := blank_page hr
      exact hp ▸ hx.2
    · obtain ⟨p, rfl, hp, -⟩ := blank_page hr
      obtain ⟨p', rfl, hp', -⟩ := blank_page (he ▸ hr)
      rw [← hp, ← hp', he]
    · by_cases hf : k.first ≤ p
      · exact .inr ⟨.other (.boot p), if_pos ⟨hf, hp⟩⟩
      · exact .inl (by omega)

theorem blank_boot (page : ℕ → Bytes) : Boot k k.first (Machine.start page) (blank k) where
  sure := rfl
  hand _ := rfl
  kpgdir := rfl
  dir _ _ := rfl
  kernel h := absurd rfl h
  stack _ := rfl
  cpu _ := rfl
  pipe _ := rfl
  boot _ := rfl
  proc _ := rfl
  noFile _ := ⟨rfl, rfl⟩
  noPipe _ := rfl

theorem Boot.free (h : Boot k lo x g) (hlo : lo < physPages) :
    Boot k (lo + 1) { x with mem := m } ((g.setFree (lo :: g.free)).setOther (.boot lo) 0) where
  sure := h.sure
  hand := h.hand
  kpgdir := h.kpgdir
  dir := h.dir
  kernel := h.kernel
  stack := h.stack
  cpu := h.cpu
  pipe := h.pipe
  boot p := by
    show upd g.other _ 0 _ = _
    by_cases hp : p = lo
    · subst hp
      simp
    have : upd g.other (.boot lo) 0 (.boot p) = g.other (.boot p) := if_neg (by simpa using hp)
    rw [this, h.boot]
    have : lo ≤ p ↔ lo + 1 ≤ p := by omega
    simp only [this]
  proc := h.proc
  noFile := h.noFile
  noPipe := h.noPipe

/-- `freerange` gives the allocator the pages it says. -/
theorem freerange_spec (hm : Holds k g x.mem) (h : Boot k lo x g) (hlo : 0 < lo)
    (hn : lo + n ≤ physPages) :
    wp (freerange k lo n)
    (fun _ m' => ∃ g', Holds k g' m' ∧ Boot k (lo + n) { x with mem := m' } g' ∧
      g'.free.length = g.free.length + n) (fun _ _ => False) x.mem := by
  induction n generalizing g x lo with
  | zero => exact ⟨g, hm, h, rfl⟩
  | succ n ih =>
    have hb : g.other (.boot lo) = lo := by rw [h.boot, if_pos ⟨le_rfl, by omega⟩]
    have hk := kfree_role hm (r := .other (.boot lo)) (by rw [Ghost.page, hb]; omega)
    rw [Ghost.page, hb] at hk
    have hm1 := hm.free_other hb (by omega)
    rw [freerange, wp_bind]
    refine wp_of_ok hk ?_
    refine wp_post (ih (x := { x with mem := x.mem.freed lo }) hm1 (h.free (by omega)) (by omega)
      (by omega)) fun _ m₂ hx => ?_
    obtain ⟨g₂, hm2, hb2, hl⟩ := hx
    refine ⟨g₂, hm2, ?_, ?_⟩
    · rw [show lo + (n + 1) = lo + 1 + n by omega]
      exact hb2
    · rw [hl]
      simp only [Ghost.setOther, Ghost.setFree, List.length_cons]
      omega

theorem Boot.setupkvm {d : ℕ} (h : Boot k lo x g) (hf : Frame .kernel (g.setDir .kernel d) g')
    (hk : ∀ u, g'.ent .kernel u = kernelEntry k u) :
    Boot k lo { x with kpgdir := d, mem := m } g' where
  sure := hf.sure.trans h.sure
  hand n := by rw [hf.hand]; exact h.hand n
  kpgdir := by rw [hf.dir]; simp [Ghost.setDir]
  dir o ho := by rw [hf.dir]; simp [Ghost.setDir, ho, h.dir o ho]
  kernel _ := hk
  stack i := by rw [hf.other]; exact h.stack i
  cpu c := by rw [hf.other]; exact h.cpu c
  pipe p := by rw [hf.other]; exact h.pipe p
  boot p := by rw [hf.other]; exact h.boot p
  proc := h.proc
  noFile := h.noFile
  noPipe := h.noPipe

theorem Boot.cpuStack {l : List ℕ} (h : Boot k lo x g) :
    Boot k lo { x with stack := upd x.stack c p, mem := m }
    ((g.setFree l).setOther (.cpu c) p) where
  sure := h.sure
  hand := h.hand
  kpgdir := h.kpgdir
  dir := h.dir
  kernel := h.kernel
  stack := h.stack
  cpu c' := by
    show upd g.other _ p _ = upd x.stack c p c'
    by_cases hc : c' = c
    · subst hc
      simp
    · simp [hc, h.cpu]
  pipe := h.pipe
  boot := h.boot
  proc := h.proc
  noFile := h.noFile
  noPipe := h.noPipe

theorem startothers_spec {cs : List ℕ} (hm : Holds k g x.mem) (h : Boot k lo x g) (hnd : cs.Nodup)
    (hcs : ∀ c ∈ cs, x.stack c = 0) :
    wp (startothers cs) (fun _ x' => ∃ g', Holds k g' x'.mem ∧ Boot k lo x' g' ∧
      x'.kpgdir = x.kpgdir) (fun _ _ => False) x := by
  induction cs generalizing g x with
  | nil => exact ⟨g, hm, h, rfl⟩
  | cons c cs ih =>
    obtain ⟨hc, hnd⟩ := List.nodup_cons.1 hnd
    have hother : g.other (.cpu c) = 0 := by rw [h.cpu, hcs c (by simp)]
    have hcs' : ∀ q, ∀ c' ∈ cs, upd x.stack c q c' = 0 := fun q c' hc' => by
      have : c' ≠ c := fun he => hc (he ▸ hc')
      rw [upd, if_neg this, hcs c' (by simp [hc'])]
    simp only [startothers, wp_bind, wp_onMem, wp_modify]
    refine wp_post (kalloc_spec hm (h.hand 0)) fun r m₁ hr => ?_
    cases r with
    | none =>
      have hb := h.cpuStack (c := c) (p := 0) (l := g.free) (m := m₁)
      have he : (g.setFree g.free).setOther (.cpu c) 0 = g := by
        have : upd g.other (.cpu c) 0 = g.other := by simp [Function.update_eq_self_iff, hother]
        simp only [Ghost.setOther, Ghost.setFree, this]
      rw [he] at hb
      exact ih hr.1 hb hnd (hcs' 0)
    | some q =>
      obtain ⟨-, l, -, hm1⟩ := hr
      have hm2 := hm1.useOther (x := .cpu c) Ghost.setHand_hand hother
      rw [Ghost.setHand_setHand (g := g.setFree l) (h.hand 0)] at hm2
      exact ih hm2 h.cpuStack hnd (hcs' q)

theorem Boot.agrees (h : Boot k physPages x g) : Agrees k x.toKern 0 g where
  hand := h.hand
  kpgdir := h.kpgdir
  temp := h.dir .temp nofun
  dir i := by rw [h.dir (.proc i) nofun, Proc.dirPage_of_unused (h.proc i)]
  stack i := by rw [h.stack, Proc.stackPage_of_unused (h.proc i)]
  cpu := h.cpu
  pipe p := by rw [h.pipe, h.noPipe]; rfl
  boot p := by rw [h.boot, if_neg (by omega)]
  kernel o ho u _ := by
    by_cases hk : o = .kernel
    · subst hk
      exact h.kernel ho u
    · exact absurd (h.dir o hk) ho
  proc i := Proc.ok_of_unused (h.proc i)

theorem Boot.files (h : Boot k lo x g) : Files x.toKern where
  none f _ := (h.noFile f).2
  names := by
    have hend : ∀ f, (x.file f).pipeEnd = none := fun f => by simp [OpenFile.pipeEnd, h.noFile]
    refine ⟨fun f _ b hf => ?_, fun b => ?_⟩
    · rw [hend] at hf
      cases hf
    · have := h.noPipe b.1
      simp_all [PipeEnds.isOpen, PipeEnds.side]
  page p hp := by rw [h.noPipe] at hp; cases hp

/-! ## The first process -/

/-- The invariant, with `n` free pages that `kalloc` gives out. -/
structure Spare (k : Symbols) (n : ℕ) (x : Machine) : Prop where
  pages : ∃ g, Holds k g x.mem ∧ Agrees k x.toKern 0 g ∧ g.sure = true ∧ n ≤ g.free.length
  files : Files x.toKern

theorem Spare.inv (h : Spare k n x) : Inv k x := by
  obtain ⟨g, hm, ha, -⟩ := h.pages
  exact ⟨⟨g, hm, ha⟩, h.files⟩

theorem userinit_spec {initcode : Bytes} {size : ℕ} (hm : Holds k g x.mem)
    (ha : Agrees k x.toKern 0 g) (hf : Files x.toKern) (hun : (x.proc 0).state = .unused)
    (hs : g.sure = true) (hl : 68 + n ≤ g.free.length) :
    wp (userinit k initcode size) (fun _ x' => Spare k n x' ∧ ∃ i, (x'.proc i).state = .runnable)
      (fun e _ => e = .inituvm ∧ pgSize ≤ size) x := by
  have hne : ∀ {g : Ghost Owner Thing}, 1 ≤ g.free.length → g.sure = true →
      ¬ (g.free = [] ∨ g.sure = false) :=
    fun hl hs hx => by
      rcases hx with hx | hx
      · rw [hx] at hl; simp at hl
      · rw [hs] at hx; cases hx
  unfold userinit
  refine wp_seq (allocproc_spec hm ha hf) fun r x₁ hx => ?_
  cases r with
  | none =>
    rcases hx.2 with hx | hx
    · exact absurd hun (hx 0 (by decide))
    · exact absurd hx (hne (by omega) hs)
  | some p =>
  obtain ⟨-, hemb, -, hf1, g₁, hm1, ha1, hs1, hl1⟩ := hx
  have hp : g₁.dir (.proc p) = 0 := by rw [ha1.dir, Proc.dirPage, if_pos (.inr hemb)]
  simp only [wp_bind, wp_modify, wp_onMem]
  refine wp_total (setupkvm_spec (2 + n) hm1 hp ha1.hand) fun r m₂ hx => ?_
  cases r with
  | none => exact absurd ⟨hs1.trans hs, by omega⟩ hx.2
  | some d =>
  obtain ⟨hd, g₂, hf2, hm2, hl2, hk⟩ := hx
  have hl2 := hl2 (by omega)
  have hs2 : g₂.sure = true := by rw [hf2.sure]; exact hs1.trans hs
  have hdir : g₂.dir (.proc p) = d := by rw [hf2.dir]; simp [Ghost.setDir]
  have hh : ∀ n, g₂.hand n = 0 := fun n => by rw [hf2.hand]; exact ha1.hand n
  simp only [wp_bind, wp_setProc, wp_onMem]
  have hinit :=
    (inituvm_spec hm2 (hdir ▸ hd) (hh 0) (hh 1) (by decide) : wp (inituvm _ initcode size) _ _ _)
  rw [hdir] at hinit
  refine wp_mono hinit (fun _ m₃ hx => ?_) fun e _ he => ?_
  · obtain ⟨g₃, hm3, ⟨hf3, hl3⟩ | ⟨hx, -⟩⟩ := hx
    · simp only [upd_idem]
      refine ⟨⟨⟨g₃, hm3, ha1.born (i := p) (d := d)
        ⟨fun j hj => if_neg hj, rfl, rfl, rfl⟩ hemb (hf2.trans hf3.toFrame) (fun u hu => ?_) hd
        (by decide : pgSize ≤ kernBase) (if_pos rfl) ?_, hf3.sure.trans hs2, by omega⟩,
        hf1.congr rfl rfl⟩, p, ?_⟩
      · rw [hf3.kernel u hu, hk]
      · simp
      · simp
    · rcases hx with hx | hx
      · omega
      · rw [hs2] at hx; cases hx
  · rcases he with he | ⟨-, he⟩ | ⟨-, he⟩
    · exact he
    · rw [hk, kernelEntry_user (by decide)] at he
      cases he
    · exact absurd he (hne (by omega) hs2)

/-- **Booting** establishes the invariant.  It succeeds if the first 4 MB have room for the page
tables of the kernel. -/
theorem main_spec (ncpu : ℕ) (initcode : Bytes) (size : ℕ) (page : ℕ → Bytes) :
    wp (main k ncpu initcode size)
      (fun _ x' => Spare k 56000 x' ∧ ∃ i, (x'.proc i).state = .runnable)
      (fun e _ => e ≠ .fuel ∧ ¬ (k.first + 65 ≤ 1024 ∧ size < pgSize)) (Machine.start page) := by
  have hphys : physPages = 57344 := by decide
  have hpos := k.first_pos
  obtain ⟨lo, hlo, hlo'⟩ : ∃ lo, lo = k.first + (1024 - k.first) ∧ 1024 ≤ lo := ⟨_, rfl, by omega⟩
  have hle := k.first_le
  unfold main
  simp only [wp_bind, wp_onMem]
  refine wp_total (freerange_spec (n := 1024 - k.first) (blank_holds page) (blank_boot page) hpos
    (by simp only [physPages] at *; omega)) fun _ m₁ hx => ?_
  obtain ⟨g₁, hm1, hb1, hl1⟩ := hx
  rw [← hlo] at hb1
  refine wp_total (setupkvm_spec 0 hm1 hb1.kpgdir hb1.hand) fun r m₂ hx => ?_
  cases r with
  | none =>
    refine ⟨by decide, fun hfirst => hx.2 ⟨hb1.sure, ?_⟩⟩
    have := hfirst.1
    rw [hl1]
    omega
  | some d =>
  obtain ⟨-, g₂, hf2, hm2, -, hk⟩ := hx
  have hb2 := hb1.setupkvm hf2 hk (m := m₂)
  simp only [wp_bind, wp_modify]
  refine wp_total (startothers_spec hm2 hb2 (List.nodup_range.sublist (List.drop_sublist _ _))
    fun _ _ => rfl) fun _ x₃ hx => ?_
  obtain ⟨g₃, hm3, hb3, -⟩ := hx
  simp only [wp_onMem]
  by_cases hfirst : k.first ≤ 1024
  · obtain rfl : lo = 1024 := by omega
    refine wp_total (freerange_spec hm3 hb3 (by decide) (by decide)) fun _ m₄ hx => ?_
    obtain ⟨g₄, hm4, hb4, hl4⟩ := hx
    refine wp_mono (userinit_spec hm4 (Boot.agrees hb4) hb4.files (hb4.proc 0) hb4.sure ?_)
      (fun _ _ => id) fun e _ he => ?_
    · rw [hl4]
      simp only [physTop, pgSize]
      omega
    · obtain ⟨rfl, hsz⟩ := he
      exact ⟨by decide, fun hx => by omega⟩
  · -- kinit2 frees a page of the kernel
    have hkf : kfree k 1024 x₃.mem = .error .kfree x₃.mem := by
      simp only [kfree, if_pos (.inl (by omega) : 1024 < k.first ∨ physTop / pgSize ≤ 1024)]
      rfl
    rw [show physTop / pgSize - 1024 = 56319 + 1 from rfl, freerange, wp_bind]
    exact wp_of_error hkf ⟨by decide, fun hx => by omega⟩

/-! ## The uses of the pages -/

/-- What a page is used for.  An address space is that of a process or, for `none`, `kpgdir`. -/
inductive Use
  /-- The page is at place `j` of the free list. -/
  | free (j : ℕ)
  /-- The kernel stack of process `i`. -/
  | stack (i : ℕ)
  /-- The stack of CPU `c`. -/
  | cpu (c : ℕ)
  | dir (a : Option ℕ)
  /-- The page table for directory entry `i`. -/
  | table (a : Option ℕ) (i : ℕ)
  /-- The user page at virtual page `v`. -/
  | user (a : Option ℕ) (v : ℕ)
  /-- The pipe at page `p`. -/
  | pipe (p : ℕ)

/-- The address of node `j` of the free list, 0 if the list is shorter. -/
def Mem.node (m : Mem) : ℕ → ℕ
  | 0 => m.freelist
  | j + 1 => if m.node j = 0 then 0 else m.word (v2p (m.node j)) 0

/-- The page that an entry of a page directory or page table names. -/
def Mem.entry (m : Mem) (p i : ℕ) : Option ℕ :=
  if present (m.word p i) then some (m.word p i / pgSize) else none

/-- The page directory of an address space. -/
def Machine.directory (s : Machine) : Option ℕ → Option ℕ
  | none => if s.kpgdir = 0 then none else some s.kpgdir
  | some i =>
    if (s.proc i).state = .unused ∨ (s.proc i).state = .embryo then none else some (s.proc i).pgdir

/-- The page that has a use. -/
def Machine.page (s : Machine) : Use → Option ℕ
  | .free j => if s.mem.node j = 0 then none else some (v2p (s.mem.node j))
  | .stack i => if (s.proc i).state = .unused then none else some (s.proc i).kstack
  | .cpu c => if s.stack c = 0 then none else some (s.stack c)
  | .dir a => s.directory a
  | .table a i => if i < nEntries then (s.directory a).bind fun d => s.mem.entry d i else none
  | .user a v =>
    if v < userPages then
      ((s.directory a).bind fun d => s.mem.entry d (v / nEntries)).bind fun t =>
        s.mem.entry t (v % nEntries)
    else none
  | .pipe p => if (s.pipe p).isOpen then some p else none

/-- A page, or `none` for 0. -/
def toPage (p : ℕ) : Option ℕ := if p = 0 then none else some p

/-- The owner of an address space. -/
def ownerOf : Option ℕ → Owner
  | none => .kernel
  | some i => .proc i

/-- The uses other than being free. -/
def Use.role : Use → Option (Role Owner Thing)
  | .free _ => none
  | .stack i => some (.other (.stack i))
  | .cpu c => some (.other (.cpu c))
  | .dir a => some (.dir (ownerOf a))
  | .table a i => some (.table (ownerOf a) i)
  | .user a v => some (.user (ownerOf a) v)
  | .pipe p => some (.other (.pipe p))

theorem ownerOf_inj {a b : Option ℕ} (h : ownerOf a = ownerOf b) : a = b := by
  cases a <;> cases b <;> simp_all [ownerOf]

theorem toPage_eq_some {q : ℕ} : toPage q = some p ↔ q = p ∧ p ≠ 0 := by
  unfold toPage
  split <;> grind

theorem Use.role_inj {u u' : Use} {r : Role Owner Thing} (h : u.role = some r)
    (h' : u'.role = some r) :
    u = u' := by
  cases u <;> cases u' <;> simp_all [Use.role] <;> grind [ownerOf_inj]

namespace Agrees

variable {t : ℕ}

theorem directory (ha : Agrees k x.toKern t g) (a : Option ℕ) :
    x.directory a = toPage (g.dir (ownerOf a)) := by
  cases a with
  | none => rw [ownerOf, ha.kpgdir]; rfl
  | some i =>
    rw [ownerOf, ha.dir, Machine.directory, Proc.dirPage, toPage]
    split
    · simp
    · have := ((ha.proc i).dir (by tauto) (by tauto)).1
      simp [this]

theorem table_eq {a : Option ℕ} (hm : Holds k g x.mem) (ha : Agrees k x.toKern t g) {i : ℕ}
    (hi : i < nEntries) :
    ((x.directory a).bind fun d => x.mem.entry d i) = toPage (g.tab (ownerOf a) i) := by
  rw [ha.directory]
  by_cases hd : g.dir (ownerOf a) = 0
  · rw [hm.tables.tab_none _ _ (.inl hd), hd]
    rfl
  rw [toPage, if_neg hd, Option.bind_some, Mem.entry, hm.tables.pde _ _ hd hi]
  by_cases ht : g.tab (ownerOf a) i = 0
  · simp [ht, toPage, present]
  · rw [if_neg ht, present_pde, if_pos rfl, pde_div, toPage, if_neg ht]

theorem page_role (hm : Holds k g x.mem) (ha : Agrees k x.toKern t g)
    (hf : Files x.toKern) {u : Use} {r : Role Owner Thing} (hr : u.role = some r) : x.page u =
    toPage (g.page r) := by
  cases u with
  | free j => cases hr
  | stack i =>
    cases hr
    rw [Ghost.page, ha.stack, Machine.page, Proc.stackPage, toPage]
    split
    · simp
    · have := (ha.proc i).stack (by assumption)
      simp [this]
  | cpu c =>
    cases hr
    rw [Ghost.page, ha.cpu]
    rfl
  | dir a =>
    cases hr
    exact ha.directory a
  | table a i =>
    cases hr
    rw [Machine.page, Ghost.page]
    split
    · exact ha.table_eq hm (by assumption)
    · rw [hm.tables.tab_none _ _ (.inr (by omega))]
      rfl
  | user a v =>
    cases hr
    rw [Machine.page, Ghost.page]
    by_cases hv : v < userPages
    · rw [if_pos hv, if_pos hv,
        ha.table_eq hm (Nat.div_lt_of_lt_mul (lt_of_lt_of_le hv (by decide)))]
      by_cases ht : g.tab (ownerOf a) (v / nEntries) = 0
      · rw [hm.tables.ent_none _ _ ht, ht]
        rfl
      have hpte := hm.tables.pte _ _ (v % nEntries) ht (Nat.mod_lt _ (by decide))
      rw [Nat.div_add_mod'] at hpte
      rw [toPage, if_neg ht, Option.bind_some, Mem.entry, hpte]
      rcases hm.tables.ent_user (ownerOf a) v hv with he | ⟨hp, hq⟩
      · rw [he]
        rfl
      · rw [if_pos hp, toPage, if_neg hq]
    · rw [if_neg hv, if_neg hv]
      rfl
  | pipe p =>
    cases hr
    rw [Ghost.page, ha.pipe, Machine.page, toPage]
    split
    · simp [hf.page p (by assumption)]
    · rfl

theorem exists_use (hm : Holds k g x.mem) (ha : Agrees k x.toKern 0 g) {r : Role Owner Thing}
    (hr : g.page r ≠ 0) : ∃ u : Use, u.role = some r := by
  have htab : ∀ i, g.tab .temp i = 0 := fun i => hm.tables.tab_none _ _ (.inl ha.temp)
  cases r with
  | dir o =>
    cases o with
    | kernel => exact ⟨.dir none, rfl⟩
    | temp => exact absurd ha.temp hr
    | proc i => exact ⟨.dir (some i), rfl⟩
  | table o i =>
    cases o with
    | kernel => exact ⟨.table none i, rfl⟩
    | temp => exact absurd (htab i) hr
    | proc j => exact ⟨.table (some j) i, rfl⟩
  | user o v =>
    cases o with
    | kernel => exact ⟨.user none v, rfl⟩
    | temp =>
      have := hm.tables.ent_none .temp v (htab _)
      exact absurd (by simp [Ghost.page, this]) hr
    | proc j => exact ⟨.user (some j) v, rfl⟩
  | hand n => exact absurd (ha.hand n) hr
  | other z =>
    cases z with
    | stack i => exact ⟨.stack i, rfl⟩
    | cpu c => exact ⟨.cpu c, rfl⟩
    | pipe p => exact ⟨.pipe p, rfl⟩
    | boot p => exact absurd (ha.boot p) hr

end Agrees

theorem v2p_p2v (p : ℕ) : p2v p ≠ 0 ∧ v2p (p2v p) = p := by
  unfold v2p p2v
  simp only [kernBase, pgSize]
  omega

theorem Chain.node {v : ℕ} {l : List ℕ} (h : Chain m v l) (hn : m.node n = v) (j : ℕ) :
    (if m.node (n + j) = 0 then none else some (v2p (m.node (n + j)))) = l[j]? := by
  induction h generalizing n j with
  | nil =>
    have hz : m.node (n + j) = 0 := by
      induction j with
      | zero => exact hn
      | succ j ih => rw [← add_assoc, Mem.node, if_pos ih]
    simp [hz]
  | @cons p l _ ih =>
    obtain ⟨h0, hp⟩ := v2p_p2v p
    cases j with
    | zero => simp [hn, h0, hp]
    | succ j =>
      have hn' : m.node (n + 1) = m.word p 0 := by rw [Mem.node, hn, if_neg h0, hp]
      rw [← add_assoc, add_right_comm, ih hn' j, List.getElem?_cons_succ]

/-- Under the invariant every page after the kernel has one use, and no other page has any. -/
theorem Inv.unique_use (h : Inv k x) :
    (∀ p, k.first ≤ p → p < physPages → ∃! u, x.page u = some p) ∧
    ∀ u p, x.page u = some p → k.first ≤ p ∧ p < physPages := by
  obtain ⟨g, hm, ha⟩ := h.pages
  have hfree : ∀ j, x.page (.free j) = g.free[j]? := fun j => by
    have := hm.pool.chain.node (n := 0) rfl j
    rwa [zero_add] at this
  have hrole : ∀ {u r}, Use.role u = some r → x.page u = toPage (g.page r) := fun hr =>
    ha.page_role hm h.files hr
  -- a use is a place in the free list or a role
  have hcases : ∀ u p, x.page u = some p → p ∈ g.free ∧ (∃ j, u = .free j) ∨
      p ≠ 0 ∧ ∃ r, u.role = some r ∧ g.page r = p := fun u p hp => by
    cases hr : u.role with
    | none =>
      cases u with
      | free j => exact .inl ⟨List.mem_of_getElem? (hfree j ▸ hp), j, rfl⟩
      | _ => cases hr
    | some r =>
      obtain ⟨hq, hp0⟩ := toPage_eq_some.1 (hrole hr ▸ hp)
      exact .inr ⟨hp0, r, rfl, hq⟩
  refine ⟨fun p hlo hhi => ?_, fun u p hp => ?_⟩
  · by_cases hf : p ∈ g.free
    · obtain ⟨j, hj⟩ := List.mem_iff_getElem?.1 hf
      refine ⟨.free j, (hfree j).trans hj, fun u hu => ?_⟩
      rcases hcases u p hu with ⟨-, j', rfl⟩ | ⟨hp0, r, -, hr⟩
      · have hj' := (hfree j').symm.trans hu
        obtain ⟨hlt, -⟩ := List.getElem?_eq_some_iff.1 hj
        rw [(List.getElem?_inj hlt hm.pool.nodup).1 (hj.trans hj'.symm)]
      · exact absurd hf (hr ▸ hm.not_free (hr ▸ hp0))
    have hp0 : p ≠ 0 := by have := k.first_pos; omega
    rcases hm.pool.owns.cover p hhi (by simpa using hf) with hlt | ⟨r, hr⟩
    · omega
    obtain ⟨u, hu⟩ := ha.exists_use hm (hr ▸ hp0)
    refine ⟨u, (hrole hu).trans (toPage_eq_some.2 ⟨hr, hp0⟩), fun u' hu' => ?_⟩
    rcases hcases u' p hu' with ⟨hf', -⟩ | ⟨-, r', hu'', hr'⟩
    · exact absurd hf' hf
    · obtain rfl := hm.role_inj (hr ▸ hp0) (hr.trans hr'.symm)
      exact Use.role_inj hu'' hu
  · rcases hcases u p hp with ⟨hf, -⟩ | ⟨hp0, r, -, rfl⟩
    · refine ⟨?_, hm.pool.free_lt p hf⟩
      by_contra hlt
      have := hm.pool.owns.reserved p (by omega)
      simp [hf] at this
    · exact ⟨hm.pool.owns.le_ptr r hp0, hm.lt_of_role hp0⟩

/-- Nothing is known about the calls of `kalloc` to come. -/
theorem Inv.deny (h : Inv k x) (deny : ℕ → Bool) : Inv k { x with mem := { x.mem with deny } } := by
  obtain ⟨g, hm, ha⟩ := h.pages
  have ht : Tables { g with sure := false } x.mem := hm.tables.of_eq rfl rfl rfl
  have hpage : ({ g with sure := false } : Ghost Owner Thing).page = g.page := by
    funext r
    cases r <;> rfl
  refine ⟨⟨{ g with sure := false }, ⟨ht.congr (fun _ _ => rfl) fun _ _ _ => rfl, ?_⟩, ?_⟩, h.files⟩
  · exact ⟨nofun, hm.pool.chain.congr fun _ _ => rfl, hm.pool.nodup, hm.pool.free_lt,
      hpage ▸ hm.pool.owns⟩
  · exact ⟨ha.hand, ha.kpgdir, ha.temp, ha.dir, ha.stack, ha.cpu, ha.pipe, ha.boot,
      ha.kernel, ha.proc⟩

theorem Inv.run {c : Call} (h : Inv k x) (hr : (x.proc c.cur).state = .runnable) :
    wp (c.op.perform k c.cur) (fun _ => Inv k) (fun e _ => e ≠ .fuel)
      { x with mem := { x.mem with deny := c.deny } } :=
  Op.perform_spec (h.deny c.deny) hr

theorem Inv.step {c : Call} (h : Inv k x) (hs : x.step k c = some x') : Inv k x' := by
  unfold Machine.step at hs
  split at hs
  · rename_i hr
    split at hs
    · rename_i a s' hrun
      cases hs
      exact (h.run hr).ok hrun
    · cases hs
  · cases hs

/-- **Physical page ownership**: after booting and any calls, with any calls of `kalloc` failing,
every page after the kernel has exactly one use, and no other page has any.  No call goes on for
ever; one that panics is the last. -/
theorem page_ownership {page : ℕ → Bytes} {ncpu size : ℕ} {initcode : Bytes} {s₀ s : Machine}
    {cs : List Call} (hmain : main k ncpu initcode size (Machine.start page) = .ok () s₀)
    (hrun : (LTS.ofFun (Machine.step k)).Run s₀ cs s) :
    (∀ p, k.first ≤ p → p < physPages → ∃! u, s.page u = some p) ∧
    (∀ u p, s.page u = some p → k.first ≤ p ∧ p < physPages) ∧
    ∀ (c : Call) (s' : Machine), (s.proc c.cur).state = .runnable →
    c.run k s ≠ .error .fuel s' := by
  have hinv : Inv k s := hrun.invariant ((main_spec ncpu initcode size page).ok hmain).1.inv
    fun _ _ _ hi hs => hi.step hs
  obtain ⟨huse, hrange⟩ := hinv.unique_use
  exact ⟨huse, hrange, fun c s' hr he => (hinv.run hr).error he rfl⟩

theorem kalloc_denied (h : m.deny 0 = true) :
    wp kalloc (fun r _ => r = none) (fun _ _ => False) m := by
  unfold kalloc
  simp only [wp_bind, wp_get]
  exact wp_ite.2 ⟨fun _ => rfl, fun hn => absurd (.inl h) hn⟩

/-- `allocuvm` ends if its first call of `kalloc` fails. -/
theorem allocuvm_denied {o : Owner} {oldsz newsz : ℕ} (hm : Holds k g m) (ho : g.dir o ≠ 0)
    (h0 : g.hand 0 = 0) (h : m.deny 0 = true) :
    wp (allocuvm k (g.dir o) oldsz newsz) (fun _ _ => True) (fun _ _ => False) m := by
  unfold allocuvm
  refine wp_ite.2 ⟨fun _ => trivial, fun hnew => wp_ite.2 ⟨fun _ => trivial, fun _ => ?_⟩⟩
  rw [show 2 ^ 20 = 2 ^ 20 - 1 + 1 from rfl, allocuvmLoop]
  refine wp_ite.2 ⟨fun _ => ?_, fun _ => trivial⟩
  rw [wp_bind]
  refine wp_mono (wp_and (kalloc_denied h) (kalloc_spec (E := fun _ _ => True) hm h0))
    (fun r m₁ hr => ?_) fun _ _ => And.left
  obtain ⟨rfl, hr⟩ := hr
  exact wp_seq (deallocuvm_spec hr.1 ho (by omega)) fun _ _ _ => trivial

theorem growproc_denied {i : ℕ} {z : ℤ} (h : Inv k x) (hr : (x.proc i).state = .runnable)
    (hz : 0 < z) (hdeny : x.mem.deny 0 = true) :
    wp (growproc k i z) (fun _ _ => True) (fun _ _ => False) x := by
  obtain ⟨g, hm, ha⟩ := h.pages
  obtain ⟨hd, hd0, -⟩ := ha.dir_of_runnable hr
  unfold growproc
  simp only [wp_bind, wp_get]
  refine wp_ite.2 ⟨fun _ => ?_, fun hn => absurd hz hn⟩
  rw [wp_bind, wp_onMem, ← hd]
  exact wp_post (allocuvm_denied hm (hd ▸ hd0) (ha.hand 0) hdeny)
    fun _ _ _ => wp_ite.2 ⟨fun _ => trivial, fun _ => trivial⟩

/-- An `sbrk` for which `kalloc` fails. -/
theorem step_sbrk_denied {i : ℕ} {z : ℤ} (h : Inv k x) (hr : (x.proc i).state = .runnable)
    (hz : 0 < z) : ∃ x', x.step k ⟨i, .sbrk z, fun _ => true⟩ = some x' := by
  have hsbrk : wp (sysSbrk k i z) (fun _ _ => True) (fun _ _ => False)
      { x with mem := { x.mem with deny := fun _ => true } } := by
    unfold sysSbrk
    simp only [wp_bind, wp_get]
    exact wp_post (growproc_denied (h.deny fun _ => true) hr hz rfl)
      fun _ _ _ => wp_ite.2 ⟨fun _ => trivial, fun _ => trivial⟩
  obtain ⟨r, x', hrun, -⟩ := hsbrk.exists_ok
  refine ⟨x', ?_⟩
  rw [Machine.step, if_pos hr, Call.run, Op.perform, hrun]

/-- Booting succeeds if the first 4 MB have room for the page tables of the kernel. -/
theorem main_ok (ncpu : ℕ) (initcode : Bytes) {size : ℕ} (page : ℕ → Bytes)
    (hfirst : k.first + 65 ≤ 1024) (hsize : size < pgSize) :
    ∃ s, main k ncpu initcode size (Machine.start page) = .ok () s ∧
      Spare k 56000 s ∧ ∃ i, (s.proc i).state = .runnable := by
  have hmain := wp_mono (main_spec (k := k) ncpu initcode size page) (fun _ _ => id)
    (fun _ _ he => (he.2 ⟨hfirst, hsize⟩).elim : ∀ e s', _ → False)
  obtain ⟨_, s, hok⟩ := hmain.exists_ok
  exact ⟨s, hok⟩

theorem page_ownership_sbrk : ∃ s i s',
    main someSymbols 2 Bytes.zero 44 (Machine.start fun _ => Bytes.zero) = .ok () s ∧
    (LTS.ofFun (Machine.step someSymbols)).Run s [⟨i, .sbrk 4096, fun _ => true⟩] s' ∧
    ∃! u, s'.page u = some 300 := by
  obtain ⟨s, hok, hs, i, hi⟩ := main_ok (k := someSymbols) 2 Bytes.zero (fun _ => Bytes.zero)
    (by decide) (by decide : 44 < pgSize)
  obtain ⟨s', hstep⟩ := step_sbrk_denied hs.inv hi (by decide : 0 < (4096 : ℤ))
  have hrun : (LTS.ofFun (Machine.step someSymbols)).Run s [⟨i, .sbrk 4096, fun _ => true⟩] s' :=
    .single hstep
  exact ⟨s, i, s', hok, hrun, (page_ownership hok hrun).1 300 (by decide) (by decide)⟩

end Vm

end Xv6
