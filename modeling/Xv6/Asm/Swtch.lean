import Xv6.Asm.Trap
import Xv6.LTS.Basic

/-!
# Switching between kernel threads

The kernel threads are the processes, in the kernel, and a scheduler for each processor.  A thread
has a stack, and when it does not run, its registers are in a `struct context` on it; the thread's
own word, `p->context` or `c->scheduler`, points there.  `swtch` (`swtch.S`) saves the registers of
one thread and loads those of another.

The processors share the memory, and take their steps in any order.  What a thread does between two
calls of `swtch` is left open: it may write anywhere but to the stacks of other threads, and to the
words that point into them.  A thread that gives up its processor continues with the registers that
it had, and finds its stack as it was, whatever runs in between, and whichever processor it gets
(`swtch_resumes`).
-/

namespace Xv6

namespace Asm

/-! ### The source -/

/-- `swtch` -/
def swtch : List Instr :=
  [.movlLoad 4 .esp .eax, .movlLoad 8 .esp .edx, .pushl .ebp, .pushl .ebx, .pushl .esi, .pushl .edi,
    .movlStore .esp .eax, .movl .edx .esp, .popl .edi, .popl .esi, .popl .ebx, .popl .ebp, .ret]

/-- `KSTACKSIZE` -/
def kstackSize : ℕ := 4096

/-- `sizeof(struct context)` -/
def ctxSize : ℕ := 20

/-- `allocproc`, for a process with the stack `kstack`, whose `p->context` is at `slot`: the first
`swtch` to it goes to `forkret`, and from there to `trapret`. -/
def allocproc (forkret trapret : UInt32) (slot kstack : ℕ) (m : Bytes) : Bytes :=
  let sp := kstack + kstackSize - tfSize - 4
  let context := sp - ctxSize
  let m := storeWord m sp trapret
  let m := storeWord m slot (.ofNat context)
  let m := m.copy context ctxSize Bytes.zero
  storeWord m (context + 16) forkret

/-- `*np->tf = *curproc->tf; np->tf->eax = 0` -/
def forkTf (tf tf' : ℕ) (m : Bytes) : Bytes :=
  storeWord (m.copy tf' tfSize (m.drop tf)) (tf' + 28) 0

/-! ### One switch -/

/-- What a thread continues with. -/
structure Frame where
  edi : UInt32
  esi : UInt32
  ebx : UInt32
  ebp : UInt32
  eip : UInt32
  esp : UInt32

/-- The registers of a frame are the current ones. -/
structure Frame.On (f : Frame) (c : Core) : Prop where
  edi : c.reg .edi = f.edi
  esi : c.reg .esi = f.esi
  ebx : c.reg .ebx = f.ebx
  ebp : c.reg .ebp = f.ebp
  eip : c.eip = f.eip
  esp : c.reg .esp = f.esp

/-- What the caller of `swtch` expects to continue with. -/
def Cpu.frame (c : Cpu) : Frame :=
  ⟨c.reg .edi, c.reg .esi, c.reg .ebx, c.reg .ebp, c.top, c.reg .esp + 4⟩

/-- The `struct context` of a frame is at `ctx`. -/
structure Frame.At (f : Frame) (m : Bytes) (ctx : ℕ) : Prop where
  edi : loadWord m ctx = f.edi
  esi : loadWord m (ctx + 4) = f.esi
  ebx : loadWord m (ctx + 8) = f.ebx
  ebp : loadWord m (ctx + 12) = f.ebp
  eip : loadWord m (ctx + 16) = f.eip
  esp : f.esp.toNat = ctx + ctxSize

theorem Frame.At.congr {f : Frame} {m m' : Bytes} {ctx : ℕ} (h : f.At m ctx)
    (hm : ∀ a, ctx ≤ a → a < ctx + ctxSize → m' a = m a) : f.At m' ctx := by
  have hword : ∀ k, k + 4 ≤ ctxSize → loadWord m' (ctx + k) = loadWord m (ctx + k) := fun k hk =>
    loadWord_congr fun a ha ha' => hm a (by omega) (by omega)
  exact ⟨(hword 0 (by decide)).trans h.edi, (hword 4 (by decide)).trans h.esi,
    (hword 8 (by decide)).trans h.ebx, (hword 12 (by decide)).trans h.ebp,
    (hword 16 (by decide)).trans h.eip, h.esp⟩

/-- The first half of `swtch`. -/
def swtchSave : List Instr :=
  [.movlLoad 4 .esp .eax, .movlLoad 8 .esp .edx, .pushl .ebp, .pushl .ebx, .pushl .esi, .pushl .edi,
    .movlStore .esp .eax]

/-- The second half of `swtch`. -/
def swtchLoad : List Instr :=
  [.movl .edx .esp, .popl .edi, .popl .esi, .popl .ebx, .popl .ebp, .ret]

theorem swtch_eq : swtch = swtchSave ++ swtchLoad := rfl

variable {c : Cpu}

theorem exec_swtchLoad_mem (c : Cpu) : (exec swtchLoad c).mem = c.mem := rfl

theorem exec_swtchLoad {f : Frame} (hf : f.At c.mem (c.reg .edx).toNat) :
    f.On (exec swtchLoad c).toCore := by
  have hlt := f.esp.toNat_lt
  have hesp := hf.esp
  simp only [ctxSize] at hesp
  have hedi : c.load (c.reg .edx) = f.edi := hf.edi
  have hesi : c.load (c.reg .edx + 4) = f.esi := (load_add (k := 4) (by omega)).trans hf.esi
  have hebx : c.load (c.reg .edx + 8) = f.ebx := (load_add (k := 8) (by omega)).trans hf.ebx
  have hebp : c.load (c.reg .edx + 12) = f.ebp := (load_add (k := 12) (by omega)).trans hf.ebp
  have heip : c.load (c.reg .edx + 16) = f.eip := (load_add (k := 16) (by omega)).trans hf.eip
  have htop : c.reg .edx + 20 = f.esp := by
    rw [← UInt32.toNat_inj, UInt32.toNat_add, show (20 : UInt32).toNat = 20 from rfl, hesp,
      Nat.mod_eq_of_lt (by omega)]
  refine ⟨?_, ?_, ?_, ?_, ?_, ?_⟩
  all_goals
    simp only [Cpu.load] at hedi hesi hebx hebp heip
    simp [exec, swtchLoad, Instr.run, Cpu.drop, Cpu.setReg, Cpu.top, Cpu.load, add_assoc,
      -UInt32.toNat_add, *]

theorem exec_swtchSave {e o : ℕ} (he : (c.reg .esp).toNat = e) (hlo : 16 ≤ e)
    (hhi : e + 12 ≤ 2 ^ 32) (ho : (loadWord c.mem (e + 4)).toNat = o) (hdis : o + 4 ≤ e - 16 ∨
      e + 4 ≤ o) :
    c.frame.At (exec swtchSave c).mem (e - 16) ∧
    (loadWord (exec swtchSave c).mem o).toNat = e - 16 ∧
      (exec swtchSave c).reg .edx = loadWord c.mem (e + 8) ∧
      ∀ a, (a < e - 16 ∨ e ≤ a) → (a < o ∨ o + 4 ≤ a) → (exec swtchSave c).mem a = c.mem a := by
  -- The arguments, in `%eax` and `%edx`.
  obtain ⟨d, hd⟩ : ∃ d, d = exec [.movlLoad 4 .esp .eax, .movlLoad 8 .esp .edx] c := ⟨_, rfl⟩
  have hmem : d.mem = c.mem := by rw [hd]; rfl
  have heax : d.reg .eax = loadWord c.mem (e + 4) := by
    rw [← he, ← load_add (k := 4) (by omega), hd]
    simp [exec, Instr.run, Cpu.setReg]
  have hedx : d.reg .edx = loadWord c.mem (e + 8) := by
    rw [← he, ← load_add (k := 8) (by omega), hd]
    simp [exec, Instr.run, Cpu.setReg, Cpu.load]
  have hreg : ∀ r, r ≠ .eax → r ≠ .edx → d.reg r = c.reg r := fun r h h' => by
    simp [hd, exec, Instr.run, Cpu.setReg, h, h']
  have hesp : (d.reg .esp).toNat = e := by rw [hreg .esp (by decide) (by decide), he]
  -- The registers.
  obtain ⟨k, hk⟩ : ∃ k, k = d.pushes [c.reg .ebp, c.reg .ebx, c.reg .esi, c.reg .edi] := ⟨_, rfl⟩
  have hpushed : Pushed d k [c.reg .ebp, c.reg .ebx, c.reg .esi, c.reg .edi] := by
    rw [hk]
    exact ⟨rfl, rfl⟩
  have hroom : 4 * [c.reg .ebp, c.reg .ebx, c.reg .esi, c.reg .edi].length ≤
      (d.reg .esp).toNat := by
    rw [hesp]
    exact hlo
  have hpush : exec [.pushl .ebp, .pushl .ebx, .pushl .esi, .pushl .edi] d = k := by
    rw [hk]
    simp only [exec, List.foldl_cons, List.foldl_nil, Instr.run, Cpu.pushes]
    rw [Cpu.push_reg (by decide), Cpu.push_reg (by decide), Cpu.push_reg (by decide),
      Cpu.push_reg (by decide), Cpu.push_reg (by decide), Cpu.push_reg (by decide),
      hreg .ebp (by decide) (by decide), hreg .ebx (by decide) (by decide), hreg .esi (by decide)
      (by decide), hreg .edi (by decide) (by decide)]
  have hexec : exec swtchSave c = k.store (k.reg .eax) (k.reg .esp) := by
    rw [← hpush, hd]
    rfl
  have hkesp : (k.reg .esp).toNat = e - 16 := by rw [hpushed.esp, Cpu.pushes_esp hroom, hesp]; rfl
  have hkeax : (k.reg .eax).toNat = o := by rw [hk, Cpu.pushes_reg (by decide), heax, ho]
  have hmem' : (exec swtchSave c).mem = storeWord k.mem o (k.reg .esp) := by
    rw [hexec, ← hkeax]
    rfl
  have hkmem : ∀ a, a < e - 16 ∨ e ≤ a → k.mem a = c.mem a := fun a ha => by
    rw [← hmem, hpushed.mem]
    refine Cpu.pushes_mem_of_not_mem hroom ?_
    simp only [List.length_cons, List.length_nil]
    omega
  have hword : ∀ {n : ℕ} {v : UInt32}, n < 4 →
    [c.reg .ebp, c.reg .ebx, c.reg .esi, c.reg .edi][3 - n]? = some v →
      loadWord (exec swtchSave c).mem (e - 16 + 4 * n) = v := fun {n v} hn hv => by
    have hload := hpushed.load (n := n) hroom hn
    rw [hesp] at hload
    rw [hmem', loadWord_storeWord_of_disjoint (by omega)]
    exact Option.some.inj (hload.symm.trans hv)
  have heip : loadWord (exec swtchSave c).mem (e - 16 + 16) = c.top := by
    rw [hmem', loadWord_storeWord_of_disjoint (by omega), Cpu.top, Cpu.load, he]
    rw [show e - 16 + 16 = e by omega]
    exact loadWord_congr fun a ha _ => hkmem a (.inr ha)
  have htop : (c.reg .esp + 4).toNat = e - 16 + ctxSize := by
    rw [UInt32.toNat_add, he, show (4 : UInt32).toNat = 4 from rfl, Nat.mod_eq_of_lt (by omega)]
    simp only [ctxSize]
    omega
  refine ⟨⟨hword (n := 0) (by decide) rfl, hword (n := 1) (by decide) rfl,
    hword (n := 2) (by decide) rfl, hword (n := 3) (by decide) rfl, heip, htop⟩, ?_, ?_,
    fun a ha ha' => ?_⟩
  · rw [hmem', loadWord_storeWord, hkesp]
  · rw [hexec, ← hedx]
    exact congrFun (show (k.store _ _).reg = k.reg from rfl) _ |>.trans
      (by rw [hk, Cpu.pushes_reg (by decide)])
  · rw [hmem', storeWord_of_not_mem ha', hkmem a ha]

/-- **One switch.**  The registers of the caller are saved on its stack, and those of `f` are
loaded; nothing else changes in the memory. -/
theorem exec_swtch {e o : ℕ} (he : (c.reg .esp).toNat = e) (hlo : 16 ≤ e) (hhi : e + 12 ≤ 2 ^ 32)
    (ho : (loadWord c.mem (e + 4)).toNat = o) (hdis : o + 4 ≤ e - 16 ∨ e + 4 ≤ o) :
    c.frame.At (exec swtch c).mem (e - 16) ∧ (loadWord (exec swtch c).mem o).toNat = e - 16 ∧
      (∀ a, (a < e - 16 ∨ e ≤ a) → (a < o ∨ o + 4 ≤ a) → (exec swtch c).mem a = c.mem a) ∧
      ∀ f : Frame, ∀ n, (loadWord c.mem (e + 8)).toNat = n → f.At c.mem n →
      (n + ctxSize ≤ e - 16 ∨ e ≤ n) →
        (n + ctxSize ≤ o ∨ o + 4 ≤ n) → f.On (exec swtch c).toCore := by
  obtain ⟨hat, hslot, hedx, hmem⟩ := exec_swtchSave he hlo hhi ho hdis
  rw [swtch_eq, exec_append]
  rw [exec_swtchLoad_mem]
  refine ⟨hat, hslot, hmem, fun f n hn hf hstack hword => exec_swtchLoad ?_⟩
  rw [hedx, hn]
  exact hf.congr fun a ha ha' => hmem a (by omega) (by omega)

/-! ### Threads -/

/-- What is fixed: where the context pointers of the threads are, and two addresses in the code. -/
structure Kernel (T : Type*) where
  slot : T → ℕ
  forkret : UInt32
  trapret : UInt32
  slot_apart : ∀ t t', t ≠ t' → slot t + 4 ≤ slot t' ∨ slot t' + 4 ≤ slot t

/-- Processors and threads: the memory, the registers of each processor and the thread that it runs,
and the stacks. -/
structure Threads (C T : Type*) where
  mem : Bytes
  core : C → Core
  cur : C → T
  stack : T → Option ℕ

/-- What happens next. -/
inductive Event (C T : Type*)
  /-- The thread on processor `c` computes. -/
  | run (c : C)
  /-- The thread on processor `c` calls `swtch`, to `t`. -/
  | switch (c : C) (t : T)
  /-- The process on processor `c`, with its trap frame at `tf`, creates a process. -/
  | fork (c : C) (t : T) (kstack tf : ℕ)
  /-- The stack of `t` is freed. -/
  | free (t : T)

variable {C T : Type*} [DecidableEq C] [DecidableEq T] {K : Kernel T}

/-- The stack of a thread and its context pointer. -/
def Threads.Owns (K : Kernel T) (s : Threads C T) (t : T) (a : ℕ) : Prop :=
  (∃ k, s.stack t = some k ∧ k ≤ a ∧ a < k + kstackSize) ∨ K.slot t ≤ a ∧ a < K.slot t + 4

/-- The state of processor `c`. -/
def Threads.cpu (s : Threads C T) (c : C) : Cpu := ⟨s.core c, s.mem⟩

/-- The steps. -/
inductive Step (K : Kernel T) : Threads C T → Event C T → Threads C T → Prop
  /-- No thread writes to what another one owns. -/
  | run {s : Threads C T} {c : C} {core : Core} {mem : Bytes}
    (hmem : ∀ t, t ≠ s.cur c → ∀ a, s.Owns K t a → mem a = s.mem a) :
    Step K s (.run c) { s with mem := mem, core := upd s.core c core }
  /-- `swtch(&cur->context, t->context)`, on the stack of the caller; `t` is not running. -/
  | switch {s : Threads C T} {c : C} {t : T} {k e : ℕ} (ht : s.stack t ≠ none) (hoff : ∀ c',
      s.cur c' ≠ t)
    (hk : s.stack (s.cur c) = some k) (he : ((s.core c).reg .esp).toNat = e) (hlo : k + 16 ≤ e)
    (hhi : e + 12 ≤ k + kstackSize) (hold : (loadWord s.mem (e + 4)).toNat = K.slot (s.cur c))
    (hnew : loadWord s.mem (e + 8) = loadWord s.mem (K.slot t)) :
    Step K s (.switch c t) { s with
      mem := (exec swtch (s.cpu c)).mem
      core := upd s.core c (exec swtch (s.cpu c)).toCore
      cur := upd s.cur c t }
  /-- The stack of the new process is a page that nothing else uses. -/
  | fork {s : Threads C T} {c : C} {t : T} {kstack tf k : ℕ} (ht : s.stack t = none)
    (hk : s.stack (s.cur c) = some k) (htf : k ≤ tf ∧ tf + tfSize ≤ k + kstackSize)
    (hstack : ∀ t' k', s.stack t' = some k' → k' + kstackSize ≤ kstack ∨ kstack + kstackSize ≤ k')
    (hslot : ∀ t', K.slot t' + 4 ≤ kstack ∨ kstack + kstackSize ≤ K.slot t')
      (hlt : kstack + kstackSize < 2 ^ 32) :
    Step K s (.fork c t kstack tf) { s with
      mem := forkTf tf (kstack + kstackSize - tfSize)
        (allocproc K.forkret K.trapret (K.slot t) kstack s.mem)
      stack := upd s.stack t (some kstack) }
  | free {s : Threads C T} {t : T} (hoff : ∀ c, s.cur c ≠ t) :
    Step K s (.free t) { s with stack := upd s.stack t none }

/-- Processors and threads. -/
def threads (C : Type*) [DecidableEq C] (K : Kernel T) : LTS (Threads C T) (Event C T) := ⟨Step K⟩

/-- No two threads share memory. -/
structure Inv (K : Kernel T) (s : Threads C T) : Prop where
  cur : ∀ c c', s.cur c = s.cur c' → c = c'
  here : ∀ c, s.stack (s.cur c) ≠ none
  apart : ∀ t t' k k', t ≠ t' → s.stack t = some k → s.stack t' = some k' →
    k + kstackSize ≤ k' ∨ k' + kstackSize ≤ k
  slots : ∀ t t' k, s.stack t = some k → K.slot t' + 4 ≤ k ∨ k + kstackSize ≤ K.slot t'
  lt : ∀ t k, s.stack t = some k → k + kstackSize < 2 ^ 32

theorem some_of_upd {β : Type*} {f : T → Option β} {t t' : T} {o : Option β} {v : β}
    (h : upd f t o t' = some v) :
    t' = t ∧ o = some v ∨ f t' = some v := by
  by_cases ht : t' = t
  · rw [ht, upd_same] at h
    exact .inl ⟨ht, h⟩
  · rw [upd_of_ne _ _ ht] at h
    exact .inr h

theorem Inv.step {s s' : Threads C T} {ev : Event C T} (h : Inv K s) (hs : Step K s ev s') :
    Inv K s' := by
  cases hs with
  | run => exact ⟨h.cur, h.here, h.apart, h.slots, h.lt⟩
  | @switch c t _ _ ht hoff =>
    refine ⟨fun a b hab => ?_, upd_forall (F := fun _ t' => s.stack t' ≠ none) ht fun a _ =>
      h.here a, h.apart, h.slots, h.lt⟩
    simp only [upd] at hab
    split_ifs at hab with ha hb hb
    · rw [ha, hb]
    · exact absurd hab.symm (hoff b)
    · exact absurd hab (hoff a)
    · exact h.cur a b hab
  | @fork c t kstack tf k ht hk htf hstack hslot hlt =>
    have hne : ∀ a, s.cur a ≠ t := fun a he => h.here a (he ▸ ht)
    refine ⟨h.cur, fun a => (upd_of_ne s.stack _ (hne a)).trans_ne (h.here a),
      fun t₁ t₂ k₁ k₂ hn h1 h2 => ?_, fun t₁ t₂ k₁ h1 => ?_, fun t₁ k₁ h1 => ?_⟩
    · rcases some_of_upd h1 with ⟨rfl, ⟨⟩⟩ | h1' <;> rcases some_of_upd h2 with ⟨rfl, ⟨⟩⟩ | h2'
      · exact absurd rfl hn
      · exact (hstack _ _ h2').symm
      · exact hstack _ _ h1'
      · exact h.apart _ _ _ _ hn h1' h2'
    · rcases some_of_upd h1 with ⟨rfl, ⟨⟩⟩ | h1
      · exact hslot t₂
      · exact h.slots _ _ _ h1
    · rcases some_of_upd h1 with ⟨rfl, ⟨⟩⟩ | h1
      · exact hlt
      · exact h.lt _ _ h1
  | @free t hoff =>
    have hold : ∀ {t₁ k₁}, upd s.stack t none t₁ = some k₁ → s.stack t₁ = some k₁ := fun h1 =>
      (some_of_upd h1).resolve_left fun he => (by cases he.2)
    exact ⟨h.cur, fun a => (upd_of_ne s.stack _ (hoff a)).trans_ne (h.here a),
      fun t₁ t₂ k₁ k₂ hne h1 h2 => h.apart _ _ _ _ hne (hold h1) (hold h2), fun _ t₂ _ h1 =>
      h.slots _ t₂ _ (hold h1), fun _ _ h1 => h.lt _ _ (hold h1)⟩

/-- Thread `t` does not run; it will continue with `f`, and its stack above is that of `g`. -/
structure Suspended (K : Kernel T) (s : Threads C T) (t : T) (f : Frame) (g : Bytes) (k : ℕ) :
    Prop where
  stack : s.stack t = some k
  off : ∀ c, s.cur c ≠ t
  lo : k + ctxSize ≤ f.esp.toNat
  hi : f.esp.toNat ≤ k + kstackSize
  at_ : f.At s.mem (loadWord s.mem (K.slot t)).toNat
  kept : ∀ a, f.esp.toNat ≤ a → a < k + kstackSize → s.mem a = g a

variable {s s' : Threads C T} {t : T} {f : Frame} {g : Bytes} {k : ℕ} {ev : Event C T}

omit [DecidableEq C] [DecidableEq T] in
/-- What a suspended thread needs is in the memory that it owns. -/
theorem Suspended.congr (h : Suspended K s t f g k) (hstack : s'.stack t = s.stack t)
    (hoff : ∀ c, s'.cur c ≠ t) (hmem : ∀ a, s.Owns K t a → s'.mem a = s.mem a) :
    Suspended K s' t f g k := by
  have hctx : loadWord s'.mem (K.slot t) = loadWord s.mem (K.slot t) :=
    loadWord_congr fun a ha ha' => hmem a (.inr ⟨ha, ha'⟩)
  have hstk : ∀ a, k ≤ a → a < k + kstackSize → s'.mem a = s.mem a := fun a ha ha' =>
    hmem a (.inl ⟨k, h.stack, ha, ha'⟩)
  have hesp := h.at_.esp
  have hlo := h.lo
  have hhi := h.hi
  refine ⟨hstack.trans h.stack, hoff, h.lo, h.hi, ?_, fun a ha ha' => ?_⟩
  · rw [hctx]
    exact h.at_.congr fun a ha ha' => hstk a (by omega) (by omega)
  · rw [hstk a (by omega) ha', h.kept a ha ha']

omit [DecidableEq C] [DecidableEq T] in
theorem Inv.not_owns (h : Inv K s) {t t' : T} (hne : t ≠ t') {k a : ℕ} (hk : s.stack t' = some k)
    (ha : s.Owns K t a) :
    (a < k ∨ k + kstackSize ≤ a) ∧ (a < K.slot t' ∨ K.slot t' + 4 ≤ a) := by
  rcases ha with ⟨k₁, hk1, hle, hlt⟩ | ⟨hle, hlt⟩
  · have hstack := h.apart t t' k₁ k hne hk1 hk
    have hslot := h.slots t t' k₁ hk1
    omega
  · have hstack := h.slots t' t k hk
    have hslot := K.slot_apart t t' hne
    omega

theorem allocproc_of_not_mem {forkret trapret : UInt32} {slot kstack a : ℕ} {m : Bytes}
    (hstack : a < kstack ∨ kstack + kstackSize ≤ a) (hslot : a < slot ∨ slot + 4 ≤ a) :
    allocproc forkret trapret slot kstack m a = m a := by
  simp only [allocproc, kstackSize, tfSize, ctxSize] at hstack ⊢
  rw [storeWord_of_not_mem (by omega), Bytes.copy_of_not_mem (by omega), storeWord_of_not_mem hslot,
    storeWord_of_not_mem (by omega)]

theorem forkTf_of_not_mem {tf tf' a : ℕ} {m : Bytes} (h : a < tf' ∨ tf' + tfSize ≤ a) :
    forkTf tf tf' m a = m a := by
  simp only [tfSize] at h
  rw [forkTf, storeWord_of_not_mem (by omega), Bytes.copy_of_not_mem (by simp only [tfSize]; omega)]

omit [DecidableEq C] [DecidableEq T] in
/-- The facts about the caller that `exec_swtch` needs. -/
theorem Inv.slot_of_caller (h : Inv K s) {c : C} {k e : ℕ} (hk : s.stack (s.cur c) = some k)
    (hlo : k + 16 ≤ e) (hhi : e + 12 ≤ k + kstackSize) : 16 ≤ e ∧ e + 12 ≤ 2 ^ 32 ∧
      (K.slot (s.cur c) + 4 ≤ e - 16 ∨ e + 4 ≤ K.slot (s.cur c)) := by
  have hslot := h.slots (s.cur c) (s.cur c) k hk
  have hlt := h.lt (s.cur c) k hk
  omega

/-- **One step.**  A suspended thread is not affected by the others. -/
theorem Suspended.step (h : Suspended K s t f g k) (hI : Inv K s) (hs : Step K s ev s')
    (hsw : ∀ c, ev ≠ .switch c t) (hfr : ev ≠ .free t) : Suspended K s' t f g k := by
  cases hs with
  | @run c core mem hmem => exact h.congr rfl h.off fun a ha => hmem t (h.off c).symm a ha
  | @switch c t' k₀ e ht hoff hk0 he hlo hhi hold hnew =>
    have hne : t' ≠ t := fun heq => hsw c (heq ▸ rfl)
    obtain ⟨h16, h12, hdis⟩ := hI.slot_of_caller hk0 hlo hhi
    obtain ⟨-, -, hmem, -⟩ := exec_swtch (c := s.cpu c) he h16 h12 hold hdis
    generalize exec swtch (s.cpu c) = d at hmem ⊢
    refine h.congr rfl (fun a => ?_) fun a ha => ?_
    · refine upd_forall (F := fun _ t₁ => t₁ ≠ t) hne (fun j _ => h.off j) a
    · have hna := hI.not_owns (h.off c).symm hk0 ha
      exact hmem a (by omega) hna.2
  | @fork c t' kstack tf k₀ ht hk0 htf hstack hslot hlt =>
    have hne : t ≠ t' := fun heq => by
      rw [← heq, h.stack] at ht
      cases ht
    refine h.congr (upd_of_ne _ _ hne) h.off fun a ha => ?_
    have hna : (a < kstack ∨ kstack + kstackSize ≤ a) ∧ (a < K.slot t' ∨ K.slot t' + 4 ≤ a) := by
      rcases ha with ⟨k₁, hk1, hle, hlt'⟩ | ⟨hle, hlt'⟩
      · have hst := hstack t k₁ hk1
        have hsl := hI.slots t t' k₁ hk1
        omega
      · have hst := hslot t
        have hsl := K.slot_apart t t' hne
        omega
    refine (forkTf_of_not_mem ?_).trans (allocproc_of_not_mem hna.1 hna.2)
    simp only [kstackSize, tfSize] at hna ⊢
    omega
  | @free t' hoff =>
    have hne : t ≠ t' := fun heq => hfr (heq ▸ rfl)
    exact h.congr (upd_of_ne _ _ hne) h.off fun _ _ => rfl

theorem Suspended.of_run {es : List (Event C T)} (h : Suspended K s t f g k) (hI : Inv K s)
    (hrun : (threads C K).Run s es s') (hes : ∀ ev ∈ es, (∀ c, ev ≠ .switch c t) ∧ ev ≠ .free t) :
    Inv K s' ∧ Suspended K s' t f g k := by
  induction hrun with
  | nil => exact ⟨hI, h⟩
  | snoc _ hst ih =>
    obtain ⟨hI', h'⟩ := ih fun ev hev => hes ev (List.mem_append_left _ hev)
    have hlast := hes _ (List.mem_append_right _ (List.mem_singleton_self _))
    exact ⟨hI'.step hst, h'.step hI' hst hlast.1 hlast.2⟩

theorem Suspended.of_switch (hI : Inv K s) {c : C} {t' : T} (hs : Step K s (.switch c t') s') :
    ∃ k, Suspended K s' (s.cur c) (s.cpu c).frame s.mem k := by
  cases hs with
  | @switch _ _ k₀ e ht hoff hk0 he hlo hhi hold hnew =>
    obtain ⟨h16, h12, hdis⟩ := hI.slot_of_caller hk0 hlo hhi
    obtain ⟨hat, hslot, hmem, -⟩ := exec_swtch (c := s.cpu c) he h16 h12 hold hdis
    generalize exec swtch (s.cpu c) = d at hat hslot hmem ⊢
    have hslots := hI.slots (s.cur c) (s.cur c) k₀ hk0
    have hesp := hat.esp
    simp only [ctxSize] at hesp
    refine ⟨k₀, hk0, fun a => ?_, by simp only [ctxSize]; omega, by omega, ?_, fun a ha ha' => ?_⟩
    · by_cases hac : a = c
      · exact fun heq =>
          hoff c (by rw [hac] at heq; exact ((upd_same s.cur c t').symm.trans heq).symm)
      · exact fun heq => hac (hI.cur a c ((upd_of_ne s.cur t' hac).symm.trans heq))
    · dsimp only
      rw [hslot]
      exact hat
    · exact hmem a (by omega) (by omega)

theorem Suspended.resume (h : Suspended K s t f g k) (hI : Inv K s) {c : C}
    (hs : Step K s (.switch c t) s') :
    f.On (s'.core c) ∧ ∀ a, f.esp.toNat ≤ a → a < k + kstackSize → s'.mem a = g a := by
  cases hs with
  | @switch _ _ k₀ e ht hoff hk0 he hlo hhi hold hnew =>
    obtain ⟨h16, h12, hdis⟩ := hI.slot_of_caller hk0 hlo hhi
    obtain ⟨-, -, hmem, hload⟩ := exec_swtch (c := s.cpu c) he h16 h12 hold hdis
    generalize exec swtch (s.cpu c) = d at hmem hload ⊢
    have hapart := hI.apart t (s.cur c) k k₀ (h.off c).symm h.stack hk0
    have hslots := hI.slots t (s.cur c) k h.stack
    have hesp := h.at_.esp
    have hlo' := h.lo
    have hhi' := h.hi
    refine ⟨?_, fun a ha ha' => ?_⟩
    · rw [show (Threads.core _ c) = _ from upd_same _ _ _]
      exact hload f _ (congrArg UInt32.toNat hnew) h.at_ (by omega) (by omega)
    · rw [← h.kept a ha ha']
      exact hmem a (by omega) (by omega)

/-- **Coroutines.**  A thread that has called `swtch` continues, on whichever processor and after
any steps of the others, at its return address, with its stack pointer and the registers that a
function has to preserve; and its stack is what it was. -/
theorem swtch_resumes {s₀ s₁ s₂ s₃ : Threads C T} {es₀ es : List (Event C T)} {c c' : C} {t' : T}
    (hI : Inv K s₀) (hrun₀ : (threads C K).Run s₀ es₀ s) (hout : Step K s (.switch c t') s₁)
    (hrun : (threads C K).Run s₁ es s₂) (hes : ∀ ev ∈ es, (∀ a, ev ≠ .switch a (s.cur c)) ∧
      ev ≠ .free (s.cur c)) (hin : Step K s₂ (.switch c' (s.cur c)) s₃) :
    (s.cpu c).frame.On (s₃.core c') ∧ ∃ k, s.stack (s.cur c) = some k ∧
      ∀ a, (s.cpu c).frame.esp.toNat ≤ a → a < k + kstackSize → s₃.mem a = s.mem a := by
  have hIs : Inv K s := hrun₀.invariant hI fun _ _ _ h hst => h.step hst
  obtain ⟨k, hsus⟩ := Suspended.of_switch hIs hout
  obtain ⟨hI₂, hsus₂⟩ := hsus.of_run (hIs.step hout) hrun hes
  obtain ⟨hon, hkept⟩ := hsus₂.resume hI₂ hin
  refine ⟨hon, k, ?_, hkept⟩
  cases hout
  exact hsus.stack

/-- A kernel with two threads. -/
def twoThreads : Kernel Bool where
  slot t := if t then 4 else 0
  forkret := 1
  trapret := 2
  slot_apart := by decide

/-- Registers for a call of `swtch` on the stack at `e`. -/
def callCore (e : UInt32) : Core := ⟨fun _ => e, fun _ => 0, 0, 0⟩

theorem twoThreads_inv {mem : Bytes} {core : Unit → Core} {stack : Bool → Option ℕ}
    (hA : stack false = some 4096) (hB : ∀ k, stack true = some k → k = 8192) :
    Inv twoThreads ⟨mem, core, fun _ => false, stack⟩ := by
  have hstack : ∀ t k, stack t = some k → k = if t then 8192 else 4096 := fun t k hk => by
    cases t with
    | false =>
      rw [hA] at hk
      exact (Option.some.inj hk).symm
    | true => exact hB k hk
  refine ⟨fun _ _ _ => rfl, fun _ => ?_, fun t t' k k' hne hk hk' => ?_, fun t t' k hk => ?_,
    fun t k hk => ?_⟩
  · simp [hA]
  · rw [hstack t k hk, hstack t' k' hk']
    clear hk hk'
    revert t t'
    decide
  · rw [hstack t k hk]
    clear hk
    revert t t'
    decide
  · rw [hstack t k hk]
    clear hk
    revert t
    decide

/-- The first thread is about to call `swtch`, to the second one, which is about to call it in its
turn. -/
def firstCall : Threads Unit Bool :=
  ⟨storeWord (storeWord (storeWord (storeWord Bytes.zero 4 12000) 8008 12000) 12024 4) 12028 7984,
      fun _ => callCore 8000,
    fun _ => false, fun t => some (if t then 8192 else 4096)⟩

theorem swtch_resumes_two :
    ∃ s₁ s₃ : Threads Unit Bool, Step twoThreads firstCall (.switch () true) s₁ ∧
    Step twoThreads s₁ (.switch () false) s₃ ∧ (firstCall.cpu ()).frame.On (s₃.core ()) ∧
      ∃ k, firstCall.stack (firstCall.cur ()) = some k ∧
        ∀ a, (firstCall.cpu ()).frame.esp.toNat ≤ a → a < k + kstackSize →
        s₃.mem a = firstCall.mem a := by
  have hI : Inv twoThreads firstCall := twoThreads_inv rfl (by simp)
  have hout := Step.switch (K := twoThreads) (c := ()) (t := true) (k := 4096) (e := 8000)
    (s := firstCall) (by decide) (by decide) rfl rfl (by decide) (by decide) (by decide) (by decide)
  have hin := Step.switch (K := twoThreads) (c := ()) (t := false) (k := 8192) (e := 12020)
    (s := { firstCall with
      mem := (exec swtch (firstCall.cpu ())).mem
      core := upd firstCall.core () (exec swtch (firstCall.cpu ())).toCore
      cur := upd firstCall.cur () true }) (by decide) (by decide) rfl (by decide) (by decide)
        (by decide) (by decide)
    (by decide)
  exact ⟨_, _, hout, hin, swtch_resumes hI .nil hout .nil (by simp) hin⟩

end Asm

end Xv6
