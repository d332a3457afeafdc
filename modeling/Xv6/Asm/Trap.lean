import Xv6.Asm.Machine

/-!
# Entering and leaving the kernel

A trap saves the registers in a trap frame: the processor pushes the first part, the entry point of
the vector (`vectors.pl`) and `alltraps` (`trapasm.S`) the rest.  `trapret` loads them from there.

The trap frame is `struct trapframe`, and `tfCore` the registers that it has.  After a trap from
user mode these are all registers that the interrupted code had, for every vector (`entry_user`),
and `trapret` gives back those that the frame has (`trapret_user`); a trap in the kernel saves
neither `%esp` nor `%ss` (`entry_kernel`, `trapret_kernel`).
-/

namespace Xv6

namespace Asm

/-! ### The source -/

/-- `SEG_KCODE << 3` -/
def segKcode : UInt16 := 8

/-- `SEG_KDATA << 3` -/
def segKdata : UInt16 := 16

/-- `FL_IF` -/
def flIf : UInt32 := 0x200

/-- `T_SYSCALL` -/
def tSyscall : ℕ := 64

/-- The vectors for which the processor pushes an error code. -/
def pushesErr (i : ℕ) : Bool := i == 8 || (10 ≤ i && i ≤ 14) || i == 17

/-- The entry point of a vector. -/
def vector (i : ℕ) : List Instr :=
  (if pushesErr i then [] else [.pushlImm 0]) ++ [.pushlImm (.ofNat i)]

/-- `alltraps`, up to the call of `trap`. -/
def alltraps : List Instr :=
  [.pushlSeg .ds, .pushlSeg .es, .pushlSeg .fs, .pushlSeg .gs, .pushal, .movwAx segKdata,
      .movwAxSeg .ds, .movwAxSeg .es,
    .pushl .esp]

/-- `trapret`; `alltraps` drops the argument of `trap` before it. -/
def trapret : List Instr :=
  [.popal, .poplSeg .gs, .poplSeg .fs, .poplSeg .es, .poplSeg .ds, .addEsp 8, .iret]

/-- What the processor does for vector `i`, with `ts.esp0` and the gates of `tvinit`: from user
mode, it switches to the kernel stack. -/
def interrupt (esp0 : UInt32) (i : ℕ) (err : UInt32) (c : Cpu) : Cpu :=
  let user := c.seg .cs &&& 3 ≠ 0
  let c₀ := if user then (((c.setReg .esp esp0).push (c.seg .ss).toUInt32).push (c.reg .esp)).setSeg
    .ss segKdata else c
  let c₁ := ((c₀.push c.eflags).push (c.seg .cs).toUInt32).push c.eip
  let c₂ := if pushesErr i then c₁.push err else c₁
  { c₂.setSeg .cs segKcode with eflags := if i = tSyscall then c.eflags else c.eflags &&& ~~~flIf }

/-- `sizeof(struct trapframe)` -/
def tfSize : ℕ := 76

/-- The word of `struct trapframe` that has a general register; word 3 is `oesp`. -/
def Reg.word : Reg → ℕ
  | .edi => 0 | .esi => 1 | .ebp => 2 | .ebx => 4 | .edx => 5 | .ecx => 6 | .eax => 7 | .esp => 17

/-- The word of `struct trapframe` that has a segment register. -/
def Seg.word : Seg → ℕ
  | .gs => 8 | .fs => 9 | .es => 10 | .ds => 11 | .cs => 15 | .ss => 18

/-- Word `n` of the trap frame at `a`: 12 is `trapno`, 13 `err`, 14 `eip` and 16 `eflags`. -/
def tfWord (m : Bytes) (a n : ℕ) : UInt32 := loadWord m (a + 4 * n)

/-- The registers in the trap frame at `a`. -/
def tfCore (m : Bytes) (a : ℕ) : Core where
  reg r := tfWord m a r.word
  seg r := (tfWord m a r.word).toUInt16
  eip := tfWord m a 14
  eflags := tfWord m a 16

theorem Reg.word_lt {r : Reg} (hr : r ≠ .esp) : r.word < 17 := by
  revert hr
  cases r <;> decide

theorem Seg.word_lt {r : Seg} (hr : r ≠ .ss) : r.word < 17 := by
  revert hr
  cases r <;> decide

theorem Reg.word_ne {r : Reg} (hr : r ≠ .eax) : r.word < 19 ∧ r.word ≠ 7 := by
  revert hr
  cases r <;> decide

theorem Seg.word_ne (r : Seg) : r.word < 19 ∧ r.word ≠ 7 := by cases r <;> decide

/-- Two frames whose words are the same, but for `eax`. -/
theorem tfCore_congr {m m' : Bytes} {a a' : ℕ}
    (h : ∀ n < 19, n ≠ 7 → tfWord m a n = tfWord m' a' n) :
    tfCore m a = { tfCore m' a' with reg := upd (tfCore m' a').reg .eax (tfWord m a 7) } := by
  refine Core.ext (funext fun r => ?_) (funext fun r => ?_) (h 14 (by decide) (by decide))
    (h 16 (by decide) (by decide))
  · by_cases hr : r = .eax
    · rw [hr]
      exact (upd_same (tfCore m' a').reg .eax (tfWord m a 7)).symm
    · exact (h _ (Reg.word_ne hr).1 (Reg.word_ne hr).2).trans
        (upd_of_ne (tfCore m' a').reg (tfWord m a 7) hr).symm
  · exact congrArg UInt32.toUInt16 (h _ r.word_ne.1 r.word_ne.2)

/-! ### Entry -/

variable {esp0 err : UInt32} {i : ℕ} {c c' : Cpu} {ws : List UInt32}

/-- What the processor saves on the stack that it has chosen. -/
def hardwareWords (i : ℕ) (err : UInt32) (c : Cpu) : List UInt32 :=
  [c.eflags, (c.seg .cs).toUInt32, c.eip] ++ if pushesErr i then [err] else []

/-- The segment registers that `alltraps` saves. -/
def segWords (c : Cpu) : List UInt32 :=
  [(c.seg .ds).toUInt32, (c.seg .es).toUInt32, (c.seg .fs).toUInt32, (c.seg .gs).toUInt32]

/-- The registers that `pushal` saves; `oesp` is what `%esp` was. -/
def regWords (oesp : UInt32) (c : Cpu) : List UInt32 :=
  [c.reg .eax, c.reg .ecx, c.reg .edx, c.reg .ebx, oesp, c.reg .ebp, c.reg .esi, c.reg .edi]

/-- What a trap saves in every case. -/
def savedWords (oesp : UInt32) (i : ℕ) (err : UInt32) (c : Cpu) : List UInt32 :=
  [c.eflags, (c.seg .cs).toUInt32, c.eip, if pushesErr i then err else 0, .ofNat i] ++ segWords c ++
    regWords oesp c

/-- A trap from user mode saves the stack of the user too. -/
theorem interrupt_pushed (esp0 : UInt32) (i : ℕ) (err : UInt32) (hu : c.seg .cs &&& 3 ≠ 0) :
    Pushed (c.setReg .esp esp0) (interrupt esp0 i err c)
      ([(c.seg .ss).toUInt32, c.reg .esp] ++ hardwareWords i err c) := by
  have hfive :=
    ((((((Pushed.refl (c.setReg .esp esp0)).push (c.seg .ss).toUInt32).push (c.reg .esp)).setSeg .ss
      segKdata).push c.eflags).push (c.seg .cs).toUInt32).push c.eip
  simp only [interrupt, hardwareWords, if_pos hu]
  cases hp : pushesErr i
  · exact ⟨hfive.mem, hfive.esp⟩
  · exact ⟨(hfive.push err).mem, (hfive.push err).esp⟩

theorem interrupt_pushed_kernel (esp0 : UInt32) (i : ℕ) (err : UInt32) (hk : c.seg .cs &&& 3 = 0) :
    Pushed c (interrupt esp0 i err c) (hardwareWords i err c) := by
  have hthree := (((Pushed.refl c).push c.eflags).push (c.seg .cs).toUInt32).push c.eip
  simp only [interrupt, hardwareWords, if_neg (not_not.2 hk)]
  cases hp : pushesErr i
  · exact ⟨hthree.mem, hthree.esp⟩
  · exact ⟨(hthree.push err).mem, (hthree.push err).esp⟩

theorem interrupt_segWords : segWords (interrupt esp0 i err c) = segWords c := by
  simp only [segWords, interrupt]
  split <;> split <;> rfl

theorem interrupt_reg {r : Reg} (hr : r ≠ .esp) : (interrupt esp0 i err c).reg r = c.reg r := by
  simp only [interrupt]
  split <;> split <;> simp [Cpu.setSeg, Cpu.push_reg hr, Cpu.setReg, hr]

theorem regWords_congr {oesp : UInt32} (h : ∀ r, r ≠ .esp → c'.reg r = c.reg r) :
    regWords oesp c' = regWords oesp c := by
  simp only [regWords, h _ (show Reg.eax ≠ .esp by decide), h _ (show Reg.ecx ≠ .esp by decide),
    h _ (show Reg.edx ≠ .esp by decide), h _ (show Reg.ebx ≠ .esp by decide),
    h _ (show Reg.ebp ≠ .esp by decide), h _ (show Reg.esi ≠ .esp by decide),
    h _ (show Reg.edi ≠ .esp by decide)]

/-- `vector`: afterwards there is an error code, and the number of the trap. -/
theorem vector_pushed (h : Pushed c c' (ws ++ if pushesErr i then [err] else [])) :
    Pushed c (exec (vector i) c') (ws ++ [if pushesErr i then err else 0, .ofNat i]) := by
  cases hp : pushesErr i
  · rw [hp] at h
    have := (h.push 0).push (.ofNat i)
    simpa [vector, hp, exec, Instr.run] using this
  · rw [hp] at h
    have := h.push (.ofNat i)
    simpa [vector, hp, exec, Instr.run] using this

theorem vector_seg (i : ℕ) (c : Cpu) : (exec (vector i) c).seg = c.seg := by
  unfold vector
  split <;> rfl

theorem vector_reg {r : Reg} (hr : r ≠ .esp) (i : ℕ) (c : Cpu) :
    (exec (vector i) c).reg r = c.reg r := by
  unfold vector
  split <;> simp [exec, Instr.run, Cpu.push_reg hr]

theorem alltraps_pushed (h : Pushed c c' ws) :
    ∃ oesp w, Pushed c (exec alltraps c') (ws ++ segWords c' ++ regWords oesp c' ++ [w]) := by
  have hseg := h.pushes (segWords c')
  obtain ⟨c₄, hc4⟩ : ∃ c₄, c'.pushes (segWords c') = c₄ := ⟨_, rfl⟩
  rw [hc4] at hseg
  have hregs : pushalRegs.map c₄.reg = regWords (c₄.reg .esp) c' := by
    have hreg : ∀ r, r ≠ .esp → c₄.reg r = c'.reg r := fun r hr => hc4 ▸ Cpu.pushes_reg hr
    rw [← regWords_congr hreg]
    rfl
  have hall := hseg.pushes (regWords (c₄.reg .esp) c')
  have hexec : exec alltraps c' =
    Instr.run (.pushl .esp) (Instr.run (.movwAxSeg .es) (Instr.run (.movwAxSeg .ds)
      (Instr.run (.movwAx segKdata) (Instr.run .pushal c₄)))) := by rw [← hc4]; rfl
  rw [hexec, run_pushal, hregs]
  exact ⟨_, _, (((hall.setReg (by decide) _).setSeg .ds _).setSeg .es _).push _⟩

theorem entry_pushed {c₀ : Cpu} (ws : List UInt32)
    (h : Pushed c₀ (interrupt esp0 i err c) (ws ++ hardwareWords i err c)) :
    ∃ oesp w, Pushed c₀ (exec (vector i ++ alltraps) (interrupt esp0 i err c))
    (ws ++ savedWords oesp i err c ++ [w]) := by
  rw [hardwareWords, ← List.append_assoc] at h
  obtain ⟨oesp, w, h⟩ := alltraps_pushed (vector_pushed h)
  have hseg : segWords (exec (vector i) (interrupt esp0 i err c)) = segWords c := by
    rw [segWords, vector_seg]
    exact interrupt_segWords
  rw [hseg, regWords_congr fun r hr => (vector_reg hr i _).trans (interrupt_reg hr)] at h
  refine ⟨oesp, w, ?_⟩
  rw [exec_append]
  simpa [savedWords] using h

/-- The fields of a trap frame that every trap fills. -/
structure Saves (c : Cpu) (i : ℕ) (err : UInt32) (m : Bytes) (a : ℕ) : Prop where
  reg : ∀ r, r ≠ .esp → (tfCore m a).reg r = c.reg r
  seg : ∀ r, r ≠ .ss → (tfCore m a).seg r = c.seg r
  eip : (tfCore m a).eip = c.eip
  eflags : (tfCore m a).eflags = c.eflags
  trapno : tfWord m a 12 = .ofNat i
  err : tfWord m a 13 = if pushesErr i then err else 0

theorem saves_of_words {m : Bytes} {a : ℕ} (oesp : UInt32)
    (hword : ∀ n < 17, (savedWords oesp i err c)[16 - n]? = some (tfWord m a n)) :
    Saves c i err m a := by
  have hreg : ∀ {n : ℕ} {v : UInt32}, n < 17 → (savedWords oesp i err c)[16 - n]? = some v →
      tfWord m a n = v :=
    fun hn hv => Option.some.inj ((hword _ hn).symm.trans hv)
  refine ⟨fun r hr => hreg (Reg.word_lt hr) ?_, fun r hr => ?_, hreg (by decide) rfl,
    hreg (by decide) rfl, hreg (by decide) rfl, hreg (by decide) rfl⟩
  · cases r with
    | esp => exact absurd rfl hr
    | _ => rfl
  have hseg : (savedWords oesp i err c)[16 - r.word]? = some (c.seg r).toUInt32 := by
    cases r with
    | ss => exact absurd rfl hr
    | _ => rfl
  exact (congrArg UInt32.toUInt16 (hreg (Seg.word_lt hr) hseg)).trans (UInt16.toUInt16_toUInt32 _)

/-- The state in which `trap` is called. -/
@[irreducible]
def entry (esp0 : UInt32) (i : ℕ) (err : UInt32) (c : Cpu) : Cpu :=
  exec (vector i ++ alltraps) (interrupt esp0 i err c)

/-- The frame of a trap that has pushed `ws` and `savedWords`. -/
theorem saves_of_pushed {c₀ k : Cpu} {oesp w : UInt32} {a : ℕ}
    (h : Pushed c₀ k (ws ++ savedWords oesp i err c ++ [w]))
    (ha : a + 4 * (ws.length + 17) = (c₀.reg .esp).toNat) (hroom : 4 ≤ a) :
    (k.reg .esp).toNat + 4 = a ∧ Saves c i err k.mem a ∧
      ∀ n < ws.length, ws[ws.length - 1 - n]? = some (tfWord k.mem a (17 + n)) := by
  have hlen : (ws ++ savedWords oesp i err c ++ [w]).length = ws.length + 18 := by
    simp [savedWords, segWords, regWords]
  have hlen' : (savedWords oesp i err c).length = 17 := rfl
  have hroom' : 4 * (ws ++ savedWords oesp i err c ++ [w]).length ≤ (c₀.reg .esp).toNat := by omega
  have hload : ∀ n < ws.length + 17,
      (ws ++ savedWords oesp i err c)[ws.length + 16 - n]? = some (tfWord k.mem a n) :=
      fun n hn => by
    have hword := h.load hroom' (n := n + 1) (by omega)
    rwa [hlen, show ws.length + 18 - 1 - (n + 1) = ws.length + 16 - n by omega,
      List.getElem?_append_left (by rw [List.length_append]; omega),
      show (c₀.reg .esp).toNat - 4 * (ws.length + 18) + 4 * (n + 1) = a + 4 * n by omega] at hword
  refine ⟨?_, saves_of_words oesp fun n hn => ?_, fun n hn => ?_⟩
  · rw [h.esp, Cpu.pushes_esp hroom', hlen]
    omega
  · rw [← hload n (by omega), List.getElem?_append_right (by omega)]
    congr 1
    omega
  · rw [← hload (17 + n) (by omega), List.getElem?_append_left (by omega)]
    congr 1
    omega

/-- A trap from user mode leaves a trap frame at the top of the kernel stack. -/
theorem entry_user {a : ℕ} (i : ℕ) (err : UInt32) (hu : c.seg .cs &&& 3 ≠ 0)
    (ha : a + tfSize = esp0.toNat) (hroom : 4 ≤ a) : ((entry esp0 i err c).reg .esp).toNat + 4 = a ∧
    Saves c i err (entry esp0 i err c).mem a ∧
      tfCore (entry esp0 i err c).mem a = c.toCore := by
  obtain ⟨oesp, w, h⟩ := entry_pushed _ (interrupt_pushed esp0 i err hu)
  rw [← entry] at h
  have hbase : ((c.setReg .esp esp0).reg .esp).toNat = esp0.toNat := by simp [Cpu.setReg]
  obtain ⟨hesp, hsaves, hws⟩ := saves_of_pushed (a := a) h (hbase ▸ ha) hroom
  refine ⟨hesp, hsaves, Core.ext (funext fun r => ?_) (funext fun r => ?_) hsaves.eip hsaves.eflags⟩
  · by_cases hr : r = .esp
    · rw [hr]
      exact (Option.some.inj (hws 0 (by simp))).symm
    · exact hsaves.reg r hr
  by_cases hr : r = .ss
  · rw [hr]
    have hss := Option.some.inj (hws 1 (by simp))
    exact (congrArg UInt32.toUInt16 hss.symm).trans (UInt16.toUInt16_toUInt32 _)
  · exact hsaves.seg r hr

/-- A trap from the kernel leaves the frame on the current stack. -/
theorem entry_kernel {a : ℕ} (esp0 : UInt32) (i : ℕ) (err : UInt32) (hk : c.seg .cs &&& 3 = 0)
    (ha : a + 68 = (c.reg .esp).toNat) (hroom : 4 ≤ a) :
    ((entry esp0 i err c).reg .esp).toNat + 4 = a ∧ Saves c i err (entry esp0 i err c).mem a := by
  obtain ⟨oesp, w, h⟩ := entry_pushed [] (interrupt_pushed_kernel esp0 i err hk)
  rw [← entry] at h
  obtain ⟨hesp, hsaves, -⟩ := saves_of_pushed (a := a) h ha hroom
  exact ⟨hesp, hsaves⟩

/-! ### Exit -/

/-- The code of `trapret` before `iret`. -/
def restore : List Instr :=
  [.popal, .poplSeg .gs, .poplSeg .fs, .poplSeg .es, .poplSeg .ds, .addEsp 8]

theorem exec_trapret (c : Cpu) : exec trapret c = Instr.run .iret (exec restore c) := rfl

theorem run_popal (c : Cpu) : Instr.run .popal c = { c with
    reg := fun r => if r = .esp then c.reg .esp + 32
      else c.load (c.reg .esp + .ofNat (4 * r.word)) } := by
  have hrun : Instr.run .popal c = { c with reg := (Instr.run .popal c).reg } := rfl
  rw [hrun]
  congr 2
  funext r
  cases r <;> simp [Instr.run, pushalRegs, Reg.word, Cpu.drop, Cpu.setReg, Cpu.top,
    Cpu.load, add_assoc]

/-- Before `iret`, the stack is at the part of the frame that the processor has pushed. -/
theorem exec_restore (c : Cpu) : exec restore c = { c with
    reg := fun r => if r = .esp then c.reg .esp + 56 else c.load (c.reg .esp + .ofNat (4 * r.word))
    seg := fun r => if r = .cs ∨
      r = .ss then c.seg r else (c.load (c.reg .esp + .ofNat (4 * r.word))).toUInt16 } := by
  have hexec : exec restore c =
    Instr.run (.addEsp 8) (Instr.run (.poplSeg .ds) (Instr.run (.poplSeg .es)
      (Instr.run (.poplSeg .fs) (Instr.run (.poplSeg .gs) (Instr.run .popal c))))) := rfl
  rw [hexec, run_popal]
  simp only [Instr.run, Cpu.drop, Cpu.setReg, Cpu.setSeg, Cpu.top, Cpu.load, upd_same,
    if_true, add_assoc]
  congr 2
  · funext r
    by_cases hr : r = .esp
    · simp [hr]
    · simp [upd_of_ne, hr]
  · funext r
    cases r <;> rfl

theorem load_frame {n : ℕ} (h : (c.reg .esp).toNat + 4 * n < 2 ^ 32) :
    c.load (c.reg .esp + .ofNat (4 * n)) = tfWord c.mem (c.reg .esp).toNat n := load_add h

/-- What `trapret` has loaded before `iret`, from the frame at `a`. -/
structure Restored (c d : Cpu) (a : ℕ) : Prop where
  reg : ∀ r, r ≠ .esp → d.reg r = (tfCore c.mem a).reg r
  seg : ∀ r, r ≠ .cs → r ≠ .ss → d.seg r = (tfCore c.mem a).seg r
  cs : d.seg .cs = c.seg .cs
  ss : d.seg .ss = c.seg .ss
  esp : d.reg .esp = c.reg .esp + .ofNat (4 * 14)
  eip : d.load (d.reg .esp) = tfWord c.mem a 14
  load : ∀ n, a + 4 * (14 + n) < 2 ^ 32 → d.load (d.reg .esp + .ofNat (4 * n)) =
    tfWord c.mem a (14 + n)

theorem Restored.iret_cs {d : Cpu} {a : ℕ} (h : Restored c d a) (ha : a + 64 ≤ 2 ^ 32) :
    (d.load (d.reg .esp + 4)).toUInt16 = (tfCore c.mem a).seg .cs :=
  congrArg UInt32.toUInt16 (h.load 1 (by omega))

theorem restored (hsp : (c.reg .esp).toNat + 68 ≤ 2 ^ 32) :
    Restored c (exec restore c) (c.reg .esp).toNat := by
  have h56 : (56 : UInt32) = .ofNat (4 * 14) := by decide
  rw [exec_restore, h56]
  refine ⟨fun r hr => ?_, fun r hcs hss => ?_, rfl, rfl, rfl, ?_, fun n hn => ?_⟩
  · have := Reg.word_lt hr
    dsimp only
    rw [if_neg hr, load_frame (by omega), tfCore]
  · have := Seg.word_lt hss
    dsimp only
    rw [if_neg (not_or.2 ⟨hcs, hss⟩), load_frame (by omega), tfCore]
  · show c.load (c.reg .esp + .ofNat (4 * 14)) = _
    rw [load_frame (by omega)]
  · show c.load (c.reg .esp + .ofNat (4 * 14) + .ofNat (4 * n)) = _
    rw [← load_frame hn, mul_add, UInt32.ofNat_add, add_assoc]

theorem run_iret (h : (c.load (c.reg .esp + 4)).toUInt16 &&& 3 ≠ c.seg .cs &&& 3) :
    Instr.run .iret c = { c with
    reg := upd c.reg .esp (c.load (c.reg .esp + 12))
    seg := upd (upd c.seg .cs (c.load (c.reg .esp + 4)).toUInt16) .ss
      (c.load (c.reg .esp + 16)).toUInt16
    eip := c.load (c.reg .esp)
    eflags := c.load (c.reg .esp + 8) } := by
  simp only [Instr.run, if_neg h, Cpu.setReg, Cpu.setSeg]

theorem run_iret_same (h : (c.load (c.reg .esp + 4)).toUInt16 &&& 3 = c.seg .cs &&& 3) :
    Instr.run .iret c = { c with
    reg := upd c.reg .esp (c.reg .esp + 12)
    seg := upd c.seg .cs (c.load (c.reg .esp + 4)).toUInt16
    eip := c.load (c.reg .esp)
    eflags := c.load (c.reg .esp + 8) } := by
  simp only [Instr.run, if_pos h, Cpu.setReg]

/-- `trapret` with the stack at a trap frame of user mode. -/
theorem trapret_user (hk : c.seg .cs &&& 3 = 0) (hsp : (c.reg .esp).toNat + tfSize ≤ 2 ^ 32)
    (hu : (tfCore c.mem (c.reg .esp).toNat).seg .cs &&& 3 ≠ 0) :
    (exec trapret c).toCore = tfCore c.mem (c.reg .esp).toNat := by
  simp only [tfSize] at hsp
  have h := restored (c := c) (by omega)
  rw [exec_trapret]
  generalize exec restore c = d at h ⊢
  have hcs := h.iret_cs (by omega)
  rw [run_iret (by rwa [hcs, h.cs, hk])]
  refine Core.ext (funext fun r => ?_) (funext fun r => ?_) h.eip (h.load 2 (by omega))
  · by_cases hr : r = .esp
    · rw [hr]
      exact h.load 3 (by omega)
    · exact (upd_of_ne _ _ hr).trans (h.reg r hr)
  by_cases hss : r = .ss
  · rw [hss]
    exact congrArg UInt32.toUInt16 (h.load 4 (by omega))
  refine (upd_of_ne _ _ hss).trans ?_
  by_cases hrcs : r = .cs
  · rw [hrcs]
    exact hcs
  · exact (upd_of_ne _ _ hrcs).trans (h.seg r hrcs hss)

/-- `trapret` with the stack at a trap frame of the kernel. -/
theorem trapret_kernel (hk : c.seg .cs &&& 3 = 0) (hsp : (c.reg .esp).toNat + 68 ≤ 2 ^ 32)
    (hu : (tfCore c.mem (c.reg .esp).toNat).seg .cs &&& 3 = 0) :
    (exec trapret c).toCore = { tfCore c.mem (c.reg .esp).toNat with
      reg := upd (tfCore c.mem (c.reg .esp).toNat).reg .esp (c.reg .esp + 68)
      seg := upd (tfCore c.mem (c.reg .esp).toNat).seg .ss (c.seg .ss) } := by
  have h := restored hsp
  rw [exec_trapret]
  generalize exec restore c = d at h ⊢
  have hcs := h.iret_cs (by omega)
  have hesp : d.reg .esp + 12 = c.reg .esp + 68 := by
    rw [h.esp, add_assoc, show UInt32.ofNat (4 * 14) + 12 = 68 by decide]
  rw [run_iret_same (by rw [hcs, h.cs, hk, hu])]
  refine Core.ext (funext fun r => ?_) (funext fun r => ?_) h.eip (h.load 2 (by omega))
  · dsimp only
    by_cases hr : r = .esp
    · rw [hr, upd_same, upd_same, hesp]
    · rw [upd_of_ne _ _ hr, upd_of_ne _ _ hr, h.reg r hr]
  dsimp only
  by_cases hss : r = .ss
  · rw [hss, upd_same, upd_of_ne _ _ (by decide), h.ss]
  rw [upd_of_ne (tfCore _ _).seg _ hss]
  by_cases hrcs : r = .cs
  · rw [hrcs, upd_same, hcs]
  · rw [upd_of_ne _ _ hrcs, h.seg r hrcs hss]

/-! ### There and back -/

/-- After `trap` has returned. -/
def leave : List Instr := .addEsp 4 :: trapret

theorem exec_leave {k : Cpu} {a : ℕ} (h : (k.reg .esp).toNat + 4 = a) (ha : a < 2 ^ 32) :
    ∃ c : Cpu, exec leave k = exec trapret c ∧ (c.reg .esp).toNat = a ∧ c.mem = k.mem ∧
    c.seg = k.seg := by
  refine ⟨Instr.run (.addEsp 4) k, by rw [leave, exec_cons], ?_, rfl, rfl⟩
  have hrun : (Instr.run (.addEsp 4) k).reg .esp = k.reg .esp + 4 := by simp [Instr.run, Cpu.setReg]
  rw [hrun, UInt32.toNat_add, show (4 : UInt32).toNat = 4 from rfl, h, Nat.mod_eq_of_lt ha]

/-- **Traps from user mode.**  The frame has all registers and the number of the trap, whatever the
vector is.  If the kernel leaves the frame as it is but for the register with the result of a system
call, the user gets all registers back, that one changed. -/
theorem trap_roundtrip {k : Cpu} {a : ℕ} (hu : c.seg .cs &&& 3 ≠ 0) (ha : a + tfSize = esp0.toNat)
    (hroom : 4 ≤ a) (hesp : k.reg .esp = (entry esp0 i err c).reg .esp) (hk : k.seg .cs &&& 3 = 0)
    (hframe : ∀ b, a ≤ b → b < a + tfSize → ¬(a + 28 ≤ b ∧ b < a + 32) →
      k.mem b = (entry esp0 i err c).mem b) :
    Saves c i err (entry esp0 i err c).mem a ∧ tfCore (entry esp0 i err c).mem a = c.toCore ∧
      (exec leave k).toCore = { c.toCore with reg := upd c.reg .eax (tfWord k.mem a 7) } := by
  obtain ⟨htop, hsaves, hcore⟩ := entry_user i err hu ha hroom
  have hlt := esp0.toNat_lt
  rw [← hesp] at htop
  simp only [tfSize] at ha hframe
  generalize (entry esp0 i err c).mem = m at hsaves hcore hframe ⊢
  have htf : tfCore k.mem a = { c.toCore with reg := upd c.reg .eax (tfWord k.mem a 7) } := by
    rw [← hcore]
    refine tfCore_congr fun n hn hne => loadWord_congr fun b hb hb' => hframe b ?_ ?_ ?_
    · omega
    · omega
    · omega
  obtain ⟨d, hexec, hsp, hmem, hseg⟩ := exec_leave htop (by omega)
  refine ⟨hsaves, hcore, ?_⟩
  have hcs : (tfCore d.mem (d.reg .esp).toNat).seg .cs = c.seg .cs := by rw [hmem, hsp, htf]
  rw [hexec, trapret_user (by rw [hseg, hk]) (by simp only [tfSize]; omega) (by rwa [hcs]),
    hmem, hsp, htf]

theorem entry_cs (esp0 : UInt32) (i : ℕ) (err : UInt32) (c : Cpu) :
    (entry esp0 i err c).seg .cs = segKcode := by
  have hall : ∀ c', (exec alltraps c').seg .cs = c'.seg .cs := fun c' => by
    simp [exec, alltraps, Instr.run, Cpu.push, Cpu.setReg, Cpu.setSeg, Cpu.store, pushalRegs]
  rw [entry, exec_append, hall, vector_seg]
  simp [interrupt, Cpu.setSeg]

/-- A system call that returns 5. -/
theorem trap_roundtrip_syscall :
    let c : Cpu :=
      ⟨⟨fun r => .ofNat r.word, fun r => .ofNat (27 + 8 * r.word), 100, 0x202⟩, Bytes.zero⟩
    let k : Cpu := (entry 4096 64 0 c).store 4048 5
    Saves c 64 0 (entry 4096 64 0 c).mem 4020 ∧ tfCore (entry 4096 64 0 c).mem 4020 = c.toCore ∧
      (exec leave k).toCore = { c.toCore with reg := upd c.reg .eax 5 } := by
  intro c k
  have hcs : k.seg .cs = segKcode := entry_cs 4096 64 0 c
  have heax : tfWord k.mem 4020 7 = 5 := loadWord_storeWord _ _ _
  rw [← heax]
  exact trap_roundtrip (a := 4020) (by decide) rfl (by decide) rfl (by rw [hcs]; decide)
    fun b _ _ hb => storeWord_of_not_mem (by rw [show (4048 : UInt32).toNat = 4048 from rfl]; omega)

/-- **Traps in the kernel.**  If the kernel leaves the frame as it is, the interrupted code gets all
registers back. -/
theorem trap_transparent {k : Cpu} {a : ℕ} (hkernel : c.seg .cs &&& 3 = 0)
    (ha : a + 68 = (c.reg .esp).toNat) (hroom : 4 ≤ a)
    (hesp : k.reg .esp = (entry esp0 i err c).reg .esp) (hk : k.seg .cs &&& 3 = 0)
    (hss : k.seg .ss = c.seg .ss) (hframe : ∀ b, a ≤ b → b < a + 68 →
    k.mem b = (entry esp0 i err c).mem b) :
    Saves c i err (entry esp0 i err c).mem a ∧ (exec leave k).toCore = c.toCore := by
  obtain ⟨htop, hsaves⟩ := entry_kernel esp0 i err hkernel ha hroom
  have hlt := (c.reg .esp).toNat_lt
  rw [← hesp] at htop
  generalize (entry esp0 i err c).mem = m at hsaves hframe ⊢
  -- The frame of the kernel ends before `esp` and `ss`.
  have hword : ∀ n < 17, tfWord k.mem a n = tfWord m a n := fun n hn =>
    loadWord_congr fun b hb hb' => hframe b (by omega) (by omega)
  have hreg : ∀ r, r ≠ .esp → (tfCore k.mem a).reg r = c.reg r := fun r hr =>
    (hword _ (Reg.word_lt hr)).trans (hsaves.reg r hr)
  have hseg : ∀ r, r ≠ .ss → (tfCore k.mem a).seg r = c.seg r := fun r hr =>
    (congrArg UInt32.toUInt16 (hword _ (Seg.word_lt hr))).trans (hsaves.seg r hr)
  obtain ⟨d, hexec, hsp, hmem, hdseg⟩ := exec_leave htop (by omega)
  have hsp' : d.reg .esp + 68 = c.reg .esp := by
    rw [← UInt32.toNat_inj, UInt32.toNat_add, hsp, show (68 : UInt32).toNat = 68 from rfl, ha,
      Nat.mod_eq_of_lt hlt]
  refine ⟨hsaves, ?_⟩
  rw [hexec, trapret_kernel (by rw [hdseg, hk]) (by omega)
    (by rw [hmem, hsp, hseg .cs (by decide), hkernel]), hmem, hsp, hsp', hdseg]
  refine Core.ext (funext fun r => ?_) (funext fun r => ?_)
    ((hword 14 (by decide)).trans hsaves.eip) ((hword 16 (by decide)).trans hsaves.eflags)
  · by_cases hr : r = .esp
    · rw [hr]
      exact upd_same (tfCore k.mem a).reg .esp (c.reg .esp)
    · exact (upd_of_ne _ _ hr).trans (hreg r hr)
  by_cases hr : r = .ss
  · rw [hr]
    exact (upd_same (tfCore k.mem a).seg .ss (k.seg .ss)).trans hss
  · exact (upd_of_ne _ _ hr).trans (hseg r hr)

theorem trap_transparent_timer :
    let c : Cpu := ⟨⟨fun _ => 4088, fun _ => 16, 100, 0x202⟩, Bytes.zero⟩
    let k : Cpu := (entry 4096 32 0 c).setSeg .ss 16
    Saves c 32 0 (entry 4096 32 0 c).mem 4020 ∧ (exec leave k).toCore = c.toCore := by
  intro c k
  have hcs : k.seg .cs = segKcode := by simp [k, Cpu.setSeg, entry_cs]
  have hss : k.seg .ss = c.seg .ss := by simp [k, c, Cpu.setSeg]
  exact trap_transparent (a := 4020) (by decide) rfl (by decide) rfl (by rw [hcs]; decide) hss
    fun _ _ _ => rfl

end Asm

end Xv6
