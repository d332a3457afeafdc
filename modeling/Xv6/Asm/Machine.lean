import Xv6.Bytes.Basic
import Xv6.Prog.Update

/-!
# A processor

The part of a 32-bit x86 processor that code which saves and restores registers needs: general and
segment registers, the instruction pointer, the flags, and a memory of bytes.  Straight-line code is
a list of instructions; an instruction that jumps is the last one of a list, and sets `eip`.

Two facts carry the proofs: what a stored word reads back as, and that a word elsewhere is not
affected (`loadWord_storeWord`, `loadWord_storeWord_of_disjoint`).
-/

namespace Xv6

namespace Asm

/-- The general registers. -/
inductive Reg
  | eax | ecx | edx | ebx | esp | ebp | esi | edi
  deriving DecidableEq

/-- The segment registers. -/
inductive Seg
  | cs | ds | es | fs | gs | ss
  deriving DecidableEq

/-- The registers of a processor. -/
@[ext]
structure Core where
  reg : Reg → UInt32
  seg : Seg → UInt16
  eip : UInt32
  eflags : UInt32

/-- A processor and the memory. -/
structure Cpu extends Core where
  mem : Bytes

/-! ### Words in memory -/

/-- The word at an address. -/
def loadWord (m : Bytes) (a : ℕ) : UInt32 := .ofNat (m.getLE 4 a)

/-- Store a word. -/
def storeWord (m : Bytes) (a : ℕ) (v : UInt32) : Bytes := m.putLE 4 a v.toNat

theorem loadWord_storeWord (m : Bytes) (a : ℕ) (v : UInt32) : loadWord (storeWord m a v) a = v := by
  rw [loadWord, storeWord, Bytes.getLE_putLE,
    Nat.mod_eq_of_lt (show v.toNat < 256 ^ 4 from v.toNat_lt)]
  exact UInt32.ofNat_toNat

theorem loadWord_storeWord_of_disjoint {m : Bytes} {a b : ℕ} {v : UInt32}
    (h : b + 4 ≤ a ∨ a + 4 ≤ b) :
    loadWord (storeWord m a v) b = loadWord m b := by
  rw [loadWord, storeWord, Bytes.getLE_putLE_of_disjoint h, loadWord]

theorem storeWord_of_not_mem {m : Bytes} {a i : ℕ} {v : UInt32} (h : i < a ∨ a + 4 ≤ i) :
    storeWord m a v i = m i :=
  Bytes.copy_of_not_mem h

theorem loadWord_congr {m m' : Bytes} {a : ℕ} (h : ∀ i, a ≤ i → i < a + 4 → m i = m' i) :
    loadWord m a = loadWord m' a := by
  rw [loadWord, Bytes.getLE_congr h, loadWord]

/-! ### Instructions -/

namespace Cpu

/-- Set a register. -/
def setReg (c : Cpu) (r : Reg) (v : UInt32) : Cpu := { c with reg := upd c.reg r v }

/-- Set a segment register. -/
def setSeg (c : Cpu) (r : Seg) (v : UInt16) : Cpu := { c with seg := upd c.seg r v }

/-- Store a word. -/
def store (c : Cpu) (a v : UInt32) : Cpu := { c with mem := storeWord c.mem a.toNat v }

/-- The word at an address. -/
def load (c : Cpu) (a : UInt32) : UInt32 := loadWord c.mem a.toNat

/-- Push a word. -/
def push (c : Cpu) (v : UInt32) : Cpu := (c.store (c.reg .esp - 4) v).setReg .esp (c.reg .esp - 4)

/-- The word on top of the stack. -/
def top (c : Cpu) : UInt32 := c.load (c.reg .esp)

/-- Drop a word. -/
def drop (c : Cpu) : Cpu := c.setReg .esp (c.reg .esp + 4)

end Cpu

theorem load_add {c : Cpu} {v : UInt32} {k : ℕ} (h : v.toNat + k < 2 ^ 32) :
    c.load (v + .ofNat k) = loadWord c.mem (v.toNat + k) := by
  rw [Cpu.load, UInt32.toNat_add, UInt32.toNat_ofNat', Nat.add_mod_mod, Nat.mod_eq_of_lt h]

/-- Instructions. -/
inductive Instr
  /-- `movl %src, %dst` -/
  | movl (src dst : Reg)
  /-- `movl off(%base), %dst` -/
  | movlLoad (off : UInt32) (base dst : Reg)
  /-- `movl %src, (%base)` -/
  | movlStore (src base : Reg)
  /-- `movw $v, %ax` -/
  | movwAx (v : UInt16)
  /-- `movw %ax, %r` -/
  | movwAxSeg (r : Seg)
  | pushl (r : Reg)
  | popl (r : Reg)
  | pushlSeg (r : Seg)
  | poplSeg (r : Seg)
  /-- `pushl $v` -/
  | pushlImm (v : UInt32)
  | pushal
  | popal
  /-- `addl $v, %esp` -/
  | addEsp (v : UInt32)
  | ret
  | iret

/-- The order of `pushal`. -/
def pushalRegs : List Reg := [.eax, .ecx, .edx, .ebx, .esp, .ebp, .esi, .edi]

/-- Execute an instruction. -/
def Instr.run : Instr → Cpu → Cpu
  | .movl src dst, c => c.setReg dst (c.reg src)
  | .movlLoad off base dst, c => c.setReg dst (c.load (c.reg base + off))
  | .movlStore src base, c => c.store (c.reg base) (c.reg src)
  | .movwAx v, c => c.setReg .eax (c.reg .eax &&& 0xffff0000 ||| v.toUInt32)
  | .movwAxSeg r, c => c.setSeg r (c.reg .eax).toUInt16
  | .pushl r, c => c.push (c.reg r)
  | .popl r, c => c.drop.setReg r c.top
  | .pushlSeg r, c => c.push (c.seg r).toUInt32
  | .poplSeg r, c => c.drop.setSeg r c.top.toUInt16
  | .pushlImm v, c => c.push v
  | .pushal, c => pushalRegs.foldl (fun c' r => c'.push (c.reg r)) c
  -- The saved value of `%esp` is not popped into it.
  | .popal, c =>
    pushalRegs.reverse.foldl (fun c' r => if r = .esp then c'.drop else c'.drop.setReg r c'.top) c
  | .addEsp v, c => c.setReg .esp (c.reg .esp + v)
  | .ret, c => { c.drop with eip := c.top }
  -- Between rings, the stack is switched too.
  | .iret, c =>
    let sp := c.reg .esp
    let cs := (c.load (sp + 4)).toUInt16
    let c' : Cpu := { c with eip := c.load sp, eflags := c.load (sp + 8), seg := upd c.seg .cs cs }
    if cs &&& 3 = c.seg .cs &&& 3 then c'.setReg .esp (sp + 12)
    else (c'.setReg .esp (c.load (sp + 12))).setSeg .ss (c.load (sp + 16)).toUInt16

/-- Execute code. -/
def exec (code : List Instr) (c : Cpu) : Cpu := code.foldl (fun c i => i.run c) c

theorem exec_cons (i : Instr) (code : List Instr) (c : Cpu) :
    exec (i :: code) c = exec code (i.run c) := rfl

theorem exec_append (code code' : List Instr) (c : Cpu) :
    exec (code ++ code') c = exec code' (exec code c) :=
  List.foldl_append ..

/-! ### Stacks -/

namespace Cpu

/-- Push some words. -/
def pushes (c : Cpu) (ws : List UInt32) : Cpu := ws.foldl push c

variable {c : Cpu} {ws : List UInt32} {i : ℕ}

theorem esp_sub (h : 4 ≤ (c.reg .esp).toNat) : (c.reg .esp - 4).toNat = (c.reg .esp).toNat - 4 :=
  UInt32.toNat_sub_of_le _ _ (by simpa [UInt32.le_iff_toNat_le] using h)

theorem push_reg_esp (c : Cpu) (v : UInt32) : (c.push v).reg .esp = c.reg .esp - 4 := by
  simp [push, setReg, store]

theorem push_reg {r : Reg} (hr : r ≠ .esp) (c : Cpu) (v : UInt32) : (c.push v).reg r = c.reg r := by
  simp [push, setReg, store, hr]

theorem pushes_reg {r : Reg} (hr : r ≠ .esp) : (c.pushes ws).reg r = c.reg r := by
  induction ws generalizing c with
  | nil => rfl
  | cons w ws ih => exact (ih (c := c.push w)).trans (push_reg hr c w)

theorem pushes_esp (h : 4 * ws.length ≤ (c.reg .esp).toNat) :
    ((c.pushes ws).reg .esp).toNat = (c.reg .esp).toNat - 4 * ws.length := by
  induction ws generalizing c with
  | nil => rfl
  | cons w ws ih =>
    rw [List.length_cons] at h ⊢
    have hsub : ((c.push w).reg .esp).toNat = (c.reg .esp).toNat - 4 := by
      rw [push_reg_esp, esp_sub (by omega)]
    refine (ih (c := c.push w) (by omega)).trans ?_
    omega

/-- Pushing writes to the words below the stack pointer. -/
theorem pushes_mem_of_not_mem (h : 4 * ws.length ≤ (c.reg .esp).toNat)
    (hi : i + 4 * ws.length < (c.reg .esp).toNat ∨ (c.reg .esp).toNat ≤ i) :
    (c.pushes ws).mem i = c.mem i := by
  induction ws generalizing c with
  | nil => rfl
  | cons w ws ih =>
    rw [List.length_cons] at h hi
    have hsub : ((c.push w).reg .esp).toNat = (c.reg .esp).toNat - 4 := by
      rw [push_reg_esp, esp_sub (by omega)]
    refine (ih (c := c.push w) (by omega) (by omega)).trans ?_
    refine storeWord_of_not_mem ?_
    rw [esp_sub (by omega)]
    omega

theorem pushes_load (h : 4 * ws.length ≤ (c.reg .esp).toNat) (hi : i < ws.length) :
    loadWord (c.pushes ws).mem ((c.reg .esp).toNat - 4 * (i + 1)) = ws[i] := by
  induction ws generalizing c i with
  | nil => cases hi
  | cons w ws ih =>
    rw [List.length_cons] at h hi
    have hsub : ((c.push w).reg .esp).toNat = (c.reg .esp).toNat - 4 := by
      rw [push_reg_esp, esp_sub (by omega)]
    cases i with
    | zero =>
      have hkeep : ∀ j, (c.reg .esp).toNat - 4 * (0 + 1) ≤ j →
        j < (c.reg .esp).toNat - 4 * (0 + 1) + 4 →
          ((c.push w).pushes ws).mem j = (c.push w).mem j := fun j hj hj' =>
        pushes_mem_of_not_mem (by omega) (.inr (by omega))
      refine (loadWord_congr hkeep).trans ?_
      rw [zero_add, mul_one, ← esp_sub (by omega)]
      exact loadWord_storeWord _ _ _
    | succ i =>
      have := ih (c := c.push w) (i := i) (by omega) (by omega)
      rw [hsub, show (c.reg .esp).toNat - 4 - 4 * (i + 1) = (c.reg .esp).toNat - 4 * (i + 1 + 1) by
        omega] at this
      exact this

end Cpu

/-- Memory and stack of `c'` are those of `c` after some words have been pushed. -/
structure Pushed (c c' : Cpu) (ws : List UInt32) : Prop where
  mem : c'.mem = (c.pushes ws).mem
  esp : c'.reg .esp = (c.pushes ws).reg .esp

namespace Pushed

variable {c c' : Cpu} {ws vs : List UInt32}

theorem refl (c : Cpu) : Pushed c c [] := ⟨rfl, rfl⟩

theorem push (h : Pushed c c' ws) (v : UInt32) : Pushed c (c'.push v) (ws ++ [v]) := by
  have hws : c.pushes (ws ++ [v]) = (c.pushes ws).push v := List.foldl_append ..
  refine ⟨?_, ?_⟩
  · rw [hws, Cpu.push, Cpu.push, Cpu.setReg, Cpu.setReg, Cpu.store, Cpu.store]
    simp only [h.mem, h.esp]
  · rw [hws, Cpu.push_reg_esp, Cpu.push_reg_esp, h.esp]

theorem pushes (h : Pushed c c' ws) (vs : List UInt32) : Pushed c (c'.pushes vs) (ws ++ vs) := by
  induction vs generalizing c' ws with
  | nil =>
    rw [List.append_nil]
    exact h
  | cons v vs ih =>
    have := ih (h.push v)
    rwa [List.append_assoc] at this

theorem load (h : Pushed c c' ws) (hroom : 4 * ws.length ≤ (c.reg .esp).toNat) {n : ℕ}
    (hn : n < ws.length) :
    ws[ws.length - 1 - n]? =
    some (loadWord c'.mem ((c.reg .esp).toNat - 4 * ws.length + 4 * n)) := by
  have hword := Cpu.pushes_load (i := ws.length - 1 - n) hroom (by omega)
  rw [← h.mem, show (c.reg .esp).toNat - 4 * (ws.length - 1 - n + 1) =
    (c.reg .esp).toNat - 4 * ws.length + 4 * n by omega] at hword
  rw [hword, List.getElem?_eq_getElem]

theorem setSeg (h : Pushed c c' ws) (r : Seg) (v : UInt16) : Pushed c (c'.setSeg r v) ws :=
  ⟨h.mem, h.esp⟩

theorem setReg (h : Pushed c c' ws) {r : Reg} (hr : r ≠ .esp) (v : UInt32) :
    Pushed c (c'.setReg r v) ws :=
  ⟨h.mem, (upd_of_ne _ _ hr.symm).trans h.esp⟩

end Pushed

theorem run_pushal (c : Cpu) : Instr.run .pushal c = c.pushes (pushalRegs.map c.reg) := by
  rw [Instr.run, Cpu.pushes, List.foldl_map]

end Asm

end Xv6
