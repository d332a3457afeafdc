import Xv6.Bytes.Basic
import Xv6.Prog.Update
import Xv6.Prog.Wp

/-!
# Physical memory and its allocator

`mmu.h`, `memlayout.h` and `kalloc.c`.  Physical memory is a sequence of pages; the kernel uses a
page through its direct map at `KERNBASE`, so a kernel pointer to the start of a page is given here
by the number of the page.  The free list is threaded through the first words of the free pages, as
in the source; only there do pointers appear as 32-bit addresses.

`kalloc` may fail although pages are free: `Mem.deny` says which of the calls to come do.
-/

namespace Xv6

namespace Vm

/-- `PGSIZE` -/
abbrev pgSize : ℕ := 4096

/-- `NPDENTRIES`, `NPTENTRIES` -/
abbrev nEntries : ℕ := 1024

/-- `KERNBASE` -/
abbrev kernBase : ℕ := 0x80000000

/-- `EXTMEM` -/
abbrev extMem : ℕ := 0x100000

/-- `PHYSTOP` -/
abbrev physTop : ℕ := 0xE000000

/-- `DEVSPACE` -/
abbrev devSpace : ℕ := 0xFE000000

/-- `KERNLINK` -/
abbrev kernLink : ℕ := kernBase + extMem

/-- The values of a `uint`. -/
abbrev uintSize : ℕ := 2 ^ 32

/-- `PTE_P` -/
abbrev pteP : ℕ := 1

/-- `PTE_W` -/
abbrev pteW : ℕ := 2

/-- `PTE_U` -/
abbrev pteU : ℕ := 4

/-- `PDX` -/
def pdx (va : ℕ) : ℕ := va / 2 ^ 22 % 1024

/-- `PTX` -/
def ptx (va : ℕ) : ℕ := va / 2 ^ 12 % 1024

/-- `PGADDR(d, 0, 0)` -/
def pgAddr (d : ℕ) : ℕ := d * 2 ^ 22 % uintSize

/-- `PGROUNDUP` -/
def pgRoundUp (sz : ℕ) : ℕ := (sz + pgSize - 1) % uintSize / pgSize * pgSize

/-- `PGROUNDDOWN` -/
def pgRoundDown (a : ℕ) : ℕ := a / pgSize * pgSize

/-- `PTE_ADDR` -/
def pteAddr (pte : ℕ) : ℕ := pte / pgSize * pgSize

/-- `PTE_FLAGS` -/
def pteFlags (pte : ℕ) : ℕ := pte % pgSize

/-- `pte & PTE_P` -/
def present (pte : ℕ) : Bool := pte &&& pteP != 0

/-- `pte & PTE_U` -/
def userBit (pte : ℕ) : Bool := pte &&& pteU != 0

/-- `P2V(PTE_ADDR(pte)) == 0` -/
def wrapsToNull (pte : ℕ) : Bool := (pteAddr pte + kernBase) % uintSize == 0

/-- `P2V` of the address of page `p`. -/
def p2v (p : ℕ) : ℕ := p * pgSize + kernBase

/-- The page that the kernel address `v` points to. -/
def v2p (v : ℕ) : ℕ := (v - kernBase) / pgSize

/-- What the linker decides. -/
structure Symbols where
  /-- The first page after the kernel: `V2P(PGROUNDUP(end)) / PGSIZE`. -/
  first : ℕ
  /-- The address of `data`, where the writable data of the kernel starts. -/
  data : ℕ
  data_aligned : data % pgSize = 0
  lt_data : kernLink < data
  data_lt : data < kernBase + physTop
  data_le_first : data ≤ p2v first
  first_le : first ≤ physTop / pgSize

/-- Why the kernel stops. -/
inductive Panic
  /-- `kfree` -/
  | kfree
  /-- `remap` -/
  | remap
  /-- `inituvm: more than a page` -/
  | inituvm
  /-- `loaduvm: addr must be page aligned` -/
  | loaduvmAligned
  /-- `loaduvm: address should exist` -/
  | loaduvmExist
  /-- `clearpteu` -/
  | clearpteu
  /-- `copyuvm: pte should exist` -/
  | copyuvmExist
  /-- `copyuvm: page not present` -/
  | copyuvmPresent
  /-- `filedup` -/
  | filedup
  /-- `fileclose` -/
  | fileclose
  /-- `init exiting` -/
  | initExiting
  /-- `userinit: out of memory?` -/
  | userinit
  /-- The kernel dereferences a null pointer. -/
  | nullDeref
  /-- A loop of this model has used up its fuel; proofs show that this does not happen. -/
  | fuel
  deriving DecidableEq

/-- Physical memory and `kmem`. -/
structure Mem where
  /-- The contents of the pages. -/
  page : ℕ → Bytes
  /-- `kmem.freelist`, a kernel address or 0 -/
  freelist : ℕ
  /-- Does the `n`-th call of `kalloc` from now fail in any case? -/
  deny : ℕ → Bool

/-- Actions of the kernel on memory. -/
abbrev Act := EStateM Panic Mem

/-- Word `i` of page `p`. -/
def Mem.word (m : Mem) (p i : ℕ) : ℕ := (m.page p).getLE 4 (4 * i)

/-- Change page `p`. -/
def Mem.setPage (m : Mem) (p : ℕ) (b : Bytes) : Mem := { m with page := upd m.page p b }

/-- Change word `i` of page `p`. -/
def Mem.setWord (m : Mem) (p i w : ℕ) : Mem := m.setPage p ((m.page p).putLE 4 (4 * i) w)

/-- Read word `i` of page `p`. -/
def load (p i : ℕ) : Act ℕ := do return (← get).word p i

/-- Write word `i` of page `p`. -/
def store (p i w : ℕ) : Act Unit := modify fun m => m.setWord p i w

/-- `memset` of a whole page. -/
def memset (p : ℕ) (c : UInt8) : Act Unit := modify fun m => m.setPage p fun _ => c

/-- `memmove` of `n` bytes to offset `off` of page `p`. -/
def memmove (p off : ℕ) (src : Bytes) (n : ℕ) : Act Unit :=
  modify fun m => m.setPage p ((m.page p).copy off n src)

/-- `kfree` -/
def kfree (k : Symbols) (p : ℕ) : Act Unit := do
  if p < k.first ∨ physTop / pgSize ≤ p then throw .kfree
  memset p 1
  -- r->next = kmem.freelist; kmem.freelist = r;
  store p 0 (← get).freelist
  modify fun m => { m with freelist := p2v p }

/-- `kalloc` -/
def kalloc : Act (Option ℕ) := do
  let m ← get
  let deny := fun n => m.deny (n + 1)
  if m.deny 0 ∨ m.freelist = 0 then
    set { m with deny }
    return none
  else
    let p := v2p m.freelist
    set { m with freelist := m.word p 0, deny }
    return some p

/-- `freerange`, for the `n` pages from page `p` on -/
def freerange (k : Symbols) : ℕ → ℕ → Act Unit
  | _, 0 => pure ()
  | p, n + 1 => do
    kfree k p
    freerange k (p + 1) n

end Vm

end Xv6
