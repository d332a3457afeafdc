import Xv6.Vm.Memory

/-!
# Page tables

The functions of `vm.c`.  A page directory is given by its page, an entry by the page it is in and
its index; addresses and sizes are `uint`s and wrap.  Loops take fuel: none of them runs more than
`2^20` times, once for every page of the address space, except where a loop would run for ever.
-/

namespace Xv6

namespace Vm

/-- `walkpgdir`: where the entry for `va` is, 0 standing for none. -/
def walkpgdir (pgdir va : ℕ) (alloc : Bool) : Act (Option (ℕ × ℕ)) := do
  let pde ← load pgdir (pdx va)
  if present pde then return some (pde / pgSize, ptx va)
  else if !alloc then return none
  else
    match ← kalloc with
    | none => return none
    | some pgtab =>
      memset pgtab 0
      store pgdir (pdx va) (pgtab * pgSize ||| pteP ||| pteW ||| pteU)
      return some (pgtab, ptx va)

/-- The loop of `mappages`. -/
def mappagesLoop (pgdir perm last : ℕ) : ℕ → ℕ → ℕ → Act ℤ
  | 0, _, _ => throw .fuel
  | fuel + 1, a, pa => do
    match ← walkpgdir pgdir a true with
    | none => return -1
    | some (pgtab, i) =>
      let pte ← load pgtab i
      if present pte then throw .remap
      store pgtab i (pa ||| perm ||| pteP)
      if a = last then return 0
      else mappagesLoop pgdir perm last fuel ((a + pgSize) % uintSize) ((pa + pgSize) % uintSize)

/-- `mappages` -/
def mappages (pgdir va size pa perm : ℕ) : Act ℤ :=
  mappagesLoop pgdir perm (pgRoundDown ((va + size + uintSize - 1) % uintSize)) (2 ^ 20)
    (pgRoundDown va) pa

/-- The loop of `deallocuvm`. -/
def deallocuvmLoop (k : Symbols) (pgdir oldsz : ℕ) : ℕ → ℕ → Act Unit
  | 0, _ => throw .fuel
  | fuel + 1, a => do
    if a < oldsz then
      match ← walkpgdir pgdir a false with
      | none =>
        -- a = PGADDR(PDX(a) + 1, 0, 0) - PGSIZE;
        let a := (pgAddr (pdx a + 1) + uintSize - pgSize) % uintSize
        deallocuvmLoop k pgdir oldsz fuel ((a + pgSize) % uintSize)
      | some (pgtab, i) =>
        let pte ← load pgtab i
        if present pte then
          if pteAddr pte = 0 then throw .kfree
          kfree k (pte / pgSize)
          store pgtab i 0
        deallocuvmLoop k pgdir oldsz fuel ((a + pgSize) % uintSize)
    else pure ()

/-- `deallocuvm` -/
def deallocuvm (k : Symbols) (pgdir oldsz newsz : ℕ) : Act ℕ := do
  if oldsz ≤ newsz then return oldsz
  deallocuvmLoop k pgdir oldsz (2 ^ 20) (pgRoundUp newsz)
  return newsz

/-- The loop of `freevm`, with `n` entries to go. -/
def freevmLoop (k : Symbols) (pgdir : ℕ) : ℕ → ℕ → Act Unit
  | _, 0 => pure ()
  | i, n + 1 => do
    let pde ← load pgdir i
    if present pde then kfree k (pde / pgSize)
    freevmLoop k pgdir (i + 1) n

/-- `freevm`; it panics without a page directory, which no caller passes. -/
def freevm (k : Symbols) (pgdir : ℕ) : Act Unit := do
  let _ ← deallocuvm k pgdir kernBase 0
  freevmLoop k pgdir 0 nEntries
  kfree k pgdir

/-- `struct kmap` -/
structure Kmap where
  virt : ℕ
  physStart : ℕ
  physEnd : ℕ
  perm : ℕ

/-- `kmap` -/
def kmap (k : Symbols) : List Kmap :=
  [⟨kernBase, 0, extMem, pteW⟩, -- I/O space
    ⟨kernLink, extMem, k.data - kernBase, 0⟩, -- kern text+rodata
    ⟨k.data, k.data - kernBase, physTop, pteW⟩, -- kern data+memory
    ⟨devSpace, devSpace, 0, pteW⟩] -- more devices

/-- The size of a range, `phys_end - phys_start`. -/
def Kmap.size (e : Kmap) : ℕ := (e.physEnd + uintSize - e.physStart) % uintSize

/-- The loop of `setupkvm`. -/
def setupkvmLoop (k : Symbols) (pgdir : ℕ) : List Kmap → Act (Option ℕ)
  | [] => return some pgdir
  | e :: es => do
    if (← mappages pgdir e.virt e.size e.physStart e.perm) < 0 then
      freevm k pgdir
      return none
    else setupkvmLoop k pgdir es

/-- `setupkvm`; `PHYSTOP` is not too high. -/
def setupkvm (k : Symbols) : Act (Option ℕ) := do
  match ← kalloc with
  | none => return none
  | some pgdir =>
    memset pgdir 0
    setupkvmLoop k pgdir (kmap k)

/-- `inituvm`; it uses the page without testing that there is one. -/
def inituvm (pgdir : ℕ) (init : Bytes) (sz : ℕ) : Act Unit := do
  if pgSize ≤ sz then throw .inituvm
  match ← kalloc with
  | none => throw .nullDeref
  | some mem =>
    memset mem 0
    let _ ← mappages pgdir 0 pgSize (mem * pgSize) (pteW ||| pteU)
    memmove mem 0 init sz

/-- The contents of a file. -/
structure File where
  size : ℕ
  bytes : Bytes

/-- `readi`: the number of bytes read, or -1. -/
def File.readi (ip : File) (off n : ℕ) : ℤ :=
  if ip.size < off ∨ (off + n) % uintSize < off then -1 else min n (ip.size - off)

/-- The loop of `loaduvm`. -/
def loaduvmLoop (pgdir addr : ℕ) (ip : File) (offset sz : ℕ) : ℕ → ℕ → Act ℤ
  | 0, _ => throw .fuel
  | fuel + 1, i => do
    if i < sz then
      match ← walkpgdir pgdir ((addr + i) % uintSize) false with
      | none => throw .loaduvmExist
      | some (pgtab, j) =>
        let pte ← load pgtab j
        let n := if sz - i < pgSize then sz - i else pgSize
        let off := (offset + i) % uintSize
        let r := ip.readi off n
        memmove (pte / pgSize) 0 (ip.bytes.drop off) r.toNat
        if r ≠ n then return -1
        else loaduvmLoop pgdir addr ip offset sz fuel ((i + pgSize) % uintSize)
    else return 0

/-- `loaduvm` -/
def loaduvm (pgdir addr : ℕ) (ip : File) (offset sz : ℕ) : Act ℤ := do
  if addr % pgSize ≠ 0 then throw .loaduvmAligned
  loaduvmLoop pgdir addr ip offset sz (2 ^ 20) 0

/-- The loop of `allocuvm`. -/
def allocuvmLoop (k : Symbols) (pgdir oldsz newsz : ℕ) : ℕ → ℕ → Act ℕ
  | 0, _ => throw .fuel
  | fuel + 1, a => do
    if a < newsz then
      match ← kalloc with
      | none =>
        let _ ← deallocuvm k pgdir newsz oldsz
        return 0
      | some mem =>
        memset mem 0
        if (← mappages pgdir a pgSize (mem * pgSize) (pteW ||| pteU)) < 0 then
          let _ ← deallocuvm k pgdir newsz oldsz
          kfree k mem
          return 0
        else allocuvmLoop k pgdir oldsz newsz fuel ((a + pgSize) % uintSize)
    else return newsz

/-- `allocuvm` -/
def allocuvm (k : Symbols) (pgdir oldsz newsz : ℕ) : Act ℕ := do
  if kernBase ≤ newsz then return 0
  if newsz < oldsz then return oldsz
  allocuvmLoop k pgdir oldsz newsz (2 ^ 20) (pgRoundUp oldsz)

/-- `clearpteu` -/
def clearpteu (pgdir uva : ℕ) : Act Unit := do
  match ← walkpgdir pgdir uva false with
  | none => throw .clearpteu
  | some (pgtab, i) =>
    let pte ← load pgtab i
    store pgtab i (pte - (pte &&& pteU))

/-- The loop of `copyuvm`; `true` stands for reaching its end and `false` for `goto bad`. -/
def copyuvmLoop (k : Symbols) (pgdir d sz : ℕ) : ℕ → ℕ → Act Bool
  | 0, _ => throw .fuel
  | fuel + 1, i => do
    if i < sz then
      match ← walkpgdir pgdir i false with
      | none => throw .copyuvmExist
      | some (pgtab, j) =>
        let pte ← load pgtab j
        if !present pte then throw .copyuvmPresent
        match ← kalloc with
        | none => return false
        | some mem =>
          memmove mem 0 ((← get).page (pte / pgSize)) pgSize
          if (← mappages d i pgSize (mem * pgSize) (pteFlags pte)) < 0 then
            kfree k mem
            return false
          else copyuvmLoop k pgdir d sz fuel ((i + pgSize) % uintSize)
    else return true

/-- `copyuvm` -/
def copyuvm (k : Symbols) (pgdir sz : ℕ) : Act (Option ℕ) := do
  match ← setupkvm k with
  | none => return none
  | some d =>
    if ← copyuvmLoop k pgdir d sz (2 ^ 20) 0 then return some d
    else
      freevm k d
      return none

/-- `uva2ka`: the page that the kernel may use for the user address.  The entry is read without
testing that `walkpgdir` has found one. -/
def uva2ka (pgdir uva : ℕ) : Act (Option ℕ) := do
  match ← walkpgdir pgdir uva false with
  | none => throw .nullDeref
  | some (pgtab, i) =>
    let pte ← load pgtab i
    if !present pte then return none
    if !userBit pte then return none
    -- copyout takes the address 0 for a failure
    if wrapsToNull pte then return none
    return some (pte / pgSize)

/-- The loop of `copyout`. -/
def copyoutLoop (pgdir : ℕ) : ℕ → ℕ → Bytes → ℕ → Act ℤ
  | 0, _, _, _ => return 0
  | fuel + 1, va, buf, len => do
    if 0 < len then
      let va0 := pgRoundDown va
      match ← uva2ka pgdir va0 with
      | none => return -1
      | some pa0 =>
        let n := min (pgSize - (va - va0)) len
        memmove pa0 (va - va0) buf n
        copyoutLoop pgdir fuel ((va0 + pgSize) % uintSize) (buf.drop n) (len - n)
    else return 0

/-- `copyout`; every round of its loop copies a byte or more. -/
def copyout (pgdir va : ℕ) (p : Bytes) (len : ℕ) : Act ℤ := copyoutLoop pgdir len va p len

end Vm

end Xv6
