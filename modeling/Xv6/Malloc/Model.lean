import Xv6.Bytes.Basic
import Xv6.LTS.Basic
import Xv6.Prog.Update
import Xv6.Prog.Wp

/-!
# The user heap

`umalloc.c`: the free blocks are a circular list through `base`, sorted by address, and a block
begins with a header of 8 bytes, the pointer to the next block and the size in headers.  Memory is a
sequence of bytes and addresses are `uint`s, so sums of addresses wrap.

The kernel's side is what `sbrk` answers: -1, or a region that is new and above all earlier ones
(`Heap.sbrk`).  A call for which the answer is not one of these, or that asks for a negative number
of bytes, is not followed any further.

`Malloc.system` is a process that calls `malloc` and `free` and writes to the blocks it has got.
-/

namespace Xv6

namespace Malloc

/-- The values of a `uint`. -/
def uintSize : ℕ := 0x100000000

/-- `sizeof(Header)` -/
abbrev headerSize : ℕ := 8

/-- `p->s.ptr` -/
def ptr (m : Bytes) (p : ℕ) : ℕ := m.getLE 4 p

/-- `p->s.size` -/
def size (m : Bytes) (p : ℕ) : ℕ := m.getLE 4 (p + 4)

/-- `p->s.ptr = v` -/
def setPtr (m : Bytes) (p v : ℕ) : Bytes := m.putLE 4 p v

/-- `p->s.size = n` -/
def setSize (m : Bytes) (p n : ℕ) : Bytes := m.putLE 4 (p + 4) n

/-- `p + n` -/
def plus (p n : ℕ) : ℕ := (p + headerSize * n) % uintSize

/-- The memory of the process and the allocator's variables. -/
structure Heap where
  mem : Bytes
  freep : ℕ
  /-- What the calls of `sbrk` to come return; `none` is -1. -/
  sbrk : ℕ → Option ℕ
  /-- The regions that `sbrk` has returned. -/
  regions : List (ℕ × ℕ)
  /-- The end of the highest of them. -/
  brk : ℕ

/-- Why a call is not followed any further. -/
inductive Stop
  /-- `sbrk` takes memory away, or returns a region that is not new. -/
  | sbrk
  /-- A loop of this model has used up its fuel; proofs show that this does not happen. -/
  | fuel
  deriving DecidableEq

/-- Actions on the heap. -/
abbrev MallocM := EStateM Stop Heap

/-- The fuel of the loops. -/
@[irreducible] def fuel : ℕ := 4 * uintSize

/-- The loop of `free`: the block after which `bp` belongs. -/
def slot (m : Bytes) (bp : ℕ) : ℕ → ℕ → Option ℕ
  | 0, _ => none
  | n + 1, p =>
    if p < bp ∧ bp < ptr m p then some p
    else if ptr m p ≤ p ∧ (p < bp ∨ bp < ptr m p) then some p
    else slot m bp n (ptr m p)

/-- The first half of the rest of `free`: join `bp` to the block above it. -/
def joinUp (m : Bytes) (bp p : ℕ) : Bytes :=
  if plus bp (size m bp) = ptr m p then
    let m := setSize m bp ((size m bp + size m (ptr m p)) % uintSize)
    setPtr m bp (ptr m (ptr m p))
  else setPtr m bp (ptr m p)

/-- The second half: join `bp` to the block below it. -/
def joinDown (m : Bytes) (bp p : ℕ) : Bytes :=
  if plus p (size m p) = bp then
    let m := setSize m p ((size m p + size m bp) % uintSize)
    setPtr m p (ptr m bp)
  else setPtr m p bp

/-- `free` -/
def free (ap : ℕ) : MallocM Unit := do
  let bp := (ap + uintSize - headerSize) % uintSize
  let h ← get
  match slot h.mem bp fuel h.freep with
  | none => throw .fuel
  | some p => set { h with mem := joinDown (joinUp h.mem bp p) bp p, freep := p }

/-- A `uint` as an `int`. -/
def toInt (n : ℕ) : ℤ := if n < uintSize / 2 then n else n - uintSize

/-- `sbrk`; `none` is -1. -/
def sbrk (n : ℤ) : MallocM (Option ℕ) := do
  let h ← get
  let rest := fun i => h.sbrk (i + 1)
  match h.sbrk 0 with
  | none =>
    set { h with sbrk := rest }
    return none
  | some a =>
    if 0 ≤ n ∧ h.brk ≤ a ∧ a + n.toNat < uintSize then
      set { h with sbrk := rest, regions := (a, n.toNat) :: h.regions, brk := a + n.toNat }
      return some a
    else throw .sbrk

/-- The number of units that `morecore(nu)` asks for. -/
def coreUnits (nu : ℕ) : ℕ := if nu < 4096 then 4096 else nu

/-- The argument of `sbrk` in `morecore(nu)`. -/
def coreBytes (nu : ℕ) : ℤ := toInt (coreUnits nu * headerSize % uintSize)

/-- `morecore` -/
def morecore (nu : ℕ) : MallocM (Option ℕ) := do
  match ← sbrk (coreBytes nu) with
  | none => return none
  | some hp =>
    modify fun h => { h with mem := setSize h.mem hp (coreUnits nu) }
    free ((hp + headerSize) % uintSize)
    return some (← get).freep

/-- `nunits` in `malloc(nbytes)`. -/
def nunits (nbytes : ℕ) : ℕ := (nbytes + headerSize - 1) % uintSize / headerSize + 1

/-- The end of `malloc`: take `nu` units from block `p`, which comes after `prevp`. -/
def take (m : Bytes) (nu prevp p : ℕ) : ℕ × Bytes :=
  if size m p = nu then (p, setPtr m prevp (ptr m p))
  else
    let m := setSize m p (size m p - nu)
    let p := plus p (size m p)
    (p, setSize m p nu)

/-- The loop of `malloc`. -/
def mallocLoop (nu : ℕ) : ℕ → ℕ → ℕ → MallocM ℕ
  | 0, _, _ => throw .fuel
  | n + 1, prevp, p => do
    let h ← get
    if nu ≤ size h.mem p then
      let x := take h.mem nu prevp p
      set { h with mem := x.2, freep := prevp }
      return (x.1 + headerSize) % uintSize
    else if p = h.freep then
      match ← morecore nu with
      | none => return 0
      | some p => mallocLoop nu n p (ptr (← get).mem p)
    else mallocLoop nu n p (ptr h.mem p)

/-- `malloc`, where `base` is the address of the static header. -/
def malloc (base nbytes : ℕ) : MallocM ℕ := do
  if (← get).freep = 0 then
    modify fun h => { h with mem := setSize (setPtr h.mem base base) base 0, freep := base }
  let h ← get
  mallocLoop (nunits nbytes) fuel h.freep (ptr h.mem h.freep)

/-! ### A process -/

/-- A process: the pointers that `malloc` has returned and that have not been freed, with the number
of bytes asked for. -/
structure State where
  heap : Heap
  live : List (ℕ × ℕ)

/-- What the process does. -/
inductive Label
  /-- `malloc(n)`, and what `sbrk` answers. -/
  | malloc (n : ℕ) (sbrk : ℕ → Option ℕ)
  | free (p : ℕ)
  /-- Write a byte to a block. -/
  | write (a : ℕ) (b : UInt8)

/-- One step. -/
def step (base : ℕ) (s : State) : Label → Option State
  | .malloc n sbrk =>
    if n < uintSize then
      match malloc base n { s.heap with sbrk } with
      | .ok r h => some ⟨h, if r = 0 then s.live else (r, n) :: s.live⟩
      | .error _ _ => none
    else none
  | .free p =>
    match s.live.find? (·.1 == p) with
    | none => none
    | some x =>
      match free p s.heap with
      | .ok _ h => some ⟨h, s.live.erase x⟩
      | .error _ _ => none
  | .write a b =>
    if ∃ x ∈ s.live, x.1 ≤ a ∧ a < x.1 + x.2 then
      some { s with heap := { s.heap with mem := upd s.heap.mem a b } }
    else none

/-- The process. -/
def system (base : ℕ) : LTS State Label := .ofFun (step base)

/-- The process at first: `brk` is the end of its memory. -/
def init (mem : Bytes) (brk : ℕ) : State := ⟨⟨mem, 0, fun _ => none, [], brk⟩, []⟩

/-- The request, rounded up and with its header, is below 2^31 bytes. -/
def Small : State → Label → Prop
  | _, .malloc n _ => n + 2 * headerSize ≤ uintSize / 2
  | _, _ => True

end Malloc

end Xv6
