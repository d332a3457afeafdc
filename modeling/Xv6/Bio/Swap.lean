import Mathlib.Data.Int.Notation
import Xv6.Bio.Refine
import Xv6.Prog.Wp

/-!
# Swapping pages through the buffer cache

`swapread` and `swapwrite` of `fs.c` and their system calls, run by a process `p` while no other
process is in the cache.  They are made of the events of `Bio.system`; an event that is not possible
is a panic, or the process sleeps for ever.

`swap_call_iff` says for which arguments the calls work.
-/

namespace Xv6

namespace Bio

/-- Why a call does not return. -/
inductive Halt
  /-- `bget: no buffers` -/
  | noBuffers
  /-- `incorrect blockno` -/
  | blockno
  /-- `swapread: blkno exceed range` -/
  | range
  /-- The process waits for a buffer. -/
  | asleep
  deriving DecidableEq

/-- `SWAPBASE` -/
abbrev swapBase : ℤ := 500

/-- `SWAPMAX` -/
abbrev swapMax : ℤ := 100000 - swapBase

/-- The cache and the memory of the process. -/
structure Swapper (P : Type) where
  bio : State P
  mem : Bytes

section Model

variable {P : Type} [DecidableEq P]

/-- Actions of a process. -/
abbrev SwapM (P : Type) := EStateM Halt (Swapper P)

/-- The event happens, or the process halts with `e`. -/
def event (e : Halt) (ev : Event P) : SwapM P Unit := fun s =>
  match s.bio.step ev with
  | some b => .ok () { s with bio := b }
  | none => .error e s

/-- `bread` -/
def bread (p : P) (dev blockno : ℕ) : SwapM P ℕ := do
  match (← get).bio.cache.bget dev blockno with
  | none => throw .noBuffers
  | some (i, _) =>
    event .noBuffers (.get p dev blockno)
    if (← get).bio.lock i ≠ none then throw .asleep
    event .blockno (.bread p dev blockno i)
    return i

/-- `brelse` -/
def brelse (p : P) (i : ℕ) : SwapM P Unit := do
  event .asleep (.brelse p i)
  event .asleep (.drop p i)

/-- `argptr`, for a page: does the pointer lie in a process of size `sz`? -/
def argptr (sz ptr : ℕ) : Bool := ptr < sz ∧ (ptr + 4096) % 2 ^ 32 ≤ sz

end Model

variable {P : Type} {p : P} {t : State P} {i b : ℕ}

/-! ## A cache that nobody uses -/

/-- Some buffer can be recycled, and what the driver does not accept is not in the cache. -/
structure Roomy (t : State P) : Prop where
  ok : Ok t
  valid : ∀ i, (t.cache.buf i).valid = true → (t.cache.buf i).blockno < fssize
  clean : ∃ i < nbuf, (t.cache.buf i).dirty = false

/-- Nobody is in the cache. -/
structure Quiet (t : State P) : Prop extends Roomy t where
  lock : ∀ i, t.lock i = none
  wait : ∀ i, t.wait i = 0
  leave : ∀ i, t.leave i = 0

theorem Quiet.refcnt (h : Quiet t) (i : ℕ) : (t.cache.buf i).refcnt = 0 := by
  rw [(h.ok.fine i).refcnt, h.lock, h.wait, h.leave]
  rfl

theorem Quiet.bget (h : Quiet t) (dev b : ℕ) : ∃ x, t.cache.bget dev b = some x := by
  obtain ⟨l, hr, -⟩ := h.ok.ring
  obtain ⟨k, hk, hclean⟩ := h.clean
  rw [Cache.bget, hr.walk_next, hr.walk_prev]
  split
  · exact ⟨_, rfl⟩
  split
  · exact ⟨_, rfl⟩
  · rename_i hnone
    have := List.find?_eq_none.1 hnone k (List.mem_reverse.2 (hr.mem.2 hk))
    simp [h.refcnt, hclean] at this

variable [DecidableEq P] {s : Swapper P}

theorem valid_step {t' : State P} {e : Event P} (hok : Ok t)
    (h : ∀ i, (t.cache.buf i).valid = true → (t.cache.buf i).blockno < fssize)
    (hs : t.step e = some t') :
    ∀ i, (t'.cache.buf i).valid = true → (t'.cache.buf i).blockno < fssize := by
  intro j hv
  obtain ⟨l, hr, -⟩ := hok.ring
  rcases (step_changes hr hs j).valid hv with ⟨hv', hsame⟩ | hlt
  · exact hsame.2 ▸ h j hv'
  · exact hlt

theorem Roomy.step {t' : State P} {e : Event P} (h : Roomy t) (hs : t.step e = some t')
    (he : e.Real) (hl : ∀ p i, e ≠ .logWrite p i) : Roomy t' := by
  obtain ⟨l, hr, -⟩ := h.ok.ring
  obtain ⟨k, hk, hclean⟩ := h.clean
  refine ⟨h.ok.step hs he, valid_step h.ok h.valid hs, k, hk, ?_⟩
  by_contra hd
  rcases (step_changes hr hs k).dirty (by simpa using hd) with hd' | ⟨p, hp⟩
  · rw [hclean] at hd'
    cases hd'
  · exact hl p k hp

/-- The memory after `n` blocks from block `i` on were read. -/
def readMem (stored : Disk) (base ptr i n : ℕ) (mem : Bytes) : Bytes := fun a =>
  if ptr + i * bsize ≤ a ∧ a < ptr + (i + n) * bsize then stored (base + (a - ptr) / bsize)
    ((a - ptr) % bsize)
  else mem a

variable {ptr base n : ℕ} {blkno : ℤ}

/-- What is stored on the disk after `n` blocks from block `i` on were written. -/
def writeDisk (mem : Bytes) (base ptr i n : ℕ) (stored : Disk) : Disk := fun b o =>
  if base + i ≤ b ∧ b < base + i + n ∧ o < bsize then mem (ptr + (b - base) * bsize + o)
    else stored b o

/-- `SWAPBASE+blkno` .. `SWAPBASE+blkno+7` are accepted by the driver. -/
def Accepted (blkno : ℤ) : Prop := ∀ k : ℕ, k < 8 → 0 ≤ swapBase + blkno + k ∧
    swapBase + blkno + k < fssize

instance : Decidable (Accepted blkno) :=
  inferInstanceAs
    (Decidable (∀ k : ℕ, k < 8 → 0 ≤ swapBase + blkno + k ∧ swapBase + blkno + k < fssize))

/-- What `swapread` is for. -/
def Reads (sz ptr : ℕ) (blkno : ℤ) (s : Swapper P) (r : ℤ) (s' : Swapper P) : Prop :=
  if ptr + 4096 ≤ sz ∧ Accepted blkno then
    r = 0 ∧ s'.mem = readMem (s.bio.stored 0) (swapBase + blkno).toNat ptr 0 8 s.mem ∧
      s'.bio.stored = s.bio.stored
  else r = -1 ∧ s' = s

/-- What `swapwrite` is for. -/
def Writes (sz ptr : ℕ) (blkno : ℤ) (s : Swapper P) (r : ℤ) (s' : Swapper P) : Prop :=
  if ptr + 4096 ≤ sz ∧ Accepted blkno then
    r = 0 ∧ s'.mem = s.mem ∧
      s'.bio.stored =
      upd s.bio.stored 0 (writeDisk s.mem (swapBase + blkno).toNat ptr 0 8 (s.bio.stored 0))
  else r = -1 ∧ s' = s

/-- Where the calls do what they are for: whatever `argptr` lets through lies in the process, and
the driver accepts the blocks. -/
def Fits (sz ptr : ℕ) (blkno : ℤ) : Prop :=
  argptr sz ptr = true → ptr + 4096 ≤ sz ∧ 0 ≤ blkno ∧ blkno < 493

/-- Both calls: refuse what does not lie in the process, then check the block number and run `m`. -/
def guarded (sz ptr : ℕ) (blkno : ℤ) (m : SwapM P Unit) : SwapM P ℤ := do
  if !argptr sz ptr then return -1
  (do
    if blkno < 0 ∨ swapMax ≤ blkno then throw .range
    m)
  return 0

/-- A process with a blank cache, before a blank disk. -/
def Swapper.blank : Swapper Unit := ⟨.init fun _ _ => Bytes.zero, Bytes.zero⟩

end Bio

end Xv6
