import Mathlib.Data.UInt
import Xv6.LTS.Basic
import Xv6.Ring.Basic

/-!
# Console input: `consoleintr` and `consoleread`

The characters typed are kept in one ring buffer with three free-running 32-bit indices: up to `w`
they have been committed, up to `e` they may still be edited, and up to `r` they have been read.

Any number of processes `P` read, while the interrupt handler is called with batches of characters.
Both hold `cons.lock` all the time, except that a reader gives it up in `sleep(&input.r,
&cons.lock)`; so a step of `Console.sys` is a whole call of `consoleintr`, or what `consoleread`
does from `acquire` or from the end of `sleep` up to the next `sleep` or to its return.  A sleeping
reader goes on only after a `wakeup`.

What is echoed to the screen is left out, and so is the process listing.
-/

namespace Xv6

namespace Console

/-- `INPUT_BUF` -/
abbrev inputBuf : ℕ := 128

/-- The number of values of a `uint`. -/
abbrev uintSize : ℕ := 2 ^ 32

/-- `C(x)` -/
abbrev ctrl (x : Char) : UInt8 := (x.toNat - 64).toUInt8

/-- `'\n'` -/
abbrev newline : UInt8 := 10

/-- `'\r'` -/
abbrev carriageReturn : UInt8 := 13

/-- `'\x7f'` -/
abbrev del : UInt8 := 0x7f

/-- `input` -/
structure Input where
  buf : ℕ → UInt8
  /-- Read index -/
  r : ℕ
  /-- Write index -/
  w : ℕ
  /-- Edit index -/
  e : ℕ

namespace Input

/-- The ring buffer up to the edit index. -/
def ring (i : Input) : Ring UInt8 := ⟨i.buf, i.r, i.e⟩

/-- `input.e - input.r` -/
def used (i : Input) : ℕ := i.ring.used uintSize

/-- `input.w - input.r` -/
def ready (i : Input) : ℕ := (i.w + (uintSize - i.r)) % uintSize

/-- `input.buf[input.e++ % INPUT_BUF] = c` -/
def put (i : Input) (c : UInt8) : Input :=
  { i with buf := upd i.buf (i.e % inputBuf) c, e := (i.e + 1) % uintSize }

/-- `input.e--` -/
def back (i : Input) : Input := { i with e := (i.e + uintSize - 1) % uintSize }

/-- `input.buf[(input.e-1) % INPUT_BUF]` -/
def last (i : Input) : UInt8 := i.buf ((i.e + uintSize - 1) % uintSize % inputBuf)

/-- The loop for `C('U')`; after `input.e - input.w` rounds the two are equal. -/
def killLine : ℕ → Input → Input
  | 0, i => i
  | n + 1, i => if i.e ≠ i.w ∧ i.last ≠ newline then killLine n i.back else i

/-- `input.w = input.e` -/
def commit (i : Input) : Input := { i with w := i.e }

/-- The body of the loop of `consoleintr`, for the character `c`; the flag says whether it calls
`wakeup`. -/
def key (i : Input) (c : UInt8) : Input × Bool :=
  if c = ctrl 'P' then (i, false)
  else if c = ctrl 'U' then (i.killLine ((i.e + (uintSize - i.w)) % uintSize), false)
  else if c = ctrl 'H' ∨ c = del then (if i.e ≠ i.w then i.back else i, false)
  else if c ≠ 0 ∧ i.used < inputBuf then
    let c := if c = carriageReturn then newline else c
    let i := i.put c
    if c = newline ∨ c = ctrl 'D' ∨ i.e = (i.r + inputBuf) % uintSize then (i.commit, true)
      else (i, false)
  else (i, false)

/-- `consoleintr`, when `getc` returns the characters `cs` -/
def consoleintr (i : Input) : List UInt8 → Input × Bool
  | [] => (i, false)
  | c :: cs => ((i.key c).1.consoleintr cs).map id ((i.key c).2 || ·)

/-- `input.buf[input.r % INPUT_BUF]` -/
def next (i : Input) : UInt8 := i.buf (i.r % inputBuf)

/-- `input.r++` -/
def advance (i : Input) : Input := { i with r := (i.r + 1) % uintSize }

/-- `input.r--` -/
def retreat (i : Input) : Input := { i with r := (i.r + uintSize - 1) % uintSize }

end Input

/-- How a section of `consoleread` ends: `n` bytes are still wanted and `got` are delivered. -/
inductive Outcome
  /-- In `sleep(&input.r, &cons.lock)`. -/
  | sleep (n : ℕ) (got : List UInt8)
  /-- The call returns. -/
  | done (got : List UInt8)

/-- The loop of `consoleread` from where it holds `cons.lock`, for a process that is not killed. -/
def consoleread (target : ℕ) : ℕ → Input → List UInt8 → Input × Outcome
  | 0, i, got => (i, .done got)
  | n + 1, i, got =>
    if i.r = i.w then (i, .sleep (n + 1) got)
    else if i.next = ctrl 'D' then
      -- save ^D for next time if something has been delivered
      (if n + 1 < target then i.advance.retreat else i.advance, .done got)
    else if i.next = newline then (i.advance, .done (got ++ [i.next]))
    else consoleread target n i.advance (got ++ [i.next])

/-- Where a process is. -/
inductive Phase
  | idle
  /-- `SLEEPING` in `consoleread`. -/
  | asleep (target n : ℕ) (got : List UInt8)
  /-- Woken, about to acquire `cons.lock`. -/
  | woken (target n : ℕ) (got : List UInt8)

/-- What `wakeup(&input.r)` does to a process. -/
def Phase.wake : Phase → Phase
  | asleep target n got => woken target n got
  | ph => ph

/-- The steps. -/
inductive Label (P : Type*)
  /-- `consoleintr`, with the characters that `getc` returns. -/
  | intr (cs : List UInt8)
  /-- The process calls `consoleread` with the count `n`. -/
  | read (p : P) (n : ℤ)
  /-- The process has been woken and acquires `cons.lock` again. -/
  | resume (p : P)

/-- The input, kept in a state of type `α`, the processes, and the bytes that each call has returned
so far. -/
structure Sys (P α : Type*) where
  input : α
  phase : P → Phase
  returned : List (P × List UInt8)

namespace Sys

variable {P α : Type*} [DecidableEq P]

/-- A section of `consoleread` of process `p` has ended. -/
def ends (s : Sys P α) (p : P) (target : ℕ) : α × Outcome → Sys P α
  | (i, .sleep n got) => { s with input := i, phase := upd s.phase p (.asleep target n got) }
  | (i, .done got) =>
    { input := i, phase := upd s.phase p .idle, returned := s.returned ++ [(p, got)] }

/-- The step function, for any implementation of the two operations. -/
def step (intr : α → List UInt8 → α × Bool) (take : ℕ → ℕ → α → List UInt8 → α × Outcome)
    (s : Sys P α) :
    Label P → Option (Sys P α)
  | .intr cs =>
    some { s with
      input := (intr s.input cs).1
      phase := if (intr s.input cs).2 then fun p => (s.phase p).wake else s.phase }
  | .read p n =>
    match s.phase p with
    | .idle => some (s.ends p n.toNat (take n.toNat n.toNat s.input []))
    | _ => none
  | .resume p =>
    match s.phase p with
    | .woken target n got => some (s.ends p target (take target n s.input got))
    | _ => none

/-- Nothing has been typed, and nobody reads. -/
def init (i : α) : Sys P α := ⟨i, fun _ => .idle, []⟩

end Sys

/-- `input` at the start. -/
def Input.init : Input := ⟨fun _ => 0, 0, 0, 0⟩

/-- The system of all interleavings. -/
def sys (P : Type*) [DecidableEq P] : LTS (Sys P Input) (Label P) :=
  .ofFun (Sys.step Input.consoleintr consoleread)

end Console

end Xv6
