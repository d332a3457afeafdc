import Xv6.Bio.Refine

/-!
# Reads that fail

`bread` returns a buffer that is valid, and what makes it valid is `ideintr`.  The interrupt handler
looks at the status of the drive before it takes the data, but sets `B_VALID` in any case.

`Reader` is the cache together with the driver, for processes that call `bread` and `brelse`.  Its
steps are

* the part of `bget` under `bcache.lock` (`get`);
* `acquiresleep` and the rest of `bread` up to its end, or up to the first `sleep` of `iderw`
  (`acquire`);
* `ideintr`, with the values that the status port gives to `idewait` (`intr`);
* the end of `iderw` and `bread` for a process that was woken up and finds the buffer valid
  (`wakeup`);
* `brelse` up to `releasesleep` (`brelse`), and its part under `bcache.lock` (`drop`).

Requests that panic or wait are no steps.  `bread_holds_block_iff` : **along a run all valid buffers
hold their blocks if and only if every completed read was successful, or has found the bytes of the
block in the buffer**.
-/

namespace Xv6

open List Option

namespace Bio

/-- `IDE_BSY` -/
abbrev ideBsy : ℕ := 0x80
/-- `IDE_DRDY` -/
abbrev ideDrdy : ℕ := 0x40
/-- `IDE_DF` -/
abbrev ideDf : ℕ := 0x20
/-- `IDE_ERR` -/
abbrev ideErr : ℕ := 0x01

/-- `idewait`, for the values read from port `0x1f7`; `none` is a drive that is not ready yet. -/
def idewait (checkerr : Bool) : List ℕ → Option ℤ
  | [] => none
  | r :: rs =>
    if r &&& (ideBsy ||| ideDrdy) ≠ ideDrdy then idewait checkerr rs
    else if checkerr ∧ r &&& (ideDf ||| ideErr) ≠ 0 then some (-1)
    else some 0

/-- What a call `bread(dev, blockno)` has returned. -/
structure Result where
  dev : ℕ
  blockno : ℕ
  buf : Buf

/-- The cache, the driver and the processes `P`. -/
structure Reader (P : Type) where
  cache : Cache
  disk : Disks
  havedisk1 : Bool
  /-- The buffers of `idequeue`, the active request first. -/
  idequeue : List ℕ
  /-- The drive and the block of the command that the drive was given last. -/
  command : ℕ × ℕ
  /-- The holders of the locks of the buffers. -/
  lock : ℕ → Option P
  /-- The processes in `bread(dev, blockno)` that `bget` has given buffer `i`, waiting for its
  lock. -/
  wait : ℕ → Multiset (P × ℕ × ℕ)
  /-- The process in `bread(dev, blockno)` that sleeps in `iderw` for buffer `i`. -/
  call : ℕ → Option (P × ℕ × ℕ)
  /-- The processes in `brelse` that have given up the lock of buffer `i`. -/
  leave : ℕ → Multiset P
  /-- A record of the calls of `bread` that are over. -/
  returned : List Result

namespace Reader

/-- What happens. -/
inductive Event (P : Type)
  | get (p : P) (dev blockno : ℕ)
  | acquire (p : P) (dev blockno i : ℕ)
  | intr (status : List ℕ)
  | wakeup (p : P) (dev blockno i : ℕ)
  | brelse (p : P) (i : ℕ)
  | drop (p : P) (i : ℕ)

variable {P : Type}

/-- The state after `binit` and `ideinit`. -/
def init (havedisk1 : Bool) (disk : Disks) : Reader P where
  cache := .binit
  disk := disk
  havedisk1 := havedisk1
  idequeue := []
  command := (0, 0)
  lock _ := none
  wait _ := 0
  call _ := none
  leave _ := 0
  returned := []

/-- `idestart`; `none` is a panic. -/
def idestart (s : Reader P) (i : ℕ) : Option (Reader P) :=
  let b := s.cache.buf i
  if fssize ≤ b.blockno then none
  else some { s with
    command := (b.dev % 2, b.blockno)
    disk := if b.dirty then upd s.disk (b.dev % 2) (upd (s.disk (b.dev % 2)) b.blockno b.data)
      else s.disk }

/-- `iderw` up to the first `sleep`, by the holder of the lock; `none` is a panic. -/
def iderw (s : Reader P) (i : ℕ) : Option (Reader P) :=
  let b := s.cache.buf i
  if b.valid ∧ b.dirty = false then none
  else if b.dev ≠ 0 ∧ s.havedisk1 = false then none
  else
    let s := { s with idequeue := s.idequeue ++ [i] }
    -- Start disk if necessary.
    if s.idequeue.head? = some i then s.idestart i else some s

/-- `ideintr` on the first buffer of the queue, up to `wakeup`. -/
def complete (s : Reader P) (i : ℕ) (data : Block) : Reader P :=
  { s with
    idequeue := s.idequeue.tail
    cache := s.cache.setBuf i { s.cache.buf i with data := data, valid := true, dirty := false } }

/-- `ideintr` -/
def ideintr (s : Reader P) (status : List ℕ) : Option (Reader P) :=
  match s.idequeue with
  | [] => some s
  | i :: q => do
    let b := s.cache.buf i
    -- if(!(b->flags & B_DIRTY) && idewait(1) >= 0) insl(0x1f0, b->data, BSIZE/4);
    let data ← if b.dirty then some b.data
      else (idewait true status).map fun r => if 0 ≤ r then s.disk s.command.1 s.command.2
        else b.data
    match q with
    | [] => some (s.complete i data)
    | j :: _ => (s.complete i data).idestart j

/-- `bread(dev, blockno)` returns buffer `i`. -/
def returns (s : Reader P) (dev blockno i : ℕ) : Reader P :=
  { s with returned := s.returned ++ [⟨dev, blockno, s.cache.buf i⟩] }

variable [DecidableEq P]

/-- One event. -/
def step (s : Reader P) : Event P → Option (Reader P)
  | .get p dev blockno =>
    (s.cache.bget dev blockno).map fun x =>
      { s with cache := x.2, wait := upd s.wait x.1 ((p, dev, blockno) ::ₘ s.wait x.1) }
  | .acquire p dev blockno i =>
    if (p, dev, blockno) ∈ s.wait i ∧ s.lock i = none then
      let s := { s with
        lock := upd s.lock i (some p), wait := upd s.wait i ((s.wait i).erase (p, dev, blockno)) }
      if (s.cache.buf i).valid then some (s.returns dev blockno i)
      else { s with call := upd s.call i (some (p, dev, blockno)) }.iderw i
    else none
  | .intr status => s.ideintr status
  | .wakeup p dev blockno i =>
    if s.call i = some (p, dev, blockno) ∧ (s.cache.buf i).valid ∧
      (s.cache.buf i).dirty = false then some { s.returns dev blockno i with
        call := upd s.call i none }
    else none
  | .brelse p i =>
    if s.lock i = some p ∧ s.call i = none then
      some { s with lock := upd s.lock i none, leave := upd s.leave i (p ::ₘ s.leave i) }
    else none
  | .drop p i =>
    if p ∈ s.leave i then some { s with
      cache := s.cache.drop i, leave := upd s.leave i ((s.leave i).erase p) } else none

end Reader

/-- The cache, the driver and their users. -/
def readers (P : Type) [DecidableEq P] : LTS (Reader P) (Reader.Event P) := .ofFun Reader.step

namespace Reader

variable {P : Type} {s s' : Reader P} {disk : Disks} {i j dev blockno : ℕ}


/-- If the buffer is valid, it holds the block it is for. -/
def Holds (disk : Disks) (b : Buf) : Prop := b.valid = true → b.data = disk (b.dev % 2) b.blockno

/-- The valid buffers hold their blocks, and `bread` has returned the blocks it was called for. -/
structure Right (disk : Disks) (s : Reader P) : Prop where
  buf : ∀ i, Holds disk (s.cache.buf i)
  returned : ∀ r ∈ s.returned, r.buf.valid = true → r.buf.data = disk (r.dev % 2) r.blockno

/-- A read that is completed is successful, or there is nothing to be read. -/
def Sound (s : Reader P) : Event P → Prop
  | .intr status => ∀ i ∈ s.idequeue.head?,
    idewait true status = some 0 ∨ (s.cache.buf i).data = s.disk s.command.1 s.command.2
  | _ => True

/-! ## The invariant -/

/-- A buffer and what belongs to it. -/
structure Tracks (b : Buf) (lock : Option P) (wait : Multiset (P × ℕ × ℕ))
    (call : Option (P × ℕ × ℕ)) (leave : Multiset P) (queued : Prop) : Prop where
  clean : b.dirty = false
  refcnt : wait.card + (if lock = none then 0 else 1) + leave.card ≤ b.refcnt
  waits : ∀ t ∈ wait, t.2 = (b.dev, b.blockno)
  calls : ∀ t ∈ call, lock ≠ none ∧ t.2 = (b.dev, b.blockno)
  reads : queued → call ≠ none ∧ b.valid = false

/-- A buffer keeps its numbers while it is in use, and the drive reads for the first buffer of the
queue. -/
structure Inv (disk : Disks) (s : Reader P) : Prop where
  disk : s.disk = disk
  tracks : ∀ i, Tracks (s.cache.buf i) (s.lock i) (s.wait i) (s.call i) (s.leave i) (i ∈ s.idequeue)
  nodup : s.idequeue.Nodup
  command : ∀ i ∈ s.idequeue.head?, s.command = ((s.cache.buf i).dev % 2, (s.cache.buf i).blockno)

variable {b : Buf} {lock : Option P} {wait : Multiset (P × ℕ × ℕ)} {call : Option (P × ℕ × ℕ)}
  {leave : Multiset P}
variable {queued : Prop} {c c' : Cache} {k : ℕ}

theorem Tracks.call_eq_none (h : Tracks b none wait call leave queued) : call = none := by
  cases call with
  | none => rfl
  | some t => exact absurd rfl (h.calls t rfl).1

theorem Tracks.not_queued (h : Tracks b lock wait none leave queued) : ¬ queued :=
  fun hq => (h.reads hq).1 rfl

theorem Tracks.unused (h : Tracks b lock wait call leave queued) (hz : b.refcnt = 0) :
    lock = none ∧ wait = 0 ∧ leave = 0 := by
  have hr := h.refcnt
  rw [hz] at hr
  refine ⟨?_, Multiset.card_eq_zero.1 (by omega), Multiset.card_eq_zero.1 (by omega)⟩
  by_contra hl
  rw [if_neg hl] at hr
  omega

/-- Only buffer `i` has changed; if it is in the queue it is for the same block. -/
theorem Inv.touch (h : Inv disk s) (hbuf : s'.cache.buf = upd s.cache.buf i b)
    (hdisk : s'.disk = s.disk) (hqueue : s'.idequeue = s.idequeue)
    (hcommand : s'.command = s.command) (hothers : ∀ j, j ≠ i → s'.lock j = s.lock j ∧
      s'.wait j = s.wait j ∧ s'.call j = s.call j ∧ s'.leave j = s.leave j)
    (hi : Tracks b (s'.lock i) (s'.wait i) (s'.call i) (s'.leave i) (i ∈ s.idequeue))
    (hsame : i ∈ s.idequeue → b.dev = (s.cache.buf i).dev ∧ b.blockno = (s.cache.buf i).blockno) :
    Inv disk s' := by
  refine ⟨hdisk.trans h.disk, fun j => ?_, hqueue ▸ h.nodup, fun j hj => ?_⟩
  · rw [hbuf, hqueue]
    unfold upd
    by_cases hj : j = i
    · rw [if_pos hj, hj]
      exact hi
    · obtain ⟨hl, hw, hc, hv⟩ := hothers j hj
      rw [if_neg hj, hl, hw, hc, hv]
      exact h.tracks j
  · rw [hqueue] at hj
    rw [hcommand, hbuf, h.command j hj]
    unfold upd
    by_cases he : j = i
    · obtain ⟨hd, hn⟩ := hsame (he ▸ mem_of_mem_head? hj)
      rw [if_pos he, hd, hn, he]
    · rw [if_neg he]

theorem Right.touch (h : Right disk s) (hbuf : s'.cache.buf = upd s.cache.buf i b)
    (hret : s'.returned = s.returned) (hb : Holds disk b) : Right disk s' := by
  refine ⟨fun j => ?_, hret ▸ h.returned⟩
  rw [hbuf]
  exact upd_forall (F := fun _ b => Holds disk b) hb (fun j _ => h.buf j) j

theorem Right.returns (h : Right disk s) (hbuf : s'.cache.buf = s.cache.buf)
    (hret : s'.returned = s.returned ++ [⟨dev, blockno, s.cache.buf i⟩])
    (hlabel : (dev, blockno) = ((s.cache.buf i).dev, (s.cache.buf i).blockno)) : Right disk s' := by
  cases hlabel
  refine ⟨fun j => hbuf ▸ h.buf j, fun r hr => ?_⟩
  rw [hret, mem_append, mem_singleton] at hr
  rcases hr with hr | rfl
  · exact h.returned r hr
  · exact h.buf i

/-! ## The functions -/

theorem walk_test {next : Dll.Ptr ℕ} {test : ℕ → Bool} {n : ℕ} {x : Option ℕ}
    (h : Dll.walk next test n x = some i) :
    test i = true := by
  induction n generalizing x with
  | zero => cases h
  | succ n ih =>
    cases x with
    | none => cases h
    | some k =>
      rw [Dll.walk] at h
      split at h
      · rename_i hk
        exact Option.some.inj h ▸ hk
      · exact ih h

/-- `bget` takes a buffer of the block, or recycles one. -/
theorem bget_some (h : c.bget dev blockno = some (k, c')) :
    ((c.buf k).dev = dev ∧ (c.buf k).blockno = blockno) ∧
    c' = c.setBuf k { c.buf k with refcnt := (c.buf k).refcnt + 1 } ∨
      (c.buf k).refcnt = 0 ∧ c' = c.setBuf k
        { c.buf k with
          dev := dev, blockno := blockno, valid := false, dirty := false, refcnt := 1 } := by
  rw [Cache.bget] at h
  split at h
  · rename_i i hi
    cases h
    exact .inl ⟨of_decide_eq_true (walk_test hi), rfl⟩
  split at h
  · rename_i i hi
    cases h
    exact .inr ⟨(of_decide_eq_true (walk_test hi)).1, rfl⟩
  · cases h

theorem drop_buf :
    (c.drop i).buf = upd c.buf i { c.buf i with refcnt := (c.buf i).refcnt - 1 } := by
  unfold Cache.drop
  dsimp only
  split <;> rfl

theorem idewait_cases {checkerr : Bool} {status : List ℕ} {r : ℤ}
    (h : idewait checkerr status = some r) :
    r = 0 ∨ r = -1 := by
  induction status with
  | nil => cases h
  | cons x xs ih =>
    rw [idewait] at h
    split at h
    · exact ih h
    · split at h
      · exact .inr (Option.some.inj h).symm
      · exact .inl (Option.some.inj h).symm

theorem idestart_some (h : s.idestart i = some s') (hclean : (s.cache.buf i).dirty = false) :
    s' = { s with command := ((s.cache.buf i).dev % 2, (s.cache.buf i).blockno) } := by
  unfold idestart at h
  dsimp only at h
  split at h
  · cases h
  · rw [hclean] at h
    exact (Option.some.inj h).symm

/-- `iderw` for a buffer that is not in the queue yet. -/
theorem iderw_some (h : s.iderw i = some s') (hclean : (s.cache.buf i).dirty = false)
    (hi : i ∉ s.idequeue) :
    ∃ cmd, s' = { s with idequeue := s.idequeue ++ [i], command := cmd } ∧
      ∀ j ∈ (s.idequeue ++ [i]).head?,
      (s.idequeue = [] → cmd = ((s.cache.buf j).dev % 2, (s.cache.buf j).blockno)) ∧
        (s.idequeue ≠ [] → j ∈ s.idequeue.head? ∧ cmd = s.command) := by
  unfold iderw at h
  dsimp only at h
  split at h
  · cases h
  split at h
  · cases h
  cases hq : s.idequeue with
  | nil =>
    rw [hq, nil_append, List.head?_cons, if_pos rfl] at h
    refine ⟨_, idestart_some h hclean, fun j hj => ⟨fun _ => ?_, fun hne => absurd rfl hne⟩⟩
    obtain rfl : i = j := Option.some.inj hj
    rfl
  | cons k q =>
    have hne : k ≠ i := fun he => hi (by rw [hq, he]; exact mem_cons_self)
    rw [hq, cons_append, List.head?_cons, if_neg fun he => hne (Option.some.inj he)] at h
    exact ⟨s.command, (Option.some.inj h).symm, fun j hj =>
      ⟨fun he => absurd he (cons_ne_nil _ _), fun _ => ⟨hj, rfl⟩⟩⟩

/-- `ideintr` gives the first buffer of the queue its data. -/
theorem ideintr_some {q : List ℕ} {status : List ℕ} (h : Inv disk s) (hq : s.idequeue = i :: q)
    (hs : s.ideintr status = some s') :
    ∃ data cmd, s' = { s.complete i data with command := cmd } ∧
      (∀ j ∈ q.head?, cmd = ((s.cache.buf j).dev % 2, (s.cache.buf j).blockno)) ∧
      (data = s.disk s.command.1 s.command.2 ↔
        idewait true status = some 0 ∨ (s.cache.buf i).data = s.disk s.command.1 s.command.2) := by
  have hclean := fun k => (h.tracks k).clean
  unfold ideintr at hs
  simp only [hq, hclean i, Bool.false_eq_true, if_false, bind_eq_bind,
    bind_eq_some_iff, map_eq_some_iff] at hs
  obtain ⟨data, ⟨r, hr, hdata⟩, hs⟩ := hs
  have hiff : data = s.disk s.command.1 s.command.2 ↔
      idewait true status = some 0 ∨ (s.cache.buf i).data = s.disk s.command.1 s.command.2 := by
    rcases idewait_cases hr with rfl | rfl
    · rw [if_pos le_rfl] at hdata
      exact ⟨fun _ => .inl hr, fun _ => hdata.symm⟩
    · rw [if_neg (by decide)] at hdata
      rw [hr, hdata]
      exact ⟨.inr, fun hx => hx.resolve_left (by decide)⟩
  cases q with
  | nil => exact ⟨data, s.command, (Option.some.inj hs).symm, fun j hj => (by cases hj), hiff⟩
  | cons j q =>
  have hne : j ≠ i := fun he => by
    have := h.nodup
    rw [hq, he] at this
    exact (nodup_cons.1 this).1 mem_cons_self
  have hbuf : (s.complete i data).cache.buf j = s.cache.buf j := if_neg hne
  have hs' := idestart_some hs (by rw [hbuf]; exact hclean j)
  rw [hbuf] at hs'
  refine ⟨data, _, hs', fun k hk => ?_, hiff⟩
  obtain rfl : j = k := Option.some.inj hk
  rfl

/-! ## The steps -/

theorem init_inv {havedisk1 : Bool} : Inv disk (init havedisk1 disk : Reader P) := by
  refine ⟨rfl, fun i => ?_, nodup_nil, fun i hi => by cases hi⟩
  show Tracks (Cache.binit.buf i) none 0 none 0 (i ∈ [])
  rw [binit_buf]
  exact ⟨rfl, le_rfl, fun t ht => absurd ht (Multiset.notMem_zero t), fun t ht => (by cases ht),
    fun hi => by cases hi⟩

theorem init_right {havedisk1 : Bool} : Right disk (init havedisk1 disk : Reader P) := by
  refine ⟨fun i hi => ?_, fun r hr => by cases hr⟩
  rw [show (init havedisk1 disk : Reader P).cache.buf i = _ from binit_buf i] at hi
  cases hi

variable [DecidableEq P] {p : P}

theorem Inv.get (h : Inv disk s) (hs : s.step (.get p dev blockno) = some s') :
    Inv disk s' ∧ (Right disk s → Right disk s') := by
  simp only [step, map_eq_some_iff] at hs
  obtain ⟨⟨k, c⟩, hget, rfl⟩ := hs
  have ht := h.tracks k
  rcases bget_some hget with ⟨⟨rfl, rfl⟩, rfl⟩ | ⟨hz, rfl⟩
  · refine ⟨h.touch rfl rfl rfl rfl (fun j hj => ⟨rfl, if_neg hj, rfl, rfl⟩) ?_ fun _ =>
      ⟨rfl, rfl⟩, fun hr =>
      hr.touch rfl rfl (hr.buf k)⟩
    refine ⟨ht.clean, ?_, fun t hm => ?_, ht.calls, ht.reads⟩
    · have := ht.refcnt
      simp only [upd, if_true, Multiset.card_cons]
      omega
    simp only [upd, if_true, Multiset.mem_cons] at hm
    rcases hm with rfl | hm
    · rfl
    · exact ht.waits t hm
  obtain ⟨hl, hw, hv⟩ := ht.unused hz
  rw [hl] at ht
  have hc := ht.call_eq_none
  rw [hc] at ht
  refine ⟨h.touch rfl rfl rfl rfl (fun j hj => ⟨rfl, if_neg hj, rfl, rfl⟩) ?_ fun hq =>
    absurd hq ht.not_queued, fun hr =>
    hr.touch rfl rfl fun hvalid => Bool.noConfusion hvalid⟩
  refine ⟨rfl, ?_, fun t hm => ?_, fun t hm => ?_, fun hq => absurd hq ht.not_queued⟩
  · simp [upd, hl, hw, hv]
  · simp only [upd, if_true, hw, Multiset.mem_cons, Multiset.notMem_zero, or_false] at hm
    rw [hm]
  · rw [hc] at hm
    cases hm

theorem Inv.acquire (h : Inv disk s) (hs : s.step (.acquire p dev blockno i) = some s') :
    Inv disk s' ∧ (Right disk s → Right disk s') := by
  simp only [step, ite_none_right_eq_some] at hs
  obtain ⟨⟨hmem, hl⟩, hs⟩ := hs
  have ht := h.tracks i
  rw [hl] at ht
  have hc := ht.call_eq_none
  rw [hc] at ht
  have hlabel := ht.waits _ hmem
  have hcard := Multiset.card_erase_add_one hmem
  have href : ((s.wait i).erase (p, dev, blockno)).card + 1 + (s.leave i).card ≤
      (s.cache.buf i).refcnt := by
    have := ht.refcnt
    rw [if_pos rfl] at this
    omega
  have hwaits : ∀ t ∈ (s.wait i).erase (p, dev, blockno), t.2 =
      ((s.cache.buf i).dev, (s.cache.buf i).blockno) :=
    fun t hm => ht.waits t (Multiset.mem_of_mem_erase hm)
  split at hs
  · cases hs
    refine ⟨h.touch (b := s.cache.buf i) (i := i) ?_ rfl rfl rfl
      (fun j hj => ⟨if_neg hj, if_neg hj, rfl, rfl⟩) ?_ fun _ => ⟨rfl, rfl⟩, fun hr =>
      hr.returns rfl rfl hlabel⟩
    · exact (upd_self _ _).symm
    refine ⟨ht.clean, by simpa [returns, upd] using href, fun t hm =>
      hwaits t (by simpa [returns, upd] using hm), fun t hm => ?_, fun hq =>
      absurd hq ht.not_queued⟩
    cases hc.symm.trans hm
  rename_i hvalid
  obtain ⟨cmd, rfl, hcmd⟩ := iderw_some hs ht.clean ht.not_queued
  refine ⟨⟨h.disk, fun j => ?_, ?_, fun j hj => ?_⟩, fun hr => ⟨hr.buf, hr.returned⟩⟩
  · simp only [upd, mem_append, mem_singleton]
    by_cases hj : j = i
    · simp only [hj, if_true]
      refine ⟨ht.clean, by simpa using href, hwaits, fun t hm => ?_, fun _ =>
        ⟨by simp, by simpa using hvalid⟩⟩
      obtain rfl : (p, dev, blockno) = t := Option.some.inj hm
      exact ⟨by simp, hlabel⟩
    · simp only [if_neg hj, or_iff_left hj]
      exact h.tracks j
  · have hnodup := h.nodup.concat ht.not_queued
    rwa [concat_eq_append] at hnodup
  · obtain ⟨hnil, hcons⟩ := hcmd j hj
    by_cases hq : s.idequeue = []
    · exact hnil hq
    · obtain ⟨hhead, rfl⟩ := hcons hq
      exact h.command j hhead

theorem Inv.wakeup (h : Inv disk s) (hs : s.step (.wakeup p dev blockno i) = some s') :
    Inv disk s' ∧ (Right disk s → Right disk s') := by
  simp only [step, guard_eq_some] at hs
  obtain ⟨⟨hc, hvalid, -⟩, rfl⟩ := hs
  have ht := h.tracks i
  rw [hc] at ht
  obtain ⟨hl, hlabel⟩ := ht.calls _ rfl
  have hq : i ∉ s.idequeue := fun hq => by
    rw [(ht.reads hq).2] at hvalid
    cases hvalid
  refine ⟨h.touch (b := s.cache.buf i) (i := i) ?_ rfl rfl rfl
    (fun j hj => ⟨rfl, rfl, if_neg hj, rfl⟩) ?_ fun _ => ⟨rfl, rfl⟩, fun hr =>
    hr.returns rfl rfl hlabel⟩
  · exact (upd_self _ _).symm
  · refine ⟨ht.clean, ht.refcnt, ht.waits, fun t hm => ?_, fun hq' => absurd hq' hq⟩
    simp only [upd, if_true] at hm
    cases hm

theorem Inv.brelse (h : Inv disk s) (hs : s.step (.brelse p i) = some s') :
    Inv disk s' ∧ (Right disk s → Right disk s') := by
  simp only [step, guard_eq_some] at hs
  obtain ⟨⟨hl, hc⟩, rfl⟩ := hs
  have ht := h.tracks i
  rw [hc, hl] at ht
  refine ⟨h.touch (b := s.cache.buf i) (i := i) ?_ rfl rfl rfl
    (fun j hj => ⟨if_neg hj, rfl, rfl, if_neg hj⟩) ?_ fun _ => ⟨rfl, rfl⟩, fun hr =>
    ⟨hr.buf, hr.returned⟩⟩
  · exact (upd_self _ _).symm
  refine ⟨ht.clean, ?_, ht.waits, fun t hm => ?_, fun hq => absurd hq ht.not_queued⟩
  · have := ht.refcnt
    rw [if_neg (by simp)] at this
    simp only [upd, if_true, Multiset.card_cons]
    omega
  · rw [show _ = none from hc] at hm
    cases hm

theorem Inv.drop (h : Inv disk s) (hs : s.step (.drop p i) = some s') :
    Inv disk s' ∧ (Right disk s → Right disk s') := by
  simp only [step, guard_eq_some] at hs
  obtain ⟨hmem, rfl⟩ := hs
  have ht := h.tracks i
  refine ⟨h.touch drop_buf rfl rfl rfl (fun j hj => ⟨rfl, rfl, rfl, if_neg hj⟩) ?_ fun _ =>
    ⟨rfl, rfl⟩, fun hr =>
    hr.touch drop_buf rfl (hr.buf i)⟩
  refine ⟨ht.clean, ?_, ht.waits, ht.calls, ht.reads⟩
  have := ht.refcnt
  have := Multiset.card_erase_add_one hmem
  simp only [upd, if_true]
  omega

theorem Inv.intr {status : List ℕ} (h : Inv disk s) (hs : s.step (.intr status) = some s') :
    Inv disk s' ∧ (Right disk s → (Right disk s' ↔ Sound s (.intr status))) := by
  replace hs : s.ideintr status = some s' := hs
  cases hq : s.idequeue with
  | nil =>
    unfold ideintr at hs
    rw [hq] at hs
    cases hs
    exact ⟨h, fun hr => iff_of_true hr fun i hi => by rw [hq] at hi; cases hi⟩
  | cons i q =>
  have hnodup := h.nodup
  have hcommand := h.command i (by rw [hq]; rfl)
  rw [hq, nodup_cons] at hnodup
  obtain ⟨data, cmd, rfl, hcmd, hdata⟩ := ideintr_some h hq hs
  have htail : (s.complete i data).idequeue = q := by rw [complete, hq]; rfl
  refine ⟨⟨h.disk, fun j => ?_, ?_, fun j hj => ?_⟩, fun hr => ?_⟩
  · rw [htail]
    show Tracks (upd s.cache.buf i _ j) (s.lock j) (s.wait j) (s.call j) (s.leave j) (j ∈ q)
    have ht := h.tracks j
    rw [hq, mem_cons] at ht
    unfold upd
    by_cases hj : j = i
    · rw [if_pos hj, ← hj]
      exact ⟨rfl, ht.refcnt, ht.waits, ht.calls, fun hjq => absurd (hj ▸ hjq) hnodup.1⟩
    · rw [if_neg hj]
      rwa [or_iff_right hj] at ht
  · exact htail ▸ hnodup.2
  · rw [htail] at hj
    have hne : j ≠ i := fun he => hnodup.1 (he ▸ mem_of_mem_head? hj)
    rw [show (s.complete i data).cache.buf j = s.cache.buf j from if_neg hne]
    exact hcmd j hj
  · have hsound : Sound s (.intr status) ↔ data = s.disk s.command.1 s.command.2 := by
      rw [hdata, Sound, hq]
      exact ⟨fun hx => hx i rfl, fun hx k hk => (Option.some.inj hk : i = k) ▸ hx⟩
    rw [hsound]
    constructor
    · intro hr'
      have hi := hr'.buf i
      rw [show (s.complete i data).cache.buf i = _ from if_pos rfl] at hi
      rw [h.disk, hcommand]
      exact hi rfl
    · intro he
      refine hr.touch rfl rfl fun _ => ?_
      rw [he, h.disk, hcommand]

/-! ## Runs -/

theorem Inv.step {e : Event P} (h : Inv disk s) (hs : s.step e = some s') :
    Inv disk s' ∧ (Right disk s → (Right disk s' ↔ Sound s e)) := by
  have hother : ∀ {e : Event P}, Inv disk s' ∧ (Right disk s → Right disk s') → Sound s e →
      Inv disk s' ∧ (Right disk s → (Right disk s' ↔ Sound s e)) := fun hx hsound =>
    ⟨hx.1, fun hr => iff_of_true (hx.2 hr) hsound⟩
  cases e with
  | get p dev blockno => exact hother (h.get hs) trivial
  | acquire p dev blockno i => exact hother (h.acquire hs) trivial
  | intr status => exact h.intr hs
  | wakeup p dev blockno i => exact hother (h.wakeup hs) trivial
  | brelse p i => exact hother (h.brelse hs) trivial
  | drop p i => exact hother (h.drop hs) trivial

theorem run_inv {havedisk1 : Bool} {es : List (Event P)}
    (h : (readers P).Run (init havedisk1 disk) es s) : Inv disk s :=
  h.invariant init_inv fun _ _ _ hi hs => (hi.step hs).1

/-- **Valid buffers hold their blocks, and `bread` returns the blocks it was called for, all along a
run if and only if every read that is completed is successful or finds the bytes of the block in the
buffer.** -/
theorem bread_holds_block_iff {havedisk1 : Bool} {es : List (Event P)}
    (h : (readers P).Run (init havedisk1 disk) es s) :
    ((readers P).restrict Sound).Run (init havedisk1 disk) es s ↔
      ∀ pre t, pre <+: es → (readers P).Run (init havedisk1 disk) pre t → Right disk t :=
  LTS.run_restrict_iff h init_right fun _ _ _ _ hr hi hs => ((run_inv hr).step hs).2 hi

/-- One call of `bread(0, 1)` that gets buffer 0, with the values of the status port. -/
def readOne (status : List ℕ) : List (Event Unit) :=
  [.get () 0 1, .acquire () 0 1 0, .intr status, .wakeup () 0 1 0]

/-- A disk full of ones. -/
def ones : Disks := fun _ _ _ => 1

theorem bread_holds_block_iff_ready :
    ∃ s, (readers Unit).Run (init false ones) (readOne [ideBsy, ideDrdy]) s ∧
    (((readers Unit).restrict Sound).Run (init false ones) (readOne [ideBsy, ideDrdy]) s ↔
      ∀ pre t, pre <+: readOne [ideBsy, ideDrdy] → (readers Unit).Run (init false ones) pre t →
      Right ones t) := by
  have hex : (LTS.exec step (init false ones) (readOne [ideBsy, ideDrdy])).isSome = true := by
    decide +kernel
  obtain ⟨s, hs⟩ := isSome_iff_exists.1 hex
  have hrun := LTS.run_of_exec hs
  exact ⟨s, hrun, bread_holds_block_iff hrun⟩

/-- **A failed read**: the drive reports `IDE_ERR`, and `bread` returns the old contents of the
buffer as block 1.  The next call finds them in the cache. -/
theorem bread_after_error : ∃ s, (readers Unit).Run (init false ones)
      (readOne [ideDrdy ||| ideErr] ++ [.brelse () 0, .drop () 0, .get () 0 1, .acquire () 0 1 0])
      s ∧
    s.returned.map (fun r => (r.dev, r.blockno, r.buf.valid, r.buf.data 0)) =
    [(0, 1, true, 0), (0, 1, true, 0)] ∧ ones 0 1 0 = 1 := by
  have hex : (LTS.exec step (init false ones)
      (readOne [ideDrdy ||| ideErr] ++ [.brelse () 0, .drop () 0, .get () 0 1,
        .acquire () 0 1 0])).map (fun s =>
        s.returned.map fun r => (r.dev, r.blockno, r.buf.valid, r.buf.data 0)) =
      some [(0, 1, true, 0), (0, 1, true, 0)] := by decide +kernel
  obtain ⟨s, hs, hr⟩ := map_eq_some_iff.1 hex
  exact ⟨s, LTS.run_of_exec hs, hr, rfl⟩

end Reader

end Bio

end Xv6
