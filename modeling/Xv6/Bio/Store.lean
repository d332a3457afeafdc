import Xv6.Bio.Swap

/-!
# The swap store

Calls of `swapread` and `swapwrite`, one after the other, while any processes use the buffers of
device 1: reading and writing files, committing the log.  `Store.system` interleaves the events of
the call that is under way with those of the other device; `calls` records the calls that are over,
the last one first.

`swap_store` says what the calls are for: `swapread` returns blocks as they were last written.
-/

namespace Xv6

open Option

namespace Bio

/-! ## The system -/

/-- What a call does next, with its buffer. -/
inductive Stage
  | bget
  | bread (i : ℕ)
  | memmove (i : ℕ)
  | bwrite (i : ℕ)
  | brelse (i : ℕ)
  | drop (i : ℕ)

/-- A call. -/
structure Call where
  /-- `swapwrite`, not `swapread` -/
  write : Bool
  blkno : ℕ
  page : Bytes

/-- A call of process `p` that is under way, in the round for block `k`. -/
structure Job (P : Type) extends Call where
  p : P
  k : ℕ
  stage : Stage

/-- The block of the round. -/
def Job.block {P : Type} (j : Job P) : ℕ := swapBase.toNat + j.blkno + j.k

/-- The cache, the call that is under way and those that are over. -/
structure Store (P : Type) where
  bio : State P
  job : Option (Job P)
  calls : List Call

/-- What happens. -/
inductive Act (P : Type)
  /-- A process makes a call. -/
  | start (p : P) (c : Call)
  /-- The call goes on. -/
  | run
  /-- Other use of the cache. -/
  | other (e : Event P)

/-- The event is about device `d`. -/
def Event.On {P : Type} (d : ℕ) (t : State P) : Event P → Prop
  | .get _ dev _ | .bread _ dev _ _ => dev = d
  | .modify _ i _ | .bwrite _ i | .logWrite _ i | .brelse _ i | .drop _ i => (t.cache.buf i).dev = d

instance {P : Type} (d : ℕ) (t : State P) : DecidablePred (Event.On d t) := fun e => by
  cases e <;> exact inferInstanceAs (Decidable (_ = _))

namespace Store

variable {P : Type} [DecidableEq P]

/-- The call does `e`, and goes on as `j`. -/
def goes (s : Store P) (e : Event P) (j : Job P) : Option (Store P) :=
  (s.bio.step e).map fun t => { s with bio := t, job := some j }

/-- The next thing that the call `j` does: one round of the loop after the other. -/
def run (s : Store P) (j : Job P) : Option (Store P) :=
  match j.stage with
  | .bget => (s.bio.cache.bget 0 j.block).bind fun (i, _) => s.goes (.get j.p 0 j.block) { j with
      stage := .bread i }
  | .bread i => s.goes (.bread j.p 0 j.block i) { j with stage := .memmove i }
  | .memmove i =>
    let data := (s.bio.cache.buf i).data
    if j.write then
      s.goes (.modify j.p i (data.copy 0 bsize (j.page.drop (j.k * bsize)))) { j with
          stage := .bwrite i }
    else
      some { s with
          job := some { j with page := j.page.copy (j.k * bsize) bsize data, stage := .brelse i } }
  | .bwrite i => s.goes (.bwrite j.p i) { j with stage := .brelse i }
  | .brelse i => s.goes (.brelse j.p i) { j with stage := .drop i }
  | .drop i =>
    (s.goes (.drop j.p i) { j with k := j.k + 1, stage := .bget }).map fun s' =>
      if j.k + 1 = 8 then { s' with job := none, calls := j.toCall :: s'.calls } else s'

/-- One step.  The driver accepts the blocks of the calls, and the other use is of device 1. -/
def step (s : Store P) : Act P → Option (Store P)
  | .start p c =>
    if s.job.isNone ∧ Accepted c.blkno then some { s with job := some ⟨c, p, 0, .bget⟩ } else none
  | .run => s.job.bind s.run
  | .other e => if e.On 1 s.bio then (s.bio.step e).map fun t => { s with bio := t } else none

/-- The swap store. -/
def system (P : Type) [DecidableEq P] : LTS (Store P) (Act P) := .ofFun step

/-- Before the first call. -/
def init (disk : Disks) : Store P := ⟨.init disk, none, []⟩

end Store

/-- Block `k` of a page. -/
def pageBlock (page : Bytes) (k : ℕ) : Block := page.drop (k * bsize)

/-- The call stores block `b`. -/
def Call.Covers (c : Call) (b : ℕ) : Prop :=
  c.write = true ∧ swapBase.toNat + c.blkno ≤ b ∧ b < swapBase.toNat + c.blkno + 8

instance (c : Call) (b : ℕ) : Decidable (c.Covers b) := inferInstanceAs (Decidable (_ ∧ _ ∧ _))

/-- Block `b` after the calls: what was stored last, or what was on the disk. -/
def lastStored (disk : Disk) : List Call → Disk
  | [], b => disk b
  | c :: cs, b =>
    if c.Covers b then pageBlock c.page (b - swapBase.toNat - c.blkno) else lastStored disk cs b

/-- Two blocks have the same `BSIZE` bytes. -/
def SameBlock (d d' : Block) : Prop := ∀ o < bsize, d o = d' o

/-! ## What the events of one device leave alone -/

section Frame

variable {P : Type} {p : P} {t t' : State P} {d d' i : ℕ}

/-- What belongs to device `d` is as it was. -/
structure Kept (d : ℕ) (t t' : State P) : Prop where
  stored : t'.stored d = t.stored d
  disk : t'.disk d = t.disk d
  wait : ∀ i q b, (q, d, b) ∈ t.wait i → (q, d, b) ∈ t'.wait i
  lock : ∀ i, (t.cache.buf i).dev = d → t'.lock i = t.lock i
  leave : ∀ i, (t.cache.buf i).dev = d → t'.leave i = t.leave i
  buf : ∀ i, (t.cache.buf i).dev = d → (t.cache.buf i).refcnt ≠ 0 →
    (t.cache.buf i).Same (t'.cache.buf i) ∧ (t'.cache.buf i).data = (t.cache.buf i).data

theorem Kept.of_ne {b : Buf} (hi : (t.cache.buf i).dev ≠ d)
    (hbuf : t'.cache.buf = (t.cache.setBuf i b).buf) (hstored : t'.stored d = t.stored d)
    (hdisk : t'.disk d = t.disk d) (hwait : ∀ j q b, (q, d, b) ∈ t.wait j → (q, d, b) ∈ t'.wait j)
    (hlock : ∀ j, j ≠ i → t'.lock j = t.lock j) (hleave : ∀ j, j ≠ i → t'.leave j = t.leave j) :
    Kept d t t' := by
  have hne : ∀ j, (t.cache.buf j).dev = d → j ≠ i := fun j hj h => hi (h ▸ hj)
  refine ⟨hstored, hdisk, hwait, fun j hj => hlock j (hne j hj), fun j hj => hleave j (hne j hj),
    fun j hj _ => ?_⟩
  rw [hbuf, show (t.cache.setBuf i b).buf j = t.cache.buf j from if_neg (hne j hj)]
  exact ⟨⟨rfl, rfl⟩, rfl⟩

variable [DecidableEq P]

theorem Ok.kept {e : Event P} (h : Ok t) (he : e.On d' t) (hs : t.step e = some t') (hd : d ≠ d') :
    Kept d t t' := by
  cases e with
  | get p dev blockno =>
    simp only [State.step, map_eq_some_iff] at hs
    obtain ⟨⟨k, c⟩, hg, rfl⟩ := hs
    obtain ⟨l, hr, -⟩ := h.ring
    refine ⟨rfl, rfl, fun j q b hq => ?_, fun _ _ => rfl, fun _ _ => rfl, fun j _ hl => ?_⟩
    · show (q, d, b) ∈ upd t.wait k _ j
      unfold upd
      split
      · rename_i hjk
        exact Multiset.mem_cons_of_mem (hjk ▸ hq)
      · exact hq
    show (t.cache.buf j).Same (c.buf j) ∧ (c.buf j).data = (t.cache.buf j).data
    rcases bget_spec hr hg with ⟨a, l', -, -, -, rfl⟩ | ⟨-, -, ⟨href, -⟩, rfl⟩
    · rcases eq_or_ne j k with rfl | hjk
      · rw [setBuf_buf]; exact ⟨⟨rfl, rfl⟩, rfl⟩
      · rw [show (t.cache.setBuf k _).buf j = t.cache.buf j from if_neg hjk]
        exact ⟨⟨rfl, rfl⟩, rfl⟩
    · have hjk : j ≠ k := fun hjk => hl (hjk ▸ href)
      rw [show (t.cache.setBuf k _).buf j = t.cache.buf j from if_neg hjk]
      exact ⟨⟨rfl, rfl⟩, rfl⟩
  | bread p dev blockno k =>
    simp only [State.step, ite_none_right_eq_some, map_eq_some_iff] at hs
    obtain ⟨⟨ht, -⟩, ⟨c, disk⟩, hw, rfl⟩ := hs
    have hdev : dev = (t.cache.buf k).dev := congrArg Prod.fst ((h.fine k).tokens _ ht)
    obtain ⟨b, rfl, rfl⟩ : ∃ b, c = t.cache.setBuf k b ∧ disk = t.disk := by
      unfold Cache.fill at hw
      split at hw
      · cases hw
        exact ⟨t.cache.buf k, by simp [Cache.setBuf, Function.update_eq_self], rfl⟩
      rename_i hv
      obtain ⟨-, ⟨hd, -⟩ | ⟨-, -, rfl, rfl⟩⟩ := iderw_spec hw
      · exact absurd ((h.fine k).dirty hd) hv
      · exact ⟨_, rfl, rfl⟩
    refine .of_ne (i := k) (fun hk => hd (hk.symm.trans (hdev.symm.trans he))) rfl rfl rfl
      (fun j q b' hq => ?_) (fun j hj => if_neg hj) fun _ _ => rfl
    show (q, d, b') ∈ upd t.wait k _ j
    unfold upd
    split
    · rename_i hjk
      refine (Multiset.mem_erase_of_ne fun heq => hd ?_).2 (hjk ▸ hq)
      have hdev' : d = dev := congrArg (fun x : P × ℕ × ℕ => x.2.1) heq
      exact hdev'.trans he
    · exact hq
  | modify p k data =>
    simp only [State.step, guard_eq_some] at hs
    obtain ⟨-, rfl⟩ := hs
    exact .of_ne (fun hk => hd (hk.symm.trans he)) rfl rfl rfl (fun _ _ _ => id) (fun _ _ => rfl)
      fun _ _ => rfl
  | bwrite p k =>
    simp only [State.step, ite_none_right_eq_some, map_eq_some_iff] at hs
    obtain ⟨-, ⟨c, disk⟩, hw, rfl⟩ := hs
    obtain ⟨-, rfl, rfl⟩ := bwrite_spec hw
    have hk : (t.cache.buf k).dev ≠ d := fun hk => hd (hk.symm.trans he)
    refine .of_ne hk rfl (if_neg hk.symm) (if_neg ?_) (fun _ _ _ => id) (fun _ _ => rfl)
      fun _ _ => rfl
    rw [Nat.mod_eq_of_lt (h.fine k).dev]
    exact hk.symm
  | logWrite p k =>
    simp only [State.step, guard_eq_some] at hs
    obtain ⟨-, rfl⟩ := hs
    have hk : (t.cache.buf k).dev ≠ d := fun hk => hd (hk.symm.trans he)
    exact .of_ne hk rfl (if_neg hk.symm) rfl (fun _ _ _ => id) (fun _ _ => rfl) fun _ _ => rfl
  | brelse p k =>
    simp only [State.step, guard_eq_some] at hs
    obtain ⟨-, rfl⟩ := hs
    refine .of_ne (i := k) (b := t.cache.buf k) (fun hk => hd (hk.symm.trans he)) ?_ rfl rfl
      (fun _ _ _ => id) (fun j hj => if_neg hj) fun j hj => if_neg hj
    simp [Cache.setBuf, Function.update_eq_self]
  | drop p k =>
    simp only [State.step, guard_eq_some] at hs
    obtain ⟨-, rfl⟩ := hs
    refine .of_ne (i := k) (b := { t.cache.buf k with refcnt := (t.cache.buf k).refcnt - 1 })
      (fun hk => hd (hk.symm.trans he)) ?_ rfl rfl (fun _ _ _ => id) (fun _ _ => rfl)
      fun j hj => if_neg hj
    simp only [Cache.drop]
    split <;> rfl

omit [DecidableEq P] in
/-- Events of device 0 or 1 are for one of the two disks. -/
theorem Event.On.real {e : Event P} (he : e.On d t) (hd : d < 2) : e.Real := by
  cases e with
  | get p dev blockno => exact (show dev = d from he) ▸ hd
  | _ => trivial

end Frame

/-! ## The invariant -/

section Inv

variable {P : Type} {disk : Disk} {cs : List Call} {t t' : State P} {j : Job P} {b i : ℕ}

/-- Blocks that the call has transferred. -/
def Job.done (j : Job P) : ℕ :=
  match j.stage with
  | .brelse _ | .drop _ => j.k + 1
  | .bget | .bread _ | .memmove _ | .bwrite _ => j.k

/-- Block `b` once the call has transferred `n` blocks. -/
def Call.upTo (disk : Disk) (cs : List Call) (c : Call) (n : ℕ) : Disk := fun b =>
  if c.write = true ∧ swapBase.toNat + c.blkno ≤ b ∧ b < swapBase.toNat + c.blkno + n then
    pageBlock c.page (b - swapBase.toNat - c.blkno)
  else lastStored disk cs b

/-- Buffer `i` is locked by the call, for the block of the round. -/
structure Job.Locks (t : State P) (j : Job P) (i : ℕ) : Prop where
  lock : t.lock i = some j.p
  dev : (t.cache.buf i).dev = 0
  blockno : (t.cache.buf i).blockno = j.block

/-- What holds before the next thing that the call does. -/
def Job.At (t : State P) (j : Job P) : Prop :=
  match j.stage with
  | .bget => True
  | .bread i => (j.p, 0, j.block) ∈ t.wait i
  | .memmove i => j.Locks t i ∧ (t.cache.buf i).data = t.stored 0 j.block
  | .bwrite i =>
    j.Locks t i ∧ j.write = true ∧ SameBlock (t.cache.buf i).data (pageBlock j.page j.k)
  | .brelse i => j.Locks t i
  | .drop i => (t.cache.buf i).dev = 0 ∧ j.p ∈ t.leave i

/-- A `swapread` has read its first `n` blocks. -/
def Call.Got (disk : Disk) (cs : List Call) (c : Call) (n : ℕ) : Prop :=
  c.write = false →
    ∀ k < n, SameBlock (pageBlock c.page k) (lastStored disk cs (swapBase.toNat + c.blkno + k))

/-- The invariant of a call that is under way. -/
structure Job.Ok (disk : Disk) (cs : List Call) (t : State P) (j : Job P) : Prop where
  k : j.k < 8
  next : j.At t
  got : j.Got disk cs j.done
  stored : ∀ b, SameBlock (t.stored 0 b) (j.upTo disk cs j.done b)

/-- The invariant. -/
structure Store.Inv (disk : Disk) (s : Store P) : Prop where
  ok : Bio.Ok s.bio
  job : ∀ j, s.job = some j → j.Ok disk s.calls s.bio
  idle : s.job = none → ∀ b, SameBlock (s.bio.stored 0 b) (lastStored disk s.calls b)
  calls : ∀ c cs, c :: cs <:+ s.calls → c.Got disk cs 8

theorem Job.Locks.ne_zero (h : j.Locks t i) (ht : Bio.Ok t) : (t.cache.buf i).refcnt ≠ 0 := by
  rw [(ht.fine i).refcnt, if_neg (by rw [h.lock]; simp)]
  omega

theorem Job.Locks.kept (h : j.Locks t i) (ht : Bio.Ok t) (hk : Kept 0 t t') :
    j.Locks t' i ∧ (t'.cache.buf i).data = (t.cache.buf i).data := by
  obtain ⟨hsame, hdata⟩ := hk.buf i h.dev (h.ne_zero ht)
  exact ⟨⟨(hk.lock i h.dev).trans h.lock, hsame.1 ▸ h.dev, hsame.2 ▸ h.blockno⟩, hdata⟩

theorem Job.At.kept (h : j.At t) (ht : Bio.Ok t) (hk : Kept 0 t t') : j.At t' := by
  unfold Job.At at h ⊢
  split at h
  · trivial
  · exact hk.wait _ _ _ h
  · obtain ⟨hl, hdata⟩ := h.1.kept ht hk
    exact ⟨hl, by rw [hdata, hk.stored, h.2]⟩
  · obtain ⟨hl, hdata⟩ := h.1.kept ht hk
    exact ⟨hl, h.2.1, hdata ▸ h.2.2⟩
  · exact (h.kept ht hk).1
  · rename_i i _
    have hne : (t.cache.buf i).refcnt ≠ 0 := by
      rw [(ht.fine i).refcnt]
      have := Multiset.card_pos_iff_exists_mem.2 ⟨_, h.2⟩
      omega
    exact ⟨(hk.buf i h.1 hne).1.1 ▸ h.1, by rw [hk.leave i h.1]; exact h.2⟩

theorem sameBlock_copy {d src : Bytes} : SameBlock (d.copy 0 bsize src) src := fun o ho => by
  rw [Bytes.copy_of_mem zero_le (by omega), Nat.sub_zero]

theorem Call.upTo_succ {c : Call} {stored : Disk} {data : Block} {n : ℕ} (hw : c.write = true)
    (h : ∀ b, SameBlock (stored b) (c.upTo disk cs n b))
    (hdata : SameBlock data (pageBlock c.page n)) (b : ℕ) :
    SameBlock (upd stored (swapBase.toNat + c.blkno + n) data b) (c.upTo disk cs (n + 1) b) := by
  have hb := h b
  unfold Call.upTo at hb ⊢
  unfold upd
  split
  · rename_i heq
    rw [if_pos ⟨hw, by omega, by omega⟩, show b - swapBase.toNat - c.blkno = n by omega]
    exact hdata
  by_cases hin : c.write = true ∧ swapBase.toNat + c.blkno ≤ b ∧ b < swapBase.toNat + c.blkno + n
  · rw [if_pos ⟨hw, hin.2.1, by omega⟩]
    rwa [if_pos hin] at hb
  · rw [if_neg (by simp only [hw, true_and] at hin ⊢; omega)]
    rwa [if_neg hin] at hb

theorem Call.upTo_read {c : Call} {n : ℕ} (hr : c.write = false) :
    c.upTo disk cs n b = lastStored disk cs b :=
  if_neg fun h => by rw [hr] at h; exact absurd h.1 (by decide)

theorem Call.upTo_zero {c : Call} : c.upTo disk cs 0 b = lastStored disk cs b := if_neg (by omega)

theorem pageBlock_copy {page : Bytes} {data : Block} {k k' : ℕ} :
    SameBlock (pageBlock (page.copy (k * bsize) bsize data) k')
    (if k' = k then data else pageBlock page k') :=
  fun o ho => by
  unfold pageBlock Bytes.drop
  split
  · rename_i hk
    subst hk
    rw [Bytes.copy_of_mem (by omega) (by omega), Nat.add_sub_cancel_left]
  rename_i hk
  rw [Bytes.copy_of_not_mem]
  rcases Nat.lt_or_gt_of_ne hk with h | h
  · have := Nat.mul_le_mul_right bsize (Nat.succ_le_of_lt h)
    rw [Nat.succ_mul] at this
    omega
  · have := Nat.mul_le_mul_right bsize (Nat.succ_le_of_lt h)
    rw [Nat.succ_mul] at this
    omega

theorem Call.Got.succ {c : Call} {n : ℕ} {data : Block} (h : c.Got disk cs n)
    (hdata : SameBlock data (lastStored disk cs (swapBase.toNat + c.blkno + n))) :
    ({ c with page := c.page.copy (n * bsize) bsize data } : Call).Got disk cs (n + 1) :=
  fun hr k hk o ho => by
  rw [pageBlock_copy o ho]
  split
  · rename_i hkn
    subst hkn
    exact hdata o ho
  · exact h hr k (by omega) o ho

variable [DecidableEq P] {s s' : Store P} {p : P}

theorem Store.run_on (h : s.Inv disk) (hj : s.job = some j) (hs : s.run j = some s') :
    s'.bio = s.bio ∨ ∃ e, s.bio.step e = some s'.bio ∧ e.On 0 s.bio := by
  have hat := (h.job j hj).next
  unfold Store.run Store.goes at hs
  unfold Job.At at hat
  split at hs
  · simp only [bind_eq_some_iff, map_eq_some_iff] at hs
    obtain ⟨_, -, t', ht, rfl⟩ := hs
    exact .inr ⟨_, ht, rfl⟩
  · obtain ⟨t', ht, rfl⟩ := map_eq_some_iff.1 hs
    exact .inr ⟨_, ht, rfl⟩
  · rename_i i hst
    rw [hst] at hat
    split at hs
    · obtain ⟨t', ht, rfl⟩ := map_eq_some_iff.1 hs
      exact .inr ⟨_, ht, hat.1.dev⟩
    · cases hs
      exact .inl rfl
  · rename_i i hst
    rw [hst] at hat
    obtain ⟨t', ht, rfl⟩ := map_eq_some_iff.1 hs
    exact .inr ⟨_, ht, hat.1.dev⟩
  · rename_i i hst
    rw [hst] at hat
    obtain ⟨t', ht, rfl⟩ := map_eq_some_iff.1 hs
    exact .inr ⟨_, ht, hat.dev⟩
  · rename_i i hst
    rw [hst] at hat
    simp only [map_map, map_eq_some_iff, Function.comp] at hs
    obtain ⟨t', ht, rfl⟩ := hs
    refine .inr ⟨.drop j.p i, ?_, hat.1⟩
    split <;> exact ht

omit [DecidableEq P] in
theorem Store.Inv.of_job {j' : Job P} (h : s.Inv disk) (hok : Bio.Ok t)
    (hj : j'.Ok disk s.calls t) :
    ({ s with bio := t, job := some j' } : Store P).Inv disk :=
  ⟨hok, fun _ hj'' => by cases hj''; exact hj, nofun, h.calls⟩

theorem Store.Inv.run (h : s.Inv disk) (hj : s.job = some j) (hs : s.run j = some s') :
    s'.Inv disk := by
  obtain ⟨hk, hat, hgot, hstored⟩ := h.job j hj
  have hok : Bio.Ok s'.bio := by
    rcases run_on h hj hs with heq | ⟨e, he, hon⟩
    · exact heq ▸ h.ok
    · exact h.ok.step he (hon.real (by decide))
  obtain ⟨c, p, k, stage⟩ := j
  cases stage with
  | bget =>
    simp only [Store.run, bind_eq_some_iff, Store.goes, State.step, map_map,
      map_eq_some_iff, Function.comp] at hs
    obtain ⟨⟨i, c'⟩, hg, ⟨i', c''⟩, hg', rfl⟩ := hs
    obtain ⟨rfl, rfl⟩ := Prod.mk.inj (Option.some.inj (hg.symm.trans hg'))
    refine h.of_job hok ⟨hk, ?_, hgot, hstored⟩
    simp [Job.At, Job.block]
  | bread i =>
    obtain ⟨t, ht, rfl⟩ := map_eq_some_iff.1 hs
    obtain ⟨-, hdata, hdev, hblock⟩ := h.ok.bread ht
    simp only [State.step, ite_none_right_eq_some, map_eq_some_iff] at ht
    obtain ⟨-, ⟨c', disk'⟩, -, rfl⟩ := ht
    exact h.of_job hok ⟨hk, ⟨⟨if_pos rfl, hdev, hblock⟩, hdata⟩, hgot, hstored⟩
  | memmove i =>
    obtain ⟨hl, hdata⟩ := hat
    simp only [Store.run] at hs
    split at hs
    · rename_i hw
      obtain ⟨t, ht, rfl⟩ := map_eq_some_iff.1 hs
      simp only [State.step, guard_eq_some] at ht
      obtain ⟨-, rfl⟩ := ht
      refine h.of_job hok ⟨hk, ⟨⟨hl.lock, ?_, ?_⟩, hw, ?_⟩, hgot, hstored⟩
      · rw [setBuf_buf]; exact hl.dev
      · rw [setBuf_buf]; exact hl.blockno
      · rw [setBuf_buf]; exact sameBlock_copy
    rename_i hw
    have hr : c.write = false := by simpa using hw
    cases hs
    have hrd : ∀ b, SameBlock (s.bio.stored 0 b) (lastStored disk s.calls b) := fun b =>
      by simpa only [Call.upTo_read hr] using hstored b
    refine h.of_job hok ⟨hk, ⟨hl.lock, hl.dev, hl.blockno⟩, ?_, fun b => ?_⟩
    · exact Call.Got.succ hgot fun o ho => by rw [hdata]; exact hrd _ o ho
    have hup : ∀ page n, Call.upTo disk s.calls { c with page := page } n b =
      lastStored disk s.calls b :=
      fun _ _ => Call.upTo_read hr
    rw [hup]
    exact hrd b
  | bwrite i =>
    obtain ⟨hl, hw, hdata⟩ := hat
    obtain ⟨t, ht, rfl⟩ := map_eq_some_iff.1 hs
    simp only [State.step, ite_none_right_eq_some, map_eq_some_iff] at ht
    obtain ⟨-, ⟨c', disk'⟩, hbw, rfl⟩ := ht
    obtain ⟨-, rfl, -⟩ := bwrite_spec hbw
    refine h.of_job hok ⟨hk, ⟨hl.lock, ?_, ?_⟩, ?_, fun b => ?_⟩
    · rw [setBuf_buf]; exact hl.dev
    · rw [setBuf_buf]; exact hl.blockno
    · exact fun hr => absurd (hw.symm.trans hr) (by decide)
    · have := Call.upTo_succ hw hstored hdata b
      simp only [State.store, hl.dev, hl.blockno, upd, if_true]
      exact this
  | brelse i =>
    obtain ⟨t, ht, rfl⟩ := map_eq_some_iff.1 hs
    simp only [State.step, guard_eq_some] at ht
    obtain ⟨-, rfl⟩ := ht
    refine h.of_job hok ⟨hk, ⟨hat.dev, ?_⟩, hgot, hstored⟩
    simp
  | drop i =>
    simp only [Store.run, Store.goes, map_map, map_eq_some_iff, Function.comp] at hs
    obtain ⟨t, ht, rfl⟩ := hs
    simp only [State.step, guard_eq_some] at ht
    obtain ⟨-, rfl⟩ := ht
    split at hok
    · rename_i hk8
      have hk7 : k = 7 := by omega
      subst hk7
      rw [if_pos rfl]
      refine ⟨hok, (by simp), fun _ b => hstored b, fun c' cs' hc => ?_⟩
      rcases List.suffix_cons_iff.1 hc with heq | hc
      · cases heq
        exact hgot
      · exact h.calls c' cs' hc
    · rename_i hk8
      rw [if_neg hk8]
      exact h.of_job hok ⟨by simp only at hk ⊢; omega, trivial, hgot, hstored⟩

theorem Store.Inv.step {a : Act P} (h : s.Inv disk) (hs : s.step a = some s') : s'.Inv disk := by
  cases a with
  | start p c =>
    simp only [Store.step, guard_eq_some, isNone_iff_eq_none] at hs
    obtain ⟨⟨hnone, -⟩, rfl⟩ := hs
    refine h.of_job h.ok
      ⟨(by decide : 0 < 8), trivial, fun _ k hk => absurd hk (by simp [Job.done]), fun b => ?_⟩
    exact (Call.upTo_zero (c := c)).symm ▸ h.idle hnone b
  | run =>
    obtain ⟨j, hj, hs⟩ := bind_eq_some_iff.1 hs
    exact h.run hj hs
  | other e =>
    simp only [Store.step, ite_none_right_eq_some, map_eq_some_iff] at hs
    obtain ⟨hon, t, ht, rfl⟩ := hs
    have hk := h.ok.kept hon ht (by decide : 0 ≠ 1)
    refine ⟨h.ok.step ht (hon.real (by decide)), fun j hj => ?_, fun hnone b => ?_, h.calls⟩
    · obtain ⟨h1, hat, hgot, hstored⟩ := h.job j hj
      exact ⟨h1, hat.kept h.ok hk, hgot, fun b => hk.stored ▸ hstored b⟩
    · rw [hk.stored]
      exact h.idle hnone b

omit [DecidableEq P] in
theorem Store.init_inv (disk : Disks) : (Store.init disk : Store P).Inv (disk 0) :=
  ⟨init_ok disk, nofun, fun _ _ _ _ => rfl, fun c cs h => by simpa [Store.init] using h.length_le⟩

theorem lastStored_append {l : List Call} (h : ∀ c ∈ l, ¬ c.Covers b) :
    lastStored disk (l ++ cs) b = lastStored disk cs b := by
  induction l with
  | nil => rfl
  | cons c l ih =>
    rw [List.cons_append, lastStored, if_neg (h c List.mem_cons_self), ih fun c' hc' =>
      h c' (List.mem_cons_of_mem _ hc')]

/-- The page of a `swapwrite`, after calls with other blocks. -/
theorem lastStored_page {l : List Call} {c : Call} {k : ℕ} (hk : k < 8) (hw : c.write = true)
    (hl : ∀ d ∈ l, d.write = true → d.blkno + 8 ≤ c.blkno ∨ c.blkno + 8 ≤ d.blkno) :
    lastStored disk (l ++ c :: cs) (swapBase.toNat + c.blkno + k) = pageBlock c.page k := by
  have hout : ∀ d ∈ l, ¬ d.Covers (swapBase.toNat + c.blkno + k) := fun d hd ⟨hdw, h1, h2⟩ => by
    have := hl d hd hdw
    omega
  rw [lastStored_append hout, lastStored, if_pos ⟨hw, by omega, by omega⟩]
  congr 1
  omega

/-- **The swap store.**  In every run, whatever is done with device 1 meanwhile: the blocks that a
`swapread` has returned are those that the last `swapwrite` before it stored there, or those of the
disk; so it returns the page of a `swapwrite` with the same block number, unless one with a block
number less than 8 away came between them; and the calls change nothing of device 1. -/
theorem swap_store {disk : Disks} {as : List (Act P)}
    (hrun : (Store.system P).Run (Store.init disk) as s) :
    (∀ c cs, c :: cs <:+ s.calls → c.write = false → ∀ k < 8,
      SameBlock (pageBlock c.page k) (lastStored (disk 0) cs (swapBase.toNat + c.blkno + k))) ∧
    (∀ c l c' cs, c :: l ++ c' :: cs <:+ s.calls → c.write = false → c'.write = true →
      c'.blkno = c.blkno →
      (∀ d ∈ l, d.write = true → d.blkno + 8 ≤ c.blkno ∨ c.blkno + 8 ≤ d.blkno) →
      ∀ o < 4096, c.page o = c'.page o) ∧
    ∀ a s', s.step a = some s' → (∀ e, a ≠ .other e) →
      s'.bio.stored 1 = s.bio.stored 1 ∧ s'.bio.disk 1 = s.bio.disk 1 := by
  have h : s.Inv (disk 0) := hrun.invariant (Store.init_inv disk) fun _ _ _ hi hs => hi.step hs
  refine ⟨h.calls, fun c l c' cs hc hr hw heq hl o ho => ?_, fun a s' hs ha => ?_⟩
  · have hk : o / bsize < 8 := by simp only [bsize]; omega
    have hgot := h.calls c (l ++ c' :: cs) hc hr (o / bsize) hk (o % bsize)
      (Nat.mod_lt _ (by decide))
    rw [← heq, lastStored_page hk hw (heq.symm ▸ hl)] at hgot
    simpa only [pageBlock, Bytes.drop, Nat.div_add_mod'] using hgot
  cases a with
  | start p c =>
    simp only [Store.step, guard_eq_some] at hs
    obtain ⟨-, rfl⟩ := hs
    exact ⟨rfl, rfl⟩
  | run =>
    obtain ⟨j, hj, hs⟩ := bind_eq_some_iff.1 hs
    rcases Store.run_on h hj hs with heq | ⟨e, he, hon⟩
    · rw [heq]
      exact ⟨rfl, rfl⟩
    · have hk := h.ok.kept hon he (by decide : 1 ≠ 0)
      exact ⟨hk.stored, hk.disk⟩
  | other e => exact absurd rfl (ha e)

/-- A page of ones is written and read, while block 1 of device 1 is read. -/
def swapOnes : List (Act Unit) :=
  .start () ⟨true, 0, fun _ => 1⟩ :: List.replicate 48 .run ++
    [.other (.get () 1 1), .start () ⟨false, 0, Bytes.zero⟩] ++ List.replicate 40 .run

theorem swap_store_ones : ∃ s : Store Unit,
    (Store.system Unit).Run (Store.init fun _ _ => Bytes.zero) swapOnes s ∧
    ∃ c c', s.calls = [c, c'] ∧ c.write = false ∧ c'.page 0 = 1 ∧
    ∀ o < 4096, c.page o = c'.page o := by
  have hex : ((LTS.exec Store.step (Store.init fun _ _ => Bytes.zero : Store Unit) swapOnes).map
    fun s =>
      s.calls.map fun c => (c.write, c.blkno, c.page 0)) = some [(false, 0, 1), (true, 0, 1)] := by
    decide +kernel
  obtain ⟨s, hs, hcalls⟩ := map_eq_some_iff.1 hex
  have hrun := LTS.run_of_exec hs
  obtain ⟨c, l, hc, h₁, hl⟩ := List.map_eq_cons_iff.1 hcalls
  obtain ⟨c', l', rfl, h₂, hl'⟩ := List.map_eq_cons_iff.1 hl
  obtain rfl := List.map_eq_nil_iff.1 hl'
  simp only [Prod.mk.injEq] at h₁ h₂
  exact ⟨s, hrun, c, c', hc, h₁.1, h₂.2.2, (swap_store hrun).2.1 c [] c' []
    (hc ▸ List.suffix_rfl) h₁.1 h₂.1 (h₂.2.1.trans h₁.2.1.symm) nofun⟩

end Inv

end Bio

end Xv6
