import Mathlib.Algebra.Order.BigOperators.Group.Finset
import Mathlib.Algebra.Order.BigOperators.Group.List
import Mathlib.Data.List.GetD
import Xv6.Fs.Runs

/-!
# Several writers on one file

`filewrite` writes a buffer in chunks, each in a transaction of its own; between two chunks it gives
up the lock of the inode, so the chunks of several processes that share the file may come in any
order.

* `Ready.chunk` : one chunk, run alone, is written at the offset of the file and moves it, unless
  the file would be too large or the disk is full.
* `Writers.system` : any number of calls by any processes, interleaved chunk by chunk, with other
  processes doing anything that leaves the inode and the offset alone; `Writers.filewrite_rounds`
  connects it to `filewrite`.
* `filewrite_shared` : the chunks stand one behind the other, and no call fails, as long as there
  are free blocks.
* `filewrite_budget` : no transaction logs more than `MAXOPBLOCKS` blocks, so none is ever too big
  for the log.
-/

namespace Xv6

open List Function

namespace Bytes

/-- The bytes of a list. -/
def ofList (l : List UInt8) : Bytes := fun k => l.getD k 0

end Bytes

namespace Node

variable {x : Node} {src src' : Bytes} {l : List UInt8} {off n : ℕ}

theorem write_congr (h : ∀ k < n, src k = src' k) : x.write src off n = x.write src' off n := by
  have hdata : x.data.copy off n src = x.data.copy off n src' := by
    funext k
    by_cases hk : off ≤ k ∧ k < off + n
    · rw [Bytes.copy_of_mem hk.1 hk.2, Bytes.copy_of_mem hk.1 hk.2, h _ (by omega)]
    · rw [Bytes.copy_of_not_mem (by omega), Bytes.copy_of_not_mem (by omega)]
  rw [write, write, hdata]

theorem write_write : (x.write (.ofList l) off l.length).write src (off + l.length) n =
    x.write (.ofList (l ++ (List.range n).map src)) off (l ++ (List.range n).map src).length := by
  have hlen : (l ++ (List.range n).map src).length = l.length + n := by simp
  have hdata : (x.data.copy off l.length (.ofList l)).copy (off + l.length) n src =
      x.data.copy off (l.length + n) (.ofList (l ++ (List.range n).map src)) := by
    funext k
    by_cases h1 : off + l.length ≤ k ∧ k < off + l.length + n
    · have hk : k - off - l.length < n := by omega
      rw [Bytes.copy_of_mem h1.1 h1.2, Bytes.copy_of_mem (by omega) (by omega), Bytes.ofList,
        getD_append_right _ _ _ _ (by omega), ← Nat.sub_sub]
      simp [getD_eq_getElem?_getD, hk]
    rw [Bytes.copy_of_not_mem (by omega)]
    by_cases h2 : off ≤ k ∧ k < off + l.length
    · rw [Bytes.copy_of_mem h2.1 h2.2, Bytes.copy_of_mem h2.1 (by omega), Bytes.ofList,
        Bytes.ofList, getD_append _ _ _ _ (by omega)]
    · rw [Bytes.copy_of_not_mem (by omega), Bytes.copy_of_not_mem (by omega)]
  rw [hlen]
  simp only [write, hdata]
  congr 1
  omega

end Node

namespace Fs

variable {p i f n : ℕ} {s : State} {addr : Bytes}

/-! ### One chunk -/

section Total

variable {E : Halt ℕ Panic → State → Prop} {Q : Unit → State → Prop}

theorem beginOp_total (hlh : s.1.store.lh = []) (ho : s.1.store.outstanding = 0)
    (hQ : Q () ({ s.1 with store := { s.1.store with outstanding := 1 } }, s.2)) :
    wp (beginOp.seq p) Q E s := by
  rw [beginOp, Prog.wp_await, hlh, ho, if_neg (by decide)]
  exact hQ

theorem ilock_total (hr : 0 < (s.1.icache i).ref) (hv : (s.1.icache i).valid = true)
    (hl : s.2 i = none) (hQ : Q () (s.1, upd s.2 i (some p))) : wp ((ilock i).seq p) Q E s := by
  rw [ilock, Prog.seq_bind, wp_bind]
  refine Prog.wp_lift.2 ?_
  rw [checkRef, wp_bind, wp_get, if_neg (by omega), wp_pure, Prog.seq_bind, wp_bind,
    Prog.wp_lock, if_pos hl]
  refine Prog.wp_lift.2 ?_
  rw [load, wp_bind, wp_get, if_pos hv, wp_pure]
  exact hQ

theorem iunlock_total (hr : 0 < (s.1.icache i).ref) (hl : s.2 i = some p)
    (hQ : Q () (s.1, upd s.2 i none)) :
    wp ((iunlock i).seq p) Q E s := by
  rw [iunlock, Prog.seq_bind, wp_bind, Prog.wp_holds, hl, decide_eq_true rfl, if_pos rfl,
    Prog.seq_bind, wp_bind]
  refine Prog.wp_lift.2 ?_
  rw [checkRef, wp_bind, wp_get, if_neg (by omega), wp_pure, Prog.wp_unlock]
  exact hQ

theorem endOp_total (ho : s.1.store.outstanding = 1)
    (hQ : Q () ({ s.1 with
      store := { s.1.store with outstanding := 0, lh := [] }, txns := s.1.txns ++ [s.1.store.lh] },
      s.2)) :
    wp (Prog.seq p (liftM endOp : FsP Unit)) Q E s := by
  refine Prog.wp_lift.2 ?_
  rw [endOp, wp_modify, if_pos (by rw [ho])]
  exact hQ

end Total

/-- The file behind slot `i`. -/
def file (i : ℕ) (s : State) : Node := s.1.nodes (s.1.inode i).inum

/-- The offset of file `f`. -/
def off (f : ℕ) (s : State) : ℕ := (s.1.ftable f).off

/-- Between two transactions, with the regular file in slot `i` open for writing as `f`. -/
structure Ready (f i : ℕ) (s : State) : Prop where
  idle : Idle s.1
  writes : Writes f i s.1
  log : s.1.store.lh = []
  logsize : s.1.store.logsize = logSize
  type : (file i s).type = tFile
  lock : s.2 i = none
  off_le : off f s ≤ (file i s).size

/-- The blocks that a write to a file of `size` bytes needs. -/
def needs (size off n : ℕ) : ℕ :=
  Store.nblk (blocksOf (max size (off + n))) - Store.nblk (blocksOf size)

/-- The slot of the open file is in use and has been read. -/
theorem Ready.slot (h : Ready f i s) : 0 < (s.1.icache i).ref ∧ (s.1.icache i).valid = true := by
  rw [← h.writes.ip]
  exact ⟨h.idle.wf.ref_of_file h.writes.type, h.idle.wf.file_valid f h.writes.type⟩

theorem Ready.size_le (h : Ready f i s) : (file i s).size ≤ maxfile * bsize := by
  obtain ⟨hr, hv⟩ := h.slot
  have hle := (h.idle.wf.ok.mid (h.idle.wf.copy i hr hv)).shaped.le
  rw [blocksOf_le_iff, (h.idle.wf.inode_eq hr hv).2.2] at hle
  exact hle

/-- The blocks that a chunk changes: data, the free map, and the two of the inode. -/
theorem chunk_blocks (size off : ℕ) (hoff : off ≤ size) (hn : n ≤ maxChunk) :
    Store.touched off n + needs size off n + 2 ≤ maxOpBlocks := by
  have hle : ∀ c, c ≤ Store.nblk c ∧ Store.nblk c ≤ c + 1 := fun c => by
    unfold Store.nblk; split_ifs <;> omega
  have h1 := hle (blocksOf (max size (off + n)))
  have h2 := hle (blocksOf size)
  have hblocks : blocksOf (max size (off + n)) ≤ blocksOf size + 3 := by
    simp only [blocksOf, bsize, maxChunk, maxOpBlocks] at *
    omega
  have htouched : Store.touched off n ≤ 4 := by
    simp only [Store.touched, blocksOf, bsize, maxChunk, maxOpBlocks] at *
    split_ifs <;> omega
  simp only [needs, maxOpBlocks]
  omega

theorem writei_chunk {st : Store} {ip : Inode} {src : Bytes} {off : ℕ} (hok : st.Ok)
    (hc : st.Copy ip) (hd : ip.type ≠ tDev) (hoff : off ≤ ip.size) (hn : n ≤ maxChunk)
    (ho : st.outstanding = 1) (hlh : st.lh = []) (hls : st.logsize = logSize) :
    wp (Store.writei ip src off n)
    (fun r st' => (st'.lh.Nodup ∧ st'.lh.length ≤ maxOpBlocks) ∧ st.Keeps st' ∧
        r.2.inum = ip.inum ∧ (r.1 = some n ∧ (st.nodes ip.inum).Writable off n ∧
          st'.nodes ip.inum = (st.nodes ip.inum).write src off n ∨
        r.1 = none ∧ ¬(st.nodes ip.inum).Writable off n ∧ st'.nodes ip.inum = st.nodes ip.inum))
      (fun e st' => e = .outOfBlocks ∧ st'.lh.length ≤ maxOpBlocks ∧
        st.free < needs ip.size off n) st := by
  have hnodup : st.lh.Nodup := hlh ▸ nodup_nil
  have hfit := chunk_blocks ip.size off hoff hn
  have hblocks : ∀ {st' : Store} {I : List ℕ}, I.length ≤ 1 →
      st.Logs (Store.touched off n) (needs ip.size off n) (st.sb.iblock ip.inum :: I) st' →
      st'.lh.length ≤ maxOpBlocks := fun {st' I} hI hl => by
    have hlen := hl.length_le hnodup
    rw [hlh, length_nil, length_cons] at hlen
    omega
  by_cases hw : (st.nodes ip.inum).Writable off n
  · refine wp_mono (Store.writei_spec hok hc hd hw) (fun r st' hres => ?_) fun e st' hf => ?_
    · obtain ⟨hr, hwr⟩ := hres
      obtain ⟨I, hI, hl⟩ := hwr.logs
      refine ⟨⟨hl.nodup hnodup, hblocks hI hl⟩, hwr.toKeeps, hwr.inum_eq, .inl ⟨hr, hw, ?_⟩⟩
      rw [hwr.nodes, update_self]
    obtain ⟨I, hI, hl⟩ := hf.logs
    have hlen := hblocks hI hl
    refine ⟨?_, hlen, ?_⟩
    · cases hf.fails with
      | tooBig hfull =>
        rw [Store.Full, hf.logsize, hls] at hfull
        simp only [logSize, maxOpBlocks] at hlen hfull
        omega
      | outside hout => exact absurd hout (by rw [hf.outstanding, ho]; decide)
      | outOfBlocks => rfl
    · by_contra hfree
      refine Store.Room.not_fails ⟨by omega, hnodup, ?_, not_lt.1 hfree⟩ hf
      rw [hlh, hls, length_nil, zero_add]
      exact hfit.trans_lt (by decide)
  · unfold wp
    rw [Store.writei_out hc hd hw]
    exact ⟨⟨hnodup, by rw [hlh]; exact zero_le⟩, .refl, rfl, .inr ⟨rfl, hw, rfl⟩⟩

/-- The transactions between two states log at most `MAXOPBLOCKS` blocks each, none of them
twice. -/
def InBudget (s s' : Fs) : Prop := ∃ ts, s'.txns = s.txns ++ ts ∧ ∀ t ∈ ts, t.Nodup ∧
    t.length ≤ maxOpBlocks

theorem InBudget.of_eq {s s' : Fs} (h : s'.txns = s.txns) : InBudget s s' :=
  ⟨[], h.trans (append_nil _).symm, by simp⟩

theorem InBudget.trans {s s' s'' : Fs} (h : InBudget s s') (h' : InBudget s' s'') :
    InBudget s s'' := by
  obtain ⟨ts, heq, hts⟩ := h
  obtain ⟨ts', heq', hts'⟩ := h'
  refine ⟨ts ++ ts', by rw [heq', heq, append_assoc], fun t ht => ?_⟩
  exact (mem_append.1 ht).elim (hts t) (hts' t)

/-- A panic for lack of blocks, with no more in the log than a transaction may have. -/
structure Starves (s : Fs) (e : Halt ℕ Panic) (s' : Fs) : Prop where
  panic : e = .error .outOfBlocks
  budget : InBudget s s'
  lh : s'.store.lh.length ≤ maxOpBlocks

/-- The body of the loop of `filewrite`, from `begin_op` to `end_op`. -/
theorem Ready.chunk_total (addr : Bytes) (h : Ready f i s) (hn : n ≤ maxChunk) :
    wp ((Fs.writeChunk f i addr n).seq p) (fun r s' => InBudget s.1 s'.1 ∧ s'.1.store.lh = [] ∧
      s'.1.store.logsize = logSize ∧ s'.2 i = none ∧ off f s' = off f s + r.getD 0 ∧
      (r = some n ∧ file i s' = (file i s).write addr (off f s) n ∨
        r = none ∧ ¬(file i s).Writable (off f s) n ∧ file i s' = file i s))
      (fun e s' => Starves s.1 e s'.1 ∧ s.1.store.free < needs (file i s).size (off f s) n) s := by
  obtain ⟨hr, hv⟩ := h.slot
  obtain ⟨htype, -, hsize⟩ := h.idle.wf.inode_eq hr hv
  have hdev : (s.1.inode i).type ≠ tDev := by
    rw [htype, show (s.1.nodes (s.1.inode i).inum).type = tFile from h.type]
    decide
  -- The state inside the transaction.
  obtain ⟨s₁, hs1⟩ : ∃ s₁ : Fs, s₁ = { s.1 with store := { s.1.store with outstanding := 1 } } :=
    ⟨_, rfl⟩
  have hw1 : Wf ⟨0, 0, s.1.proc⟩ s₁ := hs1 ▸ h.idle.wf.setLog 1 s.1.store.lh s.1.txns
  have hic : s₁.icache = s.1.icache := by rw [hs1]
  have hino : s₁.inode i = s.1.inode i := by rw [inode, hic, inode]
  have hwp := @writei_chunk n s₁.store (s₁.inode i) addr (off f s) hw1.ok
    (hw1.copy i (by rwa [hic]) (by rwa [hic])) (by rwa [hino]) (by rw [hino, hsize]; exact h.off_le)
    hn (by rw [hs1]) (by rw [hs1]; exact h.log) (by rw [hs1]; exact h.logsize)
  rw [hino, show s₁.store.nodes (s.1.inode i).inum = file i s by rw [hs1]; rfl,
    show (s.1.inode i).size = (file i s).size from hsize, show s₁.store.free = s.1.store.free by
      rw [hs1]; rfl] at hwp
  unfold Fs.writeChunk
  rw [Prog.seq_bind, wp_bind]
  refine beginOp_total h.log h.idle.out ?_
  rw [← hs1, Prog.seq_bind, wp_bind]
  refine ilock_total (by rwa [hic]) (by rwa [hic]) h.lock ?_
  rw [Prog.seq_bind, wp_bind]
  refine Prog.wp_lift.2 ?_
  rw [wp_bind, wp_get, wp_bind, wp_onInode, show (s₁.ftable f).off = off f s by rw [hs1]; rfl, hino]
  refine wp_mono hwp (fun r st hres => ?_) fun e st hres => ?_
  · obtain ⟨ret, ip⟩ := r
    obtain ⟨hlh, hkeeps, hinum, hret⟩ := hres
    have hinum' : ((s₁.put i st ip).inode i).inum = (s.1.inode i).inum := by
      simpa [put, setSlot, inode] using hinum
    have href : 0 < ((s₁.put i st ip).icache i).ref := by simpa [put, setSlot, hic] using hr
    have hput : (s₁.put i st ip).ftable = s.1.ftable := by rw [hs1]; rfl
    have htx : (s₁.put i st ip).txns = s.1.txns := by rw [hs1]; rfl
    have hst : (s₁.put i st ip).store = st := rfl
    generalize s₁.put i st ip = s₂ at hinum' href hput htx hst
    subst hst
    rw [wp_bind, advance, wp_modify, wp_pure, Prog.seq_bind, wp_bind]
    refine iunlock_total href (by simp) ?_
    rw [Prog.seq_bind, wp_bind]
    refine endOp_total (hkeeps.outstanding.trans (by rw [hs1])) ?_
    rw [Prog.seq_pure, wp_pure]
    refine ⟨⟨[s₂.store.lh], by rw [← htx]; rfl, fun t ht => ?_⟩, rfl, ?_, by simp, ?_, ?_⟩
    · rw [mem_singleton.1 ht]
      exact hlh
    · exact hkeeps.logsize.trans (by rw [hs1]; exact h.logsize)
    · simp only [off, setFile, upd_eq_update, update_self, hput]
      have hlt : off f s + ret.getD 0 < 2 ^ 32 := by
        rcases hret with ⟨rfl, hw, -⟩ | ⟨rfl, -, -⟩
        · exact hw.2.trans_lt (by decide)
        · exact (h.off_le.trans h.size_le).trans_lt (by decide)
      exact Nat.mod_eq_of_lt hlt
    · have hfile : ∀ x, s₂.store.nodes (s.1.inode i).inum = x → s₂.nodes (s₂.inode i).inum = x :=
        fun x hx => by
        rw [hinum']
        exact hx
      exact hret.imp (fun hw => ⟨hw.1, hfile _ hw.2.2⟩) fun hw => ⟨hw.1, hw.2.1, hfile _ hw.2.2⟩
  · obtain ⟨rfl, hlh, hfree⟩ := hres
    exact ⟨⟨rfl, .of_eq (by rw [hs1]), hlh⟩, hfree⟩

theorem Ready.chunk (addr : Bytes) (h : Ready f i s) (hn : n ≤ maxChunk) :
    wp ((Fs.writeChunk f i addr n).seq p) (fun r s' => InBudget s.1 s'.1 ∧ Ready f i s' ∧
        (r = some n ∧ file i s' = (file i s).write addr (off f s) n ∧ off f s' = off f s + n ∨
          r = none ∧ ¬(file i s).Writable (off f s) n))
      (fun e s' => Starves s.1 e s'.1 ∧ s.1.store.free < needs (file i s).size (off f s) n) s := by
  have hdoes : does p (Fs.writeChunk f i addr n) (fun _ s' => Idle s' ∧ Writes f i s') s.1 :=
    writeChunk_does h.idle h.writes
  refine wp_mono (wp_and (h.chunk_total addr hn) wp_eq) (fun r s' hres => ?_) fun _ _ he => he.1
  obtain ⟨⟨hb, hlh, hls, hl, ho, hr⟩, heq⟩ := hres
  obtain ⟨hidle, hwr⟩ := (hdoes s.2).2.ok heq
  rcases hr with ⟨rfl, hfile⟩ | ⟨rfl, hw, hfile⟩
  · refine ⟨hb, ⟨hidle, hwr, hlh, hls, hfile ▸ h.type, hl, ?_⟩, .inl ⟨rfl, hfile, ho⟩⟩
    rw [ho, hfile]
    exact le_max_right _ _
  · refine ⟨hb, ⟨hidle, hwr, hlh, hls, hfile ▸ h.type, hl, ?_⟩, .inr ⟨rfl, hw⟩⟩
    rw [ho, hfile]
    exact h.off_le

/-- A chunk that there is room for is written at the offset of the file, which advances by its
length. -/
theorem Ready.writeChunk (addr : Bytes) (h : Ready f i s) (hn : n ≤ maxChunk)
    (hmax : off f s + n ≤ maxfile * bsize)
    (hfree : needs (file i s).size (off f s) n ≤ s.1.store.free) :
    ∃ s', (writeChunk f i addr n).seq p s = .ok (some n) s' ∧ Ready f i s' ∧
      file i s' = (file i s).write addr (off f s) n ∧ off f s' = off f s + n := by
  obtain ⟨r, s', heq, -, hready, hres⟩ :=
    (wp_mono (h.chunk (p := p) addr hn) (fun _ _ => id) fun _ _ he =>
        absurd hfree (not_le.2 he.2)).exists_ok
  rcases hres with ⟨rfl, hres⟩ | ⟨-, hw⟩
  · exact ⟨s', heq, hready, hres⟩
  · exact absurd ⟨h.off_le, hmax⟩ hw

/-! ### The writers -/

/-- A call of `filewrite` that is under way: `i` bytes are written. -/
structure Writing where
  addr : Bytes
  n : ℕ
  i : ℕ

/-- The bytes that are still to be written. -/
def Writing.rest (c : Writing) : List UInt8 := (List.range (c.n - c.i)).map (c.addr.drop c.i)

/-- The length of the next chunk. -/
def Writing.next (c : Writing) : ℕ := min (c.n - c.i) maxChunk

/-- The processes that write to the file, between two chunks.  The last three fields are history:
the calls that were made, with the process and the bytes; the chunks that were written; and for each
call that has returned the length and the result. -/
structure Writers where
  state : State
  call : ℕ → Option Writing
  calls : List (ℕ × List UInt8)
  chunks : List (ℕ × List UInt8)
  returned : List (ℕ × ℤ)

namespace Writers

/-- A call returns. -/
def finish (w : Writers) (p : ℕ) (c : Writing) : Writers :=
  { w with call := upd w.call p none, returned := w.returned ++ [(c.n, if c.i = c.n then (c.n : ℤ)
      else -1)] }

/-- A call has begun. -/
def entered (w : Writers) (p : ℕ) (addr : Bytes) (n : ℕ) : Writers :=
  { w with call := upd w.call p (some
      ⟨addr, n, 0⟩), calls := w.calls ++ [(p, (List.range n).map addr)] }

/-- A chunk of `r` bytes has been written. -/
def wrote (w : Writers) (p : ℕ) (c : Writing) (r : ℕ) (s : State) : Writers :=
  { w with
    state := s
    call := upd w.call p (some { c with i := c.i + r })
    chunks := w.chunks ++ [(p, (List.range r).map (c.addr.drop c.i))] }

/-- Process `p` calls `filewrite`. -/
def enter (f p : ℕ) (addr : Bytes) (n : ℕ) (w : Writers) : Option Writers :=
  let file := w.state.1.ftable f
  if !file.writable then
    some { w with
        calls := w.calls ++ [(p, (List.range n).map addr)], returned := w.returned ++ [(n, -1)] }
  else match file.type with
    | .none | .pipe => none
    | .inode => some (w.entered p addr n)

/-- One round of the loop of `filewrite` in process `p`; none if it panics. -/
def round (f p : ℕ) (w : Writers) : Option Writers :=
  match w.call p with
  | none => none
  | some c =>
    if c.n ≤ c.i then some (w.finish p c)
    else match (writeChunk f (w.state.1.ftable f).ip (c.addr.drop c.i) c.next).seq p w.state with
      | .error _ _ => none
      | .ok none s => some ({ w with state := s }.finish p c)
      | .ok (some r) s => if r ≠ c.next then none else some (w.wrote p c r s)

/-- What happens next. -/
inductive Label
  | enter (p : ℕ) (addr : Bytes) (n : ℕ)
  | round (p : ℕ)
  /-- Other processes have changed the state. -/
  | other (s : State)

/-- The step of the writers. -/
def step (f : ℕ) (w : Writers) : Label → Option Writers
  | .enter p addr n => if (w.call p).isNone then w.enter f p addr n else none
  | .round p => w.round f p
  | .other s => some { w with state := s }

/-- The writers of file `f`. -/
def system (f : ℕ) : LTS Writers Label := .ofFun (step f)

/-- The bytes in a history. -/
def bytes (l : List (ℕ × List UInt8)) : List UInt8 := l.flatMap Prod.snd

/-- The bytes of process `p` in a history. -/
def ofProc (p : ℕ) (l : List (ℕ × List UInt8)) : List UInt8 := bytes (l.filter fun x => x.1 = p)

/-- The runs in question, from offset `base`: the calls do not go beyond the largest file, there are
free blocks for every chunk, and nobody else writes the inode or moves the offset. -/
def Allowed (f i base : ℕ) (w : Writers) : Label → Prop
  | .enter _ _ n => base + (bytes w.calls).length + n ≤ maxfile * bsize
  | .round p =>
    ∀ c, w.call p = some c → needs (file i w.state).size (off f w.state) c.next ≤
      w.state.1.store.free
  | .other s => Ready f i s ∧ file i s = file i w.state ∧ off f s = off f w.state

/-- What was written where, when the file was `x` and its offset `base` at first. -/
structure Inv (f i base : ℕ) (x : Node) (w : Writers) : Prop where
  ready : Ready f i w.state
  file_eq : file i w.state = x.write (Bytes.ofList (bytes w.chunks)) base (bytes w.chunks).length
  off_eq : off f w.state = base + (bytes w.chunks).length
  limit : base + (bytes w.calls).length ≤ maxfile * bsize
  order : ∀ p, ofProc p w.chunks ++ (w.call p).elim [] Writing.rest = ofProc p w.calls
  short : ∀ c ∈ w.chunks, c.2.length ≤ maxChunk
  progress : ∀ p c, w.call p = some c → c.i ≤ c.n
  returned : ∀ r ∈ w.returned, r.2 = r.1

/-! ### Histories -/

section Histories

variable {l l' : List (ℕ × List UInt8)} {b : List UInt8}

theorem bytes_append_single : bytes (l ++ [(p, b)]) = bytes l ++ b := by simp [bytes]

theorem ofProc_append_self : ofProc p (l ++ [(p, b)]) = ofProc p l ++ b := by simp [ofProc, bytes]

theorem ofProc_append_of_ne {q : ℕ} (h : q ≠ p) : ofProc q (l ++ [(p, b)]) = ofProc q l := by
  simp [ofProc, bytes, Ne.symm h]

theorem ofProc_cons (x : ℕ × List UInt8) (l : List (ℕ × List UInt8)) (q : ℕ) :
    ofProc q (x :: l) = (if q = x.1 then x.2 else []) ++ ofProc q l := by
  by_cases hq : q = x.1
  · simp [ofProc, bytes, hq]
  · simp [ofProc, bytes, hq, Ne.symm hq]

theorem bytes_eq_ofProc (h : ∀ q, q ≠ p → ofProc q l = []) : bytes l = ofProc p l := by
  induction l with
  | nil => rfl
  | cons x l ih =>
    have hl := ih fun q hq => (append_eq_nil_iff.1 ((ofProc_cons x l q).symm.trans (h q hq))).2
    rw [ofProc_cons, ← hl]
    by_cases hp : p = x.1
    · rw [if_pos hp]
      rfl
    have hx := (append_eq_nil_iff.1 ((ofProc_cons x l x.1).symm.trans (h x.1 (Ne.symm hp)))).1
    rw [if_pos rfl] at hx
    rw [if_neg hp]
    simp [bytes, hx]

theorem length_bytes_eq_sum {N : ℕ} (h : ∀ x ∈ l, x.1 < N) :
    (bytes l).length = ∑ p ∈ Finset.range N, (ofProc p l).length := by
  induction l with
  | nil => simp [ofProc, bytes]
  | cons x l ih =>
    have hx := h x (by simp)
    have hcons : ∀ p, (ofProc p (x :: l)).length =
        (if p = x.1 then x.2.length else 0) + (ofProc p l).length := by
      intro p
      rw [ofProc_cons, length_append]
      split_ifs <;> rfl
    simp only [hcons, Finset.sum_add_distrib, ← ih fun y hy => h y (by simp [hy])]
    simp [bytes, hx]

/-- If no process has more bytes in `l` than in `l'`, then `l` has no more bytes. -/
theorem length_bytes_le (h : ∀ p, (ofProc p l).length ≤ (ofProc p l').length) :
    (bytes l).length ≤ (bytes l').length := by
  obtain ⟨N, hN⟩ : ∃ N, ∀ x ∈ l ++ l', x.1 < N := by
    refine ⟨((l ++ l').map Prod.fst).sum + 1, fun x hx => ?_⟩
    have := single_le_sum (by simp) x.1 (mem_map.2 ⟨x, hx, rfl⟩)
    omega
  rw [length_bytes_eq_sum fun x hx => hN x (by simp [hx]), length_bytes_eq_sum fun x hx =>
    hN x (by simp [hx])]
  exact Finset.sum_le_sum fun p _ => h p

end Histories

/-! ### One step -/

variable {base : ℕ} {x : Node} {w w' : Writers} {c : Writing} {e : Label}

theorem next_le : c.next ≤ maxChunk := min_le_right _ _

theorem rest_of_le (h : c.n ≤ c.i) : c.rest = [] := by simp [Writing.rest, Nat.sub_eq_zero_of_le h]

theorem rest_eq (c : Writing) :
    (List.range c.next).map (c.addr.drop c.i) ++ { c with i := c.i + c.next }.rest = c.rest := by
  have hle : c.next ≤ c.n - c.i := min_le_left _ _
  refine ext_getElem (by simp [Writing.rest]; omega) fun k h1 h2 => ?_
  by_cases hk : k < c.next
  · rw [getElem_append_left (by simpa using hk)]
    simp [Writing.rest]
  rw [getElem_append_right (by simpa using hk)]
  simp only [Writing.rest, getElem_map, getElem_range, length_map, length_range, Bytes.drop_apply]
  congr 1
  omega

theorem Inv.enter (h : Inv f i base x w) (hp : w.call p = none) (addr : Bytes)
    (hn : base + (bytes w.calls).length + n ≤ maxfile * bsize) :
    ((system f).restrict (Allowed f i base)).step w (.enter p addr n) (w.entered p addr n) ∧
      Inv f i base x (w.entered p addr n) := by
  refine ⟨⟨?_, hn⟩, h.ready, h.file_eq, h.off_eq, ?_, fun q => ?_, h.short,
    upd_forall (F := fun _ o => ∀ d : Writing, o = some d → d.i ≤ d.n) ?_ fun q _ => h.progress q,
    h.returned⟩
  · show Writers.step f w _ = _
    simp [Writers.step, hp, Writers.enter, h.ready.writes.writable, h.ready.writes.type]
  · simp only [entered, bytes_append_single, length_append, length_map, length_range]
    omega
  · have hq := h.order q
    by_cases hqp : q = p
    · subst hqp
      rw [hp] at hq
      simp only [Option.elim_none, append_nil] at hq
      simp [entered, ofProc_append_self, hq, Writing.rest]
    · simpa [entered, ofProc_append_of_ne hqp, update_of_ne hqp] using hq
  · rintro d hd
    cases hd
    exact Nat.zero_le n

/-- A call that has written everything returns its length. -/
theorem Inv.finish (h : Inv f i base x w) (hc : w.call p = some c) (hle : c.n ≤ c.i) :
    step f w (.round p) =
    some { w with call := upd w.call p none, returned := w.returned ++ [(c.n, (c.n : ℤ))] } ∧
      Inv f i base x { w with
        call := upd w.call p none, returned := w.returned ++ [(c.n, (c.n : ℤ))] } := by
  have heq : c.i = c.n := le_antisymm (h.progress p c hc) hle
  refine ⟨?_, h.ready, h.file_eq, h.off_eq, h.limit, fun q => ?_, h.short,
    upd_forall (F := fun _ o => ∀ d : Writing, o = some d → d.i ≤ d.n) (by simp) fun q _ =>
    h.progress q, fun r hr => ?_⟩
  · simp only [Writers.step, round, hc, hle, ↓reduceIte, Writers.finish]
    rw [if_pos heq]
  · have hq := h.order q
    by_cases hqp : q = p
    · subst hqp
      rw [hc] at hq
      simpa [rest_of_le hle] using hq
    · simpa [update_of_ne hqp] using hq
  · rcases mem_append.1 hr with hr | hr
    · exact h.returned r hr
    · rw [mem_singleton.1 hr]

theorem Inv.chunk (h : Inv f i base x w) (hc : w.call p = some c) (hlt : ¬c.n ≤ c.i)
    (hfree : needs (file i w.state).size (off f w.state) c.next ≤ w.state.1.store.free) :
    ∃ s', ((system f).restrict (Allowed f i base)).step w (.round p) (w.wrote p c c.next s') ∧
      Inv f i base x (w.wrote p c c.next s') := by
  have horder : ∀ q, ofProc q (w.chunks ++ [(p, (List.range c.next).map (c.addr.drop c.i))]) ++
      (upd w.call p (some { c with i := c.i + c.next }) q).elim [] Writing.rest =
      ofProc q w.calls := by
    intro q
    have hq := h.order q
    by_cases hqp : q = p
    · subst hqp
      rw [hc, Option.elim_some, ← rest_eq c] at hq
      rw [ofProc_append_self, ← hq]
      simp
    · simpa [ofProc_append_of_ne hqp, update_of_ne hqp] using hq
  have hbytes : (bytes w.chunks).length + c.next ≤ (bytes w.calls).length := by
    have := length_bytes_le fun q => (horder q).symm ▸ length_append ▸ Nat.le_add_right _ _
    simpa [bytes_append_single] using this
  have hmax : off f w.state + c.next ≤ maxfile * bsize := by
    have := h.limit
    rw [h.off_eq]
    omega
  obtain ⟨s', hs', hready, hfile, hoff⟩ :=
    h.ready.writeChunk (p := p) (c.addr.drop c.i) next_le hmax hfree
  refine ⟨s', ⟨?_, fun d hd => Option.some.inj (hc.symm.trans hd) ▸ hfree⟩, hready, ?_, ?_, h.limit,
    horder, fun d hd => ?_, upd_forall (F := fun _ o => ∀ d : Writing, o = some d → d.i ≤ d.n) ?_
    fun q _ => h.progress q, h.returned⟩
  · show Writers.step f w _ = _
    simp only [Writers.step, round, hc, hlt, ↓reduceIte, h.ready.writes.ip, hs', ne_eq,
      not_true_eq_false]
  · simp only [wrote, hfile, h.off_eq, h.file_eq, Node.write_write, bytes_append_single]
  · simp [wrote, hoff, h.off_eq, bytes_append_single, add_assoc]
  · rcases mem_append.1 hd with hd | hd
    · exact h.short d hd
    · rw [mem_singleton.1 hd]
      simpa using next_le
  · rintro d hd
    cases hd
    have hle : c.next ≤ c.n - c.i := min_le_left _ _
    dsimp only
    omega

theorem round_of_ok {r : Option ℕ} (hc : w.call p = some c) (hlt : ¬c.n ≤ c.i)
    (he : (writeChunk f (w.state.1.ftable f).ip (c.addr.drop c.i) c.next).seq p w.state = .ok r s) :
    w.round f p = match r with
      | none => some ({ w with state := s }.finish p c)
      | some r => if r ≠ c.next then none else some (w.wrote p c r s) := by
  simp only [round, hc, hlt, ↓reduceIte, he]
  cases r <;> rfl

theorem run_finish {k : ℕ} {z : ℤ} (hc : w.call p = some ⟨addr, n, k⟩) (hk : n ≤ k)
    (hrun : Prog.seq p (pure (if k = n then (n : ℤ) else -1) : FsP ℤ) w.state = .ok z s) :
    ∃ ls w', (system f).Run w ls w' ∧ w'.state = s ∧ w'.returned = w.returned ++ [(n, z)] := by
  obtain ⟨rfl, rfl⟩ :=
    EStateM.Result.ok.inj (show EStateM.Result.ok _ w.state = EStateM.Result.ok z s from hrun)
  refine ⟨[.round p], w.finish p ⟨addr, n, k⟩, .single ?_, rfl, rfl⟩
  show Writers.round f p w = _
  simp only [round, hc, hk, ↓reduceIte]

/-- The loop of `filewrite`, run alone, is a sequence of rounds. -/
theorem filewriteLoop_rounds {fuel k : ℕ} {z : ℤ} (h : Idle w.state.1) (hf : Writes f i w.state.1)
    (hc : w.call p = some ⟨addr, n, k⟩) (hk : n ≤ k + fuel)
    (hrun : (filewriteLoop f i addr n fuel k).seq p w.state = .ok z s) :
    ∃ ls w', (system f).Run w ls w' ∧ w'.state = s ∧ w'.returned = w.returned ++ [(n, z)] := by
  induction fuel generalizing k w with
  | zero => exact run_finish hc hk hrun
  | succ fuel ih =>
    rw [filewriteLoop] at hrun
    by_cases hle : n ≤ k
    · rw [if_pos hle] at hrun
      exact run_finish hc hle hrun
    rw [if_neg hle, Prog.seq_bind] at hrun
    have hdoes : does p (writeChunk f i (addr.drop k) (min (n - k) maxChunk))
        (fun _ s' => Idle s' ∧ Writes f i s') w.state.1 := writeChunk_does h hf
    cases hw : (writeChunk f i (addr.drop k) (min (n - k) maxChunk)).seq p w.state with
    | error e s₁ =>
      simp only [bind, EStateM.bind, hw] at hrun
      cases hrun
    | ok r s₁ =>
    have hround := round_of_ok hc hle (by rwa [hf.ip])
    obtain ⟨h1, hf1⟩ := (hdoes w.state.2).2.ok hw
    rw [bind_ok hw] at hrun
    cases r with
    | none =>
      obtain ⟨rfl, rfl⟩ :=
        EStateM.Result.ok.inj (show EStateM.Result.ok _ s₁ = EStateM.Result.ok z s from hrun)
      exact ⟨[.round p], _, .single hround, rfl, rfl⟩
    | some r =>
    dsimp only at hrun hround
    by_cases hr : r = min (n - k) maxChunk
    · rw [if_neg (not_not.2 hr)] at hrun
      rw [if_neg (not_not.2 (show r = Writing.next ⟨addr, n, k⟩ from hr))] at hround
      have hpos : 0 < r := hr ▸ lt_min (by omega) (by decide)
      obtain ⟨ls, w', hls, hs, hret⟩ :=
        @ih (w.wrote p ⟨addr, n, k⟩ r s₁) (k + r) h1 hf1 (by simp [wrote]) (by omega) hrun
      exact ⟨.round p :: ls, w', .cons hround hls, hs, hret⟩
    · rw [if_pos hr] at hrun
      cases hrun

/-- **`filewrite`, run alone, is a run of the writers**: the call and its rounds. -/
theorem filewrite_rounds {z : ℤ} (h : Idle w.state.1) (hf : Writes f i w.state.1)
    (hp : w.call p = none) (hrun : (filewrite f addr n).seq p w.state = .ok z s) :
    ∃ ls w', (system f).Run w ls w' ∧ w'.state = s ∧ w'.returned = w.returned ++ [(n, z)] := by
  have hloop : (filewriteLoop f i addr n n 0).seq p w.state = .ok z s := by
    rw [← hrun, filewrite, Prog.seq_bind, ← hf.ip]
    show _ = (Prog.seq p (if _ then _ else _)) w.state
    rw [hf.writable, hf.type]
    rfl
  have henter : Writers.step f w (.enter p addr n) = some (w.entered p addr n) := by
    simp [Writers.step, hp, Writers.enter, hf.writable, hf.type]
  obtain ⟨ls, w', hls, hs, hret⟩ :=
    filewriteLoop_rounds (w := w.entered p addr n) h hf (by simp [entered]) (by omega) hloop
  exact ⟨.enter p addr n :: ls, w', .cons henter hls, hs, hret⟩

theorem round_of_error {e : Halt ℕ Panic} (hc : w.call p = some c) (hlt : ¬c.n ≤ c.i)
    (he : (writeChunk f (w.state.1.ftable f).ip (c.addr.drop c.i) c.next).seq p w.state =
      .error e s) :
    w.round f p = none := by
  simp only [round, hc, hlt, ↓reduceIte, he]

theorem Inv.step (h : Inv f i base x w) (hstep : step f w e = some w') (ha : Allowed f i base w e) :
    Inv f i base x w' := by
  cases e with
  | enter p addr n =>
    have hp : w.call p = none := by
      simp only [Writers.step, Option.isNone_iff_eq_none] at hstep
      split_ifs at hstep with hp
      exact hp
    obtain ⟨hw1, h1⟩ := h.enter hp addr ha
    obtain rfl := Option.some.inj (hw1.1.symm.trans hstep)
    exact h1
  | round p =>
    cases hc : w.call p with
    | none => simp [Writers.step, round, hc] at hstep
    | some c =>
      by_cases hle : c.n ≤ c.i
      · obtain ⟨hw1, h1⟩ := h.finish hc hle
        obtain rfl := Option.some.inj (hw1.symm.trans hstep)
        exact h1
      · obtain ⟨s', hw1, h1⟩ := h.chunk hc hle (ha c hc)
        obtain rfl := Option.some.inj (hw1.1.symm.trans hstep)
        exact h1
  | other s =>
    obtain ⟨hready, hfile, hoff⟩ := ha
    cases hstep
    exact ⟨hready, hfile.trans h.file_eq, hoff.trans h.off_eq, h.limit, h.order, h.short,
      h.progress, h.returned⟩

end Writers

open Writers in
theorem Ready.inv (h : Ready f i s) :
    Inv f i (off f s) (file i s) ⟨s, fun _ => none, [], [], []⟩ := by
  refine ⟨h, ?_, rfl, h.off_le.trans h.size_le, fun p => rfl, by simp, by simp, by simp⟩
  simp [bytes, Node.write, h.off_le]

open Writers in
/-- **Shared writes lose nothing.**  However the chunks of several writers are interleaved, they
stand one behind the other in the file, from the first offset on, in the order in which they were
written; each process writes the bytes of its calls in order; no call fails, and each returns its
length; and the offset ends behind the last of them.  A single call writes what one `writei` of the
whole buffer would. -/
theorem filewrite_shared {ls : List Label} {w : Writers} (h : Ready f i s)
    (hrun : ((Writers.system f).restrict (Allowed f i (off f s))).Run
      ⟨s, fun _ => none, [], [], []⟩ ls w) :
    off f w.state ≤ (file i w.state).size ∧
    off f w.state = off f s + (bytes w.chunks).length ∧
    (file i w.state).content = (file i s).content.take (off f s) ++ bytes w.chunks ++
      (file i s).content.drop (off f s + (bytes w.chunks).length) ∧
    (∀ c ∈ w.chunks, c.2.length ≤ 1536) ∧
    (∀ p, ofProc p w.chunks ++ (w.call p).elim [] Writing.rest = ofProc p w.calls) ∧
    (∀ p c, w.call p = some c → Allowed f i (off f s) w (.round p) → ∃ w', w.round f p = some w' ∧
      if c.n ≤ c.i then w'.call p = none ∧ w'.returned = w.returned ++ [(c.n, (c.n : ℤ))]
      else w'.call p = some { c with i := c.i + c.next } ∧ 0 < c.next) ∧
    (∀ r ∈ w.returned, r.2 = r.1) ∧
    ((∀ p, w.call p = none) → off f w.state = off f s + (bytes w.calls).length ∧
      ∀ p addr n, w.calls = [(p, (List.range n).map addr)] →
      file i w.state = (file i s).write addr (off f s) n) := by
  have hinv : Inv f i (off f s) (file i s) w :=
    hrun.invariant (I := Inv f i (off f s) (file i s)) h.inv fun w₁ e w₂ h₁ hst =>
      h₁.step hst.1 hst.2
  have hfile := hinv.file_eq
  refine ⟨hinv.ready.off_le, hinv.off_eq, ?_, hinv.short, hinv.order, fun p c hc ha => ?_,
    hinv.returned, fun hdone => ?_⟩
  · rw [hfile, Node.content_write h.off_le]
    congr 2
    exact ext_getElem (by simp) fun k h₁ h₂ => by simp [Bytes.ofList, h₂]
  · by_cases hle : c.n ≤ c.i
    · exact ⟨_, (hinv.finish hc hle).1, by simp [hle]⟩
    obtain ⟨s', hs', -⟩ := hinv.chunk hc hle (ha c hc)
    refine ⟨_, hs'.1, ?_⟩
    simp only [wrote, hle, ↓reduceIte, upd_eq_update, update_self, true_and]
    exact lt_min (by omega) (by decide)
  have hproc : ∀ p, ofProc p w.chunks = ofProc p w.calls := fun p => by
    simpa [hdone p] using hinv.order p
  have hlen : (bytes w.chunks).length = (bytes w.calls).length :=
    le_antisymm (length_bytes_le fun p => (hproc p ▸ le_rfl))
      (length_bytes_le fun p => (hproc p ▸ le_rfl))
  refine ⟨by rw [hinv.off_eq, hlen], fun p addr n hcalls => ?_⟩
  have hbytes : bytes w.chunks = (List.range n).map addr := by
    rw [bytes_eq_ofProc fun q hq => ?_, hproc p, hcalls]
    · simp [ofProc, bytes]
    · rw [hproc q, hcalls]
      simp [ofProc, bytes, Ne.symm hq]
  rw [hfile, hbytes, length_map, length_range]
  exact Node.write_congr fun k hk => by simp [Bytes.ofList, hk]

/-- Open the file of a small file system for writing. -/
def opens : List (ℕ × Call) := [(0, .open [slash, 102] 2)]

/-- What is evaluated of the state after the call. -/
def Opened (s : State) : Prop :=
  (s.1.ftable 0).type = .inode ∧ (s.1.ftable 0).ip = 1 ∧ (s.1.ftable 0).writable = true ∧
    s.1.store.lh = [] ∧
    s.1.store.logsize = logSize ∧ (file 1 s).type = tFile ∧ s.2 1 = none ∧ off 0 s = 0 ∧
    (file 1 s).size = 0

instance (s : State) : Decidable (Opened s) := by unfold Opened; infer_instance

theorem Opened.ready (h : Opened s) (hidle : Idle s.1) : Ready 0 1 s := by
  obtain ⟨h1, h2, h3, h4, h5, h6, h7, h8, h9⟩ := h
  exact ⟨hidle, ⟨h1, h2, h3⟩, h4, h5, h6, h7, by rw [h8, h9]⟩

open Writers in
/-- Two processes write to the file; the chunk of the second one comes first. -/
theorem filewrite_shared_two : ∃ s ls w, Ready 0 1 s ∧
    ((Writers.system 0).restrict (Allowed 0 1 (off 0 s))).Run ⟨s, fun _ => none, [], [], []⟩ ls w ∧
    (file 1 w.state).content = [9, 9, 7, 7, 7] := by
  obtain ⟨s, hrun, ho, hfree⟩ := Image.exists_run opens (fun s => Opened s ∧ 1 ≤ s.1.store.free)
    (by decide +kernel)
  have hready := ho.ready (idle_of_run Image.bootable hrun)
  obtain ⟨-, -, -, -, -, -, -, hoff, hsize⟩ := ho
  have hn : ∀ k, k ≤ 5 → off 0 s + k ≤ maxfile * bsize := fun k hk => by
    rw [hoff]; simp only [maxfile, bsize]; omega
  have hn₁ : off 0 s + 0 + 3 ≤ maxfile * bsize := hn 3 (by decide)
  have hn₂ : off 0 s + 3 + 2 ≤ maxfile * bsize := hn 5 (by decide)
  obtain ⟨hw₁, h₁⟩ := hready.inv.enter (p := 0) rfl (fun _ => 7) hn₁
  obtain ⟨hw₂, h₂⟩ := h₁.enter (p := 1) rfl (fun _ => 9) hn₂
  have hneeds : needs (file 1 s).size (off 0 s) 2 ≤ s.1.store.free := by
    rw [hsize, hoff]
    exact hfree
  obtain ⟨s₃, hw₃, h₃⟩ := h₂.chunk (p := 1) (c := ⟨fun _ => 9, 2, 0⟩) rfl (by decide) hneeds
  have hneeds' : needs (file 1 s₃).size (off 0 s₃) 3 ≤ s₃.1.store.free := by
    have hsize₃ : (file 1 s₃).size = 2 := by
      rw [show file 1 s₃ = _ from h₃.file_eq, Node.write, hsize, hoff]
      rfl
    have hoff₃ : off 0 s₃ = 2 := by
      rw [show off 0 s₃ = _ from h₃.off_eq, hoff]
      rfl
    rw [hsize₃, hoff₃]
    exact zero_le
  obtain ⟨s₄, hw₄, h₄⟩ := h₃.chunk (p := 0) (c := ⟨fun _ => 7, 3, 0⟩) rfl (by decide) hneeds'
  have hruns := (((LTS.Run.single hw₁).snoc hw₂).snoc hw₃).snoc hw₄
  refine ⟨s, _, _, hready, hruns, ?_⟩
  have hempty : (file 1 s).content = [] := by rw [Node.content, hsize]; rfl
  rw [(filewrite_shared hready hruns).2.2.1, hempty, take_nil, drop_nil]
  rfl

open Writers in
/-- On a full disk the first chunk panics. -/
theorem filewrite_full : ∃ s w, Fs.system.Run (Image.full, fun _ => none) opens s ∧ Ready 0 1 s ∧
    ((Writers.system 0).Run ⟨s, fun _ => none, [], [], []⟩ [.enter 0 (fun _ => 7) 1] w) ∧
    off 0 s + (bytes w.calls).length ≤ maxfile * bsize ∧ w.round 0 0 = none ∧
    errorOf ((writeChunk 0 1 (fun _ => 7) 1).seq 0 s) = some (.error .outOfBlocks) := by
  obtain ⟨s, hs, hC⟩ := Option.map_eq_some_iff.1 (by decide +kernel :
    (LTS.exec step (Image.full, fun _ => none) opens).map (fun s => decide (Opened s ∧
      errorOf ((writeChunk 0 1 (fun _ => 7) 1).seq 0 s) = some (.error .outOfBlocks))) = some true)
  obtain ⟨ho, herr⟩ := of_decide_eq_true hC
  have hready := ho.ready (idle_of_run Image.full_bootable (LTS.run_of_exec hs))
  have hoff : off 0 s = 0 := ho.2.2.2.2.2.2.2.1
  have hn : off 0 s + 0 + 1 ≤ maxfile * bsize := by rw [hoff]; decide
  have hw := (hready.inv.enter (p := 0) rfl (fun _ => 7) hn).1
  refine ⟨s, _, LTS.run_of_exec hs, hready, .single hw.1, hn, ?_, herr⟩
  cases hrun : (writeChunk 0 1 (fun _ => 7) 1).seq 0 s with
  | ok r s' =>
    rw [hrun] at herr
    cases herr
  | error e s' =>
    refine round_of_error (c := ⟨fun _ => 7, 1, 0⟩) rfl (by decide) (e := e) (s := s') ?_
    rw [← hrun]
    exact congrArg (fun i => (writeChunk 0 i (fun _ => 7) 1).seq 0 s) hready.writes.ip

/-! ### The log -/

theorem filewriteLoop_budget {m fuel k : ℕ} (h : Ready f i s) :
    wp ((filewriteLoop f i addr m fuel k).seq p) (fun _ s' => InBudget s.1 s'.1)
    (fun e s' => Starves s.1 e s'.1) s := by
  induction fuel generalizing k s with
  | zero => exact .of_eq rfl
  | succ fuel ih =>
    rw [filewriteLoop]
    by_cases hm : m ≤ k
    · rw [if_pos hm]
      exact .of_eq rfl
    rw [if_neg hm, Prog.seq_bind, wp_bind]
    refine wp_mono (h.chunk (addr.drop k) (min_le_right _ _)) (fun r s₁ hres => ?_)
      fun _ _ he => he.1
    obtain ⟨hb, hready, ⟨rfl, -⟩ | ⟨rfl, -⟩⟩ := hres
    · dsimp only
      rw [if_neg (not_not_intro rfl)]
      exact wp_mono (ih hready) (fun _ _ => hb.trans) fun _ _ he =>
        ⟨he.panic, hb.trans he.budget, he.lh⟩
    · exact hb

/-- **Every transaction of `filewrite` fits.**  A call on an open file, with any buffer, splits it
into transactions that log at most `MAXOPBLOCKS` different blocks each, wherever the write begins
and however many blocks of the free map there are. It panics for lack of free blocks only, and never
because a transaction is too big. -/
theorem filewrite_budget (h : Ready f i s) :
    (∀ r s', (filewrite f addr n).seq p s = .ok r s' → InBudget s.1 s'.1) ∧
      ∀ e s', (filewrite f addr n).seq p s = .error e s' → Starves s.1 e s'.1 := by
  have hwp : wp ((filewrite f addr n).seq p) (fun _ s' => InBudget s.1 s'.1)
      (fun e s' => Starves s.1 e s'.1) s := by
    rw [filewrite, Prog.seq_bind, wp_bind]
    refine Prog.wp_lift.2 ?_
    rw [wp_get]
    dsimp only
    rw [h.writes.writable, h.writes.type, h.writes.ip]
    exact filewriteLoop_budget h
  exact ⟨fun _ _ => hwp.ok, fun _ _ => hwp.error⟩

/-- A call on a file that has just been opened. -/
theorem filewrite_budget_opened :
    ∃ s r s', Ready 0 1 s ∧ (filewrite 0 (fun _ => 7) 3).seq 0 s = .ok r s' ∧
    InBudget s.1 s'.1 := by
  obtain ⟨s, hrun, ho, herr⟩ := Image.exists_run opens
    (fun s => Opened s ∧ errorOf ((filewrite 0 (fun _ => 7) 3).seq 0 s) = none) (by decide +kernel)
  have hready := ho.ready (idle_of_run Image.bootable hrun)
  cases hcall : (filewrite 0 (fun _ => 7) 3).seq 0 s with
  | ok r s' => exact ⟨s, r, s', hready, hcall, (filewrite_budget hready).1 r s' hcall⟩
  | error e s' =>
    rw [hcall] at herr
    cases herr

end Fs

end Xv6
