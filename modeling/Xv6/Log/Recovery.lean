import Xv6.Log.Commit

/-!
# Crash atomicity of the log

A disk is, at every moment of a run of transactions and crashes, in one of two conditions:

* *idle* (`Log.Idle`): the header names no block, and the home locations are up to date;
* *committed* (`Log.Committed t d`): the header names the blocks of `t`, their slots hold the
  cached contents, and no other home location differs from `d`.

The writes before the header write of `commit` keep the disk idle (`commitUpTo_idle`), the header
write makes it committed, and the writes after it keep it committed until the last one makes it
idle again (`commitUpTo_committed`).  Recovery from an idle disk changes no home location, and
recovery from a committed disk, interrupted or not, finishes the transaction (`Recovers.idle`,
`Recovers.committed`).  Entries that an earlier, longer transaction left in the header block are
never looked at, because every loop stops at `n`.
-/

namespace Xv6

open List

namespace Log

/-! ### The header block -/

theorem getLE_putHead_zero (bs : List ℕ) (i : ℕ) (d : Block) :
    Bytes.getLE 4 (putHead bs i d) 0 = Bytes.getLE 4 d 0 := by
  induction bs generalizing i d with
  | nil => rfl
  | cons b bs ih => rw [putHead, ih, Bytes.getLE_putLE_of_disjoint (by omega)]

theorem getLE_putHead_of_lt (bs : List ℕ) {i j : ℕ} (d : Block) (h : j < i) :
    Bytes.getLE 4 (putHead bs i d) (4 * (j + 1)) = Bytes.getLE 4 d (4 * (j + 1)) := by
  induction bs generalizing i d with
  | nil => rfl
  | cons b bs ih => rw [putHead, ih _ (by omega), Bytes.getLE_putLE_of_disjoint (by omega)]

theorem getLE_putHead (bs : List ℕ) (hlt : ∀ b ∈ bs, b < 2 ^ 32) (i : ℕ) (d : Block) {j : ℕ}
    (h : j < bs.length) : Bytes.getLE 4 (putHead bs i d) (4 * (i + j + 1)) = bs.get ⟨j, h⟩ := by
  induction bs generalizing i j d with
  | nil => simp at h
  | cons b bs ih =>
    rw [putHead]
    cases j with
    | zero =>
      rw [add_zero, getLE_putHead_of_lt _ _ (Nat.lt_succ_self i), Bytes.getLE_putLE]
      exact Nat.mod_eq_of_lt (hlt b mem_cons_self)
    | succ j =>
      have := ih (fun b hb => hlt b (mem_cons_of_mem _ hb)) (i + 1)
        (Bytes.putLE 4 d (4 * (i + 1)) b) (j := j) (by simpa using h)
      rw [show i + (j + 1) + 1 = i + 1 + j + 1 by omega, this]
      rfl

theorem headN_headBlock {lh : List ℕ} (h : lh.length ≤ logSize) (d : Block) :
    headN (headBlock lh d) = lh.length := by
  have hl : lh.length < 2 ^ 31 := by simp only [logSize, maxOpBlocks] at h; omega
  simp only [headN, headBlock, getLE_putHead_zero, Bytes.getLE_putLE]
  rw [Nat.mod_eq_of_lt (by omega), if_pos hl]

/-- **`read_head` reads what `write_head` wrote**, whatever the block held before. -/
theorem readHead_headBlock {lh : List ℕ} (h : lh.length ≤ logSize) (hlt : ∀ b ∈ lh, b < 2 ^ 32)
    (d : Block) : readHead (headBlock lh d) = lh := by
  apply ext_getElem
  · simp [readHead, headN_headBlock h]
  intro i h1 h2
  simp only [readHead, getElem_map, getElem_range, headBlock]
  have := getLE_putHead lh hlt 0 (Bytes.putLE 4 d 0 lh.length) h2
  rwa [zero_add] at this

theorem readHead_length (d : Block) : (readHead d).length = headN d := by simp [readHead]

/-! ### Reads and writes -/

section

variable {s : St} {b c : ℕ} {v : Block}

@[simp] theorem St.bwrite_disk_self : (s.bwrite b v).disk b = v := by simp [St.bwrite]

theorem St.bwrite_disk_of_ne (h : c ≠ b) : (s.bwrite b v).disk c = s.disk c := by
  simp [St.bwrite, h]

theorem St.bwrite_dirty_of_ne (h : c ≠ b) : (s.bwrite b v).dirty c = s.dirty c := by
  simp [St.bwrite, h]

theorem St.bwrite_dirty_eq_none (h : s.dirty c = none) : (s.bwrite b v).dirty c = none := by
  by_cases hc : c = b
  · subst hc; simp [St.bwrite]
  · rw [bwrite_dirty_of_ne hc, h]

theorem St.bread_of_none (h : s.dirty b = none) : s.bread b = s.disk b := by simp [St.bread, h]

end

theorem perform_append (ws ws' : List (St → St)) (s : St) :
    perform (ws ++ ws') s = perform ws' (perform ws s) := by
  simp [perform]

theorem perform_range_succ (f : ℕ → St → St) (k : ℕ) (s : St) :
    perform ((List.range (k + 1)).map f) s = f k (perform ((List.range k).map f) s) := by
  simp [perform, range_succ]

theorem take_map_range {α : Type*} (f : ℕ → α) {k n : ℕ} (h : k ≤ n) :
    ((List.range n).map f).take k = (List.range k).map f := by
  rw [← map_take, take_range, min_eq_left h]

variable {L : Log} {t : Txn} {d d' : Disk} {k : ℕ} {s : St}

theorem Txn.getD_mem {j : ℕ} (h : j < t.blocks.length) : t.blocks.getD j 0 ∈ t.blocks := by
  simp [getD_eq_getElem?_getD, h]

/-! ### Before the header write -/

variable (L t d k) in
/-- `k` rounds of `write_log` are done. -/
structure Logging (s : St) : Prop where
  lh : s.lh = t.blocks
  dirty : ∀ b, s.dirty b = if b ∈ t.blocks then some (t.cached b) else none
  slot : ∀ j < k, s.disk (L.start + j + 1) = t.cached (t.blocks.getD j 0)
  other : ∀ b, b ≤ L.start ∨ L.start + k < b → s.disk b = d b

theorem Fits.not_slot (hf : L.Fits t) {b j : ℕ} (hb : b ∈ t.blocks) (hj : j < t.blocks.length) :
    b ≠ L.start + j + 1 := by
  have h1 := hf.1
  rcases hf.2 b hb with h | h <;> omega

theorem Fits.not_start (hf : L.Fits t) {b : ℕ} (hb : b ∈ t.blocks) : b ≠ L.start := by
  have h1 := hf.1
  rcases hf.2 b hb with h | h <;> omega

theorem logging_writeLog (hf : L.Fits t) (hk : k < t.blocks.length) (h : L.Logging t d k s) :
    L.Logging t d (k + 1) (L.writeLog k s) := by
  have hread : s.bread (s.lh.getD k 0) = t.cached (t.blocks.getD k 0) := by
    rw [h.lh, St.bread, h.dirty, if_pos (Txn.getD_mem hk), Option.getD_some]
  rw [writeLog, hread]
  refine ⟨h.lh, fun b => ?_, fun j hj => ?_, fun b hb => ?_⟩
  · by_cases hb : b = L.start + k + 1
    · have hn : b ∉ t.blocks := fun hm => hf.not_slot hm hk hb
      simp [St.bwrite, hb, hb ▸ hn]
    · rw [St.bwrite_dirty_of_ne hb, h.dirty]
  · by_cases hjk : j = k
    · subst hjk; exact St.bwrite_disk_self
    · rw [St.bwrite_disk_of_ne (by omega), h.slot j (by omega)]
  · rw [St.bwrite_disk_of_ne (by omega), h.other b (by omega)]

theorem logging_perform (hf : L.Fits t) (hk : k ≤ t.blocks.length) :
    L.Logging t d k (perform ((List.range k).map L.writeLog) (t.load d)) := by
  induction k with
  | zero => exact ⟨rfl, fun _ => rfl, fun _ h => absurd h (by omega), fun _ _ => rfl⟩
  | succ k ih =>
    rw [perform_range_succ]
    exact logging_writeLog hf (by omega) (ih (by omega))

/-! ### After the header write -/

variable (L t d k) in
/-- The header is written and `k` rounds of `install_trans` are done. -/
structure Installing (s : St) : Prop where
  lh : s.lh = t.blocks
  clean : ∀ b, ¬ L.Outside b → s.dirty b = none
  head : readHead (s.disk L.start) = t.blocks
  slot : ∀ j < t.blocks.length, s.disk (L.start + j + 1) = t.cached (t.blocks.getD j 0)
  home : ∀ b, L.Outside b → b ∉ t.blocks → s.disk b = d b
  installed : ∀ j < k, s.disk (t.blocks.getD j 0) = t.cached (t.blocks.getD j 0)

theorem Fits.slot_not_outside (hf : L.Fits t) {j : ℕ} (hj : j < t.blocks.length) :
    ¬ L.Outside (L.start + j + 1) := by
  have := hf.1
  simp only [Outside]; omega

theorem Fits.start_not_outside (hf : L.Fits t) : ¬ L.Outside L.start := by
  have := hf.1
  simp only [Outside]; omega

theorem installing_writeHead (hf : L.Fits t) (h : L.Logging t d t.blocks.length s) :
    L.Installing t d 0 (L.writeHead s) := by
  refine ⟨h.lh, fun b hb => ?_, ?_, fun j hj => ?_, fun b hb hm => ?_, fun j hj => by omega⟩
  · have hm : b ∉ t.blocks := fun hm => hb (hf.2 b hm)
    exact St.bwrite_dirty_eq_none (by rw [h.dirty, if_neg hm])
  · rw [writeHead, St.bwrite_disk_self, h.lh, readHead_headBlock t.length_le t.lt]
  · rw [writeHead, St.bwrite_disk_of_ne (by omega), h.slot j hj]
  have h1 := hf.1
  rw [writeHead, St.bwrite_disk_of_ne, h.other]
  · rcases hb with hb | hb <;> omega
  · rintro rfl; exact hf.start_not_outside hb

theorem installing_installTrans (hf : L.Fits t) (hk : k < t.blocks.length)
    (h : L.Installing t d k s) : L.Installing t d (k + 1) (L.installTrans k s) := by
  have hmem := Txn.getD_mem hk
  have hread : s.bread (L.start + k + 1) = t.cached (t.blocks.getD k 0) := by
    rw [St.bread_of_none (h.clean _ (hf.slot_not_outside hk)), h.slot k hk]
  rw [installTrans, hread, h.lh]
  refine ⟨h.lh, fun b hb => St.bwrite_dirty_eq_none (h.clean b hb), ?_, fun j hj => ?_,
    fun b hb hm => ?_, fun j hj => ?_⟩
  · rw [St.bwrite_disk_of_ne (hf.not_start hmem).symm, h.head]
  · rw [St.bwrite_disk_of_ne (hf.not_slot hmem hj).symm, h.slot j hj]
  · rw [St.bwrite_disk_of_ne (by rintro rfl; exact hm hmem), h.home b hb hm]
  by_cases he : t.blocks.getD j 0 = t.blocks.getD k 0
  · rw [he]; exact St.bwrite_disk_self
  · have hjk : j ≠ k := fun hjk => he (by rw [hjk])
    rw [St.bwrite_disk_of_ne he, h.installed j (by omega)]

theorem installing_perform (hf : L.Fits t) (hk : k ≤ t.blocks.length) (h : L.Installing t d 0 s) :
    L.Installing t d k (perform ((List.range k).map L.installTrans) s) := by
  induction k with
  | zero => exact h
  | succ k ih =>
    rw [perform_range_succ]
    exact installing_installTrans hf (by omega) (ih (by omega))

/-! ### The two conditions of a disk -/

variable (L) in
/-- The header names no block. -/
def Idle (d : Disk) : Prop := headN (d L.start) = 0

variable (L t d) in
/-- The header names the blocks of `t`, the slots hold their contents, and the home locations that
`t` does not write are those of `d`. -/
structure Committed (d' : Disk) : Prop where
  head : readHead (d' L.start) = t.blocks
  slot : ∀ j < t.blocks.length, d' (L.start + j + 1) = t.cached (t.blocks.getD j 0)
  home : ∀ b, L.Outside b → b ∉ t.blocks → d' b = d b

theorem Installing.committed (h : L.Installing t d k s) : L.Committed t d s.disk :=
  ⟨h.head, h.slot, h.home⟩

theorem idle_eraseHead : L.Idle (L.eraseHead s).disk := by
  have : (L.eraseHead s).disk L.start = headBlock [] _ := St.bwrite_disk_self
  rw [Idle, this, headN_headBlock (by simp)]
  rfl

theorem eraseHead_disk {b : ℕ} (h : b ≠ L.start) : (L.eraseHead s).disk b = s.disk b :=
  St.bwrite_disk_of_ne h

/-- The last write of a commit or a recovery, when everything is installed. -/
theorem sameHome_eraseHead (hf : L.Fits t) (h : L.Installing t d t.blocks.length s) :
    L.SameHome (L.eraseHead s).disk (t.apply d) := by
  intro b hb
  have hne : b ≠ L.start := by rintro rfl; exact hf.start_not_outside hb
  rw [eraseHead_disk hne, Txn.apply]
  by_cases hm : b ∈ t.blocks
  · obtain ⟨j, hj, rfl⟩ := getElem_of_mem hm
    have := h.installed j hj
    rw [getD_eq_getElem?_getD, List.getElem?_eq_getElem hj, Option.getD_some] at this
    rw [if_pos hm, this]
  · rw [if_neg hm, h.home b hb hm]

/-- `install_trans` and the final header write, interrupted after `k` writes or not. -/
theorem perform_recover (hf : L.Fits t) (h : L.Installing t d 0 s) (k : ℕ) :
    let d' := (perform ((L.recover t.blocks.length).take k) s).disk
    (k ≤ t.blocks.length → L.Committed t d d') ∧
      (t.blocks.length < k → L.Idle d' ∧ L.SameHome d' (t.apply d)) := by
  refine ⟨fun hk => ?_, fun hk => ?_⟩
  · rw [recover, take_append_of_le_length (by simpa using hk), take_map_range _ hk]
    exact (installing_perform hf hk h).committed
  · rw [recover, take_of_length_le (by simp; omega), perform_append]
    have hi := installing_perform hf le_rfl h
    exact ⟨idle_eraseHead, sameHome_eraseHead hf hi⟩

/-! ### Recovery -/

theorem readHead_of_idle (h : L.Idle d) : readHead (d L.start) = [] := by
  rw [← length_eq_zero_iff, readHead_length, h]

theorem recoverUpTo_idle (h : L.Idle d) (k : ℕ) :
    L.Idle (L.recoverUpTo k d) ∧ ∀ b, b ≠ L.start → L.recoverUpTo k d b = d b := by
  rw [recoverUpTo, readHead_of_idle h]
  cases k with
  | zero => exact ⟨h, fun _ _ => rfl⟩
  | succ k =>
    simp only [recover, perform, length_nil, range_zero, map_nil, nil_append,
      take_succ_cons, take_nil, foldl_cons, foldl_nil]
    exact ⟨idle_eraseHead, fun b hb => eraseHead_disk hb⟩

theorem installing_boot (h : L.Committed t d d') : L.Installing t d 0 (L.boot d') :=
  ⟨h.head, fun _ _ => rfl, h.head, h.slot, h.home, fun _ h => by omega⟩

theorem Recovers.idle (h : L.Recovers d d') (hi : L.Idle d) :
    L.Idle d' ∧ ∀ b, b ≠ L.start → d' b = d b := by
  induction h with
  | complete d => exact recoverUpTo_idle hi _
  | crash d k _ ih =>
    obtain ⟨hi', hsame⟩ := recoverUpTo_idle hi k
    obtain ⟨hd, hb⟩ := ih hi'
    exact ⟨hd, fun b hne => (hb b hne).trans (hsame b hne)⟩

/-- **Recovery finishes a committed transaction**, however often it is interrupted. -/
theorem Recovers.committed {d₁ d₂ : Disk} (hr : L.Recovers d₁ d₂) (hf : L.Fits t)
    (hc : L.Committed t d d₁) :
    L.Idle d₂ ∧ L.SameHome d₂ (t.apply d) := by
  induction hr with
  | complete d₁ =>
    have := perform_recover hf (installing_boot hc) (t.blocks.length + 1)
    rw [← hc.head] at this
    exact this.2 (by rw [hc.head]; omega)
  | crash d₁ k hr ih =>
    have := perform_recover hf (installing_boot hc) k
    rw [← hc.head] at this
    by_cases hk : k ≤ t.blocks.length
    · exact ih (this.1 (by rwa [hc.head]))
    -- the crash came after the last write: the disk is idle again
    obtain ⟨hidle, hhome⟩ := this.2 (by rw [hc.head]; omega)
    obtain ⟨h1, h2⟩ := hr.idle hidle
    refine ⟨h1, fun b hb => (h2 b ?_).trans (hhome b hb)⟩
    rintro rfl; exact hf.start_not_outside hb

/-! ### Commit -/

/-- Until the header write, the home locations and the header are those of `d`. -/
theorem commitUpTo_idle (hf : L.Fits t) (hi : L.Idle d) (hk : k ≤ t.blocks.length) :
    L.Idle (L.commitUpTo t k d) ∧ L.SameHome (L.commitUpTo t k d) d := by
  rw [commitUpTo, commit]
  split_ifs with hn
  · rw [take_append_of_le_length (by simpa using hk), take_map_range _ hk]
    have h := logging_perform (d := d) hf hk
    refine ⟨?_, fun b hb => h.other b ?_⟩
    · rwa [Idle, h.other _ (.inl le_rfl)]
    · have := hf.1
      rcases hb with hb | hb <;> omega
  · rw [take_nil]
    exact ⟨hi, fun b hb => rfl⟩

/-- From the header write on, the transaction is committed, and after the last write it is
installed and the header names no block. -/
theorem commitUpTo_committed (hf : L.Fits t) (hn : 0 < t.blocks.length) (j : ℕ) :
    let d' := L.commitUpTo t (t.blocks.length + 1 + j) d
    (j ≤ t.blocks.length → L.Committed t d d') ∧
      (t.blocks.length < j → L.Idle d' ∧ L.SameHome d' (t.apply d)) := by
  have h := installing_writeHead hf (logging_perform (d := d) hf le_rfl)
  have htake : (L.commit t.blocks.length).take (t.blocks.length + 1 + j) =
      (List.range t.blocks.length).map L.writeLog ++
        L.writeHead :: (L.recover t.blocks.length).take j := by
    rw [commit, if_pos hn, take_append, take_of_length_le (by simp; omega)]
    simp [add_assoc, add_comm 1 j, recover]
  rw [commitUpTo, htake, perform_append]
  exact perform_recover hf h j

/-- Recovery from an idle disk leaves the home locations alone. -/
theorem Recovers.sameHome {d₁ d₂ d₃ : Disk} (hr : L.Recovers d₁ d₂) (hf : L.Fits t)
    (hi : L.Idle d₁) (h : L.SameHome d₁ d₃) : L.Idle d₂ ∧ L.SameHome d₂ d₃ := by
  obtain ⟨h1, h2⟩ := hr.idle hi
  refine ⟨h1, fun b hb => (h2 b ?_).trans (h b hb)⟩
  rintro rfl; exact hf.start_not_outside hb

theorem recovers_commitUpTo (hf : L.Fits t) (hi : L.Idle d)
    (hr : L.Recovers (L.commitUpTo t k d) d') :
    L.Idle d' ∧ L.SameHome d' (if t.committed k then t.apply d else d) := by
  by_cases hk : t.committed k
  · rw [if_pos hk]
    by_cases hn : 0 < t.blocks.length
    · obtain ⟨j, rfl⟩ := Nat.exists_eq_add_of_le (show t.blocks.length + 1 ≤ k from hk)
      obtain ⟨h1, h2⟩ := commitUpTo_committed (d := d) hf hn j
      by_cases hj : j ≤ t.blocks.length
      · exact hr.committed hf (h1 hj)
      · exact hr.sameHome hf (h2 (by omega)).1 (h2 (by omega)).2
    -- an empty transaction writes nothing
    have hnil : t.blocks = [] := length_eq_zero_iff.1 (by omega)
    have hd : L.commitUpTo t k d = d := by simp [commitUpTo, commit, hnil, perform, Txn.load]
    rw [hd] at hr
    exact hr.sameHome hf hi fun b _ => by simp [Txn.apply, hnil]
  · rw [if_neg hk]
    obtain ⟨hidle, hhome⟩ := commitUpTo_idle hf hi (Nat.le_of_not_lt hk)
    exact hr.sameHome hf hidle hhome

/-! ### Runs of transactions and crashes -/

theorem Life.spec {x : Txn × Bool} (h : L.Life d x d') (hi : L.Idle d) :
    L.Idle d' ∧ L.SameHome d' (if x.2 then x.1.apply d else d) := by
  cases h with
  | finish t hf =>
    simp only [↓reduceIte]
    by_cases hn : 0 < t.blocks.length
    · have hl : (L.commit t.blocks.length).length =
          t.blocks.length + 1 + (t.blocks.length + 1) := by
        simp [commit, hn]; omega
      rw [hl]
      exact (commitUpTo_committed hf hn _).2 (by omega)
    · have hnil : t.blocks = [] := length_eq_zero_iff.1 (by omega)
      simp only [commitUpTo, commit, hnil, length_nil, lt_irrefl, ↓reduceIte, perform,
        take_nil, foldl_nil, Txn.load]
      exact ⟨hi, fun b _ => by simp [Txn.apply, hnil]⟩
  | crash t k hf hr => simpa using recovers_commitUpTo hf hi hr

theorem SameHome.apply (h : L.SameHome d d') (t : Txn) : L.SameHome (t.apply d) (t.apply d') := by
  intro b hb
  simp only [Txn.apply, h b hb]

theorem SameHome.applyAll (xs : List (Txn × Bool)) (h : L.SameHome d d') :
    L.SameHome (applyAll xs d) (applyAll xs d') := by
  induction xs generalizing d d' with
  | nil => exact h
  | cons x xs ih =>
    obtain ⟨t, _ | _⟩ := x
    · exact ih h
    · exact ih (h.apply t)

/-- Every run leaves the log idle and the home locations as the committed transactions make
them. -/
theorem Run.spec {xs : List (Txn × Bool)} (h : L.Run d xs d') (hi : L.Idle d) :
    L.Idle d' ∧ L.SameHome d' (applyAll xs d) := by
  induction h with
  | nil d => exact ⟨hi, fun _ _ => rfl⟩
  | cons hl _ ih =>
    obtain ⟨hi1, hs1⟩ := hl.spec hi
    obtain ⟨hi2, hs2⟩ := ih hi1
    exact ⟨hi2, fun b hb => (hs2 b hb).trans (hs1.applyAll _ b hb)⟩

/-- **Crash atomicity.**  Crash after any number `k` of the writes of a commit and recover, with
any number of further crashes during recovery: afterwards the log is idle again, and either every
home location is as before or all the logged blocks hold their cached contents and the others are
as before, the latter exactly when the header write was among the `k` writes.  Hence a run of
transactions and crashes of any length ends with the committed transactions applied in order. -/
theorem crash_atomicity (L : Log) (d : Disk) (hi : headN (d L.start) = 0) :
    (∀ (t : Txn) (k : ℕ) (d' : Disk), L.Fits t → L.Recovers (L.commitUpTo t k d) d' →
      headN (d' L.start) = 0 ∧
      ((∀ b, L.Outside b → d' b = d b) ∨
        ∀ b, L.Outside b → d' b = if b ∈ t.blocks then t.cached b else d b) ∧
      (t.blocks.length + 1 ≤ k →
        ∀ b, L.Outside b → d' b = if b ∈ t.blocks then t.cached b else d b)) ∧
    ∀ (xs : List (Txn × Bool)) (d' : Disk), L.Run d xs d' →
      headN (d' L.start) = 0 ∧ ∀ b, L.Outside b → d' b = applyAll xs d b := by
  refine ⟨fun t k d' hf hr => ?_, fun xs d' h => h.spec hi⟩
  obtain ⟨hidle, hhome⟩ := recovers_commitUpTo hf hi hr
  refine ⟨hidle, ?_, fun hk b hb => ?_⟩
  · by_cases hk : t.committed k
    · rw [if_pos hk] at hhome; exact .inr hhome
    · rw [if_neg hk] at hhome; exact .inl hhome
  · rw [if_pos (show t.committed k from hk)] at hhome
    exact hhome b hb

/-- A transaction that logs block `10`. -/
def Txn.sample : Txn := ⟨[10], fun _ _ => 7, by simp, by decide, by simp⟩

/-- On a zeroed disk with the log in blocks `2` to `5`, crash right after the header write of
`Txn.sample` and once more before recovery has written anything: block `10` is updated, and so it
is in the run that consists of this transaction. -/
theorem crash_atomicity_sample :
    let L : Log := ⟨2, 4⟩
    let d : Disk := fun _ => Bytes.zero
    let d₁ := L.recoverUpTo 0 (L.commitUpTo Txn.sample 2 d)
    let d' := L.recoverUpTo ((readHead (d₁ L.start)).length + 1) d₁
    (headN (d' L.start) = 0 ∧ d' 10 = fun _ => 7) ∧
      d' 10 = applyAll [(Txn.sample, decide (Txn.sample.committed 2))] d 10 := by
  intro L d d₁ d'
  have hi : headN (d L.start) = 0 := rfl
  have hf : L.Fits Txn.sample := ⟨by decide, by simp [Txn.sample, Outside, L]⟩
  have hr : L.Recovers (L.commitUpTo Txn.sample 2 d) d' := .crash _ 0 (.complete d₁)
  have hout : L.Outside 10 := .inr (by decide)
  obtain ⟨h₁, h₂⟩ := crash_atomicity L d hi
  obtain ⟨hn, -, hnew⟩ := h₁ Txn.sample 2 d' hf hr
  exact ⟨⟨hn, hnew (by decide) 10 hout⟩,
    (h₂ _ d' (.cons (.crash d Txn.sample 2 hf hr) (.nil d'))).2 10 hout⟩

end Log

end Xv6
