import Xv6.Fs.Cache
import Xv6.Fs.Entries

/-!
# What a running system call knows

`Fs.Frame R s s'` : the slots `R` that a call has in its hands are for the same inodes as before,
and those that were read are as they were.  With the invariant `Fs.Wf`, the copy of an inode in the
cache is the node on the disk (`Wf.inode_eq`), and an inode whose only reference is in the hand is
neither open nor a current directory (`Wf.not_busy`).
-/

namespace Xv6

namespace Fs

/-- The inode is open or a current directory. -/
def Busy (proc : ℕ → Option Proc) (s : Fs) (i : ℕ) : Prop :=
  ∃ j, (s.inode j).inum = i ∧ 0 < fileRefs s j + cwdRefs proc j

variable {s s' s₁ : Fs} {i : ℕ} {y : Slot} {hd R R' : Multiset ℕ}

/-- The slots `R` are for the same inodes, and those that were read are as they were. -/
structure Frame (R : Multiset ℕ) (s s' : Fs) : Prop where
  sb : s'.store.sb = s.store.sb
  ftable : s'.ftable = s.ftable
  inum : ∀ j ∈ R, (s'.inode j).inum = (s.inode j).inum
  valid : ∀ j ∈ R, (s.icache j).valid = true → (s'.icache j).valid = true

theorem Frame.refl : Frame R s s := ⟨rfl, rfl, fun _ _ => rfl, fun _ _ => id⟩

theorem Frame.trans (h : Frame R s s₁) (h' : Frame R s₁ s') : Frame R s s' :=
  ⟨h'.sb.trans h.sb, h'.ftable.trans h.ftable, fun j hj => (h'.inum j hj).trans (h.inum j hj),
    fun j hj hv => h'.valid j hj (h.valid j hj hv)⟩

theorem Frame.mono (h : Frame R s s') (hR : R' ⊆ R) : Frame R' s s' :=
  ⟨h.sb, h.ftable, fun j hj => h.inum j (hR hj), fun j hj => h.valid j (hR hj)⟩

theorem Frame.setSlot (hinum : i ∈ R → y.ip.inum = (s.inode i).inum)
    (hv : i ∈ R → (s.icache i).valid = true → y.valid = true) : Frame R s (s.setSlot i y) := by
  refine ⟨rfl, rfl, fun j hj => ?_, fun j hj hvj => ?_⟩
  · by_cases hji : j = i
    · subst hji
      rw [inode_setSlot_self, hinum hj]
    · rw [inode_setSlot_of_ne hji]
  by_cases hji : j = i
  · subst hji
    rw [setSlot_self]
    exact hv hj hvj
  · rw [setSlot_of_ne hji]
    exact hvj

/-- An edit of the inode in slot `i` leaves the slots alone. -/
theorem frame_put {st : Store} {ip : Inode} (hsb : st.sb = s.store.sb)
    (hinum : ip.inum = (s.inode i).inum) : Frame R s (s.put i st ip) := by
  have h : Frame R { s with store := st } (s.put i st ip) :=
    Frame.setSlot (fun _ => hinum) fun _ hv => hv
  exact ⟨hsb, h.ftable, h.inum, h.valid⟩

/-- The in-memory copy of an inode that was read shows its node. -/
theorem Wf.inode_eq {x : Held} (hwf : Wf x s) (hr : 0 < (s.icache i).ref)
    (hv : (s.icache i).valid = true) :
    (s.inode i).type = (s.nodes (s.inode i).inum).type ∧
      (s.inode i).nlink = (s.nodes (s.inode i).inum).nlink ∧
      (s.inode i).size = (s.nodes (s.inode i).inum).size := by
  rw [nodes, (hwf.copy i hr hv).node_eq]
  exact ⟨rfl, rfl, rfl⟩

theorem Wf.type_ne {x : Held} (hwf : Wf x s) (hr : 0 < (s.icache i).ref)
    (hv : (s.icache i).valid = true) : (s.nodes (s.inode i).inum).type ≠ 0 := by
  rw [← (hwf.inode_eq hr hv).1]
  exact (hwf.copy i hr hv).type_ne

theorem lt_of_type_ne {k : ℕ} (ht : (s.nodes k).type ≠ 0) : k < s.store.sb.ninodes := by
  by_contra hge
  refine ht ?_
  rw [nodes, Store.nodes, Store.nodesOf, if_neg hge]
  rfl

/-- With the only reference in the hand, an inode is not in use elsewhere. -/
theorem Wf.not_busy {x : Held} (hwf : Wf x s) (hx : x.hand = i ::ₘ hd)
    (href : (s.icache i).ref = 1) :
    ¬ Busy x.proc s (s.inode i).inum ∧ i ∉ hd := by
  have hri := hwf.refs i
  rw [hx, Multiset.count_cons_self] at hri
  refine ⟨?_, Multiset.count_eq_zero.1 (by omega)⟩
  rintro ⟨j, hj, hpos⟩
  have hrj := hwf.refs j
  obtain rfl : j = i := hwf.uniq j i (by omega) (by omega) hj
  omega

theorem Frees.frame (hf : Frees s i s') (hR : i ∉ R) : Frame R s s' := by
  refine ⟨hf.sb, by rw [hf.eq], fun j hj => ?_, fun j hj hv => ?_⟩
  · rw [inode, hf.slot_of_ne j (fun h => hR (h ▸ hj)), inode]
  · rwa [hf.slot_of_ne j (fun h => hR (h ▸ hj))]

end Fs

end Xv6
