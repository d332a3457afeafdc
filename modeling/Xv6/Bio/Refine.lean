import Mathlib.Data.List.Perm.Basic
import Xv6.Bio.Cache

/-!
# The buffer cache behaves like the disks

`Bio.Ok` is the invariant of the cache.  The list holds every buffer once, the one released last
first; of two buffers for the same block the one further back is blank, which is how the cache
starts out; and a buffer that was read holds what was last stored for its block.  `cache_refines`
draws the conclusions.
-/

namespace Xv6

open List Option

namespace Bio

variable {P : Type} {s s' : State P} {c c' : Cache} {i j dev blockno : ℕ} {l : List ℕ}
variable {p : P} {b : Buf} {lock : Option P} {wait : Multiset (P × ℕ × ℕ)} {leave : Multiset P}
variable {edited : Bool} {stored stored' : Disks}

/-- The buffers are for the same block. -/
def Buf.Same (b b' : Buf) : Prop := b.dev = b'.dev ∧ b.blockno = b'.blockno

/-- The buffer holds nothing and nobody refers to it. -/
structure Buf.Blank (b : Buf) : Prop where
  valid : b.valid = false
  refcnt : b.refcnt = 0

/-- The list through the buffers. -/
structure Ring (c : Cache) (l : List ℕ) : Prop where
  path : Dll.Path c.next c.prev none l none
  perm : l.Perm (List.range nbuf)

/-- A buffer and what belongs to it. -/
structure Fine (b : Buf) (lock : Option P) (wait : Multiset (P × ℕ × ℕ)) (leave : Multiset P)
    (edited : Bool) (stored : Disks) : Prop where
  refcnt : b.refcnt = wait.card + (if lock = none then 0 else 1) + leave.card
  tokens : ∀ t ∈ wait, t.2 = (b.dev, b.blockno)
  dev : b.dev < 2
  dirty : b.dirty = true → b.valid = true
  locked : lock ≠ none → b.valid = true
  held : edited = true → lock ≠ none
  data : b.valid = true → edited = false → b.data = stored b.dev b.blockno

/-- Of two buffers for the same block, the one further back is blank. -/
def Distinct (buf : ℕ → Buf) (l : List ℕ) : Prop :=
  l.Pairwise fun i j => (buf i).Same (buf j) → (buf j).Blank

/-- The invariant. -/
structure Ok (s : State P) : Prop where
  ring : ∃ l, Ring s.cache l ∧ (l.Pairwise fun i j => s.released.idxOf i ≤ s.released.idxOf j) ∧
    Distinct s.cache.buf l
  fine : ∀ i, Fine (s.cache.buf i) (s.lock i) (s.wait i) (s.leave i) (s.edited i) s.stored
  disk : ∀ dev < 2, ∀ blockno, (∀ i, (s.cache.buf i).dev = dev → (s.cache.buf i).blockno = blockno →
    (s.cache.buf i).dirty = false) → s.disk dev blockno = s.stored dev blockno
  out : ∀ i, nbuf ≤ i → (s.cache.buf i).Blank

namespace Ring

theorem nodup (h : Ring c l) : l.Nodup := h.perm.nodup_iff.2 nodup_range

theorem mem (h : Ring c l) : i ∈ l ↔ i < nbuf := by rw [h.perm.mem_iff, mem_range]

theorem length_lt (h : Ring c l) : l.length < nbuf + 1 := by
  rw [h.perm.length_eq, length_range]
  exact Nat.lt_succ_self _

theorem walk_next (h : Ring c l) (test : ℕ → Bool) :
    Dll.walk c.next test (nbuf + 1) (c.next none) = l.find? test := h.path.walk_eq h.length_lt

theorem walk_prev (h : Ring c l) (test : ℕ → Bool) :
    Dll.walk c.prev test (nbuf + 1) (c.prev none) = l.reverse.find? test :=
  h.path.reverse.walk_eq (by rw [length_reverse]; exact h.length_lt)

end Ring

/-! ## The start -/

theorem foldl_insert (n : ℕ) (c : Cache) (h : Dll.Path c.next c.prev none [] none) :
    let c' := (List.range n).foldl Cache.insert c
    Dll.Path c'.next c'.prev none (List.range n).reverse none ∧ c'.buf = c.buf := by
  induction n with
  | zero => exact ⟨h, rfl⟩
  | succ n ih =>
    obtain ⟨h1, h2⟩ := ih
    rw [range_succ, foldl_append, reverse_append]
    exact ⟨h1.insertHead (by simp) (nodup_reverse.2 nodup_range), h2⟩

theorem binit_ring : Ring .binit (List.range nbuf).reverse :=
  ⟨(foldl_insert nbuf _ ⟨rfl, rfl⟩).1, reverse_perm _⟩

theorem binit_buf (i : ℕ) : Cache.binit.buf i = ⟨0, 0, false, false, 0, Bytes.zero⟩ :=
  congrFun (foldl_insert nbuf _ ⟨rfl, rfl⟩).2 i

theorem init_ok (disk : Disks) : Ok (State.init disk : State P) := by
  have hb : ∀ i, (State.init disk : State P).cache.buf i = ⟨0, 0, false, false, 0, Bytes.zero⟩ :=
    binit_buf
  refine ⟨⟨_, binit_ring, pairwise_of_forall fun _ _ => le_rfl,
    pairwise_of_forall fun i j _ => ?_⟩, fun i => ?_, fun dev hd b _ => ?_, fun i _ => ?_⟩
  · rw [hb]; exact ⟨rfl, rfl⟩
  · rw [hb]
    exact ⟨rfl, nofun, by decide, nofun, fun h => absurd rfl h, nofun, nofun⟩
  · show disk dev b = disk (dev % 2) b
    rw [Nat.mod_eq_of_lt hd]
  · rw [hb]; exact ⟨rfl, rfl⟩

/-! ## Changing one buffer -/

theorem Fine.not_blank (h : Fine b lock wait leave edited stored) (hl : lock ≠ none) : ¬ b.Blank :=
  fun hb => by
  have := h.refcnt
  rw [hb.refcnt, if_neg hl] at this
  omega

theorem Fine.clean (h : Fine b lock wait leave edited stored) (hb : b.Blank) : b.dirty = false := by
  by_contra hd
  have := hb.valid
  rw [h.dirty (by simpa using hd)] at this
  cases this

/-- Only what is stored for the block of the buffer matters. -/
theorem Fine.congr (h : Fine b lock wait leave edited stored)
    (hs : b.valid = true → stored' b.dev b.blockno = stored b.dev b.blockno) :
    Fine b lock wait leave edited stored' :=
  { h with data := fun hv he => by rw [hs hv, h.data hv he] }

theorem Distinct.blank (h : Distinct c.buf l) (hi : i ∈ l) (hj : j ∈ l) (hne : i ≠ j)
    (hs : (c.buf i).Same (c.buf j)) (hb : ¬ (c.buf i).Blank) : (c.buf j).Blank := by
  have hs' : (c.buf j).Same (c.buf i) := ⟨hs.1.symm, hs.2.symm⟩
  induction l with
  | nil => cases hi
  | cons k l ih =>
    obtain ⟨h1, h2⟩ := pairwise_cons.1 h
    rcases mem_cons.1 hi with rfl | hi'
    · exact h1 j ((mem_cons.1 hj).resolve_left hne.symm) hs
    · rcases mem_cons.1 hj with rfl | hj'
      · exact absurd (h1 i hi' hs') hb
      · exact ih h2 hi' hj'

theorem Ok.blank (h : Ok s) (hne : i ≠ j) (hs : (s.cache.buf i).Same (s.cache.buf j))
    (hb : ¬ (s.cache.buf i).Blank) : (s.cache.buf j).Blank := by
  obtain ⟨l, hr, -, hd⟩ := h.ring
  by_cases hj : j < nbuf
  · have hi : i < nbuf := by
      by_contra hi
      exact hb (h.out i (by omega))
    exact hd.blank (hr.mem.2 hi) (hr.mem.2 hj) hne hs hb
  · exact h.out j (by omega)

/-- The buffer is for the same block as before, and it was in use or still is not. -/
theorem Distinct.touch {buf : ℕ → Buf} (h : Distinct buf l) (hs : (buf i).Same b)
    (hb : (buf i).Blank → b.Blank) : Distinct (upd buf i b) l := by
  have hsame : ∀ k, (buf k).Same (upd buf i b k) :=
    upd_forall (F := fun k b => (buf k).Same b) hs fun _ _ => ⟨rfl, rfl⟩
  have hblank : ∀ k, (buf k).Blank → (upd buf i b k).Blank :=
    upd_forall (F := fun k b => (buf k).Blank → Buf.Blank b) hb fun _ _ => id
  have himp : ∀ {j k}, ((buf j).Same (buf k) → (buf k).Blank) →
      (upd buf i b j).Same (upd buf i b k) → (upd buf i b k).Blank := fun {j k} hjk hx =>
    hblank k (hjk ⟨by rw [(hsame j).1, hx.1, (hsame k).1], by rw [(hsame j).2, hx.2, (hsame k).2]⟩)
  exact List.Pairwise.imp himp h

theorem Ok.touch (h : Ok s) (hi : ¬ (s.cache.buf i).Blank) (hbuf : s'.cache = s.cache.setBuf i b)
    (hs : (s.cache.buf i).Same b) (hrel : s'.released = s.released)
    (hf : Fine b (s'.lock i) (s'.wait i) (s'.leave i) (s'.edited i) s'.stored)
    (hothers : ∀ j, j ≠ i → s'.lock j = s.lock j ∧ s'.wait j = s.wait j ∧ s'.leave j = s.leave j ∧
      s'.edited j = s.edited j)
    (hstored : ∀ d n, ¬ (d = b.dev ∧ n = b.blockno) → s'.stored d n = s.stored d n)
    (hdisk : ∀ d n, ¬ (d = b.dev ∧ n = b.blockno) → s'.disk d n = s.disk d n)
    (hd : b.dirty = false → s'.disk b.dev b.blockno = s'.stored b.dev b.blockno) : Ok s' := by
  obtain ⟨l, hr, hrec, hdist⟩ := h.ring
  have hself : s'.cache.buf i = b := by rw [hbuf]; exact if_pos rfl
  have hbj : ∀ j, j ≠ i → s'.cache.buf j = s.cache.buf j := fun j hj => by
    rw [hbuf]; exact if_neg hj
  have hother : ∀ j, j ≠ i → b.Same (s.cache.buf j) → (s.cache.buf j).Blank := fun j hj hsj =>
    h.blank hj.symm ⟨hs.1.trans hsj.1, hs.2.trans hsj.2⟩ hi
  refine ⟨⟨l, ⟨?_, hr.perm⟩, by rwa [hrel], ?_⟩, fun j => ?_, fun d hd2 n hclean => ?_,
    fun j hj => ?_⟩
  · rw [hbuf]; exact hr.path
  · rw [hbuf]; exact hdist.touch hs fun hb => absurd hb hi
  · by_cases hj : j = i
    · subst hj
      rw [hself]
      exact hf
    obtain ⟨h1, h2, h3, h4⟩ := hothers j hj
    rw [hbj j hj, h1, h2, h3, h4]
    refine (h.fine j).congr fun hv => hstored _ _ fun hx => ?_
    have := (hother j hj ⟨hx.1.symm, hx.2.symm⟩).valid
    rw [hv] at this
    cases this
  · by_cases hx : d = b.dev ∧ n = b.blockno
    · obtain ⟨rfl, rfl⟩ := hx
      exact hd (hself ▸ hclean i (by rw [hself]) (by rw [hself]))
    rw [hdisk d n hx, hstored d n hx]
    refine h.disk d hd2 n fun j h1 h2 => ?_
    have hj : j ≠ i := fun hj => hx ⟨by rw [← h1, hj, hs.1], by rw [← h2, hj, hs.2]⟩
    have := hclean j
    rw [hbj j hj] at this
    exact this h1 h2
  · have hji : j ≠ i := fun hji => hi (hji ▸ h.out j hj)
    rw [hbj j hji]
    exact h.out j hj

/-! ## The steps -/

theorem Fine.not_blank_of_wait {t : P × ℕ × ℕ} (h : Fine b lock wait leave edited stored)
    (ht : t ∈ wait) :
    ¬ b.Blank := fun hb => by
  have := h.refcnt
  have := Multiset.card_pos_iff_exists_mem.2 ⟨t, ht⟩
  rw [hb.refcnt] at *
  omega

theorem Fine.not_blank_of_leave (h : Fine b lock wait leave edited stored) (ht : p ∈ leave) :
    ¬ b.Blank := fun hb => by
  have := h.refcnt
  have := Multiset.card_pos_iff_exists_mem.2 ⟨p, ht⟩
  rw [hb.refcnt] at *
  omega

/-- A clean buffer in use is for a block that is as stored. -/
theorem Ok.disk_eq (h : Ok s) (hi : ¬ (s.cache.buf i).Blank) (hd : (s.cache.buf i).dirty = false) :
    s.disk (s.cache.buf i).dev (s.cache.buf i).blockno =
    s.stored (s.cache.buf i).dev (s.cache.buf i).blockno := by
  refine h.disk _ (h.fine i).dev _ fun j h1 h2 => ?_
  by_cases hj : j = i
  · rw [hj, hd]
  · exact (h.fine j).clean (h.blank (i := i) (Ne.symm hj) ⟨h1.symm, h2.symm⟩ hi)

variable [DecidableEq P]

theorem Ok.modify {data : Block} (h : Ok s) (hs : s.step (.modify p i data) = some s') : Ok s' := by
  simp only [State.step, guard_eq_some] at hs
  obtain ⟨hl, rfl⟩ := hs
  have hf := h.fine i
  have hl' : s.lock i ≠ none := by rw [hl]; simp
  have hi := hf.not_blank hl'
  refine h.touch hi rfl ⟨rfl, rfl⟩ rfl ?_ (fun j hj => ⟨rfl, rfl, rfl, if_neg hj⟩)
    (fun _ _ _ => rfl) (fun _ _ _ => rfl) (h.disk_eq hi)
  exact ⟨hf.refcnt, hf.tokens, hf.dev, hf.dirty, hf.locked, fun _ => hl', fun _ he => by simp at he⟩

theorem Ok.logWrite (h : Ok s) (hs : s.step (.logWrite p i) = some s') : Ok s' := by
  simp only [State.step, guard_eq_some] at hs
  obtain ⟨hl, rfl⟩ := hs
  have hf := h.fine i
  have hl' : s.lock i ≠ none := by rw [hl]; simp
  have hi := hf.not_blank hl'
  refine h.touch hi rfl ⟨rfl, rfl⟩ rfl ?_ (fun j hj => ⟨rfl, rfl, rfl, if_neg hj⟩)
    (fun d n hx => ?_) (fun _ _ _ => rfl) nofun
  · exact ⟨hf.refcnt, hf.tokens, hf.dev, fun _ => hf.locked hl', hf.locked,
      fun he => by simp [State.store] at he, fun _ _ => by simp [State.store]⟩
  · exact (upd_upd_apply _ _ _ _ _ _).trans (if_neg hx)

theorem Ok.brelse (h : Ok s) (hs : s.step (.brelse p i) = some s') : Ok s' := by
  simp only [State.step, guard_eq_some] at hs
  obtain ⟨⟨hl, he⟩, rfl⟩ := hs
  have hf := h.fine i
  have hl' : s.lock i ≠ none := by rw [hl]; simp
  have hi := hf.not_blank hl'
  refine h.touch (b := s.cache.buf i) hi ?_ ⟨rfl, rfl⟩ rfl ?_
    (fun j hj => ⟨if_neg hj, rfl, if_neg hj, rfl⟩) (fun _ _ _ => rfl) (fun _ _ _ => rfl)
    (h.disk_eq hi)
  · simp [Cache.setBuf, Function.update_eq_self]
  refine ⟨?_, hf.tokens, hf.dev, hf.dirty, fun hx => by simp at hx, fun hx => ?_, hf.data⟩
  · have := hf.refcnt
    rw [if_neg hl'] at this
    simp only [upd, if_true, Multiset.card_cons]
    omega
  · rw [he] at hx
    cases hx

theorem iderw_spec {disk disk' : Disks} (h : c.iderw disk i = some (c', disk')) :
    (c.buf i).blockno < fssize ∧
    ((c.buf i).dirty = true ∧ c' = c.setBuf i { c.buf i with valid := true, dirty := false } ∧
        disk' = upd disk ((c.buf i).dev % 2)
        (upd (disk ((c.buf i).dev % 2)) (c.buf i).blockno (c.buf i).data) ∨
      (c.buf i).dirty = false ∧ (c.buf i).valid = false ∧
        c' = c.setBuf i { c.buf i with
          valid := true, data := disk ((c.buf i).dev % 2) (c.buf i).blockno } ∧
        disk' = disk) := by
  simp only [Cache.iderw] at h
  split at h
  · cases h
  split at h
  · cases h
  rename_i hv hb
  refine ⟨by omega, ?_⟩
  split at h
  · rename_i hd
    cases h
    exact .inl ⟨hd, rfl, rfl⟩
  rename_i hd
  cases h
  have hd' : (c.buf i).dirty = false := by simpa using hd
  exact .inr ⟨hd', by simpa [hd'] using hv, rfl, rfl⟩

theorem setBuf_buf : (c.setBuf i b).buf i = b := if_pos rfl

theorem setBuf_setBuf {b' : Buf} : (c.setBuf i b).setBuf i b' = c.setBuf i b' := by
  simp only [Cache.setBuf, upd_idem]

theorem bwrite_spec {disk disk' : Disks} (h : c.bwrite disk i = some (c', disk')) :
    (c.buf i).blockno < fssize ∧ c' = c.setBuf i { c.buf i with valid := true, dirty := false } ∧
      disk' = upd disk ((c.buf i).dev % 2)
      (upd (disk ((c.buf i).dev % 2)) (c.buf i).blockno (c.buf i).data) := by
  obtain ⟨hb, ⟨-, hc, hd⟩ | ⟨hd, -⟩⟩ := iderw_spec h
  · rw [setBuf_buf, setBuf_setBuf] at hc
    rw [setBuf_buf] at hd hb
    exact ⟨hb, hc, hd⟩
  · rw [setBuf_buf] at hd
    cases hd

theorem Ok.bwrite (h : Ok s) (hs : s.step (.bwrite p i) = some s') : Ok s' := by
  simp only [State.step, ite_none_right_eq_some, map_eq_some_iff] at hs
  obtain ⟨hl, ⟨c, disk⟩, hw, rfl⟩ := hs
  have hf := h.fine i
  have hl' : s.lock i ≠ none := by rw [hl]; simp
  have hi := hf.not_blank hl'
  obtain ⟨-, rfl, rfl⟩ := bwrite_spec hw
  rw [Nat.mod_eq_of_lt hf.dev]
  refine h.touch hi rfl ⟨rfl, rfl⟩ rfl ?_ (fun j hj => ⟨rfl, rfl, rfl, if_neg hj⟩)
    (fun d n hx => ?_) (fun d n hx => ?_) fun _ => ?_
  · exact ⟨hf.refcnt, hf.tokens, hf.dev, nofun, fun _ => rfl, fun he => by simp [State.store] at he,
      fun _ _ => by simp [State.store]⟩
  · exact (upd_upd_apply _ _ _ _ _ _).trans (if_neg hx)
  · exact (upd_upd_apply _ _ _ _ _ _).trans (if_neg hx)
  · simp [State.store]

theorem Ok.bread (h : Ok s) (hs : s.step (.bread p dev blockno i) = some s') :
    Ok s' ∧ (s'.cache.buf i).data = s.stored dev blockno ∧ (s'.cache.buf i).dev = dev ∧
      (s'.cache.buf i).blockno = blockno := by
  simp only [State.step, ite_none_right_eq_some, map_eq_some_iff] at hs
  obtain ⟨⟨ht, hl⟩, ⟨c, disk⟩, hw, rfl⟩ := hs
  have hf := h.fine i
  have hi := hf.not_blank_of_wait ht
  have hkey := hf.tokens _ ht
  obtain ⟨rfl, rfl⟩ : dev = (s.cache.buf i).dev ∧ blockno = (s.cache.buf i).blockno := by
    simpa using hkey
  have he : s.edited i = false := by
    by_contra he
    exact hf.held (by simpa using he) hl
  have hcard := Multiset.card_erase_add_one ht
  -- the buffer holds what is stored for its block
  obtain ⟨b, rfl, rfl, hb, hv, hsame, hdirty, href⟩ : ∃ b, c = s.cache.setBuf i b ∧ disk = s.disk ∧
      b.data = s.stored b.dev b.blockno ∧ b.valid = true ∧ (s.cache.buf i).Same b ∧
      b.dirty = (s.cache.buf i).dirty ∧ b.refcnt = (s.cache.buf i).refcnt := by
    unfold Cache.fill at hw
    split at hw
    · rename_i hv
      cases hw
      exact ⟨s.cache.buf i, by simp [Cache.setBuf, Function.update_eq_self], rfl, hf.data hv he, hv,
        ⟨rfl, rfl⟩, rfl, rfl⟩
    rename_i hv
    obtain ⟨-, ⟨hd, -⟩ | ⟨hd, -, rfl, rfl⟩⟩ := iderw_spec hw
    · exact absurd (hf.dirty hd) hv
    · refine ⟨_, rfl, rfl, ?_, rfl, ⟨rfl, rfl⟩, rfl, rfl⟩
      rw [Nat.mod_eq_of_lt hf.dev]
      exact h.disk_eq hi hd
  refine ⟨h.touch hi rfl hsame rfl ?_ (fun j hj => ⟨if_neg hj, if_neg hj, rfl, rfl⟩)
    (fun _ _ _ => rfl) (fun _ _ _ => rfl) fun hd => ?_, ?_, ?_, ?_⟩
  · refine ⟨?_, fun t ht' => ?_, hsame.1 ▸ hf.dev, fun _ => hv, fun _ => hv, fun hx => ?_,
      fun _ _ => hb⟩
    · have := hf.refcnt
      rw [if_pos hl] at this
      simp only [upd, if_true, href]
      rw [if_neg (by simp)]
      omega
    · rw [← hsame.1, ← hsame.2]
      simp only [upd, if_true] at ht'
      exact hf.tokens t (Multiset.mem_of_mem_erase ht')
    · rw [he] at hx
      cases hx
  · rw [← hsame.1, ← hsame.2]
    exact h.disk_eq hi (hdirty ▸ hd)
  · rw [setBuf_buf, hb, hsame.1, hsame.2]
  · rw [setBuf_buf, hsame.1]
  · rw [setBuf_buf, hsame.2]

theorem bget_spec (hr : Ring c l) (h : c.bget dev blockno = some (i, c')) :
    (∃ a b, l = a ++ i :: b ∧ (∀ j ∈ a, ¬ ((c.buf j).dev = dev ∧ (c.buf j).blockno = blockno)) ∧
        ((c.buf i).dev = dev ∧ (c.buf i).blockno = blockno) ∧
        c' = c.setBuf i { c.buf i with refcnt := (c.buf i).refcnt + 1 }) ∨
      (∀ j ∈ l, ¬ ((c.buf j).dev = dev ∧ (c.buf j).blockno = blockno)) ∧ i ∈ l ∧
        ((c.buf i).refcnt = 0 ∧ (c.buf i).dirty = false) ∧
        c' = c.setBuf i
          { c.buf i with
            dev := dev, blockno := blockno, valid := false, dirty := false, refcnt := 1 } := by
  rw [Cache.bget, hr.walk_next, hr.walk_prev] at h
  split at h
  · rename_i k hk
    cases h
    obtain ⟨hp, a, b, rfl, hab⟩ := List.find?_eq_some_iff_append.1 hk
    exact .inl ⟨a, b, rfl, fun j hj hx => by simpa [hx] using hab j hj, by simpa using hp, rfl⟩
  rename_i hk
  split at h
  · rename_i k hk'
    cases h
    exact .inr ⟨fun j hj => by simpa using List.find?_eq_none.1 hk j hj,
      mem_reverse.1 (mem_of_find?_eq_some hk'), by simpa using List.find?_some hk', rfl⟩
  · cases h

theorem Distinct.first {buf : ℕ → Buf} {a l' : List ℕ} (h : Distinct buf (a ++ i :: l'))
    (ha : ∀ j ∈ a, ¬ (buf j).Same (buf i)) (hnd : (a ++ i :: l').Nodup) (hs : (buf i).Same b) :
    Distinct (upd buf i b) (a ++ i :: l') := by
  obtain ⟨h1, h2, h3⟩ := pairwise_append.1 h
  obtain ⟨h4, h5⟩ := pairwise_cons.1 h2
  have hdis := disjoint_of_nodup_append hnd
  have hia : i ∉ a := fun hi => hdis hi (by simp)
  have hil : i ∉ l' := (nodup_cons.1 (nodup_append.1 hnd).2.1).1
  have hne : ∀ j, j ≠ i → upd buf i b j = buf j := fun j hj => if_neg hj
  have hself : upd buf i b i = b := if_pos rfl
  have hcongr : ∀ {m : List ℕ}, i ∉ m → Distinct buf m → Distinct (upd buf i b) m := fun hm hd =>
    hd.imp_of_mem fun {j k} hj hk hx => by
      rw [hne j fun he => hm (he ▸ hj), hne k fun he => hm (he ▸ hk)]
      exact hx
  refine pairwise_append.2
    ⟨hcongr hia h1, pairwise_cons.2 ⟨fun j hj hx => ?_, hcongr hil h5⟩, fun j hj k hk hx => ?_⟩
  · have hji : j ≠ i := fun he => hil (he ▸ hj)
    rw [hself, hne j hji] at hx
    rw [hne j hji]
    exact h4 j hj ⟨hs.1.trans hx.1, hs.2.trans hx.2⟩
  have hji : j ≠ i := fun he => hia (he ▸ hj)
  rcases mem_cons.1 hk with rfl | hk
  · rw [hself, hne j hji] at hx
    exact absurd ⟨hx.1.trans hs.1.symm, hx.2.trans hs.2.symm⟩ (ha j hj)
  have hki : k ≠ i := fun he => hil (he ▸ hk)
  rw [hne j hji, hne k hki] at hx
  rw [hne k hki]
  exact h3 j hj k (by simp [hk]) hx

theorem Ok.get (h : Ok s) (hs : s.step (.get p dev blockno) = some s') (hdev : dev < 2) :
    Ok s' := by
  simp only [State.step, map_eq_some_iff] at hs
  obtain ⟨⟨i, c⟩, hg, rfl⟩ := hs
  obtain ⟨l, hr, hrec, hdist⟩ := h.ring
  have hf := h.fine i
  have hne : ∀ {b : Buf} {j}, j ≠ i → (s.cache.setBuf i b).buf j = s.cache.buf j :=
    fun hj => if_neg hj
  rcases bget_spec hr hg with ⟨a, l', rfl, ha, ⟨rfl, rfl⟩, rfl⟩ | ⟨hall, hil, ⟨href, hclean⟩, rfl⟩
  · refine ⟨⟨_, ⟨hr.path, hr.perm⟩, hrec, hdist.first (fun j hj hx => ha j hj hx) hr.nodup
      ⟨rfl, rfl⟩⟩, fun j => ?_, fun d hd n hx => h.disk d hd n fun j h1 h2 => ?_, fun j hj => ?_⟩
    · by_cases hj : j = i
      · subst hj
        simp only [setBuf_buf, upd, if_true]
        refine ⟨?_, fun t ht => ?_, hf.dev, hf.dirty, hf.locked, hf.held, hf.data⟩
        · show (s.cache.buf j).refcnt + 1 = _
          rw [hf.refcnt, Multiset.card_cons]
          omega
        · rcases Multiset.mem_cons.1 ht with rfl | ht
          · rfl
          · exact hf.tokens t ht
      · simp only [hne hj, upd, if_neg hj]
        exact h.fine j
    · by_cases hj : j = i
      · subst hj
        have := hx j
        simp only [setBuf_buf] at this
        exact this h1 h2
      · have := hx j
        simp only [hne hj] at this
        exact this h1 h2
    · have hji : j ≠ i := fun he => by
        have := hr.mem.1 (by simp : i ∈ a ++ i :: l')
        omega
      simp only [hne hji]
      exact h.out j hj
  have hzero := hf.refcnt
  rw [href] at hzero
  have hwait : s.wait i = 0 := Multiset.card_eq_zero.1 (by omega)
  have hleave : s.leave i = 0 := Multiset.card_eq_zero.1 (by omega)
  have hlock : s.lock i = none := by
    by_contra hl
    rw [if_neg hl] at hzero
    omega
  refine ⟨⟨l, ⟨hr.path, hr.perm⟩, hrec, ?_⟩, fun j => ?_, fun d hd n hx => ?_, fun j hj => ?_⟩
  · refine (List.Pairwise.and hdist hr.nodup).imp_of_mem ?_
    rintro j k hj hk ⟨hjk, hn⟩ hx
    by_cases hji : j = i
    · subst hji
      rw [setBuf_buf, hne (Ne.symm hn)] at hx
      exact absurd ⟨hx.1.symm, hx.2.symm⟩ (hall k hk)
    by_cases hki : k = i
    · subst hki
      rw [setBuf_buf, hne hji] at hx
      exact absurd hx (hall j hj)
    · rw [hne hji, hne hki] at hx
      rw [hne hki]
      exact hjk hx
  · by_cases hj : j = i
    · subst hj
      simp only [setBuf_buf, upd, if_true, hwait, hleave, hlock]
      refine ⟨by simp, fun t ht => ?_, hdev, by simp, fun hx => absurd rfl hx, fun hx =>
        ?_, by simp⟩
      · rcases Multiset.mem_cons.1 ht with rfl | ht
        · rfl
        · cases ht
      · exact absurd hlock (hf.held hx)
    · simp only [hne hj, upd, if_neg hj]
      exact h.fine j
  · refine h.disk d hd n fun j h1 h2 => ?_
    by_cases hj : j = i
    · rwa [hj]
    · have := hx j
      simp only [hne hj] at this
      exact this h1 h2
  · have hji : j ≠ i := fun he => by
      have := hr.mem.1 hil
      omega
    simp only [hne hji]
    exact h.out j hj

theorem Distinct.moveFront {buf : ℕ → Buf} (h : Distinct buf l) (hl : l.Nodup) (hi : i ∈ l)
    (hb : ¬ (buf i).Blank) :
    Distinct buf (i :: l.erase i) := by
  refine pairwise_cons.2 ⟨fun j hj hx => ?_, h.sublist erase_sublist⟩
  rw [hl.mem_erase_iff] at hj
  exact Distinct.blank (c := ⟨buf, fun _ => none, fun _ => none⟩) h hi hj.2 hj.1.symm hx hb

theorem Ok.drop (h : Ok s) (hs : s.step (.drop p i) = some s') : Ok s' := by
  simp only [State.step, guard_eq_some] at hs
  obtain ⟨hp, rfl⟩ := hs
  have hf := h.fine i
  have hi := hf.not_blank_of_leave hp
  have hcard := Multiset.card_erase_add_one hp
  have href := hf.refcnt
  -- nothing but the count and the list changes
  have hok : Ok { s with
      cache := s.cache.setBuf i { s.cache.buf i with refcnt := (s.cache.buf i).refcnt - 1 }
      leave := upd s.leave i ((s.leave i).erase p) } := by
    refine h.touch hi rfl ⟨rfl, rfl⟩ rfl ?_ (fun j hj => ⟨rfl, rfl, if_neg hj, rfl⟩)
      (fun _ _ _ => rfl) (fun _ _ _ => rfl) (h.disk_eq hi)
    refine ⟨?_, hf.tokens, hf.dev, hf.dirty, hf.locked, hf.held, hf.data⟩
    simp only [upd, if_true]
    show (s.cache.buf i).refcnt - 1 = _
    omega
  by_cases h1 : (s.cache.buf i).refcnt = 1
  · obtain ⟨l, hr, hrec, hdist⟩ := h.ring
    have hil : i ∈ l := hr.mem.2 (by
      by_contra hge
      exact hi (h.out i (by omega)))
    have hdrop : s.cache.drop i =
      { s.cache.setBuf i { s.cache.buf i with refcnt := (s.cache.buf i).refcnt - 1 } with
        next := (s.cache.drop i).next, prev := (s.cache.drop i).prev } := by
      rw [Cache.drop, setBuf_buf, if_pos (by rw [h1])]
    have hpath : Dll.Path (s.cache.drop i).next (s.cache.drop i).prev none
        (i :: l.erase i) none := by
      rw [Cache.drop, setBuf_buf, if_pos (by rw [h1])]
      exact hr.path.moveFront hr.nodup hil
    rw [if_pos h1, hdrop]
    refine ⟨⟨i :: l.erase i, ⟨hpath, (perm_cons_erase hil).symm.trans hr.perm⟩, ?_, ?_⟩,
      hok.fine, hok.disk, hok.out⟩
    · refine pairwise_cons.2 ⟨fun j _ => by simp, ?_⟩
      refine (hrec.sublist erase_sublist).imp_of_mem fun {j k} hj hk hjk => ?_
      rw [hr.nodup.mem_erase_iff] at hj hk
      rw [idxOf_cons_ne _ (Ne.symm hj.1), idxOf_cons_ne _ (Ne.symm hk.1)]
      exact Nat.succ_le_succ hjk
    · exact (hdist.moveFront hr.nodup hil hi).touch ⟨rfl, rfl⟩ fun hb => absurd hb hi
  · have hdrop : s.cache.drop i = s.cache.setBuf i { s.cache.buf i with
      refcnt := (s.cache.buf i).refcnt - 1 } := by
      rw [Cache.drop, setBuf_buf, if_neg]
      show (s.cache.buf i).refcnt - 1 ≠ 0
      have := Multiset.card_pos_iff_exists_mem.2 ⟨p, hp⟩
      omega
    rw [if_neg h1, hdrop]
    exact hok

/-! ## Runs -/

theorem Ok.step {e : Event P} (h : Ok s) (hs : s.step e = some s') (he : e.Real) : Ok s' := by
  cases e with
  | get p dev blockno => exact h.get hs he
  | bread p dev blockno i => exact (h.bread hs).1
  | modify p i data => exact h.modify hs
  | bwrite p i => exact h.bwrite hs
  | logWrite p i => exact h.logWrite hs
  | brelse p i => exact h.brelse hs
  | drop p i => exact h.drop hs

theorem Ok.of_run {disk : Disks} {es : List (Event P)}
    (h : ((system P).restrict fun _ e => e.Real).Run (State.init disk) es s) : Ok s :=
  h.invariant (init_ok disk) fun _ _ _ hi hs => hi.step hs.1 hs.2

/-- What a step may do to a buffer. -/
structure Changes (b b' : Buf) (logged : Prop) : Prop where
  /-- Only a clean buffer that nobody uses is recycled. -/
  key : 0 < b.refcnt ∨ b.dirty = true → b.Same b'
  valid : b'.valid = true → b.valid = true ∧ b.Same b' ∨ b'.blockno < fssize
  dirty : b'.dirty = true → b.dirty = true ∨ logged

theorem Changes.refl {logged : Prop} (b : Buf) : Changes b b logged :=
  ⟨fun _ => ⟨rfl, rfl⟩, fun h => .inl ⟨h, rfl, rfl⟩, .inl⟩

theorem step_changes {e : Event P} (hr : Ring s.cache l) (hs : s.step e = some s') (i : ℕ) :
    Changes (s.cache.buf i) (s'.cache.buf i) (∃ p, e = .logWrite p i) := by
  have hset : ∀ {b : Buf} {j} (logged : ℕ → Prop), Changes (s.cache.buf j) b (logged j) →
      Changes (s.cache.buf i) ((s.cache.setBuf j b).buf i) (logged i) := fun {b j} logged hb =>
    upd_forall (F := fun k b => Changes (s.cache.buf k) b (logged k)) hb (fun _ _ => .refl _) i
  cases e with
  | get p dev blockno =>
    simp only [State.step, map_eq_some_iff] at hs
    obtain ⟨⟨j, c⟩, hg, rfl⟩ := hs
    rcases bget_spec hr hg with ⟨a, l', -, -, -, rfl⟩ | ⟨-, -, ⟨href, hclean⟩, rfl⟩
    · exact hset (fun i => ∃ p', Event.get p dev blockno = .logWrite p' i)
        ⟨fun _ => ⟨rfl, rfl⟩, fun h => .inl ⟨h, rfl, rfl⟩, .inl⟩
    · exact hset (fun i => ∃ p', Event.get p dev blockno = .logWrite p' i)
        ⟨fun h => by simp [href, hclean] at h, (by simp), (by simp)⟩
  | bread p dev blockno j =>
    simp only [State.step, ite_none_right_eq_some, map_eq_some_iff] at hs
    obtain ⟨-, ⟨c, disk⟩, hw, rfl⟩ := hs
    unfold Cache.fill at hw
    split at hw
    · cases hw
      exact .refl _
    obtain ⟨hb, ⟨-, rfl, -⟩ | ⟨-, -, rfl, -⟩⟩ := iderw_spec hw
    · exact hset (fun i => ∃ p', Event.bread p dev blockno j = .logWrite p' i)
        ⟨fun _ => ⟨rfl, rfl⟩, fun _ => .inr hb, (by simp)⟩
    · exact hset (fun i => ∃ p', Event.bread p dev blockno j = .logWrite p' i)
        ⟨fun _ => ⟨rfl, rfl⟩, fun _ => .inr hb, .inl⟩
  | modify p j data =>
    simp only [State.step, guard_eq_some] at hs
    obtain ⟨-, rfl⟩ := hs
    exact hset (fun i => ∃ p', Event.modify p j data = .logWrite p' i)
      ⟨fun _ => ⟨rfl, rfl⟩, fun h => .inl ⟨h, rfl, rfl⟩, .inl⟩
  | bwrite p j =>
    simp only [State.step, ite_none_right_eq_some, map_eq_some_iff] at hs
    obtain ⟨-, ⟨c, disk⟩, hw, rfl⟩ := hs
    obtain ⟨hb, rfl, -⟩ := bwrite_spec hw
    exact hset (fun i => ∃ p', Event.bwrite p j = .logWrite p' i)
      ⟨fun _ => ⟨rfl, rfl⟩, fun _ => .inr hb, (by simp)⟩
  | logWrite p j =>
    simp only [State.step, guard_eq_some] at hs
    obtain ⟨-, rfl⟩ := hs
    exact hset (fun i => ∃ p', Event.logWrite p j = .logWrite p' i)
      ⟨fun _ => ⟨rfl, rfl⟩, fun h => .inl ⟨h, rfl, rfl⟩, fun _ => .inr ⟨p, rfl⟩⟩
  | brelse p j =>
    simp only [State.step, guard_eq_some] at hs
    obtain ⟨-, rfl⟩ := hs
    exact .refl _
  | drop p j =>
    simp only [State.step, guard_eq_some] at hs
    obtain ⟨-, rfl⟩ := hs
    have hbuf : (s.cache.drop j).buf =
        (s.cache.setBuf j { s.cache.buf j with refcnt := (s.cache.buf j).refcnt - 1 }).buf := by
      simp only [Cache.drop]
      split <;> rfl
    show Changes (s.cache.buf i) ((s.cache.drop j).buf i) _
    rw [hbuf]
    exact hset (fun i => ∃ p', Event.drop p j = .logWrite p' i)
      ⟨fun _ => ⟨rfl, rfl⟩, fun h => .inl ⟨h, rfl, rfl⟩, .inl⟩

/-- **The buffer cache refines the disks.**  In every run with requests for the two disks: the list
through `next` and `prev` holds every buffer once, the one that was released last first; two buffers
that are valid or referenced are for different blocks; no step gives a buffer that is referenced or
dirty to another block; and `bread` returns what was last stored for the block. -/
theorem cache_refines {disk : Disks} {es : List (Event P)}
    (hrun : ((system P).restrict fun _ e => e.Real).Run (State.init disk) es s) :
    (∃ l, Dll.Path s.cache.next s.cache.prev none l none ∧ l.Perm (List.range nbuf) ∧
      l.Pairwise fun i j => s.released.idxOf i ≤ s.released.idxOf j) ∧
    (∀ i j, i ≠ j → (s.cache.buf i).valid = true ∨ 0 < (s.cache.buf i).refcnt →
      (s.cache.buf j).valid = true ∨ 0 < (s.cache.buf j).refcnt →
      ((s.cache.buf i).dev, (s.cache.buf i).blockno) ≠
      ((s.cache.buf j).dev, (s.cache.buf j).blockno)) ∧
    (∀ e s' i, s.step e = some s' → 0 < (s.cache.buf i).refcnt ∨ (s.cache.buf i).dirty = true →
      ((s'.cache.buf i).dev, (s'.cache.buf i).blockno) =
      ((s.cache.buf i).dev, (s.cache.buf i).blockno)) ∧
    ∀ p dev blockno i s', s.step (.bread p dev blockno i) = some s' →
      ((s'.cache.buf i).dev, (s'.cache.buf i).blockno) = (dev, blockno) ∧
        (s'.cache.buf i).data = s.stored dev blockno := by
  have h := Ok.of_run hrun
  obtain ⟨l, hr, hrec, -⟩ := h.ring
  have hblank : ∀ i, (s.cache.buf i).valid = true ∨ 0 < (s.cache.buf i).refcnt →
      ¬ (s.cache.buf i).Blank :=
    fun i hi hb => by
      rw [hb.valid, hb.refcnt] at hi
      simp at hi
  refine ⟨⟨l, hr.path, hr.perm, hrec⟩, fun i j hne hi hj he => ?_, fun e s' i hs hi => ?_,
    fun p dev blockno i s' hs => ?_⟩
  · obtain ⟨h₁, h₂⟩ := Prod.mk.inj he
    exact hblank j hj (h.blank hne ⟨h₁, h₂⟩ (hblank i hi))
  · obtain ⟨h₁, h₂⟩ := (step_changes hr hs i).key hi
    rw [h₁, h₂]
  · obtain ⟨-, h₁, rfl, rfl⟩ := h.bread hs
    exact ⟨rfl, h₁⟩

instance : DecidablePred (Event.Real : Event P → Prop) := fun e =>
  match e with
  | .get _ dev _ => inferInstanceAs (Decidable (dev < 2))
  | .bread .. | .modify .. | .bwrite .. | .logWrite .. | .brelse .. | .drop .. => .isTrue trivial

/-- A process stores a block of ones as block 1 of device 0. -/
def storeOnes : List (Event Unit) :=
  [.get () 0 1, .bread () 0 1 0, .modify () 0 fun _ => 1, .bwrite () 0, .brelse () 0, .drop () 0,
      .get () 0 1]

theorem cache_refines_ones : ∃ s : State Unit,
    ((system Unit).restrict fun _ e => e.Real).Run (State.init fun _ _ => Bytes.zero) storeOnes s ∧
    ∃ s', s.step (.bread () 0 1 0) = some s' ∧ (s'.cache.buf 0).data = s.stored 0 1 := by
  have hex : ((LTS.exec (fun s e => if e.Real then State.step s e else none)
      (State.init fun _ _ => Bytes.zero : State Unit) storeOnes).bind fun s =>
      s.step (.bread () 0 1 0)).isSome =
      true := by decide +kernel
  obtain ⟨s', hs'⟩ := isSome_iff_exists.1 hex
  obtain ⟨s, hs, hstep⟩ := bind_eq_some_iff.1 hs'
  have hrun := LTS.run_restrict_of_exec hs
  exact ⟨s, hrun, s', hstep, ((cache_refines hrun).2.2.2 () 0 1 0 s' hstep).2⟩

/-- The driver takes device 2 for device 0: a block that was stored for one is read for the
other. -/
theorem device_two_reads_zero : ∃ s s' : State Unit,
    (system Unit).Run (State.init fun _ _ => Bytes.zero)
      [.get () 0 1, .bread () 0 1 0, .modify () 0 fun _ => 1, .bwrite () 0, .brelse () 0,
        .drop () 0, .get () 2 1] s ∧
    s.step (.bread () 2 1 1) = some s' ∧ (s'.cache.buf 1).data 0 = 1 ∧ s.stored 2 1 0 = 0 := by
  have hex : ((LTS.exec State.step (State.init fun _ _ => Bytes.zero : State Unit)
      [.get () 0 1, .bread () 0 1 0, .modify () 0 fun _ => 1, .bwrite () 0, .brelse () 0,
        .drop () 0, .get () 2 1]).bind
      fun s => (s.step (.bread () 2 1 1)).map fun s' => ((s'.cache.buf 1).data 0, s.stored 2 1 0)) =
      some (1, 0) := by decide +kernel
  obtain ⟨s, hs, hx⟩ := bind_eq_some_iff.1 hex
  obtain ⟨s', hstep, he⟩ := map_eq_some_iff.1 hx
  obtain ⟨h₁, h₂⟩ := Prod.mk.inj he
  exact ⟨s, s', LTS.run_of_exec hs, hstep, h₁, h₂⟩

end Bio

end Xv6
