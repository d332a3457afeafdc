import Xv6.Fs.Files

/-!
# Freeing the contents of an inode

`itrunc` frees the blocks of an inode one by one.  The pointers stay where they are until all blocks
are freed, so half way the free map agrees with the pointers that are left: `Truncs st ip K st'`
says that the blocks at the positions `K` have been freed.
-/

namespace Xv6

open Function

namespace Store

variable {st st₁ st₂ : Store} {ip ip' : Inode} {b i k n : ℕ} {e : Panic} {K K' : ℕ → Bool}

/-- The blocks of `ip` at the positions `K` have been freed, and nothing else has happened. -/
structure Truncs (st : Store) (ip : Inode) (K : ℕ → Bool) (st' : Store) :
    Prop extends Keeps st st' where
  formatted : st'.Formatted
  owns : Owns st'.bit (fun x => if x.1 = ip.inum ∧ K x.2 then 0 else st.ptrs (st.overlay ip) x)
    st.sb.nmeta st.sb.size
  dinode : ∀ i < st.sb.ninodes, st'.dinode i = st.dinode i
  disk : ∀ c, st.sb.nmeta ≤ c → st'.disk c = st.disk c
  logs : ∃ a, Logs st 0 a [] st'

/-- A panic while blocks are freed. -/
structure TruncFails (st : Store) (l : List ℕ) (e : Panic) (st' : Store) :
    Prop extends Keeps st st' where
  fails : Fails st 0 e st'
  logs : ∃ a, Logs st 0 a l st'

theorem Truncs.refl (h : st.Base ip) (hK : ∀ k, K k = false) : Truncs st ip K st := by
  refine ⟨.refl, h.toFormatted, ?_, fun _ _ => rfl, fun _ _ => rfl, 0, .refl⟩
  refine h.owns.congr (fun _ _ => rfl) (fun x => ?_) (Nat.sub_le _ _)
  simp [hK]

theorem Truncs.congr (h : Truncs st ip K st₁) (hb : st.Base ip)
    (hK : ∀ k, ip.toDinode.ptr st.disk k ≠ 0 → K' k = K k) : Truncs st ip K' st₁ := by
  refine ⟨h.toKeeps, h.formatted, ?_, h.dinode, h.disk, h.logs⟩
  refine h.owns.congr (fun _ _ => rfl) ?_ (Nat.sub_le _ _)
  rintro ⟨i, k⟩
  by_cases hi : i = ip.inum
  · subst hi
    by_cases h0 : ip.toDinode.ptr st.disk k = 0
    · simp only [hb.ptrs_inum, h0, ite_self]
    · simp only [hK k h0]
  · simp [hi]

theorem bfree_truncs (hb : st.Base ip) (h : Truncs st ip K st₁)
    (h0 : ip.toDinode.ptr st.disk k ≠ 0) (hk : K k = false) (hp : ip.toDinode.ptr st.disk k = b)
    (hK : ∀ m, K' m = (decide (m = k) || K m)) :
    wp (bfree b) (fun _ st' => Truncs st ip K' st') (TruncFails st []) st₁ := by
  have hx : (if (ip.inum, k).1 = ip.inum ∧ K (ip.inum, k).2 then 0
      else st.ptrs (st.overlay ip) (ip.inum, k)) = b := by simp [hk, hb.ptrs_inum, hp]
  have hb0 : b ≠ 0 := by rwa [← hp]
  have hlt : b < st.sb.size := by
    have := h.owns.ptr_lt (ip.inum, k)
    rw [hx] at this
    exact this hb0
  have hused : st₁.bit b = true := by
    have := h.owns.used_ptr (ip.inum, k)
    rw [hx] at this
    exact this hb0
  obtain ⟨a, hl⟩ := h.logs
  refine wp_mono (bfree_spec h.formatted (by rwa [h.sb]) hused) (fun _ st₂ hf => ?_)
    fun e st₂ ⟨hF, hL, hK'⟩ => ?_
  · refine ⟨h.toKeeps.trans hf.toKeeps, hf.formatted, ?_, fun i hi => ?_, fun c hc => ?_, a + 1,
      hl.trans hf.logs h.sb⟩
    · refine h.owns.free (x := (ip.inum, k)) (Nat.sub_le _ _) (by rwa [hx]) (fun c hc => ?_) ?_
      · rw [hx]
        exact hf.bit c (by rwa [h.sb])
      rintro ⟨i, m⟩
      rw [update_apply]
      by_cases hi : i = ip.inum
      · subst hi
        by_cases hm : m = k
        · simp [hm, hK]
        · simp [hm, hK]
      · simp [hi]
    · rw [hf.dinode i (by rwa [h.sb]), h.dinode i hi]
    · rw [hf.disk c (by rwa [h.sb]), h.disk c hc]
  · exact ⟨h.toKeeps.trans hK', hF.of_zero, a + 1, hl.trans hL h.sb⟩

theorem truncDirect_spec (hb : st.Base ip) (hn : n ≤ ndirect) :
    wp (truncDirect ip n)
      (fun ip' st' => Truncs st ip (fun k => decide (k < n)) st' ∧
        ip' = { ip with addrs := fun j => if j < n then 0 else ip.addrs j })
      (TruncFails st []) st := by
  induction n with
  | zero => exact ⟨.refl hb (by simp), by simp⟩
  | succ n ih =>
    rw [truncDirect]
    refine wp_seq (ih (by omega)) fun ip₁ st₁ ⟨h, hip⟩ => ?_
    have ha : ip₁.addrs n = ip.toDinode.ptr st.disk n := by
      rw [hip, Dinode.ptr_of_le (by omega)]
      simp
    have hadd : ∀ j, (if j < n + 1 then 0 else ip.addrs j) =
        if j = n then 0 else if j < n then 0 else ip.addrs j := by
      intro j
      split_ifs <;> first | rfl | omega
    by_cases h0 : ip₁.addrs n = 0
    · rw [if_pos h0, wp_pure]
      refine ⟨h.congr hb fun k hk => ?_, ?_⟩
      · have hne : k ≠ n := by rintro rfl; exact hk (ha ▸ h0)
        simp only [decide_eq_decide]
        omega
      rw [hip]
      congr 1
      congr 1
      funext j
      rw [hadd]
      by_cases hj : j = n
      · rw [hj]
        rw [hip] at h0
        simpa using h0
      · rw [if_neg hj]
    · rw [if_neg h0]
      simp only [wp_bind, wp_pure]
      refine wp_post (bfree_truncs hb h (ha ▸ h0) (by simp) ha.symm fun m => ?_)
        fun _ st₂ h2 => ⟨h2, ?_⟩
      · rw [Bool.eq_iff_iff]
        simp only [decide_eq_true_eq, Bool.or_eq_true]
        omega
      rw [hip]
      simp only [Inode.setAddr, upd_eq_update]
      congr 2
      funext j
      rw [hadd, update_apply]

theorem truncIndirect_spec (hb : st.Base ip) (hi : ip.addrs ndirect ≠ 0) (hn : n ≤ nindirect)
    (h : Truncs st ip (fun k => decide (k < ndirect)) st₁) :
    wp (truncIndirect (ip.addrs ndirect) n)
      (fun _ st' => Truncs st ip
        (fun k => decide (k < ndirect ∨ ndirect < k ∧ k < ndirect + 1 + n)) st')
      (TruncFails st []) st₁ := by
  induction n with
  | zero =>
    refine h.congr hb fun k _ => ?_
    simp only [decide_eq_decide]
    omega
  | succ n ih =>
    rw [truncIndirect]
    refine wp_seq (ih (by omega)) fun _ st₂ h2 => ?_
    have hmeta : st.sb.nmeta ≤ ip.addrs ndirect := by
      have := hb.owns.le_ptr (ip.inum, ndirect)
      rw [hb.ptrs_inum, Dinode.ptr_of_le le_rfl] at this
      exact this hi
    have ha : (st₂.disk (ip.addrs ndirect)).entry n =
        ip.toDinode.ptr st.disk (ndirect + 1 + n) := by
      rw [Dinode.ptr_of_lt (by omega) (by simp only [nindirect] at hn ⊢; omega) hi, h2.disk _ hmeta]
      congr 1
      omega
    simp only [bread, wp_bind, wp_get, wp_pure]
    by_cases h0 : (st₂.disk (ip.addrs ndirect)).entry n = 0
    · rw [if_pos h0, wp_pure]
      refine h2.congr hb fun k hk => ?_
      have hne : k ≠ ndirect + 1 + n := by rintro rfl; exact hk (ha ▸ h0)
      simp only [decide_eq_decide]
      omega
    rw [if_neg h0]
    refine bfree_truncs hb h2 (ha ▸ h0) ?_ ha.symm fun m => ?_
    · simp only [decide_eq_false_iff_not]
      omega
    · rw [Bool.eq_iff_iff]
      simp only [decide_eq_true_eq, Bool.or_eq_true]
      omega

theorem truncTail_spec (hb : st.Base ip) (h : Truncs st ip (fun k => decide (k < ndirect)) st₁)
    (hip : ip' = { ip with addrs := fun j => if j < ndirect then 0 else ip.addrs j }) :
    wp (truncTail ip')
      (fun ip'' st' => Truncs st ip (fun _ => true) st' ∧ ip'' = { ip with addrs := fun _ => 0 })
      (TruncFails st []) st₁ := by
  have ha : ip'.addrs ndirect = ip.addrs ndirect := by rw [hip]; simp
  have hz : ∀ k, ip.addrs ndirect = 0 → ndirect ≤ k → ip.toDinode.ptr st.disk k = 0 := by
    intro k h0 hk
    unfold Dinode.ptr
    split_ifs with h1 h2
    · rw [show k = ndirect by omega, h0]
    · rfl
    · exact absurd (.inl h0) h2
  have hout : ∀ j, ndirect < j → ip.addrs j = 0 := hb.ok.addrs_out
  have haddr : ∀ j, j ≠ ndirect → (if j < ndirect then 0 else ip.addrs j) = 0 := by
    intro j hj
    split_ifs
    · rfl
    · exact hout j (by omega)
  unfold truncTail
  rw [ha]
  by_cases h0 : ip.addrs ndirect = 0
  · rw [if_pos h0, wp_pure]
    refine ⟨h.congr hb fun k hk => ?_, ?_⟩
    · have hlt : k < ndirect := by
        by_contra hge
        exact hk (hz k h0 (by omega))
      simp [hlt]
    rw [hip]
    congr 2
    funext j
    by_cases hj : j = ndirect
    · rw [hj, h0, ite_self]
    · exact haddr j hj
  obtain ⟨N, hN⟩ : ∃ N, N = nindirect := ⟨_, rfl⟩
  rw [if_neg h0, ← hN]
  simp only [wp_bind, wp_pure]
  refine wp_post (truncIndirect_spec hb h0 hN.le h) fun _ st₂ h2 => ?_
  have hp : ip.toDinode.ptr st.disk ndirect = ip.addrs ndirect := Dinode.ptr_of_le le_rfl
  refine wp_post (bfree_truncs hb h2 (by rwa [hp]) (by simp) hp fun _ => rfl) fun _ st₃ h3 => ?_
  refine ⟨h3.congr hb fun k hk => ?_, ?_⟩
  · -- Beyond the entries of the indirect block there are no pointers.
    have hlt : k ≤ ndirect + nindirect := by
      by_contra hge
      refine hk ?_
      rw [Dinode.ptr, if_neg (by omega), if_pos (.inr (by omega))]
    symm
    simp only [Bool.or_eq_true, decide_eq_true_eq]
    omega
  rw [hip]
  simp only [Inode.setAddr, upd_eq_update]
  congr 2
  funext j
  rw [update_apply]
  by_cases hj : j = ndirect
  · rw [if_pos hj]
  · rw [if_neg hj, haddr j hj]

/-- The disk after the blocks of `ip` have been freed, seen with the empty inode in place of
`ip`. -/
theorem Truncs.owns_over (h : Truncs st ip (fun _ => true) st₁) (hb : st.Base ip)
    (hinum : ip'.inum = ip.inum) (hz : ∀ j, ip'.addrs j = 0) :
    Owns st₁.bit (st₁.ptrs (st₁.overlay ip')) st.sb.nmeta st.sb.size := by
  refine h.owns.congr (fun _ _ => rfl) ?_ (Nat.sub_le _ _)
  rintro ⟨i, k⟩
  by_cases hi : i = ip.inum
  · subst hi
    simp only [ptrs, true_and, ↓reduceIte, ← hinum, over_self,
      Dinode.ptr_of_addrs_zero hz, ite_self]
  simp only [hi, false_and, ↓reduceIte]
  simp only [ptrs, h.sb, over_of_ne hi, over_of_ne (show i ≠ ip'.inum by rwa [hinum])]
  by_cases hl : i < st.sb.ninodes
  · rw [h.dinode i hl]
    by_cases ht : (st.dinode i).type = 0
    · simp [ht]
    simp only [hl, ht, ne_eq, not_false_eq_true, and_self, ↓reduceIte]
    refine Dinode.ptr_congr fun h0 => h.disk _ ?_
    have := hb.owns.le_ptr (i, ndirect)
    rw [ptrs_of_live hl (by rwa [over_of_ne hi]), over_of_ne hi,
      Dinode.ptr_of_le le_rfl] at this
    exact this h0
  · simp [hl]

theorem Truncs.disk_other (h : Truncs st ip (fun _ => true) st₁) (hb : st.Base ip)
    (hi : i ≠ ip.inum) (hl : i < st.sb.ninodes) (ht : (st.dinode i).type ≠ 0)
    (hk : (st.dinode i).ptr st.disk k ≠ 0) :
    st₁.disk ((st.dinode i).ptr st.disk k) = st.disk ((st.dinode i).ptr st.disk k) := by
  refine h.disk _ ?_
  have := hb.owns.le_ptr (i, k)
  rw [ptrs_of_live hl (by rwa [over_of_ne hi]), over_of_ne hi] at this
  exact this hk

/-- Writing the empty inode back, after its blocks have been freed. -/
theorem Truncs.puts (h : Truncs st ip (fun _ => true) st₁) (hok : st.Ok) (hc : st.Copy ip)
    (hinum : ip'.inum = ip.inum) (hz : ∀ j, ip'.addrs j = 0) (hs : ip'.size = 0)
    (hp : Puts st₁ ip' st₂) :
    st₂.Ok ∧ st₂.nodes = Function.update st.nodes ip.inum
      (if ip'.type = 0 then .free
        else ⟨ip'.type, ip'.major, ip'.minor, ip'.nlink, 0, Bytes.zero⟩) := by
  have hb := (hok.mid hc).toBase
  have hlt : ip.inum < st₁.sb.ninodes := by rw [h.sb]; exact hc.inum_lt
  have hself : st₁.overlay ip' ip.inum = ip'.toDinode := by rw [← hinum, over_self]
  have hother : ∀ i < st.sb.ninodes, i ≠ ip.inum → st₁.overlay ip' i = st.dinode i := by
    intro i hi hne
    rw [over_of_ne (by rwa [hinum]), h.dinode i hi]
  have hown : Owns st₁.bit (st₁.ptrs (st₁.overlay ip')) st₁.sb.nmeta st₁.sb.size := by
    rw [h.sb]
    exact h.owns_over hb hinum hz
  obtain ⟨hok2, hn2⟩ := hp.ok hown fun i hi ht => by
    by_cases hne : i = ip.inum
    · rw [hne, hself, hs]
      exact Dinode.shaped_of_addrs_zero hz
    rw [h.sb] at hi
    rw [hother i hi hne] at ht ⊢
    refine (hok.shaped i hi ht).congr rfl fun k => Dinode.ptr_congr fun h0 => ?_
    have := h.disk_other hb hne hi ht (k := ndirect)
    rw [Dinode.ptr_of_le le_rfl] at this
    exact this h0
  refine ⟨hok2, ?_⟩
  rw [hn2]
  funext i
  by_cases hne : i = ip.inum
  · rw [hne, update_self, nodesOf, if_pos hlt, hself, Dinode.node,
      Dinode.data_of_addrs_zero hz, hs]
  rw [update_of_ne hne, nodesOf, nodes, nodesOf, h.sb]
  split_ifs with hi
  · rw [hother i hi hne]
    unfold Dinode.node
    split_ifs with ht
    · rfl
    · rw [Dinode.data_eq_of_block fun bn _ => Dinode.block_congr fun k hk =>
        h.disk_other hb hne hi ht hk]
  · rfl

/-- **`itrunc` empties the file and leaves every other file alone.** -/
theorem itrunc_spec (h : st.Ok) (hc : st.Copy ip) :
    wp (itrunc ip)
      (fun ip' st' => ip' = { ip with size := 0, addrs := fun _ => 0 } ∧
        Edits st ip { st.nodes ip.inum with size := 0, data := Bytes.zero } ip' st' ∧
        ∃ a, Logs st 0 a [st.sb.iblock ip.inum] st')
      (TruncFails st [st.sb.iblock ip.inum]) st := by
  have hmid := h.mid hc
  have hb := hmid.toBase
  have hfail : ∀ e st', TruncFails st [] e st' → TruncFails st [st.sb.iblock ip.inum] e st' := by
    rintro e st' ⟨hK, hF, a, hL⟩
    exact ⟨hK, hF, a, hL.mono le_rfl le_rfl (by simp)⟩
  simp only [itrunc, wp_bind, wp_pure]
  refine wp_mono (truncDirect_spec hb le_rfl) (fun ip₁ st₁ hres => ?_) hfail
  obtain ⟨h1, hip1⟩ := hres
  refine wp_mono (truncTail_spec hb h1 hip1) (fun ip₂ st₂ hres => ?_) hfail
  obtain ⟨h2, hip2⟩ := hres
  obtain ⟨a, hl⟩ := h2.logs
  subst hip2
  -- The inode that is written back.
  obtain ⟨ip₃, hip3⟩ : ∃ x : Inode, x = { ip with size := 0, addrs := fun _ => 0 } := ⟨_, rfl⟩
  have hinum : ip₃.inum = ip.inum := by rw [hip3]
  have htype : ip₃.type ≠ 0 := by rw [hip3]; exact hc.type_ne
  have hz : ∀ j, ip₃.addrs j = 0 := by rw [hip3]; exact fun _ => rfl
  have hs : ip₃.size = 0 := by rw [hip3]
  have hok : ip₃.toDinode.Ok := by
    refine ⟨?_, ?_, ?_, ?_, by rw [hs]; decide, fun j => by rw [hz]; decide, fun j _ => hz j⟩
    · rw [hip3]; exact hb.ok.type_lt
    · rw [hip3]; exact hb.ok.major_lt
    · rw [hip3]; exact hb.ok.minor_lt
    · rw [hip3]; exact hb.ok.nlink_lt
  have hlt : ip₃.inum < st₂.sb.ninodes := by rw [h2.sb, hinum]; exact hc.inum_lt
  dsimp only
  rw [← hip3]
  refine wp_mono (iupdate_spec h2.formatted hlt hok) (fun _ st₃ hp => ?_) fun e st₃ hres => ?_
  · obtain ⟨hok3, hn3⟩ := h2.puts h hc hinum hz hs hp
    refine ⟨rfl,
      ⟨h2.toKeeps.trans hp.toKeeps, hok3, hp.copy hlt htype, hinum, ?_, fun i hi hne => ?_⟩, a, ?_⟩
    · rw [hn3, if_neg htype, hc.node_eq, hip3]
    · rw [hp.dinode i (by rwa [h2.sb]), over_of_ne (by rwa [hinum]), h2.dinode i hi]
    have hl3 : Logs st₂ 0 0 [st.sb.iblock ip.inum] st₃ := by
      have := hp.logs
      rwa [h2.sb, hinum] at this
    exact (hl.mono le_rfl le_rfl (by simp)).trans hl3 h2.sb
  · obtain ⟨hF, he⟩ := hres
    subst he
    exact ⟨h2.toKeeps, hF.of_zero, a, hl.mono le_rfl le_rfl (by simp)⟩

theorem Puts.ok_free (h : st.Ok) (hc : st.Copy ip) (hz : ∀ j, ip.addrs j = 0)
    (hs : ip.size = 0) (hip : ip' = { ip with type := 0 }) (hp : Puts st ip' st₁) :
    st₁.Ok ∧ st₁.nodes = Function.update st.nodes ip.inum .free := by
  have hb := (h.mid hc).toBase
  have ht : Truncs st ip (fun _ => true) st :=
    (Truncs.refl hb fun _ => rfl).congr hb fun k hk => absurd (Dinode.ptr_of_addrs_zero hz) hk
  have := ht.puts h hc (by rw [hip]) (by rwa [hip]) (by rwa [hip]) hp
  rwa [if_pos (by rw [hip])] at this

theorem Puts.ok_alloc (h : st.Ok) (hi : ip.inum < st.sb.ninodes) (h0 : (st.dinode ip.inum).type = 0)
    (hz : ∀ j, ip.addrs j = 0) (hs : ip.size = 0) (ht : ip.type ≠ 0) (hp : Puts st ip st₁) :
    st₁.Ok ∧ st₁.nodes = Function.update st.nodes ip.inum
      ⟨ip.type, ip.major, ip.minor, ip.nlink, 0, Bytes.zero⟩ := by
  have hptrs : ∀ x, st.ptrs (st.overlay ip) x = st.ptrs st.dinode x := by
    rintro ⟨i, k⟩
    unfold ptrs
    dsimp only
    by_cases hne : i = ip.inum
    · subst hne
      rw [over_self, Dinode.ptr_of_addrs_zero hz, h0, ite_self, if_neg (by simp)]
    · rw [over_of_ne hne]
  obtain ⟨hok, hn⟩ := hp.ok (h.owns.congr (fun _ _ => rfl) hptrs (Nat.sub_le _ _))
      fun i hi' ht' => by
    by_cases hne : i = ip.inum
    · subst hne
      rw [over_self, hs]
      exact Dinode.shaped_of_addrs_zero hz
    · rw [over_of_ne hne] at ht' ⊢
      exact h.shaped i hi' ht'
  refine ⟨hok, ?_⟩
  rw [hn]
  funext i
  by_cases hne : i = ip.inum
  · subst hne
    rw [update_self, nodesOf, if_pos hi, over_self, Dinode.node, if_neg ht,
      Dinode.data_of_addrs_zero hz, hs]
  · rw [update_of_ne hne, nodes, nodesOf, nodesOf, over_of_ne hne]

end Store

end Xv6
