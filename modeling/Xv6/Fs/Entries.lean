import Xv6.Fs.Files

/-!
# Directories as tables

The contents of a directory are a table of entries, each with an inode number (`Node.target`, 0 for
an empty entry) and a name (`Node.name`).  The loops over a directory in terms of that table:

* `lookupLoop_spec`: `dirlookup` finds an entry with the name, if there is one;
* `addEntry_spec`: `dirlink` fills an empty entry or appends one;
* `isdirempty_spec`: `isdirempty` looks at every entry but the first two;
* `clearEntry_spec`: `sys_unlink` empties an entry.
-/

namespace Xv6

/-! ### Names -/

/-- The string in a buffer of `n` bytes. -/
def cstr : ℕ → Bytes → Name
  | 0, _ => []
  | n + 1, b => if b 0 = 0 then [] else b 0 :: cstr n (b.drop 1)

/-- A name as it is stored: its first `dirsiz` bytes. -/
def Name.key (name : Name) : Name := cstr dirsiz name.bytes

theorem cstr_congr {n : ℕ} {b b' : Bytes} (h : ∀ i < n, b i = b' i) : cstr n b = cstr n b' := by
  induction n generalizing b b' with
  | zero => rfl
  | succ n ih =>
    have htail : cstr n (b.drop 1) = cstr n (b'.drop 1) := by
      refine ih fun i hi => ?_
      rw [Bytes.drop_apply, Bytes.drop_apply]
      exact h _ (by omega)
    rw [cstr, cstr, h 0 (Nat.succ_pos n), htail]

theorem strncmp_eq_zero_iff {n : ℕ} {p q : Bytes} : strncmp n p q = 0 ↔ cstr n p = cstr n q := by
  induction n generalizing p q with
  | zero => simp [strncmp, cstr]
  | succ n ih =>
    have hsub : ((p 0).toNat : ℤ) - (q 0).toNat = 0 ↔ p 0 = q 0 := by
      rw [Int.sub_eq_zero, Int.ofNat_inj, UInt8.toNat_inj]
    rw [strncmp, cstr, cstr]
    by_cases hp : p 0 = 0
    · rw [if_neg (by simp [hp]), hsub, if_pos hp, hp]
      by_cases hq : q 0 = 0
      · simp [hq]
      · simp [hq, Ne.symm hq]
    rw [if_neg hp]
    by_cases hpq : p 0 = q 0
    · rw [if_pos ⟨hp, hpq⟩, ih, if_neg (hpq ▸ hp), hpq]
      simp
    rw [if_neg (by simp [hpq]), hsub]
    by_cases hq : q 0 = 0
    · simp [hq, hp]
    · simp [hq, hpq]

theorem cstr_strncpy {n : ℕ} {t : Bytes} : cstr n (strncpy n t) = cstr n t := by
  induction n generalizing t with
  | zero => rfl
  | succ n ih =>
    rw [cstr, cstr, strncpy]
    by_cases ht : t 0 = 0
    · rw [if_pos ht, if_pos ht]
      rfl
    rw [if_neg ht, if_neg ht]
    simp only [ht, ↓reduceIte, List.cons.injEq, true_and]
    refine (?_ : _ = cstr n (strncpy n (t.drop 1))).trans ih
    refine cstr_congr fun i _ => ?_
    rw [Bytes.drop_apply, add_comm]

theorem cstr_dirent {inum : ℕ} {b : Bytes} :
    cstr dirsiz ((Bytes.dirent inum b).direntName 0) = cstr dirsiz b := by
  refine cstr_congr fun i hi => ?_
  rw [Bytes.direntName, Bytes.drop_apply, zero_add, Bytes.dirent_name hi]

theorem namecmp_eq_zero_iff {name : Name} {b : Bytes} :
    namecmp name.bytes b = 0 ↔ cstr dirsiz b = name.key := by
  rw [namecmp, strncmp_eq_zero_iff, Name.key, eq_comm]

/-! ### Entries -/

namespace Node

variable {x : Node} {src : Bytes} {j k : ℕ}

/-- The number of entries of a directory. -/
def nent (x : Node) : ℕ := x.size / direntSize

/-- The inode number in entry `k`. -/
def target (x : Node) (k : ℕ) : ℕ := x.data.direntInum (direntSize * k)

/-- The name in entry `k`. -/
def name (x : Node) (k : ℕ) : Name := cstr dirsiz (x.data.direntName (direntSize * k))

/-- Entry `k` is replaced by the bytes of `src`. -/
def setEnt (x : Node) (k : ℕ) (src : Bytes) : Node := x.write src (direntSize * k) direntSize

theorem target_setEnt :
    (x.setEnt k src).target j = if j = k then src.direntInum 0 else x.target j := by
  unfold target setEnt write Bytes.direntInum
  simp only [direntSize]
  split_ifs with h
  · rw [h, Bytes.getLE_copy_of_mem le_rfl (by omega), Nat.sub_self]
  · exact Bytes.getLE_copy_of_disjoint (by omega)

/-- What a search for `name` from entry `j` on may return: an inode number and an offset. -/
def Finds (x : Node) (name : Name) (j : ℕ) : Option (ℕ × ℕ) → Prop
  | none => ∀ k, j ≤ k → k < x.nent → x.target k ≠ 0 → x.name k ≠ name.key
  | some (inum, off) => ∃ k < x.nent, off = direntSize * k ∧ inum = x.target k ∧
    x.target k ≠ 0 ∧ x.name k = name.key

/-- The first live entry with the name: its inode number and offset. -/
def lookup (x : Node) (name : Name) : Option (ℕ × ℕ) :=
  ((List.range x.nent).find? fun k => x.target k ≠ 0 ∧ x.name k = name.key).map fun k =>
    (x.target k, direntSize * k)

/-- The table is one of a directory: whole entries, with inode numbers below `N`. -/
structure Table (x : Node) (N : ℕ) : Prop where
  size_mod : x.size % direntSize = 0
  target_lt : ∀ k < x.nent, x.target k < N

theorem nent_setEnt (hs : x.size % direntSize = 0) :
    (x.setEnt k src).nent = max x.nent (k + 1) := by
  simp only [nent, setEnt, write, direntSize] at hs ⊢
  omega

theorem size_setEnt_mod (hs : x.size % direntSize = 0) :
    (x.setEnt k src).size % direntSize = 0 := by
  simp only [setEnt, write, direntSize] at hs ⊢
  omega

theorem Table.setEnt {N : ℕ} (h : x.Table N) (hk : k ≤ x.nent) (hs : src.direntInum 0 < N) :
    (x.setEnt k src).Table N := by
  refine ⟨size_setEnt_mod h.size_mod, fun j hj => ?_⟩
  rw [nent_setEnt h.size_mod] at hj
  rw [target_setEnt]
  split_ifs with hjk
  · exact hs
  · exact h.target_lt j (by omega)

end Node

namespace Store

variable {st : Store} {dp : Inode} {name : Name} {inum j k n : ℕ}

/-- `dp` is the copy of a directory whose size is a whole number of entries. -/
structure IsDir (st : Store) (dp : Inode) : Prop extends st.Copy dp where
  type_eq : dp.type = tDir
  size_mod : dp.size % direntSize = 0

theorem IsDir.nent_eq (hd : st.IsDir dp) : (st.nodes dp.inum).nent = dp.size / direntSize := by
  rw [Node.nent, hd.node_eq]

theorem readi_entry (h : st.Ok) (hd : st.IsDir dp) (hk : k < (st.nodes dp.inum).nent) :
    ∃ de, readi dp (direntSize * k) direntSize st = .ok (some (16, de), dp) st ∧
      de.direntInum 0 = (st.nodes dp.inum).target k ∧
      cstr dirsiz (de.direntName 0) = (st.nodes dp.inum).name k := by
  have hsize : (st.nodes dp.inum).size = dp.size := by rw [hd.node_eq]
  have hlt : dp.size < 2 ^ 32 := (h.mid hd.toCopy).ok.size_lt
  rw [hd.nent_eq] at hk
  have hmod := hd.size_mod
  simp only [direntSize] at hk hmod
  have hoff : direntSize * k < 2 ^ 32 := by simp only [direntSize]; omega
  have hr := readi_eq h hd.toCopy (by rw [hd.type_eq]; decide) hoff
    (by decide : direntSize < 2 ^ 32)
  have hmin : min direntSize (dp.size - direntSize * k) = 16 := by simp only [direntSize]; omega
  rw [Node.read, hsize, if_pos (by simp only [direntSize]; omega), hmin] at hr
  refine ⟨_, hr, ?_, ?_⟩
  · rw [Bytes.direntInum, Bytes.getLE_copy_of_mem le_rfl (by omega), Nat.sub_self, Bytes.getLE_drop]
    rfl
  refine cstr_congr fun i hi => ?_
  simp only [dirsiz] at hi
  simp only [Bytes.direntName, Bytes.drop_apply]
  rw [Bytes.copy_of_mem (by omega) (by omega), Bytes.drop_apply]
  congr 1
  omega

/-- **`dirlookup` finds the first entry with the name.** -/
theorem lookupLoop_eq (name : Name) (h : st.Ok) (hd : st.IsDir dp)
    (hn : (st.nodes dp.inum).nent ≤ j + n) :
    lookupLoop name n dp (direntSize * j) st = .ok
      (((List.range' j ((st.nodes dp.inum).nent - j)).find? fun k =>
        (st.nodes dp.inum).target k ≠ 0 ∧ (st.nodes dp.inum).name k = name.key).map fun k =>
        ((st.nodes dp.inum).target k, direntSize * k), dp) st := by
  induction n generalizing j with
  | zero =>
    rw [Nat.sub_eq_zero_of_le (by omega)]
    rfl
  | succ n ih =>
    have hnent := hd.nent_eq
    have hmod := hd.size_mod
    rw [lookupLoop]
    by_cases hend : dp.size ≤ direntSize * j
    · rw [if_pos hend, Nat.sub_eq_zero_of_le (by simp only [direntSize] at hend hmod hnent; omega)]
      rfl
    have hlt : j < (st.nodes dp.inum).nent := by
      simp only [direntSize] at hend hmod hnent
      omega
    obtain ⟨de, hr, hi, hnm⟩ := readi_entry h hd hlt
    obtain ⟨m, hm⟩ : ∃ m, (st.nodes dp.inum).nent - j = m + 1 :=
      ⟨(st.nodes dp.inum).nent - j - 1, by omega⟩
    rw [if_neg hend, bind_ok hr, hm, List.range'_succ]
    show (if _ then _ else _ : StoreM (Option (ℕ × ℕ) × Inode)) st = _
    simp only [namecmp_eq_zero_iff, hi, hnm]
    by_cases hfound : (st.nodes dp.inum).target j ≠ 0 ∧ (st.nodes dp.inum).name j = name.key
    · rw [if_pos hfound, List.find?_cons, decide_eq_true hfound]
      rfl
    · rw [if_neg hfound, List.find?_cons, decide_eq_false hfound]
      have hm' : (st.nodes dp.inum).nent - (j + 1) = m := by omega
      exact hm' ▸ ih (j := j + 1) (by omega)

/-- What the search returns is an entry with the name, if there is one. -/
theorem lookupLoop_spec (h : st.Ok) (hd : st.IsDir dp) (hn : (st.nodes dp.inum).nent ≤ j + n) :
    wp (lookupLoop name n dp (direntSize * j))
      (fun r st' => st' = st ∧ r.2 = dp ∧ (st.nodes dp.inum).Finds name j r.1)
      (fun _ _ => False) st := by
  refine wp_of_ok (lookupLoop_eq name h hd hn) ⟨rfl, rfl, ?_⟩
  cases hf : (List.range' j ((st.nodes dp.inum).nent - j)).find? fun k =>
    (st.nodes dp.inum).target k ≠ 0 ∧
      (st.nodes dp.inum).name k = name.key with
  | none =>
    intro k hjk hk h0 hname
    have := List.find?_eq_none.1 hf k (List.mem_range'_1.2 ⟨hjk, by omega⟩)
    simp [h0, hname] at this
  | some k =>
    have hlt := List.mem_range'_1.1 (List.mem_of_find?_eq_some hf)
    obtain ⟨h0, hname⟩ : (st.nodes dp.inum).target k ≠ 0 ∧ (st.nodes dp.inum).name k =
        name.key := by
      simpa using List.find?_some hf
    exact ⟨k, by omega, rfl, rfl, h0, hname⟩

/-- The first empty entry, or the end of the directory. -/
theorem emptyLoop_spec (h : st.Ok) (hd : st.IsDir dp) (hj : j ≤ (st.nodes dp.inum).nent)
    (hn : (st.nodes dp.inum).nent ≤ j + n) :
    wp (emptyLoop n dp (direntSize * j))
      (fun r st' => st' = st ∧ r.2 = dp ∧ ∃ k ≤ (st.nodes dp.inum).nent, r.1 = direntSize * k ∧
        (k < (st.nodes dp.inum).nent → (st.nodes dp.inum).target k = 0) ∧
        ∀ i, j ≤ i → i < k → (st.nodes dp.inum).target i ≠ 0)
      (fun _ _ => False) st := by
  induction n generalizing j with
  | zero => exact ⟨rfl, rfl, j, hj, rfl, fun hlt => absurd hlt (by omega), fun i h1 h2 =>
    absurd h2 (by omega)⟩
  | succ n ih =>
    have hnent := hd.nent_eq
    have hmod := hd.size_mod
    rw [emptyLoop]
    by_cases hend : dp.size ≤ direntSize * j
    · rw [if_pos hend]
      refine ⟨rfl, rfl, j, hj, rfl, fun hlt => ?_, fun i h1 h2 => absurd h2 (by omega)⟩
      simp only [direntSize] at hend hmod hnent
      omega
    rw [if_neg hend]
    have hlt : j < (st.nodes dp.inum).nent := by
      simp only [direntSize] at hend hmod hnent
      omega
    obtain ⟨de, hr, hi, -⟩ := readi_entry h hd hlt
    rw [wp_bind]
    refine wp_of_ok hr ?_
    show wp (if _ then _ else _) _ _ _
    rw [hi]
    by_cases h0 : (st.nodes dp.inum).target j = 0
    · rw [if_pos h0]
      exact ⟨rfl, rfl, j, hj, rfl, fun _ => h0, fun i h1 h2 => absurd h2 (by omega)⟩
    rw [if_neg h0]
    refine wp_post (ih (j := j + 1) (by omega) (by omega)) fun r st' hr => ?_
    obtain ⟨hst, hdp, k, hk, hoff, hempty, hfull⟩ := hr
    refine ⟨hst, hdp, k, hk, hoff, hempty, fun i h1 h2 => ?_⟩
    by_cases hij : i = j
    · exact hij ▸ h0
    · exact hfull i (by omega) h2

theorem emptyFrom_spec (h : st.Ok) (hd : st.IsDir dp) (hn : (st.nodes dp.inum).nent ≤ j + n) :
    wp (emptyFrom n dp (direntSize * j))
      (fun r st' => st' = st ∧ r.2 = dp ∧ (r.1 = true →
        ∀ k, j ≤ k → k < (st.nodes dp.inum).nent → (st.nodes dp.inum).target k = 0))
      (fun _ _ => False) st := by
  induction n generalizing j with
  | zero => exact ⟨rfl, rfl, fun _ k _ _ => by omega⟩
  | succ n ih =>
    have hnent := hd.nent_eq
    have hmod := hd.size_mod
    rw [emptyFrom]
    by_cases hend : dp.size ≤ direntSize * j
    · rw [if_pos hend]
      refine ⟨rfl, rfl, fun _ k hjk hk => ?_⟩
      simp only [direntSize] at hend hmod hnent
      omega
    rw [if_neg hend]
    have hlt : j < (st.nodes dp.inum).nent := by
      simp only [direntSize] at hend hmod hnent
      omega
    obtain ⟨de, hr, hi, -⟩ := readi_entry h hd hlt
    rw [wp_bind]
    refine wp_of_ok hr ?_
    show wp (if _ then _ else _) _ _ _
    rw [hi]
    by_cases h0 : (st.nodes dp.inum).target j ≠ 0
    · rw [if_pos h0]
      exact ⟨rfl, rfl, fun hf => absurd hf (by simp)⟩
    rw [if_neg h0]
    refine wp_post (ih (j := j + 1) (by omega)) fun r st' ⟨hst, hdp, hx⟩ => ⟨hst, hdp, ?_⟩
    intro hr k hjk hk
    by_cases hjk' : j = k
    · exact hjk' ▸ not_not.1 h0
    · exact hx hr k (by omega) hk

/-- **`isdirempty` looks at every entry but the first two.** -/
theorem isdirempty_spec (h : st.Ok) (hd : st.IsDir dp) :
    wp (isdirempty dp)
      (fun r st' => st' = st ∧ r.2 = dp ∧ (r.1 = true →
        ∀ k, 2 ≤ k → k < (st.nodes dp.inum).nent → (st.nodes dp.inum).target k = 0))
      (fun _ _ => False) st := by
  refine @emptyFrom_spec st dp 2 dp.size h hd ?_
  rw [hd.nent_eq]
  exact (Nat.div_le_self _ _).trans (Nat.le_add_left _ _)

theorem writei_entry {src : Bytes} (h : st.Ok) (hd : st.IsDir dp) :
    wp (writei dp src (direntSize * k) direntSize)
      (fun r st' => r = (none, dp) ∧ st' = st ∨ r.1 = some 16 ∧
        Edits st dp ((st.nodes dp.inum).setEnt k src) r.2 st' ∧
        ∃ a, Logs st 2 a [st.sb.iblock dp.inum] st')
      (Stops st 2 [st.sb.iblock dp.inum]) st := by
  have hdev : dp.type ≠ tDev := by rw [hd.type_eq]; decide
  have htouch : touched (direntSize * k) direntSize ≤ 1 := by
    simp only [touched, blocksOf, direntSize, bsize]
    split_ifs <;> omega
  by_cases hw : (st.nodes dp.inum).Writable (direntSize * k) direntSize
  · refine wp_mono (writei_spec h hd.toCopy hdev hw) (fun r st' hres => ?_) fun e st' hf => ?_
    · obtain ⟨hr, hwr⟩ := hres
      obtain ⟨I, hI, hL⟩ := hwr.logs
      exact .inr ⟨hr, hwr.toEdits, _, (hL.mono htouch le_rfl (List.Subset.refl _)).forget_tail hI⟩
    · obtain ⟨I, hI, hL⟩ := hf.logs
      exact hf.fails.stops hf.toKeeps ((hL.mono htouch le_rfl (List.Subset.refl _)).forget_tail hI)
  · exact wp_of_ok (writei_out hd.toCopy hdev hw) (.inl ⟨rfl, rfl⟩)

/-- **`dirlink` fills an empty entry or appends one.** -/
theorem addEntry_spec (h : st.Ok) (hd : st.IsDir dp) :
    wp (addEntry name inum dp)
      (fun r st' => ∃ k ≤ (st.nodes dp.inum).nent,
        (k < (st.nodes dp.inum).nent → (st.nodes dp.inum).target k = 0) ∧
        Edits st dp ((st.nodes dp.inum).setEnt k (.dirent inum (strncpy dirsiz name.bytes))) r.2
        st' ∧ ∃ a, Logs st 2 a [st.sb.iblock dp.inum] st')
      (Stops st 2 [st.sb.iblock dp.inum]) st := by
  have hn : (st.nodes dp.inum).nent ≤ 0 + dp.size := by
    rw [hd.nent_eq, zero_add]
    exact Nat.div_le_self _ _
  unfold addEntry
  rw [wp_bind]
  refine wp_total (@emptyLoop_spec st dp 0 dp.size h hd zero_le hn) fun r st' hr => ?_
  obtain ⟨off, ip⟩ := r
  obtain ⟨rfl, rfl, k, hk, rfl, hempty, -⟩ := hr
  dsimp only
  refine wp_seq (writei_entry h hd) fun r st₁ hr => ?_
  obtain ⟨m, ip₁⟩ := r
  rcases hr with ⟨heq, rfl⟩ | ⟨rfl, he, hl⟩
  · obtain ⟨rfl, rfl⟩ : m = none ∧ ip₁ = ip := by simpa using heq
    exact ⟨by decide, by decide, fun _ => by decide, 0, .refl⟩
  · exact ⟨k, hk, hempty, he, hl⟩

theorem clearEntry_spec (h : st.Ok) (hd : st.IsDir dp) :
    wp (Fs.clearEntry (direntSize * k) dp)
      (fun r st' => Edits st dp ((st.nodes dp.inum).setEnt k Bytes.zero) r.2 st' ∧
        ∃ a, Logs st 2 a [st.sb.iblock dp.inum] st')
      (Stops st 2 [st.sb.iblock dp.inum]) st := by
  unfold Fs.clearEntry
  refine wp_seq (writei_entry h hd) fun r st₁ hr => ?_
  obtain ⟨m, ip₁⟩ := r
  rcases hr with ⟨heq, rfl⟩ | ⟨rfl, he, hl⟩
  · obtain ⟨rfl, rfl⟩ : m = none ∧ ip₁ = dp := by simpa using heq
    exact ⟨by decide, by decide, fun _ => by decide, 0, .refl⟩
  · exact ⟨he, hl⟩

end Store

end Xv6
