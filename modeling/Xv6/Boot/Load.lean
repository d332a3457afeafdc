import Mathlib.Data.List.Basic
import Xv6.Bytes.Basic

/-!
# The boot loader

`bootmain` reads the first 4096 bytes of the kernel into a scratch page at `0x10000`, and then each
segment to its physical address, sector by sector; what is left of the segment is filled with zeros.

A sector that is read holds bytes of the file before and after the segment.  Those after it do no
harm, since the segments come in increasing order.  Those before it overwrite the end of an earlier
segment if that is closer than `off % SECTSIZE`, and nothing loads it again.

* `readsegLoop_ends`, `readsegLoop_diverges` : the sectors that `readseg` reads, if its loop ends.
* `bootmain_spec` : a byte of the memory is that of the last segment that has written it.
* `bootmain_loads_iff` : **the segments are loaded if and only if the loops end and every byte of a
  segment was written last by a segment that has the same byte there**.
* `apart_loads`, `aligned_loads` : this is so if no sector begins in an earlier segment, and so if
  the segments begin with sectors of the file.

The memory is a table of bytes, of which those below `2^32` count; pointers wrap around.
-/

namespace Xv6

open List Option

namespace Boot

/-- The values of a `uint`. -/
abbrev uintSize : ℕ := 0x100000000

/-- `SECTSIZE` -/
abbrev sectSize : ℕ := 512

/-- `ELF_MAGIC` -/
abbrev elfMagic : ℕ := 0x464C457F

/-- The scratch space. -/
abbrev scratch : ℕ := 0x10000

/-- Write `n` bytes from `dst` on. -/
def store (m : Bytes) (dst n : ℕ) (src : Bytes) : Bytes := fun a =>
  let i := (a + uintSize - dst) % uintSize
  if i < n then src i else m a

/-- `readsect`; the drive takes the low 28 bits of the number of the sector. -/
def readsect (disk m : Bytes) (dst offset : ℕ) : Bytes :=
  store m dst sectSize (disk.drop (sectSize * (offset % 2 ^ 28)))

/-- The loop of `readseg`. -/
def readsegLoop (disk : Bytes) (epa : ℕ) : ℕ → ℕ → ℕ → Bytes → Option Bytes
  | 0, _, _, _ => none
  | fuel + 1, pa, offset, m =>
    if pa < epa then
      readsegLoop disk epa fuel ((pa + sectSize) % uintSize) ((offset + 1) % uintSize)
        (readsect disk m pa offset)
    else some m

/-- `readseg` -/
def readseg (fuel : ℕ) (disk m : Bytes) (pa count offset : ℕ) : Option Bytes :=
  let epa := (pa + count) % uintSize
  -- Round down to sector boundary.
  let pa := (pa + uintSize - offset % sectSize) % uintSize
  -- Translate from bytes to sectors; kernel starts at sector 1.
  let offset := offset / sectSize + 1
  readsegLoop disk epa fuel pa offset m

/-- `ph->off` -/
def phOff (m : Bytes) (ph : ℕ) : ℕ := m.getLE 4 (ph + 4)
/-- `ph->paddr` -/
def phPaddr (m : Bytes) (ph : ℕ) : ℕ := m.getLE 4 (ph + 12)
/-- `ph->filesz` -/
def phFilesz (m : Bytes) (ph : ℕ) : ℕ := m.getLE 4 (ph + 16)
/-- `ph->memsz` -/
def phMemsz (m : Bytes) (ph : ℕ) : ℕ := m.getLE 4 (ph + 20)

/-- The loop of `bootmain`. -/
def loadSegments (fuel : ℕ) (disk : Bytes) (eph : ℕ) : ℕ → ℕ → Bytes → Option Bytes
  | 0, _, _ => none
  | n + 1, ph, m =>
    if ph < eph then
      let pa := phPaddr m ph
      (readseg fuel disk m pa (phFilesz m ph) (phOff m ph)).bind fun m =>
        let m := if phFilesz m ph < phMemsz m ph then
            store m ((pa + phFilesz m ph) % uintSize) (phMemsz m ph - phFilesz m ph) Bytes.zero
          else m
        loadSegments fuel disk eph n ((ph + 32) % uintSize) m
    else some m

/-- `bootmain`: the address that is called, if any, and the memory. -/
def bootmain (fuel : ℕ) (disk m : Bytes) : Option (Option ℕ × Bytes) :=
  -- Read 1st page off disk
  (readseg fuel disk m scratch 4096 0).bind fun m =>
    if m.getLE 4 scratch ≠ elfMagic then some (none, m)
    else
      let ph := (scratch + m.getLE 4 (scratch + 28)) % uintSize
      let eph := (ph + 32 * m.getLE 2 (scratch + 44)) % uintSize
      (loadSegments fuel disk eph fuel ph m).map fun m => (some (m.getLE 4 (scratch + 24)), m)

/-! ### What is wanted -/

/-- What a program header says. -/
structure Segment where
  off : ℕ
  paddr : ℕ
  filesz : ℕ
  memsz : ℕ

/-- The kernel starts at sector 1. -/
def fileOf (disk : Bytes) : Bytes := disk.drop sectSize

/-- The program header at `ph`. -/
def segmentAt (m : Bytes) (ph : ℕ) : Segment :=
  ⟨phOff m ph, phPaddr m ph, phFilesz m ph, phMemsz m ph⟩

/-- The `n` program headers from `ph` on. -/
def segmentsFrom (file : Bytes) : ℕ → ℕ → List Segment
  | _, 0 => []
  | ph, n + 1 => segmentAt file ph :: segmentsFrom file (ph + 32) n

/-- The program headers of a file. -/
def segments (file : Bytes) : List Segment := segmentsFrom file (file.getLE 4 28) (file.getLE 2 44)

namespace Segment

variable (s : Segment)

/-- The byte of the segment at `a`. -/
def want (file : Bytes) (a : ℕ) : UInt8 :=
  if a < s.paddr + s.filesz then file (s.off + (a - s.paddr)) else 0

/-- The address `a` is one of the segment. -/
def Has (a : ℕ) : Prop := s.paddr ≤ a ∧ a < s.paddr + s.memsz

instance (a : ℕ) : Decidable (s.Has a) := by
  unfold Has
  infer_instance

/-- Where the first sector is read to. -/
def start : ℕ := (s.paddr + uintSize - s.off % sectSize) % uintSize

/-- The number of sectors that are read, if no pointer wraps around. -/
def sectors : ℕ := ((s.paddr + s.filesz) % uintSize - s.start + 511) / sectSize

/-- No pointer to a sector wraps around. -/
def Ends : Prop := s.start + sectSize * s.sectors < uintSize

/-- What is written at `a`. -/
def byte (file : Bytes) (a : ℕ) : Option UInt8 :=
  if s.paddr + s.filesz ≤ a ∧ a < s.paddr + s.memsz then some 0
  else if s.start ≤ a ∧ a < s.start + sectSize * s.sectors then some
    (file (sectSize * (s.off / sectSize) + (a - s.start)))
  else none

instance : Decidable s.Ends := Nat.decLt _ _

/-- At least a sector away from the scratch page and the loader at `0x7c00`. -/
def Away : Prop :=
  (s.paddr + s.memsz + sectSize ≤ scratch ∨ scratch + 4096 + sectSize ≤ s.paddr) ∧
    (s.paddr + s.memsz + sectSize ≤ 0x7c00 ∨ 0x7c00 + 512 + sectSize ≤ s.paddr)

instance : Decidable s.Away := by
  unfold Away
  infer_instance

end Segment

/-- What the last of the segments that write at `a` writes there. -/
def lastByte (file : Bytes) (l : List Segment) (a : ℕ) : Option UInt8 :=
  l.reverse.findSome? fun s => s.byte file a

/-- A kernel with its headers in the first 4096 bytes and segments in increasing order. -/
structure Kernel (file : Bytes) : Prop where
  magic : file.getLE 4 0 = elfMagic
  headers : file.getLE 4 28 + 32 * file.getLE 2 44 ≤ 4096
  sizes : ∀ s ∈ segments file, s.filesz ≤ s.memsz ∧ s.paddr + s.memsz ≤ uintSize
  away : ∀ s ∈ segments file, s.Away
  increasing : (segments file).Pairwise fun s t => s.paddr + s.memsz ≤ t.paddr

/-- Every segment holds its bytes of the file, followed by zeros. -/
def Loaded (file m : Bytes) : Prop := ∀ s ∈ segments file, ∀ a, s.Has a → m a = s.want file a

/-! ### One segment -/

variable {disk m m' src : Bytes} {a dst n pa epa offset fuel x : ℕ} {s : Segment}

theorem store_apply (hn : dst + n ≤ uintSize) (ha : a < uintSize) :
    store m dst n src a = if dst ≤ a ∧ a < dst + n then src (a - dst) else m a := by
  simp only [store, uintSize] at *
  by_cases h : dst ≤ a
  · have hi : (a + 0x100000000 - dst) % 0x100000000 = a - dst := by omega
    rw [hi]
    exact if_congr (by omega) rfl rfl
  · rw [if_neg (by omega), if_neg (by omega)]

theorem readsegLoop_ends (hlt : ∀ i < n, pa + sectSize * i < epa) (hle : epa ≤ pa + sectSize * n)
    (hend : pa + sectSize * n < uintSize) (hoff : offset + n ≤ 2 ^ 28) (hfuel : n < fuel) :
    ∃ m', readsegLoop disk epa fuel pa offset m = some m' ∧
      ∀ a < uintSize, m' a = if pa ≤ a ∧
      a < pa + sectSize * n then disk (sectSize * offset + (a - pa)) else m a := by
  induction n generalizing pa offset fuel m with
  | zero =>
    obtain ⟨fuel, rfl⟩ := Nat.exists_eq_succ_of_ne_zero hfuel.ne'
    refine ⟨m, ?_, fun a _ => (if_neg (by omega)).symm⟩
    rw [readsegLoop, if_neg (by omega)]
  | succ n ih =>
    obtain ⟨fuel, rfl⟩ := Nat.exists_eq_succ_of_ne_zero (by omega : fuel ≠ 0)
    simp only [sectSize, uintSize] at *
    have hpa : pa < epa := by simpa using hlt 0 (Nat.succ_pos n)
    obtain ⟨m', hrun, hm'⟩ := @ih (readsect disk m pa offset) (pa + 512) (offset + 1) fuel
      (fun i hi => by have := hlt (i + 1) (by omega); omega) (by omega) (by omega)
      (by omega) (by omega)
    refine ⟨m', ?_, fun a ha => ?_⟩
    · have hnext : (pa + 512) % 0x100000000 = pa + 512 := by omega
      have hoff' : (offset + 1) % 0x100000000 = offset + 1 := by omega
      rw [readsegLoop, if_pos hpa, hnext, hoff']
      exact hrun
    have hfirst : readsect disk m pa offset a = if pa ≤ a ∧
      a < pa + 512 then disk (512 * offset + (a - pa)) else m a := by
      rw [readsect, store_apply (by simp only [sectSize, uintSize]; omega) ha,
        Nat.mod_eq_of_lt (by omega), Bytes.drop_apply]
    rw [hm' a ha, hfirst]
    by_cases hlo : a < pa + 512
    · rw [if_neg (by omega)]
      exact if_congr (by omega) rfl rfl
    · rw [if_neg (by omega : ¬ (pa ≤ a ∧ a < pa + 512))]
      exact if_congr (by omega) (congrArg disk (by omega)) rfl

/-- If the pointer to a sector before `epa` wraps around, the loop does not end. -/
theorem readsegLoop_diverges (hx : x < epa) (hwrap : uintSize ≤ x + sectSize) (hpa : pa < uintSize)
    (hmod : pa % sectSize = x % sectSize) : readsegLoop disk epa fuel pa offset m = none := by
  induction fuel generalizing pa offset m with
  | zero => rfl
  | succ fuel ih =>
    have hlt : pa < epa := by
      simp only [sectSize, uintSize] at *
      omega
    rw [readsegLoop, if_pos hlt]
    refine ih (Nat.mod_lt _ (by decide)) ?_
    rw [Nat.mod_mod_of_dvd _ (by decide), Nat.add_mod_right, hmod]

theorem Segment.sectors_lt (s : Segment) : s.sectors < 2 ^ 24 := by
  have h : (s.paddr + s.filesz) % uintSize < uintSize := Nat.mod_lt _ (by decide)
  simp only [Segment.sectors, sectSize, uintSize] at *
  omega

theorem readseg_ends (hs : s.Ends) (hoff : s.off < uintSize) (hfuel : 2 ^ 24 ≤ fuel) :
    ∃ m', readseg fuel disk m s.paddr s.filesz s.off = some m' ∧
      ∀ a < uintSize, m' a = if s.start ≤ a ∧ a < s.start + sectSize * s.sectors then
        fileOf disk (sectSize * (s.off / sectSize) + (a - s.start)) else m a := by
  have hsec := s.sectors_lt
  obtain ⟨m', hrun, hm'⟩ :=
    @readsegLoop_ends disk m s.sectors s.start ((s.paddr + s.filesz) % uintSize)
    (s.off / sectSize + 1) fuel
    (fun i hi => by simp only [Segment.sectors, sectSize] at hi ⊢; omega)
    (by simp only [Segment.sectors, sectSize]; omega) hs
    (by simp only [sectSize, uintSize] at *; omega) (by omega)
  refine ⟨m', hrun, fun a ha => ?_⟩
  rw [hm' a ha, fileOf, Bytes.drop_apply]
  exact if_congr Iff.rfl (congrArg disk (by rw [mul_add, mul_one]; omega)) rfl

theorem readseg_diverges (hs : ¬ s.Ends) : readseg fuel disk m s.paddr s.filesz s.off = none := by
  have hstart : s.start < uintSize := Nat.mod_lt _ (by decide)
  have hmod : s.start % sectSize = (s.start + sectSize * (s.sectors - 1)) % sectSize :=
    (Nat.add_mul_mod_self_left _ _ _).symm
  refine readsegLoop_diverges (x := s.start + sectSize * (s.sectors - 1)) ?_ ?_ hstart hmod
  · simp only [Segment.Ends, Segment.sectors, sectSize, uintSize] at *
    omega
  · simp only [Segment.Ends, Segment.sectors, sectSize, uintSize] at *
    omega

/-! ### The scratch page -/

/-- The page holds the first 4096 bytes of the file. -/
def Headers (file m : Bytes) : Prop := ∀ i < 4096, m (scratch + i) = file i

variable {file : Bytes} {ph eph rounds : ℕ} {l : List Segment}

theorem Headers.getLE {k : ℕ} (h : Headers file m) (hx : x + k ≤ 4096) :
    m.getLE k (scratch + x) = file.getLE k x := by
  rw [← Bytes.getLE_drop]
  exact Bytes.getLE_congr fun i _ hi => h i (by omega)

theorem Headers.segmentAt (h : Headers file m) (hph : ph + 32 ≤ 4096) :
    Boot.segmentAt m (scratch + ph) = Boot.segmentAt file ph := by
  simp only [Boot.segmentAt, phOff, phPaddr, phFilesz, phMemsz, add_assoc]
  rw [h.getLE (by omega), h.getLE (by omega), h.getLE (by omega), h.getLE (by omega)]

theorem Segment.Away.sectors (haway : s.Away) (hsize : s.filesz ≤ s.memsz)
    (hle : s.paddr + s.memsz ≤ uintSize) (hx : x < 4096) :
    ¬ (s.start ≤ scratch + x ∧ scratch + x < s.start + sectSize * s.sectors) := by
  obtain ⟨haway, -⟩ := haway
  simp only [Segment.start, Segment.sectors, sectSize, uintSize, scratch] at *
  omega

theorem Segment.Away.byte (haway : s.Away) (hsize : s.filesz ≤ s.memsz)
    (hle : s.paddr + s.memsz ≤ uintSize) (hx : x < 4096) : s.byte file (scratch + x) = none := by
  have hzero : ¬ (s.paddr + s.filesz ≤ scratch + x ∧ scratch + x < s.paddr + s.memsz) := by
    obtain ⟨haway, -⟩ := haway
    simp only [sectSize, scratch] at *
    omega
  rw [Segment.byte, if_neg hzero, if_neg (haway.sectors hsize hle hx)]

theorem Segment.fill_apply (hle : s.paddr + s.memsz ≤ uintSize) (ha : a < uintSize) :
    (if s.filesz < s.memsz then store m ((s.paddr + s.filesz) % uintSize) (s.memsz - s.filesz)
      Bytes.zero else m) a =
      if s.paddr + s.filesz ≤ a ∧ a < s.paddr + s.memsz then 0 else m a := by
  by_cases hlt : s.filesz < s.memsz
  · rw [if_pos hlt, Nat.mod_eq_of_lt (by omega), store_apply (by omega) ha]
    exact if_congr (by omega) rfl rfl
  · rw [if_neg hlt, if_neg (by omega)]

theorem Segment.load_ends (eph rounds : ℕ) (h : Headers (fileOf disk) m) (hph : ph + 32 ≤ 4096)
    (hs : s = segmentAt (fileOf disk) ph) (hends : s.Ends) (haway : s.Away)
    (hsize : s.filesz ≤ s.memsz) (hle : s.paddr + s.memsz ≤ uintSize) (hfuel : 2 ^ 24 ≤ fuel)
    (hlt : scratch + ph < eph) :
    ∃ m', loadSegments fuel disk eph (rounds + 1) (scratch + ph) m =
        loadSegments fuel disk eph rounds (scratch + (ph + 32)) m' ∧ Headers (fileOf disk) m' ∧
      ∀ a < uintSize, m' a = (s.byte (fileOf disk) a).getD (m a) := by
  have hfields : ∀ m, Headers (fileOf disk) m → phOff m (scratch + ph) = s.off ∧
    phPaddr m (scratch + ph) = s.paddr ∧
      phFilesz m (scratch + ph) = s.filesz ∧ phMemsz m (scratch + ph) = s.memsz := fun m hm => by
    have := hm.segmentAt hph
    rw [← hs] at this
    rw [← this]
    exact ⟨rfl, rfl, rfl, rfl⟩
  have hoff : s.off < uintSize := by
    rw [hs]
    exact Bytes.getLE_lt
  obtain ⟨m₁, hread, hm1⟩ := @readseg_ends disk m fuel s hends hoff hfuel
  have hh1 : Headers (fileOf disk) m₁ := fun i hi => by
    rw [hm1 _ (by simp only [scratch, uintSize]; omega), if_neg (haway.sectors hsize hle hi)]
    exact h i hi
  obtain ⟨ho, hp, hf, -⟩ := hfields m h
  obtain ⟨-, -, hf1, hz1⟩ := hfields m₁ hh1
  have hnext : (scratch + ph + 32) % uintSize = scratch + (ph + 32) := by
    simp only [scratch, uintSize]
    omega
  rw [loadSegments, if_pos hlt]
  simp only [ho, hp, hf, hread, bind_some, hf1, hz1, hnext]
  have hbyte : ∀ a < uintSize, (if s.filesz < s.memsz then
      store m₁ ((s.paddr + s.filesz) % uintSize) (s.memsz - s.filesz) Bytes.zero else m₁) a =
      (s.byte (fileOf disk) a).getD (m a) := fun a ha => by
    rw [Segment.fill_apply hle ha, hm1 a ha, Segment.byte]
    split_ifs <;> rfl
  refine ⟨_, rfl, fun i hi => ?_, hbyte⟩
  rw [hbyte _ (by simp only [scratch, uintSize]; omega), haway.byte hsize hle hi]
  exact h i hi

theorem Segment.load_diverges (h : Headers (fileOf disk) m) (hph : ph + 32 ≤ 4096)
    (hs : s = segmentAt (fileOf disk) ph) (hends : ¬ s.Ends) (hlt : scratch + ph < eph) :
    loadSegments fuel disk eph (rounds + 1) (scratch + ph) m = none := by
  have hread := @readseg_diverges disk m fuel s hends
  rw [hs, ← h.segmentAt hph] at hread
  rw [loadSegments, if_pos hlt]
  exact congrArg (Option.bind · _) hread

/-! ### All segments -/

theorem lastByte_cons (v : UInt8) :
    (lastByte file (s :: l) a).getD v = (lastByte file l a).getD ((s.byte file a).getD v) := by
  rw [lastByte, reverse_cons, List.findSome?_append, getD_or]
  simp only [List.findSome?_cons, List.findSome?_nil]
  cases s.byte file a <;> rfl

/-- The loop of `bootmain` from the header at `ph` on. -/
theorem loadSegments_ends (h : Headers (fileOf disk) m) (hph : ph + 32 * n ≤ 4096)
    (hends : ∀ s ∈ segmentsFrom (fileOf disk) ph n, s.Ends)
    (haway : ∀ s ∈ segmentsFrom (fileOf disk) ph n, s.Away)
    (hsizes : ∀ s ∈ segmentsFrom (fileOf disk) ph n, s.filesz ≤ s.memsz ∧
    s.paddr + s.memsz ≤ uintSize) (hfuel : 2 ^ 24 ≤ fuel) (hrounds : n < rounds) :
    ∃ m', loadSegments fuel disk (scratch + ph + 32 * n) rounds (scratch + ph) m = some m' ∧
    Headers (fileOf disk) m' ∧
      ∀ a < uintSize, m' a = (lastByte (fileOf disk) (segmentsFrom (fileOf disk) ph n) a).getD
      (m a) := by
  induction n generalizing ph m rounds with
  | zero =>
    obtain ⟨rounds, rfl⟩ := Nat.exists_eq_succ_of_ne_zero hrounds.ne'
    refine ⟨m, ?_, h, fun a _ => rfl⟩
    rw [loadSegments, if_neg (by omega)]
  | succ n ih =>
    obtain ⟨rounds, rfl⟩ := Nat.exists_eq_succ_of_ne_zero (by omega : rounds ≠ 0)
    rw [segmentsFrom] at *
    obtain ⟨hends0, hends⟩ := forall_mem_cons.1 hends
    obtain ⟨haway0, haway⟩ := forall_mem_cons.1 haway
    obtain ⟨hsize0, hsizes⟩ := forall_mem_cons.1 hsizes
    obtain ⟨m₁, hrun, h1, hm1⟩ := Segment.load_ends (scratch + ph + 32 * (n + 1)) rounds h
      (by omega) rfl hends0 haway0 hsize0.1 hsize0.2 hfuel (by omega)
    have heph : scratch + ph + 32 * (n + 1) = scratch + (ph + 32) + 32 * n := by omega
    obtain ⟨m', hrun', h', hm'⟩ := ih h1 (by omega) hends haway hsizes (by omega : n < rounds)
    refine ⟨m', ?_, h', fun a ha => ?_⟩
    · rw [hrun, heph, hrun']
    · rw [hm' a ha, hm1 a ha, lastByte_cons]

theorem ends_of_loadSegments (h : Headers (fileOf disk) m) (hph : ph + 32 * n ≤ 4096)
    (haway : ∀ s ∈ segmentsFrom (fileOf disk) ph n, s.Away)
    (hsizes : ∀ s ∈ segmentsFrom (fileOf disk) ph n, s.filesz ≤ s.memsz ∧
      s.paddr + s.memsz ≤ uintSize)
    (hfuel : 2 ^ 24 ≤ fuel)
    (hrun : loadSegments fuel disk (scratch + ph + 32 * n) rounds (scratch + ph) m = some m') :
    ∀ s ∈ segmentsFrom (fileOf disk) ph n, s.Ends := by
  induction n generalizing ph m rounds with
  | zero => exact fun s hs => absurd hs not_mem_nil
  | succ n ih =>
    cases rounds with
    | zero => cases hrun
    | succ rounds =>
    rw [segmentsFrom] at *
    obtain ⟨haway0, haway⟩ := forall_mem_cons.1 haway
    obtain ⟨hsize0, hsizes⟩ := forall_mem_cons.1 hsizes
    by_cases hends0 : (segmentAt (fileOf disk) ph).Ends
    · obtain ⟨m₁, hstep, h1, -⟩ :=
        Segment.load_ends (scratch + ph + 32 * (n + 1)) rounds h (by omega)
        rfl hends0 haway0 hsize0.1 hsize0.2 hfuel (by omega)
      have heph : scratch + ph + 32 * (n + 1) = scratch + (ph + 32) + 32 * n := by omega
      rw [hstep, heph] at hrun
      exact forall_mem_cons.2 ⟨hends0, ih h1 (by omega) haway hsizes hrun⟩
    · rw [Segment.load_diverges h (by omega) rfl hends0 (by omega)] at hrun
      cases hrun

theorem bootmain_eq (hk : Kernel (fileOf disk)) (m : Bytes) (hfuel : 2 ^ 24 ≤ fuel) :
    ∃ m₁, Headers (fileOf disk) m₁ ∧
    (∀ a < uintSize, a < scratch ∨ scratch + 4096 ≤ a → m₁ a = m a) ∧
      bootmain fuel disk m = (loadSegments fuel disk
        (scratch + (fileOf disk).getLE 4 28 + 32 * (fileOf disk).getLE 2 44) fuel
        (scratch + (fileOf disk).getLE 4 28) m₁).map
          fun m => (some (m.getLE 4 (scratch + 24)), m) := by
  obtain ⟨m₁, hread, hm1⟩ := @readseg_ends disk m fuel ⟨0, scratch, 4096, 4096⟩ (by decide)
    (by decide) hfuel
  have hstart : (⟨0, scratch, 4096, 4096⟩ : Segment).start = scratch ∧
      sectSize * (⟨0, scratch, 4096, 4096⟩ : Segment).sectors = 4096 := by decide
  simp only [hstart.1, hstart.2, Nat.zero_div, mul_zero, zero_add] at hm1
  have hh : Headers (fileOf disk) m₁ := fun i hi => by
    rw [hm1 _ (by simp only [scratch, uintSize]; omega), if_pos (by omega), Nat.add_sub_cancel_left]
  refine ⟨m₁, hh, fun a ha hout => (hm1 a ha).trans (if_neg (by omega)), ?_⟩
  have hheaders := hk.headers
  have hmagic := hh.getLE (x := 0) (k := 4) (by omega)
  have hphoff := hh.getLE (x := 28) (k := 4) (by omega)
  have hphnum := hh.getLE (x := 44) (k := 2) (by omega)
  have hph : (scratch + (fileOf disk).getLE 4 28) % uintSize = scratch + (fileOf disk).getLE 4 28 :=
    Nat.mod_eq_of_lt (by simp only [scratch, uintSize]; omega)
  have heph : (scratch + (fileOf disk).getLE 4 28 + 32 * (fileOf disk).getLE 2 44) % uintSize =
      scratch + (fileOf disk).getLE 4 28 + 32 * (fileOf disk).getLE 2 44 :=
    Nat.mod_eq_of_lt (by simp only [scratch, uintSize]; omega)
  rw [add_zero, hk.magic] at hmagic
  rw [bootmain, hread, bind_some, if_neg (fun hne => hne hmagic)]
  simp only [hphoff, hphnum, hph, heph]

theorem bootmain_spec (hk : Kernel (fileOf disk)) (hends : ∀ s ∈ segments (fileOf disk), s.Ends)
    (m : Bytes) (hfuel : 2 ^ 24 ≤ fuel) :
    ∃ m', bootmain fuel disk m = some (some ((fileOf disk).getLE 4 24), m') ∧
      ∀ a < uintSize, a < scratch ∨ scratch + 4096 ≤ a →
        m' a = (lastByte (fileOf disk) (segments (fileOf disk)) a).getD (m a) := by
  obtain ⟨m₁, hh, hframe, hrun⟩ := bootmain_eq hk m hfuel
  have hrounds : (fileOf disk).getLE 2 44 < fuel := by
    have := hk.headers
    omega
  obtain ⟨m', hload, hh', hm'⟩ :=
    loadSegments_ends hh hk.headers hends hk.away hk.sizes hfuel hrounds
  refine ⟨m', ?_, fun a ha hout => ?_⟩
  · rw [hrun, hload, map_some, hh'.getLE (by omega)]
  · rw [hm' a ha, hframe a ha hout, segments]

theorem ends_of_bootmain {r : Option ℕ × Bytes} (hk : Kernel (fileOf disk)) (hfuel : 2 ^ 24 ≤ fuel)
    (hrun : bootmain fuel disk m = some r) : ∀ s ∈ segments (fileOf disk), s.Ends := by
  obtain ⟨m₁, hh, -, heq⟩ := bootmain_eq hk m hfuel
  rw [heq, map_eq_some_iff] at hrun
  obtain ⟨m', hload, -⟩ := hrun
  exact ends_of_loadSegments hh hk.headers hk.away hk.sizes hfuel hload

theorem Kernel.outside (hk : Kernel file) (hs : s ∈ segments file) (ha : s.Has a) :
    a < uintSize ∧ (a < scratch ∨ scratch + 4096 ≤ a) := by
  obtain ⟨hlo, hhi⟩ := ha
  have hle := (hk.sizes s hs).2
  obtain ⟨haway, -⟩ := hk.away s hs
  refine ⟨by omega, ?_⟩
  simp only [sectSize, scratch] at *
  omega

/-- **When the kernel is loaded.**  Whatever is in the memory before, `bootmain` gets to the entry
point and every segment holds its bytes, if and only if no pointer to a sector wraps around, and the
last segment that writes a byte of a segment writes the byte that is wanted. -/
theorem bootmain_loads_iff (hk : Kernel (fileOf disk)) :
    (∀ m, ∃ N, ∀ fuel ≥ N, ∃ m', bootmain fuel disk m = some (some ((fileOf disk).getLE 4 24), m') ∧
        Loaded (fileOf disk) m') ↔
      (∀ s ∈ segments (fileOf disk), s.Ends) ∧ ∀ s ∈ segments (fileOf disk), ∀ a, s.Has a →
        lastByte (fileOf disk) (segments (fileOf disk)) a = some (s.want (fileOf disk) a) := by
  constructor
  · intro h
    have hends : ∀ s ∈ segments (fileOf disk), s.Ends := by
      obtain ⟨N, hN⟩ := h Bytes.zero
      obtain ⟨m', hrun, -⟩ := hN (max N (2 ^ 24)) (le_max_left _ _)
      exact ends_of_bootmain hk (le_max_right _ _) hrun
    refine ⟨hends, fun s hs a ha => ?_⟩
    -- a memory that does not hold the byte before
    obtain ⟨N, hN⟩ := h fun _ => s.want (fileOf disk) a + 1
    obtain ⟨m', hrun, hload⟩ := hN (max N (2 ^ 24)) (le_max_left _ _)
    obtain ⟨m'', hrun', hm''⟩ := @bootmain_spec disk (max N (2 ^ 24)) hk hends
      (fun _ => s.want (fileOf disk) a + 1) (le_max_right _ _)
    obtain rfl : m' = m'' := (Prod.mk.inj (Option.some.inj (hrun.symm.trans hrun'))).2
    obtain ⟨hlt, hout⟩ := hk.outside hs ha
    have heq := (hm'' a hlt hout).symm.trans (hload s hs a ha)
    cases hlast : lastByte (fileOf disk) (segments (fileOf disk)) a with
    | none =>
      rw [hlast] at heq
      exact absurd (add_eq_left.1 heq) (by decide)
    | some v =>
      rw [hlast] at heq
      exact congrArg some heq
  · rintro ⟨hends, hlast⟩ m
    refine ⟨2 ^ 24, fun fuel hfuel => ?_⟩
    obtain ⟨m', hrun, hm'⟩ := bootmain_spec hk hends m hfuel
    refine ⟨m', hrun, fun s hs a ha => ?_⟩
    obtain ⟨hlt, hout⟩ := hk.outside hs ha
    rw [hm' a hlt hout, hlast s hs a ha]
    rfl

/-! ### Segments that are apart -/

/-- There is room for the sectors of the segment. -/
structure Segment.Fits (s : Segment) : Prop where
  low : s.off % sectSize ≤ s.paddr
  high : s.paddr - s.off % sectSize + sectSize * ((s.off % sectSize + s.filesz + 511) / sectSize) <
    uintSize

theorem Segment.Fits.start (h : s.Fits) : s.start = s.paddr - s.off % sectSize := by
  obtain ⟨hlow, hhigh⟩ := h
  simp only [Segment.start, sectSize, uintSize] at *
  omega

theorem Segment.Fits.sectors (h : s.Fits) :
    s.sectors = (s.off % sectSize + s.filesz + 511) / sectSize := by
  rw [Segment.sectors, h.start]
  obtain ⟨hlow, hhigh⟩ := h
  simp only [sectSize, uintSize] at *
  rw [Nat.mod_eq_of_lt (by omega)]
  congr 1
  omega

theorem Segment.Fits.ends (h : s.Fits) : s.Ends := by
  rw [Segment.Ends, h.start, h.sectors]
  exact h.high

theorem Segment.Fits.byte (h : s.Fits) (ha : s.Has a) : s.byte file a = some (s.want file a) := by
  rw [Segment.byte, Segment.want, h.start, h.sectors]
  obtain ⟨hlow, -⟩ := h
  obtain ⟨hle, hlt⟩ := ha
  by_cases hz : a < s.paddr + s.filesz
  · simp only [sectSize] at *
    rw [if_neg (by omega), if_pos (by omega), if_pos hz]
    exact congrArg (some <| file ·) (by omega)
  · rw [if_pos ⟨by omega, hlt⟩, if_neg hz]

theorem Segment.byte_of_lt (hstart : a < s.start) (hpaddr : a < s.paddr) :
    s.byte file a = none := by
  rw [Segment.byte, if_neg (by omega), if_neg (by omega)]

/-- **Segments whose first sectors do not begin in earlier ones are loaded.** -/
theorem apart_loads (hfits : ∀ s ∈ l, s.Fits)
    (hapart : l.Pairwise fun s t => s.paddr + s.memsz ≤ t.start) :
    (∀ s ∈ l, s.Ends) ∧ ∀ s ∈ l, ∀ a, s.Has a → lastByte file l a = some (s.want file a) := by
  refine ⟨fun s hs => (hfits s hs).ends, fun s hs a ha => ?_⟩
  induction l with
  | nil => cases hs
  | cons t l ih =>
    obtain ⟨hfits0, hfits'⟩ := forall_mem_cons.1 hfits
    obtain ⟨hapart0, hapart'⟩ := pairwise_cons.1 hapart
    rw [lastByte, reverse_cons, List.findSome?_append]
    rcases mem_cons.1 hs with rfl | hs
    · -- no later segment writes there
      have hnone : l.reverse.findSome? (fun t => t.byte file a) = none := by
        rw [List.findSome?_eq_none_iff]
        intro t ht
        have hlt := lt_of_lt_of_le ha.2 (hapart0 t (mem_reverse.1 ht))
        have hstart := (hfits' t (mem_reverse.1 ht)).start
        exact Segment.byte_of_lt hlt (by omega)
      rw [hnone, none_or, List.findSome?_cons, hfits0.byte ha]
    · have hlast := ih hfits' hapart' hs
      rw [lastByte] at hlast
      rw [hlast, some_or]

/-- **Segments that begin with sectors of the file are loaded.** -/
theorem aligned_loads (hk : Kernel file) (hal : ∀ s ∈ segments file, s.off % sectSize = 0)
    (htop : ∀ s ∈ segments file, s.Ends ∧ s.paddr + s.filesz < uintSize) :
    (∀ s ∈ segments file, s.Ends) ∧ ∀ s ∈ segments file, ∀ a, s.Has a →
      lastByte file (segments file) a = some (s.want file a) := by
  have hfits : ∀ s ∈ segments file, s.Fits := fun s hs => by
    obtain ⟨hends, hlt⟩ := htop s hs
    have hmod := hal s hs
    refine ⟨by omega, ?_⟩
    simp only [Segment.Ends, Segment.start, Segment.sectors, sectSize, uintSize] at *
    omega
  refine apart_loads hfits (hk.increasing.imp_of_mem fun {s t} _ ht hst => ?_)
  rw [(hfits t ht).start, hal t ht, Nat.sub_zero]
  exact hst

/-! ### Two segments next to each other -/

/-- A program header at `ph`, for a segment of four bytes. -/
def putHeader (file : Bytes) (ph off paddr : ℕ) : Bytes :=
  (((file.putLE 4 (ph + 4) off).putLE 4 (ph + 12) paddr).putLE 4 (ph + 16) 4).putLE 4 (ph + 20) 4

/-- A disk with a kernel of two segments: four bytes 1 for `0x100000`, and the four bytes at `off`
for `0x100004`.  The bytes at 4608 are 2. -/
def twoSegments (off : ℕ) : Bytes :=
  let header := ((Bytes.zero.putLE 4 512 elfMagic).putLE 4 (512 + 28) 52).putLE 2 (512 + 44) 2
  let headers := putHeader (putHeader header (512 + 52) 4096 0x100000) (512 + 84) off 0x100004
  (headers.copy (512 + 4096) 4 fun _ => 1).copy (512 + 4608) 4 fun _ => 2

theorem bootmain_loads_iff_aligned : Kernel (fileOf (twoSegments 5120)) ∧
    ∀ m, ∃ N, ∀ fuel ≥ N, ∃ m', bootmain fuel (twoSegments 5120) m =
      some (some ((fileOf (twoSegments 5120)).getLE 4 24), m') ∧
      Loaded (fileOf (twoSegments 5120)) m' := by
  have hk : Kernel (fileOf (twoSegments 5120)) :=
    ⟨by decide +kernel, by decide +kernel, by decide +kernel, by decide +kernel, by decide +kernel⟩
  exact ⟨hk, (bootmain_loads_iff hk).2 (aligned_loads hk (by decide +kernel) (by decide +kernel))⟩

/-- **A segment that is overwritten**: the second one is at offset 4 of its sector, so the four
bytes before it are read over the first one, which holds 2 instead of 1. -/
theorem bootmain_overwrites : Kernel (fileOf (twoSegments 4612)) ∧
    (∃ s ∈ segments (fileOf (twoSegments 4612)), s.Has 0x100000 ∧
      s.want (fileOf (twoSegments 4612)) 0x100000 = 1) ∧
    ∀ m, ∀ fuel ≥ 2 ^ 24, ∃ m', bootmain fuel (twoSegments 4612) m =
      some (some ((fileOf (twoSegments 4612)).getLE 4 24), m') ∧ m' 0x100000 = 2 := by
  have hk : Kernel (fileOf (twoSegments 4612)) :=
    ⟨by decide +kernel, by decide +kernel, by decide +kernel, by decide +kernel, by decide +kernel⟩
  have hends : ∀ s ∈ segments (fileOf (twoSegments 4612)), s.Ends := by decide +kernel
  refine ⟨hk, by decide +kernel, fun m fuel hfuel => ?_⟩
  obtain ⟨m', hrun, hm'⟩ := bootmain_spec hk hends m hfuel
  have hlast : lastByte (fileOf (twoSegments 4612)) (segments (fileOf (twoSegments 4612)))
      0x100000 = some 2 := by
    decide +kernel
  refine ⟨m', hrun, ?_⟩
  rw [hm' _ (by decide) (by decide), hlast]
  rfl

end Boot

end Xv6
