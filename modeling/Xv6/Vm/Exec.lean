import Mathlib.Logic.Equiv.Basic
import Xv6.Vm.Process
import Xv6.Vm.User

/-!
# The new image of `exec`

`exec` builds the new image in a directory of its own, which it keeps or gives back as a whole; its
size is below `KERNBASE`.  The image is then given to the process: directories change their owners
(`Holds.reindex`).
-/

namespace Xv6

namespace Vm

variable {ι κ : Type} [DecidableEq ι] [DecidableEq κ]
variable {k : Symbols} {g g' : Ghost ι κ} {m m' : Mem} {o : ι} {ip : File} {sz : ℕ}

theorem usub_lt (a b : ℕ) : usub a b < uintSize := Nat.mod_lt _ (by decide)

theorem loadProgram_spec {n off : ℕ} (h : Holds k g m) (ho : g.dir o ≠ 0) (h0 : g.hand 0 = 0)
    (h1 : g.hand 1 = 0) (hsz : sz < kernBase) :
    wp (loadProgram k (g.dir o) ip n off sz) (fun r m' => (∃ g', UserFrame o g g' ∧ Holds k g' m') ∧
      ∀ sz', r = some sz' → sz' < kernBase) (fun e _ => e ≠ .fuel) m := by
  induction n generalizing g m off sz with
  | zero => exact ⟨⟨g, .refl o g, h⟩, fun sz' hr => Option.some.inj hr ▸ hsz⟩
  | succ n ih =>
    have bad : ∀ {m' : Mem}, (∃ g', UserFrame o g g' ∧ Holds k g' m') →
        wp (pure none : Act (Option ℕ)) (fun r m' => (∃ g', UserFrame o g g' ∧ Holds k g' m') ∧
          ∀ sz', r = some sz' → sz' < kernBase) (fun e _ => e ≠ .fuel) m' := fun hg => ⟨hg, nofun⟩
    simp only [loadProgram]
    generalize hph : Proghdr.get (ip.bytes.drop off) = ph
    have hv : ph.vaddr < uintSize := hph ▸ Bytes.getLE_lt
    have hm : ph.memsz < uintSize := hph ▸ Bytes.getLE_lt
    refine wp_ite.2 ⟨fun _ => bad ⟨g, .refl o g, h⟩, fun _ => ?_⟩
    refine wp_ite.2 ⟨fun _ => ih h ho h0 h1 hsz, fun _ => ?_⟩
    refine wp_ite.2 ⟨fun _ => bad ⟨g, .refl o g, h⟩, fun hfile => ?_⟩
    refine wp_ite.2 ⟨fun _ => bad ⟨g, .refl o g, h⟩, fun hwrap => ?_⟩
    -- the sum does not wrap
    have hend : (ph.vaddr + ph.memsz) % uintSize = ph.vaddr + ph.memsz := by
      simp only [uintSize] at *
      omega
    rw [hend, wp_bind]
    refine wp_mono (allocuvm_spec h ho h0 h1) (fun r m₁ hx => ?_) fun e _ he => by rw [he]; decide
    obtain ⟨⟨g₁, hf1, h₁⟩, hr⟩ := hx
    refine wp_ite.2 ⟨fun _ => bad ⟨g₁, hf1, h₁⟩, fun hr0 => ?_⟩
    refine wp_ite.2 ⟨fun _ => bad ⟨g₁, hf1, h₁⟩, fun hal => ?_⟩
    rw [wp_bind, ← hf1.dir]
    have ho1 : g₁.dir o ≠ 0 := by rwa [hf1.dir]
    refine wp_mono (loaduvm_spec h₁ ho1 (by omega)) (fun r' m₂ h2 => ?_) fun e _ he => ?_
    · refine wp_ite.2 ⟨fun _ => bad ⟨g₁, hf1, h2⟩, fun _ => ?_⟩
      refine wp_post (ih h2 ho1 (by rw [hf1.hand, h0]) (by rw [hf1.hand, h1]) (by omega))
        fun r'' m₃ hx => ?_
      obtain ⟨⟨g₃, hf3, h3⟩, hr''⟩ := hx
      exact ⟨⟨g₃, hf1.trans hf3, h3⟩, hr''⟩
    · rcases he with rfl | rfl <;> decide

omit [DecidableEq ι] [DecidableEq κ] in
theorem pushArgs_spec {argv : List (List UInt8)} {sp : ℕ} {us : List ℕ} (h : Holds k g m)
    (ho : g.dir o ≠ 0) (hg : Guarded o g) :
    wp (pushArgs (g.dir o) argv sp us) (fun _ m' => Holds k g m')
    (fun e _ => e = .nullDeref) m := by
  induction argv generalizing m sp us with
  | nil => exact h
  | cons s argv ih =>
    rw [pushArgs]
    refine wp_ite.2 ⟨fun _ => h, fun _ => ?_⟩
    rw [wp_bind]
    have hva : usub sp (s.length + 1) / 4 * 4 < uintSize :=
      lt_of_le_of_lt (Nat.div_mul_le_self _ _) (usub_lt _ _)
    refine wp_post (copyout_holds h ho hg hva) fun r m₁ h1 => ?_
    exact wp_ite.2 ⟨fun _ => h1, fun _ => ih h1⟩

/-! ## The two halves of the new image -/

/-- `loadImage` up to the arguments: the program, a guard page and the stack. -/
def loadStack (k : Symbols) (pgdir : ℕ) (ip : File) (elf : Elfhdr) : Act (Option ℕ) := do
  match ← loadProgram k pgdir ip elf.phnum elf.phoff 0 with
  | none => return none
  | some sz =>
    let sz := pgRoundUp sz
    let sz ← allocuvm k pgdir sz ((sz + 2 * pgSize) % uintSize)
    if sz = 0 then return none
    else
      clearpteu pgdir (usub sz (2 * pgSize))
      return some sz

/-- The rest of `loadImage`, with the last value of `sp`, which is `tf->esp` of the new program. -/
def pushStack (pgdir : ℕ) (argv : List (List UInt8)) (sz : ℕ) : Act (Option ℕ) := do
  match ← pushArgs pgdir argv sz [] with
  | none => return none
  | some (sp, args) =>
    let argc := args.length
    let ustack := [0xffffffff, argc, usub sp ((argc + 1) * 4)] ++ args ++ [0]
    let sp := usub sp ((3 + argc + 1) * 4)
    if (← copyout pgdir sp (wordBytes ustack) ((3 + argc + 1) * 4)) < 0 then return none
    else return some sp

omit [DecidableEq ι] [DecidableEq κ] in
theorem wp_loadImage {d : ℕ} {elf : Elfhdr} {argv : List (List UInt8)} {Q : Option ℕ → Mem → Prop}
    {E : Panic → Mem → Prop} :
    wp (loadImage k d ip elf argv) Q E m ↔
      wp (loadStack k d ip elf) (fun r m₁ => match r with
        | none => Q none m₁
        | some sz => wp (pushStack d argv sz) (fun r m₂ => Q (r.map fun _ => sz) m₂) E m₁) E m := by
  unfold loadImage loadStack
  rw [wp_bind, wp_bind]
  refine wp_congr fun r m₁ => ?_
  cases r with
  | none => exact Iff.rfl
  | some sz =>
  simp only [wp_bind]
  refine wp_congr fun sz m₂ => ?_
  by_cases hsz : sz = 0
  · rw [if_pos hsz, if_pos hsz]
    exact Iff.rfl
  rw [if_neg hsz, if_neg hsz, wp_bind, wp_bind]
  refine wp_congr fun _ m₃ => ?_
  unfold pushStack
  simp only [wp_pure, wp_bind]
  refine wp_congr fun r m₄ => ?_
  cases r with
  | none => exact Iff.rfl
  | some x =>
    simp only [wp_bind]
    refine wp_congr fun c m₅ => ?_
    by_cases hc : c < 0
    · rw [if_pos hc, if_pos hc]
      exact Iff.rfl
    · rw [if_neg hc, if_neg hc]
      exact Iff.rfl

/-- The stack is at the end of the image, after a page that the program cannot use. -/
structure Stacked (o : ι) (g : Ghost ι κ) (sz : ℕ) : Prop where
  aligned : sz % pgSize = 0
  le : 2 * pgSize ≤ sz
  lt : sz < kernBase
  guard : userBit (g.ent o (sz / pgSize - 2)) = false

theorem loadStack_spec {elf : Elfhdr} (h : Holds k g m) (ho : g.dir o ≠ 0) (h0 : g.hand 0 = 0)
    (h1 : g.hand 1 = 0) :
    wp (loadStack k (g.dir o) ip elf) (fun r m' => ∃ g', UserFrame o g g' ∧ Holds k g' m' ∧
      ∀ sz, r = some sz → Stacked o g' sz) (fun e _ => e ≠ .fuel) m := by
  unfold loadStack
  refine wp_seq (loadProgram_spec h ho h0 h1 (by decide)) fun r m₁ hx => ?_
  obtain ⟨⟨g₁, hf1, h₁⟩, hr⟩ := hx
  cases r with
  | none => exact ⟨g₁, hf1, h₁, nofun⟩
  | some sz =>
  have hsz := hr sz rfl
  have ho1 : g₁.dir o ≠ 0 := by rwa [hf1.dir]
  have hup : pgRoundUp sz ≤ kernBase := by
    unfold pgRoundUp
    simp only [kernBase, pgSize, uintSize] at *
    omega
  simp only [wp_bind]
  generalize hend : (pgRoundUp sz + 2 * pgSize) % uintSize = newsz
  have hnew : newsz = pgRoundUp sz + 2 * pgSize := by
    simp only [kernBase, pgSize, uintSize] at *
    omega
  rw [← hf1.dir]
  refine wp_mono (allocuvm_spec h₁ ho1 (by rw [hf1.hand, h0]) (by rw [hf1.hand, h1]))
    (fun r m₂ hx => ?_) fun e _ he => by rw [he]; decide
  obtain ⟨⟨g₂, hf2, h2⟩, hr2⟩ := hx
  refine wp_ite.2 ⟨fun _ => ⟨g₂, hf1.trans hf2, h2, nofun⟩, fun hr0 => ?_⟩
  -- the stack is above the program
  have hr : r = pgRoundUp sz + 2 * pgSize ∧ r < kernBase := by omega
  have hal := pgRoundUp_mod sz
  have ho2 : g₂.dir o ≠ 0 := by rwa [hf2.dir]
  have hguard : usub r (2 * pgSize) = pgRoundUp sz := by
    unfold usub
    simp only [kernBase, pgSize, uintSize] at *
    omega
  rw [← hf2.dir, wp_bind, hguard]
  refine wp_mono (clearpteu_spec h2 ho2 (by omega)) (fun _ m₃ hx => ?_) fun e _ he => by
    rw [he.1]; decide
  obtain ⟨g₃, hf3, h3, hu, -⟩ := hx
  refine ⟨g₃, hf1.trans (hf2.trans hf3), h3, fun sz' hx => ?_⟩
  cases hx
  have hpage : r / pgSize - 2 = pgRoundUp sz / pgSize := by
    simp only [pgSize] at *
    omega
  refine ⟨?_, by omega, hr.2, hpage ▸ hu⟩
  simp only [pgSize] at *
  omega

omit [DecidableEq ι] [DecidableEq κ] in
theorem pushStack_holds {argv : List (List UInt8)} (h : Holds k g m) (ho : g.dir o ≠ 0)
    (hg : Guarded o g) :
    wp (pushStack (g.dir o) argv sz) (fun _ m' => Holds k g m') (fun e _ => e = .nullDeref) m := by
  unfold pushStack
  refine wp_seq (pushArgs_spec h ho hg) fun r m₁ h1 => ?_
  cases r with
  | none => exact h1
  | some x =>
    refine wp_seq (copyout_holds h1 ho hg (usub_lt _ _)) fun r' m₂ h2 => ?_
    exact wp_ite.2 ⟨fun _ => h2, fun _ => h2⟩

theorem loadImage_spec {elf : Elfhdr} {argv : List (List UInt8)} (h : Holds k g m)
    (ho : g.dir o ≠ 0) (h0 : g.hand 0 = 0) (h1 : g.hand 1 = 0) (hg : Guarded o g) :
    wp (loadImage k (g.dir o) ip elf argv) (fun r m' => (∃ g', UserFrame o g g' ∧ Holds k g' m') ∧
      ∀ sz', r = some sz' → sz' < kernBase) (fun e _ => e ≠ .fuel) m := by
  rw [wp_loadImage]
  refine wp_post (loadStack_spec h ho h0 h1) fun r m₁ hx => ?_
  obtain ⟨g₁, hf1, h₁, hr⟩ := hx
  cases r with
  | none => exact ⟨⟨g₁, hf1, h₁⟩, nofun⟩
  | some sz =>
    rw [← hf1.dir]
    refine wp_mono (pushStack_holds h₁ (by rwa [hf1.dir]) (hg.frame hf1))
      (fun r' m₂ h2 => ?_) fun e _ he => by rw [he]; decide
    refine ⟨⟨g₁, hf1, h2⟩, fun sz' hx => ?_⟩
    obtain ⟨_, -, rfl⟩ := Option.map_eq_some_iff.1 hx
    exact (hr sz rfl).lt

/-! ## Other owners -/

omit [DecidableEq ι] [DecidableEq κ]

/-- The directories of `g`, with other owners. -/
def Ghost.reindex (g : Ghost ι κ) (e : Equiv.Perm ι) : Ghost ι κ :=
  { g with
    dir := fun o => g.dir (e o)
    tab := fun o => g.tab (e o)
    ent := fun o => g.ent (e o) }

/-- The same role for another owner. -/
def Role.reindex (e : Equiv.Perm ι) : Role ι κ → Role ι κ
  | .dir o => .dir (e o)
  | .table o i => .table (e o) i
  | .user o v => .user (e o) v
  | r => r

theorem Ghost.reindex_page (g : Ghost ι κ) (e : Equiv.Perm ι) (r : Role ι κ) :
    (g.reindex e).page r = g.page (r.reindex e) := by
  cases r <;> rfl

theorem Role.reindex_reindex (e : Equiv.Perm ι) (r : Role ι κ) :
    (r.reindex e.symm).reindex e = r := by
  cases r <;> simp [Role.reindex]

theorem Role.reindex_symm (e : Equiv.Perm ι) (r : Role ι κ) : (r.reindex e).reindex e.symm = r := by
  cases r <;> simp [Role.reindex]

theorem Holds.reindex (h : Holds k g m) (e : Equiv.Perm ι) : Holds k (g.reindex e) m where
  tables := ⟨fun o => h.tables.pde (e o), fun o => h.tables.pte (e o), fun o =>
    h.tables.tab_none (e o), fun o => h.tables.ent_none (e o), fun o => h.tables.ent_user (e o)⟩
  pool := by
    refine ⟨h.pool.sure, h.pool.chain, h.pool.nodup, h.pool.free_lt, ?_⟩
    refine h.pool.owns.reindex (Role.reindex e) (fun r _ => (g.reindex_page e r).symm) ?_ ?_
      k.first_pos
    · intro r r' _ _ hr
      have := congrArg (Role.reindex e.symm) hr
      rwa [Role.reindex_symm, Role.reindex_symm] at this
    · exact fun r _ => ⟨r.reindex e.symm, by rw [g.reindex_page, Role.reindex_reindex]⟩

end Vm

end Xv6
