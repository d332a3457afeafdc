import Mathlib.Data.List.Pairwise
import Xv6.Malloc.Alloc

/-!
# The heap of a process

* `heap_holds` : **in every run of a process whose requests are small, the heap satisfies its
  invariant**, every pointer has its bytes to itself, and `malloc` and `free` end and keep the
  contents of the live blocks.
* `units_iff` : **the arithmetic of `malloc` is exact if and only if the request is small**, and in
  runs of small requests the bytes of a block are bytes that `sbrk` has returned.
* `malloc_wraps` : the largest request is rounded up to one unit, which is the header.

A process writes to its blocks as it likes, which does not reach any header (`Inv.write`).
-/

namespace Xv6

namespace Malloc

variable {mem : Bytes} {base brk n a r : ℕ} {b : UInt8} {fs live live' : List Block} {h : Heap}
  {s s' : State} {l : Label} {ls : List Label} {x : ℕ × ℕ} {B : Block}

/-- The block of a pointer `x.1` to `x.2` bytes. -/
def blockOf (x : ℕ × ℕ) : Block := ⟨x.1 - headerSize, nunits x.2⟩

/-- The `x.2` bytes at `x.1` lie in the block of `x`, above its header. -/
structure Fits (x : ℕ × ℕ) : Prop where
  start : (blockOf x).addr + headerSize = x.1
  stop : x.1 + x.2 ≤ (blockOf x).stop

theorem nunits_small (hn : n + 2 * headerSize ≤ uintSize / 2) :
    n + headerSize ≤ nunits n * headerSize ∧ nunits n * headerSize < uintSize / 2 := by
  unfold nunits
  simp only [headerSize, uintSize] at *
  omega

/-- Larger requests that are rounded up without a carry. -/
theorem nunits_big (hn : n < uintSize) (hbig : uintSize / 2 < n + 2 * headerSize)
    (hle : n + headerSize ≤ nunits n * headerSize) :
    uintSize / 2 ≤ nunits n * headerSize ∧ nunits n * headerSize ≤ uintSize := by
  unfold nunits at *
  simp only [headerSize, uintSize] at *
  omega

theorem coreUnits_eq : coreUnits n = max n 4096 := by
  unfold coreUnits
  split_ifs <;> omega

/-- `sbrk` would be called with a negative number, or with 0. -/
theorem coreBytes_big (h1 : uintSize / 2 ≤ n * headerSize) (h2 : n * headerSize ≤ uintSize) :
    coreBytes n ≤ 0 := by
  unfold coreBytes coreUnits toInt
  simp only [headerSize, uintSize] at *
  split_ifs <;> omega

/-! ### The invariant -/

theorem Inv.perm (hI : Inv base h fs live) (hp : live.Perm live') : Inv base h fs live' := by
  refine ⟨hI.layout.perm hp, hI.links, fun x hx => hI.sizes x ?_, hI.freep⟩
  simpa [hp.mem_iff] using hx

instance : Std.Symm Apart := ⟨fun _ _ => Apart.symm⟩

/-- A byte of a live block is not in a header of another block. -/
theorem Layout.away_byte {regions : List (ℕ × ℕ)} (hL : Layout base brk regions fs live)
    (hB : B ∈ live) (h1 : B.addr + headerSize ≤ a) (h2 : a < B.stop) {y : Block}
    (hy : y ∈ baseBlock base :: (fs ++ live)) :
    ¬ (y.addr ≤ a ∧ a < y.addr + headerSize) := by
  rintro ⟨h3, h4⟩
  have hlow := hL.low B (by simp [hB])
  rcases List.mem_cons.1 hy with rfl | hy
  · simp only [baseBlock] at h4
    omega
  have hpos := hL.pos y hy
  have hapart : y = B ∨ Apart y B := by
    rcases List.mem_append.1 hy with hy | hy
    · exact .inr (hL.apart_free y hy B hB)
    · by_cases he : y = B
      · exact .inl he
      · exact .inr (hL.apart.forall hy hB he)
  rcases hapart with rfl | hapart
  · omega
  · simp only [Apart, Block.stop, headerSize] at *
    omega

theorem Inv.write (hI : Inv base h fs live) (hB : B ∈ live) (h1 : B.addr + headerSize ≤ a)
    (h2 : a < B.stop) :
    Inv base { h with mem := upd h.mem a b } fs live := by
  have hsame : ∀ y ∈ baseBlock base :: (fs ++ live), ∀ c, y.addr ≤ c → c < y.addr + headerSize →
      upd h.mem a b c = h.mem c := fun y hy c h3 h4 => by
    have := hI.layout.away_byte hB h1 h2 hy
    rw [upd_eq_update, Function.update_of_ne (by rintro rfl; exact this ⟨h3, h4⟩)]
  refine ⟨hI.layout, hI.links.congr fun y hy => ?_, fun y hy => ?_, hI.freep⟩
  · exact Bytes.getLE_congr fun c h3 h4 => hsame y (by simp at hy ⊢; tauto) c h3
      (by simp only [headerSize]; omega)
  · refine (Bytes.getLE_congr fun c h3 h4 => ?_).trans (hI.sizes y hy)
    exact hsame y hy c (by omega) (by simp only [headerSize]; omega)

theorem Ready.sbrk (hR : Ready base h live) (sbrk : ℕ → Option ℕ) :
    Ready base { h with sbrk } live := by
  rcases hR with hR | ⟨fs, hI⟩
  · exact .inl hR
  · exact .inr ⟨fs, hI.layout, hI.links, hI.sizes, hI.freep⟩

/-- The invariant of a process. -/
structure Sound (base : ℕ) (s : State) : Prop where
  ready : Ready base s.heap (s.live.map blockOf)
  fits : ∀ x ∈ s.live, Fits x

/-- The block of a pointer that is to be freed comes first. -/
theorem Sound.first (hS : Sound base s) (hx : x ∈ s.live) :
    ∃ fs, Inv base s.heap fs (blockOf x :: (s.live.erase x).map blockOf) := by
  rcases hS.ready with ⟨-, hnil, -⟩ | ⟨fs, hI⟩
  · rw [List.map_eq_nil_iff] at hnil
    simp [hnil] at hx
  · exact ⟨fs, hI.perm ((List.perm_cons_erase hx).map blockOf)⟩

theorem Sound.init (hbase : 0 < base) (hlow : base + headerSize ≤ brk) (hhigh : brk < uintSize) :
    Sound base (init mem brk) := by
  refine ⟨.inl ⟨rfl, rfl, hbase, ⟨hlow, hhigh⟩, ?_, ?_, ?_, .nil, .nil, ?_, ?_⟩, ?_⟩ <;>
    simp [Malloc.init, Covers]

/-! ### The steps -/

theorem Sound.malloc (hS : Sound base s) (hn : n + 2 * headerSize ≤ uintSize / 2)
    (sbrk : ℕ → Option ℕ) :
    wp (malloc base n) (fun r h' => Sound base ⟨h', if r = 0 then s.live else (r, n) :: s.live⟩ ∧
      Kept s.heap.mem h'.mem (s.live.map blockOf)) (fun e _ => e = .sbrk) { s.heap with sbrk } := by
  obtain ⟨hle, hlt⟩ := nunits_small hn
  refine wp_post (malloc_spec (hS.ready.sbrk sbrk) hlt) fun r h' hx => ⟨?_, hx.1⟩
  rcases hx.2 with ⟨rfl, fs, hI⟩ | ⟨q, fs, rfl, hI⟩
  · exact ⟨.inr ⟨fs, by simpa using hI⟩, by simpa using hS.fits⟩
  rw [if_neg (by simp only [headerSize]; omega)]
  have hblock : blockOf (q + headerSize, n) = ⟨q, nunits n⟩ := by simp [blockOf]
  refine ⟨.inr ⟨fs, ?_⟩, fun x hx => ?_⟩
  · rw [List.map_cons, hblock]
    exact hI
  rcases List.mem_cons.1 hx with rfl | hx
  · refine ⟨by rw [hblock], ?_⟩
    rw [hblock]
    simp only [Block.stop, headerSize] at hle ⊢
    omega
  · exact hS.fits x hx

theorem Sound.free (hS : Sound base s) (hx : x ∈ s.live) :
    wp (free x.1)
    (fun _ h' => Sound base ⟨h', s.live.erase x⟩ ∧
    Kept s.heap.mem h'.mem ((s.live.erase x).map blockOf))
      (fun _ _ => False) s.heap := by
  obtain ⟨fs, hI⟩ := hS.first hx
  rw [← (hS.fits x hx).start]
  refine wp_post (free_spec hI) fun _ h' hf => ?_
  obtain ⟨⟨fs', hI', -⟩, hkept, -⟩ := hf
  exact ⟨⟨.inr ⟨fs', hI'⟩, fun y hy => hS.fits y (List.mem_of_mem_erase hy)⟩, hkept⟩

theorem Sound.write (hS : Sound base s) (hx : x ∈ s.live) (h1 : x.1 ≤ a) (h2 : a < x.1 + x.2) :
    Sound base { s with heap := { s.heap with mem := upd s.heap.mem a b } } := by
  obtain ⟨hstart, hstop⟩ := hS.fits x hx
  refine ⟨.inr ?_, hS.fits⟩
  rcases hS.ready with ⟨-, hnil, -⟩ | ⟨fs, hI⟩
  · rw [List.map_eq_nil_iff] at hnil
    simp [hnil] at hx
  · exact ⟨fs, hI.write (List.mem_map_of_mem hx) (by omega) (by omega)⟩

theorem step_free {p : ℕ} {u : Unit} {h' : Heap} (hx : s.live.find? (·.1 == p) = some x)
    (hf : free p s.heap = .ok u h') : step base s (.free p) = some ⟨h', s.live.erase x⟩ := by
  rw [Malloc.step, hf, hx]

theorem step_free_none {p : ℕ} (hx : s.live.find? (·.1 == p) = none) :
    step base s (.free p) = none := by
  rw [Malloc.step, hx]

theorem Sound.step (hS : Sound base s) (hst : step base s l = some s') (hsmall : Small s l) :
    Sound base s' := by
  cases l with
  | malloc n sbrk =>
    simp only [Malloc.step] at hst
    split_ifs at hst
    split at hst
    · rename_i r h' hm
      cases hst
      exact ((hS.malloc hsmall sbrk).ok hm).1
    · simp at hst
  | free p =>
    cases hfind : s.live.find? (·.1 == p) with
    | none => simp [step_free_none hfind] at hst
    | some x =>
      obtain rfl : x.1 = p := by simpa using List.find?_some hfind
      obtain ⟨u, h', hf, hS', -⟩ := (hS.free (List.mem_of_find?_eq_some hfind)).exists_ok
      obtain rfl := Option.some.inj ((step_free hfind hf).symm.trans hst)
      exact hS'
  | write a b =>
    simp only [Malloc.step] at hst
    split_ifs at hst with hc
    obtain ⟨x, hx, h1, h2⟩ := hc
    cases hst
    exact hS.write hx h1 h2

/-- **The invariant holds in every run of small requests.** -/
theorem Sound.run (hS : Sound base s) (hr : ((system base).restrict Small).Run s ls s') :
    Sound base s' :=
  hr.invariant hS fun _ _ _ hS hst => hS.step hst.1 hst.2

/-! ### The results -/

/-- **The heap of a process**, in every run of requests below 2^31 bytes: the free list and what it
covers; the bytes of each pointer; `malloc`, which ends unless `sbrk` returns a region that is not
new, and `free`, which always ends. -/
theorem heap_holds (hbase : 0 < base) (hlow : base + headerSize ≤ brk) (hhigh : brk < uintSize)
    (hr : ((system base).restrict Small).Run (init mem brk) ls s) :
    ((s.heap.freep = 0 ∧ s.live = [] ∧ ∀ x ∈ s.heap.regions, x.2 = 0) ∨
      ∃ fs, Inv base s.heap fs (s.live.map blockOf)) ∧
    (∀ x ∈ s.live, Fits x) ∧
    (∀ n sbrk, Small s (.malloc n sbrk) → wp (malloc base n)
      (fun _ h' => Kept s.heap.mem h'.mem (s.live.map blockOf)) (fun e _ => e = .sbrk)
      { s.heap with sbrk }) ∧
    ∀ x ∈ s.live, wp (free x.1) (fun _ h' => Kept s.heap.mem h'.mem ((s.live.erase x).map blockOf))
      (fun _ _ => False) s.heap := by
  have hS := (Sound.init hbase hlow hhigh).run hr
  refine ⟨?_, hS.fits, fun n sbrk hn => ?_, fun x hx => ?_⟩
  · refine hS.ready.imp_left fun ⟨h₀, hnil, hL⟩ => ⟨h₀, List.map_eq_nil_iff.1 hnil, fun x hx => ?_⟩
    by_contra hne
    have := (hL.cover x.1).2 ⟨x, hx, le_rfl, by omega⟩
    simp [Covers] at this
  · exact wp_post (hS.malloc hn sbrk) fun _ _ h => h.2
  · exact wp_post (hS.free hx) fun _ _ h => h.2

instance (s : State) : ∀ l, Decidable (Small s l)
  | .malloc n _ => inferInstanceAs (Decidable (n + 2 * headerSize ≤ uintSize / 2))
  | .free _ | .write .. => isTrue trivial

/-- Two requests, of which the first is freed. -/
def shortRun : List Label :=
  [.malloc 10 fun _ => some 0x2000, .malloc 100 fun _ => none, .write 0x9ff0 1, .free 0x9ff0]

theorem heap_holds_run :
    ∃ s, ((system 0x1000).restrict Small).Run (init (fun _ => 0) 0x2000) shortRun s ∧
    s.live = [(0x9f80, 100)] ∧ ∃ fs, Inv 0x1000 s.heap fs (s.live.map blockOf) := by
  obtain ⟨s, hs, hd⟩ := Option.map_eq_some_iff.1 (show
    (LTS.exec (fun s l => if Small s l then step 0x1000 s l else none) (init (fun _ => 0) 0x2000)
      shortRun).map State.live = some [(0x9f80, 100)] by decide +kernel)
  have hr := LTS.run_restrict_of_exec hs
  refine ⟨s, hr, hd, ?_⟩
  exact (heap_holds (by decide) (by decide) (by decide) hr).1.resolve_left fun h => by
    simp [hd] at h

/-- **The arithmetic of `malloc`** is exact if and only if the request, with its header, is below
2^31 bytes; in runs of such requests every byte of a block is a byte that `sbrk` has returned. -/
theorem units_iff (base brk : ℕ) (mem : Bytes) (hbase : 0 < base) (hlow : base + headerSize ≤ brk)
    (hhigh : brk < uintSize) :
    (∀ nbytes < uintSize, (nbytes + headerSize ≤ nunits nbytes * headerSize ∧
        coreBytes (nunits nbytes) = (max (nunits nbytes) 4096 * headerSize : ℕ) ∧
        0 < coreBytes (nunits nbytes)) ↔
      nbytes + 2 * headerSize ≤ uintSize / 2) ∧
    ∀ ls s, ((system base).restrict Small).Run (init mem brk) ls s →
      ∀ x ∈ s.live, ∀ a, x.1 ≤ a → a < x.1 + x.2 → ∃ r ∈ s.heap.regions, r.1 ≤ a ∧
      a < r.1 + r.2 := by
  refine ⟨fun nbytes hn => ⟨fun ⟨h₁, h₂, h₃⟩ => ?_, fun hn' => ?_⟩, fun ls s hr x hx a h₁ h₂ => ?_⟩
  · by_contra hbig
    have hunits := nunits_big hn (by omega) h₁
    exact (coreBytes_big hunits.1 hunits.2).not_gt h₃
  · obtain ⟨hle, hlt⟩ := nunits_small hn'
    have hcore : coreBytes (nunits nbytes) = (max (nunits nbytes) 4096 * headerSize : ℕ) := by
      rw [coreBytes_eq hlt, coreUnits_eq, mul_comm]
    refine ⟨hle, hcore, ?_⟩
    rw [hcore]
    exact Int.natCast_pos.2 (Nat.mul_pos (by omega) (by decide))
  · have hS := (Sound.init hbase hlow hhigh).run hr
    obtain ⟨fs, hI⟩ := hS.first hx
    obtain ⟨hstart, hstop⟩ := hS.fits x hx
    refine (hI.layout.cover a).1 ⟨blockOf x, by simp, ?_, ?_⟩ <;> omega

theorem units_iff_init : (∀ nbytes < uintSize, (nbytes + headerSize ≤ nunits nbytes * headerSize ∧
        coreBytes (nunits nbytes) = (max (nunits nbytes) 4096 * headerSize : ℕ) ∧
        0 < coreBytes (nunits nbytes)) ↔
      nbytes + 2 * headerSize ≤ uintSize / 2) ∧
    ∀ ls s, ((system 0x1000).restrict Small).Run (init (fun _ => 0) 0x2000) ls s →
      ∀ x ∈ s.live, ∀ a, x.1 ≤ a → a < x.1 + x.2 → ∃ r ∈ s.heap.regions, r.1 ≤ a ∧ a < r.1 + r.2 :=
  units_iff 0x1000 0x2000 (fun _ => 0) (by decide) (by decide) (by decide)

/-- A request of 2^32 - 1 bytes gets a block of one unit, the header. -/
theorem malloc_wraps :
    ∃ s, (system 0x1000).Run (init (fun _ => 0) 0x2000)
    [.malloc 0xffffffff fun _ => some 0x2000] s ∧ s.live = [(0xa000, 0xffffffff)] ∧
    s.heap.regions = [(0x2000, 0x8000)] ∧ nunits 0xffffffff = 1 := by
  obtain ⟨s, hs, hd⟩ := Option.map_eq_some_iff.1 (show
    (LTS.exec (step 0x1000) (init (fun _ => 0) 0x2000)
      [.malloc 0xffffffff fun _ => some 0x2000]).map (fun s => (s.live, s.heap.regions)) = some
      ([(0xa000, 0xffffffff)], [(0x2000, 0x8000)]) by decide +kernel)
  rw [Prod.mk.injEq] at hd
  exact ⟨s, LTS.run_of_exec hs, hd.1, hd.2, by decide⟩

end Malloc

end Xv6
