import Mathlib.Data.List.Nodup
import Xv6.Prog.Update

/-!
# Circular doubly linked lists

A list head and nodes of type `ι` are linked by two tables of pointers, `next` and `prev`; the head
is `none`, a node is `some i`.  `Path next prev x l y` says that following `next` from `x` one meets
the nodes `l` and then `y`, and that `prev` leads back the same way.  The list of the head is `l` if
`Path next prev none l none`.

`unlink` and `insertHead` are the usual assignments; `walk` searches for a node.
-/

namespace Xv6

namespace Dll

variable {ι : Type*}

/-- A table of pointers. -/
abbrev Ptr (ι : Type*) := Option ι → Option ι

/-- From `x` along the nodes `l` to `y`, and back. -/
def Path (next prev : Ptr ι) : Option ι → List ι → Option ι → Prop
  | x, [], y => next x = y ∧ prev y = x
  | x, i :: l, y => next x = some i ∧ prev (some i) = x ∧ Path next prev (some i) l y

variable {next prev next' prev' : Ptr ι} {x y : Option ι} {l a b : List ι} {i : ι}

theorem Path.next_eq (h : Path next prev x l y) : next x = (l.head?.map some).getD y := by
  cases l with
  | nil => exact h.1
  | cons j l => exact h.1

theorem path_append : Path next prev x (a ++ i :: b) y ↔
    Path next prev x a (some i) ∧ Path next prev (some i) b y := by
  induction a generalizing x with
  | nil => simp only [List.nil_append, Path, and_assoc]
  | cons j a ih => simp only [List.cons_append, Path, ih, and_assoc]

theorem Path.congr (h : Path next prev x l y) (hx : next' x = next x)
    (hn : ∀ i ∈ l, next' (some i) = next (some i)) (hp : ∀ i ∈ l, prev' (some i) = prev (some i))
    (hy : prev' y = prev y) : Path next' prev' x l y := by
  induction l generalizing x with
  | nil => exact ⟨hx.trans h.1, hy.trans h.2⟩
  | cons i l ih =>
    obtain ⟨h1, h2, h3⟩ := h
    exact ⟨hx.trans h1, (hp i (by simp)).trans h2, ih h3 (hn i (by simp))
      (fun j hj => hn j (by simp [hj])) fun j hj => hp j (by simp [hj])⟩

theorem Path.reverse (h : Path next prev x l y) : Path prev next y l.reverse x := by
  induction l generalizing x with
  | nil => exact ⟨h.2, h.1⟩
  | cons i l ih =>
    obtain ⟨h1, h2, h3⟩ := h
    rw [List.reverse_cons]
    exact path_append.2 ⟨ih h3, h2, h1⟩

/-- The first node from `x` on that passes the test, after at most `fuel` steps. -/
def walk (next : Ptr ι) (test : ι → Bool) : ℕ → Option ι → Option ι
  | 0, _ => none
  | _ + 1, none => none
  | fuel + 1, some i => if test i then some i else walk next test fuel (next (some i))

theorem Path.walk_eq {test : ι → Bool} {fuel : ℕ} (h : Path next prev x l none)
    (hf : l.length < fuel) :
    walk next test fuel (next x) = l.find? test := by
  induction l generalizing x fuel with
  | nil =>
    rw [h.1]
    cases fuel <;> rfl
  | cons i l ih =>
    obtain ⟨h1, -, h3⟩ := h
    obtain ⟨fuel, rfl⟩ : ∃ n, fuel = n + 1 := ⟨fuel - 1, by omega⟩
    rw [h1, walk, List.find?_cons]
    split
    · simp [*]
    · rw [ih h3 (by simpa using hf)]
      simp [*]

variable [DecidableEq ι]

/-- Take node `i` out: `i->next->prev = i->prev; i->prev->next = i->next`. -/
def unlink (next prev : Ptr ι) (i : ι) : Ptr ι × Ptr ι :=
  (upd next (prev (some i)) (next (some i)), upd prev (next (some i)) (prev (some i)))

/-- Put node `i` after the head: `i->next = head.next; i->prev = &head; head.next->prev = i;
head.next = i`. -/
def insertHead (next prev : Ptr ι) (i : ι) : Ptr ι × Ptr ι :=
  (upd (upd next (some i) (next none)) none (some i), upd (upd prev (some i) none)
      (next none) (some i))

theorem Path.insertHead (h : Path next prev none l none) (hi : i ∉ l) (hl : l.Nodup) :
    Path (insertHead next prev i).1 (insertHead next prev i).2 none (i :: l) none := by
  have hne : next none ≠ some i := fun he => by
    rw [h.next_eq] at he
    cases l with
    | nil => cases he
    | cons j l =>
      obtain rfl : j = i := by simpa using he
      simp at hi
  refine ⟨by simp [Dll.insertHead], by simp [Dll.insertHead, hne.symm], ?_⟩
  cases l with
  | nil => exact ⟨by simp [Dll.insertHead, h.1], by simp [Dll.insertHead, h.1]⟩
  | cons j l =>
  obtain ⟨h1, h2, h3⟩ := h
  obtain ⟨hj, -⟩ := List.nodup_cons.1 hl
  have hij : j ≠ i := fun he => hi (by simp [he])
  have hil : ∀ k ∈ l, k ≠ i ∧ k ≠ j := fun k hk =>
    ⟨fun he => hi (by simp [← he, hk]), fun he => hj (he ▸ hk)⟩
  refine ⟨by simp [Dll.insertHead, h1], by simp [Dll.insertHead, h1], h3.congr ?_ (fun k hk => ?_)
    (fun k hk => ?_) ?_⟩
  · simp [Dll.insertHead, hij]
  · simp [Dll.insertHead, (hil k hk).1]
  · simp [Dll.insertHead, h1, (hil k hk).1, (hil k hk).2]
  · simp [Dll.insertHead, h1]

theorem Path.unlink (h : Path next prev x a (some i)) (h' : Path next prev (some i) b y)
    (hnd : (a ++ i :: b).Nodup) (hx : ∀ j ∈ a ++ i :: b, x ≠ some j)
    (hy : ∀ j ∈ a ++ i :: b, y ≠ some j) :
    Path (unlink next prev i).1 (unlink next prev i).2 x (a ++ b) y := by
  induction a generalizing x with
  | nil =>
    obtain ⟨-, h2⟩ := h
    cases b with
    | nil => exact ⟨by simp [Dll.unlink, h2, h'.1], by simp [Dll.unlink, h2, h'.1]⟩
    | cons n b =>
    obtain ⟨h3, h4, h5⟩ := h'
    have hb : (n :: b).Nodup := hnd.of_cons
    obtain ⟨hn, -⟩ := List.nodup_cons.1 hb
    refine ⟨by simp [Dll.unlink, h2, h3], by simp [Dll.unlink, h2, h3], h5.congr ?_
      (fun k hk => ?_) (fun k hk => ?_) ?_⟩
    · simp [Dll.unlink, h2, (hx n (by simp)).symm]
    · simp [Dll.unlink, h2, (hx k (by simp [hk])).symm]
    · have : k ≠ n := fun he => hn (he ▸ hk)
      simp [Dll.unlink, h3, this]
    · simp [Dll.unlink, h3, hy n (by simp)]
  | cons j a ih =>
    obtain ⟨h1, h2, h3⟩ := h
    have hnd' : (a ++ i :: b).Nodup := hnd.of_cons
    have hj : ∀ k ∈ a ++ i :: b, (some j : Option ι) ≠ some k := fun k hk he =>
      (List.nodup_cons.1 hnd).1 (Option.some.inj he ▸ hk)
    -- the pointers that change are not those between `x` and `j`
    have hp : prev (some i) ≠ x := fun he => by
      have := h3.reverse.next_eq
      rw [he] at this
      cases hr : a.reverse with
      | nil =>
        rw [hr] at this
        exact hx j (by simp) (by simpa using this)
      | cons k r =>
        have hk : k ∈ a := by rw [← List.mem_reverse, hr]; simp
        rw [hr] at this
        exact hx k (by simp [hk]) (by simpa using this)
    have hn : next (some i) ≠ some j := fun he => by
      have := h'.next_eq
      rw [he] at this
      cases b with
      | nil => exact hy j (by simp) (by simpa using this.symm)
      | cons k b => exact hj k (by simp) (by simpa using this)
    refine ⟨by simp [Dll.unlink, hp.symm, h1], by simp [Dll.unlink, hn.symm, h2], ?_⟩
    exact ih h3 hnd' hj fun k hk =>
      hy k (by simp only [List.cons_append, List.mem_cons]; exact .inr hk)

theorem Path.moveFront (h : Path next prev none l none) (hl : l.Nodup) (hi : i ∈ l) :
    let q := Dll.unlink next prev i
    Path (Dll.insertHead q.1 q.2 i).1 (Dll.insertHead q.1 q.2 i).2 none (i :: l.erase i) none := by
  obtain ⟨a, b, -, rfl, he⟩ := List.exists_erase_eq hi
  obtain ⟨h1, h2⟩ := path_append.1 h
  rw [he]
  have hnd := List.nodup_middle.1 hl
  exact (h1.unlink h2 hl nofun nofun).insertHead (List.nodup_cons.1 hnd).1 (List.nodup_cons.1 hnd).2

end Dll

end Xv6
